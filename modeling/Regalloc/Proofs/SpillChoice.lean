import Mathlib
import Regalloc.Proofs.SureColors

/-!
# The cheapest variable to spill

Costs are compared without division. The fold over the candidates still finds the least fraction
of uses per neighbor, and of equal fractions the first, because cross products order fractions as
their values do, as long as they are numbers of 64 bits: what is kept so far and the next candidate
give the smaller of the two ranks. The candidates of an attempt stay in order while variables are
taken out, and all of them are used, so every choice of the allocator is the cheapest, unless the
function is huge.
-/

namespace Regalloc

theorem IndexSet.pairwise_toList {α : Type} [Indexed α] (s : IndexSet α) :
    s.toList.Pairwise fun a b => Indexed.index a < Indexed.index b := by
  rw [toList, List.pairwise_map]
  simp only [Indexed.index_ofIndex]
  exact List.pairwise_lt_range.filter _

namespace Coloring

def listing (left : VarSet) (uses degree : Var → Nat) : List Candidate :=
  left.toList.map fun v => ⟨v, uses v, degree v⟩

/-- Temporaries compete only if nothing else is left. -/
def Competes (temporaries left : VarSet) (v : Var) : Prop :=
  v ∈ left ∧ (v ∈ temporaries → ∀ other ∈ left, other ∈ temporaries)

/-- Uses per neighbor as an exact fraction. What has no neighbors is dearer than all that have
some. -/
def costRatio (uses degree : Nat) : WithTop ℚ :=
  if degree = 0 then ⊤ else ((uses / degree : ℚ) : WithTop ℚ)

namespace Candidate

def rank (candidate : Candidate) : WithTop ℚ ×ₗ ℕ :=
  toLex (costRatio candidate.uses candidate.degree, candidate.v.index)

/-- Cross products that do not wrap around compare fractions, also if a degree is zero, as long as
there are uses. -/
theorem cheaper_iff {first second : Candidate} (used : 0 < second.uses)
    (left : first.uses * second.degree < Text.wordBound)
    (right : second.uses * first.degree < Text.wordBound) :
    first.cheaper second = true ↔
      costRatio first.uses first.degree < costRatio second.uses second.degree := by
  simp only [cheaper, decide_eq_true_eq, costRatio, Nat.mod_eq_of_lt left, Nat.mod_eq_of_lt right]
  by_cases alone : first.degree = 0
  · simp [alone]
  · by_cases other : second.degree = 0
    · have positive : 0 < second.uses * first.degree :=
        Nat.mul_pos used (Nat.pos_of_ne_zero alone)
      simp [alone, other, positive]
    · have firstPos : (0 : ℚ) < first.degree := by
        exact_mod_cast Nat.pos_of_ne_zero alone
      have secondPos : (0 : ℚ) < second.degree := by
        exact_mod_cast Nat.pos_of_ne_zero other
      rw [if_neg alone, if_neg other, WithTop.coe_lt_coe, div_lt_div_iff₀ firstPos secondPos]
      exact_mod_cast Iff.rfl

/-- The later of two candidates replaces the earlier one exactly if its rank is smaller. -/
theorem cheaper_iff_rank_lt {earlier later : Candidate} (used : 0 < earlier.uses)
    (left : later.uses * earlier.degree < Text.wordBound)
    (right : earlier.uses * later.degree < Text.wordBound)
    (order : earlier.v.index < later.v.index) :
    later.cheaper earlier = true ↔ later.rank < earlier.rank := by
  rw [cheaper_iff used left right, rank, rank, Prod.Lex.toLex_lt_toLex]
  constructor
  · exact Or.inl
  · rintro (less | ⟨-, backwards⟩)
    · exact less
    · exact absurd backwards (Nat.lt_asymm order)

end Candidate

def Fits (candidates : List Candidate) : Prop :=
  ∀ a ∈ candidates, ∀ b ∈ candidates, a.v ≠ b.v → a.uses * b.degree < Text.wordBound

theorem Fits.mono {candidates fewer : List Candidate} (fits : Fits candidates)
    (inside : ∀ a ∈ fewer, a ∈ candidates) : Fits fewer :=
  fun a left b right => fits a (inside a left) b (inside b right)

theorem better_rank {best candidate : Candidate} (used : 0 < best.uses)
    (fits : Fits [best, candidate]) (order : best.v.index < candidate.v.index) :
    ∃ kept, better (some best) candidate = some kept ∧ (kept = best ∨ kept = candidate) ∧
      kept.rank = min best.rank candidate.rank := by
  have apart : best.v ≠ candidate.v := fun same => Nat.ne_of_lt order (congrArg Var.index same)
  have compared : candidate.cheaper best = true ↔ candidate.rank < best.rank :=
    Candidate.cheaper_iff_rank_lt used (fits _ (by simp) _ (by simp) apart.symm)
      (fits _ (by simp) _ (by simp) apart) order
  rw [better_some]
  by_cases less : candidate.cheaper best = true
  · have smaller := compared.mp less
    exact ⟨candidate, by rw [if_pos less], Or.inr rfl, (min_eq_right smaller.le).symm⟩
  · have larger : best.rank ≤ candidate.rank := not_lt.mp (mt compared.mpr less)
    exact ⟨best, by rw [if_neg less], Or.inl rfl, (min_eq_left larger).symm⟩

theorem foldl_better_least (candidates : List Candidate) (best : Candidate)
    (sorted : (best :: candidates).Pairwise fun a b => a.v.index < b.v.index)
    (used : ∀ candidate ∈ best :: candidates, 0 < candidate.uses)
    (fits : Fits (best :: candidates)) :
    ∃ chosen ∈ best :: candidates, candidates.foldl better (some best) = some chosen ∧
      ∀ other ∈ best :: candidates, chosen.rank ≤ other.rank := by
  induction candidates generalizing best with
  | nil => exact ⟨best, List.mem_singleton_self best, rfl, by simp⟩
  | cons first rest ih =>
      obtain ⟨before, sorted⟩ := List.pairwise_cons.mp sorted
      obtain ⟨after, sorted⟩ := List.pairwise_cons.mp sorted
      obtain ⟨kept, step, place, least⟩ := better_rank (used best List.mem_cons_self)
        (fits.mono (by simp)) (before first List.mem_cons_self)
      -- Either of the two comes before the rest, so what is kept can be compared with it again.
      have low : ∀ other ∈ rest, kept.v.index < other.v.index := by
        intro other member
        rcases place with rfl | rfl
        · exact before other (List.mem_cons_of_mem _ member)
        · exact after other member
      have inside : kept ∈ best :: first :: rest := by
        rcases place with rfl | rfl <;> simp
      have insideRest : ∀ candidate ∈ kept :: rest, candidate ∈ best :: first :: rest := by
        intro candidate member
        rcases List.mem_cons.mp member with rfl | member
        · exact inside
        · exact List.mem_cons_of_mem _ (List.mem_cons_of_mem _ member)
      obtain ⟨chosen, member, found, smallest⟩ :=
        ih kept (List.pairwise_cons.mpr ⟨low, sorted⟩)
          (fun candidate member => used candidate (insideRest candidate member))
          (fits.mono insideRest)
      have first_bound : chosen.rank ≤ min best.rank first.rank :=
        least ▸ smallest kept List.mem_cons_self
      refine ⟨chosen, insideRest chosen member, by rw [List.foldl_cons, step, found], ?_⟩
      intro other listed
      rcases List.mem_cons.mp listed with rfl | listed
      · exact first_bound.trans (min_le_left _ _)
      · rcases List.mem_cons.mp listed with rfl | listed
        · exact first_bound.trans (min_le_right _ _)
        · exact smallest other (List.mem_cons_of_mem _ listed)

section Sorted

variable {temporaries : VarSet} {candidates : List Candidate}

theorem sorted_spillable (temporaries : VarSet)
    (sorted : (candidates.map Candidate.v).Pairwise fun u v => u.index < v.index) :
    (spillable temporaries candidates).Pairwise fun a b => a.v.index < b.v.index := by
  have listed := List.pairwise_map.mp sorted
  simp only [spillable]
  split
  · exact listed
  · exact listed.filter _

theorem chooseSpill_least
    (sorted : (candidates.map Candidate.v).Pairwise fun u v => u.index < v.index)
    (used : ∀ candidate ∈ spillable temporaries candidates, 0 < candidate.uses)
    (fits : Fits (spillable temporaries candidates)) (occupied : candidates ≠ []) :
    ∃ chosen ∈ spillable temporaries candidates,
      chooseSpill temporaries candidates = some chosen.v ∧
        ∀ other ∈ spillable temporaries candidates, chosen.rank ≤ other.rank := by
  obtain ⟨_, _, found⟩ := chooseSpill_some temporaries occupied
  have ascending := sorted_spillable temporaries sorted
  unfold chooseSpill at found ⊢
  cases listed : spillable temporaries candidates with
  | nil => simp [listed] at found
  | cons first rest =>
      rw [listed] at used ascending fits
      obtain ⟨chosen, member, kept, smallest⟩ := foldl_better_least rest first ascending used fits
      refine ⟨chosen, member, ?_, smallest⟩
      rw [List.foldl_cons, show better none first = some first from rfl, kept, Option.map_some]

end Sorted

section Listing

variable {temporaries left : VarSet} {uses degree : Var → Nat}

theorem mem_listing {candidate : Candidate} :
    candidate ∈ listing left uses degree ↔
      candidate.v ∈ left ∧ candidate = ⟨candidate.v, uses candidate.v, degree candidate.v⟩ := by
  simp only [listing, List.mem_map, IndexSet.mem_toList]
  constructor
  · rintro ⟨v, member, rfl⟩
    exact ⟨member, rfl⟩
  · rintro ⟨member, same⟩
    exact ⟨candidate.v, member, same.symm⟩

theorem sorted_listing (left : VarSet) (uses degree : Var → Nat) :
    ((listing left uses degree).map Candidate.v).Pairwise fun u v => u.index < v.index := by
  have same : (listing left uses degree).map Candidate.v = left.toList := by
    rw [listing, List.map_map]
    exact List.map_id _
  rw [same]
  exact left.pairwise_toList

theorem listing_eq_nil : listing left uses degree = [] ↔ left = ∅ := by
  rw [IndexSet.eq_empty_iff, List.eq_nil_iff_forall_not_mem]
  constructor
  · intro none v member
    exact none ⟨v, uses v, degree v⟩ (mem_listing.mpr ⟨member, rfl⟩)
  · intro none candidate member
    exact none candidate.v (mem_listing.mp member).1

theorem mem_spillable_listing {candidate : Candidate} :
    candidate ∈ spillable temporaries (listing left uses degree) ↔
      Competes temporaries left candidate.v ∧
        candidate = ⟨candidate.v, uses candidate.v, degree candidate.v⟩ := by
  constructor
  · intro member
    obtain ⟨inside, same⟩ := mem_listing.mp (mem_of_mem_spillable member)
    refine ⟨⟨inside, fun temporary other listed => ?_⟩, same⟩
    exact mem_temporaries_of_spillable member temporary ⟨other, uses other, degree other⟩
      (mem_listing.mpr ⟨listed, rfl⟩)
  · rintro ⟨⟨inside, competes⟩, same⟩
    have listed : candidate ∈ listing left uses degree := mem_listing.mpr ⟨inside, same⟩
    simp only [spillable]
    split
    · exact listed
    · rename_i lasting
      refine List.mem_filter.mpr ⟨listed, ?_⟩
      by_contra held
      have temporary : candidate.v ∈ temporaries := by
        simpa [IndexSet.mem_def, IndexSet.contains] using held
      apply lasting
      rw [List.isEmpty_iff, List.filter_eq_nil_iff]
      intro other member
      have all := competes temporary other.v (mem_listing.mp member).1
      have contained : temporaries.contains other.v = true := all
      simp [contained]

theorem chooseSpill_listing_eq_none :
    chooseSpill temporaries (listing left uses degree) = none ↔ left = ∅ := by
  constructor
  · intro none
    by_contra occupied
    obtain ⟨_, _, found⟩ := chooseSpill_some temporaries (mt listing_eq_nil.mp occupied)
    rw [none] at found
    cases found
  · intro empty
    rw [listing_eq_nil.mpr empty]
    rfl

end Listing

/-- Something is chosen to be spilled unless nothing is left. If the products of uses and neighbors
are numbers of 64 bits, it is a variable that competes, has the least fraction of uses per neighbor
of all that do, and the lowest index of all that have this fraction. -/
theorem chooseSpill_cheapest (temporaries left : VarSet) (uses degree : Var → Nat)
    (used : ∀ v, Competes temporaries left v → 1 ≤ uses v) :
    (chooseSpill temporaries (listing left uses degree) = none ↔ left = ∅) ∧
    ((∀ u v, Competes temporaries left u → Competes temporaries left v → u ≠ v →
        uses u * degree v < Text.wordBound) →
      ∀ v, chooseSpill temporaries (listing left uses degree) = some v ↔
        Competes temporaries left v ∧ ∀ other, Competes temporaries left other →
          costRatio (uses v) (degree v) < costRatio (uses other) (degree other) ∨
          costRatio (uses v) (degree v) = costRatio (uses other) (degree other) ∧
            v.index ≤ other.index) := by
  refine ⟨chooseSpill_listing_eq_none, fun small => ?_⟩
  by_cases empty : left = ∅
  · refine fun v => iff_of_false ?_ ?_
    · rw [chooseSpill_listing_eq_none.mpr empty]
      exact (Option.some_ne_none v).symm
    · rintro ⟨⟨member, -⟩, -⟩
      exact IndexSet.eq_empty_iff.mp empty v member
  · have positive : ∀ candidate ∈ spillable temporaries (listing left uses degree),
        0 < candidate.uses := by
      intro candidate member
      obtain ⟨competes, same⟩ := mem_spillable_listing.mp member
      rw [same]
      exact used candidate.v competes
    have fits : Fits (spillable temporaries (listing left uses degree)) := by
      intro a first b second apart
      obtain ⟨competes, same⟩ := mem_spillable_listing.mp first
      obtain ⟨competes', same'⟩ := mem_spillable_listing.mp second
      rw [same, same']
      exact small a.v b.v competes competes' apart
    obtain ⟨chosen, member, found, smallest⟩ :=
      chooseSpill_least (sorted_listing left uses degree) positive fits
        (mt listing_eq_nil.mp empty)
    obtain ⟨competes, same⟩ := mem_spillable_listing.mp member
    have least : ∀ other, Competes temporaries left other →
        Candidate.rank ⟨chosen.v, uses chosen.v, degree chosen.v⟩ ≤
          Candidate.rank ⟨other, uses other, degree other⟩ := by
      intro other competing
      rw [← same]
      exact smallest _ (mem_spillable_listing.mpr ⟨competing, rfl⟩)
    intro v
    rw [found, Option.some.injEq]
    constructor
    · rintro rfl
      exact ⟨competes, fun other competing => Prod.Lex.toLex_le_toLex.mp (least other competing)⟩
    · rintro ⟨competing, ordered⟩
      -- Both have the smallest rank, and the rank tells the index.
      have lower : Candidate.rank ⟨v, uses v, degree v⟩ ≤
          Candidate.rank ⟨chosen.v, uses chosen.v, degree chosen.v⟩ :=
        Prod.Lex.toLex_le_toLex.mpr (ordered chosen.v competes)
      have equal := le_antisymm (least v competing) lower
      exact IndexSet.index_injective (congrArg (fun rank => (ofLex rank).2) equal)

/-- The fractions of the last four are unbounded, a half, a half and one. The first is the least
but belongs to a temporary. -/
theorem chooseSpill_cheapest_equal_halves :
    chooseSpill (IndexSet.ofList [⟨0⟩])
      (listing (IndexSet.ofList [⟨0⟩, ⟨1⟩, ⟨2⟩, ⟨3⟩, ⟨4⟩]) (fun v => v.index + 1)
        fun v => [9, 0, 6, 8, 5].getD v.index 0) = some ⟨2⟩ ∧
    ∀ other, Competes (IndexSet.ofList [⟨0⟩]) (IndexSet.ofList [⟨0⟩, ⟨1⟩, ⟨2⟩, ⟨3⟩, ⟨4⟩]) other →
      costRatio 3 6 < costRatio (other.index + 1) ([9, 0, 6, 8, 5].getD other.index 0) ∨
      costRatio 3 6 = costRatio (other.index + 1) ([9, 0, 6, 8, 5].getD other.index 0) ∧
        2 ≤ other.index := by
  have chosen : chooseSpill (IndexSet.ofList [⟨0⟩])
      (listing (IndexSet.ofList [⟨0⟩, ⟨1⟩, ⟨2⟩, ⟨3⟩, ⟨4⟩]) (fun v => v.index + 1)
        fun v => [9, 0, 6, 8, 5].getD v.index 0) = some ⟨2⟩ := by
    decide +kernel
  have small : ∀ u ∈ IndexSet.ofList [(⟨0⟩ : Var), ⟨1⟩, ⟨2⟩, ⟨3⟩, ⟨4⟩],
      ∀ v ∈ IndexSet.ofList [(⟨0⟩ : Var), ⟨1⟩, ⟨2⟩, ⟨3⟩, ⟨4⟩],
        (u.index + 1) * [9, 0, 6, 8, 5].getD v.index 0 < Text.wordBound := by
    simp only [IndexSet.mem_ofList]
    decide
  obtain ⟨-, cheapest⟩ := chooseSpill_cheapest (IndexSet.ofList [⟨0⟩])
    (IndexSet.ofList [⟨0⟩, ⟨1⟩, ⟨2⟩, ⟨3⟩, ⟨4⟩]) (fun v => v.index + 1)
    (fun v => [9, 0, 6, 8, 5].getD v.index 0) fun v _ => Nat.le_add_left 1 v.index
  exact ⟨chosen,
    ((cheapest (fun u v left right _ => small u left.1 v right.1) ⟨2⟩).mp chosen).2⟩

/-- Where products wrap around, the choice is not the cheapest. Both variables are used as often,
and the second has twice the neighbors. -/
theorem chooseSpill_wraps :
    chooseSpill ∅ (listing (IndexSet.ofList [⟨0⟩, ⟨1⟩]) (fun _ => 2 ^ 32)
      fun v => 2 ^ (32 + v.index)) = some ⟨0⟩ ∧
    Competes ∅ (IndexSet.ofList [⟨0⟩, ⟨1⟩]) ⟨1⟩ ∧
    costRatio (2 ^ 32) (2 ^ 33) < costRatio (2 ^ 32) (2 ^ 32) := by
  refine ⟨by decide +kernel, ⟨by decide, fun member => absurd member (by decide)⟩, ?_⟩
  rw [costRatio, costRatio, if_neg (by norm_num), if_neg (by norm_num), WithTop.coe_lt_coe]
  norm_num

structure Remaining (graph : Interference) (uses : Var → Nat) (left : List Candidate) :
    Prop where
  sorted : (left.map Candidate.v).Pairwise fun u v => u.index < v.index
  uses : ∀ candidate ∈ left, candidate.uses = uses candidate.v
  degree : ∀ candidate ∈ left, candidate.degree ≤ graph.degree (.var candidate.v)
  inside : ∀ candidate ∈ left, .var candidate.v ∈ graph.nodes

section Remaining

variable {graph : Interference} {uses : Var → Nat} {temporaries : VarSet} {colors : Nat}
  {start left : List Candidate} {taken : List Removal} {removal : Removal}

theorem remaining_candidates (graph : Interference) (uses : Var → Nat) :
    Remaining graph uses (candidates graph uses) := by
  refine ⟨sorted_listing _ uses _, ?_, ?_, ?_⟩
  · intro candidate member
    obtain ⟨v, -, rfl⟩ := List.mem_map.mp member
    rfl
  · intro candidate member
    obtain ⟨v, -, rfl⟩ := List.mem_map.mp member
    exact Nat.le_refl _
  · intro candidate member
    obtain ⟨v, listed, rfl⟩ := List.mem_map.mp member
    simpa using listed

theorem Remaining.remove (remaining : Remaining graph uses left) (v : Var) :
    Remaining graph uses (remove graph v left) := by
  have original : ∀ candidate ∈ Coloring.remove graph v left,
      ∃ earlier ∈ left, candidate.v = earlier.v ∧ candidate.uses = earlier.uses ∧
        candidate.degree ≤ earlier.degree := by
    intro candidate member
    obtain ⟨earlier, kept, rfl⟩ := List.mem_map.mp member
    refine ⟨earlier, (List.mem_filter.mp kept).1, ?_⟩
    split
    · exact ⟨rfl, rfl, Nat.sub_le ..⟩
    · exact ⟨rfl, rfl, Nat.le_refl _⟩
  refine ⟨?_, ?_, ?_, ?_⟩
  · rw [map_v_remove]
    exact remaining.sorted.filter _
  · intro candidate member
    obtain ⟨earlier, listed, same, used, -⟩ := original candidate member
    rw [used, same]
    exact remaining.uses earlier listed
  · intro candidate member
    obtain ⟨earlier, listed, same, -, fewer⟩ := original candidate member
    rw [same]
    exact fewer.trans (remaining.degree earlier listed)
  · intro candidate member
    obtain ⟨earlier, listed, same, -⟩ := original candidate member
    rw [same]
    exact remaining.inside earlier listed

theorem TakesOut.remaining (run : TakesOut graph temporaries colors start taken left)
    (remaining : Remaining graph uses start) : Remaining graph uses left := by
  induction run with
  | done => exact remaining
  | next _ _ ih => exact ih (remaining.remove _)

theorem chooseSpill_of_nextRemoval (next : nextRemoval temporaries colors left = some removal)
    (risky : removal.risky = true) : chooseSpill temporaries left = some removal.v := by
  unfold nextRemoval at next
  split at next
  · cases next
    cases risky
  · obtain ⟨v, chosen, rfl⟩ := Option.map_eq_some_iff.mp next
    exact chosen

end Remaining

end Coloring

namespace Allocation

open Coloring

/-- In every attempt on a function of a size that can occur, a variable that is taken out without
being sure of a color has the least fraction of uses per neighbor left, of all that may be spilled
then, and of these the lowest index. -/
theorem Stage.order_risky {config : Config} {flow : Flow} {stage : Stage}
    (built : Flow.build stage.function = .ok flow)
    (small : ∀ u v, stage.uses u * (stage.graph config flow).degree (.var v) < Text.wordBound)
    {before later : List Removal}
    {removal : Removal} (order : stage.order config flow = before ++ removal :: later)
    (risky : removal.risky = true) :
    ∃ left, TakesOut (stage.graph config flow) stage.temporaries config.target.colorCount
        (candidates (stage.graph config flow) stage.uses) before left ∧
      Counted (stage.graph config flow) left ∧
      ∃ chosen ∈ spillable stage.temporaries left, chosen.v = removal.v ∧
        ∀ other ∈ spillable stage.temporaries left, chosen.rank ≤ other.rank := by
  have closed : ∀ u v, (stage.graph config flow).interferes (.var u) (.var v) = true →
      .var v ∈ (stage.graph config flow).nodes := fun _ _ conflict =>
    Interference.mem_nodes_of_interferes (Interference.interferes_symm conflict)
  have whole : TakesOut (stage.graph config flow) stage.temporaries config.target.colorCount
      (candidates (stage.graph config flow) stage.uses) (before ++ removal :: later) [] :=
    order ▸ takesOut_removals (Nat.le_refl _)
  obtain ⟨left, run, rest⟩ := whole.split
  cases rest with
  | next next _ =>
      have remaining := run.remaining (remaining_candidates _ stage.uses)
      have used : ∀ candidate ∈ spillable stage.temporaries left, 0 < candidate.uses := by
        intro candidate member
        have listed := mem_of_mem_spillable member
        rw [remaining.uses candidate listed]
        exact List.count_pos_iff.mpr
          ((Interference.var_mem_nodes_iff built).mp (remaining.inside candidate listed))
      have fits : Fits (spillable stage.temporaries left) := by
        intro a first b second _
        rw [remaining.uses a (mem_of_mem_spillable first)]
        have fewer := remaining.degree b (mem_of_mem_spillable second)
        exact (Nat.mul_le_mul_left _ fewer).trans_lt (small a.v b.v)
      have occupied : left ≠ [] := by
        obtain ⟨⟨candidate, listed, -⟩, -⟩ := nextRemoval_cases next
        exact List.ne_nil_of_mem listed
      obtain ⟨chosen, member, found, smallest⟩ :=
        chooseSpill_least remaining.sorted used fits occupied
      rw [chooseSpill_of_nextRemoval next risky, Option.some.injEq] at found
      exact ⟨left, run, run.counted (fun _ _ => Interference.interferes_symm)
        (counted_candidates closed), chosen, member, found.symm, smallest⟩

end Allocation

end Regalloc
