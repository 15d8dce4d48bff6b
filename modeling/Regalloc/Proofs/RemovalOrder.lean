import Mathlib
import Regalloc.Proofs.ColoringSound

/-!
# When coloring gets stuck

While variables are taken out of a graph, the degree kept with each of those left is the number of
its neighbors that are left. So a variable that is taken out with fewer of them than there are
colors finds a color, and coloring never breaks off. What is spilled was taken out when all
variables left had as many neighbors left as there are colors, and a temporary only if nothing but
temporaries was left.
-/

namespace Regalloc

theorem IndexSet.nodup_toList {α : Type} [Indexed α] (s : IndexSet α) : s.toList.Nodup := by
  apply (List.nodup_range.filter _).map_on
  intro i _ j _ same
  rw [← Indexed.index_ofIndex (α := α) i, same, Indexed.index_ofIndex]

theorem Interference.nodup_neighbors (graph : Interference) (node : Node) :
    (graph.neighbors node).Nodup :=
  IndexSet.nodup_toList _

def Node.remains (left : List Var) : Node → Bool
  | .register _ => true
  | .var v => left.contains v

namespace Coloring

section Choice

variable {temporaries : VarSet} {colors : Nat} {candidates : List Candidate}

theorem mem_temporaries_of_spillable {candidate : Candidate}
    (member : candidate ∈ spillable temporaries candidates)
    (temporary : candidate.v ∈ temporaries) : ∀ other ∈ candidates, other.v ∈ temporaries := by
  simp only [spillable] at member
  split at member
  · rename_i nothing
    intro other listed
    by_contra lasting
    have kept : other ∈ candidates.filter fun candidate => !temporaries.contains candidate.v :=
      List.mem_filter.mpr ⟨listed, by simpa [IndexSet.mem_def, IndexSet.contains] using lasting⟩
    rw [List.isEmpty_iff.mp nothing] at kept
    cases kept
  · have lasting := (List.mem_filter.mp member).2
    have held : temporaries.contains candidate.v = true := temporary
    simp [held] at lasting

theorem chooseSpill_eq_some {v : Var} (chosen : chooseSpill temporaries candidates = some v) :
    (∃ candidate ∈ candidates, candidate.v = v) ∧
      (v ∈ temporaries → ∀ other ∈ candidates, other.v ∈ temporaries) := by
  unfold chooseSpill at chosen
  cases listed : spillable temporaries candidates with
  | nil => simp [listed] at chosen
  | cons first rest =>
      obtain ⟨best, found, place⟩ := foldl_better_some rest first
      have member : best ∈ spillable temporaries candidates := by
        rw [listed]
        rcases place with same | member
        · exact same ▸ List.mem_cons_self ..
        · exact List.mem_cons_of_mem _ member
      rw [listed, List.foldl_cons, show better none first = some first from rfl, found,
        Option.map_some, Option.some.injEq] at chosen
      subst chosen
      exact ⟨⟨best, mem_of_mem_spillable member, rfl⟩, mem_temporaries_of_spillable member⟩

/-- What is taken out next is sure of a color, or nothing that is left is. -/
theorem nextRemoval_cases {removal : Removal}
    (next : nextRemoval temporaries colors candidates = some removal) :
    (∃ candidate ∈ candidates, candidate.v = removal.v) ∧
      (removal.risky = false ∧
          (∃ candidate ∈ candidates, candidate.v = removal.v ∧ candidate.degree < colors) ∨
        removal.risky = true ∧ (∀ candidate ∈ candidates, colors ≤ candidate.degree) ∧
          (removal.v ∈ temporaries → ∀ candidate ∈ candidates, candidate.v ∈ temporaries)) := by
  unfold nextRemoval at next
  split at next
  · rename_i candidate found
    cases next
    have member := List.mem_of_find?_eq_some found
    have small := List.find?_some found
    exact ⟨⟨candidate, member, rfl⟩,
      Or.inl ⟨rfl, candidate, member, rfl, of_decide_eq_true small⟩⟩
  · rename_i nothing
    obtain ⟨v, chosen, rfl⟩ := Option.map_eq_some_iff.mp next
    obtain ⟨member, temporary⟩ := chooseSpill_eq_some chosen
    refine ⟨member, Or.inr ⟨rfl, ?_, temporary⟩⟩
    intro candidate listed
    have large := List.find?_eq_none.mp nothing candidate listed
    simpa using large

end Choice

theorem map_v_remove (graph : Interference) (v : Var) (candidates : List Candidate) :
    (remove graph v candidates).map Candidate.v = (candidates.map Candidate.v).filter (· != v) := by
  simp only [remove, List.map_map, List.filter_map]
  apply List.map_congr_left
  intro candidate _
  dsimp only [Function.comp_apply]
  split <;> rfl

theorem mem_candidates_of_mem_removals {graph : Interference} {temporaries : VarSet}
    {colors count : Nat} {candidates : List Candidate} {removal : Removal}
    (member : removal ∈ removals graph temporaries colors count candidates) :
    removal.v ∈ candidates.map Candidate.v := by
  induction count generalizing candidates with
  | zero => cases member
  | succ count ih =>
      unfold removals at member
      split at member
      · cases member
      · rename_i next found
        rcases List.mem_cons.mp member with rfl | member
        · obtain ⟨candidate, listed, same⟩ := (nextRemoval_cases found).1
          exact same ▸ List.mem_map_of_mem listed
        · have left := ih member
          rw [map_v_remove] at left
          exact (List.mem_filter.mp left).1

theorem mem_removals_of_mem_spilled {f : Function} {graph : Interference} {target : Target}
    {removals : List Removal} {coloring final : Coloring}
    (selected : (selectFrom f graph target removals coloring).result = .ok final) {v : Var}
    (spilled : v ∈ final.spilled) :
    v ∈ coloring.spilled ∨ ∃ removal ∈ removals, removal.v = v := by
  induction removals generalizing coloring with
  | nil =>
      cases selected
      exact Or.inl spilled
  | cons removal rest ih =>
      have later : ∀ {coloring' : Coloring},
          (selectFrom f graph target rest coloring').result = .ok final →
          v ∈ coloring'.spilled ∨ ∃ other ∈ removal :: rest, other.v = v := by
        intro coloring' selected
        refine (ih selected).imp_right fun ⟨other, listed, same⟩ => ?_
        exact ⟨other, List.mem_cons_of_mem _ listed, same⟩
      rcases selectFrom_cons selected with ⟨r, -, selected⟩ | selected
      · have found := later selected
        exact found
      · rcases later selected with old | found
        · rcases IndexSet.mem_insert.mp old with rfl | old
          · exact Or.inr ⟨removal, List.mem_cons_self .., rfl⟩
          · exact Or.inl old
        · exact Or.inr found

/-- Every candidate is kept with the number of its neighbors that are left. -/
structure Counted (graph : Interference) (candidates : List Candidate) : Prop where
  nodup : (candidates.map Candidate.v).Nodup
  degree : ∀ candidate ∈ candidates, candidate.degree =
    (graph.neighbors (.var candidate.v)).countP (Node.remains (candidates.map Candidate.v))

theorem counted_candidates {graph : Interference} {uses : Var → Nat}
    (closed : ∀ u v, graph.interferes (.var u) (.var v) = true → .var v ∈ graph.nodes) :
    Counted graph (candidates graph uses) := by
  have vars : (candidates graph uses).map Candidate.v = (IndexSet.ofList graph.vars).toList := by
    simp [candidates, Function.comp_def]
  refine ⟨vars ▸ IndexSet.nodup_toList _, ?_⟩
  intro candidate member
  rw [vars]
  obtain ⟨v, -, rfl⟩ := List.mem_map.mp member
  rw [Interference.degree, IndexSet.size, eq_comm, ← Interference.neighbors, List.countP_eq_length]
  intro node neighbor
  cases node with
  | register r => rfl
  | var u =>
      have vertex := closed v u (Interference.mem_neighbors.mp neighbor)
      simpa [Node.remains] using vertex

theorem countP_remains_filter {neighbors : List Node} {left : List Var} {v : Var}
    (distinct : neighbors.Nodup) (inside : v ∈ left) :
    neighbors.countP (Node.remains (left.filter (· != v))) =
      neighbors.countP (Node.remains left) - if .var v ∈ neighbors then 1 else 0 := by
  induction neighbors with
  | nil => rfl
  | cons node rest ih =>
      obtain ⟨absent, distinct⟩ := List.nodup_cons.mp distinct
      rw [List.countP_cons, List.countP_cons, ih distinct]
      by_cases here : node = .var v
      · subst here
        have held : Node.remains left (.var v) = true := by simpa [Node.remains] using inside
        have gone : Node.remains (left.filter (· != v)) (.var v) = false := by
          simp [Node.remains]
        simp [held, gone, absent]
      · have same : Node.remains (left.filter (· != v)) node = Node.remains left node := by
          cases node with
          | register r => rfl
          | var u =>
              have apart : u ≠ v := fun same => here (same ▸ rfl)
              simp [Node.remains, apart]
        have split : (.var v ∈ node :: rest) ↔ .var v ∈ rest := by
          rw [List.mem_cons, or_iff_right (fun same => here same.symm)]
        have counted : .var v ∈ rest → 0 < rest.countP (Node.remains left) := by
          intro member
          exact List.countP_pos_iff.mpr ⟨_, member, by simpa [Node.remains] using inside⟩
        simp only [same, split]
        split_ifs with member remaining
        · have positive := counted member
          omega
        · omega
        · omega
        · omega

theorem counted_remove {graph : Interference} {candidates : List Candidate} {v : Var}
    (symm : ∀ first second, graph.interferes first second = true →
      graph.interferes second first = true)
    (counted : Counted graph candidates) (inside : v ∈ candidates.map Candidate.v) :
    Counted graph (remove graph v candidates) := by
  constructor
  · rw [map_v_remove]
    exact counted.nodup.filter _
  · intro candidate member
    rw [map_v_remove, countP_remains_filter (graph.nodup_neighbors _) inside]
    obtain ⟨original, kept, same⟩ := List.mem_map.mp member
    have degree := counted.degree original (List.mem_filter.mp kept).1
    -- The neighbors of what goes are the candidates that have it as a neighbor.
    have both : graph.interferes (.var v) (.var original.v) = true ↔
        .var v ∈ graph.neighbors (.var original.v) :=
      ⟨fun joined => Interference.mem_neighbors.mpr (symm _ _ joined),
        fun joined => symm _ _ (Interference.mem_neighbors.mp joined)⟩
    split at same
    · rename_i joined
      subst same
      dsimp only
      rw [if_pos (both.mp joined), degree]
    · rename_i apart
      subst same
      rw [if_neg (fun joined => apart (both.mpr joined)), degree, Nat.sub_zero]

theorem selectFrom_append {f : Function} {graph : Interference} {target : Target}
    (first second : List Removal) (coloring : Coloring) :
    (selectFrom f graph target (first ++ second) coloring).result =
      (selectFrom f graph target first coloring).result >>= fun middle =>
        (selectFrom f graph target second middle).result := by
  induction first generalizing coloring with
  | nil => rfl
  | cons removal rest ih =>
      simp only [List.cons_append, selectFrom]
      split
      · exact ih _
      · split
        · simp only [Logged.result_bind, Logged.result_report]
          exact ih _
        · rfl

/-- A variable found no color. When it was taken out, every variable left had at least as many
neighbors left as there are colors; and only those left were colored when its turn came. -/
structure Stuck (graph : Interference) (target : Target) (temporaries : VarSet) (v : Var)
    (left : List Var) (coloring : Coloring) : Prop where
  member : v ∈ left
  crowded : ∀ u ∈ left,
    target.colorCount ≤ (graph.neighbors (.var u)).countP (Node.remains left)
  temporary : v ∈ temporaries → ∀ u ∈ left, u ∈ temporaries
  proper : Proper graph target coloring
  colored : ∀ u, (coloring.color u).isSome → u ∈ left ∧ u ≠ v
  unfree : coloring.free? graph target v = none

section Selection

variable {graph : Interference} {target : Target} {temporaries : VarSet}

theorem mem_taken_of_free?_eq_none {coloring : Coloring} {v : Var}
    (unfree : coloring.free? graph target v = none) {r : Register}
    (listed : r ∈ target.allocatable) : r ∈ coloring.taken graph v := by
  have found := List.find?_eq_none.mp unfree r listed
  simpa using found

/-- With fewer colored neighbors than colors, one color is free. -/
theorem colorCount_le_of_free?_eq_none {coloring : Coloring} {v : Var} {left : List Var}
    (distinct : target.allocatable.Nodup)
    (colored : ∀ u, (coloring.color u).isSome → u ∈ left)
    (unfree : coloring.free? graph target v = none) :
    target.colorCount ≤ (graph.neighbors (.var v)).countP (Node.remains left) := by
  have held : target.allocatable ⊆ coloring.taken graph v := fun _ listed =>
    mem_taken_of_free?_eq_none unfree listed
  calc target.colorCount
      ≤ (coloring.taken graph v).length := (distinct.subperm held).length_le
    _ = (graph.neighbors (.var v)).countP fun node => (coloring.holds node).isSome := by
        rw [taken, List.length_filterMap_eq_countP]
    _ ≤ (graph.neighbors (.var v)).countP (Node.remains left) := by
        apply List.countP_mono_left
        intro node _ held
        cases node with
        | register r => rfl
        | var u => simpa [Node.remains] using colored u held

structure Settled (graph : Interference) (target : Target) (temporaries : VarSet)
    (candidates : List Candidate) (coloring : Coloring) : Prop where
  proper : Proper graph target coloring
  colored : ∀ u, (coloring.color u).isSome → u ∈ candidates.map Candidate.v
  stuck : ∀ v ∈ coloring.spilled, ∃ left earlier, Stuck graph target temporaries v left earlier

theorem settled_start (candidates : List Candidate) :
    Settled graph target temporaries candidates {} where
  proper := ⟨by simp [color, Bindings.get?], by simp [color, Bindings.get?]⟩
  colored := by simp [color, Bindings.get?]
  stuck v spilled := absurd spilled (IndexSet.not_mem_empty v)

section Step

variable {candidates : List Candidate} {removal : Removal} {middle : Coloring}
  (settled : Settled graph target temporaries (remove graph removal.v candidates) middle)
  (next : nextRemoval temporaries target.colorCount candidates = some removal)

include settled

theorem Settled.fewer (u : Var) (held : (middle.color u).isSome) :
    u ∈ candidates.map Candidate.v ∧ u ≠ removal.v := by
  have member := settled.colored u held
  rw [map_v_remove] at member
  simpa using List.mem_filter.mp member

include next

theorem Settled.assign
    (symm : ∀ first second, graph.interferes first second = true →
      graph.interferes second first = true)
    (loopless : ∀ node, ¬graph.interferes node node = true) {r : Register}
    (free : middle.free? graph target removal.v = some r) :
    Settled graph target temporaries candidates (middle.assign removal.v r) where
  proper := proper_assign symm loopless settled.proper free
  colored u held := by
    rw [color_assign] at held
    split at held
    · rename_i here
      obtain ⟨candidate, listed, same⟩ := (nextRemoval_cases next).1
      exact here ▸ same ▸ List.mem_map_of_mem listed
    · exact (settled.fewer u held).1
  stuck := settled.stuck

theorem Settled.spill (distinct : target.allocatable.Nodup) (counted : Counted graph candidates)
    (unfree : middle.free? graph target removal.v = none) :
    removal.risky = true ∧
      Settled graph target temporaries candidates (middle.spill removal.v) := by
  have fewer := settled.fewer
  obtain ⟨⟨candidate, listed, same⟩, kinds⟩ := nextRemoval_cases next
  have inside : removal.v ∈ candidates.map Candidate.v := same ▸ List.mem_map_of_mem listed
  rcases kinds with ⟨-, other, listed', same', small⟩ | ⟨risky, large, temporary⟩
  · have crowded := colorCount_le_of_free?_eq_none distinct
      (fun u held => (fewer u held).1) unfree
    rw [counted.degree other listed', same'] at small
    exact absurd crowded (Nat.not_le.mpr small)
  · refine ⟨risky, ⟨settled.proper.allocatable, ?_⟩, fun u held => (fewer u held).1, ?_⟩
    · intro u r node held joined
      cases node with
      | register s => exact settled.proper.apart u r (.register s) held joined
      | var w => exact settled.proper.apart u r (.var w) held joined
    · intro v spilled
      rcases IndexSet.mem_insert.mp spilled with rfl | spilled
      · refine ⟨candidates.map Candidate.v, middle, inside, ?_, ?_, settled.proper, fewer, unfree⟩
        · rw [List.forall_mem_map]
          intro other listed
          exact counted.degree other listed ▸ large other listed
        · intro held
          rw [List.forall_mem_map]
          exact temporary held
      · exact settled.stuck v spilled

end Step

/-- Coloring never breaks off, and what it spills was stuck. -/
theorem selectFrom_removals (f : Function) (distinct : target.allocatable.Nodup)
    (symm : ∀ first second, graph.interferes first second = true →
      graph.interferes second first = true)
    (loopless : ∀ node, ¬graph.interferes node node = true) (count : Nat)
    {candidates : List Candidate} (counted : Counted graph candidates) :
    ∃ final,
      (selectFrom f graph target
        (removals graph temporaries target.colorCount count candidates).reverse {}).result =
          .ok final ∧
      Settled graph target temporaries candidates final := by
  induction count generalizing candidates with
  | zero => exact ⟨{}, rfl, settled_start candidates⟩
  | succ count ih =>
      unfold removals
      split
      · exact ⟨{}, rfl, settled_start candidates⟩
      · rename_i removal next
        obtain ⟨candidate, listed, same⟩ := (nextRemoval_cases next).1
        have inside : removal.v ∈ candidates.map Candidate.v := same ▸ List.mem_map_of_mem listed
        obtain ⟨middle, selected, settled⟩ := ih (counted_remove symm counted inside)
        -- The variable that goes first is colored last.
        have last : (selectFrom f graph target
            (removal :: removals graph temporaries target.colorCount count
              (remove graph removal.v candidates)).reverse {}).result =
            (selectFrom f graph target [removal] middle).result := by
          rw [List.reverse_cons, selectFrom_append, selected]
          rfl
        rw [last]
        cases free : middle.free? graph target removal.v with
        | some r =>
            exact ⟨_, by simp [selectFrom, free], settled.assign next symm loopless free⟩
        | none =>
            obtain ⟨risky, settled⟩ := settled.spill next distinct counted free
            exact ⟨_, by simp [selectFrom, free, risky, bind], settled⟩

end Selection

end Coloring

end Regalloc
