import Mathlib
import Regalloc.Proofs.DepthFirst
import Regalloc.Proofs.LiveSteps

/-!
# The number of passes

On entry to which blocks a pass finds a variable live depends on nothing but where the variable was
live on entry before the pass. So once a pass finds it on entry to no further block, no later pass
does, and there are at most as many passes before that as there are blocks. One more pass brings
the inside of the blocks up to date, and the last one changes nothing. Where no edge goes back, a
single pass is enough, as it comes to every block after its successors.
-/

namespace Regalloc.Liveness

def SameEntries (v : Var) (left right : List (List PointLive)) : Prop :=
  ∀ b, v ∈ entry (left.getD b []) ∅ ↔ v ∈ entry (right.getD b []) ∅

section Passes

variable {points : List (List DefUse)} {flow : Flow} {live left right : List (List PointLive)}

theorem getD_update (b c : Nat) :
    (update points flow live b).getD c [] =
      if b = c ∧ c < live.length then demanded points flow live c else live.getD c [] := by
  rw [update, List.getD_eq_getElem?_getD, List.getElem?_set, ← demanded]
  by_cases same : b = c
  · subst same
    by_cases small : b < live.length
    · simp [small]
    · simp [small]
  · simp [same]

theorem mem_entry_sweep_of {v : Var} {out out' : VarSet} (grows : v ∈ out → v ∈ out')
    {points : List DefUse} (live : v ∈ entry (sweep out points) ∅) :
    v ∈ entry (sweep out' points) ∅ := by
  cases points with
  | nil => exact live
  | cons point points => exact @liveBefore_mono out out' v grows (point :: points) live

namespace SameEntries

variable {v : Var}

theorem demanded (same : SameEntries v left right) (b : Nat) :
    v ∈ entry (demanded points flow left b) ∅ ↔ v ∈ entry (demanded points flow right b) ∅ := by
  have exits : v ∈ exitSet flow left b ↔ v ∈ exitSet flow right b := by
    simp only [mem_exitSet]
    exact exists_congr fun next => and_congr_right fun _ => same next
  exact ⟨mem_entry_sweep_of exits.mp, mem_entry_sweep_of exits.mpr⟩

theorem update (same : SameEntries v left right) (lengths : left.length = right.length) (b : Nat) :
    SameEntries v (update points flow left b) (update points flow right b) := by
  intro c
  rw [getD_update, getD_update, lengths]
  split
  · exact same.demanded c
  · exact same c

theorem foldl_update (same : SameEntries v left right) (lengths : left.length = right.length)
    (blocks : List Nat) :
    SameEntries v (blocks.foldl (Liveness.update points flow) left)
      (blocks.foldl (Liveness.update points flow) right) := by
  induction blocks generalizing left right with
  | nil => exact same
  | cons b blocks ih =>
      refine ih (same.update lengths b) ?_
      simpa only [Liveness.update, List.length_set] using lengths

end SameEntries

theorem demanded_congr (same : ∀ v, SameEntries v left right) (b : Nat) :
    demanded points flow left b = demanded points flow right b := by
  have exits : exitSet flow left b = exitSet flow right b := by
    apply IndexSet.ext
    intro v
    simp only [mem_exitSet]
    exact exists_congr fun next => and_congr_right fun _ => same v next
  rw [demanded, demanded, exits]

theorem Rising.demanded_le (rising : Rising points flow live) {blocks : List Nat} {b : Nat}
    (listed : b ∈ blocks) (small : b < points.length) :
    BlockLe (demanded points flow live b)
      ((blocks.foldl (Liveness.update points flow) live).getD b []) := by
  induction blocks generalizing live with
  | nil => cases listed
  | cons c blocks ih =>
      rw [List.foldl_cons]
      rcases List.mem_cons.mp listed with rfl | listed
      · have grows := ((rising.update b).foldl_update blocks).2.getD b
        rwa [getD_update, if_pos ⟨rfl, rising.length ▸ small⟩] at grows
      · exact (demanded_mono (rising.le_update c) b).trans (ih (rising.update c) listed)

theorem update_eq_self (rising : Rising points flow live) {b : Nat}
    (upToDate : b < points.length → live.getD b [] = demanded points flow live b) :
    Liveness.update points flow live b = live := by
  by_cases small : b < live.length
  · have here := upToDate (rising.length ▸ small)
    rw [List.getD_eq_getElem _ _ small] at here
    rw [Liveness.update, ← demanded, ← here, List.set_getElem_self]
  · exact List.set_eq_of_length_le (Nat.not_lt.mp small)

/-- After a pass that finds no variable on entry to a further block, no block has to be brought up
to date. -/
theorem Rising.still_pass (rising : Rising points flow live)
    (same : ∀ v, SameEntries v live (Liveness.pass points flow live)) :
    Still points flow (Liveness.pass points flow live) := by
  intro b listed
  refine update_eq_self rising.pass.1 fun small => ?_
  have above := rising.demanded_le (List.mem_reverse.mpr listed) small
  have below := rising.pass.1.blocks b small
  rw [demanded_congr same] at above
  exact forall₂_antisymm (fun _ _ => PointLe.antisymm) below above

/-- Passes without any check whether they change something. -/
def afterPasses (points : List (List DefUse)) (flow : Flow) (count : Nat) :
    List (List PointLive) :=
  (Liveness.pass points flow)^[count] (blank points)

theorem afterPasses_succ (count : Nat) :
    afterPasses points flow (count + 1) =
      Liveness.pass points flow (afterPasses points flow count) :=
  Function.iterate_succ_apply' ..

theorem rising_afterPasses (count : Nat) : Rising points flow (afterPasses points flow count) := by
  induction count with
  | zero => exact rising_blank
  | succ count ih => exact afterPasses_succ count ▸ ih.pass.1

def found (points : List (List DefUse)) (flow : Flow) (v : Var) (count : Nat) : Finset Nat :=
  {b ∈ Finset.range points.length | v ∈ entry ((afterPasses points flow count).getD b []) ∅}

theorem found_subset_succ (v : Var) (count : Nat) :
    found points flow v count ⊆ found points flow v (count + 1) := by
  intro b member
  rw [found, Finset.mem_filter] at member ⊢
  have grows : LiveLe (afterPasses points flow count) (afterPasses points flow (count + 1)) :=
    afterPasses_succ count ▸ (rising_afterPasses count).pass.2
  exact ⟨member.1, (grows.getD b).entry (fun _ live => live) v member.2⟩

theorem found_eq_iff (v : Var) (first second : Nat) :
    found points flow v first = found points flow v second ↔
      SameEntries v (afterPasses points flow first) (afterPasses points flow second) := by
  have beyond : ∀ count b, ¬b < points.length → (afterPasses points flow count).getD b [] = [] := by
    intro count b large
    apply List.getD_eq_default
    rw [(rising_afterPasses count).length]
    exact Nat.not_lt.mp large
  rw [found, found, Finset.filter_inj']
  constructor
  · intro same b
    by_cases small : b < points.length
    · exact same (Finset.mem_range.mpr small)
    · rw [beyond first b small, beyond second b small]
  · exact fun same b _ => same b

/-- Sets of blocks that grow until they stay as they are do so after as many steps as there are
blocks. -/
theorem eq_of_growing {bound : Nat} {sets : Nat → Finset Nat}
    (within : ∀ count, sets count ⊆ Finset.range bound)
    (grows : ∀ count, sets count ⊆ sets (count + 1))
    (rests : ∀ count, sets count = sets (count + 1) → sets (count + 1) = sets (count + 2)) :
    sets bound = sets (bound + 1) := by
  have larger : ∀ count, sets count = sets (count + 1) ∨ count + 1 ≤ (sets (count + 1)).card := by
    intro count
    induction count with
    | zero =>
        refine or_iff_not_imp_left.mpr fun differ => ?_
        have more := Finset.card_lt_card ((grows 0).ssubset_of_ne differ)
        omega
    | succ count ih =>
        refine or_iff_not_imp_left.mpr fun differ => ?_
        have more := Finset.card_lt_card ((grows (count + 1)).ssubset_of_ne differ)
        have before := ih.resolve_left fun rest => differ (rests count rest)
        omega
  refine (larger bound).resolve_right fun many => ?_
  have few := Finset.card_le_card (within (bound + 1))
  rw [Finset.card_range] at few
  omega

theorem sameEntries_afterPasses (v : Var) :
    SameEntries v (afterPasses points flow points.length)
      (afterPasses points flow (points.length + 1)) := by
  rw [← found_eq_iff]
  refine eq_of_growing (fun _ => Finset.filter_subset _ _) (found_subset_succ v) ?_
  intro count same
  rw [found_eq_iff] at same ⊢
  rw [afterPasses_succ, afterPasses_succ]
  refine same.foldl_update ?_ _
  rw [(rising_afterPasses count).length, (rising_afterPasses (count + 1)).length]

theorem still_afterPasses : Still points flow (afterPasses points flow (points.length + 1)) := by
  rw [afterPasses_succ]
  apply (rising_afterPasses points.length).still_pass
  intro v
  rw [← afterPasses_succ]
  exact sameEntries_afterPasses v

theorem Settles.passes_le {live final : List (List PointLive)} {passes count : Nat}
    (settles : Settles points flow live final passes)
    (still : Still points flow ((Liveness.pass points flow)^[count] live)) :
    passes ≤ count + 1 := by
  induction settles generalizing count with
  | rest _ => omega
  | again unsettled _ ih =>
      cases count with
      | zero => exact absurd still unsettled
      | succ count =>
          have later : _ ≤ count + 1 := ih still
          omega

end Passes

section Forward

variable {points : List (List DefUse)} {flow : Flow} {live : List (List PointLive)}

theorem demanded_update {b c : Nat} (apart : b ∉ flow.successorsOf c) :
    demanded points flow (update points flow live b) c = demanded points flow live c := by
  have exits : exitSet flow (update points flow live b) c = exitSet flow live c := by
    apply IndexSet.ext
    intro v
    simp only [mem_exitSet]
    refine exists_congr fun next => and_congr_right fun successor => ?_
    rw [getD_update, if_neg]
    rintro ⟨rfl, -⟩
    exact apart successor
  rw [demanded, demanded, exits]

theorem length_foldr_update (blocks : List Nat) :
    (blocks.foldr (fun b live => update points flow live b) live).length = live.length := by
  induction blocks with
  | nil => rfl
  | cons b blocks ih => rw [List.foldr_cons, update, List.length_set, ih]

/-- Blocks are brought up to date for good where their successors come before them. -/
theorem upToDate_foldr (acyclic : ∀ b, ¬Relation.TransGen flow.Edge b b) {blocks : List Nat}
    (ordered : flow.Postordered blocks) (distinct : blocks.Nodup) {b : Nat} (listed : b ∈ blocks)
    (small : b < live.length) :
    (blocks.foldr (fun b live => update points flow live b) live).getD b [] =
      demanded points flow (blocks.foldr (fun b live => update points flow live b) live) b := by
  induction blocks with
  | nil => cases listed
  | cons first rest ih =>
      obtain ⟨leads, later⟩ := ordered
      obtain ⟨absent, distinct⟩ := List.nodup_cons.mp distinct
      rw [List.foldr_cons]
      rcases List.mem_cons.mp listed with rfl | listed
      · have apart : b ∉ flow.successorsOf b := fun loop =>
          acyclic b (.single (Flow.edge_of_mem loop))
        rw [getD_update, demanded_update apart, if_pos]
        exact ⟨rfl, by rwa [length_foldr_update]⟩
      · have apart : first ∉ flow.successorsOf b := by
          intro successor
          obtain ⟨front, back, rfl, leads'⟩ := later.split listed
          have edge := Flow.edge_of_mem successor
          rcases leads' first edge with member | back
          · exact absent (by simp [member])
          · exact acyclic b (.head' edge back)
        rw [getD_update, demanded_update apart, if_neg, ih later distinct listed]
        rintro ⟨rfl, -⟩
        exact absent listed

/-- Without cycles, nothing has to be brought up to date after one pass over the blocks that the
first block leads to. -/
theorem still_pass_of_acyclic (acyclic : ∀ b, ¬Relation.TransGen flow.Edge b b)
    (inside : flow.Inside) (reached : ∀ b < flow.size, flow.Reaches 0 b)
    (rising : Rising points flow live) : Still points flow (pass points flow live) := by
  have none : (List.range flow.size).filter (fun b => !flow.walk.visited.contains b) = [] := by
    refine List.eq_nil_iff_forall_not_mem.mpr fun b member => ?_
    obtain ⟨small, apart⟩ := (Flow.mem_rest inside).mp member
    exact apart (reached b small)
  have whole : flow.order = flow.walk.finished := by
    rw [Flow.order, none, List.append_nil]
  intro b listed
  refine update_eq_self rising.pass.1 fun small => ?_
  rw [pass, List.foldl_reverse]
  rw [whole] at listed ⊢
  exact upToDate_foldr acyclic (Flow.postordered_finished inside) (Flow.nodup_finished inside)
    listed
    (rising.length ▸ small)

end Forward

/-- There are at most two passes more than blocks, and at most two passes if there is no cycle and
the first block leads to all others. -/
theorem iterations_le {f : Function} {flow : Flow} (built : Flow.build f = .ok flow) :
    Settles (f.blocks.map Block.points) flow (blank (f.blocks.map Block.points))
        (solve f flow).blocks (solve f flow).iterations ∧
      (solve f flow).iterations ≤ f.blocks.length + 2 ∧
      ((∀ b, ¬Relation.TransGen flow.Edge b b) → (∀ b < f.blocks.length, flow.Reaches 0 b) →
        (solve f flow).iterations ≤ 2) := by
  have settles := solve_settles f flow
  refine ⟨settles, ?_, fun acyclic reached => ?_⟩
  · have passes := settles.passes_le still_afterPasses
    rwa [List.length_map] at passes
  · have inside : flow.Inside := fun b => (Flow.successorsOf_increasing built b).2
    rw [← Flow.size_build built] at reached
    have still : Still (f.blocks.map Block.points) flow
        ((pass (f.blocks.map Block.points) flow)^[1] (blank (f.blocks.map Block.points))) :=
      still_pass_of_acyclic acyclic inside reached rising_blank
    exact settles.passes_le still

/-- Both bounds are met: by a block that jumps back to itself, as the second pass finds that what it
reads is live at its end, and by a branch around a block. -/
theorem iterations_le_met :
    ∃ f flow g flow', Flow.build f = .ok flow ∧ flow.successors = [[0]] ∧
      (solve f flow).iterations = f.blocks.length + 2 ∧
      Flow.build g = .ok flow' ∧ flow'.successors = [[1, 2], [2], []] ∧
      (∀ b, ¬Relation.TransGen flow'.Edge b b) ∧ (∀ b < g.blocks.length, flow'.Reaches 0 b) ∧
      (solve g flow').iterations = 2 := by
  obtain ⟨f, loop⟩ : ∃ f : Function, f = ⟨"@f", ⟨.void, 0⟩, [⟨⟨.int64, 0⟩, ⟨0⟩⟩],
      [⟨":a", [], .branch (.var ⟨0⟩) (.label ":a") (.label ":a")⟩], ⟨["%x"], 0⟩⟩ := ⟨_, rfl⟩
  obtain ⟨g, forward⟩ : ∃ g : Function, g = ⟨"@g", ⟨.int64, 0⟩, [⟨⟨.int64, 0⟩, ⟨0⟩⟩],
      [⟨":a", [], .branch (.const 1) (.label ":b") (.label ":c")⟩, ⟨":b", [], .jump (.label ":c")⟩,
        ⟨":c", [], .retValue (.var ⟨0⟩)⟩], ⟨["%x"], 0⟩⟩ := ⟨_, rfl⟩
  obtain ⟨flow, edges⟩ : ∃ flow : Flow, flow = ⟨[[0]]⟩ := ⟨_, rfl⟩
  obtain ⟨flow', edges'⟩ : ∃ flow : Flow, flow = ⟨[[1, 2], [2], []]⟩ := ⟨_, rfl⟩
  have built : Flow.build f = .ok flow := by
    rw [loop, edges]
    decide +kernel
  have built' : Flow.build g = .ok flow' := by
    rw [forward, edges']
    decide +kernel
  have increases : ∀ {b c}, Relation.TransGen flow'.Edge b c → b < c := by
    have step : ∀ b c, flow'.Edge b c → b < c := by
      rw [edges']
      rintro (_ | _ | _ | b) c ⟨member, -⟩ <;> simp [Flow.successorsOf] at member <;> omega
    intro b c path
    induction path with
    | single edge => exact step _ _ edge
    | tail _ edge ih => exact ih.trans (step _ _ edge)
  have acyclic : ∀ b, ¬Relation.TransGen flow'.Edge b b :=
    fun b cycle => Nat.lt_irrefl b (increases cycle)
  have reached : ∀ b < g.blocks.length, flow'.Reaches 0 b := by
    have first : flow'.Edge 0 1 ∧ flow'.Edge 0 2 := by
      rw [edges']
      decide
    rw [forward]
    intro b small
    have cases : b = 0 ∨ b = 1 ∨ b = 2 := by
      simp at small
      omega
    rcases cases with rfl | rfl | rfl
    · exact .refl
    · exact .single first.1
    · exact .single first.2
  refine ⟨f, flow, g, flow', built, by rw [edges], ?_, built', by rw [edges'], acyclic, reached, ?_⟩
  · refine Nat.le_antisymm (iterations_le built).2.1 ?_
    rw [loop, edges]
    decide +kernel
  · refine Nat.le_antisymm ((iterations_le built').2.2 acyclic reached) ?_
    rw [forward, edges']
    decide +kernel

end Regalloc.Liveness
