import Mathlib
import Regalloc.Proofs.LiveEquations

/-!
# Live sets along a block

What is live before a list of points depends only on what is live after it, so the live sets of a
block can be read off piece by piece. And the sets that the passes find are the smallest that
satisfy the equations: a property holds of all that is live on entry to blocks if every block
hands it on against the flow.
-/

namespace Regalloc.Liveness

def liveBefore (out : VarSet) (points : List DefUse) : VarSet :=
  entry (sweep out points) out

@[simp] theorem liveBefore_nil (out : VarSet) : liveBefore out [] = out :=
  rfl

@[simp] theorem liveBefore_cons (out : VarSet) (point : DefUse) (points : List DefUse) :
    liveBefore out (point :: points) = transfer point (liveBefore out points) :=
  rfl

theorem liveBefore_append (out : VarSet) (first second : List DefUse) :
    liveBefore out (first ++ second) = liveBefore (liveBefore out second) first := by
  induction first with
  | nil => rfl
  | cons point first ih => rw [List.cons_append, liveBefore_cons, liveBefore_cons, ih]

theorem liveBefore_mono {out out' : VarSet} {v : Var} (grows : v ∈ out → v ∈ out')
    {points : List DefUse} (live : v ∈ liveBefore out points) : v ∈ liveBefore out' points := by
  induction points with
  | nil => exact grows live
  | cons point points ih =>
      rw [liveBefore_cons, mem_transfer] at live ⊢
      exact live.imp_left fun ⟨after, kept⟩ => ⟨ih after, kept⟩

def steps (out : VarSet) : List DefUse → List (DefUse × VarSet)
  | [] => []
  | point :: points => (point, liveBefore out points) :: steps out points

theorem steps_append (out : VarSet) (first second : List DefUse) :
    steps out (first ++ second) = steps (liveBefore out second) first ++ steps out second := by
  induction first with
  | nil => rfl
  | cons point first ih => rw [List.cons_append, steps, steps, liveBefore_append, ih,
      List.cons_append]

theorem mem_steps_of_getElem? {out : VarSet} {points : List DefUse} {i : Nat} {point : DefUse}
    (here : points[i]? = some point) :
    (point, liveBefore out (points.drop (i + 1))) ∈ steps out points := by
  induction points generalizing i with
  | nil => simp at here
  | cons first rest ih =>
      cases i with
      | zero =>
          simp only [List.getElem?_cons_zero, Option.some.injEq] at here
          subst here
          exact List.mem_cons_self ..
      | succ i => exact List.mem_cons_of_mem _ (ih (by simpa using here))

theorem mem_liveBefore_of_mem_entry {out : VarSet} {points : List DefUse} {v : Var}
    (member : v ∈ entry (sweep out points) ∅) : v ∈ liveBefore out points := by
  cases points with
  | nil => exact absurd member (IndexSet.not_mem_empty v)
  | cons first rest => exact member

theorem mem_entry_set {live : List (List PointLive)} {points : List PointLive} {b c : Nat}
    {v : Var} (member : v ∈ entry ((live.set b points).getD c []) ∅) :
    b = c ∧ v ∈ entry points ∅ ∨ v ∈ entry (live.getD c []) ∅ := by
  rw [List.getD_eq_getElem?_getD, List.getElem?_set] at member
  split at member
  · rename_i same
    split at member
    · exact Or.inl ⟨same, member⟩
    · exact absurd member (IndexSet.not_mem_empty v)
  · exact Or.inr member

section Solution

variable {f : Function} {flow : Flow}

theorem liveOut_eq_liveBefore (built : Flow.build f = .ok flow) {b i : Nat} {block : Block}
    (found : f.blocks[b]? = some block) (inside : i < block.points.length) :
    (solve f flow).liveOut b i =
      liveBefore (exitSet flow (solve f flow).blocks b) (block.points.drop (i + 1)) := by
  rw [liveOut, solve_point built found (List.getElem?_eq_getElem inside)]
  rfl

theorem liveIn_eq_liveBefore (built : Flow.build f = .ok flow) {b i : Nat} {block : Block}
    (found : f.blocks[b]? = some block) (inside : i < block.points.length) :
    (solve f flow).liveIn b i =
      liveBefore (exitSet flow (solve f flow).blocks b) (block.points.drop i) := by
  rw [liveIn, solve_point built found (List.getElem?_eq_getElem inside),
    List.drop_eq_getElem_cons inside]
  rfl

theorem blockIn_eq_liveBefore (built : Flow.build f = .ok flow) {b : Nat} {block : Block}
    (found : f.blocks[b]? = some block) :
    (solve f flow).blockIn b = liveBefore (exitSet flow (solve f flow).blocks b) block.points := by
  rw [blockIn_eq_liveIn, liveIn_eq_liveBefore built found (by simp [Block.points]), List.drop_zero]

theorem getLast?_sweep {out : VarSet} {points : List DefUse} (some : points ≠ []) :
    (sweep out points).getLast?.map PointLive.after = .some out := by
  induction points with
  | nil => exact absurd rfl some
  | cons point points ih =>
      cases points with
      | nil => rfl
      | cons next rest => simpa [sweep] using ih (List.cons_ne_nil next rest)

theorem blockOut_eq_exitSet (built : Flow.build f = .ok flow) {b : Nat} {block : Block}
    (found : f.blocks[b]? = some block) :
    (solve f flow).blockOut b = exitSet flow (solve f flow).blocks b := by
  rw [blockOut, solve_block built found, getLast?_sweep (by simp [Block.points]),
    Option.getD_some]

theorem mem_steps_of_point (built : Flow.build f = .ok flow) {b : Nat} {block : Block}
    (found : f.blocks[b]? = some block) {i : Nat} {point : DefUse}
    (here : block.points[i]? = some point) :
    (point, (solve f flow).liveOut b i) ∈
      steps (exitSet flow (solve f flow).blocks b) block.points := by
  rw [liveOut_eq_liveBefore built found (List.getElem?_eq_some_iff.mp here).1]
  exact mem_steps_of_getElem? here

theorem mem_exitSet_solve {b : Nat} {v : Var} :
    v ∈ exitSet flow (solve f flow).blocks b ↔
      ∃ next ∈ flow.successorsOf b, v ∈ (solve f flow).blockIn next :=
  mem_exitSet

/-- A property holds of everything that is live on entry to a block, as far as a state of the
passes is concerned. -/
def OnEntry (holds : Nat → Var → Prop) (live : List (List PointLive)) : Prop :=
  ∀ b, ∀ v ∈ entry (live.getD b []) ∅, holds b v

section Passes

variable {holds : Nat → Var → Prop}
  (closed : ∀ b block out, f.blocks[b]? = some block →
    (∀ v ∈ out, ∃ next ∈ flow.successorsOf b, holds next v) →
    ∀ v ∈ liveBefore out block.points, holds b v)

include closed

theorem OnEntry.update {live : List (List PointLive)} (known : OnEntry holds live) (b : Nat) :
    OnEntry holds (update (f.blocks.map Block.points) flow live b) := by
  intro c v member
  rcases mem_entry_set member with ⟨rfl, swept⟩ | old
  · have before := mem_liveBefore_of_mem_entry swept
    cases found : f.blocks[b]? with
    | none =>
        have nothing : (f.blocks.map Block.points).getD b [] = [] := by simp [found]
        rw [nothing] at swept
        exact absurd swept (IndexSet.not_mem_empty v)
    | some block =>
        have points : (f.blocks.map Block.points).getD b [] = block.points := by simp [found]
        rw [points] at before
        refine closed b block _ found ?_ v before
        intro u out
        obtain ⟨next, successor, entered⟩ := mem_exitSet.mp out
        exact ⟨next, successor, known next u entered⟩
  · exact known c v old

theorem OnEntry.pass {live : List (List PointLive)} (known : OnEntry holds live) :
    OnEntry holds (pass (f.blocks.map Block.points) flow live) := by
  unfold Liveness.pass
  induction flow.order.reverse generalizing live with
  | nil => exact known
  | cons b rest ih => exact ih (known.update closed b)

theorem OnEntry.settles {live final : List (List PointLive)} {passes : Nat}
    (settles : Settles (f.blocks.map Block.points) flow live final passes)
    (known : OnEntry holds live) : OnEntry holds final := by
  induction settles with
  | rest => exact known
  | again _ _ ih => exact ih (known.pass closed)

end Passes

/-- What every block hands on against the flow holds of all that is live on entry to a block. -/
theorem blockIn_induction (holds : Nat → Var → Prop)
    (closed : ∀ b block out, f.blocks[b]? = some block →
      (∀ v ∈ out, ∃ next ∈ flow.successorsOf b, holds next v) →
      ∀ v ∈ liveBefore out block.points, holds b v)
    {b : Nat} {v : Var} (live : v ∈ (solve f flow).blockIn b) : holds b v := by
  have empty : ∀ block : List DefUse, entry (block.map fun _ => ({} : PointLive)) ∅ = ∅ := by
    intro block
    cases block <;> rfl
  have start : OnEntry holds (blank (f.blocks.map Block.points)) := by
    intro c u member
    rw [blank, List.getD_eq_getElem?_getD, List.getElem?_map] at member
    cases found : (f.blocks.map Block.points)[c]? with
    | none =>
        rw [found] at member
        exact absurd member (IndexSet.not_mem_empty u)
    | some points =>
        rw [found, Option.map_some, Option.getD_some, empty] at member
        exact absurd member (IndexSet.not_mem_empty u)
  exact OnEntry.settles closed (solve_settles f flow) start b v live

end Solution

end Regalloc.Liveness
