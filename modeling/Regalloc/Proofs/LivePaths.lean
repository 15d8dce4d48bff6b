import Mathlib
import Regalloc.Proofs.ConflictEdges
import Regalloc.Proofs.LiveSteps

/-!
# Liveness along paths

From a program point control passes to the next point of its block, and from the last point of a
block to the first points of its successors. A variable is live at a point exactly if a path from
there reads it before writing it, and the sets that say so are the least solution of the
equations of liveness. Two variables that are live after the same point of a path from the entry,
and are known there, conflict.
-/

namespace Regalloc

abbrev Location := Nat × Nat

def Function.pointAt (f : Function) (place : Location) : Option DefUse :=
  f.blocks[place.1]?.bind fun block => block.points[place.2]?

theorem Function.pointAt_eq_some {f : Function} {b i : Nat} {point : DefUse} :
    f.pointAt (b, i) = some point ↔
      ∃ block, f.blocks[b]? = some block ∧ block.points[i]? = some point :=
  Option.bind_eq_some_iff

namespace Flow

inductive Follows (f : Function) (flow : Flow) : Location → Location → Prop
  | next {b i : Nat} {block : Block} : f.blocks[b]? = some block →
      i + 1 < block.points.length → Follows f flow (b, i) (b, i + 1)
  | jump {b i c : Nat} {block : Block} : f.blocks[b]? = some block →
      i + 1 = block.points.length → c ∈ flow.successorsOf b → Follows f flow (b, i) (c, 0)

structure Path (f : Function) (flow : Flow) (start finish : Location) (places : List Location) :
    Prop where
  starts : places.head? = some start
  ends : places.getLast? = some finish
  follows : places.IsChain (Follows f flow)

/-- The places end where the variable is read, and it is not written before that. -/
structure ReadPath (f : Function) (flow : Flow) (v : Var) (start : Location)
    (places : List Location) : Prop where
  reads : ∃ finish point, Path f flow start finish places ∧ f.pointAt finish = some point ∧
    v ∈ point.uses
  keeps : ∀ place ∈ places.dropLast, ∀ point, f.pointAt place = some point → v ∉ point.defs

section Paths

variable {f : Function} {flow : Flow} {v : Var}

theorem Follows.exists_point {place next : Location} (follows : Follows f flow place next) :
    ∃ point, f.pointAt place = some point := by
  cases follows with
  | next found more =>
      exact ⟨_, Function.pointAt_eq_some.mpr ⟨_, found, List.getElem?_eq_getElem (by omega)⟩⟩
  | jump found last _ =>
      exact ⟨_, Function.pointAt_eq_some.mpr ⟨_, found, List.getElem?_eq_getElem (by omega)⟩⟩

theorem not_path_nil {start finish : Location} : ¬Path f flow start finish [] := by
  intro path
  cases path.starts

theorem path_singleton {start finish place : Location} :
    Path f flow start finish [place] ↔ start = place ∧ finish = place := by
  constructor
  · rintro ⟨starts, ends, -⟩
    cases starts
    cases ends
    exact ⟨rfl, rfl⟩
  · rintro ⟨rfl, rfl⟩
    exact ⟨rfl, rfl, .singleton _⟩

theorem path_cons_cons {start finish first second : Location} {rest : List Location} :
    Path f flow start finish (first :: second :: rest) ↔
      start = first ∧ Follows f flow first second ∧ Path f flow second finish (second :: rest) := by
  constructor
  · rintro ⟨starts, ends, follows⟩
    obtain ⟨step, follows⟩ := List.isChain_cons_cons.mp follows
    exact ⟨(Option.some.inj starts).symm, step, rfl, by simpa using ends, follows⟩
  · rintro ⟨rfl, step, -, ends, follows⟩
    exact ⟨rfl, by simpa using ends, List.isChain_cons_cons.mpr ⟨step, follows⟩⟩

theorem not_readPath_nil {start : Location} : ¬ReadPath f flow v start [] := by
  rintro ⟨⟨_, _, path, _⟩, _⟩
  exact not_path_nil path

theorem readPath_singleton {start place : Location} :
    ReadPath f flow v start [place] ↔
      start = place ∧ ∃ point, f.pointAt place = some point ∧ v ∈ point.uses := by
  constructor
  · rintro ⟨⟨finish, point, path, here, used⟩, -⟩
    obtain ⟨rfl, rfl⟩ := path_singleton.mp path
    exact ⟨rfl, point, here, used⟩
  · rintro ⟨rfl, point, here, used⟩
    exact ⟨⟨start, point, path_singleton.mpr ⟨rfl, rfl⟩, here, used⟩,
      fun _ member => absurd member List.not_mem_nil⟩

theorem readPath_cons_cons {start first second : Location} {rest : List Location} :
    ReadPath f flow v start (first :: second :: rest) ↔
      start = first ∧ Follows f flow first second ∧
        (∀ point, f.pointAt first = some point → v ∉ point.defs) ∧
        ReadPath f flow v second (second :: rest) := by
  constructor
  · rintro ⟨⟨finish, point, path, here, used⟩, keeps⟩
    rw [List.dropLast_cons_cons, List.forall_mem_cons] at keeps
    obtain ⟨same, step, path⟩ := path_cons_cons.mp path
    exact ⟨same, step, keeps.1, ⟨finish, point, path, here, used⟩, keeps.2⟩
  · rintro ⟨same, step, kept, ⟨finish, point, path, here, used⟩, keeps⟩
    refine ⟨⟨finish, point, path_cons_cons.mpr ⟨same, step, path⟩, here, used⟩, ?_⟩
    rw [List.dropLast_cons_cons, List.forall_mem_cons]
    exact ⟨kept, keeps⟩

theorem ReadPath.cons {place next : Location} {places : List Location}
    (path : ReadPath f flow v next places) (step : Follows f flow place next)
    (kept : ∀ point, f.pointAt place = some point → v ∉ point.defs) :
    ReadPath f flow v place (place :: places) := by
  cases places with
  | nil => exact absurd path not_readPath_nil
  | cons first rest =>
      obtain ⟨finish, point, whole, -⟩ := path.reads
      have same : first = next := Option.some.inj whole.starts
      subst same
      exact readPath_cons_cons.mpr ⟨rfl, step, kept, path⟩

end Paths

end Flow

namespace Liveness

abbrev PointSets := (Location → Set Var) × (Location → Set Var)

/-- The equations of liveness: before a point is what it reads, and what is there after it and not
written; after a point is what is there before one that can be next. -/
structure Balanced (f : Function) (flow : Flow) (sets : PointSets) : Prop where
  before : ∀ {place point}, f.pointAt place = some point →
    sets.1 place = {v | v ∈ point.uses} ∪ (sets.2 place \ {v | v ∈ point.defs})
  after : ∀ {place point}, f.pointAt place = some point →
    sets.2 place = {v | ∃ next, Flow.Follows f flow place next ∧ v ∈ sets.1 next}

def sets (live : Liveness) : PointSets :=
  (fun place => {v | v ∈ live.liveIn place.1 place.2},
    fun place => {v | v ∈ live.liveOut place.1 place.2})

theorem mem_sets_before {live : Liveness} {b i : Nat} {v : Var} :
    v ∈ live.sets.1 (b, i) ↔ v ∈ live.liveIn b i :=
  Iff.rfl

theorem mem_sets_after {live : Liveness} {b i : Nat} {v : Var} :
    v ∈ live.sets.2 (b, i) ↔ v ∈ live.liveOut b i :=
  Iff.rfl

def pathSets (f : Function) (flow : Flow) : PointSets :=
  (fun place => {v | ∃ places, Flow.ReadPath f flow v place places},
    fun place => {v | ∃ next, Flow.Follows f flow place next ∧
      ∃ places, Flow.ReadPath f flow v next places})

section Solutions

variable {f : Function} {flow : Flow} {sets : PointSets}

theorem Balanced.mem_before (balanced : Balanced f flow sets) {place : Location} {point : DefUse}
    (here : f.pointAt place = some point) {v : Var} :
    v ∈ sets.1 place ↔ v ∈ point.uses ∨ v ∈ sets.2 place ∧ v ∉ point.defs := by
  rw [balanced.before here]
  rfl

theorem Balanced.mem_after (balanced : Balanced f flow sets) {place : Location} {point : DefUse}
    (here : f.pointAt place = some point) {v : Var} :
    v ∈ sets.2 place ↔ ∃ next, Flow.Follows f flow place next ∧ v ∈ sets.1 next := by
  rw [balanced.after here]
  rfl

theorem balanced_pathSets (f : Function) (flow : Flow) : Balanced f flow (pathSets f flow) where
  after _ := rfl
  before := by
    intro place point here
    ext v
    constructor
    · rintro ⟨places, path⟩
      cases places with
      | nil => exact absurd path Flow.not_readPath_nil
      | cons first rest =>
          cases rest with
          | nil =>
              obtain ⟨rfl, other, there, used⟩ := Flow.readPath_singleton.mp path
              rw [here] at there
              cases there
              exact Or.inl used
          | cons second rest =>
              obtain ⟨rfl, step, kept, later⟩ := Flow.readPath_cons_cons.mp path
              exact Or.inr ⟨⟨second, step, _, later⟩, kept point here⟩
    · rintro (used | ⟨⟨next, step, places, path⟩, kept⟩)
      · exact ⟨_, Flow.readPath_singleton.mpr ⟨rfl, point, here, used⟩⟩
      · refine ⟨_, path.cons step fun other there => ?_⟩
        rw [here] at there
        cases there
        exact kept

theorem Balanced.mem_of_readPath (balanced : Balanced f flow sets) {v : Var} {start : Location}
    {places : List Location} (path : Flow.ReadPath f flow v start places) : v ∈ sets.1 start := by
  induction places generalizing start with
  | nil => exact absurd path Flow.not_readPath_nil
  | cons first rest ih =>
      cases rest with
      | nil =>
          obtain ⟨rfl, point, here, used⟩ := Flow.readPath_singleton.mp path
          exact (balanced.mem_before here).mpr (Or.inl used)
      | cons second rest =>
          obtain ⟨rfl, step, kept, later⟩ := Flow.readPath_cons_cons.mp path
          obtain ⟨point, here⟩ := step.exists_point
          have after := (balanced.mem_after here).mpr ⟨second, step, ih later⟩
          exact (balanced.mem_before here).mpr (Or.inr ⟨after, kept point here⟩)

theorem Balanced.mem_of_liveBefore (balanced : Balanced f flow sets) {b i : Nat} {block : Block}
    (found : f.blocks[b]? = some block) {out : VarSet}
    (known : ∀ v ∈ out, ∃ c ∈ flow.successorsOf b, v ∈ sets.1 (c, 0))
    (inside : i < block.points.length) {v : Var}
    (live : v ∈ liveBefore out (block.points.drop i)) : v ∈ sets.1 (b, i) := by
  generalize remaining : block.points.drop i = rest at live
  induction rest generalizing i with
  | nil =>
      rw [List.drop_eq_nil_iff] at remaining
      omega
  | cons point rest ih =>
      rw [List.drop_eq_getElem_cons inside, List.cons.injEq] at remaining
      have here : f.pointAt (b, i) = some point :=
        Function.pointAt_eq_some.mpr ⟨block, found, remaining.1 ▸ List.getElem?_eq_getElem inside⟩
      rw [balanced.mem_before here]
      rw [liveBefore_cons, mem_transfer] at live
      refine live.symm.imp_right fun ⟨after, kept⟩ => ⟨(balanced.mem_after here).mpr ?_, kept⟩
      by_cases more : i + 1 < block.points.length
      · exact ⟨(b, i + 1), .next found more, ih more remaining.2 after⟩
      · have nothing : rest = [] := by
          rw [← remaining.2, List.drop_eq_nil_iff]
          omega
        rw [nothing, liveBefore_nil] at after
        obtain ⟨c, successor, entered⟩ := known v after
        exact ⟨(c, 0), .jump found (by omega) successor, entered⟩

variable (built : Flow.build f = .ok flow)

include built

theorem point_of_pointAt_eq_none {b i : Nat} (nothing : f.pointAt (b, i) = none) :
    (solve f flow).point b i = {} := by
  cases found : f.blocks[b]? with
  | none => rw [Liveness.point, solve_block_eq_nil found, List.getD_nil]
  | some block =>
      have outside : block.points[i]? = none := by
        simpa [Function.pointAt, found] using nothing
      rw [List.getElem?_eq_none_iff] at outside
      rw [Liveness.point, solve_block built found, List.getD_eq_default]
      simpa using outside

theorem exists_pointAt_of_liveIn {b i : Nat} {v : Var} (live : v ∈ (solve f flow).liveIn b i) :
    ∃ point, f.pointAt (b, i) = some point := by
  rw [← Option.ne_none_iff_exists']
  intro nothing
  rw [liveIn, point_of_pointAt_eq_none built nothing] at live
  exact absurd live (IndexSet.not_mem_empty v)

theorem exists_pointAt_of_liveOut {b i : Nat} {v : Var} (live : v ∈ (solve f flow).liveOut b i) :
    ∃ point, f.pointAt (b, i) = some point := by
  rw [← Option.ne_none_iff_exists']
  intro nothing
  rw [liveOut, point_of_pointAt_eq_none built nothing] at live
  exact absurd live (IndexSet.not_mem_empty v)

theorem mem_liveOut_iff_of_last {b i : Nat} {block : Block} (found : f.blocks[b]? = some block)
    (last : i + 1 = block.points.length) {v : Var} :
    v ∈ (solve f flow).liveOut b i ↔
      ∃ c ∈ flow.successorsOf b, v ∈ (solve f flow).liveIn c 0 := by
  have done : block.points.drop (i + 1) = [] := by
    rw [List.drop_eq_nil_iff]
    omega
  rw [liveOut_eq_liveBefore built found (by omega), done, liveBefore_nil, mem_exitSet_solve]
  simp only [blockIn_eq_liveIn]

theorem balanced_solve : Balanced f flow (solve f flow).sets where
  before := by
    rintro ⟨b, i⟩ point here
    obtain ⟨block, found, here⟩ := Function.pointAt_eq_some.mp here
    ext v
    exact (mem_liveIn built found here).trans or_comm
  after := by
    rintro ⟨b, i⟩ point here
    obtain ⟨block, found, here⟩ := Function.pointAt_eq_some.mp here
    have inside := (List.getElem?_eq_some_iff.mp here).1
    ext v
    by_cases more : i + 1 < block.points.length
    · have same : v ∈ (solve f flow).liveOut b i ↔ v ∈ (solve f flow).liveIn b (i + 1) := by
        rw [liveOut_eq_liveIn built found more]
      refine same.trans ?_
      constructor
      · intro live
        exact ⟨(b, i + 1), .next found more, live⟩
      · rintro ⟨next, step, live⟩
        cases step with
        | next => exact live
        | jump found' last _ =>
            rw [found] at found'
            cases found'
            omega
    · have last : i + 1 = block.points.length := by omega
      refine (mem_liveOut_iff_of_last built found last).trans ?_
      constructor
      · rintro ⟨c, successor, live⟩
        exact ⟨(c, 0), .jump found last successor, live⟩
      · rintro ⟨next, step, live⟩
        cases step with
        | next found' more' =>
            rw [found] at found'
            cases found'
            exact absurd more' more
        | jump _ _ successor => exact ⟨_, successor, live⟩

/-- Every solution has what is live before a point. -/
theorem Balanced.mem_of_liveIn (balanced : Balanced f flow sets) {b i : Nat} {v : Var}
    (live : v ∈ (solve f flow).liveIn b i) : v ∈ sets.1 (b, i) := by
  obtain ⟨point, here⟩ := exists_pointAt_of_liveIn built live
  obtain ⟨block, found, here⟩ := Function.pointAt_eq_some.mp here
  have inside := (List.getElem?_eq_some_iff.mp here).1
  rw [liveIn_eq_liveBefore built found inside] at live
  refine balanced.mem_of_liveBefore found ?_ inside live
  intro u live
  obtain ⟨c, successor, entered⟩ := mem_exitSet_solve.mp live
  refine ⟨c, successor, blockIn_induction (fun b v => v ∈ sets.1 (b, 0)) ?_ entered⟩
  intro b block out found known v live
  exact balanced.mem_of_liveBefore found known (by simp [Block.points]) live

theorem Balanced.mem_of_liveOut (balanced : Balanced f flow sets) {b i : Nat} {v : Var}
    (live : v ∈ (solve f flow).liveOut b i) : v ∈ sets.2 (b, i) := by
  obtain ⟨point, here⟩ := exists_pointAt_of_liveOut built live
  obtain ⟨⟨c, j⟩, step, later⟩ := ((balanced_solve built).mem_after here).mp live
  exact (balanced.mem_after here).mpr ⟨(c, j), step, balanced.mem_of_liveIn built later⟩

end Solutions

/-- Passes over the blocks come to an end, whatever the shape of the flow graph, and what they find
is exact: a variable is live before a point if and only if a path from there reads it before
writing it, and live after a point if and only if such a path starts at a point that can be next.
These are the least sets that satisfy the equations. -/
theorem solve_exact {f : Function} {flow : Flow} (built : Flow.build f = .ok flow) :
    Settles (f.blocks.map Block.points) flow (blank (f.blocks.map Block.points))
        (solve f flow).blocks (solve f flow).iterations ∧
      (∀ b i v, v ∈ (solve f flow).liveIn b i ↔
        ∃ places, Flow.ReadPath f flow v (b, i) places) ∧
      (∀ b i v, v ∈ (solve f flow).liveOut b i ↔
        ∃ next, Flow.Follows f flow (b, i) next ∧ ∃ places, Flow.ReadPath f flow v next places) ∧
      IsLeast {sets | Balanced f flow sets} (solve f flow).sets := by
  have balanced := balanced_solve built
  have paths := balanced_pathSets f flow
  refine ⟨solve_settles f flow, ?_, ?_, balanced, ?_⟩
  · intro b i v
    refine ⟨paths.mem_of_liveIn built, ?_⟩
    rintro ⟨places, path⟩
    exact mem_sets_before.mp (balanced.mem_of_readPath path)
  · intro b i v
    refine ⟨paths.mem_of_liveOut built, ?_⟩
    rintro ⟨next, step, places, path⟩
    obtain ⟨point, here⟩ := step.exists_point
    exact mem_sets_after.mp
      ((balanced.mem_after here).mpr ⟨next, step, balanced.mem_of_readPath path⟩)
  · intro sets solution
    exact ⟨fun _ _ live => Balanced.mem_of_liveIn built solution live,
      fun _ _ live => Balanced.mem_of_liveOut built solution live⟩

def crossing : Function where
  name := "@m"
  ret := ⟨.int64, 0⟩
  params := [⟨⟨.int64, 0⟩, ⟨0⟩⟩]
  blocks :=
    [⟨":e", [.assign (.var ⟨1⟩) (.const 9)], .branch (.var ⟨0⟩) (.label ":l") (.label ":r")⟩,
      ⟨":l", [.assign (.var ⟨2⟩) (.binary .add (.var ⟨1⟩) (.const 1))], .jump (.label ":r")⟩,
      ⟨":r", [.assign (.var ⟨1⟩) (.binary .sub (.var ⟨1⟩) (.const 1))],
        .branch (.var ⟨1⟩) (.label ":l") (.label ":x")⟩,
      ⟨":x", [], .retValue (.var ⟨0⟩)⟩,
      ⟨":u", [.assign (.var ⟨0⟩) (.const 3)], .jump (.label ":l")⟩]
  vars := ⟨["%p", "%x", "%y"], 0⟩

def crossingFlow : Flow :=
  ⟨[[1, 2], [2], [1, 3], [], [1]]⟩

theorem build_crossing : Flow.build crossing = .ok crossingFlow := by
  decide +kernel

/-- From the block that nothing leads to, a path through the loop reads the parameter once it has
been written there, and none does before that. -/
theorem solve_exact_unreachable :
    Flow.build crossing = .ok crossingFlow ∧ (∀ b, 4 ∉ crossingFlow.successorsOf b) ∧
      (∃ places, Flow.ReadPath crossing crossingFlow ⟨0⟩ (4, 1) places) ∧
      ¬∃ places, Flow.ReadPath crossing crossingFlow ⟨0⟩ (4, 0) places := by
  obtain ⟨-, before, -⟩ := solve_exact build_crossing
  refine ⟨build_crossing, ?_, (before 4 1 ⟨0⟩).mp (by decide +kernel), ?_⟩
  · intro b
    rcases b with _ | _ | _ | _ | _ | b <;> simp [Flow.successorsOf, crossingFlow]
  · rw [← before 4 0 ⟨0⟩]
    decide +kernel

end Liveness

namespace Interference

open Liveness

section Conflicts

variable {f : Function} {flow : Flow} {target : Target}

theorem conflict_or_before (built : Flow.build f = .ok flow) {place : Location} {point : DefUse}
    (here : f.pointAt place = some point) {u v : Var} (apart : u ≠ v)
    (first : u ∈ (solve f flow).sets.2 place) (second : v ∈ (solve f flow).sets.2 place) :
    (build f (solve f flow) target).interferes (.var u) (.var v) = true ∨
      (u ∉ point.defs ∧ v ∉ point.defs) ∧
        u ∈ (solve f flow).sets.1 place ∧ v ∈ (solve f flow).sets.1 place := by
  obtain ⟨block, found, there⟩ := Function.pointAt_eq_some.mp here
  by_cases written : u ∈ point.defs
  · exact Or.inl (written_conflict found there written second apart)
  by_cases written' : v ∈ point.defs
  · exact Or.inl (interferes_symm (written_conflict found there written' first apart.symm))
  have balanced := balanced_solve built
  exact Or.inr ⟨⟨written, written'⟩, (balanced.mem_before here).mpr (Or.inr ⟨first, written⟩),
    (balanced.mem_before here).mpr (Or.inr ⟨second, written'⟩)⟩

def WrittenOn (f : Function) (places : List Location) (v : Var) : Prop :=
  ∃ place ∈ places, ∃ point, f.pointAt place = some point ∧ v ∈ point.defs

theorem writtenOn_cons {f : Function} {place : Location} {places : List Location} {point : DefUse}
    (here : f.pointAt place = some point) {v : Var} :
    WrittenOn f (place :: places) v ↔ v ∈ point.defs ∨ WrittenOn f places v := by
  simp [WrittenOn, here]

/-- Of two variables that are live after a path, one is written on it and they conflict, or both
are live before it. -/
theorem conflict_or_start (built : Flow.build f = .ok flow) {places : List Location}
    {start finish : Location} (path : Flow.Path f flow start finish places) {u v : Var}
    (apart : u ≠ v) (first : u ∈ (solve f flow).sets.2 finish)
    (second : v ∈ (solve f flow).sets.2 finish) :
    (build f (solve f flow) target).interferes (.var u) (.var v) = true ∨
      (¬WrittenOn f places u ∧ ¬WrittenOn f places v) ∧
        u ∈ (solve f flow).sets.1 start ∧ v ∈ (solve f flow).sets.1 start := by
  induction places generalizing start with
  | nil => exact absurd path Flow.not_path_nil
  | cons place rest ih =>
      -- After the first point, whether the path goes on from there or not.
      have after : (build f (solve f flow) target).interferes (.var u) (.var v) = true ∨
          (¬WrittenOn f rest u ∧ ¬WrittenOn f rest v) ∧ start = place ∧
            u ∈ (solve f flow).sets.2 place ∧ v ∈ (solve f flow).sets.2 place := by
        cases rest with
        | nil =>
            obtain ⟨rfl, rfl⟩ := Flow.path_singleton.mp path
            exact Or.inr ⟨by simp [WrittenOn], rfl, first, second⟩
        | cons next rest =>
            obtain ⟨rfl, step, later⟩ := Flow.path_cons_cons.mp path
            obtain ⟨point, here⟩ := step.exists_point
            refine (ih later).imp_right fun ⟨unwritten, before, before'⟩ => ⟨unwritten, rfl, ?_⟩
            have balanced := balanced_solve built
            exact ⟨(balanced.mem_after here).mpr ⟨next, step, before⟩,
              (balanced.mem_after here).mpr ⟨next, step, before'⟩⟩
      rcases after with conflict | ⟨unwritten, rfl, first, second⟩
      · exact Or.inl conflict
      obtain ⟨point, here⟩ := exists_pointAt_of_liveOut built first
      refine (conflict_or_before built here apart first second).imp_right fun ⟨kept, before⟩ => ?_
      rw [writtenOn_cons here, writtenOn_cons here, not_or, not_or]
      exact ⟨⟨⟨kept.1, unwritten.1⟩, kept.2, unwritten.2⟩, before⟩

end Conflicts

/-- Every real conflict is found: of the variables that are live after a path from the entry, one
that has a value there, as a parameter or because the path writes it, conflicts with all others,
whether they have one or not. -/
theorem interferes_of_path {f : Function} {flow : Flow} (built : Flow.build f = .ok flow)
    (target : Target) {places : List Location} {b i : Nat}
    (path : Flow.Path f flow (0, 0) (b, i) places) {u v : Var} (apart : u ≠ v)
    (first : u ∈ (solve f flow).liveOut b i) (second : v ∈ (solve f flow).liveOut b i)
    (known : u ∈ f.paramVars ∨ WrittenOn f places u) :
    (build f (solve f flow) target).interferes (.var u) (.var v) = true := by
  rcases conflict_or_start built path apart first second with conflict | ⟨unwritten, -, entered⟩
  · exact conflict
  · -- Both are parameters, and the second is live on entry.
    have param := known.resolve_right unwritten.1
    refine entry_conflict param ?_ apart
    rw [blockIn_eq_liveIn]
    exact entered

theorem path_crossing :
    Flow.Path crossing crossingFlow (0, 0) (1, 0) [(0, 0), (0, 1), (2, 0), (2, 1), (1, 0)] := by
  refine Flow.path_cons_cons.mpr ⟨rfl, .next rfl (by decide), ?_⟩
  refine Flow.path_cons_cons.mpr ⟨rfl, .jump rfl (by decide) (by decide), ?_⟩
  refine Flow.path_cons_cons.mpr ⟨rfl, .next rfl (by decide), ?_⟩
  refine Flow.path_cons_cons.mpr ⟨rfl, .jump rfl (by decide) (by decide), ?_⟩
  exact Flow.path_singleton.mpr ⟨rfl, rfl⟩

/-- The path enters the loop on one side and goes round to the other. The counter that it writes
twice and the parameter are both live where it ends, though that point writes neither. -/
theorem interferes_of_path_loop :
    Flow.build crossing = .ok crossingFlow ∧
      Flow.Path crossing crossingFlow (0, 0) (1, 0) [(0, 0), (0, 1), (2, 0), (2, 1), (1, 0)] ∧
      ⟨1⟩ ∉ crossing.paramVars ∧
      (build crossing (solve crossing crossingFlow) .full).interferes (.var ⟨1⟩) (.var ⟨0⟩) =
        true := by
  have written : WrittenOn crossing [(0, 0), (0, 1), (2, 0), (2, 1), (1, 0)] ⟨1⟩ :=
    ⟨(2, 0), by decide, ⟨[⟨1⟩], [⟨1⟩], false⟩, by decide, by decide⟩
  exact ⟨build_crossing, path_crossing, by decide,
    interferes_of_path build_crossing .full path_crossing (by decide) (by decide +kernel)
      (by decide +kernel) (Or.inr written)⟩

end Interference

end Regalloc
