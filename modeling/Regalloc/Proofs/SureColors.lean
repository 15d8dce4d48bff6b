import Mathlib
import Regalloc.Proofs.EnoughRegisters

/-!
# Variables that are sure of a color

A variable that is taken out of a graph with fewer neighbors left than there are colors finds a
color when its turn comes, also if others were left without one. So the errors by which the
allocator would own up to a fault of its own never come up: every variable is taken out once, as
long as one is left another is found to take out, and no neighbor of it is counted down below zero.
-/

namespace Regalloc

/-- Errors that blame the allocator and not what it is given. -/
def Error.isInternal : Error → Bool
  | .noColorLeft .. => true
  | .uncolored .. => true
  | _ => false

namespace Coloring

inductive TakesOut (graph : Interference) (temporaries : VarSet) (colors : Nat) :
    List Candidate → List Removal → List Candidate → Prop
  | done (candidates : List Candidate) :
      TakesOut graph temporaries colors candidates [] candidates
  | next {candidates left : List Candidate} {removal : Removal} {rest : List Removal} :
      nextRemoval temporaries colors candidates = some removal →
      TakesOut graph temporaries colors (remove graph removal.v candidates) rest left →
      TakesOut graph temporaries colors candidates (removal :: rest) left

section TakesOut

variable {graph : Interference} {temporaries : VarSet} {colors : Nat}
  {candidates left : List Candidate} {removal : Removal} {taken rest : List Removal}

theorem mem_of_nextRemoval (next : nextRemoval temporaries colors candidates = some removal) :
    removal.v ∈ candidates.map Candidate.v := by
  obtain ⟨candidate, listed, same⟩ := (nextRemoval_cases next).1
  exact same ▸ List.mem_map_of_mem listed

theorem takesOut_removals {count : Nat} (enough : candidates.length ≤ count) :
    TakesOut graph temporaries colors candidates
      (removals graph temporaries colors count candidates) [] := by
  induction count generalizing candidates with
  | zero =>
      rw [List.length_eq_zero_iff.mp (Nat.le_zero.mp enough)]
      exact .done []
  | succ count ih =>
      by_cases empty : candidates = []
      · subst empty
        exact .done []
      · obtain ⟨removal, next, candidate, listed, same⟩ := nextRemoval_some empty
        have fewer := length_remove_lt graph listed same
        rw [removals, next]
        exact .next next (ih (by omega))

namespace TakesOut

theorem eq_removals (run : TakesOut graph temporaries colors candidates taken left) :
    removals graph temporaries colors taken.length candidates = taken := by
  induction run with
  | done => rfl
  | next found _ ih =>
      rw [List.length_cons, removals, found]
      exact congrArg (List.cons _) ih

theorem split (run : TakesOut graph temporaries colors candidates (taken ++ rest) left) :
    ∃ middle, TakesOut graph temporaries colors candidates taken middle ∧
      TakesOut graph temporaries colors middle rest left := by
  induction taken generalizing candidates with
  | nil => exact ⟨candidates, .done candidates, run⟩
  | cons removal taken ih =>
      cases run with
      | next found run =>
          obtain ⟨middle, first, second⟩ := ih run
          exact ⟨middle, .next found first, second⟩

theorem perm (run : TakesOut graph temporaries colors candidates taken left)
    (distinct : (candidates.map Candidate.v).Nodup) :
    (taken.map Removal.v ++ left.map Candidate.v).Perm (candidates.map Candidate.v) := by
  induction run with
  | done => exact .refl _
  | next found _ ih =>
      rw [map_v_remove, ← distinct.erase_eq_filter] at ih
      have later := ih (distinct.erase _)
      exact (later.cons _).trans (List.perm_cons_erase (mem_of_nextRemoval found)).symm

theorem counted (run : TakesOut graph temporaries colors candidates taken left)
    (symm : ∀ first second, graph.interferes first second = true →
      graph.interferes second first = true)
    (start : Counted graph candidates) : Counted graph left := by
  induction run with
  | done => exact start
  | next found _ ih => exact ih (counted_remove symm start (mem_of_nextRemoval found))

end TakesOut

theorem Counted.degree_pos (counted : Counted graph left)
    (symm : ∀ first second, graph.interferes first second = true →
      graph.interferes second first = true)
    {v : Var} (inside : v ∈ left.map Candidate.v) {candidate : Candidate}
    (listed : candidate ∈ left)
    (joined : graph.interferes (.var v) (.var candidate.v) = true) : 0 < candidate.degree := by
  rw [counted.degree candidate listed]
  refine List.countP_pos_iff.mpr ⟨.var v, Interference.mem_neighbors.mpr (symm _ _ joined), ?_⟩
  simpa [Node.remains] using inside

theorem risky_eq_false_iff (next : nextRemoval temporaries colors left = some removal) :
    removal.risky = false ↔
      ∃ candidate ∈ left, candidate.v = removal.v ∧ candidate.degree < colors := by
  rcases (nextRemoval_cases next).2 with ⟨sure, small⟩ | ⟨risky, large, -⟩
  · exact iff_of_true sure small
  · refine iff_of_false (by simp [risky]) ?_
    rintro ⟨candidate, listed, -, small⟩
    exact absurd (large candidate listed) (Nat.not_le.mpr small)

end TakesOut

theorem selectFrom_isSome {f : Function} {graph : Interference} {target : Target}
    {removals : List Removal} {coloring final : Coloring}
    (selected : (selectFrom f graph target removals coloring).result = .ok final) {v : Var}
    (colored : (coloring.color v).isSome) : (final.color v).isSome := by
  induction removals generalizing coloring with
  | nil =>
      cases selected
      exact colored
  | cons removal rest ih =>
      rcases selectFrom_cons selected with ⟨r, -, later⟩ | later
      · apply ih later
        rw [color_assign]
        split
        · rfl
        · exact colored
      · exact ih later colored

/-- How the variables of a graph are taken out and colored: each is taken out once, with a next one
to take out as long as one is left, and those that were sure of a color get one. -/
structure Thorough (f : Function) (graph : Interference) (target : Target) (temporaries : VarSet)
    (start : List Candidate) (order : List Removal) : Prop where
  ends : TakesOut graph temporaries target.colorCount start order []
  nodup : (order.map Removal.v).Nodup
  mem : ∀ v, v ∈ order.map Removal.v ↔ .var v ∈ graph.nodes
  counted : ∀ taken left, TakesOut graph temporaries target.colorCount start taken left →
    Counted graph left
  next : ∀ taken left, TakesOut graph temporaries target.colorCount start taken left → left ≠ [] →
    ∃ removal, nextRemoval temporaries target.colorCount left = some removal ∧
      (removal.risky = false ↔
        ∃ candidate ∈ left, candidate.v = removal.v ∧ candidate.degree < target.colorCount) ∧
      ∀ candidate ∈ left, graph.interferes (.var removal.v) (.var candidate.v) = true →
        0 < candidate.degree
  free : ∀ before removal after, order = before ++ removal :: after →
    ∃ coloring, (selectFrom f graph target after.reverse {}).result = .ok coloring ∧
      (removal.risky = false → ∃ r, coloring.free? graph target removal.v = some r)
  colored : ∃ coloring, (select f graph target order).result = .ok coloring ∧
    ∀ removal ∈ order, removal.risky = false →
      ∃ r ∈ target.allocatable, coloring.color removal.v = some r

section Thorough

variable {graph : Interference} {target : Target} {temporaries : VarSet}
  {start : List Candidate} {order before after : List Removal} {removal : Removal}
  (distinct : target.allocatable.Nodup)
  (symm : ∀ first second, graph.interferes first second = true →
    graph.interferes second first = true)
  (loopless : ∀ node, ¬graph.interferes node node = true)
  (counted : Counted graph start)

include distinct symm loopless counted

theorem TakesOut.selected (f : Function) {left : List Candidate}
    (run : TakesOut graph temporaries target.colorCount start order left) :
    ∃ coloring, (selectFrom f graph target order.reverse {}).result = .ok coloring ∧
      Settled graph target temporaries start coloring := by
  rw [← run.eq_removals]
  exact selectFrom_removals f distinct symm loopless order.length counted

/-- Those taken out later are colored before, and leave a color if there were fewer of them. -/
theorem TakesOut.free (f : Function)
    (run : TakesOut graph temporaries target.colorCount start (before ++ removal :: after) []) :
    ∃ coloring, (selectFrom f graph target after.reverse {}).result = .ok coloring ∧
      (removal.risky = false → ∃ r, coloring.free? graph target removal.v = some r) := by
  obtain ⟨middle, first, second⟩ := run.split
  have counted := first.counted symm counted
  cases second with
  | next found rest =>
      obtain ⟨coloring, selected, settled⟩ := rest.selected distinct symm loopless
        (counted_remove symm counted (mem_of_nextRemoval found)) f
      refine ⟨coloring, selected, fun sure => ?_⟩
      cases free : coloring.free? graph target removal.v with
      | some r => exact ⟨r, rfl⟩
      | none =>
          have risky := (settled.spill found distinct counted free).1
          simp [sure] at risky

theorem TakesOut.colored (f : Function)
    (run : TakesOut graph temporaries target.colorCount start order []) :
    ∃ coloring, (select f graph target order).result = .ok coloring ∧
      ∀ removal ∈ order, removal.risky = false →
        ∃ r ∈ target.allocatable, coloring.color removal.v = some r := by
  obtain ⟨coloring, selected, settled⟩ := run.selected distinct symm loopless counted f
  refine ⟨coloring, selected, ?_⟩
  intro removal listed sure
  obtain ⟨before, after, rfl⟩ := List.append_of_mem listed
  obtain ⟨middle, earlier, free⟩ := run.free distinct symm loopless counted f
  obtain ⟨r, free⟩ := free sure
  rw [List.reverse_append, List.reverse_cons, List.append_assoc, selectFrom_append, earlier]
    at selected
  have later : (selectFrom f graph target before.reverse
      (middle.assign removal.v r)).result = .ok coloring := by
    simpa [selectFrom, free, bind, Except.bind] using selected
  have some : (coloring.color removal.v).isSome := selectFrom_isSome later (by simp)
  obtain ⟨s, held⟩ := Option.isSome_iff_exists.mp some
  exact ⟨s, settled.proper.allocatable _ _ held, held⟩

end Thorough

theorem thorough_simplify (f : Function) {graph : Interference} {target : Target}
    (distinct : target.allocatable.Nodup)
    (symm : ∀ first second, graph.interferes first second = true →
      graph.interferes second first = true)
    (loopless : ∀ node, ¬graph.interferes node node = true)
    (closed : ∀ u v, graph.interferes (.var u) (.var v) = true → .var v ∈ graph.nodes)
    (uses : Var → Nat) (temporaries : VarSet) :
    Thorough f graph target temporaries (candidates graph uses)
      (simplify graph uses temporaries target.colorCount) := by
  have counted : Counted graph (candidates graph uses) := counted_candidates closed
  have ends : TakesOut graph temporaries target.colorCount (candidates graph uses)
      (simplify graph uses temporaries target.colorCount) [] :=
    takesOut_removals (Nat.le_refl _)
  have perm := ends.perm counted.nodup
  rw [List.map_nil, List.append_nil] at perm
  refine ⟨ends, perm.nodup_iff.mpr counted.nodup, fun v => ?_,
    fun taken left run => run.counted symm counted, fun taken left run nonempty => ?_,
    fun before removal after same => ?_, ends.colored distinct symm loopless counted f⟩
  · rw [perm.mem_iff]
    simp [candidates, Function.comp_def]
  · obtain ⟨removal, next, -⟩ := nextRemoval_some nonempty
    refine ⟨removal, next, risky_eq_false_iff next, fun candidate listed joined => ?_⟩
    exact (run.counted symm counted).degree_pos symm (mem_of_nextRemoval next) listed joined
  · exact (same ▸ ends).free distinct symm loopless counted f

end Coloring

namespace Allocation

def Stage.graph (config : Config) (flow : Flow) (stage : Stage) : Interference :=
  Interference.build stage.function (Liveness.solve stage.function flow) config.target

def Stage.uses (stage : Stage) (v : Var) : Nat :=
  stage.function.mentions.count v

def Stage.order (config : Config) (flow : Flow) (stage : Stage) : List Coloring.Removal :=
  Coloring.simplify (stage.graph config flow) stage.uses stage.temporaries config.target.colorCount

section Stages

variable {config : Config} {flow : Flow} {stage : Stage}

theorem Stage.result_attempt (built : Flow.build stage.function = .ok flow) :
    (stage.attempt config).result =
      (Coloring.select stage.function (stage.graph config flow) config.target
        (stage.order config flow)).result :=
  result_color built

theorem Rounds.build {list : List (List Var)} {last : Stage}
    (rounds : Rounds config stage list last) (built : Flow.build stage.function = .ok flow) :
    Flow.build last.function = .ok flow := by
  induction rounds with
  | refl => exact built
  | round _ _ _ ih => exact ih (Spill.build_all _ _ _ built)

theorem Stage.thorough (distinct : config.target.allocatable.Nodup) (flow : Flow) (stage : Stage) :
    Coloring.Thorough stage.function (stage.graph config flow) config.target stage.temporaries
      (Coloring.candidates (stage.graph config flow) stage.uses) (stage.order config flow) := by
  refine Coloring.thorough_simplify stage.function distinct
    (fun _ _ => Interference.interferes_symm) Interference.loopless (fun u v conflict => ?_)
    stage.uses stage.temporaries
  exact Interference.mem_nodes_of_interferes (Interference.interferes_symm conflict)

/-- An attempt fails only on functions that are not in order. -/
theorem color_eq_error (distinct : config.target.allocatable.Nodup) {rounds : Nat}
    {temporaries : VarSet} {f : Function} {error : Error}
    (failed : (color config rounds temporaries f).result = .error error) :
    IsMisfit f.name error := by
  cases built : Flow.build f with
  | ok flow =>
      obtain ⟨coloring, colored, -⟩ := color_settled config rounds temporaries distinct built
      cases failed.symm.trans colored
  | error other =>
      have same : (color config rounds temporaries f).result = .error other := by
        simp only [color, Logged.result_bind, Liveness.analyze, Logged.result_ofExcept, built]
        rfl
      cases failed.symm.trans same
      exact build_eq_error built

theorem withFrame_eq_error {f : Function} {coloring : Coloring} {rounds : Nat} {error : Error}
    (failed : (withFrame config f coloring rounds).result = .error error) :
    error = .slotsExhausted f.name := by
  rcases Nat.lt_or_ge f.nextFreeSlot slotBound with room | full
  · rw [withFrame_of_lt room] at failed
    cases failed
  · rw [withFrame_of_le full] at failed
    cases failed
    rfl

theorem allocateFrom_eq_error (distinct : config.target.allocatable.Nodup)
    {remaining rounds : Nat} {temporaries : VarSet} {f : Function} {error : Error}
    (failed : (allocateFrom config remaining rounds temporaries f).result = .error error) :
    (∃ name, IsMisfit name error) ∨ (∃ name count, error = .nonTermination name count) ∨
      ∃ name, error = .slotsExhausted name := by
  induction remaining generalizing rounds temporaries f with
  | zero =>
      rw [allocateFrom, Logged.result_bind] at failed
      rcases except_bind_eq_error failed with failed | ⟨coloring, -, failed⟩
      · exact Or.inl ⟨_, color_eq_error distinct failed⟩
      · split at failed
        · exact Or.inr (Or.inr ⟨_, withFrame_eq_error failed⟩)
        · cases failed
          exact Or.inr (Or.inl ⟨_, _, rfl⟩)
  | succ remaining ih =>
      rw [allocateFrom, Logged.result_bind] at failed
      rcases except_bind_eq_error failed with failed | ⟨coloring, -, failed⟩
      · exact Or.inl ⟨_, color_eq_error distinct failed⟩
      · split at failed
        · exact Or.inr (Or.inr ⟨_, withFrame_eq_error failed⟩)
        · dsimp only at failed
          split at failed
          · cases failed
            exact Or.inr (Or.inl ⟨_, _, rfl⟩)
          · rcases Nat.lt_or_ge (f.nextFreeSlot + coloring.spilled.toList.length + 1)
              slotBound with room | full
            · rw [Spill.toFreeSlots_of_lt room] at failed
              exact ih failed
            · rw [Spill.toFreeSlots_of_le full] at failed
              cases failed
              exact Or.inr (Or.inr ⟨_, rfl⟩)

end Stages

end Allocation

/-- Allocation never fails by a fault of its own. In every round each variable is taken out once and
without counting below zero, and those that had fewer neighbors left than there are colors get a
register. -/
theorem allocate_not_internal (config : Allocation.Config) (f : Function)
    (distinct : config.target.allocatable.Nodup) :
    (∀ error, (allocate config f).result = .error error → error.isInternal = false) ∧
      ∀ flow, Flow.build f = .ok flow →
        ∀ list stage, Allocation.Rounds config { function := f } list stage →
          (stage.attempt config).result =
            (Coloring.select stage.function (stage.graph config flow) config.target
              (stage.order config flow)).result ∧
          Coloring.Thorough stage.function (stage.graph config flow) config.target
            stage.temporaries (Coloring.candidates (stage.graph config flow) stage.uses)
            (stage.order config flow) := by
  refine ⟨fun error failed => ?_, fun flow built list stage rounds => ?_⟩
  · rcases Allocation.allocateFrom_eq_error distinct failed with
      ⟨name, ⟨_, rfl⟩ | ⟨_, _, rfl⟩⟩ | ⟨_, _, rfl⟩ | ⟨_, rfl⟩ <;> rfl
  · exact ⟨Allocation.Stage.result_attempt (rounds.build built),
      Allocation.Stage.thorough distinct flow stage⟩

/-- With one register the first operand of an addition is left without one, and the sum, which was
taken out before it, still gets the register. -/
theorem allocate_not_internal_two_operands :
    ∃ config f flow coloring error, config = { target := .withRegisters 1 } ∧
      f = ⟨"@m", ⟨.int64, 0⟩, [],
        [⟨":s", [.assign (.var ⟨0⟩) (.const 1), .assign (.var ⟨1⟩) (.const 2),
          .assign (.var ⟨2⟩) (.binary .add (.var ⟨0⟩) (.var ⟨1⟩))], .retValue (.var ⟨2⟩)⟩],
        ⟨["%a", "%b", "%c"], 0⟩⟩ ∧
      config.target.allocatable.Nodup ∧ Flow.build f = .ok flow ∧
      Allocation.Stage.order config flow { function := f } =
        [⟨⟨2⟩, false⟩, ⟨⟨0⟩, true⟩, ⟨⟨1⟩, false⟩] ∧
      (Allocation.color config 0 ∅ f).result = .ok coloring ∧ coloring.spilled.toList = [⟨0⟩] ∧
      (∃ r ∈ config.target.allocatable, coloring.color ⟨2⟩ = some r) ∧
      (allocate config f).result = .error error ∧ error.isInternal = false := by
  obtain ⟨config, target⟩ : ∃ config : Allocation.Config,
      config = { target := .withRegisters 1 } := ⟨_, rfl⟩
  obtain ⟨f, same⟩ : ∃ f : Function, f = ⟨"@m", ⟨.int64, 0⟩, [],
      [⟨":s", [.assign (.var ⟨0⟩) (.const 1), .assign (.var ⟨1⟩) (.const 2),
        .assign (.var ⟨2⟩) (.binary .add (.var ⟨0⟩) (.var ⟨1⟩))], .retValue (.var ⟨2⟩)⟩],
      ⟨["%a", "%b", "%c"], 0⟩⟩ := ⟨_, rfl⟩
  have distinct : config.target.allocatable.Nodup := by
    rw [target]
    decide
  have built : Flow.build f = .ok ⟨[[]]⟩ := by
    rw [same]
    decide +kernel
  have order : Allocation.Stage.order config ⟨[[]]⟩ { function := f } =
      [⟨⟨2⟩, false⟩, ⟨⟨0⟩, true⟩, ⟨⟨1⟩, false⟩] := by
    rw [target, same]
    decide +kernel
  have first : (Allocation.color config 0 ∅ f).result.toOption.map
      (fun coloring => coloring.spilled.toList) = some [⟨0⟩] := by
    rw [target, same]
    decide +kernel
  have failed : (allocate config f).result = .error (.nonTermination "@m" 3) := by
    rw [target, same]
    decide +kernel
  obtain ⟨coloring, colored, spilled⟩ := Option.map_eq_some_iff.mp first
  have result := toOption_eq_some.mp colored
  obtain ⟨fair, rounds⟩ := allocate_not_internal config f distinct
  obtain ⟨attempt, thorough⟩ := rounds _ built [] _ (.refl _)
  obtain ⟨coloring', selected, sure⟩ := thorough.colored
  cases result.symm.trans (attempt.trans selected)
  refine ⟨config, f, _, coloring, _, target, same, distinct, built, order, result, spilled, ?_,
    failed, fair _ failed⟩
  exact sure ⟨⟨2⟩, false⟩ (by simp [order]) rfl

end Regalloc
