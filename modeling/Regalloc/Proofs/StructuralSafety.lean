import Mathlib
import Regalloc.Proofs.ObservedJumps
import Regalloc.Proofs.RoundTrip
import Regalloc.Proofs.StackSlots

/-!
# Faults that a program that was read cannot show

The grammar lets no type stand for a value, names built-in functions only, assigns only to what
holds a value and asks every function for a block. The flow graph finds every jump target.
Spilling renames variables and brings in moves, none of which can go wrong in these ways. So what
is left to stop a run are faults that depend on what is computed.
-/

namespace Regalloc

namespace Expr

theorem builtinFaults_mapVars (function : String) (rename : Var → Var) (builtin : Bool)
    (callee : Expr) :
    builtinFaults function builtin (callee.mapVars rename) =
      builtinFaults function builtin callee := by
  rw [builtinFaults, builtinFaults, Machine.label?_mapVars]

mutual

theorem faults_mapVars (function : String) (rename : Var → Var) :
    ∀ expr : Expr, (expr.mapVars rename).faults function = expr.faults function
  | .type _ => rfl
  | .const _ => rfl
  | .label _ => rfl
  | .var _ => rfl
  | .slot _ => rfl
  | .access base offsets => by
      rw [mapVars, faults, faults, faults_mapVars function rename base,
        faultsOfAll_mapVars function rename offsets]
  | .binary _ left right => by
      rw [mapVars, faults, faults, faults_mapVars function rename left,
        faults_mapVars function rename right]
  | .call _ callee args => by
      rw [mapVars, faults, faults, builtinFaults_mapVars, faults_mapVars function rename callee,
        faultsOfAll_mapVars function rename args]
  | .newArray dims => faultsOfAll_mapVars function rename dims
  | .newTuple size => faults_mapVars function rename size
  | .length base dim => by
      rw [mapVars, faults, faults, faults_mapVars function rename base,
        faults_mapVars function rename dim]

theorem faultsOfAll_mapVars (function : String) (rename : Var → Var) :
    ∀ exprs : List Expr,
      faultsOfAll function (mapVarsOfAll rename exprs) = faultsOfAll function exprs
  | [] => rfl
  | expr :: exprs => by
      rw [mapVarsOfAll, faultsOfAll, faultsOfAll, faults_mapVars function rename expr,
        faultsOfAll_mapVars function rename exprs]

end

theorem placeFaults_mapVars (function : String) (rename : Var → Var) (target : Expr) :
    (target.mapVars rename).placeFaults function = target.placeFaults function := by
  cases target with
  | access base offsets => exact faults_mapVars function rename (.access base offsets)
  | _ => rfl

theorem faultsOfAll_eq_nil {function : String} {exprs : List Expr}
    (each : ∀ expr ∈ exprs, expr.faults function = []) : faultsOfAll function exprs = [] := by
  induction exprs with
  | nil => rfl
  | cons expr exprs ih =>
      rw [List.forall_mem_cons] at each
      rw [faultsOfAll, each.1, ih each.2, List.append_nil]

end Expr

theorem Instruction.faults_mapVars (function : String) (rename : Var → Var)
    (instruction : Instruction) :
    (instruction.mapVars rename).faults function = instruction.faults function := by
  cases instruction with
  | declare ty v => rfl
  | call builtin callee args =>
      exact Expr.faults_mapVars function rename (.call builtin callee args)
  | assign target source =>
      rw [mapVars, faults, faults, Expr.faults_mapVars, Expr.placeFaults_mapVars]

theorem Terminator.values_mapVars (rename : Var → Var) (terminator : Terminator) :
    (terminator.mapVars rename).values = terminator.values.map (Expr.mapVars rename) := by
  cases terminator <;> rfl

structure Function.Harmless (f : Function) : Prop where
  nonempty : f.blocks ≠ []
  blocks : ∀ b ∈ f.blocks, (∀ i ∈ b.instrs, i.faults f.name = []) ∧
    ∀ value ∈ b.terminator.values, value.faults f.name = []

theorem Function.Harmless.faults_eq_nil {f : Function} (harmless : f.Harmless) {flow : Flow}
    (built : Flow.build f = .ok flow) : f.faults = [] := by
  rw [List.eq_nil_iff_forall_not_mem]
  intro fault member
  simp only [faults, Block.faults, List.mem_append, List.mem_flatMap] at member
  rcases member with empty | ⟨b, listed, ⟨i, here, wrong⟩ | ⟨value, here, wrong⟩ | jump⟩
  · rw [if_neg harmless.nonempty] at empty
    cases empty
  · rw [(harmless.blocks b listed).1 i here] at wrong
    cases wrong
  · rw [(harmless.blocks b listed).2 value here] at wrong
    cases wrong
  · obtain ⟨target, jump, wrong⟩ := jump
    have found := Machine.lastWithLabel_of_jump built listed jump
    exact absurd (mem_jumpFaults.mp wrong).2 found

namespace Spill

theorem kept_harmless (request : Request) (low high : Nat) (function : String) :
    Kept request low high (fun i => i.faults function = [])
      (fun t => ∀ value ∈ t.values, value.faults function = []) where
  load _ _ := rfl
  store _ _ := rfl
  mapVars _ _ i harmless := (i.faults_mapVars function _).trans harmless
  ends _ _ t harmless := by
    rw [Terminator.values_mapVars, List.forall_mem_map]
    exact fun value member => (value.faults_mapVars function _).trans (harmless value member)

theorem harmless_one {f : Function} (harmless : f.Harmless) (request : Request) :
    (one f request).function.Harmless := by
  obtain ⟨⟨mid, shape⟩, -⟩ := one_rewritten f request
  refine ⟨blocks_one_ne_nil harmless.nonempty, ?_⟩
  rw [shape.name]
  exact Kept.rewritten shape (kept_harmless request _ _ f.name) harmless.blocks

theorem harmless_all {f : Function} (harmless : f.Harmless) (stem : String) (vars : List Var)
    (first : Nat) : (all stem f vars first).function.Harmless := by
  induction vars generalizing f first with
  | nil => exact harmless
  | cons v rest ih => exact ih (harmless_one harmless _) (first + 1)

end Spill

theorem Allocation.harmless_of_spillRounds {stem : String} {f f' : Function}
    (rounds : Relation.ReflTransGen (SpillRound stem) f f') (harmless : f.Harmless) :
    f'.Harmless := by
  induction rounds with
  | refl => exact harmless
  | tail _ round ih =>
      obtain ⟨vars, rfl⟩ := round
      exact Spill.harmless_all ih _ _ _

namespace Source

namespace Phrase

theorem Separated.forall_mem {α : Type} {item : List TokenKind → α → Prop} {P : α → Prop}
    {kinds : List TokenKind} {list : List α} (separated : Separated item kinds list)
    (holds : ∀ kinds a, item kinds a → P a) : ∀ a ∈ list, P a := by
  induction separated with
  | one spelled => exact List.forall_mem_singleton.mpr (holds _ _ spelled)
  | more spelled _ ih => exact List.forall_mem_cons.mpr ⟨holds _ _ spelled, ih⟩

variable {table : VarTable} {kinds : List TokenKind} (function : String)

theorem Operand.faults_eq_nil {expr : Expr} (operand : Operand table kinds expr) :
    expr.faults function = [] := by
  cases operand <;> rfl

theorem Arguments.faultsOfAll_eq_nil {args : List Expr} (arguments : Arguments table kinds args) :
    Expr.faultsOfAll function args = [] := by
  cases arguments with
  | none => rfl
  | some separated =>
      exact Expr.faultsOfAll_eq_nil
        (separated.forall_mem fun _ _ operand => operand.faults_eq_nil function)

theorem Offsets.faultsOfAll_eq_nil {list : List Expr} (offsets : Offsets table kinds list) :
    Expr.faultsOfAll function list = [] := by
  induction offsets with
  | nil => rfl
  | cons operand _ ih =>
      rw [Expr.faultsOfAll, operand.faults_eq_nil function, ih, List.append_nil]

theorem Callee.faults_eq_nil {builtin : Bool} {callee : Expr}
    (called : Callee table kinds builtin callee) :
    Expr.builtinFaults function builtin callee = [] ∧ callee.faults function = [] := by
  cases called with
  | builtin b => cases b <;> exact ⟨rfl, rfl⟩
  | var below => exact ⟨rfl, rfl⟩
  | function name => exact ⟨rfl, rfl⟩

theorem Call.faults_eq_nil {builtin : Bool} {callee : Expr} {args : List Expr}
    (call : Call table kinds builtin callee args) :
    (Expr.call builtin callee args).faults function = [] := by
  cases call with
  | mk called passed =>
      have known := called.faults_eq_nil function
      rw [Expr.faults, known.1, known.2, passed.faultsOfAll_eq_nil function]
      rfl

theorem Element.faults_eq_nil {expr : Expr} (element : Element table kinds expr) :
    expr.faults function = [] := by
  cases element with
  | mk below offsets _ => rw [Expr.faults, Expr.faults, offsets.faultsOfAll_eq_nil function]; rfl

theorem Place.placeFaults_eq_nil {target : Expr} (place : Place table kinds target) :
    target.placeFaults function = [] := by
  cases place with
  | slot spelled =>
      cases spelled
      rfl
  | var below => rfl
  | element spelled =>
      have harmless := spelled.faults_eq_nil function
      cases spelled
      exact harmless

theorem Simple.faults_eq_nil {expr : Expr} (simple : Simple table kinds expr) :
    expr.faults function = [] := by
  cases simple with
  | operand spelled => exact spelled.faults_eq_nil function
  | element spelled => exact spelled.faults_eq_nil function

theorem Assigned.faults_eq_nil {expr : Expr} (assigned : Assigned table kinds expr) :
    expr.faults function = [] := by
  cases assigned with
  | call spelled => exact spelled.faults_eq_nil function
  | slot spelled =>
      cases spelled
      rfl
  | length base dim =>
      rw [Expr.faults, base.faults_eq_nil function, dim.faults_eq_nil function, List.append_nil]
  | newArray dims => exact dims.faultsOfAll_eq_nil function
  | newTuple size => exact size.faults_eq_nil function
  | simple spelled => exact spelled.faults_eq_nil function
  | binary left right =>
      rw [Expr.faults, left.faults_eq_nil function, right.faults_eq_nil function, List.append_nil]

theorem Instr.faults_eq_nil {instruction : Instruction} (instr : Instr table kinds instruction) :
    instruction.faults function = [] := by
  cases instr with
  | declare _ _ => rfl
  | call spelled => exact spelled.faults_eq_nil function
  | assign place assigned =>
      rw [Instruction.faults, assigned.faults_eq_nil function, place.placeFaults_eq_nil function,
        List.append_nil]

theorem End.faults_eq_nil {terminator : Terminator} (last : End table kinds terminator) :
    ∀ value ∈ terminator.values, value.faults function = [] := by
  cases last with
  | ret => exact fun value member => absurd member List.not_mem_nil
  | retValue value => exact List.forall_mem_singleton.mpr (value.faults_eq_nil function)
  | jump _ => exact fun value member => absurd member List.not_mem_nil
  | branch condition _ _ => exact List.forall_mem_singleton.mpr (condition.faults_eq_nil function)

theorem FunctionLines.harmless {lines : List (List TokenKind)} {f : Function}
    (spelled : FunctionLines lines f) : f.Harmless := by
  cases spelled with
  | mk _ _ blocks nonempty _ _ =>
      refine ⟨nonempty, fun b member => ?_⟩
      obtain ⟨_, -, block⟩ := exists_of_forall₂ blocks member
      cases block with
      | mk instrs last =>
          refine ⟨fun i listed => ?_, last.faults_eq_nil f.name⟩
          obtain ⟨_, -, instr⟩ := exists_of_forall₂ instrs listed
          exact instr.faults_eq_nil f.name

end Phrase

theorem harmless_of_parseProgram {text : String} {program : Program}
    (parsed : parseProgram text = .ok program) : ∀ f ∈ program.functions, f.Harmless := by
  obtain ⟨tokens, -, phrase⟩ := parseProgram_eq_ok_iff.mp parsed
  cases phrase with
  | mk _ functions _ =>
      intro f member
      obtain ⟨_, -, spelled⟩ := exists_of_forall₂ functions member
      exact spelled.harmless

end Source

namespace Machine

/-- No run of a program ends with a fault that can be told from its text. -/
def NeverStatic (program : Program) : Prop :=
  ∀ limit heap input entry args fault,
    (run program limit heap input entry args).result = .error fault → fault.isStatic = false

theorem neverStatic_of_harmless {program : Program}
    (harmless : ∀ f ∈ program.functions, f.Harmless)
    (built : ∀ f ∈ program.functions, ∃ flow, Flow.build f = .ok flow) : NeverStatic program := by
  intro limit heap input entry args fault stopped
  have computed : AllowsComputed fun fault _ => fault.isStatic = false :=
    allowsComputed_of_isStatic fun _ dynamic => dynamic
  have static : ∀ name f, program.function? name = some f → ∀ fault ∈ f.faults, State →
      fault.isStatic = false := by
    intro name f called fault member
    have listed := List.mem_of_find?_eq_some called
    obtain ⟨flow, flows⟩ := built f listed
    rw [(harmless f listed).faults_eq_nil flows] at member
    cases member
  obtain ⟨_, -, dynamic⟩ := run_raises computed static limit heap input entry args stopped
  exact dynamic

/-- A program that was read and has its flow graphs does not go wrong by its text, and neither
does the program of its allocated functions. -/
theorem run_neverStatic {text : String} {program : Program}
    (parsed : Source.parseProgram text = .ok program) :
    ((∀ f ∈ program.functions, ∃ flow, Flow.build f = .ok flow) → NeverStatic program) ∧
    ∀ allocations, List.Forall₂ (fun f a => ∃ config, (allocate config f).result = .ok a)
        program.functions allocations →
      NeverStatic ⟨allocations.map Allocation.function⟩ := by
  have harmless := Source.harmless_of_parseProgram parsed
  refine ⟨neverStatic_of_harmless harmless, ?_⟩
  intro allocations allocated
  have each : ∀ a ∈ allocations, a.function.Harmless ∧
      ∃ flow, Flow.build a.function = .ok flow := by
    intro a member
    obtain ⟨f, listed, config, done⟩ := exists_of_forall₂ allocated member
    obtain ⟨rounds, ⟨flow, built, -⟩, -⟩ := allocate_eq_ok done
    exact ⟨Allocation.harmless_of_spillRounds rounds (harmless f listed), flow, built⟩
  apply neverStatic_of_harmless
  · rw [List.forall_mem_map]
    exact fun a member => (each a member).1
  · rw [List.forall_mem_map]
    exact fun a member => (each a member).2

/-- A loop around a call that overwrites the only register: the parameter lives in a slot. -/
theorem run_neverStatic_loop :
    ∃ program allocations,
      Source.parseProgram
        ("define void @m(int64 %n) \x7b\n:s\nbr :h\n:h\ncall print(%n)\nbr %n :h :e\n" ++
          ":e\nreturn\n\x7d") = .ok program ∧
      (∀ f ∈ program.functions, ∃ flow, Flow.build f = .ok flow) ∧
      List.Forall₂ (fun f a => ∃ config, (allocate config f).result = .ok a)
        program.functions allocations ∧
      allocations.map Allocation.frameSlots = [1] ∧
      NeverStatic program ∧ NeverStatic ⟨allocations.map Allocation.function⟩ := by
  have ran :
      ((Source.parseProgram
        ("define void @m(int64 %n) \x7b\n:s\nbr :h\n:h\ncall print(%n)\nbr %n :h :e\n" ++
          ":e\nreturn\n\x7d")).toOption.bind
        fun program => (program.functions.mapM Flow.build).toOption.bind
        fun _ => (program.functions.mapM
          fun f => (allocate { target := .withRegisters 1 } f).result).toOption.map
        fun allocations => allocations.map Allocation.frameSlots) = some [1] := by
    decide +kernel
  simp only [Option.bind_eq_some_iff, Option.map_eq_some_iff, toOption_eq_some] at ran
  obtain ⟨program, parsed, flows, flowing, allocations, allocated, slots⟩ := ran
  have built : ∀ f ∈ program.functions, ∃ flow, Flow.build f = .ok flow := by
    intro f member
    obtain ⟨flow, -, built⟩ := exists_of_forall₂ (forall₂_of_mapM flowing).flip member
    exact ⟨flow, built⟩
  have each : List.Forall₂ (fun f a => ∃ config, (allocate config f).result = .ok a)
      program.functions allocations :=
    (forall₂_of_mapM allocated).imp fun f a done => ⟨_, done⟩
  have safe := run_neverStatic parsed
  exact ⟨program, allocations, parsed, built, each, slots, safe.1 built, safe.2 allocations each⟩

end Machine

end Regalloc
