import Mathlib
import Regalloc.Proofs.FlowGraph
import Regalloc.Proofs.InstructionText
import Regalloc.Proofs.RunLoop

/-!
# Steps of evaluation

An instruction has an effect outside of its frame and then writes one value to the frame. Two
evaluations of one expression take the same steps as long as calls and the reading of leaves go
alike. So a relation between executions that the elementary steps keep is kept by evaluation, by
the effect of an instruction and by a terminator.
-/

namespace Regalloc.Machine

@[simp] theorem label?_mapVars (rename : Var → Var) (expr : Expr) :
    (expr.mapVars rename).label? = expr.label? := by
  cases expr <;> simp [Expr.mapVars, Expr.label?]

@[simp] theorem isCall_mapVars (rename : Var → Var) (expr : Expr) :
    (expr.mapVars rename).isCall = expr.isCall := by
  cases expr <;> simp [Expr.mapVars, Expr.isCall]

@[simp] theorem runBuiltin_mapVars (function : String) (rename : Var → Var) (callee : Expr)
    (args : List Value) :
    runBuiltin function (callee.mapVars rename) args = runBuiltin function callee args := by
  simp only [runBuiltin, label?_mapVars]

def Frame.put (rename : Var → Var) (frame : Frame) (target : Expr) (value : Value) : Frame :=
  match target with
  | .var v => { frame with vars := frame.vars.insert (rename v) value }
  | .slot slot => { frame with slots := frame.slots.insert slot value }
  | _ => frame

def Frame.after (rename : Var → Var) (frame : Frame) (instruction : Instruction)
    (value : Value) : Frame :=
  match instruction with
  | .declare _ v => frame.put rename (.var v) value
  | .call .. => frame
  | .assign target _ => frame.put rename target value

section Frames

variable (rename : Var → Var) (frame : Frame) (instruction : Instruction) (value : Value)

@[simp] theorem get?_vars_after (v : Var) :
    (frame.after rename instruction value).vars.get? v =
      if v ∈ instruction.defs.map rename then some value else frame.vars.get? v := by
  cases instruction with
  | declare ty w => simp [Frame.after, Frame.put, Instruction.defs]
  | call builtin callee args => simp [Frame.after, Instruction.defs]
  | assign target source =>
      cases target <;> simp [Frame.after, Frame.put, Instruction.defs, Expr.var?]

@[simp] theorem get?_slots_after (slot : Slot) :
    (frame.after rename instruction value).slots.get? slot =
      if slot ∈ instruction.slotDefs then some value else frame.slots.get? slot := by
  cases instruction with
  | declare ty w => simp [Frame.after, Frame.put, Instruction.slotDefs]
  | call builtin callee args => simp [Frame.after, Instruction.slotDefs]
  | assign target source =>
      cases target <;> simp [Frame.after, Frame.put, Instruction.slotDefs]

end Frames

def writeAt (address index : Nat) (value : Value) : Exec Unit :=
  modify fun state => { state with heap := Heap.write state.heap address index value }

def writeElement (caller : Caller) (f : Function) (frame : Frame) (target : Expr)
    (value : Value) : Exec Unit :=
  match target with
  | .var _ => return ()
  | .slot _ => return ()
  | .access base offsets => do
    let address ← asAddress (.indexOfNonArray f.name) (← eval caller f frame base)
    let indices ← evalEach caller f frame asInt offsets
    let index ← locate f.name address indices
    modify fun state => { state with heap := Heap.write state.heap address index value }
  | _ => throw (.notAssignable f.name)

/-- What an instruction does outside of its frame, and the value that it writes to the frame. -/
def effect (caller : Caller) (f : Function) (frame : Frame) : Instruction → Exec Value
  | .declare _ _ => return .int 0
  | .call builtin callee args => do
    let values ← evalEach caller f frame pure args
    let _ ← runCall caller f.name builtin callee (eval caller f frame callee) values
    return .int 0
  | .assign target source => do
    let value ← eval caller f frame source
    writeElement caller f frame target value
    return value

theorem assign_eq_writeElement (caller : Caller) (f : Function) (frame : Frame) (target : Expr)
    (value : Value) :
    assign caller f frame target value = (do
      writeElement caller f frame target value
      return frame.put id target value) := by
  cases target with
  | access base offsets => simp only [assign, writeElement, bind_assoc, Frame.put]
  | _ => rfl

/-- An instruction has its effect, and then its value is written. -/
theorem execute_eq_effect (caller : Caller) (f : Function) (frame : Frame)
    (instruction : Instruction) :
    execute caller f frame instruction = (do
      let value ← effect caller f frame instruction
      return frame.after id instruction value) := by
  cases instruction with
  | declare ty v => rfl
  | call builtin callee args =>
      simp only [execute, effect, bind_assoc, pure_bind, Frame.after]
  | assign target source =>
      simp only [execute, effect, assign_eq_writeElement, bind_assoc, pure_bind, Frame.after]

theorem flatIndex_error {function : String} {flat : Int64} {indices dims : List Int64}
    {fault : Fault} (failed : flatIndex function flat indices dims = .error fault) :
    ∃ index length, fault = .outOfBounds function index length := by
  fun_induction flatIndex function flat indices dims with
  | case1 flat index indices dim dims outside =>
      cases failed
      exact ⟨index, dim, rfl⟩
  | case2 flat index indices dim dims inside ih => exact ih failed
  | case3 => cases failed

theorem elementIndex_error {function : String} {aggregate : Aggregate} {indices : List Int64}
    {fault : Fault} (failed : elementIndex function aggregate indices = .error fault) :
    (∃ offsets dims, fault = .offsetCount function offsets dims) ∨
      ∃ index length, fault = .outOfBounds function index length := by
  unfold elementIndex at failed
  split at failed
  · cases failed
    exact .inl ⟨_, _, rfl⟩
  · cases flat : flatIndex function 0 indices aggregate.dims with
    | ok index =>
        rw [flat] at failed
        cases failed
    | error other =>
        rw [flat] at failed
        cases failed
        exact .inr (flatIndex_error flat)

/-- A relation between executions that the elementary steps keep. A fault that depends on what is
computed is always allowed, one that is written into a program only if the relation says so. -/
structure StepRelation where
  Rel : {α : Type} → Exec α → Exec α → Prop
  /-- The faults that both executions may run into. -/
  Allows : Fault → Prop
  allows : ∀ fault, fault.isDynamic = true → Allows fault
  rel_pure : ∀ {α : Type} (a : α), Rel (pure a) (pure a)
  rel_throw : ∀ {α : Type} {fault : Fault}, Allows fault →
    Rel (throw fault : Exec α) (throw fault)
  rel_bind : ∀ {α β : Type} {x y : Exec α} {next next' : α → Exec β},
    Rel x y → (∀ a, Rel (next a) (next' a)) → Rel (x >>= next) (y >>= next')
  rel_asInt : ∀ value, Rel (asInt value) (asInt value)
  rel_aggregateAt : ∀ address, Rel (aggregateAt address) (aggregateAt address)
  rel_locate : ∀ function address indices,
    Rel (locate function address indices) (locate function address indices)
  rel_newAggregate : ∀ dims, Rel (newAggregate dims) (newAggregate dims)
  rel_runBuiltin : ∀ {function callee},
    (∀ fault ∈ Expr.builtinFaults function true callee, Allows fault) →
      ∀ args, Rel (runBuiltin function callee args) (runBuiltin function callee args)
  rel_writeAt : ∀ address index value,
    Rel (writeAt address index value) (writeAt address index value)

def readVar (f : Function) (frame : Frame) (v : Var) : Exec Value :=
  match frame.vars.get? v with
  | some value => return value
  | none => throw (.undefinedVariable f.name (f.vars.name v))

def readSlot (f : Function) (frame : Frame) (slot : Slot) : Exec Value :=
  match frame.slots.get? slot with
  | some value => return value
  | none => throw (.unwrittenSlot f.name slot)

namespace StepRelation

variable (steps : StepRelation)

def ReadAlike (f f' : Function) (frame frame' : Frame) (rename rename' : Var → Var) :
    Leaf → Prop
  | .var v => steps.Rel (readVar f frame (rename v)) (readVar f' frame' (rename' v))
  | .slot slot => steps.Rel (readSlot f frame slot) (readSlot f' frame' slot)
  | _ => True

def CallsRel (caller caller' : Caller) : Prop :=
  ∀ name args, steps.Rel (caller name args) (caller' name args)

variable {steps}

theorem rel_dynamic {α : Type} {fault : Fault} (dynamic : fault.isDynamic = true) :
    steps.Rel (throw fault : Exec α) (throw fault) :=
  steps.rel_throw (steps.allows fault dynamic)

theorem rel_asAddress {fault : Fault} (allowed : steps.Allows fault) (value : Value) :
    steps.Rel (asAddress fault value) (asAddress fault value) := by
  cases value with
  | aggregate address => exact steps.rel_pure address
  | int n => exact steps.rel_throw allowed
  | code name => exact steps.rel_throw allowed

theorem rel_dimensionSize (function : String) (value : Value) :
    steps.Rel (dimensionSize function value) (dimensionSize function value) := by
  refine steps.rel_bind (steps.rel_asInt value) fun size => ?_
  split
  · exact rel_dynamic rfl
  · exact steps.rel_pure size

theorem readAlike_self (f : Function) (frame : Frame) (leaf : Leaf) :
    steps.ReadAlike f f frame frame id id leaf := by
  cases leaf with
  | var v =>
      simp only [ReadAlike, readVar, id]
      split
      · exact steps.rel_pure _
      · exact rel_dynamic rfl
  | slot slot =>
      simp only [ReadAlike, readSlot]
      split
      · exact steps.rel_pure _
      · exact rel_dynamic rfl
  | _ => trivial

section Evaluation

variable {caller caller' : Caller} {f f' : Function} {frame frame' : Frame}
  {rename rename' : Var → Var}

theorem rel_runCall (calls : steps.CallsRel caller caller') {function : String} {builtin : Bool}
    {callee : Expr}
    (known : ∀ fault ∈ Expr.builtinFaults function builtin callee, steps.Allows fault)
    {target target' : Exec Value} (targets : steps.Rel target target') (args : List Value) :
    steps.Rel (runCall caller function builtin (callee.mapVars rename) target args)
      (runCall caller' function builtin (callee.mapVars rename') target' args) := by
  unfold runCall
  cases builtin with
  | true =>
      simp only [if_true, runBuiltin_mapVars]
      exact steps.rel_runBuiltin known args
  | false =>
      simp only [Bool.false_eq_true, if_false]
      refine steps.rel_bind targets fun value => ?_
      cases value with
      | code name => exact calls name args
      | int n => exact rel_dynamic rfl
      | aggregate address => exact rel_dynamic rfl

mutual

/-- Evaluations are related if calls are and if all leaves are read alike. -/
theorem rel_eval (calls : steps.CallsRel caller caller') (named : f'.name = f.name) :
    ∀ expr : Expr,
    (∀ leaf ∈ expr.leaves, steps.ReadAlike f f' frame frame' rename rename' leaf) →
    (∀ fault ∈ expr.faults f.name, steps.Allows fault) →
    steps.Rel (eval caller f frame (expr.mapVars rename))
      (eval caller' f' frame' (expr.mapVars rename'))
  | .type _, _, static => by
      simp only [Expr.mapVars, eval, named]
      exact steps.rel_throw (static _ (List.mem_singleton_self _))
  | .const _, _, _ => by
      simp only [Expr.mapVars, eval]
      exact steps.rel_pure _
  | .label name, _, _ => by
      simp only [Expr.mapVars, eval, named]
      split
      · exact steps.rel_pure _
      · exact rel_dynamic rfl
  | .var v, alike, _ => by
      simp only [Expr.mapVars, eval]
      exact alike (.var v) (List.mem_singleton_self _)
  | .slot slot, alike, _ => by
      simp only [Expr.mapVars, eval]
      exact alike (.slot slot) (List.mem_singleton_self _)
  | .binary operator left right, alike, static => by
      rw [Expr.leaves, List.forall_mem_append] at alike
      rw [Expr.faults, List.forall_mem_append] at static
      simp only [Expr.mapVars, eval]
      refine steps.rel_bind (rel_eval calls named left alike.1 static.1) fun value => ?_
      refine steps.rel_bind (steps.rel_asInt value) fun first => ?_
      refine steps.rel_bind (rel_eval calls named right alike.2 static.2) fun value => ?_
      exact steps.rel_bind (steps.rel_asInt value) fun second => steps.rel_pure _
  | .access base offsets, alike, static => by
      rw [Expr.leaves, List.forall_mem_append] at alike
      rw [Expr.faults, List.forall_mem_append] at static
      simp only [Expr.mapVars, eval, named]
      refine steps.rel_bind (rel_eval calls named base alike.1 static.1) fun value => ?_
      refine steps.rel_bind (rel_asAddress (steps.allows _ rfl) value) fun address => ?_
      refine steps.rel_bind (rel_evalEach calls named steps.rel_asInt offsets alike.2 static.2)
        fun indices => ?_
      refine steps.rel_bind (steps.rel_locate _ address indices) fun index => ?_
      exact steps.rel_bind (steps.rel_aggregateAt address) fun _ => steps.rel_pure _
  | .call builtin callee args, alike, static => by
      rw [Expr.leaves, List.forall_mem_append] at alike
      rw [Expr.faults, List.forall_mem_append, List.forall_mem_append] at static
      simp only [Expr.mapVars, eval, named]
      -- The callee is evaluated after the arguments, and only if it is no built-in function.
      refine steps.rel_bind (rel_evalEach calls named steps.rel_pure args alike.2 static.2.2)
        fun values => ?_
      refine steps.rel_bind (rel_runCall calls static.1
        (rel_eval calls named callee alike.1 static.2.1) values) fun result => ?_
      cases result with
      | some value => exact steps.rel_pure value
      | none => exact rel_dynamic rfl
  | .newArray dims, alike, static => by
      rw [Expr.leaves] at alike
      rw [Expr.faults] at static
      simp only [Expr.mapVars, eval, named]
      refine steps.rel_bind (rel_evalEach calls named (rel_dimensionSize _) dims alike static)
        fun sizes => ?_
      exact steps.rel_newAggregate sizes
  | .newTuple size, alike, static => by
      rw [Expr.leaves] at alike
      rw [Expr.faults] at static
      simp only [Expr.mapVars, eval]
      refine steps.rel_bind (rel_eval calls named size alike static) fun value => ?_
      exact steps.rel_bind (steps.rel_asInt value) fun count => steps.rel_newAggregate _
  | .length base dim, alike, static => by
      rw [Expr.leaves, List.forall_mem_append] at alike
      rw [Expr.faults, List.forall_mem_append] at static
      simp only [Expr.mapVars, eval, named]
      refine steps.rel_bind (rel_eval calls named base alike.1 static.1) fun value => ?_
      refine steps.rel_bind (rel_asAddress (steps.allows _ rfl) value) fun address => ?_
      refine steps.rel_bind (rel_eval calls named dim alike.2 static.2) fun value => ?_
      refine steps.rel_bind (steps.rel_asInt value) fun position => ?_
      refine steps.rel_bind (steps.rel_aggregateAt address) fun aggregate => ?_
      split
      · exact steps.rel_pure _
      · exact rel_dynamic rfl

theorem rel_evalEach {α : Type} (calls : steps.CallsRel caller caller')
    (named : f'.name = f.name) {convert : Value → Exec α}
    (converts : ∀ value, steps.Rel (convert value) (convert value)) : ∀ exprs : List Expr,
    (∀ leaf ∈ Expr.leavesOfAll exprs, steps.ReadAlike f f' frame frame' rename rename' leaf) →
    (∀ fault ∈ Expr.faultsOfAll f.name exprs, steps.Allows fault) →
    steps.Rel (evalEach caller f frame convert (Expr.mapVarsOfAll rename exprs))
      (evalEach caller' f' frame' convert (Expr.mapVarsOfAll rename' exprs))
  | [], _, _ => by
      simp only [Expr.mapVarsOfAll, evalEach]
      exact steps.rel_pure []
  | expr :: exprs, alike, static => by
      rw [Expr.leavesOfAll, List.forall_mem_append] at alike
      rw [Expr.faultsOfAll, List.forall_mem_append] at static
      simp only [Expr.mapVarsOfAll, evalEach]
      refine steps.rel_bind (rel_eval calls named expr alike.1 static.1) fun value => ?_
      refine steps.rel_bind (converts value) fun first => ?_
      exact steps.rel_bind (rel_evalEach calls named converts exprs alike.2 static.2)
        fun _ => steps.rel_pure _

end

variable (calls : steps.CallsRel caller caller') (named : f'.name = f.name)
include calls named

theorem rel_writeElement (target : Expr)
    (alike : ∀ leaf ∈ target.placeReads, steps.ReadAlike f f' frame frame' rename rename' leaf)
    (static : ∀ fault ∈ target.placeFaults f.name, steps.Allows fault) (value : Value) :
    steps.Rel (writeElement caller f frame (target.mapVars rename) value)
      (writeElement caller' f' frame' (target.mapVars rename') value) := by
  cases target with
  | var v => exact steps.rel_pure ()
  | slot slot => exact steps.rel_pure ()
  | access base offsets =>
      simp only [Expr.placeReads, Expr.leaves, List.forall_mem_append] at alike
      rw [Expr.placeFaults, Expr.faults, List.forall_mem_append] at static
      simp only [Expr.mapVars, writeElement, named]
      refine steps.rel_bind (rel_eval calls named base alike.1 static.1) fun found => ?_
      refine steps.rel_bind (rel_asAddress (steps.allows _ rfl) found) fun address => ?_
      refine steps.rel_bind (rel_evalEach calls named steps.rel_asInt offsets alike.2 static.2)
        fun indices => ?_
      refine steps.rel_bind (steps.rel_locate _ address indices) fun index => ?_
      exact steps.rel_writeAt address index value
  | _ =>
      simp only [Expr.mapVars, writeElement, named]
      exact steps.rel_throw (static _ (List.mem_singleton_self _))

theorem rel_effect (instruction : Instruction)
    (alike : ∀ leaf ∈ instruction.reads, steps.ReadAlike f f' frame frame' rename rename' leaf)
    (static : ∀ fault ∈ instruction.faults f.name, steps.Allows fault) :
    steps.Rel (effect caller f frame (instruction.mapVars rename))
      (effect caller' f' frame' (instruction.mapVars rename')) := by
  cases instruction with
  | declare ty v => exact steps.rel_pure _
  | call builtin callee args =>
      rw [Instruction.reads, Expr.leaves, List.forall_mem_append] at alike
      rw [Instruction.faults, Expr.faults, List.forall_mem_append,
        List.forall_mem_append] at static
      simp only [Instruction.mapVars, effect, named]
      refine steps.rel_bind (rel_evalEach calls named steps.rel_pure args alike.2 static.2.2)
        fun values => ?_
      exact steps.rel_bind (rel_runCall calls static.1
        (rel_eval calls named callee alike.1 static.2.1) values) fun _ => steps.rel_pure _
  | assign target source =>
      rw [Instruction.reads, List.forall_mem_append] at alike
      rw [Instruction.faults, List.forall_mem_append] at static
      refine steps.rel_bind (rel_eval calls named source alike.1 static.1) fun value => ?_
      exact steps.rel_bind (rel_writeElement calls named target alike.2 static.2 value)
        fun _ => steps.rel_pure value

theorem rel_finish (terminator : Terminator)
    (alike : ∀ leaf ∈ terminator.reads, steps.ReadAlike f f' frame frame' rename rename' leaf)
    (static : ∀ fault ∈ terminator.values.flatMap (Expr.faults f.name), steps.Allows fault)
    (jumps : ∀ target ∈ terminator.jumps,
      steps.Rel (jumpTo f (target.mapVars rename)) (jumpTo f' (target.mapVars rename'))) :
    steps.Rel (finish caller f frame (terminator.mapVars rename))
      (finish caller' f' frame' (terminator.mapVars rename')) := by
  cases terminator with
  | ret => exact steps.rel_pure _
  | retValue value =>
      simp only [Terminator.values, List.flatMap_singleton] at static
      exact steps.rel_bind (rel_eval calls named value alike static) fun _ => steps.rel_pure _
  | jump target => exact jumps target (List.mem_singleton_self target)
  | branch condition onTrue onFalse =>
      simp only [Terminator.values, List.flatMap_singleton] at static
      refine steps.rel_bind (rel_eval calls named condition alike static) fun value => ?_
      refine steps.rel_bind (steps.rel_asInt value) fun n => ?_
      split
      · exact jumps onFalse (by simp [Terminator.jumps])
      · exact jumps onTrue (by simp [Terminator.jumps])

omit named

theorem rel_effect_self (instruction : Instruction)
    (alike : ∀ leaf ∈ instruction.reads, steps.ReadAlike f f frame frame' id id leaf)
    (static : ∀ fault ∈ instruction.faults f.name, steps.Allows fault) :
    steps.Rel (effect caller f frame instruction) (effect caller' f frame' instruction) := by
  have related := rel_effect calls rfl instruction alike static
  rwa [Instruction.mapVars_id] at related

theorem rel_finish_self (terminator : Terminator)
    (alike : ∀ leaf ∈ terminator.reads, steps.ReadAlike f f frame frame' id id leaf)
    (static : ∀ fault ∈ terminator.values.flatMap (Expr.faults f.name), steps.Allows fault)
    (jumps : ∀ target ∈ terminator.jumps, steps.Rel (jumpTo f target) (jumpTo f target)) :
    steps.Rel (finish caller f frame terminator) (finish caller' f frame' terminator) := by
  have related := rel_finish calls rfl terminator alike static
    fun target jump => by simpa only [Expr.mapVars_id] using jumps target jump
  rwa [Terminator.mapVars_id] at related

theorem rel_execute (instruction : Instruction)
    (static : ∀ fault ∈ instruction.faults f.name, steps.Allows fault) :
    steps.Rel (execute caller f frame instruction) (execute caller' f frame instruction) := by
  rw [execute_eq_effect, execute_eq_effect]
  refine steps.rel_bind ?_ fun value => steps.rel_pure _
  exact rel_effect_self calls instruction (fun leaf _ => readAlike_self f frame leaf) static

end Evaluation

end StepRelation

end Regalloc.Machine
