import Mathlib
import Regalloc.Machine.Exec

/-!
# What the text of an instruction tells

Which leaves an instruction reads and which slot it writes, what renaming leaves alone, and which
faults can be told without running anything: a type stands where a value is needed, an unknown
function of the run-time library is called, or something that holds no value is assigned to.
-/

namespace Regalloc

def Expr.placeReads : Expr → List Leaf
  | .var _ => []
  | .slot _ => []
  | target => target.leaves

def Instruction.reads : Instruction → List Leaf
  | .declare .. => []
  | .call builtin callee args => (Expr.call builtin callee args).leaves
  | .assign target source => source.leaves ++ target.placeReads

def Terminator.reads : Terminator → List Leaf
  | .ret => []
  | .retValue value => value.leaves
  | .jump _ => []
  | .branch condition _ _ => condition.leaves

def Instruction.slotDefs : Instruction → List Slot
  | .assign (.slot slot) _ => [slot]
  | _ => []

theorem Expr.mem_varOccurrences {expr : Expr} {v : Var} :
    v ∈ expr.varOccurrences ↔ .var v ∈ expr.leaves := by
  simp only [varOccurrences, List.mem_filterMap]
  constructor
  · rintro ⟨leaf, member, found⟩
    cases leaf <;> simp_all [Leaf.var?]
  · intro member
    exact ⟨.var v, member, rfl⟩

@[simp] theorem Expr.mem_vars {expr : Expr} {v : Var} : v ∈ expr.vars ↔ .var v ∈ expr.leaves := by
  rw [vars, List.mem_eraseDups, mem_varOccurrences]

theorem Instruction.mem_uses {instruction : Instruction} {v : Var} :
    v ∈ instruction.uses ↔ .var v ∈ instruction.reads := by
  cases instruction with
  | declare ty w => simp [uses, reads]
  | call builtin callee args => simp [uses, reads]
  | assign target source =>
      cases target <;>
        simp [uses, reads, Expr.placeReads, Expr.mem_varOccurrences, Expr.leaves]

theorem Terminator.mem_uses {terminator : Terminator} {v : Var} :
    v ∈ terminator.uses ↔ .var v ∈ terminator.reads := by
  cases terminator <;> simp [uses, reads]

namespace Expr

mutual

theorem mapVars_id : ∀ expr : Expr, expr.mapVars id = expr
  | .type _ => rfl
  | .const _ => rfl
  | .label _ => rfl
  | .var _ => rfl
  | .slot _ => rfl
  | .access base offsets => by simp [mapVars, mapVars_id base, mapVarsOfAll_id offsets]
  | .binary _ left right => by simp [mapVars, mapVars_id left, mapVars_id right]
  | .call _ callee args => by simp [mapVars, mapVars_id callee, mapVarsOfAll_id args]
  | .newArray dims => by simp [mapVars, mapVarsOfAll_id dims]
  | .newTuple size => by simp [mapVars, mapVars_id size]
  | .length base dim => by simp [mapVars, mapVars_id base, mapVars_id dim]

theorem mapVarsOfAll_id : ∀ exprs : List Expr, mapVarsOfAll id exprs = exprs
  | [] => rfl
  | expr :: exprs => by simp [mapVarsOfAll, mapVars_id expr, mapVarsOfAll_id exprs]

end

end Expr

@[simp] theorem Instruction.mapVars_id (instruction : Instruction) :
    instruction.mapVars id = instruction := by
  cases instruction <;> simp [mapVars, Expr.mapVars_id, Expr.mapVarsOfAll_id]

@[simp] theorem Terminator.mapVars_id (terminator : Terminator) :
    terminator.mapVars id = terminator := by
  cases terminator <;> simp [mapVars, Expr.mapVars_id]

@[simp] theorem Function.mapVars_id (f : Function) : f.mapVars id = f := by
  have blocks : Block.mapVars id = id := by
    funext block
    simp [Block.mapVars, List.map_id'' Instruction.mapVars_id]
  simp [mapVars, blocks]

def Fault.isStatic : Fault → Bool
  | .badTarget _ => true
  | .noBlocks _ => true
  | .notAssignable _ => true
  | .unknownBuiltin _ => true
  | .typeAsValue _ => true
  | _ => false

/-- Whether evaluation runs into a fault by itself: it is not told by the text of a function, and
neither a matter of cycles nor of how the heap hangs together. -/
def Fault.isDynamic : Fault → Bool
  | .cycleLimit _ => false
  | .missingElement => false
  | .endless => false
  | fault => !fault.isStatic

theorem Fault.ne_cycleLimit {fault : Fault} (static : fault.isStatic = true) (n : Nat) :
    fault ≠ .cycleLimit n := by
  rintro rfl
  cases static

namespace Expr

def builtinFaults (function : String) (builtin : Bool) (callee : Expr) : List Fault :=
  if builtin && (callee.label?.bind Builtin.ofName?).isNone then [.unknownBuiltin function] else []

mutual

def faults (function : String) : Expr → List Fault
  | .type _ => [.typeAsValue function]
  | .const _ => []
  | .label _ => []
  | .var _ => []
  | .slot _ => []
  | .access base offsets => base.faults function ++ faultsOfAll function offsets
  | .binary _ left right => left.faults function ++ right.faults function
  | .call builtin callee args =>
    builtinFaults function builtin callee ++ (callee.faults function ++ faultsOfAll function args)
  | .newArray dims => faultsOfAll function dims
  | .newTuple size => size.faults function
  | .length base dim => base.faults function ++ dim.faults function

def faultsOfAll (function : String) : List Expr → List Fault
  | [] => []
  | expr :: exprs => expr.faults function ++ faultsOfAll function exprs

end

mutual

theorem eq_of_mem_faults {function : String} {fault : Fault} :
    ∀ expr : Expr, fault ∈ expr.faults function →
      fault = .typeAsValue function ∨ fault = .unknownBuiltin function
  | .type _, member => Or.inl (List.mem_singleton.mp member)
  | .const _, member => absurd member List.not_mem_nil
  | .label _, member => absurd member List.not_mem_nil
  | .var _, member => absurd member List.not_mem_nil
  | .slot _, member => absurd member List.not_mem_nil
  | .access base offsets, member =>
      (List.mem_append.mp member).elim (eq_of_mem_faults base) (eq_of_mem_faultsOfAll offsets)
  | .binary _ left right, member =>
      (List.mem_append.mp member).elim (eq_of_mem_faults left) (eq_of_mem_faults right)
  | .call builtin callee args, member => by
      rcases List.mem_append.mp member with called | member
      · unfold builtinFaults at called
        split at called
        · exact Or.inr (List.mem_singleton.mp called)
        · cases called
      · exact (List.mem_append.mp member).elim (eq_of_mem_faults callee)
          (eq_of_mem_faultsOfAll args)
  | .newArray dims, member => eq_of_mem_faultsOfAll dims member
  | .newTuple size, member => eq_of_mem_faults size member
  | .length base dim, member =>
      (List.mem_append.mp member).elim (eq_of_mem_faults base) (eq_of_mem_faults dim)

theorem eq_of_mem_faultsOfAll {function : String} {fault : Fault} :
    ∀ exprs : List Expr, fault ∈ faultsOfAll function exprs →
      fault = .typeAsValue function ∨ fault = .unknownBuiltin function
  | [], member => absurd member List.not_mem_nil
  | expr :: exprs, member =>
      (List.mem_append.mp member).elim (eq_of_mem_faults expr) (eq_of_mem_faultsOfAll exprs)

end

theorem isStatic_of_mem_faults {function : String} {fault : Fault} {expr : Expr}
    (member : fault ∈ expr.faults function) : fault.isStatic = true := by
  rcases eq_of_mem_faults expr member with rfl | rfl <;> rfl

def placeFaults (function : String) : Expr → List Fault
  | .var _ => []
  | .slot _ => []
  | .access base offsets => (Expr.access base offsets).faults function
  | _ => [.notAssignable function]

end Expr

theorem Expr.badTarget_notMem_placeFaults {function name : String} (target : Expr) :
    .badTarget name ∉ target.placeFaults function := by
  intro member
  cases target with
  | access base offsets => rcases eq_of_mem_faults _ member with same | same <;> cases same
  | var v => cases member
  | slot slot => cases member
  | _ => cases List.mem_singleton.mp member

def Instruction.faults (function : String) : Instruction → List Fault
  | .declare .. => []
  | .call builtin callee args => (Expr.call builtin callee args).faults function
  | .assign target source => source.faults function ++ target.placeFaults function

theorem Instruction.badTarget_notMem_faults {function name : String} (instruction : Instruction) :
    .badTarget name ∉ instruction.faults function := by
  intro member
  cases instruction with
  | declare ty v => cases member
  | call builtin callee args =>
      rcases Expr.eq_of_mem_faults _ member with same | same <;> cases same
  | assign target source =>
      rcases List.mem_append.mp member with read | written
      · rcases Expr.eq_of_mem_faults _ read with same | same <;> cases same
      · exact target.badTarget_notMem_placeFaults written

theorem Instruction.isStatic_of_mem_faults {function : String} {fault : Fault}
    {instruction : Instruction} (member : fault ∈ instruction.faults function) :
    fault.isStatic = true := by
  cases instruction with
  | declare ty v => cases member
  | call builtin callee args => exact Expr.isStatic_of_mem_faults member
  | assign target source =>
      rcases List.mem_append.mp member with read | written
      · exact Expr.isStatic_of_mem_faults read
      · cases target with
        | access base offsets => exact Expr.isStatic_of_mem_faults written
        | var v => cases written
        | slot slot => cases written
        | _ =>
            cases List.mem_singleton.mp written
            rfl

def Terminator.jumps : Terminator → List Expr
  | .jump target => [target]
  | .branch _ onTrue onFalse => [onTrue, onFalse]
  | _ => []

def Terminator.values : Terminator → List Expr
  | .retValue value => [value]
  | .branch condition _ _ => [condition]
  | _ => []

end Regalloc
