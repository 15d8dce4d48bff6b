import Regalloc.Program.Expr

/-!
# Instructions

What a block is made of, and which variables each part of it writes and reads.
-/

namespace Regalloc

inductive Instruction where
  | declare (ty : ValueType) (v : Var)
  | call (builtin : Bool) (callee : Expr) (args : List Expr)
  | assign (target source : Expr)
  deriving DecidableEq, Repr

inductive Terminator where
  | ret
  | retValue (value : Expr)
  | jump (target : Expr)
  | branch (condition onTrue onFalse : Expr)
  deriving DecidableEq, Repr

instance : Inhabited Terminator := ⟨.ret⟩

structure DefUse where
  /-- Variables written. -/
  defs : List Var
  /-- Variables read, each once, by first occurrence. -/
  uses : List Var
  /-- Whether control passes through another function. -/
  isCall : Bool
  deriving DecidableEq, Repr

namespace Instruction

def defs : Instruction → List Var
  | .declare _ v => [v]
  | .call .. => []
  | .assign target _ => target.var?.toList

/-- Writing through an array element reads the array and the offsets. -/
def uses : Instruction → List Var
  | .declare .. => []
  | .call builtin callee args => (Expr.call builtin callee args).vars
  | .assign (.var _) source => source.vars
  | .assign target source => (source.varOccurrences ++ target.varOccurrences).eraseDups

def isCall : Instruction → Bool
  | .declare .. => false
  | .call .. => true
  | .assign _ source => source.isCall

def defUse (instruction : Instruction) : DefUse :=
  ⟨instruction.defs, instruction.uses, instruction.isCall⟩

def slots : Instruction → List Slot
  | .declare .. => []
  | .call builtin callee args => (Expr.call builtin callee args).slots
  | .assign target source => target.slots ++ source.slots

def varOccurrences : Instruction → List Var
  | .declare _ v => [v]
  | .call builtin callee args => (Expr.call builtin callee args).varOccurrences
  | .assign target source => target.varOccurrences ++ source.varOccurrences

def mapVars (rename : Var → Var) : Instruction → Instruction
  | .declare ty v => .declare ty (rename v)
  | .call builtin callee args =>
    .call builtin (callee.mapVars rename) (Expr.mapVarsOfAll rename args)
  | .assign target source => .assign (target.mapVars rename) (source.mapVars rename)

end Instruction

namespace Terminator

/-- The targets of a jump are not read. -/
def uses : Terminator → List Var
  | .ret => []
  | .retValue value => value.vars
  | .jump _ => []
  | .branch condition _ _ => condition.vars

def defUse (terminator : Terminator) : DefUse :=
  ⟨[], terminator.uses, false⟩

/-- Every variable written down, jump targets included. -/
def varOccurrences : Terminator → List Var
  | .ret => []
  | .retValue value => value.varOccurrences
  | .jump target => target.varOccurrences
  | .branch condition onTrue onFalse =>
    condition.varOccurrences ++ onTrue.varOccurrences ++ onFalse.varOccurrences

def mapVars (rename : Var → Var) : Terminator → Terminator
  | .ret => .ret
  | .retValue value => .retValue (value.mapVars rename)
  | .jump target => .jump (target.mapVars rename)
  | .branch condition onTrue onFalse =>
    .branch (condition.mapVars rename) (onTrue.mapVars rename) (onFalse.mapVars rename)

end Terminator

end Regalloc
