import Regalloc.Program.Instruction

/-!
# Functions and programs

A function is a list of labelled blocks; execution enters at the first one.
-/

namespace Regalloc

structure Block where
  label : String
  instrs : List Instruction
  terminator : Terminator
  deriving DecidableEq, Repr

structure Param where
  ty : ValueType
  v : Var
  deriving DecidableEq, Repr

structure Function where
  name : String
  ret : ValueType
  params : List Param
  blocks : List Block
  vars : VarTable
  deriving DecidableEq, Repr

structure Program where
  functions : List Function
  deriving DecidableEq, Repr

def Block.points (block : Block) : List DefUse :=
  block.instrs.map Instruction.defUse ++ [block.terminator.defUse]

def Block.mapVars (rename : Var → Var) (block : Block) : Block :=
  { block with
    instrs := block.instrs.map (Instruction.mapVars rename)
    terminator := block.terminator.mapVars rename }

namespace Function

def paramVars (f : Function) : List Var :=
  f.params.map Param.v

/-- Where each variable is defined or used: parameters on entry, then every program point. -/
def mentions (f : Function) : List Var :=
  f.paramVars ++ f.blocks.flatMap fun block =>
    block.points.flatMap fun point => point.defs ++ point.uses

/-- How often each mentioned variable is defined or used, by increasing index. -/
def occurrences (f : Function) : List (Var × Nat) :=
  let mentions := f.mentions
  (IndexSet.ofList mentions).toList.map fun v => (v, mentions.count v)

/-- Every variable written down, jump targets included. -/
def varOccurrences (f : Function) : List Var :=
  f.paramVars ++ f.blocks.flatMap fun block =>
    block.instrs.flatMap Instruction.varOccurrences ++ block.terminator.varOccurrences

def slots (f : Function) : List Slot :=
  f.blocks.flatMap fun block => block.instrs.flatMap Instruction.slots

/-- The number above those of all slots that instructions refer to. It may be one more than a slot
can have. -/
def nextFreeSlot (f : Function) : Nat :=
  f.slots.foldl (fun next slot => max next (slot.index + 1)) 0

def mapVars (rename : Var → Var) (f : Function) : Function :=
  { f with
    params := f.params.map fun param => { param with v := rename param.v }
    blocks := f.blocks.map (Block.mapVars rename) }

/-- Equality up to the order of the names in the variable tables. -/
def agrees (left right : Function) : Bool :=
  left.name == right.name && left.ret == right.ret && left.params == right.params &&
    left.blocks == right.blocks && left.vars.sameNames right.vars

end Function

namespace Program

def function? (program : Program) (name : String) : Option Function :=
  program.functions.find? fun f => f.name == name

/-- Equality up to the order of the names in the variable tables. -/
def agrees (left right : Program) : Bool :=
  left.functions.length == right.functions.length &&
    (left.functions.zip right.functions).all fun pair => pair.1.agrees pair.2

end Program

end Regalloc
