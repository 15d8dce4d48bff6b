import Regalloc.Error
import Regalloc.Program.Render

/-!
# Control flow

The blocks of a function are the vertices of a graph whose edges are the jumps that terminators
can take. A label stands for the first block that carries it. A function is refused if an operand
is of the wrong kind: operators take variables and constants, indexing takes a variable, and calls
take a label or a variable. Only the outermost expression of an instruction is looked at.

A depth-first walk from the entry finishes a block after all blocks it leads to. Listed from the
last to the first, a block comes before the blocks it leads to, unless a jump goes back.
-/

namespace Regalloc

def calleeViolation (callee : Expr) : Option Expectation :=
  match callee with
  | .label _ => none
  | .var _ => none
  | _ => some .callableCallee

/-- The first thing that an expression asks of its operands and does not get. -/
def Expr.violation : Expr → Option Expectation
  | .binary _ left right =>
    if left.isSimple && right.isSimple then none else some .simpleOperands
  | .access base offsets =>
    if base.var?.isNone then some .variableBase
    else if offsets.all Expr.isSimple then none
    else some .simpleOffsets
  | .length base dim =>
    if base.var?.isNone then some .variableBase
    else if dim.isSimple then none
    else some .simpleDimension
  | .newArray dims => if dims.all Expr.isSimple then none else some .simpleSizes
  | .newTuple size => if size.isSimple then none else some .simpleSize
  | .call _ callee _ => calleeViolation callee
  | _ => none

def Instruction.violation : Instruction → Option Expectation
  | .declare .. => none
  | .call _ callee _ => calleeViolation callee
  | .assign target source => target.violation.or source.violation

def Function.checkOperands (f : Function) : Except Error Unit :=
  let found := (f.blocks.flatMap Block.instrs).findSome? fun instruction =>
    instruction.violation.map fun expected => (instruction, expected)
  match found with
  | some (instruction, expected) =>
    .error (.illTyped f.name (instruction.render f.vars.name) expected)
  | none => .ok ()

instance : Indexed Nat where
  index n := n
  ofIndex n := n
  ofIndex_index _ := rfl
  index_ofIndex _ := rfl

/-- The blocks that each block can jump to, by increasing index. -/
structure Flow where
  successors : List (List Nat)
  deriving DecidableEq, Repr

namespace Flow

def resolve (f : Function) (terminator : Terminator) (target : Expr) : Except Error Nat :=
  match target.label? with
  | none => .error (.illTyped f.name (terminator.render f.vars.name) .labelTarget)
  | some label =>
    match f.blocks.findIdx? fun block => block.label == label with
    | some block => .ok block
    | none => .error (.unresolvedLabel f.name label)

def ordered (first second : Nat) : List Nat :=
  if first < second then [first, second] else if second < first then [second, first] else [first]

def targets (f : Function) (terminator : Terminator) : Except Error (List Nat) :=
  match terminator with
  | .ret => .ok []
  | .retValue _ => .ok []
  | .jump target => do
    return [← resolve f terminator target]
  | .branch condition onTrue onFalse =>
    if condition.isSimple then do
      let first ← resolve f terminator onTrue
      let second ← resolve f terminator onFalse
      return ordered first second
    else .error (.illTyped f.name (terminator.render f.vars.name) .simpleCondition)

def build (f : Function) : Except Error Flow := do
  f.checkOperands
  return ⟨← f.blocks.mapM fun block => targets f block.terminator⟩

def size (flow : Flow) : Nat :=
  flow.successors.length

def successorsOf (flow : Flow) (block : Nat) : List Nat :=
  flow.successors.getD block []

def predecessorsOf (flow : Flow) (block : Nat) : List Nat :=
  (List.range flow.size).filter fun source => (flow.successorsOf source).contains block

def predecessors (flow : Flow) : List (List Nat) :=
  (List.range flow.size).map flow.predecessorsOf

def edges (flow : Flow) : List (Nat × Nat) :=
  (List.range flow.size).flatMap fun source =>
    (flow.successorsOf source).map fun target => (source, target)

def isExit (flow : Flow) (block : Nat) : Bool :=
  (flow.successorsOf block).isEmpty


structure Walk where
  visited : IndexSet Nat := ∅
  /-- Finished blocks, the latest first. -/
  finished : List Nat := []
  deriving DecidableEq, Repr

/-- Walks from a block, along paths that are at most `depth` blocks long. -/
def visit (flow : Flow) : (depth : Nat) → Nat → Walk → Walk
  | 0, _, walk => walk
  | depth + 1, block, walk =>
    if block ∈ walk.visited then walk else
      let entered := { walk with visited := walk.visited.insert block }
      let left := (flow.successorsOf block).foldl (fun walk next => visit flow depth next walk) entered
      { left with finished := block :: left.finished }

/-- The walk from the entry. A path without repetition is no longer than there are blocks. -/
def walk (flow : Flow) : Walk :=
  if flow.size = 0 then {} else flow.visit flow.size 0 {}

/-- The blocks that the entry leads to in reverse postorder, then the others by index. -/
def order (flow : Flow) : List Nat :=
  flow.walk.finished ++
    (List.range flow.size).filter fun block => !flow.walk.visited.contains block

end Flow

end Regalloc
