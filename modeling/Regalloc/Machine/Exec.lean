import Regalloc.Machine.Value

/-!
# Executing instructions

Expressions, instructions and terminators of one function call. How a call of another function is
carried out is a parameter.
-/

namespace Regalloc.Machine

structure State where
  heap : Heap := #[]
  /-- Numbers still to be read. -/
  input : List Int64 := []
  /-- Lines printed. -/
  output : Array String := #[]
  /-- Instructions and terminators begun. -/
  cycles : Nat := 0
  deriving DecidableEq, Repr

/-- A step of execution. The state stays as it is when a fault stops it. -/
abbrev Exec := EStateM Fault State

/-- What belongs to one call: the values of variables and stack slots. -/
structure Frame where
  vars : Bindings Var Value := {}
  slots : Bindings Slot Value := {}
  deriving DecidableEq, Repr

def Frame.enter (f : Function) (args : List Value) : Frame where
  vars := .ofList (f.paramVars.zip args)

/-- Carries out a call of a function by its name. -/
abbrev Caller := String → List Value → Exec (Option Value)

def liftFault {α : Type} : Except Fault α → Exec α
  | .ok a => pure a
  | .error fault => throw fault

def tick (limit : Nat) : Exec Unit := do
  modify fun state => { state with cycles := state.cycles + 1 }
  if limit < (← get).cycles then throw (.cycleLimit limit)

def asInt (value : Value) : Exec Int64 := do
  match value with
  | .int n => return n
  | value => throw (.notInteger (← liftFault (value.text (← get).heap)))

def asAddress (fault : Fault) : Value → Exec Nat
  | .aggregate address => return address
  | _ => throw fault

def aggregateAt (address : Nat) : Exec Aggregate := do
  return Heap.aggregate (← get).heap address

def newAggregate (dims : List Int64) : Exec Value :=
  match extent? dims with
  | none => throw (.tooLarge dims)
  | some count =>
    modifyGet fun state =>
      (.aggregate state.heap.size,
        { state with heap := state.heap.push ⟨dims, Array.replicate count (.int 0)⟩ })

def dimensionSize (function : String) (value : Value) : Exec Int64 := do
  let size ← asInt value
  if size < 0 then throw (.negativeDimension function size) else return size

/-- The place of an element of the array at an address. The dimensions may lead to one that is not
there. -/
def locate (function : String) (address : Nat) (indices : List Int64) : Exec Nat := do
  let aggregate ← aggregateAt address
  let index ← liftFault (elementIndex function aggregate indices)
  if index < aggregate.elements.size then return index else throw .missingElement

def isFunctionName (name : String) : Bool :=
  name.toList.head? == some '@'

def runBuiltin (function : String) (callee : Expr) (args : List Value) : Exec (Option Value) := do
  match callee.label?.bind Builtin.ofName? with
  | some .print =>
    let texts ← liftFault (args.mapM (Value.text (← get).heap))
    modify fun state => { state with output := state.output.push (joinWith " " texts) }
    return none
  | some .input =>
    match (← get).input with
    | [] => throw .inputExhausted
    | n :: rest =>
      modify fun state => { state with input := rest }
      return some (.int n)
  | some .tensorError => throw (.tensorError function)
  | none => throw (.unknownBuiltin function)

def runCall (caller : Caller) (function : String) (builtin : Bool) (callee : Expr)
    (target : Exec Value) (args : List Value) : Exec (Option Value) := do
  if builtin then runBuiltin function callee args else
    match ← target with
    | .code name => caller name args
    | _ => throw (.notCallable function)

mutual

def eval (caller : Caller) (f : Function) (frame : Frame) : Expr → Exec Value
  | .const n => return .int n
  | .var v =>
    match frame.vars.get? v with
    | some value => return value
    | none => throw (.undefinedVariable f.name (f.vars.name v))
  | .slot slot =>
    match frame.slots.get? slot with
    | some value => return value
    | none => throw (.unwrittenSlot f.name slot)
  | .label name =>
    if isFunctionName name then return .code name else throw (.labelAsValue f.name name)
  | .type _ => throw (.typeAsValue f.name)
  | .binary operator left right => do
    let first ← asInt (← eval caller f frame left)
    let second ← asInt (← eval caller f frame right)
    return .int (operator.apply first second)
  | .access base offsets => do
    let address ← asAddress (.indexOfNonArray f.name) (← eval caller f frame base)
    let indices ← evalEach caller f frame asInt offsets
    let index ← locate f.name address indices
    return (← aggregateAt address).read index
  | .call builtin callee args => do
    let values ← evalEach caller f frame pure args
    match ← runCall caller f.name builtin callee (eval caller f frame callee) values with
    | some value => return value
    | none => throw (.noResult f.name)
  | .newArray dims => do
    newAggregate (← evalEach caller f frame (dimensionSize f.name) dims)
  | .newTuple size => do
    let count ← asInt (← eval caller f frame size)
    newAggregate [if count < 0 then 0 else count]
  | .length base dim => do
    let address ← asAddress (.lengthOfNonArray f.name) (← eval caller f frame base)
    let position ← asInt (← eval caller f frame dim)
    match (← aggregateAt address).dims[position.toUInt64.toNat]? with
    | some size => return .int size
    | none => throw (.noDimension f.name position)

/-- Evaluates expressions one after the other and converts each value at once. -/
def evalEach {α : Type} (caller : Caller) (f : Function) (frame : Frame)
    (convert : Value → Exec α) : List Expr → Exec (List α)
  | [] => return []
  | expr :: exprs => do
    let first ← convert (← eval caller f frame expr)
    return first :: (← evalEach caller f frame convert exprs)

end

def assign (caller : Caller) (f : Function) (frame : Frame) (target : Expr) (value : Value) :
    Exec Frame := do
  match target with
  | .var v => return { frame with vars := frame.vars.insert v value }
  | .slot slot => return { frame with slots := frame.slots.insert slot value }
  | .access base offsets =>
    let address ← asAddress (.indexOfNonArray f.name) (← eval caller f frame base)
    let indices ← evalEach caller f frame asInt offsets
    let index ← locate f.name address indices
    modify fun state => { state with heap := Heap.write state.heap address index value }
    return frame
  | _ => throw (.notAssignable f.name)

def execute (caller : Caller) (f : Function) (frame : Frame) : Instruction → Exec Frame
  | .declare _ v => return { frame with vars := frame.vars.insert v (.int 0) }
  | .call builtin callee args => do
    let values ← evalEach caller f frame pure args
    let _ ← runCall caller f.name builtin callee (eval caller f frame callee) values
    return frame
  | .assign target source => do
    let value ← eval caller f frame source
    assign caller f frame target value

inductive Exit where
  | leave (value : Option Value)
  | enter (block : Nat)
  deriving DecidableEq, Repr

def lastWithLabel (label : String) : List Block → (position : Nat) → Option Nat
  | [], _ => none
  | block :: blocks, position =>
    (lastWithLabel label blocks (position + 1)).or
      (if block.label = label then some position else none)

/-- The block of a jump target; of several blocks with one label it is the last. -/
def jumpTo (f : Function) (target : Expr) : Exec Exit :=
  match target.label?.bind fun label => lastWithLabel label f.blocks 0 with
  | some block => return .enter block
  | none => throw (.badTarget f.name)

def finish (caller : Caller) (f : Function) (frame : Frame) : Terminator → Exec Exit
  | .ret => return .leave none
  | .retValue value => return .leave (some (← eval caller f frame value))
  | .jump target => jumpTo f target
  | .branch condition onTrue onFalse => do
    let n ← asInt (← eval caller f frame condition)
    if n = 0 then jumpTo f onFalse else jumpTo f onTrue

end Regalloc.Machine
