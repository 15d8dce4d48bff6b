import Regalloc.Program.Expr
import Regalloc.Program.Function
import Regalloc.Source.Reader
import Regalloc.Source.Scan

/-!
# Grammar

Reading programs, single functions, and functions with a request to spill one of their variables.
Repetitions are bounded by the number of tokens left, of which each turn passes at least one.
-/

namespace Regalloc.Source

def varName : Parse String := do
  match ← advance with
  | some (.var name) => return name
  | _ => refuseLast .variableExpected

def variableRef : Parse Var := do
  internVar (← varName)

def dimensions : (bound : Nat) → Parse Nat
  | 0 => return 0
  | bound + 1 => do
    match ← peek, ← peekSecond with
    | some .leftBracket, some .rightBracket =>
      skip
      skip
      return (← dimensions bound) + 1
    | _, _ => return 0

def kind? : Option TokenKind → Option ValueKind
  | some (.word word) => ValueKind.ofText? word
  | _ => none

def valueType : Parse ValueType := do
  match kind? (← peek) with
  | none => refuse .typeExpected
  | some .int64 =>
    skip
    return ⟨.int64, ← dimensions (← remaining)⟩
  | some kind =>
    skip
    return ⟨kind, 0⟩

def operand : Parse Expr := do
  match ← advance with
  | some (.var name) => return .var (← internVar name)
  | some (.number value) => return .const value
  | some (.label name) => return .label name
  | some (.function name) => return .label name
  | _ => refuseLast .operandExpected

def arguments : Parse (List Expr) := do
  expect .leftParen
  let args ← if (← peek) = some .rightParen then pure [] else
    commaSeparated operand (← remaining)
  expect .rightParen
  return args

def callee : Parse (Bool × Expr) := do
  match ← advance with
  | some (.var name) => return (false, .var (← internVar name))
  | some (.function name) => return (false, .label name)
  | some (.word name) =>
    match Builtin.ofName? name with
    | some builtin => return (true, .label builtin.name)
    | none => refuseLast fun _ => .unknownBuiltin name
  | _ => refuseLast .calleeExpected

def call : Parse (Bool × Expr × List Expr) := do
  expectWord "call"
  let (builtin, callee) ← callee
  let args ← arguments
  return (builtin, callee, args)

/-- Offsets are multiples of eight. -/
def slotAt? (offset : Int64) : Option Slot :=
  if 0 ≤ offset.toInt ∧ offset.toInt % 8 = 0 then
    some ⟨offset.toInt.toNat / 8 % slotBound⟩
  else none

def slot : Parse Expr := do
  expectWord "mem"
  expectWord "rsp"
  match ← advance with
  | some (.number offset) =>
    match slotAt? offset with
    | some slot => return .slot slot
    | none => refuseLast fun _ => .misalignedOffset
  | _ => refuseLast fun _ => .misalignedOffset

def offsets : (bound : Nat) → Parse (List Expr)
  | 0 => return []
  | bound + 1 => do
    if (← peek) = some .leftBracket then
      skip
      let offset ← operand
      expect .rightBracket
      return offset :: (← offsets bound)
    else
      return []

/-- Only a variable may be indexed. -/
def withOffsets (base : Expr) : Parse Expr := do
  match base, ← peek with
  | .var v, some .leftBracket => return .access (.var v) (← offsets (← remaining))
  | _, _ => return base

def destination : Parse Expr := do
  if ← checkWord "mem" then slot else withOffsets (.var (← variableRef))

def newAggregate : Parse Expr := do
  match ← peek with
  | some (.word "Array") =>
    skip
    return .newArray (← arguments)
  | some (.word "Tuple") =>
    skip
    expect .leftParen
    let size ← operand
    expect .rightParen
    return .newTuple size
  | _ => refuse .aggregateExpected

/-- An operand that may be indexed, and an operator that may follow it. -/
def operation : Parse Expr := do
  let left ← withOffsets (← operand)
  match ← peek with
  | some (.operator operator) =>
    skip
    let right ← operand
    return .binary operator left right
  | _ => return left

def source : Parse Expr := do
  match ← peek with
  | some (.word "call") =>
    let (builtin, callee, args) ← call
    return .call builtin callee args
  | some (.word "mem") => slot
  | some (.word "length") =>
    skip
    let base ← operand
    let dim ← operand
    return .length base dim
  | some (.word "new") =>
    skip
    newAggregate
  | _ => operation

def instruction : Parse Instruction := do
  if (kind? (← peek)).isSome then
    let ty ← valueType
    let v ← variableRef
    return .declare ty v
  else if ← checkWord "call" then
    let (builtin, callee, args) ← call
    return .call builtin callee args
  else
    let target ← destination
    expect .arrow
    let source ← source
    return .assign target source

/-- Whether an instruction may end before this token. -/
def endsInstruction : Option TokenKind → Bool
  | none => true
  | some .newline => true
  | some .rightBrace => true
  | some _ => false

def terminator? : Parse (Option Terminator) := do
  if ← checkWord "return" then
    skip
    if endsInstruction (← peek) then return some .ret else
      return some (.retValue (← operand))
  else if ← checkWord "br" then
    skip
    let first ← operand
    if endsInstruction (← peek) then return some (.jump first) else
      let onTrue ← operand
      let onFalse ← operand
      return some (.branch first onTrue onFalse)
  else
    return none

def blockLabel? : Parse (Option String) := do
  match ← peek, ← peekSecond with
  | some (.label _), some .arrow => return none
  | some (.label name), _ => return some name
  | _, _ => return none

structure OpenBlock where
  label : String
  instrs : List Instruction

/-- The blocks up to the closing brace, after those that are done. -/
def body (name : String) :
    (bound : Nat) → (done : List Block) → (current : Option OpenBlock) → Parse (List Block)
  | 0, _, _ => refuse fun _ => .unterminatedFunction name
  | bound + 1, done, current => do
    match ← peek, ← blockLabel?, current with
    | none, _, _ => refuse fun _ => .unterminatedFunction name
    | some .rightBrace, _, none =>
      skip
      return done
    | some .rightBrace, _, some block => refuse fun _ => .unterminatedBlock block.label
    | _, some _, some block => refuse fun _ => .unterminatedBlock block.label
    | _, some label, none =>
      if done.any fun block => block.label == label then
        refuse fun _ => .duplicateLabel label
      else
        skip
        endOfInstruction
        body name bound done (some ⟨label, []⟩)
    | _, none, none => refuse .outsideBlock
    | _, none, some block =>
      match ← terminator? with
      | some terminator =>
        endOfInstruction
        body name bound (done ++ [⟨block.label, block.instrs, terminator⟩]) none
      | none =>
        let instruction ← instruction
        endOfInstruction
        body name bound done (some ⟨block.label, block.instrs ++ [instruction]⟩)

def param : Parse Param := do
  let ty ← valueType
  let v ← variableRef
  return ⟨ty, v⟩

def params : Parse (List Param) := do
  if (← peek) = some .rightParen then return [] else commaSeparated param (← remaining)

def functionName : Parse String := do
  match ← advance with
  | some (.function name) => return name
  | _ => refuse fun _ => .functionNameExpected

def function : Parse Function := do
  expectWord "define"
  let ret ← valueType
  let name ← functionName
  modify fun reader => { reader with table := {} }
  expect .leftParen
  let params ← params
  expect .rightParen
  expect .leftBrace
  skipNewlines
  let blocks ← body name (← remaining) [] none
  if blocks.isEmpty then refuse fun _ => .noBlocks name else
    return ⟨name, ret, params, blocks, (← get).table⟩

def functions : (bound : Nat) → Parse (List Function)
  | 0 => return []
  | bound + 1 => do
    if (← peek).isNone then return [] else
      let first ← function
      skipNewlines
      return first :: (← functions bound)

def program : Parse Program := do
  skipNewlines
  let functions ← functions (← remaining)
  if functions.isEmpty then refuse fun _ => .functionExpected else return ⟨functions⟩

def singleFunction : Parse Function := do
  skipNewlines
  let f ← function
  skipNewlines
  expectEnd
  return f

structure SpillRequest where
  function : Function
  v : Var
  stem : String
  deriving DecidableEq, Repr

def spillRequest : Parse SpillRequest := do
  skipNewlines
  let f ← function
  skipNewlines
  let name ← varName
  skipNewlines
  let stem ← varName
  skipNewlines
  expectEnd
  let (v, table) := f.vars.intern name
  return ⟨{ f with vars := table }, v, stem⟩

def read {α : Type} (goal : Parse α) (text : String) : Except ParseError α := do
  let tokens ← scan text
  let (result, _) ← goal.run { rest := tokens }
  return result

def parseProgram (text : String) : Except ParseError Program :=
  read program text

def parseFunction (text : String) : Except ParseError Function :=
  read singleFunction text

def parseSpillRequest (text : String) : Except ParseError SpillRequest :=
  read spillRequest text

end Regalloc.Source
