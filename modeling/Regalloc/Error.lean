import Regalloc.Program.Function
import Regalloc.Source.Refusal

/-!
# Errors

Everything that can keep a program from being read, allocated, printed or executed, and the one
place where each cause gets its wording.
-/

namespace Regalloc

inductive Expectation where
  | simpleOperands
  | variableBase
  | simpleOffsets
  | simpleDimension
  | simpleSizes
  | simpleSize
  | callableCallee
  | simpleCondition
  | labelTarget
  deriving DecidableEq, Repr

def Expectation.text : Expectation → String
  | .simpleOperands => "variable or constant operands"
  | .variableBase => "a variable base"
  | .simpleOffsets => "variable or constant offsets"
  | .simpleDimension => "a variable or constant dimension"
  | .simpleSizes => "variable or constant sizes"
  | .simpleSize => "a variable or constant size"
  | .callableCallee => "a label or variable callee"
  | .simpleCondition => "a variable or constant condition"
  | .labelTarget => "a label"

/-- What stops an execution. The first text is the name of the function that was executing, where
one is given. -/
inductive Fault where
  | unknownFunction (name : String)
  | cycleLimit (limit : Nat)
  | arity (function : String) (expected given : Nat)
  | noBlocks (function : String)
  | badTarget (function : String)
  | notInteger (value : String)
  | undefinedVariable (function v : String)
  | unwrittenSlot (function : String) (slot : Slot)
  | labelAsValue (function label : String)
  | typeAsValue (function : String)
  | noResult (function : String)
  | negativeDimension (function : String) (dim : Int64)
  | tooLarge (dims : List Int64)
  | lengthOfNonArray (function : String)
  | noDimension (function : String) (dim : Int64)
  | indexOfNonArray (function : String)
  | offsetCount (function : String) (offsets dims : Nat)
  | outOfBounds (function : String) (index length : Int64)
  | notAssignable (function : String)
  | inputExhausted
  | tensorError (function : String)
  | unknownBuiltin (function : String)
  | notCallable (function : String)
  /-- Dimensions lead to an element that the array does not have. Nothing is reported. -/
  | missingElement
  /-- A text has no end, as an aggregate in it holds itself. The execution never stops. -/
  | endless
  deriving DecidableEq, Repr

def maxElements : Nat := 0x1000000

def Fault.message : Fault → String
  | .unknownFunction name => "unknown function " ++ name
  | .cycleLimit limit => "cycle limit of " ++ toString limit ++ " exceeded"
  | .arity function expected given =>
    function ++ " expects " ++ toString expected ++ " arguments, got " ++ toString given
  | .noBlocks function => function ++ " has no blocks"
  | .badTarget function => function ++ ": bad branch target"
  | .notInteger value => "expected an integer, found " ++ value
  | .undefinedVariable function v => function ++ ": variable " ++ v ++ " used before definition"
  | .unwrittenSlot function slot =>
    function ++ ": stack offset " ++ toString slot.offset ++ " read before it was written"
  | .labelAsValue function label => function ++ ": label " ++ label ++ " used as a value"
  | .typeAsValue function => function ++ ": type used as a value"
  | .noResult function => function ++ ": call without a result used as a value"
  | .negativeDimension function dim =>
    function ++ ": negative array dimension " ++ Text.int64Text dim
  | .tooLarge dims =>
    "allocation of [" ++ ", ".intercalate (dims.map Text.int64Text) ++ "] exceeds " ++
      toString maxElements ++ " elements"
  | .lengthOfNonArray function => function ++ ": length of a value that is not an array"
  | .noDimension function dim => function ++ ": no dimension " ++ Text.int64Text dim
  | .indexOfNonArray function => function ++ ": indexing a value that is not an array"
  | .offsetCount function offsets dims =>
    function ++ ": " ++ toString offsets ++ " offsets for an array of " ++ toString dims ++
      " dimensions"
  | .outOfBounds function index length =>
    function ++ ": array access out of bounds (index " ++ Text.int64Text index ++ ", length " ++
      Text.int64Text length ++ ")"
  | .notAssignable function => function ++ ": cannot assign to this operand"
  | .inputExhausted => "input exhausted"
  | .tensorError function => "tensor error raised in " ++ function
  | .unknownBuiltin function => function ++ ": unknown runtime call"
  | .notCallable function => function ++ ": calling a value that is not a function"
  | .missingElement => "no such element"
  | .endless => "text without an end"

inductive Unreadable where
  | missing
  | directory
  | notText
  | other (reason : String)
  deriving DecidableEq, Repr

def Unreadable.message : Unreadable → String
  | .missing => "No such file or directory (os error 2)"
  | .directory => "Is a directory (os error 21)"
  | .notText => "stream did not contain valid UTF-8"
  | .other reason => reason

inductive Error where
  | unresolvedLabel (function label : String)
  | illTyped (function instruction : String) (expected : Expectation)
  | nonTermination (function : String) (rounds : Nat)
  /-- There are more slots than 32 bits can number. -/
  | slotsExhausted (function : String)
  | source (error : Source.ParseError)
  /-- A variable that was removed with fewer neighbors than colors finds none left. -/
  | noColorLeft (function v : String) (colors : Nat)
  /-- A variable that is defined or used has no register. -/
  | uncolored (function v : String)
  /-- A variable that only stands as a jump target has no register to be printed as. -/
  | unprintable (function v : String)
  | execution (fault : Fault)
  | unreadable (reason : Unreadable)
  deriving DecidableEq, Repr

def Error.message : Error → String
  | .unresolvedLabel function label =>
    function ++ ": branch to undefined label '" ++ label ++ "'"
  | .illTyped function instruction expected =>
    function ++ ": ill-typed operand in '" ++ instruction ++ "': expected " ++ expected.text
  | .nonTermination function rounds =>
    function ++ ": register allocation did not converge after " ++ toString rounds ++
      " spill rounds"
  | .slotsExhausted function => function ++ ": no number left for a stack slot"
  | .source error => "line " ++ toString error.line ++ ": " ++ error.refusal.message
  | .noColorLeft function v colors =>
    "internal error: " ++ function ++ ": no register left for " ++ v ++
      " although its degree was below " ++ toString colors
  | .uncolored function v =>
    "internal error: " ++ function ++ ": " ++ v ++ " reached code generation without a register"
  | .unprintable function v => function ++ ": " ++ v ++ " has no register to be printed as"
  | .execution fault => "runtime error: " ++ fault.message
  | .unreadable reason => reason.message

end Regalloc
