import Regalloc.Source.Token

/-!
# Refused source text

Why a text is no program, and the line on which this showed.
-/

namespace Regalloc.Source

inductive Refusal where
  | nameExpected (sign : Char)
  | numberOutOfRange (text : String) (side : Text.Overflow)
  | invalidCharacter (c : Char)
  | tokenExpected (expected : String) (found : Option TokenKind)
  | variableExpected (found : Option TokenKind)
  | operandExpected (found : Option TokenKind)
  | calleeExpected (found : Option TokenKind)
  | typeExpected (found : Option TokenKind)
  | aggregateExpected (found : Option TokenKind)
  | functionNameExpected
  | functionExpected
  | unknownBuiltin (name : String)
  | misalignedOffset
  | afterFunction (found : Option TokenKind)
  | afterInstruction (found : Option TokenKind)
  | outsideBlock (found : Option TokenKind)
  | unterminatedBlock (label : String)
  | duplicateLabel (label : String)
  | unterminatedFunction (name : String)
  | noBlocks (name : String)
  deriving DecidableEq, Repr

def describe : Option TokenKind → String
  | some kind => "'" ++ kind.text ++ "'"
  | none => "end of input"

def overflowText : Text.Overflow → String
  | .tooLarge => "number too large to fit in target type"
  | .tooSmall => "number too small to fit in target type"

def Refusal.message : Refusal → String
  | .nameExpected sign => "expected a name after '" ++ sign.toString ++ "'"
  | .numberOutOfRange text side => "invalid number '" ++ text ++ "': " ++ overflowText side
  | .invalidCharacter c => "invalid character '" ++ c.toString ++ "'"
  | .tokenExpected expected found => "expected '" ++ expected ++ "', found " ++ describe found
  | .variableExpected found => "expected a variable, found " ++ describe found
  | .operandExpected found => "expected an operand, found " ++ describe found
  | .calleeExpected found => "expected a callee, found " ++ describe found
  | .typeExpected found => "expected a type, found " ++ describe found
  | .aggregateExpected found => "expected 'Array' or 'Tuple', found " ++ describe found
  | .functionNameExpected => "expected a function name"
  | .functionExpected => "expected at least one function"
  | .unknownBuiltin name => "unknown runtime function '" ++ name ++ "'"
  | .misalignedOffset => "stack offsets must be non-negative multiples of 8"
  | .afterFunction found => "unexpected " ++ describe found ++ " after function"
  | .afterInstruction found => "unexpected " ++ describe found ++ " at end of instruction"
  | .outsideBlock found => "instruction " ++ describe found ++ " outside of a basic block"
  | .unterminatedBlock label => "block " ++ label ++ " does not end with a terminator"
  | .duplicateLabel label => "label " ++ label ++ " is defined twice"
  | .unterminatedFunction name => "unterminated function " ++ name
  | .noBlocks name => "function " ++ name ++ " has no basic blocks"

/-- A refusal and the line it is reported at. -/
structure ParseError where
  line : Nat
  refusal : Refusal
  deriving DecidableEq, Repr

end Regalloc.Source
