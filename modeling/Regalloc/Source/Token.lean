import Regalloc.Program.Expr
import Regalloc.Text

/-!
# Tokens

What source text is made of. Names keep the sign they start with.
-/

namespace Regalloc.Source

inductive TokenKind where
  | var (name : String)
  | label (name : String)
  | function (name : String)
  /-- A keyword, the name of a type, or the name of a built-in function. -/
  | word (text : String)
  | number (value : Int64)
  | arrow
  | operator (op : Operator)
  | leftParen
  | rightParen
  | leftBracket
  | rightBracket
  | leftBrace
  | rightBrace
  | comma
  | newline
  deriving DecidableEq, Repr

structure Token where
  kind : TokenKind
  line : Nat
  deriving DecidableEq, Repr

/-- The token as error messages show it, which is its source text except at the end of a line. -/
def TokenKind.text : TokenKind → String
  | .var name => name
  | .label name => name
  | .function name => name
  | .word text => text
  | .number value => Text.int64Text value
  | .arrow => "<-"
  | .operator op => op.symbol
  | .leftParen => "("
  | .rightParen => ")"
  | .leftBracket => "["
  | .rightBracket => "]"
  | .leftBrace => "\x7b"
  | .rightBrace => "\x7d"
  | .comma => ","
  | .newline => "end of line"

def TokenKind.isWord (kind : TokenKind) (text : String) : Bool :=
  kind == .word text

/-- Tokens after which a minus sign subtracts; elsewhere it may start a number. -/
def TokenKind.endsOperand : TokenKind → Bool
  | .var _ => true
  | .number _ => true
  | .rightBracket => true
  | .rightParen => true
  | _ => false

end Regalloc.Source
