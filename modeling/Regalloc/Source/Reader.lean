import Regalloc.Program.Variable
import Regalloc.Source.Refusal

/-!
# Reading tokens

A reader walks over tokens and enters variables into the table of the function it is in. A
refusal names the token it stops at and that token's line.
-/

namespace Regalloc.Source

structure Reader where
  /-- The token passed last. -/
  last : Option Token := none
  rest : List Token
  table : VarTable := {}
  deriving DecidableEq, Repr

namespace Reader

def peek (reader : Reader) : Option TokenKind :=
  reader.rest.head?.map Token.kind

def peekSecond (reader : Reader) : Option TokenKind :=
  reader.rest[1]?.map Token.kind

/-- The line of the next token, or of the final one when none is left. -/
def line (reader : Reader) : Nat :=
  match reader.rest.head?.or reader.last with
  | some token => token.line
  | none => 1

def skip (reader : Reader) : Reader :=
  match reader.rest with
  | [] => reader
  | token :: rest => { reader with last := some token, rest := rest }

def skipNewlinesUpTo : Nat → Reader → Reader
  | 0, reader => reader
  | bound + 1, reader =>
    if reader.peek = some .newline then skipNewlinesUpTo bound reader.skip else reader

def skipNewlines (reader : Reader) : Reader :=
  skipNewlinesUpTo reader.rest.length reader

end Reader

/-- A step of reading: it moves the reader or refuses the text. -/
abbrev Parse := StateT Reader (Except ParseError)

def peek : Parse (Option TokenKind) := do
  return (← get).peek

def peekSecond : Parse (Option TokenKind) := do
  return (← get).peekSecond

def skip : Parse Unit :=
  modify Reader.skip

def skipNewlines : Parse Unit :=
  modify Reader.skipNewlines

def remaining : Parse Nat := do
  return (← get).rest.length

def refuse {α : Type} (refusal : Option TokenKind → Refusal) : Parse α := do
  let reader ← get
  throw ⟨reader.line, refusal reader.peek⟩

/-- Refuses the token passed last. At the end of the text this is the final token. -/
def refuseLast {α : Type} (refusal : Option TokenKind → Refusal) : Parse α := do
  let reader ← get
  match reader.last with
  | some token => throw ⟨token.line, refusal (some token.kind)⟩
  | none => throw ⟨reader.line, refusal none⟩

def advance : Parse (Option TokenKind) := do
  let kind ← peek
  skip
  return kind

def expect (kind : TokenKind) : Parse Unit := do
  if (← peek) = some kind then skip else refuse (.tokenExpected kind.text)

def checkWord (word : String) : Parse Bool := do
  return (← peek) = some (.word word)

def expectWord (word : String) : Parse Unit :=
  expect (.word word)

def expectEnd : Parse Unit := do
  if (← peek).isSome then refuse .afterFunction

/-- An instruction ends with its line, or before a closing brace. -/
def endOfInstruction : Parse Unit := do
  match ← peek with
  | none => pure ()
  | some .newline => skipNewlines
  | some .rightBrace => pure ()
  | some _ => refuse .afterInstruction

def internVar (name : String) : Parse Var := do
  let reader ← get
  let (v, table) := reader.table.intern name
  set { reader with table := table }
  return v

def commaSeparated {α : Type} (item : Parse α) : (bound : Nat) → Parse (List α)
  | 0 => do
    return [← item]
  | bound + 1 => do
    let first ← item
    if (← peek) = some .comma then
      skip
      return first :: (← commaSeparated item bound)
    else
      return [first]

end Regalloc.Source
