import Regalloc.Source.Refusal
import Regalloc.Text

/-!
# From text to tokens

Reading takes one piece of text after the other: a blank, a line feed, a comment, or the longest
token that starts there.
-/

namespace Regalloc.Source

open Text

/-- What stands at the front of a text: a token, or something that only separates tokens. -/
inductive Piece where
  | gap
  | token (kind : TokenKind)
  deriving DecidableEq, Repr

def isDigit (c : Char) : Bool :=
  '0' ≤ c && c ≤ '9'

/-- The characters that continue a word. A hyphen is one of them when a letter follows. -/
def wordTail : List Char → List Char
  | [] => []
  | '-' :: next :: rest => if isLetter next then '-' :: wordTail (next :: rest) else []
  | c :: rest => if isNameChar c then c :: wordTail rest else []

def nameToken (sign : Char) (name : List Char) : TokenKind :=
  let text := String.ofList (sign :: name)
  if sign == '%' then .var text else if sign == ':' then .label text else .function text

def readName (sign : Char) (rest : List Char) : Except Refusal (Piece × List Char) :=
  let name := rest.takeWhile isNameChar
  if name.isEmpty then .error (.nameExpected sign)
  else .ok (.token (nameToken sign name), rest.dropWhile isNameChar)

def readNumber (negative : Bool) (text : List Char) : Except Refusal (Piece × List Char) :=
  let digits := text.takeWhile isDigit
  match int64OfDigits negative digits with
  | .ok value => .ok (.token (.number value), text.dropWhile isDigit)
  | .error side =>
    let sign := if negative then ['-'] else []
    .error (.numberOutOfRange (String.ofList (sign ++ digits)) side)

/-- Operators and punctuation, the longest first. -/
def readSymbol : List Char → Except Refusal (Piece × List Char)
  | '<' :: '-' :: rest => .ok (.token .arrow, rest)
  | '<' :: '<' :: rest => .ok (.token (.operator .shl), rest)
  | '<' :: '=' :: rest => .ok (.token (.operator .le), rest)
  | '>' :: '>' :: rest => .ok (.token (.operator .shr), rest)
  | '>' :: '=' :: rest => .ok (.token (.operator .ge), rest)
  | '<' :: rest => .ok (.token (.operator .lt), rest)
  | '>' :: rest => .ok (.token (.operator .gt), rest)
  | '=' :: rest => .ok (.token (.operator .eq), rest)
  | '+' :: rest => .ok (.token (.operator .add), rest)
  | '-' :: rest => .ok (.token (.operator .sub), rest)
  | '*' :: rest => .ok (.token (.operator .mul), rest)
  | '&' :: rest => .ok (.token (.operator .bitAnd), rest)
  | '(' :: rest => .ok (.token .leftParen, rest)
  | ')' :: rest => .ok (.token .rightParen, rest)
  | '[' :: rest => .ok (.token .leftBracket, rest)
  | ']' :: rest => .ok (.token .rightBracket, rest)
  | '\x7b' :: rest => .ok (.token .leftBrace, rest)
  | '\x7d' :: rest => .ok (.token .rightBrace, rest)
  | ',' :: rest => .ok (.token .comma, rest)
  | c :: _ => .error (.invalidCharacter c)
  | [] => .ok (.gap, [])

def readPiece (previous : Option TokenKind) (c : Char) (rest : List Char) :
    Except Refusal (Piece × List Char) :=
  if c == '\n' then .ok (.token .newline, rest)
  else if isBlank c then .ok (.gap, rest)
  else if c == '/' && rest.head? == some '/' then .ok (.gap, rest.dropWhile (· != '\n'))
  else if c == '%' || c == ':' || c == '@' then readName c rest
  else if isDigit c then readNumber false (c :: rest)
  else if c == '-' && rest.head?.any isDigit && !previous.any TokenKind.endsOperand then
    readNumber true rest
  else if isLetter c || c == '_' then
    let tail := wordTail rest
    .ok (.token (.word (String.ofList (c :: tail))), rest.drop tail.length)
  else readSymbol (c :: rest)

theorem length_dropWhile_le (keep : Char → Bool) (text : List Char) :
    (text.dropWhile keep).length ≤ text.length :=
  (List.dropWhile_suffix keep).length_le

theorem readName_shorter {sign : Char} {rest after : List Char} {piece : Piece}
    (read : readName sign rest = .ok (piece, after)) : after.length ≤ rest.length := by
  simp only [readName] at read
  split at read
  · simp at read
  · simp only [Except.ok.injEq, Prod.mk.injEq] at read
    exact read.2 ▸ length_dropWhile_le isNameChar rest

theorem readNumber_shorter {negative : Bool} {text after : List Char} {piece : Piece}
    (read : readNumber negative text = .ok (piece, after)) :
    after = text.dropWhile isDigit := by
  simp only [readNumber] at read
  split at read
  · simp only [Except.ok.injEq, Prod.mk.injEq] at read
    exact read.2.symm
  · simp at read

theorem readSymbol_shorter {c : Char} {rest after : List Char} {piece : Piece}
    (read : readSymbol (c :: rest) = .ok (piece, after)) : after.length ≤ rest.length := by
  unfold readSymbol at read
  split at read <;> simp_all

theorem readPiece_shorter {previous : Option TokenKind} {c : Char} {rest after : List Char}
    {piece : Piece} (read : readPiece previous c rest = .ok (piece, after)) :
    after.length ≤ rest.length := by
  unfold readPiece at read
  split at read
  · simp_all
  split at read
  · simp_all
  split at read
  · simp only [Except.ok.injEq, Prod.mk.injEq] at read
    exact read.2 ▸ length_dropWhile_le _ rest
  split at read
  · exact readName_shorter read
  split at read
  · rename_i digit
    rw [readNumber_shorter read, List.dropWhile_cons_of_pos digit]
    exact length_dropWhile_le _ rest
  split at read
  · rw [readNumber_shorter read]
    exact length_dropWhile_le _ rest
  split at read
  · simp only [Except.ok.injEq, Prod.mk.injEq] at read
    rw [← read.2, List.length_drop]
    exact Nat.sub_le ..
  · exact readSymbol_shorter read

def scanFrom (line : Nat) (previous : Option TokenKind) :
    List Char → Except ParseError (List Token)
  | [] => .ok []
  | c :: rest =>
    match _read : readPiece previous c rest with
    | .error refusal => .error ⟨line, refusal⟩
    | .ok (.gap, after) => scanFrom line previous after
    | .ok (.token kind, after) =>
      match scanFrom (if kind == .newline then line + 1 else line) (some kind) after with
      | .error error => .error error
      | .ok tokens => .ok (⟨kind, line⟩ :: tokens)
termination_by text => text.length
decreasing_by
  all_goals
    have := readPiece_shorter _read
    simp only [List.length_cons]
    omega

def scan (text : String) : Except ParseError (List Token) :=
  scanFrom 1 none text.toList

end Regalloc.Source
