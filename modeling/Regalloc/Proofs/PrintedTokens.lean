import Mathlib
import Regalloc.Source.Scan

/-!
# Scanning what was printed

A text that writes down tokens with blanks, line feeds or punctuation between them is scanned into
these tokens again, provided that each of them is one that the scanner can produce and that no
negative number follows a token after which a minus sign subtracts. The tokens of every text that
was scanned are of this kind.
-/

namespace Regalloc.Text

theorem inRanges_eq_false {ranges others : List CodeRange} {c : Char}
    (apart : (ranges.all fun range => others.all fun other =>
      decide (range.2 < other.1) || decide (other.2 < range.1)) = true)
    (inside : inRanges ranges c = true) : inRanges others c = false := by
  rw [inRanges, List.any_eq_true] at inside
  obtain ⟨range, listed, bounds⟩ := inside
  rw [inRanges, List.any_eq_false]
  intro other listed'
  have away := List.all_eq_true.mp (List.all_eq_true.mp apart range listed) other listed'
  simp only [Bool.or_eq_true, Bool.and_eq_true, decide_eq_true_eq] at away bounds ⊢
  omega

theorem isBlank_of_isLetter {c : Char} (letter : isLetter c = true) : isBlank c = false :=
  inRanges_eq_false (by decide +kernel) letter

/-- Letters come after all digits and signs of the language. -/
theorem le_toNat_of_isLetter {c : Char} (letter : isLetter c = true) : 'A'.toNat ≤ c.toNat := by
  have first : (letterRanges.all fun range => decide ('A'.toNat ≤ range.1)) = true := by
    decide +kernel
  rw [isLetter, inRanges, List.any_eq_true] at letter
  obtain ⟨range, listed, bounds⟩ := letter
  have start := of_decide_eq_true (List.all_eq_true.mp first range listed)
  simp only [Bool.and_eq_true, decide_eq_true_eq] at bounds
  omega

theorem toList_int64Text_of_nonneg {n : Int64} (nonneg : 0 ≤ n.toInt) :
    (int64Text n).toList = Nat.toDigits 10 n.toInt.toNat := by
  obtain ⟨m, same⟩ := Int.eq_ofNat_of_zero_le nonneg
  rw [int64Text, same, Int.toNat_natCast]
  change (toString (Int.ofNat m)).toList = _
  simp [toString, Int.repr]

theorem toList_int64Text_of_neg {n : Int64} (neg : n.toInt < 0) :
    (int64Text n).toList = '-' :: Nat.toDigits 10 (-n.toInt).toNat := by
  obtain ⟨m, same⟩ := Int.eq_negSucc_of_lt_zero neg
  rw [int64Text, same]
  simp [toString, Int.repr]

theorem digitsValue_toDigits (m : Nat) : digitsValue (Nat.toDigits 10 m) = m := by
  rw [digitsValue, ← Nat.ofDigitChars_eq_foldl, Nat.ofDigitChars_ten_toDigits]

end Regalloc.Text

namespace Regalloc.Source

open Text

def boundaries : List Char :=
  [' ', '\n', '(', ')', '[', ']', '\x7b', '\x7d', ',']

/-- A text before which every token ends. -/
def Bounded (text : List Char) : Prop :=
  ∀ c ∈ text.head?, c ∈ boundaries

theorem isNameChar_of_mem_boundaries {c : Char} (member : c ∈ boundaries) :
    isNameChar c = false := by
  simp only [boundaries, List.mem_cons, List.not_mem_nil, or_false] at member
  rcases member with rfl | rfl | rfl | rfl | rfl | rfl | rfl | rfl | rfl <;> decide +kernel

theorem isDigit_of_mem_boundaries {c : Char} (member : c ∈ boundaries) : isDigit c = false := by
  simp only [boundaries, List.mem_cons, List.not_mem_nil, or_false] at member
  rcases member with rfl | rfl | rfl | rfl | rfl | rfl | rfl | rfl | rfl <;> rfl

theorem Bounded.takeWhile {text : List Char} (bounded : Bounded text) {keep : Char → Bool}
    (ends : ∀ c ∈ boundaries, keep c = false) {front : List Char}
    (kept : ∀ c ∈ front, keep c = true) :
    (front ++ text).takeWhile keep = front ∧ (front ++ text).dropWhile keep = text := by
  have stop : text.takeWhile keep = [] ∧ text.dropWhile keep = text := by
    cases text with
    | nil => exact ⟨rfl, rfl⟩
    | cons c rest =>
        have ends := ends c (bounded c rfl)
        simp [ends]
  rw [List.takeWhile_append_of_pos kept, List.dropWhile_append_of_pos kept, stop.1, stop.2]
  exact ⟨List.append_nil front, rfl⟩

section Words

theorem wordTail_of_bounded {text : List Char} (bounded : Bounded text) : wordTail text = [] := by
  cases text with
  | nil => rfl
  | cons c rest =>
      have member := bounded c rfl
      have apart : c ≠ '-' := by
        rintro rfl
        simp [boundaries] at member
      unfold wordTail
      split
      · rfl
      · rename_i same
        exact absurd (List.cons.inj same).1 apart
      · rename_i same
        cases same
        simp [isNameChar_of_mem_boundaries member]

theorem isNameChar_hyphen : isNameChar '-' = false := by
  decide +kernel

theorem wordTail_cons {c : Char} (continues : isNameChar c = true) (rest : List Char) :
    wordTail (c :: rest) = c :: wordTail rest := by
  have apart : c ≠ '-' := by
    rintro rfl
    simp [isNameChar_hyphen] at continues
  rw [wordTail, if_pos continues]
  rintro next other same
  exact absurd same apart

theorem wordTail_append {rest text : List Char} (whole : wordTail rest = rest)
    (bounded : Bounded text) : wordTail (rest ++ text) = rest := by
  fun_induction wordTail rest with
  | case1 => exact wordTail_of_bounded bounded
  | case2 next rest letter ih =>
      have tail := ih (List.cons.inj whole).2
      rw [List.cons_append, List.cons_append, wordTail, if_pos letter, ← List.cons_append, tail]
  | case3 next rest other => cases whole
  | case4 c rest lone continues ih =>
      rw [List.cons_append, wordTail_cons continues, ih (List.cons.inj whole).2]
  | case5 c rest lone ends => cases whole

theorem wordTail_wordTail (text : List Char) : wordTail (wordTail text) = wordTail text := by
  fun_induction wordTail text with
  | case1 => rfl
  | case2 next rest letter ih =>
      rw [wordTail_cons (isNameChar_of_isLetter letter)] at ih ⊢
      rw [wordTail, if_pos letter, ih]
  | case3 next rest other => rfl
  | case4 c rest lone continues ih => rw [wordTail_cons continues, ih]
  | case5 c rest lone ends => rfl

end Words

def IsSigned (sign : Char) (text : String) : Prop :=
  ∃ name, text.toList = sign :: name ∧ name ≠ [] ∧ ∀ c ∈ name, isNameChar c = true

def IsWord (text : String) : Prop :=
  ∃ c rest, text.toList = c :: rest ∧ (isLetter c = true ∨ c = '_') ∧ wordTail rest = rest

namespace TokenKind

def Printable : TokenKind → Prop
  | .var name => IsSigned '%' name
  | .label name => IsSigned ':' name
  | .function name => IsSigned '@' name
  | .word text => IsWord text
  | _ => True

def isPunctuation : TokenKind → Bool
  | .leftParen => true
  | .rightParen => true
  | .leftBracket => true
  | .rightBracket => true
  | .leftBrace => true
  | .rightBrace => true
  | .comma => true
  | _ => false

/-- A negative number does not follow a token after which a minus sign subtracts. -/
def Apart (previous kind : TokenKind) : Prop :=
  ∀ n, kind = .number n → n.toInt < 0 → previous.endsOperand = false

end TokenKind

inductive Writes : List TokenKind → List Char → Prop
  | nil : Writes [] []
  | blank {kinds : List TokenKind} {text : List Char} :
      Writes kinds text → Writes kinds (' ' :: text)
  | newline {kinds : List TokenKind} {text : List Char} :
      Writes kinds text → Writes (.newline :: kinds) ('\n' :: text)
  | token {kind : TokenKind} {kinds : List TokenKind} {text : List Char} :
      kind ≠ .newline → kind.Printable → kind.isPunctuation = true ∨ Bounded text →
      Writes kinds text → Writes (kind :: kinds) (kind.text.toList ++ text)

section Pieces

variable {previous : Option TokenKind} {text : List Char}

theorem readPiece_name {sign : Char} (signs : sign = '%' ∨ sign = ':' ∨ sign = '@')
    {name : String} (signed : IsSigned sign name) (bounded : Bounded text) :
    ∃ c rest, name.toList ++ text = c :: rest ∧
      readPiece previous c rest = .ok (.token (if sign == '%' then .var name else
        if sign == ':' then .label name else .function name), text) := by
  obtain ⟨chars, same, some, each⟩ := signed
  obtain ⟨front, back⟩ := bounded.takeWhile (fun _ => isNameChar_of_mem_boundaries) each
  have whole : String.ofList (sign :: chars) = name := by
    rw [← same, String.ofList_toList]
  have read : readName sign (chars ++ text) = .ok (.token (if sign == '%' then .var name else
      if sign == ':' then .label name else .function name), text) := by
    rw [readName, front, back, nameToken, whole]
    simp [some]
  have classes : (sign == '\n') = false ∧ isBlank sign = false ∧ (sign == '/') = false ∧
      (sign == '%' || sign == ':' || sign == '@') = true := by
    rcases signs with rfl | rfl | rfl <;> decide
  refine ⟨sign, chars ++ text, by rw [same, List.cons_append], ?_⟩
  rw [readPiece, classes.1, classes.2.1, classes.2.2.1, classes.2.2.2]
  exact read

theorem isDigit_of_le {c : Char} (large : 'A'.toNat ≤ c.toNat) : isDigit c = false := by
  simp only [isDigit, Char.le_def, UInt32.le_iff_toNat_le, Bool.and_eq_false_iff,
    decide_eq_false_iff_not, not_le]
  right
  change 57 < c.toNat
  have start : 'A'.toNat = 65 := rfl
  omega

theorem readPiece_word {c : Char} (first : isLetter c = true ∨ c = '_') {rest : List Char}
    (whole : wordTail rest = rest) (bounded : Bounded text) :
    readPiece previous c (rest ++ text) =
      .ok (.token (.word (String.ofList (c :: rest))), text) := by
  have large : 'A'.toNat ≤ c.toNat := by
    rcases first with letter | rfl
    · exact le_toNat_of_isLetter letter
    · decide
  have blank : isBlank c = false := by
    rcases first with letter | rfl
    · exact isBlank_of_isLetter letter
    · decide
  have apart : ∀ d : Char, d.toNat < 'A'.toNat → (c == d) = false := by
    intro d small
    rw [beq_eq_false_iff_ne]
    rintro rfl
    omega
  have start : (isLetter c || c == '_') = true := by
    simpa using first
  rw [readPiece, apart '\n' (by decide), blank, apart '/' (by decide), apart '%' (by decide),
    apart ':' (by decide), apart '@' (by decide), isDigit_of_le large, apart '-' (by decide), start]
  simp [wordTail_append whole bounded]

theorem isDigit_of_mem_toDigits {m : Nat} {c : Char} (member : c ∈ Nat.toDigits 10 m) :
    isDigit c = true :=
  Nat.isDigit_of_mem_toDigits (by decide) (by decide) member

theorem readNumber_toDigits {negative : Bool} {m : Nat} {n : Int64} (bounded : Bounded text)
    (value : int64OfDigits negative (Nat.toDigits 10 m) = .ok n) :
    readNumber negative (Nat.toDigits 10 m ++ text) = .ok (.token (.number n), text) := by
  obtain ⟨front, back⟩ := bounded.takeWhile (fun _ => isDigit_of_mem_boundaries)
    (fun c => isDigit_of_mem_toDigits (c := c))
  rw [readNumber, front, back, value]

theorem readPiece_digit {c : Char} (digit : isDigit c = true) (rest : List Char) :
    readPiece previous c rest = readNumber false (c :: rest) := by
  have small : '0'.toNat ≤ c.toNat ∧ c.toNat ≤ '9'.toNat := by
    simpa [isDigit, Char.le_def, UInt32.le_iff_toNat_le] using digit
  have apart : ∀ d : Char, d.toNat < '0'.toNat ∨ '9'.toNat < d.toNat → (c == d) = false := by
    intro d away
    rw [beq_eq_false_iff_ne]
    rintro rfl
    omega
  have inside : inRanges [('0'.toNat, '9'.toNat)] c = true := by
    simpa [inRanges] using small
  have blank : isBlank c = false := inRanges_eq_false (by decide) inside
  rw [readPiece, apart '\n' (by decide), blank, apart '/' (by decide), apart '%' (by decide),
    apart ':' (by decide), apart '@' (by decide), digit]
  rfl

theorem readPiece_number {n : Int64} (bounded : Bounded text)
    (apart : n.toInt < 0 → previous.any TokenKind.endsOperand = false) :
    ∃ c rest, (int64Text n).toList ++ text = c :: rest ∧
      readPiece previous c rest = .ok (.token (.number n), text) := by
  have digits : ∀ m, ∃ c rest, Nat.toDigits 10 m = c :: rest ∧ isDigit c = true := by
    intro m
    obtain ⟨c, rest, same⟩ := List.exists_cons_of_ne_nil (Nat.toDigits_ne_nil (n := m) (b := 10))
    exact ⟨c, rest, same, isDigit_of_mem_toDigits (same ▸ List.mem_cons_self ..)⟩
  have lower := n.le_toInt
  have upper := n.toInt_lt
  by_cases neg : n.toInt < 0
  · refine ⟨'-', Nat.toDigits 10 (-n.toInt).toNat ++ text, ?_, ?_⟩
    · rw [toList_int64Text_of_neg neg, List.cons_append]
    · obtain ⟨c, rest, same, digit⟩ := digits (-n.toInt).toNat
      have value : int64OfDigits true (Nat.toDigits 10 (-n.toInt).toNat) = .ok n := by
        have small : (-n.toInt).toNat ≤ int64Bound := by
          rw [int64Bound]
          omega
        have back : -((-n.toInt).toNat : Int) = n.toInt := by omega
        rw [int64OfDigits, digitsValue_toDigits, if_pos rfl, if_pos small, back,
          Int64.ofInt_toInt]
      have read := readNumber_toDigits bounded value
      rw [same, List.cons_append] at read ⊢
      have minus : ('-' == '-' && (c :: (rest ++ text)).head?.any isDigit &&
          !previous.any TokenKind.endsOperand) = true := by
        simp [digit, apart neg]
      rw [readPiece, if_neg (by decide), if_neg (by decide), if_neg (by simp), if_neg (by decide),
        if_neg (by decide), if_pos minus, read]
  · have nonneg : 0 ≤ n.toInt := by omega
    obtain ⟨c, rest, same, digit⟩ := digits n.toInt.toNat
    have value : int64OfDigits false (Nat.toDigits 10 n.toInt.toNat) = .ok n := by
      have small : n.toInt.toNat < int64Bound := by
        rw [int64Bound]
        omega
      have back : (n.toInt.toNat : Int) = n.toInt := by omega
      rw [int64OfDigits, digitsValue_toDigits, if_neg (by decide), if_pos small, back,
        Int64.ofInt_toInt]
    have read := readNumber_toDigits bounded value
    refine ⟨c, rest ++ text, ?_, ?_⟩
    · rw [toList_int64Text_of_nonneg nonneg, same, List.cons_append]
    · rw [readPiece_digit digit, ← List.cons_append, ← same, read]

def symbols : List Char :=
  ['<', '>', '=', '+', '-', '*', '&', '(', ')', '[', ']', '\x7b', '\x7d', ',']

theorem readPiece_symbol {c : Char} (symbol : c ∈ symbols) {rest : List Char}
    (minus : c = '-' → rest.head?.any isDigit = false) :
    readPiece previous c rest = readSymbol (c :: rest) := by
  have other : ((c == '-') && rest.head?.any isDigit &&
      !previous.any TokenKind.endsOperand) = false := by
    by_cases same : c = '-'
    · simp [minus same]
    · simp [same]
  have classes : (c == '\n') = false ∧ isBlank c = false ∧ (c == '/') = false ∧
      (c == '%' || c == ':' || c == '@') = false ∧ isDigit c = false ∧
      (isLetter c || c == '_') = false := by
    simp only [symbols, List.mem_cons, List.not_mem_nil, or_false] at symbol
    rcases symbol with rfl | rfl | rfl | rfl | rfl | rfl | rfl | rfl | rfl | rfl | rfl | rfl |
      rfl | rfl <;> decide +kernel
  obtain ⟨newline, blank, slash, sign, digit, letter⟩ := classes
  rw [readPiece, newline, blank, slash, sign, digit, other, letter]
  rfl

theorem readSymbol_angle (bounded : Bounded text) :
    readSymbol ('<' :: text) = .ok (.token (.operator .lt), text) ∧
      readSymbol ('>' :: text) = .ok (.token (.operator .gt), text) := by
  cases text with
  | nil => exact ⟨rfl, rfl⟩
  | cons c rest =>
      have member := bounded c rfl
      simp only [boundaries, List.mem_cons, List.not_mem_nil, or_false] at member
      rcases member with rfl | rfl | rfl | rfl | rfl | rfl | rfl | rfl | rfl <;>
        exact ⟨rfl, rfl⟩

theorem readPiece_operator (op : Operator) (bounded : Bounded text) :
    ∃ c rest, op.symbol.toList ++ text = c :: rest ∧
      readPiece previous c rest = .ok (.token (.operator op), text) := by
  have noDigit : text.head?.any isDigit = false := by
    cases text with
    | nil => rfl
    | cons c rest => exact isDigit_of_mem_boundaries (bounded c rfl)
  cases op with
  | add => exact ⟨'+', text, rfl, readPiece_symbol (by decide) (by simp)⟩
  | sub => exact ⟨'-', text, rfl, readPiece_symbol (by decide) fun _ => noDigit⟩
  | mul => exact ⟨'*', text, rfl, readPiece_symbol (by decide) (by simp)⟩
  | bitAnd => exact ⟨'&', text, rfl, readPiece_symbol (by decide) (by simp)⟩
  | shl => exact ⟨'<', '<' :: text, rfl, readPiece_symbol (by decide) (by simp)⟩
  | shr => exact ⟨'>', '>' :: text, rfl, readPiece_symbol (by decide) (by simp)⟩
  | eq => exact ⟨'=', text, rfl, readPiece_symbol (by decide) (by simp)⟩
  | lt =>
      refine ⟨'<', text, rfl, ?_⟩
      rw [readPiece_symbol (by decide) (by simp), (readSymbol_angle bounded).1]
  | le => exact ⟨'<', '=' :: text, rfl, readPiece_symbol (by decide) (by simp)⟩
  | gt =>
      refine ⟨'>', text, rfl, ?_⟩
      rw [readPiece_symbol (by decide) (by simp), (readSymbol_angle bounded).2]
  | ge => exact ⟨'>', '=' :: text, rfl, readPiece_symbol (by decide) (by simp)⟩

/-- Every token is read back from its text, if that ends where the token does. -/
theorem readPiece_text {kind : TokenKind} (visible : kind ≠ .newline)
    (printable : kind.Printable) (ends : kind.isPunctuation = true ∨ Bounded text)
    (apart : ∀ before ∈ previous, before.Apart kind) :
    ∃ c rest, kind.text.toList ++ text = c :: rest ∧
      readPiece previous c rest = .ok (.token kind, text) := by
  cases kind with
  | newline => exact absurd rfl visible
  | var name => exact readPiece_name (.inl rfl) printable (ends.resolve_left nofun)
  | label name => exact readPiece_name (.inr (.inl rfl)) printable (ends.resolve_left nofun)
  | function name => exact readPiece_name (.inr (.inr rfl)) printable (ends.resolve_left nofun)
  | word name =>
      obtain ⟨c, rest, same, first, whole⟩ := printable
      refine ⟨c, rest ++ text, by rw [TokenKind.text, same, List.cons_append], ?_⟩
      rw [readPiece_word first whole (ends.resolve_left nofun), ← same, String.ofList_toList]
  | number n =>
      apply readPiece_number (ends.resolve_left nofun)
      intro neg
      cases previous with
      | none => rfl
      | some before => exact apart before rfl n rfl neg
  | arrow => exact ⟨'<', '-' :: text, rfl, readPiece_symbol (by decide) (by simp)⟩
  | operator op => exact readPiece_operator op (ends.resolve_left nofun)
  | leftParen => exact ⟨'(', text, rfl, readPiece_symbol (by decide) (by simp)⟩
  | rightParen => exact ⟨')', text, rfl, readPiece_symbol (by decide) (by simp)⟩
  | leftBracket => exact ⟨'[', text, rfl, readPiece_symbol (by decide) (by simp)⟩
  | rightBracket => exact ⟨']', text, rfl, readPiece_symbol (by decide) (by simp)⟩
  | leftBrace => exact ⟨'\x7b', text, rfl, readPiece_symbol (by decide) (by simp)⟩
  | rightBrace => exact ⟨'\x7d', text, rfl, readPiece_symbol (by decide) (by simp)⟩
  | comma => exact ⟨',', text, rfl, readPiece_symbol (by decide) (by simp)⟩

end Pieces

def numbered (line : Nat) : List TokenKind → List Token
  | [] => []
  | kind :: kinds =>
    ⟨kind, line⟩ :: numbered (if kind == .newline then line + 1 else line) kinds

theorem kinds_numbered (line : Nat) (kinds : List TokenKind) :
    (numbered line kinds).map Token.kind = kinds := by
  induction kinds generalizing line with
  | nil => rfl
  | cons kind kinds ih => rw [numbered, List.map_cons, ih]

theorem scanFrom_gap {line : Nat} {previous : Option TokenKind} {c : Char} {rest after : List Char}
    (read : readPiece previous c rest = .ok (.gap, after)) :
    scanFrom line previous (c :: rest) = scanFrom line previous after := by
  rw [scanFrom]
  split <;> simp_all

theorem scanFrom_token {line : Nat} {previous : Option TokenKind} {c : Char}
    {rest after : List Char} {kind : TokenKind} {tokens : List Token}
    (read : readPiece previous c rest = .ok (.token kind, after))
    (later : scanFrom (if kind == .newline then line + 1 else line) (some kind) after =
      .ok tokens) :
    scanFrom line previous (c :: rest) = .ok (⟨kind, line⟩ :: tokens) := by
  rw [scanFrom]
  split <;> simp_all

/-- What writes tokens down is scanned into these tokens. -/
theorem scanFrom_of_writes {kinds : List TokenKind} {text : List Char}
    (writes : Writes kinds text) (line : Nat) {previous : Option TokenKind}
    (apart : ∀ before ∈ previous, ∀ kind ∈ kinds.head?, before.Apart kind)
    (chain : kinds.IsChain TokenKind.Apart) :
    scanFrom line previous text = .ok (numbered line kinds) := by
  induction writes generalizing line previous with
  | nil => rw [scanFrom, numbered]
  | blank _ ih => rw [scanFrom_gap rfl, ih line apart chain]
  | newline _ ih =>
      rw [List.isChain_cons] at chain
      apply scanFrom_token rfl
      apply ih (line + 1) _ chain.2
      rintro before same
      cases same
      exact chain.1
  | token visible printable ends _ ih =>
      rw [List.isChain_cons] at chain
      obtain ⟨c, rest, same, read⟩ := readPiece_text visible printable ends
        fun before member => apart before member _ rfl
      rw [same]
      apply scanFrom_token read
      apply ih _ _ chain.2
      rintro before same
      cases same
      exact chain.1

theorem scan_of_writes {kinds : List TokenKind} {text : String}
    (writes : Writes kinds text.toList) (chain : kinds.IsChain TokenKind.Apart) :
    scan text = .ok (numbered 1 kinds) :=
  scanFrom_of_writes writes 1 nofun chain

section Scanned

variable {previous : Option TokenKind} {rest after : List Char} {kind : TokenKind}

theorem printable_readName {sign : Char} (signs : sign = '%' ∨ sign = ':' ∨ sign = '@')
    (read : readName sign rest = .ok (.token kind, after)) :
    kind.Printable ∧ ∀ n, kind ≠ .number n := by
  simp only [readName] at read
  split at read
  · cases read
  · rename_i some
    simp only [Except.ok.injEq, Prod.mk.injEq, Piece.token.injEq] at read
    have signed : IsSigned sign (String.ofList (sign :: rest.takeWhile isNameChar)) := by
      refine ⟨rest.takeWhile isNameChar, String.toList_ofList, ?_, ?_⟩
      · exact fun empty => some (List.isEmpty_iff.mpr empty)
      · exact fun c member => List.mem_takeWhile_imp member
    rw [← read.1]
    rcases signs with rfl | rfl | rfl
    all_goals
      refine ⟨signed, ?_⟩
      rintro n ⟨⟩

theorem printable_readNumber {negative : Bool} {text : List Char}
    (read : readNumber negative text = .ok (.token kind, after)) :
    kind.Printable ∧ ∀ n, kind = .number n → n.toInt < 0 → negative = true := by
  simp only [readNumber] at read
  split at read
  · rename_i n value
    cases read
    refine ⟨trivial, ?_⟩
    rintro _ ⟨⟩ neg
    by_contra positive
    rw [int64OfDigits, if_neg positive] at value
    split at value
    · rename_i small
      cases value
      rw [int64Bound] at small
      rw [Int64.toInt_ofInt_of_le (by omega) (by omega)] at neg
      omega
    · cases value
  · cases read

theorem printable_readSymbol {text : List Char}
    (read : readSymbol text = .ok (.token kind, after)) :
    kind.Printable ∧ ∀ n, kind ≠ .number n := by
  unfold readSymbol at read
  split at read <;> cases read <;> exact ⟨trivial, nofun⟩

theorem printable_readPiece {c : Char}
    (read : readPiece previous c rest = .ok (.token kind, after)) :
    kind.Printable ∧ ∀ before ∈ previous, before.Apart kind := by
  unfold readPiece at read
  split at read
  · cases read
    exact ⟨trivial, fun _ _ _ same => nomatch same⟩
  split at read
  · cases read
  split at read
  · cases read
  split at read
  · rename_i signs
    simp only [Bool.or_eq_true, beq_iff_eq, or_assoc] at signs
    obtain ⟨printable, other⟩ := printable_readName signs read
    exact ⟨printable, fun _ _ n same => absurd same (other n)⟩
  split at read
  · obtain ⟨printable, positive⟩ := printable_readNumber read
    exact ⟨printable, fun _ _ n same neg => nomatch positive n same neg⟩
  split at read
  · rename_i minus
    obtain ⟨printable, -⟩ := printable_readNumber read
    refine ⟨printable, ?_⟩
    rintro before ⟨⟩ n same neg
    simp only [Option.any_some, Bool.and_eq_true, Bool.not_eq_true'] at minus
    exact minus.2
  split at read
  · rename_i first
    cases read
    rw [Bool.or_eq_true, beq_iff_eq] at first
    refine ⟨⟨c, wordTail rest, String.toList_ofList, first, wordTail_wordTail rest⟩, ?_⟩
    exact fun _ _ _ same => nomatch same
  · obtain ⟨printable, other⟩ := printable_readSymbol read
    exact ⟨printable, fun _ _ n same => absurd same (other n)⟩

end Scanned

structure Clean (kinds : List TokenKind) : Prop where
  printable : ∀ kind ∈ kinds, kind.Printable
  chain : kinds.IsChain TokenKind.Apart

theorem Clean.within {kinds part : List TokenKind} (clean : Clean kinds) (inside : part <:+: kinds) :
    Clean part where
  printable kind member := clean.printable kind (inside.mem member)
  chain := clean.chain.infix inside

theorem clean_scanFrom {line : Nat} {previous : Option TokenKind} {text : List Char}
    {tokens : List Token} (scanned : scanFrom line previous text = .ok tokens) :
    Clean (tokens.map Token.kind) ∧
      ∀ before ∈ previous, ∀ kind ∈ (tokens.map Token.kind).head?, before.Apart kind := by
  fun_induction scanFrom line previous text generalizing tokens with
  | case1 line previous =>
      cases scanned
      exact ⟨⟨nofun, List.isChain_nil⟩, nofun⟩
  | case2 line previous c rest refusal read => cases scanned
  | case3 line previous c rest after read ih => exact ih scanned
  | case4 line previous c rest kind after read error later ih => cases scanned
  | case5 line previous c rest kind after read tokens' later ih =>
      cases scanned
      obtain ⟨clean, follows⟩ := ih later
      obtain ⟨printable, apart⟩ := printable_readPiece read
      refine ⟨⟨?_, ?_⟩, ?_⟩
      · exact List.forall_mem_cons.mpr ⟨printable, clean.printable⟩
      · exact List.isChain_cons.mpr ⟨follows kind rfl, clean.chain⟩
      · rintro before member _ ⟨⟩
        exact apart before member

theorem clean_scan {text : String} {tokens : List Token} (scanned : scan text = .ok tokens) :
    Clean (tokens.map Token.kind) :=
  (clean_scanFrom scanned).1

end Regalloc.Source
