import Mathlib
import Regalloc.Proofs.PrintPhrases

/-!
# Tokens with blanks between them

Tokens that are written down with one blank between two of them, and a line feed for the end of a
line, are scanned back if and only if their names and words are made of the right characters and no
negative number follows a token after which a minus sign subtracts. A token then stands on the
line that the line ends before it give.
-/

namespace Regalloc.Source

open Text

def TokenKind.spelling : TokenKind → String
  | .newline => "\n"
  | kind => kind.text

def spaced (kinds : List TokenKind) : String :=
  joinWith " " (kinds.map TokenKind.spelling)

def Hyphenated (text : List Char) : Prop :=
  ∀ front c back, text = front ++ c :: back →
    isNameChar c = true ∨ c = '-' ∧ ∃ next ∈ back.head?, isLetter next = true

/-- Names have a sign and at least one character after it. Words start with a letter or an
underscore. -/
def TokenKind.WellSpelled : TokenKind → Prop
  | .var name => IsSigned '%' name
  | .label name => IsSigned ':' name
  | .function name => IsSigned '@' name
  | .word text =>
    ∃ c rest, text.toList = c :: rest ∧ (isLetter c = true ∨ c = '_') ∧ Hyphenated rest
  | _ => True

section Words

variable {c : Char} {rest : List Char}

theorem hyphenated_nil : Hyphenated [] := by
  intro front c back same
  simp at same

theorem hyphenated_cons : Hyphenated (c :: rest) ↔
    (isNameChar c = true ∨ c = '-' ∧ ∃ next ∈ rest.head?, isLetter next = true) ∧
      Hyphenated rest := by
  constructor
  · intro whole
    refine ⟨whole [] c rest rfl, fun front d back same => whole (c :: front) d back ?_⟩
    rw [same, List.cons_append]
  · rintro ⟨first, later⟩ front d back same
    cases front with
    | nil =>
        cases same
        exact first
    | cons e front => exact later front d back (List.cons.inj same).2

/-- The scanner reads a word to its end if and only if each hyphen stands before a letter. -/
theorem wordTail_eq_self_iff (text : List Char) : wordTail text = text ↔ Hyphenated text := by
  fun_induction wordTail text with
  | case1 => simp [hyphenated_nil]
  | case2 next rest letter ih =>
      rw [hyphenated_cons, ← ih]
      simp [letter]
  | case3 next rest other =>
      rw [hyphenated_cons]
      simp [other, isNameChar_hyphen]
  | case4 c rest lone continues ih =>
      rw [hyphenated_cons, ← ih]
      simp [continues]
  | case5 c rest lone ends =>
      have alone : c = '-' → rest = [] := by
        rintro rfl
        cases rest with
        | nil => rfl
        | cons next rest => exact absurd rfl (lone next rest rfl)
      rw [hyphenated_cons]
      constructor
      · intro same
        cases same
      · rintro ⟨continues | ⟨hyphen, next, follows, -⟩, -⟩
        · exact absurd continues ends
        · rw [alone hyphen] at follows
          cases follows

theorem TokenKind.wellSpelled_iff_printable (kind : TokenKind) :
    kind.WellSpelled ↔ kind.Printable := by
  cases kind <;> simp only [WellSpelled, Printable, IsWord, wordTail_eq_self_iff]

end Words

theorem spaced_cons_cons (first second : TokenKind) (rest : List TokenKind) :
    (spaced (first :: second :: rest)).toList =
      first.spelling.toList ++ ' ' :: (spaced (second :: rest)).toList := by
  rw [spaced, List.map_cons, List.map_cons, joinWith_cons_cons]
  simp [spaced]

theorem writes_spelling {kind : TokenKind} (printable : kind.Printable) {kinds : List TokenKind}
    {text : List Char} (bounded : Bounded text) (later : Writes kinds text) :
    Writes (kind :: kinds) (kind.spelling.toList ++ text) := by
  by_cases ends : kind = .newline
  · subst ends
    exact .newline later
  · have same : kind.spelling = kind.text := by
      unfold TokenKind.spelling
      split
      · exact absurd rfl ends
      · rfl
    rw [same]
    exact .token ends printable (.inr bounded) later

theorem writes_spaced {kinds : List TokenKind} (printable : ∀ kind ∈ kinds, kind.Printable) :
    Writes kinds (spaced kinds).toList := by
  induction kinds with
  | nil => exact .nil
  | cons first rest ih =>
      obtain ⟨here, later⟩ := List.forall_mem_cons.mp printable
      cases rest with
      | nil =>
          have alone := writes_spelling here (by rintro c ⟨⟩) .nil
          rw [List.append_nil] at alone
          rwa [spaced, List.map_singleton, joinWith_singleton]
      | cons second rest =>
          rw [spaced_cons_cons]
          apply writes_spelling here
          · rintro c ⟨⟩
            decide
          · exact .blank (ih later)

theorem line_numbered {line : Nat} {kinds : List TokenKind} {i : Nat} {token : Token}
    (found : (numbered line kinds)[i]? = some token) :
    token.line = line + (kinds.take i).count .newline := by
  induction kinds generalizing line i with
  | nil => simp [numbered] at found
  | cons kind kinds ih =>
      cases i with
      | zero =>
          cases found
          rfl
      | succ i =>
          rw [ih found, List.take_succ_cons, List.count_cons]
          split <;> omega

/-- Tokens are scanned back from their spaced text, each on its line, if and only if names and
words are made of the right characters and no negative number follows a token that ends an
operand. -/
theorem scan_spaced_iff (kinds : List TokenKind) :
    (∃ tokens, scan (spaced kinds) = .ok tokens ∧ tokens.map Token.kind = kinds ∧
      ∀ i token, tokens[i]? = some token → token.line = 1 + (kinds.take i).count .newline) ↔
    (∀ kind ∈ kinds, kind.WellSpelled) ∧ kinds.IsChain TokenKind.Apart := by
  simp only [TokenKind.wellSpelled_iff_printable]
  constructor
  · rintro ⟨tokens, scanned, rfl, -⟩
    exact ⟨(clean_scan scanned).printable, (clean_scan scanned).chain⟩
  · rintro ⟨printable, chain⟩
    refine ⟨numbered 1 kinds, scan_of_writes (writes_spaced printable) chain,
      kinds_numbered 1 kinds, fun i token => line_numbered⟩

example : (scan (spaced [.number (-9223372036854775808), .newline, .word "tensor-error",
    .operator .sub, .number 9223372036854775807])).toOption =
      some [⟨.number (-9223372036854775808), 1⟩, ⟨.newline, 1⟩, ⟨.word "tensor-error", 2⟩,
        ⟨.operator .sub, 2⟩, ⟨.number 9223372036854775807, 2⟩] := by
  decide +kernel

end Regalloc.Source
