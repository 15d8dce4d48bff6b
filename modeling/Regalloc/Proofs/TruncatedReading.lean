import Mathlib
import Regalloc.Proofs.ReadPhrases

/-!
# Reading tokens that stop short

A rule that succeeds on some tokens does the same without the last of them as long as it needs none
of these. If it does need them, it ends with what is left, or refuses it as a text that stops short:
on the line of its final token. Rules are put together from rules of which this holds.
-/

namespace Regalloc.Source

def finalLine : Option Token → Nat
  | some token => token.line
  | none => 1

/-- The refusals of a text that stops short, by the kind of its final token. -/
def Refusal.StopsShort (final : Option TokenKind) : Refusal → Prop
  | .tokenExpected _ found => found = none
  | .typeExpected found => found = none
  | .aggregateExpected found => found = none
  | .variableExpected found => found = final
  | .operandExpected found => found = final
  | .calleeExpected found => found = final
  | .functionNameExpected => True
  | .misalignedOffset => True
  | .unterminatedFunction _ => True
  | _ => False

structure ParseError.StopsShort (final : Option Token) (error : ParseError) : Prop where
  line : error.line = finalLine final
  refusal : error.refusal.StopsShort (final.map Token.kind)

namespace Reader

def more (reader : Reader) (extra : List Token) : Reader :=
  { reader with rest := reader.rest ++ extra }

def final (reader : Reader) : Option Token :=
  reader.rest.getLast?.or reader.last

theorem final_of_nil {reader : Reader} (empty : reader.rest = []) : reader.final = reader.last := by
  rw [final, empty]
  rfl

theorem final_skip (reader : Reader) : reader.skip.final = reader.final := by
  obtain ⟨last, rest, table⟩ := reader
  cases rest with
  | nil => rfl
  | cons token rest =>
      rw [final, final, skip]
      cases rest with
      | nil => rfl
      | cons next rest => simp [List.getLast?_cons]

theorem line_of_nil {reader : Reader} (empty : reader.rest = []) :
    reader.line = finalLine reader.final := by
  rw [final_of_nil empty, line, empty]
  cases reader.last <;> rfl

theorem peek_of_nil {reader : Reader} (empty : reader.rest = []) : reader.peek = none := by
  rw [peek, empty]
  rfl

theorem skip_of_nil {reader : Reader} (empty : reader.rest = []) : reader.skip = reader := by
  rw [skip, empty]

section More

variable {reader : Reader} {extra : List Token} (left : reader.rest ≠ [])
include left

theorem peek_more : (reader.more extra).peek = reader.peek := by
  rw [peek, peek, more, List.head?_append_of_ne_nil _ left]

theorem skip_more : (reader.more extra).skip = reader.skip.more extra := by
  obtain ⟨last, rest, table⟩ := reader
  cases rest with
  | nil => exact absurd rfl left
  | cons token rest => rfl

end More

end Reader

def Ends {α : Type} (stop : α → Reader → Prop) (reader : Reader) (rule : Parse α) : Prop :=
  (∃ a after, rule reader = .ok (a, after) ∧ stop a after ∧ after.final = reader.final) ∨
    ∃ error, rule reader = .error error ∧ error.StopsShort reader.final

/-- If a rule succeeds with more tokens than there are, then without them it either does the same
and leaves just them out, or ends. -/
def Meets {α : Type} (stop : α → Reader → Prop) (reader : Reader) (whole part : Parse α) : Prop :=
  ∀ extra a after, extra ≠ [] → whole (reader.more extra) = .ok (a, after) →
    (∃ shorter, part reader = .ok (a, shorter) ∧ after = shorter.more extra ∧
      shorter.final = reader.final) ∨ Ends stop reader part

def Spent {α : Type} (_ : α) (reader : Reader) : Prop :=
  reader.rest = []

structure Truncates {α : Type} (stop : α → Reader → Prop) (rule : Parse α) : Prop where
  meets : ∀ reader, Meets stop reader rule rule
  ends : ∀ reader, reader.rest = [] → Ends stop reader rule

theorem parse_bind_of_ok {α β : Type} {rule : Parse α} {next : α → Parse β}
    {reader after : Reader} {a : α} (read : rule reader = .ok (a, after)) :
    (rule >>= next) reader = next a after := by
  simp only [bind, StateT.bind, read]
  rfl

theorem parse_bind_of_error {α β : Type} {rule : Parse α} {next : α → Parse β} {reader : Reader}
    {error : ParseError} (read : rule reader = .error error) :
    (rule >>= next) reader = .error error := by
  simp only [bind, StateT.bind, read]
  rfl

section Rules

variable {α β : Type} {stop : α → Reader → Prop} {later : β → Reader → Prop} {reader : Reader}

theorem Ends.of_pure {a : α} (stops : stop a reader) : Ends stop reader (pure a) :=
  .inl ⟨a, reader, rfl, stops, rfl⟩

theorem Ends.of_refuse {refusal : Option TokenKind → Refusal} (empty : reader.rest = [])
    (short : ∀ final, (refusal none).StopsShort final) : Ends stop reader (refuse refusal) := by
  refine .inr ⟨_, rfl, reader.line_of_nil empty, ?_⟩
  rw [reader.peek_of_nil empty]
  exact short _

theorem Ends.of_refuseLast {refusal : Option TokenKind → Refusal} (empty : reader.rest = [])
    (short : ∀ final, (refusal final).StopsShort final) :
    Ends stop reader (refuseLast refusal) := by
  have final := reader.final_of_nil empty
  obtain ⟨last, rest, table⟩ := reader
  cases last with
  | some token => exact .inr ⟨_, rfl, by rw [final]; rfl, by rw [final]; exact short _⟩
  | none =>
      refine .inr ⟨_, rfl, Reader.line_of_nil empty, ?_⟩
      rw [final]
      exact short none

theorem Ends.after {rule : Parse α} {next : α → Parse β} {a : α} {after : Reader}
    (read : rule reader = .ok (a, after)) (same : after.final = reader.final)
    (rest : Ends later after (next a)) : Ends later reader (rule >>= next) := by
  rw [Ends, same] at rest
  rwa [Ends, parse_bind_of_ok read]

theorem Ends.bind {rule : Parse α} {next : α → Parse β} (first : Ends stop reader rule)
    (last : ∀ a after, stop a after → Ends later after (next a)) :
    Ends later reader (rule >>= next) := by
  rcases first with ⟨a, after, read, stops, same⟩ | ⟨error, read, short⟩
  · exact .after read same (last a after stops)
  · exact .inr ⟨error, parse_bind_of_error read, short⟩

theorem Meets.of_ends {whole part : Parse α} (ends : Ends stop reader part) :
    Meets stop reader whole part :=
  fun _ _ _ _ _ => .inr ends

theorem Meets.of_pure (a : α) : Meets stop reader (pure a) (pure a) := by
  rintro extra _ after - read
  cases read
  exact .inl ⟨reader, rfl, rfl, rfl⟩

theorem Meets.of_refuse {refusal : Option TokenKind → Refusal} {part : Parse α} :
    Meets stop reader (refuse refusal) part :=
  fun _ _ _ _ read => absurd read refuse_ne_ok

theorem Meets.of_refuseLast {refusal : Option TokenKind → Refusal} {part : Parse α} :
    Meets stop reader (refuseLast refusal) part :=
  fun _ _ _ _ read => absurd read refuseLast_ne_ok

/-- What comes next may be compared where the part has come to. -/
theorem Meets.bind {whole part : Parse α} {next next' : α → Parse β}
    (first : Meets stop reader whole part)
    (rest : ∀ a shorter, part reader = .ok (a, shorter) → Meets later shorter (next a) (next' a))
    (last : ∀ a after, stop a after → Ends later after (next' a)) :
    Meets later reader (whole >>= next) (part >>= next') := by
  intro extra b after longer read
  obtain ⟨a, middle, early, late⟩ := parse_bind_eq_ok.mp read
  rcases first extra a middle longer early with ⟨shorter, read', rfl, same⟩ | ends
  · rw [Ends, parse_bind_of_ok read', ← same]
    exact rest a shorter read' extra b after longer late
  · exact .inr (ends.bind last)

theorem Truncates.of_pure (a : α) : Truncates Spent (pure a) :=
  ⟨fun _ => .of_pure a, fun _ empty => .of_pure empty⟩

theorem Truncates.of_refuse {refusal : Option TokenKind → Refusal}
    (short : ∀ final, (refusal none).StopsShort final) : Truncates stop (refuse refusal) :=
  ⟨fun _ => .of_refuse, fun _ empty => .of_refuse empty short⟩

theorem Truncates.bind {rule : Parse α} {next : α → Parse β} (first : Truncates stop rule)
    (rest : ∀ a reader, Meets later reader (next a) (next a))
    (last : ∀ a reader, stop a reader → Ends later reader (next a)) :
    Truncates later (rule >>= next) where
  meets reader := (first.meets reader).bind (fun a shorter _ => rest a shorter) last
  ends reader empty := (first.ends reader empty).bind last

theorem Truncates.before {rule : Parse α} {next : α → Parse β} (first : Truncates Spent rule)
    (rest : ∀ a, Truncates later (next a)) : Truncates later (rule >>= next) :=
  first.bind (fun a => (rest a).meets) fun a => (rest a).ends

theorem Meets.before {rule : Parse α} {next : α → Parse β} (first : Truncates Spent rule)
    (rest : ∀ a, Truncates later (next a)) :
    Meets later reader (rule >>= next) (rule >>= next) :=
  (first.before rest).meets reader

end Rules

section Tokens

variable {α : Type} {stop : α → Reader → Prop}

/-- A rule that always succeeds, and that looks at no token but the next. -/
theorem Truncates.of_step {rule : Parse α} {result : Reader → α} {move : Reader → Reader}
    (run : ∀ reader, rule reader = .ok (result reader, move reader))
    (same : ∀ reader extra, reader.rest ≠ [] → result (reader.more extra) = result reader ∧
      move (reader.more extra) = (move reader).more extra)
    (kept : ∀ reader, (move reader).final = reader.final)
    (stops : ∀ reader, reader.rest = [] → stop (result reader) (move reader)) :
    Truncates stop rule where
  meets reader := by
    by_cases empty : reader.rest = []
    · exact .of_ends (.inl ⟨_, _, run reader, stops reader empty, kept reader⟩)
    · rintro extra a after - read
      obtain ⟨result', move'⟩ := same reader extra empty
      rw [run, result', move'] at read
      cases read
      exact .inl ⟨_, run reader, rfl, kept reader⟩
  ends reader empty := .inl ⟨_, _, run reader, stops reader empty, kept reader⟩

theorem truncates_peek : Truncates (fun next reader => next = none ∧ reader.rest = []) peek :=
  .of_step (fun _ => rfl) (fun _ _ left => ⟨Reader.peek_more left, rfl⟩) (fun _ => rfl)
    fun _ empty => ⟨Reader.peek_of_nil empty, empty⟩

theorem truncates_skip : Truncates Spent skip :=
  .of_step (fun _ => rfl) (fun _ _ left => ⟨rfl, Reader.skip_more left⟩) Reader.final_skip
    fun _ empty => by rwa [Spent, Reader.skip_of_nil empty]

theorem truncates_advance :
    Truncates (fun next reader => next = none ∧ reader.rest = []) advance :=
  .of_step (fun _ => rfl) (fun _ _ left => ⟨Reader.peek_more left, Reader.skip_more left⟩)
    Reader.final_skip fun _ empty => by
      rw [Reader.skip_of_nil empty]
      exact ⟨Reader.peek_of_nil empty, empty⟩

theorem truncates_checkWord (word : String) :
    Truncates (fun found reader => found = false ∧ reader.rest = []) (checkWord word) :=
  .of_step (fun _ => rfl) (fun _ _ left => ⟨by rw [Reader.peek_more left], rfl⟩) (fun _ => rfl)
    fun _ empty => by
      rw [Reader.peek_of_nil empty]
      exact ⟨rfl, empty⟩

theorem truncates_internVar (name : String) : Truncates Spent (internVar name) :=
  .of_step (fun _ => rfl) (fun _ _ _ => ⟨rfl, rfl⟩) (fun _ => rfl) fun _ empty => empty

theorem Ends.of_peek {reader : Reader} {next : Option TokenKind → Parse α}
    (empty : reader.rest = []) (last : Ends stop reader (next none)) :
    Ends stop reader (peek >>= next) := by
  have read : peek reader = .ok (none, reader) := by
    rw [← reader.peek_of_nil empty]
    rfl
  exact .after read rfl last

theorem Truncates.of_peek {next : Option TokenKind → Parse α}
    (rest : ∀ kind reader, Meets stop reader (next kind) (next kind))
    (last : ∀ reader, reader.rest = [] → Ends stop reader (next none)) :
    Truncates stop (peek >>= next) := by
  refine truncates_peek.bind rest ?_
  rintro _ reader ⟨rfl, empty⟩
  exact last reader empty

theorem Truncates.of_peek_ite {p : Option TokenKind → Prop} [DecidablePred p]
    {first other : Parse α} (absent : ¬p none) (found : ∀ reader, Meets stop reader first first)
    (rest : Truncates stop other) :
    Truncates stop (do if p (← peek) then first else other) := by
  refine .of_peek (fun next reader => ?_) fun reader empty => ?_
  · split
    · exact found reader
    · exact rest.meets reader
  · rw [if_neg absent]
    exact rest.ends reader empty

theorem Truncates.of_advance {next : Option TokenKind → Parse α}
    (rest : ∀ kind reader, Meets stop reader (next kind) (next kind))
    (last : ∀ reader, reader.rest = [] → Ends stop reader (next none)) :
    Truncates stop (advance >>= next) := by
  refine truncates_advance.bind rest ?_
  rintro _ reader ⟨rfl, empty⟩
  exact last reader empty

theorem Truncates.of_checkWord {word : String} {next : Bool → Parse α}
    (found : ∀ reader, Meets stop reader (next true) (next true))
    (other : Truncates stop (next false)) : Truncates stop (checkWord word >>= next) := by
  refine (truncates_checkWord word).bind (fun here reader => ?_) ?_
  · cases here with
    | true => exact found reader
    | false => exact other.meets reader
  · rintro _ reader ⟨rfl, empty⟩
    exact other.ends reader empty

theorem truncates_expect (kind : TokenKind) : Truncates Spent (expect kind) :=
  .of_peek_ite (Option.some_ne_none _).symm truncates_skip.meets (.of_refuse fun _ => rfl)

end Tokens

section Repetitions

variable {α : Type} {stop : α → Reader → Prop}

/-- The bound of a repetition is never reached before the tokens are spent. -/
theorem Truncates.of_remaining {next : Nat → Parse α}
    (rest : ∀ reader bound bound', reader.rest.length ≤ bound → bound ≤ bound' →
      Meets stop reader (next bound') (next bound))
    (last : ∀ reader, reader.rest = [] → Ends stop reader (next 0)) :
    Truncates stop (remaining >>= next) where
  meets reader extra a after longer read := by
    have part : (remaining >>= next) reader = next reader.rest.length reader := rfl
    rw [Ends, part]
    refine rest reader _ (reader.more extra).rest.length le_rfl ?_ extra a after longer read
    rw [Reader.more, List.length_append]
    exact Nat.le_add_right _ _
  ends reader empty := by
    have part : (remaining >>= next) reader = next reader.rest.length reader := rfl
    rw [Ends, part, empty]
    exact last reader empty

theorem Spells.length_eq {rule : Parse α} {phrase : VarTable → List TokenKind → α → Prop}
    (spells : Spells rule phrase) {reader after : Reader} {a : α}
    (read : rule reader = .ok (a, after)) :
    ∃ table kinds, phrase table kinds a ∧
      reader.rest.length = kinds.length + after.rest.length := by
  obtain ⟨kinds, consumes, spelled⟩ := spells _ _ _ _ rfl read
  refine ⟨after.table, kinds, spelled _ (.refl _), ?_⟩
  have lengths := congrArg List.length consumes.passed
  simpa [Reader.kinds] using lengths

theorem length_skip_lt {reader : Reader} (left : reader.rest ≠ []) :
    reader.skip.rest.length < reader.rest.length := by
  obtain ⟨last, rest, table⟩ := reader
  cases rest with
  | nil => exact absurd rfl left
  | cons token rest => exact Nat.lt_succ_self _

theorem length_skip_le (reader : Reader) : reader.skip.rest.length ≤ reader.rest.length := by
  obtain ⟨last, rest, table⟩ := reader
  cases rest with
  | nil => exact le_rfl
  | cons token rest => exact Nat.le_succ _

theorem ends_commaSeparated {item : Parse α} (cut : Truncates Spent item) (bound : Nat)
    {reader : Reader} (empty : reader.rest = []) :
    Ends Spent reader (commaSeparated item bound) := by
  cases bound with
  | zero => exact (cut.ends reader empty).bind fun _ _ spent => .of_pure spent
  | succ bound =>
      refine (cut.ends reader empty).bind fun first after spent => .of_peek spent ?_
      rw [if_neg (Option.some_ne_none _).symm]
      exact .of_pure spent

theorem meets_commaSeparated {item : Parse α} (cut : Truncates Spent item)
    (passes : ∀ reader a after, item reader = .ok (a, after) →
      after.rest.length < reader.rest.length)
    (reader : Reader) (bound bound' : Nat) (enough : reader.rest.length ≤ bound)
    (larger : bound ≤ bound') :
    Meets Spent reader (commaSeparated item bound') (commaSeparated item bound) := by
  induction bound generalizing reader bound' with
  | zero =>
      have empty := List.length_eq_zero_iff.mp (Nat.le_zero.mp enough)
      exact .of_ends (ends_commaSeparated cut 0 empty)
  | succ bound ih =>
      obtain ⟨bound', rfl⟩ := Nat.exists_eq_succ_of_ne_zero (Nat.ne_zero_of_lt larger)
      refine (cut.meets reader).bind (fun first shorter read => ?_) ?_
      · refine (truncates_peek.meets shorter).bind (fun next same peeked => ?_) ?_
        · obtain ⟨-, rfl⟩ := peek_eq_ok peeked
          split
          · refine (truncates_skip.meets shorter).bind (fun _ left skipped => ?_) ?_
            · cases skip_eq_ok skipped
              have fewer := passes reader first shorter read
              have skipped := length_skip_le shorter
              refine (ih _ bound' (by omega) (Nat.le_of_succ_le_succ larger)).bind ?_ ?_
              · exact fun _ _ _ => .of_pure _
              · exact fun _ _ spent => .of_pure spent
            · intro _ after spent
              refine (ends_commaSeparated cut bound spent).bind fun _ _ spent => .of_pure spent
          · exact .of_pure _
        · rintro _ after ⟨rfl, spent⟩
          rw [if_neg (Option.some_ne_none _).symm]
          exact .of_pure spent
      · intro first after spent
        refine .of_peek spent ?_
        rw [if_neg (Option.some_ne_none _).symm]
        exact .of_pure spent

theorem truncates_commaSeparated {item : Parse α} (cut : Truncates Spent item)
    (passes : ∀ reader a after, item reader = .ok (a, after) →
      after.rest.length < reader.rest.length) :
    Truncates Spent (do commaSeparated item (← remaining)) :=
  .of_remaining (meets_commaSeparated cut passes) fun _ empty => ends_commaSeparated cut 0 empty

end Repetitions

end Regalloc.Source
