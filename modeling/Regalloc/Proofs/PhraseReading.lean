import Mathlib
import Regalloc.Proofs.ReadPhrases

/-!
# Every phrase is read

Where a phrase stands, the rule for it reads what the phrase stands for, and enters the variables
of the phrase into the table in the order in which they stand. A rule that reads on as far as it
can needs to know what comes after the phrase; within a program this is always settled by the
next token.
-/

namespace Regalloc

namespace Source

open Phrase

/-- Before some tokens, a rule passes others and returns what they stand for, with variables of a
table that the names are entered on the way to. -/
def Accepts {α : Type} (table : VarTable) (rule : Parse α) (kinds more : List TokenKind) (a : α) :
    Prop :=
  ∀ reader : Reader, reader.kinds = kinds ++ more →
    table.Extends (reader.table.internAll (varNames kinds)) →
    ∃ after, rule reader = .ok (a, after) ∧ Consumes reader kinds after

theorem parse_bind_ok {α β : Type} {rule : Parse α} {next : α → Parse β}
    {reader middle after : Reader} {a : α} {b : β} (early : rule reader = .ok (a, middle))
    (late : next a middle = .ok (b, after)) : (rule >>= next) reader = .ok (b, after) :=
  parse_bind_eq_ok.mpr ⟨a, middle, early, late⟩

section Tokens

variable {α : Type} {table : VarTable} {more : List TokenKind} {kind : TokenKind}

theorem accepts_token {rule : Parse α} {a : α} (other : varNames [kind] = [])
    (skips : ∀ reader : Reader, reader.peek = some kind → rule reader = .ok (a, reader.skip)) :
    Accepts table rule [kind] more a := by
  intro reader here _
  have next : reader.peek = some kind := by
    rw [reader.peek_eq, here]
    rfl
  exact ⟨reader.skip, skips reader next, .skip next other⟩

theorem accepts_expect (other : varNames [kind] = []) :
    Accepts table (expect kind) [kind] more () := by
  refine accepts_token other fun reader next => ?_
  change (if reader.peek = some kind then skip else refuse _) reader = _
  rw [if_pos next]
  rfl

theorem accepts_advance (other : varNames [kind] = []) :
    Accepts table advance [kind] more (some kind) := by
  refine accepts_token other fun reader next => ?_
  rw [← next]
  rfl

end Tokens

-- Going through a rule, the tokens that are left to pass get fewer.
namespace Accepts

variable {α β : Type} {table : VarTable} {kinds more : List TokenKind} {kind : TokenKind} {a : α}

theorem of_pure : Accepts table (pure a) [] more a :=
  fun reader _ _ => ⟨reader, rfl, .refl reader⟩

theorem of_bind {rule : Parse β} {f : β → Parse α} {first later : List TokenKind} {b : β}
    (early : Accepts table rule first (later ++ more) b)
    (late : Accepts table (f b) later more a) :
    Accepts table (rule >>= f) (first ++ later) more a := by
  intro reader here extended
  rw [List.append_assoc] at here
  rw [varNames_append, VarTable.internAll_append] at extended
  obtain ⟨middle, read, passed⟩ :=
    early reader here (extended.trans (VarTable.extends_internAll _ _))
  have next : middle.kinds = later ++ more := List.append_cancel_left (passed.passed.symm.trans here)
  rw [← passed.table] at extended
  obtain ⟨after, read', passed'⟩ := late middle next extended
  exact ⟨after, parse_bind_ok read read', passed.trans passed'⟩

theorem of_nothing {rule : Parse β} {f : β → Parse α} {b : β}
    (early : Accepts table rule [] (kinds ++ more) b) (late : Accepts table (f b) kinds more a) :
    Accepts table (rule >>= f) kinds more a :=
  of_bind early late

theorem of_last {rule : Parse β} {f : β → Parse α} {b : β} (early : Accepts table rule kinds more b)
    (returned : f b = pure a) : Accepts table (rule >>= f) kinds more a := by
  intro reader here extended
  obtain ⟨after, read, passed⟩ := early reader here extended
  refine ⟨after, parse_bind_ok read ?_, passed⟩
  rw [returned]
  rfl

theorem of_peek {f : Option TokenKind → Parse α}
    (rest : Accepts table (f (kinds ++ more).head?) kinds more a) :
    Accepts table (peek >>= f) kinds more a := by
  intro reader here extended
  obtain ⟨after, read, passed⟩ := rest reader here extended
  rw [← here, ← reader.peek_eq] at read
  exact ⟨after, parse_bind_ok rfl read, passed⟩

theorem of_peekSecond {f : Option TokenKind → Parse α}
    (rest : Accepts table (f (kinds ++ more)[1]?) kinds more a) :
    Accepts table (peekSecond >>= f) kinds more a := by
  intro reader here extended
  obtain ⟨after, read, passed⟩ := rest reader here extended
  rw [← here, ← reader.peekSecond_eq] at read
  exact ⟨after, parse_bind_ok rfl read, passed⟩

theorem of_remaining {f : Nat → Parse α}
    (rest : ∀ bound, kinds.length ≤ bound → Accepts table (f bound) kinds more a) :
    Accepts table (remaining >>= f) kinds more a := by
  intro reader here extended
  have enough : kinds.length ≤ reader.kinds.length := by
    rw [here, List.length_append]
    exact Nat.le_add_right _ _
  rw [Reader.kinds, List.length_map] at enough
  obtain ⟨after, read, passed⟩ := rest _ enough reader here extended
  exact ⟨after, parse_bind_ok rfl read, passed⟩

theorem of_checkWord {word : String} {f : Bool → Parse α}
    (found : (kinds ++ more).head? = some (.word word))
    (rest : Accepts table (f true) kinds more a) :
    Accepts table (checkWord word >>= f) kinds more a := by
  intro reader here extended
  obtain ⟨after, read, passed⟩ := rest reader here extended
  rw [← here, ← reader.peek_eq] at found
  have checked : checkWord word reader = .ok (true, reader) :=
    congrArg (fun found => Except.ok (found, reader)) (decide_eq_true found)
  exact ⟨after, parse_bind_ok checked read, passed⟩

theorem of_otherWord {word : String} {f : Bool → Parse α}
    (other : (kinds ++ more).head? ≠ some (.word word))
    (rest : Accepts table (f false) kinds more a) :
    Accepts table (checkWord word >>= f) kinds more a := by
  intro reader here extended
  obtain ⟨after, read, passed⟩ := rest reader here extended
  rw [← here, ← reader.peek_eq] at other
  have checked : checkWord word reader = .ok (false, reader) :=
    congrArg (fun found => Except.ok (found, reader)) (decide_eq_false other)
  exact ⟨after, parse_bind_ok checked read, passed⟩

theorem of_skip {f : Unit → Parse α} (other : varNames [kind] = [])
    (rest : Accepts table (f ()) kinds more a) :
    Accepts table (skip >>= f) (kind :: kinds) more a :=
  of_bind (accepts_token other fun _ _ => rfl) rest

theorem of_expect {f : Unit → Parse α} (other : varNames [kind] = [])
    (rest : Accepts table (f ()) kinds more a) :
    Accepts table (expect kind >>= f) (kind :: kinds) more a :=
  of_bind (accepts_expect other) rest

theorem of_advance {f : Option TokenKind → Parse α} (other : varNames [kind] = [])
    (rest : Accepts table (f (some kind)) kinds more a) :
    Accepts table (advance >>= f) (kind :: kinds) more a :=
  of_bind (accepts_advance other) rest

/-- A variable of the table is entered where its name stands. -/
theorem of_variable {f : Option TokenKind → Parse α} {g : Var → Parse α} {v : Var}
    (distinct : table.names.Nodup) (small : v.index < table.size)
    (enters : f (some (.var (table.name v))) = internVar (table.name v) >>= g)
    (rest : Accepts table (g v) kinds more a) :
    Accepts table (advance >>= f) (.var (table.name v) :: kinds) more a := by
  intro reader here extended
  have next : reader.peek = some (.var (table.name v)) := by
    rw [reader.peek_eq, here]
    rfl
  have advanced : advance reader = .ok (some (.var (table.name v)), reader.skip) := by
    rw [← next]
    rfl
  obtain ⟨u, middle, entered⟩ : ∃ u middle, internVar (table.name v) reader.skip = .ok (u, middle) :=
    ⟨_, _, rfl⟩
  obtain ⟨passed, known⟩ := consumes_internVar next entered
  rw [varNames_cons, VarTable.internAll_append, ← passed.table] at extended
  obtain ⟨below, same⟩ := known table (extended.trans (VarTable.extends_internAll _ _))
  cases VarTable.eq_of_name_eq distinct below small same
  have left : middle.kinds = kinds ++ more :=
    List.append_cancel_left (passed.passed.symm.trans here)
  obtain ⟨after, read, passed'⟩ := rest middle left extended
  have continued : f (some (.var (table.name v))) reader.skip = .ok (a, after) := by
    rw [enters]
    exact parse_bind_ok entered read
  exact ⟨after, parse_bind_ok advanced continued, passed.trans passed'⟩

end Accepts

section Phrases

variable {table : VarTable} {kinds more : List TokenKind} {expr : Expr} {v : Var}

theorem accepts_dimensions (count bound : Nat) (enough : (brackets count).length ≤ bound)
    (ends : more.head? ≠ some .leftBracket) :
    Accepts table (dimensions bound) (brackets count) more count := by
  induction count generalizing bound with
  | zero =>
      cases bound with
      | zero => exact .of_pure
      | succ bound =>
          refine .of_peek (.of_peekSecond ?_)
          split
          · exact absurd ‹_› ends
          · exact .of_pure
  | succ count ih =>
      have step : brackets (count + 1) = .leftBracket :: .rightBracket :: brackets count := rfl
      rw [step] at enough ⊢
      cases bound with
      | zero => cases enough
      | succ bound =>
          have fewer := Nat.le_of_succ_le (Nat.le_of_succ_le_succ enough)
          exact .of_peek (.of_peekSecond (.of_skip rfl (.of_skip rfl (.of_last (ih bound fewer) rfl))))

theorem kind?_text (kind : ValueKind) : kind? (some (.word kind.text)) = some kind := by
  cases kind <;> decide

theorem Phrase.Ty.accepts {ty : ValueType} (spelled : Ty kinds ty)
    (ends : more.head? ≠ some .leftBracket) : Accepts table valueType kinds more ty := by
  cases spelled with
  | int64 dims =>
      refine .of_peek ?_
      have found : kind? ((.word "int64" :: brackets dims ++ more).head?) = some .int64 :=
        kind?_text .int64
      simp only [found]
      refine .of_skip rfl (.of_remaining fun bound enough => ?_)
      exact .of_last (accepts_dimensions dims bound enough ends) rfl
  | @plain kind other =>
      refine .of_peek ?_
      have found : kind? (([TokenKind.word kind.text] ++ more).head?) = some kind := kind?_text kind
      simp only [found]
      cases kind with
      | int64 => exact absurd rfl other
      | _ => exact .of_skip rfl .of_pure

theorem accepts_variableRef (distinct : table.names.Nodup) (small : v.index < table.size) :
    Accepts table variableRef [.var (table.name v)] more v := by
  unfold variableRef varName
  rw [bind_assoc]
  refine .of_variable distinct small ?_ .of_pure
  rw [bind_pure]
  exact pure_bind _ _

theorem Phrase.Operand.accepts (distinct : table.names.Nodup) (spelled : Operand table kinds expr) :
    Accepts table operand kinds more expr := by
  cases spelled with
  | var small => exact .of_variable distinct small rfl .of_pure
  | const n => exact .of_advance rfl .of_pure
  | label name => exact .of_advance rfl .of_pure
  | function name => exact .of_advance rfl .of_pure

theorem Phrase.Separated.accepts {α : Type} {item : List TokenKind → α → Prop} {rule : Parse α}
    {list : List α} (separated : Separated item kinds list) (bound : Nat)
    (enough : kinds.length ≤ bound) (ends : more.head? ≠ some .comma)
    (each : ∀ kinds more a, item kinds a → Accepts table rule kinds more a) :
    Accepts table (commaSeparated rule bound) kinds more list := by
  induction separated generalizing bound with
  | @one kinds a spelled =>
      cases bound with
      | zero => exact .of_last (each kinds more a spelled) rfl
      | succ bound =>
          rw [← List.append_nil kinds]
          refine .of_bind (each kinds _ a spelled) (.of_peek ?_)
          rw [List.nil_append, if_neg ends]
          exact .of_pure
  | @more kinds later a rest spelled separated ih =>
      cases bound with
      | zero => simp at enough
      | succ bound =>
          rw [List.length_append, List.length_cons] at enough
          refine .of_bind (each kinds _ a spelled) (.of_peek ?_)
          rw [List.cons_append, List.head?_cons, if_pos rfl]
          exact .of_skip rfl (.of_last (ih bound (by omega)) rfl)

theorem Phrase.Separated.exists_first {α : Type} {item : List TokenKind → α → Prop} {list : List α}
    (separated : Separated item kinds list) : ∃ first a rest, kinds = first ++ rest ∧ item first a := by
  cases separated with
  | one spelled => exact ⟨_, _, [], (List.append_nil _).symm, spelled⟩
  | more spelled separated => exact ⟨_, _, _, rfl, spelled⟩

theorem Phrase.Arguments.accepts (distinct : table.names.Nodup) {args : List Expr}
    (passed : Arguments table kinds args) : Accepts table arguments kinds more args := by
  cases passed with
  | none =>
      refine .of_expect rfl (.of_peek ?_)
      rw [List.cons_append, List.head?_cons, if_pos rfl, pure_bind]
      exact .of_expect rfl .of_pure
  | @some kinds args separated =>
      obtain ⟨first, a, rest, rfl, operand⟩ := separated.exists_first
      refine .of_expect rfl (.of_peek ?_)
      rw [if_neg]
      · refine .of_remaining fun bound enough => .of_bind ?_ (.of_expect rfl .of_pure)
        refine separated.accepts bound ?_ nofun fun _ _ _ => Operand.accepts distinct
        rw [List.length_append] at enough
        omega
      · cases operand <;> nofun

theorem Phrase.Callee.accepts (distinct : table.names.Nodup) {builtin : Bool}
    (spelled : Callee table kinds builtin expr) :
    Accepts table callee kinds more (builtin, expr) := by
  cases spelled with
  | builtin b =>
      refine .of_advance rfl ?_
      have found : Builtin.ofName? b.name = some b := by cases b <;> decide
      simp only [found]
      exact .of_pure
  | var small => exact .of_variable distinct small rfl .of_pure
  | function name => exact .of_advance rfl .of_pure

theorem Phrase.Call.accepts (distinct : table.names.Nodup) {builtin : Bool} {args : List Expr}
    (spelled : Call table kinds builtin expr args) :
    Accepts table call kinds more (builtin, expr, args) := by
  obtain ⟨callee, passed⟩ := spelled
  exact .of_expect rfl (.of_bind (callee.accepts distinct) (.of_last (passed.accepts distinct) rfl))

theorem Phrase.StackSlot.accepts (spelled : StackSlot kinds expr) :
    Accepts table slot kinds more expr := by
  obtain ⟨found⟩ := spelled
  refine .of_expect rfl (.of_expect rfl (.of_advance rfl ?_))
  simp only [found]
  exact .of_pure

theorem Phrase.Offsets.accepts (distinct : table.names.Nodup) {list : List Expr}
    (spelled : Offsets table kinds list) (bound : Nat) (enough : kinds.length ≤ bound)
    (ends : more.head? ≠ some .leftBracket) : Accepts table (offsets bound) kinds more list := by
  induction spelled generalizing bound with
  | nil =>
      cases bound with
      | zero => exact .of_pure
      | succ bound =>
          refine .of_peek ?_
          rw [List.nil_append, if_neg ends]
          exact .of_pure
  | cons operand spelled ih =>
      cases bound with
      | zero => cases enough
      | succ bound =>
          rw [List.length_cons, List.length_append, List.length_cons] at enough
          refine .of_peek ?_
          rw [List.cons_append, List.head?_cons, if_pos rfl]
          refine .of_skip rfl (.of_bind (operand.accepts distinct) (.of_expect rfl ?_))
          exact .of_last (ih bound (by omega)) rfl

theorem accepts_withOffsets_nil (base : Expr) (ends : more.head? ≠ some .leftBracket) :
    Accepts table (withOffsets base) [] more base := by
  refine .of_peek ?_
  split
  · exact absurd ‹_› ends
  · exact .of_pure

theorem Phrase.Offsets.accepts_withOffsets (distinct : table.names.Nodup) {list : List Expr}
    (spelled : Offsets table kinds list) (nonempty : list ≠ [])
    (ends : more.head? ≠ some .leftBracket) (v : Var) :
    Accepts table (withOffsets (.var v)) kinds more (.access (.var v) list) := by
  have follow : (kinds ++ more).head? = some .leftBracket := by
    cases spelled with
    | nil => exact absurd rfl nonempty
    | cons operand spelled => rfl
  refine .of_peek ?_
  rw [follow]
  exact .of_remaining fun bound enough => .of_last (spelled.accepts distinct bound enough ends) rfl

theorem Phrase.Place.accepts (distinct : table.names.Nodup) (spelled : Place table kinds expr)
    (ends : more.head? ≠ some .leftBracket) : Accepts table destination kinds more expr := by
  cases spelled with
  | slot slot =>
      have first : (kinds ++ more).head? = some (.word "mem") := by
        cases slot
        rfl
      exact .of_checkWord first slot.accepts
  | @var v small =>
      refine .of_otherWord nofun ?_
      exact .of_bind (accepts_variableRef distinct small) (accepts_withOffsets_nil (.var v) ends)
  | element element =>
      obtain ⟨small, offsets, nonempty⟩ := element
      refine .of_otherWord nofun ?_
      exact .of_bind (accepts_variableRef distinct small)
        (offsets.accepts_withOffsets distinct nonempty ends _)

theorem Phrase.Simple.accepts (distinct : table.names.Nodup) (spelled : Simple table kinds expr)
    (ends : more.head? ≠ some .leftBracket) :
    Accepts table (do withOffsets (← Source.operand)) kinds more expr := by
  cases spelled with
  | operand operand =>
      rw [← List.append_nil kinds]
      exact .of_bind (operand.accepts distinct) (accepts_withOffsets_nil expr ends)
  | element element =>
      obtain ⟨small, offsets, nonempty⟩ := element
      exact .of_bind ((Operand.var small).accepts distinct)
        (offsets.accepts_withOffsets distinct nonempty ends _)

/-- Operands start with none of the words that start other sources. -/
theorem Phrase.Simple.head? (spelled : Simple table kinds expr) (word : String) :
    (kinds ++ more).head? ≠ some (.word word) := by
  cases spelled with
  | operand operand => cases operand <;> nofun
  | element element =>
      cases element
      nofun

theorem ne_of_endsInstruction {next : Option TokenKind} {kind : TokenKind}
    (ends : endsInstruction next = true) (continues : endsInstruction (some kind) = false) :
    next ≠ some kind := by
  rintro rfl
  rw [continues] at ends
  cases ends

theorem eq_of_endsInstruction {next : Option TokenKind} (ends : endsInstruction next = true) :
    next = none ∨ next = some .newline ∨ next = some .rightBrace := by
  unfold endsInstruction at ends
  split at ends
  · exact .inl rfl
  · exact .inr (.inl rfl)
  · exact .inr (.inr rfl)
  · cases ends

theorem Phrase.Assigned.accepts (distinct : table.names.Nodup)
    (spelled : Assigned table kinds expr) (ends : endsInstruction more.head? = true) :
    Accepts table source kinds more expr := by
  refine .of_peek ?_
  cases spelled with
  | call call =>
      have first : (kinds ++ more).head? = some (.word "call") := by
        cases call
        rfl
      rw [first]
      exact .of_last (call.accepts distinct) rfl
  | slot slot =>
      have first : (kinds ++ more).head? = some (.word "mem") := by
        cases slot
        rfl
      rw [first]
      exact slot.accepts
  | length base dim =>
      exact .of_skip rfl (.of_bind (base.accepts distinct) (.of_last (dim.accepts distinct) rfl))
  | newArray passed =>
      exact .of_skip rfl (.of_peek (.of_skip rfl (.of_last (passed.accepts distinct) rfl)))
  | newTuple size =>
      refine .of_skip rfl (.of_peek (.of_skip rfl (.of_expect rfl ?_)))
      exact .of_bind (size.accepts distinct) (.of_expect rfl .of_pure)
  | simple simple =>
      split
      case h_5 =>
        rw [operation, ← bind_assoc, ← List.append_nil kinds]
        refine .of_bind (simple.accepts distinct (ne_of_endsInstruction ends rfl)) (.of_peek ?_)
        split
        · exact absurd ‹_› (ne_of_endsInstruction ends rfl)
        · exact .of_pure
      all_goals exact absurd ‹_› (simple.head? _)
  | binary simple operand =>
      split
      case h_5 =>
        rw [operation, ← bind_assoc]
        refine .of_bind (simple.accepts distinct (by simp)) (.of_peek (.of_skip rfl ?_))
        exact .of_last (operand.accepts distinct) rfl
      all_goals
        rename_i next
        rw [List.append_assoc] at next
        exact absurd next (simple.head? _)

theorem Phrase.Ty.head? {ty : ValueType} (spelled : Ty kinds ty) :
    (kinds ++ more).head? = some (.word ty.kind.text) := by
  cases spelled <;> rfl

theorem Phrase.Place.exists_first (spelled : Place table kinds expr) :
    ∃ first rest, kinds = first :: rest ∧ (first = .word "mem" ∨ ∃ name, first = .var name) := by
  cases spelled with
  | slot slot =>
      cases slot
      exact ⟨_, _, rfl, .inl rfl⟩
  | var small => exact ⟨_, _, rfl, .inr ⟨_, rfl⟩⟩
  | element element =>
      cases element
      exact ⟨_, _, rfl, .inr ⟨_, rfl⟩⟩

theorem Phrase.Instr.accepts (distinct : table.names.Nodup) {instruction : Instruction}
    (spelled : Instr table kinds instruction) (ends : endsInstruction more.head? = true) :
    Accepts table Source.instruction kinds more instruction := by
  refine .of_peek ?_
  cases spelled with
  | declare typed small =>
      rw [List.append_assoc, typed.head?, kind?_text, if_pos Option.isSome_some]
      exact .of_bind (typed.accepts nofun) (.of_last (accepts_variableRef distinct small) rfl)
  | call call =>
      have first : (kinds ++ more).head? = some (.word "call") := by
        cases call
        rfl
      rw [first, if_neg (by decide)]
      exact .of_checkWord first (.of_last (call.accepts distinct) rfl)
  | @assign first second target source place assigned =>
      have start : ∃ kind, (first ++ .arrow :: second ++ more).head? = some kind ∧
          kind? (some kind) = none ∧ kind ≠ .word "call" := by
        obtain ⟨kind, rest, rfl, start⟩ := place.exists_first
        refine ⟨kind, rfl, ?_⟩
        rcases start with rfl | ⟨name, rfl⟩
        · decide
        · exact ⟨rfl, nofun⟩
      obtain ⟨kind, head, untyped, other⟩ := start
      rw [head, untyped, if_neg (by decide)]
      refine .of_otherWord ?_ (.of_bind (place.accepts distinct nofun) (.of_expect rfl ?_))
      · rw [head]
        exact fun same => other (Option.some.inj same)
      · exact .of_last (assigned.accepts distinct ends) rfl

theorem accepts_terminator?_none (notReturn : more.head? ≠ some (.word "return"))
    (notBranch : more.head? ≠ some (.word "br")) : Accepts table terminator? [] more none :=
  .of_otherWord notReturn (.of_otherWord notBranch .of_pure)

theorem Phrase.Operand.continues (spelled : Operand table kinds expr) :
    ¬ endsInstruction (kinds ++ more).head? = true := by
  cases spelled <;> nofun

theorem Phrase.End.accepts (distinct : table.names.Nodup) {terminator : Terminator}
    (spelled : End table kinds terminator) (ends : endsInstruction more.head? = true) :
    Accepts table terminator? kinds more (some terminator) := by
  cases spelled with
  | ret =>
      refine .of_checkWord rfl (.of_skip rfl (.of_peek ?_))
      rw [List.nil_append, if_pos ends]
      exact .of_pure
  | retValue value =>
      refine .of_checkWord rfl (.of_skip rfl (.of_peek ?_))
      rw [if_neg value.continues]
      exact .of_last (value.accepts distinct) rfl
  | @jump kinds target operand =>
      rw [← List.append_nil kinds]
      refine .of_otherWord (by simp) (.of_checkWord rfl (.of_skip rfl ?_))
      refine .of_bind (operand.accepts distinct) (.of_peek ?_)
      rw [List.nil_append, if_pos ends]
      exact .of_pure
  | branch condition onTrue onFalse =>
      refine .of_otherWord (by simp) (.of_checkWord rfl (.of_skip rfl ?_))
      refine .of_bind (condition.accepts distinct) (.of_peek ?_)
      rw [List.append_assoc, if_neg onTrue.continues]
      exact .of_bind (onTrue.accepts distinct) (.of_last (onFalse.accepts distinct) rfl)

def startsInstruction : TokenKind → Bool
  | .var _ => true
  | .word word => word ∉ ["define", "return", "br"]
  | _ => false

theorem ne_of_startsInstruction {kind stop : TokenKind} (start : startsInstruction kind = true)
    (stops : startsInstruction stop = false) : some kind ≠ some stop := by
  rintro ⟨⟩
  rw [stops] at start
  cases start

theorem Phrase.Instr.exists_first {instruction : Instruction}
    (spelled : Instr table kinds instruction) :
    ∃ first rest, kinds = first :: rest ∧ startsInstruction first = true := by
  cases spelled with
  | declare typed small =>
      cases typed with
      | int64 dims => exact ⟨_, _, rfl, by decide⟩
      | @plain kind other => exact ⟨_, _, rfl, by cases kind <;> decide⟩
  | call call =>
      cases call
      exact ⟨_, _, rfl, by decide⟩
  | assign place assigned =>
      obtain ⟨first, rest, rfl, start⟩ := place.exists_first
      refine ⟨_, _, rfl, ?_⟩
      rcases start with rfl | ⟨name, rfl⟩
      · decide
      · rfl

theorem Phrase.End.exists_first {terminator : Terminator} (spelled : End table kinds terminator) :
    ∃ word rest, kinds = .word word :: rest ∧ word ≠ "define" := by
  cases spelled with
  | ret => exact ⟨_, _, rfl, by decide⟩
  | retValue value => exact ⟨_, _, rfl, by decide⟩
  | jump target => exact ⟨_, _, rfl, by decide⟩
  | branch condition onTrue onFalse => exact ⟨_, _, rfl, by decide⟩

end Phrases

section Lines

variable {kinds more : List TokenKind} {lines : List (List TokenKind)}

theorem skipNewlinesUpTo_eq (count bound : Nat) (enough : count ≤ bound) {reader : Reader}
    (here : reader.kinds = List.replicate count .newline ++ kinds)
    (visible : kinds.head? ≠ some .newline) :
    Consumes reader (List.replicate count .newline) (reader.skipNewlinesUpTo bound) := by
  induction count generalizing bound reader with
  | zero =>
      have next : reader.peek ≠ some .newline := by
        rw [reader.peek_eq, here]
        exact visible
      cases bound with
      | zero => exact .refl reader
      | succ bound =>
          rw [Reader.skipNewlinesUpTo, if_neg next]
          exact .refl reader
  | succ count ih =>
      have next : reader.peek = some .newline := by
        rw [reader.peek_eq, here]
        rfl
      have passed := Consumes.skip next rfl
      have left : reader.skip.kinds = List.replicate count .newline ++ kinds :=
        List.append_cancel_left (passed.passed.symm.trans here)
      cases bound with
      | zero => cases enough
      | succ bound =>
          rw [Reader.skipNewlinesUpTo, if_pos next]
          exact passed.trans (ih bound (Nat.le_of_succ_le_succ enough) left)

theorem skipNewlines_eq (count : Nat) {reader : Reader}
    (here : reader.kinds = List.replicate count .newline ++ kinds)
    (visible : kinds.head? ≠ some .newline) :
    Consumes reader (List.replicate count .newline) reader.skipNewlines := by
  refine skipNewlinesUpTo_eq count _ ?_ here visible
  have long := congrArg List.length here
  rw [Reader.kinds, List.length_map, List.length_append, List.length_replicate] at long
  omega

namespace Accepts

variable {α : Type} {table : VarTable} {a : α}

theorem of_endOfInstruction {count : Nat} {f : Unit → Parse α}
    (ends : endsInstruction (List.replicate count TokenKind.newline ++ (kinds ++ more)).head? = true)
    (visible : (kinds ++ more).head? ≠ some .newline)
    (rest : Accepts table (f ()) kinds more a) :
    Accepts table (endOfInstruction >>= f) (List.replicate count .newline ++ kinds) more a := by
  refine of_bind (fun reader here _ => ?_) rest
  have next := reader.peek_eq
  rw [here] at next
  cases count with
  | zero =>
      refine ⟨reader, parse_bind_eq_ok.mpr ⟨reader.peek, reader, rfl, ?_⟩, .refl reader⟩
      rw [next]
      rcases eq_of_endsInstruction ends with none | newline | brace
      · rw [none]
        rfl
      · exact absurd newline visible
      · rw [brace]
        rfl
  | succ count =>
      refine ⟨_, parse_bind_eq_ok.mpr ⟨reader.peek, reader, rfl, ?_⟩,
        skipNewlines_eq (count + 1) here visible⟩
      rw [next]
      rfl

theorem of_blockLabel {name : String} {rest : List TokenKind} {f : Option String → Parse α}
    (here : kinds ++ more = .label name :: rest) (ends : rest.head? ≠ some .arrow)
    (accepts : Accepts table (f (some name)) kinds more a) :
    Accepts table (blockLabel? >>= f) kinds more a := by
  have label : Accepts table blockLabel? [] (kinds ++ more) (some name) := by
    refine .of_peek (.of_peekSecond ?_)
    rw [List.nil_append, here, List.head?_cons, List.getElem?_cons_succ, ← List.head?_eq_getElem?]
    split
    · exact absurd ‹_› ends
    · rename_i same _
      cases same
      exact .of_pure
    · rename_i never _
      exact (never name rfl).elim
  exact of_nothing label accepts

theorem of_noLabel {f : Option String → Parse α}
    (other : ∀ name, (kinds ++ more).head? ≠ some (.label name))
    (accepts : Accepts table (f none) kinds more a) :
    Accepts table (blockLabel? >>= f) kinds more a := by
  have label : Accepts table blockLabel? [] (kinds ++ more) none := by
    refine .of_peek (.of_peekSecond ?_)
    split
    · exact .of_pure
    · exact absurd ‹_› (other _)
    · exact .of_pure
  exact of_nothing label accepts

end Accepts

theorem Phrase.Layout.exists_newlines (layout : Layout kinds lines)
    (starts : ∀ line ∈ lines.head?, ∃ first rest, line = first :: rest ∧ first ≠ .newline) :
    ∃ count rest, kinds = List.replicate count .newline ++ rest ∧ rest.head? ≠ some .newline ∧
      Layout rest lines := by
  induction layout with
  | nil => exact ⟨0, [], rfl, nofun, .nil⟩
  | newline layout ih =>
      obtain ⟨count, rest, rfl, visible, layout⟩ := ih starts
      exact ⟨count + 1, rest, rfl, visible, layout⟩
  | line ends layout ih =>
      obtain ⟨first, rest, rfl, visible⟩ := starts _ rfl
      refine ⟨0, _, rfl, ?_, .line ends layout⟩
      exact fun same => visible (Option.some.inj same)

theorem Phrase.Layout.exists_line {line : List TokenKind} (layout : Layout kinds (line :: lines))
    (visible : kinds.head? ≠ some .newline) :
    ∃ rest, kinds = line ++ rest ∧ LineEnds line rest.head? ∧ Layout rest lines := by
  cases layout with
  | newline layout => exact absurd rfl visible
  | line ends layout => exact ⟨_, rfl, ends, layout⟩

theorem Phrase.Layout.exists_next {line : List TokenKind} (layout : Layout kinds (line :: lines))
    (visible : kinds.head? ≠ some .newline) (inside : line.head? ≠ some (.word "define"))
    (before : line.head? ≠ some .rightBrace)
    (starts : ∀ line ∈ lines.head?, ∃ first rest, line = first :: rest ∧ first ≠ .newline) :
    ∃ count rest, kinds = line ++ (List.replicate count .newline ++ rest) ∧
      endsInstruction (List.replicate count TokenKind.newline ++ rest).head? = true ∧
      rest.head? ≠ some .newline ∧ Layout rest lines := by
  obtain ⟨after, rfl, ends, layout⟩ := layout.exists_line visible
  obtain ⟨count, rest, rfl, visible, layout⟩ := layout.exists_newlines starts
  exact ⟨count, rest, rfl, (ends.resolve_left inside).resolve_left before, visible, layout⟩

theorem Phrase.BodyLines.starts {table : VarTable} {current : Option OpenBlock}
    {blocks : List Block} (body : BodyLines table current lines blocks)
    (others : List (List TokenKind)) :
    ∀ line ∈ (lines ++ [.rightBrace] :: others).head?,
      ∃ first rest, line = first :: rest ∧ first ≠ .newline := by
  rintro line member
  cases body with
  | done =>
      cases member
      exact ⟨_, _, rfl, nofun⟩
  | label inside =>
      cases member
      exact ⟨_, _, rfl, nofun⟩
  | instr spelled inside =>
      cases member
      obtain ⟨first, rest, rfl, start⟩ := spelled.exists_first
      refine ⟨first, rest, rfl, ?_⟩
      rintro rfl
      cases start
  | last spelled inside =>
      cases member
      obtain ⟨word, rest, rfl, -⟩ := spelled.exists_first
      exact ⟨_, _, rfl, nofun⟩

theorem Phrase.BodyLines.label_mem {table : VarTable} {name : String} {instrs : List Instruction}
    {blocks : List Block} (body : BodyLines table (some ⟨name, instrs⟩) lines blocks) :
    name ∈ blocks.map Block.label := by
  generalize opened : some (OpenBlock.mk name instrs) = current at body
  induction body generalizing instrs with
  | done => cases opened
  | label inside ih => cases opened
  | instr spelled inside ih =>
      cases opened
      exact ih rfl
  | last spelled inside ih =>
      cases opened
      exact List.mem_cons_self

section Body

variable {table : VarTable} {name label : String} {bound count : Nat} {done blocks : List Block}
  {instrs : List Instruction} {line : List TokenKind}

theorem accepts_body_done :
    Accepts table (body name (bound + 1) done none) [.rightBrace] more done :=
  .of_peek (.of_noLabel nofun (.of_skip rfl .of_pure))

theorem accepts_body_label (absent : label ∉ done.map Block.label)
    (ends : endsInstruction (List.replicate count TokenKind.newline ++ (kinds ++ more)).head? = true)
    (visible : (kinds ++ more).head? ≠ some .newline)
    (rest : Accepts table (body name bound done (some ⟨label, []⟩)) kinds more blocks) :
    Accepts table (body name (bound + 1) done none)
      ([.label label] ++ (List.replicate count .newline ++ kinds)) more blocks := by
  refine .of_peek (.of_blockLabel rfl ?_ ?_)
  · rw [← List.append_assoc] at ends
    exact ne_of_endsInstruction ends rfl
  · have new : ¬ (done.any fun block => block.label == label) = true := by
      simpa using absent
    change Accepts table (if (done.any fun block => block.label == label) = true then _ else _) _ _ _
    rw [if_neg new]
    exact .of_skip rfl (.of_endOfInstruction ends visible rest)

theorem accepts_body_instr (distinct : table.names.Nodup) {instruction : Instruction}
    (spelled : Instr table line instruction)
    (ends : endsInstruction (List.replicate count TokenKind.newline ++ (kinds ++ more)).head? = true)
    (visible : (kinds ++ more).head? ≠ some .newline)
    (rest : Accepts table (body name bound done (some ⟨label, instrs ++ [instruction]⟩)) kinds more
      blocks) :
    Accepts table (body name (bound + 1) done (some ⟨label, instrs⟩))
      (line ++ (List.replicate count .newline ++ kinds)) more blocks := by
  obtain ⟨kind, tail, rfl, start⟩ := spelled.exists_first
  have plain : Accepts table terminator? []
      (kind :: tail ++ (List.replicate count .newline ++ kinds) ++ more) none :=
    accepts_terminator?_none (ne_of_startsInstruction start (by decide))
      (ne_of_startsInstruction start (by decide))
  have read : Accepts table Source.instruction (kind :: tail)
      (List.replicate count .newline ++ kinds ++ more) instruction := by
    rw [← List.append_assoc] at ends
    exact spelled.accepts distinct ends
  refine .of_peek (.of_noLabel (fun name => ne_of_startsInstruction start rfl) ?_)
  cases kind
  case var | word =>
    exact .of_nothing plain (.of_bind read (.of_endOfInstruction ends visible rest))
  all_goals cases start

theorem accepts_body_last (distinct : table.names.Nodup) {terminator : Terminator}
    (spelled : End table line terminator)
    (ends : endsInstruction (List.replicate count TokenKind.newline ++ (kinds ++ more)).head? = true)
    (visible : (kinds ++ more).head? ≠ some .newline)
    (rest : Accepts table (body name bound (done ++ [⟨label, instrs, terminator⟩]) none) kinds more
      blocks) :
    Accepts table (body name (bound + 1) done (some ⟨label, instrs⟩))
      (line ++ (List.replicate count .newline ++ kinds)) more blocks := by
  obtain ⟨word, tail, rfl, -⟩ := spelled.exists_first
  refine .of_peek (.of_noLabel nofun ?_)
  refine .of_bind (spelled.accepts distinct ?_) (.of_endOfInstruction ends visible rest)
  rwa [List.append_assoc]

def ReadsBody (table : VarTable) (name : String) (others : List (List TokenKind))
    (done : List Block) (current : Option OpenBlock) (lines : List (List TokenKind))
    (kinds : List TokenKind) (blocks : List Block) : Prop :=
  ∃ first more, kinds = first ++ more ∧ Layout more others ∧
    varNames first = varNames lines.flatten ∧
    ∀ bound, first.length ≤ bound → Accepts table (body name bound done current) first more blocks

theorem ReadsBody.of_line {others : List (List TokenKind)} {done' : List Block}
    {current current' : Option OpenBlock} (nonempty : line ≠ [])
    (rest : ReadsBody table name others done' current' lines kinds blocks)
    (step : ∀ bound first more, kinds = first ++ more →
      Accepts table (body name bound done' current') first more blocks →
      Accepts table (body name (bound + 1) done current)
        (line ++ (List.replicate count .newline ++ first)) more blocks) :
    ReadsBody table name others done current (line :: lines)
      (line ++ (List.replicate count .newline ++ kinds)) blocks := by
  obtain ⟨first, more, same, layout, names, accepts⟩ := rest
  refine ⟨line ++ (List.replicate count .newline ++ first), more, ?_, layout, ?_, ?_⟩
  · rw [same, List.append_assoc, List.append_assoc]
  · rw [varNames_append, varNames_append, varNames_newlines, names, List.flatten_cons,
      varNames_append, List.nil_append]
  · intro bound enough
    have long := List.length_pos_iff.mpr nonempty
    rw [List.length_append, List.length_append] at enough
    cases bound with
    | zero => omega
    | succ bound => exact step bound first more same (accepts bound (by omega))

end Body

theorem Phrase.BodyLines.accepts {table : VarTable} (distinct : table.names.Nodup) (name : String)
    {current : Option OpenBlock} {blocks : List Block} {others : List (List TokenKind)}
    (inside : BodyLines table current lines blocks) (done : List Block)
    (layout : Layout kinds (lines ++ [.rightBrace] :: others))
    (visible : kinds.head? ≠ some .newline)
    (labels : (done.map Block.label ++ blocks.map Block.label).Nodup) :
    ReadsBody table name others done current lines kinds (done ++ blocks) := by
  induction inside generalizing kinds done with
  | done =>
      obtain ⟨more, rfl, -, layout⟩ := layout.exists_line visible
      refine ⟨[.rightBrace], more, rfl, layout, rfl, fun bound enough => ?_⟩
      cases bound with
      | zero => cases enough
      | succ bound =>
          rw [List.append_nil]
          exact accepts_body_done
  | @label label lines blocks inside ih =>
      obtain ⟨count, rest, rfl, ends, visible, layout⟩ :=
        layout.exists_next visible nofun nofun (inside.starts others)
      refine .of_line nofun (ih _ layout visible labels) ?_
      rintro bound first more rfl accepts
      refine accepts_body_label ?_ ends visible accepts
      exact fun member => (List.nodup_append.mp labels).2.2 _ member _ inside.label_mem rfl
  | @instr label instrs line instruction lines blocks spelled inside ih =>
      obtain ⟨kind, tail, rfl, start⟩ := spelled.exists_first
      obtain ⟨count, rest, rfl, ends, visible, layout⟩ := layout.exists_next visible
        (ne_of_startsInstruction start (by decide)) (ne_of_startsInstruction start rfl)
        (inside.starts others)
      refine .of_line nofun (ih _ layout visible labels) ?_
      rintro bound first more rfl accepts
      exact accepts_body_instr distinct spelled ends visible accepts
  | @last label instrs line terminator lines blocks spelled inside ih =>
      obtain ⟨word, tail, rfl, other⟩ := spelled.exists_first
      obtain ⟨count, rest, rfl, ends, visible, layout⟩ := layout.exists_next visible
        (by simpa using other) nofun (inside.starts others)
      have again : ((done ++ [Block.mk label instrs terminator]).map Block.label ++
          blocks.map Block.label).Nodup := by
        simpa using labels
      have more := ih _ layout visible again
      rw [List.append_assoc, List.singleton_append] at more
      refine .of_line nofun more ?_
      rintro bound first more rfl accepts
      exact accepts_body_last distinct spelled ends visible accepts

theorem Phrase.BodyLines.of_instrs {table : VarTable} {name : String}
    {front instrs : List Instruction} {others : List (List TokenKind)} {blocks : List Block}
    (each : List.Forall₂ (Instr table) lines instrs)
    (rest : BodyLines table (some ⟨name, front ++ instrs⟩) others blocks) :
    BodyLines table (some ⟨name, front⟩) (lines ++ others) blocks := by
  induction each generalizing front with
  | nil => rwa [List.append_nil] at rest
  | cons spelled each ih =>
      rw [List.append_cons] at rest
      exact .instr spelled (ih rest)

theorem Phrase.BodyLines.of_blocks {table : VarTable} {parts : List (List (List TokenKind))}
    {blocks : List Block} (each : List.Forall₂ (BlockLines table) parts blocks) :
    BodyLines table none parts.flatten blocks := by
  induction each with
  | nil => exact .done
  | cons spelled each ih =>
      obtain ⟨instrs, last⟩ := spelled
      rw [List.flatten_cons, List.cons_append, List.append_assoc]
      exact .label (.of_instrs instrs (.last last ih))

end Lines

section Functions

variable {kinds more : List TokenKind} {lines others : List (List TokenKind)}

theorem Accepts.run {α : Type} {table : VarTable} {rule : Parse α} {a : α}
    (accepts : Accepts table rule kinds more a) {reader : Reader}
    (here : reader.kinds = kinds ++ more)
    (extended : table.Extends (reader.table.internAll (varNames kinds))) :
    ∃ after, rule reader = .ok (a, after) ∧ after.kinds = more ∧
      after.table = reader.table.internAll (varNames kinds) := by
  obtain ⟨after, read, passed⟩ := accepts reader here extended
  exact ⟨after, read, List.append_cancel_left (passed.passed.symm.trans here), passed.table⟩

/-- Where no variable is passed, the table does not matter. -/
theorem Accepts.run_nameless {α : Type} {rule : Parse α} {a : α}
    (accepts : ∀ table, Accepts table rule kinds more a) (nameless : varNames kinds = [])
    {reader : Reader} (here : reader.kinds = kinds ++ more) :
    ∃ after, rule reader = .ok (a, after) ∧ after.kinds = more ∧ after.table = reader.table := by
  obtain ⟨after, read, left, same⟩ := (accepts reader.table).run here (nameless ▸ .refl _)
  rw [nameless] at same
  exact ⟨after, read, left, same⟩

theorem accepts_skipNewlines {table : VarTable} (count : Nat)
    (visible : more.head? ≠ some .newline) :
    Accepts table skipNewlines (List.replicate count .newline) more () :=
  fun _ here _ => ⟨_, rfl, skipNewlines_eq count here visible⟩

theorem accepts_functionName {table : VarTable} (name : String) :
    Accepts table functionName [.function name] more name :=
  .of_last (accepts_advance rfl) rfl

theorem Phrase.Ty.varNames_eq {ty : ValueType} (spelled : Ty kinds ty) : varNames kinds = [] := by
  cases spelled with
  | int64 dims =>
      induction dims with
      | zero => rfl
      | succ dims ih => exact ih
  | plain other => rfl

theorem Phrase.Parameter.accepts {table : VarTable} (distinct : table.names.Nodup) {param : Param}
    (spelled : Parameter table kinds param) : Accepts table Source.param kinds more param := by
  obtain ⟨typed, small⟩ := spelled
  exact .of_bind (typed.accepts nofun) (.of_last (accepts_variableRef distinct small) rfl)

theorem Phrase.Parameters.accepts {table : VarTable} (distinct : table.names.Nodup)
    {params : List Param} (spelled : Parameters table kinds params)
    (ends : more.head? = Option.some .rightParen) : Accepts table Source.params kinds more params := by
  refine .of_peek ?_
  cases spelled with
  | none =>
      rw [List.nil_append, if_pos ends]
      exact .of_pure
  | some separated =>
      obtain ⟨first, param, rest, rfl, spelled⟩ := separated.exists_first
      obtain ⟨typed, -⟩ := spelled
      rw [if_neg]
      · refine .of_remaining fun bound enough => ?_
        refine separated.accepts bound enough ?_ fun _ _ _ => Parameter.accepts distinct
        rw [ends]
        nofun
      · rw [List.append_assoc, List.append_assoc, typed.head?]
        nofun

theorem Phrase.FunctionLines.reads {f : Function} (spelled : FunctionLines lines f)
    {reader : Reader} (layout : Layout reader.kinds (lines ++ others))
    (visible : reader.kinds.head? ≠ some .newline) :
    ∃ after, function reader = .ok (f, after) ∧ Layout after.kinds others ∧
      after.kinds.length < reader.kinds.length := by
  cases spelled with
  | @mk _ ret params parts typed listed each nonempty labels vars =>
      have distinct : f.vars.names.Nodup := vars ▸ VarTable.nodup_internAll List.nodup_nil _
      have inside := BodyLines.of_blocks each
      obtain ⟨rest, here, -, layout⟩ := layout.exists_line visible
      rw [List.append_eq, List.append_assoc] at layout
      obtain ⟨count, rest, rfl, visible, layout⟩ := layout.exists_newlines (inside.starts others)
      obtain ⟨body, more, rfl, layout, names, accepts⟩ :=
        inside.accepts distinct f.name [] layout visible labels
      have split : reader.kinds = [.word "define"] ++ (ret ++ ([.function f.name] ++ ([.leftParen] ++
          (params ++ ([.rightParen] ++ ([.leftBrace] ++ (List.replicate count .newline ++
          (body ++ more)))))))) := by
        rw [here]
        simp [headLine]
      obtain ⟨_, defined, left, -⟩ := Accepts.run_nameless (fun _ => accepts_expect rfl) rfl split
      obtain ⟨_, types, left, -⟩ :=
        Accepts.run_nameless (fun _ => typed.accepts (by simp)) typed.varNames_eq left
      obtain ⟨named, name, left, -⟩ :=
        Accepts.run_nameless (fun _ => accepts_functionName f.name) rfl left
      -- From here on the variables are entered into an empty table.
      have cleared : Reader.kinds { named with table := {} } = _ := left
      obtain ⟨_, opened, left, table⟩ :=
        Accepts.run_nameless (fun _ => accepts_expect rfl) rfl cleared
      obtain ⟨_, parameters, left, entered⟩ := (listed.accepts distinct rfl).run left (by
        rw [table, vars, varNames_append, VarTable.internAll_append]
        exact VarTable.extends_internAll _ _)
      obtain ⟨_, closed, left, paren⟩ := Accepts.run_nameless (fun _ => accepts_expect rfl) rfl left
      obtain ⟨_, braced, left, brace⟩ := Accepts.run_nameless (fun _ => accepts_expect rfl) rfl left
      obtain ⟨start, skipped, left, blank⟩ := Accepts.run_nameless
        (fun _ => accepts_skipNewlines count visible) (varNames_newlines count) left
      have final : f.vars = start.table.internAll (varNames body) := by
        rw [blank, brace, paren, entered, table, ← VarTable.internAll_append, names,
          ← varNames_append]
        exact vars
      have enough : body.length ≤ start.rest.length := by
        have long := congrArg List.length left
        rw [Reader.kinds, List.length_map, List.length_append] at long
        omega
      obtain ⟨after, blocks, left, total⟩ := (accepts _ enough).run left (final ▸ .refl _)
      refine ⟨after, ?_, left ▸ layout, ?_⟩
      · refine parse_bind_ok defined (parse_bind_ok types (parse_bind_ok name (parse_bind_ok rfl ?_)))
        refine parse_bind_ok opened (parse_bind_ok parameters (parse_bind_ok closed ?_))
        refine parse_bind_ok braced (parse_bind_ok skipped (parse_bind_ok rfl ?_))
        refine parse_bind_ok blocks ?_
        rw [List.nil_append, if_neg (by simpa using nonempty)]
        refine parse_bind_ok rfl ?_
        rw [total, ← final]
        rfl
      · rw [split, left]
        simp only [List.length_append, List.length_singleton]
        omega

theorem Phrase.FunctionLines.starts {parts : List (List (List TokenKind))}
    {functions : List Function} (each : List.Forall₂ FunctionLines parts functions) :
    ∀ line ∈ parts.flatten.head?, ∃ first rest, line = first :: rest ∧ first ≠ .newline := by
  rintro line member
  cases each with
  | nil => cases member
  | cons spelled each =>
      cases spelled
      cases member
      exact ⟨_, _, rfl, nofun⟩

theorem reads_functions {parts : List (List (List TokenKind))} {list : List Function}
    (each : List.Forall₂ FunctionLines parts list) (bound : Nat) {reader : Reader}
    (layout : Layout reader.kinds parts.flatten) (visible : reader.kinds.head? ≠ some .newline)
    (enough : reader.kinds.length ≤ bound) :
    ∃ after, functions bound reader = .ok (list, after) := by
  induction each generalizing bound reader with
  | nil =>
      have empty : reader.peek = none := by
        rw [reader.peek_eq]
        generalize reader.kinds = kinds at layout visible
        cases layout with
        | nil => rfl
        | newline layout => exact absurd rfl visible
      cases bound with
      | zero => exact ⟨reader, rfl⟩
      | succ bound =>
          refine ⟨reader, parse_bind_ok rfl ?_⟩
          rw [empty]
          rfl
  | cons spelled each ih =>
      obtain ⟨middle, first, layout, fewer⟩ := spelled.reads layout visible
      obtain ⟨count, rest, here, visible', layout⟩ := layout.exists_newlines (FunctionLines.starts each)
      obtain ⟨next, skipped, left, -⟩ := Accepts.run_nameless
        (fun _ => accepts_skipNewlines count visible') (varNames_newlines count) here
      rw [here, List.length_append] at fewer
      cases bound with
      | zero => omega
      | succ bound =>
          rw [← left] at layout visible' fewer
          obtain ⟨after, later⟩ := ih bound layout visible' (by omega)
          refine ⟨after, parse_bind_ok rfl ?_⟩
          rw [if_neg]
          · exact parse_bind_ok first (parse_bind_ok skipped (parse_bind_ok later rfl))
          · rw [reader.peek_eq, Option.isNone_iff_eq_none, List.head?_eq_none_iff]
            intro empty
            rw [empty] at fewer
            cases fewer

theorem Phrase.ProgramPhrase.reads {p : Program} {reader : Reader}
    (phrase : ProgramPhrase reader.kinds p) : ∃ after, program reader = .ok (p, after) := by
  generalize whole : reader.kinds = kinds at phrase
  obtain ⟨nonempty, each, layout⟩ := phrase
  obtain ⟨count, rest, rfl, visible, layout⟩ := layout.exists_newlines (FunctionLines.starts each)
  obtain ⟨start, skipped, left, -⟩ := Accepts.run_nameless
    (fun _ => accepts_skipNewlines count visible) (varNames_newlines count) whole
  rw [← left] at layout visible
  obtain ⟨after, read⟩ := reads_functions each start.rest.length layout visible
    (Nat.le_of_eq (List.length_map _))
  refine ⟨after, parse_bind_ok skipped (parse_bind_ok rfl (parse_bind_ok read ?_))⟩
  rw [if_neg (by simpa using nonempty)]
  rfl

end Functions

end Source

end Regalloc
