import Mathlib
import Regalloc.Proofs.NameTable
import Regalloc.Proofs.Phrases
import Regalloc.Proofs.ReadablePrograms

/-!
# What is read is a phrase

A rule of the grammar passes tokens that are a phrase for what it returns, and enters the
variables among them into the table in the order in which they stand. Nothing that is passed is
forgotten but line ends, so the lines of a program hold all its other tokens.
-/

namespace Regalloc

namespace Source

open Phrase

def Reader.kinds (reader : Reader) : List TokenKind :=
  reader.rest.map Token.kind

theorem Reader.peek_eq (reader : Reader) : reader.peek = reader.kinds.head? := by
  rw [peek, kinds, List.head?_map]

theorem Reader.peekSecond_eq (reader : Reader) : reader.peekSecond = reader.kinds[1]? := by
  rw [peekSecond, kinds, List.getElem?_map]

theorem varNames_append (first second : List TokenKind) :
    varNames (first ++ second) = varNames first ++ varNames second :=
  List.filterMap_append

theorem varNames_cons (kind : TokenKind) (kinds : List TokenKind) :
    varNames (kind :: kinds) = varNames [kind] ++ varNames kinds :=
  varNames_append [kind] kinds

theorem varNames_newlines (count : Nat) : varNames (List.replicate count .newline) = [] := by
  simp [varNames]

/-- A reader passes tokens and enters the variables among them into its table. -/
structure Consumes (reader : Reader) (kinds : List TokenKind) (after : Reader) : Prop where
  passed : reader.kinds = kinds ++ after.kinds
  table : after.table = reader.table.internAll (varNames kinds)

namespace Consumes

theorem refl (reader : Reader) : Consumes reader [] reader :=
  ⟨rfl, rfl⟩

theorem trans {first middle last : Reader} {early late : List TokenKind}
    (before : Consumes first early middle) (after : Consumes middle late last) :
    Consumes first (early ++ late) last where
  passed := by rw [before.passed, after.passed, List.append_assoc]
  table := by rw [after.table, before.table, varNames_append, VarTable.internAll_append]

theorem extended {reader after : Reader} {kinds : List TokenKind} {table : VarTable}
    (consumes : Consumes reader kinds after) (larger : table.Extends after.table) :
    table.Extends reader.table := by
  rw [consumes.table] at larger
  exact larger.trans (VarTable.extends_internAll _ _)

theorem skip {reader : Reader} {kind : TokenKind} (next : reader.peek = some kind)
    (other : varNames [kind] = []) : Consumes reader [kind] reader.skip := by
  obtain ⟨last, rest, table⟩ := reader
  cases rest with
  | nil => cases next
  | cons token rest =>
      cases next
      refine ⟨rfl, ?_⟩
      rw [other]
      rfl

end Consumes

section Steps

variable {reader after : Reader}

theorem peek_eq_ok {next : Option TokenKind} (read : peek reader = .ok (next, after)) :
    reader.peek = next ∧ reader = after := by
  cases read
  exact ⟨rfl, rfl⟩

theorem peekSecond_eq_ok {next : Option TokenKind}
    (read : peekSecond reader = .ok (next, after)) :
    reader.peekSecond = next ∧ reader = after := by
  cases read
  exact ⟨rfl, rfl⟩

theorem skip_eq_ok {done : Unit} (read : skip reader = .ok (done, after)) :
    reader.skip = after := by
  cases read
  rfl

theorem advance_eq_ok {next : Option TokenKind} (read : advance reader = .ok (next, after)) :
    reader.peek = next ∧ reader.skip = after := by
  cases read
  exact ⟨rfl, rfl⟩

theorem expect_eq_ok {kind : TokenKind} {done : Unit}
    (read : expect kind reader = .ok (done, after)) :
    reader.peek = some kind ∧ reader.skip = after := by
  obtain ⟨next, _, peeked, read⟩ := parse_bind_eq_ok.mp read
  obtain ⟨rfl, rfl⟩ := peek_eq_ok peeked
  split at read
  · rename_i same
    exact ⟨same, skip_eq_ok read⟩
  · cases read

theorem consumes_expect {kind : TokenKind} {done : Unit} (other : varNames [kind] = [])
    (read : expect kind reader = .ok (done, after)) : Consumes reader [kind] after := by
  obtain ⟨next, rfl⟩ := expect_eq_ok read
  exact .skip next other

theorem remaining_eq_ok {bound : Nat} (read : remaining reader = .ok (bound, after)) :
    reader.kinds.length = bound ∧ reader = after := by
  cases read
  exact ⟨List.length_map _, rfl⟩

theorem checkWord_eq_ok {word : String} {found : Bool}
    (read : checkWord word reader = .ok (found, after)) :
    (found = true ↔ reader.peek = some (.word word)) ∧ reader = after := by
  cases read
  exact ⟨decide_eq_true_iff, rfl⟩

theorem Reader.peek_skip (reader : Reader) : reader.skip.peek = reader.peekSecond := by
  obtain ⟨last, rest, table⟩ := reader
  cases rest with
  | nil => rfl
  | cons token rest => cases rest <;> rfl

theorem consumes_internVar {name : String} {v : Var} (next : reader.peek = some (.var name))
    (read : internVar name reader.skip = .ok (v, after)) :
    Consumes reader [.var name] after ∧ ∀ table : VarTable, table.Extends after.table →
      v.index < table.size ∧ table.name v = name := by
  cases read
  refine ⟨?_, fun table larger => larger.name_intern⟩
  obtain ⟨last, rest, table⟩ := reader
  cases rest with
  | nil => cases next
  | cons token rest =>
      have same : token.kind = .var name := Option.some.inj next
      refine ⟨?_, ?_⟩
      · rw [← same]
        rfl
      · rfl

end Steps

/-- At some token, a rule passes a phrase for what it returns, as any table says that extends the
one in which the variables of the phrase are entered. -/
def SpellsAt {α : Type} (next : Option TokenKind) (rule : Parse α)
    (phrase : VarTable → List TokenKind → α → Prop) : Prop :=
  ∀ reader a after, reader.peek = next → rule reader = .ok (a, after) →
    ∃ kinds, Consumes reader kinds after ∧
      ∀ table : VarTable, table.Extends after.table → phrase table kinds a

def Spells {α : Type} (rule : Parse α) (phrase : VarTable → List TokenKind → α → Prop) : Prop :=
  ∀ next, SpellsAt next rule phrase

-- Going through a rule, the phrase to be passed loses at its front what has been passed.
namespace SpellsAt

variable {α β : Type} {next : Option TokenKind} {kind : TokenKind}
  {phrase : VarTable → List TokenKind → α → Prop}

theorem of_pure {a : α} (done : ∀ table, phrase table [] a) : SpellsAt next (pure a) phrase := by
  intro reader _ after _ read
  cases read
  exact ⟨[], .refl _, fun table _ => done table⟩

theorem imp {rule : Parse α} {stronger : VarTable → List TokenKind → α → Prop}
    (spells : SpellsAt next rule stronger)
    (weaken : ∀ table kinds a, stronger table kinds a → phrase table kinds a) :
    SpellsAt next rule phrase := by
  intro reader a after here read
  obtain ⟨kinds, consumes, spelled⟩ := spells reader a after here read
  exact ⟨kinds, consumes, fun table larger => weaken table kinds a (spelled table larger)⟩

theorem of_refuse {refusal : Option TokenKind → Refusal} :
    SpellsAt next (refuse refusal) phrase :=
  fun _ _ _ _ read => absurd read refuse_ne_ok

theorem of_bind {rule : Parse β} {f : β → Parse α}
    {first : VarTable → List TokenKind → β → Prop} (spells : Spells rule first)
    (rest : ∀ b kinds, Spells (f b) fun table later a =>
      first table kinds b → phrase table (kinds ++ later) a) :
    SpellsAt next (rule >>= f) phrase := by
  intro reader a after _ read
  obtain ⟨b, middle, early, late⟩ := parse_bind_eq_ok.mp read
  obtain ⟨kinds, consumes, spelled⟩ := spells _ _ _ _ rfl early
  obtain ⟨later, consumes', spelled'⟩ := rest b kinds _ _ _ _ rfl late
  refine ⟨kinds ++ later, consumes.trans consumes', fun table larger => ?_⟩
  exact spelled' table larger (spelled table (consumes'.extended larger))

theorem of_peek {f : Option TokenKind → Parse α} (rest : SpellsAt next (f next) phrase) :
    SpellsAt next (peek >>= f) phrase := by
  intro reader a after here read
  obtain ⟨_, _, peeked, read⟩ := parse_bind_eq_ok.mp read
  obtain ⟨rfl, rfl⟩ := peek_eq_ok peeked
  subst here
  exact rest _ _ _ rfl read

theorem of_remaining {f : Nat → Parse α} (rest : ∀ bound, SpellsAt next (f bound) phrase) :
    SpellsAt next (remaining >>= f) phrase := by
  intro reader a after here read
  obtain ⟨bound, _, left, read⟩ := parse_bind_eq_ok.mp read
  obtain ⟨-, rfl⟩ := remaining_eq_ok left
  exact rest bound _ _ _ here read

theorem of_checkWord {word : String} {f : Bool → Parse α}
    (rest : ∀ found, (found = true → next = some (.word word)) → SpellsAt next (f found) phrase) :
    SpellsAt next (checkWord word >>= f) phrase := by
  intro reader a after here read
  obtain ⟨found, _, checked, read⟩ := parse_bind_eq_ok.mp read
  obtain ⟨same, rfl⟩ := checkWord_eq_ok checked
  exact rest found (fun yes => here.symm.trans (same.mp yes)) _ _ _ here read

theorem of_skip {f : Unit → Parse α} (other : varNames [kind] = [])
    (rest : Spells (f ()) fun table kinds => phrase table (kind :: kinds)) :
    SpellsAt (some kind) (skip >>= f) phrase := by
  intro reader a after here read
  obtain ⟨_, _, skipped, read⟩ := parse_bind_eq_ok.mp read
  cases skip_eq_ok skipped
  obtain ⟨kinds, consumes, spelled⟩ := rest _ _ _ _ rfl read
  exact ⟨kind :: kinds, (Consumes.skip here other).trans consumes, spelled⟩

theorem of_expect {f : Unit → Parse α} (other : varNames [kind] = [])
    (rest : Spells (f ()) fun table kinds => phrase table (kind :: kinds)) :
    SpellsAt next (expect kind >>= f) phrase := by
  intro reader a after _ read
  obtain ⟨_, _, passed, read⟩ := parse_bind_eq_ok.mp read
  obtain ⟨kinds, consumes, spelled⟩ := rest _ _ _ _ rfl read
  exact ⟨kind :: kinds, (consumes_expect other passed).trans consumes, spelled⟩

end SpellsAt

theorem spells_dimensions (bound : Nat) :
    Spells (dimensions bound) fun _ kinds count => kinds = brackets count := by
  induction bound with
  | zero => exact fun _ => .of_pure fun _ => rfl
  | succ bound ih =>
      intro next reader count after _ read
      obtain ⟨_, _, peeked, read⟩ := parse_bind_eq_ok.mp read
      obtain ⟨first, rfl⟩ := peek_eq_ok peeked
      obtain ⟨_, _, peeked, read⟩ := parse_bind_eq_ok.mp read
      obtain ⟨second, rfl⟩ := peekSecond_eq_ok peeked
      split at read
      · obtain ⟨_, _, skipped, read⟩ := parse_bind_eq_ok.mp read
        cases skip_eq_ok skipped
        obtain ⟨_, _, skipped, read⟩ := parse_bind_eq_ok.mp read
        cases skip_eq_ok skipped
        obtain ⟨count, _, rest, read⟩ := parse_bind_eq_ok.mp read
        cases read
        obtain ⟨kinds, consumes, spelled⟩ := ih _ _ _ _ rfl rest
        have opened := Consumes.skip first rfl
        have closed := Consumes.skip (reader.peek_skip.trans second) rfl
        refine ⟨_, (opened.trans closed).trans consumes, fun table larger => ?_⟩
        rw [spelled table larger]
        rfl
      · cases read
        exact ⟨[], .refl _, fun _ _ => rfl⟩

theorem kind?_eq_some {next : Option TokenKind} {kind : ValueKind} (found : kind? next = some kind) :
    next = some (.word kind.text) := by
  unfold kind? at found
  split at found
  · have same := List.find?_some found
    rw [beq_iff_eq.mp same]
  · cases found

theorem spells_valueType : Spells valueType fun _ kinds ty => Ty kinds ty := by
  refine fun next => .of_peek ?_
  cases found : kind? next with
  | none => exact .of_refuse
  | some kind =>
      cases kind?_eq_some found
      cases kind with
      | int64 =>
          refine .of_skip rfl fun _ => .of_remaining fun bound => ?_
          refine .of_bind (spells_dimensions bound) fun dims kinds _ => .of_pure fun _ same => ?_
          rw [same, List.append_nil]
          exact .int64 dims
      | _ => exact .of_skip rfl fun _ => .of_pure fun _ => .plain nofun

theorem spells_variableRef :
    Spells variableRef fun table kinds v => v.index < table.size ∧ kinds = [.var (table.name v)] := by
  intro next reader v after _ read
  obtain ⟨name, _, named, read⟩ := parse_bind_eq_ok.mp read
  obtain ⟨_, _, advanced, named⟩ := parse_bind_eq_ok.mp named
  obtain ⟨same, rfl⟩ := advance_eq_ok advanced
  split at named
  · cases named
    obtain ⟨consumes, known⟩ := consumes_internVar same read
    refine ⟨_, consumes, fun table larger => ?_⟩
    obtain ⟨small, rfl⟩ := known table larger
    exact ⟨small, rfl⟩
  · exact absurd named refuseLast_ne_ok

theorem spells_operand : Spells operand Operand := by
  intro next reader expr after _ read
  obtain ⟨_, _, advanced, read⟩ := parse_bind_eq_ok.mp read
  obtain ⟨same, rfl⟩ := advance_eq_ok advanced
  split at read
  · obtain ⟨v, _, entered, read⟩ := parse_bind_eq_ok.mp read
    cases read
    obtain ⟨consumes, known⟩ := consumes_internVar same entered
    refine ⟨_, consumes, fun table larger => ?_⟩
    obtain ⟨small, rfl⟩ := known table larger
    exact .var small
  · cases read
    exact ⟨_, .skip same rfl, fun _ _ => .const _⟩
  · cases read
    exact ⟨_, .skip same rfl, fun _ _ => .label _⟩
  · cases read
    exact ⟨_, .skip same rfl, fun _ _ => .function _⟩
  · exact absurd read refuseLast_ne_ok

theorem spells_commaSeparated {α : Type} {item : Parse α}
    {phrase : VarTable → List TokenKind → α → Prop} (spells : Spells item phrase) (bound : Nat) :
    Spells (commaSeparated item bound) fun table => Separated (phrase table) := by
  induction bound with
  | zero =>
      refine fun next => .of_bind spells fun a kinds _ => .of_pure fun table spelled => ?_
      rw [List.append_nil]
      exact .one spelled
  | succ bound ih =>
      refine fun next => .of_bind spells fun a kinds next => .of_peek ?_
      split
      · subst next
        refine .of_skip rfl fun _ => .of_bind ih fun list later _ => .of_pure ?_
        intro table others spelled
        rw [List.append_nil]
        exact .more spelled others
      · refine .of_pure fun table spelled => ?_
        rw [List.append_nil]
        exact .one spelled

theorem spells_arguments : Spells arguments Arguments := by
  refine fun _ => .of_expect rfl fun next => .of_peek ?_
  split
  · rw [pure_bind]
    exact .of_expect rfl fun _ => .of_pure fun _ => .none
  · refine .of_remaining fun bound => ?_
    refine .of_bind (spells_commaSeparated spells_operand bound) fun args kinds _ => ?_
    exact .of_expect rfl fun _ => .of_pure fun _ separated => .some separated

theorem spells_callee :
    Spells callee fun table kinds called => Callee table kinds called.1 called.2 := by
  intro next reader called after _ read
  obtain ⟨_, _, advanced, read⟩ := parse_bind_eq_ok.mp read
  obtain ⟨same, rfl⟩ := advance_eq_ok advanced
  split at read
  · obtain ⟨v, _, entered, read⟩ := parse_bind_eq_ok.mp read
    cases read
    obtain ⟨consumes, known⟩ := consumes_internVar same entered
    refine ⟨_, consumes, fun table larger => ?_⟩
    obtain ⟨small, rfl⟩ := known table larger
    exact .var small
  · cases read
    exact ⟨_, .skip same rfl, fun _ _ => .function _⟩
  · rename_i name
    cases found : Builtin.ofName? name with
    | none =>
        simp only [found] at read
        exact absurd read refuseLast_ne_ok
    | some builtin =>
        simp only [found] at read
        cases read
        have named := List.find?_some found
        cases beq_iff_eq.mp named
        exact ⟨_, .skip same rfl, fun _ _ => .builtin builtin⟩
  · exact absurd read refuseLast_ne_ok

theorem spells_call :
    Spells call fun table kinds read => Call table kinds read.1 read.2.1 read.2.2 := by
  refine fun _ => .of_expect rfl fun _ => .of_bind spells_callee fun called kinds _ => ?_
  refine .of_bind spells_arguments fun args later _ => .of_pure fun table passed callee => ?_
  rw [List.append_nil]
  exact .mk callee passed

theorem spells_slot : Spells slot fun _ kinds expr => StackSlot kinds expr := by
  refine fun _ => .of_expect rfl fun _ => .of_expect rfl fun _ => ?_
  intro reader expr after _ read
  obtain ⟨_, _, advanced, read⟩ := parse_bind_eq_ok.mp read
  obtain ⟨same, rfl⟩ := advance_eq_ok advanced
  split at read
  · rename_i offset
    cases found : slotAt? offset with
    | none =>
        simp only [found] at read
        exact absurd read refuseLast_ne_ok
    | some slot =>
        simp only [found] at read
        cases read
        exact ⟨_, .skip same rfl, fun _ _ => .mk found⟩
  · exact absurd read refuseLast_ne_ok

theorem spells_offsets (bound : Nat) : Spells (offsets bound) Offsets := by
  induction bound with
  | zero => exact fun _ => .of_pure fun _ => .nil
  | succ bound ih =>
      refine fun next => .of_peek ?_
      split
      · subst next
        refine .of_skip rfl fun _ => .of_bind spells_operand fun offset kinds _ => ?_
        refine .of_expect rfl fun _ => .of_bind ih fun list later _ => .of_pure ?_
        intro table others operand
        rw [List.append_nil]
        exact .cons operand others
      · exact .of_pure fun _ => .nil

theorem offsets_ne_nil {reader after : Reader} {list : List Expr}
    (next : reader.peek = some .leftBracket)
    (read : offsets reader.kinds.length reader = .ok (list, after)) : list ≠ [] := by
  obtain ⟨last, rest, table⟩ := reader
  cases rest with
  | nil => cases next
  | cons token rest =>
      obtain ⟨_, _, peeked, read⟩ := parse_bind_eq_ok.mp read
      obtain ⟨rfl, rfl⟩ := peek_eq_ok peeked
      rw [if_pos next] at read
      obtain ⟨_, _, -, read⟩ := parse_bind_eq_ok.mp read
      obtain ⟨_, _, -, read⟩ := parse_bind_eq_ok.mp read
      obtain ⟨_, _, -, read⟩ := parse_bind_eq_ok.mp read
      obtain ⟨_, _, -, read⟩ := parse_bind_eq_ok.mp read
      cases read
      exact List.cons_ne_nil _ _

theorem spells_withOffsets (base : Expr) :
    Spells (withOffsets base) fun table kinds expr => kinds = [] ∧ expr = base ∨
      ∃ v list, base = .var v ∧ expr = .access (.var v) list ∧
        Offsets table kinds list ∧ list ≠ [] := by
  intro next reader expr after _ read
  obtain ⟨_, _, peeked, read⟩ := parse_bind_eq_ok.mp read
  obtain ⟨same, rfl⟩ := peek_eq_ok peeked
  split at read
  · obtain ⟨bound, _, left, read⟩ := parse_bind_eq_ok.mp read
    obtain ⟨rfl, rfl⟩ := remaining_eq_ok left
    obtain ⟨list, _, listed, read⟩ := parse_bind_eq_ok.mp read
    cases read
    obtain ⟨kinds, consumes, spelled⟩ := spells_offsets _ _ _ _ _ rfl listed
    refine ⟨kinds, consumes, fun table larger => .inr ⟨_, list, rfl, rfl, ?_⟩⟩
    exact ⟨spelled table larger, offsets_ne_nil same listed⟩
  · cases read
    exact ⟨[], .refl _, fun _ _ => .inl ⟨rfl, rfl⟩⟩

theorem spells_destination : Spells destination Place := by
  refine fun next => .of_checkWord fun found _ => ?_
  split
  · exact (spells_slot next).imp fun _ _ _ => .slot
  · refine .of_bind spells_variableRef fun v kinds next => (spells_withOffsets _ next).imp ?_
    rintro table later expr (⟨rfl, rfl⟩ | ⟨_, list, same, rfl, indices, some⟩) ⟨small, rfl⟩
    · exact .var small
    · cases same
      exact .element (.mk small indices some)

theorem spells_simple : Spells (do withOffsets (← operand)) Simple := by
  refine fun _ => .of_bind spells_operand fun base kinds next => (spells_withOffsets _ next).imp ?_
  rintro table later expr (⟨rfl, rfl⟩ | ⟨v, list, rfl, rfl, indices, some⟩) operand
  · rw [List.append_nil]
    exact .operand operand
  · cases operand with
    | var small => exact .element (.mk small indices some)

theorem spells_newAggregate :
    Spells newAggregate fun table kinds => Assigned table (.word "new" :: kinds) := by
  refine fun next => .of_peek ?_
  split
  · refine .of_skip rfl fun _ => .of_bind spells_arguments fun dims kinds _ => .of_pure ?_
    intro table passed
    rw [List.append_nil]
    exact .newArray passed
  · refine .of_skip rfl fun _ => .of_expect rfl fun _ => ?_
    refine .of_bind spells_operand fun size kinds _ => ?_
    exact .of_expect rfl fun _ => .of_pure fun table operand => .newTuple operand
  · exact .of_refuse

theorem spells_operation : Spells operation Assigned := by
  intro next
  rw [operation, ← bind_assoc]
  refine .of_bind spells_simple fun left first next => .of_peek ?_
  split
  · refine .of_skip rfl fun _ => .of_bind spells_operand fun right second _ => .of_pure ?_
    intro table operand simple
    rw [List.append_nil]
    exact .binary simple operand
  · refine .of_pure fun table simple => ?_
    rw [List.append_nil]
    exact .simple simple

theorem spells_source : Spells source Assigned := by
  refine fun next => .of_peek ?_
  split
  · refine .of_bind spells_call fun read kinds _ => .of_pure fun table call => ?_
    rw [List.append_nil]
    exact .call call
  · exact (spells_slot _).imp fun _ _ _ => .slot
  · refine .of_skip rfl fun _ => .of_bind spells_operand fun base first _ => ?_
    refine .of_bind spells_operand fun dim second _ => .of_pure fun table right left => ?_
    rw [List.append_nil]
    exact .length left right
  · exact .of_skip rfl spells_newAggregate
  · exact spells_operation next

theorem spells_instruction : Spells instruction Instr := by
  refine fun next => .of_peek ?_
  split
  · refine .of_bind spells_valueType fun ty kinds _ => ?_
    refine .of_bind spells_variableRef fun v later _ => .of_pure ?_
    rintro table ⟨small, rfl⟩ spelled
    exact .declare spelled small
  · refine .of_checkWord fun found _ => ?_
    split
    · refine .of_bind spells_call fun read kinds _ => .of_pure fun table call => ?_
      rw [List.append_nil]
      exact .call call
    · refine .of_bind spells_destination fun target first _ => .of_expect rfl fun _ => ?_
      refine .of_bind spells_source fun source second _ => .of_pure fun table assigned place => ?_
      rw [List.append_nil]
      exact .assign place assigned

theorem spells_terminator? :
    Spells terminator? fun table kinds read =>
      (read = none ∧ kinds = []) ∨ ∃ terminator, read = some terminator ∧
        End table kinds terminator := by
  refine fun next => .of_checkWord fun found here => ?_
  split
  · cases here ‹_›
    refine .of_skip rfl fun next => .of_peek ?_
    split
    · exact .of_pure fun _ => .inr ⟨_, rfl, .ret⟩
    · refine .of_bind spells_operand fun value kinds _ => .of_pure fun table operand => ?_
      rw [List.append_nil]
      exact .inr ⟨_, rfl, .retValue operand⟩
  · refine .of_checkWord fun found here => ?_
    split
    · cases here ‹_›
      refine .of_skip rfl fun _ => .of_bind spells_operand fun target first next => .of_peek ?_
      split
      · refine .of_pure fun table operand => ?_
        rw [List.append_nil]
        exact .inr ⟨_, rfl, .jump operand⟩
      · refine .of_bind spells_operand fun onTrue second _ => ?_
        refine .of_bind spells_operand fun onFalse third _ => .of_pure ?_
        intro table last middle condition
        rw [List.append_nil]
        exact .inr ⟨_, rfl, .branch condition middle last⟩
    · exact .of_pure fun _ => .inl ⟨rfl, rfl⟩

theorem Consumes.head? {reader after : Reader} {kinds : List TokenKind}
    (consumes : Consumes reader kinds after) : kinds.head? = none ∨ kinds.head? = reader.peek := by
  cases kinds with
  | nil => exact .inl rfl
  | cons kind kinds =>
      rw [reader.peek_eq, consumes.passed]
      exact .inr rfl

theorem consumes_skipNewlinesUpTo (bound : Nat) (reader : Reader) :
    ∃ count, Consumes reader (List.replicate count .newline) (reader.skipNewlinesUpTo bound) := by
  induction bound generalizing reader with
  | zero => exact ⟨0, .refl reader⟩
  | succ bound ih =>
      unfold Reader.skipNewlinesUpTo
      split
      · obtain ⟨count, consumes⟩ := ih reader.skip
        exact ⟨count + 1, (Consumes.skip ‹_› rfl).trans consumes⟩
      · exact ⟨0, .refl reader⟩

theorem consumes_skipNewlines {reader : Reader} (next : reader.peek = some .newline) :
    ∃ count, Consumes reader (List.replicate (count + 1) .newline) reader.skipNewlines := by
  obtain ⟨last, rest, table⟩ := reader
  cases rest with
  | nil => cases next
  | cons token rest =>
      obtain ⟨count, consumes⟩ := consumes_skipNewlinesUpTo rest.length (Reader.skip ⟨last, _, table⟩)
      refine ⟨count, ?_⟩
      rw [Reader.skipNewlines, List.length_cons, Reader.skipNewlinesUpTo, if_pos next]
      exact (Consumes.skip next rfl).trans consumes

theorem skipNewlines_eq_ok {reader after : Reader} {done : Unit}
    (read : skipNewlines reader = .ok (done, after)) :
    ∃ count, Consumes reader (List.replicate count .newline) after := by
  cases read
  exact consumes_skipNewlinesUpTo _ reader

namespace SpellsAt

variable {α : Type} {next : Option TokenKind} {phrase : VarTable → List TokenKind → α → Prop}

/-- After an instruction come line ends, unless nothing but a closing brace may come. -/
theorem of_endOfInstruction {f : Unit → Parse α}
    (rest : ∀ count, Spells (f ()) fun table kinds a =>
      endsInstruction (List.replicate count TokenKind.newline ++ kinds).head? = true →
        phrase table (List.replicate count .newline ++ kinds) a) :
    SpellsAt next (endOfInstruction >>= f) phrase := by
  intro reader a after _ read
  obtain ⟨_, middle, passed, read⟩ := parse_bind_eq_ok.mp read
  obtain ⟨_, _, peeked, passed⟩ := parse_bind_eq_ok.mp passed
  obtain ⟨same, rfl⟩ := peek_eq_ok peeked
  have ended : ∃ count, Consumes reader (List.replicate count .newline) middle ∧
      (count = 0 → endsInstruction middle.peek = true) := by
    split at passed
    · cases passed
      exact ⟨0, .refl reader, fun _ => by rw [same]; rfl⟩
    · cases passed
      obtain ⟨count, consumes⟩ := consumes_skipNewlines same
      exact ⟨count + 1, consumes, nofun⟩
    · cases passed
      exact ⟨0, .refl reader, fun _ => by rw [same]; rfl⟩
    · exact absurd passed refuse_ne_ok
  obtain ⟨count, early, ends⟩ := ended
  obtain ⟨kinds, late, spelled⟩ := rest count _ _ _ _ rfl read
  refine ⟨_, early.trans late, fun table larger => spelled table larger ?_⟩
  cases count with
  | succ count => rfl
  | zero =>
      rw [List.replicate_zero, List.nil_append]
      obtain empty | same := late.head?
      · rw [empty]
        rfl
      · rw [same]
        exact ends rfl

theorem of_blockLabel? {f : Option String → Parse α}
    (rest : ∀ label, (∀ name, label = some name → next = some (.label name)) →
      SpellsAt next (f label) phrase) :
    SpellsAt next (blockLabel? >>= f) phrase := by
  intro reader a after here read
  obtain ⟨label, middle, labelled, read⟩ := parse_bind_eq_ok.mp read
  have known : (∀ name, label = some name → next = some (.label name)) ∧ reader = middle := by
    obtain ⟨_, _, peeked, labelled⟩ := parse_bind_eq_ok.mp labelled
    obtain ⟨first, rfl⟩ := peek_eq_ok peeked
    obtain ⟨_, _, peeked, labelled⟩ := parse_bind_eq_ok.mp labelled
    obtain ⟨-, rfl⟩ := peekSecond_eq_ok peeked
    split at labelled
    · cases labelled
      exact ⟨nofun, rfl⟩
    · cases labelled
      refine ⟨fun name same => ?_, rfl⟩
      cases same
      exact here.symm.trans first
    · cases labelled
      exact ⟨nofun, rfl⟩
  obtain ⟨known, rfl⟩ := known
  exact rest label known _ _ _ here read

end SpellsAt

theorem Phrase.Layout.newlines {kinds : List TokenKind} {lines : List (List TokenKind)}
    (layout : Layout kinds lines) (count : Nat) :
    Layout (List.replicate count .newline ++ kinds) lines := by
  induction count with
  | zero => exact layout
  | succ count ih => exact .newline ih

theorem Phrase.Layout.instruction (line : List TokenKind) {kinds : List TokenKind}
    {lines : List (List TokenKind)} {count : Nat} (layout : Layout kinds lines)
    (ends : endsInstruction (List.replicate count TokenKind.newline ++ kinds).head? = true) :
    Layout (line ++ (List.replicate count .newline ++ kinds)) (line :: lines) :=
  .line (.inr (.inr ends)) (layout.newlines count)

theorem spells_body (name : String) (bound : Nat) (done : List Block)
    (current : Option OpenBlock) :
    Spells (body name bound done current) fun table kinds blocks =>
      ∃ lines more, Layout kinds (lines ++ [[.rightBrace]]) ∧ blocks = done ++ more ∧
        BodyLines table current lines more := by
  induction bound generalizing done current with
  | zero => exact fun _ => .of_refuse
  | succ bound ih =>
      refine fun next => .of_peek (.of_blockLabel? fun label here => ?_)
      split
      · exact .of_refuse
      · refine .of_skip rfl fun _ => .of_pure fun table => ?_
        have closing : Layout ([.rightBrace] ++ []) [[.rightBrace]] := .line (.inr (.inl rfl)) .nil
        exact ⟨[], [], closing, (List.append_nil done).symm, .done⟩
      · exact .of_refuse
      · exact .of_refuse
      · cases here _ rfl
        split
        · exact .of_refuse
        · refine .of_skip rfl fun _ => .of_endOfInstruction fun count next => ?_
          refine (ih _ _ next).imp ?_
          rintro table kinds blocks ⟨lines, more, layout, same, inside⟩ ends
          exact ⟨_ :: lines, more, layout.instruction [.label _] ends, same, .label inside⟩
      · exact .of_refuse
      · refine .of_bind spells_terminator? fun read line next => ?_
        split
        · refine .of_endOfInstruction fun count next => (ih _ _ next).imp ?_
          rintro table kinds blocks ⟨lines, more, layout, rfl, rest⟩ ends
            (⟨same, -⟩ | ⟨terminator, same, spelled⟩)
          · cases same
          · cases same
            refine ⟨line :: lines, _, layout.instruction line ends, ?_, .last spelled rest⟩
            rw [List.append_assoc, List.singleton_append]
        · refine .of_bind spells_instruction fun instruction line' next => ?_
          refine .of_endOfInstruction fun count next => (ih _ _ next).imp ?_
          rintro table kinds blocks ⟨lines, more, layout, rfl, rest⟩ ends spelled
            (⟨-, rfl⟩ | ⟨_, same, -⟩)
          · exact ⟨line' :: lines, more, layout.instruction line' ends, rfl, .instr spelled rest⟩
          · cases same

theorem spells_param : Spells param Parameter := by
  refine fun _ => .of_bind spells_valueType fun ty kinds _ => ?_
  refine .of_bind spells_variableRef fun v later _ => .of_pure ?_
  rintro table ⟨small, rfl⟩ spelled
  exact .mk spelled small

theorem spells_params : Spells params Parameters := by
  refine fun next => .of_peek ?_
  split
  · exact .of_pure fun _ => .none
  · refine .of_remaining fun bound => ?_
    exact (spells_commaSeparated spells_param bound next).imp fun _ _ _ => .some

inductive Opened (table : VarTable) : Option OpenBlock → List (List TokenKind) → Prop
  | none : Opened table none []
  | some {name : String} {lines : List (List TokenKind)} {instrs : List Instruction} :
      List.Forall₂ (Instr table) lines instrs →
      Opened table (some ⟨name, instrs⟩) ([.label name] :: lines)

theorem Phrase.BodyLines.blockLines {table : VarTable} {current : Option OpenBlock}
    {lines opened : List (List TokenKind)} {blocks : List Block}
    (body : BodyLines table current lines blocks) (before : Opened table current opened) :
    ∃ parts, List.Forall₂ (BlockLines table) parts blocks ∧ opened ++ lines = parts.flatten := by
  induction body generalizing opened with
  | done =>
      cases before
      exact ⟨[], .nil, rfl⟩
  | label inside ih =>
      cases before
      exact ih (.some .nil)
  | instr spelled inside ih =>
      cases before with
      | some instrs =>
          have longer := List.rel_append instrs (.cons spelled .nil)
          obtain ⟨parts, blocks, same⟩ := ih (.some longer)
          refine ⟨parts, blocks, ?_⟩
          rw [← same, List.append_cons]
          rfl
  | last spelled inside ih =>
      cases before with
      | some instrs =>
          obtain ⟨parts, blocks, same⟩ := ih .none
          refine ⟨_ :: parts, .cons (.mk instrs spelled) blocks, ?_⟩
          rw [List.flatten_cons, ← same]
          simp

namespace Phrase.Layout

variable {kinds more : List TokenKind} {lines others : List (List TokenKind)}

theorem sublist (layout : Layout kinds lines) : lines.flatten.Sublist kinds := by
  induction layout with
  | nil => exact .slnil
  | newline layout ih => exact ih.cons _
  | line ends layout ih => exact ih.append_left _

theorem varNames_eq (layout : Layout kinds lines) : varNames kinds = varNames lines.flatten := by
  induction layout with
  | nil => rfl
  | newline layout ih => exact ih
  | line ends layout ih => rw [List.flatten_cons, varNames_append, varNames_append, ih]

theorem ne_nil (layout : Layout kinds (lines ++ [[.rightBrace]])) : kinds ≠ [] := by
  rintro rfl
  have none := List.sublist_nil.mp layout.sublist
  simp at none

theorem after_newlines (empty : Layout kinds []) (layout : Layout more others) :
    Layout (kinds ++ more) others := by
  generalize none : [] = lines at empty
  induction empty with
  | nil => exact layout
  | newline empty ih => exact .newline (ih none)
  | line => cases none

theorem append (first : Layout kinds (lines ++ [[.rightBrace]])) (second : Layout more others) :
    Layout (kinds ++ more) (lines ++ [.rightBrace] :: others) := by
  generalize all : lines ++ [[.rightBrace]] = closed at first
  induction first generalizing lines with
  | nil => cases List.append_ne_nil_of_right_ne_nil lines (List.cons_ne_nil _ _) all
  | newline first ih => exact .newline (ih all)
  | @line line kinds rest ends first ih =>
      rw [List.append_assoc]
      cases lines with
      | nil =>
          cases all
          exact .line (.inr (.inl rfl)) (first.after_newlines second)
      | cons head lines =>
          cases all
          refine .line ?_ (ih rfl)
          rwa [List.head?_append_of_ne_nil _ first.ne_nil]

end Phrase.Layout

theorem functionName_eq_ok {reader after : Reader} {name : String}
    (read : functionName reader = .ok (name, after)) :
    Consumes reader [.function name] after := by
  obtain ⟨_, _, advanced, read⟩ := parse_bind_eq_ok.mp read
  obtain ⟨same, rfl⟩ := advance_eq_ok advanced
  split at read
  · cases read
    exact .skip same rfl
  · exact absurd read refuse_ne_ok

theorem layout_of_function {reader after : Reader} {f : Function}
    (read : function reader = .ok (f, after)) :
    ∃ kinds lines, reader.kinds = kinds ++ after.kinds ∧ Layout kinds lines ∧
      FunctionLines lines f := by
  have readable := readable_of_function read
  have some := blocks_ne_nil_of_function read
  obtain ⟨_, _, defined, read⟩ := parse_bind_eq_ok.mp read
  have defined := consumes_expect rfl defined
  obtain ⟨_, _, typed, read⟩ := parse_bind_eq_ok.mp read
  obtain ⟨ret, typing, typed⟩ := spells_valueType _ _ _ _ rfl typed
  obtain ⟨name, _, named, read⟩ := parse_bind_eq_ok.mp read
  have head := defined.trans (typing.trans (functionName_eq_ok named))
  -- From here on the variables are entered into an empty table.
  obtain ⟨_, _, cleared, read⟩ := parse_bind_eq_ok.mp read
  cases cleared
  obtain ⟨_, _, opened, read⟩ := parse_bind_eq_ok.mp read
  have opened := consumes_expect rfl opened
  obtain ⟨_, _, listed, read⟩ := parse_bind_eq_ok.mp read
  obtain ⟨params, listing, listed⟩ := spells_params _ _ _ _ rfl listed
  obtain ⟨_, _, closed, read⟩ := parse_bind_eq_ok.mp read
  have closed := consumes_expect rfl closed
  obtain ⟨_, _, braced, read⟩ := parse_bind_eq_ok.mp read
  have braced := consumes_expect rfl braced
  obtain ⟨_, _, skipped, read⟩ := parse_bind_eq_ok.mp read
  obtain ⟨count, skipped⟩ := skipNewlines_eq_ok skipped
  obtain ⟨bound, _, left, read⟩ := parse_bind_eq_ok.mp read
  obtain ⟨-, rfl⟩ := remaining_eq_ok left
  obtain ⟨blocks, _, inside, read⟩ := parse_bind_eq_ok.mp read
  obtain ⟨kinds, body, inside⟩ := spells_body _ _ _ _ _ _ _ _ rfl inside
  have rest := opened.trans (listing.trans (closed.trans (braced.trans (skipped.trans body))))
  split at read
  · exact absurd read refuse_ne_ok
  obtain ⟨_, _, got, read⟩ := parse_bind_eq_ok.mp read
  cases got
  cases read
  obtain ⟨lines, _, layout, rfl, inside⟩ := inside _ (.refl _)
  obtain ⟨parts, blocks, same⟩ := inside.blockLines .none
  have whole : Layout (headLine ret name params ++ (List.replicate count .newline ++ kinds))
      (headLine ret name params :: (lines ++ [[.rightBrace]])) :=
    .line (.inl rfl) (layout.newlines count)
  refine ⟨_, _, ?_, whole, ?_⟩
  · rw [head.passed]
    refine (congrArg _ rest.passed).trans ?_
    simp [headLine]
  · rw [List.nil_append] at same
    subst same
    refine .mk (typed _ (.refl _)) (listed _ ?_) blocks some readable.distinct ?_
    · exact (closed.trans (braced.trans (skipped.trans body))).extended (.refl _)
    · refine rest.table.trans (congrArg _ ?_)
      simp only [varNames_append, layout.varNames_eq, varNames_newlines, List.flatten_append]
      simp [varNames]

theorem Phrase.FunctionLines.closed {lines : List (List TokenKind)} {f : Function}
    (spelled : FunctionLines lines f) : ∃ front, lines = front ++ [[.rightBrace]] := by
  cases spelled
  exact ⟨_, (List.cons_append).symm⟩

theorem layout_of_functions (bound : Nat) {reader after : Reader} {list : List Function}
    (enough : reader.kinds.length ≤ bound) (read : functions bound reader = .ok (list, after)) :
    ∃ parts, Layout reader.kinds parts.flatten ∧ List.Forall₂ FunctionLines parts list := by
  induction bound generalizing reader list with
  | zero =>
      cases read
      rw [List.eq_nil_of_length_eq_zero (Nat.le_zero.mp enough)]
      exact ⟨[], .nil, .nil⟩
  | succ bound ih =>
      obtain ⟨_, _, peeked, read⟩ := parse_bind_eq_ok.mp read
      obtain ⟨same, rfl⟩ := peek_eq_ok peeked
      split at read
      · rename_i absent
        cases read
        rw [← same, Reader.peek_eq, Option.isNone_iff_eq_none, List.head?_eq_none_iff] at absent
        rw [absent]
        exact ⟨[], .nil, .nil⟩
      · obtain ⟨f, _, first, read⟩ := parse_bind_eq_ok.mp read
        obtain ⟨_, _, skipped, read⟩ := parse_bind_eq_ok.mp read
        obtain ⟨rest, _, later, read⟩ := parse_bind_eq_ok.mp read
        cases read
        obtain ⟨kinds, lines, passed, layout, spelled⟩ := layout_of_function first
        obtain ⟨count, skipped⟩ := skipNewlines_eq_ok skipped
        obtain ⟨front, rfl⟩ := spelled.closed
        have some := List.length_pos_iff.mpr layout.ne_nil
        rw [passed, skipped.passed, List.length_append, List.length_append] at enough
        obtain ⟨parts, others, each⟩ := ih (by omega) later
        refine ⟨_ :: parts, ?_, .cons spelled each⟩
        rw [passed, skipped.passed, List.flatten_cons, List.append_assoc]
        exact layout.append (others.newlines count)

/-- The tokens of a program that is read are laid out in the lines of its functions. -/
theorem layout_of_program {reader after : Reader} {p : Program}
    (read : program reader = .ok (p, after)) : ProgramPhrase reader.kinds p := by
  obtain ⟨_, _, skipped, read⟩ := parse_bind_eq_ok.mp read
  obtain ⟨count, skipped⟩ := skipNewlines_eq_ok skipped
  obtain ⟨_, _, left, read⟩ := parse_bind_eq_ok.mp read
  obtain ⟨rfl, rfl⟩ := remaining_eq_ok left
  obtain ⟨list, _, listed, read⟩ := parse_bind_eq_ok.mp read
  obtain ⟨parts, layout, each⟩ := layout_of_functions _ (Nat.le_refl _) listed
  split at read
  · exact absurd read refuse_ne_ok
  · rename_i some
    cases read
    rw [skipped.passed]
    exact .mk (fun empty => some (List.isEmpty_iff.mpr empty)) each (layout.newlines count)

end Source

end Regalloc
