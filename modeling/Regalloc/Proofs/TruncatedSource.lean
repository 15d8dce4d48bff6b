import Mathlib
import Regalloc.Proofs.TruncatedReading

/-!
# Text that stops short

When a function or a request that can be read is cut off, what is left is refused on the line of
its final token. The refusal says that the text ended, unless a variable, an operand or a callee
is missing: then it takes the final token for the one that does not fit.
-/

namespace Regalloc.Source

section Operands

theorem truncates_varName : Truncates Spent varName := by
  refine .of_advance (fun next reader => ?_) fun reader empty => .of_refuseLast empty fun _ => rfl
  split
  · exact .of_pure _
  · exact .of_refuseLast

theorem truncates_variableRef : Truncates Spent variableRef :=
  truncates_varName.before fun name => truncates_internVar name

theorem truncates_operand : Truncates Spent operand := by
  refine .of_advance (fun next reader => ?_) fun reader empty => .of_refuseLast empty fun _ => rfl
  split
  · exact .before (truncates_internVar _) fun _ => .of_pure _
  · exact .of_pure _
  · exact .of_pure _
  · exact .of_pure _
  · exact .of_refuseLast

theorem length_operand_lt {reader after : Reader} {expr : Expr}
    (read : operand reader = .ok (expr, after)) : after.rest.length < reader.rest.length := by
  obtain ⟨table, kinds, spelled, lengths⟩ := spells_operand.length_eq read
  cases spelled <;> simp at lengths <;> omega

theorem truncates_closing {α : Type} (a : α) :
    Truncates Spent (do expect .rightParen; return a) :=
  (truncates_expect _).before fun _ => .of_pure a

theorem truncates_arguments : Truncates Spent arguments := by
  refine (truncates_expect _).before fun _ =>
    .of_peek_ite (Option.some_ne_none _).symm (fun reader => ?_) ?_
  · rw [pure_bind]
    exact (truncates_closing []).meets reader
  · rw [← bind_assoc]
    exact (truncates_commaSeparated truncates_operand fun _ _ _ => length_operand_lt).before
      truncates_closing

theorem truncates_callee : Truncates Spent callee := by
  refine .of_advance (fun next reader => ?_) fun reader empty => .of_refuseLast empty fun _ => rfl
  split
  · exact .before (truncates_internVar _) fun _ => .of_pure _
  · exact .of_pure _
  · split
    · exact .of_pure _
    · exact .of_refuseLast
  · exact .of_refuseLast

theorem truncates_call : Truncates Spent call := by
  refine (truncates_expect _).before fun _ => truncates_callee.before fun called => ?_
  exact truncates_arguments.before fun args => .of_pure _

theorem truncates_slot : Truncates Spent slot := by
  refine (truncates_expect _).before fun _ => (truncates_expect _).before fun _ => ?_
  refine .of_advance (fun next reader => ?_) fun reader empty => ?_
  · split
    · split
      · exact .of_pure _
      · exact .of_refuseLast
    · exact .of_refuseLast
  · exact .of_refuseLast empty fun _ => trivial

theorem ends_offsets (bound : Nat) {reader : Reader} (empty : reader.rest = []) :
    Ends Spent reader (offsets bound) := by
  cases bound with
  | zero => exact .of_pure empty
  | succ bound =>
      refine .of_peek empty ?_
      rw [if_neg (Option.some_ne_none _).symm]
      exact .of_pure empty

theorem meets_offsets (reader : Reader) (bound bound' : Nat) (enough : reader.rest.length ≤ bound)
    (larger : bound ≤ bound') : Meets Spent reader (offsets bound') (offsets bound) := by
  induction bound generalizing reader bound' with
  | zero => exact .of_ends (ends_offsets 0 (List.length_eq_zero_iff.mp (Nat.le_zero.mp enough)))
  | succ bound ih =>
      obtain ⟨bound', rfl⟩ := Nat.exists_eq_succ_of_ne_zero (Nat.ne_zero_of_lt larger)
      have closed : ∀ offset (after : Reader), after.rest = [] → Ends Spent after (do
          expect .rightBracket
          return offset :: (← offsets bound)) := fun offset after spent =>
        ((truncates_expect _).ends after spent).bind fun _ _ spent =>
          (ends_offsets bound spent).bind fun _ _ spent => .of_pure spent
      refine (truncates_peek.meets reader).bind (fun next same peeked => ?_) ?_
      · obtain ⟨-, rfl⟩ := peek_eq_ok peeked
        split
        · refine (truncates_skip.meets reader).bind (fun _ left skipped => ?_) ?_
          · cases skip_eq_ok skipped
            refine (truncates_operand.meets _).bind (fun offset after read => ?_) closed
            refine ((truncates_expect _).meets after).bind (fun _ last closes => ?_) ?_
            · obtain ⟨-, rfl⟩ := expect_eq_ok closes
              have first := length_skip_le reader
              have second := length_operand_lt read
              have third := length_skip_le after
              refine (ih _ bound' (by omega) (Nat.le_of_succ_le_succ larger)).bind ?_ ?_
              · exact fun _ _ _ => .of_pure _
              · exact fun _ _ spent => .of_pure spent
            · exact fun _ _ spent => (ends_offsets bound spent).bind fun _ _ spent => .of_pure spent
          · exact fun _ after spent => (truncates_operand.ends after spent).bind closed
        · exact .of_pure _
      · rintro _ after ⟨rfl, spent⟩
        rw [if_neg (Option.some_ne_none _).symm]
        exact .of_pure spent

theorem truncates_offsets : Truncates Spent (do offsets (← remaining)) :=
  .of_remaining meets_offsets fun _ empty => ends_offsets 0 empty

theorem truncates_withOffsets (base : Expr) : Truncates Spent (withOffsets base) := by
  refine .of_peek (fun next reader => ?_) fun reader empty => ?_
  · split
    · rw [← bind_assoc]
      exact .before truncates_offsets fun list => .of_pure _
    · exact .of_pure _
  · cases base <;> exact .of_pure empty

theorem truncates_destination : Truncates Spent destination := by
  refine .of_checkWord (fun reader => truncates_slot.meets reader) ?_
  exact truncates_variableRef.before fun v => truncates_withOffsets _

theorem truncates_newAggregate : Truncates Spent newAggregate := by
  refine .of_peek (fun next reader => ?_) fun reader empty => .of_refuse empty fun _ => rfl
  split
  · refine .before truncates_skip fun _ => truncates_arguments.before fun dims => ?_
    exact .of_pure _
  · refine .before truncates_skip fun _ => (truncates_expect _).before fun _ => ?_
    exact truncates_operand.before fun size => truncates_closing _
  · exact .of_refuse

theorem truncates_operation : Truncates Spent operation := by
  refine truncates_operand.before fun base => (truncates_withOffsets base).before fun left => ?_
  refine .of_peek (fun next reader => ?_) fun reader empty => .of_pure empty
  split
  · exact .before truncates_skip fun _ => truncates_operand.before fun right => .of_pure _
  · exact .of_pure _

theorem truncates_source : Truncates Spent source := by
  refine .of_peek (fun next reader => ?_) truncates_operation.ends
  split
  · exact .before truncates_call fun _ => .of_pure _
  · exact truncates_slot.meets reader
  · refine .before truncates_skip fun _ => truncates_operand.before fun base => ?_
    exact truncates_operand.before fun dim => .of_pure _
  · exact .before truncates_skip fun _ => truncates_newAggregate
  · exact truncates_operation.meets reader

end Operands

section Types

/-- No token is left, or nothing but a bracket that is not closed. -/
def HalfOpen {α : Type} (_ : α) (reader : Reader) : Prop :=
  reader.rest = [] ∨ ∃ line, reader.rest = [⟨.leftBracket, line⟩]

def Reader.Bracketed (reader : Reader) : Prop :=
  reader.peek = some .leftBracket ∧ reader.peekSecond = some .rightBracket

theorem dimensions_of_bracketed {reader : Reader} (pair : reader.Bracketed) (bound : Nat) :
    dimensions (bound + 1) reader = (do return (← dimensions bound) + 1) reader.skip.skip := by
  have first : peek reader = .ok (reader.peek, reader) := rfl
  have second : peekSecond reader = .ok (reader.peekSecond, reader) := rfl
  rw [dimensions, parse_bind_of_ok first, parse_bind_of_ok second, pair.1, pair.2]
  rfl

theorem dimensions_of_other {reader : Reader} (other : ¬reader.Bracketed) (bound : Nat) :
    dimensions (bound + 1) reader = .ok (0, reader) := by
  have first : peek reader = .ok (reader.peek, reader) := rfl
  have second : peekSecond reader = .ok (reader.peekSecond, reader) := rfl
  rw [dimensions, parse_bind_of_ok first, parse_bind_of_ok second]
  rw [Reader.Bracketed] at other
  generalize reader.peek = kind, reader.peekSecond = kind' at other
  split
  · exact absurd ⟨rfl, rfl⟩ other
  · rfl

/-- More tokens make a difference only where a bracket is half open. -/
theorem bracketed_more (reader : Reader) (extra : List Token) :
    reader.Bracketed ∧ (reader.more extra).Bracketed ∧
        (reader.more extra).skip.skip = reader.skip.skip.more extra ∨
      ¬reader.Bracketed ∧ (HalfOpen () reader ∨ ¬(reader.more extra).Bracketed) := by
  obtain ⟨last, rest, table⟩ := reader
  match rest with
  | [] => exact .inr ⟨nofun, .inl (.inl rfl)⟩
  | [⟨kind, line⟩] =>
      refine .inr ⟨nofun, ?_⟩
      by_cases opened : kind = .leftBracket
      · exact .inl (.inr ⟨line, by rw [opened]⟩)
      · exact .inr fun pair => opened (Option.some.inj pair.1)
  | first :: second :: rest =>
      by_cases pair : Reader.Bracketed ⟨last, first :: second :: rest, table⟩
      · exact .inl ⟨pair, pair, rfl⟩
      · exact .inr ⟨pair, .inr pair⟩

theorem ends_dimensions (bound : Nat) {reader : Reader} (empty : reader.rest = []) :
    Ends HalfOpen reader (dimensions bound) := by
  cases bound with
  | zero => exact .of_pure (.inl empty)
  | succ bound => exact .of_peek empty (.of_pure (.inl empty))

theorem meets_dimensions (reader : Reader) (bound bound' : Nat)
    (enough : reader.rest.length ≤ bound) (larger : bound ≤ bound') :
    Meets HalfOpen reader (dimensions bound') (dimensions bound) := by
  induction bound generalizing reader bound' with
  | zero => exact .of_ends (ends_dimensions 0 (List.length_eq_zero_iff.mp (Nat.le_zero.mp enough)))
  | succ bound ih =>
      obtain ⟨bound', rfl⟩ := Nat.exists_eq_succ_of_ne_zero (Nat.ne_zero_of_lt larger)
      intro extra count after longer read
      rcases bracketed_more reader extra with ⟨pair, pair', same⟩ | ⟨other, half | other'⟩
      · have rest : Meets HalfOpen reader.skip.skip (do return (← dimensions bound') + 1)
            (do return (← dimensions bound) + 1) := by
          have shorter : reader.skip.skip.rest.length ≤ bound := by
            have first := length_skip_le reader.skip
            have second : reader.skip.rest.length < reader.rest.length :=
              length_skip_lt fun empty => by simp [Reader.Bracketed, Reader.peek, empty] at pair
            omega
          exact (ih _ bound' shorter (Nat.le_of_succ_le_succ larger)).bind
            (fun _ _ _ => .of_pure _) fun _ _ half => .of_pure half
        rw [dimensions_of_bracketed pair', same] at read
        rw [Ends, dimensions_of_bracketed pair, ← reader.final_skip, ← reader.skip.final_skip]
        exact rest extra count after longer read
      · exact .inr (.inl ⟨0, reader, dimensions_of_other other bound, half, rfl⟩)
      · rw [dimensions_of_other other'] at read
        cases read
        exact .inl ⟨reader, dimensions_of_other other bound, rfl, rfl⟩

theorem truncates_dimensions : Truncates HalfOpen (do dimensions (← remaining)) :=
  .of_remaining meets_dimensions fun _ empty => ends_dimensions 0 empty

theorem truncates_valueType : Truncates HalfOpen valueType := by
  refine .of_peek (fun next reader => ?_) fun reader empty => .of_refuse empty fun _ => rfl
  split
  · exact .of_refuse
  · refine (truncates_skip.meets reader).bind (fun _ shorter _ => ?_) fun _ after spent => ?_
    · rw [← bind_assoc]
      exact (truncates_dimensions.meets shorter).bind (fun _ _ _ => .of_pure _)
        fun _ _ half => .of_pure half
    · rw [← bind_assoc]
      exact (truncates_dimensions.ends after spent).bind fun _ _ half => .of_pure half
  · exact (truncates_skip.meets reader).bind (fun _ _ _ => .of_pure _)
      fun _ _ spent => .of_pure (.inl spent)

theorem ends_varName {reader : Reader} (half : HalfOpen () reader) :
    Ends Spent reader varName := by
  obtain ⟨last, rest, table⟩ := reader
  rcases half with empty | ⟨line, rfl⟩
  · exact truncates_varName.ends _ empty
  · exact .inr ⟨⟨line, .variableExpected (some .leftBracket)⟩, rfl, rfl, rfl⟩

/-- A type is followed by a rule that refuses a bracket. -/
theorem Truncates.after_valueType {α β : Type} {rule : Parse α} {next : ValueType → α → Parse β}
    (first : Truncates Spent rule) (half : ∀ reader, HalfOpen () reader → Ends Spent reader rule)
    (rest : ∀ ty a, Truncates Spent (next ty a)) :
    Truncates Spent (do let ty ← valueType; let a ← rule; next ty a) := by
  refine truncates_valueType.bind (fun ty reader => ?_) fun ty reader opened => ?_
  · exact .before first fun a => rest ty a
  · exact (half reader opened).bind fun a after spent => (rest ty a).ends after spent

theorem truncates_typed {α : Type} (result : ValueType → Var → α) : Truncates Spent (do
    let ty ← valueType
    let v ← variableRef
    return result ty v) := by
  refine .after_valueType truncates_variableRef (fun reader half => ?_) fun ty v => .of_pure _
  exact (ends_varName half).bind fun name after spent => (truncates_internVar name).ends after spent

theorem truncates_functionName : Truncates Spent functionName := by
  refine .of_advance (fun next reader => ?_) fun reader empty => .of_refuse empty fun _ => trivial
  split
  · exact .of_pure _
  · exact .of_refuse

theorem ends_functionName {reader : Reader} (half : HalfOpen () reader) :
    Ends Spent reader functionName := by
  obtain ⟨last, rest, table⟩ := reader
  rcases half with empty | ⟨line, rfl⟩
  · exact truncates_functionName.ends _ empty
  · exact .inr ⟨⟨line, .functionNameExpected⟩, rfl, rfl, trivial⟩

end Types

section Lines

theorem truncates_instruction : Truncates Spent instruction := by
  refine .of_peek_ite Bool.false_ne_true (truncates_typed _).meets ?_
  refine .of_checkWord (fun reader => ?_) ?_
  · exact .before truncates_call fun _ => .of_pure _
  · refine truncates_destination.before fun target => (truncates_expect _).before fun _ => ?_
    exact truncates_source.before fun source => .of_pure _

theorem truncates_terminator? : Truncates Spent terminator? := by
  refine .of_checkWord (fun reader => ?_) (.of_checkWord (fun reader => ?_) (.of_pure none))
  · refine .before truncates_skip fun _ => .of_peek (fun next reader => ?_) fun reader empty => ?_
    · split
      · exact .of_pure _
      · exact .before truncates_operand fun value => .of_pure _
    · exact .of_pure empty
  · refine .before truncates_skip fun _ => truncates_operand.before fun first => ?_
    refine .of_peek (fun next reader => ?_) fun reader empty => .of_pure empty
    split
    · exact .of_pure _
    · refine .before truncates_operand fun onTrue => truncates_operand.before fun onFalse => ?_
      exact .of_pure _

theorem final_skipNewlinesUpTo (bound : Nat) (reader : Reader) :
    (reader.skipNewlinesUpTo bound).final = reader.final := by
  induction bound generalizing reader with
  | zero => rfl
  | succ bound ih =>
      rw [Reader.skipNewlinesUpTo]
      split
      · rw [ih, reader.final_skip]
      · rfl

theorem skipNewlinesUpTo_more (reader : Reader) (extra : List Token) {bound bound' : Nat}
    (enough : reader.rest.length ≤ bound) (larger : bound ≤ bound') :
    (reader.skipNewlinesUpTo bound).rest = [] ∨
      (reader.more extra).skipNewlinesUpTo bound' =
        (reader.skipNewlinesUpTo bound).more extra := by
  induction bound generalizing reader bound' with
  | zero => exact .inl (List.length_eq_zero_iff.mp (Nat.le_zero.mp enough))
  | succ bound ih =>
      obtain ⟨bound', rfl⟩ := Nat.exists_eq_succ_of_ne_zero (Nat.ne_zero_of_lt larger)
      by_cases empty : reader.rest = []
      · left
        rw [Reader.skipNewlinesUpTo, reader.peek_of_nil empty, if_neg (Option.some_ne_none _).symm]
        exact empty
      · rw [Reader.skipNewlinesUpTo, Reader.skipNewlinesUpTo, reader.peek_more empty]
        split
        · rw [reader.skip_more empty]
          refine ih reader.skip ?_ (Nat.le_of_succ_le_succ larger)
          exact Nat.le_of_lt_succ ((length_skip_lt empty).trans_le enough)
        · exact .inr rfl

theorem truncates_skipNewlines : Truncates Spent skipNewlines where
  meets reader := by
    rintro extra _ after - read
    cases read
    have larger : reader.rest.length ≤ (reader.more extra).rest.length := by
      rw [Reader.more, List.length_append]
      exact Nat.le_add_right _ _
    rcases skipNewlinesUpTo_more reader extra le_rfl larger with empty | same
    · exact .inr (.inl ⟨(), _, rfl, empty, final_skipNewlinesUpTo _ reader⟩)
    · exact .inl ⟨_, rfl, same, final_skipNewlinesUpTo _ reader⟩
  ends reader empty := by
    refine .inl ⟨(), _, rfl, ?_, final_skipNewlinesUpTo _ reader⟩
    rw [Spent, Reader.skipNewlines, empty]
    exact empty

theorem truncates_endOfInstruction : Truncates Spent endOfInstruction := by
  refine .of_peek (fun next reader => ?_) fun reader empty => .of_pure empty
  split
  · exact .of_pure ()
  · exact truncates_skipNewlines.meets reader
  · exact .of_pure ()
  · exact .of_refuse

theorem length_endOfInstruction_le {reader after : Reader} {done : Unit}
    (read : endOfInstruction reader = .ok (done, after)) :
    after.rest.length ≤ reader.rest.length := by
  have spells : Spells (endOfInstruction >>= pure) fun _ _ (_ : Unit) => True :=
    fun _ => .of_endOfInstruction fun _ _ => .of_pure fun _ _ => trivial
  rw [bind_pure] at spells
  obtain ⟨_, kinds, -, lengths⟩ := spells.length_eq read
  omega

theorem length_instruction_lt {reader after : Reader} {instruction' : Instruction}
    (read : instruction reader = .ok (instruction', after)) :
    after.rest.length < reader.rest.length := by
  obtain ⟨_, kinds, spelled, lengths⟩ := spells_instruction.length_eq read
  have positive : 0 < kinds.length := by
    cases spelled with
    | declare ty small => simp
    | call called =>
        cases called
        simp
    | assign place assigned => simp
  omega

theorem length_terminator?_lt {reader after : Reader} {terminator : Terminator}
    (read : terminator? reader = .ok (some terminator, after)) :
    after.rest.length < reader.rest.length := by
  obtain ⟨_, kinds, ⟨absent, -⟩ | ⟨_, -, spelled⟩, lengths⟩ := spells_terminator?.length_eq read
  · cases absent
  · have positive : 0 < kinds.length := by cases spelled <;> simp
    omega

def labelOf? : Option TokenKind → Option String
  | some (.label name) => some name
  | _ => none

def Reader.label? (reader : Reader) : Option String :=
  if reader.peekSecond = some .arrow then none else labelOf? reader.peek

theorem blockLabel?_eq (reader : Reader) : blockLabel? reader = .ok (reader.label?, reader) := by
  have first : peek reader = .ok (reader.peek, reader) := rfl
  have second : peekSecond reader = .ok (reader.peekSecond, reader) := rfl
  rw [blockLabel?, parse_bind_of_ok first, parse_bind_of_ok second, Reader.label?]
  generalize reader.peek = kind, reader.peekSecond = kind'
  split
  · rw [if_pos rfl]
    rfl
  · rename_i apart
    rw [if_neg apart]
    rfl
  · rename_i other _
    have absent : labelOf? kind = none := by
      unfold labelOf?
      split
      · exact absurd rfl (other _)
      · rfl
    rw [absent, ite_self]
    rfl

/-- More tokens can only show that a label starts no block, as an arrow follows it. -/
theorem label?_more {reader : Reader} (left : reader.rest ≠ []) (extra : List Token) :
    (reader.more extra).label? = reader.label? ∨
      (∃ name, reader.peek = some (.label name)) ∧ (reader.more extra).label? = none := by
  obtain ⟨last, rest, table⟩ := reader
  match rest with
  | [] => exact absurd rfl left
  | first :: second :: rest => exact .inl rfl
  | [⟨kind, line⟩] =>
      by_cases arrow : (Reader.more ⟨last, [⟨kind, line⟩], table⟩ extra).peekSecond = some .arrow
      · rw [Reader.label?, if_pos arrow]
        cases kind with
        | label name => exact .inr ⟨⟨name, rfl⟩, rfl⟩
        | _ => exact .inl rfl
      · rw [Reader.label?, if_neg arrow]
        exact .inl rfl

theorem Meets.of_blockLabel? {α : Type} {stop : α → Reader → Prop} {reader : Reader}
    {next next' : Option TokenKind → Option String → Parse α} (left : reader.rest ≠ [])
    (same : ∀ label, Meets stop reader (next reader.peek label) (next' reader.peek label))
    (clash : ∀ name other a after, other.peek = some (.label name) →
      next (some (.label name)) none other ≠ .ok (a, after)) :
    Meets stop reader (do let kind ← peek; let label ← blockLabel?; next kind label)
      (do let kind ← peek; let label ← blockLabel?; next' kind label) := by
  intro extra a after longer read
  have part : (do let kind ← peek; let label ← blockLabel?; next' kind label) reader =
      next' reader.peek reader.label? reader := by
    rw [parse_bind_of_ok rfl, parse_bind_of_ok (blockLabel?_eq reader)]
  rw [parse_bind_of_ok rfl, parse_bind_of_ok (blockLabel?_eq _), reader.peek_more left] at read
  rw [Ends, part]
  rcases label?_more left extra with equal | ⟨⟨name, labelled⟩, absent⟩
  · rw [equal] at read
    exact same reader.label? extra a after longer read
  · rw [absent, labelled] at read
    exact absurd read (clash name _ a after ((reader.peek_more left).trans labelled))

def Never {α : Type} (_ : α) (_ : Reader) : Prop :=
  False

theorem meets_skip {reader : Reader} (left : reader.rest ≠ []) :
    Meets Never reader skip skip := by
  rintro extra _ after - read
  cases read
  exact .inl ⟨reader.skip, rfl, reader.skip_more left, reader.final_skip⟩

theorem ends_body (name : String) (bound : Nat) (done : List Block) (current : Option OpenBlock)
    {reader : Reader} (empty : reader.rest = []) :
    Ends Never reader (body name bound done current) := by
  cases bound with
  | zero => exact .of_refuse empty fun _ => trivial
  | succ bound =>
      refine .of_peek empty (.after (blockLabel?_eq reader) rfl ?_)
      exact .of_refuse empty fun _ => trivial

/-- Nothing is left for the next turn, either, when a line has ended. -/
theorem ends_turn (name : String) (bound : Nat) (done : List Block) (current : Option OpenBlock)
    {reader : Reader} (empty : reader.rest = []) :
    Ends Never reader (do endOfInstruction; body name bound done current) :=
  (truncates_endOfInstruction.ends reader empty).bind
    fun _ _ spent => ends_body name bound done current spent

theorem terminator?_of_label {reader : Reader} {name : String}
    (labelled : reader.peek = some (.label name)) : terminator? reader = .ok (none, reader) := by
  have other (word : String) : checkWord word reader = .ok (false, reader) := by
    have read : checkWord word reader = .ok (decide (reader.peek = some (.word word)), reader) :=
      rfl
    rw [read, labelled, decide_eq_false nofun]
  rw [terminator?, parse_bind_of_ok (other "return")]
  exact parse_bind_of_ok (other "br")

theorem instruction_ne_ok {reader after : Reader} {name : String} {instruction' : Instruction}
    (labelled : reader.peek = some (.label name)) :
    instruction reader ≠ .ok (instruction', after) := by
  intro read
  obtain ⟨kinds, consumes, spelled⟩ := spells_instruction _ _ _ _ rfl read
  have head := consumes.head?
  rw [labelled] at head
  cases spelled _ (.refl _) with
  | declare ty small => cases ty <;> simp at head
  | call called =>
      cases called
      simp at head
  | assign place assigned =>
      cases place with
      | slot slot =>
          cases slot
          simp at head
      | var small => simp at head
      | element element =>
          cases element
          simp at head

theorem meets_body (name : String) (reader : Reader) (bound bound' : Nat)
    (enough : reader.rest.length ≤ bound) (larger : bound ≤ bound') (done : List Block)
    (current : Option OpenBlock) :
    Meets Never reader (body name bound' done current) (body name bound done current) := by
  induction bound generalizing reader bound' done current with
  | zero =>
      exact .of_ends (ends_body name 0 done current
        (List.length_eq_zero_iff.mp (Nat.le_zero.mp enough)))
  | succ bound ih =>
      obtain ⟨bound', rfl⟩ := Nat.exists_eq_succ_of_ne_zero (Nat.ne_zero_of_lt larger)
      by_cases empty : reader.rest = []
      · exact .of_ends (ends_body name (bound + 1) done current empty)
      -- After at least one token was passed, the line may end and the next turn is taken.
      have turn : ∀ (shorter : Reader) (done : List Block) (current : Option OpenBlock),
          shorter.rest.length < reader.rest.length → Meets Never shorter
            (do endOfInstruction; body name bound' done current)
            (do endOfInstruction; body name bound done current) := by
        intro shorter done current fewer
        refine (truncates_endOfInstruction.meets shorter).bind (fun _ after read => ?_) ?_
        · have ended := length_endOfInstruction_le read
          exact ih after bound' (by omega) (Nat.le_of_succ_le_succ larger) done current
        · exact fun _ _ spent => ends_body name bound done current spent
      refine .of_blockLabel? empty (fun label => ?_) ?_
      · generalize reader.peek = kind
        split
        · exact .of_refuse
        · exact (meets_skip empty).bind (fun _ _ _ => .of_pure _) fun _ _ => False.elim
        · exact .of_refuse
        · exact .of_refuse
        · split
          · exact .of_refuse
          · refine (meets_skip empty).bind (fun _ shorter skipped => ?_) fun _ _ => False.elim
            cases skip_eq_ok skipped
            exact turn _ _ _ (length_skip_lt empty)
        · exact .of_refuse
        · refine (truncates_terminator?.meets reader).bind (fun found shorter read => ?_) ?_
          · cases found with
            | some terminator => exact turn _ _ _ (length_terminator?_lt read)
            | none =>
                obtain ⟨_, kinds, -, passed⟩ := spells_terminator?.length_eq read
                refine (truncates_instruction.meets shorter).bind (fun line after read => ?_) ?_
                · have fewer := length_instruction_lt read
                  exact turn _ _ _ (by omega)
                · exact fun _ _ spent => ends_turn name bound _ _ spent
          · intro found after spent
            cases found with
            | some terminator => exact ends_turn name bound _ _ spent
            | none =>
                exact (truncates_instruction.ends after spent).bind fun _ _ spent =>
                  ends_turn name bound _ _ spent
      · intro label other blocks after labelled read
        cases current with
        | none => exact refuse_ne_ok read
        | some block =>
            obtain ⟨_, _, found, read⟩ := parse_bind_eq_ok.mp read
            rw [terminator?_of_label labelled] at found
            cases found
            obtain ⟨_, _, line, -⟩ := parse_bind_eq_ok.mp read
            exact instruction_ne_ok labelled line

end Lines

section Functions

theorem truncates_body (name : String) :
    Truncates Never (do body name (← remaining) [] none) :=
  .of_remaining (fun reader bound bound' enough larger =>
    meets_body name reader bound bound' enough larger [] none)
    fun _ empty => ends_body name 0 [] none empty

theorem truncates_param : Truncates Spent param :=
  truncates_typed Param.mk

theorem length_param_lt {reader after : Reader} {param' : Param}
    (read : param reader = .ok (param', after)) : after.rest.length < reader.rest.length := by
  obtain ⟨_, kinds, spelled, lengths⟩ := spells_param.length_eq read
  cases spelled
  rw [List.length_append, List.length_singleton] at lengths
  omega

theorem truncates_params : Truncates Spent params :=
  .of_peek_ite (Option.some_ne_none _).symm (fun _ => .of_pure [])
    (truncates_commaSeparated truncates_param fun _ _ _ => length_param_lt)

theorem truncates_clear : Truncates Spent (modify fun reader => { reader with table := {} }) :=
  .of_step (fun _ => rfl) (fun _ _ _ => ⟨rfl, rfl⟩) (fun _ => rfl) fun _ empty => empty

theorem truncates_function : Truncates Spent function := by
  refine (truncates_expect _).before fun _ => ?_
  refine .after_valueType truncates_functionName (fun _ => ends_functionName) fun ret name => ?_
  refine truncates_clear.before fun _ => (truncates_expect _).before fun _ => ?_
  refine truncates_params.before fun params => (truncates_expect _).before fun _ => ?_
  refine (truncates_expect _).before fun _ => truncates_skipNewlines.before fun _ => ?_
  rw [← bind_assoc]
  refine (truncates_body name).bind (fun blocks reader => ?_) fun _ _ => False.elim
  split
  · exact .of_refuse
  · have made : Truncates Spent (do
        return Function.mk name ret params blocks (← get).table : Parse Function) :=
      .of_step (fun _ => rfl) (fun _ _ _ => ⟨rfl, rfl⟩) (fun _ => rfl) fun _ empty => empty
    exact made.meets reader

theorem truncates_expectEnd : Truncates Spent expectEnd where
  meets reader := by
    intro extra _ after longer read
    obtain ⟨next, _, peeked, read⟩ := parse_bind_eq_ok.mp read
    obtain ⟨rfl, rfl⟩ := peek_eq_ok peeked
    have more : (reader.more extra).peek.isSome = true := by
      rw [Reader.peek, Option.isSome_map, List.isSome_head?, Reader.more]
      simp [longer]
    rw [if_pos more] at read
    exact absurd read refuse_ne_ok
  ends reader empty := .of_peek empty (.of_pure empty)

theorem truncates_singleFunction : Truncates Spent singleFunction :=
  truncates_skipNewlines.before fun _ => truncates_function.before fun f =>
    truncates_skipNewlines.before fun _ => truncates_expectEnd.before fun _ => .of_pure f

theorem truncates_spillRequest : Truncates Spent spillRequest := by
  refine truncates_skipNewlines.before fun _ => truncates_function.before fun f => ?_
  refine truncates_skipNewlines.before fun _ => truncates_varName.before fun name => ?_
  refine truncates_skipNewlines.before fun _ => truncates_varName.before fun stem => ?_
  exact truncates_skipNewlines.before fun _ => truncates_expectEnd.before fun _ => .of_pure _

end Functions

def readTokens {α : Type} (goal : Parse α) (tokens : List Token) : Except ParseError α := do
  let (result, _) ← goal.run { rest := tokens }
  return result

theorem readTokens_eq_ok {α : Type} {goal : Parse α} {tokens : List Token} {a : α} :
    readTokens goal tokens = .ok a ↔ ∃ after, goal { rest := tokens } = .ok (a, after) := by
  constructor
  · intro accepted
    obtain ⟨⟨_, after⟩, read, same⟩ := except_bind_eq_ok.mp accepted
    cases same
    exact ⟨after, read⟩
  · rintro ⟨after, read⟩
    exact except_bind_eq_ok.mpr ⟨(a, after), read, rfl⟩

/-- What is left of tokens that can be read can be read too, or is refused as a text that stops
short. -/
theorem readTokens_of_truncates {α : Type} {goal : Parse α} (cut : Truncates Spent goal)
    {front extra : List Token} {a : α} (accepted : readTokens goal (front ++ extra) = .ok a) :
    (∃ b, readTokens goal front = .ok b) ∨
      ∃ error, readTokens goal front = .error error ∧ error.StopsShort front.getLast? := by
  obtain ⟨after, read⟩ := readTokens_eq_ok.mp accepted
  by_cases whole : extra = []
  · rw [whole, List.append_nil] at accepted
    exact .inl ⟨a, accepted⟩
  have final : Reader.final { rest := front } = front.getLast? := Option.or_none
  rcases cut.meets { rest := front } extra a after whole read with
    ⟨shorter, same, -⟩ | ⟨b, shorter, same, -⟩ | ⟨error, refused, short⟩
  · exact .inl ⟨a, readTokens_eq_ok.mpr ⟨shorter, same⟩⟩
  · exact .inl ⟨b, readTokens_eq_ok.mpr ⟨shorter, same⟩⟩
  · rw [final] at short
    refine .inr ⟨error, ?_, short⟩
    rw [readTokens, StateT.run, refused]
    rfl

/-- If the tokens of a function or of a request to spill can be read, then what is left when they
are cut off anywhere can be read too, or it is refused on the line of its final token. The refusal
says that the text ended, or does not say what was found, unless a variable, an operand or a callee
is missing: then it names the final token. -/
theorem truncated_refused (front extra : List Token) :
    (∀ f, readTokens singleFunction (front ++ extra) = .ok f →
      (∃ f', readTokens singleFunction front = .ok f') ∨
        ∃ error, readTokens singleFunction front = .error error ∧
          error.StopsShort front.getLast?) ∧
    ∀ request, readTokens spillRequest (front ++ extra) = .ok request →
      (∃ request', readTokens spillRequest front = .ok request') ∨
        ∃ error, readTokens spillRequest front = .error error ∧
          error.StopsShort front.getLast? :=
  ⟨fun _ accepted => readTokens_of_truncates truncates_singleFunction accepted,
    fun _ accepted => readTokens_of_truncates truncates_spillRequest accepted⟩

def spinTokens : List Token :=
  [⟨.word "define", 1⟩, ⟨.word "void", 1⟩, ⟨.function "@f", 1⟩, ⟨.leftParen, 1⟩, ⟨.rightParen, 1⟩,
    ⟨.leftBrace, 1⟩, ⟨.newline, 1⟩, ⟨.label ":e", 2⟩, ⟨.newline, 2⟩, ⟨.word "br", 3⟩,
    ⟨.label ":e", 3⟩, ⟨.newline, 3⟩, ⟨.rightBrace, 4⟩]

def spin : Function :=
  ⟨"@f", ⟨.void, 0⟩, [], [⟨":e", [], .jump (.label ":e")⟩], {}⟩

/-- A function is cut off where its branch should have a target, and a request where it should
have a variable. -/
theorem truncated_refused_spin :
    (readTokens singleFunction spinTokens = .ok spin ∧
      ∃ error, readTokens singleFunction (spinTokens.take 10) = .error error ∧
        error.StopsShort (some ⟨.word "br", 3⟩)) ∧
    readTokens spillRequest (spinTokens ++ [⟨.var "%a", 4⟩, ⟨.var "%s", 4⟩]) =
      .ok ⟨{ spin with vars := ⟨["%a"], 0⟩ }, ⟨0⟩, "%s"⟩ ∧
    ∃ error, readTokens spillRequest spinTokens = .error error ∧
      error.StopsShort (some ⟨.rightBrace, 4⟩) := by
  have accepted : readTokens singleFunction spinTokens = .ok spin := by decide +kernel
  have accepted' : readTokens spillRequest (spinTokens ++ [⟨.var "%a", 4⟩, ⟨.var "%s", 4⟩]) =
      .ok ⟨{ spin with vars := ⟨["%a"], 0⟩ }, ⟨0⟩, "%s"⟩ := by decide +kernel
  refine ⟨⟨accepted, ?_⟩, accepted', ?_⟩
  · rcases (truncated_refused (spinTokens.take 10) (spinTokens.drop 10)).1 spin accepted with
      ⟨f, read⟩ | refused
    · have stopped : readTokens singleFunction (spinTokens.take 10) =
          .error ⟨3, .operandExpected (some (.word "br"))⟩ := by decide +kernel
      rw [stopped] at read
      cases read
    · exact refused
  · rcases (truncated_refused spinTokens _).2 _ accepted' with ⟨request, read⟩ | refused
    · have stopped : readTokens spillRequest spinTokens =
          .error ⟨4, .variableExpected (some .rightBrace)⟩ := by decide +kernel
      rw [stopped] at read
      cases read
    · exact refused

/-- The text of the function is read, but cut off after its branch instruction has begun it is
refused with words that take this beginning for what was found in place of an operand. -/
theorem truncated_names_final :
    scan "define void @f() \x7b\n:e\nbr :e\n\x7d" = .ok spinTokens ∧
    scan "define void @f() \x7b\n:e\nbr" = .ok (spinTokens.take 10) ∧
    parseFunction "define void @f() \x7b\n:e\nbr :e\n\x7d" = .ok spin ∧
    parseFunction "define void @f() \x7b\n:e\nbr" =
      .error ⟨3, .operandExpected (some (.word "br"))⟩ ∧
    (Refusal.operandExpected (some (.word "br"))).message =
      "expected an operand, found 'br'" := by
  decide +kernel

end Regalloc.Source
