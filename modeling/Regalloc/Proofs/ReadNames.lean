import Mathlib
import Regalloc.Proofs.PrintedTokens
import Regalloc.Proofs.ReadablePrograms

/-!
# Names that are read

The labels and function names of a function that was read are names of tokens, apart from the
names of built-in functions. So whatever holds of all names that the scanner can produce holds of
all names in a function. The lemmas follow the grammar, one for each rule of it.
-/

namespace Regalloc

def Expr.Spelled (allowed : String → Prop) (expr : Expr) : Prop :=
  ∀ name, Leaf.label name ∈ expr.leaves → allowed name

structure Block.Spelled (allowed : String → Prop) (block : Block) : Prop where
  label : allowed block.label
  instrs : ∀ instruction ∈ block.instrs, ∀ expr ∈ instruction.exprs, expr.Spelled allowed
  terminator : ∀ expr ∈ block.terminator.exprs, expr.Spelled allowed

structure Function.Spelled (allowed : String → Prop) (f : Function) : Prop where
  name : allowed f.name
  blocks : ∀ block ∈ f.blocks, block.Spelled allowed

section Expressions

variable {allowed : String → Prop}

theorem Expr.spelled_var (v : Var) : (Expr.var v).Spelled allowed := by
  intro name member
  simp [leaves] at member

theorem Expr.spelled_const (n : Int64) : (Expr.const n).Spelled allowed := by
  intro name member
  simp [leaves] at member

theorem Expr.spelled_slot (slot : Slot) : (Expr.slot slot).Spelled allowed := by
  intro name member
  simp [leaves] at member

theorem Expr.spelled_label {name : String} (holds : allowed name) :
    (Expr.label name).Spelled allowed := by
  intro other member
  simp only [leaves, List.mem_singleton, Leaf.label.injEq] at member
  exact member ▸ holds

theorem Expr.spelled_call {builtin : Bool} {callee : Expr} {args : List Expr}
    (called : callee.Spelled allowed) (passed : ∀ arg ∈ args, arg.Spelled allowed) :
    (Expr.call builtin callee args).Spelled allowed := by
  intro name member
  rw [leaves, List.mem_append, mem_leavesOfAll] at member
  rcases member with member | ⟨arg, listed, member⟩
  · exact called name member
  · exact passed arg listed name member

theorem Expr.spelled_access {base : Expr} {offsets : List Expr} (first : base.Spelled allowed)
    (each : ∀ offset ∈ offsets, offset.Spelled allowed) :
    (Expr.access base offsets).Spelled allowed := by
  intro name member
  rw [leaves, List.mem_append, mem_leavesOfAll] at member
  rcases member with member | ⟨offset, listed, member⟩
  · exact first name member
  · exact each offset listed name member

theorem Expr.spelled_newArray {dims : List Expr} (each : ∀ dim ∈ dims, dim.Spelled allowed) :
    (Expr.newArray dims).Spelled allowed := by
  intro name member
  rw [leaves, mem_leavesOfAll] at member
  obtain ⟨dim, listed, member⟩ := member
  exact each dim listed name member

theorem Expr.spelled_length {base dim : Expr} (first : base.Spelled allowed)
    (second : dim.Spelled allowed) : (Expr.length base dim).Spelled allowed := by
  intro name member
  rw [leaves, List.mem_append] at member
  exact member.elim (first name) (second name)

theorem Expr.spelled_binary {operator : Operator} {left right : Expr}
    (first : left.Spelled allowed) (second : right.Spelled allowed) :
    (Expr.binary operator left right).Spelled allowed := by
  intro name member
  rw [leaves, List.mem_append] at member
  exact member.elim (first name) (second name)

end Expressions

namespace Source

def TokenKind.Spelled (allowed : String → Prop) : TokenKind → Prop
  | .label name => allowed name
  | .function name => allowed name
  | _ => True

def Reader.Spelled (allowed : String → Prop) (reader : Reader) : Prop :=
  ∀ token ∈ reader.rest, token.kind.Spelled allowed

/-- What a rule returns has a property if all tokens that are left are allowed, and so are those
that it leaves. -/
def Takes {α : Type} (allowed : String → Prop) (rule : Parse α) (post : α → Prop) : Prop :=
  ∀ reader a after, reader.Spelled allowed → rule reader = .ok (a, after) →
    after.Spelled allowed ∧ post a

abbrev Passes {α : Type} (allowed : String → Prop) (rule : Parse α) : Prop :=
  Takes allowed rule fun _ => True

variable {allowed : String → Prop}

namespace Takes

variable {α β : Type} {post : α → Prop} {final : β → Prop}

theorem of_pure {a : α} (holds : post a) : Takes allowed (pure a) post := by
  intro reader b after spelled read
  cases read
  exact ⟨spelled, holds⟩

theorem of_bind {rule : Parse α} {next : α → Parse β} (first : Takes allowed rule post)
    (second : ∀ a, post a → Takes allowed (next a) final) :
    Takes allowed (rule >>= next) final := by
  intro reader b after spelled read
  obtain ⟨a, middle, read, later⟩ := parse_bind_eq_ok.mp read
  obtain ⟨spelled, holds⟩ := first reader a middle spelled read
  exact second a holds middle b after spelled later

theorem after {rule : Parse α} {next : α → Parse β} (first : Passes allowed rule)
    (second : ∀ a, Takes allowed (next a) final) : Takes allowed (rule >>= next) final :=
  .of_bind first fun a _ => second a

theorem of_refuse {refusal : Option TokenKind → Refusal} :
    Takes allowed (refuse refusal) post :=
  fun _ _ _ _ read => absurd read refuse_ne_ok

theorem of_refuseLast {refusal : Option TokenKind → Refusal} :
    Takes allowed (refuseLast refusal) post :=
  fun _ _ _ _ read => absurd read refuseLast_ne_ok

end Takes

theorem spelled_skip {reader : Reader} (spelled : reader.Spelled allowed) :
    reader.skip.Spelled allowed := by
  cases listed : reader.rest with
  | nil =>
      rw [Reader.skip, listed]
      exact spelled
  | cons token rest =>
      intro other member
      simp only [Reader.skip, listed] at member
      apply spelled other
      rw [listed]
      exact List.mem_cons_of_mem _ member

theorem spelled_skipNewlinesUpTo (bound : Nat) {reader : Reader}
    (spelled : reader.Spelled allowed) : (reader.skipNewlinesUpTo bound).Spelled allowed := by
  induction bound generalizing reader with
  | zero => exact spelled
  | succ bound ih =>
      unfold Reader.skipNewlinesUpTo
      split
      · exact ih (spelled_skip spelled)
      · exact spelled

theorem spelled_peek {reader : Reader} (spelled : reader.Spelled allowed) :
    ∀ kind ∈ reader.peek, kind.Spelled allowed := by
  intro kind next
  obtain ⟨token, first, same⟩ := Option.map_eq_some_iff.mp next
  exact same ▸ spelled token (List.mem_of_mem_head? first)

theorem takes_peek : Takes allowed peek fun next => ∀ kind ∈ next, kind.Spelled allowed := by
  intro reader next after spelled read
  cases read
  exact ⟨spelled, spelled_peek spelled⟩

theorem passes_peek : Passes allowed peek := by
  intro reader next after spelled read
  cases read
  exact ⟨spelled, trivial⟩

theorem passes_peekSecond : Passes allowed peekSecond := by
  intro reader next after spelled read
  cases read
  exact ⟨spelled, trivial⟩

theorem passes_remaining : Passes allowed remaining := by
  intro reader bound after spelled read
  cases read
  exact ⟨spelled, trivial⟩

theorem passes_skip : Passes allowed skip := by
  intro reader done after spelled read
  cases read
  exact ⟨spelled_skip spelled, trivial⟩

theorem passes_skipNewlines : Passes allowed skipNewlines := by
  intro reader done after spelled read
  cases read
  exact ⟨spelled_skipNewlinesUpTo _ spelled, trivial⟩

theorem passes_internVar (name : String) : Passes allowed (internVar name) := by
  intro reader v after spelled read
  cases read
  exact ⟨spelled, trivial⟩

theorem takes_advance : Takes allowed advance fun next => ∀ kind ∈ next, kind.Spelled allowed :=
  .of_bind takes_peek fun _ holds => .after passes_skip fun _ => .of_pure holds

theorem passes_expect (kind : TokenKind) : Passes allowed (expect kind) := by
  refine .after passes_peek fun next => ?_
  split
  · exact passes_skip
  · exact .of_refuse

theorem passes_checkWord (word : String) : Passes allowed (checkWord word) :=
  .after passes_peek fun _ => .of_pure trivial

theorem passes_expectEnd : Passes allowed expectEnd := by
  refine .after passes_peek fun next => ?_
  split
  · exact .of_refuse
  · exact .of_pure trivial

theorem passes_endOfInstruction : Passes allowed endOfInstruction := by
  refine .after passes_peek fun next => ?_
  split
  · exact .of_pure trivial
  · exact passes_skipNewlines
  · exact .of_pure trivial
  · exact .of_refuse

theorem passes_varName : Passes allowed varName := by
  refine .of_bind takes_advance fun kind _ => ?_
  split
  · exact .of_pure trivial
  · exact .of_refuseLast

theorem passes_variableRef : Passes allowed variableRef :=
  .after passes_varName fun name => passes_internVar name

theorem passes_dimensions (bound : Nat) : Passes allowed (dimensions bound) := by
  induction bound with
  | zero => exact .of_pure trivial
  | succ bound ih =>
      refine .after passes_peek fun first => .after passes_peekSecond fun second => ?_
      split
      · refine .after passes_skip fun _ => .after passes_skip fun _ => .after ih fun _ => ?_
        exact .of_pure trivial
      · exact .of_pure trivial

theorem passes_valueType : Passes allowed valueType := by
  refine .after passes_peek fun next => ?_
  split
  · exact .of_refuse
  · refine .after passes_skip fun _ => .after passes_remaining fun bound => ?_
    exact .after (passes_dimensions bound) fun _ => .of_pure trivial
  · exact .after passes_skip fun _ => .of_pure trivial

theorem takes_operand : Takes allowed operand fun expr => expr.Spelled allowed := by
  refine .of_bind takes_advance fun kind holds => ?_
  split
  · exact .after (passes_internVar _) fun v => .of_pure (Expr.spelled_var v)
  · exact .of_pure (Expr.spelled_const _)
  · exact .of_pure (Expr.spelled_label (holds _ rfl))
  · exact .of_pure (Expr.spelled_label (holds _ rfl))
  · exact .of_refuseLast

theorem takes_commaSeparated {α : Type} {item : Parse α} {post : α → Prop}
    (takes : Takes allowed item post) (limit : Nat) :
    Takes allowed (commaSeparated item limit) fun list => ∀ a ∈ list, post a := by
  induction limit with
  | zero =>
      refine .of_bind takes fun a holds => .of_pure fun b member => ?_
      exact List.mem_singleton.mp member ▸ holds
  | succ limit ih =>
      refine .of_bind takes fun a holds => .after passes_peek fun next => ?_
      split
      · refine .after passes_skip fun _ => .of_bind ih fun rest others => .of_pure ?_
        exact List.forall_mem_cons.mpr ⟨holds, others⟩
      · exact .of_pure fun b member => List.mem_singleton.mp member ▸ holds

theorem takes_arguments :
    Takes allowed arguments fun args => ∀ arg ∈ args, arg.Spelled allowed := by
  have closing : ∀ args : List Expr, (∀ arg ∈ args, arg.Spelled allowed) →
      Takes allowed (do expect .rightParen; return args)
        fun args => ∀ arg ∈ args, arg.Spelled allowed :=
    fun args each => .after (passes_expect _) fun _ => .of_pure each
  refine .after (passes_expect _) fun _ => .after passes_peek fun next => ?_
  split
  · exact closing [] fun arg member => absurd member List.not_mem_nil
  · refine .after passes_remaining fun limit => ?_
    exact .of_bind (takes_commaSeparated takes_operand limit) closing

theorem takes_slot : Takes allowed slot fun expr => expr.Spelled allowed := by
  refine .after (passes_expect _) fun _ => .after (passes_expect _) fun _ => ?_
  refine .of_bind takes_advance fun kind _ => ?_
  split
  · split
    · exact .of_pure (Expr.spelled_slot _)
    · exact .of_refuseLast
  · exact .of_refuseLast

theorem takes_offsets (limit : Nat) :
    Takes allowed (offsets limit) fun list => ∀ offset ∈ list, offset.Spelled allowed := by
  induction limit with
  | zero => exact .of_pure fun offset member => absurd member List.not_mem_nil
  | succ limit ih =>
      refine .after passes_peek fun next => ?_
      split
      · refine .after passes_skip fun _ => .of_bind takes_operand fun offset holds => ?_
        refine .after (passes_expect _) fun _ => .of_bind ih fun rest others => .of_pure ?_
        exact List.forall_mem_cons.mpr ⟨holds, others⟩
      · exact .of_pure fun offset member => absurd member List.not_mem_nil

theorem takes_withOffsets {base : Expr} (holds : base.Spelled allowed) :
    Takes allowed (withOffsets base) fun expr => expr.Spelled allowed := by
  refine .after passes_peek fun next => ?_
  split
  · refine .after passes_remaining fun limit => ?_
    exact .of_bind (takes_offsets limit) fun list each =>
      .of_pure (Expr.spelled_access holds each)
  · exact .of_pure holds

theorem takes_destination : Takes allowed destination fun expr => expr.Spelled allowed := by
  refine .after (passes_checkWord _) fun found => ?_
  split
  · exact takes_slot
  · exact .after passes_variableRef fun v => takes_withOffsets (Expr.spelled_var v)

theorem takes_newAggregate : Takes allowed newAggregate fun expr => expr.Spelled allowed := by
  refine .after passes_peek fun next => ?_
  split
  · refine .after passes_skip fun _ => ?_
    exact .of_bind takes_arguments fun dims each => .of_pure (Expr.spelled_newArray each)
  · refine .after passes_skip fun _ => .after (passes_expect _) fun _ => ?_
    refine .of_bind takes_operand fun size holds => ?_
    exact .after (passes_expect _) fun _ => .of_pure holds
  · exact .of_refuse

theorem takes_operation : Takes allowed operation fun expr => expr.Spelled allowed := by
  refine .of_bind takes_operand fun base holds => ?_
  refine .of_bind (takes_withOffsets holds) fun left first => ?_
  refine .after passes_peek fun next => ?_
  split
  · refine .after passes_skip fun _ => .of_bind takes_operand fun right second => ?_
    exact .of_pure (Expr.spelled_binary first second)
  · exact .of_pure first

section Builtins

variable (builtins : ∀ builtin : Builtin, allowed builtin.name)

include builtins

theorem takes_callee : Takes allowed callee fun read => read.2.Spelled allowed := by
  refine .of_bind takes_advance fun kind holds => ?_
  split
  · exact .after (passes_internVar _) fun v => .of_pure (Expr.spelled_var v)
  · exact .of_pure (Expr.spelled_label (holds _ rfl))
  · split
    · exact .of_pure (Expr.spelled_label (builtins _))
    · exact .of_refuseLast
  · exact .of_refuseLast

theorem takes_call :
    Takes allowed call fun read => (Expr.call read.1 read.2.1 read.2.2).Spelled allowed := by
  refine .after (passes_expect _) fun _ => .of_bind (takes_callee builtins) fun read called => ?_
  exact .of_bind takes_arguments fun args passed => .of_pure (Expr.spelled_call called passed)

theorem takes_source : Takes allowed source fun expr => expr.Spelled allowed := by
  refine .after passes_peek fun next => ?_
  split
  · exact .of_bind (takes_call builtins) fun read holds => .of_pure holds
  · exact takes_slot
  · refine .after passes_skip fun _ => .of_bind takes_operand fun base first => ?_
    exact .of_bind takes_operand fun dim second => .of_pure (Expr.spelled_length first second)
  · exact .after passes_skip fun _ => takes_newAggregate
  · exact takes_operation

theorem takes_instruction :
    Takes allowed instruction fun instruction =>
      ∀ expr ∈ instruction.exprs, expr.Spelled allowed := by
  refine .after passes_peek fun next => ?_
  split
  · refine .after passes_valueType fun ty => .after passes_variableRef fun v => .of_pure ?_
    exact fun expr part => List.mem_singleton.mp part ▸ Expr.spelled_var v
  refine .after (passes_checkWord _) fun found => ?_
  split
  · refine .of_bind (takes_call builtins) fun read holds => .of_pure ?_
    exact fun expr part => List.mem_singleton.mp part ▸ holds
  · refine .of_bind takes_destination fun target first => .after (passes_expect _) fun _ => ?_
    refine .of_bind (takes_source builtins) fun source second => .of_pure ?_
    simp only [Instruction.exprs, List.forall_mem_cons]
    exact ⟨first, second, fun expr part => absurd part List.not_mem_nil⟩

omit builtins in
theorem takes_terminator? :
    Takes allowed terminator? fun read =>
      ∀ terminator ∈ read, ∀ expr ∈ terminator.exprs, expr.Spelled allowed := by
  refine .after (passes_checkWord _) fun returns => ?_
  split
  · refine .after passes_skip fun _ => .after passes_peek fun next => ?_
    split
    · refine .of_pure ?_
      rintro _ ⟨⟩ expr part
      cases part
    · refine .of_bind takes_operand fun value holds => .of_pure ?_
      rintro _ ⟨⟩ expr part
      exact List.mem_singleton.mp part ▸ holds
  refine .after (passes_checkWord _) fun branches => ?_
  split
  · refine .after passes_skip fun _ => .of_bind takes_operand fun first holds => ?_
    refine .after passes_peek fun next => ?_
    split
    · refine .of_pure ?_
      rintro _ ⟨⟩ expr part
      exact List.mem_singleton.mp part ▸ holds
    · refine .of_bind takes_operand fun onTrue second => ?_
      refine .of_bind takes_operand fun onFalse third => .of_pure ?_
      rintro _ ⟨⟩
      simp only [Terminator.exprs, List.forall_mem_cons]
      exact ⟨holds, second, third, fun expr part => absurd part List.not_mem_nil⟩
  · refine .of_pure ?_
    rintro _ ⟨⟩

omit builtins in
theorem takes_blockLabel? :
    Takes allowed blockLabel? fun label => ∀ name ∈ label, allowed name := by
  refine .of_bind takes_peek fun first holds => .after passes_peekSecond fun second => ?_
  split
  · refine .of_pure ?_
    rintro _ ⟨⟩
  · refine .of_pure ?_
    rintro _ ⟨⟩
    exact holds _ rfl
  · refine .of_pure ?_
    rintro _ ⟨⟩

/-- Blocks are read one after the other, and each instruction into the block that is open. -/
theorem takes_body (name : String) (limit : Nat) (blocks : List Block)
    (current : Option OpenBlock) (done : ∀ block ∈ blocks, block.Spelled allowed)
    (opened : ∀ block ∈ current, allowed block.label ∧
      ∀ instruction ∈ block.instrs, ∀ expr ∈ instruction.exprs, expr.Spelled allowed) :
    Takes allowed (body name limit blocks current)
      fun blocks => ∀ block ∈ blocks, block.Spelled allowed := by
  induction limit generalizing blocks current with
  | zero => exact .of_refuse
  | succ limit ih =>
      refine .after passes_peek fun next => .of_bind takes_blockLabel? fun label named => ?_
      split
      · exact .of_refuse
      · exact .after passes_skip fun _ => .of_pure done
      · exact .of_refuse
      · exact .of_refuse
      · split
        · exact .of_refuse
        · refine .after passes_skip fun _ => .after passes_endOfInstruction fun _ => ?_
          apply ih blocks _ done
          rintro _ ⟨⟩
          exact ⟨named _ rfl, fun instruction member => absurd member List.not_mem_nil⟩
      · exact .of_refuse
      · have ⟨labelled, instrs⟩ := opened _ rfl
        refine .of_bind takes_terminator? fun read ended => ?_
        split
        · refine .after passes_endOfInstruction fun _ => ih _ _ ?_ ?_
          · intro block member
            rcases List.mem_append.mp member with member | member
            · exact done block member
            · rw [List.mem_singleton.mp member]
              exact ⟨labelled, instrs, ended _ rfl⟩
          · rintro _ ⟨⟩
        · refine .of_bind (takes_instruction builtins) fun instruction holds => ?_
          refine .after passes_endOfInstruction fun _ => ih blocks _ done ?_
          rintro _ ⟨⟩
          refine ⟨labelled, fun other member => ?_⟩
          rcases List.mem_append.mp member with member | member
          · exact instrs other member
          · exact List.mem_singleton.mp member ▸ holds

omit builtins in
theorem takes_functionName : Takes allowed functionName allowed := by
  refine .of_bind takes_advance fun kind holds => ?_
  split
  · exact .of_pure (holds _ rfl)
  · exact .of_refuse

omit builtins in
theorem passes_params : Passes allowed params := by
  have passes_param : Passes allowed param :=
    .after passes_valueType fun _ => .after passes_variableRef fun _ => .of_pure trivial
  refine .after passes_peek fun next => ?_
  split
  · exact .of_pure trivial
  · refine .after passes_remaining fun limit => ?_
    intro reader list after spelled read
    exact ⟨(takes_commaSeparated passes_param limit reader list after spelled read).1, trivial⟩

theorem takes_function : Takes allowed function fun f => f.Spelled allowed := by
  have resets : Passes allowed (modify fun reader : Reader => { reader with table := {} }) := by
    intro reader done after spelled read
    cases read
    exact ⟨spelled, trivial⟩
  refine .after (passes_expect _) fun _ => .after passes_valueType fun ret => ?_
  refine .of_bind takes_functionName fun name named => .after resets fun _ => ?_
  refine .after (passes_expect _) fun _ => .after passes_params fun params => ?_
  refine .after (passes_expect _) fun _ => .after (passes_expect _) fun _ => ?_
  refine .after passes_skipNewlines fun _ => .after passes_remaining fun limit => ?_
  have blocks := takes_body builtins name limit [] none
    (fun block member => absurd member List.not_mem_nil) (by rintro _ ⟨⟩)
  refine .of_bind blocks fun blocks each => ?_
  split
  · exact .of_refuse
  · intro reader f after spelled read
    cases read
    exact ⟨spelled, named, each⟩

theorem takes_functions (limit : Nat) :
    Takes allowed (functions limit) fun list => ∀ f ∈ list, f.Spelled allowed := by
  induction limit with
  | zero => exact .of_pure fun f member => absurd member List.not_mem_nil
  | succ limit ih =>
      refine .after passes_peek fun next => ?_
      split
      · exact .of_pure fun f member => absurd member List.not_mem_nil
      · refine .of_bind (takes_function builtins) fun first holds => ?_
        refine .after passes_skipNewlines fun _ => .of_bind ih fun rest others => .of_pure ?_
        exact List.forall_mem_cons.mpr ⟨holds, others⟩

theorem takes_program :
    Takes allowed program fun program => ∀ f ∈ program.functions, f.Spelled allowed := by
  refine .after passes_skipNewlines fun _ => .after passes_remaining fun limit => ?_
  refine .of_bind (takes_functions builtins limit) fun list each => ?_
  split
  · exact .of_refuse
  · exact .of_pure each

theorem takes_singleFunction : Takes allowed singleFunction fun f => f.Spelled allowed := by
  refine .after passes_skipNewlines fun _ => .of_bind (takes_function builtins) fun f holds => ?_
  refine .after passes_skipNewlines fun _ => .after passes_expectEnd fun _ => ?_
  exact .of_pure holds

theorem takes_spillRequest :
    Takes allowed spillRequest fun request => request.function.Spelled allowed := by
  refine .after passes_skipNewlines fun _ => .of_bind (takes_function builtins) fun f holds => ?_
  refine .after passes_skipNewlines fun _ => .after passes_varName fun name => ?_
  refine .after passes_skipNewlines fun _ => .after passes_varName fun stem => ?_
  refine .after passes_skipNewlines fun _ => .after passes_expectEnd fun _ => ?_
  exact .of_pure ⟨holds.name, holds.blocks⟩

end Builtins

def IsName (name : String) : Prop :=
  ∃ sign rest, name.toList = sign :: rest ∧ (sign = ':' ∨ sign = '@') ∧
    ∀ c ∈ rest, Text.isNameChar c = true

theorem isName_of_isSigned {sign : Char} {name : String} (signs : sign = ':' ∨ sign = '@')
    (signed : IsSigned sign name) : IsName name := by
  obtain ⟨rest, spelled, -, chars⟩ := signed
  exact ⟨sign, rest, spelled, signs, chars⟩

theorem spelled_of_printable {kind : TokenKind} (names : ∀ name, IsName name → allowed name)
    (printable : kind.Printable) : kind.Spelled allowed := by
  cases kind with
  | label name => exact names name (isName_of_isSigned (.inl rfl) printable)
  | function name => exact names name (isName_of_isSigned (.inr rfl) printable)
  | _ => trivial

/-- Whatever holds of the names of labels, functions and built-in functions holds of all names in
what was read. -/
theorem post_of_read {α : Type} {goal : Parse α} {post : α → Prop} {text : String} {a : α}
    (names : ∀ name, IsName name → allowed name) (takes : Takes allowed goal post)
    (done : read goal text = .ok a) : post a := by
  obtain ⟨tokens, scanned, done⟩ := except_bind_eq_ok.mp done
  obtain ⟨⟨result, after⟩, ran, done⟩ := except_bind_eq_ok.mp done
  cases done
  refine (takes { rest := tokens } a after ?_ ran).2
  intro token member
  have printable := (clean_scan scanned).printable token.kind (List.mem_map_of_mem member)
  exact spelled_of_printable names printable

end Source

end Regalloc
