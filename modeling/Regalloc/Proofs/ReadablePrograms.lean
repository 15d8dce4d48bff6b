import Mathlib
import Regalloc.Proofs.FlowGraph
import Regalloc.Proofs.NameTable
import Regalloc.Source.Grammar

/-!
# What reading a program ensures

Every function that is read has distinct block labels, enters each of its variables into its
table, calls built-in functions by their names, accesses elements of variables at offsets that are
variables or constants, and ends its blocks without using a slot. The lemmas follow the grammar,
one for each rule of it.
-/

namespace Regalloc

namespace Expr

mutual

/-- Built-in functions are called by name, never through a variable. -/
def named : Expr → Bool
  | .type _ => true
  | .const _ => true
  | .label _ => true
  | .var _ => true
  | .slot _ => true
  | .access base offsets => base.named && namedAll offsets
  | .binary _ left right => left.named && right.named
  | .call builtin callee args =>
    (!builtin || callee.label?.isSome) && callee.named && namedAll args
  | .newArray dims => namedAll dims
  | .newTuple size => size.named
  | .length base dim => base.named && dim.named

def namedAll : List Expr → Bool
  | [] => true
  | expr :: exprs => expr.named && namedAll exprs

end

def isAtom : Expr → Bool
  | .var _ => true
  | .const _ => true
  | .label _ => true
  | _ => false

def flat : Expr → Bool
  | .access base offsets => base.isAtom && offsets.all isAtom
  | _ => true

structure Scoped (bound : Nat) (expr : Expr) : Prop where
  below : ∀ v, Leaf.var v ∈ expr.leaves → v.index < bound
  named : expr.named = true
  flat : expr.flat = true

structure Atomic (bound : Nat) (expr : Expr) : Prop extends Scoped bound expr where
  atom : expr.isAtom = true

theorem slot_notMem_leaves {expr : Expr} (atom : expr.isAtom = true) (slot : Slot) :
    Leaf.slot slot ∉ expr.leaves := by
  cases expr <;> simp [isAtom, leaves] at atom ⊢

theorem Scoped.mono {bound larger : Nat} {expr : Expr} (inside : expr.Scoped bound)
    (le : bound ≤ larger) : expr.Scoped larger where
  below v member := Nat.lt_of_lt_of_le (inside.below v member) le
  named := inside.named
  flat := inside.flat

theorem Atomic.mono {bound larger : Nat} {expr : Expr} (atomic : expr.Atomic bound)
    (le : bound ≤ larger) : expr.Atomic larger where
  toScoped := atomic.toScoped.mono le
  atom := atomic.atom

theorem atomic_var {bound : Nat} {v : Var} (below : v.index < bound) :
    (Expr.var v).Atomic bound where
  below w member := by
    simp only [leaves, List.mem_singleton, Leaf.var.injEq] at member
    exact member ▸ below
  named := rfl
  flat := rfl
  atom := rfl

theorem atomic_const (bound : Nat) (n : Int64) : (Expr.const n).Atomic bound where
  below w member := by simp [leaves] at member
  named := rfl
  flat := rfl
  atom := rfl

theorem atomic_label (bound : Nat) (name : String) : (Expr.label name).Atomic bound where
  below w member := by simp [leaves] at member
  named := rfl
  flat := rfl
  atom := rfl

theorem mem_leavesOfAll {exprs : List Expr} {leaf : Leaf} :
    leaf ∈ leavesOfAll exprs ↔ ∃ expr ∈ exprs, leaf ∈ expr.leaves := by
  induction exprs with
  | nil => simp [leavesOfAll]
  | cons expr exprs ih => simp [leavesOfAll, ih]

theorem namedAll_iff {exprs : List Expr} :
    namedAll exprs = true ↔ ∀ expr ∈ exprs, expr.named = true := by
  induction exprs with
  | nil => simp [namedAll]
  | cons expr exprs ih => simp [namedAll, ih]

end Expr

def Instruction.exprs : Instruction → List Expr
  | .declare _ v => [.var v]
  | .call builtin callee args => [.call builtin callee args]
  | .assign target source => [target, source]

def Terminator.exprs : Terminator → List Expr
  | .ret => []
  | .retValue value => [value]
  | .jump target => [target]
  | .branch condition onTrue onFalse => [condition, onTrue, onFalse]

structure Block.Scoped (bound : Nat) (block : Block) : Prop where
  instrs : ∀ instruction ∈ block.instrs, ∀ expr ∈ instruction.exprs, expr.Scoped bound
  terminator : ∀ expr ∈ block.terminator.exprs, expr.Atomic bound

theorem Block.Scoped.mono {bound larger : Nat} {block : Block} (inside : block.Scoped bound)
    (le : bound ≤ larger) : block.Scoped larger where
  instrs instruction member expr part := (inside.instrs instruction member expr part).mono le
  terminator expr part := (inside.terminator expr part).mono le

/-- What every function has that was read from a text. -/
structure Function.Readable (f : Function) : Prop where
  distinct : (f.blocks.map Block.label).Nodup
  params : ∀ param ∈ f.params, param.v.index < f.vars.size
  blocks : ∀ block ∈ f.blocks, block.Scoped f.vars.size

namespace Source

/-- What a rule returns, in a reader whose table holds at least `bound` names, has a property at
the size that the table has then. Tables only grow. -/
def Reads {α : Type} (bound : Nat) (rule : Parse α) (post : Nat → α → Prop) : Prop :=
  ∀ reader a after, bound ≤ reader.table.size → rule reader = .ok (a, after) →
    reader.table.size ≤ after.table.size ∧ post after.table.size a

abbrev Grows {α : Type} (rule : Parse α) : Prop :=
  Reads 0 rule fun _ _ => True

theorem parse_bind_eq_ok {α β : Type} {rule : Parse α} {next : α → Parse β}
    {reader after : Reader} {b : β} :
    (rule >>= next) reader = .ok (b, after) ↔
      ∃ a middle, rule reader = .ok (a, middle) ∧ next a middle = .ok (b, after) := by
  refine except_bind_eq_ok.trans ⟨?_, ?_⟩
  · intro ran
    obtain ⟨⟨a, middle⟩, first, second⟩ := ran
    exact ⟨a, middle, first, second⟩
  · intro ran
    obtain ⟨a, middle, first, second⟩ := ran
    exact ⟨(a, middle), first, second⟩

theorem refuse_ne_ok {α : Type} {refusal : Option TokenKind → Refusal} {reader after : Reader}
    {a : α} : refuse refusal reader ≠ .ok (a, after) := by
  intro read
  cases read

theorem refuseLast_ne_ok {α : Type} {refusal : Option TokenKind → Refusal}
    {reader after : Reader} {a : α} : refuseLast refusal reader ≠ .ok (a, after) := by
  intro read
  obtain ⟨start, same, read, later⟩ := parse_bind_eq_ok.mp read
  cases read
  cases last : reader.last with
  | none =>
      simp only [last] at later
      cases later
  | some token =>
      simp only [last] at later
      cases later

namespace Reads

variable {α β : Type} {bound : Nat} {post : Nat → α → Prop} {final : Nat → β → Prop}

theorem of_pure {a : α} (holds : ∀ size, bound ≤ size → post size a) :
    Reads bound (pure a) post := by
  intro reader b after le read
  cases read
  exact ⟨Nat.le_refl _, holds _ le⟩

theorem of_bind {rule : Parse α} {next : α → Parse β} (first : Reads bound rule post)
    (second : ∀ size a, bound ≤ size → post size a → Reads size (next a) final) :
    Reads bound (rule >>= next) final := by
  intro reader b after le read
  obtain ⟨a, middle, read, later⟩ := parse_bind_eq_ok.mp read
  obtain ⟨grows, holds⟩ := first reader a middle le read
  have enough : bound ≤ middle.table.size := Nat.le_trans le grows
  obtain ⟨grows', holds'⟩ := second _ a enough holds middle b after (Nat.le_refl _) later
  exact ⟨Nat.le_trans grows grows', holds'⟩

theorem after {rule : Parse α} {next : α → Parse β} (grows : Grows rule)
    (second : ∀ a, Reads bound (next a) final) : Reads bound (rule >>= next) final := by
  intro reader b after le read
  obtain ⟨a, middle, read, later⟩ := parse_bind_eq_ok.mp read
  have first := (grows reader a middle (Nat.zero_le _) read).1
  obtain ⟨grows', holds⟩ := second a middle b after (Nat.le_trans le first) later
  exact ⟨Nat.le_trans first grows', holds⟩

theorem of_refuse {refusal : Option TokenKind → Refusal} : Reads bound (refuse refusal) post :=
  fun _ _ _ _ read => absurd read refuse_ne_ok

theorem of_refuseLast {refusal : Option TokenKind → Refusal} :
    Reads bound (refuseLast refusal) post :=
  fun _ _ _ _ read => absurd read refuseLast_ne_ok

end Reads

theorem grows_of_table {α : Type} {rule : Parse α}
    (same : ∀ reader a after, rule reader = .ok (a, after) → after.table = reader.table) :
    Grows rule := by
  intro reader a after le read
  rw [same reader a after read]
  exact ⟨Nat.le_refl _, trivial⟩

theorem grows_peek : Grows peek :=
  grows_of_table (by rintro reader a after ⟨⟩; rfl)

theorem grows_peekSecond : Grows peekSecond :=
  grows_of_table (by rintro reader a after ⟨⟩; rfl)

theorem grows_remaining : Grows remaining :=
  grows_of_table (by rintro reader a after ⟨⟩; rfl)

theorem table_skip (reader : Reader) : reader.skip.table = reader.table := by
  unfold Reader.skip
  split <;> rfl

theorem table_skipNewlinesUpTo (bound : Nat) (reader : Reader) :
    (reader.skipNewlinesUpTo bound).table = reader.table := by
  induction bound generalizing reader with
  | zero => rfl
  | succ bound ih =>
      unfold Reader.skipNewlinesUpTo
      split
      · rw [ih, table_skip]
      · rfl

theorem grows_skip : Grows skip :=
  grows_of_table (by rintro reader a after ⟨⟩; exact table_skip reader)

theorem grows_skipNewlines : Grows skipNewlines :=
  grows_of_table (by rintro reader a after ⟨⟩; exact table_skipNewlinesUpTo _ reader)

theorem grows_pure {α : Type} (a : α) : Grows (pure a) :=
  .of_pure fun _ _ => trivial

theorem grows_advance : Grows advance := by
  refine .after grows_peek fun kind => .after grows_skip fun _ => grows_pure kind

theorem grows_expect (kind : TokenKind) : Grows (expect kind) := by
  refine .after grows_peek fun next => ?_
  split
  · exact grows_skip
  · exact .of_refuse

theorem grows_checkWord (word : String) : Grows (checkWord word) :=
  .after grows_peek fun _ => grows_pure _

theorem grows_endOfInstruction : Grows endOfInstruction := by
  refine .after grows_peek fun next => ?_
  split
  · exact grows_pure ()
  · exact grows_skipNewlines
  · exact grows_pure ()
  · exact .of_refuse

theorem grows_varName : Grows varName := by
  refine .after grows_advance fun kind => ?_
  split
  · exact grows_pure _
  · exact .of_refuseLast

theorem grows_dimensions (bound : Nat) : Grows (dimensions bound) := by
  induction bound with
  | zero => exact grows_pure 0
  | succ bound ih =>
      refine .after grows_peek fun first => .after grows_peekSecond fun second => ?_
      split
      · refine .after grows_skip fun _ => .after grows_skip fun _ => .after ih fun _ => ?_
        exact grows_pure _
      · exact grows_pure 0

theorem grows_valueType : Grows valueType := by
  refine .after grows_peek fun next => ?_
  split
  · exact .of_refuse
  · refine .after grows_skip fun _ => .after grows_remaining fun bound => ?_
    exact .after (grows_dimensions bound) fun _ => grows_pure _
  · exact .after grows_skip fun _ => grows_pure _

theorem reads_internVar (bound : Nat) (name : String) :
    Reads bound (internVar name) fun size v => v.index < size := by
  intro reader v after le read
  cases read
  exact reader.table.intern_below name

theorem reads_variableRef (bound : Nat) :
    Reads bound variableRef fun size v => v.index < size :=
  .after grows_varName fun name => reads_internVar bound name

theorem reads_operand (bound : Nat) : Reads bound operand fun size expr => expr.Atomic size := by
  refine .after grows_advance fun kind => ?_
  split
  · refine .of_bind (reads_internVar bound _) fun size v le below => .of_pure ?_
    exact fun _ more => Expr.atomic_var (Nat.lt_of_lt_of_le below more)
  · exact .of_pure fun size _ => Expr.atomic_const size _
  · exact .of_pure fun size _ => Expr.atomic_label size _
  · exact .of_pure fun size _ => Expr.atomic_label size _
  · exact .of_refuseLast

theorem reads_commaSeparated {α : Type} {item : Parse α} {post : Nat → α → Prop}
    (grows : ∀ size larger a, size ≤ larger → post size a → post larger a)
    (reads : ∀ bound, Reads bound item post) (limit bound : Nat) :
    Reads bound (commaSeparated item limit) fun size list => ∀ a ∈ list, post size a := by
  induction limit generalizing bound with
  | zero =>
      refine .of_bind (reads bound) fun size a le holds => .of_pure fun larger more => ?_
      intro b member
      rw [List.mem_singleton.mp member]
      exact grows size larger a more holds
  | succ limit ih =>
      refine .of_bind (reads bound) fun size a le holds => .after grows_peek fun next => ?_
      split
      · refine .after grows_skip fun _ => .of_bind (ih size) fun size' rest more others => ?_
        refine .of_pure fun larger much b member => ?_
        rcases List.mem_cons.mp member with rfl | member
        · exact grows size larger b (Nat.le_trans more much) holds
        · exact grows size' larger b much (others b member)
      · refine .of_pure fun larger more b member => ?_
        rw [List.mem_singleton.mp member]
        exact grows size larger a more holds

theorem reads_arguments (bound : Nat) :
    Reads bound arguments fun size args => ∀ arg ∈ args, arg.Atomic size := by
  have closing : ∀ (size : Nat) (args : List Expr), (∀ arg ∈ args, arg.Atomic size) →
      Reads size (do expect .rightParen; return args) fun size args =>
        ∀ arg ∈ args, arg.Atomic size := by
    intro size args atomic
    refine .after (grows_expect _) fun _ => .of_pure fun larger more arg member => ?_
    exact (atomic arg member).mono more
  refine .after (grows_expect _) fun _ => .after grows_peek fun next => ?_
  split
  · exact closing bound [] fun arg member => absurd member List.not_mem_nil
  · refine .after grows_remaining fun limit => ?_
    refine .of_bind (reads_commaSeparated (fun _ _ _ more atomic => atomic.mono more)
      reads_operand limit bound) fun size args le atomic => ?_
    exact closing size args atomic

theorem reads_callee (bound : Nat) :
    Reads bound callee fun size read => read.2.Atomic size ∧
      (!read.1 || read.2.label?.isSome) = true := by
  refine .after grows_advance fun kind => ?_
  split
  · refine .of_bind (reads_internVar bound _) fun size v le below => .of_pure ?_
    exact fun _ more => ⟨Expr.atomic_var (Nat.lt_of_lt_of_le below more), rfl⟩
  · exact .of_pure fun size _ => ⟨Expr.atomic_label size _, rfl⟩
  · split
    · exact .of_pure fun size _ => ⟨Expr.atomic_label size _, rfl⟩
    · exact .of_refuseLast
  · exact .of_refuseLast

theorem scoped_call {bound : Nat} {builtin : Bool} {callee : Expr} {args : List Expr}
    (called : callee.Atomic bound) (name : (!builtin || callee.label?.isSome) = true)
    (passed : ∀ arg ∈ args, arg.Atomic bound) :
    (Expr.call builtin callee args).Scoped bound where
  below v member := by
    rw [Expr.leaves, List.mem_append, Expr.mem_leavesOfAll] at member
    rcases member with member | ⟨arg, listed, member⟩
    · exact called.below v member
    · exact (passed arg listed).below v member
  named := by
    have each : Expr.namedAll args = true :=
      Expr.namedAll_iff.mpr fun arg listed => (passed arg listed).named
    rw [Expr.named, name, called.named, each]
    rfl
  flat := rfl

theorem reads_call (bound : Nat) :
    Reads bound call fun size read => (Expr.call read.1 read.2.1 read.2.2).Scoped size := by
  refine .after (grows_expect _) fun _ => ?_
  refine .of_bind (reads_callee bound) fun size read le found => ?_
  obtain ⟨builtin, callee⟩ := read
  refine .of_bind (reads_arguments size) fun size' args more atomic => ?_
  refine .of_pure fun larger much => ?_
  exact scoped_call (found.1.mono (Nat.le_trans more much)) found.2
    fun arg member => (atomic arg member).mono much

theorem scoped_slot (bound : Nat) (slot : Slot) : (Expr.slot slot).Scoped bound where
  below v member := by simp [Expr.leaves] at member
  named := rfl
  flat := rfl

theorem reads_slot (bound : Nat) : Reads bound slot fun size expr => expr.Scoped size := by
  refine .after (grows_expect _) fun _ => .after (grows_expect _) fun _ => ?_
  refine .after grows_advance fun kind => ?_
  split
  · split
    · exact .of_pure fun size _ => scoped_slot size _
    · exact .of_refuseLast
  · exact .of_refuseLast

theorem reads_offsets (limit bound : Nat) :
    Reads bound (offsets limit) fun size list => ∀ offset ∈ list, offset.Atomic size := by
  induction limit generalizing bound with
  | zero => exact .of_pure fun _ _ offset member => absurd member List.not_mem_nil
  | succ limit ih =>
      refine .after grows_peek fun next => ?_
      split
      · refine .after grows_skip fun _ => ?_
        refine .of_bind (reads_operand bound) fun size offset le atomic => ?_
        refine .after (grows_expect _) fun _ => .of_bind (ih size) fun size' rest more others => ?_
        refine .of_pure fun larger much other member => ?_
        rcases List.mem_cons.mp member with rfl | member
        · exact atomic.mono (Nat.le_trans more much)
        · exact (others other member).mono much
      · exact .of_pure fun _ _ offset member => absurd member List.not_mem_nil

theorem scoped_access {bound : Nat} {base : Expr} {offsets : List Expr}
    (atomic : base.Atomic bound) (each : ∀ offset ∈ offsets, offset.Atomic bound) :
    (Expr.access base offsets).Scoped bound where
  below v member := by
    rw [Expr.leaves, List.mem_append, Expr.mem_leavesOfAll] at member
    rcases member with member | ⟨offset, listed, member⟩
    · exact atomic.below v member
    · exact (each offset listed).below v member
  named := by
    have all : Expr.namedAll offsets = true :=
      Expr.namedAll_iff.mpr fun offset listed => (each offset listed).named
    rw [Expr.named, atomic.named, all]
    rfl
  flat := by
    rw [Expr.flat, atomic.atom, Bool.true_and, List.all_eq_true]
    exact fun offset listed => (each offset listed).atom

theorem reads_withOffsets {bound : Nat} {base : Expr} (atomic : base.Atomic bound) :
    Reads bound (withOffsets base) fun size expr => expr.Scoped size := by
  refine .after grows_peek fun next => ?_
  split
  · refine .after grows_remaining fun limit => ?_
    refine .of_bind (reads_offsets limit bound) fun size list le each => ?_
    refine .of_pure fun larger more => ?_
    exact scoped_access (atomic.mono (Nat.le_trans le more))
      fun offset member => (each offset member).mono more
  · exact .of_pure fun size more => atomic.toScoped.mono more

theorem reads_destination (bound : Nat) :
    Reads bound destination fun size expr => expr.Scoped size := by
  refine .after (grows_checkWord _) fun found => ?_
  split
  · exact reads_slot bound
  · refine .of_bind (reads_variableRef bound) fun size v le below => ?_
    exact reads_withOffsets (Expr.atomic_var below)

theorem reads_newAggregate (bound : Nat) :
    Reads bound newAggregate fun size expr => expr.Scoped size := by
  refine .after grows_peek fun next => ?_
  split
  · refine .after grows_skip fun _ => .of_bind (reads_arguments bound) fun size dims le each => ?_
    refine .of_pure fun larger more => ⟨?_, ?_, rfl⟩
    · intro v member
      rw [Expr.leaves, Expr.mem_leavesOfAll] at member
      obtain ⟨dim, listed, member⟩ := member
      exact ((each dim listed).mono more).below v member
    · exact Expr.namedAll_iff.mpr fun dim listed => (each dim listed).named
  · refine .after grows_skip fun _ => .after (grows_expect _) fun _ => ?_
    refine .of_bind (reads_operand bound) fun size count le atomic => ?_
    refine .after (grows_expect _) fun _ => .of_pure fun larger more => ⟨?_, atomic.named, rfl⟩
    exact (atomic.mono more).below
  · exact .of_refuse

theorem reads_operation (bound : Nat) :
    Reads bound operation fun size expr => expr.Scoped size := by
  refine .of_bind (reads_operand bound) fun size base le atomic => ?_
  refine .of_bind (reads_withOffsets atomic) fun size left more inside => ?_
  refine .after grows_peek fun next => ?_
  split
  · refine .after grows_skip fun _ => ?_
    refine .of_bind (reads_operand size) fun size' right more' atomic' => ?_
    refine .of_pure fun larger much => ⟨?_, ?_, rfl⟩
    · intro v member
      rw [Expr.leaves, List.mem_append] at member
      rcases member with member | member
      · exact (inside.mono (Nat.le_trans more' much)).below v member
      · exact (atomic'.mono much).below v member
    · rw [Expr.named, inside.named, atomic'.named]
      rfl
  · exact .of_pure fun larger much => inside.mono much

theorem reads_source (bound : Nat) : Reads bound source fun size expr => expr.Scoped size := by
  refine .after grows_peek fun next => ?_
  split
  · refine .of_bind (reads_call bound) fun size read le inside => ?_
    obtain ⟨builtin, callee, args⟩ := read
    exact .of_pure fun larger more => inside.mono more
  · exact reads_slot bound
  · refine .after grows_skip fun _ => ?_
    refine .of_bind (reads_operand bound) fun size base le atomic => ?_
    refine .of_bind (reads_operand size) fun size' dim more atomic' => ?_
    refine .of_pure fun larger much => ⟨?_, ?_, rfl⟩
    · intro v member
      rw [Expr.leaves, List.mem_append] at member
      rcases member with member | member
      · exact (atomic.mono (Nat.le_trans more much)).below v member
      · exact (atomic'.mono much).below v member
    · rw [Expr.named, atomic.named, atomic'.named]
      rfl
  · exact .after grows_skip fun _ => reads_newAggregate bound
  · exact reads_operation bound

theorem reads_instruction (bound : Nat) :
    Reads bound instruction fun size instruction =>
      ∀ expr ∈ instruction.exprs, expr.Scoped size := by
  refine .after grows_peek fun next => ?_
  split
  · refine .after grows_valueType fun ty => ?_
    refine .of_bind (reads_variableRef bound) fun size v le below => ?_
    refine .of_pure fun larger more expr part => ?_
    rw [List.mem_singleton.mp part]
    exact (Expr.atomic_var (Nat.lt_of_lt_of_le below more)).toScoped
  refine .after (grows_checkWord _) fun found => ?_
  split
  · refine .of_bind (reads_call bound) fun size read le inside => ?_
    obtain ⟨builtin, callee, args⟩ := read
    refine .of_pure fun larger more expr part => ?_
    rw [List.mem_singleton.mp part]
    exact inside.mono more
  · refine .of_bind (reads_destination bound) fun size target le inside => ?_
    refine .after (grows_expect _) fun _ => ?_
    refine .of_bind (reads_source size) fun size' source more inside' => ?_
    refine .of_pure fun larger much expr part => ?_
    rcases List.mem_cons.mp part with rfl | part
    · exact inside.mono (Nat.le_trans more much)
    · rw [List.mem_singleton.mp part]
      exact inside'.mono much

theorem reads_terminator? (bound : Nat) :
    Reads bound terminator? fun size read =>
      ∀ terminator ∈ read, ∀ expr ∈ terminator.exprs, expr.Atomic size := by
  refine .after (grows_checkWord _) fun returns => ?_
  split
  · refine .after grows_skip fun _ => .after grows_peek fun next => ?_
    split
    · refine .of_pure fun size _ terminator read expr part => ?_
      cases read
      cases part
    · refine .of_bind (reads_operand bound) fun size value le atomic => ?_
      refine .of_pure fun larger more terminator read expr part => ?_
      cases read
      rw [List.mem_singleton.mp part]
      exact atomic.mono more
  refine .after (grows_checkWord _) fun branches => ?_
  split
  · refine .after grows_skip fun _ => ?_
    refine .of_bind (reads_operand bound) fun size first le atomic => ?_
    refine .after grows_peek fun next => ?_
    split
    · refine .of_pure fun larger more terminator read expr part => ?_
      cases read
      rw [List.mem_singleton.mp part]
      exact atomic.mono more
    · refine .of_bind (reads_operand size) fun size' onTrue more atomic' => ?_
      refine .of_bind (reads_operand size') fun size'' onFalse more' atomic'' => ?_
      refine .of_pure fun larger much terminator read expr part => ?_
      cases read
      simp only [Terminator.exprs, List.mem_cons, List.not_mem_nil, or_false] at part
      rcases part with rfl | rfl | rfl
      · exact atomic.mono (by omega)
      · exact atomic'.mono (by omega)
      · exact atomic''.mono much
  · refine .of_pure fun size _ terminator read => ?_
    cases read

theorem grows_blockLabel? : Grows blockLabel? := by
  refine .after grows_peek fun first => .after grows_peekSecond fun second => ?_
  split
  · exact grows_pure _
  · exact grows_pure _
  · exact grows_pure _

structure Done (size : Nat) (blocks : List Block) : Prop where
  distinct : (blocks.map Block.label).Nodup
  each : ∀ block ∈ blocks, block.Scoped size

structure Current (size : Nat) (blocks : List Block) (current : OpenBlock) : Prop where
  fresh : current.label ∉ blocks.map Block.label
  each : ∀ instruction ∈ current.instrs, ∀ expr ∈ instruction.exprs, expr.Scoped size

theorem Done.mono {size larger : Nat} {blocks : List Block} (done : Done size blocks)
    (le : size ≤ larger) : Done larger blocks :=
  ⟨done.distinct, fun block member => (done.each block member).mono le⟩

theorem Done.close {size larger : Nat} {blocks : List Block} {current : OpenBlock}
    {terminator : Terminator} (done : Done size blocks) (open_block : Current size blocks current)
    (atomic : ∀ expr ∈ terminator.exprs, expr.Atomic larger) (le : size ≤ larger) :
    Done larger (blocks ++ [⟨current.label, current.instrs, terminator⟩]) where
  distinct := by
    rw [List.map_append, List.nodup_append]
    refine ⟨done.distinct, List.nodup_singleton _, ?_⟩
    intro label member other last same
    rw [List.map_singleton, List.mem_singleton] at last
    rw [same, last] at member
    exact open_block.fresh member
  each := by
    intro block member
    rcases List.mem_append.mp member with member | member
    · exact (done.each block member).mono le
    · rw [List.mem_singleton.mp member]
      exact ⟨fun instruction listed expr part =>
        (open_block.each instruction listed expr part).mono le, atomic⟩

theorem current_start (size : Nat) {blocks : List Block} {label : String}
    (unique : ¬(blocks.any fun block => block.label == label) = true) :
    Current size blocks ⟨label, []⟩ where
  fresh := by
    intro member
    obtain ⟨earlier, listed, same⟩ := List.mem_map.mp member
    apply unique
    exact List.any_eq_true.mpr ⟨earlier, listed, beq_iff_eq.mpr same⟩
  each _ member := absurd member List.not_mem_nil

theorem Current.extend {size larger : Nat} {blocks : List Block} {current : OpenBlock}
    {instruction : Instruction} (open_block : Current size blocks current)
    (inside : ∀ expr ∈ instruction.exprs, expr.Scoped larger) (le : size ≤ larger) :
    Current larger blocks ⟨current.label, current.instrs ++ [instruction]⟩ where
  fresh := open_block.fresh
  each := by
    intro other member expr part
    rcases List.mem_append.mp member with member | member
    · exact (open_block.each other member expr part).mono le
    · rw [List.mem_singleton.mp member] at part
      exact inside expr part

/-- The invariant of reading blocks, by induction on the bound for tokens left. -/
theorem reads_body (name : String) (limit : Nat) (bound : Nat) (blocks : List Block)
    (current : Option OpenBlock) (done : Done bound blocks)
    (opened : ∀ block ∈ current, Current bound blocks block) :
    Reads bound (body name limit blocks current) Done := by
  induction limit generalizing bound blocks current with
  | zero => exact .of_refuse
  | succ limit ih =>
      refine .after grows_peek fun next => .after grows_blockLabel? fun label => ?_
      split
      · exact .of_refuse
      · exact .after grows_skip fun _ => .of_pure fun size more => done.mono more
      · exact .of_refuse
      · exact .of_refuse
      · split
        · exact .of_refuse
        · refine .after grows_skip fun _ => .after grows_endOfInstruction fun _ => ?_
          apply ih bound blocks _ done
          intro block same
          cases same
          exact current_start bound ‹_›
      · exact .of_refuse
      · have open_block := opened _ rfl
        refine .of_bind (reads_terminator? bound) fun size read le atomic => ?_
        split
        · refine .after grows_endOfInstruction fun _ => ?_
          apply ih size
          · exact done.close open_block (atomic _ rfl) le
          · intro other same
            cases same
        · refine .of_bind (reads_instruction size) fun size' instruction more inside => ?_
          refine .after grows_endOfInstruction fun _ => ?_
          apply ih size' blocks _ (done.mono (Nat.le_trans le more))
          intro other same
          cases same
          exact open_block.extend inside (Nat.le_trans le more)

theorem reads_params (bound : Nat) :
    Reads bound params fun size list => ∀ param ∈ list, param.v.index < size := by
  have reads_param : ∀ bound, Reads bound param fun size param => param.v.index < size := by
    intro bound
    refine .after grows_valueType fun ty => ?_
    refine .of_bind (reads_variableRef bound) fun size v le below => ?_
    exact .of_pure fun larger more => Nat.lt_of_lt_of_le below more
  refine .after grows_peek fun next => ?_
  split
  · exact .of_pure fun _ _ param member => absurd member List.not_mem_nil
  · refine .after grows_remaining fun limit => ?_
    refine reads_commaSeparated ?_ reads_param limit bound
    exact fun _ _ _ more below => Nat.lt_of_lt_of_le below more

theorem readable_of_function {reader after : Reader} {f : Function}
    (read : function reader = .ok (f, after)) : f.Readable := by
  obtain ⟨_, _, -, read⟩ := parse_bind_eq_ok.mp read
  obtain ⟨ret, _, -, read⟩ := parse_bind_eq_ok.mp read
  obtain ⟨name, _, -, read⟩ := parse_bind_eq_ok.mp read
  obtain ⟨_, start, -, read⟩ := parse_bind_eq_ok.mp read
  have rest : Reads 0 (do
      expect .leftParen
      let params ← params
      expect .rightParen
      expect .leftBrace
      skipNewlines
      let blocks ← body name (← remaining) [] none
      if blocks.isEmpty then refuse fun _ => .noBlocks name else
        return (⟨name, ret, params, blocks, (← get).table⟩ : Function))
      fun size f => f.vars.size = size ∧ (∀ param ∈ f.params, param.v.index < size) ∧
        Done size f.blocks := by
    refine .after (grows_expect _) fun _ => ?_
    refine .of_bind (reads_params 0) fun size params le below => ?_
    refine .after (grows_expect _) fun _ => .after (grows_expect _) fun _ => ?_
    refine .after grows_skipNewlines fun _ => .after grows_remaining fun limit => ?_
    have empty : Done size [] := ⟨List.nodup_nil, fun _ member => absurd member List.not_mem_nil⟩
    have closed : ∀ block ∈ (none : Option OpenBlock), Current size [] block := by
      intro block same
      cases same
    have reads := reads_body name limit size [] none empty closed
    refine .of_bind reads fun size' blocks more done => ?_
    split
    · exact .of_refuse
    · intro reader f after enough read
      cases read
      refine ⟨Nat.le_refl _, rfl, ?_, done.mono enough⟩
      intro param member
      exact Nat.lt_of_lt_of_le (below param member) (Nat.le_trans more enough)
  obtain ⟨-, size, params, done⟩ := rest start f after (Nat.zero_le _) read
  exact ⟨done.distinct, size ▸ params, size ▸ done.each⟩

theorem blocks_ne_nil_of_function {reader after : Reader} {f : Function}
    (read : function reader = .ok (f, after)) : f.blocks ≠ [] := by
  obtain ⟨_, _, -, read⟩ := parse_bind_eq_ok.mp read
  obtain ⟨ret, _, -, read⟩ := parse_bind_eq_ok.mp read
  obtain ⟨name, _, -, read⟩ := parse_bind_eq_ok.mp read
  obtain ⟨_, _, -, read⟩ := parse_bind_eq_ok.mp read
  obtain ⟨_, _, -, read⟩ := parse_bind_eq_ok.mp read
  obtain ⟨params, _, -, read⟩ := parse_bind_eq_ok.mp read
  obtain ⟨_, _, -, read⟩ := parse_bind_eq_ok.mp read
  obtain ⟨_, _, -, read⟩ := parse_bind_eq_ok.mp read
  obtain ⟨_, _, -, read⟩ := parse_bind_eq_ok.mp read
  obtain ⟨limit, _, -, read⟩ := parse_bind_eq_ok.mp read
  obtain ⟨blocks, _, -, read⟩ := parse_bind_eq_ok.mp read
  split at read
  · cases read
  · rename_i some
    cases read
    exact fun empty => some (List.isEmpty_iff.mpr empty)

theorem readable_of_functions (limit : Nat) {reader after : Reader} {list : List Function}
    (read : functions limit reader = .ok (list, after)) : ∀ f ∈ list, f.Readable := by
  induction limit generalizing reader after list with
  | zero =>
      cases read
      exact fun f member => absurd member List.not_mem_nil
  | succ limit ih =>
      obtain ⟨next, _, -, read⟩ := parse_bind_eq_ok.mp read
      split at read
      · cases read
        exact fun f member => absurd member List.not_mem_nil
      · obtain ⟨first, _, head, read⟩ := parse_bind_eq_ok.mp read
        obtain ⟨_, _, -, read⟩ := parse_bind_eq_ok.mp read
        obtain ⟨rest, _, tail, read⟩ := parse_bind_eq_ok.mp read
        cases read
        intro f member
        rcases List.mem_cons.mp member with rfl | member
        · exact readable_of_function head
        · exact ih tail f member

theorem readable_of_parseProgram {text : String} {program : Program}
    (parsed : parseProgram text = .ok program) : ∀ f ∈ program.functions, f.Readable := by
  obtain ⟨tokens, -, parsed⟩ := except_bind_eq_ok.mp parsed
  obtain ⟨⟨result, after⟩, read, parsed⟩ := except_bind_eq_ok.mp parsed
  cases parsed
  obtain ⟨_, _, -, read⟩ := parse_bind_eq_ok.mp read
  obtain ⟨limit, _, -, read⟩ := parse_bind_eq_ok.mp read
  obtain ⟨list, _, listed, read⟩ := parse_bind_eq_ok.mp read
  split at read
  · cases read
  · cases read
    exact readable_of_functions limit listed

theorem readable_of_parseFunction {text : String} {f : Function}
    (parsed : parseFunction text = .ok f) : f.Readable ∧ f.blocks ≠ [] := by
  obtain ⟨tokens, -, parsed⟩ := except_bind_eq_ok.mp parsed
  obtain ⟨⟨result, after⟩, read, parsed⟩ := except_bind_eq_ok.mp parsed
  cases parsed
  obtain ⟨_, _, -, read⟩ := parse_bind_eq_ok.mp read
  obtain ⟨g, _, found, read⟩ := parse_bind_eq_ok.mp read
  obtain ⟨_, _, -, read⟩ := parse_bind_eq_ok.mp read
  obtain ⟨_, _, -, read⟩ := parse_bind_eq_ok.mp read
  cases read
  exact ⟨readable_of_function found, blocks_ne_nil_of_function found⟩

end Source

end Regalloc
