import Mathlib
import Regalloc.Program.Render
import Regalloc.Proofs.ReadPhrases

/-!
# Printed phrases

The text of a program writes the tokens of its lines down again, on lines of their own. Only the
offsets of stack slots can differ: a slot keeps 32 bits of its number, so a larger offset is
printed as the one that it was narrowed to.
-/

namespace Regalloc.Source

open Phrase

/-- Tokens without line ends, what they are after the offsets of stack slots have been narrowed,
and the slots that they refer to. -/
inductive Narrows : List TokenKind → List TokenKind → List Slot → Prop
  | nil : Narrows [] [] []
  | keep {kind : TokenKind} {kinds others : List TokenKind} {slots : List Slot} :
      kind ≠ .newline → kind ≠ .word "mem" → Narrows kinds others slots →
      Narrows (kind :: kinds) (kind :: others) slots
  | slot {n : Int64} {s : Slot} {kinds others : List TokenKind} {slots : List Slot} :
      slotAt? n = some s → Narrows kinds others slots →
      Narrows (.word "mem" :: .word "rsp" :: .number n :: kinds)
        (.word "mem" :: .word "rsp" :: .number (.ofNat s.offset) :: others) (s :: slots)

namespace Narrows

variable {kinds others more changed : List TokenKind} {slots later : List Slot}

theorem append (first : Narrows kinds others slots) (second : Narrows more changed later) :
    Narrows (kinds ++ more) (others ++ changed) (slots ++ later) := by
  induction first with
  | nil => exact second
  | keep visible other first ih => exact .keep visible other ih
  | slot found first ih => exact .slot found ih

theorem head?_eq (narrows : Narrows kinds others slots) : others.head? = kinds.head? := by
  cases narrows <;> rfl

theorem varNames_eq (narrows : Narrows kinds others slots) : varNames others = varNames kinds := by
  induction narrows with
  | nil => rfl
  | @keep kind kinds others slots visible other narrows ih =>
      rw [varNames_cons, ih, ← varNames_cons]
  | slot found narrows ih => exact ih

theorem newline_notMem (narrows : Narrows kinds others slots) :
    .newline ∉ kinds ∧ .newline ∉ others := by
  induction narrows with
  | nil => exact ⟨List.not_mem_nil, List.not_mem_nil⟩
  | keep visible other narrows ih =>
      simp only [List.mem_cons, not_or]
      exact ⟨⟨visible.symm, ih.1⟩, visible.symm, ih.2⟩
  | slot found narrows ih => simpa using ih

/-- Narrowed offsets are not negative, so minus signs are read as before. -/
theorem clean (narrows : Narrows kinds others slots) (clean : Clean kinds) : Clean others := by
  obtain ⟨printable, chain⟩ := clean
  induction narrows with
  | nil => exact ⟨printable, chain⟩
  | keep visible other narrows ih =>
      rw [List.forall_mem_cons] at printable
      rw [List.isChain_cons] at chain
      obtain ⟨printable', chain'⟩ := ih printable.2 chain.2
      refine ⟨List.forall_mem_cons.mpr ⟨printable.1, printable'⟩, List.isChain_cons.mpr ⟨?_, chain'⟩⟩
      rw [narrows.head?_eq]
      exact chain.1
  | @slot n s kinds others slots found narrows ih =>
      simp only [List.forall_mem_cons] at printable
      simp only [List.isChain_cons] at chain
      obtain ⟨printable', chain'⟩ := ih printable.2.2.2 chain.2.2.2
      refine ⟨?_, ?_⟩
      · simp only [List.forall_mem_cons]
        exact ⟨printable.1, printable.2.1, trivial, printable'⟩
      · simp only [List.isChain_cons, narrows.head?_eq]
        refine ⟨?_, ?_, ?_, chain'⟩
        · rintro _ ⟨⟩ _ ⟨⟩
        · exact fun _ _ _ _ _ => rfl
        · exact chain.2.2.1

end Narrows

theorem slotAt?_eq_some {n : Int64} {s : Slot} (found : slotAt? n = some s) :
    0 ≤ n.toInt ∧ n.toInt % 8 = 0 ∧ s.index = n.toInt.toNat / 8 % slotBound := by
  unfold slotAt? at found
  split at found
  · rename_i aligned
    cases found
    exact ⟨aligned.1, aligned.2, rfl⟩
  · cases found

theorem lt_of_slotAt? {n : Int64} {s : Slot} (found : slotAt? n = some s) :
    s.index < slotBound := by
  obtain ⟨-, -, index⟩ := slotAt?_eq_some found
  exact index ▸ Nat.mod_lt _ (by decide)

theorem toInt_offset {s : Slot} (small : s.index < slotBound) :
    (Int64.ofNat s.offset).toInt = s.offset := by
  rw [slotBound] at small
  rw [Slot.offset, Int64.toInt_ofNat_of_lt (by omega)]

theorem slotAt?_offset {s : Slot} (small : s.index < slotBound) :
    slotAt? (.ofNat s.offset) = some s := by
  rw [slotAt?, toInt_offset small, Slot.offset, if_pos (by omega)]
  obtain ⟨i⟩ := s
  simp only [Option.some.injEq, Slot.mk.injEq, slotBound] at small ⊢
  omega

theorem int64Text_offset {s : Slot} (small : s.index < slotBound) :
    Text.int64Text (.ofNat s.offset) = toString s.offset := by
  rw [Text.int64Text, toInt_offset small]
  rfl

theorem Writes.word {text : String} {kinds : List TokenKind} {rest : List Char}
    (printable : (TokenKind.word text).Printable) (writes : Writes kinds rest) :
    Writes (.word text :: kinds) (text.toList ++ ' ' :: rest) := by
  refine .token nofun printable (.inr ?_) (.blank writes)
  rintro _ ⟨⟩
  decide

/-- A text that writes tokens down, narrowed, before whatever ends the last of them. -/
structure Prints (kinds others : List TokenKind) (slots : List Slot) (text : String) : Prop where
  narrows : Narrows kinds others slots
  writes : ∀ more rest, Bounded rest → Writes more rest →
    Writes (others ++ more) (text.toList ++ rest)

def Detached (text : String) : Prop :=
  ∀ rest, Bounded rest → Bounded (text.toList ++ rest)

theorem detached_empty : Detached "" :=
  fun _ bounded => bounded

theorem detached_blank (text : String) : Detached (" " ++ text) := by
  rintro rest - c member
  rw [String.toList_append] at member
  cases member
  decide

theorem detached_mark (mark : TokenKind) (punctuation : mark.isPunctuation = true)
    (text : String) : Detached (mark.text ++ text) := by
  rintro rest - c member
  rw [String.toList_append] at member
  cases mark <;> cases punctuation <;> cases member <;> decide

namespace Prints

variable {kinds others more changed : List TokenKind} {slots slots' : List Slot}
  {text later : String}

theorem empty : Prints [] [] [] "" :=
  ⟨.nil, fun _ _ _ writes => writes⟩

theorem token {kind : TokenKind} (visible : kind ≠ .newline) (other : kind ≠ .word "mem")
    (printable : kind.Printable) : Prints [kind] [kind] [] kind.text :=
  ⟨.keep visible other .nil, fun _ _ bounded writes => .token visible printable (.inr bounded) writes⟩

theorem append (first : Prints kinds others slots text)
    (second : Prints more changed slots' later) (detached : Detached later) :
    Prints (kinds ++ more) (others ++ changed) (slots ++ slots') (text ++ later) where
  narrows := first.narrows.append second.narrows
  writes := by
    intro last rest bounded writes
    rw [String.toList_append, List.append_assoc, List.append_assoc]
    exact first.writes _ _ (detached rest bounded) (second.writes _ _ bounded writes)

theorem blank (prints : Prints kinds others slots text) :
    Prints kinds others slots (" " ++ text) where
  narrows := prints.narrows
  writes := by
    intro more rest bounded writes
    rw [String.toList_append]
    exact .blank (prints.writes more rest bounded writes)

theorem mark (prints : Prints kinds others slots text) (mark : TokenKind)
    (punctuation : mark.isPunctuation = true) :
    Prints (mark :: kinds) (mark :: others) slots (mark.text ++ text) where
  narrows := by
    refine .keep ?_ ?_ prints.narrows
    · rintro rfl
      cases punctuation
    · rintro rfl
      cases punctuation
  writes := by
    intro more rest bounded writes
    rw [String.toList_append, List.append_assoc]
    refine .token ?_ ?_ (.inl punctuation) (prints.writes more rest bounded writes)
    · rintro rfl
      cases punctuation
    · cases mark <;> cases punctuation <;> trivial

theorem of_eq {same : String} (prints : Prints kinds others slots text) (equal : text = same) :
    Prints kinds others slots same :=
  equal ▸ prints

theorem of_none (prints : Prints kinds others [] text) (none : slots = []) :
    Prints kinds others slots text :=
  none ▸ prints

theorem spaced (first : Prints kinds others slots text)
    (second : Prints more changed slots' later) :
    Prints (kinds ++ more) (others ++ changed) (slots ++ slots') (text ++ (" " ++ later)) :=
  first.append second.blank (detached_blank later)

theorem marked (first : Prints kinds others slots text) (mark : TokenKind)
    (punctuation : mark.isPunctuation = true) (second : Prints more changed slots' later) :
    Prints (kinds ++ mark :: more) (others ++ mark :: changed) (slots ++ slots')
      (text ++ (mark.text ++ later)) :=
  first.append (second.mark mark punctuation) (detached_mark mark punctuation later)

end Prints

theorem prints_brackets (count : Nat) :
    Prints (brackets count) (brackets count) [] (String.join (List.replicate count "[]")) ∧
      Detached (String.join (List.replicate count "[]")) := by
  induction count with
  | zero => exact ⟨.empty, detached_empty⟩
  | succ count ih =>
      have text : String.join (List.replicate (count + 1) "[]") =
          "[" ++ ("]" ++ String.join (List.replicate count "[]")) := by
        rw [List.replicate_succ, String.join_cons, ← String.append_assoc]
        rfl
      rw [text]
      have closed : Prints (.rightBracket :: brackets count) _ [] ("]" ++ _) := ih.1.mark _ rfl
      exact ⟨closed.mark .leftBracket rfl, detached_mark .leftBracket rfl _⟩

theorem joinWith_cons_cons (separator first second : String) (rest : List String) :
    joinWith separator (first :: second :: rest) =
      first ++ separator ++ joinWith separator (second :: rest) := by
  apply String.toList_injective
  simp [joinWith, String.toList_intercalate]

theorem joinWith_singleton (separator text : String) : joinWith separator [text] = text := by
  apply String.toList_injective
  simp [joinWith]

theorem renderAll_eq (naming : Naming) (exprs : List Expr) :
    Expr.renderAll naming exprs = exprs.map (Expr.render naming) := by
  induction exprs with
  | nil => rfl
  | cons expr exprs ih => rw [Expr.renderAll, ih, List.map_cons]

namespace Phrase

variable {table : VarTable} {kinds : List TokenKind} {expr : Expr}

-- Operands, elements and calls refer to no slot.

theorem slots_append {first second : List Leaf} (left : first.filterMap Leaf.slot? = [])
    (right : second.filterMap Leaf.slot? = []) : (first ++ second).filterMap Leaf.slot? = [] := by
  rw [List.filterMap_append, left, right, List.append_nil]

theorem Operand.slots_eq (operand : Operand table kinds expr) : expr.slots = [] := by
  cases operand <;> rfl

theorem Arguments.slots_eq {args : List Expr} (passed : Arguments table kinds args) :
    (Expr.leavesOfAll args).filterMap Leaf.slot? = [] := by
  cases passed with
  | none => rfl
  | some separated =>
      induction separated with
      | one operand => exact slots_append operand.slots_eq rfl
      | more operand separated ih => exact slots_append operand.slots_eq ih

theorem Offsets.slots_eq {list : List Expr} (offsets : Offsets table kinds list) :
    (Expr.leavesOfAll list).filterMap Leaf.slot? = [] := by
  induction offsets with
  | nil => rfl
  | cons operand offsets ih => exact slots_append operand.slots_eq ih

theorem Call.slots_eq {builtin : Bool} {args : List Expr}
    (call : Call table kinds builtin expr args) : (Expr.call builtin expr args).slots = [] := by
  obtain ⟨callee, passed⟩ := call
  refine slots_append ?_ passed.slots_eq
  cases callee <;> rfl

theorem Element.slots_eq (element : Element table kinds expr) : expr.slots = [] := by
  obtain ⟨-, offsets, -⟩ := element
  exact slots_append rfl offsets.slots_eq

theorem Simple.slots_eq (simple : Simple table kinds expr) : expr.slots = [] := by
  cases simple with
  | operand operand => exact operand.slots_eq
  | element element => exact element.slots_eq

theorem Ty.prints {ty : ValueType} (spelled : Ty kinds ty)
    (printable : ∀ kind ∈ kinds, kind.Printable) : Prints kinds kinds [] ty.render := by
  cases spelled with
  | int64 dims =>
      have word : Prints [.word "int64"] [.word "int64"] [] "int64" :=
        .token nofun (by decide) (printable _ List.mem_cons_self)
      obtain ⟨dimensions, detached⟩ := prints_brackets dims
      exact word.append dimensions detached
  | @plain kind other =>
      have word := printable _ List.mem_cons_self
      cases kind with
      | int64 => exact absurd rfl other
      | _ => exact .token nofun (by decide) word

theorem Separated.prints {α : Type} {item : List TokenKind → α → Prop} {render : α → String}
    {list : List α} (separated : Separated item kinds list)
    (printable : ∀ kind ∈ kinds, kind.Printable)
    (each : ∀ kinds a, item kinds a → (∀ kind ∈ kinds, kind.Printable) →
      Prints kinds kinds [] (render a)) :
    Prints kinds kinds [] (joinWith ", " (list.map render)) := by
  induction separated with
  | one spelled =>
      rw [List.map_singleton, joinWith_singleton]
      exact each _ _ spelled printable
  | @more kinds later a rest spelled separated ih =>
      simp only [List.forall_mem_append, List.forall_mem_cons] at printable
      have first := each _ _ spelled printable.1
      have others := ih printable.2.2
      refine (first.marked .comma rfl others.blank).of_eq ?_
      cases separated <;>
        simp [TokenKind.text, joinWith_cons_cons, ← String.append_assoc]

theorem Operand.prints (operand : Operand table kinds expr)
    (printable : ∀ kind ∈ kinds, kind.Printable) :
    Prints kinds kinds [] (expr.render table.name) := by
  cases operand with
  | var small => exact .token nofun nofun (printable _ List.mem_cons_self)
  | const n => exact .token nofun nofun trivial
  | label name => exact .token nofun nofun (printable _ List.mem_cons_self)
  | function name => exact .token nofun nofun (printable _ List.mem_cons_self)

theorem Arguments.prints {args : List Expr} (passed : Arguments table kinds args)
    (printable : ∀ kind ∈ kinds, kind.Printable) :
    Prints kinds kinds [] ("(" ++ (joinWith ", " (Expr.renderAll table.name args) ++ ")")) := by
  have closed : Prints [.rightParen] [.rightParen] [] ")" := Prints.empty.mark .rightParen rfl
  rw [renderAll_eq]
  cases passed with
  | none => exact closed.mark .leftParen rfl
  | some separated =>
      simp only [List.forall_mem_cons, List.forall_mem_append] at printable
      have inside := separated.prints printable.2.1 fun _ _ => Operand.prints
      exact (inside.append closed (detached_mark .rightParen rfl "")).mark .leftParen rfl

theorem Callee.prints {builtin : Bool} (callee : Callee table kinds builtin expr)
    (printable : ∀ kind ∈ kinds, kind.Printable) :
    Prints kinds kinds [] (expr.render table.name) := by
  cases callee with
  | builtin b =>
      refine .token nofun ?_ (printable _ List.mem_cons_self)
      cases b <;> decide
  | var small => exact .token nofun nofun (printable _ List.mem_cons_self)
  | function name => exact .token nofun nofun (printable _ List.mem_cons_self)

theorem Call.prints {builtin : Bool} {args : List Expr} (call : Call table kinds builtin expr args)
    (printable : ∀ kind ∈ kinds, kind.Printable) :
    Prints kinds kinds [] ((Expr.call builtin expr args).render table.name) := by
  obtain ⟨callee, passed⟩ := call
  simp only [List.forall_mem_cons, List.forall_mem_append] at printable
  have word : Prints [.word "call"] [.word "call"] [] "call" :=
    .token nofun (by decide) printable.1
  have called := (callee.prints printable.2.1).append (passed.prints printable.2.2)
    (detached_mark .leftParen rfl _)
  refine (word.spaced called).of_eq ?_
  simp only [Expr.render, String.append_assoc]
  rfl

theorem Offsets.prints {list : List Expr} (offsets : Offsets table kinds list)
    (printable : ∀ kind ∈ kinds, kind.Printable) :
    let text := String.join ((Expr.renderAll table.name list).map fun text => "[" ++ text ++ "]")
    Prints kinds kinds [] text ∧ Detached text := by
  rw [renderAll_eq]
  induction offsets with
  | nil => exact ⟨.empty, detached_empty⟩
  | cons operand offsets ih =>
      simp only [List.forall_mem_cons, List.forall_mem_append] at printable
      have first := operand.prints printable.2.1
      obtain ⟨later, -⟩ := ih printable.2.2.2
      have whole := (first.marked .rightBracket rfl later).mark .leftBracket rfl
      rw [List.map_cons, List.map_cons, String.join_cons, String.append_assoc, String.append_assoc]
      exact ⟨whole, detached_mark .leftBracket rfl _⟩

theorem Element.prints (element : Element table kinds expr)
    (printable : ∀ kind ∈ kinds, kind.Printable) :
    Prints kinds kinds [] (expr.render table.name) := by
  obtain ⟨small, offsets, -⟩ := element
  rw [List.forall_mem_cons] at printable
  have base : Prints [.var _] [.var _] [] _ := .token nofun nofun printable.1
  obtain ⟨later, detached⟩ := offsets.prints printable.2
  exact base.append later detached

theorem Simple.prints (simple : Simple table kinds expr)
    (printable : ∀ kind ∈ kinds, kind.Printable) :
    Prints kinds kinds [] (expr.render table.name) := by
  cases simple with
  | operand operand => exact operand.prints printable
  | element element => exact element.prints printable

/-- A slot is printed with the offset that it was narrowed to. -/
theorem StackSlot.prints {naming : Naming} (slot : StackSlot kinds expr)
    (printable : ∀ kind ∈ kinds, kind.Printable) :
    ∃ others, StackSlot others expr ∧ Prints kinds others expr.slots (expr.render naming) := by
  obtain @⟨n, s, found⟩ := slot
  simp only [List.forall_mem_cons] at printable
  have small := lt_of_slotAt? found
  refine ⟨_, .mk (slotAt?_offset small), .slot found .nil, ?_⟩
  intro more rest bounded writes
  have number : Writes (.number (.ofNat s.offset) :: more)
      ((Text.int64Text (.ofNat s.offset)).toList ++ rest) :=
    .token nofun trivial (.inr bounded) writes
  have whole := Writes.word printable.1 (.word printable.2.1 number)
  rw [int64Text_offset small] at whole
  simpa [Expr.render, Slot.render, TokenKind.text] using whole

theorem Place.prints (place : Place table kinds expr)
    (printable : ∀ kind ∈ kinds, kind.Printable) :
    ∃ others, Place table others expr ∧ Prints kinds others expr.slots (expr.render table.name) := by
  cases place with
  | slot slot =>
      obtain ⟨others, slot, prints⟩ := slot.prints printable
      exact ⟨others, .slot slot, prints⟩
  | var small => exact ⟨_, .var small, .token nofun nofun (printable _ List.mem_cons_self)⟩
  | element element => exact ⟨_, .element element, (element.prints printable).of_none element.slots_eq⟩

theorem Assigned.prints (assigned : Assigned table kinds expr)
    (printable : ∀ kind ∈ kinds, kind.Printable) :
    ∃ others, Assigned table others expr ∧
      Prints kinds others expr.slots (expr.render table.name) := by
  have word : ∀ text, .word text ∈ kinds → text ≠ "mem" →
      Prints [.word text] [.word text] [] text :=
    fun text member other => .token nofun (by simpa using other) (printable _ member)
  cases assigned with
  | call call => exact ⟨_, .call call, (call.prints printable).of_none call.slots_eq⟩
  | slot slot =>
      obtain ⟨others, slot, prints⟩ := slot.prints printable
      exact ⟨others, .slot slot, prints⟩
  | length first second =>
      simp only [List.forall_mem_cons, List.forall_mem_append] at printable
      refine ⟨_, .length first second, Prints.of_none ?_ (slots_append first.slots_eq second.slots_eq)⟩
      have both := (first.prints printable.2.1).spaced (second.prints printable.2.2)
      refine ((word "length" List.mem_cons_self (by decide)).spaced both).of_eq ?_
      simp only [Expr.render, String.append_assoc]
      rfl
  | newArray passed =>
      simp only [List.forall_mem_cons] at printable
      refine ⟨_, .newArray passed, Prints.of_none ?_ passed.slots_eq⟩
      have array := (word "Array" (by simp) (by decide)).append (passed.prints printable.2.2)
        (detached_mark .leftParen rfl _)
      refine ((word "new" List.mem_cons_self (by decide)).spaced array).of_eq ?_
      simp only [Expr.render, String.append_assoc]
      rfl
  | newTuple operand =>
      simp only [List.forall_mem_cons, List.forall_mem_append] at printable
      refine ⟨_, .newTuple operand, Prints.of_none ?_ operand.slots_eq⟩
      have closed := (operand.prints printable.2.2.2.1).marked .rightParen rfl .empty
      have tuple := (word "Tuple" (by simp) (by decide)).marked .leftParen rfl closed
      refine ((word "new" List.mem_cons_self (by decide)).spaced tuple).of_eq ?_
      simp only [Expr.render, String.append_assoc]
      rfl
  | simple simple =>
      exact ⟨_, .simple simple, (simple.prints printable).of_none simple.slots_eq⟩
  | @binary _ _ operator _ _ simple operand =>
      simp only [List.forall_mem_cons, List.forall_mem_append] at printable
      refine ⟨_, .binary simple operand,
        Prints.of_none ?_ (slots_append simple.slots_eq operand.slots_eq)⟩
      have sign : Prints [.operator operator] [.operator operator] [] operator.symbol :=
        .token nofun nofun trivial
      have right := sign.spaced (operand.prints printable.2.2)
      refine ((simple.prints printable.1).spaced right).of_eq ?_
      simp only [Expr.render, String.append_assoc]

theorem Instr.prints {instruction : Instruction} (spelled : Instr table kinds instruction)
    (printable : ∀ kind ∈ kinds, kind.Printable) :
    ∃ others, Instr table others instruction ∧
      Prints kinds others instruction.slots (instruction.render table.name) := by
  cases spelled with
  | declare typed small =>
      simp only [List.forall_mem_append, List.forall_mem_singleton] at printable
      have named : Prints [.var _] [.var _] [] _ := .token nofun nofun printable.2
      refine ⟨_, .declare typed small, ((typed.prints printable.1).spaced named).of_eq ?_⟩
      rw [Instruction.render, ← String.append_assoc]
      rfl
  | call call => exact ⟨_, .call call, (call.prints printable).of_none call.slots_eq⟩
  | assign place assigned =>
      simp only [List.forall_mem_append, List.forall_mem_cons] at printable
      obtain ⟨first, place, target⟩ := place.prints printable.1
      obtain ⟨second, assigned, source⟩ := assigned.prints printable.2.2
      have arrow : Prints [.arrow] [.arrow] [] "<-" := .token nofun nofun trivial
      refine ⟨_, .assign place assigned, (target.spaced (arrow.spaced source)).of_eq ?_⟩
      simp only [Instruction.render, String.append_assoc]
      rfl

theorem End.prints {terminator : Terminator} (spelled : End table kinds terminator)
    (printable : ∀ kind ∈ kinds, kind.Printable) :
    Prints kinds kinds [] (terminator.render table.name) := by
  have word : ∀ text, .word text ∈ kinds → text ≠ "mem" →
      Prints [.word text] [.word text] [] text :=
    fun text member other => .token nofun (by simpa using other) (printable _ member)
  cases spelled with
  | ret => exact word "return" List.mem_cons_self (by decide)
  | retValue value =>
      rw [List.forall_mem_cons] at printable
      refine ((word "return" List.mem_cons_self (by decide)).spaced (value.prints printable.2)).of_eq ?_
      rw [Terminator.render]
      rfl
  | jump target =>
      rw [List.forall_mem_cons] at printable
      refine ((word "br" List.mem_cons_self (by decide)).spaced (target.prints printable.2)).of_eq ?_
      rw [Terminator.render]
      rfl
  | branch condition onTrue onFalse =>
      simp only [List.forall_mem_cons, List.forall_mem_append] at printable
      have targets := (onTrue.prints printable.2.2.1).spaced (onFalse.prints printable.2.2.2)
      have operands := (condition.prints printable.2.1).spaced targets
      refine ((word "br" List.mem_cons_self (by decide)).spaced operands).of_eq ?_
      simp only [Terminator.render, String.append_assoc]
      rfl

theorem Parameter.prints {param : Param} (spelled : Parameter table kinds param)
    (printable : ∀ kind ∈ kinds, kind.Printable) :
    Prints kinds kinds [] (param.ty.render ++ " " ++ table.name param.v) := by
  obtain ⟨typed, small⟩ := spelled
  simp only [List.forall_mem_append, List.forall_mem_singleton] at printable
  have named : Prints [.var _] [.var _] [] _ := .token nofun nofun printable.2
  refine ((typed.prints printable.1).spaced named).of_eq ?_
  rw [← String.append_assoc]
  rfl

theorem Parameters.prints {params : List Param} (spelled : Parameters table kinds params)
    (printable : ∀ kind ∈ kinds, kind.Printable) :
    Prints kinds kinds [] (joinWith ", " (params.map fun param =>
      param.ty.render ++ " " ++ table.name param.v)) := by
  cases spelled with
  | none => exact .empty
  | some separated => exact separated.prints printable fun _ _ => Parameter.prints

theorem prints_headLine {ret params : List TokenKind} {name typeText paramText : String}
    (typed : Prints ret ret [] typeText) (listed : Prints params params [] paramText)
    (printable : ∀ kind ∈ headLine ret name params, kind.Printable) :
    Prints (headLine ret name params) (headLine ret name params) []
      ("define " ++ typeText ++ " " ++ name ++ "(" ++ paramText ++ ") \x7b") := by
  simp only [headLine, List.forall_mem_cons, List.forall_mem_append] at printable
  have word : Prints [.word "define"] [.word "define"] [] "define" :=
    .token (by simp) (by simp) printable.1
  have named : Prints [.function name] [.function name] [] name :=
    .token (by simp) (by simp) printable.2.2.1
  have brace := Prints.empty.mark .leftBrace rfl
  have closed := listed.marked .rightParen rfl brace.blank
  refine (word.spaced (typed.spaced (named.marked .leftParen rfl closed))).of_eq ?_
  simp only [String.append_assoc]
  rfl

end Phrase

def spread (lines : List (List TokenKind)) : List TokenKind :=
  lines.flatMap (· ++ [.newline])

structure PrintsLines (lines others : List (List TokenKind)) (slots : List Slot)
    (text : String) : Prop where
  narrows : Narrows lines.flatten others.flatten slots
  clean : (∀ line ∈ lines, Clean line) → ∀ line ∈ others, Clean line
  writes : ∀ more rest, Writes more rest → Writes (spread others ++ more) (text.toList ++ rest)

namespace PrintsLines

variable {lines others more changed : List (List TokenKind)} {slots slots' : List Slot}
  {text later : String}

theorem empty : PrintsLines [] [] [] "" :=
  ⟨.nil, id, fun _ _ writes => writes⟩

theorem append (first : PrintsLines lines others slots text)
    (second : PrintsLines more changed slots' later) :
    PrintsLines (lines ++ more) (others ++ changed) (slots ++ slots') (text ++ later) where
  narrows := by
    rw [List.flatten_append, List.flatten_append]
    exact first.narrows.append second.narrows
  clean := by
    simp only [List.forall_mem_append]
    exact fun each => ⟨first.clean each.1, second.clean each.2⟩
  writes := by
    intro last rest writes
    rw [spread, List.flatMap_append, List.append_assoc, String.toList_append, List.append_assoc]
    exact first.writes _ _ (second.writes last rest writes)

theorem of_eq {same : String} (prints : PrintsLines lines others slots text)
    (named : slots = slots') (equal : text = same) : PrintsLines lines others slots' same :=
  equal ▸ named ▸ prints

theorem of_line {line other : List TokenKind} (prints : Prints line other slots text) :
    PrintsLines [line] [other] slots (text ++ "\n") where
  narrows := by
    rw [List.flatten_singleton, List.flatten_singleton]
    exact prints.narrows
  clean := by
    simp only [List.forall_mem_singleton]
    exact prints.narrows.clean
  writes := by
    intro more rest writes
    have newline : Bounded ('\n' :: rest) := by
      rintro _ ⟨⟩
      decide
    have whole := prints.writes _ _ newline (.newline writes)
    simpa [spread] using whole

theorem of_indented {line other : List TokenKind} (prints : Prints line other slots text) :
    PrintsLines [line] [other] slots ("  " ++ text ++ "\n") := by
  refine of_line (prints.blank.blank.of_eq ?_)
  rw [← String.append_assoc]
  rfl

end PrintsLines

namespace Phrase

variable {table : VarTable} {lines : List (List TokenKind)}

theorem prints_instrs {instrs : List Instruction}
    (each : List.Forall₂ (Instr table) lines instrs)
    (printable : ∀ line ∈ lines, ∀ kind ∈ line, kind.Printable) :
    ∃ others, List.Forall₂ (Instr table) others instrs ∧
      PrintsLines lines others (instrs.flatMap Instruction.slots)
        (String.join (instrs.map fun instruction =>
          "  " ++ instruction.render table.name ++ "\n")) := by
  induction each with
  | nil => exact ⟨[], .nil, .empty⟩
  | cons spelled each ih =>
      rw [List.forall_mem_cons] at printable
      obtain ⟨other, spelled, prints⟩ := spelled.prints printable.1
      obtain ⟨others, each, later⟩ := ih printable.2
      refine ⟨other :: others, .cons spelled each, ?_⟩
      rw [List.map_cons, String.join_cons]
      exact (PrintsLines.of_indented prints).append later

theorem BlockLines.prints {block : Block} (spelled : BlockLines table lines block)
    (printable : ∀ line ∈ lines, ∀ kind ∈ line, kind.Printable) :
    ∃ others, BlockLines table others block ∧
      PrintsLines lines others (block.instrs.flatMap Instruction.slots)
        (block.render table.name) := by
  obtain ⟨each, last⟩ := spelled
  simp only [List.forall_mem_cons, List.forall_mem_append] at printable
  obtain ⟨others, each, inside⟩ := prints_instrs each printable.2.1
  have label : Prints [.label _] [.label _] [] _ := .token nofun nofun printable.1.1
  have final := PrintsLines.of_indented (last.prints printable.2.2.1)
  refine ⟨_, .mk each last, ?_⟩
  refine ((PrintsLines.of_indented label).append (inside.append final)).of_eq (List.append_nil _) ?_
  simp only [Block.render, Block.pointTexts, List.map_cons, List.map_append, List.map_map,
    String.join_cons, String.join_append, String.append_assoc]
  rfl

theorem prints_blocks {parts : List (List (List TokenKind))} {blocks : List Block}
    (each : List.Forall₂ (BlockLines table) parts blocks)
    (printable : ∀ line ∈ parts.flatten, ∀ kind ∈ line, kind.Printable) :
    ∃ others, List.Forall₂ (BlockLines table) others blocks ∧
      PrintsLines parts.flatten others.flatten
        (blocks.flatMap fun block => block.instrs.flatMap Instruction.slots)
        (String.join (blocks.map (Block.render table.name))) := by
  induction each with
  | nil => exact ⟨[], .nil, .empty⟩
  | cons spelled each ih =>
      rw [List.flatten_cons, List.forall_mem_append] at printable
      obtain ⟨other, spelled, prints⟩ := spelled.prints printable.1
      obtain ⟨others, each, later⟩ := ih printable.2
      refine ⟨other :: others, .cons spelled each, ?_⟩
      rw [List.map_cons, String.join_cons]
      exact prints.append later

theorem FunctionLines.prints {f : Function} (spelled : FunctionLines lines f)
    (printable : ∀ line ∈ lines, ∀ kind ∈ line, kind.Printable) :
    ∃ others, FunctionLines others f ∧ PrintsLines lines others f.slots f.render := by
  cases spelled with
  | @mk _ ret params blocks typed listed each some distinct vars =>
      simp only [List.forall_mem_cons, List.forall_mem_append] at printable
      obtain ⟨head, inside, -⟩ := printable
      have parts := head
      simp only [headLine, List.forall_mem_cons, List.forall_mem_append] at parts
      have types := typed.prints parts.2.1
      have parameters := listed.prints parts.2.2.2.2.1
      obtain ⟨others, each, body⟩ := prints_blocks each inside
      refine ⟨_, .mk typed listed each some distinct ?_, ?_⟩
      · rw [vars, varNames_append, varNames_append, body.narrows.varNames_eq]
      · have first := PrintsLines.of_line (prints_headLine types parameters head)
        have brace := PrintsLines.of_line (Prints.empty.mark .rightBrace rfl)
        refine (first.append (body.append brace)).of_eq (List.append_nil _) ?_
        change _ = "define " ++ f.ret.render ++ " " ++ f.name ++ "(" ++ joinWith ", " (f.params.map _) ++
          ") \x7b\n" ++ String.join (f.blocks.map (Block.render f.vars.name)) ++ "\x7d\n"
        simp only [String.append_assoc]
        rfl

end Phrase

theorem Clean.nil : Clean [] :=
  ⟨fun _ member => absurd member List.not_mem_nil, List.isChain_nil⟩

theorem Clean.line {line kinds : List TokenKind} (first : Clean line) (rest : Clean kinds) :
    Clean (line ++ .newline :: kinds) where
  printable := by
    rw [List.forall_mem_append, List.forall_mem_cons]
    exact ⟨first.printable, trivial, rest.printable⟩
  chain := by
    rw [List.isChain_append, List.isChain_cons]
    refine ⟨first.chain, ⟨fun _ _ _ _ _ => rfl, rest.chain⟩, ?_⟩
    rintro _ - _ ⟨⟩ _ ⟨⟩

section Spread

variable {lines others : List (List TokenKind)} {kinds : List TokenKind}

theorem spread_cons (line : List TokenKind) (lines : List (List TokenKind)) :
    spread (line :: lines) ++ kinds = line ++ .newline :: (spread lines ++ kinds) := by
  simp [spread]

theorem clean_spread (each : ∀ line ∈ lines, Clean line) (clean : Clean kinds) :
    Clean (spread lines ++ kinds) := by
  induction lines with
  | nil => exact clean
  | cons line lines ih =>
      rw [List.forall_mem_cons] at each
      rw [spread_cons]
      exact each.1.line (ih each.2)

theorem layout_spread (lines : List (List TokenKind)) (layout : Layout kinds others) :
    Layout (spread lines ++ kinds) (lines ++ others) := by
  induction lines with
  | nil => exact layout
  | cons line lines ih =>
      rw [spread_cons]
      exact .line (.inr (.inr rfl)) (.newline ih)

end Spread

def visible (kinds : List TokenKind) : List TokenKind :=
  kinds.filter (· ≠ .newline)

namespace Phrase

theorem Layout.visible_eq {kinds : List TokenKind} {lines : List (List TokenKind)}
    (layout : Layout kinds lines) (plain : .newline ∉ lines.flatten) :
    visible kinds = lines.flatten := by
  induction layout with
  | nil => rfl
  | newline layout ih => exact ih plain
  | @line line kinds lines ends layout ih =>
      rw [List.flatten_cons, List.mem_append, not_or] at plain
      have kept : visible line = line := by
        refine List.filter_eq_self.mpr fun kind member => decide_eq_true ?_
        rintro rfl
        exact plain.1 member
      rw [visible, List.filter_append, List.flatten_cons]
      exact congrArg₂ _ kept (ih plain.2)

theorem Layout.within {kinds : List TokenKind} {lines : List (List TokenKind)}
    (layout : Layout kinds lines) : ∀ line ∈ lines, line <:+: kinds := by
  induction layout with
  | nil => exact fun _ member => absurd member List.not_mem_nil
  | newline layout ih => exact fun line member => List.infix_cons (ih line member)
  | line ends layout ih =>
      refine List.forall_mem_cons.mpr ⟨List.infix_append' [] _ _, fun line member => ?_⟩
      exact (ih line member).trans (List.suffix_append _ _).isInfix

theorem prints_functions {parts : List (List (List TokenKind))} {functions : List Function}
    (each : List.Forall₂ FunctionLines parts functions)
    (clean : ∀ line ∈ parts.flatten, Clean line) :
    ∃ others kinds, List.Forall₂ FunctionLines others functions ∧
      Narrows parts.flatten.flatten others.flatten.flatten (functions.flatMap Function.slots) ∧
      Layout kinds others.flatten ∧ Clean kinds ∧
      Writes kinds (joinWith "\n" (functions.map Function.render)).toList := by
  induction each with
  | nil => exact ⟨[], [], .nil, .nil, .nil, .nil, .nil⟩
  | @cons lines f parts functions spelled each ih =>
      rw [List.flatten_cons, List.forall_mem_append] at clean
      obtain ⟨other, spelled, prints⟩ :=
        spelled.prints fun line member => (clean.1 line member).printable
      obtain ⟨others, kinds, rest, narrows, layout, cleaned, writes⟩ := ih clean.2
      have again := prints.clean clean.1
      have narrowed : Narrows (lines ++ parts.flatten).flatten (other ++ others.flatten).flatten
          (f.slots ++ functions.flatMap Function.slots) := by
        rw [List.flatten_append, List.flatten_append]
        exact prints.narrows.append narrows
      cases rest with
      | nil =>
          refine ⟨[other], _, .cons spelled .nil, narrowed, layout_spread other .nil,
            clean_spread again .nil, ?_⟩
          rw [List.map_singleton, joinWith_singleton, ← List.append_nil f.render.toList]
          exact prints.writes [] [] .nil
      | @cons _ g _ _ first rest =>
          refine ⟨_ :: _ :: _, spread other ++ .newline :: kinds, .cons spelled (.cons first rest),
            narrowed, layout_spread other (.newline layout), ?_, ?_⟩
          · exact clean_spread again (Clean.nil.line cleaned)
          · rw [List.map_cons, List.map_cons, joinWith_cons_cons, String.append_assoc,
              String.toList_append, String.toList_append]
            exact prints.writes _ _ (.newline writes)

/-- The text of a program writes tokens of that program down. They are the tokens that it was read
from but for line ends, and for the offsets that were narrowed. -/
theorem ProgramPhrase.prints {kinds : List TokenKind} {p : Program}
    (phrase : ProgramPhrase kinds p) (clean : Clean kinds) :
    ∃ others, ProgramPhrase others p ∧ Clean others ∧ Writes others p.render.toList ∧
      Narrows (visible kinds) (visible others) (p.functions.flatMap Function.slots) := by
  obtain ⟨some, each, layout⟩ := phrase
  obtain ⟨parts, others, each, narrows, layout', cleaned, writes⟩ :=
    prints_functions each fun line member => clean.within (layout.within line member)
  refine ⟨others, .mk some each layout', cleaned, writes, ?_⟩
  obtain ⟨before, after⟩ := narrows.newline_notMem
  rw [layout.visible_eq before, layout'.visible_eq after]
  exact narrows

end Phrase

end Regalloc.Source
