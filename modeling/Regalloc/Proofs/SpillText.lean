import Mathlib
import Regalloc.Pipeline
import Regalloc.Proofs.Respelling
import Regalloc.Proofs.SpilledSites
import Regalloc.Proofs.StackSlots

/-!
# The text of spilled functions

A function can be written down if each of its points can be written on a line with the names of its
table. Spilling keeps it so: loads and stores can be written, and fresh names are names of
variables, whatever they start with. So what spilling prints is read again, and the next request
with it.
-/

namespace Regalloc

open Source Phrase

theorem exists_forall₂_iff {α β : Type} {R : α → β → Prop} {P : α → Prop} {list : List β} :
    (∃ others, List.Forall₂ R others list ∧ ∀ a ∈ others, P a) ↔ ∀ b ∈ list, ∃ a, R a b ∧ P a := by
  induction list with
  | nil => simp
  | cons b list ih =>
      rw [List.forall_mem_cons, ← ih]
      constructor
      · rintro ⟨_, related, each⟩
        cases related with
        | cons here related =>
            rw [List.forall_mem_cons] at each
            exact ⟨⟨_, here, each.1⟩, _, related, each.2⟩
      · rintro ⟨⟨a, here, holds⟩, others, related, each⟩
        exact ⟨a :: others, .cons here related, List.forall_mem_cons.mpr ⟨holds, each⟩⟩

def Instruction.Writable (table : VarTable) (i : Instruction) : Prop :=
  ∃ line, Instr table line i ∧ Clean line

def Terminator.Writable (table : VarTable) (t : Terminator) : Prop :=
  ∃ line, End table line t ∧ Clean line

def Param.Writable (table : VarTable) (param : Param) : Prop :=
  ∃ kinds, Parameter table kinds param ∧ ∀ kind ∈ kinds, kind.Printable

def Block.Writable (table : VarTable) (b : Block) : Prop :=
  (∀ i ∈ b.instrs, i.Writable table) ∧ b.terminator.Writable table

structure Function.Writable (f : Function) : Prop where
  ret : ∃ kinds, Ty kinds f.ret
  name : IsSigned '@' f.name
  params : ∀ param ∈ f.params, param.Writable f.vars
  labels : ∀ b ∈ f.blocks, IsSigned ':' b.label
  blocks : ∀ b ∈ f.blocks, b.Writable f.vars
  nonempty : f.blocks ≠ []
  distinct : (f.blocks.map Block.label).Nodup
  names : f.vars.names.Nodup

section Lines

variable {table : VarTable} {kinds : List TokenKind}

theorem exists_blockLines_iff {b : Block} :
    (∃ lines, BlockLines table lines b ∧ ∀ line ∈ lines, Clean line) ↔
      IsSigned ':' b.label ∧ b.Writable table := by
  constructor
  · rintro ⟨_, ⟨each, last⟩, clean⟩
    simp only [List.forall_mem_cons, List.forall_mem_append] at clean
    obtain ⟨label, inside, final, -⟩ := clean
    refine ⟨label.printable _ List.mem_cons_self, ?_, _, last, final⟩
    exact exists_forall₂_iff.mp ⟨_, each, inside⟩
  · rintro ⟨signed, instrs, last, final, clean⟩
    obtain ⟨lines, each, inside⟩ := exists_forall₂_iff.mpr instrs
    refine ⟨_, .mk each final, ?_⟩
    simp only [List.forall_mem_cons, List.forall_mem_append]
    refine ⟨⟨List.forall_mem_singleton.mpr signed, List.isChain_singleton _⟩, inside, clean, ?_⟩
    exact fun _ member => absurd member List.not_mem_nil

theorem exists_separated_iff {α : Type} {item : List TokenKind → α → Prop} {list : List α}
    (nonempty : list ≠ []) :
    (∃ kinds, Separated item kinds list ∧ ∀ kind ∈ kinds, kind.Printable) ↔
      ∀ a ∈ list, ∃ kinds, item kinds a ∧ ∀ kind ∈ kinds, kind.Printable := by
  induction list with
  | nil => exact absurd rfl nonempty
  | cons a list ih =>
      rw [List.forall_mem_cons]
      constructor
      · rintro ⟨_, separated, printable⟩
        cases separated with
        | one spelled => exact ⟨⟨_, spelled, printable⟩, fun _ member => nomatch member⟩
        | more spelled separated =>
            simp only [List.forall_mem_append, List.forall_mem_cons] at printable
            refine ⟨⟨_, spelled, printable.1⟩, (ih ?_).mp ⟨_, separated, printable.2.2⟩⟩
            rintro rfl
            cases separated
      · rintro ⟨⟨kinds, spelled, printable⟩, each⟩
        cases list with
        | nil => exact ⟨kinds, .one spelled, printable⟩
        | cons b list =>
            obtain ⟨later, separated, printable'⟩ := (ih (by simp)).mpr each
            refine ⟨_, .more spelled separated, ?_⟩
            simp only [List.forall_mem_append, List.forall_mem_cons]
            exact ⟨printable, trivial, printable'⟩

theorem exists_parameters_iff {params : List Param} :
    (∃ kinds, Parameters table kinds params ∧ ∀ kind ∈ kinds, kind.Printable) ↔
      ∀ param ∈ params, param.Writable table := by
  cases params with
  | nil => exact iff_of_true ⟨[], .none, nofun⟩ nofun
  | cons param params =>
      refine Iff.trans ?_ (exists_separated_iff (List.cons_ne_nil param params))
      refine exists_congr fun kinds => and_congr_left fun _ => ⟨fun listed => ?_, .some⟩
      cases listed with
      | some separated => exact separated

theorem number_notMem_of_ty {ty : ValueType} (typed : Ty kinds ty) (n : Int64) :
    .number n ∉ kinds := by
  cases typed with
  | int64 dims => simp [brackets]
  | plain other => simp

theorem number_notMem_of_parameters {params : List Param} (listed : Parameters table kinds params)
    (n : Int64) : .number n ∉ kinds := by
  cases listed with
  | none => exact List.not_mem_nil
  | some separated =>
      induction separated with
      | one spelled =>
          obtain ⟨typed, -⟩ := spelled
          simpa using number_notMem_of_ty typed n
      | more spelled separated ih =>
          obtain ⟨typed, -⟩ := spelled
          simpa [number_notMem_of_ty typed n] using ih

theorem printable_of_ty {ty : ValueType} (typed : Ty kinds ty) :
    ∀ kind ∈ kinds, kind.Printable := by
  have word : ∀ kind : ValueKind, (TokenKind.word kind.text).Printable := by
    intro kind
    cases kind <;> exact ⟨_, _, rfl, .inl (by decide +kernel), by decide +kernel⟩
  cases typed with
  | int64 dims =>
      refine List.forall_mem_cons.mpr ⟨word .int64, fun kind member => ?_⟩
      obtain ⟨pair, listed, inside⟩ := List.mem_flatten.mp member
      rw [List.eq_of_mem_replicate listed] at inside
      simp only [List.mem_cons, List.not_mem_nil, or_false] at inside
      rcases inside with rfl | rfl <;> trivial
  | plain other => exact List.forall_mem_singleton.mpr (word _)

/-- Without numbers no minus sign can be taken for a subtraction. -/
theorem clean_of_number_notMem (printable : ∀ kind ∈ kinds, kind.Printable)
    (none : ∀ n, .number n ∉ kinds) : Clean kinds := by
  refine ⟨printable, ?_⟩
  induction kinds with
  | nil => exact List.isChain_nil
  | cons kind kinds ih =>
      simp only [List.mem_cons, not_or] at none
      rw [List.forall_mem_cons] at printable
      refine List.isChain_cons.mpr ⟨?_, ih printable.2 fun n => (none n).2⟩
      rintro next member n rfl
      exact absurd (List.mem_of_mem_head? member) (none n).2

end Lines

namespace Function.Writable

variable {f : Function} {lines : List (List TokenKind)}

theorem of_lines (spelled : FunctionLines lines f) (clean : ∀ line ∈ lines, Clean line) :
    f.Writable := by
  cases spelled with
  | mk typed listed each some distinct vars =>
      simp only [List.forall_mem_cons, List.forall_mem_append] at clean
      obtain ⟨head, inside, -⟩ := clean
      have printable := head.printable
      simp only [headLine, List.forall_mem_cons, List.forall_mem_append] at printable
      have parts : ∀ b ∈ f.blocks, IsSigned ':' b.label ∧ b.Writable f.vars := by
        intro b member
        refine exists_blockLines_iff.mp (exists_forall₂_iff.mp ⟨_, each, ?_⟩ b member)
        intro part listed line member
        exact inside line (List.mem_flatten.mpr ⟨part, listed, member⟩)
      exact {
        ret := ⟨_, typed⟩
        name := printable.2.2.1
        params := exists_parameters_iff.mp ⟨_, listed, printable.2.2.2.2.1⟩
        labels := fun b member => (parts b member).1
        blocks := fun b member => (parts b member).2
        nonempty := some
        distinct := distinct
        names := vars ▸ VarTable.nodup_internAll List.nodup_nil _ }

theorem exists_lines (writable : f.Writable) :
    ∃ lines, Drafts lines f ∧ ∀ line ∈ lines, Clean line := by
  obtain ⟨ret, typed⟩ := writable.ret
  obtain ⟨params, listed, printable⟩ := exists_parameters_iff.mpr writable.params
  obtain ⟨parts, each, inside⟩ := exists_forall₂_iff.mpr fun b member =>
    exists_blockLines_iff.mpr ⟨writable.labels b member, writable.blocks b member⟩
  refine ⟨_, .mk typed listed each writable.nonempty writable.distinct, ?_⟩
  rw [List.forall_mem_cons, List.forall_mem_append, List.forall_mem_singleton]
  refine ⟨clean_of_number_notMem ?_ fun n => ?_, fun line member => ?_, ?_⟩
  · simp only [headLine, List.forall_mem_cons, List.forall_mem_append]
    refine ⟨⟨_, _, rfl, .inl (by decide +kernel), by decide +kernel⟩, printable_of_ty typed,
      writable.name, trivial, printable, trivial, trivial, ?_⟩
    exact fun _ member => absurd member List.not_mem_nil
  · simp [headLine, number_notMem_of_ty typed, number_notMem_of_parameters listed]
  · obtain ⟨part, listed, member⟩ := List.mem_flatten.mp member
    exact inside part listed line member
  · exact ⟨List.forall_mem_singleton.mpr trivial, List.isChain_singleton _⟩

end Function.Writable

structure Source.Respelling.Faithful (r : Respelling) : Prop where
  fits : ∀ v : Var, v.index < r.source.size →
    (r.rename v).index < r.target.size ∧ r.target.name (r.rename v) = r.naming v
  signed : ∀ name, IsSigned '%' name → IsSigned '%' (r.spell name)

namespace Source.Respelling.Faithful

variable {r : Respelling} (faithful : r.Faithful)
include faithful

theorem fits_all (kinds : List TokenKind) : ∀ kind ∈ kinds, r.Fits kind :=
  fun _ _ v small _ => faithful.fits v small

theorem clean {kinds : List TokenKind} (clean : Clean kinds) : Clean (kinds.map r.token) :=
  clean_map_token clean fun name member => faithful.signed name (clean.printable _ member)

theorem instruction {i : Instruction} (writable : i.Writable r.source) :
    (i.mapVars r.rename).Writable r.target := by
  obtain ⟨line, spelled, clean⟩ := writable
  exact ⟨_, (spelled.respell (faithful.fits_all line)).1, faithful.clean clean⟩

theorem terminator {t : Terminator} (writable : t.Writable r.source) :
    (t.mapVars r.rename).Writable r.target := by
  obtain ⟨line, spelled, clean⟩ := writable
  exact ⟨_, (spelled.respell (faithful.fits_all line)).1, faithful.clean clean⟩

theorem param {param : Param} (writable : param.Writable r.source) :
    { param with v := r.rename param.v }.Writable r.target := by
  obtain ⟨kinds, spelled, printable⟩ := writable
  refine ⟨_, (spelled.respell (faithful.fits_all kinds)).1, ?_⟩
  rw [List.forall_mem_map]
  intro kind member
  refine printable_token (printable kind member) ?_
  rintro name rfl
  exact faithful.signed name (printable _ member)

end Source.Respelling.Faithful

section Tables

variable {table larger : VarTable}

theorem VarTable.name_mem_names {v : Var} (small : v.index < table.size) :
    table.name v ∈ table.names := by
  rw [VarTable.name, List.getD_eq_getElem _ _ small]
  exact List.getElem_mem small

theorem VarTable.exists_of_mem_names {name : String} (member : name ∈ table.names) :
    ∃ v : Var, v.index < table.size ∧ table.name v = name := by
  obtain ⟨i, small, same⟩ := List.mem_iff_getElem.mp member
  exact ⟨⟨i⟩, small, (List.getD_eq_getElem _ _ small).trans same⟩

def enlarging (table larger : VarTable) : Respelling :=
  ⟨table, larger, id, id⟩

theorem faithful_enlarging (extended : larger.Extends table) :
    (enlarging table larger).Faithful where
  fits _ small := extended.name_eq small
  signed _ signed := signed

theorem Instruction.Writable.enlarge {i : Instruction} (writable : i.Writable table)
    (extended : larger.Extends table) : i.Writable larger :=
  i.mapVars_id ▸ (faithful_enlarging extended).instruction writable

theorem Terminator.Writable.enlarge {t : Terminator} (writable : t.Writable table)
    (extended : larger.Extends table) : t.Writable larger :=
  t.mapVars_id ▸ (faithful_enlarging extended).terminator writable

theorem Param.Writable.enlarge {param : Param} (writable : param.Writable table)
    (extended : larger.Extends table) : param.Writable larger :=
  (faithful_enlarging extended).param writable

theorem Block.Writable.enlarge {b : Block} (writable : b.Writable table)
    (extended : larger.Extends table) : b.Writable larger :=
  ⟨fun i member => (writable.1 i member).enlarge extended, writable.2.enlarge extended⟩

theorem Function.Writable.withVars {f : Function} (writable : f.Writable)
    (extended : larger.Extends f.vars) (distinct : larger.names.Nodup) :
    { f with vars := larger }.Writable where
  ret := writable.ret
  name := writable.name
  params param member := (writable.params param member).enlarge extended
  labels := writable.labels
  blocks b member := (writable.blocks b member).enlarge extended
  nonempty := writable.nonempty
  distinct := writable.distinct
  names := distinct

end Tables

namespace Spill

theorem isNameChar_of_isDigit {c : Char} (digit : isDigit c = true) :
    Text.isNameChar c = true := by
  have small : '0'.toNat ≤ c.toNat ∧ c.toNat ≤ '9'.toNat := by
    simpa [isDigit, Char.le_def, UInt32.le_iff_toNat_le] using digit
  have numeral : Text.isNumeral c = true := by
    rw [Text.isNumeral, Text.inRanges, List.any_eq_true]
    refine ⟨('0'.toNat, '9'.toNat), List.mem_cons_self, ?_⟩
    simpa using small
  simp [Text.isNameChar, numeral]

theorem isSigned_freshName {stem : String} (signed : IsSigned '%' stem) (number : Nat) :
    IsSigned '%' (VarTable.freshName stem number) := by
  obtain ⟨name, same, some, each⟩ := signed
  refine ⟨name ++ Nat.toDigits 10 number, ?_, by simp [some], ?_⟩
  · rw [VarTable.freshName, String.toList_append, same, List.cons_append]
    simp [toString]
  · rw [List.forall_mem_append]
    exact ⟨each, fun c member => isNameChar_of_isDigit (isDigit_of_mem_toDigits member)⟩

def replacing (table : VarTable) (request : Request) (t : Var) : Respelling :=
  ⟨table, table, fun name => if name = table.name request.v then table.name t else name,
    replace request t⟩

theorem faithful_replacing {table : VarTable} {request : Request} {t : Var}
    (distinct : table.names.Nodup) (inside : request.v.index < table.size)
    (minted : t.index < table.size) (signed : IsSigned '%' (table.name t)) :
    (replacing table request t).Faithful where
  fits v small := by
    change (replace request t v).index < table.size ∧ table.name (replace request t v) =
      if table.name v = table.name request.v then table.name t else table.name v
    by_cases same : v = request.v
    · rw [replace, if_pos same, if_pos (same ▸ rfl)]
      exact ⟨minted, rfl⟩
    · rw [replace, if_neg same, if_neg]
      · exact ⟨small, rfl⟩
      · exact fun named => same (VarTable.eq_of_name_eq distinct small inside named)
  signed name spelled := by
    change IsSigned '%' (if name = table.name request.v then table.name t else name)
    split
    · exact signed
    · exact spelled

section Moves

variable {table : VarTable} {request : Request} {t : Var}

def slotKinds (slot : Slot) : List TokenKind :=
  [.word "mem", .word "rsp", .number (.ofNat slot.offset)]

theorem clean_slotKinds (slot : Slot) : Clean (slotKinds slot) where
  printable := by
    rw [slotKinds, List.forall_mem_cons, List.forall_mem_cons, List.forall_mem_singleton]
    exact ⟨⟨_, _, rfl, .inl (by decide +kernel), by decide +kernel⟩,
      ⟨_, _, rfl, .inl (by decide +kernel), by decide +kernel⟩, trivial⟩
  chain := .cons_cons nofun (.cons_cons (fun _ _ _ => rfl) (List.isChain_singleton _))

theorem clean_var {name : String} (signed : IsSigned '%' name) : Clean [.var name] :=
  ⟨List.forall_mem_singleton.mpr signed, List.isChain_singleton _⟩

/-- After an arrow a minus sign starts a number. -/
theorem clean_arrow {first second : List TokenKind} (before : Clean first) (after : Clean second) :
    Clean (first ++ .arrow :: second) where
  printable := by
    rw [List.forall_mem_append, List.forall_mem_cons]
    exact ⟨before.printable, trivial, after.printable⟩
  chain := by
    rw [List.isChain_append, List.isChain_cons]
    refine ⟨before.chain, ⟨fun _ _ _ _ _ => rfl, after.chain⟩, ?_⟩
    rintro _ - _ ⟨⟩ _ ⟨⟩

variable (room : request.slot.index < slotBound) (minted : t.index < table.size)
  (signed : IsSigned '%' (table.name t))
include room minted signed

theorem writable_load : (load request t).Writable table :=
  ⟨_, .assign (.var minted) (.slot (.mk (slotAt?_offset room))),
    clean_arrow (clean_var signed) (clean_slotKinds request.slot)⟩

theorem writable_store : (store request t).Writable table :=
  ⟨_, .assign (.slot (.mk (slotAt?_offset room))) (.simple (.operand (.var minted))),
    clean_arrow (clean_slotKinds request.slot) (clean_var signed)⟩

end Moves

section Rewriting

variable {table : VarTable} {request : Request} {low high : Nat}

theorem kept_writable (distinct : table.names.Nodup) (inside : request.v.index < table.size)
    (room : request.slot.index < slotBound)
    (minted : ∀ t ∈ mints low high, t.index < table.size ∧ IsSigned '%' (table.name t)) :
    Kept request low high (Instruction.Writable table) (Terminator.Writable table) where
  load t fresh := writable_load room (minted t fresh).1 (minted t fresh).2
  store t fresh := writable_store room (minted t fresh).1 (minted t fresh).2
  mapVars t fresh _ :=
    (faithful_replacing distinct inside (minted t fresh).1 (minted t fresh).2).instruction
  ends t fresh _ :=
    (faithful_replacing distinct inside (minted t fresh).1 (minted t fresh).2).terminator

theorem RewrittenParams.writable {list list' : List Param}
    (shape : RewrittenParams request low high list list')
    (minted : ∀ t ∈ mints low high, t.index < table.size ∧ IsSigned '%' (table.name t))
    (each : ∀ param ∈ list, param.Writable table) : ∀ param ∈ list', param.Writable table := by
  induction shape with
  | nil => exact each
  | keep _ _ ih =>
      rw [List.forall_mem_cons] at each ⊢
      exact ⟨each.1, ih minted each.2⟩
  | move _ rest ih =>
      rw [List.forall_mem_cons] at each ⊢
      refine ⟨?_, ih (fun t fresh => minted t (mints_succ_subset _ _ fresh)) each.2⟩
      obtain ⟨small, signed⟩ := minted _ (first_mem_mints rest.le)
      obtain ⟨_, ⟨typed, -⟩, printable⟩ := each.1
      rw [List.forall_mem_append] at printable
      refine ⟨_, .mk typed small, ?_⟩
      rw [List.forall_mem_append, List.forall_mem_singleton]
      exact ⟨printable.1, signed⟩

end Rewriting

theorem isSigned_name_one {f : Function} {request : Request} (distinct : f.vars.names.Nodup)
    (signed : IsSigned '%' request.stem) {t : Var}
    (fresh : t ∈ mints f.vars.size (one f request).function.vars.size) :
    IsSigned '%' ((one f request).function.vars.name t) := by
  obtain ⟨extended, distinct'⟩ := keepsNames_one f request
  obtain ⟨large, small⟩ := mem_mints.mp fresh
  rcases mem_names_one (VarTable.name_mem_names small) with old | ⟨number, named⟩
  -- A name that was there before belongs to an earlier variable.
  · obtain ⟨v, before, same⟩ := VarTable.exists_of_mem_names old
    obtain ⟨after, kept⟩ := VarTable.Extends.name_eq extended before
    cases VarTable.eq_of_name_eq (distinct' distinct) after small (kept.trans same)
    omega
  · exact named ▸ isSigned_freshName signed number

theorem writable_one {f : Function} {request : Request} (writable : f.Writable)
    (inside : request.v.index < f.vars.size) (signed : IsSigned '%' request.stem)
    (room : request.slot.index < slotBound) : (one f request).function.Writable := by
  obtain ⟨⟨mid, shape⟩, -⟩ := one_rewritten f request
  obtain ⟨names, distinct⟩ := keepsNames_one f request
  have extended : (one f request).function.vars.Extends f.vars := names
  have minted : ∀ t ∈ mints f.vars.size (one f request).function.vars.size,
      t.index < (one f request).function.vars.size ∧
        IsSigned '%' ((one f request).function.vars.name t) :=
    fun t fresh => ⟨(mem_mints.mp fresh).2, isSigned_name_one writable.names signed fresh⟩
  have labels : ∀ b ∈ (one f request).function.blocks, IsSigned ':' b.label := by
    intro b member
    have named : b.label ∈ f.blocks.map Block.label := shape.labels ▸ List.mem_map_of_mem member
    obtain ⟨old, listed, same⟩ := List.mem_map.mp named
    exact same ▸ writable.labels old listed
  exact {
    ret := ret_one f request ▸ writable.ret
    name := shape.name ▸ writable.name
    params := shape.params.writable
      (fun t fresh => minted t (shape.arriving_subset fresh))
      fun param member => (writable.params param member).enlarge extended
    labels := labels
    blocks := Kept.rewritten shape
      (kept_writable (distinct writable.names) (extended.name_eq inside).1 room minted)
      fun b member => (writable.blocks b member).enlarge extended
    nonempty := blocks_one_ne_nil writable.nonempty
    distinct := shape.labels ▸ writable.distinct
    names := distinct writable.names }

end Spill

def Function.Legible (f : Function) : Prop :=
  ∃ lines, FunctionLines lines f ∧ ∀ line ∈ lines, Clean line

theorem Function.Legible.writable {f : Function} (legible : f.Legible) : f.Writable := by
  obtain ⟨lines, spelled, clean⟩ := legible
  exact .of_lines spelled clean

theorem Function.Legible.parses {f : Function} (legible : f.Legible) :
    parseFunction f.render = .ok f := by
  obtain ⟨lines, spelled, clean⟩ := legible
  exact spelled.parses clean

/-- The text of a function that can be written down is the text of a function that is read from it,
which differs in the numbers of variables only. -/
theorem Function.Writable.exists_legible {f : Function} (writable : f.Writable) :
    ∃ g : Function, g.Legible ∧ g.render = f.render ∧
      ∃ rename, g.blocks = f.blocks.map (Block.mapVars rename) := by
  obtain ⟨lines, drafts, clean⟩ := writable.exists_lines
  obtain ⟨spelled, text⟩ := drafts.renumbered
  exact ⟨_, ⟨lines, spelled, clean⟩, text, _, rfl⟩

section Renumbering

variable {rename : Var → Var} {f g : Function}
  (renamed : g.blocks = f.blocks.map (Block.mapVars rename))
include renamed

theorem Function.slots_of_renamed : g.slots = f.slots := by
  simp only [slots, renamed, List.flatMap_map, Block.mapVars, Instruction.slots_mapVars]

theorem Function.nextFreeSlot_of_renamed : g.nextFreeSlot = f.nextFreeSlot := by
  rw [nextFreeSlot, slots_of_renamed renamed, nextFreeSlot]

theorem Flow.build_of_renamed {flow : Flow} : build g = .ok flow ↔ build f = .ok flow := by
  have labels : g.blocks.map Block.label = f.blocks.map Block.label := by
    rw [renamed, List.map_map]
    rfl
  have followed : ∀ (list : List Block) (nexts : List (List Nat)),
      (list.map (Block.mapVars rename)).mapM (fun block => targets g block.terminator) = .ok nexts ↔
        list.mapM (fun block => targets f block.terminator) = .ok nexts := by
    intro list
    induction list with
    | nil => exact fun _ => Iff.rfl
    | cons first rest ih =>
        simp only [List.map_cons, List.mapM_cons, except_bind_eq_ok, ih, Block.mapVars,
          targets_mapVars rename labels, implies_true]
  have sound : (∀ block ∈ g.blocks, block.Sound) ↔ ∀ block ∈ f.blocks, block.Sound := by
    simp only [renamed, List.forall_mem_map, Block.Sound, Block.mapVars,
      Instruction.violation_mapVars]
  rw [build_eq_ok_iff, build_eq_ok_iff, sound, renamed, followed]

end Renumbering

namespace Source

section Requests

variable {reader after : Reader} {name : String}

theorem varName_eq_ok (read : varName reader = .ok (name, after)) :
    reader.kinds = .var name :: after.kinds := by
  obtain ⟨_, _, advanced, read⟩ := parse_bind_eq_ok.mp read
  obtain ⟨next, rfl⟩ := advance_eq_ok advanced
  split at read
  · cases read
    obtain ⟨last, rest, table⟩ := reader
    cases rest with
    | nil => cases next
    | cons token rest =>
        have same : token.kind = .var name := Option.some.inj next
        exact congrArg (· :: rest.map Token.kind) same
  · exact absurd read refuseLast_ne_ok

theorem varName_reads_between {others : List (List TokenKind)}
    (layout : Layout reader.kinds ([.var name] :: others))
    (visible : reader.kinds.head? ≠ some .newline)
    (starts : ∀ line ∈ others.head?, ∃ first rest, line = first :: rest ∧ first ≠ .newline) :
    ∃ middle after, varName reader = .ok (name, middle) ∧ skipNewlines middle = .ok ((), after) ∧
      Layout after.kinds others ∧ after.kinds.head? ≠ some .newline := by
  obtain ⟨last, tokens, table⟩ := reader
  generalize whole : Reader.kinds ⟨last, tokens, table⟩ = kinds at layout visible
  cases layout with
  | newline layout => exact absurd rfl visible
  | line ends layout =>
      cases tokens with
      | nil => cases whole
      | cons token tokens =>
          obtain ⟨kind, line⟩ := token
          obtain ⟨rfl, rfl⟩ := List.cons.inj whole
          let middle : Reader := ⟨some ⟨.var name, line⟩, tokens, table⟩
          have layout : Layout middle.kinds others := layout
          obtain ⟨after, skipped, layout, visible⟩ := layout.skips starts
          exact ⟨middle, after, rfl, skipped, layout, visible⟩

end Requests

structure SpillRequest.Writable (request : SpillRequest) : Prop where
  function : request.function.Writable
  inside : request.v.index < request.function.vars.size
  signed : IsSigned '%' request.stem

def requestFor (f : Function) (name stem : String) : SpillRequest :=
  ⟨{ f with vars := (f.vars.intern name).2 }, (f.vars.intern name).1, stem⟩

theorem writable_requestFor {f : Function} (writable : f.Writable) (name : String) {stem : String}
    (signed : IsSigned '%' stem) : (requestFor f name stem).Writable where
  function := writable.withVars (f.vars.extends_intern name)
    (VarTable.nodup_intern writable.names name)
  inside := (VarTable.Extends.refl (f.vars.intern name).2).name_intern.1
  signed := signed

theorem build_requestFor {f : Function} {name stem : String} {flow : Flow} :
    Flow.build (requestFor f name stem).function = .ok flow ↔ Flow.build f = .ok flow := by
  have kept : ∀ block : Block, block.mapVars id = block := by
    intro block
    rw [Block.mapVars, List.map_id'' Instruction.mapVars_id, Terminator.mapVars_id]
  have same : (requestFor f name stem).function.blocks = f.blocks.map (Block.mapVars id) :=
    (List.map_id'' kept f.blocks).symm
  exact Flow.build_of_renamed same

theorem writable_of_parseSpillRequest {text : String} {request : SpillRequest}
    (parsed : parseSpillRequest text = .ok request) : request.Writable := by
  obtain ⟨tokens, scanned, parsed⟩ := except_bind_eq_ok.mp parsed
  obtain ⟨⟨_, last⟩, read, same⟩ := except_bind_eq_ok.mp parsed
  cases same
  have clean := clean_scan scanned
  obtain ⟨_, start, skipped, read⟩ := parse_bind_eq_ok.mp read
  obtain ⟨before, skipped⟩ := skipNewlines_eq_ok skipped
  obtain ⟨f, _, first, read⟩ := parse_bind_eq_ok.mp read
  obtain ⟨kinds, lines, passed, layout, spelled⟩ := layout_of_function first
  obtain ⟨_, _, skipped', read⟩ := parse_bind_eq_ok.mp read
  obtain ⟨between, skipped'⟩ := skipNewlines_eq_ok skipped'
  obtain ⟨name, _, named, read⟩ := parse_bind_eq_ok.mp read
  have named := varName_eq_ok named
  obtain ⟨_, _, skipped'', read⟩ := parse_bind_eq_ok.mp read
  obtain ⟨later, skipped''⟩ := skipNewlines_eq_ok skipped''
  obtain ⟨stem, end', stemmed, read⟩ := parse_bind_eq_ok.mp read
  have stemmed := varName_eq_ok stemmed
  obtain ⟨_, _, -, read⟩ := parse_bind_eq_ok.mp read
  obtain ⟨_, _, -, read⟩ := parse_bind_eq_ok.mp read
  cases read
  have whole : tokens.map Token.kind = List.replicate before .newline ++ (kinds ++
      (List.replicate between .newline ++ .var name :: (List.replicate later .newline ++
        .var stem :: end'.kinds))) := by
    rw [← stemmed, ← skipped''.passed, ← named, ← skipped'.passed, ← passed]
    exact skipped.passed
  have signed : IsSigned '%' stem := clean.printable (.var stem) (by simp [whole])
  have lineClean : ∀ line ∈ lines, Clean line := by
    intro line member
    refine clean.within ((layout.within line member).trans ?_)
    rw [whole]
    exact List.infix_append' _ _ _
  exact writable_requestFor (.of_lines spelled lineClean) name signed

def requestText (text name stem : String) : String :=
  text ++ (name ++ ("\n" ++ (stem ++ "\n")))

theorem parseSpillRequest_requestText {f : Function} (legible : f.Legible) {name stem : String}
    (named : IsSigned '%' name) (signed : IsSigned '%' stem) :
    parseSpillRequest (requestText f.render name stem) = .ok (requestFor f name stem) := by
  obtain ⟨lines, spelled, clean⟩ := legible
  have bounded : ∀ rest, Bounded ('\n' :: rest) := by
    rintro rest _ ⟨⟩
    decide
  have writes : Writes [.var name, .newline, .var stem, .newline]
      (name ++ ("\n" ++ (stem ++ "\n"))).toList := by
    simp only [String.toList_append]
    exact .token nofun named (.inr (bounded _)) (.newline (.token nofun signed (.inr (bounded _))
      (.newline .nil)))
  have layout : Layout [.var name, .newline, .var stem, .newline] [[.var name], [.var stem]] :=
    layout_spread [[.var name], [.var stem]] .nil
  have cleaned : Clean [.var name, .newline, .var stem, .newline] :=
    (Spill.clean_var named).line ((Spill.clean_var signed).line .nil)
  obtain ⟨lines', tokens, spelled, scanned, layout⟩ :=
    spelled.exists_scan clean writes cleaned layout
  have layout : Layout (Reader.kinds { rest := tokens }) (lines' ++ [[.var name], [.var stem]]) :=
    layout
  obtain ⟨_, _, _, skipped, read, skipped₂, layout, visible⟩ := spelled.reads_between layout (by
    rintro _ ⟨⟩
    exact ⟨_, _, rfl, nofun⟩)
  obtain ⟨_, _, named, skipped₃, layout, visible⟩ := varName_reads_between layout visible (by
    rintro _ ⟨⟩
    exact ⟨_, _, rfl, nofun⟩)
  obtain ⟨_, last, stemmed, skipped₄, layout, visible⟩ :=
    varName_reads_between layout visible (by simp)
  have ended := expectEnd_eq (layout.eq_nil visible)
  have whole : spillRequest { rest := tokens } = .ok (requestFor f name stem, last) :=
    parse_bind_ok skipped (parse_bind_ok read (parse_bind_ok skipped₂ (parse_bind_ok named
      (parse_bind_ok skipped₃ (parse_bind_ok stemmed (parse_bind_ok skipped₄
        (parse_bind_ok ended rfl)))))))
  rw [parseSpillRequest, Source.read, requestText, scanned]
  change (spillRequest { rest := tokens } >>= _) = _
  rw [whole]
  rfl

end Source

namespace Pipeline

/-- A text that is read as a function with the control flow of a function, and printed again as it
was. -/
def ReadsBack (text : String) (f : Function) : Prop :=
  ∃ g, parseFunction text = .ok g ∧ g.render = text ∧
    ∀ flow, Flow.build g = .ok flow ↔ Flow.build f = .ok flow

/-- Spills variables one after the other. Each name and prefix is a request on the text printed
before. -/
def respill (config : Allocation.Config) (text : String) : List (String × String) → Logged String
  | [] => return text
  | (name, stem) :: rest => do
    let printed ← run .spill config (requestText text name stem)
    respill config printed rest

theorem exists_legible_of_spill {text : String} {request : SpillRequest}
    (parsed : parseSpillRequest text = .ok request) (writable : request.Writable)
    (room : request.function.nextFreeSlot < slotBound) (config : Allocation.Config) :
    ∃ g : Function, (run .spill config text).result = .ok g.render ∧ g.Legible ∧
      g.nextFreeSlot ≤ request.function.nextFreeSlot + 1 ∧
      ∀ flow, Flow.build g = .ok flow ↔ Flow.build request.function = .ok flow := by
  obtain ⟨f, v, stem⟩ := request
  let spill : Spill.Request := ⟨v, ⟨f.nextFreeSlot⟩, stem⟩
  have printed : (run .spill config text).result = .ok (Spill.one f spill).function.render := by
    simp only [run, Pipeline.spill, refusals, parsed, Logged.result_bind, Logged.result_ofExcept]
    change ((Spill.freeSlot f).result >>= fun slot =>
      .ok (Spill.one f ⟨v, ⟨slot⟩, stem⟩).function.render) = _
    rw [Spill.freeSlot_of_lt room]
    rfl
  have spilled : (Spill.one f spill).function.Writable :=
    Spill.writable_one writable.function writable.inside writable.signed room
  obtain ⟨g, legible, same, rename, renamed⟩ := spilled.exists_legible
  refine ⟨g, same ▸ printed, legible, ?_, ?_⟩
  · rw [Function.nextFreeSlot_of_renamed renamed, Function.nextFreeSlot_le_iff]
    intro slot member
    rcases Spill.mem_slots_of_one member with old | rfl
    · exact Nat.lt_succ_of_lt (Function.nextFreeSlot_le_iff.mp le_rfl slot old)
    · exact Nat.lt_succ_self f.nextFreeSlot
  · intro flow
    rw [Flow.build_of_renamed renamed, Spill.build_one_iff]

theorem exists_legible_of_respill {f : Function} (legible : f.Legible)
    {later : List (String × String)}
    (signed : ∀ next ∈ later, IsSigned '%' next.1 ∧ IsSigned '%' next.2)
    (room : f.nextFreeSlot + later.length ≤ slotBound) (config : Allocation.Config) :
    ∃ g : Function, (respill config f.render later).result = .ok g.render ∧ g.Legible ∧
      ∀ flow, Flow.build g = .ok flow ↔ Flow.build f = .ok flow := by
  induction later generalizing f with
  | nil => exact ⟨f, rfl, legible, fun _ => Iff.rfl⟩
  | cons next later ih =>
      obtain ⟨name, stem⟩ := next
      obtain ⟨⟨named, stemmed⟩, signed⟩ := List.forall_mem_cons.mp signed
      rw [List.length_cons] at room
      have parsed : parseSpillRequest (requestText f.render name stem) =
          .ok (requestFor f name stem) := parseSpillRequest_requestText legible named stemmed
      have writable := writable_requestFor legible.writable name stemmed
      have free : (requestFor f name stem).function.nextFreeSlot = f.nextFreeSlot := rfl
      obtain ⟨g, ran, legible, next, flows⟩ :=
        exists_legible_of_spill parsed writable (by omega) config
      obtain ⟨last, ran', legible, flows'⟩ := ih legible signed (by omega)
      refine ⟨last, ?_, legible, fun flow => ?_⟩
      · rw [respill, Logged.result_bind, ran]
        exact ran'
      · rw [flows', flows, build_requestFor]

/-- What spilling prints is read again, as a function that is printed as it was read and has the
control flow of the function before: its blocks have the same successors, hence the same
predecessors and the same order. So any number of requests can be made one after the other, each on
the text printed for the one before. -/
theorem run_spill_readsBack {text : String} {request : SpillRequest}
    (parsed : parseSpillRequest text = .ok request)
    (room : request.function.nextFreeSlot < slotBound) (config : Allocation.Config) :
    ∃ printed, (run .spill config text).result = .ok printed ∧
      ReadsBack printed request.function ∧
      ∀ later : List (String × String),
        (∀ next ∈ later, IsSigned '%' next.1 ∧ IsSigned '%' next.2) →
        request.function.nextFreeSlot + later.length < slotBound →
        ∃ last, (respill config printed later).result = .ok last ∧
          ReadsBack last request.function := by
  obtain ⟨f, ran, legible, next, flows⟩ :=
    exists_legible_of_spill parsed (writable_of_parseSpillRequest parsed) room config
  refine ⟨f.render, ran, ⟨f, legible.parses, rfl, flows⟩, ?_⟩
  intro later signed room
  obtain ⟨g, ran, legible, flows'⟩ := exists_legible_of_respill legible signed (by omega) config
  exact ⟨g.render, ran, g, legible.parses, rfl, fun flow => (flows' flow).trans (flows flow)⟩

/-- A prefix whose first names are taken. The text of the first spill does not hold the name `%S0`
any more, so the later spills give it again. -/
theorem run_spill_readsBack_taken_names :
    ∃ text request printed last,
      text = "define int64 @f(int64 %S0) \x7b\n:e\n%S1 <- %S0 + 1\nmem rsp 8 <- %S1\nbr :e\n\x7d" ++
        "\n%S0\n%S" ∧
      parseSpillRequest text = .ok request ∧ request.function.nextFreeSlot = 2 ∧
      Flow.build request.function = .ok ⟨[[0]]⟩ ∧
      (run .spill {} text).result = .ok printed ∧ ReadsBack printed request.function ∧
      (respill {} printed [("%S3", "%S"), ("%S2", "%S")]).result = .ok last ∧
      ReadsBack last request.function := by
  obtain ⟨text, spelled⟩ : ∃ text, text =
    "define int64 @f(int64 %S0) \x7b\n:e\n%S1 <- %S0 + 1\nmem rsp 8 <- %S1\nbr :e\n\x7d" ++
      "\n%S0\n%S" := ⟨_, rfl⟩
  have read : (parseSpillRequest text).toOption.map (fun request =>
      (request.function.nextFreeSlot, (Flow.build request.function).toOption.map Flow.successors)) =
      some (2, some [[0]]) := by
    subst spelled
    decide +kernel
  simp only [Option.map_eq_some_iff, toOption_eq_some, Prod.mk.injEq] at read
  obtain ⟨request, parsed, free, ⟨successors⟩, built, rfl⟩ := read
  have signed : ∀ next ∈ [("%S3", "%S"), ("%S2", "%S")],
      IsSigned '%' next.1 ∧ IsSigned '%' next.2 := by
    have named : ∀ name : List Char, name ≠ [] → name.all Text.isNameChar = true →
        IsSigned '%' (String.ofList ('%' :: name)) :=
      fun name some each => ⟨name, String.toList_ofList, some, List.all_eq_true.mp each⟩
    have stem := named ['S'] nofun (by decide +kernel)
    rw [List.forall_mem_cons, List.forall_mem_singleton]
    exact ⟨⟨named ['S', '3'] nofun (by decide +kernel), stem⟩,
      named ['S', '2'] nofun (by decide +kernel), stem⟩
  obtain ⟨printed, ran, back, chain⟩ := run_spill_readsBack parsed (by rw [free]; decide) {}
  obtain ⟨last, ran', back'⟩ := chain _ signed (by rw [free]; decide)
  exact ⟨text, request, printed, last, spelled, parsed, free, built, ran, back, ran', back'⟩

end Pipeline

end Regalloc
