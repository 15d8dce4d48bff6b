import Mathlib
import Regalloc.Proofs.NameTable
import Regalloc.Spill

/-!
# The temporaries of a spill

Moving a variable to a slot mints temporaries one after the other, each at the next place of the
variable table, and every point that mentions the variable gets the next of them. So the
temporaries are those with indices from the old size of the table up to the new one, and each of
them belongs to one parameter, one instruction or one terminator. None of this asks anything of
the function.
-/

namespace Regalloc

namespace Spill

def moved (request : Request) (t : Var) (instruction : Instruction) : List Instruction :=
  (if request.v ∈ instruction.uses then [load request t] else []) ++
    [instruction.mapVars (replace request t)] ++
    (if request.v ∈ instruction.defs then [store request t] else [])

def mints (low high : Nat) : List Var :=
  (List.range' low (high - low)).map Var.mk

theorem mem_mints {low high : Nat} {t : Var} :
    t ∈ mints low high ↔ low ≤ t.index ∧ t.index < high := by
  simp only [mints, List.mem_map, List.mem_range'_1]
  constructor
  · rintro ⟨n, bounds, rfl⟩
    dsimp only
    omega
  · intro bounds
    exact ⟨t.index, by omega, rfl⟩

theorem first_mem_mints {low high : Nat} (less : low + 1 ≤ high) : ⟨low⟩ ∈ mints low high :=
  mem_mints.mpr ⟨Nat.le_refl _, less⟩

theorem mints_subset {low high low' high' : Nat} (above : low ≤ low') (below : high' ≤ high) :
    mints low' high' ⊆ mints low high := by
  intro t minted
  rw [mem_mints] at minted ⊢
  omega

theorem mints_succ_subset (low high : Nat) : mints (low + 1) high ⊆ mints low high :=
  mints_subset (Nat.le_succ _) (Nat.le_refl _)

theorem nodup_mints (low high : Nat) : (mints low high).Nodup :=
  List.Nodup.map (fun _ _ same => Var.mk.inj same) List.nodup_range'

@[simp] theorem mints_self (n : Nat) : mints n n = [] := by
  simp [mints]

@[simp] theorem mints_succ (n : Nat) : mints n (n + 1) = [⟨n⟩] := by
  simp [mints]

theorem mints_append {low mid high : Nat} (first : low ≤ mid) (second : mid ≤ high) :
    mints low mid ++ mints mid high = mints low high := by
  obtain ⟨count, rfl⟩ := Nat.exists_eq_add_of_le first
  obtain ⟨more, rfl⟩ := Nat.exists_eq_add_of_le second
  have whole : low + count + more - low = count + more := by omega
  simp only [mints, Nat.add_sub_cancel_left, whole, ← List.map_append, List.range'_append_1]

theorem mints_cons {low high : Nat} (less : low + 1 ≤ high) :
    mints low high = ⟨low⟩ :: mints (low + 1) high := by
  rw [← mints_append (Nat.le_succ low) less, mints_succ, List.singleton_append]

inductive Rewritten (request : Request) : Nat → Nat → List Instruction → List Instruction → Prop
  | nil (size : Nat) : Rewritten request size size [] []
  | keep {low high : Nat} {first : Instruction} {rest rest' : List Instruction} :
      request.v ∉ first.uses → request.v ∉ first.defs → Rewritten request low high rest rest' →
      Rewritten request low high (first :: rest) (first :: rest')
  | move {low high : Nat} {first : Instruction} {rest rest' : List Instruction} :
      request.v ∈ first.uses ∨ request.v ∈ first.defs →
      Rewritten request (low + 1) high rest rest' →
      Rewritten request low high (first :: rest) (moved request ⟨low⟩ first ++ rest')

inductive RewrittenEnd (request : Request) (terminator : Terminator) :
    Nat → Nat → List Instruction → Terminator → Prop
  | keep {size : Nat} : request.v ∉ terminator.uses →
      RewrittenEnd request terminator size size [] terminator
  | move {low : Nat} : request.v ∈ terminator.uses →
      RewrittenEnd request terminator low (low + 1) [load request ⟨low⟩]
        (terminator.mapVars (replace request ⟨low⟩))

inductive RewrittenBlocks (request : Request) : Nat → Nat → List Block → List Block → Prop
  | nil (size : Nat) : RewrittenBlocks request size size [] []
  | cons {low mid later high : Nat} {block : Block} {instrs loads : List Instruction}
      {terminator : Terminator} {rest rest' : List Block} :
      Rewritten request low mid block.instrs instrs →
      RewrittenEnd request block.terminator mid later loads terminator →
      RewrittenBlocks request later high rest rest' →
      RewrittenBlocks request low high (block :: rest)
        (⟨block.label, instrs ++ loads, terminator⟩ :: rest')

inductive RewrittenParams (request : Request) : Nat → Nat → List Param → List Param → Prop
  | nil (size : Nat) : RewrittenParams request size size [] []
  | keep {low high : Nat} {first : Param} {rest rest' : List Param} :
      first.v ≠ request.v → RewrittenParams request low high rest rest' →
      RewrittenParams request low high (first :: rest) (first :: rest')
  | move {low high : Nat} {first : Param} {rest rest' : List Param} :
      first.v = request.v → RewrittenParams request (low + 1) high rest rest' →
      RewrittenParams request low high (first :: rest) ({ first with v := ⟨low⟩ } :: rest')

/-- A function and what becomes of it: `mid` is the size of the table after the parameters. -/
structure RewrittenAs (request : Request) (mid : Nat) (f f' : Function) : Prop where
  name : f'.name = f.name
  params : RewrittenParams request f.vars.size mid f.params f'.params
  blocks : RewrittenBlocks request mid f'.vars.size
    (onEntry ((mints f.vars.size mid).map (store request)) f.blocks) f'.blocks

section Sizes

variable {request : Request} {low high : Nat}

theorem Rewritten.le {instrs instrs' : List Instruction}
    (shape : Rewritten request low high instrs instrs') : low ≤ high := by
  induction shape with
  | nil => exact Nat.le_refl _
  | keep _ _ _ ih => exact ih
  | move _ _ ih => exact Nat.le_of_succ_le ih

theorem RewrittenEnd.le {t t' : Terminator} {loads : List Instruction}
    (shape : RewrittenEnd request t low high loads t') : low ≤ high := by
  cases shape with
  | keep => exact Nat.le_refl _
  | move => exact Nat.le_succ _

theorem RewrittenBlocks.le {list list' : List Block}
    (shape : RewrittenBlocks request low high list list') : low ≤ high := by
  induction shape with
  | nil => exact Nat.le_refl _
  | cons instrs ending _ ih => exact instrs.le.trans (ending.le.trans ih)

theorem RewrittenParams.le {list list' : List Param}
    (shape : RewrittenParams request low high list list') : low ≤ high := by
  induction shape with
  | nil => exact Nat.le_refl _
  | keep _ _ ih => exact ih
  | move _ _ ih => exact Nat.le_of_succ_le ih

theorem RewrittenAs.le {mid : Nat} {f f' : Function} (shape : RewrittenAs request mid f f') :
    f.vars.size ≤ f'.vars.size :=
  shape.params.le.trans shape.blocks.le

theorem RewrittenAs.arriving_subset {mid : Nat} {f f' : Function}
    (shape : RewrittenAs request mid f f') :
    mints f.vars.size mid ⊆ mints f.vars.size f'.vars.size :=
  mints_subset (Nat.le_refl _) shape.blocks.le

end Sizes

section Labels

variable {request : Request}

theorem RewrittenBlocks.labels {low high : Nat} {list list' : List Block}
    (shape : RewrittenBlocks request low high list list') :
    list'.map Block.label = list.map Block.label := by
  induction shape with
  | nil => rfl
  | cons _ _ _ ih => rw [List.map_cons, List.map_cons, ih]

theorem labels_onEntry (stores : List Instruction) (list : List Block) :
    (onEntry stores list).map Block.label = list.map Block.label := by
  cases list <;> rfl

theorem RewrittenAs.labels {mid : Nat} {f f' : Function} (shape : RewrittenAs request mid f f') :
    f'.blocks.map Block.label = f.blocks.map Block.label :=
  shape.blocks.labels.trans (labels_onEntry _ _)

end Labels

section Properties

/-- Properties of instructions and of terminators that moves have and that the replacement of the
variable by one of some temporaries keeps. -/
structure Kept (request : Request) (low high : Nat) (P : Instruction → Prop)
    (R : Terminator → Prop) : Prop where
  load : ∀ t ∈ mints low high, P (load request t)
  store : ∀ t ∈ mints low high, P (store request t)
  mapVars : ∀ t ∈ mints low high, ∀ i, P i → P (i.mapVars (replace request t))
  ends : ∀ t ∈ mints low high, ∀ e, R e → R (e.mapVars (replace request t))

theorem Kept.mono {request : Request} {low high low' high' : Nat} {P : Instruction → Prop}
    {R : Terminator → Prop} (kept : Kept request low high P R) (above : low ≤ low')
    (below : high' ≤ high) : Kept request low' high' P R where
  load t minted := kept.load t (mints_subset above below minted)
  store t minted := kept.store t (mints_subset above below minted)
  mapVars t minted := kept.mapVars t (mints_subset above below minted)
  ends t minted := kept.ends t (mints_subset above below minted)

variable {request : Request} {low high : Nat} {P : Instruction → Prop} {R : Terminator → Prop}
  (kept : Kept request low high P R)
include kept

theorem Kept.moved {t : Var} (minted : t ∈ mints low high) {i : Instruction} (holds : P i) :
    ∀ i' ∈ moved request t i, P i' := by
  intro i' member
  simp only [Spill.moved, List.mem_append, List.mem_ite_nil_right, List.mem_singleton] at member
  rcases member with (⟨-, rfl⟩ | rfl) | ⟨-, rfl⟩
  · exact kept.load t minted
  · exact kept.mapVars t minted i holds
  · exact kept.store t minted

theorem Kept.instrs {instrs instrs' : List Instruction}
    (shape : Rewritten request low high instrs instrs') (each : ∀ i ∈ instrs, P i) :
    ∀ i ∈ instrs', P i := by
  induction shape with
  | nil => exact each
  | keep _ _ _ ih =>
      rw [List.forall_mem_cons] at each ⊢
      exact ⟨each.1, ih kept each.2⟩
  | move _ rest ih =>
      rw [List.forall_mem_cons] at each
      rw [List.forall_mem_append]
      exact ⟨kept.moved (first_mem_mints rest.le) each.1,
        ih (kept.mono (Nat.le_succ _) (Nat.le_refl _)) each.2⟩

theorem Kept.ending {t t' : Terminator} {loads : List Instruction}
    (shape : RewrittenEnd request t low high loads t') (holds : R t) :
    (∀ i ∈ loads, P i) ∧ R t' := by
  cases shape with
  | keep => exact ⟨fun i member => absurd member List.not_mem_nil, holds⟩
  | move =>
      have minted := first_mem_mints (Nat.le_refl (low + 1))
      exact ⟨List.forall_mem_singleton.mpr (kept.load _ minted), kept.ends _ minted t holds⟩

theorem Kept.blocks {list list' : List Block}
    (shape : RewrittenBlocks request low high list list')
    (each : ∀ b ∈ list, (∀ i ∈ b.instrs, P i) ∧ R b.terminator) :
    ∀ b ∈ list', (∀ i ∈ b.instrs, P i) ∧ R b.terminator := by
  induction shape with
  | nil => exact each
  | cons instrs ending rest ih =>
      rw [List.forall_mem_cons] at each ⊢
      have points := (kept.mono (Nat.le_refl _) (ending.le.trans rest.le)).instrs instrs each.1.1
      have last := (kept.mono instrs.le rest.le).ending ending each.1.2
      exact ⟨⟨List.forall_mem_append.mpr ⟨points, last.1⟩, last.2⟩,
        ih (kept.mono (instrs.le.trans ending.le) (Nat.le_refl _)) each.2⟩

theorem Kept.onEntry {temporaries : List Var} (minted : temporaries ⊆ mints low high)
    {list : List Block} (each : ∀ b ∈ list, (∀ i ∈ b.instrs, P i) ∧ R b.terminator) :
    ∀ b ∈ onEntry (temporaries.map (Spill.store request)) list,
      (∀ i ∈ b.instrs, P i) ∧ R b.terminator := by
  cases list with
  | nil => exact each
  | cons first rest =>
      rw [Spill.onEntry, List.forall_mem_cons]
      rw [List.forall_mem_cons] at each
      refine ⟨⟨?_, each.1.2⟩, each.2⟩
      rw [List.forall_mem_append, List.forall_mem_map]
      exact ⟨fun t member => kept.store t (minted member), each.1.1⟩

omit kept in
/-- What holds of every instruction and terminator of a function holds after the rewriting. -/
theorem Kept.rewritten {mid : Nat} {f f' : Function} (shape : RewrittenAs request mid f f')
    (kept : Kept request f.vars.size f'.vars.size P R)
    (each : ∀ b ∈ f.blocks, (∀ i ∈ b.instrs, P i) ∧ R b.terminator) :
    ∀ b ∈ f'.blocks, (∀ i ∈ b.instrs, P i) ∧ R b.terminator :=
  (kept.mono shape.params.le (Nat.le_refl _)).blocks shape.blocks
    (kept.onEntry shape.arriving_subset each)

end Properties

section Runs

variable {request : Request}

structure Grown (request : Request) (before after : Minted) : Prop where
  le : before.table.size ≤ after.table.size
  temporaries : after.temporaries =
    before.temporaries ++ mints before.table.size after.table.size
  table : before.table.KeepsNames after.table
  named : ∀ name ∈ after.table.names,
    name ∈ before.table.names ∨ ∃ number, name = VarTable.freshName request.stem number

theorem Grown.refl (minted : Minted) : Grown request minted minted :=
  ⟨Nat.le_refl _, by rw [mints_self, List.append_nil], .refl _, fun _ => Or.inl⟩

theorem Grown.trans {first second third : Minted} (early : Grown request first second)
    (late : Grown request second third) : Grown request first third := by
  refine ⟨early.le.trans late.le, ?_, early.table.trans late.table, fun name member => ?_⟩
  · rw [late.temporaries, early.temporaries, List.append_assoc, mints_append early.le late.le]
  · exact (late.named name member).elim (early.named name) Or.inr

theorem mint_run (request : Request) (minted : Minted) :
    ((mint request).run minted).1 = ⟨minted.table.size⟩ ∧
      ((mint request).run minted).2.table.size = minted.table.size + 1 :=
  VarTable.fresh_eq minted.table request.stem

theorem grown_mint (request : Request) (minted : Minted) :
    Grown request minted ((mint request).run minted).2 := by
  obtain ⟨place, size⟩ := mint_run request minted
  refine ⟨by omega, ?_, minted.table.keepsNames_fresh request.stem, fun name member => ?_⟩
  · rw [size, mints_succ, ← place]
    rfl
  · have member : name ∈ (minted.table.fresh request.stem).2.names := member
    rw [VarTable.fresh_run, List.mem_append, List.mem_singleton] at member
    exact member.imp_right fun same => ⟨_, same⟩

theorem instruction_run (request : Request) (i : Instruction) (minted : Minted) :
    (instruction request i).run minted =
      if request.v ∈ i.uses ∨ request.v ∈ i.defs then
        (moved request ((mint request).run minted).1 i, ((mint request).run minted).2)
      else ([i], minted) := by
  unfold instruction moved
  by_cases used : request.v ∈ i.uses <;> by_cases defined : request.v ∈ i.defs <;>
    simp [used, defined] <;> rfl

theorem instructions_rewritten {instrs out : List Instruction} {minted final : Minted}
    (ran : (instructions request instrs).run minted = (out, final)) :
    Rewritten request minted.table.size final.table.size instrs out ∧
      Grown request minted final := by
  induction instrs generalizing minted out with
  | nil =>
      cases ran
      exact ⟨.nil _, .refl _⟩
  | cons first rest ih =>
      have first_run := instruction_run request first minted
      by_cases occurs : request.v ∈ first.uses ∨ request.v ∈ first.defs
      · rw [if_pos occurs] at first_run
        generalize rest_run :
          (instructions request rest).run ((mint request).run minted).2 = others at *
        have joined : (instructions request (first :: rest)).run minted =
            (moved request ((mint request).run minted).1 first ++ others.1, others.2) := by
          rw [← rest_run]
          simp only [instructions, StateT.run_bind, first_run]
          rfl
        rw [joined] at ran
        cases ran
        obtain ⟨place, size⟩ := mint_run request minted
        obtain ⟨shape, grown⟩ := ih rest_run
        rw [size] at shape
        rw [place]
        exact ⟨.move occurs shape, (grown_mint request minted).trans grown⟩
      · rw [if_neg occurs] at first_run
        generalize rest_run : (instructions request rest).run minted = others at *
        have joined : (instructions request (first :: rest)).run minted =
            (first :: others.1, others.2) := by
          rw [← rest_run]
          simp only [instructions, StateT.run_bind, first_run]
          rfl
        rw [joined] at ran
        cases ran
        rw [not_or] at occurs
        obtain ⟨shape, grown⟩ := ih rest_run
        exact ⟨.keep occurs.1 occurs.2 shape, grown⟩

theorem terminator_rewritten {t t' : Terminator} {minted final : Minted}
    {loads : List Instruction}
    (ran : (terminator request t).run minted = ((loads, t'), final)) :
    RewrittenEnd request t minted.table.size final.table.size loads t' ∧
      Grown request minted final := by
  by_cases used : request.v ∈ t.uses
  · have moving : (terminator request t).run minted =
        (([load request ((mint request).run minted).1],
          t.mapVars (replace request ((mint request).run minted).1)),
        ((mint request).run minted).2) := by
      simp only [terminator, List.contains_eq_mem, used, decide_true, if_true]
      rfl
    rw [moving] at ran
    cases ran
    obtain ⟨place, size⟩ := mint_run request minted
    rw [size, place]
    exact ⟨.move used, grown_mint request minted⟩
  · have keeping : (terminator request t).run minted = (([], t), minted) := by
      simp only [terminator, List.contains_eq_mem, used, decide_false, Bool.false_eq_true,
        if_false]
      rfl
    rw [keeping] at ran
    cases ran
    exact ⟨.keep used, .refl _⟩

theorem blocks_rewritten {list list' : List Block} {minted final : Minted}
    (ran : (blocks request list).run minted = (list', final)) :
    RewrittenBlocks request minted.table.size final.table.size list list' ∧
      Grown request minted final := by
  induction list generalizing minted list' with
  | nil =>
      cases ran
      exact ⟨.nil _, .refl _⟩
  | cons first rest ih =>
      generalize instrs_run : (instructions request first.instrs).run minted = instrs
      generalize end_run : (terminator request first.terminator).run instrs.2 = ending
      generalize rest_run : (blocks request rest).run ending.2 = tail
      have joined : (blocks request (first :: rest)).run minted =
          (⟨first.label, instrs.1 ++ ending.1.1, ending.1.2⟩ :: tail.1, tail.2) := by
        rw [← rest_run, ← end_run, ← instrs_run]
        rfl
      rw [joined] at ran
      cases ran
      obtain ⟨instrs_shape, early⟩ := instructions_rewritten instrs_run
      obtain ⟨end_shape, next⟩ := terminator_rewritten end_run
      obtain ⟨rest_shape, late⟩ := ih rest_run
      exact ⟨.cons instrs_shape end_shape rest_shape, early.trans (next.trans late)⟩

theorem params_rewritten {list list' : List Param} {stores : List Instruction}
    {minted final : Minted} (ran : (params request list).run minted = ((list', stores), final)) :
    RewrittenParams request minted.table.size final.table.size list list' ∧
      stores = (mints minted.table.size final.table.size).map (store request) ∧
      Grown request minted final := by
  induction list generalizing minted list' stores with
  | nil =>
      cases ran
      exact ⟨.nil _, by rw [mints_self, List.map_nil], .refl _⟩
  | cons first rest ih =>
      by_cases same : first.v = request.v
      · generalize rest_run : (params request rest).run ((mint request).run minted).2 = tail
        have joined : (params request (first :: rest)).run minted =
            (({ first with v := ((mint request).run minted).1 } :: tail.1.1,
              store request ((mint request).run minted).1 :: tail.1.2), tail.2) := by
          rw [← rest_run]
          simp only [params, same, if_true]
          rfl
        rw [joined] at ran
        cases ran
        obtain ⟨place, size⟩ := mint_run request minted
        obtain ⟨shape, stored, grown⟩ := ih rest_run
        rw [size] at shape stored
        rw [place, stored, mints_cons shape.le, List.map_cons]
        exact ⟨.move same shape, rfl, (grown_mint request minted).trans grown⟩
      · generalize rest_run : (params request rest).run minted = tail
        have joined : (params request (first :: rest)).run minted =
            ((first :: tail.1.1, tail.1.2), tail.2) := by
          rw [← rest_run]
          simp only [params, same, if_false]
          rfl
        rw [joined] at ran
        cases ran
        obtain ⟨shape, stored, grown⟩ := ih rest_run
        exact ⟨.keep same shape, stored, grown⟩

theorem one_run (f : Function) (request : Request) :
    ∃ mid final, RewrittenAs request mid f (one f request).function ∧
      Grown request { table := f.vars } final ∧ (one f request).function.vars = final.table ∧
      (one f request).temporaries = final.temporaries := by
  generalize params_run : (params request f.params).run { table := f.vars } = arriving
  generalize blocks_run :
    (blocks request (onEntry arriving.1.2 f.blocks)).run arriving.2 = rewritten
  have joined : one f request =
      ⟨{ f with params := arriving.1.1, blocks := rewritten.1, vars := rewritten.2.table },
        rewritten.2.temporaries,
        [.spilled f.name (rewritten.2.table.name request.v) request.slot
          rewritten.2.temporaries.length]⟩ := by
    rw [← blocks_run, ← params_run]
    rfl
  obtain ⟨params_shape, stored, early⟩ := params_rewritten params_run
  obtain ⟨blocks_shape, late⟩ := blocks_rewritten blocks_run
  rw [stored] at blocks_shape
  rw [joined]
  exact ⟨arriving.2.table.size, rewritten.2, ⟨rfl, params_shape, blocks_shape⟩,
    early.trans late, rfl, rfl⟩

theorem one_rewritten (f : Function) (request : Request) :
    (∃ mid, RewrittenAs request mid f (one f request).function) ∧
      (one f request).temporaries = mints f.vars.size (one f request).function.vars.size := by
  obtain ⟨mid, final, shape, grown, table, temporaries⟩ := one_run f request
  refine ⟨⟨mid, shape⟩, ?_⟩
  rw [temporaries, grown.temporaries, table, List.nil_append]

theorem ret_one (f : Function) (request : Request) : (one f request).function.ret = f.ret :=
  rfl

theorem keepsNames_one (f : Function) (request : Request) :
    f.vars.KeepsNames (one f request).function.vars := by
  obtain ⟨_, final, -, grown, table, -⟩ := one_run f request
  rw [table]
  exact grown.table

theorem mem_names_one {f : Function} {request : Request} {name : String}
    (member : name ∈ (one f request).function.vars.names) :
    name ∈ f.vars.names ∨ ∃ number, name = VarTable.freshName request.stem number := by
  obtain ⟨_, final, -, grown, table, -⟩ := one_run f request
  rw [table] at member
  exact grown.named name member

theorem keepsNames_all (stem : String) (f : Function) (vars : List Var) (first : Nat) :
    f.vars.KeepsNames (all stem f vars first).function.vars := by
  induction vars generalizing f first with
  | nil => exact .refl _
  | cons v rest ih => exact (keepsNames_one f _).trans (ih _ (first + 1))

end Runs

end Spill

end Regalloc
