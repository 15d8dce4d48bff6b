import Mathlib
import Regalloc.Proofs.AssemblyText
import Regalloc.Proofs.SpilledSites
import Regalloc.Proofs.StackSlots

/-!
# A spill only puts in moves

Variables are moved to slots one after the other, each in a function that the moves before it have
changed. Still, whoever takes the moves between temporaries and the new slots out of the result,
and calls each temporary by the variable it stands for, has the function back as it was. Nothing
is asked of jump targets for this; if they are labels of the function, the result jumps along the
same edges and has none of the variables left.
-/

namespace Regalloc

section Renaming

variable {rename : Var → Var}

namespace Expr

mutual

theorem mapVars_mapVars (first : Var → Var) :
    ∀ expr : Expr, (expr.mapVars first).mapVars rename = expr.mapVars (rename ∘ first)
  | .type _ => rfl
  | .const _ => rfl
  | .label _ => rfl
  | .var _ => rfl
  | .slot _ => rfl
  | .access base offsets => by
      simp [mapVars, mapVars_mapVars first base, mapVarsOfAll_mapVarsOfAll first offsets]
  | .binary _ left right => by
      simp [mapVars, mapVars_mapVars first left, mapVars_mapVars first right]
  | .call _ callee args => by
      simp [mapVars, mapVars_mapVars first callee, mapVarsOfAll_mapVarsOfAll first args]
  | .newArray dims => by simp [mapVars, mapVarsOfAll_mapVarsOfAll first dims]
  | .newTuple size => by simp [mapVars, mapVars_mapVars first size]
  | .length base dim => by
      simp [mapVars, mapVars_mapVars first base, mapVars_mapVars first dim]

theorem mapVarsOfAll_mapVarsOfAll (first : Var → Var) : ∀ exprs : List Expr,
    mapVarsOfAll rename (mapVarsOfAll first exprs) = mapVarsOfAll (rename ∘ first) exprs
  | [] => rfl
  | expr :: exprs => by
      simp [mapVarsOfAll, mapVars_mapVars first expr, mapVarsOfAll_mapVarsOfAll first exprs]

end

mutual

theorem mapVars_eq_self : ∀ {expr : Expr}, (∀ v, .var v ∈ expr.leaves → rename v = v) →
    expr.mapVars rename = expr
  | .type _, _ => rfl
  | .const _, _ => rfl
  | .label _, _ => rfl
  | .var v, fixed => congrArg Expr.var (fixed v (List.mem_singleton_self _))
  | .slot _, _ => rfl
  | .access base offsets, fixed => by
      rw [mapVars, mapVars_eq_self fun v leaf => fixed v (List.mem_append_left _ leaf),
        mapVarsOfAll_eq_self fun v leaf => fixed v (List.mem_append_right _ leaf)]
  | .binary _ left right, fixed => by
      rw [mapVars, mapVars_eq_self fun v leaf => fixed v (List.mem_append_left _ leaf),
        mapVars_eq_self fun v leaf => fixed v (List.mem_append_right _ leaf)]
  | .call _ callee args, fixed => by
      rw [mapVars, mapVars_eq_self fun v leaf => fixed v (List.mem_append_left _ leaf),
        mapVarsOfAll_eq_self fun v leaf => fixed v (List.mem_append_right _ leaf)]
  | .newArray _, fixed => congrArg Expr.newArray (mapVarsOfAll_eq_self fixed)
  | .newTuple _, fixed => congrArg Expr.newTuple (mapVars_eq_self fixed)
  | .length base dim, fixed => by
      rw [mapVars, mapVars_eq_self fun v leaf => fixed v (List.mem_append_left _ leaf),
        mapVars_eq_self fun v leaf => fixed v (List.mem_append_right _ leaf)]

theorem mapVarsOfAll_eq_self : ∀ {exprs : List Expr},
    (∀ v, .var v ∈ leavesOfAll exprs → rename v = v) → mapVarsOfAll rename exprs = exprs
  | [], _ => rfl
  | expr :: exprs, fixed => by
      rw [mapVarsOfAll, mapVars_eq_self fun v leaf => fixed v (List.mem_append_left _ leaf),
        mapVarsOfAll_eq_self fun v leaf => fixed v (List.mem_append_right _ leaf)]

end

end Expr

theorem Instruction.mapVars_mapVars (first : Var → Var) (instruction : Instruction) :
    (instruction.mapVars first).mapVars rename = instruction.mapVars (rename ∘ first) := by
  cases instruction <;>
    simp [mapVars, Expr.mapVars_mapVars, Expr.mapVarsOfAll_mapVarsOfAll]

theorem Terminator.mapVars_mapVars (first : Var → Var) (terminator : Terminator) :
    (terminator.mapVars first).mapVars rename = terminator.mapVars (rename ∘ first) := by
  cases terminator <;> simp [mapVars, Expr.mapVars_mapVars]

theorem Expr.mapVars_eq_of_fixed {expr : Expr} (fixed : ∀ v ∈ expr.varOccurrences, rename v = v) :
    expr.mapVars rename = expr :=
  mapVars_eq_self fun v leaf => fixed v (mem_varOccurrences.mpr leaf)

theorem Instruction.mapVars_eq_of_fixed {instruction : Instruction}
    (fixed : ∀ v ∈ instruction.varOccurrences, rename v = v) :
    instruction.mapVars rename = instruction := by
  cases instruction with
  | declare ty v => exact congrArg (declare ty) (fixed v (List.mem_singleton_self v))
  | call builtin callee args =>
      have whole := Expr.mapVars_eq_of_fixed fixed
      simpa [mapVars, Expr.mapVars] using whole
  | assign target source =>
      rw [varOccurrences, List.forall_mem_append] at fixed
      rw [mapVars, Expr.mapVars_eq_of_fixed fixed.1, Expr.mapVars_eq_of_fixed fixed.2]

theorem Terminator.mapVars_eq_of_fixed {terminator : Terminator}
    (fixed : ∀ v ∈ terminator.varOccurrences, rename v = v) :
    terminator.mapVars rename = terminator := by
  cases terminator with
  | ret => rfl
  | retValue value => exact congrArg retValue (Expr.mapVars_eq_of_fixed fixed)
  | jump target => exact congrArg jump (Expr.mapVars_eq_of_fixed fixed)
  | branch condition onTrue onFalse =>
      rw [varOccurrences, List.forall_mem_append, List.forall_mem_append] at fixed
      rw [mapVars, Expr.mapVars_eq_of_fixed fixed.1.1, Expr.mapVars_eq_of_fixed fixed.1.2,
        Expr.mapVars_eq_of_fixed fixed.2]

end Renaming

def Block.without (drop : Instruction → Bool) (block : Block) : Block :=
  { block with instrs := block.instrs.filter fun i => !drop i }

def Function.without (drop : Instruction → Bool) (f : Function) : Function :=
  { f with blocks := f.blocks.map (Block.without drop) }

theorem Function.without_eq_self {drop : Instruction → Bool} {f : Function}
    (kept : ∀ b ∈ f.blocks, ∀ i ∈ b.instrs, drop i = false) : f.without drop = f := by
  have blocks : f.blocks.map (Block.without drop) = f.blocks.map id := by
    apply List.map_congr_left
    intro b listed
    have instrs : (b.instrs.filter fun i => !drop i) = b.instrs := by
      rw [List.filter_eq_self]
      intro i inside
      rw [kept b listed i inside, Bool.not_false]
    rw [Block.without, instrs, id]
  rw [without, blocks, List.map_id]

theorem Function.mapVars_eq_of_fixed {rename : Var → Var} {f : Function}
    (fixed : ∀ v ∈ f.varOccurrences, rename v = v) : f.mapVars rename = f := by
  rw [varOccurrences, List.forall_mem_append] at fixed
  have params : f.params.map (fun param => { param with v := rename param.v }) =
      f.params.map id := by
    apply List.map_congr_left
    intro param listed
    rw [fixed.1 param.v (List.mem_map_of_mem listed), id]
  have blocks : f.blocks.map (Block.mapVars rename) = f.blocks.map id := by
    apply List.map_congr_left
    intro b listed
    have here : ∀ v ∈ b.instrs.flatMap Instruction.varOccurrences ++ b.terminator.varOccurrences,
        rename v = v := fun v written => fixed.2 v (List.mem_flatMap.mpr ⟨b, listed, written⟩)
    rw [List.forall_mem_append] at here
    have instrs : b.instrs.map (Instruction.mapVars rename) = b.instrs.map id := by
      apply List.map_congr_left
      intro i inside
      exact Instruction.mapVars_eq_of_fixed fun v written =>
        here.1 v (List.mem_flatMap.mpr ⟨i, inside, written⟩)
    rw [Block.mapVars, instrs, Terminator.mapVars_eq_of_fixed here.2, List.map_id, id]
  rw [mapVars, params, blocks, List.map_id, List.map_id]

namespace Spill

def isMove (temporaries : List Var) (low high : Nat) : Instruction → Bool
  | .assign (.var t) (.slot slot) => t ∈ temporaries ∧ low ≤ slot.index ∧ slot.index < high
  | .assign (.slot slot) (.var t) => t ∈ temporaries ∧ low ≤ slot.index ∧ slot.index < high
  | _ => false

def shares (stem : String) (f : Function) : List Var → (first : Nat) → List (Var × List Var)
  | [], _ => []
  | v :: rest, first =>
    let head := one f ⟨v, ⟨first⟩, stem⟩
    (v, head.temporaries) :: shares stem head.function rest (first + 1)

/-- The variable that a temporary stands for. All others stand for themselves. -/
def owner (shares : List (Var × List Var)) (t : Var) : Var :=
  ((shares.find? fun share => t ∈ share.2).map Prod.fst).getD t

section Moves

variable {temporaries : List Var} {low high : Nat} {i : Instruction}

theorem exists_slot_of_isMove (move : isMove temporaries low high i = true) :
    ∃ slot ∈ i.slots, low ≤ slot.index ∧ slot.index < high := by
  unfold isMove at move
  split at move
  · rename_i t slot
    exact ⟨slot, by simp [Instruction.slots, Expr.slots, Expr.leaves, Leaf.slot?],
      (of_decide_eq_true move).2⟩
  · rename_i slot t
    exact ⟨slot, by simp [Instruction.slots, Expr.slots, Expr.leaves, Leaf.slot?],
      (of_decide_eq_true move).2⟩
  · cases move

theorem mem_of_isMove (move : isMove temporaries low high i = true) {v : Var}
    (occurs : v ∈ i.uses ∨ v ∈ i.defs) : v ∈ temporaries := by
  unfold isMove at move
  split at move
  · rename_i t slot
    have same : v = t := by
      simpa [Instruction.uses, Instruction.defs, Expr.vars, Expr.varOccurrences, Expr.leaves,
        Leaf.var?, Expr.var?] using occurs
    exact same ▸ (of_decide_eq_true move).1
  · rename_i slot t
    have same : v = t := by
      simpa [Instruction.uses, Instruction.defs, Expr.vars, Expr.varOccurrences, Expr.leaves,
        Leaf.var?, Expr.var?] using occurs
    exact same ▸ (of_decide_eq_true move).1
  · cases move

/-- An instruction that refers to a slot from `low` on and below `high` is a move. -/
def Clean (temporaries : List Var) (low high : Nat) (i : Instruction) : Prop :=
  isMove temporaries low high i = true ∨ ∀ slot ∈ i.slots, ¬(low ≤ slot.index ∧ slot.index < high)

theorem isMove_eq_false (outside : ∀ slot ∈ i.slots, ¬(low ≤ slot.index ∧ slot.index < high)) :
    isMove temporaries low high i = false := by
  rw [Bool.eq_false_iff]
  intro move
  obtain ⟨slot, used, inside⟩ := exists_slot_of_isMove move
  exact outside slot used inside

end Moves

/-- The moves of a spill count as moves, and its temporaries are named like its variable, which is
not a temporary itself. -/
structure Undone (temporaries : List Var) (low high : Nat) (rename : Var → Var)
    (request : Request) (minted : List Var) : Prop where
  apart : request.v ∉ temporaries
  slot : low ≤ request.slot.index ∧ request.slot.index < high
  temporary : ∀ t ∈ minted, t ∈ temporaries
  named : ∀ t ∈ minted, rename t = rename request.v

def restored (move : Instruction → Bool) (rename : Var → Var) (instrs : List Instruction) :
    List Instruction :=
  (instrs.filter fun i => !move i).map (Instruction.mapVars rename)

section Steps

variable {temporaries : List Var} {low high : Nat} {rename : Var → Var} {request : Request}

theorem restored_append (move : Instruction → Bool) (first second : List Instruction) :
    restored move rename (first ++ second) =
      restored move rename first ++ restored move rename second := by
  rw [restored, List.filter_append, List.map_append]
  rfl

theorem restored_eq_nil {move : Instruction → Bool} {instrs : List Instruction}
    (moves : ∀ i ∈ instrs, move i = true) : restored move rename instrs = [] := by
  rw [restored, List.map_eq_nil_iff, List.filter_eq_nil_iff]
  intro i member
  simp [moves i member]

theorem Undone.mono {minted some : List Var}
    (undone : Undone temporaries low high rename request minted) (part : some ⊆ minted) :
    Undone temporaries low high rename request some :=
  ⟨undone.apart, undone.slot, fun t member => undone.temporary t (part member),
    fun t member => undone.named t (part member)⟩

variable {minted : List Var} (undone : Undone temporaries low high rename request minted) {t : Var}

include undone

theorem Undone.isMove_load (member : t ∈ minted) :
    isMove temporaries low high (load request t) = true :=
  decide_eq_true ⟨undone.temporary t member, undone.slot⟩

theorem Undone.isMove_store (member : t ∈ minted) :
    isMove temporaries low high (store request t) = true :=
  decide_eq_true ⟨undone.temporary t member, undone.slot⟩

theorem Undone.rename_replace (member : t ∈ minted) : rename ∘ replace request t = rename := by
  funext v
  rw [Function.comp_apply, replace]
  split
  · rename_i same
    rw [same, undone.named t member]
  · rfl

/-- An instruction that mentions the variable is no move, and does not become one. -/
theorem Undone.outside {i : Instruction} (clean : Clean temporaries low high i)
    (occurs : request.v ∈ i.uses ∨ request.v ∈ i.defs) :
    ∀ slot ∈ i.slots, ¬(low ≤ slot.index ∧ slot.index < high) :=
  clean.resolve_left fun move => undone.apart (mem_of_isMove move occurs)

theorem Undone.restored_moved {i : Instruction} (clean : Clean temporaries low high i)
    (occurs : request.v ∈ i.uses ∨ request.v ∈ i.defs) (member : t ∈ minted) :
    restored (isMove temporaries low high) rename (moved request t i) =
        restored (isMove temporaries low high) rename [i] ∧
      ∀ i' ∈ moved request t i, Clean temporaries low high i' := by
  have outside := undone.outside clean occurs
  have outside' : ∀ slot ∈ (i.mapVars (replace request t)).slots,
      ¬(low ≤ slot.index ∧ slot.index < high) := by
    rw [Instruction.slots_mapVars]
    exact outside
  have loads : ∀ i' ∈ if request.v ∈ i.uses then [load request t] else [],
      isMove temporaries low high i' = true := by
    split <;> simp [undone.isMove_load member]
  have stores : ∀ i' ∈ if request.v ∈ i.defs then [store request t] else [],
      isMove temporaries low high i' = true := by
    split <;> simp [undone.isMove_store member]
  constructor
  · rw [moved, restored_append, restored_append, restored_eq_nil loads, restored_eq_nil stores,
      List.nil_append, List.append_nil]
    simp [restored, isMove_eq_false outside, isMove_eq_false outside',
      Instruction.mapVars_mapVars, undone.rename_replace member]
  · rw [moved, List.forall_mem_append, List.forall_mem_append]
    exact ⟨⟨fun i' inside => Or.inl (loads i' inside),
      List.forall_mem_singleton.mpr (Or.inr outside')⟩, fun i' inside => Or.inl (stores i' inside)⟩

end Steps

section Functions

variable {temporaries : List Var} {low high first last : Nat} {rename : Var → Var}
  {request : Request}

theorem Rewritten.restored_eq {instrs instrs' : List Instruction}
    (shape : Rewritten request first last instrs instrs')
    (undone : Undone temporaries low high rename request (mints first last))
    (clean : ∀ i ∈ instrs, Clean temporaries low high i) :
    restored (isMove temporaries low high) rename instrs' =
        restored (isMove temporaries low high) rename instrs ∧
      ∀ i ∈ instrs', Clean temporaries low high i := by
  induction shape with
  | nil => exact ⟨rfl, clean⟩
  | @keep first last i rest rest' _ _ _ ih =>
      rw [List.forall_mem_cons] at clean ⊢
      obtain ⟨same, clean'⟩ := ih undone clean.2
      refine ⟨?_, clean.1, clean'⟩
      rw [← List.singleton_append, restored_append, same, ← restored_append, List.singleton_append]
  | @move first last i rest rest' occurs later ih =>
      have minted := first_mem_mints later.le
      rw [List.forall_mem_cons] at clean
      obtain ⟨same, clean'⟩ :=
        ih (undone.mono (mints_succ_subset _ _)) clean.2
      obtain ⟨here, clear⟩ := undone.restored_moved clean.1 occurs minted
      refine ⟨?_, List.forall_mem_append.mpr ⟨clear, clean'⟩⟩
      rw [restored_append, here, same, ← restored_append, List.singleton_append]

theorem RewrittenEnd.restored_eq {t t' : Terminator} {loads : List Instruction}
    (shape : RewrittenEnd request t first last loads t')
    (undone : Undone temporaries low high rename request (mints first last)) :
    (∀ i ∈ loads, isMove temporaries low high i = true) ∧
      t'.mapVars rename = t.mapVars rename := by
  cases shape with
  | keep => exact ⟨fun i member => absurd member List.not_mem_nil, rfl⟩
  | move =>
      have minted : (⟨first⟩ : Var) ∈ mints first (first + 1) := by simp
      rw [Terminator.mapVars_mapVars, undone.rename_replace minted]
      exact ⟨List.forall_mem_singleton.mpr (undone.isMove_load minted), rfl⟩

theorem RewrittenBlocks.restored_eq {list list' : List Block}
    (shape : RewrittenBlocks request first last list list')
    (undone : Undone temporaries low high rename request (mints first last))
    (clean : ∀ b ∈ list, ∀ i ∈ b.instrs, Clean temporaries low high i) :
    (list'.map (Block.without (isMove temporaries low high))).map (Block.mapVars rename) =
        (list.map (Block.without (isMove temporaries low high))).map (Block.mapVars rename) ∧
      ∀ b ∈ list', ∀ i ∈ b.instrs, Clean temporaries low high i := by
  induction shape with
  | nil => exact ⟨rfl, clean⟩
  | @cons first mid later last block instrs loads terminator rest rest' inside ending others ih =>
      have early : mints first mid ⊆ mints first last :=
        mints_subset (Nat.le_refl _) (ending.le.trans others.le)
      have between : mints mid later ⊆ mints first last := mints_subset inside.le others.le
      have late : mints later last ⊆ mints first last :=
        mints_subset (inside.le.trans ending.le) (Nat.le_refl _)
      rw [List.forall_mem_cons] at clean ⊢
      obtain ⟨same, clean'⟩ := inside.restored_eq (undone.mono early) clean.1
      obtain ⟨moves, ends⟩ := ending.restored_eq (undone.mono between)
      obtain ⟨tail, clear⟩ := ih (undone.mono late) clean.2
      refine ⟨?_, List.forall_mem_append.mpr ⟨clean', fun i member => Or.inl (moves i member)⟩,
        clear⟩
      have head : restored (isMove temporaries low high) rename (instrs ++ loads) =
          restored (isMove temporaries low high) rename block.instrs := by
        rw [restored_append, restored_eq_nil moves, List.append_nil, same]
      rw [List.map_cons, List.map_cons, List.map_cons, List.map_cons, tail, List.cons.injEq]
      exact ⟨congrArg₂ (Block.mk block.label) head ends, rfl⟩

theorem restored_onEntry {stores : List Instruction} {list : List Block}
    (moves : ∀ i ∈ stores, isMove temporaries low high i = true) :
    ((onEntry stores list).map (Block.without (isMove temporaries low high))).map
        (Block.mapVars rename) =
      (list.map (Block.without (isMove temporaries low high))).map (Block.mapVars rename) := by
  cases list with
  | nil => rfl
  | cons block rest =>
      have head : restored (isMove temporaries low high) rename (stores ++ block.instrs) =
          restored (isMove temporaries low high) rename block.instrs := by
        rw [restored_append, restored_eq_nil moves, List.nil_append]
      rw [onEntry, List.map_cons, List.map_cons, List.map_cons, List.map_cons, List.cons.injEq]
      exact ⟨congrArg₂ (Block.mk block.label) head rfl, rfl⟩

theorem clean_onEntry {stores : List Instruction} {list : List Block}
    (moves : ∀ i ∈ stores, isMove temporaries low high i = true)
    (clean : ∀ b ∈ list, ∀ i ∈ b.instrs, Clean temporaries low high i) :
    ∀ b ∈ onEntry stores list, ∀ i ∈ b.instrs, Clean temporaries low high i := by
  cases list with
  | nil => exact clean
  | cons block rest =>
      rw [List.forall_mem_cons] at clean
      rw [onEntry, List.forall_mem_cons, List.forall_mem_append]
      exact ⟨⟨fun i member => Or.inl (moves i member), clean.1⟩, clean.2⟩

theorem RewrittenParams.restored_eq {list list' : List Param}
    (shape : RewrittenParams request first last list list')
    (undone : Undone temporaries low high rename request (mints first last)) :
    list'.map (fun param => { param with v := rename param.v }) =
      list.map fun param => { param with v := rename param.v } := by
  induction shape with
  | nil => rfl
  | keep _ _ ih => rw [List.map_cons, List.map_cons, ih undone]
  | @move first last param rest rest' same later ih =>
      have minted := first_mem_mints later.le
      rw [List.map_cons, List.map_cons, same, undone.named _ minted,
        ih (undone.mono (mints_succ_subset _ _))]

theorem restored_one {f : Function}
    (undone : Undone temporaries low high rename request (one f request).temporaries)
    (clean : ∀ b ∈ f.blocks, ∀ i ∈ b.instrs, Clean temporaries low high i) :
    ((one f request).function.without (isMove temporaries low high)).mapVars rename =
        { (f.without (isMove temporaries low high)).mapVars rename with
          vars := (one f request).function.vars } ∧
      ∀ b ∈ (one f request).function.blocks, ∀ i ∈ b.instrs, Clean temporaries low high i := by
  obtain ⟨⟨mid, shape⟩, minted⟩ := one_rewritten f request
  rw [minted] at undone
  have early := shape.arriving_subset
  have late : mints mid (one f request).function.vars.size ⊆
      mints f.vars.size (one f request).function.vars.size :=
    mints_subset shape.params.le (Nat.le_refl _)
  have moves : ∀ i ∈ (mints f.vars.size mid).map (store request),
      isMove temporaries low high i = true := by
    rw [List.forall_mem_map]
    exact fun t member => undone.isMove_store (early member)
  obtain ⟨blocks, clean'⟩ :=
    shape.blocks.restored_eq (undone.mono late) (clean_onEntry moves clean)
  have params := shape.params.restored_eq (undone.mono early)
  rw [restored_onEntry moves] at blocks
  refine ⟨?_, clean'⟩
  simp only [Function.without, Function.mapVars, blocks, params, shape.name, ret_one]

end Functions

section Shares

variable {shares : List (Var × List Var)} {t : Var}

theorem owner_of_mem (distinct : (shares.flatMap Prod.snd).Nodup) {share : Var × List Var}
    (listed : share ∈ shares) (owned : t ∈ share.2) : owner shares t = share.1 := by
  induction shares with
  | nil => cases listed
  | cons head rest ih =>
      rw [List.flatMap_cons, List.nodup_append] at distinct
      rcases List.mem_cons.mp listed with rfl | listed
      · simp [owner, owned]
      · have other : t ∉ head.2 := by
          intro here
          exact distinct.2.2 t here t (List.mem_flatMap.mpr ⟨share, listed, owned⟩) rfl
        have later := ih distinct.2.1 listed
        simpa [owner, other] using later

theorem owner_of_not_mem (other : t ∉ shares.flatMap Prod.snd) : owner shares t = t := by
  have nothing : (shares.find? fun share => t ∈ share.2) = none := by
    rw [List.find?_eq_none]
    intro share listed owned
    exact other (List.mem_flatMap.mpr ⟨share, listed, of_decide_eq_true owned⟩)
  rw [owner, nothing]
  rfl

end Shares

section All

variable (stem : String)

theorem map_fst_shares (f : Function) (vars : List Var) (first : Nat) :
    (shares stem f vars first).map Prod.fst = vars := by
  induction vars generalizing f first with
  | nil => rfl
  | cons v rest ih => rw [shares, List.map_cons, ih]

theorem flatMap_snd_shares (f : Function) (vars : List Var) (first : Nat) :
    (shares stem f vars first).flatMap Prod.snd = (all stem f vars first).temporaries := by
  induction vars generalizing f first with
  | nil => rfl
  | cons v rest ih => rw [shares, List.flatMap_cons, ih, all]

variable {stem}

/-- Spills are undone by taking all their moves out and renaming all their temporaries. -/
theorem restored_all {temporaries : List Var} {low high : Nat} {rename : Var → Var}
    {vars : List Var} (apart : ∀ v ∈ vars, v ∉ temporaries) {f : Function} {first : Nat}
    (above : low ≤ first) (below : first + vars.length ≤ high)
    (owned : ∀ share ∈ shares stem f vars first, ∀ t ∈ share.2,
      t ∈ temporaries ∧ rename t = rename share.1)
    (clean : ∀ b ∈ f.blocks, ∀ i ∈ b.instrs, Clean temporaries low high i) :
    ((all stem f vars first).function.without (isMove temporaries low high)).mapVars rename =
      { (f.without (isMove temporaries low high)).mapVars rename with
        vars := (all stem f vars first).function.vars } := by
  induction vars generalizing f first with
  | nil => rfl
  | cons v rest ih =>
      rw [List.forall_mem_cons] at apart
      rw [shares, List.forall_mem_cons] at owned
      rw [List.length_cons] at below
      have undone : Undone temporaries low high rename ⟨v, ⟨first⟩, stem⟩
          (one f ⟨v, ⟨first⟩, stem⟩).temporaries :=
        ⟨apart.1, ⟨above, by dsimp only; omega⟩, fun t member => (owned.1 t member).1,
          fun t member => (owned.1 t member).2⟩
      obtain ⟨same, clean'⟩ := restored_one undone clean
      have later := ih apart.2 (Nat.le_succ_of_le above) (by omega) owned.2 clean'
      rw [all, later, same]

end All

/-- With numbers left for slots, a spill only puts in loads and stores. The temporaries are new and
each stands for one of the variables; without the moves between them and the new slots, and with
every temporary called by its variable, the function is what it was, except for its table. Variables
may be listed twice. If jumps can be followed, they lead where they did, and the variables are gone
from the function. -/
theorem all_only_moves {f : Function} {vars : List Var} {first : Nat}
    (tabled : ∀ v ∈ f.varOccurrences, v.index < f.vars.size)
    (known : ∀ v ∈ vars, v.index < f.vars.size) (below : f.SlotsBelow first)
    (room : first + vars.length + 1 < slotBound) (stem : String) :
    (allFrom stem f vars first).result = .ok (all stem f vars first) ∧
      (all stem f vars first).temporaries.Nodup ∧
      (∀ t ∈ (all stem f vars first).temporaries, f.vars.size ≤ t.index ∧
        ∃! v, v ∈ vars ∧ ∃ minted, (v, minted) ∈ shares stem f vars first ∧ t ∈ minted) ∧
      ((all stem f vars first).function.without
          (isMove (all stem f vars first).temporaries first (first + vars.length))).mapVars
            (owner (shares stem f vars first)) =
        { f with vars := (all stem f vars first).function.vars } ∧
      ∀ flow, Flow.build f = .ok flow →
        Flow.build (all stem f vars first).function = .ok flow ∧
          ∀ v ∈ vars, v ∉ (all stem f vars first).function.varOccurrences := by
  obtain ⟨-, minted⟩ := all_minted stem f vars first
  have distinct : (all stem f vars first).temporaries.Nodup := minted ▸ nodup_mints _ _
  have new : ∀ t ∈ (all stem f vars first).temporaries, f.vars.size ≤ t.index := by
    rw [minted]
    exact fun t member => (mem_mints.mp member).1
  have old : ∀ v : Var, v.index < f.vars.size → v ∉ (all stem f vars first).temporaries :=
    fun v small member => absurd (new v member) (Nat.not_le.mpr small)
  have joined := flatMap_snd_shares stem f vars first
  have owned : ∀ share ∈ shares stem f vars first, ∀ t ∈ share.2,
      owner (shares stem f vars first) t = share.1 :=
    fun share listed t owned => owner_of_mem (joined ▸ distinct) listed owned
  have themselves : ∀ v : Var, v.index < f.vars.size → owner (shares stem f vars first) v = v :=
    fun v small => owner_of_not_mem (joined ▸ old v small)
  have moved : ∀ share ∈ shares stem f vars first, share.1 ∈ vars := by
    intro share listed
    rw [← map_fst_shares stem f vars first]
    exact List.mem_map_of_mem listed
  refine ⟨by rw [allFrom_of_lt room], distinct, ?_, ?_, ?_⟩
  · intro t member
    refine ⟨new t member, ?_⟩
    rw [← joined] at member
    obtain ⟨share, listed, here⟩ := List.mem_flatMap.mp member
    refine ⟨share.1, ⟨moved share listed, share.2, listed, here⟩, ?_⟩
    rintro v ⟨-, others, listed', there⟩
    exact (owned _ listed' t there).symm.trans (owned share listed t here)
  · have outside : ∀ b ∈ f.blocks, ∀ i ∈ b.instrs, ∀ slot ∈ i.slots,
        ¬(first ≤ slot.index ∧ slot.index < first + vars.length) :=
      fun b listed i inside slot used bounds =>
        absurd (below b listed i inside slot used) (Nat.not_lt.mpr bounds.1)
    have belongs : ∀ share ∈ shares stem f vars first, ∀ t ∈ share.2,
        t ∈ (all stem f vars first).temporaries ∧
          owner (shares stem f vars first) t = owner (shares stem f vars first) share.1 := by
      intro share listed t here
      rw [themselves _ (known _ (moved share listed)), ← joined]
      exact ⟨List.mem_flatMap.mpr ⟨share, listed, here⟩, owned share listed t here⟩
    rw [restored_all (fun v listed => old v (known v listed)) (Nat.le_refl _) (Nat.le_refl _)
        belongs fun b listed i inside => Or.inr (outside b listed i inside),
      Function.without_eq_self fun b listed i inside =>
        isMove_eq_false (outside b listed i inside),
      Function.mapVars_eq_of_fixed fun v written => themselves v (tabled v written)]
  · intro flow built
    have built' := build_all stem vars first built
    refine ⟨built', fun v listed written => ?_⟩
    rcases mem_mentions_all (Function.mem_mentions_of_mem_varOccurrences built' written) with
      ⟨-, absent⟩ | member
    · exact absent listed
    · exact old v (known v listed) member

def saved : Function where
  name := "@m"
  ret := ⟨.int64, 0⟩
  params := [⟨⟨.int64, 0⟩, ⟨0⟩⟩]
  blocks :=
    [⟨":e", [.assign (.var ⟨1⟩) (.slot ⟨0⟩),
        .assign (.var ⟨1⟩) (.binary .add (.var ⟨1⟩) (.var ⟨0⟩)),
        .assign (.slot ⟨0⟩) (.var ⟨1⟩)], .branch (.var ⟨1⟩) (.label ":e") (.label ":x")⟩,
      ⟨":x", [], .retValue (.var ⟨0⟩)⟩]
  vars := ⟨["%p", "%x"], 0⟩

/-- Its own moves from and to the slot are on temporaries after the spill, and are not taken for
moves that the spill has put in. -/
theorem all_only_moves_saved :
    (∀ v ∈ saved.varOccurrences, v.index < saved.vars.size) ∧ saved.SlotsBelow 1 ∧
      (allFrom "%S" saved [⟨1⟩, ⟨0⟩] 1).result = .ok (all "%S" saved [⟨1⟩, ⟨0⟩] 1) ∧
      (all "%S" saved [⟨1⟩, ⟨0⟩] 1).temporaries = (List.range' 2 7).map Var.mk ∧
      ((all "%S" saved [⟨1⟩, ⟨0⟩] 1).function.blocks.map fun b => b.instrs.length) = [10, 1] ∧
      ((all "%S" saved [⟨1⟩, ⟨0⟩] 1).function.without
          (isMove (all "%S" saved [⟨1⟩, ⟨0⟩] 1).temporaries 1 3)).mapVars
            (owner (shares "%S" saved [⟨1⟩, ⟨0⟩] 1)) =
        { saved with vars := (all "%S" saved [⟨1⟩, ⟨0⟩] 1).function.vars } ∧
      Flow.build (all "%S" saved [⟨1⟩, ⟨0⟩] 1).function = .ok ⟨[[0, 1], []]⟩ := by
  have tabled : ∀ v ∈ saved.varOccurrences, v.index < saved.vars.size := by decide
  have known : ∀ v ∈ ([⟨1⟩, ⟨0⟩] : List Var), v.index < saved.vars.size := by decide
  have below : saved.SlotsBelow 1 := by
    unfold Function.SlotsBelow
    decide
  obtain ⟨moved, -, -, same, jumps⟩ := all_only_moves tabled known below (by decide) "%S"
  exact ⟨tabled, below, moved, by decide +kernel, by decide +kernel, same,
    (jumps _ (by decide +kernel)).1⟩

/-- What a spill of two variables puts in is not found again, if one of them or a variable of the
function is not in the table: a temporary is taken for it. From the last slot on, nothing can be
spilled at all. -/
theorem all_not_undone :
    halfTabled.SlotsBelow 0 ∧
      ((all "%S" halfTabled [⟨0⟩] 0).function.without
          (isMove (all "%S" halfTabled [⟨0⟩] 0).temporaries 0 1)).mapVars
            (owner (shares "%S" halfTabled [⟨0⟩] 0)) ≠
        { halfTabled with vars := (all "%S" halfTabled [⟨0⟩] 0).function.vars } ∧
      ((all "%S" saved [⟨1⟩, ⟨2⟩] 1).function.without
          (isMove (all "%S" saved [⟨1⟩, ⟨2⟩] 1).temporaries 1 3)).mapVars
            (owner (shares "%S" saved [⟨1⟩, ⟨2⟩] 1)) ≠
        { saved with vars := (all "%S" saved [⟨1⟩, ⟨2⟩] 1).function.vars } ∧
      saved.SlotsBelow 4294967295 ∧
      (allFrom "%S" saved [⟨0⟩] 4294967295).result = .error (.slotsExhausted "@m") := by
  refine ⟨?_, by decide +kernel, by decide +kernel, ?_, by decide⟩
  · unfold Function.SlotsBelow
    decide
  · unfold Function.SlotsBelow
    decide

end Spill

end Regalloc
