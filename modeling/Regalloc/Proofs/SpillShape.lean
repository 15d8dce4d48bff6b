import Mathlib
import Regalloc.Proofs.LiveRenaming
import Regalloc.Proofs.ReadablePrograms
import Regalloc.Proofs.SpillMinting

/-!
# The shape of a function after spilling

Moving a variable to a slot leaves a function's blocks and their instructions in place. In front
of a point that reads the variable stands a load, after a point that writes it a store, and the
point works on a variable that the function did not have before.
-/

namespace Regalloc

theorem exists_of_forall₂ {α β : Type} {R : α → β → Prop} {list : List α} {list' : List β}
    (paired : List.Forall₂ R list list') {b : β} (member : b ∈ list') : ∃ a ∈ list, R a b := by
  induction paired with
  | nil => cases member
  | cons head tail ih =>
      rcases List.mem_cons.mp member with rfl | member
      · exact ⟨_, List.mem_cons_self .., head⟩
      · obtain ⟨a, listed, related⟩ := ih member
        exact ⟨a, List.mem_cons_of_mem _ listed, related⟩

theorem getElem?_of_forall₂ {α β : Type} {R : α → β → Prop} {list : List α} {list' : List β}
    (paired : List.Forall₂ R list list') {i : Nat} {a : α} (found : list[i]? = some a) :
    ∃ b, list'[i]? = some b ∧ R a b := by
  obtain ⟨small, rfl⟩ := List.getElem?_eq_some_iff.mp found
  have small' : i < list'.length := paired.length_eq ▸ small
  exact ⟨list'[i], List.getElem?_eq_getElem small', paired.get small small'⟩

def Leaf.mapVars (rename : Var → Var) : Leaf → Leaf
  | .var v => .var (rename v)
  | leaf => leaf

theorem Leaf.var_mem_map {rename : Var → Var} {leaves : List Leaf} {v : Var} :
    .var v ∈ leaves.map (mapVars rename) ↔ ∃ u, .var u ∈ leaves ∧ rename u = v := by
  rw [List.mem_map]
  constructor
  · intro member
    obtain ⟨leaf, listed, same⟩ := member
    cases leaf with
    | var w => exact ⟨w, listed, Leaf.var.inj same⟩
    | _ => cases same
  · intro member
    obtain ⟨w, listed, same⟩ := member
    exact ⟨.var w, listed, by rw [mapVars, same]⟩

namespace Expr

mutual

theorem leaves_mapVars (rename : Var → Var) :
    ∀ expr : Expr, (expr.mapVars rename).leaves = expr.leaves.map (Leaf.mapVars rename)
  | .type _ => rfl
  | .const _ => rfl
  | .label _ => rfl
  | .var _ => rfl
  | .slot _ => rfl
  | .access base offsets => by
      simp [mapVars, leaves, leaves_mapVars rename base, leavesOfAll_mapVars rename offsets]
  | .binary _ left right => by
      simp [mapVars, leaves, leaves_mapVars rename left, leaves_mapVars rename right]
  | .call _ callee args => by
      simp [mapVars, leaves, leaves_mapVars rename callee, leavesOfAll_mapVars rename args]
  | .newArray dims => by simp [mapVars, leaves, leavesOfAll_mapVars rename dims]
  | .newTuple size => by simp [mapVars, leaves, leaves_mapVars rename size]
  | .length base dim => by
      simp [mapVars, leaves, leaves_mapVars rename base, leaves_mapVars rename dim]

theorem leavesOfAll_mapVars (rename : Var → Var) :
    ∀ exprs : List Expr,
      leavesOfAll (mapVarsOfAll rename exprs) = (leavesOfAll exprs).map (Leaf.mapVars rename)
  | [] => rfl
  | expr :: exprs => by
      simp [mapVarsOfAll, leavesOfAll, leaves_mapVars rename expr,
        leavesOfAll_mapVars rename exprs]

end

mutual

theorem named_mapVars (rename : Var → Var) :
    ∀ expr : Expr, (expr.mapVars rename).named = expr.named
  | .type _ => rfl
  | .const _ => rfl
  | .label _ => rfl
  | .var _ => rfl
  | .slot _ => rfl
  | .access base offsets => by
      simp [mapVars, named, named_mapVars rename base, namedAll_mapVars rename offsets]
  | .binary _ left right => by
      simp [mapVars, named, named_mapVars rename left, named_mapVars rename right]
  | .call _ callee args => by
      simp [mapVars, named, named_mapVars rename callee, namedAll_mapVars rename args]
  | .newArray dims => by simp [mapVars, named, namedAll_mapVars rename dims]
  | .newTuple size => by simp [mapVars, named, named_mapVars rename size]
  | .length base dim => by
      simp [mapVars, named, named_mapVars rename base, named_mapVars rename dim]

theorem namedAll_mapVars (rename : Var → Var) :
    ∀ exprs : List Expr, namedAll (mapVarsOfAll rename exprs) = namedAll exprs
  | [] => rfl
  | expr :: exprs => by
      simp [mapVarsOfAll, namedAll, named_mapVars rename expr, namedAll_mapVars rename exprs]

end

theorem var_mem_leaves_mapVars {rename : Var → Var} {expr : Expr} {v : Var} :
    Leaf.var v ∈ (expr.mapVars rename).leaves ↔ ∃ w, Leaf.var w ∈ expr.leaves ∧ rename w = v := by
  rw [leaves_mapVars, Leaf.var_mem_map]

theorem placeReads_mapVars (rename : Var → Var) (target : Expr) :
    (target.mapVars rename).placeReads = target.placeReads.map (Leaf.mapVars rename) := by
  cases target with
  | var v => rfl
  | slot slot => rfl
  | _ => exact leaves_mapVars rename _

theorem slot_mem_leaves_mapVars {rename : Var → Var} {expr : Expr} {slot : Slot} :
    Leaf.slot slot ∈ (expr.mapVars rename).leaves ↔ Leaf.slot slot ∈ expr.leaves := by
  rw [leaves_mapVars, List.mem_map]
  constructor
  · intro member
    obtain ⟨leaf, listed, same⟩ := member
    cases leaf with
    | slot other => exact same ▸ listed
    | _ => cases same
  · intro member
    exact ⟨.slot slot, member, rfl⟩

theorem isAtom_mapVars (rename : Var → Var) (expr : Expr) :
    (expr.mapVars rename).isAtom = expr.isAtom := by
  cases expr <;> rfl

theorem flat_mapVars (rename : Var → Var) (expr : Expr) :
    (expr.mapVars rename).flat = expr.flat := by
  cases expr with
  | access base offsets =>
      have each : ∀ offsets : List Expr,
          (mapVarsOfAll rename offsets).all isAtom = offsets.all isAtom := by
        intro offsets
        induction offsets with
        | nil => rfl
        | cons first rest ih => rw [mapVarsOfAll, List.all_cons, List.all_cons, isAtom_mapVars, ih]
      rw [mapVars, flat, flat, isAtom_mapVars, each]
  | _ => rfl

theorem Scoped.mapVars {bound : Nat} {rename : Var → Var} {expr : Expr}
    (inside : expr.Scoped bound) (below : ∀ v, v.index < bound → (rename v).index < bound) :
    (expr.mapVars rename).Scoped bound where
  below v member := by
    obtain ⟨w, listed, rfl⟩ := var_mem_leaves_mapVars.mp member
    exact below w (inside.below w listed)
  named := (named_mapVars rename expr).trans inside.named
  flat := (flat_mapVars rename expr).trans inside.flat

theorem Atomic.mapVars {bound : Nat} {rename : Var → Var} {expr : Expr}
    (atomic : expr.Atomic bound) (below : ∀ v, v.index < bound → (rename v).index < bound) :
    (expr.mapVars rename).Atomic bound where
  toScoped := atomic.toScoped.mapVars below
  atom := (isAtom_mapVars rename expr).trans atomic.atom

end Expr

theorem Instruction.exprs_mapVars (rename : Var → Var) (instruction : Instruction) :
    (instruction.mapVars rename).exprs = instruction.exprs.map (Expr.mapVars rename) := by
  cases instruction <;> simp [mapVars, exprs, Expr.mapVars]

theorem Terminator.exprs_mapVars (rename : Var → Var) (terminator : Terminator) :
    (terminator.mapVars rename).exprs = terminator.exprs.map (Expr.mapVars rename) := by
  cases terminator <;> simp [mapVars, exprs]

theorem Instruction.reads_mapVars (rename : Var → Var) (instruction : Instruction) :
    (instruction.mapVars rename).reads = instruction.reads.map (Leaf.mapVars rename) := by
  cases instruction with
  | declare ty v => rfl
  | call builtin callee args => exact Expr.leaves_mapVars rename (.call builtin callee args)
  | assign target source =>
      simp only [mapVars, reads, List.map_append, Expr.leaves_mapVars, Expr.placeReads_mapVars]

theorem Terminator.reads_mapVars (rename : Var → Var) (terminator : Terminator) :
    (terminator.mapVars rename).reads = terminator.reads.map (Leaf.mapVars rename) := by
  cases terminator <;> simp [mapVars, reads, Expr.leaves_mapVars]

theorem Instruction.exists_of_mem_reads (instruction : Instruction) {leaf : Leaf}
    (read : leaf ∈ instruction.reads) : ∃ expr ∈ instruction.exprs, leaf ∈ expr.leaves := by
  cases instruction with
  | declare ty v => cases read
  | call builtin callee args => exact ⟨_, List.mem_singleton_self _, read⟩
  | assign target source =>
      rcases List.mem_append.mp read with read | read
      · exact ⟨source, by simp [exprs], read⟩
      · refine ⟨target, by simp [exprs], ?_⟩
        cases target with
        | var v => cases read
        | slot slot => cases read
        | _ => exact read

theorem Terminator.exists_of_mem_reads (terminator : Terminator) {leaf : Leaf}
    (read : leaf ∈ terminator.reads) : ∃ expr ∈ terminator.exprs, leaf ∈ expr.leaves := by
  cases terminator with
  | ret => cases read
  | retValue value => exact ⟨value, List.mem_singleton_self _, read⟩
  | jump target => cases read
  | branch condition onTrue onFalse => exact ⟨condition, List.mem_cons_self .., read⟩

theorem Terminator.exists_of_mem_uses {terminator : Terminator} {v : Var}
    (used : v ∈ terminator.uses) : ∃ expr ∈ terminator.exprs, Leaf.var v ∈ expr.leaves :=
  terminator.exists_of_mem_reads (mem_uses.mp used)

theorem Instruction.mem_uses_or_defs {instruction : Instruction} {v : Var} :
    v ∈ instruction.uses ∨ v ∈ instruction.defs ↔
      ∃ expr ∈ instruction.exprs, Leaf.var v ∈ expr.leaves := by
  rw [mem_uses]
  cases instruction with
  | declare ty w => simp [reads, defs, exprs, Expr.leaves]
  | call builtin callee args => simp [reads, defs, exprs]
  | assign target source =>
      cases target <;>
        simp [reads, defs, exprs, Expr.placeReads, Expr.leaves, Expr.var?, or_comm]

theorem Instruction.mem_slots {instruction : Instruction} {slot : Slot} :
    slot ∈ instruction.slots ↔ ∃ expr ∈ instruction.exprs, Leaf.slot slot ∈ expr.leaves := by
  have of_expr : ∀ expr : Expr, slot ∈ expr.slots ↔ Leaf.slot slot ∈ expr.leaves := by
    intro expr
    simp only [Expr.slots, List.mem_filterMap]
    constructor
    · intro member
      obtain ⟨leaf, listed, same⟩ := member
      cases leaf <;> simp_all [Leaf.slot?]
    · intro member
      exact ⟨.slot slot, member, rfl⟩
  cases instruction with
  | declare ty w => simp [slots, exprs, Expr.leaves]
  | call builtin callee args => simp [slots, exprs, of_expr]
  | assign target source => simp [slots, exprs, of_expr]

theorem Instruction.slotDefs_subset (instruction : Instruction) :
    instruction.slotDefs ⊆ instruction.slots := by
  intro slot written
  cases instruction with
  | declare ty v => cases written
  | call builtin callee args => cases written
  | assign target source =>
      cases target with
      | slot other =>
          rw [slotDefs, List.mem_singleton] at written
          subst written
          simp [slots, Expr.slots, Expr.leaves, Leaf.slot?]
      | _ => cases written

namespace Spill

structure Fresh (request : Request) (size bound : Nat) (t : Var) : Prop where
  above : size ≤ t.index
  below : t.index < bound
  apart : t ≠ request.v

inductive MovedInstrs (request : Request) (size bound : Nat) :
    List Instruction → List Instruction → Prop
  | nil : MovedInstrs request size bound [] []
  | keep {first : Instruction} {rest rest' : List Instruction} :
      request.v ∉ first.uses → request.v ∉ first.defs →
      MovedInstrs request size bound rest rest' →
      MovedInstrs request size bound (first :: rest) (first :: rest')
  | move {t : Var} {first : Instruction} {rest rest' : List Instruction} :
      Fresh request size bound t → MovedInstrs request size bound rest rest' →
      MovedInstrs request size bound (first :: rest) (moved request t first ++ rest')

inductive MovedEnd (request : Request) (size bound : Nat) (terminator : Terminator) :
    List Instruction → Terminator → Prop
  | keep : request.v ∉ terminator.uses → MovedEnd request size bound terminator [] terminator
  | move {t : Var} : request.v ∈ terminator.uses → Fresh request size bound t →
      MovedEnd request size bound terminator [load request t]
        (terminator.mapVars (replace request t))

structure MovedBlock (request : Request) (size bound : Nat) (block block' : Block) : Prop where
  label : block'.label = block.label
  points : ∃ instrs loads, MovedInstrs request size bound block.instrs instrs ∧
    MovedEnd request size bound block.terminator loads block'.terminator ∧
    block'.instrs = instrs ++ loads

inductive MovedParams (request : Request) (size bound : Nat) :
    List Param → List Param → List Var → Prop
  | nil : MovedParams request size bound [] [] []
  | keep {first : Param} {rest rest' : List Param} {temporaries : List Var} :
      first.v ≠ request.v → MovedParams request size bound rest rest' temporaries →
      MovedParams request size bound (first :: rest) (first :: rest') temporaries
  | move {t : Var} {first : Param} {rest rest' : List Param} {temporaries : List Var} :
      first.v = request.v → Fresh request size bound t →
      MovedParams request size bound rest rest' temporaries →
      MovedParams request size bound (first :: rest) ({ first with v := t } :: rest')
        (t :: temporaries)

/-- A function and what becomes of it when a variable is moved to a slot. -/
structure Moved (request : Request) (f f' : Function) : Prop where
  name : f'.name = f.name
  grows : f.vars.size ≤ f'.vars.size
  body : ∃ temporaries,
    MovedParams request f.vars.size f'.vars.size f.params f'.params temporaries ∧
    List.Forall₂ (MovedBlock request f.vars.size f'.vars.size)
      (onEntry (temporaries.map (store request)) f.blocks) f'.blocks

section Runs

variable {request : Request} {size bound : Nat}

theorem fresh_mk {low : Nat} (above : size ≤ low) (below : low + 1 ≤ bound)
    (inside : request.v.index < size) : Fresh request size bound ⟨low⟩ := by
  refine ⟨above, below, ?_⟩
  intro same
  rw [← same] at inside
  exact absurd inside (Nat.not_lt.mpr above)

theorem MovedEnd.exists_load {t t' : Terminator} {loads : List Instruction} {i : Instruction}
    (shape : MovedEnd request size bound t loads t') (member : i ∈ loads) :
    ∃ temporary, i = load request temporary := by
  cases shape with
  | keep unused => cases member
  | move used fresh => exact ⟨_, List.mem_singleton.mp member⟩

def Occurs (request : Request) (block : Block) : Prop :=
  (∃ i ∈ block.instrs, request.v ∈ i.uses ∨ request.v ∈ i.defs) ∨
    request.v ∈ block.terminator.uses

theorem Rewritten.moved {low high : Nat} {instrs instrs' : List Instruction}
    (shape : Rewritten request low high instrs instrs')
    (inside : ∀ i ∈ instrs, request.v ∈ i.uses ∨ request.v ∈ i.defs → request.v.index < size)
    (above : size ≤ low) (below : high ≤ bound) :
    MovedInstrs request size bound instrs instrs' := by
  induction shape with
  | nil => exact .nil
  | keep unused undefined _ ih =>
      exact .keep unused undefined
        (ih (fun i member => inside i (List.mem_cons_of_mem _ member)) above below)
  | move occurs rest ih =>
      refine .move (fresh_mk above (rest.le.trans below)
        (inside _ (List.mem_cons_self ..) occurs)) ?_
      exact ih (fun i member => inside i (List.mem_cons_of_mem _ member)) (by omega) below

theorem RewrittenEnd.moved {low high : Nat} {t t' : Terminator} {loads : List Instruction}
    (shape : RewrittenEnd request t low high loads t')
    (inside : request.v ∈ t.uses → request.v.index < size) (above : size ≤ low)
    (below : high ≤ bound) : MovedEnd request size bound t loads t' := by
  cases shape with
  | keep unused => exact .keep unused
  | move used => exact .move used (fresh_mk above below (inside used))

theorem RewrittenBlocks.moved {low high : Nat} {list list' : List Block}
    (shape : RewrittenBlocks request low high list list')
    (inside : ∀ b ∈ list, Occurs request b → request.v.index < size) (above : size ≤ low)
    (below : high ≤ bound) :
    List.Forall₂ (MovedBlock request size bound) list list' := by
  induction shape with
  | nil => exact .nil
  | cons instrs ending rest ih =>
      have early := instrs.le
      have late := ending.le
      have last := rest.le
      have occurring := inside _ (List.mem_cons_self ..)
      refine .cons ⟨rfl, _, _, ?_, ?_, rfl⟩ ?_
      · exact instrs.moved (fun i member occurs => occurring (Or.inl ⟨i, member, occurs⟩)) above
          (by omega)
      · exact ending.moved (fun used => occurring (Or.inr used)) (by omega) (by omega)
      · exact ih (fun b member => inside b (List.mem_cons_of_mem _ member)) (by omega) below

theorem RewrittenParams.moved {low high : Nat} {list list' : List Param}
    (shape : RewrittenParams request low high list list')
    (inside : ∀ param ∈ list, param.v = request.v → request.v.index < size)
    (above : size ≤ low) (below : high ≤ bound) :
    MovedParams request size bound list list' (mints low high) := by
  induction shape with
  | nil =>
      rw [mints_self]
      exact .nil
  | keep apart _ ih =>
      exact .keep apart
        (ih (fun param member => inside param (List.mem_cons_of_mem _ member)) above below)
  | move same rest ih =>
      rw [mints_cons rest.le]
      refine .move same (fresh_mk above (rest.le.trans below)
        (inside _ (List.mem_cons_self ..) same)) ?_
      exact ih (fun param member => inside param (List.mem_cons_of_mem _ member)) (by omega) below

theorem MovedParams.fresh_of_mem {list list' : List Param} {temporaries : List Var}
    (shape : MovedParams request size bound list list' temporaries) :
    ∀ t ∈ temporaries, Fresh request size bound t := by
  induction shape with
  | nil => exact fun t member => absurd member List.not_mem_nil
  | keep apart _ ih => exact ih
  | move same fresh _ ih =>
      intro t member
      rcases List.mem_cons.mp member with rfl | member
      · exact fresh
      · exact ih t member

theorem occurs_onEntry {temporaries : List Var} {list : List Block} {b : Block}
    (fresh : ∀ t ∈ temporaries, t ≠ request.v)
    (member : b ∈ onEntry (temporaries.map (store request)) list) (occurs : Occurs request b) :
    ∃ original ∈ list, Occurs request original := by
  cases list with
  | nil => cases member
  | cons first rest =>
      rcases List.mem_cons.mp member with rfl | member
      · refine ⟨first, List.mem_cons_self .., ?_⟩
        refine occurs.imp_left ?_
        rintro ⟨i, listed, touched⟩
        rcases List.mem_append.mp listed with stored | listed
        · obtain ⟨t, temporary, rfl⟩ := List.mem_map.mp stored
          have unused : request.v ≠ t := fun same => fresh t temporary same.symm
          simp [store, Instruction.uses, Instruction.defs, Expr.varOccurrences, Expr.leaves,
            Leaf.var?, Expr.var?, unused] at touched
        · exact ⟨i, listed, touched⟩
      · exact ⟨b, List.mem_cons_of_mem _ member, occurs⟩

theorem below_of_occurs {b : Block} (inside : b.Scoped size) (occurs : Occurs request b) :
    request.v.index < size := by
  rcases occurs with ⟨i, listed, touched⟩ | used
  · obtain ⟨expr, part, member⟩ := Instruction.mem_uses_or_defs.mp touched
    exact (inside.instrs i listed expr part).below _ member
  · obtain ⟨expr, part, member⟩ := Terminator.exists_of_mem_uses used
    exact (inside.terminator expr part).below _ member

theorem moved_one {f : Function} (readable : f.Readable) (request : Request) :
    Moved request f (one f request).function := by
  obtain ⟨⟨mid, shape⟩, -⟩ := one_rewritten f request
  have params := shape.params.moved
    (fun param member same => same ▸ readable.params param member) (Nat.le_refl _) shape.blocks.le
  refine ⟨shape.name, shape.le, _, params, ?_⟩
  apply shape.blocks.moved _ shape.params.le (Nat.le_refl _)
  intro b member occurs
  obtain ⟨original, listed, occurs⟩ :=
    occurs_onEntry (fun t member => (params.fresh_of_mem t member).apart) member occurs
  exact below_of_occurs (readable.blocks original listed) occurs

theorem MovedInstrs.self {instrs : List Instruction}
    (absent : ∀ i ∈ instrs, ¬(request.v ∈ i.uses ∨ request.v ∈ i.defs)) :
    MovedInstrs request size bound instrs instrs := by
  induction instrs with
  | nil => exact .nil
  | cons first rest ih =>
      have untouched := not_or.mp (absent first (List.mem_cons_self ..))
      exact .keep untouched.1 untouched.2
        (ih fun i member => absent i (List.mem_cons_of_mem _ member))

theorem MovedParams.self {list : List Param} (apart : ∀ param ∈ list, param.v ≠ request.v) :
    MovedParams request size bound list list [] := by
  induction list with
  | nil => exact .nil
  | cons first rest ih =>
      exact .keep (apart first (List.mem_cons_self ..))
        (ih fun param member => apart param (List.mem_cons_of_mem _ member))

theorem MovedBlock.self {b : Block} (absent : ¬Occurs request b) :
    MovedBlock request size bound b b := by
  rcases not_or.mp absent with ⟨untouched, unused⟩
  refine ⟨rfl, b.instrs, [], .self ?_, .keep unused, (List.append_nil _).symm⟩
  intro i member touched
  exact untouched ⟨i, member, touched⟩

theorem moved_self {f : Function} (readable : f.Readable)
    (outside : f.vars.size ≤ request.v.index) : Moved request f f := by
  have same : onEntry (([] : List Var).map (store request)) f.blocks = f.blocks := by
    cases f.blocks <;> rfl
  refine ⟨rfl, Nat.le_refl _, [], .self ?_, ?_⟩
  · intro param member same
    have small := readable.params param member
    rw [same] at small
    omega
  · rw [same, List.forall₂_same]
    intro b member
    apply MovedBlock.self
    intro occurs
    have small := below_of_occurs (readable.blocks b member) occurs
    omega

end Runs

section Kept

variable {request : Request} {size bound : Nat}

theorem replace_below {t : Var} (fresh : Fresh request size bound t) (v : Var)
    (below : v.index < bound) : (replace request t v).index < bound := by
  unfold replace
  split
  · exact fresh.below
  · exact below

theorem scoped_moved {t : Var} {i i' : Instruction} (fresh : Fresh request size bound t)
    (inside : ∀ expr ∈ i.exprs, expr.Scoped bound) (member : i' ∈ moved request t i) :
    ∀ expr ∈ i'.exprs, expr.Scoped bound := by
  have temporary : (Expr.var t).Scoped bound := (Expr.atomic_var fresh.below).toScoped
  have place : (Expr.slot request.slot).Scoped bound := Source.scoped_slot bound _
  intro expr part
  simp only [moved, List.mem_append, List.mem_ite_nil_right, List.mem_singleton] at member
  rcases member with (⟨-, rfl⟩ | rfl) | ⟨-, rfl⟩
  · simp only [load, Instruction.exprs, List.mem_cons, List.not_mem_nil, or_false] at part
    rcases part with rfl | rfl
    · exact temporary
    · exact place
  · rw [Instruction.exprs_mapVars] at part
    obtain ⟨original, listed, rfl⟩ := List.mem_map.mp part
    exact (inside original listed).mapVars (replace_below fresh)
  · simp only [store, Instruction.exprs, List.mem_cons, List.not_mem_nil, or_false] at part
    rcases part with rfl | rfl
    · exact place
    · exact temporary

theorem MovedInstrs.scoped {instrs instrs' : List Instruction}
    (shape : MovedInstrs request size bound instrs instrs')
    (inside : ∀ i ∈ instrs, ∀ expr ∈ i.exprs, expr.Scoped bound) :
    ∀ i ∈ instrs', ∀ expr ∈ i.exprs, expr.Scoped bound := by
  induction shape with
  | nil => exact fun i member => absurd member List.not_mem_nil
  | keep unused undefined _ ih =>
      intro i member
      rcases List.mem_cons.mp member with rfl | member
      · exact inside i (List.mem_cons_self ..)
      · exact ih (fun i listed => inside i (List.mem_cons_of_mem _ listed)) i member
  | move fresh _ ih =>
      intro i member
      rcases List.mem_append.mp member with member | member
      · exact scoped_moved fresh (inside _ (List.mem_cons_self ..)) member
      · exact ih (fun i listed => inside i (List.mem_cons_of_mem _ listed)) i member

theorem MovedBlock.scoped {b b' : Block} (shape : MovedBlock request size bound b b')
    (inside : b.Scoped bound) : b'.Scoped bound := by
  obtain ⟨-, instrs, loads, shape, end_shape, same⟩ := shape
  obtain ⟨label', instrs', terminator'⟩ := b'
  dsimp only at end_shape same
  have kept := shape.scoped inside.instrs
  cases end_shape with
  | keep unused =>
      rw [List.append_nil] at same
      exact ⟨same ▸ kept, inside.terminator⟩
  | move used fresh =>
      refine ⟨?_, ?_⟩
      · intro i member
        rw [same] at member
        rcases List.mem_append.mp member with member | member
        · exact kept i member
        · rw [List.mem_singleton.mp member]
          intro expr part
          simp only [load, Instruction.exprs, List.mem_cons, List.not_mem_nil, or_false] at part
          rcases part with rfl | rfl
          · exact (Expr.atomic_var fresh.below).toScoped
          · exact Source.scoped_slot bound _
      · intro expr part
        rw [Terminator.exprs_mapVars] at part
        obtain ⟨original, listed, rfl⟩ := List.mem_map.mp part
        exact (inside.terminator original listed).mapVars (replace_below fresh)

theorem MovedParams.inside {list list' : List Param} {temporaries : List Var}
    (shape : MovedParams request size bound list list' temporaries)
    (inside : ∀ param ∈ list, param.v.index < bound) :
    ∀ param ∈ list', param.v.index < bound := by
  induction shape with
  | nil => exact fun param member => absurd member List.not_mem_nil
  | keep apart _ ih =>
      intro param member
      rcases List.mem_cons.mp member with rfl | member
      · exact inside param (List.mem_cons_self ..)
      · exact ih (fun param listed => inside param (List.mem_cons_of_mem _ listed)) param member
  | move same fresh _ ih =>
      intro param member
      rcases List.mem_cons.mp member with rfl | member
      · exact fresh.below
      · exact ih (fun param listed => inside param (List.mem_cons_of_mem _ listed)) param member

theorem MovedParams.length_eq {list list' : List Param} {temporaries : List Var}
    (shape : MovedParams request size bound list list' temporaries) :
    list'.length = list.length := by
  induction shape with
  | nil => rfl
  | keep apart _ ih => rw [List.length_cons, List.length_cons, ih]
  | move same fresh _ ih => rw [List.length_cons, List.length_cons, ih]

def arrivals (request : Request) (list list' : List Param) : List Var :=
  ((list.zip list').filter fun pair => pair.1.v = request.v).map fun pair => pair.2.v

theorem MovedParams.temporaries_eq {list list' : List Param} {temporaries : List Var}
    (shape : MovedParams request size bound list list' temporaries) :
    temporaries = arrivals request list list' := by
  induction shape with
  | nil => rfl
  | keep apart _ ih => simp [ih, arrivals, apart]
  | move same fresh _ ih => simp [ih, arrivals, same]

theorem MovedParams.temporaries_le {list list' : List Param} {temporaries : List Var}
    (shape : MovedParams request size bound list list' temporaries) :
    temporaries.length ≤ list.length := by
  induction shape with
  | nil => exact Nat.le_refl _
  | keep apart _ ih => exact Nat.le_succ_of_le ih
  | move same fresh _ ih => exact Nat.succ_le_succ ih

theorem labels_moved {list list' : List Block}
    (shapes : List.Forall₂ (MovedBlock request size bound) list list') :
    list'.map Block.label = list.map Block.label := by
  induction shapes with
  | nil => rfl
  | cons shape _ ih => rw [List.map_cons, List.map_cons, shape.label, ih]

end Kept

theorem Moved.labels {request : Request} {f f' : Function} (shape : Moved request f f') :
    f'.blocks.map Block.label = f.blocks.map Block.label := by
  obtain ⟨-, -, temporaries, -, shapes⟩ := shape
  rw [labels_moved shapes, labels_onEntry]

theorem scoped_onEntry {request : Request} {bound : Nat} {temporaries : List Var}
    {list : List Block} (below : ∀ t ∈ temporaries, t.index < bound)
    (inside : ∀ b ∈ list, b.Scoped bound) :
    ∀ b ∈ onEntry (temporaries.map (store request)) list, b.Scoped bound := by
  intro b member
  cases list with
  | nil => cases member
  | cons first rest =>
      rcases List.mem_cons.mp member with rfl | member
      · have kept := inside first (List.mem_cons_self ..)
        refine ⟨?_, kept.terminator⟩
        intro i listed
        rcases List.mem_append.mp listed with stored | listed
        · obtain ⟨t, temporary, rfl⟩ := List.mem_map.mp stored
          intro expr part
          simp only [store, Instruction.exprs, List.mem_cons, List.not_mem_nil, or_false] at part
          rcases part with rfl | rfl
          · exact Source.scoped_slot bound _
          · exact (Expr.atomic_var (below t temporary)).toScoped
        · exact kept.instrs i listed
      · exact inside b (List.mem_cons_of_mem _ member)

theorem Moved.readable {request : Request} {f f' : Function} (shape : Moved request f f')
    (readable : f.Readable) : f'.Readable := by
  have labels := shape.labels
  obtain ⟨-, grows, temporaries, params, shapes⟩ := shape
  refine ⟨labels ▸ readable.distinct, ?_, ?_⟩
  · apply params.inside
    intro param member
    exact Nat.lt_of_lt_of_le (readable.params param member) grows
  · intro b' member
    obtain ⟨b, listed, shape⟩ := exists_of_forall₂ shapes member
    exact shape.scoped (scoped_onEntry (fun t listed => (params.fresh_of_mem t listed).below)
      (fun b listed => (readable.blocks b listed).mono grows) b listed)

end Spill

theorem Function.nextFreeSlot_le_iff {f : Function} {bound : Nat} :
    f.nextFreeSlot ≤ bound ↔ ∀ slot ∈ f.slots, slot.index < bound := by
  have folded : ∀ (slots : List Slot) (start : Nat),
      slots.foldl (fun next slot => max next (slot.index + 1)) start ≤ bound ↔
        start ≤ bound ∧ ∀ slot ∈ slots, slot.index < bound := by
    intro slots
    induction slots with
    | nil => simp
    | cons first rest ih =>
        intro start
        rw [List.foldl_cons, ih, List.forall_mem_cons, max_le_iff, and_assoc, Nat.succ_le_iff]
  rw [nextFreeSlot, folded]
  simp

def Function.SlotsBelow (bound : Nat) (f : Function) : Prop :=
  ∀ b ∈ f.blocks, ∀ i ∈ b.instrs, ∀ slot ∈ i.slots, slot.index < bound

theorem Function.slotsBelow_nextFreeSlot (f : Function) : f.SlotsBelow f.nextFreeSlot := by
  intro b member i listed slot used
  apply nextFreeSlot_le_iff.mp (Nat.le_refl _)
  exact List.mem_flatMap.mpr ⟨b, member, List.mem_flatMap.mpr ⟨i, listed, used⟩⟩

def Function.EntersOnce (f : Function) : Prop :=
  ∀ b ∈ f.blocks, ∀ target ∈ b.terminator.jumps, ∀ first ∈ f.blocks.head?,
    target ≠ .label first.label

instance (f : Function) : Decidable f.EntersOnce :=
  inferInstanceAs (Decidable (∀ b ∈ f.blocks, ∀ target ∈ b.terminator.jumps,
    ∀ first ∈ f.blocks.head?, target ≠ .label first.label))

/-- To carry out the stores of a variable on entry again does it no harm: no jump leads back to the
first block, or nothing is stored, or the variable holds what is stored all the time. -/
def Function.Reenterable (f : Function) (v : Var) : Prop :=
  f.EntersOnce ∨ v ∉ f.paramVars ∨ ∀ b ∈ f.blocks, ∀ i ∈ b.instrs, v ∉ i.defs

instance (f : Function) (v : Var) : Decidable (f.Reenterable v) :=
  inferInstanceAs (Decidable (_ ∨ _ ∨ _))

theorem Terminator.label_mem_jumps_mapVars {rename : Var → Var} {terminator : Terminator}
    {label : String} (member : .label label ∈ (terminator.mapVars rename).jumps) :
    .label label ∈ terminator.jumps := by
  have back : ∀ target : Expr, .label label = target.mapVars rename → .label label = target := by
    intro target same
    cases target <;> simp_all [Expr.mapVars]
  cases terminator with
  | ret => cases member
  | retValue value => cases member
  | jump target =>
      rw [mapVars, jumps, List.mem_singleton] at member
      exact List.mem_singleton.mpr (back target member)
  | branch condition onTrue onFalse =>
      simp only [mapVars, jumps, List.mem_cons, List.not_mem_nil, or_false] at member ⊢
      exact member.imp (back onTrue) (back onFalse)

namespace Spill

theorem MovedInstrs.slots {request : Request} {size bound : Nat}
    {instrs instrs' : List Instruction}
    (shape : MovedInstrs request size bound instrs instrs') {i' : Instruction} {slot : Slot}
    (member : i' ∈ instrs') (used : slot ∈ i'.slots) :
    slot = request.slot ∨ ∃ i ∈ instrs, slot ∈ i.slots := by
  induction shape with
  | nil => cases member
  | keep unused undefined _ ih =>
      rcases List.mem_cons.mp member with rfl | member
      · exact Or.inr ⟨i', List.mem_cons_self .., used⟩
      · refine (ih member).imp_right ?_
        rintro ⟨i, listed, used⟩
        exact ⟨i, List.mem_cons_of_mem _ listed, used⟩
  | move fresh _ ih =>
      rcases List.mem_append.mp member with member | member
      · simp only [moved, List.mem_append, List.mem_ite_nil_right, List.mem_singleton] at member
        rcases member with (⟨-, rfl⟩ | rfl) | ⟨-, rfl⟩
        · simp [load, Instruction.slots, Expr.slots, Expr.leaves, Leaf.slot?] at used
          exact Or.inl used
        · refine Or.inr ⟨_, List.mem_cons_self .., ?_⟩
          rw [Instruction.mem_slots, Instruction.exprs_mapVars] at used
          obtain ⟨expr, part, leaf⟩ := used
          obtain ⟨original, listed, rfl⟩ := List.mem_map.mp part
          exact Instruction.mem_slots.mpr
            ⟨original, listed, Expr.slot_mem_leaves_mapVars.mp leaf⟩
        · simp [store, Instruction.slots, Expr.slots, Expr.leaves, Leaf.slot?] at used
          exact Or.inl used
      · refine (ih member).imp_right ?_
        rintro ⟨i, listed, used⟩
        exact ⟨i, List.mem_cons_of_mem _ listed, used⟩

/-- Blocks with stores in front differ from blocks of the function in no more than that. -/
theorem exists_of_onEntry {stores : List Instruction} {list : List Block} {b : Block}
    (member : b ∈ onEntry stores list) :
    ∃ original ∈ list, b.terminator = original.terminator ∧
      ∀ i ∈ b.instrs, i ∈ stores ∨ i ∈ original.instrs := by
  cases list with
  | nil => cases member
  | cons first rest =>
      rcases List.mem_cons.mp member with rfl | member
      · exact ⟨first, List.mem_cons_self .., rfl, fun i listed => List.mem_append.mp listed⟩
      · exact ⟨b, List.mem_cons_of_mem _ member, rfl, fun i listed => Or.inr listed⟩

theorem Moved.slotsBelow {request : Request} {f f' : Function} (shape : Moved request f f')
    (below : f.SlotsBelow request.slot.index) : f'.SlotsBelow (request.slot.index + 1) := by
  obtain ⟨-, -, temporaries, -, shapes⟩ := shape
  intro b' member i' listed slot used
  obtain ⟨b, entered, -, instrs, loads, shape, end_shape, same⟩ := exists_of_forall₂ shapes member
  obtain ⟨original, known, -, parts⟩ := exists_of_onEntry entered
  rw [same] at listed
  rcases List.mem_append.mp listed with listed | loaded
  · rcases shape.slots listed used with rfl | ⟨i, listed, used⟩
    · omega
    · rcases parts i listed with stored | listed
      · obtain ⟨t, -, rfl⟩ := List.mem_map.mp stored
        simp [store, Instruction.slots, Expr.slots, Expr.leaves, Leaf.slot?] at used
        rw [used]
        omega
      · have small := below original known i listed slot used
        omega
  · obtain ⟨t, rfl⟩ := end_shape.exists_load loaded
    simp [load, Instruction.slots, Expr.slots, Expr.leaves, Leaf.slot?] at used
    rw [used]
    omega

theorem Moved.entersOnce {request : Request} {f f' : Function} (shape : Moved request f f')
    (once : f.EntersOnce) : f'.EntersOnce := by
  have labels := shape.labels
  obtain ⟨-, -, temporaries, -, shapes⟩ := shape
  intro b' member target listed first' front same
  obtain ⟨first, front, named⟩ : ∃ first ∈ f.blocks.head?, first.label = first'.label := by
    have heads := congrArg List.head? labels
    rw [List.head?_map, List.head?_map, Option.mem_def.mp front, Option.map_some] at heads
    obtain ⟨first, front, named⟩ := Option.map_eq_some_iff.mp heads.symm
    exact ⟨first, front, named⟩
  obtain ⟨b, entered, -, instrs, loads, -, end_shape, -⟩ := exists_of_forall₂ shapes member
  obtain ⟨original, known, ending, -⟩ := exists_of_onEntry entered
  have targeted : .label first'.label ∈ b.terminator.jumps := by
    rw [same] at listed
    generalize b'.terminator = terminator' at end_shape listed
    cases end_shape with
    | keep unused => exact listed
    | move used fresh => exact Terminator.label_mem_jumps_mapVars listed
  rw [ending] at targeted
  exact once original known _ targeted first front (by rw [named])

structure MovesTo (f f' : Function) : Prop where
  readable : f.Readable
  moves : ∃ request, f.SlotsBelow request.slot.index ∧ Moved request f f'

theorem MovesTo.readable_after {f f' : Function} (moves : MovesTo f f') : f'.Readable := by
  obtain ⟨readable, request, -, shape⟩ := moves
  exact shape.readable readable

/-- Variables are moved one after the other, each to a slot above those of the others. -/
theorem movesTo_all (stem : String) {f : Function} (readable : f.Readable) (vars : List Var)
    (first : Nat) (below : f.SlotsBelow first) :
    Relation.ReflTransGen MovesTo f (all stem f vars first).function := by
  induction vars generalizing f first with
  | nil => exact .refl
  | cons v rest ih =>
      have shape := moved_one readable ⟨v, ⟨first⟩, stem⟩
      have head : MovesTo f (one f ⟨v, ⟨first⟩, stem⟩).function :=
        ⟨readable, _, below, shape⟩
      exact .head head (ih head.readable_after (first + 1) (shape.slotsBelow below))

theorem readable_of_movesTo {f f' : Function} (readable : f.Readable)
    (moves : Relation.ReflTransGen MovesTo f f') : f'.Readable := by
  induction moves with
  | refl => exact readable
  | tail _ last _ => exact last.readable_after

end Spill

end Regalloc
