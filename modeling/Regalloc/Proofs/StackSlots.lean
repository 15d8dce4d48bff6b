import Mathlib
import Regalloc.Proofs.AllocationRounds

/-!
# Slots of the stack frame

A spilled variable gets the first slot above all those that instructions refer to. Every variable
that is spilled is mentioned, so a spill leaves a load or a store of its slot behind, and no slot
ever goes out of use. Hence the slots that an allocation gives out are consecutive, from the first
free slot of the function to the last slot of the frame.
-/

namespace Regalloc

theorem Expr.slots_mapVars (rename : Var → Var) (expr : Expr) :
    (expr.mapVars rename).slots = expr.slots := by
  have kept : Leaf.slot? ∘ Leaf.mapVars rename = Leaf.slot? := by
    funext leaf
    cases leaf <;> rfl
  rw [slots, slots, leaves_mapVars, List.filterMap_map, kept]

theorem Instruction.slots_mapVars (rename : Var → Var) (instruction : Instruction) :
    (instruction.mapVars rename).slots = instruction.slots := by
  cases instruction with
  | declare ty v => rfl
  | call builtin callee args => exact Expr.slots_mapVars rename (.call builtin callee args)
  | assign target source => simp only [mapVars, slots, Expr.slots_mapVars]

def Terminator.slots (terminator : Terminator) : List Slot :=
  terminator.exprs.flatMap Expr.slots

theorem Terminator.slots_mapVars (rename : Var → Var) (terminator : Terminator) :
    (terminator.mapVars rename).slots = terminator.slots := by
  simp only [slots, exprs_mapVars, List.flatMap_map, Expr.slots_mapVars]

def Function.slotOccurrences (f : Function) : List Slot :=
  f.slots ++ f.blocks.flatMap fun block => block.terminator.slots

theorem Function.Readable.mem_slots {f : Function} (readable : f.Readable) {slot : Slot}
    (occurs : slot ∈ f.slotOccurrences) : slot ∈ f.slots := by
  rcases List.mem_append.mp occurs with inside | last
  · exact inside
  · obtain ⟨block, listed, used⟩ := List.mem_flatMap.mp last
    obtain ⟨expr, part, used⟩ := List.mem_flatMap.mp used
    obtain ⟨leaf, member, same⟩ := List.mem_filterMap.mp used
    cases leaf with
    | slot other =>
        have atom := ((readable.blocks block listed).terminator expr part).atom
        exact absurd member (Expr.slot_notMem_leaves atom other)
    | _ => cases same

namespace Spill

section Slots

variable {request : Request} {low high : Nat} {slot : Slot}

theorem slots_load (t : Var) : (load request t).slots = [request.slot] := rfl

theorem slots_store (t : Var) : (store request t).slots = [request.slot] := rfl

theorem mem_slots_moved {i : Instruction} (occurs : request.v ∈ i.uses ∨ request.v ∈ i.defs)
    (t : Var) :
    slot ∈ (moved request t i).flatMap Instruction.slots ↔
      slot ∈ i.slots ∨ slot = request.slot := by
  by_cases used : request.v ∈ i.uses <;> by_cases defined : request.v ∈ i.defs
  · simp [moved, used, defined, slots_load, slots_store, Instruction.slots_mapVars]
    tauto
  · simp [moved, used, defined, slots_load, Instruction.slots_mapVars]
    tauto
  · simp [moved, used, defined, slots_store, Instruction.slots_mapVars]
  · exact absurd occurs (not_or.mpr ⟨used, defined⟩)

theorem Rewritten.mem_slots {instrs instrs' : List Instruction}
    (shape : Rewritten request low high instrs instrs') :
    slot ∈ instrs'.flatMap Instruction.slots ↔ slot ∈ instrs.flatMap Instruction.slots ∨
      slot = request.slot ∧ ∃ i ∈ instrs, request.v ∈ i.uses ∨ request.v ∈ i.defs := by
  induction shape with
  | nil => simp
  | keep unused undefined _ ih =>
      simp only [List.flatMap_cons, List.mem_append, ih, List.exists_mem_cons_iff, unused,
        undefined, or_self, false_or, or_assoc]
  | move occurs _ ih =>
      simp only [List.flatMap_append, List.flatMap_cons, List.mem_append, ih,
        mem_slots_moved occurs, List.exists_mem_cons_iff, occurs, true_or, and_true]
      tauto

theorem RewrittenEnd.mem_slots {t t' : Terminator} {loads : List Instruction}
    (shape : RewrittenEnd request t low high loads t') :
    slot ∈ loads.flatMap Instruction.slots ↔ slot = request.slot ∧ request.v ∈ t.uses := by
  cases shape with
  | keep unused => simp [unused]
  | move used => simp [used, slots_load]

theorem RewrittenEnd.slots_eq {t t' : Terminator} {loads : List Instruction}
    (shape : RewrittenEnd request t low high loads t') : t'.slots = t.slots := by
  cases shape with
  | keep unused => rfl
  | move used => exact t.slots_mapVars _

theorem RewrittenBlocks.mem_slots {list list' : List Block}
    (shape : RewrittenBlocks request low high list list') :
    slot ∈ list'.flatMap (fun b => b.instrs.flatMap Instruction.slots) ↔
      slot ∈ list.flatMap (fun b => b.instrs.flatMap Instruction.slots) ∨
        slot = request.slot ∧ ∃ b ∈ list, Occurs request b := by
  induction shape with
  | nil => simp
  | cons instrs ending _ ih =>
      simp only [List.flatMap_cons, List.flatMap_append, List.mem_append, ih, instrs.mem_slots,
        ending.mem_slots, List.exists_mem_cons_iff, Occurs]
      grind

theorem RewrittenBlocks.slots_ends {list list' : List Block}
    (shape : RewrittenBlocks request low high list list') :
    list'.flatMap (fun b => b.terminator.slots) = list.flatMap fun b => b.terminator.slots := by
  induction shape with
  | nil => rfl
  | cons instrs ending _ ih =>
      simp only [List.flatMap_cons, ih, ending.slots_eq]

theorem RewrittenBlocks.length_eq {list list' : List Block}
    (shape : RewrittenBlocks request low high list list') : list'.length = list.length := by
  induction shape with
  | nil => rfl
  | cons _ _ _ ih => rw [List.length_cons, List.length_cons, ih]

theorem RewrittenParams.lt_iff {list list' : List Param}
    (shape : RewrittenParams request low high list list') :
    low < high ↔ request.v ∈ list.map Param.v := by
  induction shape with
  | nil => simp
  | keep apart _ ih => simp [ih, Ne.symm apart]
  | move same later ih =>
      have less := later.le
      simp only [List.map_cons, same, List.mem_cons, true_or, iff_true]
      omega

end Slots

section One

variable {f : Function} {request : Request}

theorem mem_mentions_iff {v : Var} :
    v ∈ f.mentions ↔ v ∈ f.paramVars ∨ ∃ b ∈ f.blocks,
      (∃ i ∈ b.instrs, v ∈ i.uses ∨ v ∈ i.defs) ∨ v ∈ b.terminator.uses := by
  rw [Function.mem_mentions]
  refine or_congr_right (exists_congr fun b => and_congr_right fun _ => ?_)
  simp only [Block.points, List.mem_append, List.mem_map, List.mem_singleton, or_and_right,
    exists_or, exists_eq_left]
  refine or_congr ?_ ?_
  · constructor
    · rintro ⟨_, ⟨i, listed, rfl⟩, occurs⟩
      exact ⟨i, listed, occurs.symm⟩
    · rintro ⟨i, listed, occurs⟩
      exact ⟨_, ⟨i, listed, rfl⟩, occurs.symm⟩
  · simp [Terminator.defUse]

theorem blocks_one_ne_nil (blocks : f.blocks ≠ []) : (one f request).function.blocks ≠ [] := by
  obtain ⟨⟨mid, shape⟩, -⟩ := one_rewritten f request
  have same := shape.blocks.length_eq
  cases listed : f.blocks with
  | nil => exact absurd listed blocks
  | cons first rest =>
      rw [listed, onEntry] at same
      intro none
      rw [none] at same
      cases same

/-- A spill brings its slot into the function if the variable is mentioned, and no other. -/
theorem mem_slots_one (blocks : f.blocks ≠ []) {slot : Slot} :
    slot ∈ (one f request).function.slots ↔
      slot ∈ f.slots ∨ slot = request.slot ∧ request.v ∈ f.mentions := by
  obtain ⟨⟨mid, shape⟩, -⟩ := one_rewritten f request
  have arriving := shape.params.lt_iff
  rw [Function.slots, shape.blocks.mem_slots, mem_mentions_iff, Function.paramVars, ← arriving,
    Function.slots]
  cases listed : f.blocks with
  | nil => exact absurd listed blocks
  | cons first rest =>
      have stored : slot ∈ ((mints f.vars.size mid).map (store request)).flatMap
          Instruction.slots ↔ slot = request.slot ∧ f.vars.size < mid := by
        simp only [List.flatMap_map, slots_store, List.mem_flatMap, List.mem_singleton,
          exists_and_right, and_comm (a := slot = request.slot)]
        refine and_congr_left fun _ => ⟨?_, ?_⟩
        · rintro ⟨t, minted⟩
          rw [mem_mints] at minted
          omega
        · intro less
          exact ⟨⟨f.vars.size⟩, mem_mints.mpr ⟨Nat.le_refl _, less⟩⟩
      have touched : (∃ i ∈ (mints f.vars.size mid).map (store request),
          request.v ∈ i.uses ∨ request.v ∈ i.defs) → f.vars.size < mid := by
        rintro ⟨i, member, -⟩
        obtain ⟨t, minted, -⟩ := List.mem_map.mp member
        rw [mem_mints] at minted
        omega
      simp only [onEntry, List.flatMap_cons, List.flatMap_append, List.mem_append, stored,
        List.exists_mem_cons_iff, Occurs, or_and_right, exists_or]
      grind

theorem mem_slots_of_one {slot : Slot} (member : slot ∈ (one f request).function.slots) :
    slot ∈ f.slots ∨ slot = request.slot := by
  by_cases blocks : f.blocks = []
  · obtain ⟨⟨mid, shape⟩, -⟩ := one_rewritten f request
    have none : (one f request).function.blocks = [] := by
      rw [← List.length_eq_zero_iff, shape.blocks.length_eq, blocks]
      rfl
    rw [Function.slots, none] at member
    cases member
  · exact ((mem_slots_one blocks).mp member).imp_right And.left

theorem slots_ends_one :
    (one f request).function.blocks.flatMap (fun b => b.terminator.slots) =
      f.blocks.flatMap fun b => b.terminator.slots := by
  obtain ⟨⟨mid, shape⟩, -⟩ := one_rewritten f request
  rw [shape.blocks.slots_ends]
  cases f.blocks <;> rfl

end One

section Mentions

variable {request : Request} {low high : Nat} {w : Var}

theorem RewrittenPoints.keeps {points points' : List DefUse}
    (shape : RewrittenPoints request low high points points') (apart : w ≠ request.v)
    (mentioned : ∃ point ∈ points, point.Mentions w) : ∃ point ∈ points', point.Mentions w := by
  induction shape with
  | nil => exact mentioned
  | keep absent _ ih =>
      rw [List.exists_mem_cons_iff] at mentioned ⊢
      exact mentioned.imp_right ih
  | @move low high first first' rest rest' occurs renamed _ ih =>
      rcases (List.exists_mem_cons_iff ..).mp mentioned with here | later
      · refine ⟨first', by simp, ?_⟩
        have same : replace request ⟨low⟩ w = w := if_neg apart
        rcases here with written | used
        · exact Or.inl (renamed.defs ▸ List.mem_map.mpr ⟨w, written, same⟩)
        · exact Or.inr ((renamed.uses w).mpr ⟨w, used, same⟩)
      · obtain ⟨point, listed, mentioned⟩ := ih later
        exact ⟨point, List.mem_append_right _ listed, mentioned⟩

theorem RewrittenAll.keeps {blocks blocks' : List (List DefUse)}
    (shape : RewrittenAll request low high blocks blocks') (apart : w ≠ request.v)
    (mentioned : ∃ points ∈ blocks, ∃ point ∈ points, point.Mentions w) :
    ∃ points ∈ blocks', ∃ point ∈ points, point.Mentions w := by
  induction shape with
  | nil => exact mentioned
  | cons first _ ih =>
      rw [List.exists_mem_cons_iff] at mentioned ⊢
      exact mentioned.imp (first.keeps apart) ih

theorem RewrittenParams.keeps {list list' : List Param}
    (shape : RewrittenParams request low high list list') (apart : w ≠ request.v)
    (member : w ∈ list.map Param.v) : w ∈ list'.map Param.v := by
  induction shape with
  | nil => exact member
  | keep _ _ ih =>
      rw [List.map_cons, List.mem_cons] at member ⊢
      exact member.imp_right ih
  | move same _ ih =>
      rw [List.map_cons, List.mem_cons, same] at member
      exact List.mem_cons_of_mem _ (ih (member.resolve_left apart))

theorem mem_mentions_one_of_ne {f : Function} (mentioned : w ∈ f.mentions)
    (apart : w ≠ request.v) : w ∈ (one f request).function.mentions := by
  obtain ⟨⟨mid, shape⟩, -⟩ := one_rewritten f request
  rcases Function.mem_mentions.mp mentioned with param | ⟨block, listed, point, member, occurs⟩
  · exact Function.mem_mentions.mpr (Or.inl (shape.params.keeps apart param))
  · obtain ⟨points, front, inside⟩ :
        ∃ points ∈ onFront ((mints f.vars.size mid).map .store) (f.blocks.map Block.points),
          point ∈ points :=
      exists_mem_onFront (List.mem_map_of_mem listed) member
    obtain ⟨points', listed', point', member', occurs'⟩ :=
      shape.points.keeps apart ⟨points, front, point, inside, occurs⟩
    obtain ⟨block', inside', rfl⟩ := List.mem_map.mp listed'
    exact Function.mem_mentions.mpr (Or.inr ⟨block', inside', point', member', occurs'⟩)

end Mentions

inductive Moves (stem : String) : Function → List (Var × Slot) → Function → Prop
  | refl (f : Function) : Moves stem f [] f
  | move {f g : Function} {v : Var} {slot : Slot} {rest : List (Var × Slot)} :
      Moves stem (one f ⟨v, slot, stem⟩).function rest g → Moves stem f ((v, slot) :: rest) g

theorem Moves.append {stem : String} {f g h : Function} {first second : List (Var × Slot)}
    (early : Moves stem f first g) (late : Moves stem g second h) :
    Moves stem f (first ++ second) h := by
  induction early with
  | refl => exact late
  | move _ ih => exact .move (ih late)

def slotsFrom (first count : Nat) : List Slot :=
  (List.range' first count).map Slot.mk

theorem mem_slotsFrom {first count : Nat} {slot : Slot} :
    slot ∈ slotsFrom first count ↔ first ≤ slot.index ∧ slot.index < first + count := by
  simp only [slotsFrom, List.mem_map, List.mem_range'_1]
  constructor
  · rintro ⟨n, bounds, rfl⟩
    exact bounds
  · intro bounds
    exact ⟨slot.index, bounds, rfl⟩

theorem nodup_slotsFrom (first count : Nat) : (slotsFrom first count).Nodup :=
  List.Nodup.map (fun _ _ same => Slot.mk.inj same) List.nodup_range'

theorem slotsFrom_succ (first count : Nat) :
    slotsFrom first (count + 1) = ⟨first⟩ :: slotsFrom (first + 1) count := by
  simp [slotsFrom, List.range'_succ]

theorem slotsFrom_append (first count more : Nat) :
    slotsFrom first count ++ slotsFrom (first + count) more = slotsFrom first (count + more) := by
  simp only [slotsFrom, ← List.map_append, List.range'_append_1]

end Spill

def Event.slot? : Event → Option Slot
  | .spilled _ _ slot _ => some slot
  | _ => none

namespace Spill

theorem moves_all (stem : String) (f : Function) (vars : List Var) (first : Nat) :
    ∃ moves, Moves stem f moves (all stem f vars first).function ∧
      moves.map Prod.snd = slotsFrom first vars.length ∧
      (all stem f vars first).events.filterMap Event.slot? = slotsFrom first vars.length := by
  induction vars generalizing f first with
  | nil => exact ⟨[], .refl f, rfl, rfl⟩
  | cons v rest ih =>
      obtain ⟨moves, chain, given, reported⟩ := ih (one f ⟨v, ⟨first⟩, stem⟩).function (first + 1)
      refine ⟨(v, ⟨first⟩) :: moves, .move chain, ?_, ?_⟩
      · rw [List.map_cons, given, List.length_cons, slotsFrom_succ]
      · have event : (one f ⟨v, ⟨first⟩, stem⟩).events.filterMap Event.slot? = [⟨first⟩] := rfl
        simp only [all, List.filterMap_append, reported, event, List.length_cons,
          slotsFrom_succ, List.singleton_append]

section All

variable (stem : String) {f : Function} {vars : List Var} {first : Nat}

theorem blocks_all_ne_nil (blocks : f.blocks ≠ []) :
    (all stem f vars first).function.blocks ≠ [] := by
  induction vars generalizing f first with
  | nil => exact blocks
  | cons v rest ih => exact ih (blocks_one_ne_nil blocks)

theorem mem_slots_all (blocks : f.blocks ≠ []) (distinct : vars.Nodup)
    (mentioned : ∀ v ∈ vars, v ∈ f.mentions) {slot : Slot} :
    slot ∈ (all stem f vars first).function.slots ↔
      slot ∈ f.slots ∨ slot ∈ slotsFrom first vars.length := by
  induction vars generalizing f first with
  | nil => simp [all, slotsFrom]
  | cons v rest ih =>
      rw [List.forall_mem_cons] at mentioned
      rw [List.nodup_cons] at distinct
      have others : ∀ w ∈ rest, w ∈ (one f ⟨v, ⟨first⟩, stem⟩).function.mentions := by
        intro w listed
        refine mem_mentions_one_of_ne (mentioned.2 w listed) ?_
        rintro rfl
        exact distinct.1 listed
      rw [all, ih (blocks_one_ne_nil blocks) distinct.2 others, mem_slots_one blocks,
        List.length_cons, slotsFrom_succ, List.mem_cons]
      simp only [mentioned.1, and_true, or_assoc]

theorem slots_ends_all :
    (all stem f vars first).function.blocks.flatMap (fun b => b.terminator.slots) =
      f.blocks.flatMap fun b => b.terminator.slots := by
  induction vars generalizing f first with
  | nil => rfl
  | cons v rest ih => exact ih.trans slots_ends_one

theorem nextFreeSlot_all_le (below : f.nextFreeSlot ≤ first) :
    (all stem f vars first).function.nextFreeSlot ≤ first + vars.length := by
  induction vars generalizing f first with
  | nil => exact below
  | cons v rest ih =>
      have next : (one f ⟨v, ⟨first⟩, stem⟩).function.nextFreeSlot ≤ first + 1 := by
        rw [Function.nextFreeSlot_le_iff]
        intro slot member
        rcases mem_slots_of_one member with old | rfl
        · exact Nat.lt_succ_of_lt (Function.nextFreeSlot_le_iff.mp below slot old)
        · exact Nat.lt_succ_self first
      have later := ih next
      rw [List.length_cons]
      exact later.trans (by omega)

/-- Variables that a function mentions are moved to slots right above those in use. -/
theorem nextFreeSlot_all (blocks : f.blocks ≠ []) (distinct : vars.Nodup)
    (mentioned : ∀ v ∈ vars, v ∈ f.mentions) :
    (all stem f vars f.nextFreeSlot).function.nextFreeSlot = f.nextFreeSlot + vars.length := by
  have below := Function.nextFreeSlot_le_iff.mp (Nat.le_refl f.nextFreeSlot)
  apply Nat.le_antisymm
  · rw [Function.nextFreeSlot_le_iff]
    intro slot member
    rw [mem_slots_all stem blocks distinct mentioned, mem_slotsFrom] at member
    rcases member with old | given
    · have small := below slot old
      omega
    · exact given.2
  · have above := Function.nextFreeSlot_le_iff.mp
      (Nat.le_refl (all stem f vars f.nextFreeSlot).function.nextFreeSlot)
    have members : ∀ slot ∈ f.slots ++ slotsFrom f.nextFreeSlot vars.length,
        slot.index < (all stem f vars f.nextFreeSlot).function.nextFreeSlot := by
      intro slot member
      apply above
      rwa [mem_slots_all stem blocks distinct mentioned, ← List.mem_append]
    cases count : vars.length with
    | zero =>
        rw [Nat.add_zero, Function.nextFreeSlot_le_iff]
        exact fun slot old => members slot (List.mem_append_left _ old)
    | succ n =>
        have last : (⟨f.nextFreeSlot + n⟩ : Slot) ∈ slotsFrom f.nextFreeSlot vars.length := by
          rw [mem_slotsFrom]
          dsimp only
          omega
        have least := members _ (List.mem_append_right _ last)
        dsimp only at least
        omega

theorem slotOccurrences_all (blocks : f.blocks ≠ []) (distinct : vars.Nodup)
    (mentioned : ∀ v ∈ vars, v ∈ f.mentions) {slot : Slot} :
    slot ∈ (all stem f vars first).function.slotOccurrences ↔
      slot ∈ f.slotOccurrences ∨ slot ∈ slotsFrom first vars.length := by
  simp only [Function.slotOccurrences, List.mem_append, mem_slots_all stem blocks distinct mentioned,
    slots_ends_all]
  exact or_right_comm

end All

end Spill

namespace Logged

variable {α β : Type}

theorem events_bind {x : Logged α} {a : α} (done : x.result = .ok a) (f : α → Logged β) :
    (x >>= f).events = x.events ++ (f a).events := by
  cases x with
  | mk events result =>
      cases done
      rfl

def MovesNothing (x : Logged α) : Prop :=
  x.events.filterMap Event.slot? = []

theorem MovesNothing.bind {x : Logged α} {f : α → Logged β} (first : x.MovesNothing)
    (second : ∀ a, (f a).MovesNothing) : (x >>= f).MovesNothing := by
  cases done : x.result with
  | error error =>
      cases x with
      | mk events result =>
          cases done
          exact first
  | ok a =>
      rw [MovesNothing, events_bind done, List.filterMap_append, first, second a]
      rfl

end Logged

theorem Coloring.movesNothing_selectFrom (f : Function) (graph : Interference) (target : Target)
    (removals : List Removal) (coloring : Coloring) :
    (selectFrom f graph target removals coloring).MovesNothing := by
  induction removals generalizing coloring with
  | nil => exact rfl
  | cons removal rest ih =>
      unfold selectFrom
      split
      · exact ih _
      · split
        · exact .bind rfl fun _ => ih _
        · exact rfl

namespace Allocation

theorem movesNothing_color (config : Config) (rounds : Nat) (temporaries : VarSet)
    (f : Function) : (color config rounds temporaries f).MovesNothing := by
  have analyzed : (Liveness.analyze f).MovesNothing :=
    .bind rfl fun _ => .bind rfl fun _ => rfl
  refine .bind analyzed fun _ => .bind rfl fun _ => ?_
  exact Coloring.movesNothing_selectFrom f _ _ _ _

/-- What is known of the slots when the allocation of `f` has ended: the slots that `moves` gives
out follow the slots of `f`, and the frame ends with the last of them. -/
structure Framed (stem : String) (f : Function) (a : Allocation) (moves : List (Var × Slot)) :
    Prop where
  moved : Spill.Moves stem f moves a.function
  given : moves.map Prod.snd = Spill.slotsFrom f.nextFreeSlot moves.length
  occurs : ∀ slot, slot ∈ a.function.slotOccurrences ↔
    slot ∈ f.slotOccurrences ∨ slot ∈ moves.map Prod.snd
  frame : a.frameSlots = f.nextFreeSlot + moves.length

theorem Framed.round {stem : String} {f : Function} {a : Allocation} {vars : List Var}
    {early late : List (Var × Slot)} (blocks : f.blocks ≠ []) (distinct : vars.Nodup)
    (mentioned : ∀ v ∈ vars, v ∈ f.mentions)
    (moved : Spill.Moves stem f early (Spill.all stem f vars f.nextFreeSlot).function)
    (given : early.map Prod.snd = Spill.slotsFrom f.nextFreeSlot vars.length)
    (rest : Framed stem (Spill.all stem f vars f.nextFreeSlot).function a late) :
    Framed stem f a (early ++ late) := by
  have next := Spill.nextFreeSlot_all stem blocks distinct mentioned
  have length : early.length = vars.length := by
    simpa [Spill.slotsFrom] using congrArg List.length given
  have slots : (early ++ late).map Prod.snd =
      Spill.slotsFrom f.nextFreeSlot (early ++ late).length := by
    rw [List.map_append, given, rest.given, next, Spill.slotsFrom_append, List.length_append,
      length]
  refine ⟨moved.append rest.moved, slots, ?_, ?_⟩
  · intro slot
    rw [rest.occurs, Spill.slotOccurrences_all stem blocks distinct mentioned, List.map_append,
      List.mem_append, given, or_assoc]
  · rw [rest.frame, next, List.length_append, length, Nat.add_assoc]

theorem framed_of_withFrame {config : Config} {f : Function} {coloring : Coloring} {rounds : Nat}
    {a : Allocation} (framed : (withFrame config f coloring rounds).result = .ok a) :
    Framed config.stem f a [] ∧
      (withFrame config f coloring rounds).events.filterMap Event.slot? = [] := by
  obtain ⟨room, rfl⟩ := eq_of_withFrame framed
  refine ⟨⟨.refl f, rfl, by simp, rfl⟩, ?_⟩
  rw [withFrame_of_lt room]
  rfl

/-- The slots of an allocation, from any stage of it on. -/
theorem framed_of_allocateFrom {config : Config} {remaining rounds : Nat} {temporaries : VarSet}
    {f : Function} {a : Allocation} (blocks : f.blocks ≠ [])
    (allocated : (allocateFrom config remaining rounds temporaries f).result = .ok a) :
    ∃ moves, Framed config.stem f a moves ∧
      (allocateFrom config remaining rounds temporaries f).events.filterMap Event.slot? =
        moves.map Prod.snd := by
  induction remaining generalizing rounds temporaries f with
  | zero =>
      unfold allocateFrom at allocated ⊢
      rw [Logged.result_bind] at allocated
      obtain ⟨coloring, colored, allocated⟩ := except_bind_eq_ok.mp allocated
      rw [Logged.events_bind colored, List.filterMap_append, movesNothing_color, List.nil_append]
      split at allocated
      · rename_i complete
        rw [if_pos complete]
        exact ⟨[], framed_of_withFrame allocated⟩
      · simp at allocated
  | succ remaining ih =>
      unfold allocateFrom at allocated ⊢
      rw [Logged.result_bind] at allocated
      obtain ⟨coloring, colored, allocated⟩ := except_bind_eq_ok.mp allocated
      rw [Logged.events_bind colored, List.filterMap_append, movesNothing_color, List.nil_append]
      split at allocated
      · rename_i complete
        rw [if_pos complete]
        exact ⟨[], framed_of_withFrame allocated⟩
      · rename_i incomplete
        rw [if_neg incomplete]
        simp only at allocated ⊢
        split at allocated
        · simp at allocated
        · rename_i lasting
          rw [if_neg lasting]
          simp only [Logged.result_bind, Logged.result_report] at allocated
          obtain ⟨_, -, allocated⟩ := except_bind_eq_ok.mp allocated
          obtain ⟨_, moving, allocated⟩ := except_bind_eq_ok.mp allocated
          obtain ⟨room, rfl⟩ := Spill.eq_of_toFreeSlots moving
          obtain ⟨late, framed, reported⟩ := ih (Spill.blocks_all_ne_nil _ blocks) allocated
          obtain ⟨early, moved, given, spilled⟩ :=
            Spill.moves_all config.stem f coloring.spilled.toList f.nextFreeSlot
          have mentioned : ∀ v ∈ coloring.spilled.toList, v ∈ f.mentions := fun v listed =>
            mem_mentions_of_spilled colored (IndexSet.mem_toList.mp listed)
          refine ⟨early ++ late,
            framed.round blocks (IndexSet.nodup_toList _) mentioned moved given, ?_⟩
          rw [Logged.events_bind (Logged.result_report _), Logged.events_bind moving,
            Spill.toFreeSlots_of_lt room, List.map_append, given, ← spilled, ← reported,
            ← List.filterMap_append]
          rfl

end Allocation

/-- The slots that an allocation gives to spilled variables are distinct and new, and the frame
holds them together with the slots that the function names itself. -/
theorem allocate_slots (text : String) (config : Allocation.Config) (f : Function) (a : Allocation)
    (parsed : Source.parseFunction text = .ok f) (allocated : (allocate config f).result = .ok a) :
    ∃ moves, Spill.Moves config.stem f moves a.function ∧
      (allocate config f).events.filterMap Event.slot? = moves.map Prod.snd ∧
      (moves.map Prod.snd).Nodup ∧ (∀ slot ∈ moves.map Prod.snd, slot ∉ f.slotOccurrences) ∧
      (∀ slot, slot ∈ a.function.slotOccurrences ↔
        slot ∈ f.slotOccurrences ∨ slot ∈ moves.map Prod.snd) ∧
      ∀ slot ∈ a.function.slotOccurrences,
        slot.index < a.frameSlots ∧ slot.offset + 8 ≤ a.frameSize := by
  obtain ⟨readable, blocks⟩ := Source.readable_of_parseFunction parsed
  obtain ⟨moves, framed, reported⟩ := Allocation.framed_of_allocateFrom blocks allocated
  have below : ∀ slot ∈ f.slotOccurrences, slot.index < f.nextFreeSlot := fun slot occurs =>
    Function.nextFreeSlot_le_iff.mp (Nat.le_refl _) slot (readable.mem_slots occurs)
  have given : ∀ slot, slot ∈ moves.map Prod.snd ↔
      f.nextFreeSlot ≤ slot.index ∧ slot.index < a.frameSlots := by
    intro slot
    rw [framed.given, Spill.mem_slotsFrom, framed.frame]
  refine ⟨moves, framed.moved, reported, ?_, ?_, framed.occurs, ?_⟩
  · rw [framed.given]
    exact Spill.nodup_slotsFrom _ _
  · intro slot moved occurs
    exact absurd (below slot occurs) (Nat.not_lt.mpr ((given slot).mp moved).1)
  · intro slot occurs
    have inside : slot.index < a.frameSlots := by
      rcases (framed.occurs slot).mp occurs with old | moved
      · have small := below slot old
        have frame := framed.frame
        omega
      · exact ((given slot).mp moved).2
    refine ⟨inside, ?_⟩
    simp only [Slot.offset, Allocation.frameSize]
    omega

/-- A function that names a slot keeps two values across a call, with no register for them. -/
theorem allocate_slots_kept_values :
    ∃ config f a moves, config = { target := ⟨[.rdi, .rsi], [.rdi], [.rdi, .rsi]⟩ } ∧
      Source.parseFunction ("define int64 @f(int64 %a) \x7b\n:s\n%b <- mem rsp 8\n" ++
        "call print(%b)\n%a <- %a + %b\nreturn %a\n\x7d") = .ok f ∧
      (allocate config f).result = .ok a ∧ f.slotOccurrences = [⟨1⟩] ∧ a.frameSlots = 4 ∧
      moves.map Prod.snd = [⟨2⟩, ⟨3⟩] ∧ Spill.Moves config.stem f moves a.function ∧
      ∀ slot ∈ a.function.slotOccurrences, slot.index < 4 ∧ slot.offset + 8 ≤ a.frameSize := by
  have ran :
      ((Source.parseFunction ("define int64 @f(int64 %a) \x7b\n:s\n%b <- mem rsp 8\n" ++
          "call print(%b)\n%a <- %a + %b\nreturn %a\n\x7d")).toOption.bind fun f =>
        (allocate { target := ⟨[.rdi, .rsi], [.rdi], [.rdi, .rsi]⟩ } f).result.toOption.map fun a =>
          (f.slotOccurrences, a.frameSlots,
            (allocate { target := ⟨[.rdi, .rsi], [.rdi], [.rdi, .rsi]⟩ } f).events.filterMap
              Event.slot?)) = some ([⟨1⟩], 4, [⟨2⟩, ⟨3⟩]) := by
    decide +kernel
  simp only [Option.bind_eq_some_iff, Option.map_eq_some_iff, toOption_eq_some,
    Prod.mk.injEq] at ran
  obtain ⟨f, parsed, a, allocated, named, frame, reported⟩ := ran
  obtain ⟨moves, moved, given, -, -, -, inside⟩ := allocate_slots _ _ f a parsed allocated
  exact ⟨_, f, a, moves, rfl, parsed, allocated, named, frame, given ▸ reported, moved,
    frame ▸ inside⟩

end Regalloc
