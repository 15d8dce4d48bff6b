import Mathlib
import Regalloc.Proofs.SpillFrames
import Regalloc.Proofs.StaticFaults

/-!
# Executions of a function with a variable in a slot

A program whose functions have each moved a variable to a slot follows the program, and the other
way around. It takes more cycles, but no more than a fixed multiple.
-/

namespace Regalloc

namespace Machine

open Spill

structure Spilling (request : Request) (f f' : Function) : Prop where
  readable : f.Readable
  below : f.SlotsBelow request.slot.index
  shape : Moved request f f'
  reenterable : f.Reenterable request.v

structure Position (request : Request) (f f' : Function) (instrs : List Instruction)
    (t : Terminator) (instrs' : List Instruction) (t' : Terminator) : Prop where
  shape : ∃ moved loads, MovedInstrs request f.vars.size f'.vars.size instrs moved ∧
    MovedEnd request f.vars.size f'.vars.size t loads t' ∧ instrs' = moved ++ loads
  inside : ∀ i ∈ instrs, ∀ expr ∈ i.exprs, expr.Scoped f.vars.size
  unused : ∀ i ∈ instrs, request.slot ∉ i.slots
  ending : ∀ expr ∈ t.exprs, expr.Atomic f.vars.size
  once : f.EntersOnce →
    ∀ target ∈ t.jumps, ∀ first ∈ f.blocks.head?, target ≠ .label first.label
  kept : f.EntersOnce ∨ request.v ∉ f.paramVars ∨ ∀ i ∈ instrs, request.v ∉ i.defs

theorem exists_spare (request : Request) (size : Nat) : ∃ t, Spare request size t := by
  refine ⟨⟨size + request.v.index + 1⟩, ?_, ?_⟩
  · show size ≤ size + request.v.index + 1
    omega
  · intro same
    have indices := congrArg Var.index same
    dsimp only at indices
    omega

section Positions

variable {request : Request} {f f' : Function} {rest instrs' : List Instruction}
  {t t' : Terminator}

theorem replace_of_ne {temporary v : Var} (apart : v ≠ request.v) :
    replace request temporary v = v :=
  if_neg apart

/-- The next instruction of a block, after the move: it stands between loads and stores, and
renames what it uses and writes. -/
theorem Position.cons {i : Instruction}
    (position : Position request f f' (i :: rest) t instrs' t') :
    ∃ temporary rename rest', Spare request f.vars.size temporary ∧
      instrs' = loadsFor request temporary i.uses ++
        i.mapVars rename :: (storesFor request temporary i.defs ++ rest') ∧
      (∀ v, v ∈ i.uses ∨ v ∈ i.defs → rename v = replace request temporary v) ∧
      Position request f f' rest t rest' t' := by
  obtain ⟨⟨moved, loads, shape, end_shape, rfl⟩, inside, unused, ending, once, kept⟩ := position
  have later : ∀ {others : List Instruction},
      MovedInstrs request f.vars.size f'.vars.size rest others →
      Position request f f' rest t (others ++ loads) t' := fun shape =>
    ⟨⟨_, loads, shape, end_shape, rfl⟩,
      fun j member => inside j (List.mem_cons_of_mem _ member),
      fun j member => unused j (List.mem_cons_of_mem _ member), ending, once,
      kept.imp_right (Or.imp_right fun unwritten j member =>
        unwritten j (List.mem_cons_of_mem _ member))⟩
  cases shape with
  | keep no_use no_def shape =>
      obtain ⟨temporary, spare⟩ := exists_spare request f.vars.size
      refine ⟨temporary, id, _, spare, ?_, ?_, later shape⟩
      · rw [loadsFor, if_neg no_use, storesFor, if_neg no_def, Instruction.mapVars_id]
        rfl
      · intro v touched
        refine (replace_of_ne ?_).symm
        rintro rfl
        exact touched.elim no_use no_def
  | @move temporary _ _ others fresh shape =>
      refine ⟨temporary, replace request temporary, _, ⟨fresh.above, fresh.apart⟩, ?_,
        fun v _ => rfl, later shape⟩
      simp only [Spill.moved, loadsFor, storesFor, List.append_assoc, List.cons_append,
        List.nil_append]

theorem Position.nil (position : Position request f f' [] t instrs' t') :
    ∃ temporary rename, Spare request f.vars.size temporary ∧
      instrs' = loadsFor request temporary t.uses ∧ t' = t.mapVars rename ∧
      ∀ v ∈ t.uses, rename v = replace request temporary v := by
  obtain ⟨⟨moved, loads, shape, end_shape, rfl⟩, -, -, -, -, -⟩ := position
  cases shape
  cases end_shape with
  | keep no_use =>
      obtain ⟨temporary, spare⟩ := exists_spare request f.vars.size
      refine ⟨temporary, id, spare, ?_, (Terminator.mapVars_id t).symm, ?_⟩
      · rw [loadsFor, if_neg no_use]
        rfl
      · intro v used
        refine (replace_of_ne ?_).symm
        rintro rfl
        exact no_use used
  | @move temporary use fresh =>
      refine ⟨temporary, replace request temporary, ⟨fresh.above, fresh.apart⟩, ?_, rfl,
        fun v _ => rfl⟩
      rw [loadsFor, if_pos use]
      rfl

end Positions

section Blocks

variable {request : Request} {f f' : Function}

theorem movedInstrs_stores {size bound : Nat} {temporaries : List Var}
    {instrs out : List Instruction} (apart : ∀ t ∈ temporaries, t ≠ request.v)
    (shape : MovedInstrs request size bound (temporaries.map (store request) ++ instrs) out) :
    ∃ out', out = temporaries.map (store request) ++ out' ∧
      MovedInstrs request size bound instrs out' := by
  induction temporaries generalizing out with
  | nil => exact ⟨out, rfl, shape⟩
  | cons temporary temporaries ih =>
      have different := apart temporary (List.mem_cons_self ..)
      have later := fun t member => apart t (List.mem_cons_of_mem temporary member)
      cases shape with
      | keep no_use no_def shape =>
          obtain ⟨out', rfl, others⟩ := ih later shape
          exact ⟨out', rfl, others⟩
      | @move t _ _ others fresh shape =>
          obtain ⟨out', rfl, others⟩ := ih later shape
          refine ⟨out', ?_, others⟩
          have kept : Spill.moved request t (store request temporary) =
              [store request temporary] := by
            have no_use : request.v ∉ (store request temporary).uses := by
              simpa [store, Instruction.uses, Expr.varOccurrences, Expr.leaves, Leaf.var?]
                using different.symm
            have no_def : request.v ∉ (store request temporary).defs := List.not_mem_nil
            have same : (store request temporary).mapVars (replace request t) =
                store request temporary := by
              simp [store, Instruction.mapVars, Expr.mapVars, replace_of_ne different]
            rw [Spill.moved, if_neg no_use, if_neg no_def, same]
            rfl
          rw [kept]
          rfl

theorem Spilling.position (spilling : Spilling request f f') {block : Block}
    (member : block ∈ f.blocks) {instrs' loads : List Instruction} {t' : Terminator}
    (shape : MovedInstrs request f.vars.size f'.vars.size block.instrs instrs')
    (end_shape : MovedEnd request f.vars.size f'.vars.size block.terminator loads t') :
    Position request f f' block.instrs block.terminator (instrs' ++ loads) t' where
  shape := ⟨instrs', loads, shape, end_shape, rfl⟩
  inside := (spilling.readable.blocks block member).instrs
  unused := by
    intro i listed used
    exact Nat.lt_irrefl _ (spilling.below block member i listed _ used)
  ending := (spilling.readable.blocks block member).terminator
  once := fun once => once block member
  kept := spilling.reenterable.imp_right (Or.imp_right fun unwritten => unwritten block member)

theorem Spilling.jumped (spilling : Spilling request f f') {b : Nat} {block : Block}
    (found : f.blocks[b + 1]? = some block) :
    ∃ block', f'.blocks[b + 1]? = some block' ∧
      Position request f f' block.instrs block.terminator block'.instrs block'.terminator := by
  obtain ⟨-, -, temporaries, -, shapes⟩ := spilling.shape
  have found' : (onEntry (temporaries.map (store request)) f.blocks)[b + 1]? = some block := by
    cases listed : f.blocks with
    | nil =>
        rw [listed] at found
        cases found
    | cons first rest =>
        rw [listed] at found
        exact found
  obtain ⟨block', there, shape⟩ := getElem?_of_forall₂ shapes found'
  obtain ⟨-, instrs', loads, shape, end_shape, same⟩ := shape
  refine ⟨block', there, ?_⟩
  rw [same]
  exact spilling.position (List.mem_of_getElem? found) shape end_shape

theorem Spilling.entered (spilling : Spilling request f f') {block : Block}
    (found : f.blocks[0]? = some block) :
    ∃ block' instrs', f'.blocks[0]? = some block' ∧
      block'.instrs = (arrivals request f.params f'.params).map (store request) ++ instrs' ∧
      Position request f f' block.instrs block.terminator instrs' block'.terminator := by
  obtain ⟨-, -, temporaries, params, shapes⟩ := spilling.shape
  have found' : (onEntry (temporaries.map (store request)) f.blocks)[0]? =
      some { block with instrs := temporaries.map (store request) ++ block.instrs } := by
    cases listed : f.blocks with
    | nil =>
        rw [listed] at found
        cases found
    | cons first rest =>
        rw [listed] at found
        cases found
        rfl
  obtain ⟨block', there, shape⟩ := getElem?_of_forall₂ shapes found'
  obtain ⟨-, instrs', loads, shape, end_shape, same⟩ := shape
  obtain ⟨others, rfl, own⟩ :=
    movedInstrs_stores (fun t member => (params.fresh_of_mem t member).apart) shape
  refine ⟨block', others ++ loads, there, ?_, ?_⟩
  · rw [same, List.append_assoc, params.temporaries_eq]
  · exact spilling.position (List.mem_of_getElem? found) own end_shape

theorem finish_target {caller : Caller} {frame : Frame} {t : Terminator} {s s' : State}
    {next : Nat} (finished : finish caller f frame t s = .ok (.enter next) s') :
    ∃ block, f.blocks[next]? = some block ∧ .label block.label ∈ t.jumps := by
  obtain ⟨label, jump, last⟩ := finish_enters finished
  obtain ⟨b, block, rfl, found, rfl⟩ := label_of_lastWithLabel last
  rw [Nat.zero_add]
  exact ⟨block, found, jump⟩

/-- Where the first block is entered once, control does not come back to it. -/
theorem Position.ne_zero {instrs instrs' : List Instruction} {t t' : Terminator}
    (position : Position request f f' instrs t instrs' t') (once : f.EntersOnce) {next : Nat}
    {block : Block} (found : f.blocks[next]? = some block)
    (target : .label block.label ∈ t.jumps) : next ≠ 0 := by
  rintro rfl
  rw [← List.head?_eq_getElem?] at found
  exact position.once once _ target block found rfl

end Blocks

section Reads

variable {request : Request} {f f' : Function} {rest instrs' : List Instruction}
  {t t' : Terminator} {temporary : Var} {rename : Var → Var} {frame loaded : Frame}

theorem Position.carried_instruction {i : Instruction}
    (position : Position request f f' (i :: rest) t instrs' t')
    (holds : Holds request f.vars.size frame loaded)
    (ready : request.v ∈ i.uses → loaded.vars.get? temporary = frame.vars.get? request.v)
    (renames : ∀ v, v ∈ i.uses ∨ v ∈ i.defs → rename v = replace request temporary v)
    {leaf : Leaf} (read : leaf ∈ i.reads) :
    Carried id rename frame loaded leaf ∧ Carried rename id loaded frame leaf := by
  have here : i ∈ i :: rest := List.mem_cons_self ..
  obtain ⟨expr, part, member⟩ := i.exists_of_mem_reads read
  apply holds.carried ready
  · rintro v rfl
    have used : v ∈ i.uses := Instruction.mem_uses.mpr read
    exact ⟨used, (position.inside i here expr part).below v member, renames v (Or.inl used)⟩
  · rintro rfl
    exact position.unused i here (Instruction.mem_slots.mpr ⟨expr, part, member⟩)

theorem Position.carried_terminator (position : Position request f f' [] t instrs' t')
    (holds : Holds request f.vars.size frame loaded)
    (ready : request.v ∈ t.uses → loaded.vars.get? temporary = frame.vars.get? request.v)
    (renames : ∀ v ∈ t.uses, rename v = replace request temporary v)
    {leaf : Leaf} (read : leaf ∈ t.reads) :
    Carried id rename frame loaded leaf ∧ Carried rename id loaded frame leaf := by
  obtain ⟨expr, part, member⟩ := t.exists_of_mem_reads read
  apply holds.carried ready
  · rintro v rfl
    have used : v ∈ t.uses := Terminator.mem_uses.mpr read
    exact ⟨used, (position.ending expr part).below v member, renames v used⟩
  · rintro rfl
    exact Expr.slot_notMem_leaves (position.ending expr part).atom _ member

theorem Position.notMem_slotDefs {i : Instruction}
    (position : Position request f f' (i :: rest) t instrs' t') :
    request.slot ∉ i.slotDefs := by
  intro written
  apply position.unused i (List.mem_cons_self ..)
  exact i.slotDefs_subset written

end Reads

section Tracking

variable {request : Request} {f f' : Function} {frame frame' loaded : Frame} {temporary : Var}

/-- Frames that agree and will agree again if control comes back to the first block. -/
structure Tracks (request : Request) (f f' : Function) (frame frame' : Frame) : Prop where
  holds : Holds request f.vars.size frame frame'
  restores : f.EntersOnce ∨ Restores request (arrivals request f.params f'.params) frame'

def Arrives (request : Request) (f f' : Function) (frame frame' : Frame) : Prop :=
  ∃ entered, Carries request ((arrivals request f.params f'.params).map (store request)) frame'
    entered ∧ Tracks request f f' frame entered

theorem Spilling.arrivals_above (spilling : Spilling request f f') :
    ∀ t ∈ arrivals request f.params f'.params, f.vars.size ≤ t.index := by
  obtain ⟨-, -, temporaries, params, -⟩ := spilling.shape
  rw [← params.temporaries_eq]
  exact fun t member => (params.fresh_of_mem t member).above

theorem Spilling.length_arrivals_le (spilling : Spilling request f f') :
    (arrivals request f.params f'.params).length ≤ f.params.length := by
  obtain ⟨-, -, temporaries, params, -⟩ := spilling.shape
  rw [← params.temporaries_eq]
  exact params.temporaries_le

theorem arrivals_eq_nil (absent : request.v ∉ f.paramVars) :
    arrivals request f.params f'.params = [] := by
  rw [arrivals, List.map_eq_nil_iff, List.filter_eq_nil_iff]
  intro pair member
  have listed : pair.1.v ∈ f.paramVars := List.mem_map_of_mem (List.of_mem_zip member).1
  rw [decide_eq_true_eq]
  rintro same
  exact absent (same ▸ listed)

theorem Spilling.arrives_enter (spilling : Spilling request f f') {args : List Value}
    (arity : args.length = f.params.length) :
    Arrives request f f' (Frame.enter f args) (Frame.enter f' args) := by
  obtain ⟨-, -, temporaries, params, -⟩ := spilling.shape
  obtain ⟨entered, carries, holds⟩ := holds_enter params spilling.readable.params arity
  rw [params.temporaries_eq] at carries
  exact ⟨entered, carries, holds, Or.inr (restores_of_carries carries).2⟩

theorem Tracks.arrives (tracks : Tracks request f f' frame frame') (again : ¬f.EntersOnce) :
    Arrives request f f' frame frame' := by
  obtain ⟨entered, carries, holds⟩ := tracks.holds.reenter (tracks.restores.resolve_left again)
  exact ⟨entered, carries, holds, Or.inr (restores_of_carries carries).2⟩

theorem Tracks.load (tracks : Tracks request f f' frame frame')
    (spare : Spare request f.vars.size temporary) {uses : List Var}
    (carries : Carries request (loadsFor request temporary uses) frame' loaded) :
    Tracks request f f' frame loaded ∧
      (request.v ∈ uses → loaded.vars.get? temporary = frame.vars.get? request.v) := by
  obtain ⟨holds, ready⟩ := tracks.holds.load spare carries
  exact ⟨⟨holds, tracks.restores.imp_right fun restores => restores.load carries⟩, ready⟩

theorem Tracks.after (tracks : Tracks request f f' frame loaded)
    (spilling : Spilling request f f') (spare : Spare request f.vars.size temporary)
    {i : Instruction} {rest instrs' : List Instruction} {t t' : Terminator} {rename : Var → Var}
    (position : Position request f f' (i :: rest) t instrs' t')
    (renames : ∀ v ∈ i.defs, rename v = replace request temporary v) (value : Value) :
    ∃ stored, Carries request (storesFor request temporary i.defs) (loaded.after rename i value)
        stored ∧ Tracks request f f' (frame.after id i value) stored := by
  have here : i ∈ i :: rest := List.mem_cons_self ..
  obtain ⟨stored, storing, again⟩ :=
    tracks.holds.after spare renames position.notMem_slotDefs value
  refine ⟨stored, storing, again, ?_⟩
  rcases tracks.restores with once | restores
  · exact Or.inl once
  · rcases position.kept with once | absent | unwritten
    · exact Or.inl once
    · rw [arrivals_eq_nil absent]
      exact Or.inr (restores_nil request stored)
    · rw [storesFor, if_neg (unwritten i here)] at storing
      cases storing
      refine Or.inr (restores.after spilling.arrivals_above ?_ position.notMem_slotDefs value)
      intro v defined
      have apart : v ≠ request.v := by
        rintro rfl
        exact unwritten i here defined
      obtain ⟨expr, part, leaf⟩ := Instruction.mem_uses_or_defs.mp (Or.inr defined)
      rw [renames v defined, replace_of_ne apart]
      exact (position.inside i here expr part).below v leaf

end Tracking

end Machine

end Regalloc
