import Mathlib
import Regalloc.Proofs.SpillSimulation

/-!
# Programs with variables in slots

Both directions of the simulation. The program with slots follows with a multiple of the cycles,
because every point pays for the moves that come before it: those that an earlier point or the
entry of the function left behind, and its own load. The program without slots follows with the
cycles that it is given.
-/

namespace Regalloc.Machine

open Spill

/-- Cycles of the program with slots and of the program: each of the latter pays for `factor` of
the former. -/
def Budget (factor limit cycles cycles' : Nat) : Prop :=
  cycles' ≤ factor * cycles ∧ cycles ≤ limit

def Corresponds (factor : Nat) (f f' : Function) : Prop :=
  (∃ request, Spilling request f f') ∧ f.params.length + 2 ≤ factor

theorem Corresponds.name {factor : Nat} {f f' : Function} (pair : Corresponds factor f f') :
    f'.name = f.name := by
  obtain ⟨⟨request, spilling⟩, -⟩ := pair
  exact spilling.shape.name

theorem Corresponds.arity {factor : Nat} {f f' : Function} (pair : Corresponds factor f f') :
    f'.params.length = f.params.length := by
  obtain ⟨⟨request, spilling⟩, -⟩ := pair
  obtain ⟨-, -, temporaries, params, -⟩ := spilling.shape
  exact params.length_eq

def Follows (factor limit limit' : Nat) (program program' : Program) (fuel : Nat) : Prop :=
  ∀ {request : Request} {f f' : Function}, Spilling request f f' → f.params.length + 2 ≤ factor →
    ∀ {instrs instrs' moves : List Instruction} {t t' : Terminator} {frame frame' middle : Frame},
      Position request f f' instrs t instrs' t' → Carries request moves frame' middle →
      Tracks request f f' frame middle → moves.length + 2 ≤ factor →
      ∀ fuel', factor * fuel ≤ fuel' →
        Refines (Budget factor limit) Eq (proceed program limit fuel f frame instrs t)
          (proceed program' limit' fuel' f' frame' (moves ++ instrs') t')

section Forward

variable {factor limit limit' fuel : Nat} {program program' : Program} {request : Request}
  {f f' : Function} (follows : Follows factor limit limit' program program' fuel)
  (spilling : Spilling request f f') (small : f.params.length + 2 ≤ factor)

include follows spilling small

theorem Follows.enter {frame frame' : Frame} (arrives : Arrives request f f' frame frame')
    {fuel' : Nat} (enough : factor * fuel ≤ fuel') :
    Refines (Budget factor limit) Eq (resume program limit fuel f frame 0 0)
      (resume program' limit' fuel' f' frame' 0 0) := by
  cases found : f.blocks[0]? with
  | none =>
      obtain ⟨fault, thrown⟩ := resume_stops found
      rw [thrown]
      exact .of_throw
  | some block =>
      obtain ⟨block', instrs', found', same, position⟩ := spilling.entered found
      obtain ⟨entered, carries, tracks⟩ := arrives
      rw [resume_eq_proceed found (Nat.zero_le _), resume_eq_proceed found' (Nat.zero_le _),
        List.drop_zero, List.drop_zero, same]
      have few : ((arrivals request f.params f'.params).map (store request)).length + 2 ≤
          factor := by
        have fewer := spilling.length_arrivals_le
        rw [List.length_map]
        omega
      exact follows spilling small position carries tracks few fuel' enough

theorem Follows.jump {frame frame' : Frame} (tracks : Tracks request f f' frame frame')
    {b : Nat} {block : Block} (found : f.blocks[b]? = some block) (once : f.EntersOnce → b ≠ 0)
    {fuel' : Nat} (enough : factor * fuel ≤ fuel') :
    Refines (Budget factor limit) Eq (resume program limit fuel f frame b 0)
      (resume program' limit' fuel' f' frame' b 0) := by
  cases b with
  | zero => exact follows.enter spilling small (tracks.arrives fun entered => once entered rfl) enough
  | succ b =>
      obtain ⟨block', found', position⟩ := spilling.jumped found
      rw [resume_eq_proceed found (Nat.zero_le _), resume_eq_proceed found' (Nat.zero_le _)]
      exact follows spilling small position .nil tracks (Nat.le_of_add_left_le small) fuel' enough

end Forward

theorem Follows.calls {factor limit limit' fuel : Nat} {program program' : Program}
    (follows : Follows factor limit limit' program program' fuel)
    (paired : List.Forall₂ (Corresponds factor) program.functions program'.functions)
    {fuel' : Nat} (enough : factor * fuel ≤ fuel') :
    CallsRefine (Budget factor limit) (callerWith program limit fuel)
      (callerWith program' limit' fuel') := by
  apply dispatch_refines paired
  · exact fun f f' pair => pair.name
  · exact fun f f' pair => pair.arity
  · intro f f' args pair arity
    obtain ⟨⟨request, spilling⟩, small⟩ := pair
    exact follows.enter spilling small (spilling.arrives_enter arity) enough

theorem length_loadsFor_le (request : Request) (t : Var) (uses : List Var) :
    (loadsFor request t uses).length ≤ 1 := by
  unfold loadsFor
  split
  · exact Nat.le_refl 1
  · exact Nat.zero_le 1

theorem length_storesFor_le (request : Request) (t : Var) (defs : List Var) :
    (storesFor request t defs).length ≤ 1 := by
  unfold storesFor
  split
  · exact Nat.le_refl 1
  · exact Nat.zero_le 1

/-- A cycle of the program pays for some moves and for the point itself. -/
theorem Alike.pay {factor limit n : Nat} {s t : State} (alike : Alike (Budget factor limit) s t)
    (early : s.cycles < limit) (few : n + 1 ≤ factor) :
    Alike (Budget factor limit) { s with cycles := s.cycles + 1 }
      { t with cycles := t.cycles + n + 1 } := by
  refine ⟨alike.heap, alike.input, alike.output, ?_, early⟩
  have paid := alike.cycles.1
  show t.cycles + n + 1 ≤ factor * (s.cycles + 1)
  rw [Nat.mul_succ]
  omega

theorem Alike.room {factor limit limit' n : Nat} {s t : State}
    (alike : Alike (Budget factor limit) s t) (limits : factor * limit ≤ limit')
    (early : s.cycles < limit) (few : n + 1 ≤ factor) : t.cycles + n + 1 ≤ limit' := by
  have paid := alike.cycles.1
  have more : factor * (s.cycles + 1) ≤ factor * limit := Nat.mul_le_mul_left factor early
  rw [Nat.mul_succ] at more
  omega

theorem exists_rest {factor fuel fuel' n : Nat} (enough : factor * (fuel + 1) ≤ fuel')
    (count : n + 1 ≤ factor) : ∃ less, fuel' = n + (less + 1) ∧ factor * fuel ≤ less := by
  rw [Nat.mul_succ] at enough
  exact ⟨fuel' - n - 1, by omega, by omega⟩

section Step

variable {factor limit limit' fuel : Nat} {program program' : Program} {request : Request}
  {f f' : Function} {instrs' moves : List Instruction} {t t' : Terminator}
  {frame frame' middle : Frame} {fuel' : Nat}
  (follows : Follows factor limit limit' program program' fuel)
  (paired : List.Forall₂ (Corresponds factor) program.functions program'.functions)
  (wide : 3 ≤ factor) (limits : factor * limit ≤ limit') (spilling : Spilling request f f')
  (small : f.params.length + 2 ≤ factor) (carries : Carries request moves frame' middle)
  (tracks : Tracks request f f' frame middle) (few : moves.length + 2 ≤ factor)
  (enough : factor * (fuel + 1) ≤ fuel')

include follows paired wide limits spilling small carries tracks few enough

theorem Follows.instruction {i : Instruction} {rest : List Instruction}
    (position : Position request f f' (i :: rest) t instrs' t') :
    Refines (Budget factor limit) Eq (proceed program limit (fuel + 1) f frame (i :: rest) t)
      (proceed program' limit' fuel' f' frame' (moves ++ instrs') t') := by
  intro s s₂ value s' alike ran
  obtain ⟨temporary, rename, rest', spare, rfl, renames, later⟩ := position.cons
  obtain ⟨less, next, after, same, early, executed, ran⟩ := proceed_cons_eq_ok.mp ran
  cases same
  -- The load finds a value because the instruction did.
  have named : ∀ expr ∈ i.exprs, expr.named = true := fun expr part =>
    (position.inside i (List.mem_cons_self ..) expr part).named
  obtain ⟨loaded, loading⟩ :=
    tracks.holds.carries_loads (t := temporary) (held_of_execute named executed _)
  obtain ⟨tracks', ready⟩ := tracks.load spare loading
  have all := carries.append loading
  have count : (moves ++ loadsFor request temporary i.uses).length + 1 ≤ factor := by
    have one := length_loadsFor_le request temporary i.uses
    rw [List.length_append]
    omega
  rw [← List.append_assoc]
  generalize moves ++ loadsFor request temporary i.uses = before at all count ⊢
  obtain ⟨less', rfl, plenty⟩ := exists_rest enough count
  have reads : ∀ leaf ∈ i.reads, Carried id rename frame loaded leaf := fun leaf read =>
    (position.carried_instruction tracks'.holds ready renames read).1
  have stepped := execute_refines (follows.calls paired plenty) spilling.shape.name i reads
  rw [Instruction.mapVars_id] at stepped
  obtain ⟨next', after', executed', ⟨written, rfl, rfl⟩, alike'⟩ :=
    stepped _ _ _ _ (alike.pay early count) executed
  obtain ⟨stored, storing, again⟩ := tracks'.after spilling spare position
    (fun v defined => renames v (Or.inr defined)) written
  have stores : (storesFor request temporary i.defs).length + 2 ≤ factor := by
    have one := length_storesFor_le request temporary i.defs
    omega
  obtain ⟨_, s₂', ran', rfl, alike''⟩ :=
    follows spilling small later storing again stores less' plenty _ _ _ _ alike' ran
  have room := alike.room limits early count
  refine ⟨value, s₂', all.proceed (by omega) ?_, rfl, alike''⟩
  exact proceed_cons_eq_ok.mpr ⟨less', _, _, rfl, room, executed', ran'⟩

omit wide in
theorem Follows.terminator (position : Position request f f' [] t instrs' t') :
    Refines (Budget factor limit) Eq (proceed program limit (fuel + 1) f frame [] t)
      (proceed program' limit' fuel' f' frame' (moves ++ instrs') t') := by
  intro s s₂ value s' alike ran
  obtain ⟨temporary, rename, spare, rfl, rfl, renames⟩ := position.nil
  obtain ⟨less, exit, after, same, early, finished, ran⟩ := proceed_nil_eq_ok.mp ran
  cases same
  have named : ∀ expr ∈ t.exprs, expr.named = true := fun expr part =>
    (position.ending expr part).named
  obtain ⟨loaded, loading⟩ :=
    tracks.holds.carries_loads (t := temporary) (held_of_finish named finished _)
  obtain ⟨tracks', ready⟩ := tracks.load spare loading
  have all := carries.append loading
  have count : (moves ++ loadsFor request temporary t.uses).length + 1 ≤ factor := by
    have one := length_loadsFor_le request temporary t.uses
    rw [List.length_append]
    omega
  generalize moves ++ loadsFor request temporary t.uses = before at all count ⊢
  obtain ⟨less', rfl, plenty⟩ := exists_rest enough count
  have reads : ∀ leaf ∈ t.reads, Carried id rename frame loaded leaf := fun leaf read =>
    (position.carried_terminator tracks'.holds ready renames read).1
  have stepped := finish_refines (follows.calls paired plenty) spilling.shape.name
    spilling.shape.labels t reads
  rw [Terminator.mapVars_id] at stepped
  obtain ⟨exit', after', finished', rfl, alike'⟩ :=
    stepped _ _ _ _ (alike.pay early count) finished
  have room := alike.room limits early count
  have left : ∃ s₂',
      exit.follow (fun next => resume program' limit' less' f' loaded next 0) after' =
        .ok value s₂' ∧ Alike (Budget factor limit) s' s₂' := by
    cases exit with
    | leave returned =>
        cases ran
        exact ⟨after', rfl, alike'⟩
    | enter next =>
        obtain ⟨block, found, target⟩ := finish_target finished
        obtain ⟨_, s₂', ran', rfl, alike''⟩ := follows.jump spilling small tracks' found
          (fun once => position.ne_zero once found target) plenty _ _ _ _ alike' ran
        exact ⟨s₂', ran', alike''⟩
  obtain ⟨s₂', ran', alike''⟩ := left
  refine ⟨value, s₂', ?_, rfl, alike''⟩
  have ended : proceed program' limit' (before.length + (less' + 1)) f' frame' (before ++ [])
      (t.mapVars rename) s₂ = .ok value s₂' :=
    all.proceed (by omega) (proceed_nil_eq_ok.mpr ⟨less', _, _, rfl, room, finished', ran'⟩)
  rw [List.append_nil] at ended
  exact ended

end Step

theorem follows_of_paired {factor limit limit' : Nat} {program program' : Program}
    (paired : List.Forall₂ (Corresponds factor) program.functions program'.functions)
    (wide : 3 ≤ factor) (limits : factor * limit ≤ limit') (fuel : Nat) :
    Follows factor limit limit' program program' fuel := by
  -- On the fuel and for all functions at once, as the calls of a point run on what is left of it.
  induction fuel with
  | zero =>
      intro request f f' spilling _ instrs instrs' moves t t' frame frame' middle _ _ _ _ fuel' _
      exact .of_throw
  | succ fuel ih =>
      intro request f f' spilling small instrs instrs' moves t t' frame frame' middle position
        carries tracks few fuel' enough
      cases instrs with
      | cons i rest =>
          exact Follows.instruction ih paired wide limits spilling small carries tracks few enough
            position
      | nil =>
          exact Follows.terminator ih paired limits spilling small carries tracks few enough
            position

def Retraces (limit : Nat) (program program' : Program) (fuel : Nat) : Prop :=
  ∀ {request : Request} {f f' : Function}, Spilling request f f' →
    ∀ {instrs instrs' moves : List Instruction} {t t' : Terminator} {frame frame' middle : Frame},
      Position request f f' instrs t instrs' t' → Carries request moves frame' middle →
      Tracks request f f' frame middle → ∀ fuel', fuel ≤ fuel' →
        Refines (fun cycles cycles' => cycles' ≤ cycles) Eq
          (proceed program' limit fuel f' frame' (moves ++ instrs') t')
          (proceed program limit fuel' f frame instrs t)

section Backward

variable {limit fuel : Nat} {program program' : Program} {request : Request} {f f' : Function}
  (retraces : Retraces limit program program' fuel) (spilling : Spilling request f f')

include retraces spilling

theorem Retraces.enter {frame frame' : Frame} (arrives : Arrives request f f' frame frame')
    {fuel' : Nat} (enough : fuel ≤ fuel') :
    Refines (fun cycles cycles' => cycles' ≤ cycles) Eq
      (resume program' limit fuel f' frame' 0 0) (resume program limit fuel' f frame 0 0) := by
  cases found : f.blocks[0]? with
  | none =>
      have absent : f'.blocks[0]? = none := by
        have count := congrArg List.length spilling.shape.labels
        rw [List.length_map, List.length_map] at count
        rw [List.getElem?_eq_none_iff] at found ⊢
        omega
      obtain ⟨fault, thrown⟩ := resume_stops absent
      rw [thrown]
      exact .of_throw
  | some block =>
      obtain ⟨block', instrs', found', same, position⟩ := spilling.entered found
      obtain ⟨entered, carries, tracks⟩ := arrives
      rw [resume_eq_proceed found (Nat.zero_le _), resume_eq_proceed found' (Nat.zero_le _),
        List.drop_zero, List.drop_zero, same]
      exact retraces spilling position carries tracks fuel' enough

theorem Retraces.jump {frame frame' : Frame} (tracks : Tracks request f f' frame frame')
    {b : Nat} {block : Block} (found : f.blocks[b]? = some block) (once : f.EntersOnce → b ≠ 0)
    {fuel' : Nat} (enough : fuel ≤ fuel') :
    Refines (fun cycles cycles' => cycles' ≤ cycles) Eq
      (resume program' limit fuel f' frame' b 0) (resume program limit fuel' f frame b 0) := by
  cases b with
  | zero => exact retraces.enter spilling (tracks.arrives fun entered => once entered rfl) enough
  | succ b =>
      obtain ⟨block', found', position⟩ := spilling.jumped found
      rw [resume_eq_proceed found (Nat.zero_le _), resume_eq_proceed found' (Nat.zero_le _)]
      exact retraces spilling position .nil tracks fuel' enough

end Backward

theorem Retraces.calls {factor limit fuel : Nat} {program program' : Program}
    (retraces : Retraces limit program program' fuel)
    (paired : List.Forall₂ (Corresponds factor) program.functions program'.functions)
    {fuel' : Nat} (enough : fuel ≤ fuel') :
    CallsRefine (fun cycles cycles' => cycles' ≤ cycles) (callerWith program' limit fuel)
      (callerWith program limit fuel') := by
  apply dispatch_refines (R := flip (Corresponds factor)) (List.Forall₂.flip paired)
  · exact fun f' f pair => (Corresponds.name pair).symm
  · exact fun f' f pair => (Corresponds.arity pair).symm
  · intro f' f args pair arity
    have same := Corresponds.arity pair
    obtain ⟨⟨request, spilling⟩, -⟩ := pair
    exact retraces.enter spilling (spilling.arrives_enter (arity.trans same)) enough

theorem exists_loaded {request : Request} {temporary : Var} {uses : List Var} {program : Program}
    {limit fuel : Nat} {f : Function} {frame : Frame} {rest : List Instruction} {t : Terminator}
    {s s' : State} {value : Option Value}
    (ran : proceed program limit fuel f frame (loadsFor request temporary uses ++ rest) t s =
      .ok value s') :
    ∃ loaded, Carries request (loadsFor request temporary uses) frame loaded := by
  unfold loadsFor at ran ⊢
  split at ran
  · rw [if_pos ‹_›]
    obtain ⟨_, next, _, -, -, executed, -⟩ := proceed_cons_eq_ok.mp ran
    exact ⟨next, .cons (carry_of_load executed) .nil⟩
  · rw [if_neg ‹_›]
    exact ⟨frame, .nil⟩

theorem Alike.tick {n : Nat} {s t : State}
    (alike : Alike (fun cycles cycles' => cycles' ≤ cycles) s t) :
    Alike (fun cycles cycles' => cycles' ≤ cycles) { s with cycles := s.cycles + n + 1 }
      { t with cycles := t.cycles + 1 } := by
  refine ⟨alike.heap, alike.input, alike.output, ?_⟩
  have fewer := alike.cycles
  show t.cycles + 1 ≤ s.cycles + n + 1
  omega

section StepBack

variable {factor limit fuel : Nat} {program program' : Program} {request : Request}
  {f f' : Function} {instrs' moves : List Instruction} {t t' : Terminator}
  {frame frame' middle : Frame} {fuel' : Nat}
  (retraces : ∀ less < fuel, Retraces limit program program' less)
  (paired : List.Forall₂ (Corresponds factor) program.functions program'.functions)
  (spilling : Spilling request f f') (carries : Carries request moves frame' middle)
  (tracks : Tracks request f f' frame middle) (enough : fuel ≤ fuel')

include retraces paired spilling carries tracks enough

theorem Retraces.instruction {i : Instruction} {rest : List Instruction}
    (position : Position request f f' (i :: rest) t instrs' t') :
    Refines (fun cycles cycles' => cycles' ≤ cycles) Eq
      (proceed program' limit fuel f' frame' (moves ++ instrs') t')
      (proceed program limit fuel' f frame (i :: rest) t) := by
  intro s s₂ value s' alike ran
  obtain ⟨temporary, rename, rest', spare, rfl, renames, later⟩ := position.cons
  obtain ⟨_, -, unloaded⟩ := carries.of_proceed ran
  obtain ⟨loaded, loading⟩ := exists_loaded unloaded
  obtain ⟨tracks', ready⟩ := tracks.load spare loading
  have all := carries.append loading
  rw [← List.append_assoc] at ran
  generalize moves ++ loadsFor request temporary i.uses = before at all ran
  obtain ⟨fewer, rfl, point⟩ := all.of_proceed ran
  obtain ⟨less, next, after, rfl, early, executed, remaining⟩ := proceed_cons_eq_ok.mp point
  obtain ⟨less', rfl⟩ : ∃ less', fuel' = less' + 1 := ⟨fuel' - 1, by omega⟩
  have back : Retraces limit program program' less := retraces less (by omega)
  have plenty : less ≤ less' := by omega
  have reads : ∀ leaf ∈ i.reads, Carried rename id loaded frame leaf := fun leaf read =>
    (position.carried_instruction tracks'.holds ready renames read).2
  have stepped := execute_refines (back.calls paired plenty) spilling.shape.name.symm i reads
  rw [Instruction.mapVars_id] at stepped
  obtain ⟨next', after', executed', ⟨written, rfl, rfl⟩, alike'⟩ :=
    stepped _ _ _ _ alike.tick executed
  obtain ⟨stored, storing, again⟩ := tracks'.after spilling spare position
    (fun v defined => renames v (Or.inr defined)) written
  obtain ⟨_, s₂', ran', rfl, alike''⟩ :=
    back spilling later storing again less' plenty _ _ _ _ alike' remaining
  refine ⟨value, s₂', proceed_cons_eq_ok.mpr ⟨less', _, _, rfl, ?_, executed', ran'⟩, rfl, alike''⟩
  have cycles := alike.cycles
  dsimp only at early
  omega

theorem Retraces.terminator (position : Position request f f' [] t instrs' t') :
    Refines (fun cycles cycles' => cycles' ≤ cycles) Eq
      (proceed program' limit fuel f' frame' (moves ++ instrs') t')
      (proceed program limit fuel' f frame [] t) := by
  intro s s₂ value s' alike ran
  obtain ⟨temporary, rename, spare, rfl, rfl, renames⟩ := position.nil
  rw [← List.append_nil (loadsFor request temporary t.uses)] at ran
  obtain ⟨_, -, unloaded⟩ := carries.of_proceed ran
  obtain ⟨loaded, loading⟩ := exists_loaded unloaded
  obtain ⟨tracks', ready⟩ := tracks.load spare loading
  have all := carries.append loading
  rw [← List.append_assoc] at ran
  generalize moves ++ loadsFor request temporary t.uses = before at all ran
  obtain ⟨fewer, rfl, point⟩ := all.of_proceed ran
  obtain ⟨less, exit, after, rfl, early, finished, remaining⟩ := proceed_nil_eq_ok.mp point
  obtain ⟨less', rfl⟩ : ∃ less', fuel' = less' + 1 := ⟨fuel' - 1, by omega⟩
  have back : Retraces limit program program' less := retraces less (by omega)
  have plenty : less ≤ less' := by omega
  have reads : ∀ leaf ∈ t.reads, Carried rename id loaded frame leaf := fun leaf read =>
    (position.carried_terminator tracks'.holds ready renames read).2
  have stepped := finish_refines (back.calls paired plenty) spilling.shape.name.symm
    spilling.shape.labels.symm t reads
  rw [Terminator.mapVars_id] at stepped
  obtain ⟨exit', after', finished', rfl, alike'⟩ := stepped _ _ _ _ alike.tick finished
  have on_time : s₂.cycles < limit := by
    have cycles := alike.cycles
    dsimp only at early
    omega
  cases exit with
  | leave returned =>
      cases remaining
      exact ⟨_, after', proceed_nil_eq_ok.mpr ⟨less', _, _, rfl, on_time, finished', rfl⟩, rfl,
        alike'⟩
  | enter next =>
      obtain ⟨block, found, target⟩ := finish_target finished'
      obtain ⟨_, s₂', ran', rfl, alike''⟩ := back.jump spilling tracks' found
        (fun once => position.ne_zero once found target) plenty _ _ _ _ alike' remaining
      exact ⟨value, s₂', proceed_nil_eq_ok.mpr ⟨less', _, _, rfl, on_time, finished', ran'⟩, rfl,
        alike''⟩

end StepBack

theorem retraces_of_paired {factor limit : Nat} {program program' : Program}
    (paired : List.Forall₂ (Corresponds factor) program.functions program'.functions)
    (fuel : Nat) : Retraces limit program program' fuel := by
  induction fuel using Nat.strong_induction_on with
  | _ fuel ih =>
      intro request f f' spilling instrs instrs' moves t t' frame frame' middle position carries
        tracks fuel' enough
      cases instrs with
      | cons i rest =>
          exact Retraces.instruction ih paired spilling carries tracks enough position
      | nil => exact Retraces.terminator ih paired spilling carries tracks enough position

end Regalloc.Machine
