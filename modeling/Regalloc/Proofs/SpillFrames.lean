import Mathlib
import Regalloc.Proofs.BlockRuns
import Regalloc.Proofs.SpillShape

/-!
# Frames with a variable in a slot

What a spilled variable holds stands in its slot between the points of a block. A load takes it to
a temporary, the point works on the temporary, and a store takes it back.
-/

namespace Regalloc.Machine

open Spill

/-- A frame, and the frame in which a variable lives in a slot. -/
structure Holds (request : Request) (size : Nat) (frame frame' : Frame) : Prop where
  vars : ∀ v, v.index < size → v ≠ request.v → frame'.vars.get? v = frame.vars.get? v
  moved : frame'.slots.get? request.slot = frame.vars.get? request.v
  slots : ∀ slot, slot ≠ request.slot → frame'.slots.get? slot = frame.slots.get? slot

inductive Carry (request : Request) : Instruction → Frame → Frame → Prop
  | load {t : Var} {x : Value} {frame : Frame} : frame.slots.get? request.slot = some x →
      Carry request (load request t) frame { frame with vars := frame.vars.insert t x }
  | store {t : Var} {x : Value} {frame : Frame} : frame.vars.get? t = some x →
      Carry request (store request t) frame
        { frame with slots := frame.slots.insert request.slot x }

inductive Carries (request : Request) : List Instruction → Frame → Frame → Prop
  | nil {frame : Frame} : Carries request [] frame frame
  | cons {move : Instruction} {rest : List Instruction} {frame next final : Frame} :
      Carry request move frame next → Carries request rest next final →
      Carries request (move :: rest) frame final

section Moves

variable {request : Request} {caller : Caller} {f : Function}

theorem Carry.execute {move : Instruction} {frame next : Frame} {s : State}
    (carry : Carry request move frame next) : execute caller f frame move s = .ok next s := by
  cases carry with
  | load held =>
      simp only [Spill.load, Machine.execute, eval, held]
      rfl
  | store held =>
      simp only [Spill.store, Machine.execute, eval, held]
      rfl

theorem carry_of_load {t : Var} {frame next : Frame} {s s' : State}
    (ran : execute caller f frame (load request t) s = .ok next s') :
    Carry request (load request t) frame next := by
  simp only [load, execute, eval] at ran
  cases held : frame.slots.get? request.slot with
  | none =>
      simp only [held] at ran
      cases ran
  | some x =>
      simp only [held] at ran
      cases ran
      exact .load held

theorem Carries.append {first second : List Instruction} {frame middle final : Frame}
    (carries : Carries request first frame middle) (more : Carries request second middle final) :
    Carries request (first ++ second) frame final := by
  induction carries with
  | nil => exact more
  | cons carry _ ih => exact .cons carry (ih more)

variable {program : Program} {limit fuel : Nat} {moves rest : List Instruction}
  {terminator : Terminator} {frame final : Frame} {s s' : State} {value : Option Value}

theorem Carries.proceed (carries : Carries request moves frame final)
    (room : s.cycles + moves.length ≤ limit)
    (ran : proceed program limit fuel f final rest terminator
      { s with cycles := s.cycles + moves.length } = .ok value s') :
    proceed program limit (moves.length + fuel) f frame (moves ++ rest) terminator s =
      .ok value s' := by
  induction carries generalizing s with
  | nil =>
      rw [List.length_nil, Nat.zero_add]
      exact ran
  | @cons move others frame next final carry _ ih =>
      rw [List.length_cons] at room ran ⊢
      rw [← Nat.add_assoc, Nat.add_right_comm] at ran
      have later := ih (s := { s with cycles := s.cycles + 1 }) (by dsimp only; omega) ran
      exact proceed_cons_eq_ok.mpr
        ⟨others.length + fuel, next, _, by omega, by omega, carry.execute, later⟩

theorem Carries.of_proceed (carries : Carries request moves frame final)
    (ran : Machine.proceed program limit fuel f frame (moves ++ rest) terminator s = .ok value s') :
    ∃ less, fuel = moves.length + less ∧
      Machine.proceed program limit less f final rest terminator
        { s with cycles := s.cycles + moves.length } = .ok value s' := by
  induction carries generalizing s fuel with
  | nil => exact ⟨fuel, (Nat.zero_add fuel).symm, ran⟩
  | cons carry _ ih =>
      obtain ⟨less, next, middle, rfl, -, executed, later⟩ := proceed_cons_eq_ok.mp ran
      rw [carry.execute] at executed
      cases executed
      obtain ⟨fewer, rfl, last⟩ := ih later
      refine ⟨fewer, by rw [List.length_cons]; omega, ?_⟩
      rw [List.length_cons, ← Nat.add_assoc, Nat.add_right_comm]
      exact last

end Moves

def loadsFor (request : Request) (t : Var) (uses : List Var) : List Instruction :=
  if request.v ∈ uses then [load request t] else []

def storesFor (request : Request) (t : Var) (defs : List Var) : List Instruction :=
  if request.v ∈ defs then [store request t] else []

section Points

variable {request : Request} {size : Nat} {t : Var} {frame frame' loaded : Frame}

structure Spare (request : Request) (size : Nat) (t : Var) : Prop where
  above : size ≤ t.index
  apart : t ≠ request.v

theorem Holds.bind (holds : Holds request size frame frame') (spare : Spare request size t)
    (x : Value) : Holds request size frame { frame' with vars := frame'.vars.insert t x } where
  vars v below apart := by
    have other : v ≠ t := by
      rintro rfl
      exact absurd below (Nat.not_lt.mpr spare.above)
    rw [Bindings.get?_insert, if_neg other]
    exact holds.vars v below apart
  moved := holds.moved
  slots := holds.slots

/-- After the loads, the frames still agree, and the temporary has the value of the variable. -/
theorem Holds.load (holds : Holds request size frame frame') (spare : Spare request size t)
    {uses : List Var} (carries : Carries request (loadsFor request t uses) frame' loaded) :
    Holds request size frame loaded ∧
      (request.v ∈ uses → loaded.vars.get? t = frame.vars.get? request.v) := by
  by_cases used : request.v ∈ uses
  · rw [loadsFor, if_pos used] at carries
    cases carries with
    | cons carry rest =>
        cases rest
        cases carry with
        | load held =>
            refine ⟨holds.bind spare _, fun _ => ?_⟩
            rw [Bindings.get?_insert, if_pos rfl, ← holds.moved, held]
  · rw [loadsFor, if_neg used] at carries
    cases carries
    exact ⟨holds, fun used' => absurd used' used⟩

theorem Holds.carries_loads (holds : Holds request size frame frame') {uses : List Var}
    (held : request.v ∈ uses → (frame.vars.get? request.v).isSome) :
    ∃ loaded, Carries request (loadsFor request t uses) frame' loaded := by
  by_cases used : request.v ∈ uses
  · obtain ⟨x, found⟩ := Option.isSome_iff_exists.mp (held used)
    rw [loadsFor, if_pos used]
    exact ⟨_, .cons (.load (holds.moved.trans found)) .nil⟩
  · rw [loadsFor, if_neg used]
    exact ⟨frame', .nil⟩

theorem Holds.read (holds : Holds request size frame loaded) {uses : List Var}
    (temporary : request.v ∈ uses → loaded.vars.get? t = frame.vars.get? request.v) {v : Var}
    (used : v ∈ uses) (below : v.index < size) :
    loaded.vars.get? (replace request t v) = frame.vars.get? v := by
  unfold replace
  split
  · rename_i same
    subst same
    exact temporary used
  · exact holds.vars v below ‹_›

theorem Holds.carried (holds : Holds request size frame loaded) {uses : List Var}
    (temporary : request.v ∈ uses → loaded.vars.get? t = frame.vars.get? request.v)
    {rename : Var → Var} {leaf : Leaf}
    (known : ∀ v, leaf = .var v → v ∈ uses ∧ v.index < size ∧ rename v = replace request t v)
    (unused : leaf ≠ .slot request.slot) :
    Carried id rename frame loaded leaf ∧ Carried rename id loaded frame leaf := by
  cases leaf with
  | var v =>
      obtain ⟨used, below, renamed⟩ := known v rfl
      have same : loaded.vars.get? (rename v) = frame.vars.get? v := by
        rw [renamed]
        exact holds.read temporary used below
      exact ⟨fun x held => same.trans held, fun x held => same.symm.trans held⟩
  | slot slot =>
      have apart : slot ≠ request.slot := fun same => unused (by rw [same])
      have same := holds.slots slot apart
      exact ⟨fun x held => same.trans held, fun x held => same.symm.trans held⟩
  | _ => exact ⟨trivial, trivial⟩

theorem mem_map_replace (spare : Spare request size t) {v : Var} (below : v.index < size)
    (apart : v ≠ request.v) {list : List Var} :
    v ∈ list.map (replace request t) ↔ v ∈ list := by
  rw [List.mem_map]
  constructor
  · intro member
    obtain ⟨w, listed, same⟩ := member
    unfold replace at same
    split at same
    · rw [← same] at below
      exact absurd below (Nat.not_lt.mpr spare.above)
    · exact same ▸ listed
  · intro member
    exact ⟨v, member, by rw [replace, if_neg apart]⟩

theorem after_congr {rename rename' : Var → Var} (frame : Frame) {i : Instruction}
    (same : ∀ v ∈ i.defs, rename v = rename' v) (value : Value) :
    frame.after rename i value = frame.after rename' i value := by
  cases i with
  | declare ty v => simp only [Frame.after, Frame.put, same v (List.mem_singleton_self v)]
  | call builtin callee args => rfl
  | assign target source =>
      cases target with
      | var v => simp only [Frame.after, Frame.put, same v (List.mem_singleton_self v)]
      | _ => rfl

/-- After an instruction and its stores, the frames agree again. -/
theorem Holds.after (holds : Holds request size frame loaded) (spare : Spare request size t)
    {i : Instruction} {rename : Var → Var}
    (renames : ∀ v ∈ i.defs, rename v = replace request t v)
    (unused : request.slot ∉ i.slotDefs) (value : Value) :
    ∃ stored, Carries request (storesFor request t i.defs) (loaded.after rename i value) stored ∧
      Holds request size (frame.after id i value) stored := by
  rw [after_congr loaded renames]
  have vars : ∀ v, v.index < size → v ≠ request.v →
      (loaded.after (replace request t) i value).vars.get? v =
        (frame.after id i value).vars.get? v := by
    intro v below apart
    rw [get?_vars_after, get?_vars_after, List.map_id, holds.vars v below apart]
    simp only [mem_map_replace spare below apart]
  have slots : ∀ slot, slot ≠ request.slot →
      (loaded.after (replace request t) i value).slots.get? slot =
        (frame.after id i value).slots.get? slot := by
    intro slot apart
    rw [get?_slots_after, get?_slots_after, holds.slots slot apart]
  by_cases defined : request.v ∈ i.defs
  · have written : (loaded.after (replace request t) i value).vars.get? t = some value := by
      have renamed : t ∈ i.defs.map (replace request t) :=
        List.mem_map.mpr ⟨request.v, defined, by rw [replace, if_pos rfl]⟩
      rw [get?_vars_after, if_pos renamed]
    rw [storesFor, if_pos defined]
    refine ⟨_, .cons (.store written) .nil, vars, ?_, ?_⟩
    · rw [Bindings.get?_insert, if_pos rfl, get?_vars_after, List.map_id, if_pos defined]
    · intro slot apart
      rw [Bindings.get?_insert, if_neg apart]
      exact slots slot apart
  · rw [storesFor, if_neg defined]
    refine ⟨_, .nil, vars, ?_, slots⟩
    rw [get?_slots_after, if_neg unused, get?_vars_after, List.map_id, if_neg defined]
    exact holds.moved

end Points

section Entry

variable {request : Request} {size bound : Nat}

def bindAll (bindings : Bindings Var Value) (pairs : List (Var × Value)) : Bindings Var Value :=
  pairs.foldl (fun bindings (key, value) => bindings.insert key value) bindings

theorem get?_bindAll_of_notMem (bindings : Bindings Var Value) {pairs : List (Var × Value)}
    {v : Var} (absent : ∀ pair ∈ pairs, pair.1 ≠ v) :
    (bindAll bindings pairs).get? v = bindings.get? v := by
  induction pairs generalizing bindings with
  | nil => rfl
  | cons pair pairs ih =>
      have apart : ¬v = pair.1 := fun same => absent pair (List.mem_cons_self ..) same.symm
      have later := ih (bindings.insert pair.1 pair.2)
        fun other member => absent other (List.mem_cons_of_mem _ member)
      rw [Bindings.get?_insert, if_neg apart] at later
      exact later

theorem isSome_get?_bindAll (bindings : Bindings Var Value) (pairs : List (Var × Value)) {v : Var}
    (bound : (bindings.get? v).isSome) : ((bindAll bindings pairs).get? v).isSome := by
  induction pairs generalizing bindings with
  | nil => exact bound
  | cons pair pairs ih =>
      apply ih (bindings.insert pair.1 pair.2)
      rw [Bindings.get?_insert]
      split
      · rfl
      · exact bound

theorem params_eq_of_nil {list list' : List Param}
    (shape : MovedParams request size bound list list' []) : list' = list := by
  generalize none_moved : ([] : List Var) = temporaries at shape
  induction shape with
  | nil => rfl
  | keep apart _ ih => rw [ih none_moved]
  | move same fresh _ ih => cases none_moved

theorem get?_bindAll_moved {list list' : List Param} {temporaries : List Var}
    (shape : MovedParams request size bound list list' temporaries) (args : List Value)
    (left right : Bindings Var Value) {v : Var} (below : v.index < size) (apart : v ≠ request.v)
    (same : right.get? v = left.get? v) :
    (bindAll right ((list'.map Param.v).zip args)).get? v =
      (bindAll left ((list.map Param.v).zip args)).get? v := by
  induction shape generalizing args left right with
  | nil => exact same
  | @keep first rest rest' temporaries kept _ ih =>
      cases args with
      | nil => exact same
      | cons arg args =>
          apply ih args (left.insert first.v arg) (right.insert first.v arg)
          rw [Bindings.get?_insert, Bindings.get?_insert, same]
  | @move t first rest rest' temporaries moving fresh _ ih =>
      cases args with
      | nil => exact same
      | cons arg args =>
          apply ih args (left.insert first.v arg) (right.insert t arg)
          have other : ¬v = t := by
            rintro rfl
            exact absurd below (Nat.not_lt.mpr fresh.above)
          have another : ¬v = first.v := fun equal => apart (equal.trans moving)
          rw [Bindings.get?_insert, Bindings.get?_insert, if_neg other, if_neg another, same]

/-- The stores on entry bring to the slot what the variable is bound to. When there are several,
the last of them counts, as does the last binding. -/
theorem carries_stores {list list' : List Param} {temporaries : List Var}
    (shape : MovedParams request size bound list list' temporaries) (args : List Value)
    (arity : args.length = list.length) (inside : ∀ param ∈ list, param.v.index < size)
    (left right : Bindings Var Value) (slots : Bindings Slot Value)
    (start : temporaries = [] → slots.get? request.slot = left.get? request.v) :
    ∃ slots', Carries request (temporaries.map (store request))
        ⟨bindAll right ((list'.map Param.v).zip args), slots⟩
        ⟨bindAll right ((list'.map Param.v).zip args), slots'⟩ ∧
      (∀ slot, slot ≠ request.slot → slots'.get? slot = slots.get? slot) ∧
      slots'.get? request.slot =
        (bindAll left ((list.map Param.v).zip args)).get? request.v := by
  induction shape generalizing args left right slots with
  | nil => exact ⟨slots, .nil, fun slot _ => rfl, start rfl⟩
  | @keep first rest rest' temporaries kept _ ih =>
      cases args with
      | nil => cases arity
      | cons arg args =>
          apply ih args (Nat.succ.inj arity)
            (fun param member => inside param (List.mem_cons_of_mem _ member))
            (left.insert first.v arg) (right.insert first.v arg) slots
          intro none_moved
          have other : ¬request.v = first.v := fun same => kept same.symm
          rw [Bindings.get?_insert, if_neg other]
          exact start none_moved
  | @move t first rest rest' temporaries moving fresh shape ih =>
      cases args with
      | nil => cases arity
      | cons arg args =>
          have later := fun param member => inside param (List.mem_cons_of_mem first member)
          have arrived : ((right.insert t arg).get? t).isSome := by
            rw [Bindings.get?_insert, if_pos rfl]
            rfl
          obtain ⟨x, held⟩ := Option.isSome_iff_exists.mp
            (isSome_get?_bindAll (right.insert t arg) ((rest'.map Param.v).zip args) arrived)
          have first_start : temporaries = [] →
              (slots.insert request.slot x).get? request.slot =
                (left.insert first.v arg).get? request.v := by
            rintro rfl
            rw [params_eq_of_nil shape, get?_bindAll_of_notMem, Bindings.get?_insert,
              if_pos rfl] at held
            · rw [Bindings.get?_insert, if_pos rfl, Bindings.get?_insert, if_pos moving.symm, held]
            · intro pair member same
              obtain ⟨param, listed, named⟩ := List.mem_map.mp (List.of_mem_zip member).1
              have small := later param listed
              rw [named, same] at small
              exact absurd small (Nat.not_lt.mpr fresh.above)
          obtain ⟨slots', carries, others, last⟩ := ih args (Nat.succ.inj arity) later
            (left.insert first.v arg) (right.insert t arg) (slots.insert request.slot x) first_start
          refine ⟨slots', .cons (.store held) carries, ?_, last⟩
          intro slot apart
          rw [others slot apart, Bindings.get?_insert, if_neg apart]

theorem holds_enter {f f' : Function} {temporaries : List Var}
    (shape : MovedParams request size bound f.params f'.params temporaries)
    (inside : ∀ param ∈ f.params, param.v.index < size) {args : List Value}
    (arity : args.length = f.params.length) :
    ∃ entered, Carries request (temporaries.map (store request)) (Frame.enter f' args) entered ∧
      Holds request size (Frame.enter f args) entered := by
  obtain ⟨slots', carries, others, last⟩ :=
    carries_stores shape args arity inside {} {} {} (fun _ => rfl)
  refine ⟨_, carries, ?_, last, others⟩
  intro v below apart
  exact get?_bindAll_moved shape args {} {} below apart rfl

end Entry

section Reentry

variable {request : Request} {size bound : Nat} {temporaries : List Var} {frame frame' : Frame}

/-- The stores on entry can be carried out, and bring nothing to the slot but what it holds. -/
structure Restores (request : Request) (temporaries : List Var) (frame : Frame) : Prop where
  held : ∀ t ∈ temporaries, (frame.vars.get? t).isSome
  last : ∀ t ∈ temporaries.getLast?, frame.vars.get? t = frame.slots.get? request.slot

theorem restores_nil (request : Request) (frame : Frame) : Restores request [] frame :=
  ⟨fun _ member => absurd member List.not_mem_nil, fun _ member => absurd member (by simp)⟩

/-- Once the stores are done, they can be done again. -/
theorem restores_of_carries
    (carries : Carries request (temporaries.map (store request)) frame frame') :
    frame'.vars = frame.vars ∧ Restores request temporaries frame' := by
  induction temporaries generalizing frame with
  | nil =>
      cases carries
      exact ⟨rfl, restores_nil request _⟩
  | cons t rest ih =>
      cases carries with
      | cons carry carries =>
          cases carry with
          | store found =>
              obtain ⟨same, held, last⟩ := ih carries
              refine ⟨same, ?_, ?_⟩
              · rw [List.forall_mem_cons, same, found]
                exact ⟨rfl, fun u member => same ▸ held u member⟩
              · cases rest with
                | nil =>
                    cases carries
                    intro u only
                    rw [List.getLast?_singleton, Option.mem_some_iff] at only
                    subst only
                    simp only [Bindings.get?_insert, if_true]
                    exact found
                | cons next rest =>
                    rw [List.getLast?_cons_cons]
                    exact last

theorem carries_of_held {vars : Bindings Var Value} (slots : Bindings Slot Value)
    (held : ∀ t ∈ temporaries, (vars.get? t).isSome) :
    ∃ slots', Carries request (temporaries.map (store request)) ⟨vars, slots⟩ ⟨vars, slots'⟩ ∧
      (∀ slot, slot ≠ request.slot → slots'.get? slot = slots.get? slot) ∧
      (temporaries = [] → slots' = slots) := by
  induction temporaries generalizing slots with
  | nil => exact ⟨slots, .nil, fun _ _ => rfl, fun _ => rfl⟩
  | cons t rest ih =>
      rw [List.forall_mem_cons] at held
      obtain ⟨x, found⟩ := Option.isSome_iff_exists.mp held.1
      obtain ⟨slots', carries, others, -⟩ := ih (slots.insert request.slot x) held.2
      refine ⟨slots', .cons (.store found) carries, ?_, fun empty => absurd empty (by simp)⟩
      intro slot apart
      rw [others slot apart, Bindings.get?_insert, if_neg apart]

theorem Holds.reenter (holds : Holds request size frame frame')
    (restores : Restores request temporaries frame') :
    ∃ entered, Carries request (temporaries.map (store request)) frame' entered ∧
      Holds request size frame entered := by
  obtain ⟨slots', carries, others, untouched⟩ := carries_of_held frame'.slots restores.held
  obtain ⟨-, again⟩ := restores_of_carries carries
  have slot : slots'.get? request.slot = frame'.slots.get? request.slot := by
    cases last : temporaries.getLast? with
    | none => rw [untouched (List.getLast?_eq_none_iff.mp last)]
    | some t => rw [← restores.last t last, ← again.last t last]
  refine ⟨_, carries, holds.vars, slot.trans holds.moved, ?_⟩
  intro other apart
  exact (others other apart).trans (holds.slots other apart)

theorem Restores.load {t : Var} {uses : List Var} (restores : Restores request temporaries frame)
    (carries : Carries request (loadsFor request t uses) frame frame') :
    Restores request temporaries frame' := by
  unfold loadsFor at carries
  split at carries
  · cases carries with
    | cons carry rest =>
        cases rest
        cases carry with
        | load found =>
            refine ⟨?_, ?_⟩
            · intro u member
              rw [Bindings.get?_insert]
              split
              · rfl
              · exact restores.held u member
            · intro u last
              rw [Bindings.get?_insert]
              split
              · exact found.symm
              · exact restores.last u last
  · cases carries
    exact restores

theorem Restores.after {i : Instruction} {rename : Var → Var}
    (restores : Restores request temporaries frame) (above : ∀ t ∈ temporaries, size ≤ t.index)
    (below : ∀ v ∈ i.defs, (rename v).index < size) (unused : request.slot ∉ i.slotDefs)
    (value : Value) : Restores request temporaries (frame.after rename i value) := by
  have kept : ∀ t ∈ temporaries, (frame.after rename i value).vars.get? t = frame.vars.get? t := by
    intro t member
    have apart : t ∉ i.defs.map rename := by
      intro written
      obtain ⟨v, defined, rfl⟩ := List.mem_map.mp written
      exact absurd (below v defined) (Nat.not_lt.mpr (above _ member))
    rw [get?_vars_after, if_neg apart]
  refine ⟨?_, ?_⟩
  · intro t member
    rw [kept t member]
    exact restores.held t member
  · intro t last
    rw [kept t (List.mem_of_getLast? last), get?_slots_after, if_neg unused]
    exact restores.last t last

end Reentry

end Regalloc.Machine
