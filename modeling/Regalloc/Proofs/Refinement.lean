import Mathlib
import Regalloc.Proofs.EvaluationSteps

/-!
# Refinement of executions

One execution refines another if, from states that agree on everything but the cycles, whatever
the first brings to an end the second does too, with related results. Evaluation refines itself
under renamings of variables that carry the value of every leaf along.
-/

namespace Regalloc.Machine

structure Alike (related : Nat → Nat → Prop) (left right : State) : Prop where
  heap : right.heap = left.heap
  input : right.input = left.input
  output : right.output = left.output
  cycles : related left.cycles right.cycles

/-- Whatever the first brings to an end, so does the second. -/
def Refines {α β : Type} (related : Nat → Nat → Prop) (post : α → β → Prop) (x : Exec α)
    (y : Exec β) : Prop :=
  ∀ s t a s', Alike related s t → x s = .ok a s' →
    ∃ b t', y t = .ok b t' ∧ post a b ∧ Alike related s' t'

namespace Refines

variable {related : Nat → Nat → Prop} {α β γ δ : Type} {post : α → β → Prop}
  {final : γ → δ → Prop}

theorem of_pure {a : α} {b : β} (holds : post a b) :
    Refines related post (pure a) (pure b) := by
  intro s t c s' alike ran
  cases ran
  exact ⟨b, t, rfl, holds, alike⟩

theorem of_throw {fault : Fault} {y : Exec β} : Refines related post (throw fault) y := by
  intro s t c s' alike ran
  cases ran

theorem of_bind {x : Exec α} {y : Exec β} {f : α → Exec γ} {g : β → Exec δ}
    (first : Refines related post x y)
    (next : ∀ a b, post a b → Refines related final (f a) (g b)) :
    Refines related final (x >>= f) (y >>= g) := by
  intro s t c s' alike ran
  obtain ⟨a, middle, ran, later⟩ := exec_bind_eq_ok.mp ran
  obtain ⟨b, middle', ran', holds, alike⟩ := first s t a middle alike ran
  obtain ⟨d, t', later', holds, alike⟩ := next a b holds middle middle' c s' alike later
  exact ⟨d, t', exec_bind_eq_ok.mpr ⟨b, middle', ran', later'⟩, holds, alike⟩

theorem mono {weaker : α → β → Prop} {x : Exec α} {y : Exec β} (refines : Refines related post x y)
    (implies : ∀ a b, post a b → weaker a b) : Refines related weaker x y := by
  intro s t a s' alike ran
  obtain ⟨b, t', ran', holds, alike⟩ := refines s t a s' alike ran
  exact ⟨b, t', ran', implies a b holds, alike⟩

end Refines

section Steps

variable {related : Nat → Nat → Prop}

theorem asInt_eq_ok {value : Value} {s s' : State} {n : Int64} (ran : asInt value s = .ok n s') :
    value = .int n ∧ s' = s := by
  cases value with
  | int m =>
      cases ran
      exact ⟨rfl, rfl⟩
  | code name =>
      obtain ⟨_, _, -, ran⟩ := exec_bind_eq_ok.mp ran
      obtain ⟨_, _, -, ran⟩ := exec_bind_eq_ok.mp ran
      cases ran
  | aggregate address =>
      obtain ⟨_, _, -, ran⟩ := exec_bind_eq_ok.mp ran
      obtain ⟨_, _, -, ran⟩ := exec_bind_eq_ok.mp ran
      cases ran

theorem refines_asInt (value : Value) : Refines related Eq (asInt value) (asInt value) := by
  intro s t a s' alike ran
  obtain ⟨rfl, rfl⟩ := asInt_eq_ok ran
  exact ⟨a, t, rfl, rfl, alike⟩

theorem refines_aggregateAt (address : Nat) :
    Refines related Eq (aggregateAt address) (aggregateAt address) := by
  intro s t a s' alike ran
  cases ran
  refine ⟨_, t, rfl, ?_, alike⟩
  rw [alike.heap]

theorem Refines.of_liftFault {α : Type} (x : Except Fault α) :
    Refines related Eq (liftFault x) (liftFault x) := by
  cases x with
  | ok a => exact .of_pure rfl
  | error fault => exact .of_throw

theorem refines_locate (function : String) (address : Nat) (indices : List Int64) :
    Refines related Eq (locate function address indices) (locate function address indices) := by
  refine .of_bind (refines_aggregateAt address) ?_
  rintro aggregate _ rfl
  refine .of_bind (.of_liftFault _) ?_
  rintro index _ rfl
  split
  · exact .of_pure rfl
  · exact .of_throw

theorem refines_newAggregate (dims : List Int64) :
    Refines related Eq (newAggregate dims) (newAggregate dims) := by
  intro s t a s' alike ran
  unfold newAggregate at ran ⊢
  cases counted : extent? dims with
  | none =>
      simp only [counted] at ran
      cases ran
  | some count =>
      simp only [counted] at ran ⊢
      cases ran
      refine ⟨_, _, rfl, ?_, ?_, alike.input, alike.output, alike.cycles⟩
      · rw [alike.heap]
      · simp only [alike.heap]

theorem refines_runBuiltin (function : String) (callee : Expr) (args : List Value) :
    Refines related Eq (runBuiltin function callee args) (runBuiltin function callee args) := by
  intro s t a s' alike ran
  unfold runBuiltin at ran ⊢
  cases named : callee.label?.bind Builtin.ofName? with
  | none =>
      simp only [named] at ran
      cases ran
  | some builtin =>
      simp only [named] at ran ⊢
      cases builtin with
      | print =>
          obtain ⟨_, _, read, ran⟩ := exec_bind_eq_ok.mp ran
          cases read
          cases written : args.mapM (Value.text s.heap) with
          | error fault =>
              simp only [written] at ran
              cases ran
          | ok texts =>
              simp only [written] at ran
              cases ran
              have written' : args.mapM (Value.text t.heap) = .ok texts := alike.heap ▸ written
              refine ⟨none, { t with output := t.output.push (joinWith " " texts) }, ?_, rfl,
                alike.heap, alike.input, ?_, alike.cycles⟩
              · refine exec_bind_eq_ok.mpr ⟨t, t, rfl, ?_⟩
                simp only [written']
                rfl
              · show t.output.push _ = s.output.push _
                rw [alike.output]
      | input =>
          obtain ⟨_, _, read, ran⟩ := exec_bind_eq_ok.mp ran
          cases read
          cases listed : s.input with
          | nil =>
              simp only [listed] at ran
              cases ran
          | cons n rest =>
              simp only [listed] at ran
              cases ran
              have listed' : t.input = n :: rest := alike.input.trans listed
              refine ⟨some (.int n), { t with input := rest }, ?_, rfl, alike.heap, rfl,
                alike.output, alike.cycles⟩
              refine exec_bind_eq_ok.mpr ⟨t, t, rfl, ?_⟩
              simp only [listed']
              rfl
      | tensorError => cases ran

theorem refines_writeAt (address index : Nat) (value : Value) :
    Refines related Eq (writeAt address index value) (writeAt address index value) := by
  intro s t a s' alike ran
  cases ran
  refine ⟨(), _, rfl, rfl, ?_, alike.input, alike.output, alike.cycles⟩
  simp only [alike.heap]

/-- Refinement with equal results. It does not matter which fault stops the first execution. -/
def refining (related : Nat → Nat → Prop) : StepRelation where
  Rel x y := Refines related Eq x y
  Allows _ := True
  allows _ _ := trivial
  rel_pure _ := .of_pure rfl
  rel_throw _ := .of_throw
  rel_bind first next := .of_bind first fun a _ same => same ▸ next a
  rel_asInt := refines_asInt
  rel_aggregateAt := refines_aggregateAt
  rel_locate := refines_locate
  rel_newAggregate := refines_newAggregate
  rel_runBuiltin _ := refines_runBuiltin _ _
  rel_writeAt := refines_writeAt

end Steps

def Carried (rename rename' : Var → Var) (frame frame' : Frame) : Leaf → Prop
  | .var v => ∀ x, frame.vars.get? (rename v) = some x → frame'.vars.get? (rename' v) = some x
  | .slot slot => ∀ x, frame.slots.get? slot = some x → frame'.slots.get? slot = some x
  | _ => True

theorem carried_refl (frame : Frame) (leaf : Leaf) : Carried id id frame frame leaf := by
  cases leaf with
  | var v => exact fun x found => found
  | slot slot => exact fun x found => found
  | _ => trivial

def CallsRefine (related : Nat → Nat → Prop) (caller caller' : Caller) : Prop :=
  ∀ name args, Refines related Eq (caller name args) (caller' name args)

section Evaluation

variable {related : Nat → Nat → Prop} {caller caller' : Caller} {f f' : Function}
  {frame frame' : Frame} {rename rename' : Var → Var}

theorem readAlike_of_carried {leaf : Leaf} (carried : Carried rename rename' frame frame' leaf) :
    (refining related).ReadAlike f f' frame frame' rename rename' leaf := by
  cases leaf with
  | var v =>
      simp only [StepRelation.ReadAlike, readVar]
      cases found : frame.vars.get? (rename v) with
      | none => exact Refines.of_throw
      | some value =>
          simp only [carried value found]
          exact Refines.of_pure rfl
  | slot slot =>
      simp only [StepRelation.ReadAlike, readSlot]
      cases found : frame.slots.get? slot with
      | none => exact Refines.of_throw
      | some value =>
          simp only [carried value found]
          exact Refines.of_pure rfl
  | _ => trivial

/-- Evaluation only depends on the values of leaves. -/
theorem eval_refines (calls : CallsRefine related caller caller') (named : f'.name = f.name)
    (expr : Expr) (carried : ∀ leaf ∈ expr.leaves, Carried rename rename' frame frame' leaf) :
    Refines related Eq (eval caller f frame (expr.mapVars rename))
      (eval caller' f' frame' (expr.mapVars rename')) :=
  (refining related).rel_eval calls named expr
    (fun leaf here => readAlike_of_carried (carried leaf here)) fun _ _ => trivial

theorem effect_refines (calls : CallsRefine related caller caller') (named : f'.name = f.name)
    (instruction : Instruction)
    (carried : ∀ leaf ∈ instruction.reads, Carried rename rename' frame frame' leaf) :
    Refines related Eq (effect caller f frame (instruction.mapVars rename))
      (effect caller' f' frame' (instruction.mapVars rename')) :=
  (refining related).rel_effect calls named instruction
    (fun leaf here => readAlike_of_carried (carried leaf here)) fun _ _ => trivial

theorem put_mapVars (rename : Var → Var) (frame : Frame) (target : Expr) (value : Value) :
    frame.put id (target.mapVars rename) value = frame.put rename target value := by
  cases target <;> rfl

theorem assign_refines (calls : CallsRefine related caller caller') (named : f'.name = f.name)
    (target : Expr)
    (carried : ∀ leaf ∈ target.placeReads, Carried rename rename' frame frame' leaf)
    (value : Value) :
    Refines related
      (fun a b => a = frame.put rename target value ∧ b = frame'.put rename' target value)
      (assign caller f frame (target.mapVars rename) value)
      (assign caller' f' frame' (target.mapVars rename') value) := by
  rw [assign_eq_writeElement, assign_eq_writeElement]
  refine .of_bind ((refining related).rel_writeElement calls named target
    (fun leaf here => readAlike_of_carried (carried leaf here)) (fun _ _ => trivial) value) ?_
  intro _ _ _
  exact .of_pure ⟨put_mapVars rename frame target value, put_mapVars rename' frame' target value⟩

theorem lastWithLabel_congr {blocks blocks' : List Block}
    (labels : blocks'.map Block.label = blocks.map Block.label) (label : String) (position : Nat) :
    lastWithLabel label blocks' position = lastWithLabel label blocks position := by
  induction blocks generalizing blocks' position with
  | nil => simp_all
  | cons block blocks ih =>
      cases blocks' with
      | nil => simp at labels
      | cons block' blocks' =>
          simp only [List.map_cons, List.cons.injEq] at labels
          simp only [lastWithLabel, labels.1, ih labels.2]

theorem jumpTo_refines (labels : f'.blocks.map Block.label = f.blocks.map Block.label)
    (target : Expr) :
    Refines related Eq (jumpTo f (target.mapVars rename)) (jumpTo f' (target.mapVars rename')) := by
  simp only [jumpTo, label?_mapVars, lastWithLabel_congr labels]
  split
  · exact .of_pure rfl
  · exact .of_throw

theorem finish_refines (calls : CallsRefine related caller caller') (named : f'.name = f.name)
    (labels : f'.blocks.map Block.label = f.blocks.map Block.label) (terminator : Terminator)
    (carried : ∀ leaf ∈ terminator.reads, Carried rename rename' frame frame' leaf) :
    Refines related Eq (finish caller f frame (terminator.mapVars rename))
      (finish caller' f' frame' (terminator.mapVars rename')) :=
  (refining related).rel_finish calls named terminator
    (fun leaf here => readAlike_of_carried (carried leaf here)) (fun _ _ => trivial)
    fun target _ => jumpTo_refines labels target

end Evaluation

section Calls

variable {related : Nat → Nat → Prop}

theorem tick_eq_ok {limit : Nat} {s s' : State} {done : Unit} :
    tick limit s = .ok done s' ↔
      s.cycles < limit ∧ s' = { s with cycles := s.cycles + 1 } := by
  by_cases passed : limit < s.cycles + 1
  · have late : ¬s.cycles < limit := by omega
    simp [tick, bind, EStateM.bind, modify, modifyGet, MonadStateOf.modifyGet, EStateM.modifyGet,
      get, getThe, MonadStateOf.get, EStateM.get, passed, late, throw, throwThe,
      MonadExceptOf.throw, EStateM.throw]
  · have early : s.cycles < limit := by omega
    simp [tick, bind, EStateM.bind, modify, modifyGet, MonadStateOf.modifyGet, EStateM.modifyGet,
      get, getThe, MonadStateOf.get, EStateM.get, passed, early, pure, EStateM.pure, eq_comm]

theorem tick_refines {limit limit' : Nat} (le : limit ≤ limit') :
    Refines Eq Eq (tick limit) (tick limit') := by
  intro s t done s' alike ran
  obtain ⟨early, rfl⟩ := tick_eq_ok.mp ran
  have cycles := alike.cycles
  refine ⟨done, { t with cycles := t.cycles + 1 }, tick_eq_ok.mpr ⟨by omega, rfl⟩, rfl,
    alike.heap, alike.input, alike.output, ?_⟩
  rw [cycles]

theorem function?_of_forall₂ {R : Function → Function → Prop} {program program' : Program}
    (paired : List.Forall₂ R program.functions program'.functions)
    (names : ∀ f f', R f f' → f'.name = f.name) {name : String} {f : Function}
    (found : program.function? name = some f) :
    ∃ f', program'.function? name = some f' ∧ R f f' := by
  cases program with
  | mk functions =>
      cases program' with
      | mk functions' =>
          simp only [Program.function?] at found paired ⊢
          induction paired with
          | nil => simp at found
          | cons head tail ih =>
              rename_i first first' rest rest'
              rw [List.find?_cons] at found ⊢
              rw [names _ _ head]
              split at found
              · cases found
                exact ⟨first', rfl, head⟩
              · exact ih found

theorem dispatch_refines {R : Function → Function → Prop} {program program' : Program}
    {enter enter' : Function → Frame → Exec (Option Value)}
    (paired : List.Forall₂ R program.functions program'.functions)
    (names : ∀ f f', R f f' → f'.name = f.name)
    (arities : ∀ f f', R f f' → f'.params.length = f.params.length)
    (entering : ∀ f f' args, R f f' → args.length = f.params.length →
      Refines related Eq (enter f (Frame.enter f args)) (enter' f' (Frame.enter f' args))) :
    CallsRefine related (dispatch program enter) (dispatch program' enter') := by
  intro name args
  unfold dispatch
  cases found : program.function? name with
  | none => exact .of_throw
  | some f =>
      obtain ⟨f', found', pair⟩ := function?_of_forall₂ paired names found
      simp only [found', arities f f' pair]
      split
      · exact entering f f' args pair ‹_›
      · exact .of_throw

end Calls

end Regalloc.Machine
