import Mathlib
import Regalloc.Proofs.DisturbedRun
import Regalloc.Proofs.ReadablePrograms

/-!
# Running the rest of a block

A call can be continued from a list of instructions and a terminator instead of a point of a
block. More fuel and a higher limit of cycles do not change what an execution comes to, and an
execution that gets past a point had values for all that the point reads.
-/

namespace Regalloc.Machine

def proceed (program : Program) (limit : Nat) :
    (fuel : Nat) → Function → Frame → List Instruction → Terminator → Exec (Option Value)
  | 0, _, _, _, _ => throw (.cycleLimit limit)
  | fuel + 1, f, frame, instruction :: rest, terminator => do
    tick limit
    let frame ← execute (callerWith program limit fuel) f frame instruction
    proceed program limit fuel f frame rest terminator
  | fuel + 1, f, frame, [], terminator => do
    tick limit
    let exit ← finish (callerWith program limit fuel) f frame terminator
    exit.follow fun next => resume program limit fuel f frame next 0

theorem resume_eq_proceed {program : Program} {limit fuel : Nat} {f : Function} {frame : Frame}
    {b i : Nat} {block : Block} (found : f.blocks[b]? = some block)
    (within : i ≤ block.instrs.length) :
    resume program limit fuel f frame b i =
      proceed program limit fuel f frame (block.instrs.drop i) block.terminator := by
  induction fuel generalizing frame i with
  | zero => rfl
  | succ fuel ih =>
      cases here : block.instrs[i]? with
      | some instruction =>
          obtain ⟨inside, same⟩ := List.getElem?_eq_some_iff.mp here
          rw [resume_instruction found here, List.drop_eq_getElem_cons inside, same]
          simp only [ih inside, proceed]
      | none =>
          have last : block.instrs.drop i = [] :=
            List.drop_eq_nil_of_le (List.getElem?_eq_none_iff.mp here)
          rw [resume_terminator found here, last]
          rfl

section Steps

variable {program : Program} {limit fuel : Nat} {f : Function} {frame : Frame}
  {instruction : Instruction} {rest : List Instruction} {terminator : Terminator}
  {s s' : State} {value : Option Value}

theorem proceed_cons_eq_ok :
    proceed program limit fuel f frame (instruction :: rest) terminator s = .ok value s' ↔
      ∃ less next middle, fuel = less + 1 ∧ s.cycles < limit ∧
        execute (callerWith program limit less) f frame instruction
          { s with cycles := s.cycles + 1 } = .ok next middle ∧
        proceed program limit less f next rest terminator middle = .ok value s' := by
  constructor
  · intro ran
    cases fuel with
    | zero => cases ran
    | succ less =>
        rw [proceed] at ran
        obtain ⟨_, _, ticked, ran⟩ := exec_bind_eq_ok.mp ran
        obtain ⟨early, rfl⟩ := tick_eq_ok.mp ticked
        obtain ⟨next, middle, executed, ran⟩ := exec_bind_eq_ok.mp ran
        exact ⟨less, next, middle, rfl, early, executed, ran⟩
  · intro steps
    obtain ⟨less, next, middle, rfl, early, executed, ran⟩ := steps
    rw [proceed]
    refine exec_bind_eq_ok.mpr ⟨(), _, tick_eq_ok.mpr ⟨early, rfl⟩, ?_⟩
    exact exec_bind_eq_ok.mpr ⟨next, middle, executed, ran⟩

theorem proceed_nil_eq_ok :
    proceed program limit fuel f frame [] terminator s = .ok value s' ↔
      ∃ less exit middle, fuel = less + 1 ∧ s.cycles < limit ∧
        finish (callerWith program limit less) f frame terminator
          { s with cycles := s.cycles + 1 } = .ok exit middle ∧
        exit.follow (fun next => resume program limit less f frame next 0) middle =
          .ok value s' := by
  constructor
  · intro ran
    cases fuel with
    | zero => cases ran
    | succ less =>
        rw [proceed] at ran
        obtain ⟨_, _, ticked, ran⟩ := exec_bind_eq_ok.mp ran
        obtain ⟨early, rfl⟩ := tick_eq_ok.mp ticked
        obtain ⟨exit, middle, finished, ran⟩ := exec_bind_eq_ok.mp ran
        exact ⟨less, exit, middle, rfl, early, finished, ran⟩
  · intro steps
    obtain ⟨less, exit, middle, rfl, early, finished, ran⟩ := steps
    rw [proceed]
    refine exec_bind_eq_ok.mpr ⟨(), _, tick_eq_ok.mpr ⟨early, rfl⟩, ?_⟩
    exact exec_bind_eq_ok.mpr ⟨exit, middle, finished, ran⟩

end Steps

theorem dispatch_refines_self {related : Nat → Nat → Prop} {program : Program}
    {enter enter' : Function → Frame → Exec (Option Value)}
    (entering : ∀ f frame, Refines related Eq (enter f frame) (enter' f frame)) :
    CallsRefine related (dispatch program enter) (dispatch program enter') := by
  apply dispatch_refines (R := Eq) (List.forall₂_refl _)
  · exact fun f f' same => same ▸ rfl
  · exact fun f f' same => same ▸ rfl
  · intro f f' args same _
    rw [← same]
    exact entering f _

/-- An execution comes to the same with more fuel and a higher limit. -/
theorem resume_mono (program : Program) {limit limit' fuel fuel' : Nat} (limits : limit ≤ limit')
    (fuels : fuel ≤ fuel') (f : Function) (frame : Frame) (b i : Nat) :
    Refines Eq Eq (resume program limit fuel f frame b i)
      (resume program limit' fuel' f frame b i) := by
  induction fuel generalizing fuel' f frame b i with
  | zero => exact .of_throw
  | succ fuel ih =>
      obtain ⟨fuel', rfl⟩ : ∃ less, fuel' = less + 1 := ⟨fuel' - 1, by omega⟩
      have fewer : fuel ≤ fuel' := Nat.le_of_succ_le_succ fuels
      have calls : CallsRefine Eq (callerWith program limit fuel)
          (callerWith program limit' fuel') :=
        dispatch_refines_self fun f frame => ih fewer f frame 0 0
      cases found : f.blocks[b]? with
      | none =>
          simp only [resume, found]
          exact .of_throw
      | some block =>
          cases here : block.instrs[i]? with
          | some instruction =>
              rw [resume_instruction found here, resume_instruction found here]
              refine .of_bind (tick_refines limits) fun _ _ _ => ?_
              have executed := execute_refines (f := f) calls rfl instruction
                fun leaf _ => carried_refl frame leaf
              rw [Instruction.mapVars_id] at executed
              refine .of_bind executed fun next next' ended => ?_
              obtain ⟨value, rfl, rfl⟩ := ended
              exact ih fewer f _ b (i + 1)
          | none =>
              rw [resume_terminator found here, resume_terminator found here]
              refine .of_bind (tick_refines limits) fun _ _ _ => ?_
              have finished := finish_refines (f := f) calls rfl rfl block.terminator
                fun leaf _ => carried_refl frame leaf
              rw [Terminator.mapVars_id] at finished
              refine .of_bind finished fun exit exit' same => ?_
              subst same
              cases exit with
              | leave value => exact .of_pure rfl
              | enter next => exact ih fewer f frame next 0

theorem callerWith_mono (program : Program) {limit limit' fuel fuel' : Nat}
    (limits : limit ≤ limit') (fuels : fuel ≤ fuel') :
    CallsRefine Eq (callerWith program limit fuel) (callerWith program limit' fuel') :=
  dispatch_refines_self fun f frame => resume_mono program limits fuels f frame 0 0

/-- Of two limits under which a program returns, it does not matter which one is set. -/
theorem run_eq_of_ok {program : Program} {limit limit' : Nat} {heap : Heap} {input : List Int64}
    {entry : String} {args : List Value} {execution execution' : Execution}
    (returned : (run program limit heap input entry args).result = .ok execution)
    (returned' : (run program limit' heap input entry args).result = .ok execution') :
    run program limit heap input entry args = run program limit' heap input entry args := by
  simp only [run_eq_outcome] at returned returned' ⊢
  rcases Nat.le_total limit limit' with le | le
  · exact (outcome_of_refines (callerWith_mono program le (by omega) entry args) returned).symm
  · exact outcome_of_refines (callerWith_mono program le (by omega) entry args) returned'

section Held

variable {caller : Caller} {f : Function} {frame : Frame}

theorem runCall_target {builtin : Bool} {callee : Expr} {target : Exec Value} {args : List Value}
    {s s' : State} {result : Option Value} (indirect : builtin = false)
    (ran : runCall caller f.name builtin callee target args s = .ok result s') :
    ∃ value middle, target s = .ok value middle := by
  subst indirect
  simp only [runCall, Bool.false_eq_true, if_false] at ran
  obtain ⟨value, middle, evaluated, -⟩ := exec_bind_eq_ok.mp ran
  exact ⟨value, middle, evaluated⟩

theorem held_of_callee {builtin : Bool} {callee : Expr} {args : List Value} {s s' : State}
    {result : Option Value}
    (ran : runCall caller f.name builtin callee (eval caller f frame callee) args s =
      .ok result s')
    (name : (!builtin || callee.label?.isSome) = true)
    (held : ∀ s value s', eval caller f frame callee s = .ok value s' →
      ∀ v, Leaf.var v ∈ callee.leaves → (frame.vars.get? v).isSome)
    (v : Var) (member : Leaf.var v ∈ callee.leaves) : (frame.vars.get? v).isSome := by
  cases builtin with
  | false =>
      obtain ⟨value, middle, evaluated⟩ := runCall_target rfl ran
      exact held s value middle evaluated v member
  | true =>
      cases callee with
      | label text => simp [Expr.leaves] at member
      | _ => simp [Expr.label?] at name

mutual

/-- Evaluation that ends has read every variable. -/
theorem held_of_eval : ∀ (expr : Expr), expr.named = true → ∀ (s : State) (value : Value)
    (s' : State), eval caller f frame expr s = .ok value s' →
      ∀ v, Leaf.var v ∈ expr.leaves → (frame.vars.get? v).isSome
  | .type _, _, s, value, s', ran, v, member => by simp [Expr.leaves] at member
  | .const _, _, s, value, s', ran, v, member => by simp [Expr.leaves] at member
  | .label _, _, s, value, s', ran, v, member => by simp [Expr.leaves] at member
  | .slot _, _, s, value, s', ran, v, member => by simp [Expr.leaves] at member
  | .var w, _, s, value, s', ran, v, member => by
      simp only [Expr.leaves, List.mem_singleton, Leaf.var.injEq] at member
      subst member
      rw [eval] at ran
      cases found : frame.vars.get? v with
      | some x => rfl
      | none =>
          simp only [found] at ran
          cases ran
  | .binary operator left right, named, s, value, s', ran, v, member => by
      rw [Expr.named, Bool.and_eq_true] at named
      rw [eval] at ran
      obtain ⟨first, s₁, ran_left, ran⟩ := exec_bind_eq_ok.mp ran
      obtain ⟨_, s₂, -, ran⟩ := exec_bind_eq_ok.mp ran
      obtain ⟨second, s₃, ran_right, -⟩ := exec_bind_eq_ok.mp ran
      rcases List.mem_append.mp member with member | member
      · exact held_of_eval left named.1 _ _ _ ran_left v member
      · exact held_of_eval right named.2 _ _ _ ran_right v member
  | .access base offsets, named, s, value, s', ran, v, member => by
      rw [Expr.named, Bool.and_eq_true] at named
      rw [eval] at ran
      obtain ⟨first, s₁, ran_base, ran⟩ := exec_bind_eq_ok.mp ran
      obtain ⟨_, s₂, -, ran⟩ := exec_bind_eq_ok.mp ran
      obtain ⟨indices, s₃, ran_offsets, -⟩ := exec_bind_eq_ok.mp ran
      rcases List.mem_append.mp member with member | member
      · exact held_of_eval base named.1 _ _ _ ran_base v member
      · exact held_of_evalEach offsets named.2 _ _ _ _ ran_offsets v member
  | .call builtin callee args, named, s, value, s', ran, v, member => by
      simp only [Expr.named, Bool.and_eq_true] at named
      rw [eval] at ran
      obtain ⟨values, s₁, ran_args, ran⟩ := exec_bind_eq_ok.mp ran
      obtain ⟨result, s₂, called, -⟩ := exec_bind_eq_ok.mp ran
      rcases List.mem_append.mp member with member | member
      · exact held_of_callee called named.1.1
          (fun s value s' => held_of_eval callee named.1.2 s value s') v member
      · exact held_of_evalEach args named.2 _ _ _ _ ran_args v member
  | .newArray dims, named, s, value, s', ran, v, member => by
      rw [eval] at ran
      obtain ⟨sizes, s₁, ran_dims, -⟩ := exec_bind_eq_ok.mp ran
      exact held_of_evalEach dims named _ _ _ _ ran_dims v member
  | .newTuple size, named, s, value, s', ran, v, member => by
      rw [eval] at ran
      obtain ⟨count, s₁, ran_size, -⟩ := exec_bind_eq_ok.mp ran
      exact held_of_eval size named _ _ _ ran_size v member
  | .length base dim, named, s, value, s', ran, v, member => by
      rw [Expr.named, Bool.and_eq_true] at named
      rw [eval] at ran
      obtain ⟨first, s₁, ran_base, ran⟩ := exec_bind_eq_ok.mp ran
      obtain ⟨_, s₂, -, ran⟩ := exec_bind_eq_ok.mp ran
      obtain ⟨second, s₃, ran_dim, -⟩ := exec_bind_eq_ok.mp ran
      rcases List.mem_append.mp member with member | member
      · exact held_of_eval base named.1 _ _ _ ran_base v member
      · exact held_of_eval dim named.2 _ _ _ ran_dim v member

theorem held_of_evalEach {α : Type} : ∀ (exprs : List Expr), Expr.namedAll exprs = true →
    ∀ (convert : Value → Exec α) (s : State) (values : List α) (s' : State),
      evalEach caller f frame convert exprs s = .ok values s' →
        ∀ v, Leaf.var v ∈ Expr.leavesOfAll exprs → (frame.vars.get? v).isSome
  | [], _, convert, s, values, s', ran, v, member => by simp [Expr.leavesOfAll] at member
  | expr :: exprs, named, convert, s, values, s', ran, v, member => by
      rw [Expr.namedAll, Bool.and_eq_true] at named
      rw [evalEach] at ran
      obtain ⟨value, s₁, ran_first, ran⟩ := exec_bind_eq_ok.mp ran
      obtain ⟨_, s₂, -, ran⟩ := exec_bind_eq_ok.mp ran
      obtain ⟨rest, s₃, ran_rest, -⟩ := exec_bind_eq_ok.mp ran
      rcases List.mem_append.mp member with member | member
      · exact held_of_eval expr named.1 _ _ _ ran_first v member
      · exact held_of_evalEach exprs named.2 convert _ _ _ ran_rest v member

end

theorem held_of_assign {target : Expr} {value : Value} {s s' : State} {next : Frame}
    (named : target.named = true) (ran : assign caller f frame target value s = .ok next s')
    (v : Var) (member : Leaf.var v ∈ target.placeReads) : (frame.vars.get? v).isSome := by
  cases target with
  | var w => cases member
  | slot slot => cases member
  | access base offsets =>
      rw [Expr.named, Bool.and_eq_true] at named
      rw [assign] at ran
      obtain ⟨first, s₁, ran_base, ran⟩ := exec_bind_eq_ok.mp ran
      obtain ⟨_, s₂, -, ran⟩ := exec_bind_eq_ok.mp ran
      obtain ⟨indices, s₃, ran_offsets, -⟩ := exec_bind_eq_ok.mp ran
      rcases List.mem_append.mp member with member | member
      · exact held_of_eval base named.1 _ _ _ ran_base v member
      · exact held_of_evalEach offsets named.2 _ _ _ _ ran_offsets v member
  | _ => cases ran

theorem held_of_execute {i : Instruction} {s s' : State} {next : Frame}
    (named : ∀ expr ∈ i.exprs, expr.named = true)
    (ran : execute caller f frame i s = .ok next s') (v : Var) (used : v ∈ i.uses) :
    (frame.vars.get? v).isSome := by
  rw [Instruction.mem_uses] at used
  cases i with
  | declare ty w => cases used
  | call builtin callee args =>
      have known := named _ (List.mem_singleton_self _)
      simp only [Expr.named, Bool.and_eq_true] at known
      rw [execute] at ran
      obtain ⟨values, s₁, ran_args, ran⟩ := exec_bind_eq_ok.mp ran
      obtain ⟨result, s₂, called, -⟩ := exec_bind_eq_ok.mp ran
      rcases List.mem_append.mp used with member | member
      · exact held_of_callee called known.1.1
          (fun s value s' => held_of_eval callee known.1.2 s value s') v member
      · exact held_of_evalEach args known.2 _ _ _ _ ran_args v member
  | assign target source =>
      rw [execute] at ran
      obtain ⟨value, s₁, ran_source, ran⟩ := exec_bind_eq_ok.mp ran
      rcases List.mem_append.mp used with member | member
      · exact held_of_eval source (named source (by simp [Instruction.exprs])) _ _ _ ran_source v
          member
      · exact held_of_assign (named target (by simp [Instruction.exprs])) ran v member

theorem held_of_finish {t : Terminator} {s s' : State} {exit : Exit}
    (named : ∀ expr ∈ t.exprs, expr.named = true)
    (ran : finish caller f frame t s = .ok exit s') (v : Var) (used : v ∈ t.uses) :
    (frame.vars.get? v).isSome := by
  rw [Terminator.mem_uses] at used
  cases t with
  | ret => cases used
  | jump target => cases used
  | retValue value =>
      rw [finish] at ran
      obtain ⟨_, s₁, ran_value, -⟩ := exec_bind_eq_ok.mp ran
      exact held_of_eval value (named value (by simp [Terminator.exprs])) _ _ _ ran_value v used
  | branch condition onTrue onFalse =>
      rw [finish] at ran
      obtain ⟨_, s₁, ran_condition, -⟩ := exec_bind_eq_ok.mp ran
      exact held_of_eval condition (named condition (by simp [Terminator.exprs])) _ _ _
        ran_condition v used

end Held

end Regalloc.Machine
