import Mathlib
import Regalloc.Proofs.BlockRuns
import Regalloc.Proofs.RowMajor
import Regalloc.Proofs.StaticFaults

/-!
# The limit of cycles

Every point takes a cycle before it does anything, so a run comes to its end before the fuel is
spent, whatever the fuel and whatever would be done without it. The limit decides nothing but
where a run is cut: under a higher limit the same is done up to that point, and then at least one
cycle more. What no limit cuts short is the writing out of a single value, which never ends if an
aggregate holds itself.
-/

namespace Regalloc.Machine

def Quiet {α : Type} (x : Exec α) : Prop :=
  ∀ s, (endState (x s)).cycles = s.cycles ∧ ∀ n s', x s ≠ .error (.cycleLimit n) s'

namespace Quiet

variable {α β : Type}

theorem of_pure (a : α) : Quiet (pure a) :=
  fun _ => ⟨rfl, nofun⟩

theorem of_throw {fault : Fault} (other : ∀ n, fault ≠ .cycleLimit n) :
    Quiet (throw fault : Exec α) := by
  refine fun s => ⟨rfl, fun n s' stopped => ?_⟩
  cases stopped
  exact other n rfl

theorem of_get : Quiet get :=
  fun _ => ⟨rfl, nofun⟩

theorem of_modifyGet {change : State → α × State}
    (cycles : ∀ s, (change s).2.cycles = s.cycles) : Quiet (modifyGet change) :=
  fun s => ⟨cycles s, nofun⟩

theorem of_bind {x : Exec α} {f : α → Exec β} (first : Quiet x) (next : ∀ a, Quiet (f a)) :
    Quiet (x >>= f) := by
  intro s
  obtain ⟨same, other⟩ := first s
  cases ran : x s with
  | error fault s' =>
      rw [ran] at same other
      rw [bind_of_error ran]
      refine ⟨same, fun n t stopped => ?_⟩
      cases stopped
      exact other n s' rfl
  | ok a s' =>
      rw [ran] at same
      rw [bind_of_ok ran]
      exact ⟨(next a s').1.trans same, (next a s').2⟩

end Quiet

section Operations

theorem quiet_liftFault {α : Type} {x : Except Fault α}
    (other : ∀ fault, x = .error fault → ∀ n, fault ≠ .cycleLimit n) : Quiet (liftFault x) := by
  cases x with
  | ok a => exact .of_pure a
  | error fault => exact .of_throw (other fault rfl)

/-- Writing something out may never end, but takes no cycle. -/
theorem text_ne_cycleLimit {heap : Heap} {value : Value} {fault : Fault}
    (failed : value.text heap = .error fault) (n : Nat) : fault ≠ .cycleLimit n := by
  rw [(text_eq_error failed).1]
  exact nofun

theorem quiet_notInteger (value : Value) :
    Quiet (do
      let text ← liftFault (value.text (← get).heap)
      throw (.notInteger text) : Exec Int64) := by
  refine .of_bind .of_get fun state => ?_
  refine .of_bind (quiet_liftFault fun _ => text_ne_cycleLimit) fun text => ?_
  exact .of_throw (by simp)

theorem quiet_asInt (value : Value) : Quiet (asInt value) := by
  cases value with
  | int n => exact .of_pure n
  | code name => exact quiet_notInteger _
  | aggregate address => exact quiet_notInteger _

theorem quiet_aggregateAt (address : Nat) : Quiet (aggregateAt address) :=
  .of_bind .of_get fun _ => .of_pure _

theorem quiet_locate (function : String) (address : Nat) (indices : List Int64) :
    Quiet (locate function address indices) := by
  refine .of_bind (quiet_aggregateAt address) fun aggregate => ?_
  refine .of_bind (quiet_liftFault fun fault failed n => ?_) fun index => ?_
  · rcases elementIndex_error failed with ⟨_, _, rfl⟩ | ⟨_, _, rfl⟩ <;> exact nofun
  · split
    · exact .of_pure index
    · exact .of_throw (by simp)

theorem quiet_newAggregate (dims : List Int64) : Quiet (newAggregate dims) := by
  unfold newAggregate
  split
  · exact .of_throw (by simp)
  · exact .of_modifyGet fun _ => rfl

theorem quiet_runBuiltin (function : String) (callee : Expr) (args : List Value) :
    Quiet (runBuiltin function callee args) := by
  unfold runBuiltin
  cases callee.label?.bind Builtin.ofName? with
  | none => exact .of_throw (by simp)
  | some builtin =>
      cases builtin with
      | print =>
          refine .of_bind .of_get fun state => .of_bind (quiet_liftFault ?_) fun texts => ?_
          · intro fault failed
            obtain ⟨value, -, failed⟩ := mapM_eq_error failed
            exact text_ne_cycleLimit failed
          · exact .of_bind (.of_modifyGet fun _ => rfl) fun _ => .of_pure _
      | input =>
          refine .of_bind .of_get fun state => ?_
          split
          · exact .of_throw (by simp)
          · exact .of_bind (.of_modifyGet fun _ => rfl) fun _ => .of_pure _
      | tensorError => exact .of_throw (by simp)

theorem quiet_jumpTo (f : Function) (target : Expr) : Quiet (jumpTo f target) := by
  unfold jumpTo
  split
  · exact .of_pure _
  · exact .of_throw (by simp)

end Operations

/-- From `low` cycles on, one execution does what another does until it passes its limit of
cycles, where the other goes on unless its limit is the same. -/
structure Cut {α : Type} (low limit limit' : Nat) (cut whole : Exec α) : Prop where
  returned : ∀ s a s', low ≤ s.cycles → s.cycles ≤ limit → cut s = .ok a s' →
    whole s = .ok a s' ∧ s'.cycles ≤ limit
  stopped : ∀ s fault s', low ≤ s.cycles → s.cycles ≤ limit → cut s = .error fault s' →
    s'.cycles ≤ limit + 1 ∧
    ((whole s = .error fault s' ∧ ∀ n, fault ≠ .cycleLimit n) ∨
      (fault = .cycleLimit limit ∧ limit < (endState (whole s)).cycles ∧
        (limit' = limit → whole s = .error fault s')))
  onward : ∀ s, s.cycles ≤ (endState (whole s)).cycles

theorem Quiet.cut {α : Type} {x : Exec α} (quiet : Quiet x) {low limit limit' : Nat} :
    Cut low limit limit' x x where
  returned s a s' _ small ran := by
    have same := (quiet s).1
    rw [ran] at same
    exact ⟨ran, same.trans_le small⟩
  stopped s fault s' _ small stopped := by
    have same := (quiet s).1
    rw [stopped] at same
    refine ⟨same.trans_le (Nat.le_succ_of_le small), .inl ⟨stopped, ?_⟩⟩
    rintro n rfl
    exact (quiet s).2 n s' stopped
  onward s := (quiet s).1.ge

section Cutting

variable {low limit limit' : Nat} {α β : Type}

theorem endState_bind {x : Exec α} {f : α → Exec β}
    (next : ∀ a s, s.cycles ≤ (endState (f a s)).cycles) (s : State) :
    (endState (x s)).cycles ≤ (endState ((x >>= f) s)).cycles := by
  cases ran : x s with
  | error fault s' => rw [bind_of_error ran]; rfl
  | ok a s' =>
      rw [bind_of_ok ran]
      exact next a s'

theorem Cut.of_pure (a : α) : Cut low limit limit' (pure a) (pure a) :=
  (Quiet.of_pure a).cut

theorem Cut.of_throw {fault : Fault} (other : ∀ n, fault ≠ .cycleLimit n) :
    Cut low limit limit' (throw fault : Exec α) (throw fault) :=
  (Quiet.of_throw other).cut

theorem Cut.bind {x y : Exec α} {f g : α → Exec β} (first : Cut low limit limit' x y)
    (next : ∀ a, Cut low limit limit' (f a) (g a)) :
    Cut low limit limit' (x >>= f) (y >>= g) where
  onward s := (first.onward s).trans (endState_bind (fun a => (next a).onward) s)
  returned s b s' late small ran := by
    obtain ⟨a, middle, ran, later⟩ := exec_bind_eq_ok.mp ran
    obtain ⟨ran', small'⟩ := first.returned s a middle late small ran
    have on := first.onward s
    rw [ran'] at on
    rw [bind_of_ok ran']
    exact (next a).returned middle b s' (late.trans on) small' later
  stopped s fault s' late small stopped := by
    cases ran : x s with
    | ok a middle =>
        obtain ⟨ran', small'⟩ := first.returned s a middle late small ran
        have on := first.onward s
        rw [ran'] at on
        rw [bind_of_ok ran] at stopped
        rw [bind_of_ok ran']
        exact (next a).stopped middle fault s' (late.trans on) small' stopped
    | error other middle =>
        rw [bind_of_error ran] at stopped
        cases stopped
        obtain ⟨few, causes⟩ := first.stopped s fault s' late small ran
        refine ⟨few, ?_⟩
        rcases causes with ⟨same, different⟩ | ⟨same, past, alike⟩
        · exact .inl ⟨bind_of_error same, different⟩
        · refine .inr ⟨same, past.trans_le (endState_bind (fun a => (next a).onward) s), ?_⟩
          exact fun equal => bind_of_error (alike equal)

theorem tick_of_lt {s : State} (early : s.cycles < limit) :
    tick limit s = .ok () { s with cycles := s.cycles + 1 } :=
  tick_eq_ok.mpr ⟨early, rfl⟩

theorem tick_of_le {s : State} (late : limit ≤ s.cycles) :
    tick limit s = .error (.cycleLimit limit) { s with cycles := s.cycles + 1 } := by
  have passed : limit < s.cycles + 1 := Nat.lt_succ_of_le late
  simp [tick, bind, EStateM.bind, modify, modifyGet, MonadStateOf.modifyGet, EStateM.modifyGet,
    get, getThe, MonadStateOf.get, EStateM.get, passed, throw, throwThe, MonadExceptOf.throw,
    EStateM.throw]

theorem cycles_tick (limit : Nat) (s : State) :
    (endState (tick limit s)).cycles = s.cycles + 1 := by
  rcases Nat.lt_or_ge s.cycles limit with early | late
  · rw [tick_of_lt early]
    rfl
  · rw [tick_of_le late]
    rfl

theorem Cut.after_tick {x y : Exec α} (limits : limit ≤ limit')
    (rest : Cut (low + 1) limit limit' x y) :
    Cut low limit limit' (do tick limit; x) (do tick limit'; y) := by
  have taken : ∀ s, s.cycles + 1 ≤ (endState ((do tick limit'; y) s)).cycles := by
    intro s
    rw [← cycles_tick limit' s]
    exact endState_bind (fun _ => rest.onward) s
  refine ⟨?_, ?_, fun s => (Nat.le_succ _).trans (taken s)⟩
  · intro s a s' late small ran
    obtain ⟨_, _, ticked, ran⟩ := exec_bind_eq_ok.mp ran
    obtain ⟨early, rfl⟩ := tick_eq_ok.mp ticked
    rw [bind_of_ok (tick_of_lt (early.trans_le limits))]
    exact rest.returned _ a s' (Nat.succ_le_succ late) early ran
  · intro s fault s' late small stopped
    rcases small.lt_or_eq with early | last
    · rw [bind_of_ok (tick_of_lt early)] at stopped
      rw [bind_of_ok (tick_of_lt (early.trans_le limits))]
      exact rest.stopped _ fault s' (Nat.succ_le_succ late) early stopped
    · rw [bind_of_error (tick_of_le last.ge)] at stopped
      cases stopped
      refine ⟨Nat.succ_le_succ small, .inr ⟨rfl, last ▸ taken s, ?_⟩⟩
      rintro rfl
      exact bind_of_error (tick_of_le last.ge)

end Cutting

def CallsCut (low limit limit' : Nat) (caller caller' : Caller) : Prop :=
  ∀ name args, Cut low limit limit' (caller name args) (caller' name args)

def cutting (low limit limit' : Nat) : StepRelation where
  Rel x y := Cut low limit limit' x y
  Allows fault := ∀ n, fault ≠ .cycleLimit n
  allows fault dynamic := by
    rintro n rfl
    cases dynamic
  rel_pure := .of_pure
  rel_throw := .of_throw
  rel_bind := .bind
  rel_asInt value := (quiet_asInt value).cut
  rel_aggregateAt address := (quiet_aggregateAt address).cut
  rel_locate function address indices := (quiet_locate function address indices).cut
  rel_newAggregate dims := (quiet_newAggregate dims).cut
  rel_runBuiltin _ args := (quiet_runBuiltin _ _ args).cut
  rel_writeAt _ _ _ := (Quiet.of_modifyGet fun _ => rfl).cut

section Evaluation

variable {low limit limit' : Nat} {caller caller' : Caller} {f : Function} {frame : Frame}
  (calls : CallsCut low limit limit' caller caller')
include calls

theorem cut_execute (instruction : Instruction) :
    Cut low limit limit' (execute caller f frame instruction)
      (execute caller' f frame instruction) :=
  (cutting low limit limit').rel_execute calls instruction fun _ member =>
    Fault.ne_cycleLimit (Instruction.isStatic_of_mem_faults member)

theorem cut_finish (terminator : Terminator) :
    Cut low limit limit' (finish caller f frame terminator)
      (finish caller' f frame terminator) := by
  refine (cutting low limit limit').rel_finish_self calls terminator
    (fun leaf _ => StepRelation.readAlike_self f frame leaf) ?_
    fun target _ => (quiet_jumpTo f target).cut
  intro fault member
  obtain ⟨value, -, member⟩ := List.mem_flatMap.mp member
  exact Fault.ne_cycleLimit (Expr.isStatic_of_mem_faults member)

end Evaluation

/-- Runs a program with some fuel; what is done when it is spent is left open. -/
def runOr (spent : Function → Frame → (block point : Nat) → Exec (Option Value))
    (program : Program) (limit fuel : Nat) (heap : Heap) (input : List Int64) (entry : String)
    (args : List Value) : Outcome :=
  ((plain limit).thereafter spent).run program fuel heap input entry args

section Resuming

variable {spent : Function → Frame → (block point : Nat) → Exec (Option Value)}
  {program : Program} {limit limit' fuel : Nat}

theorem cut_dispatch {low : Nat} {enter enter' : Function → Frame → Exec (Option Value)}
    (enters : ∀ f frame, Cut low limit limit' (enter f frame) (enter' f frame)) :
    CallsCut low limit limit' (dispatch program enter) (dispatch program enter') := by
  intro name args
  unfold dispatch
  split
  · exact .of_throw (by simp)
  · split
    · exact enters _ _
    · exact .of_throw (by simp)

/-- With fuel for all cycles that the higher limit leaves, a call is cut where it passes the lower
limit, and not because fuel is spent. -/
theorem cut_resume (limits : limit ≤ limit') {low : Nat} (enough : limit' < low + fuel)
    (f : Function) (frame : Frame) (b i : Nat) :
    Cut low limit limit' (((plain limit).thereafter spent).resume program fuel f frame b i)
      (resume program limit' fuel f frame b i) := by
  induction fuel generalizing low f frame b i with
  | zero =>
      refine ⟨fun s a s' late small => ?_, fun s fault s' late small => ?_, fun s => le_rfl⟩
      · omega
      · omega
  | succ fuel ih =>
      have left : limit' < low + 1 + fuel := by omega
      have calls : CallsCut (low + 1) limit limit'
          (((plain limit).thereafter spent).caller program fuel) (callerWith program limit' fuel) :=
        cut_dispatch fun f frame => ih left f frame 0 0
      cases found : f.blocks[b]? with
      | none =>
          rw [Course.resume_absent found, resume_absent found]
          exact .of_throw (by simp)
      | some block =>
          cases here : block.instrs[i]? with
          | some instruction =>
              rw [Course.resume_instruction found here, resume_instruction found here]
              refine .after_tick limits (.bind (cut_execute calls instruction) fun next => ?_)
              exact ih left f next b (i + 1)
          | none =>
              rw [Course.resume_terminator found here, resume_terminator found here]
              refine .after_tick limits (.bind (cut_finish calls block.terminator) fun exit => ?_)
              cases exit with
              | leave value => exact .of_pure value
              | enter next => exact ih left f frame next 0

theorem Cut.eq {α : Type} {cut whole : Exec α} (same : Cut 0 limit limit cut whole) {s : State}
    (small : s.cycles ≤ limit) : cut s = whole s := by
  cases ran : cut s with
  | ok a s' => exact (same.returned s a s' (Nat.zero_le _) small ran).1.symm
  | error fault s' =>
      rcases (same.stopped s fault s' (Nat.zero_le _) small ran).2 with
        ⟨equal, -⟩ | ⟨-, -, equal⟩
      · exact equal.symm
      · exact (equal rfl).symm

theorem caller_thereafter_eq (enough : limit < fuel) (name : String) (args : List Value)
    {s : State} (small : s.cycles ≤ limit) :
    ((plain limit).thereafter spent).caller program fuel name args s =
      callerWith program limit fuel name args s :=
  (cut_dispatch (fun f frame => cut_resume le_rfl (by omega) f frame 0 0) name args).eq small

theorem callerWith_eq (enough : limit < fuel) (name : String) (args : List Value) {s : State}
    (small : s.cycles ≤ limit) :
    callerWith program limit fuel name args s =
      callerWith program limit (limit + 1) name args s := by
  obtain ⟨more, rfl⟩ := Nat.exists_eq_add_of_le' enough
  have longer : callerWith program limit (more + (limit + 1)) =
      ((plain limit).thereafter ((plain limit).resume program more)).caller program
        (limit + 1) := by
    rw [← plain_caller, Course.caller, Course.caller, Course.resume_thereafter]
  rw [longer, caller_thereafter_eq (Nat.lt_succ_self limit) name args small]

theorem cut_callerWith (limits : limit ≤ limit') :
    CallsCut 0 limit limit' (callerWith program limit (limit' + 1))
      (callerWith program limit' (limit' + 1)) := by
  refine cut_dispatch fun f frame => ?_
  rw [← plain_resume program limit (limit' + 1)]
  exact cut_resume limits (by omega) f frame 0 0

end Resuming

section Runs

variable {program : Program} {heap : Heap} {input : List Int64} {entry : String}
  {args : List Value} {limit limit' : Nat}

theorem runOr_eq_run (spent : Function → Frame → (block point : Nat) → Exec (Option Value))
    {fuel : Nat} (enough : limit < fuel) :
    runOr spent program limit fuel heap input entry args =
      run program limit heap input entry args := by
  have same : (((plain limit).thereafter spent).caller program fuel entry args).run
      { heap := heap, input := input } =
        (callerWith program limit (limit + 1) entry args).run { heap := heap, input := input } :=
    (caller_thereafter_eq enough entry args (Nat.zero_le _)).trans
      (callerWith_eq enough entry args (Nat.zero_le _))
  simp only [runOr, Course.run, run_eq_outcome, outcome, same]

/-- A higher limit does not change a run that was not cut. Where it was cut, a higher limit takes
more cycles. -/
theorem run_of_le (limits : limit ≤ limit') :
    (∃ execution, (run program limit heap input entry args).result = .ok execution ∧
      run program limit' heap input entry args = run program limit heap input entry args ∧
      execution.cycles ≤ limit) ∨
    (∃ fault, (run program limit heap input entry args).result = .error fault ∧
      run program limit' heap input entry args = run program limit heap input entry args ∧
      ∀ n, fault ≠ .cycleLimit n) ∨
    ((run program limit heap input entry args).result = .error (.cycleLimit limit) ∧
      ∀ execution, (run program limit' heap input entry args).result = .ok execution →
        limit < execution.cycles) := by
  have cut : Cut 0 limit limit' (callerWith program limit (limit' + 1) entry args)
      (callerWith program limit' (limit' + 1) entry args) := cut_callerWith limits entry args
  have fueled : callerWith program limit (limit' + 1) entry args { heap := heap, input := input } =
      callerWith program limit (limit + 1) entry args { heap := heap, input := input } :=
    callerWith_eq (Nat.lt_succ_of_le limits) entry args (Nat.zero_le _)
  simp only [run_eq_outcome, outcome, EStateM.run]
  rw [← fueled]
  cases ran : callerWith program limit (limit' + 1) entry args { heap := heap, input := input } with
  | ok value state =>
      obtain ⟨same, small⟩ := cut.returned _ value state (Nat.zero_le _) (Nat.zero_le _) ran
      rw [same]
      exact .inl ⟨_, rfl, rfl, small⟩
  | error fault state =>
      rcases (cut.stopped _ fault state (Nat.zero_le _) (Nat.zero_le _) ran).2 with
        ⟨same, other⟩ | ⟨rfl, past, -⟩
      · rw [same]
        exact .inr (.inl ⟨fault, rfl, rfl, other⟩)
      · refine .inr (.inr ⟨rfl, fun execution returned => ?_⟩)
        cases ran' : callerWith program limit' (limit' + 1) entry args
            { heap := heap, input := input } with
        | ok value state' =>
            rw [ran'] at returned past
            cases returned
            exact past
        | error other state' =>
            rw [ran'] at returned
            cases returned

theorem run_of_returned {execution : Execution}
    (returned : (run program limit heap input entry args).result = .ok execution)
    (limits : limit ≤ limit') :
    run program limit' heap input entry args = run program limit heap input entry args ∧
      execution.cycles ≤ limit := by
  rcases run_of_le limits with ⟨_, returned', same, small⟩ | ⟨_, stopped, -⟩ | ⟨stopped, -⟩
  · rw [returned] at returned'
    cases returned'
    exact ⟨same, small⟩
  all_goals
    rw [returned] at stopped
    cases stopped

/-- Under a lower limit it is the same, too, or it is cut. -/
theorem run_of_lower {execution : Execution}
    (returned : (run program limit heap input entry args).result = .ok execution)
    (lower : limit' ≤ limit) :
    (run program limit' heap input entry args = run program limit heap input entry args ∧
      execution.cycles ≤ limit') ∨
    ((run program limit' heap input entry args).result = .error (.cycleLimit limit') ∧
      limit' < execution.cycles) := by
  rcases run_of_le lower with ⟨_, returned', same, small⟩ | ⟨_, stopped, same, -⟩ | ⟨cut, past⟩
  · rw [← same, returned] at returned'
    cases returned'
    exact .inl ⟨same.symm, small⟩
  · rw [← same, returned] at stopped
    cases stopped
  · exact .inr ⟨cut, past execution returned⟩

theorem run_of_stopped {fault : Fault}
    (stopped : (run program limit heap input entry args).result = .error fault)
    (other : ∀ n, fault ≠ .cycleLimit n) (limits : limit ≤ limit') :
    run program limit' heap input entry args = run program limit heap input entry args := by
  rcases run_of_le limits with ⟨execution, returned, -⟩ | ⟨_, -, same, -⟩ | ⟨cut, -⟩
  · rw [stopped] at returned
    cases returned
  · exact same
  · rw [stopped] at cut
    cases cut
    exact absurd rfl (other limit)

theorem cycles_call_le (program : Program) (heap : Heap) (input : List Int64) (entry : String)
    (args : List Value) (limit : Nat) :
    (endState ((call program limit entry args).run { heap := heap, input := input })).cycles ≤
      limit + 1 := by
  have cut : Cut 0 limit limit (call program limit entry args) (call program limit entry args) :=
    cut_callerWith le_rfl entry args
  cases ran : (call program limit entry args).run { heap := heap, input := input } with
  | ok value state =>
      exact Nat.le_succ_of_le (cut.returned _ value state (Nat.zero_le _) (Nat.zero_le _) ran).2
  | error fault state =>
      exact (cut.stopped _ fault state (Nat.zero_le _) (Nat.zero_le _) ran).1

end Runs

section Writing

def Heap.Holds (heap : Heap) (outer inner : Nat) : Prop :=
  ∃ aggregate, heap[outer]? = some aggregate ∧ .aggregate inner ∈ aggregate.elements.toList

/-- Somewhere inside of the aggregate at an address there is one that holds itself. -/
def Heap.Endless (heap : Heap) (address : Nat) : Prop :=
  ∃ a, Relation.ReflTransGen heap.Holds address a ∧ Relation.TransGen heap.Holds a a

variable {heap : Heap}

theorem Heap.holds_iff {outer inner : Nat} :
    heap.Holds outer inner ↔ .aggregate inner ∈ (Heap.aggregate heap outer).elements.toList := by
  rw [Heap.Holds, Heap.aggregate, Array.getD_eq_getD_getElem?]
  cases heap[outer]? with
  | none => simp [default]
  | some aggregate => simp

theorem mapM_eq_none_iff {α β : Type} {f : α → Option β} {list : List α} :
    list.mapM f = none ↔ ∃ a ∈ list, f a = none := by
  induction list with
  | nil => simp
  | cons first rest ih =>
      cases here : f first with
      | none => simp [here]
      | some b =>
          cases later : rest.mapM f with
          | none => simpa [here, later] using ih
          | some bs => simpa [here, later] using ih

theorem unfold_succ_eq_none_iff {depth address : Nat} :
    unfold heap (depth + 1) (.aggregate address) = none ↔
      ∃ inner, heap.Holds address inner ∧ unfold heap depth (.aggregate inner) = none := by
  have stuck : ∀ value, unfold heap depth value = none → ∃ inner, value = .aggregate inner := by
    intro value endless
    cases value with
    | int n => simp [unfold] at endless
    | code name => simp [unfold] at endless
    | aggregate inner => exact ⟨inner, rfl⟩
  simp only [unfold, Option.bind_eq_bind, Option.bind_eq_none_iff, Option.pure_def, reduceCtorEq,
    imp_false, ← Option.eq_none_iff_forall_ne_some, mapM_eq_none_iff, Heap.holds_iff]
  constructor
  · rintro ⟨value, member, endless⟩
    obtain ⟨inner, rfl⟩ := stuck value endless
    exact ⟨inner, member, endless⟩
  · rintro ⟨inner, member, endless⟩
    exact ⟨_, member, endless⟩

/-- A value that is not written out has aggregates inside each other, one more than were reached. -/
theorem exists_chain_of_unfold {depth : Nat} {value : Value}
    (endless : unfold heap depth value = none) :
    ∃ address inner, value = .aggregate address ∧ inner.length = depth ∧
      (address :: inner).IsChain heap.Holds := by
  induction depth generalizing value with
  | zero =>
      cases value with
      | int n => simp [unfold] at endless
      | code name => simp [unfold] at endless
      | aggregate address => exact ⟨address, [], rfl, rfl, List.isChain_singleton _⟩
  | succ depth ih =>
      cases value with
      | int n => simp [unfold] at endless
      | code name => simp [unfold] at endless
      | aggregate address =>
          obtain ⟨next, holds, endless⟩ := unfold_succ_eq_none_iff.mp endless
          obtain ⟨_, inner, same, length, chain⟩ := ih endless
          cases same
          exact ⟨address, next :: inner, rfl, congrArg (· + 1) length, chain.cons_cons holds⟩

theorem Heap.Endless.inner {address : Nat} (endless : heap.Endless address) :
    ∃ next, heap.Holds address next ∧ heap.Endless next := by
  obtain ⟨a, path, around⟩ := endless
  rcases path.cases_head with rfl | ⟨next, holds, path⟩
  · obtain ⟨next, holds, back⟩ := Relation.TransGen.head'_iff.mp around
    exact ⟨next, holds, address, back, around⟩
  · exact ⟨next, holds, a, path, around⟩

theorem unfold_of_endless {address : Nat} (endless : heap.Endless address) (depth : Nat) :
    unfold heap depth (.aggregate address) = none := by
  induction depth generalizing address with
  | zero => rfl
  | succ depth ih =>
      obtain ⟨next, holds, endless⟩ := endless.inner
      exact unfold_succ_eq_none_iff.mpr ⟨next, holds, ih endless⟩

theorem Heap.lt_size_of_chain {chain : List Nat} (holds : chain.IsChain heap.Holds) :
    ∀ a ∈ chain.dropLast, a < heap.size := by
  intro a member
  obtain ⟨place, before, rfl⟩ := List.getElem_of_mem member
  rw [List.length_dropLast] at before
  obtain ⟨aggregate, found, -⟩ := holds.getElem place (by omega)
  rw [List.getElem_dropLast]
  exact (Array.getElem?_eq_some_iff.mp found).1

/-- All but the last of a chain hold something and are in the heap. If the heap has not so many
aggregates, one of them comes twice. -/
theorem Heap.endless_of_chain {address : Nat} {inner : List Nat}
    (chain : (address :: inner).IsChain heap.Holds) (long : heap.size < inner.length) :
    heap.Endless address := by
  by_contra finite
  have paths := (chain.imp fun a b => Relation.TransGen.single).pairwise
  have reached : ∀ a ∈ address :: inner, Relation.ReflTransGen heap.Holds address a := by
    intro a member
    rcases List.mem_cons.mp member with rfl | later
    · exact .refl
    · exact (List.rel_of_pairwise_cons paths later).to_reflTransGen
  have apart : (address :: inner).Nodup := by
    refine paths.imp_of_mem ?_
    rintro a b member - path rfl
    exact finite ⟨a, reached a member, path⟩
  have fits : (address :: inner).dropLast.length ≤ (List.range heap.size).length :=
    (List.subperm_of_subset (apart.sublist (List.dropLast_sublist _)) fun a member =>
      List.mem_range.mpr (lt_size_of_chain chain a member)).length_le
  rw [List.length_dropLast, List.length_cons, List.length_range] at fits
  omega

theorem tree?_eq_none_iff {value : Value} :
    value.tree? heap = none ↔ ∃ address, value = .aggregate address ∧ heap.Endless address := by
  constructor
  · intro absent
    obtain ⟨address, inner, rfl, length, chain⟩ := exists_chain_of_unfold absent
    exact ⟨address, rfl, Heap.endless_of_chain chain (by omega)⟩
  · rintro ⟨address, rfl, endless⟩
    exact unfold_of_endless endless _

end Writing

section Causes

/-- The two faults that are no reports of the machine have a reason in the heap. -/
def Explained (fault : Fault) (heap : Heap) : Prop :=
  (fault = .endless → ∃ address, heap.Endless address) ∧
    (fault = .missingElement → ∃ address, ¬(Heap.aggregate heap address).WellFormed)

theorem explained_of_ne {fault : Fault} (ended : fault ≠ .endless)
    (present : fault ≠ .missingElement) (heap : Heap) : Explained fault heap :=
  ⟨fun same => absurd same ended, fun same => absurd same present⟩

theorem allowsComputed_explained :
    AllowsComputed fun fault state => Explained fault state.heap where
  dynamic fault dynamic state := by
    refine explained_of_ne ?_ ?_ state.heap
    · rintro rfl
      cases dynamic
    · rintro rfl
      cases dynamic
  limit limit state := explained_of_ne (by simp) (by simp) state.heap
  endless state value absent := by
    obtain ⟨address, -, endless⟩ := tree?_eq_none_iff.mp absent
    exact ⟨fun _ => ⟨address, endless⟩, by simp⟩
  missing state function address indices place found outside := by
    refine ⟨by simp, fun _ => ⟨address, fun wellFormed => ?_⟩⟩
    exact Nat.not_le.mpr (wellFormed.addressed.below function indices place found) outside

theorem explained_of_mem_faults {f : Function} {fault : Fault} (member : fault ∈ f.faults)
    (heap : Heap) : Explained fault heap := by
  have static := Function.isStatic_of_mem_faults member
  refine explained_of_ne ?_ ?_ heap
  · rintro rfl
    cases static
  · rintro rfl
    cases static

theorem run_explained {program : Program} {limit : Nat} {heap : Heap} {input : List Int64}
    {entry : String} {args : List Value} {fault : Fault}
    (stopped : (run program limit heap input entry args).result = .error fault) :
    Explained fault (run program limit heap input entry args).heap := by
  obtain ⟨state, same, explained⟩ := run_raises allowsComputed_explained
    (fun _ _ _ _ member state => explained_of_mem_faults member state.heap)
    limit heap input entry args stopped
  rw [← same]
  exact explained

end Causes

def countdown : Program :=
  ⟨[⟨"@main", ⟨.int64, 0⟩, [⟨⟨.int64, 0⟩, ⟨0⟩⟩],
      [⟨":e", [.assign (.var ⟨1⟩) (.call false (.label "@f") [.var ⟨0⟩])], .retValue (.var ⟨1⟩)⟩],
      ⟨["%n", "%r"], 0⟩⟩,
    ⟨"@f", ⟨.int64, 0⟩, [⟨⟨.int64, 0⟩, ⟨0⟩⟩],
      [⟨":h", [.assign (.var ⟨0⟩) (.binary .sub (.var ⟨0⟩) (.const 1))],
          .branch (.var ⟨0⟩) (.label ":h") (.label ":x")⟩,
        ⟨":x", [], .retValue (.var ⟨0⟩)⟩],
      ⟨["%k"], 0⟩⟩]⟩

def ownElement : Program :=
  ⟨[⟨"@main", ⟨.void, 0⟩, [],
      [⟨":e", [.assign (.var ⟨0⟩) (.newArray [.const 1]),
          .assign (.access (.var ⟨0⟩) [.const 0]) (.var ⟨0⟩),
          .call true (.label "print") [.var ⟨0⟩]], .ret⟩],
      ⟨["%a"], 0⟩⟩]⟩

def secondElement : Program :=
  ⟨[⟨"@main", ⟨.int64, 0⟩, [⟨⟨.int64, 1⟩, ⟨0⟩⟩],
      [⟨":e", [.assign (.var ⟨1⟩) (.access (.var ⟨0⟩) [.const 1])], .retValue (.var ⟨1⟩)⟩],
      ⟨["%a", "%b"], 0⟩⟩]⟩

end Regalloc.Machine
