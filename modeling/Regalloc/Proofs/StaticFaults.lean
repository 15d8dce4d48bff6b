import Mathlib
import Regalloc.Proofs.DisturbedRun

/-!
# Faults that are written into a program

Some faults do not depend on what is computed: a type stands where a value is needed, an unknown
function of the run-time library is called, something that holds no value is assigned to, control
jumps to what is no label of a block, or a function has no block to start in. A run ends with such
a fault only if a function that the program calls by its name shows it.
-/

namespace Regalloc

def Function.jumpFaults (f : Function) (target : Expr) : List Fault :=
  if (target.label?.bind fun label => Machine.lastWithLabel label f.blocks 0).isNone then
    [.badTarget f.name]
  else []

def Block.faults (block : Block) (f : Function) : List Fault :=
  block.instrs.flatMap (Instruction.faults f.name) ++
    (block.terminator.values.flatMap (Expr.faults f.name) ++
      block.terminator.jumps.flatMap f.jumpFaults)

def Function.faults (f : Function) : List Fault :=
  (if f.blocks = [] then [.noBlocks f.name] else []) ++ f.blocks.flatMap fun block => block.faults f

theorem Function.mem_faults_of_block {f : Function} {block : Block} {fault : Fault}
    (listed : block ∈ f.blocks) (member : fault ∈ block.faults f) : fault ∈ f.faults :=
  List.mem_append_right _ (List.mem_flatMap.mpr ⟨block, listed, member⟩)

theorem Function.noBlocks_mem_faults {f : Function} (empty : f.blocks = []) :
    .noBlocks f.name ∈ f.faults := by
  simp [faults, empty]

theorem Function.mem_jumpFaults {f : Function} {target : Expr} {fault : Fault} :
    fault ∈ f.jumpFaults target ↔ fault = .badTarget f.name ∧
      (target.label?.bind fun label => Machine.lastWithLabel label f.blocks 0) = none := by
  unfold jumpFaults
  split
  · rename_i absent
    simp [Option.isNone_iff_eq_none.mp absent]
  · rename_i present
    simp [mt Option.isNone_iff_eq_none.mpr present]

theorem Function.isStatic_of_mem_faults {f : Function} {fault : Fault}
    (member : fault ∈ f.faults) : fault.isStatic = true := by
  simp only [faults, Block.faults, List.mem_append, List.mem_flatMap] at member
  rcases member with empty | ⟨block, -, ⟨i, -, wrong⟩ | ⟨value, -, wrong⟩ | ⟨target, -, wrong⟩⟩
  · split at empty
    · cases List.mem_singleton.mp empty
      rfl
    · cases empty
  · exact Instruction.isStatic_of_mem_faults wrong
  · exact Expr.isStatic_of_mem_faults wrong
  · obtain ⟨rfl, -⟩ := mem_jumpFaults.mp wrong
    rfl

theorem Function.jump_of_badTarget {f : Function} {name : String}
    (member : .badTarget name ∈ f.faults) :
    name = f.name ∧ ∃ block ∈ f.blocks, ∃ target ∈ block.terminator.jumps,
      (target.label?.bind fun label => Machine.lastWithLabel label f.blocks 0) = none := by
  simp only [faults, Block.faults, List.mem_append, List.mem_flatMap] at member
  rcases member with
    empty | ⟨block, listed, ⟨i, -, wrong⟩ | ⟨value, -, wrong⟩ | ⟨target, jump, wrong⟩⟩
  · split at empty
    · cases List.mem_singleton.mp empty
    · cases empty
  · exact absurd wrong i.badTarget_notMem_faults
  · rcases Expr.eq_of_mem_faults _ wrong with same | same <;> cases same
  · obtain ⟨same, absent⟩ := mem_jumpFaults.mp wrong
    cases same
    exact ⟨rfl, block, listed, target, jump, absent⟩

namespace Machine

def Raises {α : Type} (allowed : Fault → State → Prop) (x : Exec α) : Prop :=
  ∀ state fault after, x state = .error fault after → allowed fault after

namespace Raises

variable {α β : Type} {allowed : Fault → State → Prop}

theorem of_pure (a : α) : Raises allowed (pure a) := by
  intro state fault after stopped
  cases stopped

theorem of_throw {fault : Fault} (holds : ∀ state, allowed fault state) :
    Raises allowed (throw fault : Exec α) := by
  intro state other after stopped
  cases stopped
  exact holds state

theorem of_bind {x : Exec α} {next : α → Exec β} (first : Raises allowed x)
    (later : ∀ state a after, x state = .ok a after → Raises allowed (next a)) :
    Raises allowed (x >>= next) := by
  intro state fault after stopped
  simp only [Bind.bind, EStateM.bind] at stopped
  split at stopped
  · rename_i a middle ran
    exact later state a middle ran middle fault after stopped
  · rename_i other middle ran
    cases stopped
    exact first state fault after ran

theorem bind {x : Exec α} {next : α → Exec β} (first : Raises allowed x)
    (later : ∀ a, Raises allowed (next a)) : Raises allowed (x >>= next) :=
  of_bind first fun _ a _ _ => later a

theorem of_get {next : State → Exec β}
    (later : ∀ state fault after, next state state = .error fault after → allowed fault after) :
    Raises allowed (get >>= next) :=
  later

theorem of_modify (change : State → State) : Raises allowed (modify change : Exec Unit) := by
  intro state fault after stopped
  cases stopped

end Raises

/-- All faults are allowed that depend on what is computed: those that evaluation runs into by
itself anywhere, and the others where there is a reason for them. -/
structure AllowsComputed (allowed : Fault → State → Prop) : Prop where
  dynamic : ∀ fault, fault.isDynamic = true → ∀ state, allowed fault state
  limit : ∀ limit state, allowed (.cycleLimit limit) state
  endless : ∀ state value, Value.tree? state.heap value = none → allowed .endless state
  missing : ∀ state function address indices place,
    elementIndex function (Heap.aggregate state.heap address) indices = .ok place →
      (Heap.aggregate state.heap address).elements.size ≤ place → allowed .missingElement state

theorem allowsComputed_of_isStatic {allowed : Fault → Prop}
    (computed : ∀ fault, fault.isStatic = false → allowed fault) :
    AllowsComputed fun fault _ => allowed fault where
  dynamic fault dynamic _ := by
    refine computed fault ?_
    cases fault <;> first | rfl | cases dynamic
  limit _ _ := computed _ rfl
  endless _ _ _ := computed _ rfl
  missing _ _ _ _ _ _ _ := computed _ rfl

def CallsRaise (allowed : Fault → State → Prop) (caller : Caller) : Prop :=
  ∀ name args, Raises allowed (caller name args)

theorem text_eq_error {heap : Heap} {value : Value} {fault : Fault}
    (failed : value.text heap = .error fault) : fault = .endless ∧ value.tree? heap = none := by
  unfold Value.text at failed
  split at failed
  · cases failed
  · rename_i absent
    cases failed
    exact ⟨rfl, absent⟩

section Operations

variable {allowed : Fault → State → Prop} (computed : AllowsComputed allowed)
include computed

theorem raises_tick (limit : Nat) : Raises allowed (tick limit) := by
  refine .bind (.of_modify _) fun _ => .of_get fun state fault after stopped => ?_
  split at stopped
  · cases stopped
    exact computed.limit limit state
  · cases stopped

/-- A value that is no number is written out for the report. -/
theorem raises_notInteger (value : Value) :
    Raises allowed (do
      let text ← liftFault (value.text (← get).heap)
      throw (.notInteger text) : Exec Int64) := by
  refine .of_get fun state fault after stopped => ?_
  cases written : value.text state.heap with
  | ok text =>
      rw [written] at stopped
      cases stopped
      exact computed.dynamic _ rfl state
  | error other =>
      rw [written] at stopped
      cases stopped
      obtain ⟨rfl, absent⟩ := text_eq_error written
      exact computed.endless state value absent

theorem raises_asInt (value : Value) : Raises allowed (asInt value) := by
  cases value with
  | int n => exact .of_pure n
  | code name => exact raises_notInteger computed _
  | aggregate address => exact raises_notInteger computed _

omit computed in
theorem raises_aggregateAt (address : Nat) : Raises allowed (aggregateAt address) := by
  intro state fault after stopped
  cases stopped

theorem raises_locate (function : String) (address : Nat) (indices : List Int64) :
    Raises allowed (locate function address indices) := by
  refine .of_get fun state fault after stopped => ?_
  cases found : elementIndex function (Heap.aggregate state.heap address) indices with
  | error other =>
      simp only [found] at stopped
      cases stopped
      rcases elementIndex_error found with ⟨_, _, rfl⟩ | ⟨_, _, rfl⟩
      · exact computed.dynamic _ rfl state
      · exact computed.dynamic _ rfl state
  | ok place =>
      simp only [found, liftFault, pure_bind] at stopped
      split at stopped
      · cases stopped
      · rename_i outside
        cases stopped
        exact computed.missing state function address indices place found (Nat.not_lt.mp outside)

theorem raises_newAggregate (dims : List Int64) : Raises allowed (newAggregate dims) := by
  unfold newAggregate
  split
  · exact .of_throw (computed.dynamic _ rfl)
  · intro state fault after stopped
    cases stopped

theorem raises_runBuiltin {function : String} {callee : Expr}
    (known : ∀ fault ∈ Expr.builtinFaults function true callee, ∀ state, allowed fault state)
    (args : List Value) : Raises allowed (runBuiltin function callee args) := by
  unfold runBuiltin
  cases named : callee.label?.bind Builtin.ofName? with
  | none =>
      refine .of_throw (known _ ?_)
      simp [Expr.builtinFaults, named]
  | some builtin =>
      cases builtin with
      | print =>
          refine .of_get fun state fault after stopped => ?_
          cases written : args.mapM (Value.text state.heap) with
          | ok texts =>
              simp only [written] at stopped
              cases stopped
          | error other =>
              simp only [written] at stopped
              cases stopped
              obtain ⟨value, -, failed⟩ := mapM_eq_error written
              obtain ⟨rfl, absent⟩ := text_eq_error failed
              exact computed.endless state value absent
      | input =>
          refine .of_get fun state fault after stopped => ?_
          cases left : state.input with
          | nil =>
              simp only [left] at stopped
              cases stopped
              exact computed.dynamic _ rfl state
          | cons n rest =>
              simp only [left] at stopped
              cases stopped
      | tensorError => exact .of_throw (computed.dynamic _ rfl)

end Operations

def raising {allowed : Fault → State → Prop} (computed : AllowsComputed allowed) :
    StepRelation where
  Rel x _ := Raises allowed x
  Allows fault := ∀ state, allowed fault state
  allows := computed.dynamic
  rel_pure := .of_pure
  rel_throw := .of_throw
  rel_bind := .bind
  rel_asInt := raises_asInt computed
  rel_aggregateAt := raises_aggregateAt
  rel_locate := raises_locate computed
  rel_newAggregate := raises_newAggregate computed
  rel_runBuiltin := raises_runBuiltin computed
  rel_writeAt _ _ _ := .of_modify _

theorem CallsRaise.rel {allowed : Fault → State → Prop} {caller : Caller}
    (calls : CallsRaise allowed caller) (computed : AllowsComputed allowed) :
    (raising computed).CallsRel caller caller :=
  calls

section Evaluation

variable {allowed : Fault → State → Prop} {caller : Caller} {f : Function} {frame : Frame}

theorem raises_jumpTo {target : Expr}
    (static : ∀ fault ∈ f.jumpFaults target, ∀ state, allowed fault state) :
    Raises allowed (jumpTo f target) := by
  unfold jumpTo
  cases found : target.label?.bind fun label => lastWithLabel label f.blocks 0 with
  | some block => exact .of_pure _
  | none => exact .of_throw (static _ (Function.mem_jumpFaults.mpr ⟨rfl, found⟩))

theorem raises_finish (computed : AllowsComputed allowed) (calls : CallsRaise allowed caller)
    (terminator : Terminator)
    (values : ∀ fault ∈ terminator.values.flatMap (Expr.faults f.name),
      ∀ state, allowed fault state)
    (jumps : ∀ fault ∈ terminator.jumps.flatMap f.jumpFaults, ∀ state, allowed fault state) :
    Raises allowed (finish caller f frame terminator) := by
  refine (raising computed).rel_finish_self (calls.rel computed) terminator
    (fun leaf _ => StepRelation.readAlike_self f frame leaf) values fun target jump => ?_
  exact raises_jumpTo fun fault member =>
    jumps fault (List.mem_flatMap.mpr ⟨target, jump, member⟩)

end Evaluation

theorem lastWithLabel_lt {label : String} {blocks : List Block} {position next : Nat}
    (found : lastWithLabel label blocks position = some next) :
    position ≤ next ∧ next < position + blocks.length := by
  obtain ⟨b, block, rfl, placed, -⟩ := label_of_lastWithLabel found
  have small := (List.getElem?_eq_some_iff.mp placed).1
  omega

theorem finish_enters {caller : Caller} {f : Function} {frame : Frame} {terminator : Terminator}
    {state after : State} {next : Nat}
    (finished : finish caller f frame terminator state = .ok (.enter next) after) :
    ∃ label, .label label ∈ terminator.jumps ∧ lastWithLabel label f.blocks 0 = some next := by
  cases terminator with
  | ret => cases finished
  | retValue value =>
      obtain ⟨_, _, -, finished⟩ := exec_bind_eq_ok.mp finished
      cases finished
  | jump target =>
      obtain ⟨-, label, _, rfl, last, same⟩ := jumpTo_eq_ok finished
      cases same
      exact ⟨label, List.mem_singleton_self _, last⟩
  | branch condition onTrue onFalse =>
      obtain ⟨_, _, -, finished⟩ := exec_bind_eq_ok.mp finished
      obtain ⟨_, _, -, finished⟩ := exec_bind_eq_ok.mp finished
      split at finished
      · obtain ⟨-, label, _, rfl, last, same⟩ := jumpTo_eq_ok finished
        cases same
        exact ⟨label, by simp [Terminator.jumps], last⟩
      · obtain ⟨-, label, _, rfl, last, same⟩ := jumpTo_eq_ok finished
        cases same
        exact ⟨label, by simp [Terminator.jumps], last⟩

section Runs

variable {allowed : Fault → State → Prop} (computed : AllowsComputed allowed) {program : Program}
  (static : ∀ name f, program.function? name = some f →
    ∀ fault ∈ f.faults, ∀ state, allowed fault state)
include computed

theorem raises_dispatch {enter : Function → Frame → Exec (Option Value)}
    (enters : ∀ name f frame, program.function? name = some f → Raises allowed (enter f frame)) :
    CallsRaise allowed (dispatch program enter) := by
  intro name args
  unfold dispatch
  cases found : program.function? name with
  | none => exact .of_throw (computed.dynamic _ rfl)
  | some f =>
      simp only
      split
      · exact enters name f _ found
      · exact .of_throw (computed.dynamic _ rfl)

include static

theorem raises_resume (limit fuel : Nat) {f : Function} (frame : Frame) {b : Nat} (i : Nat)
    (own : ∀ fault ∈ f.faults, ∀ state, allowed fault state)
    (inside : f.blocks[b]? = none → f.blocks = []) :
    Raises allowed (resume program limit fuel f frame b i) := by
  induction fuel generalizing f frame b i with
  | zero => exact .of_throw (computed.limit limit)
  | succ fuel ih =>
      have calls : CallsRaise allowed (callerWith program limit fuel) :=
        raises_dispatch computed fun name g entry called =>
          ih entry 0 (static name g called) (by simp)
      cases found : f.blocks[b]? with
      | none =>
          rw [resume_absent found]
          exact .of_throw (own _ (Function.noBlocks_mem_faults (inside found)))
      | some block =>
          have parts : ∀ fault ∈ block.faults f, ∀ state, allowed fault state := fun fault member =>
            own fault (Function.mem_faults_of_block (List.mem_of_getElem? found) member)
          rw [Block.faults, List.forall_mem_append, List.forall_mem_append] at parts
          cases here : block.instrs[i]? with
          | some instruction =>
              rw [resume_instruction found here]
              refine .bind (raises_tick computed limit) fun _ => ?_
              refine .bind ((raising computed).rel_execute (calls.rel computed) instruction ?_)
                fun frame => ?_
              · intro fault member
                exact parts.1 fault
                  (List.mem_flatMap.mpr ⟨instruction, List.mem_of_getElem? here, member⟩)
              · exact ih frame (i + 1) own inside
          | none =>
              rw [resume_terminator found here]
              refine .bind (raises_tick computed limit) fun _ => ?_
              refine .of_bind (raises_finish computed calls _ parts.2.1 parts.2.2) ?_
              intro state exit after finished
              cases exit with
              | leave value => exact .of_pure value
              | enter next =>
                  refine ih frame 0 own fun absent => ?_
                  obtain ⟨label, -, last⟩ := finish_enters finished
                  have bounds := lastWithLabel_lt last
                  rw [List.getElem?_eq_none_iff] at absent
                  omega

/-- A run stops with allowed faults if all static faults of the functions it calls are allowed. The
heap that it leaves is the one that the fault was met in. -/
theorem run_raises (limit : Nat) (heap : Heap) (input : List Int64) (entry : String)
    (args : List Value) {fault : Fault}
    (stopped : (run program limit heap input entry args).result = .error fault) :
    ∃ state, state.heap = (run program limit heap input entry args).heap ∧
      allowed fault state := by
  have raises : Raises allowed (callerWith program limit (limit + 1) entry args) :=
    raises_dispatch computed (fun name f frame called =>
      raises_resume computed static limit (limit + 1) frame 0 (static name f called) (by simp))
      entry args
  rw [run_eq_outcome, outcome] at stopped ⊢
  split at stopped
  · cases stopped
  · rename_i other state ran
    cases stopped
    exact ⟨state, rfl, raises _ _ _ ran⟩

end Runs

end Machine

end Regalloc
