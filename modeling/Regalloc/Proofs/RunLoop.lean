import Mathlib
import Regalloc.Machine.Run

/-!
# The loop over the points of a call

A call is carried out point by point. What is done at each point can be varied: what happens when
it is reached, how an instruction is executed, how a block is left, and what is done when the fuel
is spent. The machine is one such course among others, which disturb, observe, watch or continue
what it does.
-/

namespace Regalloc.Machine

def Exit.follow (enter : Nat → Exec (Option Value)) : Exit → Exec (Option Value)
  | .leave value => return value
  | .enter next => enter next

structure Course where
  /-- At every point, before anything else. -/
  arrive : Exec Unit
  execute : Caller → Function → Frame → Instruction → Exec Frame
  finish : Caller → Function → Frame → (block : Nat) → Terminator → Exec Exit
  /-- When there is no fuel for a point. -/
  spent : Function → Frame → (block point : Nat) → Exec (Option Value)

namespace Course

def resume (course : Course) (program : Program) :
    (fuel : Nat) → Function → Frame → (block point : Nat) → Exec (Option Value)
  | 0, f, frame, b, i => course.spent f frame b i
  | fuel + 1, f, frame, b, i =>
    let caller := dispatch program fun g entry => course.resume program fuel g entry 0 0
    match f.blocks[b]? with
    | none => throw (.noBlocks f.name)
    | some block => do
      course.arrive
      match block.instrs[i]? with
      | some instruction =>
        let frame ← course.execute caller f frame instruction
        course.resume program fuel f frame b (i + 1)
      | none =>
        let exit ← course.finish caller f frame b block.terminator
        exit.follow fun next => course.resume program fuel f frame next 0

def caller (course : Course) (program : Program) (fuel : Nat) : Caller :=
  dispatch program fun f frame => course.resume program fuel f frame 0 0

section Steps

variable {course : Course} {program : Program} {fuel : Nat} {f : Function} {frame : Frame}
  {b i : Nat} {block : Block}

theorem resume_absent (absent : f.blocks[b]? = none) :
    course.resume program (fuel + 1) f frame b i = throw (.noBlocks f.name) := by
  simp only [resume, absent]

theorem resume_instruction {instruction : Instruction} (found : f.blocks[b]? = some block)
    (here : block.instrs[i]? = some instruction) :
    course.resume program (fuel + 1) f frame b i = (do
      course.arrive
      let frame ← course.execute (course.caller program fuel) f frame instruction
      course.resume program fuel f frame b (i + 1)) := by
  simp only [resume, found, here]
  rfl

theorem resume_terminator (found : f.blocks[b]? = some block) (last : block.instrs[i]? = none) :
    course.resume program (fuel + 1) f frame b i = (do
      course.arrive
      let exit ← course.finish (course.caller program fuel) f frame b block.terminator
      exit.follow fun next => course.resume program fuel f frame next 0) := by
  simp only [resume, found, last]
  rfl

theorem resume_stops (spent : ∀ f frame b i, ∃ fault, course.spent f frame b i = throw fault)
    (absent : f.blocks[b]? = none) :
    ∃ fault, course.resume program fuel f frame b i = throw fault := by
  cases fuel with
  | zero => exact spent f frame b i
  | succ fuel => exact ⟨_, resume_absent absent⟩

end Steps

theorem resume_congr {course course' : Course} (arrive : course.arrive = course'.arrive)
    (execute : course.execute = course'.execute)
    (finish : ∀ (f : Function) (b : Nat) (block : Block), f.blocks[b]? = some block →
      ∀ caller frame, course.finish caller f frame b block.terminator =
        course'.finish caller f frame b block.terminator)
    (spent : course.spent = course'.spent) (program : Program) (fuel : Nat) :
    course.resume program fuel = course'.resume program fuel := by
  induction fuel with
  | zero =>
      funext f frame b i
      simp only [resume, spent]
  | succ fuel ih =>
      funext f frame b i
      have callers : course.caller program fuel = course'.caller program fuel := by
        simp only [caller, ih]
      cases found : f.blocks[b]? with
      | none => rw [resume_absent found, resume_absent found]
      | some block =>
          cases here : block.instrs[i]? with
          | some instruction =>
              rw [resume_instruction found here, resume_instruction found here, callers, arrive,
                execute, ih]
          | none =>
              rw [resume_terminator found here, resume_terminator found here, callers, arrive,
                finish f b block found, ih]

/-- The course up to where the fuel is spent, and then something else. -/
def thereafter (course : Course)
    (spent : Function → Frame → (block point : Nat) → Exec (Option Value)) : Course :=
  { course with spent := spent }

/-- More fuel is what can be done when some fuel is spent. -/
theorem resume_thereafter (course : Course) (program : Program) (more fuel : Nat) :
    (course.thereafter (course.resume program more)).resume program fuel =
      course.resume program (more + fuel) := by
  induction fuel with
  | zero => rfl
  | succ fuel ih =>
      funext f frame b i
      have callers : (course.thereafter (course.resume program more)).caller program fuel =
          course.caller program (more + fuel) := by
        simp only [caller, ih]
      rw [← Nat.add_assoc]
      cases found : f.blocks[b]? with
      | none => rw [resume_absent found, resume_absent found]
      | some block =>
          cases here : block.instrs[i]? with
          | some instruction =>
              rw [resume_instruction found here, resume_instruction found here, callers, ih]
              rfl
          | none =>
              rw [resume_terminator found here, resume_terminator found here, callers, ih]
              rfl

end Course

def plain (limit : Nat) : Course where
  arrive := tick limit
  execute := execute
  finish caller f frame _ terminator := finish caller f frame terminator
  spent _ _ _ _ := throw (.cycleLimit limit)

theorem plain_resume (program : Program) (limit fuel : Nat) :
    (plain limit).resume program fuel = resume program limit fuel := by
  induction fuel with
  | zero => rfl
  | succ fuel ih =>
      funext f frame b i
      simp only [Course.resume, resume, ih]
      cases f.blocks[b]? with
      | none => rfl
      | some block =>
          refine bind_congr fun _ => ?_
          cases block.instrs[i]? with
          | some instruction => rfl
          | none =>
              refine bind_congr fun exit => ?_
              cases exit with
              | leave value => rfl
              | enter next => rfl

def callerWith (program : Program) (limit fuel : Nat) : Caller :=
  dispatch program fun f frame => resume program limit fuel f frame 0 0

theorem plain_caller (program : Program) (limit fuel : Nat) :
    (plain limit).caller program fuel = callerWith program limit fuel := by
  simp only [Course.caller, callerWith, plain_resume]

section Machine

variable {program : Program} {limit fuel : Nat} {f : Function} {frame : Frame} {b i : Nat}
  {block : Block}

theorem resume_absent (absent : f.blocks[b]? = none) :
    resume program limit (fuel + 1) f frame b i = throw (.noBlocks f.name) := by
  rw [← plain_resume, Course.resume_absent absent]

theorem resume_stops (absent : f.blocks[b]? = none) :
    ∃ fault, resume program limit fuel f frame b i = throw fault := by
  rw [← plain_resume]
  exact Course.resume_stops (fun _ _ _ _ => ⟨_, rfl⟩) absent

theorem resume_instruction {instruction : Instruction} (found : f.blocks[b]? = some block)
    (here : block.instrs[i]? = some instruction) :
    resume program limit (fuel + 1) f frame b i = (do
      tick limit
      let frame ← execute (callerWith program limit fuel) f frame instruction
      resume program limit fuel f frame b (i + 1)) := by
  rw [← plain_resume, Course.resume_instruction found here, plain_caller, plain_resume]
  rfl

theorem resume_terminator (found : f.blocks[b]? = some block) (last : block.instrs[i]? = none) :
    resume program limit (fuel + 1) f frame b i = (do
      tick limit
      let exit ← finish (callerWith program limit fuel) f frame block.terminator
      exit.follow fun next => resume program limit fuel f frame next 0) := by
  rw [← plain_resume, Course.resume_terminator found last, plain_caller, plain_resume]
  rfl

end Machine

def outcome (entry : String) (x : Exec (Option Value)) (heap : Heap) (input : List Int64) :
    Outcome :=
  match x.run { heap := heap, input := input } with
  | .ok value state =>
    ⟨.ok ⟨value, state.output.toList, state.cycles⟩, state.heap, [.returned entry state.cycles]⟩
  | .error fault state => ⟨.error fault, state.heap, []⟩

/-- Runs a program on a course of its own. -/
def Course.run (course : Course) (program : Program) (fuel : Nat) (heap : Heap)
    (input : List Int64) (entry : String) (args : List Value) : Outcome :=
  outcome entry (course.caller program fuel entry args) heap input

theorem run_eq_outcome (program : Program) (limit : Nat) (heap : Heap) (input : List Int64)
    (entry : String) (args : List Value) :
    run program limit heap input entry args =
      outcome entry (callerWith program limit (limit + 1) entry args) heap input :=
  rfl

theorem plain_run (program : Program) (limit : Nat) (heap : Heap) (input : List Int64)
    (entry : String) (args : List Value) :
    (plain limit).run program (limit + 1) heap input entry args =
      run program limit heap input entry args := by
  rw [Course.run, plain_caller, run_eq_outcome]

end Regalloc.Machine
