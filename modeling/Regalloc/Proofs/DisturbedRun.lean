import Mathlib
import Regalloc.Proofs.Refinement

/-!
# Runs in which calls disturb their caller

A machine may lose part of a frame while a function called from it is at work. Such a run does
what an undisturbed run does if nothing is lost that is read after a call returned.
-/

namespace Regalloc

def Instruction.lateReads : Instruction → List Leaf
  | .assign target _ => target.placeReads
  | _ => []

theorem Instruction.lateReads_subset (instruction : Instruction) :
    instruction.lateReads ⊆ instruction.reads := by
  intro leaf read
  cases instruction with
  | assign target source => exact List.mem_append_right _ read
  | declare ty v => cases read
  | call builtin callee args => cases read

namespace Machine

/-- What happens to a frame when a call made from it returns in some state. Every call returns in
a cycle of its own, so the state tells calls apart. -/
abbrev Disturbance := State → Frame → Frame

/-- Executes an instruction; a call disturbs the frame when it returns, before anything is
written. -/
def executeDisturbed (disturb : Disturbance) (caller : Caller) (f : Function) (frame : Frame) :
    Instruction → Exec Frame
  | .declare _ v => return { frame with vars := frame.vars.insert v (.int 0) }
  | .call builtin callee args => do
    let values ← evalEach caller f frame pure args
    let _ ← runCall caller f.name builtin callee (eval caller f frame callee) values
    return disturb (← get) frame
  | .assign target source => do
    let value ← eval caller f frame source
    let state ← get
    assign caller f (if source.isCall then disturb state frame else frame) target value

def disturbed (disturb : Disturbance) (limit : Nat) : Course :=
  { plain limit with execute := executeDisturbed disturb }

def runDisturbed (disturb : Disturbance) (program : Program) (limit : Nat) (heap : Heap)
    (input : List Int64) (entry : String) (args : List Value) : Outcome :=
  (disturbed disturb limit).run program (limit + 1) heap input entry args

theorem outcome_of_refines {x y : Exec (Option Value)} (refines : Refines Eq Eq x y)
    {entry : String} {heap : Heap} {input : List Int64} {execution : Execution}
    (returned : (outcome entry x heap input).result = .ok execution) :
    outcome entry y heap input = outcome entry x heap input := by
  unfold outcome at returned ⊢
  cases ran : x.run { heap := heap, input := input } with
  | error fault state =>
      rw [ran] at returned
      cases returned
  | ok value state =>
      obtain ⟨_, state', ran', rfl, alike⟩ :=
        refines _ _ value state ⟨rfl, rfl, rfl, rfl⟩ ran
      have again : y.run { heap := heap, input := input } = .ok value state' := ran'
      rw [again]
      simp only [alike.output, alike.heap, ← alike.cycles]

def calm : Disturbance := fun _ frame => frame

theorem executeDisturbed_calm (caller : Caller) (f : Function) (frame : Frame)
    (instruction : Instruction) :
    executeDisturbed calm caller f frame instruction = execute caller f frame instruction := by
  cases instruction with
  | declare ty v => rfl
  | call builtin callee args => rfl
  | assign target source =>
      simp only [executeDisturbed, execute, calm, ite_self]
      rfl

theorem disturbed_calm (limit : Nat) : disturbed calm limit = plain limit := by
  have same : executeDisturbed calm = execute := by
    funext caller f frame instruction
    exact executeDisturbed_calm caller f frame instruction
  rw [disturbed, same, plain]

theorem runDisturbed_calm (program : Program) (limit : Nat) (heap : Heap) (input : List Int64)
    (entry : String) (args : List Value) :
    runDisturbed calm program limit heap input entry args =
      run program limit heap input entry args := by
  rw [runDisturbed, disturbed_calm, plain_run]

section Refinement

variable {related : Nat → Nat → Prop} {caller caller' : Caller} {f f' : Function}
  {frame frame' : Frame} {rename rename' : Var → Var} {disturb disturb' : Disturbance}

def Frame.returned (disturb : Disturbance) (frame : Frame) (instruction : Instruction)
    (state : State) : Frame :=
  if instruction.isCall then disturb state frame else frame

theorem executeDisturbed_call (disturb : Disturbance) (caller : Caller) (f : Function)
    (frame : Frame) (builtin : Bool) (callee : Expr) (args : List Expr) :
    executeDisturbed disturb caller f frame (.call builtin callee args) = (do
      let _ ← effect caller f frame (.call builtin callee args)
      return disturb (← get) frame) := by
  simp only [executeDisturbed, effect, bind_assoc, pure_bind]

theorem executeDisturbed_refines (calls : CallsRefine related caller caller')
    (named : f'.name = f.name) (instruction : Instruction)
    (carried : ∀ leaf ∈ instruction.reads, Carried rename rename' frame frame' leaf)
    (late : instruction.isCall = true → ∀ leaf ∈ instruction.lateReads, ∀ state state',
      Carried rename rename' (disturb state frame) (disturb' state' frame') leaf) :
    Refines related
      (fun a b => ∃ value state state',
        a = (frame.returned disturb instruction state).after rename instruction value ∧
        b = (frame'.returned disturb' instruction state').after rename' instruction value)
      (executeDisturbed disturb caller f frame (instruction.mapVars rename))
      (executeDisturbed disturb' caller' f' frame' (instruction.mapVars rename')) := by
  cases instruction with
  | declare ty v => exact .of_pure ⟨.int 0, {}, {}, rfl, rfl⟩
  | call builtin callee args =>
      have called := effect_refines calls named (.call builtin callee args) carried
      simp only [Instruction.mapVars] at called ⊢
      rw [executeDisturbed_call, executeDisturbed_call]
      refine .of_bind called ?_
      rintro result _ rfl s t a s' alike ran
      cases ran
      exact ⟨disturb' t frame', t, rfl, ⟨.int 0, s, t, rfl, rfl⟩, alike⟩
  | assign target source =>
      simp only [Instruction.reads, List.mem_append] at carried
      simp only [Instruction.isCall, Instruction.lateReads] at late
      simp only [Instruction.mapVars, executeDisturbed, Frame.returned, Instruction.isCall,
        isCall_mapVars]
      refine .of_bind (eval_refines calls named source fun leaf here => carried leaf (.inl here)) ?_
      rintro value _ rfl s t a s' alike ran
      obtain ⟨_, _, same, ran⟩ := exec_bind_eq_ok.mp ran
      cases same
      have place : ∀ leaf ∈ target.placeReads, Carried rename rename'
          (if source.isCall then disturb s frame else frame)
          (if source.isCall then disturb' t frame' else frame') leaf := by
        intro leaf here
        split
        · exact late ‹_› leaf here s t
        · exact carried leaf (.inr here)
      obtain ⟨b, t', ran', written, alike⟩ :=
        assign_refines calls named target place value s t a s' alike ran
      exact ⟨b, t', exec_bind_eq_ok.mpr ⟨t, t, rfl, ran'⟩, ⟨value, s, t, written⟩, alike⟩

theorem execute_refines (calls : CallsRefine related caller caller') (named : f'.name = f.name)
    (instruction : Instruction)
    (carried : ∀ leaf ∈ instruction.reads, Carried rename rename' frame frame' leaf) :
    Refines related
      (fun a b => ∃ value, a = frame.after rename instruction value ∧
        b = frame'.after rename' instruction value)
      (execute caller f frame (instruction.mapVars rename))
      (execute caller' f' frame' (instruction.mapVars rename')) := by
  rw [← executeDisturbed_calm caller, ← executeDisturbed_calm caller']
  refine (executeDisturbed_refines calls named instruction carried ?_).mono ?_
  · intro _ leaf read state state'
    exact carried leaf (instruction.lateReads_subset read)
  · rintro a b ⟨value, state, state', left, right⟩
    simp only [Frame.returned, calm, ite_self] at left right
    exact ⟨value, left, right⟩

end Refinement

end Machine

end Regalloc
