import Mathlib
import Regalloc.Proofs.LiveRenaming
import Regalloc.Proofs.ReadablePrograms

/-!
# Dead variables

What an instruction does and the value that it writes depend on the leaves that are read, and on
nothing else in the frame. So frames that agree on what is live at a point go on from there alike,
whether they come to an end or to a fault.
-/

namespace Regalloc.Machine

def SameLeaf (frame frame' : Frame) : Leaf → Prop
  | .var v => frame.vars.get? v = frame'.vars.get? v
  | .slot slot => frame.slots.get? slot = frame'.slots.get? slot
  | _ => True

def equality : StepRelation where
  Rel x y := x = y
  Allows _ := True
  allows _ _ := trivial
  rel_pure _ := rfl
  rel_throw _ := rfl
  rel_bind first next := first ▸ bind_congr next
  rel_asInt _ := rfl
  rel_aggregateAt _ := rfl
  rel_locate _ _ _ := rfl
  rel_newAggregate _ := rfl
  rel_runBuiltin _ _ := rfl
  rel_writeAt _ _ _ := rfl

section Evaluation

variable (caller : Caller) (f : Function) {frame frame' : Frame}

theorem readAlike_of_sameLeaf {leaf : Leaf} (same : SameLeaf frame frame' leaf) :
    equality.ReadAlike f f frame frame' id id leaf := by
  cases leaf with
  | var v =>
      have held : frame.vars.get? v = frame'.vars.get? v := same
      simp only [StepRelation.ReadAlike, readVar, id, held]
      rfl
  | slot slot =>
      have held : frame.slots.get? slot = frame'.slots.get? slot := same
      simp only [StepRelation.ReadAlike, readSlot, held]
      rfl
  | _ => trivial

theorem effect_congr {instruction : Instruction}
    (same : ∀ leaf ∈ instruction.reads, SameLeaf frame frame' leaf) :
    effect caller f frame instruction = effect caller f frame' instruction :=
  equality.rel_effect_self (fun _ _ => rfl) instruction
    (fun leaf here => readAlike_of_sameLeaf f (same leaf here)) fun _ _ => trivial

theorem finish_congr {terminator : Terminator}
    (same : ∀ leaf ∈ terminator.reads, SameLeaf frame frame' leaf) :
    finish caller f frame terminator = finish caller f frame' terminator :=
  equality.rel_finish_self (fun _ _ => rfl) terminator
    (fun leaf here => readAlike_of_sameLeaf f (same leaf here)) (fun _ _ => trivial)
    fun _ _ => rfl

end Evaluation

/-- Frames with the same slots in which every variable of a set has the same value, or none in
either. -/
structure SameOn (live : VarSet) (frame frame' : Frame) : Prop where
  vars : ∀ v ∈ live, frame.vars.get? v = frame'.vars.get? v
  slots : ∀ slot, frame.slots.get? slot = frame'.slots.get? slot

theorem SameOn.mono {live smaller : VarSet} {frame frame' : Frame}
    (same : SameOn live frame frame') (fewer : ∀ v ∈ smaller, v ∈ live) :
    SameOn smaller frame frame' :=
  ⟨fun v member => same.vars v (fewer v member), same.slots⟩

theorem SameOn.sameLeaf {live : VarSet} {frame frame' : Frame}
    (same : SameOn live frame frame') {leaf : Leaf} (alive : ∀ v, leaf = .var v → v ∈ live) :
    SameLeaf frame frame' leaf := by
  cases leaf with
  | var v => exact same.vars v (alive v rfl)
  | slot slot => exact same.slots slot
  | _ => trivial

section Points

variable {f : Function} {flow : Flow} (built : Flow.build f = .ok flow) {b i : Nat}
  {block : Block} (found : f.blocks[b]? = some block) {frame frame' : Frame}

include built found

theorem SameOn.reads {instruction : Instruction} (here : block.instrs[i]? = some instruction)
    (same : SameOn ((Liveness.solve f flow).liveIn b i) frame frame') :
    ∀ leaf ∈ instruction.reads, SameLeaf frame frame' leaf := by
  intro leaf read
  apply same.sameLeaf
  intro v named
  subst named
  exact (Liveness.mem_liveIn built found (Block.points_of_instruction here)).mpr
    (Or.inr (Instruction.mem_uses.mpr read))

/-- What is written is the same, and what is live afterwards and not written was live before. -/
theorem SameOn.after {instruction : Instruction} (here : block.instrs[i]? = some instruction)
    (same : SameOn ((Liveness.solve f flow).liveIn b i) frame frame') (value : Value) :
    SameOn ((Liveness.solve f flow).liveOut b i) (frame.after id instruction value)
      (frame'.after id instruction value) := by
  constructor
  · intro v after
    rw [get?_vars_after, get?_vars_after, List.map_id]
    by_cases written : v ∈ instruction.defs
    · rw [if_pos written, if_pos written]
    · rw [if_neg written, if_neg written]
      apply same.vars
      exact (Liveness.mem_liveIn built found (Block.points_of_instruction here)).mpr
        (Or.inl ⟨after, written⟩)
  · intro slot
    rw [get?_slots_after, get?_slots_after, same.slots]

theorem SameOn.finish (same : SameOn ((Liveness.solve f flow).liveIn b block.instrs.length)
    frame frame') (caller : Caller) :
    finish caller f frame block.terminator = finish caller f frame' block.terminator := by
  apply finish_congr
  intro leaf read
  apply same.sameLeaf
  intro v named
  subst named
  exact (Liveness.mem_liveIn built found (Block.points_of_terminator block)).mpr
    (Or.inr (Terminator.mem_uses.mpr read))

theorem SameOn.jump (same : SameOn ((Liveness.solve f flow).liveIn b block.instrs.length)
    frame frame') {next : Nat} (successor : next ∈ flow.successorsOf b) :
    SameOn ((Liveness.solve f flow).blockIn next) frame frame' := by
  apply same.mono
  intro v live
  exact (Liveness.mem_liveIn built found (Block.points_of_terminator block)).mpr
    (Or.inl ⟨Liveness.blockIn_subset_liveOut built found successor live, List.not_mem_nil⟩)

end Points

theorem resume_congr {program : Program} {limit : Nat} {f : Function} {flow : Flow}
    (distinct : (f.blocks.map Block.label).Nodup) (built : Flow.build f = .ok flow) (fuel : Nat)
    {b i : Nat} {block : Block} (found : f.blocks[b]? = some block)
    (inside : i ≤ block.instrs.length) {frame frame' : Frame}
    (same : SameOn ((Liveness.solve f flow).liveIn b i) frame frame') :
    resume program limit fuel f frame b i = resume program limit fuel f frame' b i := by
  induction fuel generalizing b i block frame frame' with
  | zero => rfl
  | succ fuel ih =>
      cases here : block.instrs[i]? with
      | some instruction =>
          have small : i < block.instrs.length := (List.getElem?_eq_some_iff.mp here).1
          rw [resume_instruction found here, resume_instruction found here]
          simp only [execute_eq_effect, bind_assoc, pure_bind,
            effect_congr _ f (same.reads built found here)]
          refine bind_congr fun _ => bind_congr fun value => ?_
          have later := same.after built found here value
          rw [Liveness.liveOut_eq_liveIn built found
            (by rw [Block.length_points]; omega)] at later
          exact ih found small later
      | none =>
          have last : i = block.instrs.length :=
            Nat.le_antisymm inside (List.getElem?_eq_none_iff.mp here)
          subst last
          rw [resume_terminator found here, resume_terminator found here,
            same.finish built found]
          refine bind_congr fun _ => bind_congr_of_ok fun s exit s' finished => ?_
          cases exit with
          | leave value => rfl
          | enter next =>
              have successor : next ∈ flow.successorsOf b :=
                finish_targets distinct (Flow.targets_successorsOf built found) finished
              have entered := same.jump built found successor
              cases found' : f.blocks[next]? with
              | none =>
                  cases fuel with
                  | zero => rfl
                  | succ fuel => simp only [Exit.follow, resume, found']
              | some block' =>
                  rw [Liveness.blockIn_eq_liveIn] at entered
                  exact ih found' (Nat.zero_le _) entered

/-- Dead variables cannot influence an execution: from a point of a function of a program that was
read, two frames that differ in dead variables only go on to the same end, be it a value or a
fault, with the same heap, input, output and cycles. -/
theorem resume_eq_of_sameOn_liveIn {text : String} {program : Program} {f : Function} {flow : Flow}
    (read : Source.parseProgram text = .ok program) (member : f ∈ program.functions)
    (built : Flow.build f = .ok flow) {b i : Nat} {block : Block}
    (found : f.blocks[b]? = some block) (inside : i ≤ block.instrs.length)
    {frame frame' : Frame}
    (same : SameOn ((Liveness.solve f flow).liveIn b i) frame frame') (limit fuel : Nat)
    (state : State) :
    (resume program limit fuel f frame b i).run state =
      (resume program limit fuel f frame' b i).run state := by
  have readable := Source.readable_of_parseProgram read f member
  rw [resume_congr readable.distinct built fuel found inside same]

/-- In a loop that overwrites `%t` before it reads it, a frame in which `%t` holds a function goes
on like one in which it holds nothing. -/
theorem resume_eq_of_sameOn_liveIn_overwritten :
    ∃ program f flow,
      Source.parseProgram
        ("define int64 @m(int64 %n) \x7b\n:s\nbr :l\n:l\n%t <- %n\n%n <- %n - 1\n" ++
          "br %n :l :e\n:e\nreturn %t\n\x7d") = .ok program ∧
      program.functions = [f] ∧ Flow.build f = .ok flow ∧
      (Liveness.solve f flow).liveIn 1 0 = .ofList [⟨0⟩] ∧
      ∀ n limit fuel state,
        (resume program limit fuel f ⟨.ofList [(⟨0⟩, n)], {}⟩ 1 0).run state =
          (resume program limit fuel f ⟨.ofList [(⟨1⟩, .code "@g"), (⟨0⟩, n)], {}⟩ 1 0).run
            state := by
  have ran :
      ((Source.parseProgram
        ("define int64 @m(int64 %n) \x7b\n:s\nbr :l\n:l\n%t <- %n\n%n <- %n - 1\n" ++
          "br %n :l :e\n:e\nreturn %t\n\x7d")).toOption.bind
        fun program => program.functions.head?.bind fun f => (Flow.build f).toOption.map
          fun flow => (decide (program.functions = [f]), (Liveness.solve f flow).liveIn 1 0,
            f.blocks.map fun block => block.instrs.length)) =
      some (true, .ofList [⟨0⟩], [0, 2, 0]) := by
    decide +kernel
  simp only [Option.bind_eq_some_iff, Option.map_eq_some_iff, toOption_eq_some,
    Prod.mk.injEq, decide_eq_true_eq] at ran
  obtain ⟨program, read, f, -, flow, built, single, live, lengths⟩ := ran
  refine ⟨program, f, flow, read, single, built, live, ?_⟩
  intro n limit fuel state
  have member : f ∈ program.functions := by
    rw [single]
    exact List.mem_singleton_self f
  have small : 1 < f.blocks.length := by
    have counted := congrArg List.length lengths
    rw [List.length_map] at counted
    rw [counted]
    decide
  apply resume_eq_of_sameOn_liveIn read member built (List.getElem?_eq_getElem small)
    (Nat.zero_le _)
  rw [live]
  constructor
  · intro v alive
    rw [IndexSet.mem_ofList, List.mem_singleton] at alive
    subst alive
    rfl
  · exact fun slot => rfl

end Regalloc.Machine
