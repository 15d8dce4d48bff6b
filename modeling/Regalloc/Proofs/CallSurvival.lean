import Mathlib
import Regalloc.Proofs.RegisterAssignment

/-!
# What calls overwrite

Calls overwrite registers of their callers. Nothing that a later point reads is in such a register,
but the base or an offset of the destination of a call may be: an element that the result is
written to is looked up after the call has returned.
-/

namespace Regalloc

/-- No variable that a point after a call reads has a register that the call overwrites. -/
def Allocation.KeepsLive (target : Target) (a : Allocation) : Prop :=
  ∃ flow, Flow.build a.function = .ok flow ∧
    ∀ b block i instruction, a.function.blocks[b]? = some block →
      block.instrs[i]? = some instruction → instruction.isCall = true →
      ∀ v ∈ (Liveness.solve a.function flow).liveOut b i, v ∉ instruction.defs →
        ∃ r ∈ target.allocatable, a.coloring.color v = some r ∧ r ∉ target.clobbered

def Allocation.KeepsPlaces (target : Target) (a : Allocation) : Prop :=
  ∀ block ∈ a.function.blocks, ∀ instruction ∈ block.instrs, instruction.isCall = true →
    ∀ v ∈ instruction.lateReads.filterMap Leaf.var?, ∀ r ∈ a.coloring.color v,
      r ∉ target.clobbered

instance (target : Target) (a : Allocation) : Decidable (a.KeepsPlaces target) :=
  inferInstanceAs (Decidable (∀ block ∈ a.function.blocks, ∀ instruction ∈ block.instrs,
    instruction.isCall = true → ∀ v ∈ instruction.lateReads.filterMap Leaf.var?,
      ∀ r ∈ a.coloring.color v, r ∉ target.clobbered))

namespace Machine

section Overwriting

variable (target : Target) (canonical : Register → Var)

def overwritten : List Var :=
  target.clobbered.map canonical

def clobber (garbage : State → Register → Value) : Disturbance :=
  fun state frame => { frame with
    vars := target.clobbered.foldl
      (fun vars r => vars.insert (canonical r) (garbage state r)) frame.vars }

/-- Calls leave no values in the registers that they overwrite, so that to read one is a fault. -/
def forget : Disturbance :=
  fun _ frame => { frame with
    vars := ⟨frame.vars.entries.filter fun entry => entry.1 ∉ overwritten target canonical⟩ }

structure Overwrites (disturb : Disturbance) : Prop where
  slots : ∀ state frame, (disturb state frame).slots = frame.slots
  others : ∀ v, v ∉ overwritten target canonical → Keeps disturb v

/-- A disturbance after which the overwritten registers hold nothing that could be the base or an
offset of an element. -/
def Disables (disturb : Disturbance) : Prop :=
  ∀ v ∈ overwritten target canonical, ∀ state frame x,
    (disturb state frame).vars.get? v = some x → ∃ name, x = .code name

end Overwriting

section Clobbering

variable {target : Target} {canonical : Register → Var}

theorem get?_foldl_insert (registers : List Register) (garbage : Register → Value)
    (vars : Bindings Var Value) (v : Var) :
    (v ∉ registers.map canonical →
      (registers.foldl (fun vars r => vars.insert (canonical r) (garbage r)) vars).get? v =
        vars.get? v) ∧
    (v ∈ registers.map canonical → ∃ r,
      (registers.foldl (fun vars r => vars.insert (canonical r) (garbage r)) vars).get? v =
        some (garbage r)) := by
  induction registers using List.reverseRecOn with
  | nil => exact ⟨fun _ => rfl, fun member => absurd member List.not_mem_nil⟩
  | append_singleton registers last ih =>
      rw [List.foldl_append, List.foldl_cons, List.foldl_nil, Bindings.get?_insert, List.map_append,
        List.mem_append, List.map_singleton, List.mem_singleton]
      by_cases same : v = canonical last
      · rw [if_pos same]
        exact ⟨fun absent => absurd (Or.inr same) absent, fun _ => ⟨last, rfl⟩⟩
      · rw [if_neg same]
        refine ⟨fun absent => ih.1 fun member => absent (Or.inl member), ?_⟩
        exact fun member => ih.2 (member.resolve_right same)

theorem get?_filter (entries : List (Var × Value)) (keep : Var → Bool) (v : Var) :
    (⟨entries.filter fun entry => keep entry.1⟩ : Bindings Var Value).get? v =
      if keep v then (⟨entries⟩ : Bindings Var Value).get? v else none := by
  simp only [Bindings.get?]
  induction entries with
  | nil => simp
  | cons entry entries ih =>
      rcases entry with ⟨key, value⟩
      by_cases same : v = key
      · subst same
        by_cases kept : keep v = true <;> simp [kept, ih]
      · have differs : (v == key) = false := by simpa using same
        by_cases kept : keep key = true <;> simp [List.lookup_cons, differs, kept, ih]

theorem overwrites_clobber (garbage : State → Register → Value) :
    Overwrites target canonical (clobber target canonical garbage) where
  slots _ _ := rfl
  others v absent state frame := (get?_foldl_insert _ (garbage state) frame.vars v).1 absent

theorem overwrites_forget : Overwrites target canonical (forget target canonical) where
  slots _ _ := rfl
  others v absent state frame := by
    show (Bindings.mk _).get? v = _
    rw [get?_filter frame.vars.entries (fun v => v ∉ overwritten target canonical) v,
      if_pos (decide_eq_true absent)]

theorem overwrites_calm : Overwrites target canonical calm where
  slots _ _ := rfl
  others _ _ _ _ := rfl

theorem disables_forget : Disables target canonical (forget target canonical) := by
  intro v member state frame x held
  change (Bindings.mk _).get? v = _ at held
  rw [get?_filter frame.vars.entries (fun v => v ∉ overwritten target canonical) v,
    if_neg (by simpa using member)] at held
  cases held

/-- The name of a function is neither an array nor a number. -/
theorem disables_clobber (name : String) :
    Disables target canonical (clobber target canonical fun _ _ => .code name) := by
  intro v member state frame x held
  obtain ⟨r, found⟩ :=
    (get?_foldl_insert target.clobbered (fun _ => .code name) frame.vars v).2 member
  exact ⟨name, Option.some.inj (held.symm.trans found)⟩

end Clobbering

section Stuck

variable {caller : Caller} {f : Function} {frame : Frame} {v : Var}
  (disabled : ∀ x, frame.vars.get? v = some x → ∃ name, x = .code name)

include disabled

theorem eval_disabled {expr : Expr} (atom : expr.isAtom = true) (member : .var v ∈ expr.leaves)
    {s s' : State} {x : Value} (ran : eval caller f frame expr s = .ok x s') :
    ∃ name, x = .code name := by
  cases expr with
  | var w =>
      rw [Expr.leaves, List.mem_singleton, Leaf.var.injEq] at member
      subst member
      simp only [eval] at ran
      cases held : frame.vars.get? v with
      | none =>
          rw [held] at ran
          cases ran
      | some y =>
          rw [held] at ran
          cases ran
          exact disabled x held
  | const n => simp [Expr.leaves] at member
  | label name => simp [Expr.leaves] at member
  | _ => cases atom

theorem evalEach_disabled {exprs : List Expr} (atoms : exprs.all Expr.isAtom = true)
    (member : .var v ∈ Expr.leavesOfAll exprs) {s s' : State} {indices : List Int64} :
    evalEach caller f frame asInt exprs s ≠ .ok indices s' := by
  induction exprs generalizing s s' indices with
  | nil => simp [Expr.leavesOfAll] at member
  | cons first rest ih =>
      intro ran
      rw [List.all_cons, Bool.and_eq_true] at atoms
      rw [evalEach] at ran
      obtain ⟨x, _, evaluated, ran⟩ := exec_bind_eq_ok.mp ran
      obtain ⟨n, _, converted, ran⟩ := exec_bind_eq_ok.mp ran
      obtain ⟨others, _, later, -⟩ := exec_bind_eq_ok.mp ran
      rcases List.mem_append.mp member with here | there
      · obtain ⟨name, rfl⟩ := eval_disabled disabled atoms.1 here evaluated
        cases converted
      · exact ih atoms.2 there later

theorem assign_disabled {target : Expr} (flat : target.flat = true)
    (member : .var v ∈ target.placeReads) {value : Value} {s s' : State} {next : Frame} :
    assign caller f frame target value s ≠ .ok next s' := by
  intro ran
  cases target with
  | var w => cases member
  | slot slot => cases member
  | access base offsets =>
      rw [Expr.flat, Bool.and_eq_true] at flat
      obtain ⟨x, _, evaluated, ran⟩ := exec_bind_eq_ok.mp ran
      obtain ⟨address, _, converted, ran⟩ := exec_bind_eq_ok.mp ran
      obtain ⟨indices, _, each, -⟩ := exec_bind_eq_ok.mp ran
      rcases List.mem_append.mp member with here | there
      · obtain ⟨name, rfl⟩ := eval_disabled disabled flat.1 here evaluated
        cases converted
      · exact evalEach_disabled disabled flat.2 there each
  | _ => cases ran

end Stuck

theorem executeDisturbed_stuck {target : Target} {canonical : Register → Var}
    {disturb : Disturbance} (disables : Disables target canonical disturb)
    {instruction : Instruction} (called : instruction.isCall = true)
    (flat : ∀ expr ∈ instruction.exprs, expr.flat = true) {rename : Var → Var} {v : Var}
    (member : .var v ∈ instruction.lateReads)
    (lost : rename v ∈ overwritten target canonical) (caller : Caller) (f : Function)
    (frame : Frame) (s : State) (next : Frame) (s' : State) :
    executeDisturbed disturb caller f frame (instruction.mapVars rename) s ≠ .ok next s' := by
  intro ran
  cases instruction with
  | declare ty w => cases member
  | call builtin callee args => cases member
  | assign target source =>
      obtain ⟨value, _, -, ran⟩ := exec_bind_eq_ok.mp ran
      obtain ⟨state, _, -, ran⟩ := exec_bind_eq_ok.mp ran
      have from_call : source.isCall = true := called
      rw [isCall_mapVars, if_pos from_call] at ran
      refine assign_disabled (disables (rename v) lost state frame) ?_ ?_ ran
      · rw [Expr.flat_mapVars]
        exact flat target (List.mem_cons_self ..)
      · rw [Expr.placeReads_mapVars]
        exact List.mem_map_of_mem member

section Registers

variable {target : Target} {canonical : Register → Var} {a : Allocation} {flow : Flow}
  {disturb disturb' : Disturbance}

theorem registerVar_mem_overwritten (injective : Function.Injective canonical) {v : Var}
    {r : Register} (colored : a.coloring.color v = some r) :
    a.coloring.registerVar canonical v ∈ overwritten target canonical ↔ r ∈ target.clobbered := by
  rw [Coloring.registerVar, colored, Option.elim_some, overwritten,
    List.mem_map_of_injective injective]

theorem spares_registerVar (injective : Function.Injective canonical)
    (sound : (Interference.build a.function (Liveness.solve a.function flow) target).ColoredBy
      target a.coloring)
    (overwrites : Overwrites target canonical disturb) :
    Spares a.function flow (a.coloring.registerVar canonical) disturb where
  slots := overwrites.slots
  live := by
    intro b block i instruction found here called v after unwritten
    obtain ⟨r, -, colored, kept⟩ :=
      sound.survives found (Block.points_of_instruction here) called after unwritten
    apply overwrites.others
    rw [registerVar_mem_overwritten injective colored]
    exact kept

theorem renamed_registerVar (injective : Function.Injective canonical)
    (readable : a.function.Readable) (built : Flow.build a.function = .ok flow)
    (sound : (Interference.build a.function (Liveness.solve a.function flow) target).ColoredBy
      target a.coloring)
    (overwrites : Overwrites target canonical disturb)
    (overwrites' : Overwrites target canonical disturb')
    (safe : Disables target canonical disturb ∨ a.KeepsPlaces target) :
    Renamed disturb disturb' a.function flow (a.coloring.registerVar canonical)
      (a.coloring.registerVar canonical) where
  distinct := readable.distinct
  built := built
  separates := separates_registerVar sound injective.injOn
  separates' := separates_registerVar sound injective.injOn
  spares := spares_registerVar injective sound overwrites
  spares' := spares_registerVar injective sound overwrites'
  late := by
    -- Later points are safe by the coloring, which does not know that destinations are read late.
    intro b block i instruction found here called
    by_cases kept : ∀ v, .var v ∈ instruction.lateReads →
        a.coloring.registerVar canonical v ∉ overwritten target canonical
    · left
      intro v member
      exact ⟨overwrites.others _ (kept v member), overwrites'.others _ (kept v member)⟩
    · right
      push Not at kept
      obtain ⟨v, member, lost⟩ := kept
      have disables : Disables target canonical disturb := by
        refine safe.resolve_right fun keeps => ?_
        have used : v ∈ instruction.uses :=
          Instruction.mem_uses.mpr (instruction.lateReads_subset member)
        obtain ⟨r, -, colored⟩ := sound.colored v
          (Interference.node_of_point found (Block.points_of_instruction here) (Or.inr used))
        have listed : v ∈ instruction.lateReads.filterMap Leaf.var? :=
          List.mem_filterMap.mpr ⟨.var v, member, rfl⟩
        exact keeps block (List.mem_of_getElem? found) instruction (List.mem_of_getElem? here)
          called v listed r colored ((registerVar_mem_overwritten injective colored).mp lost)
      have flat : ∀ expr ∈ instruction.exprs, expr.flat = true := fun expr part =>
        ((readable.blocks block (List.mem_of_getElem? found)).instrs instruction
          (List.mem_of_getElem? here) expr part).flat
      exact fun caller => executeDisturbed_stuck disables called flat member lost caller _

end Registers

/-- A run on registers that returns although overwritten registers are disabled, or in which none
of them is read, returns the same whatever is left in them. -/
theorem runDisturbed_overwritten {text : String} {program : Program} {config : Allocation.Config}
    {allocations : List Allocation} (parsed : Source.parseProgram text = .ok program)
    (allocated : program.functions.mapM (fun f => (allocate config f).result) = .ok allocations)
    {canonical : Register → Var} (injective : Function.Injective canonical)
    {disturb disturb' : Disturbance} (overwrites : Overwrites config.target canonical disturb)
    (overwrites' : Overwrites config.target canonical disturb')
    (safe : Disables config.target canonical disturb ∨
      ∀ a ∈ allocations, a.KeepsPlaces config.target)
    {limit : Nat} {heap : Heap} {input : List Int64} {entry : String} {args : List Value}
    {execution : Execution}
    (returned : (runDisturbed disturb ⟨allocations.map (Allocation.onRegisters canonical)⟩ limit
      heap input entry args).result = .ok execution) :
    runDisturbed disturb' ⟨allocations.map (Allocation.onRegisters canonical)⟩ limit heap input
        entry args =
      runDisturbed disturb ⟨allocations.map (Allocation.onRegisters canonical)⟩ limit heap input
        entry args := by
  refine runDisturbed_renamed ?_ returned
  rw [List.forall₂_same]
  intro g member
  obtain ⟨a, listed, rfl⟩ := List.mem_map.mp member
  obtain ⟨readable, flow, built, sound⟩ := settled_of_allocations parsed allocated listed
  have renamed := renamed_registerVar injective readable built sound overwrites overwrites'
    (safe.imp_right fun keeps => keeps a listed)
  exact ⟨a.function, flow, _, _, renamed, rfl, rfl⟩

end Machine

/-- What is read after a call is safe from it, the destination of the call apart. A run on
registers returns the same whatever calls leave in the registers that they overwrite, exactly if it
returns when they leave nothing there, as it does if no call finds its destination through one. -/
theorem run_clobbered_iff {text : String} {program : Program} {config : Allocation.Config}
    {allocations : List Allocation} (parsed : Source.parseProgram text = .ok program)
    (allocated : program.functions.mapM (fun f => (allocate config f).result) = .ok allocations)
    {canonical : Register → Var} (injective : Function.Injective canonical) :
    (∀ a ∈ allocations, a.KeepsLive config.target) ∧
    ∀ limit heap input entry args execution,
      (Machine.run ⟨allocations.map (Allocation.onRegisters canonical)⟩ limit heap input entry
        args).result = .ok execution →
      ((∀ garbage, ∃ execution',
          (Machine.runDisturbed (Machine.clobber config.target canonical garbage)
            ⟨allocations.map (Allocation.onRegisters canonical)⟩ limit heap input entry
            args).result = .ok execution' ∧
          execution'.value = execution.value ∧ execution'.output = execution.output) ↔
        ∃ execution',
          (Machine.runDisturbed (Machine.forget config.target canonical)
            ⟨allocations.map (Allocation.onRegisters canonical)⟩ limit heap input entry
            args).result = .ok execution') ∧
      ((∀ a ∈ allocations, a.KeepsPlaces config.target) → ∀ garbage,
        Machine.runDisturbed (Machine.clobber config.target canonical garbage)
            ⟨allocations.map (Allocation.onRegisters canonical)⟩ limit heap input entry args =
          Machine.run ⟨allocations.map (Allocation.onRegisters canonical)⟩ limit heap input entry
            args) := by
  constructor
  · intro a member
    obtain ⟨-, flow, built, sound⟩ := settled_of_allocations parsed allocated member
    refine ⟨flow, built, ?_⟩
    intro b block i instruction found here called v after unwritten
    exact sound.survives found (Block.points_of_instruction here) called after unwritten
  intro limit heap input entry args execution returned
  rw [← Machine.runDisturbed_calm] at returned ⊢
  refine ⟨⟨?_, ?_⟩, ?_⟩
  · intro survives
    -- The name of a function is as good as no value: no destination can be found with it.
    obtain ⟨execution', returned', -⟩ := survives fun _ _ => .code ""
    refine ⟨execution', ?_⟩
    rw [Machine.runDisturbed_overwritten parsed allocated injective
      (Machine.overwrites_clobber _) Machine.overwrites_forget
      (Or.inl (Machine.disables_clobber "")) returned']
    exact returned'
  · intro forgotten garbage
    obtain ⟨execution', returned'⟩ := forgotten
    have calm := Machine.runDisturbed_overwritten parsed allocated injective
      Machine.overwrites_forget Machine.overwrites_calm (Or.inl Machine.disables_forget) returned'
    rw [calm, returned'] at returned
    cases returned
    refine ⟨execution, ?_, rfl, rfl⟩
    rw [Machine.runDisturbed_overwritten parsed allocated injective
      Machine.overwrites_forget (Machine.overwrites_clobber garbage)
      (Or.inl Machine.disables_forget) returned']
    exact returned'
  · intro keeps garbage
    exact Machine.runDisturbed_overwritten parsed allocated injective Machine.overwrites_calm
      (Machine.overwrites_clobber garbage) (Or.inr keeps) returned

/-- The array is read again after the call, so it is in a register that calls leave alone. -/
theorem run_clobbered_iff_read_again :
    ∃ program allocations,
      Source.parseProgram
        ("define void @m() \x7b\n:e\n%a <- new Array(1)\n%a[0] <- call @g()\n%b <- %a[0]\n" ++
          "call print(%b)\nreturn\n\x7d\ndefine int64 @g() \x7b\n:e\nreturn 7\n\x7d") =
          .ok program ∧
      program.functions.mapM (fun f => (allocate {} f).result) = .ok allocations ∧
      (∀ a ∈ allocations, a.KeepsPlaces .full) ∧
      (Machine.run ⟨allocations.map (Allocation.onRegisters Register.asVar)⟩ 6 #[] [] "@m"
        []).result = .ok ⟨none, ["7"], 6⟩ ∧
      ∀ garbage, (Machine.runDisturbed (Machine.clobber .full Register.asVar garbage)
        ⟨allocations.map (Allocation.onRegisters Register.asVar)⟩ 6 #[] [] "@m" []).result =
          .ok ⟨none, ["7"], 6⟩ := by
  have ran :
      ((Source.parseProgram
        ("define void @m() \x7b\n:e\n%a <- new Array(1)\n%a[0] <- call @g()\n%b <- %a[0]\n" ++
          "call print(%b)\nreturn\n\x7d\ndefine int64 @g() \x7b\n:e\nreturn 7\n\x7d")).toOption.bind
        fun program => (program.functions.mapM
          fun f => (allocate {} f).result).toOption.bind
        fun allocations => (Machine.run
          ⟨allocations.map (Allocation.onRegisters Register.asVar)⟩ 6 #[] [] "@m"
          []).result.toOption.map fun execution =>
            (decide (∀ a ∈ allocations, a.KeepsPlaces .full), execution)) =
      some (true, ⟨none, ["7"], 6⟩) := by
    decide +kernel
  simp only [Option.bind_eq_some_iff, Option.map_eq_some_iff, toOption_eq_some,
    Prod.mk.injEq, decide_eq_true_eq] at ran
  obtain ⟨program, parsed, allocations, allocated, execution, returned, keeps, rfl⟩ := ran
  refine ⟨program, allocations, parsed, allocated, keeps, returned, ?_⟩
  intro garbage
  have survives := run_clobbered_iff parsed allocated Register.asVar_injective
  rw [(survives.2 6 #[] [] "@m" [] _ returned).2 keeps garbage]
  exact returned

/-- The array and the offset are not read again after the call, so nothing keeps them out of the
registers that the call overwrites, and the result cannot be written. -/
theorem run_clobbered_lost_destination :
    ∃ program allocations,
      Source.parseProgram
        ("define void @main() \x7b\n:e\n%a <- new Array(1)\n%i <- 0\n%a[%i] <- call @g()\n" ++
          "return\n\x7d\ndefine int64 @g() \x7b\n:e\nreturn 7\n\x7d") =
          .ok program ∧
      program.functions.mapM (fun f => (allocate {} f).result) = .ok allocations ∧
      (Machine.run ⟨allocations.map (Allocation.onRegisters Register.asVar)⟩ 5 #[] [] "@main"
        []).result = .ok ⟨none, [], 5⟩ ∧
      ∃ garbage, (Machine.runDisturbed (Machine.clobber .full Register.asVar garbage)
        ⟨allocations.map (Allocation.onRegisters Register.asVar)⟩ 5 #[] [] "@main" []).result =
          .error (.indexOfNonArray "@main") := by
  have ran :
      ((Source.parseProgram
        ("define void @main() \x7b\n:e\n%a <- new Array(1)\n%i <- 0\n%a[%i] <- call @g()\n" ++
          "return\n\x7d\ndefine int64 @g() \x7b\n:e\nreturn 7\n\x7d")).toOption.bind
        fun program => (program.functions.mapM
          fun f => (allocate {} f).result).toOption.bind
        fun allocations => (Machine.run
          ⟨allocations.map (Allocation.onRegisters Register.asVar)⟩ 5 #[] [] "@main"
          []).result.toOption.map fun execution =>
            (execution, (Machine.runDisturbed
              (Machine.clobber .full Register.asVar fun _ _ => .int 0)
              ⟨allocations.map (Allocation.onRegisters Register.asVar)⟩ 5 #[] [] "@main"
              []).result)) =
      some (⟨none, [], 5⟩, .error (.indexOfNonArray "@main")) := by
    decide +kernel
  simp only [Option.bind_eq_some_iff, Option.map_eq_some_iff, toOption_eq_some,
    Prod.mk.injEq] at ran
  obtain ⟨program, parsed, allocations, allocated, execution, returned, rfl, failed⟩ := ran
  exact ⟨program, allocations, parsed, allocated, returned, _, failed⟩

end Regalloc
