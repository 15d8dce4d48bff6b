import Mathlib
import Regalloc.Proofs.DisturbedRun
import Regalloc.Proofs.LiveEquations

/-!
# Renamings that keep live variables apart

Variables may share a name as long as none is written where another is live. A function under such
a renaming does what it does under any other: at every point, a live variable that has a value in
one frame has it in the other too, and what else the frames hold does not matter. The same goes
for frames of which calls leave only the live part as it was.
-/

namespace Regalloc

@[simp] theorem Function.paramVars_mapVars (rename : Var → Var) (f : Function) :
    (f.mapVars rename).paramVars = f.paramVars.map rename := by
  simp [mapVars, paramVars]

@[simp] theorem Function.labels_mapVars (rename : Var → Var) (f : Function) :
    (f.mapVars rename).blocks.map Block.label = f.blocks.map Block.label := by
  simp [mapVars, Block.mapVars]

theorem Function.getElem?_blocks_mapVars (rename : Var → Var) (f : Function) (b : Nat) :
    (f.mapVars rename).blocks[b]? = f.blocks[b]?.map (Block.mapVars rename) := by
  simp [mapVars]

theorem Function.getElem?_mapVars (rename : Var → Var) {f : Function} {b : Nat} {block : Block}
    (found : f.blocks[b]? = some block) :
    (f.mapVars rename).blocks[b]? = some (block.mapVars rename) := by
  rw [getElem?_blocks_mapVars, found, Option.map_some]

theorem Block.getElem?_mapVars (rename : Var → Var) {block : Block} {i : Nat}
    {instruction : Instruction} (here : block.instrs[i]? = some instruction) :
    (block.mapVars rename).instrs[i]? = some (instruction.mapVars rename) := by
  rw [Block.mapVars, List.getElem?_map, here, Option.map_some]

namespace Flow

theorem resolve_eq_ok_iff_first {f : Function} {terminator : Terminator} {target : Expr} {b : Nat} :
    resolve f terminator target = .ok b ↔
      ∃ label, target.label? = some label ∧
        (f.blocks.map Block.label).findIdx? (· == label) = some b := by
  unfold resolve
  cases target.label? with
  | none => simp
  | some label =>
      simp only [Option.some.injEq, exists_eq_left', List.findIdx?_map, Function.comp_def]
      cases f.blocks.findIdx? fun block => block.label == label <;> simp

theorem resolve_mapVars (rename : Var → Var) {f f' : Function}
    (labels : f'.blocks.map Block.label = f.blocks.map Block.label)
    {terminator terminator' : Terminator} {target : Expr} {b : Nat} :
    resolve f' terminator' (target.mapVars rename) = .ok b ↔
      resolve f terminator target = .ok b := by
  rw [resolve_eq_ok_iff_first, resolve_eq_ok_iff_first, Machine.label?_mapVars, labels]

theorem targets_mapVars (rename : Var → Var) {f f' : Function}
    (labels : f'.blocks.map Block.label = f.blocks.map Block.label) {terminator : Terminator}
    {nexts : List Nat} :
    targets f' (terminator.mapVars rename) = .ok nexts ↔ targets f terminator = .ok nexts := by
  cases terminator with
  | ret => exact Iff.rfl
  | retValue value => exact Iff.rfl
  | jump target =>
      refine except_bind_eq_ok.trans (Iff.trans ?_ except_bind_eq_ok.symm)
      exact exists_congr fun b => and_congr_left fun _ => resolve_mapVars rename labels
  | branch condition onTrue onFalse =>
      have simple : (condition.mapVars rename).isSimple = condition.isSimple := by
        cases condition <;> simp [Expr.mapVars, Expr.isSimple]
      simp only [targets, Terminator.mapVars, simple]
      split
      · refine except_bind_eq_ok.trans (Iff.trans ?_ except_bind_eq_ok.symm)
        refine exists_congr fun first => and_congr (resolve_mapVars rename labels) ?_
        refine except_bind_eq_ok.trans (Iff.trans ?_ except_bind_eq_ok.symm)
        exact exists_congr fun second => and_congr_left fun _ => resolve_mapVars rename labels
      · simp only [reduceCtorEq]

end Flow

namespace Block

theorem points_of_instruction {block : Block} {i : Nat} {instruction : Instruction}
    (here : block.instrs[i]? = some instruction) :
    block.points[i]? = some instruction.defUse := by
  have small : i < block.instrs.length := (List.getElem?_eq_some_iff.mp here).1
  rw [points, List.getElem?_append_left (by simpa using small), List.getElem?_map, here]
  rfl

theorem points_of_terminator (block : Block) :
    block.points[block.instrs.length]? = some block.terminator.defUse := by
  simp [points]

theorem length_points (block : Block) : block.points.length = block.instrs.length + 1 := by
  simp [points]

end Block

namespace Machine

theorem get?_ofList_rename {rename : Var → Var} {v : Var} {pairs : List (Var × Value)}
    (apart : ∀ pair ∈ pairs, rename pair.1 = rename v → pair.1 = v) :
    (Bindings.ofList (pairs.map (Prod.map rename id))).get? (rename v) =
      (Bindings.ofList pairs).get? v := by
  have folded : ∀ (pairs : List (Var × Value)) (left right : Bindings Var Value),
      (∀ pair ∈ pairs, rename pair.1 = rename v → pair.1 = v) →
      left.get? (rename v) = right.get? v →
      ((pairs.map (Prod.map rename id)).foldl
          (fun bindings (key, value) => bindings.insert key value) left).get? (rename v) =
        (pairs.foldl (fun bindings (key, value) => bindings.insert key value) right).get? v := by
    intro pairs
    induction pairs with
    | nil => exact fun left right _ same => same
    | cons pair pairs ih =>
        intro left right apart same
        simp only [List.map_cons, List.foldl_cons]
        apply ih
        · exact fun pair member => apart pair (List.mem_cons_of_mem _ member)
        · simp only [Prod.map_fst, Prod.map_snd, id_eq, Bindings.get?_insert]
          by_cases here : pair.1 = v
          · simp [here]
          · have there : ¬rename v = rename pair.1 :=
              fun equal => here (apart pair (List.mem_cons_self ..) equal.symm)
            have back : ¬v = pair.1 := fun equal => here equal.symm
            simp [there, back, same]
  exact folded pairs {} {} apart rfl

/-- A renaming that gives a variable the name of no other variable that is live when it is
written. -/
structure Separates (f : Function) (flow : Flow) (rename : Var → Var) : Prop where
  written : ∀ b block i instruction, f.blocks[b]? = some block →
    block.instrs[i]? = some instruction → ∀ d ∈ instruction.defs,
      ∀ v ∈ (Liveness.solve f flow).liveOut b i, rename d = rename v → d = v
  entered : ∀ p ∈ f.paramVars, ∀ v ∈ (Liveness.solve f flow).blockIn 0, rename p = rename v → p = v

theorem separates_id (f : Function) (flow : Flow) : Separates f flow id where
  written _ _ _ _ _ _ _ _ _ _ same := same
  entered _ _ _ _ same := same

def Keeps (disturb : Disturbance) (v : Var) : Prop :=
  ∀ state frame, (disturb state frame).vars.get? v = frame.vars.get? v

structure Spares (f : Function) (flow : Flow) (rename : Var → Var) (disturb : Disturbance) :
    Prop where
  slots : ∀ state frame, (disturb state frame).slots = frame.slots
  live : ∀ (b : Nat) (block : Block) (i : Nat) (instruction : Instruction),
    f.blocks[b]? = some block →
    block.instrs[i]? = some instruction → instruction.isCall = true →
      ∀ v ∈ (Liveness.solve f flow).liveOut b i, v ∉ instruction.defs → Keeps disturb (rename v)

theorem spares_calm (f : Function) (flow : Flow) (rename : Var → Var) :
    Spares f flow rename calm where
  slots _ _ := rfl
  live _ _ _ _ _ _ _ _ _ _ _ _ := rfl

structure Agree (left right : Var → Var) (live : VarSet) (frame frame' : Frame) : Prop where
  vars : ∀ v ∈ live, ∀ x, frame.vars.get? (left v) = some x → frame'.vars.get? (right v) = some x
  slots : ∀ slot x, frame.slots.get? slot = some x → frame'.slots.get? slot = some x

theorem Agree.carried {left right : Var → Var} {live : VarSet} {frame frame' : Frame}
    (agree : Agree left right live frame frame') {leaf : Leaf}
    (alive : ∀ v, leaf = .var v → v ∈ live) : Carried left right frame frame' leaf := by
  cases leaf with
  | var v => exact agree.vars v (alive v rfl)
  | slot slot => exact agree.slots slot
  | _ => trivial

theorem Agree.mono {left right : Var → Var} {live smaller : VarSet} {frame frame' : Frame}
    (agree : Agree left right live frame frame') (fewer : ∀ v ∈ smaller, v ∈ live) :
    Agree left right smaller frame frame' :=
  ⟨fun v member => agree.vars v (fewer v member), agree.slots⟩

theorem get?_vars_after_of_live {f : Function} {flow : Flow} {rename : Var → Var}
    (separates : Separates f flow rename) {b i : Nat} {block : Block} {instruction : Instruction}
    (found : f.blocks[b]? = some block) (here : block.instrs[i]? = some instruction) {v : Var}
    (after : v ∈ (Liveness.solve f flow).liveOut b i) (frame : Frame) (value : Value) :
    (frame.after rename instruction value).vars.get? (rename v) =
      if v ∈ instruction.defs then some value else frame.vars.get? (rename v) := by
  rw [get?_vars_after]
  by_cases written : v ∈ instruction.defs
  · rw [if_pos written, if_pos (List.mem_map_of_mem written)]
  · have untouched : rename v ∉ instruction.defs.map rename := by
      intro touched
      obtain ⟨d, defined, same⟩ := List.mem_map.mp touched
      have equal := separates.written b block i instruction found here d defined v after same
      exact written (equal ▸ defined)
    rw [if_neg written, if_neg untouched]

theorem Agree.enter {f : Function} {flow : Flow} {left right : Var → Var}
    (separates : Separates f flow left) (separates' : Separates f flow right)
    (args : List Value) :
    Agree left right ((Liveness.solve f flow).blockIn 0) (Frame.enter (f.mapVars left) args)
      (Frame.enter (f.mapVars right) args) := by
  have bound : ∀ rename, Separates f flow rename → ∀ v ∈ (Liveness.solve f flow).blockIn 0,
      (Frame.enter (f.mapVars rename) args).vars.get? (rename v) =
        (Bindings.ofList (f.paramVars.zip args)).get? v := by
    intro rename separates v live
    have zipped : (f.mapVars rename).paramVars.zip args =
        (f.paramVars.zip args).map (Prod.map rename id) := by
      rw [Function.paramVars_mapVars, List.zip_map_left]
    simp only [Frame.enter, zipped]
    apply get?_ofList_rename
    intro pair member same
    exact separates.entered pair.1 (List.of_mem_zip member).1 v live same
  constructor
  · intro v live x held
    rw [bound left separates v live] at held
    rw [bound right separates' v live, held]
  · intro slot x held
    cases held

/-- A function under two renamings that keep its live variables apart, run with two disturbances.
What a call's own destination reads is kept by both, or the first run cannot go on. -/
structure Renamed (disturb disturb' : Disturbance) (f : Function) (flow : Flow)
    (left right : Var → Var) : Prop where
  distinct : (f.blocks.map Block.label).Nodup
  built : Flow.build f = .ok flow
  separates : Separates f flow left
  separates' : Separates f flow right
  spares : Spares f flow left disturb
  spares' : Spares f flow right disturb'
  late : ∀ (b : Nat) (block : Block) (i : Nat) (instruction : Instruction),
    f.blocks[b]? = some block →
    block.instrs[i]? = some instruction → instruction.isCall = true →
      (∀ v, Leaf.var v ∈ instruction.lateReads →
        Keeps disturb (left v) ∧ Keeps disturb' (right v)) ∨
      ∀ caller frame s next s', executeDisturbed disturb caller (f.mapVars left) frame
        (instruction.mapVars left) s ≠ .ok next s'

section Simulation

variable {disturb disturb' : Disturbance} {f : Function} {flow : Flow} {left right : Var → Var}

/-- A variable that is read after an instruction, and that the instruction does not write, has the
value that it had before. -/
theorem Spares.get?_returned {rename : Var → Var} (spares : Spares f flow rename disturb)
    {b i : Nat} {block : Block} {instruction : Instruction} (found : f.blocks[b]? = some block)
    (here : block.instrs[i]? = some instruction) {v : Var}
    (after : v ∈ (Liveness.solve f flow).liveOut b i) (unwritten : v ∉ instruction.defs)
    (frame : Frame) (state : State) :
    (frame.returned disturb instruction state).vars.get? (rename v) =
      frame.vars.get? (rename v) := by
  unfold Frame.returned
  split
  · exact spares.live b block i instruction found here ‹_› v after unwritten state frame
  · rfl

theorem Spares.slots_returned {rename : Var → Var} (spares : Spares f flow rename disturb)
    (frame : Frame) (instruction : Instruction) (state : State) :
    (frame.returned disturb instruction state).slots = frame.slots := by
  unfold Frame.returned
  split
  · exact spares.slots state frame
  · rfl

theorem Renamed.after (renamed : Renamed disturb disturb' f flow left right) {b i : Nat}
    {block : Block} {instruction : Instruction} (found : f.blocks[b]? = some block)
    (here : block.instrs[i]? = some instruction) {frame frame' : Frame}
    (agree : Agree left right ((Liveness.solve f flow).liveIn b i) frame frame')
    (value : Value) (state state' : State) :
    Agree left right ((Liveness.solve f flow).liveOut b i)
      ((frame.returned disturb instruction state).after left instruction value)
      ((frame'.returned disturb' instruction state').after right instruction value) := by
  have point := Block.points_of_instruction here
  constructor
  · intro v after x held
    rw [get?_vars_after_of_live renamed.separates found here after] at held
    rw [get?_vars_after_of_live renamed.separates' found here after]
    by_cases written : v ∈ instruction.defs
    · rw [if_pos written] at held ⊢
      exact held
    · rw [if_neg written, renamed.spares.get?_returned found here after written] at held
      rw [if_neg written, renamed.spares'.get?_returned found here after written]
      have live : v ∈ (Liveness.solve f flow).liveIn b i :=
        (Liveness.mem_liveIn renamed.built found point).mpr (Or.inl ⟨after, written⟩)
      exact agree.vars v live x held
  · intro slot x held
    rw [get?_slots_after, renamed.spares.slots_returned] at held
    rw [get?_slots_after, renamed.spares'.slots_returned]
    by_cases written : slot ∈ instruction.slotDefs
    · rw [if_pos written] at held ⊢
      exact held
    · rw [if_neg written] at held ⊢
      exact agree.slots slot x held

theorem Renamed.execute (renamed : Renamed disturb disturb' f flow left right)
    {caller caller' : Caller} (calls : CallsRefine Eq caller caller') {b i : Nat} {block : Block}
    {instruction : Instruction} (found : f.blocks[b]? = some block)
    (here : block.instrs[i]? = some instruction) {frame frame' : Frame}
    (agree : Agree left right ((Liveness.solve f flow).liveIn b i) frame frame') :
    Refines Eq (Agree left right ((Liveness.solve f flow).liveOut b i))
      (executeDisturbed disturb caller (f.mapVars left) frame (instruction.mapVars left))
      (executeDisturbed disturb' caller' (f.mapVars right) frame' (instruction.mapVars right)) := by
  have point := Block.points_of_instruction here
  have carried : ∀ leaf ∈ instruction.reads, Carried left right frame frame' leaf := by
    intro leaf read
    apply agree.carried
    rintro v rfl
    exact (Liveness.mem_liveIn renamed.built found point).mpr
      (Or.inr (Instruction.mem_uses.mpr read))
  have named : (f.mapVars right).name = (f.mapVars left).name := rfl
  by_cases stuck : instruction.isCall = true ∧ ∀ caller frame s next s', executeDisturbed disturb
      caller (f.mapVars left) frame (instruction.mapVars left) s ≠ .ok next s'
  -- The first run never gets past such an instruction, so nothing is asked of the second.
  · intro s t next s' alike ran
    exact absurd ran (stuck.2 caller frame s next s')
  refine (executeDisturbed_refines calls named instruction carried ?_).mono ?_
  · intro called leaf read state state'
    have early := carried leaf (instruction.lateReads_subset read)
    have kept := (renamed.late b block i instruction found here called).resolve_right
      fun fails => stuck ⟨called, fails⟩
    cases leaf with
    | var v =>
        intro x held
        rw [(kept v read).1 state frame] at held
        rw [(kept v read).2 state' frame']
        exact early x held
    | slot slot =>
        intro x held
        rw [renamed.spares.slots] at held
        rw [renamed.spares'.slots]
        exact early x held
    | _ => trivial
  · intro next next' ended
    obtain ⟨value, state, state', same, same'⟩ := ended
    rw [same, same']
    exact renamed.after found here agree value state state'

theorem Renamed.finish (renamed : Renamed disturb disturb' f flow left right)
    {caller caller' : Caller} (calls : CallsRefine Eq caller caller') {b : Nat} {block : Block}
    (found : f.blocks[b]? = some block) {frame frame' : Frame}
    (agree : Agree left right ((Liveness.solve f flow).liveIn b block.instrs.length) frame
      frame') :
    Refines Eq
      (fun exit exit' => exit' = exit ∧ ∀ next, exit = .enter next →
        Agree left right ((Liveness.solve f flow).blockIn next) frame frame')
      (finish caller (f.mapVars left) frame (block.terminator.mapVars left))
      (finish caller' (f.mapVars right) frame' (block.terminator.mapVars right)) := by
  have point := Block.points_of_terminator block
  have carried : ∀ leaf ∈ block.terminator.reads, Carried left right frame frame' leaf := by
    intro leaf read
    apply agree.carried
    rintro v rfl
    exact (Liveness.mem_liveIn renamed.built found point).mpr
      (Or.inr (Terminator.mem_uses.mpr read))
  have named : (f.mapVars right).name = (f.mapVars left).name := rfl
  have labels : (f.mapVars right).blocks.map Block.label =
      (f.mapVars left).blocks.map Block.label := by simp
  intro s t exit s' alike ran
  obtain ⟨exit', t', ran', rfl, alike'⟩ :=
    finish_refines calls named labels block.terminator carried s t exit s' alike ran
  refine ⟨exit, t', ran', ⟨rfl, ?_⟩, alike'⟩
  rintro next rfl
  have successor : next ∈ flow.successorsOf b :=
    finish_targets (by simpa using renamed.distinct)
      ((Flow.targets_mapVars left (Function.labels_mapVars left f)).mpr
        (Flow.targets_successorsOf renamed.built found)) ran
  apply agree.mono
  intro v live
  exact (Liveness.mem_liveIn renamed.built found point).mpr
    (Or.inl ⟨Liveness.blockIn_subset_liveOut renamed.built found successor live,
      List.not_mem_nil⟩)

end Simulation

def RenamedPair (disturb disturb' : Disturbance) (g g' : Function) : Prop :=
  ∃ f flow left right, Renamed disturb disturb' f flow left right ∧ g = f.mapVars left ∧
    g' = f.mapVars right

section Runs

variable {disturb disturb' : Disturbance} {program program' : Program}

def Simulated (disturb disturb' : Disturbance) (program program' : Program) (limit fuel : Nat) :
    Prop :=
  ∀ {f : Function} {flow : Flow} {left right : Var → Var},
    Renamed disturb disturb' f flow left right →
    ∀ {frame frame' : Frame} {b i : Nat} {block : Block}, f.blocks[b]? = some block →
      i ≤ block.instrs.length →
        Agree left right ((Liveness.solve f flow).liveIn b i) frame frame' →
          Refines Eq Eq ((disturbed disturb limit).resume program fuel (f.mapVars left) frame b i)
            ((disturbed disturb' limit).resume program' fuel (f.mapVars right) frame' b i)

section Simulated

variable {limit fuel : Nat} (simulated : Simulated disturb disturb' program program' limit fuel)
  {f : Function} {flow : Flow} {left right : Var → Var}
  (renamed : Renamed disturb disturb' f flow left right) {frame frame' : Frame} {b i : Nat}

include simulated renamed

theorem Simulated.enter
    (agree : Agree left right ((Liveness.solve f flow).blockIn b) frame frame') :
    Refines Eq Eq ((disturbed disturb limit).resume program fuel (f.mapVars left) frame b 0)
      ((disturbed disturb' limit).resume program' fuel (f.mapVars right) frame' b 0) := by
  cases found : f.blocks[b]? with
  | none =>
      have absent : (f.mapVars left).blocks[b]? = none := by
        rw [Function.getElem?_blocks_mapVars, found, Option.map_none]
      obtain ⟨fault, thrown⟩ : ∃ fault, (disturbed disturb limit).resume program fuel
          (f.mapVars left) frame b 0 = throw fault :=
        Course.resume_stops (fun _ _ _ _ => ⟨_, rfl⟩) absent
      rw [thrown]
      exact .of_throw
  | some block =>
      apply simulated renamed found (Nat.zero_le _)
      rw [← Liveness.blockIn_eq_liveIn]
      exact agree

theorem Simulated.instruction
    (calls : CallsRefine Eq ((disturbed disturb limit).caller program fuel)
      ((disturbed disturb' limit).caller program' fuel))
    {block : Block} {instruction : Instruction} (found : f.blocks[b]? = some block)
    (here : block.instrs[i]? = some instruction)
    (agree : Agree left right ((Liveness.solve f flow).liveIn b i) frame frame') :
    Refines Eq Eq ((disturbed disturb limit).resume program (fuel + 1) (f.mapVars left) frame b i)
      ((disturbed disturb' limit).resume program' (fuel + 1) (f.mapVars right) frame' b i) := by
  have inside : i < block.instrs.length := (List.getElem?_eq_some_iff.mp here).1
  rw [Course.resume_instruction (Function.getElem?_mapVars left found)
      (Block.getElem?_mapVars left here),
    Course.resume_instruction (Function.getElem?_mapVars right found)
      (Block.getElem?_mapVars right here)]
  refine .of_bind (tick_refines (Nat.le_refl limit)) fun _ _ _ => ?_
  refine .of_bind (renamed.execute calls found here agree) fun next next' agree => ?_
  apply simulated renamed found inside
  rw [← Liveness.liveOut_eq_liveIn renamed.built found (by rw [Block.length_points]; omega)]
  exact agree

theorem Simulated.terminator
    (calls : CallsRefine Eq ((disturbed disturb limit).caller program fuel)
      ((disturbed disturb' limit).caller program' fuel))
    {block : Block} (found : f.blocks[b]? = some block)
    (agree : Agree left right ((Liveness.solve f flow).liveIn b block.instrs.length) frame
      frame') :
    Refines Eq Eq
      ((disturbed disturb limit).resume program (fuel + 1) (f.mapVars left) frame b
        block.instrs.length)
      ((disturbed disturb' limit).resume program' (fuel + 1) (f.mapVars right) frame' b
        block.instrs.length) := by
  rw [Course.resume_terminator (Function.getElem?_mapVars left found) (by simp [Block.mapVars]),
    Course.resume_terminator (Function.getElem?_mapVars right found) (by simp [Block.mapVars])]
  refine .of_bind (tick_refines (Nat.le_refl limit)) fun _ _ _ => ?_
  refine .of_bind (renamed.finish calls found agree) fun exit exit' ended => ?_
  obtain ⟨rfl, agrees⟩ := ended
  cases exit' with
  | leave value => exact .of_pure rfl
  | enter next => exact simulated.enter renamed (agrees next rfl)

end Simulated

theorem Simulated.calls {limit fuel : Nat}
    (simulated : Simulated disturb disturb' program program' limit fuel)
    (paired : List.Forall₂ (RenamedPair disturb disturb') program.functions program'.functions) :
    CallsRefine Eq ((disturbed disturb limit).caller program fuel)
      ((disturbed disturb' limit).caller program' fuel) := by
  apply dispatch_refines paired
  · rintro _ _ ⟨f, flow, left, right, renamed, rfl, rfl⟩
    rfl
  · rintro _ _ ⟨f, flow, left, right, renamed, rfl, rfl⟩
    simp [Function.mapVars]
  · rintro _ _ args ⟨f, flow, left, right, renamed, rfl, rfl⟩ -
    exact simulated.enter renamed (Agree.enter renamed.separates renamed.separates' args)

theorem simulated_of_forall₂
    (paired : List.Forall₂ (RenamedPair disturb disturb') program.functions program'.functions)
    (limit fuel : Nat) : Simulated disturb disturb' program program' limit fuel := by
  induction fuel with
  | zero =>
      intro f flow left right renamed frame frame' b i block found within agree
      exact .of_throw
  | succ fuel ih =>
      intro f flow left right renamed frame frame' b i block found within agree
      have calls := Simulated.calls ih paired
      cases here : block.instrs[i]? with
      | some instruction => exact Simulated.instruction ih renamed calls found here agree
      | none =>
          have last : i = block.instrs.length :=
            Nat.le_antisymm within (List.getElem?_eq_none_iff.mp here)
          subst last
          exact Simulated.terminator ih renamed calls found agree

/-- A program that returns under one renaming returns the same under the other, whatever calls do
to what is not read again. -/
theorem runDisturbed_renamed
    (paired : List.Forall₂ (RenamedPair disturb disturb') program.functions program'.functions)
    {limit : Nat} {heap : Heap} {input : List Int64} {entry : String} {args : List Value}
    {execution : Execution}
    (returned : (runDisturbed disturb program limit heap input entry args).result = .ok execution) :
    runDisturbed disturb' program' limit heap input entry args =
      runDisturbed disturb program limit heap input entry args := by
  have simulated : Simulated disturb disturb' program program' limit (limit + 1) :=
    simulated_of_forall₂ paired limit (limit + 1)
  exact outcome_of_refines (Simulated.calls simulated paired entry args) returned

end Runs

end Machine

end Regalloc
