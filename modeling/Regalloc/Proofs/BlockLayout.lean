import Mathlib
import Regalloc.Proofs.EnoughRegisters
import Regalloc.Proofs.ObservedJumps

/-!
# The order of blocks

Jumps name their targets, so the order in which blocks are listed after the first does not show in
what is found out about a function. The live sets are the least solution of equations between
labelled blocks, whatever the order of the passes; the interference graph is determined by what it
mentions, whatever the order of the mentions; and candidates for removal are looked through by the
index of the variable.
-/

namespace Regalloc

/-- Functions that differ only in the order of the blocks after the first. -/
structure Function.Relaid (f g : Function) : Prop where
  name : g.name = f.name
  ret : g.ret = f.ret
  params : g.params = f.params
  vars : g.vars = f.vars
  first : g.blocks.head? = f.blocks.head?
  others : g.blocks.tail.Perm f.blocks.tail

namespace Function.Relaid

variable {f g : Function} (relaid : f.Relaid g)
include relaid

theorem symm : g.Relaid f where
  name := relaid.name.symm
  ret := relaid.ret.symm
  params := relaid.params.symm
  vars := relaid.vars.symm
  first := relaid.first.symm
  others := relaid.others.symm

theorem perm : g.blocks.Perm f.blocks := by
  obtain ⟨-, -, -, -, first, others⟩ := relaid
  cases left : f.blocks with
  | nil =>
      rw [left, List.head?_nil, List.head?_eq_none_iff] at first
      rw [first]
  | cons block rest =>
      rw [left, List.head?_cons] at first
      obtain ⟨rest', right⟩ := List.head?_eq_some_iff.mp first
      rw [left, right] at others
      rw [right]
      exact others.cons block

theorem distinct (labels : (f.blocks.map Block.label).Nodup) :
    (g.blocks.map Block.label).Nodup :=
  (relaid.perm.map Block.label).nodup_iff.mpr labels

theorem place {b : Nat} {block : Block} (found : f.blocks[b]? = some block) :
    ∃ c : Nat, g.blocks[c]? = some block :=
  List.getElem?_of_mem (relaid.perm.mem_iff.mpr (List.mem_of_getElem? found))

theorem paramVars : g.paramVars = f.paramVars := by
  rw [Function.paramVars, Function.paramVars, relaid.params]

theorem count_mentions (v : Var) : g.mentions.count v = f.mentions.count v := by
  have blocks := relaid.perm.flatMap_right fun block =>
    block.points.flatMap fun point => point.defs ++ point.uses
  rw [Function.mentions, Function.mentions, relaid.paramVars, List.count_append,
    List.count_append, blocks.count_eq]

theorem nextFreeSlot : g.nextFreeSlot = f.nextFreeSlot := by
  have slots : g.slots.Perm f.slots := relaid.perm.flatMap_right _
  refine eq_of_forall_ge_iff fun bound => ?_
  simp only [Function.nextFreeSlot_le_iff, slots.mem_iff]

end Function.Relaid

/-- Where labels are distinct, a label stands for one block only. -/
theorem place_unique {blocks : List Block} (labels : (blocks.map Block.label).Nodup) {b c : Nat}
    {block block' : Block} (found : blocks[b]? = some block) (found' : blocks[c]? = some block')
    (same : block'.label = block.label) : c = b := by
  have inside : c < (blocks.map Block.label).length := by
    rw [List.length_map]
    exact (List.getElem?_eq_some_iff.mp found').1
  apply (List.getElem?_inj inside labels).mp
  rw [List.getElem?_map, List.getElem?_map, found, found', Option.map_some, Option.map_some, same]

namespace Flow

theorem mem_targets_iff {f : Function} {terminator : Terminator} {nexts : List Nat}
    (targeted : targets f terminator = .ok nexts) {next : Nat} :
    next ∈ nexts ↔ ∃ target ∈ terminator.jumps, resolve f terminator target = .ok next := by
  cases terminator with
  | ret =>
      cases targeted
      simp [Terminator.jumps]
  | retValue value =>
      cases targeted
      simp [Terminator.jumps]
  | jump target =>
      obtain ⟨b, resolved, listed⟩ := except_bind_eq_ok.mp targeted
      cases listed
      simp [Terminator.jumps, resolved, eq_comm]
  | branch condition onTrue onFalse =>
      simp only [targets] at targeted
      split at targeted
      · obtain ⟨first, resolved, targeted⟩ := except_bind_eq_ok.mp targeted
        obtain ⟨second, resolved', listed⟩ := except_bind_eq_ok.mp targeted
        cases listed
        simp [Terminator.jumps, resolved, resolved', eq_comm]
      · cases targeted

theorem findIdx?_label_iff {blocks : List Block} (labels : (blocks.map Block.label).Nodup)
    {label : String} {b : Nat} :
    (blocks.findIdx? fun block => block.label == label) = some b ↔
      ∃ block, blocks[b]? = some block ∧ block.label = label := by
  rw [List.findIdx?_eq_some_iff_getElem]
  constructor
  · rintro ⟨small, same, -⟩
    exact ⟨_, List.getElem?_eq_getElem small, beq_iff_eq.mp same⟩
  · rintro ⟨block, found, same⟩
    obtain ⟨small, here⟩ := List.getElem?_eq_some_iff.mp found
    refine ⟨small, beq_iff_eq.mpr (here ▸ same), ?_⟩
    intro c before earlier
    have again := List.getElem?_eq_getElem (before.trans small)
    have equal := place_unique labels found again ((beq_iff_eq.mp earlier).trans same.symm)
    omega

theorem resolve_eq_ok_iff {f : Function} (labels : (f.blocks.map Block.label).Nodup)
    {terminator : Terminator} {target : Expr} {b : Nat} :
    resolve f terminator target = .ok b ↔
      ∃ block, f.blocks[b]? = some block ∧ target = .label block.label := by
  constructor
  · intro resolved
    obtain ⟨label, rfl, placed⟩ := first_of_resolve resolved
    obtain ⟨block, found, rfl⟩ := (findIdx?_label_iff labels).mp placed
    exact ⟨block, found, rfl⟩
  · rintro ⟨block, found, rfl⟩
    have placed := (findIdx?_label_iff labels).mpr ⟨block, found, rfl⟩
    simp only [resolve, Expr.label?, placed]

theorem mem_successorsOf_iff {f : Function} {flow : Flow} (built : build f = .ok flow)
    (labels : (f.blocks.map Block.label).Nodup) {b next : Nat} {block : Block}
    (found : f.blocks[b]? = some block) :
    next ∈ flow.successorsOf b ↔
      ∃ after, f.blocks[next]? = some after ∧ .label after.label ∈ block.terminator.jumps := by
  rw [mem_targets_iff (targets_successorsOf built found)]
  constructor
  · rintro ⟨target, jump, resolved⟩
    obtain ⟨after, placed, rfl⟩ := (resolve_eq_ok_iff labels).mp resolved
    exact ⟨after, placed, jump⟩
  · rintro ⟨after, placed, jump⟩
    exact ⟨_, jump, (resolve_eq_ok_iff labels).mpr ⟨after, placed, rfl⟩⟩

section Relaid

variable {f g : Function} (relaid : f.Relaid g) (labels : (f.blocks.map Block.label).Nodup)
include relaid labels

theorem exists_resolve_of_relaid {terminator : Terminator} {target : Expr} {b : Nat}
    (resolved : resolve f terminator target = .ok b) :
    ∃ c, resolve g terminator target = .ok c := by
  obtain ⟨block, found, rfl⟩ := (resolve_eq_ok_iff labels).mp resolved
  obtain ⟨c, placed⟩ := relaid.place found
  exact ⟨c, (resolve_eq_ok_iff (relaid.distinct labels)).mpr ⟨block, placed, rfl⟩⟩

theorem exists_targets_of_relaid {terminator : Terminator} {nexts : List Nat}
    (targeted : targets f terminator = .ok nexts) :
    ∃ nexts', targets g terminator = .ok nexts' := by
  cases terminator with
  | ret => exact ⟨[], rfl⟩
  | retValue value => exact ⟨[], rfl⟩
  | jump target =>
      obtain ⟨b, resolved, -⟩ := except_bind_eq_ok.mp targeted
      obtain ⟨c, resolved'⟩ := exists_resolve_of_relaid relaid labels resolved
      exact ⟨[c], except_bind_eq_ok.mpr ⟨c, resolved', rfl⟩⟩
  | branch condition onTrue onFalse =>
      simp only [targets] at targeted ⊢
      split at targeted
      · rename_i simple
        obtain ⟨first, resolved, targeted⟩ := except_bind_eq_ok.mp targeted
        obtain ⟨second, resolved', -⟩ := except_bind_eq_ok.mp targeted
        obtain ⟨c, placed⟩ := exists_resolve_of_relaid relaid labels resolved
        obtain ⟨d, placed'⟩ := exists_resolve_of_relaid relaid labels resolved'
        rw [if_pos simple]
        exact ⟨ordered c d,
          except_bind_eq_ok.mpr ⟨c, placed, except_bind_eq_ok.mpr ⟨d, placed', rfl⟩⟩⟩
      · cases targeted

theorem exists_build_of_relaid {flow : Flow} (built : build f = .ok flow) :
    ∃ flow', build g = .ok flow' := by
  obtain ⟨sound, targeted⟩ := build_eq_ok_iff.mp built
  have sound' : ∀ block ∈ g.blocks, block.Sound :=
    fun block listed => sound block (relaid.perm.mem_iff.mp listed)
  cases mapped : g.blocks.mapM fun block => targets g block.terminator with
  | ok successors => exact ⟨⟨successors⟩, build_eq_ok_iff.mpr ⟨sound', mapped⟩⟩
  | error error =>
      obtain ⟨block, listed, failed⟩ := mapM_eq_error mapped
      obtain ⟨b, found⟩ := List.getElem?_of_mem (relaid.perm.mem_iff.mp listed)
      obtain ⟨nexts, followed⟩ :=
        exists_targets_of_relaid relaid labels (targets_successorsOf built found)
      cases failed.symm.trans followed

theorem successor_of_relaid {flow flow' : Flow} (built : build f = .ok flow)
    (built' : build g = .ok flow') {b c next : Nat} {block : Block}
    (found : f.blocks[b]? = some block) (found' : g.blocks[c]? = some block)
    (successor : next ∈ flow.successorsOf b) :
    ∃ after, f.blocks[next]? = some after ∧
      ∃ next', g.blocks[next']? = some after ∧ next' ∈ flow'.successorsOf c := by
  obtain ⟨after, placed, jump⟩ := (mem_successorsOf_iff built labels found).mp successor
  obtain ⟨next', placed'⟩ := relaid.place placed
  exact ⟨after, placed, next', placed',
    (mem_successorsOf_iff built' (relaid.distinct labels) found').mpr ⟨after, placed', jump⟩⟩

end Relaid

end Flow

namespace Liveness

section Relaid

variable {f g : Function} {flow flow' : Flow} (relaid : f.Relaid g)
  (labels : (f.blocks.map Block.label).Nodup) (built : Flow.build f = .ok flow)
  (built' : Flow.build g = .ok flow')
include relaid labels built built'

theorem mem_blockIn_of_relaid {b : Nat} {v : Var} (live : v ∈ (solve f flow).blockIn b) :
    ∃ block, f.blocks[b]? = some block ∧
      ∀ c, g.blocks[c]? = some block → v ∈ (solve g flow').blockIn c := by
  -- The live sets of the other order satisfy the equations of this one, whose solution is least.
  refine blockIn_induction (fun b v => ∃ block, f.blocks[b]? = some block ∧
    ∀ c, g.blocks[c]? = some block → v ∈ (solve g flow').blockIn c) ?_ live
  intro b block out found handed v before
  refine ⟨block, found, ?_⟩
  intro c found'
  rw [blockIn_eq_liveBefore built' found']
  refine liveBefore_mono ?_ before
  intro leaving
  obtain ⟨next, successor, block', placed, entered⟩ := handed v leaving
  obtain ⟨after, placed', next', there, successor'⟩ :=
    Flow.successor_of_relaid relaid labels built built' found found' successor
  cases placed.symm.trans placed'
  exact mem_exitSet_solve.mpr ⟨next', successor', entered next' there⟩

theorem blockIn_zero_of_relaid : (solve g flow').blockIn 0 = (solve f flow).blockIn 0 := by
  have first : g.blocks[0]? = f.blocks[0]? := by
    rw [← List.head?_eq_getElem?, ← List.head?_eq_getElem?, relaid.first]
  apply IndexSet.ext
  intro v
  constructor
  · intro live
    obtain ⟨block, found, entered⟩ :=
      mem_blockIn_of_relaid relaid.symm (relaid.distinct labels) built' built live
    exact entered 0 (first ▸ found)
  · intro live
    obtain ⟨block, found, entered⟩ := mem_blockIn_of_relaid relaid labels built built' live
    exact entered 0 (first ▸ found)

theorem exitSet_subset_of_relaid {b c : Nat} {block : Block} (found : f.blocks[b]? = some block)
    (found' : g.blocks[c]? = some block) :
    ∀ v ∈ exitSet flow (solve f flow).blocks b, v ∈ exitSet flow' (solve g flow').blocks c := by
  intro v leaving
  obtain ⟨next, successor, live⟩ := mem_exitSet_solve.mp leaving
  obtain ⟨block', placed, entered⟩ := mem_blockIn_of_relaid relaid labels built built' live
  obtain ⟨after, placed', next', there, successor'⟩ :=
    Flow.successor_of_relaid relaid labels built built' found found' successor
  cases placed.symm.trans placed'
  exact mem_exitSet_solve.mpr ⟨next', successor', entered next' there⟩

/-- The live sets along a block do not depend on where it is listed. -/
theorem block_of_relaid {b c : Nat} {block : Block} (found : f.blocks[b]? = some block)
    (found' : g.blocks[c]? = some block) : (solve g flow').block c = (solve f flow).block b := by
  have leaving : exitSet flow' (solve g flow').blocks c = exitSet flow (solve f flow).blocks b := by
    apply IndexSet.ext
    intro v
    exact ⟨exitSet_subset_of_relaid relaid.symm (relaid.distinct labels) built' built found' found v,
      exitSet_subset_of_relaid relaid labels built built' found found' v⟩
  rw [solve_block built found, solve_block built' found', leaving]

end Relaid

end Liveness

namespace Interference

structure SameGraph (graph graph' : Interference) : Prop where
  nodes : ∀ node, node ∈ graph'.nodes ↔ node ∈ graph.nodes
  edges : ∀ first second, graph'.interferes first second = graph.interferes first second

theorem SameGraph.neighborSet {graph graph' : Interference} (same : graph.SameGraph graph')
    (node : Node) : graph'.neighborSet node = graph.neighborSet node := by
  apply IndexSet.ext
  intro other
  rw [← interferes_iff, ← interferes_iff, same.edges]

theorem sameGraph_of_mentions {f g : Function} {live live' : Liveness} {target : Target}
    (same : ∀ mention, mention ∈ mentions g live' target ↔ mention ∈ mentions f live target) :
    (build f live target).SameGraph (build g live' target) := by
  have all : ∀ mention, mention ∈ allMentions g live' target ↔
      mention ∈ allMentions f live target := by
    intro mention
    simp only [allMentions, List.mem_append, same]
  constructor
  · intro node
    simp only [build_eq, mem_nodes_addAll, all]
  · intro first second
    rw [Bool.eq_iff_iff, interferes_build, interferes_build]
    simp only [Joined, all]

section Relaid

variable {f g : Function} {flow flow' : Flow} (relaid : f.Relaid g)
  (labels : (f.blocks.map Block.label).Nodup) (built : Flow.build f = .ok flow)
  (built' : Flow.build g = .ok flow')
include relaid labels built built'

theorem mentions_subset_of_relaid {target : Target} {mention : Mention}
    (member : mention ∈ mentions f (Liveness.solve f flow) target) :
    mention ∈ mentions g (Liveness.solve g flow') target := by
  have entry := Liveness.blockIn_zero_of_relaid relaid labels built built'
  simp only [mentions, List.mem_append] at member
  rcases member with ((param | point) | arrival) | entering
  · simp only [mentions, List.mem_append, relaid.paramVars]
    exact Or.inl (Or.inl (Or.inl param))
  · obtain ⟨⟨block, b⟩, placed, point⟩ := List.mem_flatMap.mp point
    obtain ⟨⟨point, i⟩, here, mentioned⟩ := List.mem_flatMap.mp point
    have found := List.mem_zipIdx_iff_getElem?.mp placed
    have here := List.mem_zipIdx_iff_getElem?.mp here
    obtain ⟨c, found'⟩ := relaid.place found
    have sets := Liveness.block_of_relaid relaid labels built built' found found'
    refine mentions_of_point found' here ?_
    rwa [Liveness.liveOut, Liveness.point, sets]
  · simp only [mentions, List.mem_append, relaid.paramVars]
    exact Or.inl (Or.inr arrival)
  · simp only [mentions, List.mem_append, entryMentions, relaid.paramVars, entry]
    exact Or.inr entering

theorem sameGraph_of_relaid (target : Target) :
    (build f (Liveness.solve f flow) target).SameGraph (build g (Liveness.solve g flow') target) :=
  sameGraph_of_mentions fun _ =>
    ⟨mentions_subset_of_relaid relaid.symm (relaid.distinct labels) built' built,
      mentions_subset_of_relaid relaid labels built built'⟩

end Relaid

end Interference

namespace Coloring

section SameGraph

variable {graph graph' : Interference} (same : graph.SameGraph graph')
include same

theorem candidates_congr (uses : Var → Nat) : candidates graph' uses = candidates graph uses := by
  have vars : IndexSet.ofList graph'.vars = IndexSet.ofList graph.vars := by
    apply IndexSet.ext
    intro v
    rw [IndexSet.mem_ofList, IndexSet.mem_ofList, Interference.mem_vars, Interference.mem_vars,
      same.nodes]
  simp only [candidates, vars, Interference.degree, same.neighborSet]

theorem removals_congr (temporaries : VarSet) (colors count : Nat) (candidates : List Candidate) :
    removals graph' temporaries colors count candidates =
      removals graph temporaries colors count candidates := by
  induction count generalizing candidates with
  | zero => rfl
  | succ count ih =>
      unfold removals
      split
      · rfl
      · rw [ih, remove, remove, same.neighborSet]

theorem simplify_congr (uses : Var → Nat) (temporaries : VarSet) (colors : Nat) :
    simplify graph' uses temporaries colors = simplify graph uses temporaries colors := by
  unfold simplify
  rw [candidates_congr same]
  exact removals_congr same ..

theorem free?_congr (target : Target) (coloring : Coloring) (v : Var) :
    coloring.free? graph' target v = coloring.free? graph target v := by
  simp only [free?, taken, Interference.neighbors, same.neighborSet]

theorem selectFrom_congr {f g : Function} (name : g.name = f.name) (vars : g.vars = f.vars)
    (target : Target) (removals : List Removal) (coloring : Coloring) :
    selectFrom g graph' target removals coloring = selectFrom f graph target removals coloring := by
  induction removals generalizing coloring with
  | nil => rfl
  | cons removal rest ih =>
      unfold selectFrom
      rw [free?_congr same, name, vars]
      simp only [ih]

end SameGraph

end Coloring

namespace Allocation

section Relaid

variable {f g : Function} {flow flow' : Flow} (relaid : f.Relaid g)
  (labels : (f.blocks.map Block.label).Nodup) (built : Flow.build f = .ok flow)
  (built' : Flow.build g = .ok flow')
include relaid labels built built'

theorem color_of_relaid (config : Config) (rounds : Nat) (temporaries : VarSet) :
    (color config rounds temporaries g).result = (color config rounds temporaries f).result := by
  have same := Interference.sameGraph_of_relaid relaid labels built built' config.target
  have uses : (fun v => g.mentions.count v) = fun v => f.mentions.count v :=
    funext relaid.count_mentions
  rw [result_color built, result_color built', uses, Coloring.simplify_congr same,
    Coloring.select, Coloring.selectFrom_congr same relaid.name relaid.vars]
  rfl

end Relaid

theorem le_rounds_of_allocateFrom {config : Config} {remaining rounds : Nat} {temporaries : VarSet}
    {f : Function} {a : Allocation}
    (allocated : (allocateFrom config remaining rounds temporaries f).result = .ok a) :
    rounds ≤ a.rounds := by
  induction remaining generalizing rounds temporaries f with
  | zero =>
      obtain ⟨coloring, -, ⟨-, rfl⟩ | ⟨_, _, more, -⟩⟩ := allocateFrom_cases allocated
      · exact Nat.le_refl _
      · cases more
  | succ remaining ih =>
      obtain ⟨coloring, -, ⟨-, rfl⟩ | ⟨_, _, more, rest⟩⟩ := allocateFrom_cases allocated
      · exact Nat.le_refl _
      · cases more
        exact Nat.le_of_succ_le (ih rest)

def Immediate (config : Config) (f : Function) (coloring : Coloring) : Prop :=
  ∃ a, (allocate config f).result = .ok a ∧ a.rounds = 0 ∧ a.coloring = coloring

/-- The first round spills these variables, and allocation goes on from there if it may take a
round at all and there are slots for them. -/
def SpillsFirst (config : Config) (f : Function) (vars : List Var) : Prop :=
  (∃ last, Rounds config { function := f } [vars] last) ∧
    ∀ more, config.maxRounds.getD f.vars.size = more + 1 →
      (allocate config f).result =
        if f.nextFreeSlot + vars.length + 1 < slotBound then
          (Stage.run config more (Stage.spill config { function := f } vars)).result
        else .error (.slotsExhausted f.name)

section First

variable {config : Config} {f : Function} {first : Coloring}
  (colored : (color config 0 ∅ f).result = .ok first)
include colored

theorem allocate_of_complete (complete : first.spilled = ∅) :
    (allocate config f).result = (withFrame config f first 0).result := by
  have empty : first.spilled.isEmpty = true := by
    rw [complete]
    rfl
  rw [allocate, allocateFrom, Logged.result_bind, colored]
  simp only [bind, Except.bind, empty, if_true]

theorem immediate_iff {coloring : Coloring} :
    Immediate config f coloring ↔
      first.spilled = ∅ ∧ f.nextFreeSlot < slotBound ∧ coloring = first := by
  constructor
  · rintro ⟨a, allocated, rounds, rfl⟩
    obtain ⟨coloring, colored', ⟨complete, same⟩ | ⟨_, _, -, rest⟩⟩ :=
      allocateFrom_cases allocated
    · cases colored.symm.trans colored'
      rw [allocate_of_complete colored complete] at allocated
      exact ⟨complete, (eq_of_withFrame allocated).1, by rw [same]⟩
    · have spilled := le_rounds_of_allocateFrom rest
      omega
  · rintro ⟨complete, room, rfl⟩
    refine ⟨⟨f, coloring, f.nextFreeSlot, 0⟩, ?_, rfl, rfl⟩
    rw [allocate_of_complete colored complete, withFrame_of_lt room]

theorem allocate_of_spilled (some : ∃ v, v ∈ first.spilled) {more : Nat}
    (enough : config.maxRounds.getD f.vars.size = more + 1) :
    (allocate config f).result =
      if f.nextFreeSlot + first.spilled.toList.length + 1 < slotBound then
        (Stage.run config more
          (Stage.spill config { function := f } first.spilled.toList)).result
      else .error (.slotsExhausted f.name) := by
  obtain ⟨v, spilled⟩ := some
  have incomplete : ¬first.spilled.isEmpty = true := by
    intro empty
    rw [eq_empty_of_isEmpty empty] at spilled
    exact IndexSet.not_mem_empty v spilled
  have lasting : ¬first.spilled.toList.all (∅ : VarSet).contains = true := by
    intro all
    exact IndexSet.not_mem_empty v (List.all_eq_true.mp all v (IndexSet.mem_toList.mpr spilled))
  rw [allocate, enough, allocateFrom, Logged.result_bind, colored]
  simp only [bind, Except.bind, if_neg incomplete, if_neg lasting]
  rcases Nat.lt_or_ge (f.nextFreeSlot + first.spilled.toList.length + 1) slotBound with
    room | full
  · rw [Spill.toFreeSlots_of_lt room, if_pos room]
    rfl
  · rw [Spill.toFreeSlots_of_le full, if_neg (Nat.not_lt.mpr full)]
    rfl

theorem spillsFirst_iff {vars : List Var} :
    SpillsFirst config f vars ↔ (∃ v, v ∈ first.spilled) ∧ vars = first.spilled.toList := by
  constructor
  · rintro ⟨⟨last, rounds⟩, -⟩
    cases rounds with
    | round colored' lasting _ =>
        cases colored.symm.trans colored'
        obtain ⟨v, spilled, -⟩ := lasting
        exact ⟨⟨v, spilled⟩, rfl⟩
  · rintro ⟨⟨v, spilled⟩, rfl⟩
    have lasting : ∃ v ∈ first.spilled, v ∉ (∅ : VarSet) :=
      ⟨v, spilled, IndexSet.not_mem_empty v⟩
    exact ⟨⟨_, .round colored lasting (.refl _)⟩,
      fun more enough => allocate_of_spilled colored ⟨v, spilled⟩ enough⟩

end First

end Allocation

/-- The order of the blocks after the first shows neither in the live sets of a block, nor in the
interference graph, nor in how allocation starts: with the coloring that needs no spills, or else
with the variables that are spilled first, unless the slots of the function leave no number for
the size of its frame. -/
theorem allocate_of_relaid {f g : Function} (relaid : f.Relaid g)
    (labels : (f.blocks.map Block.label).Nodup) {flow : Flow} (built : Flow.build f = .ok flow)
    (config : Allocation.Config) (registers : config.target.allocatable.Nodup) :
    ∃ flow', Flow.build g = .ok flow' ∧
      (∀ b c block block', f.blocks[b]? = some block → g.blocks[c]? = some block' →
        block'.label = block.label →
          (Liveness.solve g flow').block c = (Liveness.solve f flow).block b) ∧
      (Interference.build f (Liveness.solve f flow) config.target).SameGraph
        (Interference.build g (Liveness.solve g flow') config.target) ∧
      (∀ coloring, Allocation.Immediate config g coloring ↔
        Allocation.Immediate config f coloring) ∧
      (∀ vars, Allocation.SpillsFirst config g vars ↔ Allocation.SpillsFirst config f vars) ∧
      ((∃ coloring, Allocation.Immediate config f coloring) ∨
        (∃ vars, Allocation.SpillsFirst config f vars) ∨
        (allocate config f).result = .error (.slotsExhausted f.name) ∧
          (allocate config g).result = .error (.slotsExhausted g.name)) := by
  obtain ⟨flow', built'⟩ := Flow.exists_build_of_relaid relaid labels built
  obtain ⟨first, colored, -⟩ := Allocation.color_settled config 0 ∅ registers built
  have colored' : (Allocation.color config 0 ∅ g).result = .ok first :=
    (Allocation.color_of_relaid relaid labels built built' config 0 ∅).trans colored
  refine ⟨flow', built', ?_, Interference.sameGraph_of_relaid relaid labels built built' _,
    ?_, ?_, ?_⟩
  · intro b c block block' found found' same
    obtain ⟨d, found''⟩ := relaid.symm.place found'
    cases place_unique labels found found'' same
    cases found.symm.trans found''
    exact Liveness.block_of_relaid relaid labels built built' found found'
  · intro coloring
    rw [Allocation.immediate_iff colored, Allocation.immediate_iff colored', relaid.nextFreeSlot]
  · intro vars
    rw [Allocation.spillsFirst_iff colored, Allocation.spillsFirst_iff colored']
  · by_cases some : ∃ v, v ∈ first.spilled
    · exact Or.inr (Or.inl ⟨_, (Allocation.spillsFirst_iff colored).mpr ⟨some, rfl⟩⟩)
    · have complete : first.spilled = ∅ :=
        IndexSet.eq_empty_iff.mpr fun v spilled => some ⟨v, spilled⟩
      rcases Nat.lt_or_ge f.nextFreeSlot slotBound with room | full
      · exact Or.inl ⟨first, (Allocation.immediate_iff colored).mpr ⟨complete, room, rfl⟩⟩
      · refine Or.inr (Or.inr ⟨?_, ?_⟩)
        · rw [Allocation.allocate_of_complete colored complete, Allocation.withFrame_of_le full]
          rfl
        · rw [Allocation.allocate_of_complete colored' complete,
            Allocation.withFrame_of_le (relaid.nextFreeSlot ▸ full)]
          rfl

/-- A loop that is listed before and after the block it leads to, around a call that overwrites
the only register. -/
theorem allocate_of_relaid_loop :
    ∃ f g flow flow', f.Relaid g ∧ (f.blocks.map Block.label).Nodup ∧ f.blocks ≠ g.blocks ∧
      Flow.build f = .ok flow ∧ Flow.build g = .ok flow' ∧
      (Liveness.solve f flow).liveOut 1 0 = .ofList [⟨0⟩] ∧
      (Liveness.solve g flow').block 2 = (Liveness.solve f flow).block 1 ∧
      Allocation.SpillsFirst { target := ⟨[.rbx], [], [.rbx]⟩ } f [⟨0⟩] ∧
      Allocation.SpillsFirst { target := ⟨[.rbx], [], [.rbx]⟩ } g [⟨0⟩] := by
  let start : Block := ⟨":s", [.assign (.var ⟨0⟩) (.const 1)], .jump (.label ":l")⟩
  let loop : Block :=
    ⟨":l", [.call true (.label "print") [.var ⟨0⟩]],
      .branch (.var ⟨0⟩) (.label ":l") (.label ":e")⟩
  let last : Block := ⟨":e", [], .retValue (.var ⟨0⟩)⟩
  let f : Function := ⟨"@m", ⟨.int64, 0⟩, [], [start, loop, last], ⟨["%a"], 0⟩⟩
  let g : Function := { f with blocks := [start, last, loop] }
  have relaid : f.Relaid g := ⟨rfl, rfl, rfl, rfl, rfl, .swap ..⟩
  have labels : (f.blocks.map Block.label).Nodup := by decide
  have ran : ((Flow.build f).toOption.bind fun flow =>
      (Allocation.color { target := ⟨[.rbx], [], [.rbx]⟩ } 0 ∅ f).result.toOption.map
        fun coloring => ((Liveness.solve f flow).liveOut 1 0, coloring.spilled)) =
      some (.ofList [⟨0⟩], .ofList [⟨0⟩]) := by
    decide +kernel
  simp only [Option.bind_eq_some_iff, Option.map_eq_some_iff, toOption_eq_some,
    Prod.mk.injEq] at ran
  obtain ⟨flow, built, coloring, colored, live, spilled⟩ := ran
  obtain ⟨flow', built', sets, -, -, firsts, -⟩ := allocate_of_relaid relaid labels built
    { target := ⟨[.rbx], [], [.rbx]⟩ } (by decide)
  have first : Allocation.SpillsFirst { target := ⟨[.rbx], [], [.rbx]⟩ } f [⟨0⟩] := by
    rw [Allocation.spillsFirst_iff colored, spilled]
    exact ⟨⟨⟨0⟩, by decide⟩, by decide⟩
  refine ⟨f, g, flow, flow', relaid, labels, by decide, built, built', live, ?_, first,
    (firsts _).mpr first⟩
  exact sets 1 2 loop loop rfl rfl rfl

end Regalloc
