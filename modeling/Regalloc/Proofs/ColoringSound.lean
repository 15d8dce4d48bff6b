import Mathlib
import Regalloc.Allocation
import Regalloc.Proofs.ConflictGraph
import Regalloc.Proofs.LiveEquations

/-!
# Sound colorings

Taking variables out of a graph ends with all of them taken out, and putting them back never gives
two neighbors one register. So an allocation that succeeds has colored the graph of the function
it returns.
-/

namespace Regalloc

namespace Coloring

theorem better_some (best candidate : Candidate) :
    better (some best) candidate = some (if candidate.cheaper best then candidate else best) := by
  simp only [better]
  split <;> rfl

theorem foldl_better_some (candidates : List Candidate) (best : Candidate) :
    ∃ chosen, candidates.foldl better (some best) = some chosen ∧
      (chosen = best ∨ chosen ∈ candidates) := by
  induction candidates generalizing best with
  | nil => exact ⟨best, rfl, Or.inl rfl⟩
  | cons first rest ih =>
      rw [List.foldl_cons, better_some]
      obtain ⟨chosen, found, same | member⟩ := ih (if first.cheaper best then first else best)
      · refine ⟨chosen, found, ?_⟩
        split at same
        · exact Or.inr (same ▸ List.mem_cons_self ..)
        · exact Or.inl same
      · exact ⟨chosen, found, Or.inr (List.mem_cons_of_mem _ member)⟩

theorem mem_of_mem_spillable {temporaries : VarSet} {candidates : List Candidate}
    {candidate : Candidate} (member : candidate ∈ spillable temporaries candidates) :
    candidate ∈ candidates := by
  simp only [spillable] at member
  split at member
  · exact member
  · exact (List.mem_filter.mp member).1

theorem chooseSpill_some (temporaries : VarSet) {candidates : List Candidate}
    (nonempty : candidates ≠ []) :
    ∃ candidate ∈ candidates, chooseSpill temporaries candidates = some candidate.v := by
  have inside : ∀ candidate ∈ spillable temporaries candidates, candidate ∈ candidates :=
    fun _ => mem_of_mem_spillable
  have left : spillable temporaries candidates ≠ [] := by
    simp only [spillable]
    split
    · exact nonempty
    · rename_i lasting
      rwa [List.isEmpty_iff] at lasting
  unfold chooseSpill
  cases listed : spillable temporaries candidates with
  | nil => exact absurd listed left
  | cons first rest =>
      obtain ⟨chosen, found, place⟩ := foldl_better_some rest first
      refine ⟨chosen, ?_, ?_⟩
      · apply inside
        rw [listed]
        rcases place with same | member
        · exact same ▸ List.mem_cons_self ..
        · exact List.mem_cons_of_mem _ member
      · rw [List.foldl_cons, show better none first = some first from rfl, found]
        rfl

theorem nextRemoval_some {temporaries : VarSet} {colors : Nat} {candidates : List Candidate}
    (nonempty : candidates ≠ []) :
    ∃ removal, nextRemoval temporaries colors candidates = some removal ∧
      ∃ candidate ∈ candidates, candidate.v = removal.v := by
  unfold nextRemoval
  split
  · rename_i candidate found
    exact ⟨_, rfl, candidate, List.mem_of_find?_eq_some found, rfl⟩
  · obtain ⟨candidate, member, chosen⟩ := chooseSpill_some temporaries nonempty
    rw [chosen]
    exact ⟨_, rfl, candidate, member, rfl⟩

theorem mem_remove (graph : Interference) {v : Var} {candidates : List Candidate}
    {candidate : Candidate} (member : candidate ∈ candidates) (apart : candidate.v ≠ v) :
    ∃ left ∈ remove graph v candidates, left.v = candidate.v := by
  have kept : candidate ∈ candidates.filter fun candidate => candidate.v != v :=
    List.mem_filter.mpr ⟨member, by simpa using apart⟩
  refine ⟨_, List.mem_map.mpr ⟨candidate, kept, rfl⟩, ?_⟩
  split <;> rfl

theorem length_remove_lt (graph : Interference) {v : Var} {candidates : List Candidate}
    {candidate : Candidate} (member : candidate ∈ candidates) (same : candidate.v = v) :
    (remove graph v candidates).length < candidates.length := by
  simp only [remove, List.length_map]
  apply List.length_filter_lt_length_iff_exists.mpr
  exact ⟨candidate, member, by simp [same]⟩

theorem removals_complete {graph : Interference} {temporaries : VarSet} {colors count : Nat}
    {candidates : List Candidate} (enough : candidates.length ≤ count) :
    ∀ candidate ∈ candidates,
      ∃ removal ∈ removals graph temporaries colors count candidates,
        removal.v = candidate.v := by
  induction count generalizing candidates with
  | zero =>
      have empty : candidates = [] := List.length_eq_zero_iff.mp (Nat.le_zero.mp enough)
      simp [empty]
  | succ count ih =>
      intro candidate member
      have nonempty : candidates ≠ [] := List.ne_nil_of_mem member
      obtain ⟨removal, next, other, present, same⟩ := nextRemoval_some nonempty
      unfold removals
      rw [next]
      by_cases here : candidate.v = removal.v
      · exact ⟨removal, List.mem_cons_self .., here.symm⟩
      · obtain ⟨left, remains, name⟩ := mem_remove graph member here
        have fewer := length_remove_lt graph present same
        obtain ⟨later, listed, found⟩ := ih (by omega) left remains
        exact ⟨later, List.mem_cons_of_mem _ listed, found.trans name⟩

theorem simplify_complete {graph : Interference} {uses : Var → Nat} {temporaries : VarSet}
    {colors : Nat} {v : Var} (vertex : .var v ∈ graph.nodes) :
    ∃ removal ∈ simplify graph uses temporaries colors, removal.v = v := by
  have listed : ⟨v, uses v, graph.degree (.var v)⟩ ∈ candidates graph uses := by
    refine List.mem_map.mpr ⟨v, ?_, rfl⟩
    simpa using vertex
  exact removals_complete (Nat.le_refl _) _ listed

structure Proper (graph : Interference) (target : Target) (coloring : Coloring) : Prop where
  allocatable : ∀ v r, coloring.color v = some r → r ∈ target.allocatable
  apart : ∀ v r node, coloring.color v = some r → graph.interferes (.var v) node = true →
    coloring.holds node ≠ some r

theorem free?_eq_some {coloring : Coloring} {graph : Interference} {target : Target} {v : Var}
    {r : Register} (free : coloring.free? graph target v = some r) :
    r ∈ target.allocatable ∧
      ∀ node, graph.interferes (.var v) node = true → coloring.holds node ≠ some r := by
  refine ⟨List.mem_of_find?_eq_some free, ?_⟩
  intro node conflict held
  have untaken := List.find?_some free
  have taken : r ∈ coloring.taken graph v :=
    List.mem_filterMap.mpr ⟨node, Interference.mem_neighbors.mpr conflict, held⟩
  simp [taken] at untaken

theorem proper_assign {graph : Interference} {target : Target} {coloring : Coloring} {v : Var}
    {r : Register} (symm : ∀ first second, graph.interferes first second = true →
      graph.interferes second first = true)
    (loopless : ∀ node, ¬graph.interferes node node = true)
    (proper : Proper graph target coloring) (free : coloring.free? graph target v = some r) :
    Proper graph target (coloring.assign v r) := by
  obtain ⟨listed, untaken⟩ := free?_eq_some free
  constructor
  · intro u s colored
    rw [color_assign] at colored
    split at colored
    · cases colored
      exact listed
    · exact proper.allocatable u s colored
  · intro u s node colored conflict
    have elsewhere : node ≠ .var v → (coloring.assign v r).holds node = coloring.holds node := by
      intro other
      cases node with
      | register _ => rfl
      | var w =>
          have differs : w ≠ v := fun same => other (same ▸ rfl)
          simp [holds, differs]
    rw [color_assign] at colored
    split at colored
    · rename_i same
      subst same
      cases colored
      have other : node ≠ .var u := fun same => loopless _ (same ▸ conflict)
      rw [elsewhere other]
      exact untaken node conflict
    · by_cases other : node = .var v
      · subst other
        have differs : coloring.color u ≠ some r := untaken (.var u) (symm _ _ conflict)
        simp only [holds, color_assign, if_true]
        intro same
        exact differs (same ▸ colored)
      · rw [elsewhere other]
        exact proper.apart u s node colored conflict

theorem selectFrom_cons {f : Function} {graph : Interference} {target : Target}
    {removal : Removal} {rest : List Removal} {coloring final : Coloring}
    (selected : (selectFrom f graph target (removal :: rest) coloring).result = .ok final) :
    (∃ r, coloring.free? graph target removal.v = some r ∧
        (selectFrom f graph target rest (coloring.assign removal.v r)).result = .ok final) ∨
      (selectFrom f graph target rest (coloring.spill removal.v)).result = .ok final := by
  unfold selectFrom at selected
  split at selected
  · rename_i r free
    exact Or.inl ⟨r, free, selected⟩
  · split at selected
    · exact Or.inr (by simpa [bind, Except.bind] using selected)
    · simp at selected

theorem selectFrom_keeps {f : Function} {graph : Interference} {target : Target}
    {removals : List Removal} {coloring final : Coloring}
    (selected : (selectFrom f graph target removals coloring).result = .ok final) (v : Var)
    (settled : (coloring.color v).isSome ∨ v ∈ coloring.spilled) :
    (final.color v).isSome ∨ v ∈ final.spilled := by
  induction removals generalizing coloring with
  | nil =>
      cases selected
      exact settled
  | cons removal rest ih =>
      rcases selectFrom_cons selected with ⟨r, -, later⟩ | later
      · apply ih later
        refine settled.imp_left fun colored => ?_
        rw [color_assign]
        split
        · rfl
        · exact colored
      · exact ih later (settled.imp_right fun old => IndexSet.mem_insert.mpr (Or.inr old))

theorem selectFrom_settles {f : Function} {graph : Interference} {target : Target}
    {removals : List Removal} {coloring final : Coloring}
    (selected : (selectFrom f graph target removals coloring).result = .ok final) :
    ∀ removal ∈ removals, (final.color removal.v).isSome ∨ removal.v ∈ final.spilled := by
  induction removals generalizing coloring with
  | nil => simp
  | cons first rest ih =>
      intro removal member
      rcases selectFrom_cons selected with ⟨r, -, later⟩ | later
      · rcases List.mem_cons.mp member with rfl | member
        · exact selectFrom_keeps later _ (Or.inl (by simp))
        · exact ih later removal member
      · rcases List.mem_cons.mp member with rfl | member
        · exact selectFrom_keeps later _ (Or.inr (IndexSet.mem_insert.mpr (Or.inl rfl)))
        · exact ih later removal member

theorem selectFrom_proper {f : Function} {graph : Interference} {target : Target}
    {removals : List Removal} {coloring final : Coloring}
    (symm : ∀ first second, graph.interferes first second = true →
      graph.interferes second first = true)
    (loopless : ∀ node, ¬graph.interferes node node = true)
    (selected : (selectFrom f graph target removals coloring).result = .ok final)
    (proper : Proper graph target coloring) : Proper graph target final := by
  induction removals generalizing coloring with
  | nil =>
      cases selected
      exact proper
  | cons removal rest ih =>
      rcases selectFrom_cons selected with ⟨r, free, later⟩ | later
      -- Only neighbors colored before count here; later ones avoid this one in their turn.
      · exact ih later (proper_assign symm loopless proper free)
      · have unchanged : ∀ node, (coloring.spill removal.v).holds node = coloring.holds node := by
          intro node
          cases node <;> rfl
        refine ih later ⟨proper.allocatable, ?_⟩
        intro v s node colored conflict
        rw [unchanged]
        exact proper.apart v s node colored conflict

end Coloring

namespace Interference

/-- Every variable has a register of the target, neighbors have different ones, and a variable
has none that it conflicts with. -/
structure ColoredBy (graph : Interference) (target : Target) (coloring : Coloring) : Prop where
  colored : ∀ v, .var v ∈ graph.nodes → ∃ r ∈ target.allocatable, coloring.color v = some r
  apart : ∀ u v, graph.interferes (.var u) (.var v) = true → coloring.color u ≠ coloring.color v
  avoids : ∀ v r, graph.interferes (.var v) (.register r) = true → coloring.color v ≠ some r

end Interference

namespace Allocation

theorem color_eq_ok {config : Config} {rounds : Nat} {temporaries : VarSet} {f : Function}
    {coloring : Coloring} (colored : (color config rounds temporaries f).result = .ok coloring) :
    ∃ flow, Flow.build f = .ok flow ∧
      (Coloring.select f (Interference.build f (Liveness.solve f flow) config.target)
        config.target
        (Coloring.simplify (Interference.build f (Liveness.solve f flow) config.target)
          (fun v => f.mentions.count v) temporaries config.target.colorCount)).result =
        .ok coloring := by
  simp only [color, Logged.result_bind, Logged.result_report, Liveness.analyze,
    Logged.result_ofExcept, Logged.result_pure] at colored
  obtain ⟨_, analyzed, selected⟩ := except_bind_eq_ok.mp colored
  obtain ⟨flow, built, analyzed⟩ := except_bind_eq_ok.mp analyzed
  cases analyzed
  obtain ⟨_, -, selected⟩ := except_bind_eq_ok.mp selected
  exact ⟨flow, built, selected⟩

theorem coloredBy_of_color {config : Config} {rounds : Nat} {temporaries : VarSet} {f : Function}
    {coloring : Coloring} (colored : (color config rounds temporaries f).result = .ok coloring)
    (complete : coloring.spilled = ∅) :
    ∃ flow, Flow.build f = .ok flow ∧
      (Interference.build f (Liveness.solve f flow) config.target).ColoredBy config.target
        coloring := by
  obtain ⟨flow, built, selected⟩ := color_eq_ok colored
  refine ⟨flow, built, ?_⟩
  have proper := Coloring.selectFrom_proper
    (fun _ _ => Interference.interferes_symm)
    (fun _ loop => (Interference.interferes_build.mp loop).1 rfl) selected
    ⟨by simp [Coloring.color, Bindings.get?], by simp [Coloring.color, Bindings.get?]⟩
  have vertices : ∀ v, .var v ∈ (Interference.build f (Liveness.solve f flow)
      config.target).nodes → ∃ r ∈ config.target.allocatable, coloring.color v = some r := by
    intro v vertex
    obtain ⟨removal, listed, rfl⟩ := Coloring.simplify_complete vertex
    have settled := Coloring.selectFrom_settles selected removal (List.mem_reverse.mpr listed)
    rw [complete] at settled
    rcases settled with found | spilled
    · obtain ⟨r, found⟩ := Option.isSome_iff_exists.mp found
      exact ⟨r, proper.allocatable _ _ found, found⟩
    · exact absurd spilled (IndexSet.not_mem_empty _)
  refine ⟨vertices, ?_, ?_⟩
  · intro u v conflict same
    obtain ⟨r, -, found⟩ := vertices u (Interference.mem_nodes_of_interferes conflict)
    exact proper.apart u r (.var v) found conflict (same.symm.trans found)
  · intro v r conflict found
    exact proper.apart v r (.register r) found conflict rfl

theorem eq_empty_of_isEmpty {s : VarSet} (empty : s.isEmpty = true) : s = ∅ := by
  cases s with
  | mk bits =>
      simp only [IndexSet.isEmpty, beq_iff_eq] at empty
      subst empty
      rfl

def SpillRound (stem : String) (before after : Function) : Prop :=
  ∃ vars, after = (Spill.all stem before vars before.nextFreeSlot).function

/-- A loop that succeeds is done after its first attempt, or it spills what that attempt left over
and goes on. -/
theorem allocateFrom_cases {config : Config} {remaining rounds : Nat} {temporaries : VarSet}
    {f : Function} {a : Allocation}
    (allocated : (allocateFrom config remaining rounds temporaries f).result = .ok a) :
    ∃ coloring, (color config rounds temporaries f).result = .ok coloring ∧
      (coloring.spilled = ∅ ∧ a = ⟨f, coloring, f.nextFreeSlot, rounds⟩ ∨
        ∃ fewer temporaries', remaining = fewer + 1 ∧
          (allocateFrom config fewer (rounds + 1) temporaries'
            (Spill.all config.stem f coloring.spilled.toList f.nextFreeSlot).function).result =
              .ok a) := by
  unfold allocateFrom at allocated
  rw [Logged.result_bind] at allocated
  obtain ⟨coloring, colored, allocated⟩ := except_bind_eq_ok.mp allocated
  refine ⟨coloring, colored, ?_⟩
  split at allocated
  · rename_i complete
    exact Or.inl ⟨eq_empty_of_isEmpty complete, (eq_of_withFrame allocated).2⟩
  · cases remaining with
    | zero => simp at allocated
    | succ remaining =>
        simp only at allocated
        split at allocated
        · simp at allocated
        · simp only [Logged.result_bind, Logged.result_report] at allocated
          obtain ⟨_, -, allocated⟩ := except_bind_eq_ok.mp allocated
          obtain ⟨spilled, moved, allocated⟩ := except_bind_eq_ok.mp allocated
          obtain ⟨-, rfl⟩ := Spill.eq_of_toFreeSlots moved
          exact Or.inr ⟨remaining, _, rfl, allocated⟩

/-- An allocation colors what some rounds of spilling made of the function. -/
theorem allocateFrom_eq_ok {config : Config} {remaining rounds : Nat} {temporaries : VarSet}
    {f : Function} {a : Allocation}
    (allocated : (allocateFrom config remaining rounds temporaries f).result = .ok a) :
    Relation.ReflTransGen (SpillRound config.stem) f a.function ∧
      (∃ rounds temporaries,
        (color config rounds temporaries a.function).result = .ok a.coloring) ∧
      a.coloring.spilled = ∅ := by
  induction remaining generalizing rounds temporaries f with
  | zero =>
      obtain ⟨coloring, colored, ⟨complete, rfl⟩ | ⟨_, _, more, -⟩⟩ := allocateFrom_cases allocated
      · exact ⟨.refl, ⟨_, _, colored⟩, complete⟩
      · cases more
  | succ remaining ih =>
      obtain ⟨coloring, colored, ⟨complete, rfl⟩ | ⟨_, _, more, rest⟩⟩ :=
        allocateFrom_cases allocated
      · exact ⟨.refl, ⟨_, _, colored⟩, complete⟩
      · cases more
        obtain ⟨rounds, last⟩ := ih rest
        exact ⟨.head ⟨_, rfl⟩ rounds, last⟩

end Allocation

theorem allocate_eq_ok {config : Allocation.Config} {f : Function} {a : Allocation}
    (allocated : (allocate config f).result = .ok a) :
    Relation.ReflTransGen (Allocation.SpillRound config.stem) f a.function ∧
      (∃ flow, Flow.build a.function = .ok flow ∧
        (Interference.build a.function (Liveness.solve a.function flow)
          config.target).ColoredBy config.target a.coloring) ∧
      a.coloring.spilled = ∅ := by
  obtain ⟨rounds, ⟨_, _, colored⟩, complete⟩ := Allocation.allocateFrom_eq_ok allocated
  exact ⟨rounds, Allocation.coloredBy_of_color colored complete, complete⟩

section Consequences

variable {f : Function} {flow : Flow} {target : Target} {coloring : Coloring}

theorem Interference.ColoredBy.arrives
    (sound : (Interference.build f (Liveness.solve f flow) target).ColoredBy target coloring)
    {position : Nat} {v : Var} {r : Register} (param : f.paramVars[position]? = some v)
    (arrives : target.argumentRegister position = some r) : coloring.color v = some r := by
  obtain ⟨s, listed, colored⟩ :=
    sound.colored v (Interference.node_of_param (List.mem_of_getElem? param))
  by_cases same : s = r
  · exact same ▸ colored
  · apply absurd colored
    apply sound.avoids v s
    exact Interference.arrival_conflict param arrives listed same

theorem Interference.ColoredBy.survives
    (sound : (Interference.build f (Liveness.solve f flow) target).ColoredBy target coloring)
    {b i : Nat} {block : Block} {point : DefUse} (found : f.blocks[b]? = some block)
    (here : block.points[i]? = some point) (call : point.isCall = true) {v : Var}
    (after : v ∈ (Liveness.solve f flow).liveOut b i) (kept : v ∉ point.defs) :
    ∃ r ∈ target.allocatable, coloring.color v = some r ∧ r ∉ target.clobbered := by
  obtain ⟨reading, member, reader, inside, read⟩ := Liveness.mem_uses_of_liveOut after
  obtain ⟨c, found'⟩ := List.getElem?_of_mem member
  obtain ⟨j, here'⟩ := List.getElem?_of_mem inside
  obtain ⟨r, listed, colored⟩ :=
    sound.colored v (Interference.node_of_point found' here' (Or.inr read))
  refine ⟨r, listed, colored, ?_⟩
  intro clobbered
  exact sound.avoids v r
    (Interference.clobbered_conflict found here call after kept clobbered) colored

end Consequences

/-- A successful allocation colors the graph of the function it returns: parameters have the
registers they arrive in, and nothing that is kept across a call has a register that the call
overwrites. -/
theorem allocate_coloredBy (config : Allocation.Config) (f : Function) (a : Allocation)
    (allocated : (allocate config f).result = .ok a) :
    ∃ flow, Flow.build a.function = .ok flow ∧
      (Interference.build a.function (Liveness.solve a.function flow)
        config.target).ColoredBy config.target a.coloring ∧
      (∀ position v r, a.function.paramVars[position]? = some v →
        config.target.argumentRegister position = some r → a.coloring.color v = some r) ∧
      (∀ b block i point, a.function.blocks[b]? = some block → block.points[i]? = some point →
        point.isCall = true → ∀ v ∈ (Liveness.solve a.function flow).liveOut b i,
          v ∉ point.defs →
            ∃ r ∈ config.target.allocatable,
              a.coloring.color v = some r ∧ r ∉ config.target.clobbered) ∧
      a.coloring.spilled = ∅ := by
  obtain ⟨-, ⟨flow, built, sound⟩, complete⟩ := allocate_eq_ok allocated
  refine ⟨flow, built, sound, ?_, ?_, complete⟩
  · intro position v r param arrives
    exact sound.arrives param arrives
  · intro b block i point found here call v after kept
    exact sound.survives found here call after kept

/-- A parameter arrives in a register that a call overwrites before the parameter is returned, so
it moves to a slot, and what arrives in its place has the register. -/
theorem allocate_coloredBy_kept_parameter :
    ∃ config f a v, config = { target := ⟨[.rdi, .rbx], [.rdi], [.rdi]⟩ } ∧
      f = ⟨"@f", ⟨.int64, 0⟩, [⟨⟨.int64, 0⟩, ⟨0⟩⟩],
        [⟨":s", [.call true (.label "print") [.const 1]], .retValue (.var ⟨0⟩)⟩], ⟨["%a"], 0⟩⟩ ∧
      (allocate config f).result = .ok a ∧ a.rounds = 1 ∧ a.function.paramVars = [v] ∧
      a.coloring.color v = some .rdi ∧ a.coloring.spilled = ∅ ∧
      ∃ flow, Flow.build a.function = .ok flow ∧
        (Interference.build a.function (Liveness.solve a.function flow)
          config.target).ColoredBy config.target a.coloring := by
  have ran :
      ((allocate { target := ⟨[.rdi, .rbx], [.rdi], [.rdi]⟩ }
        ⟨"@f", ⟨.int64, 0⟩, [⟨⟨.int64, 0⟩, ⟨0⟩⟩],
          [⟨":s", [.call true (.label "print") [.const 1]], .retValue (.var ⟨0⟩)⟩],
          ⟨["%a"], 0⟩⟩).result.toOption.map fun a => (a.rounds, a.function.paramVars)) =
      some (1, [⟨1⟩]) := by
    decide +kernel
  simp only [Option.map_eq_some_iff, toOption_eq_some, Prod.mk.injEq] at ran
  obtain ⟨a, allocated, rounds, params⟩ := ran
  obtain ⟨flow, built, sound, arrives, -, complete⟩ := allocate_coloredBy _ _ a allocated
  have arrived : a.coloring.color ⟨1⟩ = some .rdi :=
    arrives 0 ⟨1⟩ .rdi (by rw [params]; rfl) (by decide)
  exact ⟨_, _, a, ⟨1⟩, rfl, rfl, allocated, rounds, params, arrived, complete, flow, built, sound⟩

end Regalloc
