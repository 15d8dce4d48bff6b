import Mathlib
import Regalloc.Interference

/-!
# Edges of the interference graph

Two vertices are neighbors exactly if they differ and an edge between them was put into the graph,
in either direction. From this follow symmetry and all edges that the points of a function ask
for.
-/

namespace Regalloc

theorem Bindings.mem_keys_insert {κ α : Type} [DecidableEq κ] {bindings : Bindings κ α}
    {key other : κ} {value : α} :
    other ∈ (bindings.insert key value).keys ↔ other ∈ bindings.keys ∨ other = key := by
  rw [← isSome_get?, ← isSome_get?, get?_insert]
  by_cases same : other = key <;> simp [same]

namespace Interference

theorem interferes_iff {graph : Interference} {first second : Node} :
    graph.interferes first second = true ↔ second ∈ graph.neighborSet first :=
  Iff.rfl

@[simp] theorem mem_neighbors {graph : Interference} {node other : Node} :
    other ∈ graph.neighbors node ↔ other ∈ graph.neighborSet node := by
  simp [neighbors]

def Joined (mentions : List Mention) (first second : Node) : Prop :=
  first ≠ second ∧ (.edge first second ∈ mentions ∨ .edge second first ∈ mentions)

theorem addAll_cons (graph : Interference) (mention : Mention) (mentions : List Mention) :
    graph.addAll (mention :: mentions) = (graph.add mention).addAll mentions :=
  rfl

theorem mem_neighborSet_addAll (mentions : List Mention) (graph : Interference)
    (node other : Node) :
    other ∈ (graph.addAll mentions).neighborSet node ↔
      other ∈ graph.neighborSet node ∨ Joined mentions node other := by
  induction mentions generalizing graph with
  | nil => simp [addAll, Joined]
  | cons mention mentions ih =>
      rw [addAll_cons, ih]
      cases mention with
      | node vertex => simp [add, Joined]
      | edge first second =>
          simp only [add, mem_neighborSet_addEdge, Joined, List.mem_cons, Mention.edge.injEq]
          grind

theorem eq_edge_of_mem_clique {registers : List Register} {mention : Mention}
    (member : mention ∈ clique registers) :
    ∃ first ∈ registers, ∃ second ∈ registers,
      mention = .edge (.register first) (.register second) := by
  induction registers with
  | nil => cases member
  | cons head rest ih =>
      rcases List.mem_append.mp member with here | later
      · obtain ⟨other, listed, rfl⟩ := List.mem_map.mp here
        exact ⟨head, List.mem_cons_self, other, List.mem_cons_of_mem _ listed, rfl⟩
      · obtain ⟨first, left, second, right, same⟩ := ih later
        exact ⟨first, List.mem_cons_of_mem _ left, second, List.mem_cons_of_mem _ right, same⟩

def allMentions (f : Function) (live : Liveness) (target : Target) : List Mention :=
  target.allocatable.map (fun r => .node (.register r)) ++ clique target.allocatable ++
    mentions f live target

theorem build_eq (f : Function) (live : Liveness) (target : Target) :
    build f live target = ({} : Interference).addAll (allMentions f live target) := by
  simp only [build, ofTarget, allMentions, addAll, List.foldl_append]

theorem interferes_build {f : Function} {live : Liveness} {target : Target}
    {first second : Node} :
    (build f live target).interferes first second = true ↔
      Joined (allMentions f live target) first second := by
  have empty : ¬second ∈ ({} : Interference).neighborSet first :=
    IndexSet.not_mem_empty second
  rw [interferes_iff, build_eq, mem_neighborSet_addAll]
  simp [empty]

theorem interferes_symm {f : Function} {live : Liveness} {target : Target} {first second : Node}
    (conflict : (build f live target).interferes first second = true) :
    (build f live target).interferes second first = true := by
  rw [interferes_build] at conflict ⊢
  exact ⟨conflict.1.symm, conflict.2.symm⟩

theorem interferes_of_edge {f : Function} {live : Liveness} {target : Target}
    {first second : Node} (apart : first ≠ second)
    (mentioned : .edge first second ∈ mentions f live target) :
    (build f live target).interferes first second = true := by
  rw [interferes_build]
  refine ⟨apart, Or.inl ?_⟩
  exact List.mem_append_right _ mentioned

def Mention.brings (node : Node) : Mention → Prop
  | .node vertex => node = vertex
  | .edge first second => first ≠ second ∧ (node = first ∨ node = second)

theorem mem_nodes_addNode (graph : Interference) (vertex node : Node) :
    node ∈ (graph.addNode vertex).nodes ↔ node ∈ graph.nodes ∨ node = vertex := by
  unfold addNode
  split
  · rename_i present
    have inside : vertex ∈ graph.nodes := (Bindings.isSome_get? _ _).mp present
    constructor
    · exact Or.inl
    · rintro (old | rfl)
      · exact old
      · exact inside
  · exact Bindings.mem_keys_insert

theorem mem_nodes_link (graph : Interference) (first second node : Node) :
    node ∈ (graph.link first second).nodes ↔ node ∈ graph.nodes ∨ node = first :=
  Bindings.mem_keys_insert

theorem mem_nodes_add (graph : Interference) (mention : Mention) (node : Node) :
    node ∈ (graph.add mention).nodes ↔ node ∈ graph.nodes ∨ mention.brings node := by
  cases mention with
  | node vertex => exact mem_nodes_addNode graph vertex node
  | edge first second =>
      by_cases same : first = second
      · simp [add, addEdge, Mention.brings, same]
      · simp [add, addEdge, Mention.brings, same, mem_nodes_link, or_assoc]

theorem mem_nodes_addAll (mentions : List Mention) (graph : Interference) (node : Node) :
    node ∈ (graph.addAll mentions).nodes ↔
      node ∈ graph.nodes ∨ ∃ mention ∈ mentions, mention.brings node := by
  induction mentions generalizing graph with
  | nil => simp [addAll]
  | cons mention mentions ih =>
      rw [addAll_cons, ih, mem_nodes_add]
      simp [or_assoc]

theorem mem_nodes_build {f : Function} {live : Liveness} {target : Target} {node : Node}
    {mention : Mention} (mentioned : mention ∈ mentions f live target)
    (brings : mention.brings node) : node ∈ (build f live target).nodes := by
  rw [build_eq, mem_nodes_addAll]
  exact Or.inr ⟨mention, List.mem_append_right _ mentioned, brings⟩

theorem mem_nodes_of_interferes {f : Function} {live : Liveness} {target : Target}
    {first second : Node} (conflict : (build f live target).interferes first second = true) :
    first ∈ (build f live target).nodes := by
  obtain ⟨apart, forward | backward⟩ := interferes_build.mp conflict
  · rw [build_eq, mem_nodes_addAll]
    exact Or.inr ⟨_, forward, apart, Or.inl rfl⟩
  · rw [build_eq, mem_nodes_addAll]
    exact Or.inr ⟨_, backward, apart.symm, Or.inr rfl⟩

@[simp] theorem mem_vars {graph : Interference} {v : Var} :
    v ∈ graph.vars ↔ .var v ∈ graph.nodes := by
  simp only [vars, List.mem_filterMap]
  constructor
  · rintro ⟨node, member, found⟩
    cases node with
    | register r => simp [Node.var?] at found
    | var u =>
        simp only [Node.var?, Option.some.injEq] at found
        exact found ▸ member
  · intro member
    exact ⟨.var v, member, rfl⟩

section Points

variable {f : Function} {live : Liveness} {target : Target}

theorem mentions_of_point {b i : Nat} {block : Block} {point : DefUse}
    (found : f.blocks[b]? = some block) (here : block.points[i]? = some point)
    {mention : Mention} (mentioned : mention ∈ pointMentions target point (live.liveOut b i)) :
    mention ∈ mentions f live target := by
  simp only [mentions, List.mem_append, List.mem_flatMap]
  refine Or.inl (Or.inl (Or.inr ⟨(block, b), ?_, (point, i), ?_, mentioned⟩))
  · exact List.mem_zipIdx_iff_getElem?.mpr found
  · exact List.mem_zipIdx_iff_getElem?.mpr here

theorem node_of_point {b i : Nat} {block : Block} {point : DefUse}
    (found : f.blocks[b]? = some block) (here : block.points[i]? = some point) {v : Var}
    (occurs : v ∈ point.defs ∨ v ∈ point.uses) : .var v ∈ (build f live target).nodes := by
  have mentioned : .node (.var v) ∈ pointMentions target point (live.liveOut b i) := by
    simp only [pointMentions, List.mem_append, List.mem_map]
    exact Or.inl (Or.inl ⟨v, occurs, rfl⟩)
  exact mem_nodes_build (mentions_of_point found here mentioned) rfl

theorem node_of_param {v : Var} (param : v ∈ f.paramVars) :
    .var v ∈ (build f live target).nodes := by
  have mentioned : .node (.var v) ∈ mentions f live target := by
    simp only [mentions, List.mem_append, List.mem_map]
    exact Or.inl (Or.inl (Or.inl ⟨v, param, rfl⟩))
  exact mem_nodes_build mentioned rfl

theorem written_conflict {b i : Nat} {block : Block} {point : DefUse}
    (found : f.blocks[b]? = some block) (here : block.points[i]? = some point) {v other : Var}
    (written : v ∈ point.defs) (after : other ∈ live.liveOut b i) (apart : v ≠ other) :
    (build f live target).interferes (.var v) (.var other) = true := by
  apply interferes_of_edge (by simpa using apart)
  apply mentions_of_point found here
  simp only [pointMentions, List.mem_append, List.mem_flatMap, List.mem_map]
  exact Or.inl (Or.inr ⟨v, written, other, IndexSet.mem_toList.mpr after, rfl⟩)

/-- What is kept across a call conflicts with the registers that the call may overwrite. -/
theorem clobbered_conflict {b i : Nat} {block : Block} {point : DefUse}
    (found : f.blocks[b]? = some block) (here : block.points[i]? = some point)
    (call : point.isCall = true) {v : Var} (after : v ∈ live.liveOut b i)
    (kept : v ∉ point.defs) {r : Register} (clobbered : r ∈ target.clobbered) :
    (build f live target).interferes (.var v) (.register r) = true := by
  apply interferes_of_edge (by simp)
  apply mentions_of_point found here
  simp only [pointMentions, call, if_true, List.mem_append, List.mem_flatMap, List.mem_map,
    List.mem_filter]
  exact Or.inr ⟨v, ⟨IndexSet.mem_toList.mpr after, by simpa using kept⟩, r, clobbered, rfl⟩

theorem arrival_conflict {position : Nat} {v : Var} {fixed r : Register}
    (param : f.paramVars[position]? = some v)
    (arrives : target.argumentRegister position = some fixed)
    (allocatable : r ∈ target.allocatable) (apart : r ≠ fixed) :
    (build f live target).interferes (.var v) (.register r) = true := by
  apply interferes_of_edge (by simp)
  simp only [mentions, List.mem_append, List.mem_flatMap]
  refine Or.inl (Or.inr ⟨(v, position), List.mem_zipIdx_iff_getElem?.mpr param, ?_⟩)
  simp only [arrivalMentions, arrives, List.mem_map, List.mem_filter]
  exact ⟨r, ⟨allocatable, by simpa using apart⟩, rfl⟩

theorem entry_conflict {v other : Var} (param : v ∈ f.paramVars)
    (live_on_entry : other ∈ live.blockIn 0) (apart : v ≠ other) :
    (build f live target).interferes (.var v) (.var other) = true := by
  apply interferes_of_edge (by simpa using apart)
  simp only [mentions, entryMentions, List.mem_append, List.mem_flatMap, List.mem_map]
  exact Or.inr ⟨v, param, other, IndexSet.mem_toList.mpr live_on_entry, rfl⟩

end Points

end Interference

end Regalloc
