import Mathlib
import Regalloc.Proofs.RemovalOrder

/-!
# The interference graph as a simple graph

Whatever vertices and edges are added to the graph of a target's registers, in whatever order, the
result is a simple graph: its neighbors are those of the registers' clique and of the added edges,
loops left out. Degrees and edges are counted rightly, and vertices are listed once, as they are
first named.
-/

namespace Regalloc.Interference

section FirstOccurrences

variable {α : Type} [DecidableEq α]

theorem eraseDups_append_singleton (seen : List α) (a : α) :
    (seen ++ [a]).eraseDups = if a ∈ seen then seen.eraseDups else seen.eraseDups ++ [a] := by
  rw [List.eraseDups_append]
  by_cases old : a ∈ seen
  · simp [List.removeAll, old]
  · simp [List.removeAll, old, List.eraseDups_cons]

theorem eraseDups_append_of_subset {seen more : List α} (known : more ⊆ seen) :
    (seen ++ more).eraseDups = seen.eraseDups := by
  have nothing : more.removeAll seen = [] := by
    rw [List.removeAll, List.filter_eq_nil_iff]
    intro a member
    simpa using known member
  rw [List.eraseDups_append, nothing, List.eraseDups_nil, List.append_nil]

theorem nodup_eraseDups (members : List α) : members.eraseDups.Nodup := by
  induction members using List.reverseRecOn with
  | nil => exact List.nodup_nil
  | append_singleton seen a ih =>
      rw [eraseDups_append_singleton]
      split
      · exact ih
      · rename_i new
        rw [← List.concat_eq_append, List.nodup_concat]
        exact ⟨mt List.mem_eraseDups.mp new, ih⟩

end FirstOccurrences

def Mention.vertices : Mention → List Node
  | .node vertex => [vertex]
  | .edge first second => if first = second then [] else [first, second]

section Order

variable {graph : Interference} {seen : List Node}

theorem nodes_link (listed : graph.nodes = seen.eraseDups) (first second : Node) :
    (graph.link first second).nodes = (seen ++ [first]).eraseDups := by
  rw [eraseDups_append_singleton, ← listed, link, nodes, Bindings.keys_insert, ← nodes, listed]
  simp only [List.mem_eraseDups]

theorem nodes_addNode (listed : graph.nodes = seen.eraseDups) (vertex : Node) :
    (graph.addNode vertex).nodes = (seen ++ [vertex]).eraseDups := by
  have known : (graph.adjacency.get? vertex).isSome = true ↔ vertex ∈ seen := by
    rw [Bindings.isSome_get?, ← nodes, listed, List.mem_eraseDups]
  rw [eraseDups_append_singleton, ← listed]
  by_cases old : vertex ∈ seen
  · rw [addNode, if_pos (known.mpr old), if_pos old]
  · have absent : vertex ∉ graph.adjacency.keys := by
      rwa [← nodes, listed, List.mem_eraseDups]
    rw [addNode, if_neg (mt known.mp old), if_neg old]
    exact (Bindings.keys_insert _ _ _).trans (if_neg absent)

theorem nodes_add (listed : graph.nodes = seen.eraseDups) (mention : Mention) :
    (graph.add mention).nodes = (seen ++ mention.vertices).eraseDups := by
  cases mention with
  | node vertex => exact nodes_addNode listed vertex
  | edge first second =>
      by_cases same : first = second
      · simp [add, addEdge, Mention.vertices, same, listed]
      · simp only [add, addEdge, Mention.vertices, same, if_false]
        rw [nodes_link (nodes_link listed first second) second first, List.append_assoc]
        rfl

theorem nodes_addAll (listed : graph.nodes = seen.eraseDups) (mentions : List Mention) :
    (graph.addAll mentions).nodes = (seen ++ mentions.flatMap Mention.vertices).eraseDups := by
  induction mentions generalizing graph seen with
  | nil => simpa [addAll] using listed
  | cons mention mentions ih =>
      rw [addAll_cons, ih (nodes_add listed mention), List.flatMap_cons, List.append_assoc]

end Order

theorem edge_mem_clique {registers : List Register} {first second : Register}
    (left : first ∈ registers) (right : second ∈ registers) (apart : first ≠ second) :
    .edge (.register first) (.register second) ∈ clique registers ∨
      .edge (.register second) (.register first) ∈ clique registers := by
  induction registers with
  | nil => cases left
  | cons head rest ih =>
      simp only [clique, List.mem_append]
      rcases List.mem_cons.mp left with rfl | later
      · have other := (List.mem_cons.mp right).resolve_left apart.symm
        exact Or.inl (Or.inl (List.mem_map_of_mem other))
      · rcases List.mem_cons.mp right with rfl | other
        · exact Or.inr (Or.inl (List.mem_map_of_mem later))
        · exact (ih later other).imp Or.inr Or.inr

/-- The simple graph that is asked for. The registers of the target are pairwise neighbors, and
so are the ends of every edge that is added. -/
def conflicts (target : Target) (added : List Mention) : SimpleGraph Node :=
  SimpleGraph.fromRel fun first second =>
    .edge first second ∈ added ∨
      first ∈ target.allocatable.map Node.register ∧ second ∈ target.allocatable.map Node.register

theorem mem_neighborSet_ofTarget (target : Target) (first second : Node) :
    second ∈ (ofTarget target).neighborSet first ↔
      first ≠ second ∧ first ∈ target.allocatable.map Node.register ∧
        second ∈ target.allocatable.map Node.register := by
  have empty : ¬second ∈ ({} : Interference).neighborSet first := IndexSet.not_mem_empty second
  rw [ofTarget, mem_neighborSet_addAll, or_iff_right empty, Joined]
  refine and_congr_right fun apart => ?_
  simp only [List.mem_append, List.mem_map, reduceCtorEq, and_false, exists_false, false_or]
  constructor
  · rintro (joined | joined)
    · obtain ⟨r, left, s, right, same⟩ := eq_edge_of_mem_clique joined
      cases same
      exact ⟨⟨r, left, rfl⟩, s, right, rfl⟩
    · obtain ⟨r, left, s, right, same⟩ := eq_edge_of_mem_clique joined
      cases same
      exact ⟨⟨s, right, rfl⟩, r, left, rfl⟩
  · rintro ⟨⟨r, left, rfl⟩, s, right, rfl⟩
    exact edge_mem_clique left right fun same => apart (same ▸ rfl)

theorem interferes_addAll_iff (target : Target) (added : List Mention) (first second : Node) :
    ((ofTarget target).addAll added).interferes first second = true ↔
      (conflicts target added).Adj first second := by
  rw [interferes_iff, mem_neighborSet_addAll, mem_neighborSet_ofTarget, conflicts,
    SimpleGraph.fromRel_adj, Joined]
  grind

theorem vertices_clique_subset (registers : List Register) :
    (clique registers).flatMap Mention.vertices ⊆ registers.map Node.register := by
  intro node member
  obtain ⟨mention, joined, named⟩ := List.mem_flatMap.mp member
  obtain ⟨first, left, second, right, rfl⟩ := eq_edge_of_mem_clique joined
  simp only [Mention.vertices] at named
  split at named
  · cases named
  · rcases List.mem_pair.mp named with rfl | rfl
    · exact List.mem_map_of_mem left
    · exact List.mem_map_of_mem right

theorem nodes_ofTarget_addAll (target : Target) (added : List Mention) :
    ((ofTarget target).addAll added).nodes =
      (target.allocatable.map Node.register ++ added.flatMap Mention.vertices).eraseDups := by
  apply nodes_addAll
  have empty : ({} : Interference).nodes = ([] : List Node).eraseDups := rfl
  have registers : (target.allocatable.map fun r => Mention.node (.register r)).flatMap
      Mention.vertices = target.allocatable.map Node.register := by
    rw [List.flatMap_map]
    exact List.map_eq_flatMap.symm
  rw [ofTarget, nodes_addAll empty, List.nil_append, List.flatMap_append, registers]
  -- The edges between the registers name no vertex that was not named before.
  exact eraseDups_append_of_subset (vertices_clique_subset target.allocatable)

theorem mem_nodes_of_conflict {target : Target} {added : List Mention} {first second : Node}
    (joined : (conflicts target added).Adj first second) :
    first ∈ ((ofTarget target).addAll added).nodes := by
  have named : ∀ {mention : Mention}, mention ∈ added → first ∈ mention.vertices →
      first ∈ added.flatMap Mention.vertices :=
    fun member named => List.mem_flatMap.mpr ⟨_, member, named⟩
  obtain ⟨apart, (edge | ⟨register, -⟩) | (edge | ⟨-, register⟩)⟩ :=
    (SimpleGraph.fromRel_adj _ _ _).mp joined
  all_goals rw [nodes_ofTarget_addAll, List.mem_eraseDups, List.mem_append]
  · exact Or.inr (named edge (by simp [Mention.vertices, apart]))
  · exact Or.inl register
  · exact Or.inr (named edge (by simp [Mention.vertices, apart.symm]))
  · exact Or.inl register

/-- A graph that holds a simple graph and reports its vertices, degrees and edges rightly. -/
structure Holds (graph : Interference) (simple : SimpleGraph Node) : Prop where
  interferes : ∀ first second, graph.interferes first second = true ↔ simple.Adj first second
  symmetric : graph.isSymmetric = true
  irreflexive : ∀ node, graph.interferes node node = false
  inside : ∀ node other, graph.interferes node other = true → other ∈ graph.nodes
  once : graph.nodes.Nodup
  degree : ∀ node,
    (graph.degree node : ℕ∞) = {other | graph.interferes node other = true}.encard
  edgeCount : (graph.edgeCount : ℕ∞) = simple.edgeSet.encard

section Counting

variable {graph : Interference} {simple : SimpleGraph Node}

theorem encard_interferes (graph : Interference) (node : Node) :
    {other | graph.interferes node other = true}.encard = graph.degree node := by
  have listed : {other | graph.interferes node other = true} =
      ((graph.neighbors node).toFinset : Set Node) := by
    ext other
    simp [interferes_iff]
  rw [listed, Set.encard_coe_eq_coe_finsetCard,
    List.toFinset_card_of_nodup (graph.nodup_neighbors node)]
  rfl

theorem edgeCount_eq (graph : Interference) :
    graph.edgeCount = (graph.nodes.map graph.degree).sum / 2 := by
  rw [edgeCount, List.sum_eq_foldr, List.foldr_map]

/-- Vertices without edges can be left out. -/
theorem encard_edgeSet_induce {vertices : Set Node} (inside : simple.support ⊆ vertices) :
    (simple.induce vertices).edgeSet.encard = simple.edgeSet.encard := by
  have whole : (simple.induce vertices).spanningCoe = simple :=
    (simple.spanningCoe_induce_eq_self vertices).mpr inside
  calc (simple.induce vertices).edgeSet.encard
      = (simple.induce vertices).spanningCoe.edgeSet.encard := by
        rw [SimpleGraph.spanningCoe, SimpleGraph.edgeSet_map,
          (Function.Embedding.injective _).encard_image]
    _ = simple.edgeSet.encard := by rw [whole]

theorem encard_neighborSet_induce {vertices : Set Node}
    (adjacent : ∀ first second, graph.interferes first second = true ↔ simple.Adj first second)
    (inside : simple.support ⊆ vertices) (v : vertices) :
    ((simple.induce vertices).neighborSet v).encard = graph.degree v := by
  have listed : {other | graph.interferes v other = true} ⊆
      Set.range (Subtype.val : vertices → Node) := by
    intro other joined
    rw [Subtype.range_val]
    exact inside ⟨v, ((adjacent v other).mp joined).symm⟩
  have neighbors : (simple.induce vertices).neighborSet v =
      Set.preimage Subtype.val {other | graph.interferes v other = true} := by
    ext other
    exact (adjacent v other).symm
  rw [neighbors, Set.encard_preimage_of_injective_subset_range Subtype.val_injective listed,
    encard_interferes]

/-- The sum of all degrees counts every edge at both ends. The vertices that are listed hold all
edges, so that the formula for finite graphs applies to the graph on these. -/
theorem sum_degree (once : graph.nodes.Nodup)
    (adjacent : ∀ first second, graph.interferes first second = true ↔ simple.Adj first second)
    (inside : ∀ first second, simple.Adj first second → first ∈ graph.nodes) :
    ∃ edges : ℕ, simple.edgeSet.encard = edges ∧
      (graph.nodes.map graph.degree).sum = 2 * edges := by
  classical
  let vertices : Set Node := graph.nodes.toFinset
  let inner := simple.induce vertices
  have support : simple.support ⊆ vertices := by
    rintro first ⟨second, joined⟩
    simpa [vertices] using inside first second joined
  have degrees : ∀ v : vertices, graph.degree v = inner.degree v := by
    intro v
    have counted := encard_neighborSet_induce adjacent support v
    rw [← SimpleGraph.coe_neighborFinset, Set.encard_coe_eq_coe_finsetCard] at counted
    exact_mod_cast counted.symm
  refine ⟨inner.edgeFinset.card, ?_, ?_⟩
  · rw [← encard_edgeSet_induce support, ← SimpleGraph.coe_edgeFinset,
      Set.encard_coe_eq_coe_finsetCard]
  · calc (graph.nodes.map graph.degree).sum
        = ∑ v ∈ graph.nodes.toFinset, graph.degree v := (List.sum_toFinset _ once).symm
      _ = ∑ v : vertices, graph.degree v := (Finset.sum_coe_sort _ _).symm
      _ = ∑ v : vertices, inner.degree v := Finset.sum_congr rfl fun v _ => degrees v
      _ = 2 * inner.edgeFinset.card := inner.sum_degrees_eq_twice_card_edges

theorem Holds.of_adjacent (once : graph.nodes.Nodup)
    (adjacent : ∀ first second, graph.interferes first second = true ↔ simple.Adj first second)
    (inside : ∀ first second, simple.Adj first second → first ∈ graph.nodes) :
    graph.Holds simple where
  interferes := adjacent
  symmetric := by
    simp only [isSymmetric, List.all_eq_true, Bool.and_eq_true, bne_iff_ne]
    intro node _ other neighbor
    have joined := (adjacent node other).mp (mem_neighbors.mp neighbor)
    exact ⟨joined.ne.symm, (adjacent other node).mpr joined.symm⟩
  irreflexive := by
    intro node
    rw [Bool.eq_false_iff, Ne, adjacent]
    exact simple.irrefl
  inside := fun node other joined => inside other node ((adjacent node other).mp joined).symm
  once := once
  degree := fun node => (graph.encard_interferes node).symm
  edgeCount := by
    obtain ⟨edges, counted, sum⟩ := sum_degree once adjacent inside
    rw [counted, edgeCount_eq, sum, Nat.mul_div_cancel_left edges Nat.two_pos]

end Counting

/-- Adding vertices and edges to the graph of the registers gives the simple graph that is asked
for. The vertices stand in the order in which they are first named, registers first; a loop adds
nothing, and the order of the additions does not matter. -/
theorem addAll_holds (target : Target) (added : List Mention) :
    ((ofTarget target).addAll added).Holds (conflicts target added) ∧
    ((ofTarget target).addAll added).nodes =
      (target.allocatable.map Node.register ++ added.flatMap Mention.vertices).eraseDups ∧
    (∀ node, ((ofTarget target).addAll added).addEdge node node =
      (ofTarget target).addAll added) ∧
    ∀ reordered : List Mention, reordered.Perm added → ∀ first second,
      ((ofTarget target).addAll reordered).interferes first second =
        ((ofTarget target).addAll added).interferes first second := by
  refine ⟨.of_adjacent ?_ (interferes_addAll_iff target added) fun _ _ => mem_nodes_of_conflict,
    nodes_ofTarget_addAll target added, fun node => if_pos rfl, ?_⟩
  · rw [nodes_ofTarget_addAll]
    exact nodup_eraseDups _
  · intro reordered same first second
    rw [Bool.eq_iff_iff, interferes_addAll_iff, interferes_addAll_iff]
    simp only [conflicts, SimpleGraph.fromRel_adj, same.mem_iff]

def doubled : Target := ⟨[.r11, .r10, .r11], [], []⟩

def repeated : List Mention :=
  [.edge (.var ⟨1⟩) (.var ⟨1⟩), .edge (.var ⟨2⟩) (.register .r10), .node (.var ⟨0⟩),
    .edge (.register .r10) (.var ⟨2⟩)]

theorem addAll_holds_repeated :
    ((ofTarget doubled).addAll repeated).Holds (conflicts doubled repeated) ∧
    ((ofTarget doubled).addAll repeated).nodes =
      [.register .r11, .register .r10, .var ⟨2⟩, .var ⟨0⟩] ∧
    ((ofTarget doubled).addAll repeated).edgeCount = 2 ∧
    ∀ first second, ((ofTarget doubled).addAll repeated.reverse).interferes first second =
      ((ofTarget doubled).addAll repeated).interferes first second := by
  obtain ⟨holds, listed, -, reordered⟩ := addAll_holds doubled repeated
  exact ⟨holds, listed.trans (by decide), by decide +kernel, reordered _ (List.reverse_perm _)⟩

end Regalloc.Interference
