import Mathlib
import Regalloc.Proofs.ConflictGraph
import Regalloc.Proofs.LiveEquations

/-!
# What an interference graph is made of

The variables of the graph are those that the function mentions. Two of them conflict exactly if
one is written while the other is live afterwards, or one is a parameter and the other is live on
entry; and a variable conflicts with a register exactly if it is kept across a call that may
overwrite the register, or arrives in another register.
-/

namespace Regalloc

theorem Function.mem_mentions {f : Function} {v : Var} :
    v ∈ f.mentions ↔ v ∈ f.paramVars ∨
      ∃ block ∈ f.blocks, ∃ point ∈ block.points, v ∈ point.defs ∨ v ∈ point.uses := by
  simp only [mentions, List.mem_append, List.mem_flatMap]

theorem Liveness.mem_mentions_of_liveOut {f : Function} {flow : Flow} {b i : Nat} {v : Var}
    (live : v ∈ (solve f flow).liveOut b i) : v ∈ f.mentions := by
  obtain ⟨block, listed, point, inside, used⟩ := mem_uses_of_liveOut live
  exact Function.mem_mentions.mpr (Or.inr ⟨block, listed, point, inside, Or.inr used⟩)

theorem Liveness.mem_mentions_of_liveIn {f : Function} {flow : Flow}
    (built : Flow.build f = .ok flow) {b i : Nat} {block : Block} {point : DefUse}
    (found : f.blocks[b]? = some block) (here : block.points[i]? = some point) {v : Var}
    (live : v ∈ (solve f flow).liveIn b i) : v ∈ f.mentions := by
  rw [mem_liveIn built found here] at live
  rcases live with ⟨after, -⟩ | used
  · exact mem_mentions_of_liveOut after
  · exact Function.mem_mentions.mpr (Or.inr ⟨block, List.mem_of_getElem? found, point,
      List.mem_of_getElem? here, Or.inr used⟩)

theorem Liveness.mem_mentions_of_blockIn {f : Function} {flow : Flow}
    (built : Flow.build f = .ok flow) {b : Nat} {v : Var}
    (live : v ∈ (solve f flow).blockIn b) : v ∈ f.mentions := by
  cases found : f.blocks[b]? with
  | none =>
      rw [blockIn, solve_block_eq_nil found] at live
      exact absurd live (IndexSet.not_mem_empty v)
  | some block =>
      have nonempty : 0 < block.points.length := by simp [Block.points]
      rw [blockIn_eq_liveIn] at live
      exact mem_mentions_of_liveIn built found (List.getElem?_eq_getElem nonempty) live

namespace Interference

section Edges

variable {f : Function} {live : Liveness} {target : Target}

inductive Reason (f : Function) (live : Liveness) (target : Target) : Mention → Prop
  | register (r : Register) : Reason f live target (.node (.register r))
  | registers (r s : Register) : Reason f live target (.edge (.register r) (.register s))
  | mentioned {v : Var} : v ∈ f.mentions → Reason f live target (.node (.var v))
  | written {b i : Nat} {block : Block} {point : DefUse} {u v : Var} :
      f.blocks[b]? = some block → block.points[i]? = some point → u ∈ point.defs →
      v ∈ live.liveOut b i → Reason f live target (.edge (.var u) (.var v))
  | clobbered {b i : Nat} {block : Block} {point : DefUse} {v : Var} {r : Register} :
      f.blocks[b]? = some block → block.points[i]? = some point → point.isCall = true →
      v ∈ live.liveOut b i → v ∉ point.defs → r ∈ target.clobbered →
      Reason f live target (.edge (.var v) (.register r))
  | arrival {position : Nat} {v : Var} {fixed r : Register} :
      f.paramVars[position]? = some v → target.argumentRegister position = some fixed →
      r ∈ target.allocatable → r ≠ fixed → Reason f live target (.edge (.var v) (.register r))
  | entry {u v : Var} : u ∈ f.paramVars → v ∈ live.blockIn 0 →
      Reason f live target (.edge (.var u) (.var v))

theorem reason_of_point {b i : Nat} {block : Block} {point : DefUse}
    (found : f.blocks[b]? = some block) (here : block.points[i]? = some point)
    {mention : Mention} (member : mention ∈ pointMentions target point (live.liveOut b i)) :
    Reason f live target mention := by
  simp only [pointMentions, List.mem_append, List.mem_map, List.mem_flatMap] at member
  rcases member with (⟨v, occurs, rfl⟩ | ⟨u, written, v, after, rfl⟩) | member
  · exact .mentioned (Function.mem_mentions.mpr (Or.inr ⟨block, List.mem_of_getElem? found, point,
      List.mem_of_getElem? here, occurs⟩))
  · exact .written found here written (IndexSet.mem_toList.mp after)
  · split at member
    · rename_i call
      simp only [List.mem_flatMap, List.mem_filter, List.mem_map, IndexSet.mem_toList] at member
      obtain ⟨v, ⟨after, kept⟩, r, overwritten, rfl⟩ := member
      exact .clobbered found here call after (by simpa using kept) overwritten
    · cases member

theorem reason_of_arrival {position : Nat} {v : Var} (param : f.paramVars[position]? = some v)
    {mention : Mention} (member : mention ∈ arrivalMentions target position v) :
    Reason f live target mention := by
  unfold arrivalMentions at member
  split at member
  · cases member
  · rename_i fixed arrives
    simp only [List.mem_map, List.mem_filter, bne_iff_ne] at member
    obtain ⟨r, ⟨allocatable, apart⟩, rfl⟩ := member
    exact .arrival param arrives allocatable apart

theorem reason_of_mem {mention : Mention} (member : mention ∈ allMentions f live target) :
    Reason f live target mention := by
  rcases List.mem_append.mp member with member | member
  · rcases List.mem_append.mp member with member | member
    · obtain ⟨r, -, rfl⟩ := List.mem_map.mp member
      exact .register r
    · obtain ⟨first, -, second, -, rfl⟩ := eq_edge_of_mem_clique member
      exact .registers first second
  · simp only [mentions, List.mem_append, List.mem_flatMap, List.mem_map] at member
    rcases member with ((⟨v, param, rfl⟩ | ⟨⟨block, b⟩, found, ⟨point, i⟩, here, member⟩) |
      ⟨⟨v, position⟩, param, member⟩) | member
    · exact .mentioned (Function.mem_mentions.mpr (Or.inl param))
    · exact reason_of_point (List.mem_zipIdx_iff_getElem?.mp found)
        (List.mem_zipIdx_iff_getElem?.mp here) member
    · exact reason_of_arrival (List.mem_zipIdx_iff_getElem?.mp param) member
    · simp only [entryMentions, List.mem_flatMap, List.mem_map, IndexSet.mem_toList] at member
      obtain ⟨u, param, v, entered, rfl⟩ := member
      exact .entry param entered

/-- One variable is written at a point after which the other is live, or is a parameter while the
other is live on entry. -/
inductive Meets (f : Function) (live : Liveness) : Var → Var → Prop
  | written {b i : Nat} {block : Block} {point : DefUse} {u v : Var} :
      f.blocks[b]? = some block → block.points[i]? = some point → u ∈ point.defs →
      v ∈ live.liveOut b i → Meets f live u v
  | entry {u v : Var} : u ∈ f.paramVars → v ∈ live.blockIn 0 → Meets f live u v

theorem meets_of_edge {u v : Var}
    (member : .edge (.var u) (.var v) ∈ allMentions f live target) : Meets f live u v := by
  cases reason_of_mem member with
  | written found here written after => exact .written found here written after
  | entry param entered => exact .entry param entered

/-- Variables conflict for no other reasons. -/
theorem var_conflict_iff {u v : Var} :
    (build f live target).interferes (.var u) (.var v) = true ↔
      u ≠ v ∧ (Meets f live u v ∨ Meets f live v u) := by
  have conflict : ∀ {u v : Var}, u ≠ v → Meets f live u v →
      (build f live target).interferes (.var u) (.var v) = true := by
    intro u v apart meets
    cases meets with
    | written found here written after => exact written_conflict found here written after apart
    | entry param entered => exact entry_conflict param entered apart
  constructor
  · intro joined
    obtain ⟨apart, forward | backward⟩ := interferes_build.mp joined
    · exact ⟨fun same => apart (same ▸ rfl), Or.inl (meets_of_edge forward)⟩
    · exact ⟨fun same => apart (same ▸ rfl), Or.inr (meets_of_edge backward)⟩
  · rintro ⟨apart, forward | backward⟩
    · exact conflict apart forward
    · exact interferes_symm (conflict apart.symm backward)

theorem loopless (node : Node) : ¬(build f live target).interferes node node = true :=
  fun loop => (interferes_build.mp loop).1 rfl

/-- A variable is kept across a call that may overwrite the register, or arrives in another
register. -/
inductive Shuns (f : Function) (live : Liveness) (target : Target) : Var → Register → Prop
  | clobbered {b i : Nat} {block : Block} {point : DefUse} {v : Var} {r : Register} :
      f.blocks[b]? = some block → block.points[i]? = some point → point.isCall = true →
      v ∈ live.liveOut b i → v ∉ point.defs → r ∈ target.clobbered → Shuns f live target v r
  | arrival {position : Nat} {v : Var} {fixed r : Register} :
      f.paramVars[position]? = some v → target.argumentRegister position = some fixed →
      r ∈ target.allocatable → r ≠ fixed → Shuns f live target v r

theorem register_conflict_iff {v : Var} {r : Register} :
    (build f live target).interferes (.var v) (.register r) = true ↔ Shuns f live target v r := by
  constructor
  · intro joined
    obtain ⟨-, forward | backward⟩ := interferes_build.mp joined
    · cases reason_of_mem forward with
      | clobbered found here call after kept overwritten =>
          exact .clobbered found here call after kept overwritten
      | arrival param arrives allocatable apart => exact .arrival param arrives allocatable apart
    · cases reason_of_mem backward
  · intro shuns
    cases shuns with
    | clobbered found here call after kept overwritten =>
        exact clobbered_conflict found here call after kept overwritten
    | arrival param arrives allocatable apart =>
        exact arrival_conflict param arrives allocatable apart

end Edges

section Vertices

variable {f : Function} {flow : Flow} {target : Target}

theorem var_mem_nodes_iff (built : Flow.build f = .ok flow) {v : Var} :
    .var v ∈ (build f (Liveness.solve f flow) target).nodes ↔ v ∈ f.mentions := by
  constructor
  · intro vertex
    rw [build_eq, mem_nodes_addAll] at vertex
    obtain absurd | ⟨mention, member, brings⟩ := vertex
    · cases absurd
    · cases reason_of_mem member with
      | register r => cases brings
      | registers r s => simp [Mention.brings] at brings
      | mentioned occurs =>
          cases brings
          exact occurs
      | @written b i block point u w found here written after =>
          rcases brings.2 with same | same
          · cases same
            exact Function.mem_mentions.mpr (Or.inr ⟨block, List.mem_of_getElem? found, point,
              List.mem_of_getElem? here, Or.inl written⟩)
          · cases same
            exact Liveness.mem_mentions_of_liveOut after
      | clobbered found here call after kept overwritten =>
          rcases brings.2 with same | same
          · cases same
            exact Liveness.mem_mentions_of_liveOut after
          · cases same
      | arrival param arrives allocatable apart =>
          rcases brings.2 with same | same
          · cases same
            exact Function.mem_mentions.mpr (Or.inl (List.mem_of_getElem? param))
          · cases same
      | entry param entered =>
          rcases brings.2 with same | same
          · cases same
            exact Function.mem_mentions.mpr (Or.inl param)
          · cases same
            exact Liveness.mem_mentions_of_blockIn built entered
  · intro occurs
    rcases Function.mem_mentions.mp occurs with param | ⟨block, listed, point, inside, occurs⟩
    · exact node_of_param param
    · obtain ⟨b, found⟩ := List.getElem?_of_mem listed
      obtain ⟨i, here⟩ := List.getElem?_of_mem inside
      exact node_of_point found here occurs

end Vertices

end Interference

end Regalloc
