import Mathlib
import Regalloc.Proofs.ObservedJumps

/-!
# Reverse postorder

A depth-first walk enters a block, walks on from each of its successors and then finishes it. The
blocks that are entered and not finished all lead to the place of the walk. So each successor of a
block that is finished was finished before, or it leads back to the block. The walk is carried out
by recursion here; a search with a stack of blocks and of how far their successors have been looked
at goes through the same walk and comes to an end.
-/

namespace Regalloc.Flow

abbrev Reaches (flow : Flow) : Nat → Nat → Prop :=
  Relation.ReflTransGen flow.Edge

theorem targets_increasing {f : Function} {terminator : Terminator} {nexts : List Nat}
    (targeted : targets f terminator = .ok nexts) :
    nexts.Pairwise (· < ·) ∧ ∀ next ∈ nexts, next < f.blocks.length := by
  have small : ∀ {target : Expr} {b : Nat}, resolve f terminator target = .ok b →
      b < f.blocks.length := by
    intro target b resolved
    obtain ⟨label, -, place⟩ := first_of_resolve resolved
    exact (List.findIdx?_eq_some_iff_getElem.mp place).1
  cases terminator with
  | ret =>
      cases targeted
      simp
  | retValue value =>
      cases targeted
      simp
  | jump target =>
      obtain ⟨b, resolved, listed⟩ := except_bind_eq_ok.mp targeted
      cases listed
      simpa using small resolved
  | branch condition onTrue onFalse =>
      simp only [targets] at targeted
      split at targeted
      · obtain ⟨first, resolved, targeted⟩ := except_bind_eq_ok.mp targeted
        obtain ⟨second, resolved', listed⟩ := except_bind_eq_ok.mp targeted
        cases listed
        have bounds := And.intro (small resolved) (small resolved')
        refine ⟨?_, ?_⟩
        · unfold ordered
          split
          · simpa
          · split <;> simp [*]
        · rintro next member
          rcases mem_ordered.mp member with rfl | rfl
          · exact bounds.1
          · exact bounds.2
      · cases targeted

theorem mem_predecessorsOf {flow : Flow} {source target : Nat} :
    source ∈ flow.predecessorsOf target ↔ target ∈ flow.successorsOf source :=
  ⟨fun member => by simpa using (List.mem_filter.mp member).2, fun member => (edge_of_mem member).2⟩

theorem successorsOf_increasing {f : Function} {flow : Flow} (built : build f = .ok flow)
    (b : Nat) :
    (flow.successorsOf b).Pairwise (· < ·) ∧
      ∀ next ∈ flow.successorsOf b, next < flow.size := by
  rw [size_build built]
  cases found : f.blocks[b]? with
  | some block => exact targets_increasing (targets_successorsOf built found)
  | none =>
      have nothing : flow.successorsOf b = [] := by
        apply List.getD_eq_default
        rw [← size, size_build built]
        exact List.getElem?_eq_none_iff.mp found
      simp [nothing]

def Inside (flow : Flow) : Prop :=
  ∀ b, ∀ next ∈ flow.successorsOf b, next < flow.size

theorem Inside.lt {flow : Flow} (inside : flow.Inside) {b c : Nat} (reaches : flow.Reaches b c)
    (small : b < flow.size) : c < flow.size := by
  cases reaches with
  | refl => exact small
  | tail _ edge => exact inside _ _ edge.1

namespace Walk

def enter (walk : Walk) (block : Nat) : Walk :=
  { walk with visited := walk.visited.insert block }

def finish (walk : Walk) (block : Nat) : Walk :=
  { walk with finished := block :: walk.finished }

def Open (walk : Walk) (block : Nat) : Prop :=
  block ∈ walk.visited ∧ block ∉ walk.finished

structure Tidy (walk : Walk) : Prop where
  nodup : walk.finished.Nodup
  visited : ∀ b ∈ walk.finished, b ∈ walk.visited

variable {walk : Walk} {block b : Nat}

@[simp] theorem mem_visited_enter : b ∈ (walk.enter block).visited ↔ b = block ∨ b ∈ walk.visited :=
  IndexSet.mem_insert

theorem Tidy.enter (tidy : walk.Tidy) (block : Nat) : (walk.enter block).Tidy where
  nodup := tidy.nodup
  visited b finished := mem_visited_enter.mpr (.inr (tidy.visited b finished))

theorem Tidy.finish (tidy : walk.Tidy) (opened : walk.Open block) : (walk.finish block).Tidy where
  nodup := List.nodup_cons.mpr ⟨opened.2, tidy.nodup⟩
  visited := List.forall_mem_cons.mpr ⟨opened.1, tidy.visited⟩

theorem Tidy.open_enter (tidy : walk.Tidy) (new : block ∉ walk.visited) :
    (walk.enter block).Open b ↔ b = block ∨ walk.Open b := by
  have unfinished : block ∉ walk.finished := fun finished => new (tidy.visited block finished)
  constructor
  · rintro ⟨visited, rest⟩
    exact (mem_visited_enter.mp visited).imp_right fun old => ⟨old, rest⟩
  · rintro (rfl | ⟨old, rest⟩)
    · exact ⟨mem_visited_enter.mpr (.inl rfl), unfinished⟩
    · exact ⟨mem_visited_enter.mpr (.inr old), rest⟩

theorem open_finish : (walk.finish block).Open b ↔ walk.Open b ∧ b ≠ block := by
  simp only [Open, finish, List.mem_cons, not_or]
  tauto

end Walk

/-- Walking from blocks one after the other, along paths of any length. A block that was visited
before is passed over. -/
inductive Visits (flow : Flow) : Walk → List Nat → Walk → Prop
  | nil {walk : Walk} : Visits flow walk [] walk
  | skip {walk last : Walk} {block : Nat} {rest : List Nat} : block ∈ walk.visited →
      Visits flow walk rest last → Visits flow walk (block :: rest) last
  | enter {walk inner last : Walk} {block : Nat} {rest : List Nat} : block ∉ walk.visited →
      Visits flow (walk.enter block) (flow.successorsOf block) inner →
      Visits flow (inner.finish block) rest last → Visits flow walk (block :: rest) last

/-- Finished blocks, the latest first: what a block leads to at once comes after it or leads back to
it. -/
def Postordered (flow : Flow) : List Nat → Prop
  | [] => True
  | block :: rest =>
    (∀ next, flow.Edge block next → next ∈ rest ∨ flow.Reaches next block) ∧ Postordered flow rest

namespace Visits

variable {flow : Flow} {walk last : Walk} {blocks : List Nat}
  (visits : Visits flow walk blocks last)
include visits

theorem grows {b : Nat} (visited : b ∈ walk.visited) : b ∈ last.visited := by
  induction visits with
  | nil => exact visited
  | skip _ _ ih => exact ih visited
  | enter _ _ _ inner_ih rest_ih => exact rest_ih (inner_ih (by simp [visited]))

theorem mem_visited {b : Nat} (member : b ∈ blocks) : b ∈ last.visited := by
  induction visits with
  | nil => cases member
  | skip visited later ih =>
      rcases List.mem_cons.mp member with rfl | member
      · exact later.grows visited
      · exact ih member
  | enter _ inner later _ rest_ih =>
      rcases List.mem_cons.mp member with rfl | member
      · exact later.grows (inner.grows (by simp))
      · exact rest_ih member

theorem tidy (tidy : walk.Tidy) : last.Tidy ∧ ∀ b, last.Open b ↔ walk.Open b := by
  induction visits with
  | nil => exact ⟨tidy, fun _ => Iff.rfl⟩
  | skip _ _ ih => exact ih tidy
  | @enter walk inner last block rest new _ _ inner_ih rest_ih =>
      obtain ⟨within, same⟩ := inner_ih (tidy.enter block)
      have opened : inner.Open block := (same block).mpr ((tidy.open_enter new).mpr (.inl rfl))
      obtain ⟨after, same'⟩ := rest_ih (within.finish opened)
      refine ⟨after, fun b => ?_⟩
      rw [same', Walk.open_finish, same, tidy.open_enter new]
      constructor
      · rintro ⟨rfl | earlier, other⟩
        · exact absurd rfl other
        · exact earlier
      · intro earlier
        refine ⟨.inr earlier, ?_⟩
        rintro rfl
        exact new earlier.1

theorem reached {b : Nat} (visited : b ∈ last.visited) :
    b ∈ walk.visited ∨ ∃ start ∈ blocks, flow.Reaches start b := by
  induction visits with
  | nil => exact .inl visited
  | skip _ _ ih =>
      refine (ih visited).imp_right fun ⟨start, member, reaches⟩ => ?_
      exact ⟨start, List.mem_cons_of_mem _ member, reaches⟩
  | enter _ _ _ inner_ih rest_ih =>
      rcases rest_ih visited with visited | ⟨start, member, reaches⟩
      · rcases inner_ih visited with visited | ⟨next, successor, reaches⟩
        · rcases Walk.mem_visited_enter.mp visited with rfl | old
          · exact .inr ⟨b, List.mem_cons_self, .refl⟩
          · exact .inl old
        · exact .inr ⟨_, List.mem_cons_self, .head (edge_of_mem successor) reaches⟩
      · exact .inr ⟨start, List.mem_cons_of_mem _ member, reaches⟩

theorem closed (closed : ∀ b ∈ walk.finished, ∀ next ∈ flow.successorsOf b, next ∈ walk.visited) :
    ∀ b ∈ last.finished, ∀ next ∈ flow.successorsOf b, next ∈ last.visited := by
  induction visits with
  | nil => exact closed
  | skip _ _ ih => exact ih closed
  | enter _ inner _ inner_ih rest_ih =>
      apply rest_ih
      refine List.forall_mem_cons.mpr ⟨fun next => inner.mem_visited, ?_⟩
      apply inner_ih
      intro b finished next successor
      exact Walk.mem_visited_enter.mpr (.inr (closed b finished next successor))

/-- The open blocks lead to all that is visited meanwhile, so a successor that is open when a block
is finished leads back to it. -/
theorem postordered (tidy : walk.Tidy)
    (ancestors : ∀ b, walk.Open b → ∀ start ∈ blocks, flow.Reaches b start)
    (ordered : flow.Postordered walk.finished) : flow.Postordered last.finished := by
  induction visits with
  | nil => exact ordered
  | skip _ _ ih =>
      exact ih tidy (fun b opened start member => ancestors b opened start (.tail _ member)) ordered
  | @enter walk inner last block rest new within _ inner_ih rest_ih =>
      obtain ⟨tidied, same⟩ := within.tidy (tidy.enter block)
      have leads : ∀ b, inner.Open b → flow.Reaches b block := by
        intro b opened
        rcases (tidy.open_enter new).mp ((same b).mp opened) with rfl | earlier
        · exact .refl
        · exact ancestors b earlier block List.mem_cons_self
      have before : flow.Postordered inner.finished := by
        refine inner_ih (tidy.enter block) (fun b opened next successor => ?_) ordered
        exact (leads b ((same b).mpr opened)).tail (edge_of_mem successor)
      have finishing : ∀ next, flow.Edge block next →
          next ∈ inner.finished ∨ flow.Reaches next block := by
        intro next edge
        by_cases finished : next ∈ inner.finished
        · exact .inl finished
        · exact .inr (leads next ⟨within.mem_visited edge.1, finished⟩)
      have opened : inner.Open block := (same block).mpr ((tidy.open_enter new).mpr (.inl rfl))
      refine rest_ih (tidied.finish opened) (fun b later start member => ?_) ⟨finishing, before⟩
      obtain ⟨earlier, other⟩ := Walk.open_finish.mp later
      rcases (tidy.open_enter new).mp ((same b).mp earlier) with here | earlier
      · exact absurd here other
      · exact ancestors b earlier start (List.mem_cons_of_mem _ member)

end Visits

section Depth

variable {flow : Flow}

def unvisited (flow : Flow) (walk : Walk) : Finset Nat :=
  {b ∈ Finset.range flow.size | b ∉ walk.visited}

theorem card_unvisited_enter {walk : Walk} {block : Nat} (small : block < flow.size)
    (new : block ∉ walk.visited) :
    (flow.unvisited (walk.enter block)).card + 1 = (flow.unvisited walk).card := by
  have member : block ∈ flow.unvisited walk := by simp [unvisited, small, new]
  have rest : flow.unvisited (walk.enter block) = (flow.unvisited walk).erase block := by
    ext b
    simp only [unvisited, Finset.mem_filter, Finset.mem_erase, Walk.mem_visited_enter, not_or]
    tauto
  rw [rest, Finset.card_erase_add_one member]

theorem card_unvisited_le {walk last : Walk} (grows : ∀ b ∈ walk.visited, b ∈ last.visited) :
    (flow.unvisited last).card ≤ (flow.unvisited walk).card := by
  apply Finset.card_le_card
  intro b
  simp only [unvisited, Finset.mem_filter]
  exact fun ⟨small, new⟩ => ⟨small, fun visited => new (grows b visited)⟩

/-- As long as the depth is no less than the number of blocks that are left, it cuts no path off. -/
theorem visits_foldl (inside : flow.Inside) (depth : Nat) {walk : Walk} {blocks : List Nat}
    (small : ∀ b ∈ blocks, b < flow.size) (enough : (flow.unvisited walk).card ≤ depth) :
    Visits flow walk blocks (blocks.foldl (fun walk next => flow.visit depth next walk) walk) := by
  induction depth generalizing walk blocks with
  | zero =>
      have none : ∀ b < flow.size, b ∈ walk.visited := by
        intro b inside
        by_contra new
        have left := Finset.card_pos.mpr ⟨b, show b ∈ flow.unvisited walk by
          simp [unvisited, inside, new]⟩
        omega
      induction blocks with
      | nil => exact .nil
      | cons b rest ih =>
          rw [List.forall_mem_cons] at small
          exact .skip (none b small.1) (ih small.2)
  | succ depth depth_ih =>
      induction blocks generalizing walk with
      | nil => exact .nil
      | cons b rest ih =>
          rw [List.forall_mem_cons] at small
          rw [List.foldl_cons]
          by_cases visited : b ∈ walk.visited
          · rw [visit, if_pos visited]
            exact .skip visited (ih small.2 enough)
          · rw [visit, if_neg visited]
            have fewer := card_unvisited_enter small.1 visited
            have within : Visits flow (walk.enter b) (flow.successorsOf b) _ :=
              depth_ih (inside b) (by omega)
            refine .enter visited within (ih small.2 ?_)
            refine (card_unvisited_le fun c old => ?_).trans enough
            exact within.grows (Walk.mem_visited_enter.mpr (.inr old))

theorem visits_walk (inside : flow.Inside) (nonempty : flow.size ≠ 0) :
    Visits flow {} [0] flow.walk := by
  have enough : (flow.unvisited {}).card ≤ flow.size :=
    (Finset.card_filter_le _ _).trans_eq (Finset.card_range flow.size)
  rw [walk, if_neg nonempty]
  exact visits_foldl inside flow.size (by simpa using Nat.pos_of_ne_zero nonempty) enough

end Depth

/-- A search with a stack: the blocks that are open, the one to go on with first, each with the
number of its successors that have been looked at. -/
structure Search where
  stack : List (Nat × Nat)
  walk : Walk
  deriving DecidableEq, Repr

namespace Search

def start (flow : Flow) : Search :=
  if flow.size = 0 then ⟨[], {}⟩ else ⟨[(0, 0)], Walk.enter {} 0⟩

/-- One turn: a block whose successors have all been looked at is finished, and a successor that is
looked at for the first time is entered. -/
def turn (flow : Flow) (search : Search) : Search :=
  match search.stack with
  | [] => search
  | (block, looked) :: rest =>
    match (flow.successorsOf block)[looked]? with
    | none => ⟨rest, search.walk.finish block⟩
    | some next =>
      let resumed := (block, looked + 1) :: rest
      if next ∈ search.walk.visited then ⟨resumed, search.walk⟩
      else ⟨(next, 0) :: resumed, search.walk.enter next⟩

inductive Ends (flow : Flow) : Search → Walk → Nat → Prop
  | empty {walk : Walk} : Ends flow ⟨[], walk⟩ walk 0
  | turn {search : Search} {last : Walk} {turns : Nat} : search.stack ≠ [] →
      Ends flow (search.turn flow) last turns → Ends flow search last (turns + 1)

variable {flow : Flow}

/-- The block on top of the stack is finished after a walk from the successors that are left. -/
theorem ends_of_visits {walk last final : Walk} {blocks : List Nat}
    (visits : Visits flow walk blocks last) {block looked : Nat} {rest : List (Nat × Nat)}
    (left : (flow.successorsOf block).drop looked = blocks)
    (later : ∃ turns, Ends flow ⟨rest, last.finish block⟩ final turns) :
    ∃ turns, Ends flow ⟨(block, looked) :: rest, walk⟩ final turns := by
  induction visits generalizing block looked rest with
  | nil =>
      obtain ⟨turns, ends⟩ := later
      have none : (flow.successorsOf block)[looked]? = none :=
        List.getElem?_eq_none_iff.mpr (List.drop_eq_nil_iff.mp left)
      exact ⟨turns + 1, .turn nofun (by simpa only [Search.turn, none] using ends)⟩
  | @skip walk last next others visited _ ih =>
      have here : (flow.successorsOf block)[looked]? = some next := by
        rw [← List.head?_drop, left, List.head?_cons]
      have others_left : (flow.successorsOf block).drop (looked + 1) = others := by
        rw [← List.tail_drop, left, List.tail_cons]
      obtain ⟨turns, ends⟩ := ih others_left later
      exact ⟨turns + 1, .turn nofun (by simpa only [Search.turn, here, if_pos visited] using ends)⟩
  | @enter walk inner last next others new _ _ inner_ih rest_ih =>
      have here : (flow.successorsOf block)[looked]? = some next := by
        rw [← List.head?_drop, left, List.head?_cons]
      have others_left : (flow.successorsOf block).drop (looked + 1) = others := by
        rw [← List.tail_drop, left, List.tail_cons]
      obtain ⟨turns, ends⟩ := inner_ih List.drop_zero (rest_ih others_left later)
      exact ⟨turns + 1, .turn nofun (by simpa only [Search.turn, here, if_neg new] using ends)⟩

def cost (flow : Flow) (blocks : List Nat) : Nat :=
  (blocks.map fun b => (flow.successorsOf b).length + 1).sum

def Bounded (flow : Flow) (search : Search) : Prop :=
  ∀ entry ∈ search.stack, entry.2 ≤ (flow.successorsOf entry.1).length

theorem cost_turn {search : Search} (some : search.stack ≠ []) (bounded : search.Bounded flow) :
    (search.turn flow).Bounded flow ∧
      cost flow (search.turn flow).walk.finished + ((search.turn flow).stack.map Prod.snd).sum =
        cost flow search.walk.finished + (search.stack.map Prod.snd).sum + 1 := by
  obtain ⟨stack, walk⟩ := search
  cases stack with
  | nil => exact absurd rfl some
  | cons entry rest =>
      obtain ⟨block, looked⟩ := entry
      obtain ⟨most, bounded⟩ := List.forall_mem_cons.mp bounded
      cases here : (flow.successorsOf block)[looked]? with
      | none =>
          have all : looked = (flow.successorsOf block).length :=
            Nat.le_antisymm most (List.getElem?_eq_none_iff.mp here)
          simp only [turn, here]
          refine ⟨bounded, ?_⟩
          simp only [cost, Walk.finish, List.map_cons, List.sum_cons]
          omega
      | some next =>
          have more : looked < (flow.successorsOf block).length :=
            (List.getElem?_eq_some_iff.mp here).1
          simp only [turn, here]
          split
          · refine ⟨List.forall_mem_cons.mpr ⟨more, bounded⟩, ?_⟩
            simp only [List.map_cons, List.sum_cons]
            omega
          · refine ⟨List.forall_mem_cons.mpr ⟨Nat.zero_le _, ?_⟩, ?_⟩
            · exact List.forall_mem_cons.mpr ⟨more, bounded⟩
            · simp only [Walk.enter, List.map_cons, List.sum_cons]
              omega

theorem Ends.count {search : Search} {last : Walk} {turns : Nat}
    (ends : Ends flow search last turns) (bounded : search.Bounded flow) :
    turns + cost flow search.walk.finished + (search.stack.map Prod.snd).sum =
      cost flow last.finished := by
  induction ends with
  | empty => simp
  | turn some _ ih =>
      obtain ⟨bounded, more⟩ := cost_turn some bounded
      have rest := ih bounded
      omega

theorem ends_walk (inside : flow.Inside) :
    Ends flow (start flow) flow.walk (cost flow flow.walk.finished) := by
  by_cases empty : flow.size = 0
  · rw [start, Flow.walk, if_pos empty, if_pos empty]
    exact .empty
  · have whole := visits_walk inside empty
    have ended : ∃ turns, Ends flow ⟨[(0, 0)], Walk.enter {} 0⟩ flow.walk turns := by
      generalize flow.walk = final at whole ⊢
      cases whole with
      | skip visited _ => exact absurd visited (IndexSet.not_mem_empty 0)
      | enter _ inner rest =>
          cases rest
          exact ends_of_visits inner List.drop_zero ⟨0, .empty⟩
    obtain ⟨turns, ends⟩ := ended
    have counted := ends.count (by simp [Bounded])
    rw [start, if_neg empty]
    simp only [Walk.enter, cost, List.map_nil, List.sum_nil, List.map_cons,
      List.sum_cons] at counted
    rwa [cost, ← counted]

end Search

section Order

variable {flow : Flow} (inside : flow.Inside)
include inside

theorem mem_finished {b : Nat} : b ∈ flow.walk.finished ↔ b < flow.size ∧ flow.Reaches 0 b := by
  by_cases empty : flow.size = 0
  · simp [walk, empty]
  · have visits := visits_walk inside empty
    have blank : Walk.Tidy {} := ⟨List.nodup_nil, nofun⟩
    have finished : ∀ b ∈ flow.walk.visited, b ∈ flow.walk.finished := by
      intro b visited
      by_contra unfinished
      have opened := ((visits.tidy blank).2 b).mp ⟨visited, unfinished⟩
      exact IndexSet.not_mem_empty b opened.1
    constructor
    · intro member
      rcases visits.reached ((visits.tidy blank).1.visited b member) with none | ⟨_, start, reaches⟩
      · exact absurd none (IndexSet.not_mem_empty b)
      · rw [List.mem_singleton.mp start] at reaches
        exact ⟨inside.lt reaches (Nat.pos_of_ne_zero empty), reaches⟩
    · rintro ⟨-, reaches⟩
      induction reaches with
      | refl => exact finished 0 (visits.mem_visited (List.mem_singleton_self 0))
      | tail _ edge ih => exact finished _ (visits.closed nofun _ ih _ edge.1)

theorem nodup_finished : flow.walk.finished.Nodup := by
  by_cases empty : flow.size = 0
  · simp [walk, empty]
  · exact ((visits_walk inside empty).tidy ⟨List.nodup_nil, nofun⟩).1.nodup

theorem postordered_finished : flow.Postordered flow.walk.finished := by
  by_cases empty : flow.size = 0
  · simp [walk, empty, Postordered]
  · refine (visits_walk inside empty).postordered ⟨List.nodup_nil, nofun⟩ ?_ trivial
    exact fun b opened => absurd opened.1 (IndexSet.not_mem_empty b)

theorem head?_finished (nonempty : flow.size ≠ 0) : flow.walk.finished.head? = some 0 := by
  have whole := visits_walk inside nonempty
  generalize flow.walk = last at whole ⊢
  cases whole with
  | skip visited _ => exact absurd visited (IndexSet.not_mem_empty 0)
  | enter _ _ rest =>
      cases rest
      rfl

theorem mem_rest {b : Nat} :
    b ∈ (List.range flow.size).filter (fun block => !flow.walk.visited.contains block) ↔
      b < flow.size ∧ ¬flow.Reaches 0 b := by
  have visited : b < flow.size → (b ∈ flow.walk.visited ↔ flow.Reaches 0 b) := by
    intro small
    have blank : Walk.Tidy {} := ⟨List.nodup_nil, nofun⟩
    have visits := visits_walk inside (Nat.ne_zero_of_lt small)
    have finished := mem_finished inside (b := b)
    refine ⟨fun visited => ?_, fun reaches => ?_⟩
    · rcases walk_finishes flow b visited with opened | done
      · cases opened
      · exact (finished.mp done).2
    · exact (visits.tidy blank).1.visited b (finished.mpr ⟨small, reaches⟩)
  simp only [List.mem_filter, List.mem_range, Bool.not_eq_true']
  refine and_congr_right fun small => ?_
  rw [← visited small, IndexSet.mem_def, ← IndexSet.contains, Bool.not_eq_true]

theorem order_perm : flow.order.Perm (List.range flow.size) := by
  have apart : flow.order.Nodup := by
    refine List.Nodup.append (nodup_finished inside) (List.nodup_range.filter _) ?_
    intro b finished rest
    exact ((mem_rest inside).mp rest).2 ((mem_finished inside).mp finished).2
  refine (List.perm_ext_iff_of_nodup apart List.nodup_range).mpr fun b => ?_
  rw [order, List.mem_append, mem_finished inside, mem_rest inside, List.mem_range]
  tauto

end Order

theorem Postordered.split {flow : Flow} {finished : List Nat} (ordered : flow.Postordered finished)
    {block : Nat} (member : block ∈ finished) :
    ∃ front back, finished = front ++ block :: back ∧
      ∀ next, flow.Edge block next → next ∈ back ∨ flow.Reaches next block := by
  induction finished with
  | nil => cases member
  | cons first rest ih =>
      obtain ⟨leads, ordered⟩ := ordered
      rcases List.mem_cons.mp member with rfl | member
      · exact ⟨[], rest, rfl, leads⟩
      · obtain ⟨front, back, rfl, leads'⟩ := ih ordered member
        exact ⟨first :: front, back, rfl, leads'⟩

theorem idxOf_lt_of_mem {front back : List Nat} {b c : Nat} (distinct : (front ++ b :: back).Nodup)
    (later : c ∈ back) : (front ++ b :: back).idxOf b < (front ++ b :: back).idxOf c := by
  rw [List.nodup_append, List.nodup_cons] at distinct
  obtain ⟨-, ⟨absent, -⟩, apart⟩ := distinct
  have first : b ∉ front := fun member => apart b member b List.mem_cons_self rfl
  have second : c ∉ front := fun member => apart c member c (List.mem_cons_of_mem _ later) rfl
  have other : b ≠ c := fun same => absent (same ▸ later)
  rw [List.idxOf_append_of_notMem first, List.idxOf_append_of_notMem second, List.idxOf_cons_self,
    List.idxOf_cons_ne _ other]
  omega

/-- An edge goes forward in the order, unless it lies on a cycle. -/
theorem idxOf_order_lt {flow : Flow} (inside : flow.Inside) {block next : Nat}
    (small : block < flow.size) (reached : flow.Reaches 0 block) (edge : flow.Edge block next) :
    flow.order.idxOf block < flow.order.idxOf next ∨ flow.Reaches next block := by
  have member := (mem_finished inside).mpr ⟨small, reached⟩
  obtain ⟨front, back, whole, leads⟩ := (postordered_finished inside).split member
  refine (leads next edge).imp_left fun later => ?_
  have distinct : flow.order.Nodup := (order_perm inside).nodup_iff.mpr List.nodup_range
  rw [order, whole, List.append_assoc, List.cons_append] at distinct ⊢
  exact idxOf_lt_of_mem distinct (List.mem_append_left _ later)

theorem mem_predecessors {flow : Flow} (inside : flow.Inside) {u v : Nat} :
    u ∈ flow.predecessors.getD v [] ↔ v ∈ flow.successorsOf u := by
  by_cases small : v < flow.size
  · have here : v < flow.predecessors.length := by simpa [predecessors] using small
    rw [List.getD_eq_getElem _ _ here, ← mem_predecessorsOf]
    simp [predecessors]
  · have beyond : flow.predecessors.length ≤ v := by simpa [predecessors] using small
    rw [List.getD_eq_default _ _ beyond]
    exact iff_of_false List.not_mem_nil fun member => small (inside u v member)

def collect (edges : List (Nat × Nat)) (sources : List (List Nat)) : List (List Nat) :=
  edges.foldl (fun sources edge => sources.modify edge.2 (· ++ [edge.1])) sources

theorem getElem?_collect (edges : List (Nat × Nat)) (sources : List (List Nat)) (target : Nat) :
    (collect edges sources)[target]? =
      sources[target]?.map (· ++ (edges.filter (·.2 = target)).map Prod.fst) := by
  induction edges generalizing sources with
  | nil => simp [collect]
  | cons edge edges ih =>
      refine (ih _).trans ?_
      rw [List.getElem?_modify, Option.map_eq_map, Option.map_map]
      by_cases here : edge.2 = target
      · simp [here, Function.comp_def]
      · simp [here, Function.comp_def]

theorem filter_edges (source target : Nat) {nexts : List Nat} (distinct : nexts.Nodup) :
    ((nexts.map fun next => (source, next)).filter (·.2 = target)).map Prod.fst =
      if nexts.contains target then [source] else [] := by
  have kept : (nexts.filter fun next => decide (next = target)) =
      List.replicate (nexts.count target) target := List.filter_eq target
  rw [List.filter_map, List.map_map]
  simp only [Function.comp_def, kept, distinct.count]
  split <;> simp [*]

theorem sources_eq_filter {flow : Flow} (distinct : ∀ b, (flow.successorsOf b).Nodup)
    (blocks : List Nat) (target : Nat) :
    ((blocks.flatMap fun source =>
        (flow.successorsOf source).map fun next => (source, next)).filter (·.2 = target)).map
          Prod.fst = blocks.filter fun source => (flow.successorsOf source).contains target := by
  induction blocks with
  | nil => rfl
  | cons b blocks ih =>
      rw [List.flatMap_cons, List.filter_append, List.map_append, ih,
        filter_edges b target (distinct b), List.filter_cons]
      split <;> rfl

theorem predecessors_eq_collect {flow : Flow} (distinct : ∀ b, (flow.successorsOf b).Nodup) :
    flow.predecessors = collect flow.edges (List.replicate flow.size []) := by
  apply List.ext_getElem?
  intro target
  rw [getElem?_collect, predecessors, List.getElem?_map, List.getElem?_replicate]
  by_cases small : target < flow.size
  · rw [List.getElem?_range small, if_pos small, Option.map_some, Option.map_some, List.nil_append,
      edges, sources_eq_filter distinct, predecessorsOf]
  · rw [List.getElem?_eq_none (by simpa using small), if_neg small]
    rfl

/-- The order of a built graph is a reverse postorder. The search for it ends, after a turn for each
block that it finds and for each of their edges. All blocks are in the order: first those that the
first block leads to, itself in front, then the others by increasing index. An edge that does not go
forward lies on a cycle. Successors and predecessors are each other's inverse and increase. -/
theorem order_reversePostorder {f : Function} {flow : Flow} (built : build f = .ok flow) :
    Search.Ends flow (.start flow) flow.walk (Search.cost flow flow.walk.finished) ∧
      flow.order.Perm (List.range f.blocks.length) ∧
      (∃ reached others, flow.order = reached ++ others ∧
        (∀ b, b ∈ reached ↔ b < f.blocks.length ∧ flow.Reaches 0 b) ∧
        (f.blocks ≠ [] → reached.head? = some 0) ∧
        (∀ b, b ∈ others ↔ b < f.blocks.length ∧ ¬flow.Reaches 0 b) ∧ others.Pairwise (· < ·)) ∧
      (∀ u v, flow.Reaches 0 u → flow.Edge u v → flow.order.idxOf v ≤ flow.order.idxOf u →
        flow.Reaches v u) ∧
      ((∀ b, flow.Reaches 0 b → ¬Relation.TransGen flow.Edge b b) →
        ∀ u v, flow.Reaches 0 u → flow.Edge u v → flow.order.idxOf u < flow.order.idxOf v) ∧
      flow.predecessors = collect flow.edges (List.replicate f.blocks.length []) ∧
      (∀ u v, u ∈ flow.predecessors.getD v [] ↔ v ∈ flow.successors.getD u []) ∧
      (∀ nexts ∈ flow.successors, nexts.Pairwise (· < ·)) ∧
      ∀ sources ∈ flow.predecessors, sources.Pairwise (· < ·) := by
  have inside : flow.Inside := fun b => (successorsOf_increasing built b).2
  have forward : ∀ u v, flow.Reaches 0 u → flow.Edge u v →
      flow.order.idxOf u < flow.order.idxOf v ∨ flow.Reaches v u := by
    intro u v reached edge
    exact idxOf_order_lt inside (mem_successors_of_mem edge.1).1 reached edge
  rw [← size_build built]
  refine ⟨Search.ends_walk inside, order_perm inside, ⟨_, _, rfl, ?_, ?_, ?_, ?_⟩,
    ?_, ?_, ?_, ?_, ?_, ?_⟩
  · exact fun b => mem_finished inside
  · intro nonempty
    apply head?_finished inside
    rw [size_build built]
    exact fun none => nonempty (List.length_eq_zero_iff.mp none)
  · exact fun b => mem_rest inside
  · exact List.pairwise_lt_range.filter _
  · intro u v reached edge back
    exact (forward u v reached edge).resolve_left (Nat.not_lt.mpr back)
  · intro acyclic u v reached edge
    refine (forward u v reached edge).resolve_right fun back => ?_
    exact acyclic u reached (.head' edge back)
  · exact predecessors_eq_collect fun b => (successorsOf_increasing built b).1.imp Nat.ne_of_lt
  · exact fun u v => mem_predecessors inside
  · intro nexts member
    obtain ⟨b, small, rfl⟩ := List.getElem_of_mem member
    have increasing := (successorsOf_increasing built b).1
    rwa [successorsOf, List.getD_eq_getElem _ _ small] at increasing
  · intro sources member
    obtain ⟨b, -, rfl⟩ := List.mem_map.mp member
    exact List.pairwise_lt_range.filter _

/-- A loop that is entered at two blocks, and a block in the middle that nothing leads to. The edge
from the second block of the loop goes back in the order. -/
theorem order_reversePostorder_loop :
    ∃ f flow, build f = .ok flow ∧ flow.successors = [[1, 2], [2, 4], [1], [1], []] ∧
      flow.order = [0, 1, 4, 2, 3] ∧ flow.predecessors = [[], [0, 2, 3], [0, 1], [], [1]] ∧
      Search.Ends flow (.start flow) ⟨.ofList [0, 1, 2, 4], [0, 1, 4, 2]⟩ 9 ∧
      flow.Edge 2 1 ∧ flow.Reaches 1 2 ∧ ¬flow.Reaches 0 3 := by
  obtain ⟨f, same⟩ : ∃ f : Function, f = ⟨"@m", ⟨.void, 0⟩, [],
      [⟨":a", [], .branch (.const 1) (.label ":b") (.label ":c")⟩,
        ⟨":b", [], .branch (.const 1) (.label ":c") (.label ":e")⟩,
        ⟨":c", [], .jump (.label ":b")⟩, ⟨":d", [], .jump (.label ":b")⟩, ⟨":e", [], .ret⟩], {}⟩ :=
    ⟨_, rfl⟩
  obtain ⟨flow, edges⟩ : ∃ flow : Flow, flow = ⟨[[1, 2], [2, 4], [1], [1], []]⟩ := ⟨_, rfl⟩
  have built : build f = .ok flow := by
    rw [same, edges]
    decide +kernel
  have order : flow.order = [0, 1, 4, 2, 3] := by
    rw [edges]
    decide +kernel
  have walked : flow.walk = ⟨.ofList [0, 1, 2, 4], [0, 1, 4, 2]⟩ := by
    rw [edges]
    decide +kernel
  have edge : flow.Edge 2 1 := by
    rw [edges]
    decide
  have alone : flow.predecessorsOf 3 = [] := by
    rw [edges]
    decide
  obtain ⟨ends, -, -, back, -, inverse, -⟩ := order_reversePostorder built
  have reached : flow.Reaches 0 2 := .single (by rw [edges]; decide)
  refine ⟨f, flow, built, by rw [edges], order, ?_, ?_, edge, ?_, ?_⟩
  · rw [inverse, edges, same]
    decide
  · rw [walked] at ends
    have turns : Search.cost flow [0, 1, 4, 2] = 9 := by
      rw [edges]
      rfl
    rwa [turns] at ends
  · exact back 2 1 reached edge (by rw [order]; decide)
  · intro reaches
    rcases reaches.cases_tail with same | ⟨b, -, last⟩
    · cases same
    · rw [Edge, alone] at last
      cases last.2

end Regalloc.Flow
