import Mathlib
import Regalloc.Flow
import Regalloc.Machine.Exec

/-!
# Built flow graphs

A flow graph that was built has the targets of every terminator as successors, and its order lists
every block. Where labels are told apart, execution only ever jumps along its edges.
-/

namespace Regalloc

theorem except_bind_eq_ok {ε α β : Type} {x : Except ε α} {f : α → Except ε β} {b : β} :
    x >>= f = .ok b ↔ ∃ a, x = .ok a ∧ f a = .ok b := by
  cases x with
  | error fault => simp [bind, Except.bind]
  | ok a => simp [bind, Except.bind]

theorem except_bind_eq_error {ε α β : Type} {x : Except ε α} {next : α → Except ε β} {error : ε}
    (failed : x >>= next = .error error) :
    x = .error error ∨ ∃ a, x = .ok a ∧ next a = .error error := by
  cases x with
  | error other =>
      cases failed
      exact Or.inl rfl
  | ok a => exact Or.inr ⟨a, rfl, failed⟩

theorem toOption_eq_some {ε α : Type} {x : Except ε α} {a : α} :
    x.toOption = some a ↔ x = .ok a := by
  cases x <;> simp [Except.toOption]

theorem forall₂_of_mapM {ε α β : Type} {g : α → Except ε β} {items : List α} {results : List β}
    (mapped : items.mapM g = .ok results) :
    List.Forall₂ (fun item result => g item = .ok result) items results := by
  induction items generalizing results with
  | nil =>
      simp only [List.mapM_nil, pure, Except.pure, Except.ok.injEq] at mapped
      subst mapped
      exact .nil
  | cons item items ih =>
      rw [List.mapM_cons] at mapped
      obtain ⟨result, first, mapped⟩ := except_bind_eq_ok.mp mapped
      obtain ⟨rest, later, mapped⟩ := except_bind_eq_ok.mp mapped
      simp only [pure, Except.pure, Except.ok.injEq] at mapped
      subst mapped
      exact .cons first (ih later)

theorem mapM_eq_error {ε α β : Type} {check : α → Except ε β} {list : List α} {error : ε}
    (failed : list.mapM check = .error error) : ∃ a ∈ list, check a = .error error := by
  induction list with
  | nil => cases failed
  | cons first rest ih =>
      rw [List.mapM_cons] at failed
      rcases except_bind_eq_error failed with here | ⟨b, -, later⟩
      · exact ⟨first, List.mem_cons_self .., here⟩
      · rcases except_bind_eq_error later with later | ⟨_, -, done⟩
        · obtain ⟨a, listed, failed⟩ := ih later
          exact ⟨a, List.mem_cons_of_mem _ listed, failed⟩
        · cases done

namespace Flow

theorem build_targets {f : Function} {flow : Flow} (built : build f = .ok flow) :
    List.Forall₂ (fun block next => targets f block.terminator = .ok next)
      f.blocks flow.successors := by
  obtain ⟨_, -, built⟩ := except_bind_eq_ok.mp built
  obtain ⟨successors, mapped, built⟩ := except_bind_eq_ok.mp built
  simp only [pure, Except.pure, Except.ok.injEq] at built
  subst built
  exact forall₂_of_mapM mapped

theorem size_build {f : Function} {flow : Flow} (built : build f = .ok flow) :
    flow.size = f.blocks.length :=
  (build_targets built).length_eq.symm

theorem targets_successorsOf {f : Function} {flow : Flow} (built : build f = .ok flow)
    {b : Nat} {block : Block} (found : f.blocks[b]? = some block) :
    targets f block.terminator = .ok (flow.successorsOf b) := by
  have aligned := build_targets built
  have small : b < f.blocks.length := (List.getElem?_eq_some_iff.mp found).1
  have inside : b < flow.successors.length := aligned.length_eq ▸ small
  have here := aligned.get small inside
  have same : f.blocks.get ⟨b, small⟩ = block := (List.getElem?_eq_some_iff.mp found).2
  rw [same] at here
  rw [here]
  simp [successorsOf, inside]

/-- Every visited block is finished, apart from those that are still open. -/
def Walk.Finishes (opened : List Nat) (walk : Walk) : Prop :=
  ∀ b ∈ walk.visited, b ∈ opened ∨ b ∈ walk.finished

theorem visit_finishes (flow : Flow) (depth block : Nat) (walk : Walk) (opened : List Nat)
    (finishes : walk.Finishes opened) : (flow.visit depth block walk).Finishes opened := by
  induction depth generalizing block walk opened with
  | zero => exact finishes
  | succ depth ih =>
      unfold visit
      split
      · exact finishes
      have entered : Walk.Finishes (block :: opened)
          { walk with visited := walk.visited.insert block } := by
        intro b visited
        rcases IndexSet.mem_insert.mp visited with rfl | old
        · exact Or.inl (List.mem_cons_self ..)
        · exact (finishes b old).imp_left (List.mem_cons_of_mem _)
      have inside : ∀ (nexts : List Nat) (walk : Walk), walk.Finishes (block :: opened) →
          (nexts.foldl (fun walk next => visit flow depth next walk) walk).Finishes
            (block :: opened) := by
        intro nexts
        induction nexts with
        | nil => exact fun _ finishes => finishes
        | cons next rest rest_ih =>
            intro walk finishes
            exact rest_ih _ (ih next walk _ finishes)
      intro b visited
      rcases inside (flow.successorsOf block) _ entered b visited with opened | finished
      · rcases List.mem_cons.mp opened with rfl | opened
        · exact Or.inr (List.mem_cons_self ..)
        · exact Or.inl opened
      · exact Or.inr (List.mem_cons_of_mem _ finished)

theorem walk_finishes (flow : Flow) : flow.walk.Finishes [] := by
  have start : Walk.Finishes [] {} := by
    intro b visited
    exact absurd visited (IndexSet.not_mem_empty b)
  unfold walk
  split
  · exact start
  · exact visit_finishes flow _ _ _ _ start

theorem mem_order {flow : Flow} {block : Nat} (small : block < flow.size) :
    block ∈ flow.order := by
  simp only [order, List.mem_append, List.mem_filter, List.mem_range]
  by_cases visited : block ∈ flow.walk.visited
  · rcases walk_finishes flow block visited with opened | finished
    · cases opened
    · exact Or.inl finished
  · exact Or.inr ⟨small, by simpa [IndexSet.mem_def, IndexSet.contains] using visited⟩

@[simp] theorem mem_ordered {first second next : Nat} :
    next ∈ ordered first second ↔ next = first ∨ next = second := by
  unfold ordered
  split
  · simp
  split
  · simp [or_comm]
  · have same : first = second := by omega
    simp [same]

end Flow

namespace Machine

theorem exec_bind_eq_ok {α β : Type} {x : Exec α} {f : α → Exec β} {s s' : State} {b : β} :
    (x >>= f) s = .ok b s' ↔ ∃ a middle, x s = .ok a middle ∧ f a middle = .ok b s' := by
  simp only [bind, EStateM.bind]
  cases x s with
  | ok a middle => simp
  | error fault middle => simp

theorem bind_of_ok {α β : Type} {x : Exec α} {f : α → Exec β} {s s' : State} {a : α}
    (ran : x s = .ok a s') : (x >>= f) s = f a s' := by
  simp only [bind, EStateM.bind, ran]

theorem bind_of_error {α β : Type} {x : Exec α} {f : α → Exec β} {s s' : State} {fault : Fault}
    (stopped : x s = .error fault s') : (x >>= f) s = .error fault s' := by
  simp only [bind, EStateM.bind, stopped]

def endState {α : Type} : EStateM.Result Fault State α → State
  | .ok _ state => state
  | .error _ state => state

theorem bind_congr_of_ok {α β : Type} {x : Exec α} {g h : α → Exec β}
    (same : ∀ s a s', x s = .ok a s' → g a = h a) : x >>= g = x >>= h := by
  funext s
  simp only [bind, EStateM.bind]
  cases ran : x s with
  | error fault s' => rfl
  | ok a s' =>
      have next := same s a s' ran
      simp only [next]

theorem lastWithLabel_of_notMem {label : String} {blocks : List Block} (position : Nat)
    (absent : label ∉ blocks.map Block.label) : lastWithLabel label blocks position = none := by
  induction blocks generalizing position with
  | nil => rfl
  | cons block blocks ih =>
      simp only [List.map_cons, List.mem_cons, not_or] at absent
      have apart : ¬block.label = label := fun same => absent.1 same.symm
      simp [lastWithLabel, ih _ absent.2, apart]

theorem label_of_lastWithLabel {label : String} {blocks : List Block} {position next : Nat}
    (last : lastWithLabel label blocks position = some next) :
    ∃ b block, next = position + b ∧ blocks[b]? = some block ∧ block.label = label := by
  induction blocks generalizing position with
  | nil => cases last
  | cons first rest ih =>
      rw [lastWithLabel, Option.or_eq_some_iff] at last
      rcases last with later | ⟨-, here⟩
      · obtain ⟨b, block, rfl, found, named⟩ := ih later
        exact ⟨b + 1, block, by omega, found, named⟩
      · split at here
        · cases here
          exact ⟨0, first, rfl, rfl, ‹_›⟩
        · cases here

/-- Where labels are told apart, the last block of a label is its first. -/
theorem lastWithLabel_eq {label : String} {blocks : List Block} (position : Nat)
    (distinct : (blocks.map Block.label).Nodup) :
    lastWithLabel label blocks position =
      (blocks.findIdx? fun block => block.label == label).map (position + ·) := by
  induction blocks generalizing position with
  | nil => rfl
  | cons block blocks ih =>
      rw [List.map_cons, List.nodup_cons] at distinct
      by_cases same : block.label = label
      · have absent : label ∉ blocks.map Block.label := same ▸ distinct.1
        simp [lastWithLabel, List.findIdx?_cons, same, lastWithLabel_of_notMem _ absent]
      · simp only [lastWithLabel, same, if_false, Option.or_none, List.findIdx?_cons,
          beq_iff_eq, ih _ distinct.2, Option.map_map]
        congr 1
        funext i
        simp only [Function.comp_apply]
        omega

theorem jumpTo_eq_ok {f : Function} {target : Expr} {state after : State} {exit : Exit}
    (jumped : jumpTo f target state = .ok exit after) :
    after = state ∧ ∃ label next, target = .label label ∧
      lastWithLabel label f.blocks 0 = some next ∧ exit = .enter next := by
  unfold jumpTo at jumped
  cases target with
  | label name =>
      cases found : lastWithLabel name f.blocks 0 with
      | none =>
          simp [Expr.label?, found, throw, throwThe, MonadExceptOf.throw, EStateM.throw] at jumped
      | some next =>
          simp only [Expr.label?, Option.bind_some, found, pure, EStateM.pure,
            EStateM.Result.ok.injEq] at jumped
          exact ⟨jumped.2.symm, name, next, rfl, found, jumped.1.symm⟩
  | _ => simp [Expr.label?, throw, throwThe, MonadExceptOf.throw, EStateM.throw] at jumped

theorem resolve_jumpTo {f : Function} {terminator : Terminator} {target : Expr} {b next : Nat}
    (distinct : (f.blocks.map Block.label).Nodup)
    (resolved : Flow.resolve f terminator target = .ok b)
    {state after : State} (jumped : jumpTo f target state = .ok (.enter next) after) :
    next = b := by
  obtain ⟨-, label, block, rfl, last, same⟩ := jumpTo_eq_ok jumped
  rw [lastWithLabel_eq 0 distinct] at last
  simp only [Flow.resolve, Expr.label?] at resolved
  cases same
  cases found : f.blocks.findIdx? fun block => block.label == label with
  | none => simp [found] at last
  | some first => simp_all

/-- Control leaves a block along an edge of the flow graph. -/
theorem finish_targets {caller : Caller} {f : Function} {frame : Frame} {terminator : Terminator}
    {nexts : List Nat} {next : Nat} (distinct : (f.blocks.map Block.label).Nodup)
    (targeted : Flow.targets f terminator = .ok nexts) {state after : State}
    (finished : finish caller f frame terminator state = .ok (.enter next) after) :
    next ∈ nexts := by
  cases terminator with
  | ret => cases finished
  | retValue value =>
      obtain ⟨_, _, -, finished⟩ := exec_bind_eq_ok.mp finished
      cases finished
  | jump target =>
      obtain ⟨b, resolved, listed⟩ := except_bind_eq_ok.mp targeted
      cases listed
      rw [resolve_jumpTo distinct resolved finished]
      exact List.mem_singleton_self b
  | branch condition onTrue onFalse =>
      simp only [Flow.targets] at targeted
      split at targeted
      · obtain ⟨first, resolved, targeted⟩ := except_bind_eq_ok.mp targeted
        obtain ⟨second, resolved', listed⟩ := except_bind_eq_ok.mp targeted
        cases listed
        obtain ⟨_, _, -, finished⟩ := exec_bind_eq_ok.mp finished
        obtain ⟨_, _, -, finished⟩ := exec_bind_eq_ok.mp finished
        rw [Flow.mem_ordered]
        split at finished
        · exact Or.inr (resolve_jumpTo distinct resolved' finished)
        · exact Or.inl (resolve_jumpTo distinct resolved finished)
      · cases targeted

end Machine

end Regalloc
