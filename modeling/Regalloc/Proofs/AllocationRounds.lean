import Mathlib
import Regalloc.Proofs.RemovalOrder
import Regalloc.Proofs.SpillPoints

/-!
# Rounds of spilling

Every round spills a variable of the function that was to be allocated, and no such variable is
spilled twice: a spill takes the variable out of the function and brings only temporaries in. So
there are at most as many rounds as the function has variables, whatever bound is set above that,
and allocation is given up only when all variables that found no color are temporaries.
-/

namespace Regalloc

/-- Every variable that a function mentions is in its table. -/
def Function.Interned (f : Function) : Prop :=
  ∀ v ∈ f.mentions, v.index < f.vars.size

instance (f : Function) : Decidable f.Interned :=
  inferInstanceAs (Decidable (∀ v ∈ f.mentions, v.index < f.vars.size))

def untabled : Function :=
  ⟨"@m", ⟨.int64, 0⟩, [],
    [⟨":e", [.assign (.var ⟨0⟩) (.const 1), .call true (.label "print") []],
      .retValue (.var ⟨0⟩)⟩],
    ⟨[], 0⟩⟩

def halfTabled : Function :=
  ⟨"@m", ⟨.void, 0⟩, [],
    [⟨":e", [.assign (.var ⟨1⟩) (.const 1), .assign (.var ⟨0⟩) (.const 2),
        .call true (.label "print") [.var ⟨0⟩]], .jump (.label ":x")⟩,
      ⟨":x", [.call true (.label "print") [.var ⟨1⟩]], .ret⟩],
    ⟨["%a"], 0⟩⟩

theorem Function.Readable.interned {f : Function} (readable : f.Readable) : f.Interned := by
  intro v mentioned
  rcases Function.mem_mentions.mp mentioned with param | ⟨block, listed, point, member, occurs⟩
  · obtain ⟨first, listed, rfl⟩ := List.mem_map.mp param
    exact readable.params first listed
  · have inside := readable.blocks block listed
    rcases List.mem_append.mp member with member | last
    · obtain ⟨i, placed, rfl⟩ := List.mem_map.mp member
      obtain ⟨expr, part, leaf⟩ := Instruction.mem_uses_or_defs.mp occurs.symm
      exact (inside.instrs i placed expr part).below _ leaf
    · rw [List.mem_singleton.mp last] at occurs
      have used := occurs.resolve_left List.not_mem_nil
      obtain ⟨expr, part, leaf⟩ := Terminator.exists_of_mem_uses used
      exact (inside.terminator expr part).below _ leaf

theorem Logged.bind_congr {α β : Type} {x : Logged α} {first second : α → Logged β}
    (same : ∀ a, x.result = .ok a → first a = second a) : x >>= first = x >>= second := by
  cases x with
  | mk events result =>
      cases result with
      | error error => rfl
      | ok a =>
          have equal := same a rfl
          simp only [bind, equal]

namespace Allocation

structure Stage where
  rounds : Nat := 0
  temporaries : VarSet := ∅
  function : Function

namespace Stage

def attempt (config : Config) (stage : Stage) : Logged Coloring :=
  color config stage.rounds stage.temporaries stage.function

def spill (config : Config) (stage : Stage) (vars : List Var) : Stage :=
  let spilled := Spill.all config.stem stage.function vars stage.function.nextFreeSlot
  ⟨stage.rounds + 1, stage.temporaries.union (.ofList spilled.temporaries), spilled.function⟩

end Stage

/-- Rounds of spilling with the variables that each of them spills: all that found no color, not
all of which are temporaries. -/
inductive Rounds (config : Config) : Stage → List (List Var) → Stage → Prop
  | refl (stage : Stage) : Rounds config stage [] stage
  | round {stage last : Stage} {coloring : Coloring} {later : List (List Var)} :
      (stage.attempt config).result = .ok coloring →
      (∃ v ∈ coloring.spilled, v ∉ stage.temporaries) →
      Rounds config (stage.spill config coloring.spilled.toList) later last →
      Rounds config stage (coloring.spilled.toList :: later) last

/-- How an allocation ends: with a coloring, with the error of an attempt, because nothing but
temporaries found no color, or because there are no numbers left for slots. -/
inductive Ends (config : Config) (stage : Stage) : Except Error Allocation → Prop
  | colored {coloring : Coloring} : (stage.attempt config).result = .ok coloring →
      coloring.spilled = ∅ → stage.function.nextFreeSlot < slotBound →
      Ends config stage
        (.ok ⟨stage.function, coloring, stage.function.nextFreeSlot, stage.rounds⟩)
  | refused {error : Error} : (stage.attempt config).result = .error error →
      Ends config stage (.error error)
  | exhausted {coloring : Coloring} : (stage.attempt config).result = .ok coloring →
      coloring.spilled ≠ ∅ → (∀ v ∈ coloring.spilled, v ∈ stage.temporaries) →
      Ends config stage (.error (.nonTermination stage.function.name (stage.rounds + 1)))
  | frameFull {coloring : Coloring} : (stage.attempt config).result = .ok coloring →
      coloring.spilled = ∅ → slotBound ≤ stage.function.nextFreeSlot →
      Ends config stage (.error (.slotsExhausted stage.function.name))
  | slotsFull {coloring : Coloring} : (stage.attempt config).result = .ok coloring →
      (∃ v ∈ coloring.spilled, v ∉ stage.temporaries) →
      slotBound ≤ stage.function.nextFreeSlot + coloring.spilled.toList.length + 1 →
      Ends config stage (.error (.slotsExhausted stage.function.name))

theorem mem_mentions_of_spilled {config : Config} {rounds : Nat} {temporaries : VarSet}
    {f : Function} {coloring : Coloring}
    (colored : (color config rounds temporaries f).result = .ok coloring) {v : Var}
    (spilled : v ∈ coloring.spilled) : v ∈ f.mentions := by
  obtain ⟨flow, built, selected⟩ := color_eq_ok colored
  obtain old | ⟨removal, listed, rfl⟩ := Coloring.mem_removals_of_mem_spilled selected spilled
  · exact absurd old (IndexSet.not_mem_empty v)
  · have candidate := Coloring.mem_candidates_of_mem_removals (List.mem_reverse.mp listed)
    have vertex : .var removal.v ∈
        (Interference.build f (Liveness.solve f flow) config.target).nodes := by
      simpa [Coloring.candidates, Function.comp_def] using candidate
    exact (Interference.var_mem_nodes_iff built).mp vertex

namespace Stage

/-- What holds at every stage of the allocation of a function with `n` variables: a variable that
is mentioned is one of these or a temporary, and no temporary is one of these. -/
structure Valid (n : Nat) (stage : Stage) : Prop where
  size : n ≤ stage.function.vars.size
  interned : stage.function.Interned
  minted : ∀ v ∈ stage.function.mentions, n ≤ v.index → v ∈ stage.temporaries
  apart : ∀ v ∈ stage.temporaries, n ≤ v.index

def pending (n : Nat) (stage : Stage) : Finset Nat :=
  (Finset.range n).filter fun i => ⟨i⟩ ∈ stage.function.mentions

theorem mem_pending {n : Nat} {stage : Stage} {v : Var} :
    v.index ∈ stage.pending n ↔ v.index < n ∧ v ∈ stage.function.mentions := by
  simp [pending]

theorem card_pending_le (n : Nat) (stage : Stage) : (stage.pending n).card ≤ n :=
  (Finset.card_filter_le _ _).trans_eq (Finset.card_range n)

theorem valid_start {f : Function} (interned : f.Interned) :
    Valid f.vars.size { function := f } where
  size := Nat.le_refl _
  interned := interned
  minted v mentioned large := absurd (interned v mentioned) (Nat.not_lt.mpr large)
  apart v member := absurd member (IndexSet.not_mem_empty v)

section Spill

variable {config : Config} {n : Nat} {stage : Stage}

theorem rounds_spill (vars : List Var) :
    (stage.spill config vars).rounds = stage.rounds + 1 :=
  rfl

theorem Valid.mem_mentions_spill (valid : stage.Valid n) {vars : List Var} {v : Var}
    (mentioned : v ∈ (stage.spill config vars).function.mentions) :
    v ∈ stage.function.mentions ∧ v ∉ vars ∨
      n ≤ v.index ∧ v ∈ (stage.spill config vars).temporaries := by
  obtain ⟨-, minted⟩ := Spill.all_minted config.stem stage.function vars
    stage.function.nextFreeSlot
  refine (Spill.mem_mentions_all mentioned).imp_right fun fresh => ⟨?_, ?_⟩
  · rw [minted, Spill.mem_mints] at fresh
    exact valid.size.trans fresh.1
  · exact IndexSet.mem_union.mpr (Or.inr (IndexSet.mem_ofList.mpr fresh))

theorem Valid.spill (valid : stage.Valid n) (vars : List Var) :
    (stage.spill config vars).Valid n := by
  obtain ⟨grows, minted⟩ := Spill.all_minted config.stem stage.function vars
    stage.function.nextFreeSlot
  constructor
  · exact valid.size.trans grows
  · intro v mentioned
    rcases Spill.mem_mentions_all mentioned with ⟨mentioned, -⟩ | fresh
    · exact (valid.interned v mentioned).trans_le grows
    · rw [minted, Spill.mem_mints] at fresh
      exact fresh.2
  · intro v mentioned large
    rcases valid.mem_mentions_spill mentioned with ⟨mentioned, -⟩ | ⟨-, temporary⟩
    · exact IndexSet.mem_union.mpr (Or.inl (valid.minted v mentioned large))
    · exact temporary
  · intro v member
    rcases IndexSet.mem_union.mp member with old | fresh
    · exact valid.apart v old
    · rw [IndexSet.mem_ofList, minted, Spill.mem_mints] at fresh
      exact valid.size.trans fresh.1

variable {coloring : Coloring}

theorem Valid.lt_of_spilled (valid : stage.Valid n)
    (colored : (stage.attempt config).result = .ok coloring) {v : Var}
    (spilled : v ∈ coloring.spilled) (lasting : v ∉ stage.temporaries) : v.index < n := by
  by_contra large
  exact lasting (valid.minted v (mem_mentions_of_spilled colored spilled) (Nat.not_lt.mp large))

theorem Valid.mem_pending_of_spilled (valid : stage.Valid n)
    (colored : (stage.attempt config).result = .ok coloring) {v : Var}
    (spilled : v ∈ coloring.spilled) (lasting : v ∉ stage.temporaries) :
    v.index ∈ stage.pending n :=
  mem_pending.mpr
    ⟨valid.lt_of_spilled colored spilled lasting, mem_mentions_of_spilled colored spilled⟩

omit coloring in
theorem Valid.pending_spill_subset (valid : stage.Valid n) (vars : List Var) :
    (stage.spill config vars).pending n ⊆ stage.pending n := by
  intro i still
  have still : (⟨i⟩ : Var).index ∈ (stage.spill config vars).pending n := still
  obtain ⟨small, mentioned⟩ := mem_pending.mp still
  rcases valid.mem_mentions_spill mentioned with ⟨mentioned, -⟩ | ⟨large, -⟩
  · exact mem_pending.mpr ⟨small, mentioned⟩
  · omega

omit coloring in
theorem Valid.notMem_pending_spill (valid : stage.Valid n) {vars : List Var} {v : Var}
    (listed : v ∈ vars) : v.index ∉ (stage.spill config vars).pending n := by
  intro still
  obtain ⟨small, mentioned⟩ := mem_pending.mp still
  rcases valid.mem_mentions_spill mentioned with ⟨-, apart⟩ | ⟨large, -⟩
  · exact apart listed
  · omega

theorem Valid.pending_spill (valid : stage.Valid n)
    (colored : (stage.attempt config).result = .ok coloring)
    (lasting : ∃ v ∈ coloring.spilled, v ∉ stage.temporaries) :
    ((stage.spill config coloring.spilled.toList).pending n).card < (stage.pending n).card := by
  apply Finset.card_lt_card
  rw [Finset.ssubset_iff_of_subset (valid.pending_spill_subset _)]
  obtain ⟨v, spilled, lasting⟩ := lasting
  exact ⟨v.index, valid.mem_pending_of_spilled colored spilled lasting,
    valid.notMem_pending_spill (IndexSet.mem_toList.mpr spilled)⟩

end Spill

end Stage

namespace Rounds

variable {config : Config} {n : Nat} {stage last : Stage} {list : List (List Var)}

theorem valid (rounds : Rounds config stage list last) (valid : stage.Valid n) :
    last.Valid n := by
  induction rounds with
  | refl => exact valid
  | round _ _ _ ih => exact ih (valid.spill _)

theorem rounds_eq (rounds : Rounds config stage list last) :
    last.rounds = stage.rounds + list.length := by
  induction rounds with
  | refl => rfl
  | round _ _ _ ih =>
      rw [ih, List.length_cons, Stage.rounds_spill]
      omega

theorem name_eq (rounds : Rounds config stage list last) :
    last.function.name = stage.function.name := by
  induction rounds with
  | refl => rfl
  | round _ _ _ ih => exact ih.trans (Spill.name_all _ _ _ _)

theorem length_le (rounds : Rounds config stage list last) (valid : stage.Valid n) :
    list.length ≤ (stage.pending n).card := by
  induction rounds with
  | refl => exact Nat.zero_le _
  | round colored lasting _ ih =>
      have fewer := valid.pending_spill colored lasting
      have rest := ih (valid.spill _)
      rw [List.length_cons]
      omega

theorem exists_lt (rounds : Rounds config stage list last) (valid : stage.Valid n) :
    ∀ vars ∈ list, ∃ v ∈ vars, v.index < n := by
  induction rounds with
  | refl => exact fun vars member => absurd member List.not_mem_nil
  | round colored lasting _ ih =>
      rw [List.forall_mem_cons]
      refine ⟨?_, ih (valid.spill _)⟩
      obtain ⟨v, spilled, lasting⟩ := lasting
      exact ⟨v, IndexSet.mem_toList.mpr spilled, valid.lt_of_spilled colored spilled lasting⟩

theorem mem_mentions (rounds : Rounds config stage list last) (valid : stage.Valid n) {v : Var}
    (spilled : v ∈ list.flatten) (small : v.index < n) : v ∈ stage.function.mentions := by
  induction rounds with
  | refl => cases spilled
  | round colored _ _ ih =>
      rcases List.mem_append.mp spilled with here | later
      · exact mem_mentions_of_spilled colored (IndexSet.mem_toList.mp here)
      · rcases valid.mem_mentions_spill (ih (valid.spill _) later) with
          ⟨mentioned, -⟩ | ⟨large, -⟩
        · exact mentioned
        · omega

theorem nodup (rounds : Rounds config stage list last) (valid : stage.Valid n) :
    (list.flatten.filter fun v => v.index < n).Nodup := by
  induction rounds with
  | refl => exact List.nodup_nil
  | round _ _ later ih =>
      rw [List.flatten_cons, List.filter_append, List.nodup_append]
      refine ⟨(IndexSet.nodup_toList _).filter _, ih (valid.spill _), ?_⟩
      intro u here v there same
      subst same
      obtain ⟨spilled, small⟩ := List.mem_filter.mp here
      have small : u.index < n := of_decide_eq_true small
      -- A variable that is spilled later is still there after this round.
      have mentioned := later.mem_mentions (valid.spill _) (List.mem_filter.mp there).1 small
      rcases valid.mem_mentions_spill mentioned with ⟨-, apart⟩ | ⟨large, -⟩
      · exact apart spilled
      · omega

end Rounds

section Loop

variable {config : Config} {n : Nat}

def Stage.run (config : Config) (remaining : Nat) (stage : Stage) : Logged Allocation :=
  allocateFrom config remaining stage.rounds stage.temporaries stage.function

def Stage.proceed (config : Config) (stage : Stage) (next : Stage → Logged Allocation)
    (coloring : Coloring) : Logged Allocation := do
  if coloring.spilled.isEmpty then
    withFrame config stage.function coloring stage.rounds
  else if coloring.spilled.toList.all stage.temporaries.contains then
    Logged.fail (.nonTermination stage.function.name (stage.rounds + 1))
  else
    Logged.report (.roundSpills stage.function.name (stage.rounds + 1)
      (coloring.spilled.toList.map stage.function.vars.name))
    let spilled ← Spill.toFreeSlots config.stem stage.function coloring.spilled.toList
    next ⟨stage.rounds + 1, stage.temporaries.union (.ofList spilled.temporaries),
      spilled.function⟩

/-- As long as there are rounds for all variables that can still be spilled, the bound on the
rounds does not matter. -/
theorem Stage.run_eq_proceed {stage : Stage} (valid : stage.Valid n) {remaining : Nat}
    (enough : (stage.pending n).card ≤ remaining) :
    stage.run config remaining =
      stage.attempt config >>= stage.proceed config (Stage.run config (remaining - 1)) := by
  rw [run, allocateFrom]
  apply Logged.bind_congr
  intro coloring colored
  unfold proceed
  split
  · rfl
  · cases remaining with
    | zero =>
        have exhausted : coloring.spilled.toList.all stage.temporaries.contains = true := by
          rw [List.all_eq_true]
          intro v listed
          by_contra lasting
          have waiting :=
            valid.mem_pending_of_spilled colored (IndexSet.mem_toList.mp listed) lasting
          rw [Finset.card_eq_zero.mp (Nat.le_zero.mp enough)] at waiting
          exact absurd waiting (Finset.notMem_empty _)
        rw [if_pos exhausted]
    | succ remaining => rfl

theorem Stage.Valid.enough_spill {stage : Stage} (valid : stage.Valid n) {coloring : Coloring}
    (colored : (stage.attempt config).result = .ok coloring)
    (lasting : ¬coloring.spilled.toList.all stage.temporaries.contains = true) {remaining : Nat}
    (enough : (stage.pending n).card ≤ remaining) :
    (∃ v ∈ coloring.spilled, v ∉ stage.temporaries) ∧
      ((stage.spill config coloring.spilled.toList).pending n).card ≤ remaining - 1 := by
  have left : ∃ v ∈ coloring.spilled, v ∉ stage.temporaries := by
    rw [List.all_eq_true] at lasting
    simp only [not_forall] at lasting
    obtain ⟨v, listed, lasting⟩ := lasting
    exact ⟨v, IndexSet.mem_toList.mp listed, lasting⟩
  have fewer := valid.pending_spill colored left
  exact ⟨left, by omega⟩

/-- Two bounds that leave enough rounds give the same allocation and the same reports. -/
theorem Stage.run_congr {stage : Stage} (valid : stage.Valid n) {first second : Nat}
    (enough : (stage.pending n).card ≤ first) (enough' : (stage.pending n).card ≤ second) :
    stage.run config first = stage.run config second := by
  induction waiting : (stage.pending n).card using Nat.strong_induction_on
    generalizing stage first second with
  | _ count ih =>
      rw [run_eq_proceed valid enough, run_eq_proceed valid enough']
      apply Logged.bind_congr
      intro coloring colored
      unfold proceed
      split
      · rfl
      · split
        · rfl
        · rename_i lasting
          obtain ⟨left, less⟩ := valid.enough_spill colored lasting enough
          obtain ⟨-, less'⟩ := valid.enough_spill colored lasting enough'
          have fewer := valid.pending_spill colored left
          refine Logged.bind_congr fun _ _ => Logged.bind_congr fun spilled moved => ?_
          obtain ⟨-, rfl⟩ := Spill.eq_of_toFreeSlots moved
          exact ih _ (waiting ▸ fewer) (valid.spill _) less less' rfl

theorem Stage.run_ends (config : Config) {stage : Stage} (valid : stage.Valid n) {remaining : Nat}
    (enough : (stage.pending n).card ≤ remaining) :
    ∃ list last, Rounds config stage list last ∧
      Ends config last (stage.run config remaining).result := by
  induction waiting : (stage.pending n).card using Nat.strong_induction_on
    generalizing stage remaining with
  | _ count ih =>
      rw [run_eq_proceed valid enough, Logged.result_bind]
      cases colored : (stage.attempt config).result with
      | error error => exact ⟨[], stage, .refl stage, .refused colored⟩
      | ok coloring =>
          change ∃ list last, Rounds config stage list last ∧
            Ends config last (stage.proceed config (run config (remaining - 1)) coloring).result
          unfold proceed
          split
          · rename_i complete
            have all := eq_empty_of_isEmpty complete
            refine ⟨[], stage, .refl stage, ?_⟩
            rcases Nat.lt_or_ge stage.function.nextFreeSlot slotBound with room | full
            · rw [withFrame_of_lt room]
              exact .colored colored all room
            · rw [withFrame_of_le full]
              exact .frameFull colored all full
          · rename_i incomplete
            split
            · rename_i temporary
              refine ⟨[], stage, .refl stage, .exhausted colored ?_ ?_⟩
              · rintro complete
                rw [complete] at incomplete
                exact incomplete rfl
              · intro v spilled
                exact List.all_eq_true.mp temporary v (IndexSet.mem_toList.mpr spilled)
            · rename_i lasting
              obtain ⟨left, less⟩ := valid.enough_spill colored lasting enough
              have fewer := valid.pending_spill colored left
              rcases Nat.lt_or_ge (stage.function.nextFreeSlot +
                coloring.spilled.toList.length + 1) slotBound with room | full
              · obtain ⟨list, last, rounds, ends⟩ :=
                  ih _ (waiting ▸ fewer) (valid.spill _) less rfl
                rw [Spill.toFreeSlots_of_lt room]
                exact ⟨_, last, .round colored left rounds, ends⟩
              · rw [Spill.toFreeSlots_of_le full]
                exact ⟨[], stage, .refl stage, .slotsFull colored left full⟩

/-- The bound on the rounds is only looked at when allocation starts. -/
theorem allocateFrom_withBound (config : Config) (bound : Option Nat) (remaining rounds : Nat)
    (temporaries : VarSet) (f : Function) :
    allocateFrom { config with maxRounds := bound } remaining rounds temporaries f =
      allocateFrom config remaining rounds temporaries f := by
  induction remaining generalizing rounds temporaries f with
  | zero => rfl
  | succ remaining ih =>
      have same : color { config with maxRounds := bound } rounds temporaries f =
          color config rounds temporaries f := rfl
      rw [allocateFrom, allocateFrom, same]
      congr 1
      funext coloring
      split
      · rfl
      · simp only [ih]

end Loop

section Errors

def IsMisfit (function : String) (error : Error) : Prop :=
  (∃ label, error = .unresolvedLabel function label) ∨
    ∃ text expected, error = .illTyped function text expected

theorem resolve_eq_error {f : Function} {terminator : Terminator} {target : Expr} {error : Error}
    (failed : Flow.resolve f terminator target = .error error) : IsMisfit f.name error := by
  unfold Flow.resolve at failed
  split at failed
  · cases failed
    exact Or.inr ⟨_, _, rfl⟩
  · split at failed
    · cases failed
    · cases failed
      exact Or.inl ⟨_, rfl⟩

theorem targets_eq_error {f : Function} {terminator : Terminator} {error : Error}
    (failed : Flow.targets f terminator = .error error) : IsMisfit f.name error := by
  cases terminator with
  | ret => cases failed
  | retValue value => cases failed
  | jump target =>
      simp only [Flow.targets] at failed
      rcases except_bind_eq_error failed with failed | ⟨next, -, failed⟩
      · exact resolve_eq_error failed
      · cases failed
  | branch condition onTrue onFalse =>
      simp only [Flow.targets] at failed
      split at failed
      · rcases except_bind_eq_error failed with failed | ⟨first, -, failed⟩
        · exact resolve_eq_error failed
        · rcases except_bind_eq_error failed with failed | ⟨second, -, failed⟩
          · exact resolve_eq_error failed
          · cases failed
      · cases failed
        exact Or.inr ⟨_, _, rfl⟩

theorem build_eq_error {f : Function} {error : Error} (failed : Flow.build f = .error error) :
    IsMisfit f.name error := by
  rcases except_bind_eq_error failed with failed | ⟨_, -, failed⟩
  · simp only [Function.checkOperands] at failed
    split at failed
    · cases failed
      exact Or.inr ⟨_, _, rfl⟩
    · cases failed
  · rcases except_bind_eq_error failed with failed | ⟨_, -, failed⟩
    · obtain ⟨block, -, failed⟩ := mapM_eq_error failed
      exact targets_eq_error failed
    · cases failed

theorem selectFrom_ne_nonTermination {f : Function} {graph : Interference} {target : Target}
    {removals : List Coloring.Removal} {coloring : Coloring} {name : String} {rounds : Nat} :
    (Coloring.selectFrom f graph target removals coloring).result ≠
      .error (.nonTermination name rounds) := by
  induction removals generalizing coloring with
  | nil => simp [Coloring.selectFrom]
  | cons removal rest ih =>
      unfold Coloring.selectFrom
      split
      · exact ih
      · split
        · simp only [Logged.result_bind, Logged.result_report]
          exact ih
        · simp

theorem color_ne_nonTermination {config : Config} {attempts : Nat} {temporaries : VarSet}
    {f : Function} {name : String} {rounds : Nat} :
    (color config attempts temporaries f).result ≠ .error (.nonTermination name rounds) := by
  intro failed
  simp only [color, Logged.result_bind, Logged.result_report, Liveness.analyze,
    Logged.result_ofExcept, Logged.result_pure] at failed
  rcases except_bind_eq_error failed with failed | ⟨_, -, failed⟩
  · rcases except_bind_eq_error failed with failed | ⟨_, -, failed⟩
    · rcases build_eq_error failed with ⟨_, same⟩ | ⟨_, _, same⟩ <;> cases same
    · cases failed
  · rcases except_bind_eq_error failed with failed | ⟨_, -, failed⟩
    · cases failed
    · exact selectFrom_ne_nonTermination failed

end Errors

end Allocation

/-- Allocation ends after at most as many rounds as the function has variables, and no bound from
there on changes what comes of it. Every round spills a variable of the function, none of them
twice. It is given up only when all variables that found no color are temporaries. -/
theorem allocate_rounds (config : Allocation.Config) (f : Function) (interned : f.Interned) :
    (∀ bound, f.vars.size ≤ bound →
      allocate { config with maxRounds := some bound } f =
        allocate { config with maxRounds := none } f) ∧
    (∀ list stage, Allocation.Rounds config { function := f } list stage →
      list.length ≤ f.vars.size ∧ (∀ vars ∈ list, ∃ v ∈ vars, v.index < f.vars.size) ∧
        (list.flatten.filter fun v => v.index < f.vars.size).Nodup) ∧
    ∃ list stage, Allocation.Rounds config { function := f } list stage ∧
      Allocation.Ends config stage (allocate { config with maxRounds := none } f).result ∧
      (∀ a, (allocate { config with maxRounds := none } f).result = .ok a →
        a.rounds = list.length ∧ a.rounds ≤ f.vars.size) ∧
      ∀ name rounds, (allocate { config with maxRounds := none } f).result =
          .error (.nonTermination name rounds) →
        name = f.name ∧ rounds = list.length + 1 ∧
          ∃ coloring, (stage.attempt config).result = .ok coloring ∧ coloring.spilled ≠ ∅ ∧
            ∀ v ∈ coloring.spilled, v ∈ stage.temporaries ∧ f.vars.size ≤ v.index := by
  have valid := Allocation.Stage.valid_start interned
  have enough := Allocation.Stage.card_pending_le f.vars.size { function := f }
  have loop : ∀ bound : Option Nat, allocate { config with maxRounds := bound } f =
      Allocation.Stage.run config (bound.getD f.vars.size) { function := f } := by
    intro bound
    exact Allocation.allocateFrom_withBound config bound _ 0 ∅ f
  refine ⟨?_, ?_, ?_⟩
  · intro bound large
    rw [loop, loop]
    exact Allocation.Stage.run_congr valid (enough.trans large) enough
  · intro list stage rounds
    exact ⟨(rounds.length_le valid).trans enough, rounds.exists_lt valid, rounds.nodup valid⟩
  · rw [loop]
    obtain ⟨list, last, rounds, ends⟩ :=
      Allocation.Stage.run_ends config valid enough
    have few := (rounds.length_le valid).trans enough
    have counted := rounds.rounds_eq
    rw [Nat.zero_add] at counted
    refine ⟨list, last, rounds, ends, ?_, ?_⟩
    · intro a allocated
      rw [Option.getD_none] at allocated
      rw [allocated] at ends
      cases ends with
      | colored colored complete room => exact ⟨counted, counted ▸ few⟩
    · intro name count failed
      rw [Option.getD_none] at failed
      rw [failed] at ends
      cases ends with
      | refused failed => exact absurd failed Allocation.color_ne_nonTermination
      | exhausted colored spilled temporary =>
          refine ⟨rounds.name_eq, counted ▸ rfl, _, colored, spilled, ?_⟩
          intro v member
          exact ⟨temporary v member, (rounds.valid valid).apart v (temporary v member)⟩

/-- Where the table does not have all variables, its size is no bound on the rounds that are
needed. -/
theorem allocate_rounds_untabled :
    untabled.vars.size = 0 ∧ ¬untabled.Interned ∧
    (allocate { target := .withRegisters 1, maxRounds := none } untabled).result =
      .error (.nonTermination "@m" 1) ∧
    (allocate { target := .withRegisters 1, maxRounds := some 5 } untabled).result.toOption.map
      (fun a => (a.rounds, a.frameSlots)) = some (1, 1) := by
  refine ⟨rfl, by decide, by decide +kernel, by decide +kernel⟩

/-- With one register an addition of two variables cannot be allocated. Both of them are spilled,
one after the other, and then two temporaries are left that need a register at once. -/
theorem allocate_rounds_two_operands :
    ∃ config f, config = { target := .withRegisters 1 } ∧
      f = ⟨"@m", ⟨.int64, 0⟩, [],
        [⟨":s", [.assign (.var ⟨0⟩) (.const 1), .assign (.var ⟨1⟩) (.const 2),
          .assign (.var ⟨2⟩) (.binary .add (.var ⟨0⟩) (.var ⟨1⟩))], .retValue (.var ⟨2⟩)⟩],
        ⟨["%a", "%b", "%c"], 0⟩⟩ ∧
      f.Interned ∧
      (∀ bound, 3 ≤ bound → (allocate { config with maxRounds := some bound } f).result =
        .error (.nonTermination "@m" 3)) ∧
      ∃ list stage coloring, Allocation.Rounds config { function := f } list stage ∧
        list.length = 2 ∧ (stage.attempt config).result = .ok coloring ∧ coloring.spilled ≠ ∅ ∧
        ∀ v ∈ coloring.spilled, v ∈ stage.temporaries ∧ 3 ≤ v.index := by
  have interned : Function.Interned ⟨"@m", ⟨.int64, 0⟩, [],
      [⟨":s", [.assign (.var ⟨0⟩) (.const 1), .assign (.var ⟨1⟩) (.const 2),
        .assign (.var ⟨2⟩) (.binary .add (.var ⟨0⟩) (.var ⟨1⟩))], .retValue (.var ⟨2⟩)⟩],
      ⟨["%a", "%b", "%c"], 0⟩⟩ := by
    decide +kernel
  have failed : (allocate { target := .withRegisters 1, maxRounds := none }
      ⟨"@m", ⟨.int64, 0⟩, [],
        [⟨":s", [.assign (.var ⟨0⟩) (.const 1), .assign (.var ⟨1⟩) (.const 2),
          .assign (.var ⟨2⟩) (.binary .add (.var ⟨0⟩) (.var ⟨1⟩))], .retValue (.var ⟨2⟩)⟩],
        ⟨["%a", "%b", "%c"], 0⟩⟩).result = .error (.nonTermination "@m" 3) := by
    decide +kernel
  obtain ⟨bounds, -, list, stage, rounds, -, -, gives_up⟩ :=
    allocate_rounds { target := .withRegisters 1 } _ interned
  obtain ⟨-, count, coloring, colored, spilled, temporary⟩ := gives_up _ _ failed
  refine ⟨_, _, rfl, rfl, interned, ?_, list, stage, coloring, rounds, by omega, colored, spilled,
    temporary⟩
  intro bound large
  rw [bounds bound large]
  exact failed

end Regalloc
