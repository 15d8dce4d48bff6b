import Mathlib
import Regalloc.Proofs.ColoringSound
import Regalloc.Proofs.SpillMinting

/-!
# Allocation does not look at names

Two functions whose variables are only called differently are allocated alike, also when their
temporaries are called differently. What is read of a function but its names decides the flow
graph, the live sets, the interference graph and the coloring. A spill gives every site the next
places of the variable table, so it is determined by the size of the table; how many names are
passed over on the way does not show.
-/

namespace Regalloc

/-- Functions that are the same but for the names of their variables. -/
structure Function.SameCode (f g : Function) : Prop where
  name : g.name = f.name
  ret : g.ret = f.ret
  params : g.params = f.params
  blocks : g.blocks = f.blocks
  size : g.vars.size = f.vars.size

inductive Error.Alike : Error → Error → Prop
  | unresolvedLabel (function label : String) :
      Alike (.unresolvedLabel function label) (.unresolvedLabel function label)
  | illTyped (function text text' : String) (expected : Expectation) :
      Alike (.illTyped function text expected) (.illTyped function text' expected)
  | noColorLeft (function v v' : String) (colors : Nat) :
      Alike (.noColorLeft function v colors) (.noColorLeft function v' colors)
  | nonTermination (function : String) (rounds : Nat) :
      Alike (.nonTermination function rounds) (.nonTermination function rounds)
  | slotsExhausted (function : String) :
      Alike (.slotsExhausted function) (.slotsExhausted function)

inductive SameOutcome {α β : Type} (R : α → β → Prop) : Except Error α → Except Error β → Prop
  | ok {a : α} {b : β} : R a b → SameOutcome R (.ok a) (.ok b)
  | error {e e' : Error} : e.Alike e' → SameOutcome R (.error e) (.error e')

namespace SameOutcome

theorem bind {α β γ δ : Type} {R : α → β → Prop} {S : γ → δ → Prop} {x : Except Error α}
    {y : Except Error β} {next : α → Except Error γ} {next' : β → Except Error δ}
    (first : SameOutcome R x y) (later : ∀ a b, R a b → SameOutcome S (next a) (next' b)) :
    SameOutcome S (x >>= next) (y >>= next') := by
  cases first with
  | ok related => exact later _ _ related
  | error alike => exact .error alike

theorem mapM {α β : Type} {check check' : α → Except Error β} {list : List α}
    (each : ∀ a, SameOutcome Eq (check a) (check' a)) :
    SameOutcome Eq (list.mapM check) (list.mapM check') := by
  induction list with
  | nil => exact .ok rfl
  | cons first rest ih =>
      rw [List.mapM_cons, List.mapM_cons]
      refine .bind (each first) ?_
      rintro a _ rfl
      refine .bind ih ?_
      rintro others _ rfl
      exact .ok rfl

end SameOutcome

section Analyses

variable {f g : Function} (same : f.SameCode g)
include same

theorem Flow.resolve_sameOutcome (terminator : Terminator) (target : Expr) :
    SameOutcome Eq (resolve f terminator target) (resolve g terminator target) := by
  unfold resolve
  rw [same.name, same.blocks]
  cases target.label? with
  | none => exact .error (.illTyped ..)
  | some label =>
      dsimp only
      cases f.blocks.findIdx? fun block => block.label == label with
      | some block => exact .ok rfl
      | none => exact .error (.unresolvedLabel ..)

theorem Flow.targets_sameOutcome (terminator : Terminator) :
    SameOutcome Eq (targets f terminator) (targets g terminator) := by
  cases terminator with
  | ret => exact .ok rfl
  | retValue value => exact .ok rfl
  | jump target =>
      refine .bind (resolve_sameOutcome same _ target) ?_
      rintro b _ rfl
      exact .ok rfl
  | branch condition onTrue onFalse =>
      unfold targets
      dsimp only
      split
      · refine .bind (resolve_sameOutcome same _ onTrue) ?_
        rintro first _ rfl
        refine .bind (resolve_sameOutcome same _ onFalse) ?_
        rintro second _ rfl
        exact .ok rfl
      · rw [same.name]
        exact .error (.illTyped ..)

theorem Function.checkOperands_sameOutcome :
    SameOutcome Eq f.checkOperands g.checkOperands := by
  unfold checkOperands
  rw [same.name, same.blocks]
  dsimp only
  split
  · exact .error (.illTyped ..)
  · exact .ok rfl

theorem Flow.build_sameOutcome : SameOutcome Eq (build f) (build g) := by
  unfold build
  refine .bind (f.checkOperands_sameOutcome same) ?_
  rintro _ _ rfl
  rw [same.blocks]
  refine .bind (.mapM fun block => targets_sameOutcome same block.terminator) ?_
  rintro successors _ rfl
  exact .ok rfl

theorem Function.SameCode.paramVars : g.paramVars = f.paramVars := by
  rw [Function.paramVars, Function.paramVars, same.params]

theorem Function.SameCode.mentions : g.mentions = f.mentions := by
  rw [Function.mentions, Function.mentions, same.paramVars, same.blocks]

theorem Function.SameCode.nextFreeSlot : g.nextFreeSlot = f.nextFreeSlot := by
  rw [Function.nextFreeSlot, Function.nextFreeSlot, Function.slots, Function.slots, same.blocks]

theorem Function.SameCode.solve (flow : Flow) : Liveness.solve g flow = Liveness.solve f flow := by
  rw [Liveness.solve, Liveness.solve, same.blocks]

theorem Function.SameCode.graph (live : Liveness) (target : Target) :
    Interference.build g live target = Interference.build f live target := by
  have entries : Interference.entryMentions g live = Interference.entryMentions f live := by
    rw [Interference.entryMentions, Interference.entryMentions, same.paramVars]
  rw [Interference.build, Interference.build, Interference.mentions, Interference.mentions,
    entries, same.paramVars, same.blocks]

theorem Coloring.selectFrom_sameOutcome (graph : Interference) (target : Target)
    (removals : List Removal) (coloring : Coloring) :
    SameOutcome Eq (selectFrom f graph target removals coloring).result
      (selectFrom g graph target removals coloring).result := by
  induction removals generalizing coloring with
  | nil => exact .ok rfl
  | cons removal rest ih =>
      unfold selectFrom
      cases coloring.free? graph target removal.v with
      | some register => exact ih _
      | none =>
          dsimp only
          split
          · rw [Logged.result_bind, Logged.result_bind]
            exact ih _
          · rw [same.name]
            exact .error (.noColorLeft ..)

theorem Liveness.analyze_sameOutcome : SameOutcome Eq (analyze f).result (analyze g).result := by
  unfold analyze
  simp only [Logged.result_bind, Logged.result_ofExcept, Logged.result_report, Logged.result_pure]
  refine .bind (Flow.build_sameOutcome same) ?_
  rintro flow _ rfl
  rw [same.solve]
  exact .ok rfl

theorem Allocation.color_sameOutcome (config : Config) (stem : String) (rounds : Nat)
    (temporaries : VarSet) :
    SameOutcome Eq (color config rounds temporaries f).result
      (color { config with stem := stem } rounds temporaries g).result := by
  unfold color
  simp only [Logged.result_bind, Logged.result_report, same.mentions]
  refine .bind (Liveness.analyze_sameOutcome same) ?_
  rintro ⟨flow, live⟩ _ rfl
  simp only [same.graph, Coloring.select]
  exact .bind (.ok rfl) fun _ _ _ => Coloring.selectFrom_sameOutcome same ..

end Analyses

namespace Spill

section Unique

variable {request : Request} {stem : String} {low high high' : Nat}

theorem Rewritten.unique {instrs out out' : List Instruction}
    (left : Rewritten request low high instrs out)
    (right : Rewritten { request with stem := stem } low high' instrs out') :
    high' = high ∧ out' = out := by
  induction left generalizing high' out' with
  | nil =>
      cases right
      exact ⟨rfl, rfl⟩
  | keep no_use no_def _ ih =>
      cases right with
      | keep _ _ rest =>
          obtain ⟨rfl, rfl⟩ := ih rest
          exact ⟨rfl, rfl⟩
      | move occurs _ => exact absurd occurs (not_or.mpr ⟨no_use, no_def⟩)
  | move occurs _ ih =>
      cases right with
      | keep no_use no_def _ => exact absurd occurs (not_or.mpr ⟨no_use, no_def⟩)
      | move _ rest =>
          obtain ⟨rfl, rfl⟩ := ih rest
          exact ⟨rfl, rfl⟩

theorem RewrittenEnd.unique {t left_end right_end : Terminator} {loads loads' : List Instruction}
    (left : RewrittenEnd request t low high loads left_end)
    (right : RewrittenEnd { request with stem := stem } t low high' loads' right_end) :
    high' = high ∧ loads' = loads ∧ right_end = left_end := by
  cases left with
  | keep no_use =>
      cases right with
      | keep _ => exact ⟨rfl, rfl, rfl⟩
      | move use => exact absurd use no_use
  | move use =>
      cases right with
      | keep no_use => exact absurd use no_use
      | move _ => exact ⟨rfl, rfl, rfl⟩

theorem RewrittenBlocks.unique {list out out' : List Block}
    (left : RewrittenBlocks request low high list out)
    (right : RewrittenBlocks { request with stem := stem } low high' list out') :
    high' = high ∧ out' = out := by
  induction left generalizing high' out' with
  | nil =>
      cases right
      exact ⟨rfl, rfl⟩
  | cons instrs ending _ ih =>
      cases right with
      | cons instrs' ending' rest =>
          obtain ⟨rfl, rfl⟩ := instrs.unique instrs'
          obtain ⟨rfl, rfl, rfl⟩ := ending.unique ending'
          obtain ⟨rfl, rfl⟩ := ih rest
          exact ⟨rfl, rfl⟩

theorem RewrittenParams.unique {list out out' : List Param}
    (left : RewrittenParams request low high list out)
    (right : RewrittenParams { request with stem := stem } low high' list out') :
    high' = high ∧ out' = out := by
  induction left generalizing high' out' with
  | nil =>
      cases right
      exact ⟨rfl, rfl⟩
  | keep apart _ ih =>
      cases right with
      | keep _ rest =>
          obtain ⟨rfl, rfl⟩ := ih rest
          exact ⟨rfl, rfl⟩
      | move moving _ => exact absurd moving apart
  | move moving _ ih =>
      cases right with
      | keep apart _ => exact absurd moving apart
      | move _ rest =>
          obtain ⟨rfl, rfl⟩ := ih rest
          exact ⟨rfl, rfl⟩

end Unique

theorem one_sameCode {f g : Function} (same : f.SameCode g) (request : Request) (stem : String) :
    (one f request).function.SameCode (one g { request with stem := stem }).function ∧
      (one g { request with stem := stem }).temporaries = (one f request).temporaries := by
  obtain ⟨⟨mid, left⟩, minted⟩ := one_rewritten f request
  obtain ⟨⟨mid', right⟩, minted'⟩ := one_rewritten g { request with stem := stem }
  have params := right.params
  rw [same.size, same.params] at params
  obtain ⟨rfl, params⟩ := left.params.unique params
  have blocks := right.blocks
  rw [same.size, same.blocks] at blocks
  obtain ⟨size, blocks⟩ := left.blocks.unique blocks
  refine ⟨⟨?_, same.ret, params, blocks, size⟩, ?_⟩
  · rw [right.name, left.name, same.name]
  · rw [minted', minted, same.size, size]

theorem all_sameCode {f g : Function} (same : f.SameCode g) (stem stem' : String)
    (vars : List Var) (first : Nat) :
    (all stem f vars first).function.SameCode (all stem' g vars first).function ∧
      (all stem' g vars first).temporaries = (all stem f vars first).temporaries := by
  induction vars generalizing f g first with
  | nil => exact ⟨same, rfl⟩
  | cons v rest ih =>
      obtain ⟨head, minted⟩ := one_sameCode same ⟨v, ⟨first⟩, stem⟩ stem'
      obtain ⟨tail, later⟩ := ih head (first + 1)
      refine ⟨tail, ?_⟩
      simp only [all, minted, later]

theorem toFreeSlots_sameOutcome {f g : Function} (same : f.SameCode g) (stem stem' : String)
    (vars : List Var) :
    SameOutcome (fun moved moved' => moved.function.SameCode moved'.function ∧
        moved'.temporaries = moved.temporaries)
      (toFreeSlots stem f vars).result (toFreeSlots stem' g vars).result := by
  have next := same.nextFreeSlot
  rcases Nat.lt_or_ge (f.nextFreeSlot + vars.length + 1) slotBound with room | full
  · rw [toFreeSlots_of_lt room, toFreeSlots_of_lt (next ▸ room), next]
    exact .ok (all_sameCode same stem stem' vars f.nextFreeSlot)
  · rw [toFreeSlots_of_le full, toFreeSlots_of_le (next ▸ full), same.name]
    exact .error (.slotsExhausted _)

end Spill

namespace Allocation

structure SameUpToNames (a b : Allocation) : Prop where
  function : a.function.SameCode b.function
  coloring : b.coloring = a.coloring
  frameSlots : b.frameSlots = a.frameSlots
  rounds : b.rounds = a.rounds

theorem withFrame_sameOutcome {f g : Function} (same : f.SameCode g) (config config' : Config)
    (coloring : Coloring) (rounds : Nat) :
    SameOutcome SameUpToNames (withFrame config f coloring rounds).result
      (withFrame config' g coloring rounds).result := by
  have next := same.nextFreeSlot
  rcases Nat.lt_or_ge f.nextFreeSlot slotBound with room | full
  · rw [withFrame_of_lt room, withFrame_of_lt (next ▸ room)]
    exact .ok ⟨same, rfl, next, rfl⟩
  · rw [withFrame_of_le full, withFrame_of_le (next ▸ full), same.name]
    exact .error (.slotsExhausted _)

theorem allocateFrom_sameOutcome {f g : Function} (same : f.SameCode g) (config : Config)
    (stem : String) (remaining rounds : Nat) (temporaries : VarSet) :
    SameOutcome SameUpToNames (allocateFrom config remaining rounds temporaries f).result
      (allocateFrom { config with stem := stem } remaining rounds temporaries g).result := by
  -- On the rounds that are left; a round leads from functions of the same code to such functions.
  induction remaining generalizing f g rounds temporaries with
  | zero =>
      unfold allocateFrom
      rw [Logged.result_bind, Logged.result_bind]
      refine .bind (color_sameOutcome same config stem rounds temporaries) ?_
      rintro coloring _ rfl
      split
      · exact withFrame_sameOutcome same ..
      · rw [same.name]
        exact .error (.nonTermination ..)
  | succ remaining ih =>
      unfold allocateFrom
      rw [Logged.result_bind, Logged.result_bind]
      refine .bind (color_sameOutcome same config stem rounds temporaries) ?_
      rintro coloring _ rfl
      split
      · exact withFrame_sameOutcome same ..
      · dsimp only
        split
        · rw [same.name]
          exact .error (.nonTermination ..)
        · simp only [Logged.result_bind, Logged.result_report]
          refine .bind (.ok rfl : SameOutcome Eq (.ok ()) (.ok ())) fun _ _ _ => ?_
          refine .bind (Spill.toFreeSlots_sameOutcome same config.stem stem _) ?_
          rintro moved moved' ⟨rewritten, minted⟩
          rw [minted]
          exact ih rewritten _ _

theorem keepsNames_of_spillRounds {stem : String} {f f' : Function}
    (rounds : Relation.ReflTransGen (SpillRound stem) f f') : f.vars.KeepsNames f'.vars := by
  induction rounds with
  | refl => exact .refl _
  | tail _ round ih =>
      obtain ⟨vars, rfl⟩ := round
      exact ih.trans (Spill.keepsNames_all _ _ _ _)

end Allocation

/-- Names do not matter to allocation, neither those of variables nor those of temporaries. The
variables of a function keep their names, and no temporary gets one of them. -/
theorem allocate_sameOutcome {f g : Function} (same : f.SameCode g) (config : Allocation.Config)
    (stem : String) :
    SameOutcome Allocation.SameUpToNames (allocate config f).result
        (allocate { config with stem := stem } g).result ∧
      ∀ a, (allocate config f).result = .ok a →
        f.vars.names <+: a.function.vars.names ∧
          (f.vars.names.Nodup → a.function.vars.names.Nodup) := by
  constructor
  · unfold allocate
    rw [same.size]
    exact Allocation.allocateFrom_sameOutcome same config stem _ 0 ∅
  · intro a allocated
    obtain ⟨rounds, -, -⟩ := allocate_eq_ok allocated
    have kept := Allocation.keepsNames_of_spillRounds rounds
    exact ⟨kept.names, kept.distinct⟩

/-- The variable that lives across a call is called like the first temporary would be. -/
theorem allocate_sameOutcome_taken_name :
    ∃ f g a b, f.SameCode g ∧ f.vars = ⟨["%S0"], 0⟩ ∧ g.vars = ⟨["%x"], 7⟩ ∧
      (allocate { target := ⟨[.rbx], [], [.rbx]⟩ } f).result = .ok a ∧
      (allocate { target := ⟨[.rbx], [], [.rbx]⟩, stem := "%t" } g).result = .ok b ∧
      a.SameUpToNames b ∧ a.function.vars.names.Nodup ∧ a.rounds = 1 ∧
      a.function.vars.names = ["%S0", "%S1", "%S2", "%S3"] ∧
      b.function.vars.names = ["%x", "%t7", "%t8", "%t9"] := by
  let f : Function :=
    ⟨"@m", ⟨.int64, 0⟩, [], [⟨":e", [.assign (.var ⟨0⟩) (.const 1),
      .call true (.label "print") [.var ⟨0⟩]], .retValue (.var ⟨0⟩)⟩], ⟨["%S0"], 0⟩⟩
  let g : Function := { f with vars := ⟨["%x"], 7⟩ }
  have same : f.SameCode g := ⟨rfl, rfl, rfl, rfl, rfl⟩
  have ran : ((allocate { target := ⟨[.rbx], [], [.rbx]⟩ } f).result.toOption.map
      fun a => (a.rounds, a.function.vars.names)) = some (1, ["%S0", "%S1", "%S2", "%S3"]) := by
    decide +kernel
  have ran' : ((allocate { target := ⟨[.rbx], [], [.rbx]⟩, stem := "%t" } g).result.toOption.map
      fun b => b.function.vars.names) = some ["%x", "%t7", "%t8", "%t9"] := by
    decide +kernel
  simp only [Option.map_eq_some_iff, toOption_eq_some, Prod.mk.injEq] at ran ran'
  obtain ⟨a, allocated, rounds, names⟩ := ran
  obtain ⟨b, allocated', names'⟩ := ran'
  obtain ⟨outcome, kept⟩ := allocate_sameOutcome same { target := ⟨[.rbx], [], [.rbx]⟩ } "%t"
  rw [allocated, allocated'] at outcome
  obtain ⟨alike⟩ := outcome
  have distinct := (kept a allocated).2 (by decide)
  exact ⟨f, g, a, b, same, rfl, rfl, allocated, allocated', alike, distinct, rounds, names, names'⟩

end Regalloc
