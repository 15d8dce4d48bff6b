import Mathlib
import Regalloc.Proofs.RegisterAssignment
import Regalloc.Proofs.SpillRuns

/-!
# Spilling preserves what a program returns

Allocation moves variables of some functions to slots, one after the other. Each move leaves what
the program can return as it is, so all of them do.

A parameter is stored to its slot in the first block, so a jump back to this block stores it again
and takes it back to what it was on entry. A move that leaves everything as it is asks that there
be no such jump, or that the variable is no parameter, or that no instruction writes it.
-/

namespace Regalloc

namespace Machine

open Spill

/-- A program returns a value, prints some lines and leaves a heap, if it may take enough cycles. -/
def Returns (program : Program) (heap : Heap) (input : List Int64) (entry : String)
    (args : List Value) (value : Option Value) (output : List String) (final : Heap) : Prop :=
  ∃ limit cycles, (run program limit heap input entry args).result = .ok ⟨value, output, cycles⟩ ∧
    (run program limit heap input entry args).heap = final

theorem exists_ok_iff {program : Program} {heap : Heap} {input : List Int64} {entry : String}
    {args : List Value} :
    (∃ limit execution, (run program limit heap input entry args).result = .ok execution) ↔
      ∃ value output final, Returns program heap input entry args value output final := by
  constructor
  · intro returned
    obtain ⟨limit, execution, returned⟩ := returned
    exact ⟨execution.value, execution.output, _, limit, execution.cycles, returned, rfl⟩
  · intro returns
    obtain ⟨value, output, final, limit, cycles, returned, -⟩ := returns
    exact ⟨limit, _, returned⟩

def Equivalent (program program' : Program) : Prop :=
  ∀ heap input entry args value output final,
    Returns program heap input entry args value output final ↔
      Returns program' heap input entry args value output final

theorem Equivalent.refl (program : Program) : Equivalent program program :=
  fun _ _ _ _ _ _ _ => Iff.rfl

theorem Equivalent.trans {first second third : Program} (left : Equivalent first second)
    (right : Equivalent second third) : Equivalent first third :=
  fun heap input entry args value output final =>
    (left heap input entry args value output final).trans
      (right heap input entry args value output final)

theorem returns_of_refines {related : Nat → Nat → Prop} {program program' : Program}
    {limit limit' : Nat} {entry : String} {args : List Value}
    (refines : Refines related Eq (callerWith program limit (limit + 1) entry args)
      (callerWith program' limit' (limit' + 1) entry args))
    (start : related 0 0) {heap : Heap} {input : List Int64} {value : Option Value}
    {output : List String} {cycles : Nat}
    (returned : (run program limit heap input entry args).result = .ok ⟨value, output, cycles⟩) :
    Returns program' heap input entry args value output
      (run program limit heap input entry args).heap := by
  refine ⟨limit', ?_⟩
  rw [run_eq_outcome] at returned ⊢
  rw [run_eq_outcome]
  unfold outcome at returned ⊢
  cases ran : (callerWith program limit (limit + 1) entry args).run
      { heap := heap, input := input } with
  | error fault state =>
      rw [ran] at returned
      cases returned
  | ok result state =>
      rw [ran] at returned
      cases returned
      obtain ⟨_, state', ran', rfl, alike⟩ := refines _ _ _ _ ⟨rfl, rfl, rfl, start⟩ ran
      have again : (callerWith program' limit' (limit' + 1) entry args).run
          { heap := heap, input := input } = .ok value state' := ran'
      refine ⟨state'.cycles, ?_, ?_⟩
      · simp only [again, alike.output]
      · simp only [again, alike.heap]

theorem exists_factor (functions : List Function) :
    ∃ factor, 3 ≤ factor ∧ ∀ f ∈ functions, f.params.length + 2 ≤ factor := by
  induction functions with
  | nil => exact ⟨3, Nat.le_refl 3, fun f member => absurd member List.not_mem_nil⟩
  | cons first rest ih =>
      obtain ⟨factor, wide, small⟩ := ih
      refine ⟨factor + first.params.length, by omega, ?_⟩
      intro f member
      rcases List.mem_cons.mp member with rfl | member
      · omega
      · have fits := small f member
        omega

theorem equivalent_of_spilling {program program' : Program}
    (paired : List.Forall₂ (fun f f' => ∃ request, Spilling request f f') program.functions
      program'.functions) : Equivalent program program' := by
  obtain ⟨factor, wide, small⟩ := exists_factor program.functions
  have corresponding :
      List.Forall₂ (Corresponds factor) program.functions program'.functions := by
    refine List.Forall₂.imp ?_ ((List.forall₂_and_left ..).mpr ⟨small, paired⟩)
    intro f f' pair
    exact ⟨pair.2, pair.1⟩
  intro heap input entry args value output final
  constructor
  · intro returns
    obtain ⟨limit, cycles, returned, rfl⟩ := returns
    have limits : factor * limit ≤ factor * (limit + 1) := Nat.mul_le_mul_left factor (by omega)
    have follows : Follows factor limit (factor * (limit + 1)) program program' (limit + 1) :=
      follows_of_paired corresponding wide limits (limit + 1)
    have enough : factor * (limit + 1) ≤ factor * (limit + 1) + 1 := Nat.le_succ _
    have refines := follows.calls corresponding enough entry args
    exact returns_of_refines refines ⟨Nat.zero_le _, Nat.zero_le _⟩ returned
  · intro returns
    obtain ⟨limit, cycles, returned, rfl⟩ := returns
    have retraces : Retraces limit program program' (limit + 1) :=
      retraces_of_paired corresponding (limit + 1)
    have refines := retraces.calls corresponding (Nat.le_refl _) entry args
    exact returns_of_refines refines (Nat.le_refl 0) returned

structure Movable (f : Function) : Prop where
  readable : f.Readable
  once : f.EntersOnce

theorem spilling_self {f : Function} (readable : f.Readable) : ∃ request, Spilling request f f := by
  have absent : (⟨f.vars.size⟩ : Var) ∉ f.paramVars := by
    intro listed
    obtain ⟨param, member, same⟩ := List.mem_map.mp listed
    have small := readable.params param member
    rw [same] at small
    exact Nat.lt_irrefl _ small
  exact ⟨⟨⟨f.vars.size⟩, ⟨f.nextFreeSlot⟩, ""⟩, readable, f.slotsBelow_nextFreeSlot,
    moved_self readable (Nat.le_refl _), Or.inr (Or.inl absent)⟩

theorem Movable.after {request : Request} {f f' : Function} (movable : Movable f)
    (spilling : Spilling request f f') : Movable f' :=
  ⟨spilling.shape.readable movable.readable, spilling.shape.entersOnce movable.once⟩

/-- Steps that the members of a list take one by one are steps of the list. -/
theorem reflTransGen_forall₂ {α : Type} {R : α → α → Prop} (reflexive : ∀ a, R a a)
    {list list' : List α} (paired : List.Forall₂ (Relation.ReflTransGen R) list list') :
    Relation.ReflTransGen (List.Forall₂ R) list list' := by
  induction paired with
  | nil => exact .refl
  | @cons first first' rest rest' head tail ih =>
      -- The first member takes its steps while the others stand still, and then the others do.
      have heads : Relation.ReflTransGen (List.Forall₂ R) (first :: rest) (first' :: rest) :=
        head.lift (· :: rest) fun a b step =>
          .cons step (List.forall₂_same.mpr fun a _ => reflexive a)
      have tails : Relation.ReflTransGen (List.Forall₂ R) (first' :: rest) (first' :: rest') :=
        ih.lift (first' :: ·) fun a b step => .cons (reflexive first') step
      exact heads.trans tails

def Moves (f f' : Function) : Prop :=
  Movable f → ∃ request, Spilling request f f'

theorem equivalent_of_moves {functions functions' : List Function}
    (movable : ∀ f ∈ functions, Movable f)
    (moves : Relation.ReflTransGen (List.Forall₂ Moves) functions functions') :
    Equivalent ⟨functions⟩ ⟨functions'⟩ ∧ ∀ f' ∈ functions', Movable f' := by
  induction moves with
  | refl => exact ⟨.refl _, movable⟩
  | tail _ step ih =>
      -- The last step may be taken only because the functions before it are still movable.
      obtain ⟨equivalent, movable⟩ := ih
      have spilling := List.Forall₂.imp (fun f f' pair => pair.2 pair.1)
        ((List.forall₂_and_left ..).mpr ⟨movable, step⟩)
      refine ⟨equivalent.trans (equivalent_of_spilling spilling), ?_⟩
      intro f' member
      obtain ⟨f, listed, request, spilled⟩ := exists_of_forall₂ spilling member
      exact (movable f listed).after spilled

/-- Programs return the same when variables of their functions are moved to slots. -/
theorem equivalent_of_movesTo {functions functions' : List Function}
    (movable : ∀ f ∈ functions, Movable f)
    (moved : List.Forall₂ (Relation.ReflTransGen MovesTo) functions functions') :
    Equivalent ⟨functions⟩ ⟨functions'⟩ := by
  have moves : List.Forall₂ (Relation.ReflTransGen Moves) functions functions' := by
    refine moved.imp fun f f' chain => Relation.ReflTransGen.mono ?_ _ _ chain
    intro g g' step movable
    obtain ⟨request, below, shape⟩ := step.moves
    exact ⟨request, movable.readable, below, shape, Or.inl movable.once⟩
  exact (equivalent_of_moves movable
    (reflTransGen_forall₂ (fun _ movable => spilling_self movable.readable) moves)).1

theorem Equivalent.result_eq {program program' : Program} (equivalent : Equivalent program program')
    {limit limit' : Nat} {heap : Heap} {input : List Int64} {entry : String} {args : List Value}
    {execution execution' : Execution}
    (returned : (run program limit heap input entry args).result = .ok execution)
    (returned' : (run program' limit' heap input entry args).result = .ok execution') :
    execution'.value = execution.value ∧ execution'.output = execution.output ∧
      (run program' limit' heap input entry args).heap =
        (run program limit heap input entry args).heap := by
  obtain ⟨longer, cycles, again, heaps⟩ :=
    (equivalent heap input entry args execution.value execution.output _).mp
      ⟨limit, execution.cycles, returned, rfl⟩
  have same := run_eq_of_ok returned' again
  rw [same, again] at returned'
  cases returned'
  rw [same, heaps]
  exact ⟨rfl, rfl, rfl⟩

end Machine

/-- Allocation with spilling leaves what a program returns as it is. -/
theorem run_allocated_iff {text : String} {program : Program} {config : Allocation.Config}
    {allocations : List Allocation} (parsed : Source.parseProgram text = .ok program)
    (once : ∀ f ∈ program.functions, f.EntersOnce)
    (allocated : program.functions.mapM (fun f => (allocate config f).result) = .ok allocations)
    (heap : Machine.Heap) (input : List Int64) (entry : String) (args : List Machine.Value) :
    ((∃ limit execution,
        (Machine.run program limit heap input entry args).result = .ok execution) ↔
      ∃ limit execution, (Machine.run ⟨allocations.map Allocation.function⟩ limit heap input entry
        args).result = .ok execution) ∧
    ∀ limit limit' execution execution',
      (Machine.run program limit heap input entry args).result = .ok execution →
      (Machine.run ⟨allocations.map Allocation.function⟩ limit' heap input entry args).result =
        .ok execution' →
      execution'.value = execution.value ∧ execution'.output = execution.output ∧
      (Machine.run ⟨allocations.map Allocation.function⟩ limit' heap input entry args).heap =
        (Machine.run program limit heap input entry args).heap := by
  have movable : ∀ f ∈ program.functions, Machine.Movable f := fun f member =>
    ⟨Source.readable_of_parseProgram parsed f member, once f member⟩
  have moved : List.Forall₂ (Relation.ReflTransGen Spill.MovesTo) program.functions
      (allocations.map Allocation.function) := by
    rw [List.forall₂_map_right_iff]
    refine List.Forall₂.imp ?_
      ((List.forall₂_and_left ..).mpr ⟨movable, forall₂_of_mapM allocated⟩)
    intro f a pair
    obtain ⟨rounds, -, -⟩ := allocate_eq_ok pair.2
    exact Allocation.movesTo_of_spillRounds pair.1.readable rounds
  have equivalent := Machine.equivalent_of_movesTo movable moved
  constructor
  · rw [Machine.exists_ok_iff, Machine.exists_ok_iff]
    simp only [equivalent heap input entry args]
  · intro limit limit' execution execution' returned returned'
    exact equivalent.result_eq returned returned'

/-- With one register the parameter is stored on entry and loaded twice, and the value and the
line printed stay the same. -/
theorem run_allocated_iff_parameter :
    ∃ program allocations,
      Source.parseProgram
        "define int64 @m(int64 %a) \x7b\n:s\n%b <- %a + 1\ncall print(%b)\nreturn %a\n\x7d" =
          .ok program ∧
      (∀ f ∈ program.functions, f.EntersOnce) ∧
      program.functions.mapM
        (fun f => (allocate { target := .withRegisters 1 } f).result) = .ok allocations ∧
      allocations.map Allocation.frameSlots = [1] ∧
      (Machine.run program 3 #[] [] "@m" [.int 5]).result = .ok ⟨some (.int 5), ["6"], 3⟩ ∧
      ∃ limit execution,
        (Machine.run ⟨allocations.map Allocation.function⟩ limit #[] [] "@m" [.int 5]).result =
          .ok execution ∧
        execution.value = some (.int 5) ∧ execution.output = ["6"] := by
  have ran :
      ((Source.parseProgram
        "define int64 @m(int64 %a) \x7b\n:s\n%b <- %a + 1\ncall print(%b)\nreturn %a\n\x7d"
        ).toOption.bind
        fun program => (program.functions.mapM
          fun f => (allocate { target := .withRegisters 1 } f).result).toOption.bind
        fun allocations => (Machine.run program 3 #[] [] "@m" [.int 5]).result.toOption.map
          fun execution => (decide (∀ f ∈ program.functions, f.EntersOnce),
            allocations.map Allocation.frameSlots, execution)) =
      some (true, [1], ⟨some (.int 5), ["6"], 3⟩) := by
    decide +kernel
  simp only [Option.bind_eq_some_iff, Option.map_eq_some_iff, toOption_eq_some,
    Prod.mk.injEq, decide_eq_true_eq] at ran
  obtain ⟨program, parsed, allocations, allocated, execution, returned, once, slots, rfl⟩ := ran
  have preserved := run_allocated_iff parsed once allocated #[] [] "@m" [.int 5]
  obtain ⟨limit, execution, returned'⟩ := preserved.1.mp ⟨3, _, returned⟩
  obtain ⟨value, output, -⟩ := preserved.2 3 limit _ execution returned returned'
  exact ⟨program, allocations, parsed, once, allocated, slots, returned, limit, execution,
    returned', value, output⟩

namespace Machine

/-- Moving one variable of a function to its first free slot leaves what a program returns as it is,
unless the variable is a parameter that is written and control comes back to the first block. -/
theorem equivalent_spill_one {text : String} {program : Program}
    (parsed : Source.parseProgram text = .ok program) {before after : List Function} {f : Function}
    (listed : program.functions = before ++ f :: after) {v : Var} (reenterable : f.Reenterable v)
    (room : f.nextFreeSlot < slotBound) (stem : String) :
    ∃ slot, (Spill.freeSlot f).result = .ok slot ∧
      Equivalent program ⟨before ++ (Spill.one f ⟨v, ⟨slot⟩, stem⟩).function :: after⟩ := by
  refine ⟨f.nextFreeSlot, by rw [Spill.freeSlot_of_lt room]; rfl, ?_⟩
  have readable := Source.readable_of_parseProgram parsed
  rw [listed, List.forall_mem_append, List.forall_mem_cons] at readable
  obtain ⟨first, here, last⟩ := readable
  have spilling : Spilling ⟨v, ⟨f.nextFreeSlot⟩, stem⟩ f
      (Spill.one f ⟨v, ⟨f.nextFreeSlot⟩, stem⟩).function :=
    ⟨here, f.slotsBelow_nextFreeSlot, Spill.moved_one here _, reenterable⟩
  have unmoved : ∀ list : List Function, (∀ g ∈ list, g.Readable) →
      List.Forall₂ (fun g g' => ∃ request, Spilling request g g') list list := by
    intro list inside
    exact List.forall₂_same.mpr fun g member => spilling_self (inside g member)
  apply equivalent_of_spilling
  rw [listed]
  exact List.rel_append (unmoved before first) (.cons ⟨_, spilling⟩ (unmoved after last))

def addingLoop : Function where
  name := "@m"
  ret := ⟨.int64, 0⟩
  params := [⟨⟨.int64, 0⟩, ⟨0⟩⟩, ⟨⟨.int64, 0⟩, ⟨1⟩⟩, ⟨⟨.int64, 0⟩, ⟨2⟩⟩]
  blocks :=
    [⟨":e",
      [.assign (.var ⟨2⟩) (.binary .add (.var ⟨2⟩) (.var ⟨0⟩)),
        .assign (.var ⟨1⟩) (.binary .sub (.var ⟨1⟩) (.const 1))],
      .branch (.var ⟨1⟩) (.label ":e") (.label ":x")⟩,
    ⟨":x", [], .retValue (.var ⟨2⟩)⟩]
  vars := ⟨["%n", "%k", "%s"], 0⟩

theorem parse_addingLoop :
    Source.parseProgram
      ("define int64 @m(int64 %n, int64 %k, int64 %s) \x7b\n:e\n%s <- %s + %n\n" ++
        "%k <- %k - 1\nbr %k :e :x\n:x\nreturn %s\n\x7d") = .ok ⟨[addingLoop]⟩ := by
  apply toOption_eq_some.mp
  decide +kernel

theorem run_addingLoop :
    (run ⟨[addingLoop]⟩ 7 #[] [] "@m" [.int 5, .int 2, .int 0]).result =
      .ok ⟨some (.int 10), [], 7⟩ := by
  apply toOption_eq_some.mp
  decide +kernel

/-- The parameter `%n` is read after jumps back to the first block, but never written. -/
theorem equivalent_spill_one_unwritten :
    ¬addingLoop.EntersOnce ∧ ⟨0⟩ ∈ addingLoop.paramVars ∧ addingLoop.Reenterable ⟨0⟩ ∧
      (Spill.freeSlot addingLoop).result = .ok 0 ∧
      Returns ⟨[addingLoop]⟩ #[] [] "@m" [.int 5, .int 2, .int 0] (some (.int 10)) []
        (run ⟨[addingLoop]⟩ 7 #[] [] "@m" [.int 5, .int 2, .int 0]).heap ∧
      Returns ⟨[(Spill.one addingLoop ⟨⟨0⟩, ⟨0⟩, "%S"⟩).function]⟩ #[] []
        "@m" [.int 5, .int 2, .int 0] (some (.int 10)) []
        (run ⟨[addingLoop]⟩ 7 #[] [] "@m" [.int 5, .int 2, .int 0]).heap := by
  have reenterable : addingLoop.Reenterable ⟨0⟩ := by decide
  have listed : (⟨[addingLoop]⟩ : Program).functions = [] ++ addingLoop :: [] := rfl
  have free : (Spill.freeSlot addingLoop).result = .ok 0 := by decide
  obtain ⟨slot, found, equivalent⟩ :=
    equivalent_spill_one parse_addingLoop listed reenterable (by decide) "%S"
  cases free.symm.trans found
  have returns : Returns ⟨[addingLoop]⟩ #[] [] "@m" [.int 5, .int 2, .int 0] (some (.int 10)) []
      (run ⟨[addingLoop]⟩ 7 #[] [] "@m" [.int 5, .int 2, .int 0]).heap :=
    ⟨7, 7, run_addingLoop, rfl⟩
  exact ⟨by decide, by decide, reenterable, free, returns,
    (equivalent _ _ _ _ _ _ _).mp returns⟩

/-- The parameter `%s` is written. In its slot, each jump back takes it to what it was on entry, so
that only the last addition counts. -/
theorem spill_one_ne_of_reentry :
    (∃ text, Source.parseProgram text = .ok ⟨[addingLoop]⟩) ∧
      (run ⟨[addingLoop]⟩ 7 #[] [] "@m" [.int 5, .int 2, .int 0]).result =
        .ok ⟨some (.int 10), [], 7⟩ ∧
      (Spill.freeSlot addingLoop).result = .ok 0 ∧
      ¬∃ limit execution,
        (run ⟨[(Spill.one addingLoop ⟨⟨2⟩, ⟨0⟩, "%S"⟩).function]⟩ limit #[] []
          "@m" [.int 5, .int 2, .int 0]).result = .ok execution ∧
        execution.value = some (.int 10) := by
  refine ⟨⟨_, parse_addingLoop⟩, run_addingLoop, by decide, ?_⟩
  rintro ⟨limit, execution, returned, value⟩
  have ran : (run ⟨[(Spill.one addingLoop ⟨⟨2⟩, ⟨0⟩, "%S"⟩).function]⟩ 16 #[]
      [] "@m" [.int 5, .int 2, .int 0]).result.toOption =
      some ⟨some (.int 5), [], 14⟩ := by
    decide +kernel
  have returned' := toOption_eq_some.mp ran
  have same := run_eq_of_ok returned returned'
  rw [same, returned'] at returned
  cases returned
  cases value

end Machine

end Regalloc
