import Mathlib
import Regalloc.Proofs.ColoringSound
import Regalloc.Proofs.ConflictEdges
import Regalloc.Proofs.LiveRenaming
import Regalloc.Proofs.SpillShape

/-!
# Registers in place of variables

Every variable that is written down in an allocated function has a register. A function whose
variables are replaced by their registers does what the function did, because variables of one
register are never live together with a write to one of them.
-/

namespace Regalloc

section Occurrences

theorem Instruction.mem_varOccurrences {instruction : Instruction} {v : Var} :
    v ∈ instruction.varOccurrences ↔ v ∈ instruction.uses ∨ v ∈ instruction.defs := by
  rw [mem_uses_or_defs]
  cases instruction with
  | declare ty w => simp [varOccurrences, exprs, Expr.leaves]
  | call builtin callee args => simp [varOccurrences, exprs, Expr.mem_varOccurrences]
  | assign target source => simp [varOccurrences, exprs, Expr.mem_varOccurrences]

theorem Flow.resolve_eq_ok {f : Function} {terminator : Terminator} {target : Expr} {next : Nat}
    (resolved : resolve f terminator target = .ok next) : ∃ name, target = .label name := by
  cases target with
  | label name => exact ⟨name, rfl⟩
  | _ => cases resolved

theorem Terminator.mem_uses_of_mem_varOccurrences {f : Function} {terminator : Terminator}
    {nexts : List Nat} (followed : Flow.targets f terminator = .ok nexts) {v : Var}
    (written : v ∈ terminator.varOccurrences) : v ∈ terminator.uses := by
  have nothing : ∀ name, v ∉ (Expr.label name).varOccurrences := by
    intro name member
    cases member
  cases terminator with
  | ret => exact written
  | retValue value => exact List.mem_eraseDups.mpr written
  | jump target =>
      simp only [Flow.targets] at followed
      obtain ⟨next, resolved, -⟩ := except_bind_eq_ok.mp followed
      obtain ⟨name, rfl⟩ := Flow.resolve_eq_ok resolved
      exact absurd written (nothing name)
  | branch condition onTrue onFalse =>
      simp only [Flow.targets] at followed
      split at followed
      · obtain ⟨first, resolved, followed⟩ := except_bind_eq_ok.mp followed
        obtain ⟨second, resolved', -⟩ := except_bind_eq_ok.mp followed
        obtain ⟨name, rfl⟩ := Flow.resolve_eq_ok resolved
        obtain ⟨name', rfl⟩ := Flow.resolve_eq_ok resolved'
        simp only [varOccurrences, List.mem_append, nothing, or_false] at written
        exact List.mem_eraseDups.mpr written
      · cases followed

/-- In a function whose jumps can be followed, every variable that is written down is mentioned
by a parameter or a program point. -/
theorem Function.mem_mentions_of_mem_varOccurrences {f : Function} {flow : Flow}
    (built : Flow.build f = .ok flow) {v : Var} (written : v ∈ f.varOccurrences) :
    v ∈ f.mentions := by
  simp only [varOccurrences, List.mem_append, List.mem_flatMap] at written
  apply mem_mentions.mpr
  rcases written with param | ⟨block, listed, ⟨i, inside, written⟩ | written⟩
  · exact Or.inl param
  · refine Or.inr ⟨block, listed, i.defUse, ?_, ?_⟩
    · exact List.mem_append_left _ (List.mem_map_of_mem inside)
    · exact (Instruction.mem_varOccurrences.mp written).symm
  · obtain ⟨b, found⟩ := List.getElem?_of_mem listed
    refine Or.inr ⟨block, listed, block.terminator.defUse, ?_, Or.inr ?_⟩
    · exact List.mem_append_right _ (List.mem_singleton_self _)
    · have followed := Flow.targets_successorsOf built found
      exact Terminator.mem_uses_of_mem_varOccurrences followed written

theorem Interference.ColoredBy.written {f : Function} {flow : Flow} {target : Target}
    {coloring : Coloring}
    (sound : (Interference.build f (Liveness.solve f flow) target).ColoredBy target coloring)
    (built : Flow.build f = .ok flow) {v : Var} (occurs : v ∈ f.varOccurrences) :
    ∃ r ∈ target.allocatable, coloring.color v = some r :=
  sound.colored v ((Interference.var_mem_nodes_iff built).mpr
    (Function.mem_mentions_of_mem_varOccurrences built occurs))

end Occurrences

def Register.asVar (r : Register) : Var :=
  ⟨r.index⟩

theorem Register.asVar_injective : Function.Injective Register.asVar := by
  intro r s same
  rw [← all_getD_index r, ← all_getD_index s, Var.mk.inj same]

def Coloring.used (coloring : Coloring) : Set Register :=
  {r | ∃ v, coloring.color v = some r}

def Coloring.registerVar (canonical : Register → Var) (coloring : Coloring) (v : Var) : Var :=
  (coloring.color v).elim v canonical

/-- The allocated function with one variable for each register. -/
def Allocation.onRegisters (canonical : Register → Var) (a : Allocation) : Function :=
  a.function.mapVars (a.coloring.registerVar canonical)

namespace Machine

variable {target : Target} {a : Allocation} {flow : Flow} {canonical : Register → Var}

theorem registerVar_ne
    (sound : (Interference.build a.function (Liveness.solve a.function flow) target).ColoredBy
      target a.coloring)
    (injective : Set.InjOn canonical a.coloring.used) {u v : Var}
    (conflict : (Interference.build a.function (Liveness.solve a.function flow) target).interferes
      (.var u) (.var v) = true) :
    a.coloring.registerVar canonical u ≠ a.coloring.registerVar canonical v := by
  obtain ⟨r, -, colored⟩ := sound.colored u (Interference.mem_nodes_of_interferes conflict)
  obtain ⟨s, -, colored'⟩ := sound.colored v
    (Interference.mem_nodes_of_interferes (Interference.interferes_symm conflict))
  have apart := sound.apart u v conflict
  simp only [Coloring.registerVar, colored, colored', Option.elim_some]
  intro same
  apply apart
  rw [colored, colored', injective ⟨u, colored⟩ ⟨v, colored'⟩ same]

theorem separates_registerVar
    (sound : (Interference.build a.function (Liveness.solve a.function flow) target).ColoredBy
      target a.coloring)
    (injective : Set.InjOn canonical a.coloring.used) :
    Separates a.function flow (a.coloring.registerVar canonical) where
  written := by
    intro b block i instruction found here d defined v after same
    by_contra apart
    exact registerVar_ne sound injective
      (Interference.written_conflict found (Block.points_of_instruction here) defined after apart)
      same
  entered := by
    intro p param v live same
    by_contra apart
    exact registerVar_ne sound injective (Interference.entry_conflict param live apart) same

end Machine

/-- Rounds of spilling are moves of single variables. -/
theorem Allocation.movesTo_of_spillRounds {stem : String} {f f' : Function}
    (readable : f.Readable) (rounds : Relation.ReflTransGen (SpillRound stem) f f') :
    Relation.ReflTransGen Spill.MovesTo f f' := by
  induction rounds with
  | refl => exact .refl
  | tail _ round ih =>
      obtain ⟨vars, rfl⟩ := round
      have before := Spill.readable_of_movesTo readable ih
      exact ih.trans (Spill.movesTo_all stem before vars _ (Function.slotsBelow_nextFreeSlot _))

theorem allocate_readable {config : Allocation.Config} {f : Function} {a : Allocation}
    (readable : f.Readable) (allocated : (allocate config f).result = .ok a) :
    a.function.Readable := by
  obtain ⟨rounds, -, -⟩ := allocate_eq_ok allocated
  exact Spill.readable_of_movesTo readable (Allocation.movesTo_of_spillRounds readable rounds)

theorem settled_of_allocations {text : String} {program : Program} {config : Allocation.Config}
    {allocations : List Allocation} (parsed : Source.parseProgram text = .ok program)
    (allocated : program.functions.mapM (fun f => (allocate config f).result) = .ok allocations)
    {a : Allocation} (member : a ∈ allocations) :
    a.function.Readable ∧ ∃ flow, Flow.build a.function = .ok flow ∧
      (Interference.build a.function (Liveness.solve a.function flow) config.target).ColoredBy
        config.target a.coloring := by
  obtain ⟨f, listed, result⟩ := exists_of_forall₂ (forall₂_of_mapM allocated) member
  have readable := Source.readable_of_parseProgram parsed f listed
  exact ⟨allocate_readable readable result, (allocate_eq_ok result).2.1⟩

/-- All variables of an allocated program have registers, and it does the same when each of them is
replaced by one that stands for its register. -/
theorem run_onRegisters {text : String} {program : Program} {config : Allocation.Config}
    {allocations : List Allocation} (parsed : Source.parseProgram text = .ok program)
    (allocated : program.functions.mapM (fun f => (allocate config f).result) = .ok allocations)
    (canonical : Allocation → Register → Var)
    (injective : ∀ a ∈ allocations, Set.InjOn (canonical a) a.coloring.used)
    {limit : Nat} {heap : Machine.Heap} {input : List Int64} {entry : String}
    {args : List Machine.Value} {execution : Machine.Execution}
    (returned : (Machine.run ⟨allocations.map Allocation.function⟩ limit heap input entry
      args).result = .ok execution) :
    (∀ a ∈ allocations, ∀ v ∈ a.function.varOccurrences, ∃ r ∈ config.target.allocatable,
      a.coloring.color v = some r ∧
        a.coloring.registerVar (canonical a) v = canonical a r) ∧
    Machine.run ⟨allocations.map fun a => a.onRegisters (canonical a)⟩ limit heap input entry
        args =
      Machine.run ⟨allocations.map Allocation.function⟩ limit heap input entry args := by
  have registers : ∀ a ∈ allocations, ∀ v ∈ a.function.varOccurrences,
      ∃ r ∈ config.target.allocatable, a.coloring.color v = some r ∧
        a.coloring.registerVar (canonical a) v = canonical a r := by
    intro a member v occurs
    obtain ⟨-, flow, built, sound⟩ := settled_of_allocations parsed allocated member
    obtain ⟨r, allocatable, colored⟩ := sound.written built occurs
    exact ⟨r, allocatable, colored, by rw [Coloring.registerVar, colored, Option.elim_some]⟩
  have paired : List.Forall₂ (Machine.RenamedPair Machine.calm Machine.calm)
      (allocations.map Allocation.function)
      (allocations.map fun a => a.onRegisters (canonical a)) := by
    rw [List.forall₂_map_left_iff, List.forall₂_map_right_iff, List.forall₂_same]
    intro a member
    obtain ⟨readable, flow, built, sound⟩ := settled_of_allocations parsed allocated member
    refine ⟨a.function, flow, id, a.coloring.registerVar (canonical a), ?_,
      (Function.mapVars_id _).symm, rfl⟩
    exact
      { distinct := readable.distinct
        built := built
        separates := Machine.separates_id _ _
        separates' := Machine.separates_registerVar sound (injective a member)
        spares := Machine.spares_calm _ _ _
        spares' := Machine.spares_calm _ _ _
        late := fun _ _ _ _ _ _ _ => Or.inl fun _ _ => ⟨fun _ _ => rfl, fun _ _ => rfl⟩ }
  refine ⟨registers, ?_⟩
  simp only [← Machine.runDisturbed_calm] at returned ⊢
  exact Machine.runDisturbed_renamed paired returned

/-- With one register, of the two variables that are live together one lives in a slot, and
the other and two temporaries become one variable. -/
theorem run_onRegisters_single :
    ∃ program allocations,
      Source.parseProgram
        ("define void @m() \x7b\n:s\n%a <- 1\n%b <- 2\n" ++
          "call print(%b)\ncall print(%a)\nreturn\n\x7d") =
          .ok program ∧
      program.functions.mapM
        (fun f => (allocate { target := .withRegisters 1 } f).result) = .ok allocations ∧
      allocations.map (fun a => a.function.varOccurrences) =
        [[⟨2⟩, ⟨2⟩, ⟨1⟩, ⟨1⟩, ⟨3⟩, ⟨3⟩]] ∧
      allocations.map (fun a => (a.onRegisters Register.asVar).varOccurrences) =
        [[⟨0⟩, ⟨0⟩, ⟨0⟩, ⟨0⟩, ⟨0⟩, ⟨0⟩]] ∧
      (∀ a ∈ allocations, ∀ v ∈ a.function.varOccurrences, a.coloring.color v = some .r10) ∧
      (Machine.run ⟨allocations.map fun a => a.onRegisters Register.asVar⟩ 7 #[] [] "@m"
        []).result = .ok ⟨none, ["2", "1"], 7⟩ := by
  have ran :
      ((Source.parseProgram
        ("define void @m() \x7b\n:s\n%a <- 1\n%b <- 2\n" ++
          "call print(%b)\ncall print(%a)\nreturn\n\x7d")).toOption.bind
        fun program => (program.functions.mapM
          fun f => (allocate { target := .withRegisters 1 } f).result).toOption.bind
        fun allocations => (Machine.run ⟨allocations.map Allocation.function⟩ 7 #[] [] "@m"
          []).result.toOption.map fun execution =>
            (allocations.map fun a => a.function.varOccurrences,
              allocations.map fun a => (a.onRegisters Register.asVar).varOccurrences,
              execution)) =
      some ([[⟨2⟩, ⟨2⟩, ⟨1⟩, ⟨1⟩, ⟨3⟩, ⟨3⟩]], [[⟨0⟩, ⟨0⟩, ⟨0⟩, ⟨0⟩, ⟨0⟩, ⟨0⟩]],
        ⟨none, ["2", "1"], 7⟩) := by
    decide +kernel
  simp only [Option.bind_eq_some_iff, Option.map_eq_some_iff, toOption_eq_some,
    Prod.mk.injEq] at ran
  obtain ⟨program, parsed, allocations, allocated, execution, returned, vars, shared, rfl⟩ := ran
  obtain ⟨registers, same⟩ := run_onRegisters parsed allocated (fun _ => Register.asVar)
    (fun a _ => Register.asVar_injective.injOn) returned
  refine ⟨program, allocations, parsed, allocated, vars, shared, ?_, same ▸ returned⟩
  intro a member v occurs
  obtain ⟨r, allocatable, colored, -⟩ := registers a member v occurs
  cases List.mem_singleton.mp allocatable
  exact colored

end Regalloc
