import Mathlib
import Regalloc.Proofs.SpilledSites
import Regalloc.Proofs.StackSlots

/-!
# Enough registers for every point

Allocation succeeds if no point of a function reads more variables than there are registers, no
more parameters arrive than that, and no jump leads back to the first block. A temporary that may
live in any register conflicts with fewer temporaries than there are registers, and one that
arrives in a register can keep it. So temporaries always find a color, and whatever is spilled is
a variable of the function, and needs one slot.
-/

namespace Regalloc

open Liveness

theorem Target.argumentRegister_eq_some {target : Target} {position : Nat} {r : Register} :
    target.argumentRegister position = some r ↔
      target.arguments[position]? = some r ∧ r ∈ target.allocatable := by
  rw [argumentRegister, Option.filter_eq_some_iff, isAllocatable, List.contains_iff_mem]

structure Target.Offers (k : Nat) (target : Target) : Prop where
  positive : 0 < k
  colors : k ≤ target.colorCount
  allocatable : target.allocatable.Nodup
  arguments : target.arguments.Nodup

theorem Target.offers_withRegisters {k : Nat} (least : 1 ≤ k) (most : k ≤ 15) :
    (Target.withRegisters k).Offers k where
  positive := least
  colors := by
    have all : Target.full.allocatable.length = 15 := rfl
    rw [colorCount, withRegisters, List.length_take, all, Nat.max_eq_right least,
      Nat.min_eq_left most]
  allocatable := List.Nodup.sublist (List.take_sublist _ _) (by decide)
  arguments := (by decide : Target.full.arguments.Nodup)

theorem Interference.countP_remains_lt {graph : Interference} {v : Var} {left : List Var}
    {near : Finset Var} (loopless : ¬graph.interferes (.var v) (.var v) = true)
    (inside : v ∈ near)
    (only : ∀ node, graph.interferes (.var v) node = true → node.remains left = true →
      ∃ u ∈ near, node = .var u) :
    (graph.neighbors (.var v)).countP (Node.remains left) < near.card := by
  have distinct := (graph.nodup_neighbors (.var v)).filter (Node.remains left)
  have counted : ((graph.neighbors (.var v)).filter (Node.remains left)).toFinset ⊆
      (near.erase v).image Node.var := by
    intro node member
    rw [List.mem_toFinset, List.mem_filter, Interference.mem_neighbors] at member
    obtain ⟨u, close, rfl⟩ := only node member.1 member.2
    have apart : u ≠ v := by
      rintro rfl
      exact loopless member.1
    exact Finset.mem_image_of_mem _ (Finset.mem_erase.mpr ⟨apart, close⟩)
  calc (graph.neighbors (.var v)).countP (Node.remains left)
      = ((graph.neighbors (.var v)).filter (Node.remains left)).toFinset.card := by
        rw [List.countP_eq_length_filter, List.toFinset_card_of_nodup distinct]
    _ ≤ ((near.erase v).image Node.var).card := Finset.card_le_card counted
    _ ≤ (near.erase v).card := Finset.card_image_le
    _ < near.card := Finset.card_erase_lt_of_mem inside

namespace Confined

variable {n k : Nat} {lead : List Var} {sites : List (List Site)} {f : Function} {flow : Flow}
  {target : Target} (confined : Confined n k lead sites f)
  (entered : ∀ b, 0 ∉ flow.successorsOf b) (built : Flow.build f = .ok flow)
  (offers : target.Offers k)

include confined entered built offers

/-- The temporaries that a temporary conflicts with are at most `k`, with itself. -/
theorem exists_near {v : Var} (temporary : n ≤ v.index) :
    ∃ near : Finset Var, v ∈ near ∧ near.card ≤ k ∧ ∀ u : Var, n ≤ u.index →
      (Interference.build f (solve f flow) target).interferes (.var v) (.var u) = true →
      u ∈ near := by
  -- A parameter meets only parameters, and any other temporary those loaded at its one site.
  by_cases param : v ∈ f.paramVars
  · refine ⟨f.paramVars.toFinset, List.mem_toFinset.mpr param, ?_, ?_⟩
    · have count : f.paramVars.length = f.params.length := List.length_map _
      exact (List.toFinset_card_le _).trans (count ▸ confined.params)
    · intro u temporary' conflict
      rcases confined.conflict_cases entered built conflict temporary temporary' with
        ⟨site, listed, loaded, -⟩ | ⟨-, param'⟩
      · exact absurd param
          (confined.notMem_paramVars listed (List.mem_append_left _ loaded) temporary)
      · exact List.mem_toFinset.mpr param'
  · by_cases owner : ∃ site ∈ sites.flatten, v ∈ site.loads
    · obtain ⟨site, listed, loaded⟩ := owner
      refine ⟨site.loads.toFinset, List.mem_toFinset.mpr loaded, ?_, ?_⟩
      · have fits := confined.fits_of_mem listed
        refine (Finset.card_le_card ?_).trans fits.few
        intro t member
        rw [List.mem_toFinset] at member ⊢
        exact ((fits.loaded t).mp member).2
      · intro u temporary' conflict
        rcases confined.conflict_cases entered built conflict temporary temporary' with
          ⟨other, listed', loaded', mate⟩ | ⟨param', -⟩
        · rw [confined.site_unique listed listed' (List.mem_append_left _ loaded)
            (List.mem_append_left _ loaded')]
          exact List.mem_toFinset.mpr mate
        · exact absurd param' param
    · refine ⟨{v}, Finset.mem_singleton_self v, offers.positive, ?_⟩
      intro u temporary' conflict
      rcases confined.conflict_cases entered built conflict temporary temporary' with
        ⟨site, listed, loaded, -⟩ | ⟨param', -⟩
      · exact absurd ⟨site, listed, loaded⟩ owner
      · exact absurd param' param

/-- With `k` neighbors among temporaries and registers, a temporary arrives in a register. -/
theorem arrives_of_crowded {v : Var} (temporary : n ≤ v.index) {left : List Var}
    (temporaries : ∀ u ∈ left, n ≤ u.index)
    (crowded : k ≤ ((Interference.build f (solve f flow) target).neighbors (.var v)).countP
      (Node.remains left)) :
    ∃ position r, f.paramVars[position]? = some v ∧
      target.argumentRegister position = some r := by
  by_contra loose
  obtain ⟨near, inside, few, only⟩ := confined.exists_near entered built offers temporary
  refine absurd crowded (Nat.not_le.mpr (lt_of_lt_of_le ?_ few))
  apply Interference.countP_remains_lt (Interference.loopless _) inside
  intro node conflict remains
  cases node with
  | register r =>
      obtain ⟨position, fixed, param, arrives, -⟩ :=
        confined.register_conflict_cases entered built conflict temporary
      exact absurd ⟨position, fixed, param, arrives⟩ loose
  | var u =>
      have member : u ∈ left := by simpa [Node.remains] using remains
      exact ⟨u, only u (temporaries u member) conflict, rfl⟩

theorem notMem_of_stuck {temporaries : VarSet} (large : ∀ t ∈ temporaries, n ≤ t.index) {v : Var}
    {left : List Var} {coloring : Coloring}
    (stuck : Coloring.Stuck (Interference.build f (solve f flow) target) target temporaries v left
      coloring) : v ∉ temporaries := by
  intro temporary
  -- Nothing but temporaries is left, so each of them arrives in a register.
  have rest := stuck.temporary temporary
  have fixed : ∀ u ∈ left, ∃ position r, f.paramVars[position]? = some u ∧
      target.argumentRegister position = some r := by
    intro u member
    exact confined.arrives_of_crowded entered built offers (large u (rest u member))
      (fun w listed => large w (rest w listed)) (offers.colors.trans (stuck.crowded u member))
  obtain ⟨position, r, param, arrives⟩ := fixed v stuck.member
  obtain ⟨place, allocatable⟩ := Target.argumentRegister_eq_some.mp arrives
  have taken := Coloring.mem_taken_of_free?_eq_none stuck.unfree allocatable
  obtain ⟨node, neighbor, held⟩ := List.mem_filterMap.mp taken
  have conflict := Interference.mem_neighbors.mp neighbor
  cases node with
  | register s =>
      cases held
      obtain ⟨other, s, param', arrives', apart⟩ :=
        confined.register_conflict_cases entered built conflict (large v temporary)
      rw [confined.position_unique (large v temporary) param' param, arrives] at arrives'
      exact apart (Option.some.inj arrives')
  | var u =>
      have colored : coloring.color u = some r := held
      obtain ⟨member, apart⟩ := stuck.colored u (Option.isSome_of_eq_some colored)
      obtain ⟨other, s, param', arrives'⟩ := fixed u member
      by_cases same : r = s
      · -- No other parameter arrives in the register.
        obtain ⟨place', -⟩ := Target.argumentRegister_eq_some.mp arrives'
        have inside := (List.getElem?_eq_some_iff.mp place).1
        have position_eq : position = other :=
          (List.getElem?_inj inside offers.arguments).mp (by rw [place, place', same])
        rw [position_eq, param'] at param
        exact apart (Option.some.inj param)
      · exact stuck.proper.apart u r (.register r) colored
          (Interference.arrival_conflict param' arrives' allocatable same) rfl

end Confined

section Start

theorem Instruction.length_defs_le (instruction : Instruction) :
    instruction.defs.length ≤ 1 := by
  cases instruction with
  | declare ty v => exact Nat.le_refl 1
  | call builtin callee args => exact Nat.zero_le 1
  | assign target source =>
      rw [defs]
      cases target.var? <;> simp

theorem Block.length_defs_le {block : Block} {point : DefUse} (member : point ∈ block.points) :
    point.defs.length ≤ 1 := by
  rcases List.mem_append.mp member with member | last
  · obtain ⟨instruction, -, rfl⟩ := List.mem_map.mp member
    exact instruction.length_defs_le
  · rw [List.mem_singleton.mp last]
    exact Nat.zero_le 1

theorem Spill.onFront_nil (blocks : List (List DefUse)) : onFront [] blocks = blocks := by
  cases blocks <;> rfl

theorem confined_start {k : Nat} {f : Function} (interned : f.Interned)
    (params : f.params.length ≤ k)
    (points : ∀ block ∈ f.blocks, ∀ point ∈ block.points, point.uses.toFinset.card ≤ k) :
    Confined f.vars.size k [] (f.blocks.map fun block => block.points.map (Site.mk [])) f := by
  have small : ∀ block ∈ f.blocks, ∀ point ∈ block.points, ∀ v, v ∈ point.defs ∨ v ∈ point.uses →
      v.index < f.vars.size := by
    intro block listed point member v occurs
    exact interned v (Function.mem_mentions.mpr (Or.inr ⟨block, listed, point, member, occurs⟩))
  have unstored : ∀ block ∈ f.blocks, ∀ point ∈ block.points,
      Site.stores f.vars.size ⟨[], point⟩ = [] := by
    intro block listed point member
    apply List.filter_eq_nil_iff.mpr
    intro v written
    have less := small block listed point member v (Or.inl written)
    simpa using less
  refine ⟨?_, ?_, fun t member => absurd member List.not_mem_nil, params, ?_⟩
  · rw [List.map_nil, Spill.onFront_nil, laid, List.map_map]
    apply List.map_congr_left
    intro block listed
    rw [Function.comp_apply, List.flatMap_map]
    calc block.points = block.points.flatMap fun point => [point] :=
          (List.flatMap_singleton' _).symm
      _ = block.points.flatMap fun point => Site.points f.vars.size ⟨[], point⟩ := by
          apply List.flatMap_congr
          intro point member
          rw [Site.points, unstored block listed point member]
          rfl
  · rw [List.forall_mem_map]
    intro block listed
    rw [List.forall_mem_map]
    intro point member
    refine ⟨points block listed point member, Block.length_defs_le member, ?_⟩
    intro t
    refine iff_of_false List.not_mem_nil ?_
    rintro ⟨large, used⟩
    exact absurd (small block listed point member t (Or.inr used)) (Nat.not_lt.mpr large)
  · have arriving : (f.paramVars.filter fun v => f.vars.size ≤ v.index) = [] := by
      apply List.filter_eq_nil_iff.mpr
      intro v param
      have less := interned v (Function.mem_mentions.mpr (Or.inl param))
      simpa using less
    have owned : (f.blocks.map fun block => block.points.map (Site.mk [])).flatten.flatMap
        (Site.temporaries f.vars.size) = [] := by
      apply List.flatMap_eq_nil_iff.mpr
      intro site member
      obtain ⟨list, laid, inside⟩ := List.mem_flatten.mp member
      obtain ⟨block, listed, rfl⟩ := List.mem_map.mp laid
      obtain ⟨point, here, rfl⟩ := List.mem_map.mp inside
      rw [Site.temporaries, unstored block listed point here]
      rfl
    rw [arriving, owned]
    exact List.nodup_nil

end Start

namespace Allocation

theorem result_color {config : Config} {rounds : Nat} {temporaries : VarSet} {f : Function}
    {flow : Flow} (built : Flow.build f = .ok flow) :
    (color config rounds temporaries f).result =
      (Coloring.select f (Interference.build f (solve f flow) config.target) config.target
        (Coloring.simplify (Interference.build f (solve f flow) config.target)
          (fun v => f.mentions.count v) temporaries config.target.colorCount)).result := by
  simp only [color, Logged.result_report, analyze, Logged.result_ofExcept, Logged.result_pure,
    built, bind]

/-- An attempt gives a coloring whatever is in the way, as registers are only listed once. -/
theorem color_settled (config : Config) (rounds : Nat) (temporaries : VarSet) {f : Function}
    {flow : Flow} (distinct : config.target.allocatable.Nodup) (built : Flow.build f = .ok flow) :
    ∃ coloring, (color config rounds temporaries f).result = .ok coloring ∧
      Coloring.Settled (Interference.build f (solve f flow) config.target) config.target
        temporaries
        (Coloring.candidates (Interference.build f (solve f flow) config.target)
          fun v => f.mentions.count v) coloring := by
  have closed : ∀ u v, (Interference.build f (solve f flow) config.target).interferes
      (.var u) (.var v) = true →
      .var v ∈ (Interference.build f (solve f flow) config.target).nodes := by
    intro u v conflict
    exact Interference.mem_nodes_of_interferes (Interference.interferes_symm conflict)
  obtain ⟨coloring, selected, settled⟩ := Coloring.selectFrom_removals f distinct
    (fun _ _ => Interference.interferes_symm) Interference.loopless _
    (Coloring.counted_candidates closed)
  exact ⟨coloring, (result_color built).trans selected, settled⟩

/-- What holds at every stage of the allocation of a function with `n` variables none of whose
points reads more than `k`: among others, that there are slots for all variables still to come. -/
structure Stage.Sited (n k : Nat) (flow : Flow) (stage : Stage) : Prop where
  valid : stage.Valid n
  built : Flow.build stage.function = .ok flow
  confined : ∃ lead sites, Confined n k lead sites stage.function
  room : stage.function.nextFreeSlot + (stage.pending n).card + 1 < slotBound

section Stages

variable {config : Config} {n k : Nat} {flow : Flow} {stage : Stage}
  (entered : ∀ b, 0 ∉ flow.successorsOf b) (offers : config.target.Offers k)

include entered offers

theorem Stage.Sited.attempt (sited : stage.Sited n k flow) :
    ∃ coloring, (stage.attempt config).result = .ok coloring ∧
      ∀ v ∈ coloring.spilled, v ∉ stage.temporaries := by
  obtain ⟨lead, sites, confined⟩ := sited.confined
  obtain ⟨coloring, colored, settled⟩ :=
    color_settled config stage.rounds stage.temporaries offers.allocatable sited.built
  refine ⟨coloring, colored, ?_⟩
  intro v spilled
  obtain ⟨left, earlier, stuck⟩ := settled.stuck v spilled
  exact confined.notMem_of_stuck entered sited.built offers sited.valid.apart stuck

theorem Stage.Sited.pending_spill (sited : stage.Sited n k flow) {coloring : Coloring}
    (colored : (stage.attempt config).result = .ok coloring) :
    ((stage.spill config coloring.spilled.toList).pending n).card +
      coloring.spilled.toList.length ≤ (stage.pending n).card := by
  obtain ⟨coloring', colored', lasting⟩ := sited.attempt entered offers
  cases colored.symm.trans colored'
  let places := (coloring.spilled.toList.map Var.index).toFinset
  have mem_places : ∀ i ∈ places, ∃ v ∈ coloring.spilled, v.index = i := by
    intro i member
    obtain ⟨v, listed, same⟩ := List.mem_map.mp (List.mem_toFinset.mp member)
    exact ⟨v, IndexSet.mem_toList.mp listed, same⟩
  have counted : places.card = coloring.spilled.toList.length := by
    have distinct : (coloring.spilled.toList.map Var.index).Nodup :=
      (IndexSet.nodup_toList _).map fun _ _ same => congrArg Var.mk same
    rw [List.toFinset_card_of_nodup distinct, List.length_map]
  have apart : Disjoint ((stage.spill config coloring.spilled.toList).pending n) places := by
    rw [Finset.disjoint_right]
    intro i member
    obtain ⟨v, spilled, rfl⟩ := mem_places i member
    exact sited.valid.notMem_pending_spill (IndexSet.mem_toList.mpr spilled)
  rw [← counted, ← Finset.card_union_of_disjoint apart]
  refine Finset.card_le_card (Finset.union_subset (sited.valid.pending_spill_subset _) ?_)
  intro i member
  obtain ⟨v, spilled, rfl⟩ := mem_places i member
  exact sited.valid.mem_pending_of_spilled colored spilled (lasting v spilled)

theorem Stage.Sited.spill (sited : stage.Sited n k flow) {coloring : Coloring}
    (colored : (stage.attempt config).result = .ok coloring) :
    (stage.spill config coloring.spilled.toList).Sited n k flow := by
  obtain ⟨lead, sites, confined⟩ := sited.confined
  obtain ⟨coloring', colored', lasting⟩ := sited.attempt entered offers
  cases colored.symm.trans colored'
  refine ⟨sited.valid.spill _, Spill.build_all _ _ _ sited.built, ?_, ?_⟩
  · apply Spill.confined_all confined sited.valid.interned sited.valid.size
    intro v listed
    have spilled := IndexSet.mem_toList.mp listed
    exact sited.valid.lt_of_spilled colored spilled (lasting v spilled)
  · have fewer := sited.pending_spill entered offers colored
    have slots : (stage.spill config coloring.spilled.toList).function.nextFreeSlot ≤
        stage.function.nextFreeSlot + coloring.spilled.toList.length :=
      Spill.nextFreeSlot_all_le _ (Nat.le_refl _)
    have room := sited.room
    omega

theorem Rounds.sited {list : List (List Var)} {last : Stage}
    (rounds : Rounds config stage list last) (sited : stage.Sited n k flow) :
    last.Sited n k flow := by
  induction rounds with
  | refl => exact sited
  | round colored _ _ ih => exact ih (sited.spill entered offers colored)

end Stages

end Allocation

/-- Allocation succeeds with registers enough for what any point reads and for the parameters, and
with slots for all variables, if no jump leads back to the first block. Temporaries are never
spilled. -/
theorem allocate_succeeds {k : Nat} (least : 1 ≤ k) (most : k ≤ 15) {config : Allocation.Config}
    (registers : config.target = .withRegisters k) (unbounded : config.maxRounds = none)
    {f : Function} (interned : f.Interned) {flow : Flow} (built : Flow.build f = .ok flow)
    (entered : ∀ b, 0 ∉ flow.successorsOf b) (params : f.params.length ≤ k)
    (points : ∀ block ∈ f.blocks, ∀ point ∈ block.points, point.uses.toFinset.card ≤ k)
    (room : f.nextFreeSlot + f.vars.size + 1 < slotBound) :
    (∃ a, (allocate config f).result = .ok a) ∧
      ∀ list stage, Allocation.Rounds config { function := f } list stage →
        ∃ coloring, (stage.attempt config).result = .ok coloring ∧
          ∀ v ∈ coloring.spilled, v ∉ stage.temporaries := by
  have offers : config.target.Offers k := registers ▸ Target.offers_withRegisters least most
  have few := Allocation.Stage.card_pending_le f.vars.size { function := f }
  have start : Allocation.Stage.Sited f.vars.size k flow { function := f } :=
    { valid := Allocation.Stage.valid_start interned
      built := built
      confined := ⟨_, _, confined_start interned params points⟩
      room := Nat.lt_of_le_of_lt (Nat.add_le_add_right (Nat.add_le_add_left few _) 1) room }
  have attempts : ∀ list stage, Allocation.Rounds config { function := f } list stage →
      ∃ coloring, (stage.attempt config).result = .ok coloring ∧
        ∀ v ∈ coloring.spilled, v ∉ stage.temporaries := by
    intro list stage rounds
    exact (rounds.sited entered offers start).attempt entered offers
  refine ⟨?_, attempts⟩
  have loop : allocate config f = Allocation.Stage.run config f.vars.size { function := f } := by
    rw [allocate, unbounded]
    rfl
  obtain ⟨list, last, rounds, ends⟩ := Allocation.Stage.run_ends config start.valid few
  obtain ⟨coloring, colored, lasting⟩ := attempts list last rounds
  have sited := rounds.sited entered offers start
  have left := sited.room
  rw [loop]
  generalize (Allocation.Stage.run config f.vars.size { function := f }).result = result at ends ⊢
  cases ends with
  | colored => exact ⟨_, rfl⟩
  | refused failed => cases colored.symm.trans failed
  | exhausted colored' spilled temporary =>
      cases colored.symm.trans colored'
      have nothing : coloring.spilled = ∅ :=
        IndexSet.eq_empty_iff.mpr fun v member => lasting v member (temporary v member)
      exact absurd nothing spilled
  | frameFull colored' complete full => omega
  | slotsFull colored' lasting' full =>
      have fewer := sited.pending_spill entered offers colored'
      omega

def lastSlot : Function :=
  ⟨"@f", ⟨.void, 0⟩, [], [⟨":e", [.assign (.slot ⟨4294967295⟩) (.const 1)], .ret⟩], ⟨[], 0⟩⟩

/-- Allocation can fail although one register is enough for every point: if a variable is not in
the table, and if there are no more numbers for slots. -/
theorem allocate_fails_outside :
    (∀ f ∈ [untabled, lastSlot], Flow.build f = .ok ⟨[[]]⟩ ∧ f.params.length ≤ 1 ∧
      ∀ block ∈ f.blocks, ∀ point ∈ block.points, point.uses.toFinset.card ≤ 1) ∧
    (∀ b, 0 ∉ Flow.successorsOf ⟨[[]]⟩ b) ∧
    (allocate { target := .withRegisters 1 } untabled).result =
      .error (.nonTermination "@m" 1) ∧
    lastSlot.Interned ∧
    (allocate { target := .withRegisters 1 } lastSlot).result = .error (.slotsExhausted "@f") := by
  refine ⟨by decide +kernel, fun b => ?_, by decide +kernel, by decide, by decide +kernel⟩
  rcases b with _ | b <;> simp [Flow.successorsOf]

/-- Two registers are enough for a loop over four variables, two of them parameters, as no point of
it reads more than two. The first attempt leaves both parameters without a register. -/
theorem allocate_succeeds_loop :
    ∃ program f flow coloring a, Source.parseProgram
        ("define int64 @m(int64 %a, int64 %b) \x7b\n:s\n%c <- %a + %b\n%d <- 1\nbr :l\n" ++
          ":l\n%c <- %c + %a\n%d <- %d + %b\nbr %d :l :e\n:e\nreturn %c\n\x7d") = .ok program ∧
      f ∈ program.functions ∧ Flow.build f = .ok flow ∧ (∀ b, 0 ∉ flow.successorsOf b) ∧
      f.params.length = 2 ∧
      (∀ block ∈ f.blocks, ∀ point ∈ block.points, point.uses.toFinset.card ≤ 2) ∧
      f.nextFreeSlot + f.vars.size + 1 < slotBound ∧
      (Allocation.color { target := .withRegisters 2 } 0 ∅ f).result = .ok coloring ∧
      coloring.spilled.toList = [⟨0⟩, ⟨1⟩] ∧
      (allocate { target := .withRegisters 2 } f).result = .ok a := by
  obtain ⟨f, same⟩ : ∃ f : Function, f = ⟨"@m", ⟨.int64, 0⟩,
      [⟨⟨.int64, 0⟩, ⟨0⟩⟩, ⟨⟨.int64, 0⟩, ⟨1⟩⟩],
      [⟨":s", [.assign (.var ⟨2⟩) (.binary .add (.var ⟨0⟩) (.var ⟨1⟩)),
          .assign (.var ⟨3⟩) (.const 1)], .jump (.label ":l")⟩,
        ⟨":l", [.assign (.var ⟨2⟩) (.binary .add (.var ⟨2⟩) (.var ⟨0⟩)),
          .assign (.var ⟨3⟩) (.binary .add (.var ⟨3⟩) (.var ⟨1⟩))],
          .branch (.var ⟨3⟩) (.label ":l") (.label ":e")⟩,
        ⟨":e", [], .retValue (.var ⟨2⟩)⟩],
      ⟨["%a", "%b", "%c", "%d"], 0⟩⟩ := ⟨_, rfl⟩
  have read : Source.parseProgram
      ("define int64 @m(int64 %a, int64 %b) \x7b\n:s\n%c <- %a + %b\n%d <- 1\nbr :l\n" ++
        ":l\n%c <- %c + %a\n%d <- %d + %b\nbr %d :l :e\n:e\nreturn %c\n\x7d") = .ok ⟨[f]⟩ := by
    rw [same]
    decide +kernel
  have built : Flow.build f = .ok ⟨[[1], [1, 2], []]⟩ := by
    rw [same]
    decide +kernel
  have entered : ∀ b, 0 ∉ Flow.successorsOf ⟨[[1], [1, 2], []]⟩ b := by
    intro b
    rcases b with _ | _ | _ | b <;> simp [Flow.successorsOf]
  have params : f.params.length = 2 := by
    rw [same]
    rfl
  have points : ∀ block ∈ f.blocks, ∀ point ∈ block.points, point.uses.toFinset.card ≤ 2 := by
    rw [same]
    decide +kernel
  have room : f.nextFreeSlot + f.vars.size + 1 < slotBound := by
    rw [same]
    decide
  have first : (Allocation.color { target := .withRegisters 2 } 0 ∅ f).result.toOption.map
      (fun coloring => coloring.spilled.toList) = some [⟨0⟩, ⟨1⟩] := by
    rw [same]
    decide +kernel
  obtain ⟨coloring, colored, spilled⟩ := Option.map_eq_some_iff.mp first
  have member : f ∈ (Program.mk [f]).functions := List.mem_singleton_self f
  have interned := (Source.readable_of_parseProgram read f member).interned
  obtain ⟨⟨a, allocated⟩, -⟩ := allocate_succeeds (by decide) (by decide)
    (rfl : Allocation.Config.target { target := .withRegisters 2 } = .withRegisters 2) rfl interned
    built entered params.le points room
  exact ⟨_, f, _, coloring, a, read, member, built, entered, params, points, room,
    toOption_eq_some.mp colored, spilled, allocated⟩

end Regalloc
