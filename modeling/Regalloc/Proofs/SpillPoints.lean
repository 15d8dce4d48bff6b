import Mathlib
import Regalloc.Proofs.ConflictEdges
import Regalloc.Proofs.SpillShape

/-!
# Spilling as the analyses see it

What a spill does to the program points of a function: a point that mentions the variable works
on the next temporary, with a point that writes the temporary in front of it and a point that
reads the temporary behind it. So after a spill the variable is mentioned no more, and what is
mentioned instead are the temporaries.
-/

namespace Regalloc

def DefUse.load (t : Var) : DefUse :=
  ⟨[t], [], false⟩

def DefUse.store (t : Var) : DefUse :=
  ⟨[], [t], false⟩

def DefUse.Mentions (point : DefUse) (v : Var) : Prop :=
  v ∈ point.defs ∨ v ∈ point.uses

/-- A point with its variables renamed; what it reads may be listed in another order. -/
structure DefUse.Renamed (rename : Var → Var) (point point' : DefUse) : Prop where
  defs : point'.defs = point.defs.map rename
  uses : ∀ v, v ∈ point'.uses ↔ ∃ u ∈ point.uses, rename u = v
  isCall : point'.isCall = point.isCall

theorem DefUse.Renamed.mentions {rename : Var → Var} {point point' : DefUse}
    (renamed : point.Renamed rename point') {v : Var} (mentioned : point'.Mentions v) :
    ∃ u, point.Mentions u ∧ rename u = v := by
  rcases mentioned with written | used
  · rw [renamed.defs, List.mem_map] at written
    obtain ⟨u, written, same⟩ := written
    exact ⟨u, Or.inl written, same⟩
  · obtain ⟨u, used, same⟩ := (renamed.uses v).mp used
    exact ⟨u, Or.inr used, same⟩

theorem Instruction.renamed_mapVars (rename : Var → Var) (instruction : Instruction) :
    instruction.defUse.Renamed rename (instruction.mapVars rename).defUse where
  defs := by
    cases instruction with
    | declare ty v => rfl
    | call builtin callee args => rfl
    | assign target source => cases target <;> rfl
  uses v := by
    simp only [defUse, mem_uses, reads_mapVars, Leaf.var_mem_map]
  isCall := by
    cases instruction with
    | declare ty v => rfl
    | call builtin callee args => rfl
    | assign target source => cases source <;> rfl

theorem Terminator.renamed_mapVars (rename : Var → Var) (terminator : Terminator) :
    terminator.defUse.Renamed rename (terminator.mapVars rename).defUse where
  defs := rfl
  uses v := by
    simp only [defUse, mem_uses, reads_mapVars, Leaf.var_mem_map]
  isCall := rfl

namespace Spill

def onFront (points : List DefUse) : List (List DefUse) → List (List DefUse)
  | [] => []
  | first :: rest => (points ++ first) :: rest

inductive RewrittenPoints (request : Request) : Nat → Nat → List DefUse → List DefUse → Prop
  | nil (size : Nat) : RewrittenPoints request size size [] []
  | keep {low high : Nat} {first : DefUse} {rest rest' : List DefUse} :
      ¬first.Mentions request.v → RewrittenPoints request low high rest rest' →
      RewrittenPoints request low high (first :: rest) (first :: rest')
  | move {low high : Nat} {first first' : DefUse} {rest rest' : List DefUse} :
      first.Mentions request.v → first.Renamed (replace request ⟨low⟩) first' →
      RewrittenPoints request (low + 1) high rest rest' →
      RewrittenPoints request low high (first :: rest)
        ((if request.v ∈ first.uses then [.load ⟨low⟩] else []) ++ [first'] ++
          (if request.v ∈ first.defs then [.store ⟨low⟩] else []) ++ rest')

inductive RewrittenAll (request : Request) :
    Nat → Nat → List (List DefUse) → List (List DefUse) → Prop
  | nil (size : Nat) : RewrittenAll request size size [] []
  | cons {low mid high : Nat} {first first' : List DefUse} {rest rest' : List (List DefUse)} :
      RewrittenPoints request low mid first first' → RewrittenAll request mid high rest rest' →
      RewrittenAll request low high (first :: rest) (first' :: rest')

section Points

variable {request : Request} {low mid high : Nat}

theorem defUse_load (t : Var) : (load request t).defUse = .load t := rfl

theorem RewrittenPoints.le {points points' : List DefUse}
    (shape : RewrittenPoints request low high points points') : low ≤ high := by
  induction shape with
  | nil => exact Nat.le_refl _
  | keep _ _ ih => exact ih
  | move _ _ _ ih => exact Nat.le_of_succ_le ih

theorem RewrittenAll.le {blocks blocks' : List (List DefUse)}
    (shape : RewrittenAll request low high blocks blocks') : low ≤ high := by
  induction shape with
  | nil => exact Nat.le_refl _
  | cons first _ ih => exact first.le.trans ih

theorem RewrittenPoints.append {points points' later later' : List DefUse}
    (first : RewrittenPoints request low mid points points')
    (second : RewrittenPoints request mid high later later') :
    RewrittenPoints request low high (points ++ later) (points' ++ later') := by
  induction first with
  | nil => exact second
  | keep absent _ ih => exact .keep absent (ih second)
  | move mentioned renamed _ ih =>
      rw [List.cons_append, List.append_assoc]
      exact .move mentioned renamed (ih second)

theorem Rewritten.points {instrs instrs' : List Instruction}
    (shape : Rewritten request low high instrs instrs') :
    RewrittenPoints request low high (instrs.map Instruction.defUse)
      (instrs'.map Instruction.defUse) := by
  induction shape with
  | nil => exact .nil _
  | keep unused undefined _ ih => exact .keep (not_or.mpr ⟨undefined, unused⟩) ih
  | @move low high first rest rest' occurs _ ih =>
      have pieces : (Spill.moved request ⟨low⟩ first ++ rest').map Instruction.defUse =
          (if request.v ∈ first.uses then [.load ⟨low⟩] else []) ++
            [(first.mapVars (replace request ⟨low⟩)).defUse] ++
            (if request.v ∈ first.defs then [.store ⟨low⟩] else []) ++
            rest'.map Instruction.defUse := by
        simp only [Spill.moved, List.map_append]
        split <;> split <;> rfl
      rw [pieces]
      exact .move occurs.symm (first.renamed_mapVars _) ih

theorem RewrittenEnd.points {t t' : Terminator} {loads : List Instruction}
    (shape : RewrittenEnd request t low high loads t') :
    RewrittenPoints request low high [t.defUse] (loads.map Instruction.defUse ++ [t'.defUse]) := by
  cases shape with
  | keep unused => exact .keep (not_or.mpr ⟨List.not_mem_nil, unused⟩) (.nil _)
  | move used =>
      have moves : RewrittenPoints request low (low + 1) [t.defUse] _ :=
        .move (Or.inr used) (t.renamed_mapVars _) (.nil _)
      simpa [Terminator.defUse, used, defUse_load] using moves

theorem RewrittenBlocks.points {list list' : List Block}
    (shape : RewrittenBlocks request low high list list') :
    RewrittenAll request low high (list.map Block.points) (list'.map Block.points) := by
  induction shape with
  | nil => exact .nil _
  | cons instrs ending _ ih =>
      refine .cons ?_ ih
      simp only [Block.points, List.map_append, List.append_assoc]
      exact instrs.points.append ending.points

theorem points_onEntry (temporaries : List Var) (list : List Block) :
    (onEntry (temporaries.map (store request)) list).map Block.points =
      onFront (temporaries.map .store) (list.map Block.points) := by
  cases list with
  | nil => rfl
  | cons first rest =>
      simp only [onEntry, onFront, List.map_cons, Block.points, List.map_append, List.map_map,
        List.append_assoc]
      rfl

theorem RewrittenAs.points {f f' : Function} (shape : RewrittenAs request mid f f') :
    RewrittenAll request mid f'.vars.size
      (onFront ((mints f.vars.size mid).map .store) (f.blocks.map Block.points))
      (f'.blocks.map Block.points) := by
  rw [← points_onEntry]
  exact shape.blocks.points

end Points

section Mentions

variable {request : Request} {low high : Nat}

theorem mentions_replace {point point' : DefUse}
    (renamed : point.Renamed (replace request ⟨low⟩) point') {w : Var}
    (mentioned : point'.Mentions w) :
    w ≠ request.v ∧ point.Mentions w ∨ w = ⟨low⟩ := by
  obtain ⟨u, mentioned, same⟩ := renamed.mentions mentioned
  unfold replace at same
  split at same
  · exact Or.inr same.symm
  · rename_i apart
    exact Or.inl ⟨same ▸ apart, same ▸ mentioned⟩

theorem RewrittenPoints.mentions {points points' : List DefUse}
    (shape : RewrittenPoints request low high points points') {point' : DefUse}
    (member : point' ∈ points') {w : Var} (mentioned : point'.Mentions w) :
    w ≠ request.v ∧ (∃ point ∈ points, point.Mentions w) ∨ w ∈ mints low high := by
  induction shape with
  | nil => cases member
  | keep absent _ ih =>
      rcases List.mem_cons.mp member with rfl | member
      · exact Or.inl ⟨fun same => absent (same ▸ mentioned), _, List.mem_cons_self .., mentioned⟩
      · refine (ih member).imp_left fun ⟨apart, point, listed, mentioned⟩ => ?_
        exact ⟨apart, point, List.mem_cons_of_mem _ listed, mentioned⟩
  | @move low high first first' rest rest' occurs renamed later ih =>
      have minted := first_mem_mints later.le
      simp only [List.mem_append, List.mem_ite_nil_right, List.mem_singleton] at member
      rcases member with ((⟨-, rfl⟩ | rfl) | ⟨-, rfl⟩) | member
      · rcases mentioned with written | used
        · exact Or.inr (List.mem_singleton.mp written ▸ minted)
        · cases used
      · rcases mentions_replace renamed mentioned with ⟨apart, mentioned⟩ | rfl
        · exact Or.inl ⟨apart, first, List.mem_cons_self .., mentioned⟩
        · exact Or.inr minted
      · rcases mentioned with written | used
        · cases written
        · exact Or.inr (List.mem_singleton.mp used ▸ minted)
      · rcases ih member with ⟨apart, point, listed, mentioned⟩ | fresh
        · exact Or.inl ⟨apart, point, List.mem_cons_of_mem _ listed, mentioned⟩
        · exact Or.inr (mints_succ_subset _ _ fresh)

theorem RewrittenAll.mentions {blocks blocks' : List (List DefUse)}
    (shape : RewrittenAll request low high blocks blocks') {points' : List DefUse}
    (listed : points' ∈ blocks') {point' : DefUse} (member : point' ∈ points') {w : Var}
    (mentioned : point'.Mentions w) :
    w ≠ request.v ∧ (∃ points ∈ blocks, ∃ point ∈ points, point.Mentions w) ∨
      w ∈ mints low high := by
  induction shape with
  | nil => cases listed
  | cons first rest ih =>
      rcases List.mem_cons.mp listed with rfl | listed
      · rcases first.mentions member mentioned with ⟨apart, occurs⟩ | fresh
        · exact Or.inl ⟨apart, _, List.mem_cons_self .., occurs⟩
        · exact Or.inr (mints_subset (Nat.le_refl _) rest.le fresh)
      · rcases ih listed with ⟨apart, points, listed, occurs⟩ | fresh
        · exact Or.inl ⟨apart, points, List.mem_cons_of_mem _ listed, occurs⟩
        · exact Or.inr (mints_subset first.le (Nat.le_refl _) fresh)

theorem RewrittenParams.mentions {list list' : List Param}
    (shape : RewrittenParams request low high list list') {w : Var}
    (member : w ∈ list'.map Param.v) :
    w ≠ request.v ∧ w ∈ list.map Param.v ∨ w ∈ mints low high := by
  induction shape with
  | nil => cases member
  | keep apart _ ih =>
      rcases List.mem_cons.mp member with rfl | member
      · exact Or.inl ⟨apart, List.mem_cons_self ..⟩
      · exact (ih member).imp_left fun ⟨apart, listed⟩ => ⟨apart, List.mem_cons_of_mem _ listed⟩
  | move same later ih =>
      rcases List.mem_cons.mp member with rfl | member
      · exact Or.inr (first_mem_mints later.le)
      · rcases ih member with ⟨apart, listed⟩ | fresh
        · exact Or.inl ⟨apart, List.mem_cons_of_mem _ listed⟩
        · exact Or.inr (mints_succ_subset _ _ fresh)

theorem exists_mem_onFront {front : List DefUse} {blocks : List (List DefUse)}
    {points : List DefUse} (listed : points ∈ blocks) {point : DefUse} (member : point ∈ points) :
    ∃ points ∈ onFront front blocks, point ∈ points := by
  cases blocks with
  | nil => cases listed
  | cons first rest =>
      rcases List.mem_cons.mp listed with rfl | listed
      · exact ⟨_, List.mem_cons_self .., List.mem_append_right _ member⟩
      · exact ⟨points, List.mem_cons_of_mem _ listed, member⟩

theorem mem_onFront {front : List DefUse} {blocks : List (List DefUse)} {points : List DefUse}
    (listed : points ∈ onFront front blocks) {point : DefUse} (member : point ∈ points) :
    point ∈ front ∨ ∃ points ∈ blocks, point ∈ points := by
  cases blocks with
  | nil => cases listed
  | cons first rest =>
      rcases List.mem_cons.mp listed with rfl | listed
      · refine (List.mem_append.mp member).imp_right fun member => ?_
        exact ⟨first, List.mem_cons_self .., member⟩
      · exact Or.inr ⟨points, List.mem_cons_of_mem _ listed, member⟩

end Mentions

/-- A spill takes the variable out of a function and brings temporaries in. -/
theorem mem_mentions_one {f : Function} {request : Request} {w : Var}
    (mentioned : w ∈ (one f request).function.mentions) :
    w ∈ f.mentions ∧ w ≠ request.v ∨ w ∈ (one f request).temporaries := by
  obtain ⟨⟨mid, shape⟩, temporaries⟩ := one_rewritten f request
  have early := shape.params.le
  have late := shape.blocks.le
  rw [temporaries, mem_mints]
  rcases Function.mem_mentions.mp mentioned with param | ⟨block, listed, point, member, occurs⟩
  · rcases shape.params.mentions param with ⟨apart, param⟩ | fresh
    · exact Or.inl ⟨Function.mem_mentions.mpr (Or.inl param), apart⟩
    · rw [mem_mints] at fresh
      omega
  · rcases shape.points.mentions (List.mem_map_of_mem listed) member occurs with
      ⟨apart, points, listed, point, member, occurs⟩ | fresh
    · rcases mem_onFront listed member with stored | ⟨points, listed, member⟩
      · obtain ⟨t, minted, rfl⟩ := List.mem_map.mp stored
        rcases occurs with written | used
        · cases written
        · rw [List.mem_singleton.mp used]
          rw [mem_mints] at minted
          omega
      · obtain ⟨original, inside, rfl⟩ := List.mem_map.mp listed
        refine Or.inl ⟨Function.mem_mentions.mpr (Or.inr ?_), apart⟩
        exact ⟨original, inside, point, member, occurs⟩
    · rw [mem_mints] at fresh
      omega

theorem all_minted (stem : String) (f : Function) (vars : List Var) (first : Nat) :
    f.vars.size ≤ (all stem f vars first).function.vars.size ∧
      (all stem f vars first).temporaries =
        mints f.vars.size (all stem f vars first).function.vars.size := by
  induction vars generalizing f first with
  | nil => exact ⟨Nat.le_refl _, (mints_self _).symm⟩
  | cons v rest ih =>
      obtain ⟨⟨mid, shape⟩, minted⟩ := one_rewritten f ⟨v, ⟨first⟩, stem⟩
      obtain ⟨grows, minted'⟩ := ih (one f ⟨v, ⟨first⟩, stem⟩).function (first + 1)
      refine ⟨shape.le.trans grows, ?_⟩
      simp only [all]
      rw [minted, minted', mints_append shape.le grows]

theorem name_all (stem : String) (f : Function) (vars : List Var) (first : Nat) :
    (all stem f vars first).function.name = f.name := by
  induction vars generalizing f first with
  | nil => rfl
  | cons v rest ih =>
      obtain ⟨⟨mid, shape⟩, -⟩ := one_rewritten f ⟨v, ⟨first⟩, stem⟩
      exact (ih _ _).trans shape.name

theorem mem_mentions_all {stem : String} {f : Function} {vars : List Var} {first : Nat} {w : Var}
    (mentioned : w ∈ (all stem f vars first).function.mentions) :
    w ∈ f.mentions ∧ w ∉ vars ∨ w ∈ (all stem f vars first).temporaries := by
  induction vars generalizing f first with
  | nil => exact Or.inl ⟨mentioned, List.not_mem_nil⟩
  | cons v rest ih =>
      simp only [all, List.mem_append]
      rcases ih mentioned with ⟨mentioned, apart⟩ | fresh
      · rcases mem_mentions_one mentioned with ⟨mentioned, other⟩ | fresh
        · refine Or.inl ⟨mentioned, ?_⟩
          rw [List.mem_cons, not_or]
          exact ⟨other, apart⟩
        · exact Or.inr (Or.inl fresh)
      · exact Or.inr (Or.inr fresh)

end Spill

end Regalloc
