import Mathlib
import Regalloc.Proofs.LivePaths
import Regalloc.Proofs.SpilledSites

/-!
# Spilling leaves other conflicts as they are

The points that a spill puts in mention only temporaries, and the points it changes still read and
write the same other variables. So at the place where a point goes, the same other variables are
live as before, and they conflict with each other and with registers as they did. A temporary is
live only around the point it belongs to, unless it arrives as a parameter.
-/

namespace Regalloc

open Liveness

theorem Liveness.mem_liveBefore_silent {u : Var} {out : VarSet} {front rest : List DefUse}
    (silent : ∀ point ∈ front, ¬point.Mentions u) :
    u ∈ liveBefore out (front ++ rest) ↔ u ∈ liveBefore out rest := by
  induction front with
  | nil => rfl
  | cons point front ih =>
      rw [List.forall_mem_cons, DefUse.Mentions, not_or] at silent
      rw [List.cons_append, liveBefore_cons, mem_transfer, ih silent.2]
      simp [silent.1]

theorem Liveness.liveBefore_congr {u : Var} {out out' : VarSet} (same : u ∈ out ↔ u ∈ out')
    {points : List DefUse} : u ∈ liveBefore out points ↔ u ∈ liveBefore out' points :=
  ⟨liveBefore_mono same.mp, liveBefore_mono same.mpr⟩

namespace Spill

/-- How many points a point becomes: a load stands in front of it if it reads the variable, and a
store behind it if it writes the variable. -/
def width (v : Var) (point : DefUse) : Nat :=
  (if v ∈ point.uses then 1 else 0) + 1 + if v ∈ point.defs then 1 else 0

def shift (v : Var) : List DefUse → Nat → Nat
  | [], i => i
  | point :: _, 0 => if v ∈ point.uses then 1 else 0
  | point :: rest, i + 1 => width v point + shift v rest i

/-- Where the `i`-th point of block `b` goes: the first block opens with the stores of
parameters. -/
def movedTo (v : Var) (f : Function) (b i : Nat) : Nat :=
  (if b = 0 then f.paramVars.count v else 0) + shift v ((f.blocks.map Block.points).getD b []) i

def lead (low mid b : Nat) : List Var :=
  if b = 0 then mints low mid else []

/-- A point as a spill leaves it: as it was, or on a temporary in place of the variable. -/
inductive Carried (request : Request) (temporaries : List Var) (point : DefUse) : DefUse → Prop
  | keep : ¬point.Mentions request.v → Carried request temporaries point point
  | move {t : Var} {point' : DefUse} : t ∈ temporaries →
      point.Renamed (replace request t) point' → Carried request temporaries point point'

structure Stays (request : Request) (temporaries : List Var) (u : Var) : Prop where
  apart : u ≠ request.v
  old : u ∉ temporaries

section Points

variable {request : Request} {low high : Nat} {temporaries : List Var} {u : Var}

theorem lead_subset {mid b : Nat} : lead low mid b ⊆ mints low mid := by
  unfold lead
  split
  · exact List.Subset.refl _
  · exact List.nil_subset _

theorem Stays.mono (stays : Stays request temporaries u) {some : List Var}
    (part : some ⊆ temporaries) : Stays request some u :=
  ⟨stays.apart, fun minted => stays.old (part minted)⟩

theorem Carried.mono {some : List Var} {point point' : DefUse}
    (carried : Carried request some point point') (part : some ⊆ temporaries) :
    Carried request temporaries point point' := by
  cases carried with
  | keep absent => exact .keep absent
  | move minted renamed => exact .move (part minted) renamed

theorem Stays.replace_eq_iff (stays : Stays request temporaries u) {t : Var}
    (minted : t ∈ temporaries) {w : Var} : replace request t w = u ↔ w = u := by
  unfold replace
  split
  · rename_i here
    refine iff_of_false ?_ ?_
    · exact fun same => stays.old (same ▸ minted)
    · exact fun same => stays.apart (same.symm.trans here)
  · rfl

theorem Carried.mem_defs {point point' : DefUse}
    (carried : Carried request temporaries point point')
    (stays : Stays request temporaries u) : u ∈ point'.defs ↔ u ∈ point.defs := by
  cases carried with
  | keep => rfl
  | move minted renamed => simp [renamed.defs, stays.replace_eq_iff minted]

theorem Carried.mem_uses {point point' : DefUse}
    (carried : Carried request temporaries point point')
    (stays : Stays request temporaries u) : u ∈ point'.uses ↔ u ∈ point.uses := by
  cases carried with
  | keep => rfl
  | move minted renamed => simp [renamed.uses, stays.replace_eq_iff minted]

theorem Carried.isCall {point point' : DefUse}
    (carried : Carried request temporaries point point') : point'.isCall = point.isCall := by
  cases carried with
  | keep => rfl
  | move _ renamed => exact renamed.isCall

theorem Carried.mem_liveBefore_cons {point point' : DefUse}
    (carried : Carried request temporaries point point') (stays : Stays request temporaries u)
    {out out' : VarSet} {rest rest' : List DefUse}
    (same : u ∈ liveBefore out' rest' ↔ u ∈ liveBefore out rest) :
    u ∈ liveBefore out' (point' :: rest') ↔ u ∈ liveBefore out (point :: rest) := by
  rw [liveBefore_cons, liveBefore_cons, mem_transfer, mem_transfer, carried.mem_defs stays,
    carried.mem_uses stays, same]

theorem silent_loads {p : Prop} [Decidable p] {t : Var} (other : u ≠ t) :
    ∀ point ∈ if p then [DefUse.load t] else [], ¬point.Mentions u := by
  split <;> simp [not_mentions_load other]

theorem silent_stores {p : Prop} [Decidable p] {t : Var} (other : u ≠ t) :
    ∀ point ∈ if p then [DefUse.store t] else [], ¬point.Mentions u := by
  split <;> simp [not_mentions_store other]

theorem RewrittenPoints.mem_liveBefore {points points' : List DefUse}
    (shape : RewrittenPoints request low high points points')
    (stays : Stays request (mints low high) u) {out : VarSet} :
    u ∈ liveBefore out points' ↔ u ∈ liveBefore out points := by
  induction shape with
  | nil => rfl
  | keep absent _ ih => exact (Carried.keep absent).mem_liveBefore_cons stays (ih stays)
  | @move low high first first' rest rest' _ renamed later ih =>
      have minted := first_mem_mints later.le
      have other : u ≠ ⟨low⟩ := fun same => stays.old (same ▸ minted)
      have carried : Carried request (mints low high) first first' := .move minted renamed
      rw [List.append_assoc, List.append_assoc, mem_liveBefore_silent (silent_loads other),
        List.singleton_append]
      refine carried.mem_liveBefore_cons stays ?_
      rw [mem_liveBefore_silent (silent_stores other)]
      exact ih (stays.mono (mints_succ_subset _ _))

section Moves

variable {v t : Var} {point point' : DefUse}

theorem length_moves :
    ((if v ∈ point.uses then [DefUse.load t] else []) ++ [point'] ++
      if v ∈ point.defs then [DefUse.store t] else []).length = width v point := by
  unfold width
  split <;> split <;> rfl

theorem getElem?_moves {j : Nat} {found : DefUse}
    (there : ((if v ∈ point.uses then [DefUse.load t] else []) ++ [point'] ++
      if v ∈ point.defs then [DefUse.store t] else [])[j]? = some found) :
    (found = .load t ∨ found = .store t) ∨ j = if v ∈ point.uses then 1 else 0 := by
  split at there <;> split at there <;> rcases j with _ | _ | _ | j <;> simp_all

theorem drop_moves (rest : List DefUse) (k : Nat) :
    (((if v ∈ point.uses then [DefUse.load t] else []) ++ [point'] ++
      if v ∈ point.defs then [DefUse.store t] else []) ++ rest).drop (width v point + k) =
        rest.drop k := by
  rw [← List.drop_drop, List.drop_left' length_moves]

theorem width_of_not_mentions {v : Var} {point : DefUse} (absent : ¬point.Mentions v) :
    width v point = 1 := by
  rw [DefUse.Mentions, not_or] at absent
  simp [width, absent]

end Moves

theorem shift_strictMono (v : Var) (points : List DefUse) : StrictMono (shift v points) := by
  induction points with
  | nil => exact strictMono_id
  | cons first rest ih =>
      intro i j less
      cases j with
      | zero => omega
      | succ j =>
          cases i with
          | zero =>
              rw [shift, shift, width]
              omega
          | succ i =>
              have later := ih (Nat.lt_of_succ_lt_succ less)
              rw [shift, shift]
              omega

theorem movedTo_strictMono (v : Var) (f : Function) (b : Nat) : StrictMono (movedTo v f b) :=
  fun _ _ less => Nat.add_lt_add_left (shift_strictMono v _ less) _

/-- A point goes where `shift` says, and what is live after it is live there. -/
theorem RewrittenPoints.drop_shift {points points' : List DefUse}
    (shape : RewrittenPoints request low high points points') {i : Nat} {point : DefUse}
    (here : points[i]? = some point) :
    ∃ point' rest', points'.drop (shift request.v points i) = point' :: rest' ∧
      Carried request (mints low high) point point' ∧
      ∀ u, Stays request (mints low high) u → ∀ out,
        (u ∈ liveBefore out rest' ↔ u ∈ liveBefore out (points.drop (i + 1))) := by
  induction shape generalizing i with
  | nil => cases here
  | @keep low high first rest rest' absent later ih =>
      cases i with
      | zero =>
          obtain rfl := Option.some.inj here
          have unused : request.v ∉ first.uses := fun used => absent (Or.inr used)
          refine ⟨first, rest', by simp [shift, unused], .keep absent, ?_⟩
          exact fun u stays out => later.mem_liveBefore stays
      | succ i =>
          obtain ⟨point', tail, placed, carried, live⟩ := ih here
          refine ⟨point', tail, ?_, carried, live⟩
          rw [shift, width_of_not_mentions absent, Nat.add_comm, List.drop_succ_cons, placed]
  | @move low high first first' rest rest' occurs renamed later ih =>
      have minted := first_mem_mints later.le
      have part := mints_succ_subset low high
      cases i with
      | zero =>
          obtain rfl := Option.some.inj here
          refine ⟨first', (if request.v ∈ first.defs then [.store ⟨low⟩] else []) ++ rest', ?_,
            .move minted renamed, ?_⟩
          · rw [shift]
            split <;> simp
          · intro u stays out
            have other : u ≠ ⟨low⟩ := fun same => stays.old (same ▸ minted)
            rw [mem_liveBefore_silent (silent_stores other)]
            exact later.mem_liveBefore (stays.mono part)
      | succ i =>
          obtain ⟨point', tail, placed, carried, live⟩ := ih here
          refine ⟨point', tail, ?_, carried.mono part, fun u stays => live u (stays.mono part)⟩
          rw [shift, drop_moves, placed]

theorem RewrittenPoints.move_or_shift {points points' : List DefUse}
    (shape : RewrittenPoints request low high points points') {j : Nat} {point' : DefUse}
    (there : points'[j]? = some point') :
    (∃ t ∈ mints low high, point' = .load t ∨ point' = .store t) ∨
      ∃ i < points.length, j = shift request.v points i := by
  induction shape generalizing j with
  | nil => cases there
  | @keep low high first rest rest' absent later ih =>
      cases j with
      | zero =>
          have unused : request.v ∉ first.uses := fun used => absent (Or.inr used)
          exact Or.inr ⟨0, Nat.succ_pos _, by simp [shift, unused]⟩
      | succ j =>
          refine (ih there).imp_right fun ⟨i, inside, same⟩ => ?_
          refine ⟨i + 1, Nat.succ_lt_succ inside, ?_⟩
          rw [shift, width_of_not_mentions absent, same, Nat.add_comm]
  | @move low high first first' rest rest' occurs renamed later ih =>
      have minted := first_mem_mints later.le
      by_cases beyond : width request.v first ≤ j
      · rw [List.getElem?_append_right (by rwa [length_moves]), length_moves] at there
        rcases ih there with ⟨t, member, moves⟩ | ⟨i, inside, same⟩
        · exact Or.inl ⟨t, mints_succ_subset _ _ member, moves⟩
        · refine Or.inr ⟨i + 1, Nat.succ_lt_succ inside, ?_⟩
          rw [shift, ← same]
          omega
      · rw [List.getElem?_append_left (by rw [length_moves]; omega)] at there
        rcases getElem?_moves there with moves | placed
        · exact Or.inl ⟨⟨low⟩, minted, moves⟩
        · exact Or.inr ⟨0, Nat.succ_pos _, placed⟩

/-- Outside the point it belongs to, no temporary is live. -/
theorem RewrittenPoints.not_mem_liveBefore {points points' : List DefUse}
    (shape : RewrittenPoints request low high points points') {t : Var} {out : VarSet}
    (absent : ∀ point ∈ points, ¬point.Mentions t) (dead : t ∉ out) :
    t ∉ liveBefore out points' := by
  induction shape with
  | nil => exact dead
  | @keep low high first rest rest' _ _ ih =>
      rw [List.forall_mem_cons] at absent
      rw [← List.singleton_append, mem_liveBefore_silent (List.forall_mem_singleton.mpr absent.1)]
      exact ih absent.2
  | @move low high first first' rest rest' occurs renamed _ ih =>
      rw [List.forall_mem_cons] at absent
      have other : t ≠ request.v := fun same => absent.1 (same ▸ occurs)
      by_cases here : t = ⟨low⟩
      · subst here
        rw [List.append_assoc, List.append_assoc]
        by_cases used : request.v ∈ first.uses
        · -- The load writes it.
          simp [used, DefUse.load]
        · -- The point itself writes it, and does not read it.
          have written : (⟨low⟩ : Var) ∈ first'.defs := by
            rw [renamed.defs]
            exact List.mem_map.mpr ⟨request.v, occurs.resolve_right used, if_pos rfl⟩
          have unread : (⟨low⟩ : Var) ∉ first'.uses := by
            rw [renamed.uses]
            rintro ⟨w, read, same⟩
            have apart : w ≠ request.v := fun here => used (here ▸ read)
            rw [replace, if_neg apart] at same
            exact absent.1 (Or.inr (same ▸ read))
          simp [used, written, unread]
      · have silent : ¬first'.Mentions t := by
          intro mentioned
          rcases mentions_replace renamed mentioned with ⟨-, mentioned⟩ | same
          · exact absent.1 mentioned
          · exact here same
        rw [List.append_assoc, List.append_assoc, mem_liveBefore_silent (silent_loads here),
          mem_liveBefore_silent (List.forall_mem_singleton.mpr silent),
          mem_liveBefore_silent (silent_stores here)]
        exact ih absent.2

theorem RewrittenAll.getElem? {blocks blocks' : List (List DefUse)}
    (shape : RewrittenAll request low high blocks blocks') {b : Nat} {points points' : List DefUse}
    (here : blocks[b]? = some points) (there : blocks'[b]? = some points') :
    ∃ low' high', low ≤ low' ∧ high' ≤ high ∧
      RewrittenPoints request low' high' points points' := by
  induction shape generalizing b with
  | nil => cases here
  | cons first rest ih =>
      cases b with
      | zero =>
          cases here
          cases there
          exact ⟨_, _, Nat.le_refl _, rest.le, first⟩
      | succ b =>
          obtain ⟨low', high', above, below, points⟩ := ih here there
          exact ⟨low', high', first.le.trans above, below, points⟩

theorem getElem?_onFront {front points : List DefUse} {blocks : List (List DefUse)} {b : Nat}
    (here : blocks[b]? = some points) :
    (onFront front blocks)[b]? = some ((if b = 0 then front else []) ++ points) := by
  cases blocks with
  | nil => cases here
  | cons first rest =>
      cases b with
      | zero =>
          cases here
          rfl
      | succ b => exact here

theorem RewrittenParams.count {list list' : List Param}
    (shape : RewrittenParams request low high list list') :
    high = low + (list.map Param.v).count request.v := by
  induction shape with
  | nil => rfl
  | keep apart _ ih => rw [List.map_cons, List.count_cons_of_ne apart, ih]
  | move same _ ih =>
      rw [List.map_cons, same, List.count_cons_self, ih]
      omega

theorem RewrittenParams.getElem?_iff {list list' : List Param}
    (shape : RewrittenParams request low high list list')
    (stays : Stays request (mints low high) u) {position : Nat} :
    (list'.map Param.v)[position]? = some u ↔ (list.map Param.v)[position]? = some u := by
  induction shape generalizing position with
  | nil => rfl
  | keep _ _ ih =>
      cases position with
      | zero => rfl
      | succ position => exact ih stays
  | @move low high first rest rest' same later ih =>
      have minted := first_mem_mints later.le
      cases position with
      | zero =>
          refine iff_of_false ?_ ?_
          · intro here
            exact stays.old (Option.some.inj here ▸ minted)
          · intro here
            exact stays.apart ((Option.some.inj here).symm.trans same)
      | succ position => exact ih (stays.mono (mints_succ_subset _ _))

theorem RewrittenParams.mem_of_mem_mints {list list' : List Param}
    (shape : RewrittenParams request low high list list') {t : Var} (minted : t ∈ mints low high) :
    t ∈ list'.map Param.v := by
  induction shape with
  | nil => simp at minted
  | keep _ _ ih => exact List.mem_cons_of_mem _ (ih minted)
  | move _ later ih =>
      rw [mints_cons later.le, List.mem_cons] at minted
      rw [List.map_cons, List.mem_cons]
      exact minted.imp_right ih

end Points

section Functions

variable {f g : Function} {request : Request} {mid : Nat} (shape : RewrittenAs request mid f g)
  (interned : f.Interned)

include shape

theorem RewrittenAs.length_blocks : g.blocks.length = f.blocks.length := by
  simpa using congrArg List.length shape.labels

theorem RewrittenAs.exists_block {b : Nat} {block : Block} (found : f.blocks[b]? = some block) :
    ∃ block', g.blocks[b]? = some block' := by
  have small := (List.getElem?_eq_some_iff.mp found).1
  exact ⟨_, List.getElem?_eq_getElem (shape.length_blocks ▸ small)⟩

theorem RewrittenAs.exists_origin {b : Nat} {block' : Block} (found : g.blocks[b]? = some block') :
    ∃ block, f.blocks[b]? = some block := by
  have small := (List.getElem?_eq_some_iff.mp found).1
  exact ⟨_, List.getElem?_eq_getElem (shape.length_blocks ▸ small)⟩

theorem movedTo_eq {b i : Nat} {block : Block} (found : f.blocks[b]? = some block) :
    movedTo request.v f b i =
      (lead f.vars.size mid b).length + shift request.v block.points i := by
  have count := shape.params.count
  have points : (f.blocks.map Block.points).getD b [] = block.points := by simp [found]
  have front : (if b = 0 then f.paramVars.count request.v else 0) =
      (lead f.vars.size mid b).length := by
    unfold lead
    split <;> simp [mints, count, Function.paramVars]
  rw [movedTo, points, front]

theorem RewrittenAs.mem_paramVars {u : Var}
    (stays : Stays request (mints f.vars.size g.vars.size) u) :
    u ∈ g.paramVars ↔ u ∈ f.paramVars := by
  simp only [List.mem_iff_getElem?, Function.paramVars,
    shape.params.getElem?_iff (stays.mono shape.arriving_subset)]

include interned

theorem RewrittenAs.unminted : request.v ∉ mints f.vars.size mid := by
  intro minted
  rw [mem_mints, shape.params.count] at minted
  have param : request.v ∈ f.paramVars := List.count_pos_iff.mp (by rw [Function.paramVars]; omega)
  have old := interned request.v (Function.mem_mentions.mpr (Or.inl param))
  omega

theorem RewrittenAs.block_points {b : Nat} {block block' : Block}
    (found : f.blocks[b]? = some block) (found' : g.blocks[b]? = some block') :
    ∃ low high out, mints low high ⊆ mints f.vars.size g.vars.size ∧
      block'.points = (lead f.vars.size mid b).map .store ++ out ∧
      RewrittenPoints request low high block.points out := by
  have here : (f.blocks.map Block.points)[b]? = some block.points := by
    rw [List.getElem?_map, found, Option.map_some]
  have there : (g.blocks.map Block.points)[b]? = some block'.points := by
    rw [List.getElem?_map, found', Option.map_some]
  obtain ⟨low, high, above, below, rewritten⟩ :=
    shape.points.getElem? (getElem?_onFront here) there
  have front : (if b = 0 then (mints f.vars.size mid).map DefUse.store else []) =
      (lead f.vars.size mid b).map .store := by
    unfold lead
    split <;> rfl
  rw [front] at rewritten
  have absent : request.v ∉ lead f.vars.size mid b :=
    fun stored => shape.unminted interned (lead_subset stored)
  obtain ⟨out, points, rest⟩ := rewritten.skip (not_mentions_stores absent)
  exact ⟨low, high, out, mints_subset (shape.params.le.trans above) below, points, rest⟩

theorem RewrittenAs.drop_movedTo {b i : Nat} {block block' : Block} {point : DefUse}
    (found : f.blocks[b]? = some block) (found' : g.blocks[b]? = some block')
    (here : block.points[i]? = some point) :
    ∃ point' rest', block'.points.drop (movedTo request.v f b i) = point' :: rest' ∧
      Carried request (mints f.vars.size g.vars.size) point point' ∧
      ∀ u, Stays request (mints f.vars.size g.vars.size) u → ∀ out,
        (u ∈ liveBefore out rest' ↔ u ∈ liveBefore out (block.points.drop (i + 1))) := by
  obtain ⟨low, high, out, part, points, rewritten⟩ := shape.block_points interned found found'
  obtain ⟨point', rest', placed, carried, live⟩ := rewritten.drop_shift here
  refine ⟨point', rest', ?_, carried.mono part, fun u stays => live u (stays.mono part)⟩
  rw [movedTo_eq shape found, points, ← List.drop_drop, List.drop_left' (List.length_map _),
    placed]

theorem RewrittenAs.pointAt_movedTo {b i : Nat} {point : DefUse}
    (here : f.pointAt (b, i) = some point) :
    ∃ point', g.pointAt (b, movedTo request.v f b i) = some point' ∧
      Carried request (mints f.vars.size g.vars.size) point point' := by
  obtain ⟨block, found, here⟩ := Function.pointAt_eq_some.mp here
  obtain ⟨block', found'⟩ := shape.exists_block found
  obtain ⟨point', rest', placed, carried, -⟩ := shape.drop_movedTo interned found found' here
  refine ⟨point', Function.pointAt_eq_some.mpr ⟨block', found', ?_⟩, carried⟩
  have first := congrArg List.head? placed
  rwa [List.head?_drop] at first

theorem RewrittenAs.move_or_movedTo {b j : Nat} {point' : DefUse}
    (there : g.pointAt (b, j) = some point') :
    (∃ t ∈ mints f.vars.size g.vars.size, point' = .load t ∨ point' = .store t) ∨
      ∃ i point, f.pointAt (b, i) = some point ∧ j = movedTo request.v f b i := by
  obtain ⟨block', found', there⟩ := Function.pointAt_eq_some.mp there
  obtain ⟨block, found⟩ := shape.exists_origin found'
  obtain ⟨low, high, out, part, points, rewritten⟩ := shape.block_points interned found found'
  rw [points] at there
  by_cases front : j < ((lead f.vars.size mid b).map DefUse.store).length
  · rw [List.getElem?_append_left front] at there
    obtain ⟨t, stored, rfl⟩ := List.mem_map.mp (List.mem_of_getElem? there)
    exact Or.inl ⟨t, shape.arriving_subset (lead_subset stored), Or.inr rfl⟩
  · rw [List.getElem?_append_right (Nat.not_lt.mp front)] at there
    rcases rewritten.move_or_shift there with ⟨t, minted, moves⟩ | ⟨i, inside, same⟩
    · exact Or.inl ⟨t, part minted, moves⟩
    · refine Or.inr ⟨i, _, Function.pointAt_eq_some.mpr
        ⟨block, found, List.getElem?_eq_getElem inside⟩, ?_⟩
      rw [List.length_map] at front same
      rw [movedTo_eq shape found, ← same]
      omega

/-- A point that calls, or writes a variable that stays, is no such move. -/
theorem RewrittenAs.exists_carried {b j : Nat} {point' : DefUse}
    (there : g.pointAt (b, j) = some point')
    (acts : point'.isCall = true ∨
      ∃ u ∈ point'.defs, Stays request (mints f.vars.size g.vars.size) u) :
    ∃ i point, f.pointAt (b, i) = some point ∧ j = movedTo request.v f b i ∧
      Carried request (mints f.vars.size g.vars.size) point point' := by
  rcases shape.move_or_movedTo interned there with ⟨t, minted, moves⟩ | ⟨i, point, here, rfl⟩
  · exfalso
    rcases acts with call | ⟨u, written, stays⟩
    · rcases moves with rfl | rfl <;> cases call
    · rcases moves with rfl | rfl
      · exact stays.old (List.mem_singleton.mp written ▸ minted)
      · cases written
  · obtain ⟨found, placed, carried⟩ := shape.pointAt_movedTo interned here
    rw [there] at placed
    exact ⟨i, point, here, rfl, Option.some.inj placed ▸ carried⟩

theorem RewrittenAs.mem_liveBefore {b : Nat} {block block' : Block}
    (found : f.blocks[b]? = some block) (found' : g.blocks[b]? = some block') {u : Var}
    (stays : Stays request (mints f.vars.size g.vars.size) u) {out : VarSet} :
    u ∈ liveBefore out block'.points ↔ u ∈ liveBefore out block.points := by
  obtain ⟨low, high, rest, part, points, rewritten⟩ := shape.block_points interned found found'
  have unstored : u ∉ lead f.vars.size mid b :=
    fun stored => stays.old (shape.arriving_subset (lead_subset stored))
  rw [points, mem_liveBefore_silent (not_mentions_stores unstored)]
  exact rewritten.mem_liveBefore (stays.mono part)

end Functions

/-- A variable that is live on entry to a block of one function is so in another, if every block of
the first brings it there only as the same block of the second does. -/
theorem mem_blockIn_of_blocks {f g : Function} {flow : Flow} (built : Flow.build f = .ok flow)
    {u : Var}
    (blocks : ∀ (b : Nat) (block' : Block), g.blocks[b]? = some block' →
      ∃ block : Block, f.blocks[b]? = some block ∧
        ∀ out, u ∈ liveBefore out block'.points → u ∈ liveBefore out block.points)
    {b : Nat} (live : u ∈ (solve g flow).blockIn b) : u ∈ (solve f flow).blockIn b := by
  refine blockIn_induction (fun b v => v = u → u ∈ (solve f flow).blockIn b) ?_ live rfl
  intro b block' out found' known v before same
  rw [same] at before
  obtain ⟨block, found, brings⟩ := blocks b block' found'
  rw [blockIn_eq_liveBefore built found]
  refine liveBefore_mono ?_ (brings out before)
  intro leaves
  obtain ⟨next, successor, entered⟩ := known u leaves
  exact mem_exitSet_solve.mpr ⟨next, successor, entered rfl⟩

section Live

variable {f g : Function} {request : Request} {mid : Nat} (shape : RewrittenAs request mid f g)
  (interned : f.Interned) {flow : Flow} (built : Flow.build f = .ok flow)
  (built' : Flow.build g = .ok flow)

include shape interned built built'

theorem RewrittenAs.mem_blockIn {u : Var}
    (stays : Stays request (mints f.vars.size g.vars.size) u) {b : Nat} :
    u ∈ (solve g flow).blockIn b ↔ u ∈ (solve f flow).blockIn b := by
  constructor
  · refine mem_blockIn_of_blocks built fun b block' found' => ?_
    obtain ⟨block, found⟩ := shape.exists_origin found'
    exact ⟨block, found, fun out => (shape.mem_liveBefore interned found found' stays).mp⟩
  · refine mem_blockIn_of_blocks built' fun b block found => ?_
    obtain ⟨block', found'⟩ := shape.exists_block found
    exact ⟨block', found', fun out => (shape.mem_liveBefore interned found found' stays).mpr⟩

theorem RewrittenAs.mem_live {u : Var} (stays : Stays request (mints f.vars.size g.vars.size) u)
    {b i : Nat} {point : DefUse} (here : f.pointAt (b, i) = some point) :
    (u ∈ (solve g flow).liveIn b (movedTo request.v f b i) ↔ u ∈ (solve f flow).liveIn b i) ∧
      (u ∈ (solve g flow).liveOut b (movedTo request.v f b i) ↔
        u ∈ (solve f flow).liveOut b i) := by
  obtain ⟨block, found, here⟩ := Function.pointAt_eq_some.mp here
  obtain ⟨block', found'⟩ := shape.exists_block found
  obtain ⟨point', rest', placed, carried, live⟩ := shape.drop_movedTo interned found found' here
  have there : block'.points[movedTo request.v f b i]? = some point' := by
    rw [← List.head?_drop, placed, List.head?_cons]
  have after : block'.points.drop (movedTo request.v f b i + 1) = rest' := by
    rw [← List.tail_drop, placed, List.tail_cons]
  have leaves : u ∈ exitSet flow (solve g flow).blocks b ↔
      u ∈ exitSet flow (solve f flow).blocks b := by
    simp only [mem_exitSet_solve, shape.mem_blockIn interned built built' stays]
  have out : u ∈ (solve g flow).liveOut b (movedTo request.v f b i) ↔
      u ∈ (solve f flow).liveOut b i := by
    rw [liveOut_eq_liveBefore built' found' (List.getElem?_eq_some_iff.mp there).1, after,
      liveOut_eq_liveBefore built found (List.getElem?_eq_some_iff.mp here).1, live u stays]
    exact liveBefore_congr leaves
  refine ⟨?_, out⟩
  rw [mem_liveIn built' found' there, mem_liveIn built found here, out, carried.mem_defs stays,
    carried.mem_uses stays]

theorem RewrittenAs.meets_iff {u w : Var}
    (first : Stays request (mints f.vars.size g.vars.size) u)
    (second : Stays request (mints f.vars.size g.vars.size) w) :
    Interference.Meets g (solve g flow) u w ↔ Interference.Meets f (solve f flow) u w := by
  constructor
  · intro meets
    cases meets with
    | @written b j block' point' _ _ found' there written after =>
        have placed := Function.pointAt_eq_some.mpr ⟨block', found', there⟩
        obtain ⟨i, point, here, rfl, carried⟩ :=
          shape.exists_carried interned placed (Or.inr ⟨u, written, first⟩)
        obtain ⟨block, found, here'⟩ := Function.pointAt_eq_some.mp here
        exact .written found here' ((carried.mem_defs first).mp written)
          ((shape.mem_live interned built built' second here).2.mp after)
    | entry param entered =>
        exact .entry ((shape.mem_paramVars first).mp param)
          ((shape.mem_blockIn interned built built' second).mp entered)
  · intro meets
    cases meets with
    | @written b i block point _ _ found here written after =>
        have placed := Function.pointAt_eq_some.mpr ⟨block, found, here⟩
        obtain ⟨point', there, carried⟩ := shape.pointAt_movedTo interned placed
        obtain ⟨block', found', there⟩ := Function.pointAt_eq_some.mp there
        exact .written found' there ((carried.mem_defs first).mpr written)
          ((shape.mem_live interned built built' second placed).2.mpr after)
    | entry param entered =>
        exact .entry ((shape.mem_paramVars first).mpr param)
          ((shape.mem_blockIn interned built built' second).mpr entered)

theorem RewrittenAs.shuns_iff {target : Target} {u : Var} {r : Register}
    (stays : Stays request (mints f.vars.size g.vars.size) u) :
    Interference.Shuns g (solve g flow) target u r ↔
      Interference.Shuns f (solve f flow) target u r := by
  have arriving : Stays request (mints f.vars.size mid) u := stays.mono shape.arriving_subset
  constructor
  · intro shuns
    cases shuns with
    | @clobbered b j block' point' _ _ found' there call after kept overwritten =>
        have placed := Function.pointAt_eq_some.mpr ⟨block', found', there⟩
        obtain ⟨i, point, here, rfl, carried⟩ :=
          shape.exists_carried interned placed (Or.inl call)
        obtain ⟨block, found, here'⟩ := Function.pointAt_eq_some.mp here
        exact .clobbered found here' (carried.isCall ▸ call)
          ((shape.mem_live interned built built' stays here).2.mp after)
          (mt (carried.mem_defs stays).mpr kept) overwritten
    | arrival param arrives allocatable apart =>
        exact .arrival ((shape.params.getElem?_iff arriving).mp param) arrives allocatable apart
  · intro shuns
    cases shuns with
    | @clobbered b i block point _ _ found here call after kept overwritten =>
        have placed := Function.pointAt_eq_some.mpr ⟨block, found, here⟩
        obtain ⟨point', there, carried⟩ := shape.pointAt_movedTo interned placed
        obtain ⟨block', found', there⟩ := Function.pointAt_eq_some.mp there
        exact .clobbered found' there (carried.isCall.trans call)
          ((shape.mem_live interned built built' stays placed).2.mpr after)
          (mt (carried.mem_defs stays).mp kept) overwritten
    | arrival param arrives allocatable apart =>
        exact .arrival ((shape.params.getElem?_iff arriving).mpr param) arrives allocatable apart

end Live

section Temporaries

variable {f g : Function} {request : Request} {mid : Nat} (shape : RewrittenAs request mid f g)
  (interned : f.Interned) {flow : Flow} {t : Var} (minted : t ∈ mints f.vars.size g.vars.size)
  (inner : t ∉ g.paramVars)

include shape interned minted inner

theorem RewrittenAs.not_mem_blockIn {b : Nat} : t ∉ (solve g flow).blockIn b := by
  intro live
  refine blockIn_induction (fun _ u => u ≠ t) ?_ live rfl
  intro b block' out found' known u before same
  rw [same] at before
  obtain ⟨block, found⟩ := shape.exists_origin found'
  obtain ⟨low, high, rest, -, points, rewritten⟩ := shape.block_points interned found found'
  have unstored : t ∉ lead f.vars.size mid b :=
    fun stored => inner (shape.params.mem_of_mem_mints (lead_subset stored))
  have absent : ∀ point ∈ block.points, ¬point.Mentions t := by
    intro point member mentioned
    have old := interned t (Function.mem_mentions.mpr
      (Or.inr ⟨block, List.mem_of_getElem? found, point, member, mentioned⟩))
    exact absurd (mem_mints.mp minted).1 (Nat.not_le.mpr old)
  have dead : t ∉ out := by
    intro leaves
    obtain ⟨next, -, other⟩ := known t leaves
    exact other rfl
  rw [points, mem_liveBefore_silent (not_mentions_stores unstored)] at before
  exact rewritten.not_mem_liveBefore absent dead before

theorem RewrittenAs.not_mem_blockOut (built' : Flow.build g = .ok flow) {b : Nat} :
    t ∉ (solve g flow).blockOut b := by
  intro live
  cases found : g.blocks[b]? with
  | none =>
      rw [blockOut, solve_block_eq_nil found] at live
      exact absurd live (IndexSet.not_mem_empty t)
  | some block =>
      rw [blockOut_eq_exitSet built' found] at live
      obtain ⟨next, -, entered⟩ := mem_exitSet_solve.mp live
      exact shape.not_mem_blockIn interned minted inner entered

end Temporaries

theorem not_mem_mentions_one {f : Function} {request : Request}
    (old : request.v.index < f.vars.size) : request.v ∉ (one f request).function.mentions := by
  intro mentioned
  rcases mem_mentions_one mentioned with ⟨-, apart⟩ | minted
  · exact apart rfl
  · rw [(one_rewritten f request).2, mem_mints] at minted
    omega

/-- Spilling a variable changes nothing about the others. They conflict with each other and with
registers as before; the points of the function are still there, in their order and among moves of
temporaries only, and around each of them the same other variables are live. A temporary that is no
parameter is not live between blocks. -/
theorem one_keeps_conflicts {f : Function} {flow : Flow} (built : Flow.build f = .ok flow)
    (interned : f.Interned) (request : Request) (target : Target) :
    Flow.build (one f request).function = .ok flow ∧
      (∀ u, u.index < f.vars.size → u ≠ request.v →
        (∀ w, w.index < f.vars.size → w ≠ request.v →
          (Interference.build (one f request).function (solve (one f request).function flow)
              target).interferes (.var u) (.var w) =
            (Interference.build f (solve f flow) target).interferes (.var u) (.var w)) ∧
        ∀ r,
          (Interference.build (one f request).function (solve (one f request).function flow)
              target).interferes (.var u) (.register r) =
            (Interference.build f (solve f flow) target).interferes (.var u) (.register r)) ∧
      (∀ b, StrictMono (movedTo request.v f b)) ∧
      (∀ b i point, f.pointAt (b, i) = some point →
        (∃ point', (one f request).function.pointAt (b, movedTo request.v f b i) = some point' ∧
          Carried request (one f request).temporaries point point') ∧
        ∀ u, u.index < f.vars.size →
          (u ∈ (solve (one f request).function flow).liveIn b (movedTo request.v f b i) ↔
            u ∈ (solve f flow).liveIn b i ∧ u ≠ request.v) ∧
          (u ∈ (solve (one f request).function flow).liveOut b (movedTo request.v f b i) ↔
            u ∈ (solve f flow).liveOut b i ∧ u ≠ request.v)) ∧
      (∀ b j point', (one f request).function.pointAt (b, j) = some point' →
        (∃ t ∈ (one f request).temporaries, point' = .load t ∨ point' = .store t) ∨
          ∃ i point, f.pointAt (b, i) = some point ∧ j = movedTo request.v f b i) ∧
      ∀ t ∈ (one f request).temporaries, t ∉ (one f request).function.paramVars → ∀ b,
        t ∉ (solve (one f request).function flow).blockIn b ∧
          t ∉ (solve (one f request).function flow).blockOut b := by
  obtain ⟨⟨mid, shape⟩, temporaries⟩ := one_rewritten f request
  have built' := build_one request built
  have stays : ∀ {u : Var}, u.index < f.vars.size → u ≠ request.v →
      Stays request (mints f.vars.size (one f request).function.vars.size) u := by
    intro u old apart
    refine ⟨apart, fun minted => ?_⟩
    rw [mem_mints] at minted
    omega
  rw [temporaries]
  refine ⟨built', ?_, movedTo_strictMono _ f, ?_,
    fun b j point' => shape.move_or_movedTo interned, ?_⟩
  · intro u old apart
    refine ⟨fun w old' apart' => ?_, fun r => ?_⟩
    · have first := stays old apart
      have second := stays old' apart'
      rw [Bool.eq_iff_iff, Interference.var_conflict_iff, Interference.var_conflict_iff,
        shape.meets_iff interned built built' first second,
        shape.meets_iff interned built built' second first]
    · rw [Bool.eq_iff_iff, Interference.register_conflict_iff, Interference.register_conflict_iff,
        shape.shuns_iff interned built built' (stays old apart)]
  · intro b i point here
    have moved := shape.pointAt_movedTo interned here
    refine ⟨moved, fun u old => ?_⟩
    by_cases same : u = request.v
    · subst same
      obtain ⟨point', there, -⟩ := moved
      obtain ⟨block', found', there⟩ := Function.pointAt_eq_some.mp there
      have gone := not_mem_mentions_one old
      exact ⟨iff_of_false
          (fun live => gone (mem_mentions_of_liveIn built' found' there live)) (by simp),
        iff_of_false (fun live => gone (mem_mentions_of_liveOut live)) (by simp)⟩
    · obtain ⟨before, after⟩ := shape.mem_live interned built built' (stays old same) here
      rw [before, after]
      simp [same]
  · intro t minted inner b
    exact ⟨shape.not_mem_blockIn interned minted inner,
      shape.not_mem_blockOut interned minted inner built'⟩

/-- The parameter of a function with a loop moves to a slot. It is stored on entry and read again
in front of the first branch, so that branch is the fourth point of its block. The counter of the
loop is live around it as before, and still conflicts with what the loop writes. -/
theorem one_keeps_conflicts_crossing :
    crossing.Interned ∧ Flow.build crossing = .ok crossingFlow ∧
      movedTo ⟨0⟩ crossing 0 1 = 3 ∧
      ⟨1⟩ ∈ (solve (one crossing ⟨⟨0⟩, ⟨0⟩, "s"⟩).function crossingFlow).liveOut 0 3 ∧
      ⟨0⟩ ∉ (solve (one crossing ⟨⟨0⟩, ⟨0⟩, "s"⟩).function crossingFlow).liveOut 0 3 ∧
      (Interference.build (one crossing ⟨⟨0⟩, ⟨0⟩, "s"⟩).function
        (solve (one crossing ⟨⟨0⟩, ⟨0⟩, "s"⟩).function crossingFlow) .full).interferes
          (.var ⟨1⟩) (.var ⟨2⟩) = true := by
  have interned : crossing.Interned := by decide
  have place : movedTo ⟨0⟩ crossing 0 1 = 3 := by decide
  obtain ⟨-, conflicts, -, live, -⟩ :=
    one_keeps_conflicts build_crossing interned ⟨⟨0⟩, ⟨0⟩, "s"⟩ .full
  have branch : crossing.pointAt (0, 1) = some ⟨[], [⟨0⟩], false⟩ := by decide
  have around := (live 0 1 _ branch).2
  rw [place] at around
  refine ⟨interned, build_crossing, place, ?_, ?_, ?_⟩
  · exact (around ⟨1⟩ (by decide)).2.mpr ⟨by decide +kernel, by decide⟩
  · exact fun kept => ((around ⟨0⟩ (by decide)).2.mp kept).2 rfl
  · rw [(conflicts ⟨1⟩ (by decide) (by decide)).1 ⟨2⟩ (by decide) (by decide)]
    decide +kernel

/-- A variable that is not in the table is taken for a temporary: the first write of the spilled
variable then overwrites it, and it is live between blocks. -/
theorem one_captures_foreign :
    Flow.build halfTabled = .ok ⟨[[1], []]⟩ ∧ ¬halfTabled.Interned ∧
      (one halfTabled ⟨⟨0⟩, ⟨0⟩, "%S"⟩).temporaries = [⟨1⟩, ⟨2⟩] ∧
      (one halfTabled ⟨⟨0⟩, ⟨0⟩, "%S"⟩).function.paramVars = [] ∧
      ⟨1⟩ ∈ (solve (one halfTabled ⟨⟨0⟩, ⟨0⟩, "%S"⟩).function ⟨[[1], []]⟩).blockIn 1 ∧
      movedTo ⟨0⟩ halfTabled 0 0 = 0 ∧
      ⟨1⟩ ∈ (solve halfTabled ⟨[[1], []]⟩).liveOut 0 0 ∧
      ⟨1⟩ ∉ (solve (one halfTabled ⟨⟨0⟩, ⟨0⟩, "%S"⟩).function ⟨[[1], []]⟩).liveOut 0 0 := by
  refine ⟨by decide +kernel, by decide, by decide +kernel, by decide +kernel, ?_, by decide, ?_, ?_⟩
  · decide +kernel
  · decide +kernel
  · decide +kernel

end Spill

end Regalloc
