import Mathlib
import Regalloc.Liveness
import Regalloc.Proofs.FlowGraph

/-!
# The equations of liveness

Passes only ever add variables, and only variables that are used somewhere. So they come to rest
within their bound, and where they rest the sets of every block are what its successors ask for.
-/

namespace Regalloc

namespace Liveness

structure PointLe (left right : PointLive) : Prop where
  before : ∀ v ∈ left.before, v ∈ right.before
  after : ∀ v ∈ left.after, v ∈ right.after

abbrev BlockLe := List.Forall₂ PointLe

abbrev LiveLe := List.Forall₂ BlockLe

theorem PointLe.refl (point : PointLive) : PointLe point point :=
  ⟨fun _ live => live, fun _ live => live⟩

theorem PointLe.trans {first second third : PointLive} (left : PointLe first second)
    (right : PointLe second third) : PointLe first third :=
  ⟨fun v live => right.before v (left.before v live),
    fun v live => right.after v (left.after v live)⟩

theorem PointLe.antisymm {left right : PointLive} (le : PointLe left right)
    (ge : PointLe right left) : left = right := by
  have before : left.before = right.before :=
    IndexSet.ext fun v => ⟨le.before v, ge.before v⟩
  have after : left.after = right.after :=
    IndexSet.ext fun v => ⟨le.after v, ge.after v⟩
  cases left
  cases right
  simp_all

theorem forall₂_trans {α : Type} {R : α → α → Prop}
    (trans : ∀ a b c, R a b → R b c → R a c) {first second third : List α}
    (left : List.Forall₂ R first second) (right : List.Forall₂ R second third) :
    List.Forall₂ R first third := by
  induction left generalizing third with
  | nil => exact right
  | cons head tail ih =>
      cases right with
      | cons head' tail' => exact .cons (trans _ _ _ head head') (ih tail')

theorem forall₂_antisymm {α : Type} {R : α → α → Prop}
    (antisymm : ∀ a b, R a b → R b a → a = b) {left right : List α}
    (le : List.Forall₂ R left right) (ge : List.Forall₂ R right left) : left = right := by
  induction le with
  | nil => rfl
  | cons head tail ih =>
      cases ge with
      | cons head' tail' => rw [antisymm _ _ head head', ih tail']

theorem BlockLe.refl (block : List PointLive) : BlockLe block block :=
  List.forall₂_same.mpr fun point _ => PointLe.refl point

theorem LiveLe.refl (live : List (List PointLive)) : LiveLe live live :=
  List.forall₂_same.mpr fun block _ => BlockLe.refl block

theorem BlockLe.trans {first second third : List PointLive} (left : BlockLe first second)
    (right : BlockLe second third) : BlockLe first third :=
  forall₂_trans (R := PointLe) (fun _ _ _ => PointLe.trans) left right

theorem LiveLe.trans {first second third : List (List PointLive)} (left : LiveLe first second)
    (right : LiveLe second third) : LiveLe first third :=
  forall₂_trans (R := BlockLe) (fun _ _ _ => BlockLe.trans) left right

theorem LiveLe.antisymm {left right : List (List PointLive)} (le : LiveLe left right)
    (ge : LiveLe right left) : left = right :=
  forall₂_antisymm (fun _ _ => forall₂_antisymm fun _ _ => PointLe.antisymm) le ge

theorem LiveLe.getD {left right : List (List PointLive)} (le : LiveLe left right) (b : Nat) :
    BlockLe (left.getD b []) (right.getD b []) := by
  induction le generalizing b with
  | nil => exact .nil
  | cons head tail ih =>
      cases b with
      | zero => exact head
      | succ b => simpa using ih b

theorem LiveLe.set {live : List (List PointLive)} {b : Nat} {block : List PointLive}
    (le : BlockLe (live.getD b []) block) : LiveLe live (live.set b block) := by
  induction live generalizing b with
  | nil => exact .nil
  | cons head tail ih =>
      cases b with
      | zero => exact .cons le (LiveLe.refl tail)
      | succ b => exact .cons (BlockLe.refl head) (ih (by simpa using le))

@[simp] theorem mem_transfer {v : Var} {point : DefUse} {after : VarSet} :
    v ∈ transfer point after ↔ v ∈ after ∧ v ∉ point.defs ∨ v ∈ point.uses := by
  simp [transfer]

@[simp] theorem length_sweep (out : VarSet) (points : List DefUse) :
    (sweep out points).length = points.length := by
  induction points with
  | nil => rfl
  | cons point points ih => simp [sweep, ih]

theorem BlockLe.entry {left right : List PointLive} {out out' : VarSet}
    (le : BlockLe left right) (grows : ∀ v ∈ out, v ∈ out') :
    ∀ v ∈ entry left out, v ∈ entry right out' := by
  cases le with
  | nil => exact grows
  | cons head tail => exact head.before

theorem sweep_mono {out out' : VarSet} (grows : ∀ v ∈ out, v ∈ out') (points : List DefUse) :
    BlockLe (sweep out points) (sweep out' points) := by
  induction points with
  | nil => exact .nil
  | cons point points ih =>
      have after := BlockLe.entry ih grows
      refine .cons ⟨?_, after⟩ ih
      intro v live
      simp only [mem_transfer] at live ⊢
      exact live.imp_left fun ⟨later, kept⟩ => ⟨after v later, kept⟩

theorem mem_foldl_union {α : Type} {v : Var} (sets : α → VarSet) (items : List α) (start : VarSet) :
    v ∈ items.foldl (fun out item => out.union (sets item)) start ↔
      v ∈ start ∨ ∃ item ∈ items, v ∈ sets item := by
  induction items generalizing start with
  | nil => simp
  | cons item items ih => simp [ih, or_assoc]

theorem mem_exitSet {v : Var} {flow : Flow} {live : List (List PointLive)} {block : Nat} :
    v ∈ exitSet flow live block ↔
      ∃ next ∈ flow.successorsOf block, v ∈ entry (live.getD next []) ∅ := by
  rw [exitSet, mem_foldl_union]
  simp

theorem LiveLe.exitSet {left right : List (List PointLive)} (le : LiveLe left right)
    (flow : Flow) (block : Nat) :
    ∀ v ∈ exitSet flow left block, v ∈ exitSet flow right block := by
  intro v live
  obtain ⟨next, successor, needed⟩ := mem_exitSet.mp live
  have entered := BlockLe.entry (le.getD next) (fun _ live => live) v needed
  exact mem_exitSet.mpr ⟨next, successor, entered⟩

section Passes

variable (points : List (List DefUse)) (flow : Flow)

def demanded (live : List (List PointLive)) (block : Nat) : List PointLive :=
  sweep (exitSet flow live block) (points.getD block [])

/-- No block has more in its sets than its equations give. This holds at the start and of all that
the passes make of it, and is why a pass never takes a variable away. -/
structure Rising (live : List (List PointLive)) : Prop where
  length : live.length = points.length
  blocks : ∀ b < points.length, BlockLe (live.getD b []) (demanded points flow live b)

variable {points flow}

theorem demanded_mono {left right : List (List PointLive)} (le : LiveLe left right) (b : Nat) :
    BlockLe (demanded points flow left b) (demanded points flow right b) :=
  sweep_mono (le.exitSet flow b) _

theorem Rising.le_update {live : List (List PointLive)} (rising : Rising points flow live)
    (b : Nat) : LiveLe live (update points flow live b) := by
  by_cases small : b < points.length
  · exact LiveLe.set (rising.blocks b small)
  · have large : live.length ≤ b := by
      rw [rising.length]
      omega
    rw [update, List.set_eq_of_length_le large]
    exact LiveLe.refl live

theorem Rising.update {live : List (List PointLive)} (rising : Rising points flow live)
    (b : Nat) : Rising points flow (update points flow live b) := by
  have grows := rising.le_update b
  refine ⟨grows.length_eq.symm.trans rising.length, ?_⟩
  intro c small
  have later : BlockLe (demanded points flow live c)
      (demanded points flow (Liveness.update points flow live b) c) := demanded_mono grows c
  by_cases same : b = c
  · subst same
    have here : (Liveness.update points flow live b).getD b [] = demanded points flow live b := by
      have inside : b < live.length := rising.length ▸ small
      simp [Liveness.update, demanded, inside]
    rw [here]
    exact later
  · have elsewhere : (Liveness.update points flow live b).getD c [] = live.getD c [] := by
      simp [Liveness.update, same]
    rw [elsewhere]
    exact (rising.blocks c small).trans later

theorem Rising.foldl_update {live : List (List PointLive)} (rising : Rising points flow live)
    (blocks : List Nat) :
    Rising points flow (blocks.foldl (Liveness.update points flow) live) ∧
      LiveLe live (blocks.foldl (Liveness.update points flow) live) := by
  induction blocks generalizing live with
  | nil => exact ⟨rising, LiveLe.refl live⟩
  | cons b blocks ih =>
      have ⟨rises, grows⟩ := ih (rising.update b)
      exact ⟨rises, (rising.le_update b).trans grows⟩

/-- Updates that leave everything as it was in the end have changed nothing on the way. -/
theorem Rising.update_eq {live : List (List PointLive)} (rising : Rising points flow live)
    {blocks : List Nat} (rest : blocks.foldl (Liveness.update points flow) live = live) :
    ∀ b ∈ blocks, Liveness.update points flow live b = live := by
  induction blocks with
  | nil => simp
  | cons first blocks ih =>
      have back : LiveLe (Liveness.update points flow live first) live := by
        have grows := ((rising.update first).foldl_update blocks).2
        rw [List.foldl_cons] at rest
        rwa [rest] at grows
      have still := (rising.le_update first).antisymm back
      rw [List.foldl_cons, ← still] at rest
      intro b member
      rcases List.mem_cons.mp member with rfl | member
      · exact still.symm
      · exact ih rest b member

def Within (uses : List Var) (live : List (List PointLive)) : Prop :=
  ∀ block ∈ live, ∀ point ∈ block,
    (∀ v ∈ point.before, v ∈ uses) ∧ ∀ v ∈ point.after, v ∈ uses

theorem sweep_within {uses : List Var} {out : VarSet} (outside : ∀ v ∈ out, v ∈ uses)
    {points : List DefUse} (used : ∀ point ∈ points, ∀ v ∈ point.uses, v ∈ uses) :
    ∀ point ∈ sweep out points,
      (∀ v ∈ point.before, v ∈ uses) ∧ ∀ v ∈ point.after, v ∈ uses := by
  induction points with
  | nil => simp [sweep]
  | cons first points ih =>
      have later := ih fun point member => used point (List.mem_cons_of_mem _ member)
      have after : ∀ v ∈ entry (sweep out points) out, v ∈ uses := by
        cases points with
        | nil => exact outside
        | cons second points => exact (later _ (List.mem_cons_self ..)).1
      intro point member
      rcases List.mem_cons.mp member with rfl | member
      · refine ⟨?_, after⟩
        intro v live
        rcases mem_transfer.mp live with ⟨kept, -⟩ | read
        · exact after v kept
        · exact used first (List.mem_cons_self ..) v read
      · exact later point member

theorem Within.exitSet {uses : List Var} {live : List (List PointLive)}
    (within : Within uses live) (b : Nat) : ∀ v ∈ exitSet flow live b, v ∈ uses := by
  intro v needed
  obtain ⟨next, -, needed⟩ := mem_exitSet.mp needed
  cases found : live[next]? with
  | none => simp [entry, found] at needed
  | some block =>
      cases block with
      | nil => simp [entry, found] at needed
      | cons point block =>
          have member := List.mem_of_getElem? found
          refine (within _ member point (List.mem_cons_self ..)).1 v ?_
          simpa [entry, found] using needed

theorem Within.update {uses : List Var} {live : List (List PointLive)}
    (within : Within uses live)
    (used : ∀ block ∈ points, ∀ point ∈ block, ∀ v ∈ point.uses, v ∈ uses) (b : Nat) :
    Within uses (Liveness.update points flow live b) := by
  intro block member
  rcases List.mem_or_eq_of_mem_set member with old | rfl
  · exact within block old
  · apply sweep_within (within.exitSet b)
    intro point inside
    cases found : points[b]? with
    | none => simp [found] at inside
    | some block =>
        exact used block (List.mem_of_getElem? found) point (by simpa [found] using inside)

theorem Within.pass {uses : List Var} {live : List (List PointLive)}
    (within : Within uses live)
    (used : ∀ block ∈ points, ∀ point ∈ block, ∀ v ∈ point.uses, v ∈ uses) :
    Within uses (Liveness.pass points flow live) := by
  have folded : ∀ (blocks : List Nat) (live : List (List PointLive)), Within uses live →
      Within uses (blocks.foldl (Liveness.update points flow) live) := by
    intro blocks
    induction blocks with
    | nil => exact fun _ within => within
    | cons b blocks ih => exact fun live within => ih _ (within.update used b)
  exact folded _ live within

def pointWeight (uses : List Var) (point : PointLive) : Nat :=
  uses.countP point.before.contains + uses.countP point.after.contains

def blockWeight (uses : List Var) (block : List PointLive) : Nat :=
  (block.map (pointWeight uses)).sum

def weight (uses : List Var) (live : List (List PointLive)) : Nat :=
  (live.map (blockWeight uses)).sum

theorem countP_contains_mono (uses : List Var) {s t : VarSet} (grows : ∀ v ∈ s, v ∈ t) :
    uses.countP s.contains ≤ uses.countP t.contains :=
  List.countP_mono_left fun v _ => grows v

theorem subset_of_countP_le {uses : List Var} {s t : VarSet} (grows : ∀ v ∈ s, v ∈ t)
    (same : uses.countP t.contains ≤ uses.countP s.contains) :
    ∀ v ∈ uses, v ∈ t → v ∈ s := by
  induction uses with
  | nil => simp
  | cons first uses ih =>
      have tail := countP_contains_mono uses grows
      simp only [List.countP_cons] at same
      have head : first ∈ t → first ∈ s := by
        intro later
        by_contra missing
        have inside : t.contains first = true := later
        have outside : ¬s.contains first = true := missing
        simp only [inside, outside, if_true] at same
        simp at same
        omega
      have bound : (if s.contains first = true then 1 else 0) ≤
          if t.contains first = true then 1 else 0 := by
        by_cases live : s.contains first = true
        · simp [live, show t.contains first = true from grows first live]
        · simp [live]
      intro v member
      rcases List.mem_cons.mp member with rfl | member
      · exact head
      · exact ih (by omega) v member

theorem PointLe.weight_le {uses : List Var} {left right : PointLive} (le : PointLe left right) :
    pointWeight uses left ≤ pointWeight uses right :=
  Nat.add_le_add (countP_contains_mono uses le.before) (countP_contains_mono uses le.after)

theorem PointLe.eq_of_weight {uses : List Var} {left right : PointLive} (le : PointLe left right)
    (within : (∀ v ∈ right.before, v ∈ uses) ∧ ∀ v ∈ right.after, v ∈ uses)
    (same : pointWeight uses right ≤ pointWeight uses left) : left = right := by
  have before := countP_contains_mono uses le.before
  have after := countP_contains_mono uses le.after
  simp only [pointWeight] at same
  apply le.antisymm
  constructor
  · intro v live
    exact subset_of_countP_le le.before (by omega) v (within.1 v live) live
  · intro v live
    exact subset_of_countP_le le.after (by omega) v (within.2 v live) live

theorem sum_map_le {α : Type} {R : α → α → Prop} (measure : α → Nat)
    (mono : ∀ a b, R a b → measure a ≤ measure b) {left right : List α}
    (le : List.Forall₂ R left right) : (left.map measure).sum ≤ (right.map measure).sum := by
  induction le with
  | nil => exact Nat.le_refl _
  | cons head tail ih => simpa using Nat.add_le_add (mono _ _ head) ih

theorem eq_of_sum_map {α : Type} {R : α → α → Prop} (measure : α → Nat) {fits : α → Prop}
    (mono : ∀ a b, R a b → measure a ≤ measure b)
    (rigid : ∀ a b, R a b → fits b → measure b ≤ measure a → a = b) {left right : List α}
    (le : List.Forall₂ R left right) (within : ∀ b ∈ right, fits b)
    (same : (right.map measure).sum ≤ (left.map measure).sum) : left = right := by
  induction le with
  | nil => rfl
  | cons head tail ih =>
      have below := mono _ _ head
      have belowTail := sum_map_le measure mono tail
      simp only [List.map_cons, List.sum_cons] at same
      rw [rigid _ _ head (within _ (List.mem_cons_self ..)) (by omega),
        ih (fun b member => within b (List.mem_cons_of_mem _ member)) (by omega)]

theorem BlockLe.weight_le {uses : List Var} {left right : List PointLive}
    (le : BlockLe left right) : blockWeight uses left ≤ blockWeight uses right :=
  sum_map_le (pointWeight uses) (fun _ _ => PointLe.weight_le) le

theorem BlockLe.eq_of_weight {uses : List Var} {left right : List PointLive}
    (le : BlockLe left right)
    (within : ∀ point ∈ right, (∀ v ∈ point.before, v ∈ uses) ∧ ∀ v ∈ point.after, v ∈ uses)
    (same : blockWeight uses right ≤ blockWeight uses left) : left = right :=
  eq_of_sum_map (pointWeight uses) (fun _ _ => PointLe.weight_le)
    (fun _ _ => PointLe.eq_of_weight) le within same

theorem LiveLe.eq_of_weight {uses : List Var} {left right : List (List PointLive)}
    (le : LiveLe left right) (within : Within uses right)
    (same : weight uses right ≤ weight uses left) : left = right :=
  eq_of_sum_map (blockWeight uses) (fun _ _ => BlockLe.weight_le)
    (fun _ _ => BlockLe.eq_of_weight) le within same

theorem blockWeight_bound (uses : List Var) (block : List PointLive) :
    blockWeight uses block ≤ 2 * block.length * uses.length := by
  induction block with
  | nil => simp [blockWeight]
  | cons point block ih =>
      have before : uses.countP point.before.contains ≤ uses.length := List.countP_le_length
      have after : uses.countP point.after.contains ≤ uses.length := List.countP_le_length
      simp only [blockWeight, List.map_cons, List.sum_cons, List.length_cons, pointWeight] at ih ⊢
      calc
        _ ≤ 2 * uses.length + 2 * block.length * uses.length := by omega
        _ = 2 * (block.length + 1) * uses.length := by ring

theorem weight_bound (uses : List Var) (live : List (List PointLive)) :
    weight uses live ≤ 2 * live.flatten.length * uses.length := by
  induction live with
  | nil => simp [weight]
  | cons block live ih =>
      have head := blockWeight_bound uses block
      simp only [weight, List.map_cons, List.sum_cons, List.flatten_cons,
        List.length_append] at ih ⊢
      calc
        _ ≤ 2 * block.length * uses.length + 2 * live.flatten.length * uses.length := by omega
        _ = 2 * (block.length + live.flatten.length) * uses.length := by ring

theorem Rising.length_flatten {live : List (List PointLive)}
    (rising : Rising points flow live) : live.flatten.length = points.flatten.length := by
  have lengths : live.map List.length = points.map List.length := by
    apply List.ext_getElem
    · simpa using rising.length
    · intro b inside small
      rw [List.length_map] at inside small
      have block := (rising.blocks b small).length_eq
      simpa [demanded, inside, small] using block
  rw [List.length_flatten, List.length_flatten, lengths]

theorem Rising.pass {live : List (List PointLive)} (rising : Rising points flow live) :
    Rising points flow (Liveness.pass points flow live) ∧
      LiveLe live (Liveness.pass points flow live) :=
  rising.foldl_update _

theorem foldl_update_eq {live : List (List PointLive)} {blocks : List Nat}
    (still : ∀ b ∈ blocks, Liveness.update points flow live b = live) :
    blocks.foldl (Liveness.update points flow) live = live := by
  induction blocks with
  | nil => rfl
  | cons first rest ih =>
      rw [List.forall_mem_cons] at still
      rw [List.foldl_cons, still.1, ih still.2]

def Still (points : List (List DefUse)) (flow : Flow) (live : List (List PointLive)) : Prop :=
  ∀ b ∈ flow.order, Liveness.update points flow live b = live

theorem Rising.still_iff {live : List (List PointLive)} (rising : Rising points flow live) :
    Still points flow live ↔ Liveness.pass points flow live = live := by
  constructor
  · intro still
    exact foldl_update_eq fun b listed => still b (List.mem_reverse.mp listed)
  · intro rest b listed
    exact rising.update_eq rest b (List.mem_reverse.mpr listed)

/-- Passes without any bound on their number: one that changes no block is the last. The sets they
start from, the sets they end with, and how many passes there are. -/
inductive Settles (points : List (List DefUse)) (flow : Flow) :
    List (List PointLive) → List (List PointLive) → Nat → Prop
  | rest {live : List (List PointLive)} : Still points flow live → Settles points flow live live 1
  | again {live final : List (List PointLive)} {passes : Nat} : ¬Still points flow live →
      Settles points flow (Liveness.pass points flow live) final passes →
      Settles points flow live final (passes + 1)

theorem settles_iterate {uses : List Var}
    (used : ∀ block ∈ points, ∀ point ∈ block, ∀ v ∈ point.uses, v ∈ uses) (bound : Nat)
    {live : List (List PointLive)} (rising : Rising points flow live) (within : Within uses live)
    (enough : 2 * points.flatten.length * uses.length < bound + weight uses live) :
    Settles points flow live (iterate points flow bound live).1
      (iterate points flow bound live).2 := by
  induction bound generalizing live with
  | zero =>
      have bounded := weight_bound uses live
      rw [rising.length_flatten] at bounded
      omega
  | succ bound ih =>
      unfold iterate
      by_cases rest : Liveness.pass points flow live = live
      · simp only [rest, if_true]
        exact .rest (rising.still_iff.mpr rest)
      · simp only [rest, if_false]
        have ⟨rises, grows⟩ := rising.pass
        have inside : Within uses (Liveness.pass points flow live) := within.pass used
        have heavier : weight uses live < weight uses (Liveness.pass points flow live) := by
          by_contra same
          exact rest (grows.eq_of_weight inside (Nat.le_of_not_lt same)).symm
        exact .again (fun still => rest (rising.still_iff.mp still)) (ih rises inside (by omega))

theorem Settles.still {live final : List (List PointLive)} {passes : Nat}
    (settles : Settles points flow live final passes) : Still points flow final := by
  induction settles with
  | rest still => exact still
  | again _ _ ih => exact ih

theorem Settles.rising {live final : List (List PointLive)} {passes : Nat}
    (settles : Settles points flow live final passes) (rising : Rising points flow live) :
    Rising points flow final := by
  induction settles with
  | rest => exact rising
  | again _ _ ih => exact ih rising.pass.1

theorem Settles.within {uses : List Var} {live final : List (List PointLive)} {passes : Nat}
    (settles : Settles points flow live final passes)
    (used : ∀ block ∈ points, ∀ point ∈ block, ∀ v ∈ point.uses, v ∈ uses)
    (within : Within uses live) : Within uses final := by
  induction settles with
  | rest => exact within
  | again _ _ ih => exact ih (within.pass used)

def blank (points : List (List DefUse)) : List (List PointLive) :=
  points.map fun block => block.map fun _ => {}

theorem rising_blank : Rising points flow (blank points) := by
  refine ⟨by simp [blank], ?_⟩
  intro b small
  have empty : ∀ block : List PointLive,
      BlockLe (block.map fun _ => ({} : PointLive)) block := by
    intro block
    induction block with
    | nil => exact .nil
    | cons point block ih =>
        refine .cons ⟨?_, ?_⟩ ih
        · exact fun v live => absurd live (IndexSet.not_mem_empty v)
        · exact fun v live => absurd live (IndexSet.not_mem_empty v)
  have lengths : (demanded points flow (blank points) b).length = (points.getD b []).length := by
    simp [demanded]
  have start := empty (demanded points flow (blank points) b)
  rw [List.map_const', lengths] at start
  simpa [blank, small, List.map_const'] using start

theorem within_blank (uses : List Var) : Within uses (blank points) := by
  intro block member point inside
  obtain ⟨block, -, rfl⟩ := List.mem_map.mp member
  obtain ⟨_, -, rfl⟩ := List.mem_map.mp inside
  constructor
  · exact fun v live => absurd live (IndexSet.not_mem_empty v)
  · exact fun v live => absurd live (IndexSet.not_mem_empty v)

end Passes

theorem mem_uses_of_points (f : Function) :
    ∀ block ∈ f.blocks.map Block.points, ∀ point ∈ block, ∀ v ∈ point.uses,
      v ∈ (f.blocks.map Block.points).flatten.flatMap DefUse.uses := by
  intro block member point inside v used
  exact List.mem_flatMap.mpr ⟨point, List.mem_flatten.mpr ⟨block, member, inside⟩, used⟩

section Solution

variable {f : Function} {flow : Flow}

/-- The bound on the passes is never met: without it they end with the same sets, after as many
passes. -/
theorem solve_settles (f : Function) (flow : Flow) :
    Settles (f.blocks.map Block.points) flow (blank (f.blocks.map Block.points))
      (solve f flow).blocks (solve f flow).iterations := by
  apply settles_iterate (mem_uses_of_points f) (passBound (f.blocks.map Block.points))
    rising_blank (within_blank _)
  rw [passBound]
  omega

theorem solve_settled (f : Function) (flow : Flow) :
    Still (f.blocks.map Block.points) flow (solve f flow).blocks ∧
      Rising (f.blocks.map Block.points) flow (solve f flow).blocks ∧
      Within ((f.blocks.map Block.points).flatten.flatMap DefUse.uses) (solve f flow).blocks := by
  have settles := solve_settles f flow
  exact ⟨settles.still, settles.rising rising_blank,
    settles.within (mem_uses_of_points f) (within_blank _)⟩

theorem solve_block_eq_nil {b : Nat} (beyond : f.blocks[b]? = none) :
    (solve f flow).block b = [] := by
  have same := (solve_settled f flow).2.1.length
  rw [List.length_map] at same
  rw [List.getElem?_eq_none_iff] at beyond
  exact List.getD_eq_default _ _ (by omega)

theorem solve_block (built : Flow.build f = .ok flow) {b : Nat} {block : Block}
    (found : f.blocks[b]? = some block) :
    (solve f flow).block b = sweep (exitSet flow (solve f flow).blocks b) block.points := by
  obtain ⟨rest, rising, -⟩ := solve_settled f flow
  have small : b < f.blocks.length := (List.getElem?_eq_some_iff.mp found).1
  have still := rest b (Flow.mem_order (Flow.size_build built ▸ small))
  have inside : b < (solve f flow).blocks.length := by
    rw [rising.length, List.length_map]
    exact small
  have here : ((solve f flow).blocks.set b (sweep (exitSet flow (solve f flow).blocks b)
      ((f.blocks.map Block.points).getD b []))).getD b [] = (solve f flow).blocks.getD b [] := by
    rw [show (solve f flow).blocks.set b _ = (solve f flow).blocks from still]
  have points : (f.blocks.map Block.points).getD b [] = block.points := by
    simp [found]
  rw [points] at here
  rw [Liveness.block, ← here]
  simp [inside]

theorem sweep_getElem? {out : VarSet} {points : List DefUse} {i : Nat} {point : DefUse}
    (here : points[i]? = some point) :
    (sweep out points)[i]? =
      some ⟨transfer point (entry (sweep out (points.drop (i + 1))) out),
        entry (sweep out (points.drop (i + 1))) out⟩ := by
  induction points generalizing i with
  | nil => simp at here
  | cons first points ih =>
      cases i with
      | zero =>
          simp only [List.getElem?_cons_zero, Option.some.injEq] at here
          subst here
          simp [sweep]
      | succ i =>
          simp only [List.getElem?_cons_succ] at here
          simpa [sweep] using ih here

theorem solve_point (built : Flow.build f = .ok flow) {b : Nat} {block : Block}
    (found : f.blocks[b]? = some block) {i : Nat} {point : DefUse}
    (here : block.points[i]? = some point) :
    (solve f flow).point b i =
      ⟨transfer point (entry (sweep (exitSet flow (solve f flow).blocks b)
          (block.points.drop (i + 1))) (exitSet flow (solve f flow).blocks b)),
        entry (sweep (exitSet flow (solve f flow).blocks b)
          (block.points.drop (i + 1))) (exitSet flow (solve f flow).blocks b)⟩ := by
  rw [Liveness.point, solve_block built found, List.getD_eq_getElem?_getD, sweep_getElem? here]
  rfl

theorem mem_liveIn (built : Flow.build f = .ok flow) {b : Nat} {block : Block}
    (found : f.blocks[b]? = some block) {i : Nat} {point : DefUse}
    (here : block.points[i]? = some point) {v : Var} :
    v ∈ (solve f flow).liveIn b i ↔
      v ∈ (solve f flow).liveOut b i ∧ v ∉ point.defs ∨ v ∈ point.uses := by
  simp only [liveIn, liveOut, solve_point built found here, mem_transfer]

theorem liveOut_eq_liveIn (built : Flow.build f = .ok flow) {b : Nat} {block : Block}
    (found : f.blocks[b]? = some block) {i : Nat} (more : i + 1 < block.points.length) :
    (solve f flow).liveOut b i = (solve f flow).liveIn b (i + 1) := by
  have here : block.points[i]? = some block.points[i] := List.getElem?_eq_getElem (by omega)
  have next : block.points[i + 1]? = some block.points[i + 1] := List.getElem?_eq_getElem more
  simp only [liveIn, liveOut, solve_point built found here, solve_point built found next]
  rw [List.drop_eq_getElem_cons more]
  rfl

theorem blockIn_eq_liveIn (live : Liveness) (b : Nat) : live.blockIn b = live.liveIn b 0 := by
  rw [blockIn, liveIn, Liveness.point]
  cases live.block b <;> rfl

theorem blockIn_subset_liveOut (built : Flow.build f = .ok flow) {b : Nat} {block : Block}
    (found : f.blocks[b]? = some block) {next : Nat} (successor : next ∈ flow.successorsOf b)
    {v : Var} (live : v ∈ (solve f flow).blockIn next) :
    v ∈ (solve f flow).liveOut b block.instrs.length := by
  have last : block.points[block.instrs.length]? = some block.terminator.defUse := by
    simp [Block.points]
  have done : block.points.drop (block.instrs.length + 1) = [] := by
    simp [Block.points]
  simp only [liveOut, solve_point built found last, done, sweep, entry]
  exact mem_exitSet.mpr ⟨next, successor, live⟩

theorem mem_uses_of_liveOut {b i : Nat} {v : Var} (live : v ∈ (solve f flow).liveOut b i) :
    ∃ block ∈ f.blocks, ∃ point ∈ block.points, v ∈ point.uses := by
  obtain ⟨-, -, within⟩ := solve_settled f flow
  cases found : (solve f flow).blocks[b]? with
  | none => simp [liveOut, Liveness.point, Liveness.block, found] at live
  | some points =>
      cases here : points[i]? with
      | none => simp [liveOut, Liveness.point, Liveness.block, found, here] at live
      | some point =>
          have after : v ∈ point.after := by
            simpa [liveOut, Liveness.point, Liveness.block, found, here] using live
          have used := (within points (List.mem_of_getElem? found) point
            (List.mem_of_getElem? here)).2 v after
          simp only [List.mem_flatMap, List.mem_flatten, List.mem_map] at used
          obtain ⟨reader, ⟨_, ⟨block, member, rfl⟩, inside⟩, read⟩ := used
          exact ⟨block, member, reader, inside, read⟩

end Solution

end Liveness

end Regalloc
