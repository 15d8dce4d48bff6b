import Mathlib
import Regalloc.Proofs.AllocationRounds
import Regalloc.Proofs.ConfinedTemporaries
import Regalloc.Proofs.LiveRenaming

/-!
# Spilling keeps temporaries confined

When a variable that is not a temporary moves to a slot, each site that mentions it gets one more
temporary, and each parameter in its place is a temporary that is stored on entry. The temporaries
are new, so none of them belongs to two sites. Jumps lead where they led before.
-/

namespace Regalloc

namespace Spill

section Sites

variable {request : Request} {n k low high : Nat}

theorem RewrittenPoints.skip {front rest out : List DefUse}
    (absent : ∀ point ∈ front, ¬point.Mentions request.v)
    (shape : RewrittenPoints request low high (front ++ rest) out) :
    ∃ out', out = front ++ out' ∧ RewrittenPoints request low high rest out' := by
  induction front generalizing out with
  | nil => exact ⟨out, rfl, shape⟩
  | cons first front ih =>
      rw [List.forall_mem_cons] at absent
      cases shape with
      | keep _ later =>
          obtain ⟨out', rfl, last⟩ := ih absent.2 later
          exact ⟨out', rfl, last⟩
      | move mentioned _ _ => exact absurd mentioned absent.1

theorem not_mentions_load {u t : Var} (apart : u ≠ t) : ¬(DefUse.load t).Mentions u := by
  rintro (written | used)
  · exact apart (List.mem_singleton.mp written)
  · cases used

theorem not_mentions_store {u t : Var} (apart : u ≠ t) : ¬(DefUse.store t).Mentions u := by
  rintro (written | used)
  · cases written
  · exact apart (List.mem_singleton.mp used)

theorem not_mentions_stores {u : Var} {stored : List Var} (other : u ∉ stored) :
    ∀ point ∈ stored.map DefUse.store, ¬point.Mentions u := by
  rw [List.forall_mem_map]
  exact fun t member => not_mentions_store fun same => other (same ▸ member)

def movedSite (request : Request) (t : Var) (site : Site) (point' : DefUse) : Site :=
  ⟨site.loads ++ (if request.v ∈ site.point.uses then [t] else []), point'⟩

section Moved

variable {site : Site} {t : Var} {point' : DefUse} (fits : site.Fits n k)
  (small : request.v.index < n) (large : n ≤ t.index)
  (renamed : site.point.Renamed (replace request t) point')

include fits small large renamed

theorem stores_movedSite :
    (movedSite request t site point').stores n =
      (if request.v ∈ site.point.defs then [t] else []) ++ site.stores n := by
  simp only [Site.stores, movedSite, renamed.defs]
  rcases fits.defs_cases with nothing | ⟨d, only⟩
  · simp [nothing]
  · by_cases same : d = request.v
    · subst same
      simp [only, replace, large, Nat.not_le.mpr small]
    · simp [only, replace, same, Ne.symm same]

theorem fits_movedSite : (movedSite request t site point').Fits n k where
  few := by
    have image : point'.uses.toFinset = site.point.uses.toFinset.image (replace request t) := by
      ext u
      simp [renamed.uses u]
    rw [movedSite, image]
    exact Finset.card_image_le.trans fits.few
  single := by
    rw [movedSite, renamed.defs, List.length_map]
    exact fits.single
  loaded u := by
    rw [movedSite, renamed.uses u, List.mem_append, fits.loaded u, List.mem_ite_nil_right,
      List.mem_singleton]
    constructor
    · rintro (⟨temporary, used⟩ | ⟨used, rfl⟩)
      · have apart : u ≠ request.v := by
          rintro rfl
          omega
        exact ⟨temporary, u, used, if_neg apart⟩
      · exact ⟨large, request.v, used, if_pos rfl⟩
    · rintro ⟨temporary, w, used, same⟩
      unfold replace at same
      split at same
      · rename_i here
        exact Or.inr ⟨here ▸ used, same.symm⟩
      · exact Or.inl ⟨temporary, same ▸ used⟩

theorem temporaries_movedSite (mentioned : site.point.Mentions request.v)
    (fresh : t ∉ site.temporaries n) :
    ((movedSite request t site point').temporaries n).Perm (site.temporaries n ++ [t]) := by
  have unloaded : t ∉ site.loads := fun loaded => fresh (List.mem_append_left _ loaded)
  have unstored : t ∉ site.stores n := by
    intro stored
    apply fresh
    exact List.mem_append_right _ (List.mem_filter.mpr ⟨stored, decide_eq_true unloaded⟩)
  have kept : ∀ loads : List Var, (∀ u ∈ loads, u = t) →
      (site.stores n).filter (fun v => v ∉ site.loads ++ loads) =
        (site.stores n).filter (fun v => v ∉ site.loads) := by
    intro loads only
    apply List.filter_congr
    intro v stored
    have apart : v ∉ loads := fun member => unstored (only v member ▸ stored)
    simp [apart]
  rw [Site.temporaries, stores_movedSite fits small large renamed, Site.temporaries, movedSite]
  by_cases used : request.v ∈ site.point.uses
  · rw [if_pos used, List.filter_append, kept [t] (by simp)]
    have loaded : ((if request.v ∈ site.point.defs then [t] else []).filter
        fun v => v ∉ site.loads ++ [t]) = [] := by
      split <;> simp
    rw [loaded, List.nil_append, List.append_assoc, List.append_assoc]
    exact (List.perm_append_comm).append_left site.loads
  · have written : request.v ∈ site.point.defs := mentioned.resolve_right used
    rw [if_neg used, if_pos written, List.append_nil, List.filter_append]
    have stored : ([t].filter fun v => v ∉ site.loads) = [t] := by
      simp [unloaded]
    rw [stored, List.append_assoc]
    exact (List.perm_append_comm).append_left site.loads

end Moved

theorem rewritten_site {site : Site} (fits : site.Fits n k) (small : request.v.index < n)
    (large : n ≤ low) (below : ∀ t ∈ site.temporaries n, t.index < low) {rest out : List DefUse}
    (shape : RewrittenPoints request low high (site.points n ++ rest) out) :
    ∃ site' mid out', out = Site.points n site' ++ out' ∧ low ≤ mid ∧
      RewrittenPoints request mid high rest out' ∧ site'.Fits n k ∧
      (site'.temporaries n).Perm (site.temporaries n ++ mints low mid) := by
  have apart : ∀ t : Var, n ≤ t.index → request.v ≠ t := by
    rintro t temporary rfl
    omega
  have loads : ∀ point ∈ site.loads.map DefUse.load, ¬point.Mentions request.v := by
    rw [List.forall_mem_map]
    intro t loaded
    exact not_mentions_load (apart t ((fits.loaded t).mp loaded).1)
  have stores : ∀ point ∈ (site.stores n).map DefUse.store, ¬point.Mentions request.v :=
    not_mentions_stores fun stored =>
      apart request.v (of_decide_eq_true (List.mem_filter.mp stored).2) rfl
  rw [Site.points, List.append_assoc] at shape
  obtain ⟨tail, rfl, middle⟩ := shape.skip loads
  cases middle with
  | keep _ later =>
      obtain ⟨out', rfl, last⟩ := later.skip stores
      refine ⟨site, low, out', ?_, Nat.le_refl _, last, fits, ?_⟩
      · rw [Site.points, List.append_assoc, List.cons_append]
      · rw [mints_self, List.append_nil]
  | @move _ _ _ point' _ _ mentioned renamed later =>
      obtain ⟨out', rfl, last⟩ := later.skip stores
      have fresh : (⟨low⟩ : Var) ∉ site.temporaries n := fun owned =>
        absurd (below _ owned) (Nat.lt_irrefl _)
      refine ⟨movedSite request ⟨low⟩ site point', low + 1, out', ?_, Nat.le_succ _, last,
        fits_movedSite fits small large renamed, ?_⟩
      · rw [Site.points, stores_movedSite fits small large renamed, movedSite]
        split <;> split <;> simp
      · rw [mints_succ]
        exact temporaries_movedSite fits small large renamed mentioned fresh

/-- Shared temporaries of two parts go to the end. -/
theorem perm_append_mints {first second first' second' : List Var} {mid : Nat} (less : low ≤ mid)
    (more : mid ≤ high) (head : first'.Perm (first ++ mints low mid))
    (tail : second'.Perm (second ++ mints mid high)) :
    (first' ++ second').Perm (first ++ second ++ mints low high) := by
  calc (first' ++ second').Perm ((first ++ mints low mid) ++ (second ++ mints mid high)) :=
        head.append tail
    _ = first ++ ((mints low mid ++ second) ++ mints mid high) := by simp only [List.append_assoc]
    _ |>.Perm (first ++ ((second ++ mints low mid) ++ mints mid high)) :=
        ((List.perm_append_comm).append_right _).append_left _
    _ = first ++ second ++ mints low high := by
        rw [List.append_assoc second, mints_append less more, List.append_assoc]

theorem rewritten_sites {sites : List Site} (fits : ∀ site ∈ sites, site.Fits n k)
    (small : request.v.index < n) (large : n ≤ low)
    (below : ∀ t ∈ sites.flatMap (Site.temporaries n), t.index < low) {out : List DefUse}
    (shape : RewrittenPoints request low high (sites.flatMap (Site.points n)) out) :
    ∃ sites' : List Site, out = sites'.flatMap (Site.points n) ∧ (∀ site ∈ sites', site.Fits n k) ∧
      (sites'.flatMap (Site.temporaries n)).Perm
        (sites.flatMap (Site.temporaries n) ++ mints low high) := by
  induction sites generalizing low out with
  | nil =>
      cases shape
      exact ⟨[], rfl, fun _ member => absurd member List.not_mem_nil, by simp⟩
  | cons first rest ih =>
      rw [List.forall_mem_cons] at fits
      rw [List.flatMap_cons, List.forall_mem_append] at below
      rw [List.flatMap_cons] at shape
      obtain ⟨site, mid, out', rfl, less, later, kept, head⟩ :=
        rewritten_site fits.1 small large below.1 shape
      obtain ⟨sites, rfl, fits', tail⟩ := ih fits.2 (large.trans less)
        (fun t owned => (below.2 t owned).trans_le less) later
      refine ⟨site :: sites, List.flatMap_cons.symm, List.forall_mem_cons.mpr ⟨kept, fits'⟩, ?_⟩
      rw [List.flatMap_cons, List.flatMap_cons]
      exact perm_append_mints less later.le head tail

theorem rewritten_blocks {blocks : List (List Site)}
    (fits : ∀ sites ∈ blocks, ∀ site ∈ sites, site.Fits n k) (small : request.v.index < n)
    (large : n ≤ low)
    (below : ∀ t ∈ blocks.flatten.flatMap (Site.temporaries n), t.index < low)
    {out : List (List DefUse)} (shape : RewrittenAll request low high (laid n blocks) out) :
    ∃ blocks' : List (List Site), out = laid n blocks' ∧
      (∀ sites ∈ blocks', ∀ site ∈ sites, site.Fits n k) ∧
      (blocks'.flatten.flatMap (Site.temporaries n)).Perm
        (blocks.flatten.flatMap (Site.temporaries n) ++ mints low high) := by
  induction blocks generalizing low out with
  | nil =>
      cases shape
      exact ⟨[], rfl, fun _ member => absurd member List.not_mem_nil, by simp⟩
  | cons first rest ih =>
      rw [List.forall_mem_cons] at fits
      rw [List.flatten_cons, List.flatMap_append, List.forall_mem_append] at below
      cases shape with
      | cons here later =>
          obtain ⟨sites, rfl, kept, head⟩ := rewritten_sites fits.1 small large below.1 here
          obtain ⟨blocks, rfl, fits', tail⟩ := ih fits.2 (large.trans here.le)
            (fun t owned => (below.2 t owned).trans_le here.le) later
          refine ⟨sites :: blocks, rfl, List.forall_mem_cons.mpr ⟨kept, fits'⟩, ?_⟩
          rw [List.flatten_cons, List.flatten_cons, List.flatMap_append, List.flatMap_append]
          exact perm_append_mints here.le later.le head tail

theorem rewritten_front {lead : List Var} (arrived : ∀ t ∈ lead, n ≤ t.index)
    {blocks : List (List Site)} (fits : ∀ sites ∈ blocks, ∀ site ∈ sites, site.Fits n k)
    (small : request.v.index < n) (large : n ≤ low)
    (below : ∀ t ∈ blocks.flatten.flatMap (Site.temporaries n), t.index < low)
    {out : List (List DefUse)}
    (shape : RewrittenAll request low high (onFront (lead.map .store) (laid n blocks)) out) :
    ∃ blocks' : List (List Site), out = onFront (lead.map .store) (laid n blocks') ∧
      (∀ sites ∈ blocks', ∀ site ∈ sites, site.Fits n k) ∧
      (blocks'.flatten.flatMap (Site.temporaries n)).Perm
        (blocks.flatten.flatMap (Site.temporaries n) ++ mints low high) := by
  have stores : ∀ point ∈ lead.map DefUse.store, ¬point.Mentions request.v :=
    not_mentions_stores fun member => absurd (arrived _ member) (Nat.not_le.mpr small)
  cases blocks with
  | nil =>
      cases shape
      exact ⟨[], rfl, fits, by simp⟩
  | cons first rest =>
      cases shape with
      | cons here later =>
          obtain ⟨points, rfl, sited⟩ := here.skip stores
          obtain ⟨blocks', same, fits', owned⟩ := rewritten_blocks fits small large below
            (.cons sited later)
          refine ⟨blocks', ?_, fits', owned⟩
          rw [← same]
          rfl

theorem RewrittenParams.perm {list list' : List Param}
    (shape : RewrittenParams request low high list list') (small : request.v.index < n)
    (large : n ≤ low) :
    ((list'.map Param.v).filter fun v => n ≤ v.index).Perm
      (((list.map Param.v).filter fun v => n ≤ v.index) ++ mints low high) := by
  induction shape with
  | nil => simp
  | @keep low high first rest rest' apart _ ih =>
      rw [List.map_cons, List.map_cons, List.filter_cons, List.filter_cons]
      split
      · exact (ih large).cons first.v
      · exact ih large
  | @move low high first rest rest' same later ih =>
      have gone : ¬decide (n ≤ first.v.index) = true := by
        rw [same, decide_eq_true_iff]
        exact Nat.not_le.mpr small
      rw [List.map_cons, List.map_cons, List.filter_cons, List.filter_cons, if_neg gone,
        if_pos (decide_eq_true large), mints_cons later.le]
      exact ((ih (large.trans (Nat.le_succ low))).cons _).trans List.perm_middle.symm

theorem RewrittenParams.length_eq {list list' : List Param}
    (shape : RewrittenParams request low high list list') : list'.length = list.length := by
  induction shape with
  | nil => rfl
  | keep _ _ ih => rw [List.length_cons, List.length_cons, ih]
  | move _ _ ih => rw [List.length_cons, List.length_cons, ih]

end Sites

/-- Spilling what is not a temporary keeps temporaries confined. -/
theorem confined_one {n k : Nat} {lead : List Var} {sites : List (List Site)} {f : Function}
    (request : Request) (confined : Confined n k lead sites f) (interned : f.Interned)
    (size : n ≤ f.vars.size) (small : request.v.index < n) :
    ∃ lead' sites', Confined n k lead' sites' (one f request).function := by
  obtain ⟨⟨mid, shape⟩, -⟩ := one_rewritten f request
  have early := shape.params.le
  have late := shape.blocks.le
  have old : ∀ t ∈ f.paramVars.filter (fun v => n ≤ v.index) ++
      sites.flatten.flatMap (Site.temporaries n), t.index < f.vars.size := by
    rw [List.forall_mem_append]
    constructor
    · intro t param
      exact interned t (Function.mem_mentions.mpr (Or.inl (List.mem_filter.mp param).1))
    · intro t owned
      obtain ⟨site, listed, owned⟩ := List.mem_flatMap.mp owned
      exact interned t (confined.mem_mentions listed owned)
  have params := shape.params.perm small size
  have moved := shape.points
  have front : onFront ((mints f.vars.size mid).map .store) (f.blocks.map Block.points) =
      onFront ((mints f.vars.size mid ++ lead).map .store) (laid n sites) := by
    rw [confined.points]
    cases sites with
    | nil => rfl
    | cons first rest => simp [laid, onFront]
  rw [front] at moved
  have arrived : ∀ t ∈ mints f.vars.size mid ++ lead, n ≤ t.index := by
    rw [List.forall_mem_append]
    exact ⟨fun t minted => size.trans (mem_mints.mp minted).1,
      fun t member => (confined.arrived t member).1⟩
  obtain ⟨sites', points, fits, owned⟩ := rewritten_front arrived confined.fits small
    (size.trans early) (fun t owned => (old t (List.mem_append_right _ owned)).trans_le early) moved
  refine ⟨_, sites', points, fits, ?_, shape.params.length_eq ▸ confined.params, ?_⟩
  · intro t member
    refine ⟨arrived t member, ?_⟩
    have listed : t ∈ (f.paramVars.filter fun v => n ≤ v.index) ++ mints f.vars.size mid := by
      rcases List.mem_append.mp member with minted | lead
      · exact List.mem_append_right _ minted
      · obtain ⟨temporary, param⟩ := confined.arrived t lead
        exact List.mem_append_left _ (List.mem_filter.mpr ⟨param, decide_eq_true temporary⟩)
    exact (List.mem_filter.mp (params.mem_iff.mpr listed)).1
  · have whole := perm_append_mints early late params owned
    apply whole.nodup_iff.mpr
    rw [List.nodup_append]
    refine ⟨confined.distinct, nodup_mints _ _, ?_⟩
    intro t owned u minted same
    have less := old t owned
    rw [same] at less
    exact absurd (mem_mints.mp minted).1 (Nat.not_le.mpr less)

theorem interned_one {f : Function} (interned : f.Interned) (request : Request) :
    (one f request).function.Interned := by
  obtain ⟨⟨mid, shape⟩, minted⟩ := one_rewritten f request
  intro v mentioned
  rcases mem_mentions_one mentioned with ⟨mentioned, -⟩ | fresh
  · exact (interned v mentioned).trans_le shape.le
  · rw [minted, mem_mints] at fresh
    exact fresh.2

theorem confined_all {n k : Nat} {lead : List Var} {sites : List (List Site)} {f : Function}
    (confined : Confined n k lead sites f) (interned : f.Interned) (size : n ≤ f.vars.size)
    {vars : List Var} (small : ∀ v ∈ vars, v.index < n) (stem : String) (first : Nat) :
    ∃ lead' sites', Confined n k lead' sites' (all stem f vars first).function := by
  induction vars generalizing f lead sites first with
  | nil => exact ⟨lead, sites, confined⟩
  | cons v rest ih =>
      rw [List.forall_mem_cons] at small
      obtain ⟨lead', sites', kept⟩ := confined_one ⟨v, ⟨first⟩, stem⟩ confined interned
        size small.1
      obtain ⟨⟨mid, shape⟩, -⟩ := one_rewritten f ⟨v, ⟨first⟩, stem⟩
      exact ih kept (interned_one interned _) (size.trans shape.le) small.2 (first + 1)

end Spill

section Flow

theorem Expr.isSimple_mapVars (rename : Var → Var) (expr : Expr) :
    (expr.mapVars rename).isSimple = expr.isSimple := by
  cases expr <;> rfl

theorem Expr.all_isSimple_mapVars (rename : Var → Var) (exprs : List Expr) :
    (mapVarsOfAll rename exprs).all isSimple = exprs.all isSimple := by
  induction exprs with
  | nil => rfl
  | cons first rest ih => rw [mapVarsOfAll, List.all_cons, List.all_cons, isSimple_mapVars, ih]

theorem calleeViolation_mapVars (rename : Var → Var) (callee : Expr) :
    calleeViolation (callee.mapVars rename) = calleeViolation callee := by
  cases callee <;> rfl

theorem Expr.violation_mapVars (rename : Var → Var) (expr : Expr) :
    (expr.mapVars rename).violation = expr.violation := by
  have base_mapVars : ∀ base : Expr,
      (base.mapVars rename).var?.isNone = base.var?.isNone := by
    intro base
    cases base <;> rfl
  cases expr with
  | access base offsets =>
      simp only [mapVars, violation, base_mapVars, all_isSimple_mapVars]
  | binary operator left right => simp only [mapVars, violation, isSimple_mapVars]
  | call builtin callee args => simp only [mapVars, violation, calleeViolation_mapVars]
  | newArray dims => simp only [mapVars, violation, all_isSimple_mapVars]
  | newTuple size => simp only [mapVars, violation, isSimple_mapVars]
  | length base dim => simp only [mapVars, violation, base_mapVars, isSimple_mapVars]
  | _ => rfl

theorem Instruction.violation_mapVars (rename : Var → Var) (instruction : Instruction) :
    (instruction.mapVars rename).violation = instruction.violation := by
  cases instruction with
  | declare ty v => rfl
  | call builtin callee args => exact calleeViolation_mapVars rename callee
  | assign target source => simp only [mapVars, violation, Expr.violation_mapVars]

def Block.Sound (block : Block) : Prop :=
  ∀ i ∈ block.instrs, i.violation = none

theorem Flow.build_eq_ok_iff {f : Function} {flow : Flow} :
    Flow.build f = .ok flow ↔
      (∀ block ∈ f.blocks, block.Sound) ∧
        f.blocks.mapM (fun block => targets f block.terminator) = .ok flow.successors := by
  have checked : f.checkOperands = .ok () ↔
      ∀ block ∈ f.blocks, block.Sound := by
    rw [Function.checkOperands]
    constructor
    · intro passed block listed i inside
      split at passed
      · cases passed
      · rename_i nothing
        have none := List.findSome?_eq_none_iff.mp nothing i
          (List.mem_flatMap.mpr ⟨block, listed, inside⟩)
        simpa using none
    · intro sound
      have nothing : ((f.blocks.flatMap Block.instrs).findSome? fun instruction =>
          instruction.violation.map fun expected => (instruction, expected)) = none := by
        apply List.findSome?_eq_none_iff.mpr
        intro i member
        obtain ⟨block, listed, inside⟩ := List.mem_flatMap.mp member
        rw [sound block listed i inside, Option.map_none]
      rw [nothing]
  rw [Flow.build, except_bind_eq_ok, ← checked]
  constructor
  · rintro ⟨_, passed, built⟩
    obtain ⟨successors, mapped, same⟩ := except_bind_eq_ok.mp built
    cases same
    exact ⟨passed, mapped⟩
  · rintro ⟨passed, mapped⟩
    exact ⟨(), passed, except_bind_eq_ok.mpr ⟨flow.successors, mapped, rfl⟩⟩

namespace Spill

variable {request : Request} {low high : Nat}

theorem sound_moved {t : Var} {i : Instruction} :
    (∀ i' ∈ moved request t i, i'.violation = none) ↔ i.violation = none := by
  have before : (load request t).violation = none := rfl
  have after : (store request t).violation = none := rfl
  simp only [moved, List.mem_append, List.mem_ite_nil_right, List.mem_singleton]
  constructor
  · intro sound
    exact (i.violation_mapVars _).symm.trans (sound _ (Or.inl (Or.inr rfl)))
  · rintro sound i' ((⟨-, rfl⟩ | rfl) | ⟨-, rfl⟩)
    · exact before
    · exact (i.violation_mapVars _).trans sound
    · exact after

theorem Rewritten.sound {instrs instrs' : List Instruction}
    (shape : Rewritten request low high instrs instrs') :
    (∀ i ∈ instrs', i.violation = none) ↔ ∀ i ∈ instrs, i.violation = none := by
  induction shape with
  | nil => exact Iff.rfl
  | keep _ _ _ ih => rw [List.forall_mem_cons, List.forall_mem_cons, ih]
  | move _ _ ih => rw [List.forall_mem_append, List.forall_mem_cons, sound_moved, ih]

theorem RewrittenBlocks.sound {list list' : List Block}
    (shape : RewrittenBlocks request low high list list') :
    (∀ block ∈ list', block.Sound) ↔ ∀ block ∈ list, block.Sound := by
  induction shape with
  | nil => exact Iff.rfl
  | @cons _ _ _ _ _ _ loads _ _ _ instrs ending _ ih =>
      have sound : ∀ i ∈ loads, i.violation = none := by
        cases ending with
        | keep => exact fun _ member => absurd member List.not_mem_nil
        | move => exact List.forall_mem_singleton.mpr rfl
      rw [List.forall_mem_cons, List.forall_mem_cons, ih, Block.Sound, Block.Sound,
        List.forall_mem_append, instrs.sound, and_iff_left sound]

theorem sound_onEntry {temporaries : List Var} {list : List Block} :
    (∀ block ∈ onEntry (temporaries.map (store request)) list, block.Sound) ↔
      ∀ block ∈ list, block.Sound := by
  cases list with
  | nil => exact Iff.rfl
  | cons first rest =>
      have stores : ∀ i ∈ temporaries.map (store request), i.violation = none := by
        rw [List.forall_mem_map]
        exact fun _ _ => rfl
      rw [onEntry, List.forall_mem_cons, List.forall_mem_cons, Block.Sound, Block.Sound,
        List.forall_mem_append, and_iff_right stores]

section Targets

variable {f f' : Function} (labels : f'.blocks.map Block.label = f.blocks.map Block.label)
include labels

theorem RewrittenEnd.targets {t t' : Terminator} {loads : List Instruction}
    (shape : RewrittenEnd request t low high loads t') {nexts : List Nat} :
    Flow.targets f' t' = .ok nexts ↔ Flow.targets f t = .ok nexts := by
  cases shape with
  | keep =>
      rw [← Flow.targets_mapVars id labels, Terminator.mapVars_id]
  | move => exact Flow.targets_mapVars _ labels

theorem RewrittenBlocks.targets {list list' : List Block}
    (shape : RewrittenBlocks request low high list list') {nexts : List (List Nat)} :
    list'.mapM (fun block => Flow.targets f' block.terminator) = .ok nexts ↔
      list.mapM (fun block => Flow.targets f block.terminator) = .ok nexts := by
  induction shape generalizing nexts with
  | nil => exact Iff.rfl
  | cons _ ending _ ih =>
      simp only [List.mapM_cons, except_bind_eq_ok, ih, ending.targets labels]

end Targets

theorem build_one_iff (f : Function) (request : Request) {flow : Flow} :
    Flow.build (one f request).function = .ok flow ↔ Flow.build f = .ok flow := by
  obtain ⟨⟨mid, shape⟩, -⟩ := one_rewritten f request
  have entered : ∀ stores, (onEntry stores f.blocks).mapM
      (fun block => Flow.targets f block.terminator) =
        f.blocks.mapM fun block => Flow.targets f block.terminator := by
    intro stores
    cases f.blocks with
    | nil => rfl
    | cons first rest => rfl
  rw [Flow.build_eq_ok_iff, Flow.build_eq_ok_iff, shape.blocks.sound, sound_onEntry,
    shape.blocks.targets shape.labels, entered]

theorem build_one {f : Function} {flow : Flow} (request : Request)
    (built : Flow.build f = .ok flow) : Flow.build (one f request).function = .ok flow :=
  (build_one_iff f request).mpr built

theorem build_all {f : Function} {flow : Flow} (stem : String) (vars : List Var) (first : Nat)
    (built : Flow.build f = .ok flow) :
    Flow.build (all stem f vars first).function = .ok flow := by
  induction vars generalizing f first with
  | nil => exact built
  | cons v rest ih => exact ih (first + 1) (build_one ⟨v, ⟨first⟩, stem⟩ built)

end Spill

end Flow

end Regalloc
