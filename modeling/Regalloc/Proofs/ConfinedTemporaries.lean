import Mathlib
import Regalloc.Proofs.ConflictEdges
import Regalloc.Proofs.LiveSteps
import Regalloc.Proofs.SpillPoints

/-!
# Temporaries live around one point

A function that came from spilling is made of sites, each a point of the original function with
loads of temporaries in front of it and a store behind it. A temporary belongs to one site or
arrives as a parameter, so it is live nowhere else. Two temporaries conflict only if they are
loaded at one site, or if both are parameters; and only parameters conflict with registers.
Variables from `n` on are the temporaries.
-/

namespace Regalloc

open Liveness

/-- A program point, and the temporaries that are loaded in front of it. -/
structure Site where
  loads : List Var
  point : DefUse

namespace Site

variable (n : Nat)

def stores (site : Site) : List Var :=
  site.point.defs.filter fun v => n ≤ v.index

def points (site : Site) : List DefUse :=
  site.loads.map .load ++ site.point :: (site.stores n).map .store

def temporaries (site : Site) : List Var :=
  site.loads ++ (site.stores n).filter fun v => v ∉ site.loads

structure Fits (k : Nat) (site : Site) : Prop where
  few : site.point.uses.toFinset.card ≤ k
  single : site.point.defs.length ≤ 1
  loaded : ∀ t, t ∈ site.loads ↔ n ≤ t.index ∧ t ∈ site.point.uses

theorem Fits.defs_cases {n k : Nat} {site : Site} (fits : site.Fits n k) :
    site.point.defs = [] ∨ ∃ d, site.point.defs = [d] := by
  have single := fits.single
  cases written : site.point.defs with
  | nil => exact Or.inl rfl
  | cons d rest =>
      rw [written, List.length_cons] at single
      rw [List.eq_nil_of_length_eq_zero (by omega : rest.length = 0)]
      exact Or.inr ⟨d, rfl⟩

end Site

section Live

variable {n k : Nat}

def Lasting (n : Nat) (live : VarSet) : Prop :=
  ∀ v ∈ live, v.index < n

theorem mem_liveBefore_loads {out : VarSet} {loads : List Var} {v : Var} :
    v ∈ liveBefore out (loads.map .load) ↔ v ∈ out ∧ v ∉ loads := by
  induction loads with
  | nil => simp
  | cons first rest ih =>
      rw [List.map_cons, liveBefore_cons, mem_transfer, ih]
      simp only [DefUse.load, List.mem_cons, List.not_mem_nil, or_false, not_or, and_assoc]
      exact and_congr_right fun _ => and_comm

theorem mem_liveBefore_stores {out : VarSet} {stores : List Var} {v : Var} :
    v ∈ liveBefore out (stores.map .store) ↔ v ∈ out ∨ v ∈ stores := by
  induction stores with
  | nil => simp
  | cons first rest ih =>
      rw [List.map_cons, liveBefore_cons, mem_transfer, ih]
      simp only [DefUse.store, List.mem_cons, List.not_mem_nil, or_false, not_false_eq_true,
        and_true, or_assoc]
      exact or_congr_right or_comm

theorem mem_steps_loads {out after : VarSet} {loads : List Var} {point : DefUse}
    (step : (point, after) ∈ steps out (loads.map .load)) :
    (∃ t ∈ loads, point = .load t) ∧ ∀ v ∈ after, v ∈ out := by
  induction loads with
  | nil => cases step
  | cons first rest ih =>
      rcases List.mem_cons.mp step with here | later
      · cases here
        exact ⟨⟨first, List.mem_cons_self .., rfl⟩, fun v live => (mem_liveBefore_loads.mp live).1⟩
      · obtain ⟨⟨t, listed, same⟩, kept⟩ := ih later
        exact ⟨⟨t, List.mem_cons_of_mem _ listed, same⟩, kept⟩

theorem mem_steps_stores {out after : VarSet} {stores : List Var} {point : DefUse}
    (step : (point, after) ∈ steps out (stores.map .store)) : ∃ t, point = .store t := by
  induction stores with
  | nil => cases step
  | cons first rest ih =>
      rcases List.mem_cons.mp step with here | later
      · cases here
        exact ⟨first, rfl⟩
      · exact ih later

/-- What is live around the point of a site: of the temporaries those it reads before it, and
those it writes after it. -/
theorem Site.temporary_after {site : Site} {out : VarSet} (lasting : Lasting n out) {v : Var}
    (live : v ∈ liveBefore out ((site.stores n).map .store)) (temporary : n ≤ v.index) :
    v ∈ site.point.defs := by
  rcases mem_liveBefore_stores.mp live with live | written
  · exact absurd (lasting v live) (Nat.not_lt.mpr temporary)
  · exact (List.mem_filter.mp written).1

theorem Site.temporary_before {site : Site} {out : VarSet} (lasting : Lasting n out) {v : Var}
    (live : v ∈ liveBefore out (site.point :: (site.stores n).map .store))
    (temporary : n ≤ v.index) : v ∈ site.point.uses := by
  rw [liveBefore_cons, mem_transfer] at live
  rcases live with ⟨live, kept⟩ | used
  · exact absurd (site.temporary_after lasting live temporary) kept
  · exact used

theorem Site.Fits.lasting {site : Site} (fits : site.Fits n k) {out : VarSet}
    (lasting : Lasting n out) : Lasting n (liveBefore out (site.points n)) := by
  intro v live
  rw [points, liveBefore_append, mem_liveBefore_loads] at live
  by_contra temporary
  have used := site.temporary_before lasting live.1 (Nat.not_lt.mp temporary)
  exact live.2 ((fits.loaded v).mpr ⟨Nat.not_lt.mp temporary, used⟩)

/-- What a step of a site does with temporaries: those that are written belong to the site, and
they meet only temporaries that are loaded there with them; and a call keeps none. -/
structure Site.Keeps (n : Nat) (site : Site) (point : DefUse) (after : VarSet) : Prop where
  owned : ∀ d ∈ point.defs, n ≤ d.index → d ∈ site.temporaries n
  mates : ∀ d ∈ point.defs, n ≤ d.index → ∀ v ∈ after, n ≤ v.index → v ≠ d →
    d ∈ site.loads ∧ v ∈ site.loads
  called : point.isCall = true → ∀ v ∈ after, n ≤ v.index → v ∈ point.defs

theorem Site.Fits.keeps {site : Site} (fits : site.Fits n k) {out after : VarSet}
    {point : DefUse} (lasting : Lasting n out)
    (step : (point, after) ∈ steps out (site.points n)) : site.Keeps n point after := by
  rw [points, steps_append, List.mem_append] at step
  rcases step with loading | step
  · obtain ⟨⟨t, loaded, rfl⟩, kept⟩ := mem_steps_loads loading
    refine ⟨?_, ?_, ?_⟩
    · intro d written _
      rw [List.mem_singleton.mp written]
      exact List.mem_append_left _ loaded
    · intro d written _ v live temporary _
      rw [List.mem_singleton.mp written]
      have used := site.temporary_before lasting (kept v live) temporary
      exact ⟨loaded, (fits.loaded v).mpr ⟨temporary, used⟩⟩
    · intro call
      cases call
  rcases List.mem_cons.mp step with here | storing
  · cases here
    refine ⟨?_, ?_, ?_⟩
    · intro d written temporary
      by_cases loaded : d ∈ site.loads
      · exact List.mem_append_left _ loaded
      · apply List.mem_append_right
        simp [stores, written, temporary, loaded]
    · -- The point writes one variable, so nothing else is written that could be live.
      intro d written _ v live temporary apart
      have also := site.temporary_after lasting live temporary
      rcases fits.defs_cases with nothing | ⟨only, one⟩
      · rw [nothing] at written
        cases written
      · rw [one, List.mem_singleton] at written also
        exact absurd (also.trans written.symm) apart
    · intro _ v live temporary
      exact site.temporary_after lasting live temporary
  · obtain ⟨t, rfl⟩ := mem_steps_stores storing
    refine ⟨?_, ?_, ?_⟩
    · intro d written
      cases written
    · intro d written
      cases written
    · intro call
      cases call

theorem lasting_sites {sites : List Site} (fits : ∀ site ∈ sites, site.Fits n k) {out : VarSet}
    (lasting : Lasting n out) : Lasting n (liveBefore out (sites.flatMap (Site.points n))) := by
  induction sites with
  | nil => exact lasting
  | cons first rest ih =>
      rw [List.forall_mem_cons] at fits
      rw [List.flatMap_cons, liveBefore_append]
      exact fits.1.lasting (ih fits.2)

theorem keeps_of_mem_steps {sites : List Site} (fits : ∀ site ∈ sites, site.Fits n k)
    {out after : VarSet} {point : DefUse} (lasting : Lasting n out)
    (step : (point, after) ∈ steps out (sites.flatMap (Site.points n))) :
    ∃ site ∈ sites, site.Keeps n point after := by
  induction sites with
  | nil => cases step
  | cons first rest ih =>
      rw [List.forall_mem_cons] at fits
      rw [List.flatMap_cons, steps_append, List.mem_append] at step
      rcases step with here | later
      · exact ⟨first, List.mem_cons_self .., fits.1.keeps (lasting_sites fits.2 lasting) here⟩
      · obtain ⟨site, listed, keeps⟩ := ih fits.2 later
        exact ⟨site, List.mem_cons_of_mem _ listed, keeps⟩

end Live

def laid (n : Nat) (blocks : List (List Site)) : List (List DefUse) :=
  blocks.map fun sites => sites.flatMap (Site.points n)

/-- A function that is made of sites, with stores of arriving temporaries in front. -/
structure Confined (n k : Nat) (lead : List Var) (sites : List (List Site)) (f : Function) :
    Prop where
  points : f.blocks.map Block.points = Spill.onFront (lead.map .store) (laid n sites)
  fits : ∀ block ∈ sites, ∀ site ∈ block, site.Fits n k
  arrived : ∀ t ∈ lead, n ≤ t.index ∧ t ∈ f.paramVars
  params : f.params.length ≤ k
  /-- No temporary belongs to two sites or parameters. -/
  distinct : (f.paramVars.filter (fun v => n ≤ v.index) ++
    sites.flatten.flatMap (Site.temporaries n)).Nodup

namespace Confined

section Ownership

variable {n k : Nat} {lead : List Var} {sites : List (List Site)} {f : Function}
  (confined : Confined n k lead sites f)

include confined

theorem fits_of_mem {site : Site} (listed : site ∈ sites.flatten) : site.Fits n k := by
  obtain ⟨block, member, inside⟩ := List.mem_flatten.mp listed
  exact confined.fits block member site inside

theorem mem_mentions {site : Site} (listed : site ∈ sites.flatten) {t : Var}
    (owned : t ∈ site.temporaries n) : t ∈ f.mentions := by
  obtain ⟨list, member, inside⟩ := List.mem_flatten.mp listed
  have here : site.point ∈ list.flatMap (Site.points n) :=
    List.mem_flatMap.mpr ⟨site, inside, List.mem_append_right _ (List.mem_cons_self ..)⟩
  have placed : ∃ points ∈ f.blocks.map Block.points, site.point ∈ points := by
    rw [confined.points]
    exact Spill.exists_mem_onFront (List.mem_map_of_mem member) here
  obtain ⟨points, placed, here⟩ := placed
  obtain ⟨block, found, rfl⟩ := List.mem_map.mp placed
  refine Function.mem_mentions.mpr (Or.inr ⟨block, found, site.point, here, ?_⟩)
  rcases List.mem_append.mp owned with loaded | stored
  · exact Or.inr (((confined.fits list member site inside).loaded t).mp loaded).2
  · exact Or.inl (List.mem_filter.mp (List.mem_filter.mp stored).1).1

theorem position_unique {t : Var} (temporary : n ≤ t.index) {i j : Nat}
    (first : f.paramVars[i]? = some t) (second : f.paramVars[j]? = some t) : i = j := by
  have apart := (List.nodup_append.mp confined.distinct).1
  rw [List.Nodup, List.pairwise_filter, List.pairwise_iff_getElem] at apart
  obtain ⟨small, here⟩ := List.getElem?_eq_some_iff.mp first
  obtain ⟨small', there⟩ := List.getElem?_eq_some_iff.mp second
  have later : decide (n ≤ t.index) = true := decide_eq_true temporary
  rcases Nat.lt_trichotomy i j with less | same | less
  · exact absurd (here.trans there.symm)
      (apart i j small small' less (here ▸ later) (there ▸ later))
  · exact same
  · exact absurd (there.trans here.symm)
      (apart j i small' small less (there ▸ later) (here ▸ later))

theorem notMem_paramVars {site : Site} (listed : site ∈ sites.flatten) {t : Var}
    (owned : t ∈ site.temporaries n) (temporary : n ≤ t.index) : t ∉ f.paramVars := by
  intro param
  have disjoint := (List.nodup_append.mp confined.distinct).2.2
  exact disjoint t (List.mem_filter.mpr ⟨param, decide_eq_true temporary⟩) t
    (List.mem_flatMap.mpr ⟨site, listed, owned⟩) rfl

theorem site_unique {first second : Site} (listed : first ∈ sites.flatten)
    (listed' : second ∈ sites.flatten) {t : Var} (owned : t ∈ first.temporaries n)
    (owned' : t ∈ second.temporaries n) : first = second := by
  by_contra apart
  have owners := (List.nodup_flatMap.mp (List.nodup_append.mp confined.distinct).2.1).2
  have symmetric : Std.Symm (Function.onFun List.Disjoint (Site.temporaries n)) :=
    ⟨fun _ _ disjoint => disjoint.symm⟩
  exact owners.forall listed listed' apart owned owned'

end Ownership

section Conflicts

variable {n k : Nat} {lead : List Var} {sites : List (List Site)} {f : Function} {flow : Flow}
  {target : Target} (confined : Confined n k lead sites f)
  (entered : ∀ b, 0 ∉ flow.successorsOf b)

include confined

theorem block_points {b : Nat} {block : Block} (found : f.blocks[b]? = some block) :
    ∃ list ∈ sites, block.points = list.flatMap (Site.points n) ∨
      b = 0 ∧ block.points = lead.map .store ++ list.flatMap (Site.points n) := by
  have here : (f.blocks.map Block.points)[b]? = some block.points := by
    rw [List.getElem?_map, found, Option.map_some]
  rw [confined.points] at here
  cases listed : sites with
  | nil => simp [listed, laid, Spill.onFront] at here
  | cons first rest =>
      rw [listed, laid, List.map_cons, Spill.onFront] at here
      cases b with
      | zero =>
          rw [List.getElem?_cons_zero, Option.some.injEq] at here
          exact ⟨first, List.mem_cons_self .., Or.inr ⟨rfl, here.symm⟩⟩
      | succ b =>
          rw [List.getElem?_cons_succ, List.getElem?_map] at here
          obtain ⟨list, inside, same⟩ := Option.map_eq_some_iff.mp here
          exact ⟨list, List.mem_cons_of_mem _ (List.mem_of_getElem? inside), Or.inl same.symm⟩

include entered

theorem mem_lead_of_blockIn {b : Nat} {t : Var} (live : t ∈ (solve f flow).blockIn b)
    (temporary : n ≤ t.index) : b = 0 ∧ t ∈ lead := by
  refine blockIn_induction (fun b t => n ≤ t.index → b = 0 ∧ t ∈ lead) ?_ live temporary
  intro b block out found known t live temporary
  have lasting : Lasting n out := by
    intro u member
    by_contra large
    obtain ⟨next, successor, holds⟩ := known u member
    exact entered b ((holds (Nat.not_lt.mp large)).1 ▸ successor)
  obtain ⟨list, listed, points⟩ := confined.block_points found
  have before := lasting_sites (confined.fits list listed) lasting
  rcases points with points | ⟨first, points⟩
  · rw [points] at live
    exact absurd (before t live) (Nat.not_lt.mpr temporary)
  · rw [points, liveBefore_append] at live
    rcases mem_liveBefore_stores.mp live with live | arrived
    · exact absurd (before t live) (Nat.not_lt.mpr temporary)
    · exact ⟨first, arrived⟩

theorem lasting_exitSet (b : Nat) : Lasting n (exitSet flow (solve f flow).blocks b) := by
  intro v live
  by_contra large
  obtain ⟨next, successor, live⟩ := mem_exitSet_solve.mp live
  have first := confined.mem_lead_of_blockIn entered live (Nat.not_lt.mp large)
  exact entered b (first.1 ▸ successor)

variable (built : Flow.build f = .ok flow)

include built

theorem keeps {b i : Nat} {block : Block} {point : DefUse} (found : f.blocks[b]? = some block)
    (here : block.points[i]? = some point) :
    (∃ t, point = .store t) ∨
      ∃ site ∈ sites.flatten, site.Keeps n point ((solve f flow).liveOut b i) := by
  have step := mem_steps_of_point built found here
  have lasting := confined.lasting_exitSet entered b
  obtain ⟨list, listed, points⟩ := confined.block_points found
  have inside : ∀ site ∈ list, site ∈ sites.flatten := fun site member =>
    List.mem_flatten.mpr ⟨list, listed, member⟩
  rcases points with points | ⟨-, points⟩
  · rw [points] at step
    obtain ⟨site, member, keeps⟩ := keeps_of_mem_steps (confined.fits list listed) lasting step
    exact Or.inr ⟨site, inside site member, keeps⟩
  · rw [points, steps_append, List.mem_append] at step
    rcases step with storing | step
    · exact Or.inl (mem_steps_stores storing)
    · obtain ⟨site, member, keeps⟩ := keeps_of_mem_steps (confined.fits list listed) lasting step
      exact Or.inr ⟨site, inside site member, keeps⟩

theorem meets_cases {t u : Var} (meets : Interference.Meets f (solve f flow) t u)
    (temporary : n ≤ t.index) (temporary' : n ≤ u.index) (apart : u ≠ t) :
    (∃ site ∈ sites.flatten, t ∈ site.loads ∧ u ∈ site.loads) ∨
      t ∈ f.paramVars ∧ u ∈ f.paramVars := by
  cases meets with
  | written found here written after =>
      rcases confined.keeps entered built found here with ⟨_, rfl⟩ | ⟨site, listed, keeps⟩
      · cases written
      · exact Or.inl ⟨site, listed, keeps.mates t written temporary u after temporary' apart⟩
  | entry param live =>
      have arrived := (confined.mem_lead_of_blockIn entered live temporary').2
      exact Or.inr ⟨param, (confined.arrived u arrived).2⟩

/-- Temporaries conflict only if they are loaded at one site or are both parameters. -/
theorem conflict_cases {t u : Var}
    (conflict : (Interference.build f (solve f flow) target).interferes (.var t) (.var u) = true)
    (temporary : n ≤ t.index) (temporary' : n ≤ u.index) :
    (∃ site ∈ sites.flatten, t ∈ site.loads ∧ u ∈ site.loads) ∨
      t ∈ f.paramVars ∧ u ∈ f.paramVars := by
  obtain ⟨apart, forward | backward⟩ := Interference.var_conflict_iff.mp conflict
  · exact confined.meets_cases entered built forward temporary temporary' apart.symm
  · rcases confined.meets_cases entered built backward temporary' temporary apart with
      ⟨site, listed, loaded, loaded'⟩ | ⟨param, param'⟩
    · exact Or.inl ⟨site, listed, loaded', loaded⟩
    · exact Or.inr ⟨param', param⟩

/-- A temporary conflicts with a register only if it arrives in another one. -/
theorem register_conflict_cases {t : Var} {r : Register}
    (conflict : (Interference.build f (solve f flow) target).interferes (.var t)
      (.register r) = true)
    (temporary : n ≤ t.index) :
    ∃ position fixed, f.paramVars[position]? = some t ∧
      target.argumentRegister position = some fixed ∧ r ≠ fixed := by
  cases Interference.register_conflict_iff.mp conflict with
  | clobbered found here call after kept _ =>
      rcases confined.keeps entered built found here with ⟨_, rfl⟩ | ⟨site, -, keeps⟩
      · cases call
      · exact absurd (keeps.called call t after temporary) kept
  | arrival param arrives _ apart => exact ⟨_, _, param, arrives, apart⟩

end Conflicts

end Confined

end Regalloc
