import Mathlib
import Regalloc.Program.Variable

/-!
# Variables and their names

However names are entered and minted, a table gives every variable a name of its own and every
name at most one variable, and a variable keeps its name for good. Minting tries one number after
the other under a counter that all stems share; as different numbers give different names, it
comes to an end before the names in the table can run out.
-/

namespace Regalloc.VarTable

section Entering

theorem lookup_eq_none_iff {table : VarTable} {name : String} :
    table.lookup name = none ↔ name ∉ table.names := by
  rw [lookup, Option.map_eq_none_iff, List.idxOf?_eq_none_iff]

def Extends (table start : VarTable) : Prop :=
  start.names <+: table.names

theorem Extends.refl (table : VarTable) : table.Extends table :=
  List.prefix_rfl

theorem Extends.trans {last middle first : VarTable} (late : last.Extends middle)
    (early : middle.Extends first) : last.Extends first :=
  List.IsPrefix.trans early late

theorem extends_intern (table : VarTable) (name : String) :
    (table.intern name).2.Extends table := by
  unfold intern
  split
  · exact .refl table
  · exact List.prefix_append table.names [name]

theorem internAll_append (table : VarTable) (first second : List String) :
    table.internAll (first ++ second) = (table.internAll first).internAll second :=
  List.foldl_append

theorem extends_internAll (table : VarTable) (names : List String) :
    (table.internAll names).Extends table := by
  induction names generalizing table with
  | nil => exact .refl table
  | cons name names ih => exact (ih (table.intern name).2).trans (table.extends_intern name)

theorem getElem?_intern (table : VarTable) (name : String) :
    (table.intern name).2.names[(table.intern name).1.index]? = some name := by
  unfold intern
  cases found : table.lookup name with
  | none => simp [size]
  | some v =>
      obtain ⟨index, place, same⟩ := Option.map_eq_some_iff.mp found
      obtain ⟨small, equal, -⟩ := List.idxOf?_eq_some_iff.mp place
      subst same
      rw [List.getElem?_eq_getElem small]
      exact congrArg some equal

theorem Extends.name_intern {table start : VarTable} {name : String}
    (extended : table.Extends (start.intern name).2) :
    (start.intern name).1.index < table.size ∧ table.name (start.intern name).1 = name := by
  have found := start.getElem?_intern name
  obtain ⟨more, same⟩ := extended
  have place : table.names[(start.intern name).1.index]? = some name := by
    obtain ⟨small, equal⟩ := List.getElem?_eq_some_iff.mp found
    rw [← same, List.getElem?_append_left small, found]
  refine ⟨(List.getElem?_eq_some_iff.mp place).1, ?_⟩
  rw [VarTable.name, List.getD_eq_getElem?_getD, place, Option.getD_some]

theorem intern_below (table : VarTable) (name : String) :
    table.size ≤ (table.intern name).2.size ∧
      (table.intern name).1.index < (table.intern name).2.size :=
  ⟨(table.extends_intern name).length_le, (Extends.name_intern (.refl _)).1⟩

theorem nodup_intern {table : VarTable} (distinct : table.names.Nodup) (name : String) :
    (table.intern name).2.names.Nodup := by
  unfold intern
  cases found : table.lookup name with
  | some v => exact distinct
  | none =>
      have new := lookup_eq_none_iff.mp found
      exact distinct.append (List.nodup_singleton name) (List.disjoint_singleton.mpr new)

theorem nodup_internAll {table : VarTable} (distinct : table.names.Nodup) (names : List String) :
    (table.internAll names).names.Nodup := by
  induction names generalizing table with
  | nil => exact distinct
  | cons name names ih => exact ih (nodup_intern distinct name)

theorem eq_of_name_eq {table : VarTable} (distinct : table.names.Nodup) {u v : Var}
    (first : u.index < table.size) (second : v.index < table.size)
    (same : table.name u = table.name v) : u = v := by
  obtain ⟨i⟩ := u
  obtain ⟨j⟩ := v
  rw [name, name, List.getD_eq_getElem _ _ first, List.getD_eq_getElem _ _ second] at same
  exact congrArg Var.mk (distinct.getElem_inj_iff.mp same)

theorem mem_names_intern (table : VarTable) (name : String) :
    name ∈ (table.intern name).2.names :=
  List.mem_of_getElem? (table.getElem?_intern name)

theorem mem_names_internAll {table : VarTable} {names : List String} {name : String}
    (listed : name ∈ names) : name ∈ (table.internAll names).names := by
  induction names generalizing table with
  | nil => cases listed
  | cons first names ih =>
      rcases List.mem_cons.mp listed with rfl | later
      · exact (extends_internAll _ names).subset (table.mem_names_intern name)
      · exact ih later

theorem intern_of_mem {table : VarTable} {name : String} (member : name ∈ table.names) :
    (table.intern name).2 = table := by
  unfold intern
  cases found : table.lookup name with
  | some v => rfl
  | none => exact absurd member (lookup_eq_none_iff.mp found)

end Entering

section Minting

theorem freshName_injective (stem : String) : Function.Injective (freshName stem) := by
  intro first second same
  have numerals : toString first = toString second := by
    simpa [freshName] using same
  exact Nat.repr_inj.mp numerals

theorem exists_unused (table : VarTable) (stem : String) :
    ∃ ahead ∈ List.range (table.size + 1),
      freshName stem (table.counter + ahead) ∉ table.names := by
  by_contra none
  push Not at none
  have taken : (List.range (table.size + 1)).map
      (fun ahead => freshName stem (table.counter + ahead)) ⊆ table.names := by
    intro name member
    obtain ⟨ahead, small, rfl⟩ := List.mem_map.mp member
    exact none ahead small
  have distinct : ((List.range (table.size + 1)).map
      (fun ahead => freshName stem (table.counter + ahead))).Nodup := by
    apply List.Nodup.map _ List.nodup_range
    intro first second same
    have sums := freshName_injective stem same
    omega
  have crowded := (distinct.subperm taken).length_le
  simp only [List.length_map, List.length_range, size] at crowded
  omega

/-- The bound on the candidates is never what ends the search. -/
theorem find?_eq_some_skipped (table : VarTable) (stem : String) :
    ((List.range (table.size + 1)).find? fun ahead =>
      !table.names.contains (freshName stem (table.counter + ahead))) =
        some (table.skipped stem) := by
  obtain ⟨ahead, small, unused⟩ := exists_unused table stem
  have found : ((List.range (table.size + 1)).find? fun ahead =>
      !table.names.contains (freshName stem (table.counter + ahead))).isSome = true := by
    rw [List.find?_isSome]
    exact ⟨ahead, small, by simpa using unused⟩
  obtain ⟨first, found⟩ := Option.isSome_iff_exists.mp found
  rw [skipped, found, Option.getD_some]

theorem freshName_skipped (table : VarTable) (stem : String) :
    freshName stem (table.counter + table.skipped stem) ∉ table.names := by
  have unused := List.find?_some (find?_eq_some_skipped table stem)
  simpa using unused

theorem skipped_le (table : VarTable) (stem : String) : table.skipped stem ≤ table.size := by
  have small := List.mem_of_find?_eq_some (find?_eq_some_skipped table stem)
  exact Nat.le_of_lt_succ (List.mem_range.mp small)

theorem freshName_mem_of_lt_skipped {table : VarTable} {stem : String} {ahead : Nat}
    (before : ahead < table.skipped stem) :
    freshName stem (table.counter + ahead) ∈ table.names := by
  have first := (List.find?_range_eq_some.mp (find?_eq_some_skipped table stem)).2.2
  simpa using first ahead before

theorem fresh_run (table : VarTable) (stem : String) :
    table.fresh stem = (⟨table.size⟩,
      ⟨table.names ++ [freshName stem (table.counter + table.skipped stem)],
        table.counter + table.skipped stem + 1⟩) := by
  have unused := freshName_skipped table stem
  have absent : ∀ counter, VarTable.lookup { table with counter := counter }
      (freshName stem (table.counter + table.skipped stem)) = none := by
    intro counter
    exact lookup_eq_none_iff.mpr unused
  unfold fresh intern
  simp only [absent]
  rfl

theorem fresh_eq (table : VarTable) (stem : String) :
    (table.fresh stem).1 = ⟨table.size⟩ ∧ (table.fresh stem).2.size = table.size + 1 := by
  rw [fresh_run]
  exact ⟨rfl, by simp [size]⟩

/-- A table that keeps the names of another in their places and adds none twice. -/
structure KeepsNames (before after : VarTable) : Prop where
  names : before.names <+: after.names
  distinct : before.names.Nodup → after.names.Nodup

theorem KeepsNames.refl (table : VarTable) : KeepsNames table table :=
  ⟨List.prefix_rfl, id⟩

theorem KeepsNames.trans {first second third : VarTable} (early : KeepsNames first second)
    (late : KeepsNames second third) : KeepsNames first third :=
  ⟨early.names.trans late.names, fun nodup => late.distinct (early.distinct nodup)⟩

theorem keepsNames_fresh (table : VarTable) (stem : String) :
    KeepsNames table (table.fresh stem).2 := by
  rw [fresh_run]
  refine ⟨List.prefix_append _ _, fun nodup => ?_⟩
  rw [List.nodup_append]
  refine ⟨nodup, List.nodup_singleton _, ?_⟩
  rintro name old _ new rfl
  rw [List.mem_singleton.mp new] at old
  exact freshName_skipped table stem old

end Minting

inductive Step where
  | intern (name : String)
  | fresh (stem : String)
  deriving DecidableEq, Repr

def take (table : VarTable) : Step → Var × VarTable
  | .intern name => table.intern name
  | .fresh stem => table.fresh stem

def after (history : List Step) : VarTable :=
  history.foldl (fun table step => (table.take step).2) {}

structure Inverse (table : VarTable) : Prop where
  lookup_name : ∀ v, v.index < table.size → table.lookup (table.name v) = some v
  name_lookup : ∀ name v, table.lookup name = some v →
    v.index < table.size ∧ table.name v = name

structure Interns (table : VarTable) (name : String) : Prop where
  found : (table.intern name).2.lookup name = some (table.intern name).1
  known : table.lookup name ≠ none → (table.intern name).2 = table
  new : table.lookup name = none →
    table.intern name = (⟨table.size⟩, { table with names := table.names ++ [name] })

def pass (table : VarTable) : VarTable :=
  { table with counter := table.counter + 1 }

/-- Candidates are tried until one is not in the table, which is entered: how many are tried, and
what comes out. -/
inductive Tries (stem : String) : VarTable → Nat → Var × VarTable → Prop
  | unused {table : VarTable} : freshName stem table.counter ∉ table.names →
      Tries stem table 1 (table.pass.intern (freshName stem table.counter))
  | taken {table : VarTable} {count : Nat} {result : Var × VarTable} :
      freshName stem table.counter ∈ table.names → Tries stem table.pass count result →
      Tries stem table (count + 1) result

/-- Minting ends after at most one candidate more than there are names. It gives the next variable
of the table a new name that begins with the stem. -/
structure Mints (table : VarTable) (stem : String) : Prop where
  ends : ∃ needed ≤ table.size + 1, ∀ count result,
    Tries stem table count result ↔ count = needed ∧ result = table.fresh stem
  next : (table.fresh stem).1 = ⟨table.size⟩
  stemmed : ∃ number : Nat, (table.fresh stem).2.name ⟨table.size⟩ = stem ++ toString number
  new : table.lookup ((table.fresh stem).2.name ⟨table.size⟩) = none

section Search

variable {table : VarTable} {stem : String}

theorem tries_of_taken {count : Nat}
    (taken : ∀ ahead < count, freshName stem (table.counter + ahead) ∈ table.names)
    (unused : freshName stem (table.counter + count) ∉ table.names) :
    Tries stem table (count + 1)
      (intern { table with counter := table.counter + count + 1 }
        (freshName stem (table.counter + count))) := by
  -- On the candidates in use: after the first, those of the table with the next number are left.
  induction count generalizing table with
  | zero => exact .unused unused
  | succ count ih =>
      have shift : ∀ ahead, table.counter + (ahead + 1) = table.pass.counter + ahead := by
        intro ahead
        simp only [pass]
        omega
      have later : Tries stem table.pass (count + 1)
          (intern { table.pass with counter := table.pass.counter + count + 1 }
            (freshName stem (table.pass.counter + count))) := by
        apply ih
        · intro ahead small
          rw [← shift]
          exact taken (ahead + 1) (Nat.succ_lt_succ small)
        · rwa [← shift]
      rw [← shift] at later
      exact .taken (taken 0 (Nat.succ_pos count)) later

theorem Tries.unique {count count' : Nat} {result result' : Var × VarTable}
    (first : Tries stem table count result) (second : Tries stem table count' result') :
    count = count' ∧ result = result' := by
  induction first generalizing count' with
  | unused new =>
      cases second with
      | unused => exact ⟨rfl, rfl⟩
      | taken old => exact absurd old new
  | taken old _ ih =>
      cases second with
      | unused new => exact absurd old new
      | taken _ rest =>
          obtain ⟨same, equal⟩ := ih rest
          exact ⟨congrArg (· + 1) same, equal⟩

theorem tries_iff {count : Nat} {result : Var × VarTable} :
    Tries stem table count result ↔
      count = table.skipped stem + 1 ∧ result = table.fresh stem := by
  have search : Tries stem table (table.skipped stem + 1) (table.fresh stem) :=
    tries_of_taken (fun _ before => freshName_mem_of_lt_skipped before)
      (freshName_skipped table stem)
  constructor
  · intro other
    exact other.unique search
  · rintro ⟨rfl, rfl⟩
    exact search

theorem name_fresh (table : VarTable) (stem : String) :
    (table.fresh stem).2.name ⟨table.size⟩ =
      freshName stem (table.counter + table.skipped stem) := by
  rw [fresh_run]
  simp [name, size]

theorem mints (table : VarTable) (stem : String) : table.Mints stem where
  ends := by
    refine ⟨table.skipped stem + 1, Nat.succ_le_succ (skipped_le table stem), ?_⟩
    intro count result
    exact tries_iff
  next := (fresh_eq table stem).1
  stemmed := ⟨table.counter + table.skipped stem, name_fresh table stem⟩
  new := by
    rw [name_fresh, lookup_eq_none_iff]
    exact freshName_skipped table stem

end Search

section Names

variable {table : VarTable}

theorem inverse_of_nodup (distinct : table.names.Nodup) : table.Inverse where
  lookup_name := by
    intro v inside
    have place : table.names.idxOf? (table.name v) = some v.index := by
      rw [List.idxOf?_eq_some_iff, name, List.getD_eq_getElem _ _ inside]
      refine ⟨inside, rfl, ?_⟩
      intro i before same
      exact Nat.ne_of_lt before (distinct.getElem_inj_iff.mp same)
    rw [lookup, place, Option.map_some]
  name_lookup := by
    intro name v found
    obtain ⟨i, place, rfl⟩ := Option.map_eq_some_iff.mp found
    obtain ⟨inside, same, -⟩ := List.idxOf?_eq_some_iff.mp place
    exact ⟨inside, (List.getD_eq_getElem _ _ inside).trans same⟩

theorem interns_of_nodup (distinct : table.names.Nodup) (name : String) : table.Interns name where
  found := by
    obtain ⟨inside, named⟩ := Extends.name_intern (Extends.refl (table.intern name).2)
    have found := (inverse_of_nodup (nodup_intern distinct name)).lookup_name _ inside
    rwa [named] at found
  known := by
    intro old
    apply intern_of_mem
    by_contra new
    exact old (lookup_eq_none_iff.mpr new)
  new := by
    intro new
    rw [intern, new]

theorem Extends.name_eq {before later : VarTable} (extended : later.Extends before) {v : Var}
    (inside : v.index < before.size) :
    v.index < later.size ∧ later.name v = before.name v := by
  constructor
  · exact Nat.lt_of_lt_of_le inside extended.length_le
  · obtain ⟨more, same⟩ := extended
    rw [name, name, ← same, List.getD_append _ _ _ _ inside]

end Names

section History

theorem keepsNames_take (table : VarTable) (step : Step) :
    KeepsNames table (table.take step).2 := by
  cases step with
  | intern name => exact ⟨extends_intern table name, fun distinct => nodup_intern distinct name⟩
  | fresh stem => exact keepsNames_fresh table stem

theorem keepsNames_foldl (table : VarTable) (steps : List Step) :
    KeepsNames table (steps.foldl (fun table step => (table.take step).2) table) := by
  induction steps generalizing table with
  | nil => exact .refl table
  | cons step steps ih => exact (keepsNames_take table step).trans (ih _)

theorem keepsNames_after (history later : List Step) :
    KeepsNames (after history) (after (history ++ later)) := by
  rw [after, after, List.foldl_append]
  exact keepsNames_foldl _ later

theorem after_concat (history : List Step) (step : Step) :
    after (history ++ [step]) = ((after history).take step).2 :=
  List.foldl_append

theorem nodup_after (history : List Step) : (after history).names.Nodup :=
  (keepsNames_foldl {} history).distinct List.nodup_nil

theorem take_inside (table : VarTable) (step : Step) :
    (table.take step).1.index < (table.take step).2.size := by
  cases step with
  | intern name => exact (table.intern_below name).2
  | fresh stem =>
      obtain ⟨next, larger⟩ := fresh_eq table stem
      rw [take, next, larger]
      exact Nat.lt_succ_self table.size

end History

/-- After any steps variables and names are each other's inverse. What was given out before is
still in the table and has the name it had. Entering a name changes the table only if it is new,
and minting ends for every table and stem, with the next variable and a new name. -/
theorem after_inverse (history : List Step) :
    (after history).Inverse ∧
    (∀ step, ((after history).take step).1.index < (after (history ++ [step])).size) ∧
    (∀ later v, v.index < (after history).size →
      v.index < (after (history ++ later)).size ∧
        (after (history ++ later)).name v = (after history).name v) ∧
    (∀ name, (after history).Interns name) ∧
    ∀ (table : VarTable) (stem : String), table.Mints stem := by
  refine ⟨inverse_of_nodup (nodup_after history), ?_, ?_,
    interns_of_nodup (nodup_after history), mints⟩
  · intro step
    rw [after_concat]
    exact take_inside (after history) step
  · intro later v inside
    exact Extends.name_eq (keepsNames_after history later).names inside

def shared : List Step := [.intern "%S1", .fresh "%S", .fresh "%S", .fresh "%S1"]

/-- The second temporary passes over the name that was entered. -/
theorem after_inverse_shared :
    (after shared).names = ["%S1", "%S0", "%S2", "%S13"] ∧
    (after shared).lookup ((after shared).name ⟨2⟩) = some ⟨2⟩ ∧
    (after (shared ++ [.intern "%S14", .fresh "%S1"])).name ⟨2⟩ = (after shared).name ⟨2⟩ := by
  obtain ⟨inverse, -, kept, -, -⟩ := after_inverse shared
  have inside : 2 < (after shared).size := by decide +kernel
  exact ⟨by decide +kernel, inverse.lookup_name ⟨2⟩ inside, (kept _ ⟨2⟩ inside).2⟩

end Regalloc.VarTable
