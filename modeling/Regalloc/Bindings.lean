/-!
# Bindings

A finite map as a list of pairs in which every key stands once, in the order in which the keys
were first bound.
-/

namespace Regalloc

structure Bindings (κ α : Type) where
  entries : List (κ × α) := []
  deriving DecidableEq, Repr

namespace Bindings

variable {κ α : Type} [DecidableEq κ]

def get? (bindings : Bindings κ α) (key : κ) : Option α :=
  bindings.entries.lookup key

def keys (bindings : Bindings κ α) : List κ :=
  bindings.entries.map Prod.fst

def put (key : κ) (value : α) : List (κ × α) → List (κ × α)
  | [] => [(key, value)]
  | (other, old) :: rest =>
    if other = key then (key, value) :: rest else (other, old) :: put key value rest

/-- Binds a key in place of what it was bound to before, a new key at the end. -/
def insert (bindings : Bindings κ α) (key : κ) (value : α) : Bindings κ α :=
  ⟨put key value bindings.entries⟩

/-- Binds keys one after the other, so that the last binding of a key stays. -/
def ofList (pairs : List (κ × α)) : Bindings κ α :=
  pairs.foldl (fun bindings (key, value) => bindings.insert key value) {}

theorem lookup_put (key other : κ) (value : α) (entries : List (κ × α)) :
    (put key value entries).lookup other =
      if other = key then some value else entries.lookup other := by
  have differs {first : κ} (apart : ¬other = first) : (other == first) = false := by
    simpa using apart
  induction entries with
  | nil => by_cases same : other = key <;> simp [put, List.lookup_cons, same, differs]
  | cons head tail ih =>
      rcases head with ⟨first, old⟩
      by_cases found : first = key
      · by_cases same : other = key <;> simp [put, List.lookup_cons, found, same, differs]
      · by_cases same : other = first
        · simp [put, found, same]
        · simp [put, List.lookup_cons, found, differs same, ih]

@[simp] theorem get?_insert (bindings : Bindings κ α) (key other : κ) (value : α) :
    (bindings.insert key value).get? other =
      if other = key then some value else bindings.get? other :=
  lookup_put key other value bindings.entries

theorem isSome_get? (bindings : Bindings κ α) (key : κ) :
    (bindings.get? key).isSome = true ↔ key ∈ bindings.keys := by
  simp only [get?, keys, List.lookup_isSome_iff, beq_iff_eq, List.mem_map]
  constructor
  · rintro ⟨entry, bound, same⟩
    exact ⟨entry, bound, same.symm⟩
  · rintro ⟨entry, bound, same⟩
    exact ⟨entry, bound, same.symm⟩

theorem map_fst_put (key : κ) (value : α) (entries : List (κ × α)) :
    (put key value entries).map Prod.fst =
      if key ∈ entries.map Prod.fst then entries.map Prod.fst
      else entries.map Prod.fst ++ [key] := by
  induction entries with
  | nil => simp [put]
  | cons head tail ih =>
      by_cases same : head.1 = key
      · simp [put, same]
      · have apart : ¬key = head.1 := fun equal => same equal.symm
        simp only [put, same, if_false, List.map_cons, ih, List.mem_cons, apart, false_or]
        split <;> rfl

theorem keys_insert (bindings : Bindings κ α) (key : κ) (value : α) :
    (bindings.insert key value).keys =
      if key ∈ bindings.keys then bindings.keys else bindings.keys ++ [key] :=
  map_fst_put key value bindings.entries

end Bindings

end Regalloc
