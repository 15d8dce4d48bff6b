/-!
# Finite sets of indexed things

A type whose members are numbered has finite sets that are the bits of one natural number. Two
such sets are equal as soon as they have the same members, and listing one goes up the numbering.
-/

namespace Regalloc

/-- A numbering of all members of a type by all natural numbers. -/
class Indexed (α : Type) where
  index : α → Nat
  ofIndex : Nat → α
  ofIndex_index : ∀ a, ofIndex (index a) = a
  index_ofIndex : ∀ n, index (ofIndex n) = n

/-- The set whose members are those with a set bit at their index. -/
structure IndexSet (α : Type) where
  bits : Nat
  deriving DecidableEq, Repr

namespace IndexSet

variable {α : Type} [Indexed α]

instance : EmptyCollection (IndexSet α) := ⟨⟨0⟩⟩

instance : Inhabited (IndexSet α) := ⟨∅⟩

def contains (s : IndexSet α) (a : α) : Bool :=
  s.bits.testBit (Indexed.index a)

instance : Membership α (IndexSet α) := ⟨fun s a => s.contains a = true⟩

instance (a : α) (s : IndexSet α) : Decidable (a ∈ s) :=
  inferInstanceAs (Decidable (s.contains a = true))

def insert (s : IndexSet α) (a : α) : IndexSet α :=
  ⟨s.bits ||| 1 <<< Indexed.index a⟩

def union (s t : IndexSet α) : IndexSet α :=
  ⟨s.bits ||| t.bits⟩

def sdiff (s t : IndexSet α) : IndexSet α :=
  ⟨s.bits ^^^ (s.bits &&& t.bits)⟩

def ofList (members : List α) : IndexSet α :=
  members.foldl insert ∅

def toList (s : IndexSet α) : List α :=
  ((List.range (s.bits.log2 + 1)).filter s.bits.testBit).map Indexed.ofIndex

def size (s : IndexSet α) : Nat :=
  s.toList.length

def isEmpty (s : IndexSet α) : Bool :=
  s.bits == 0

theorem index_injective {a b : α} (same : Indexed.index a = Indexed.index b) : a = b := by
  rw [← Indexed.ofIndex_index a, same, Indexed.ofIndex_index]

theorem mem_def {a : α} {s : IndexSet α} : a ∈ s ↔ s.bits.testBit (Indexed.index a) = true :=
  Iff.rfl

theorem ext {s t : IndexSet α} (members : ∀ a, a ∈ s ↔ a ∈ t) : s = t := by
  cases s with | mk left => cases t with | mk right =>
  congr 1
  apply Nat.eq_of_testBit_eq
  intro i
  have same := members (Indexed.ofIndex i)
  simp only [mem_def, Indexed.index_ofIndex] at same
  exact Bool.eq_iff_iff.mpr same

@[simp] theorem not_mem_empty (a : α) : ¬a ∈ (∅ : IndexSet α) := by
  show ¬(Nat.testBit 0 (Indexed.index a) = true)
  simp

theorem eq_empty_iff {s : IndexSet α} : s = ∅ ↔ ∀ a, ¬a ∈ s := by
  constructor
  · intro empty a
    rw [empty]
    exact not_mem_empty a
  · intro none
    apply ext
    intro a
    simp [none a]

@[simp] theorem mem_insert {a b : α} {s : IndexSet α} : a ∈ s.insert b ↔ a = b ∨ a ∈ s := by
  simp only [mem_def, insert, Nat.testBit_or, Nat.one_shiftLeft, Nat.testBit_two_pow,
    Bool.or_eq_true, decide_eq_true_eq]
  constructor
  · rintro (old | new)
    · exact Or.inr old
    · exact Or.inl (index_injective new.symm)
  · rintro (rfl | old)
    · exact Or.inr rfl
    · exact Or.inl old

@[simp] theorem mem_union {a : α} {s t : IndexSet α} : a ∈ s.union t ↔ a ∈ s ∨ a ∈ t := by
  simp [mem_def, union]

@[simp] theorem mem_sdiff {a : α} {s t : IndexSet α} : a ∈ s.sdiff t ↔ a ∈ s ∧ ¬a ∈ t := by
  simp only [mem_def, sdiff, Nat.testBit_xor, Nat.testBit_and]
  cases s.bits.testBit (Indexed.index a) <;> cases t.bits.testBit (Indexed.index a) <;> simp

theorem mem_foldl_insert {a : α} {members : List α} {s : IndexSet α} :
    a ∈ members.foldl insert s ↔ a ∈ s ∨ a ∈ members := by
  induction members generalizing s with
  | nil => simp
  | cons head tail ih =>
      simp only [List.foldl_cons, ih, mem_insert, List.mem_cons]
      constructor
      · rintro ((same | old) | later)
        · exact Or.inr (Or.inl same)
        · exact Or.inl old
        · exact Or.inr (Or.inr later)
      · rintro (old | same | later)
        · exact Or.inl (Or.inr old)
        · exact Or.inl (Or.inl same)
        · exact Or.inr later

@[simp] theorem mem_ofList {a : α} {members : List α} : a ∈ ofList members ↔ a ∈ members := by
  simp [ofList, mem_foldl_insert]

@[simp] theorem mem_toList {a : α} {s : IndexSet α} : a ∈ s.toList ↔ a ∈ s := by
  simp only [toList, List.mem_map, List.mem_filter, List.mem_range, mem_def]
  constructor
  · rintro ⟨i, ⟨_, set⟩, rfl⟩
    rwa [Indexed.index_ofIndex]
  · intro set
    refine ⟨Indexed.index a, ⟨?_, set⟩, Indexed.ofIndex_index a⟩
    have large := Nat.ge_two_pow_of_testBit set
    have nonzero : s.bits ≠ 0 := by
      intro zero
      simp [zero] at set
    exact Nat.lt_succ_of_le ((Nat.le_log2 nonzero).mpr large)

end IndexSet

end Regalloc
