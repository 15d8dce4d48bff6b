import Mathlib
import Regalloc.Machine.Value

/-!
# Places of array elements

In an array whose dimensions are not negative and have products of 64 bits, also those of the
first dimensions alone, looking an element up never wraps around, even where it ends out of bounds.
The indices that are accepted and the places below the number of elements correspond to each
other, one to one.
-/

namespace Regalloc.Machine

def extent (dims : List Int64) : Nat :=
  (dims.map fun dim => dim.toInt.toNat).prod

@[simp] theorem extent_nil : extent [] = 1 :=
  rfl

@[simp] theorem extent_cons (dim : Int64) (dims : List Int64) :
    extent (dim :: dims) = dim.toInt.toNat * extent dims := by
  simp [extent]

def Room (factor : Nat) (dims : List Int64) : Prop :=
  ∀ front, front <+: dims → factor * extent front < Text.int64Bound

theorem Room.factor_lt {factor : Nat} {dims : List Int64} (room : Room factor dims) :
    factor < Text.int64Bound := by
  simpa using room [] List.nil_prefix

theorem room_cons {factor : Nat} {dim : Int64} {dims : List Int64} :
    Room factor (dim :: dims) ↔
      factor < Text.int64Bound ∧ Room (factor * dim.toInt.toNat) dims := by
  constructor
  · intro room
    refine ⟨room.factor_lt, fun front within => ?_⟩
    have fits := room (dim :: front) (List.cons_prefix_cons.mpr ⟨rfl, within⟩)
    rwa [extent_cons, ← Nat.mul_assoc] at fits
  · rintro ⟨small, room⟩ front within
    rcases List.prefix_cons_iff.mp within with rfl | ⟨rest, rfl, rested⟩
    · simpa using small
    · rw [extent_cons, ← Nat.mul_assoc]
      exact room rest rested

/-- The dimensions are not negative, their products and those of the first of them are 64-bit
numbers, and there are as many elements as they say. -/
structure Aggregate.WellFormed (aggregate : Aggregate) : Prop where
  nonneg : ∀ dim ∈ aggregate.dims, 0 ≤ dim.toInt
  room : ∀ front, front <+: aggregate.dims → extent front < Text.int64Bound
  counted : aggregate.elements.size = extent aggregate.dims

theorem Aggregate.WellFormed.room_one {aggregate : Aggregate} (wellFormed : aggregate.WellFormed) :
    Room 1 aggregate.dims := by
  intro front within
  rw [Nat.one_mul]
  exact wellFormed.room front within

/-- No product and no sum that is formed on the way to a place wraps around. Nothing is formed
after an index that is out of bounds. -/
def Exact (flat : Int64) : (indices dims : List Int64) → Prop
  | index :: indices, dim :: dims =>
    ¬(index < 0 ∨ dim ≤ index) →
      (flat * dim).toInt = flat.toInt * dim.toInt ∧
      (flat * dim + index).toInt = (flat * dim).toInt + index.toInt ∧
      Exact (flat * dim + index) indices dims
  | _, _ => True

theorem flatIndex_cons_eq_ok {function : String} {flat index dim place : Int64}
    {indices dims : List Int64} :
    flatIndex function flat (index :: indices) (dim :: dims) = .ok place ↔
      ¬(index < 0 ∨ dim ≤ index) ∧
        flatIndex function (flat * dim + index) indices dims = .ok place := by
  rw [flatIndex]
  split <;> simp_all

/-- One more dimension neither wraps around nor leaves the extent so far. -/
theorem flat_step {flat dim index : Int64} {f factor : Nat} (value : flat.toInt = f)
    (inside : f < factor) (bounds : ¬(index < 0 ∨ dim ≤ index))
    (room : factor * dim.toInt.toNat < Text.int64Bound) :
    ∃ i : Nat, index.toInt = i ∧ i < dim.toInt.toNat ∧
      (flat * dim).toInt = flat.toInt * dim.toInt ∧
      (flat * dim + index).toInt = (flat * dim).toInt + index.toInt ∧
      (flat * dim + index).toInt = (f * dim.toInt.toNat + i : Nat) ∧
      f * dim.toInt.toNat + i < factor * dim.toInt.toNat := by
  rw [not_or, Int64.lt_iff_toInt_lt, Int64.le_iff_toInt_le, Int64.toInt_zero, not_lt, not_le]
    at bounds
  obtain ⟨i, indexed⟩ := Int.eq_ofNat_of_zero_le bounds.1
  obtain ⟨d, sized⟩ := Int.eq_ofNat_of_zero_le (bounds.1.trans bounds.2.le)
  rw [indexed, sized] at bounds
  rw [sized, Int.toNat_natCast] at room ⊢
  have below : i < d := by exact_mod_cast bounds.2
  have next : f * d + i < factor * d := by
    calc f * d + i < f * d + d := Nat.add_lt_add_left below _
      _ = (f + 1) * d := (Nat.succ_mul f d).symm
      _ ≤ factor * d := Nat.mul_le_mul_right d inside
  rw [Text.int64Bound] at room
  have product : (flat * dim).toInt = (f * d : Nat) := by
    rw [Int64.toInt_mul, value, sized, ← Int.natCast_mul, Int.bmod_eq_of_le] <;> omega
  have sum : (flat * dim + index).toInt = (f * d + i : Nat) := by
    rw [Int64.toInt_add, product, indexed, ← Int.natCast_add, Int.bmod_eq_of_le] <;> omega
  refine ⟨i, indexed, below, ?_, ?_, sum, next⟩
  · rw [product, value, Int.natCast_mul]
  · rw [sum, product, indexed, Int.natCast_add]

section Loop

-- The invariant of the loop over the dimensions: the place so far is a number below the product of
-- the dimensions that were passed, and that product still has room for those that are left.
variable {function function' : String} {flat flat' : Int64} {indices indices' dims : List Int64}
  {f f' factor : Nat}

theorem exact_of_room (value : flat.toInt = f) (inside : f < factor) (room : Room factor dims) :
    Exact flat indices dims := by
  fun_induction Exact flat indices dims generalizing f factor with
  | case1 flat index indices dim dims ih =>
      intro bounds
      have rest := (room_cons.mp room).2
      obtain ⟨i, -, -, product, sum, value', next⟩ := flat_step value inside bounds rest.factor_lt
      exact ⟨product, sum, ih value' next rest⟩
  | case2 => trivial

/-- What is added to the place so far is below the extent of the dimensions that are left. -/
theorem flatIndex_toInt (value : flat.toInt = f) (inside : f < factor) (room : Room factor dims)
    (lengths : indices.length = dims.length) {place : Int64}
    (found : flatIndex function flat indices dims = .ok place) :
    ∃ r, r < extent dims ∧ place.toInt = (f * extent dims + r : Nat) := by
  induction dims generalizing flat indices f factor with
  | nil =>
      rw [List.length_eq_zero_iff.mp lengths] at found
      cases found
      exact ⟨0, Nat.one_pos, by simpa using value⟩
  | cons dim dims ih =>
      obtain ⟨index, indices, rfl⟩ := List.exists_cons_of_length_eq_add_one lengths
      obtain ⟨bounds, found⟩ := flatIndex_cons_eq_ok.mp found
      have rest := (room_cons.mp room).2
      obtain ⟨i, -, below, -, -, value', next⟩ := flat_step value inside bounds rest.factor_lt
      obtain ⟨r, small, placed⟩ := ih value' next rest (Nat.succ.inj lengths) found
      refine ⟨i * extent dims + r, ?_, ?_⟩
      · rw [extent_cons]
        calc i * extent dims + r < i * extent dims + extent dims := Nat.add_lt_add_left small _
          _ = (i + 1) * extent dims := (Nat.succ_mul _ _).symm
          _ ≤ dim.toInt.toNat * extent dims := Nat.mul_le_mul_right _ below
      · rw [placed, extent_cons, Nat.add_mul, Nat.mul_assoc, Nat.add_assoc]

theorem flatIndex_injective (value : flat.toInt = f) (value' : flat'.toInt = f')
    (inside : f < factor) (inside' : f' < factor) (room : Room factor dims)
    (lengths : indices.length = dims.length) (lengths' : indices'.length = dims.length)
    {place : Int64} (found : flatIndex function flat indices dims = .ok place)
    (found' : flatIndex function' flat' indices' dims = .ok place) :
    f = f' ∧ indices = indices' := by
  induction dims generalizing flat flat' indices indices' f f' factor with
  | nil =>
      rw [List.length_eq_zero_iff.mp lengths] at found
      rw [List.length_eq_zero_iff.mp lengths'] at found'
      cases found
      cases found'
      refine ⟨by exact_mod_cast value.symm.trans value', ?_⟩
      rw [List.length_eq_zero_iff.mp lengths, List.length_eq_zero_iff.mp lengths']
  | cons dim dims ih =>
      obtain ⟨index, indices, rfl⟩ := List.exists_cons_of_length_eq_add_one lengths
      obtain ⟨index', indices', rfl⟩ := List.exists_cons_of_length_eq_add_one lengths'
      obtain ⟨bounds, found⟩ := flatIndex_cons_eq_ok.mp found
      obtain ⟨bounds', found'⟩ := flatIndex_cons_eq_ok.mp found'
      have rest := (room_cons.mp room).2
      obtain ⟨i, indexed, below, -, -, next, inside⟩ :=
        flat_step value inside bounds rest.factor_lt
      obtain ⟨i', indexed', below', -, -, next', inside'⟩ :=
        flat_step value' inside' bounds' rest.factor_lt
      obtain ⟨same, rfl⟩ := ih next next' inside inside' rest (Nat.succ.inj lengths)
        (Nat.succ.inj lengths') found found'
      -- Quotient and remainder of the place by the dimension.
      obtain ⟨rfl, rfl⟩ : f = f' ∧ i = i' := by
        have parts {q r : Nat} (small : r < dim.toInt.toNat) :
            (q * dim.toInt.toNat + r) / dim.toInt.toNat = q ∧
              (q * dim.toInt.toNat + r) % dim.toInt.toNat = r :=
          (Nat.div_mod_unique (Nat.zero_lt_of_lt small)).mpr ⟨by ring, small⟩
        have first := @parts f i below
        rw [same] at first
        exact ⟨first.1.symm.trans (parts below').1, first.2.symm.trans (parts below').2⟩
      exact ⟨rfl, congrArg (· :: indices) (Int64.toInt_inj.mp (indexed.trans indexed'.symm))⟩

theorem exists_flatIndex (value : flat.toInt = f) (inside : f < factor) (room : Room factor dims)
    {r : Nat} (small : r < extent dims) :
    ∃ (indices : List Int64) (place : Int64), indices.length = dims.length ∧
      place.toInt = (f * extent dims + r : Nat) ∧
      ∀ function, flatIndex function flat indices dims = .ok place := by
  induction dims generalizing flat f factor r with
  | nil =>
      have zero : r = 0 := Nat.lt_one_iff.mp small
      exact ⟨[], flat, rfl, by simpa [zero] using value, fun _ => rfl⟩
  | cons dim dims ih =>
      have rest := (room_cons.mp room).2
      rw [extent_cons] at small
      have positive : 0 < extent dims := Nat.pos_of_lt_mul_left small
      have below : r / extent dims < dim.toInt.toNat := Nat.div_lt_of_lt_mul (by
        rwa [Nat.mul_comm])
      have indexed : (Int64.ofNat (r / extent dims)).toInt = (r / extent dims : Nat) := by
        refine Int64.toInt_ofNat_of_lt ?_
        have := dim.toInt_lt
        omega
      have bounds : ¬(Int64.ofNat (r / extent dims) < 0 ∨ dim ≤ Int64.ofNat (r / extent dims)) := by
        rw [not_or, Int64.lt_iff_toInt_lt, Int64.le_iff_toInt_le, Int64.toInt_zero, indexed]
        exact ⟨not_lt.mpr (Int.natCast_nonneg _), not_le.mpr (Int.lt_toNat.mp below)⟩
      obtain ⟨i, indexed', -, -, -, value', next⟩ := flat_step value inside bounds rest.factor_lt
      obtain rfl : i = r / extent dims := by exact_mod_cast indexed'.symm.trans indexed
      obtain ⟨indices, place, lengths, placed, found⟩ :=
        ih value' next rest (Nat.mod_lt r positive)
      refine ⟨_ :: indices, place, congrArg (· + 1) lengths, ?_, fun function =>
        flatIndex_cons_eq_ok.mpr ⟨bounds, found function⟩⟩
      rw [placed, extent_cons, Nat.add_mul, Nat.mul_assoc, Nat.add_assoc, Nat.mul_comm (_ / _),
        Nat.div_add_mod]

end Loop

theorem elementIndex_eq_ok {function : String} {aggregate : Aggregate} {indices : List Int64}
    {place : Nat} :
    elementIndex function aggregate indices = .ok place ↔
      indices.length = aggregate.dims.length ∧
        ∃ flat, flatIndex function 0 indices aggregate.dims = .ok flat ∧
          flat.toUInt64.toNat = place := by
  rw [elementIndex]
  split
  · rename_i differ
    exact ⟨nofun, fun found => absurd found.1 differ⟩
  · rename_i same
    rw [not_not] at same
    simp only [same, true_and, bind_pure_comp]
    cases flatIndex function 0 indices aggregate.dims <;> simp [Functor.map, Except.map]

structure Aggregate.Addressed (aggregate : Aggregate) : Prop where
  /-- Also where an index turns out to be out of bounds. -/
  exact : ∀ indices, Exact 0 indices aggregate.dims
  below : ∀ function indices place, elementIndex function aggregate indices = .ok place →
    place < aggregate.elements.size
  injective : ∀ function function' indices indices' place,
    elementIndex function aggregate indices = .ok place →
    elementIndex function' aggregate indices' = .ok place → indices = indices'
  covering : ∀ place < aggregate.elements.size,
    ∃ indices, ∀ function, elementIndex function aggregate indices = .ok place

namespace Aggregate.WellFormed

variable {aggregate : Aggregate}

theorem toInt_flatIndex (wellFormed : aggregate.WellFormed) {function : String}
    {indices : List Int64} {flat : Int64} (lengths : indices.length = aggregate.dims.length)
    (found : flatIndex function 0 indices aggregate.dims = .ok flat) :
    flat.toInt = flat.toUInt64.toNat ∧ flat.toUInt64.toNat < aggregate.elements.size := by
  obtain ⟨r, small, placed⟩ :=
    flatIndex_toInt Int64.toInt_zero Nat.one_pos wellFormed.room_one lengths found
  rw [Nat.zero_mul, Nat.zero_add] at placed
  have nonneg : 0 ≤ flat := by
    rw [Int64.le_iff_toInt_le, placed, Int64.toInt_zero]
    exact Int.natCast_nonneg r
  have same : flat.toUInt64.toNat = r := by
    rw [Int64.toNat_toUInt64_of_le nonneg, Int64.toNatClampNeg, placed, Int.toNat_natCast]
  rw [same, wellFormed.counted]
  exact ⟨placed, small⟩

theorem addressed (wellFormed : aggregate.WellFormed) : aggregate.Addressed where
  exact indices := exact_of_room Int64.toInt_zero Nat.one_pos wellFormed.room_one
  below function indices place located := by
    obtain ⟨lengths, flat, found, rfl⟩ := elementIndex_eq_ok.mp located
    exact (wellFormed.toInt_flatIndex lengths found).2
  injective function function' indices indices' place located located' := by
    obtain ⟨lengths, flat, found, rfl⟩ := elementIndex_eq_ok.mp located
    obtain ⟨lengths', flat', found', same⟩ := elementIndex_eq_ok.mp located'
    obtain rfl : flat' = flat := by
      rw [← Int64.toInt_inj, (wellFormed.toInt_flatIndex lengths found).1,
        (wellFormed.toInt_flatIndex lengths' found').1, same]
    exact (flatIndex_injective Int64.toInt_zero Int64.toInt_zero Nat.one_pos Nat.one_pos
      wellFormed.room_one lengths lengths' found found').2
  covering place inside := by
    rw [wellFormed.counted] at inside
    obtain ⟨indices, flat, lengths, placed, found⟩ :=
      exists_flatIndex Int64.toInt_zero Nat.one_pos wellFormed.room_one inside
    refine ⟨indices, fun function => elementIndex_eq_ok.mpr ⟨lengths, flat, found function, ?_⟩⟩
    have same := (wellFormed.toInt_flatIndex lengths (found "")).1
    rw [placed, Nat.zero_mul, Nat.zero_add] at same
    exact_mod_cast same.symm

end Aggregate.WellFormed

section Allocation

theorem extent_of_foldlM {dims : List Int64} {start count : Nat} (small : start < Text.int64Bound)
    (counted : dims.foldlM (fun count dim =>
      let product := count * dim.toInt.toNat
      if product < Text.int64Bound then some product else none) start = some count) :
    count = start * extent dims ∧ Room start dims := by
  induction dims generalizing start with
  | nil =>
      cases counted
      refine ⟨(Nat.mul_one _).symm, fun front within => ?_⟩
      rw [List.prefix_nil.mp within, extent_nil, Nat.mul_one]
      exact small
  | cons dim dims ih =>
      rw [List.foldlM_cons] at counted
      obtain ⟨product, fits, counted⟩ := Option.bind_eq_some_iff.mp counted
      obtain ⟨small', rfl⟩ : start * dim.toInt.toNat < Text.int64Bound ∧
          start * dim.toInt.toNat = product := by
        simpa using fits
      obtain ⟨rfl, room⟩ := ih small' counted
      exact ⟨by rw [extent_cons, Nat.mul_assoc], room_cons.mpr ⟨small, room⟩⟩

theorem extent_of_extent? {dims : List Int64} {count : Nat} (counted : extent? dims = some count) :
    count = extent dims ∧ Room 1 dims := by
  obtain ⟨product, folded, fits⟩ := Option.bind_eq_some_iff.mp counted
  obtain ⟨-, rfl⟩ : product ≤ maxElements ∧ product = count := by simpa using fits
  have spec := extent_of_foldlM (by decide) folded
  rwa [Nat.one_mul] at spec

theorem wellFormed_replicate {dims : List Int64} {count : Nat} (value : Value)
    (nonneg : ∀ dim ∈ dims, 0 ≤ dim.toInt) (counted : extent? dims = some count) :
    Aggregate.WellFormed ⟨dims, Array.replicate count value⟩ := by
  obtain ⟨rfl, room⟩ := extent_of_extent? counted
  refine ⟨nonneg, fun front within => ?_, Array.size_replicate⟩
  simpa using room front within

theorem Aggregate.WellFormed.write {aggregate : Aggregate} (wellFormed : aggregate.WellFormed)
    (index : Nat) (value : Value) : (aggregate.write index value).WellFormed :=
  ⟨wellFormed.nonneg, wellFormed.room, by
    rw [Aggregate.write, Array.size_setIfInBounds, wellFormed.counted]⟩

end Allocation

end Regalloc.Machine
