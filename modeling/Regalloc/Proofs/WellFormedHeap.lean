import Mathlib
import Regalloc.Proofs.DisturbedRun
import Regalloc.Proofs.RowMajor

/-!
# Runs on well-formed heaps

Watchers are shown the heap at every point of a run and after every change, and every element that
is about to be looked up, and may stop the machine. One that minds nothing but an ill-formed
aggregate, a wrap-around or a place outside of an array never makes a difference: all aggregates
stay well-formed, and all lookups are exact and stay inside their array.
-/

namespace Regalloc.Machine

structure Watcher where
  /-- At every point of a call, when an aggregate was made and when an element was written. -/
  heap : Exec Unit
  /-- When a function is about to look up an element of the aggregate at an address. -/
  element : (function : String) → (address : Nat) → (indices : List Int64) → Exec Unit

section Watching

variable (watch : Watcher)

def locateWatched (function : String) (address : Nat) (indices : List Int64) : Exec Nat := do
  watch.element function address indices
  locate function address indices

def newAggregateWatched (dims : List Int64) : Exec Value := do
  let value ← newAggregate dims
  watch.heap
  return value

mutual

def evalWatched (caller : Caller) (f : Function) (frame : Frame) : Expr → Exec Value
  | .binary operator left right => do
    let first ← asInt (← evalWatched caller f frame left)
    let second ← asInt (← evalWatched caller f frame right)
    return .int (operator.apply first second)
  | .access base offsets => do
    let address ← asAddress (.indexOfNonArray f.name) (← evalWatched caller f frame base)
    let indices ← evalEachWatched caller f frame asInt offsets
    let index ← locateWatched watch f.name address indices
    return (← aggregateAt address).read index
  | .call builtin callee args => do
    let values ← evalEachWatched caller f frame pure args
    match ← runCall caller f.name builtin callee (evalWatched caller f frame callee) values with
    | some value => return value
    | none => throw (.noResult f.name)
  | .newArray dims => do
    newAggregateWatched watch (← evalEachWatched caller f frame (dimensionSize f.name) dims)
  | .newTuple size => do
    let count ← asInt (← evalWatched caller f frame size)
    newAggregateWatched watch [if count < 0 then 0 else count]
  | .length base dim => do
    let address ← asAddress (.lengthOfNonArray f.name) (← evalWatched caller f frame base)
    let position ← asInt (← evalWatched caller f frame dim)
    match (← aggregateAt address).dims[position.toUInt64.toNat]? with
    | some size => return .int size
    | none => throw (.noDimension f.name position)
  -- There is nothing to watch at a leaf.
  | leaf => eval caller f frame leaf

def evalEachWatched {α : Type} (caller : Caller) (f : Function) (frame : Frame)
    (convert : Value → Exec α) : List Expr → Exec (List α)
  | [] => return []
  | expr :: exprs => do
    let first ← convert (← evalWatched caller f frame expr)
    return first :: (← evalEachWatched caller f frame convert exprs)

end

def assignWatched (caller : Caller) (f : Function) (frame : Frame) (target : Expr)
    (value : Value) : Exec Frame := do
  match target with
  | .access base offsets =>
    let address ← asAddress (.indexOfNonArray f.name) (← evalWatched watch caller f frame base)
    let indices ← evalEachWatched watch caller f frame asInt offsets
    let index ← locateWatched watch f.name address indices
    modify fun state => { state with heap := Heap.write state.heap address index value }
    watch.heap
    return frame
  | target => assign caller f frame target value

def executeWatched (caller : Caller) (f : Function) (frame : Frame) : Instruction → Exec Frame
  | .declare _ v => return { frame with vars := frame.vars.insert v (.int 0) }
  | .call builtin callee args => do
    let values ← evalEachWatched watch caller f frame pure args
    let _ ← runCall caller f.name builtin callee (evalWatched watch caller f frame callee) values
    return frame
  | .assign target source => do
    let value ← evalWatched watch caller f frame source
    assignWatched watch caller f frame target value

def finishWatched (caller : Caller) (f : Function) (frame : Frame) : Terminator → Exec Exit
  | .ret => return .leave none
  | .retValue value => return .leave (some (← evalWatched watch caller f frame value))
  | .jump target => jumpTo f target
  | .branch condition onTrue onFalse => do
    let n ← asInt (← evalWatched watch caller f frame condition)
    if n = 0 then jumpTo f onFalse else jumpTo f onTrue

def watched (limit : Nat) : Course :=
  { plain limit with
    arrive := do
      watch.heap
      tick limit
    execute := executeWatched watch
    finish := fun caller f frame _ terminator => finishWatched watch caller f frame terminator }

def runWatched (program : Program) (limit : Nat) (heap : Heap) (input : List Int64)
    (entry : String) (args : List Value) : Outcome :=
  (watched watch limit).run program (limit + 1) heap input entry args

end Watching

/-- A watcher that lets well-formed heaps pass, and all lookups in a well-formed aggregate that
form no number beyond 64 bits and find no place but inside of it. -/
structure Watcher.Patient (watch : Watcher) : Prop where
  heap : ∀ s, (∀ aggregate ∈ s.heap, aggregate.WellFormed) → watch.heap s = .ok () s
  element : ∀ function address indices s aggregate, s.heap[address]? = some aggregate →
    aggregate.WellFormed → Exact 0 indices aggregate.dims →
    (∀ place, elementIndex function aggregate indices = .ok place →
      place < aggregate.elements.size) →
    watch.element function address indices s = .ok () s

def Value.Within (size : Nat) : Value → Prop
  | .aggregate address => address < size
  | _ => True

structure Heap.Sound (heap : Heap) : Prop where
  wellFormed : ∀ aggregate ∈ heap, aggregate.WellFormed
  closed : ∀ aggregate ∈ heap, ∀ value ∈ aggregate.elements, value.Within heap.size

structure Frame.Within (size : Nat) (frame : Frame) : Prop where
  vars : ∀ v value, frame.vars.get? v = some value → value.Within size
  slots : ∀ slot value, frame.slots.get? slot = some value → value.Within size

def Returned (size : Nat) (result : Option Value) : Prop :=
  ∀ value ∈ result, value.Within size

def Exit.Within (size : Nat) : Exit → Prop
  | .leave result => Returned size result
  | .enter _ => True

section Sizes

variable {size size' : Nat}

theorem Value.Within.mono {value : Value} (within : value.Within size) (grows : size ≤ size') :
    value.Within size' := by
  cases value with
  | aggregate address => exact Nat.lt_of_lt_of_le within grows
  | int n => trivial
  | code name => trivial

theorem Frame.Within.mono {frame : Frame} (within : frame.Within size) (grows : size ≤ size') :
    frame.Within size' :=
  ⟨fun v value bound => (within.vars v value bound).mono grows,
    fun slot value bound => (within.slots slot value bound).mono grows⟩

theorem Frame.Within.insert_var {frame : Frame} (within : frame.Within size) (v : Var)
    {value : Value} (inside : value.Within size) :
    Frame.Within size { frame with vars := frame.vars.insert v value } := by
  refine ⟨fun w other bound => ?_, within.slots⟩
  rw [Bindings.get?_insert] at bound
  split at bound
  · cases bound
    exact inside
  · exact within.vars w other bound

theorem Frame.Within.insert_slot {frame : Frame} (within : frame.Within size) (slot : Slot)
    {value : Value} (inside : value.Within size) :
    Frame.Within size { frame with slots := frame.slots.insert slot value } := by
  refine ⟨within.vars, fun place other bound => ?_⟩
  rw [Bindings.get?_insert] at bound
  split at bound
  · cases bound
    exact inside
  · exact within.slots place other bound

theorem mem_of_get?_foldl_insert {pairs : List (Var × Value)} {start : Bindings Var Value}
    {v : Var} {value : Value}
    (bound : (pairs.foldl (fun bindings (key, value) => bindings.insert key value) start).get? v =
      some value) : start.get? v = some value ∨ (v, value) ∈ pairs := by
  induction pairs generalizing start with
  | nil => exact .inl bound
  | cons pair pairs ih =>
      rcases ih bound with before | later
      · rw [Bindings.get?_insert] at before
        split at before
        · rename_i same
          cases before
          exact .inr (same ▸ List.mem_cons_self ..)
        · exact .inl before
      · exact .inr (List.mem_cons_of_mem pair later)

theorem within_enter (f : Function) {args : List Value}
    (within : ∀ value ∈ args, value.Within size) : (Frame.enter f args).Within size := by
  refine ⟨fun v value bound => ?_, fun slot value bound => by cases bound⟩
  rcases mem_of_get?_foldl_insert bound with initial | listed
  · cases initial
  · exact within value (List.of_mem_zip listed).2

end Sizes

section Heaps

variable {heap : Heap}

theorem Heap.Sound.push (sound : heap.Sound) {dims : List Int64} {count : Nat}
    (nonneg : ∀ dim ∈ dims, 0 ≤ dim.toInt) (counted : extent? dims = some count) :
    Heap.Sound (heap.push ⟨dims, Array.replicate count (.int 0)⟩) := by
  constructor
  · intro aggregate member
    rcases Array.mem_push.mp member with old | rfl
    · exact sound.wellFormed aggregate old
    · exact wellFormed_replicate _ nonneg counted
  · intro aggregate member value element
    rw [Array.size_push]
    rcases Array.mem_push.mp member with old | rfl
    · exact (sound.closed aggregate old value element).mono (Nat.le_succ _)
    · rw [(Array.mem_replicate.mp element).2]
      trivial

theorem Heap.Sound.write (sound : heap.Sound) (address index : Nat) {value : Value}
    (inside : value.Within heap.size) : Heap.Sound (Heap.write heap address index value) := by
  have members : ∀ aggregate ∈ Heap.write heap address index value,
      ∃ old ∈ heap, aggregate = old ∨ aggregate = old.write index value := by
    intro aggregate member
    obtain ⟨place, found⟩ := Array.getElem?_of_mem member
    rw [Heap.write, Array.getElem?_modify] at found
    split at found
    · obtain ⟨old, there, rfl⟩ := Option.map_eq_some_iff.mp found
      exact ⟨old, Array.mem_of_getElem? there, .inr rfl⟩
    · exact ⟨aggregate, Array.mem_of_getElem? found, .inl rfl⟩
  constructor
  · intro aggregate member
    obtain ⟨old, there, rfl | rfl⟩ := members aggregate member
    · exact sound.wellFormed _ there
    · exact (sound.wellFormed _ there).write index value
  · intro aggregate member other element
    rw [Heap.write, Array.size_modify]
    obtain ⟨old, there, rfl | rfl⟩ := members aggregate member
    · exact sound.closed _ there other element
    · rcases Array.mem_or_eq_of_mem_setIfInBounds element with kept | rfl
      · exact sound.closed _ there other kept
      · exact inside

theorem Heap.aggregate_mem {address : Nat} (inside : address < heap.size) :
    Heap.aggregate heap address ∈ heap := by
  rw [Heap.aggregate, Array.getD_eq_getD_getElem?, Array.getElem?_eq_getElem inside]
  exact Array.getElem_mem inside

end Heaps

/-- From every sound heap of at least some size, the watched execution does what the other does.
The heap stays sound and never shrinks, and what is returned fits the heap that is left. -/
def Safe {α : Type} (size : Nat) (post : Nat → α → Prop) (watched plain : Exec α) : Prop :=
  ∀ s, size ≤ s.heap.size → s.heap.Sound →
    watched s = plain s ∧ (endState (plain s)).heap.Sound ∧
    s.heap.size ≤ (endState (plain s)).heap.size ∧
    ∀ a s', plain s = .ok a s' → post s'.heap.size a

namespace Safe

variable {α β : Type} {size : Nat} {post : Nat → α → Prop} {final : Nat → β → Prop}

theorem of_pure {a : α} (holds : ∀ n, size ≤ n → post n a) :
    Safe size post (pure a) (pure a) := by
  intro s large sound
  refine ⟨rfl, sound, le_rfl, fun b s' ran => ?_⟩
  cases ran
  exact holds _ large

theorem of_throw (fault : Fault) : Safe size post (throw fault : Exec α) (throw fault) :=
  fun _ _ sound => ⟨rfl, sound, le_rfl, nofun⟩

theorem of_get : Safe size (fun n state => state.heap.size = n ∧ state.heap.Sound) get get := by
  intro s large sound
  refine ⟨rfl, sound, le_rfl, fun b s' ran => ?_⟩
  cases ran
  exact ⟨rfl, sound⟩

theorem of_modifyGet {change : State → α × State}
    (keeps : ∀ s, size ≤ s.heap.size → s.heap.Sound → (change s).2.heap.Sound ∧
      s.heap.size ≤ (change s).2.heap.size ∧ post (change s).2.heap.size (change s).1) :
    Safe size post (modifyGet change) (modifyGet change) := by
  intro s large sound
  obtain ⟨sound', grows, holds⟩ := keeps s large sound
  refine ⟨rfl, sound', grows, fun b s' ran => ?_⟩
  cases ran
  exact holds

theorem of_bind {x y : Exec α} {f g : α → Exec β} (first : Safe size post x y)
    (next : ∀ n a, size ≤ n → post n a → Safe n final (f a) (g a)) :
    Safe size final (x >>= f) (y >>= g) := by
  intro s large sound
  obtain ⟨same, sound', grows, holds⟩ := first s large sound
  cases ran : y s with
  | error fault s' =>
      rw [ran] at same sound' grows
      rw [bind_of_error same, bind_of_error ran]
      exact ⟨rfl, sound', grows, nofun⟩
  | ok a s' =>
      rw [ran] at same sound' grows
      rw [bind_of_ok same, bind_of_ok ran]
      obtain ⟨same', sound'', grows', holds'⟩ :=
        next s'.heap.size a (large.trans grows) (holds a s' ran) s' le_rfl sound'
      exact ⟨same', sound'', grows.trans grows', holds'⟩

theorem after_heap {watch : Watcher} (patient : watch.Patient) {x y : Exec α}
    (rest : Safe size post x y) : Safe size post (do watch.heap; x) y := by
  intro s large sound
  rw [bind_of_ok (patient.heap s sound.wellFormed)]
  exact rest s large sound

end Safe

section Operations

variable {size : Nat}

theorem safe_modify {change : State → State} (kept : ∀ s, (change s).heap = s.heap) :
    Safe size (fun _ _ => True) (modify change) (modify change) :=
  .of_modifyGet fun s _ sound => ⟨kept s ▸ sound, (kept s).symm ▸ le_rfl, trivial⟩

theorem safe_liftFault {α : Type} (result : Except Fault α) :
    Safe size (fun _ _ => True) (liftFault result) (liftFault result) := by
  cases result with
  | ok a => exact .of_pure fun _ _ => trivial
  | error fault => exact .of_throw fault

theorem safe_notInteger (value : Value) :
    Safe size (fun _ _ => True)
      (do throw (.notInteger (← liftFault (value.text (← get).heap))) : Exec Int64)
      (do throw (.notInteger (← liftFault (value.text (← get).heap)))) :=
  .of_bind .of_get fun _ _ _ _ => .of_bind (safe_liftFault _) fun _ _ _ _ => .of_throw _

theorem safe_asInt (value : Value) :
    Safe size (fun _ _ => True) (asInt value) (asInt value) := by
  cases value with
  | int n => exact .of_pure fun _ _ => trivial
  | code name => exact safe_notInteger _
  | aggregate address => exact safe_notInteger _

theorem safe_asAddress (fault : Fault) {value : Value} (within : value.Within size) :
    Safe size (fun n address => address < n) (asAddress fault value) (asAddress fault value) := by
  cases value with
  | aggregate address => exact .of_pure fun n large => Nat.lt_of_lt_of_le within large
  | int n => exact .of_throw _
  | code name => exact .of_throw _

theorem safe_aggregateAt {address : Nat} (inside : address < size) :
    Safe size (fun n aggregate => ∀ value ∈ aggregate.elements, value.Within n)
      (aggregateAt address) (aggregateAt address) := by
  refine .of_bind .of_get fun n state large ⟨sized, sound⟩ => .of_pure fun m larger => ?_
  intro value element
  have member : Heap.aggregate state.heap address ∈ state.heap :=
    Heap.aggregate_mem (sized ▸ Nat.lt_of_lt_of_le inside large)
  exact (sound.closed _ member value element).mono (sized ▸ larger)

theorem within_read {aggregate : Aggregate}
    (within : ∀ value ∈ aggregate.elements, value.Within size) (index : Nat) :
    (aggregate.read index).Within size := by
  rw [Aggregate.read, Array.getD_eq_getD_getElem?]
  cases found : aggregate.elements[index]? with
  | none => trivial
  | some value => exact within value (Array.mem_of_getElem? found)

theorem safe_dimensionSize (function : String) (value : Value) :
    Safe size (fun _ dim => 0 ≤ dim.toInt) (dimensionSize function value)
      (dimensionSize function value) := by
  refine .of_bind (safe_asInt value) fun n dim large _ => ?_
  split
  · exact .of_throw _
  · rename_i nonneg
    rw [Int64.lt_iff_toInt_lt, Int64.toInt_zero, not_lt] at nonneg
    exact .of_pure fun _ _ => nonneg

theorem safe_newAggregate {dims : List Int64} (nonneg : ∀ dim ∈ dims, 0 ≤ dim.toInt) :
    Safe size Value.Within (newAggregate dims) (newAggregate dims) := by
  unfold newAggregate
  split
  · exact .of_throw _
  · rename_i count counted
    refine .of_modifyGet fun s large sound => ⟨sound.push nonneg counted, ?_, ?_⟩
    · rw [Array.size_push]
      exact Nat.le_succ _
    · exact Nat.lt_of_lt_of_eq (Nat.lt_succ_self _) (Array.size_push _).symm

theorem safe_runBuiltin (function : String) (callee : Expr) (args : List Value) :
    Safe size Returned (runBuiltin function callee args) (runBuiltin function callee args) := by
  unfold runBuiltin
  cases callee.label?.bind Builtin.ofName? with
  | none => exact .of_throw _
  | some builtin =>
      cases builtin with
      | print =>
          refine .of_bind .of_get fun _ _ _ _ => ?_
          refine .of_bind (safe_liftFault _) fun _ texts _ _ => ?_
          refine .of_bind (safe_modify fun _ => rfl) fun _ _ _ _ => ?_
          exact .of_pure fun _ _ => nofun
      | input =>
          refine .of_bind .of_get fun _ _ _ _ => ?_
          split
          · exact .of_throw _
          · refine .of_bind (safe_modify fun _ => rfl) fun _ _ _ _ => ?_
            refine .of_pure fun _ _ value member => ?_
            cases member
            trivial
      | tensorError => exact .of_throw _

theorem safe_jumpTo (f : Function) (target : Expr) :
    Safe size Exit.Within (jumpTo f target) (jumpTo f target) := by
  unfold jumpTo
  split
  · exact .of_pure fun _ _ => trivial
  · exact .of_throw _

theorem safe_tick (limit : Nat) : Safe size (fun _ _ => True) (tick limit) (tick limit) := by
  refine .of_bind (safe_modify fun _ => rfl) fun _ _ _ _ => ?_
  refine .of_bind .of_get fun _ _ _ _ => ?_
  split
  · exact .of_throw _
  · exact .of_pure fun _ _ => trivial

end Operations

section Evaluation

variable {watch : Watcher}

theorem safe_locate (patient : watch.Patient) (function : String) {size address : Nat}
    (inside : address < size) (indices : List Int64) :
    Safe size (fun _ _ => True) (locateWatched watch function address indices)
      (locate function address indices) := by
  intro s large sound
  have there : address < s.heap.size := Nat.lt_of_lt_of_le inside large
  have wellFormed := sound.wellFormed _ (Array.getElem_mem there)
  rw [locateWatched, bind_of_ok (patient.element function address indices s _
    (Array.getElem?_eq_getElem there) wellFormed (wellFormed.addressed.exact indices)
    (wellFormed.addressed.below function indices))]
  have plain : Safe size (fun _ _ => True) (locate function address indices)
      (locate function address indices) := by
    refine .of_bind (safe_aggregateAt inside) fun n aggregate _ _ => ?_
    refine .of_bind (safe_liftFault _) fun m place _ _ => ?_
    split
    · exact .of_pure fun _ _ => trivial
    · exact .of_throw _
  exact plain s large sound

theorem safe_newAggregateWatched (patient : watch.Patient) {size : Nat} {dims : List Int64}
    (nonneg : ∀ dim ∈ dims, 0 ≤ dim.toInt) :
    Safe size Value.Within (newAggregateWatched watch dims) (newAggregate dims) := by
  rw [← bind_pure (newAggregate dims)]
  refine .of_bind (safe_newAggregate nonneg) fun n value large within => ?_
  exact .after_heap patient (.of_pure fun m larger => within.mono larger)

variable {caller caller' : Caller} {f : Function} {frame : Frame}

def CallsSafe (caller caller' : Caller) : Prop :=
  ∀ name args size, (∀ value ∈ args, value.Within size) →
    Safe size Returned (caller name args) (caller' name args)

theorem safe_runCall (calls : CallsSafe caller caller') {size : Nat} (function : String)
    (builtin : Bool) (callee : Expr) {target target' : Exec Value}
    (found : Safe size Value.Within target target') {args : List Value}
    (within : ∀ value ∈ args, value.Within size) :
    Safe size Returned (runCall caller function builtin callee target args)
      (runCall caller' function builtin callee target' args) := by
  unfold runCall
  cases builtin with
  | true => exact safe_runBuiltin function callee args
  | false =>
      refine .of_bind found fun n value large _ => ?_
      cases value with
      | code name => exact calls name args n fun value member => (within value member).mono large
      | int n => exact .of_throw _
      | aggregate address => exact .of_throw _

mutual

theorem safe_eval (patient : watch.Patient) (calls : CallsSafe caller caller') :
    ∀ (expr : Expr) {size : Nat}, frame.Within size → Safe size Value.Within
      (evalWatched watch caller f frame expr) (eval caller' f frame expr)
  | .type _, _, _ => by
      simp only [evalWatched, eval]
      exact .of_throw _
  | .const n, _, _ => by
      simp only [evalWatched, eval]
      exact .of_pure fun _ _ => trivial
  | .label name, _, _ => by
      simp only [evalWatched, eval]
      split
      · exact .of_pure fun _ _ => trivial
      · exact .of_throw _
  | .var v, _, within => by
      simp only [evalWatched, eval]
      split
      · rename_i value bound
        exact .of_pure fun n large => (within.vars v value bound).mono large
      · exact .of_throw _
  | .slot slot, _, within => by
      simp only [evalWatched, eval]
      split
      · rename_i value bound
        exact .of_pure fun n large => (within.slots slot value bound).mono large
      · exact .of_throw _
  | .binary operator left right, _, within => by
      simp only [evalWatched, eval]
      refine .of_bind (safe_eval patient calls left within) fun n value large _ => ?_
      refine .of_bind (safe_asInt value) fun m first larger _ => ?_
      refine .of_bind (safe_eval patient calls right (within.mono (large.trans larger)))
        fun _ value _ _ => ?_
      exact .of_bind (safe_asInt value) fun _ second _ _ => .of_pure fun _ _ => trivial
  | .access base offsets, _, within => by
      simp only [evalWatched, eval]
      refine .of_bind (safe_eval patient calls base within) fun n value large inside => ?_
      refine .of_bind (safe_asAddress _ inside) fun m address larger inside => ?_
      refine .of_bind (safe_evalEach patient calls (fun _ _ _ _ => id) (fun _ _ _ => safe_asInt _)
        offsets (within.mono (large.trans larger))) fun k indices more _ => ?_
      refine .of_bind (safe_locate patient _ (inside.trans_le more) indices)
        fun j index most _ => ?_
      refine .of_bind (safe_aggregateAt (inside.trans_le (more.trans most)))
        fun i aggregate _ elements => ?_
      exact .of_pure fun h last => (within_read elements index).mono last
  | .call builtin callee args, _, within => by
      simp only [evalWatched, eval]
      refine .of_bind (safe_evalEach patient calls (fun _ _ _ grows inside => inside.mono grows)
        (fun _ _ inside => .of_pure fun _ large => inside.mono large) args within)
        fun n values large inside => ?_
      refine .of_bind (safe_runCall calls _ builtin callee
        (safe_eval patient calls callee (within.mono large)) inside)
        fun m result larger inside => ?_
      cases result with
      | some value => exact .of_pure fun k more => (inside value rfl).mono more
      | none => exact .of_throw _
  | .newArray dims, _, within => by
      simp only [evalWatched, eval]
      refine .of_bind (safe_evalEach patient calls (fun _ _ _ _ => id)
        (fun _ _ _ => safe_dimensionSize _ _) dims within) fun n sizes large nonneg => ?_
      exact safe_newAggregateWatched patient nonneg
  | .newTuple size, _, within => by
      simp only [evalWatched, eval]
      refine .of_bind (safe_eval patient calls size within) fun n value large _ => ?_
      refine .of_bind (safe_asInt value) fun m count larger _ => ?_
      refine safe_newAggregateWatched patient ?_
      rw [List.forall_mem_singleton]
      split
      · exact le_rfl
      · rename_i nonneg
        rwa [Int64.lt_iff_toInt_lt, Int64.toInt_zero, not_lt] at nonneg
  | .length base dim, _, within => by
      simp only [evalWatched, eval]
      refine .of_bind (safe_eval patient calls base within) fun n value large inside => ?_
      refine .of_bind (safe_asAddress _ inside) fun m address larger inside => ?_
      refine .of_bind (safe_eval patient calls dim (within.mono (large.trans larger)))
        fun k value more _ => ?_
      refine .of_bind (safe_asInt value) fun j position most _ => ?_
      refine .of_bind (safe_aggregateAt (inside.trans_le (more.trans most)))
        fun i aggregate _ _ => ?_
      cases aggregate.dims[position.toUInt64.toNat]? with
      | some size => exact .of_pure fun _ _ => trivial
      | none => exact .of_throw _

theorem safe_evalEach {α : Type} (patient : watch.Patient) (calls : CallsSafe caller caller')
    {convert : Value → Exec α} {post : Nat → α → Prop}
    (grow : ∀ n m a, n ≤ m → post n a → post m a)
    (converts : ∀ n value, value.Within n → Safe n post (convert value) (convert value)) :
    ∀ (exprs : List Expr) {size : Nat}, frame.Within size →
      Safe size (fun n values => ∀ a ∈ values, post n a)
        (evalEachWatched watch caller f frame convert exprs)
        (evalEach caller' f frame convert exprs)
  | [], _, _ => by
      simp only [evalEachWatched, evalEach]
      exact .of_pure fun _ _ => nofun
  | expr :: exprs, _, within => by
      simp only [evalEachWatched, evalEach]
      refine .of_bind (safe_eval patient calls expr within) fun n value large inside => ?_
      refine .of_bind (converts n value inside) fun m first larger holds => ?_
      refine .of_bind (safe_evalEach patient calls grow converts exprs
        (within.mono (large.trans larger))) fun k rest more others => ?_
      exact .of_pure fun i most => List.forall_mem_cons.mpr
        ⟨grow _ _ _ (more.trans most) holds, fun a member => grow _ _ _ most (others a member)⟩

end

variable (patient : watch.Patient) (calls : CallsSafe caller caller')
include patient calls

theorem safe_assign (target : Expr) {size : Nat} (within : frame.Within size) {value : Value}
    (inside : value.Within size) :
    Safe size Frame.Within (assignWatched watch caller f frame target value)
      (assign caller' f frame target value) := by
  cases target with
  | var v => exact .of_pure fun n large => (within.mono large).insert_var v (inside.mono large)
  | slot slot =>
      exact .of_pure fun n large => (within.mono large).insert_slot slot (inside.mono large)
  | access base offsets =>
      simp only [assignWatched, assign]
      refine .of_bind (safe_eval patient calls base within) fun n found large there => ?_
      refine .of_bind (safe_asAddress _ there) fun m address larger there => ?_
      refine .of_bind (safe_evalEach patient calls (fun _ _ _ _ => id) (fun _ _ _ => safe_asInt _)
        offsets (within.mono (large.trans larger))) fun k indices more _ => ?_
      refine .of_bind (safe_locate patient _ (there.trans_le more) indices)
        fun j index most _ => ?_
      have sizes : size ≤ j := ((large.trans larger).trans more).trans most
      have writes : Safe j (fun n _ => j ≤ n)
          (modify fun s => { s with heap := Heap.write s.heap address index value })
          (modify fun s => { s with heap := Heap.write s.heap address index value }) := by
        refine .of_modifyGet fun s enough sound => ?_
        refine ⟨sound.write address index (inside.mono (sizes.trans enough)), ?_, ?_⟩
        · exact (Array.size_modify ..).ge
        · exact enough.trans (Array.size_modify ..).ge
      refine .of_bind writes fun i _ _ _ => ?_
      exact .after_heap patient (.of_pure fun h last => within.mono (by omega))
  | _ => exact .of_throw _

theorem safe_execute (instruction : Instruction) {size : Nat} (within : frame.Within size) :
    Safe size Frame.Within (executeWatched watch caller f frame instruction)
      (execute caller' f frame instruction) := by
  cases instruction with
  | declare ty v => exact .of_pure fun n large => (within.mono large).insert_var v trivial
  | call builtin callee args =>
      simp only [executeWatched, execute]
      refine .of_bind (safe_evalEach patient calls (fun _ _ _ grows inside => inside.mono grows)
        (fun _ _ inside => .of_pure fun _ large => inside.mono large) args within)
        fun n values large inside => ?_
      refine .of_bind (safe_runCall calls _ builtin callee
        (safe_eval patient calls callee (within.mono large)) inside) fun m result larger _ => ?_
      exact .of_pure fun k more => within.mono ((large.trans larger).trans more)
  | assign target source =>
      simp only [executeWatched, execute]
      refine .of_bind (safe_eval patient calls source within) fun n value large inside => ?_
      exact safe_assign patient calls target (within.mono large) inside

theorem safe_finish (terminator : Terminator) {size : Nat} (within : frame.Within size) :
    Safe size Exit.Within (finishWatched watch caller f frame terminator)
      (finish caller' f frame terminator) := by
  cases terminator with
  | ret => exact .of_pure fun _ _ => nofun
  | retValue value =>
      simp only [finishWatched, finish]
      refine .of_bind (safe_eval patient calls value within) fun n found large inside => ?_
      refine .of_pure fun m larger other member => ?_
      cases member
      exact inside.mono larger
  | jump target => exact safe_jumpTo f target
  | branch condition onTrue onFalse =>
      simp only [finishWatched, finish]
      refine .of_bind (safe_eval patient calls condition within) fun n value large _ => ?_
      refine .of_bind (safe_asInt value) fun m number larger _ => ?_
      split
      · exact safe_jumpTo f onFalse
      · exact safe_jumpTo f onTrue

end Evaluation

section Runs

variable {watch : Watcher} {program : Program} {limit fuel : Nat}

theorem safe_dispatch {enter enter' : Function → Frame → Exec (Option Value)}
    (enters : ∀ f frame size, frame.Within size →
      Safe size Returned (enter f frame) (enter' f frame)) :
    CallsSafe (dispatch program enter) (dispatch program enter') := by
  intro name args size within
  unfold dispatch
  split
  · exact .of_throw _
  · split
    · exact enters _ _ size (within_enter _ within)
    · exact .of_throw _

theorem safe_arrive (patient : watch.Patient) (size : Nat) :
    Safe size (fun _ _ => True) (watched watch limit).arrive (tick limit) :=
  .after_heap patient (safe_tick limit)

theorem safe_resume (patient : watch.Patient) (f : Function) (frame : Frame) (b i size : Nat)
    (within : frame.Within size) :
    Safe size Returned ((watched watch limit).resume program fuel f frame b i)
      (resume program limit fuel f frame b i) := by
  induction fuel generalizing f frame b i size with
  | zero => exact .of_throw _
  | succ fuel ih =>
      have calls : CallsSafe ((watched watch limit).caller program fuel)
          (callerWith program limit fuel) :=
        safe_dispatch fun f frame size within => ih f frame 0 0 size within
      cases found : f.blocks[b]? with
      | none =>
          rw [Course.resume_absent found, resume_absent found]
          exact .of_throw _
      | some block =>
          cases here : block.instrs[i]? with
          | some instruction =>
              rw [Course.resume_instruction found here, resume_instruction found here]
              refine .of_bind (safe_arrive patient size) fun n _ large _ => ?_
              refine .of_bind (safe_execute patient calls instruction (within.mono large)) ?_
              exact fun m next larger inside => ih f next b (i + 1) m inside
          | none =>
              rw [Course.resume_terminator found here, resume_terminator found here]
              refine .of_bind (safe_arrive patient size) fun n _ large _ => ?_
              refine .of_bind (safe_finish patient calls block.terminator (within.mono large)) ?_
              intro m exit larger inside
              cases exit with
              | leave result => exact .of_pure fun k more value member =>
                  (inside value member).mono more
              | enter next => exact ih f frame next 0 m (within.mono (large.trans larger))

theorem safe_caller (patient : watch.Patient) :
    CallsSafe ((watched watch limit).caller program fuel) (callerWith program limit fuel) :=
  safe_dispatch fun f frame size within => safe_resume patient f frame 0 0 size within

end Runs

def idle : Watcher := ⟨pure (), fun _ _ _ => pure ()⟩

theorem idle_patient : idle.Patient :=
  ⟨fun _ _ => rfl, fun _ _ _ _ _ _ _ _ _ => rfl⟩

theorem heap_outcome (entry : String) (x : Exec (Option Value)) (heap : Heap)
    (input : List Int64) :
    (outcome entry x heap input).heap =
      (endState (x.run { heap := heap, input := input })).heap := by
  unfold outcome
  split <;> simp only [endState, *]

/-- In a run from a sound heap every aggregate is well-formed at every point and after every
change, and whenever an element is looked up nothing wraps around and the place that is found is
inside of the aggregate: a watcher that lets all this pass makes no difference. All that is left
in the end is well-formed too. In a well-formed aggregate indices are places, one to one. -/
theorem run_wellFormed_addressed (program : Program) (limit : Nat) (heap : Heap)
    (input : List Int64) (entry : String) (args : List Value) (sound : heap.Sound)
    (within : ∀ value ∈ args, value.Within heap.size) :
    (∀ watch : Watcher, watch.Patient →
      runWatched watch program limit heap input entry args =
        run program limit heap input entry args) ∧
    (∀ aggregate ∈ (run program limit heap input entry args).heap, aggregate.WellFormed) ∧
    ∀ aggregate : Aggregate, aggregate.WellFormed → aggregate.Addressed := by
  refine ⟨fun watch patient => ?_, ?_, fun aggregate wellFormed => wellFormed.addressed⟩
  · obtain ⟨same, -⟩ := safe_caller patient entry args heap.size within
      { heap := heap, input := input } le_rfl sound
    rw [runWatched, Course.run, run_eq_outcome, outcome, outcome, EStateM.run, same]
    rfl
  · obtain ⟨-, sound', -⟩ := safe_caller idle_patient entry args heap.size within
      { heap := heap, input := input } le_rfl sound
    rw [run_eq_outcome, heap_outcome]
    exact sound'.wellFormed

def corner : Program :=
  ⟨[⟨"@main", ⟨.int64, 0⟩, [⟨⟨.int64, 2⟩, ⟨0⟩⟩],
      [⟨":e", [.assign (.access (.var ⟨0⟩) [.const 1, .const 2]) (.var ⟨0⟩),
          .assign (.var ⟨1⟩) (.newArray [.const 4611686018427387904, .const 0]),
          .assign (.var ⟨1⟩) (.access (.var ⟨1⟩) [.const 4611686018427387903, .const 0])],
        .ret⟩],
      ⟨["%a", "%b"], 0⟩⟩]⟩

def grid : Heap := #[⟨[2, 3], Array.replicate 6 (.int 0)⟩]

theorem grid_sound : grid.Sound := by
  have empty : Heap.Sound #[] := ⟨by simp, by simp⟩
  have nonneg : ∀ dim ∈ ([2, 3] : List Int64), 0 ≤ dim.toInt := by
    simp only [List.forall_mem_cons]
    exact ⟨by decide, by decide, by simp⟩
  exact empty.push nonneg rfl

/-- The lookup in the corner is out of bounds, with and without a watcher, unless that minds
lookups as such. -/
theorem run_wellFormed_addressed_corner :
    (run corner 20 grid [] "@main" [.aggregate 0]).result = .error (.outOfBounds "@main" 0 0) ∧
    (runWatched ⟨pure (), fun function _ _ => throw (.tensorError function)⟩ corner 20 grid []
      "@main" [.aggregate 0]).result = .error (.tensorError "@main") ∧
    (∀ watch : Watcher, watch.Patient → runWatched watch corner 20 grid [] "@main" [.aggregate 0] =
      run corner 20 grid [] "@main" [.aggregate 0]) ∧
    ∀ aggregate ∈ (run corner 20 grid [] "@main" [.aggregate 0]).heap, aggregate.Addressed := by
  obtain ⟨same, wellFormed, addressed⟩ :=
    run_wellFormed_addressed corner 20 grid [] "@main" [.aggregate 0] grid_sound (by
      rw [List.forall_mem_singleton]
      exact Nat.one_pos)
  exact ⟨by decide +kernel, by decide +kernel, same,
    fun aggregate member => addressed aggregate (wellFormed aggregate member)⟩

end Regalloc.Machine
