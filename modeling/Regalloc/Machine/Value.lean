import Regalloc.Bindings
import Regalloc.Error
import Regalloc.Program.Render

/-!
# Values

Integers, functions, and arrays and tuples. Arrays and tuples live in a heap and are shared: a
value only holds the address of one.
-/

namespace Regalloc.Machine

inductive Value where
  | int (n : Int64)
  | code (name : String)
  | aggregate (address : Nat)
  deriving DecidableEq, Repr

instance : Inhabited Value := ⟨.int 0⟩

/-- An array, its elements in row-major order. A tuple has one dimension. -/
structure Aggregate where
  dims : List Int64
  elements : Array Value
  deriving DecidableEq, Repr

instance : Inhabited Aggregate := ⟨⟨[], #[]⟩⟩

abbrev Heap := Array Aggregate

def Heap.aggregate (heap : Heap) (address : Nat) : Aggregate :=
  heap.getD address default

def Aggregate.read (aggregate : Aggregate) (index : Nat) : Value :=
  aggregate.elements.getD index default

def Aggregate.write (aggregate : Aggregate) (index : Nat) (value : Value) : Aggregate :=
  { aggregate with elements := aggregate.elements.setIfInBounds index value }

def Heap.write (heap : Heap) (address index : Nat) (value : Value) : Heap :=
  heap.modify address fun aggregate => aggregate.write index value

inductive Tree where
  | int (n : Int64)
  | code (name : String)
  | aggregate (dims : List Int64) (elements : List Tree)
  deriving Repr

namespace Tree

mutual

def render : Tree → String
  | .int n => Text.int64Text n
  | .code name => name
  | .aggregate _ elements =>
    "\x7bs:" ++ toString elements.length ++ String.join (renderAll elements) ++ "\x7d"

def renderAll : List Tree → List String
  | [] => []
  | tree :: trees => (", " ++ tree.render) :: renderAll trees

end

end Tree

/-- Writes a value out if there are at most `depth` aggregates inside each other. -/
def unfold (heap : Heap) : (depth : Nat) → Value → Option Tree
  | _, .int n => some (.int n)
  | _, .code name => some (.code name)
  | 0, .aggregate _ => none
  | depth + 1, .aggregate address => do
    let aggregate := Heap.aggregate heap address
    let elements ← aggregate.elements.toList.mapM (unfold heap depth)
    return .aggregate aggregate.dims elements

/-- Writes a value out. Where more aggregates than the heap has are inside each other, one of them
holds itself, and the writing out would never end. -/
def Value.tree? (heap : Heap) (value : Value) : Option Tree :=
  unfold heap (heap.size + 1) value

def Value.text (heap : Heap) (value : Value) : Except Fault String :=
  match value.tree? heap with
  | some tree => .ok tree.render
  | none => .error .endless

/-- The number of elements of an array; negative dimensions count as zero. There is none if the
product of the first dimensions leaves 63 bits or the whole exceeds the greatest size. -/
def extent? (dims : List Int64) : Option Nat := do
  let count ← dims.foldlM (fun count dim =>
    let product := count * dim.toInt.toNat
    if product < Text.int64Bound then some product else none) 1
  if count ≤ maxElements then some count else none

def flatIndex (function : String) (flat : Int64) :
    (indices dims : List Int64) → Except Fault Int64
  | index :: indices, dim :: dims =>
    if index < 0 ∨ dim ≤ index then .error (.outOfBounds function index dim)
    else flatIndex function (flat * dim + index) indices dims
  | _, _ => .ok flat

def elementIndex (function : String) (aggregate : Aggregate) (indices : List Int64) :
    Except Fault Nat := do
  if indices.length ≠ aggregate.dims.length then
    throw (.offsetCount function indices.length aggregate.dims.length)
  let flat ← flatIndex function 0 indices aggregate.dims
  return flat.toUInt64.toNat

end Regalloc.Machine
