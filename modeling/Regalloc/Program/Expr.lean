import Regalloc.Program.Variable

/-!
# Expressions

Operands and expressions are one type of trees. Source text nests them only one level deep; the
operations below take trees of any depth. Arithmetic on signed 64-bit numbers wraps around, a shift
takes its distance modulo 64, and a comparison gives one or zero. Types are written down and
printed back, and the allocator never looks at them.
-/

namespace Regalloc

inductive ValueKind where
  | int64
  | tuple
  | code
  | void
  deriving DecidableEq, Repr

structure ValueType where
  kind : ValueKind
  dims : Nat := 0
  deriving DecidableEq, Repr

namespace ValueKind

def all : List ValueKind :=
  [.int64, .tuple, .code, .void]

def text : ValueKind → String
  | .int64 => "int64"
  | .tuple => "tuple"
  | .code => "code"
  | .void => "void"

def ofText? (word : String) : Option ValueKind :=
  all.find? fun kind => kind.text == word

end ValueKind

/-- Only integers show their dimensions. -/
def ValueType.render (type : ValueType) : String :=
  match type.kind with
  | .int64 => type.kind.text ++ String.join (List.replicate type.dims "[]")
  | _ => type.kind.text

inductive Operator where
  | add | sub | mul | bitAnd | shl | shr | eq | lt | le | gt | ge
  deriving DecidableEq, Repr

namespace Operator

def all : List Operator :=
  [.add, .sub, .mul, .bitAnd, .shl, .shr, .eq, .lt, .le, .gt, .ge]

def symbol : Operator → String
  | .add => "+"
  | .sub => "-"
  | .mul => "*"
  | .bitAnd => "&"
  | .shl => "<<"
  | .shr => ">>"
  | .eq => "="
  | .lt => "<"
  | .le => "<="
  | .gt => ">"
  | .ge => ">="

def ofSymbol? (text : String) : Option Operator :=
  all.find? fun operator => operator.symbol == text

def truth (holds : Bool) : Int64 :=
  if holds then 1 else 0

def apply : Operator → Int64 → Int64 → Int64
  | .add, left, right => left + right
  | .sub, left, right => left - right
  | .mul, left, right => left * right
  | .bitAnd, left, right => left &&& right
  | .shl, left, right => left <<< right
  | .shr, left, right => left >>> right
  | .eq, left, right => truth (left == right)
  | .lt, left, right => truth (left < right)
  | .le, left, right => truth (left ≤ right)
  | .gt, left, right => truth (right < left)
  | .ge, left, right => truth (right ≤ left)

end Operator

inductive Builtin where
  | print
  | input
  | tensorError
  deriving DecidableEq, Repr

namespace Builtin

def all : List Builtin :=
  [.print, .input, .tensorError]

def name : Builtin → String
  | .print => "print"
  | .input => "input"
  | .tensorError => "tensor-error"

def ofName? (text : String) : Option Builtin :=
  all.find? fun builtin => builtin.name == text

end Builtin

/-- A word of the stack frame, counted from the stack pointer. -/
structure Slot where
  index : Nat
  deriving DecidableEq, Repr

/-- Slots are numbered with 32 bits. -/
def slotBound : Nat := 0x100000000

def Slot.offset (slot : Slot) : Nat :=
  8 * slot.index

inductive Expr where
  | type (ty : ValueType)
  | const (value : Int64)
  /-- A label `:x`, a function name `@f`, or the bare name of a built-in function. -/
  | label (name : String)
  | var (v : Var)
  | access (base : Expr) (offsets : List Expr)
  | binary (operator : Operator) (left right : Expr)
  | call (builtin : Bool) (callee : Expr) (args : List Expr)
  | newArray (dims : List Expr)
  | newTuple (size : Expr)
  | length (base dim : Expr)
  | slot (s : Slot)
  deriving Repr

instance : Inhabited Expr := ⟨.const 0⟩

inductive Leaf where
  | type (ty : ValueType)
  | const (value : Int64)
  | label (name : String)
  | var (v : Var)
  | slot (s : Slot)
  deriving DecidableEq, Repr

def Leaf.var? : Leaf → Option Var
  | .var v => some v
  | _ => none

def Leaf.slot? : Leaf → Option Slot
  | .slot s => some s
  | _ => none

namespace Expr

mutual

/-- The leaves from left to right; the callee of a call comes before its arguments. -/
def leaves : Expr → List Leaf
  | .type ty => [.type ty]
  | .const value => [.const value]
  | .label name => [.label name]
  | .var v => [.var v]
  | .slot s => [.slot s]
  | .access base offsets => base.leaves ++ leavesOfAll offsets
  | .binary _ left right => left.leaves ++ right.leaves
  | .call _ callee args => callee.leaves ++ leavesOfAll args
  | .newArray dims => leavesOfAll dims
  | .newTuple size => size.leaves
  | .length base dim => base.leaves ++ dim.leaves

def leavesOfAll : List Expr → List Leaf
  | [] => []
  | expr :: exprs => expr.leaves ++ leavesOfAll exprs

end

mutual

def mapVars (rename : Var → Var) : Expr → Expr
  | .type ty => .type ty
  | .const value => .const value
  | .label name => .label name
  | .var v => .var (rename v)
  | .slot s => .slot s
  | .access base offsets => .access (base.mapVars rename) (mapVarsOfAll rename offsets)
  | .binary operator left right => .binary operator (left.mapVars rename) (right.mapVars rename)
  | .call builtin callee args => .call builtin (callee.mapVars rename) (mapVarsOfAll rename args)
  | .newArray dims => .newArray (mapVarsOfAll rename dims)
  | .newTuple size => .newTuple (size.mapVars rename)
  | .length base dim => .length (base.mapVars rename) (dim.mapVars rename)

def mapVarsOfAll (rename : Var → Var) : List Expr → List Expr
  | [] => []
  | expr :: exprs => expr.mapVars rename :: mapVarsOfAll rename exprs

end

mutual

def same : Expr → Expr → Bool
  | .type left, .type right => left == right
  | .const left, .const right => left == right
  | .label left, .label right => left == right
  | .var left, .var right => left == right
  | .slot left, .slot right => left == right
  | .access base offsets, .access base' offsets' => base.same base' && sameAll offsets offsets'
  | .binary operator left right, .binary operator' left' right' =>
    operator == operator' && left.same left' && right.same right'
  | .call builtin callee args, .call builtin' callee' args' =>
    builtin == builtin' && callee.same callee' && sameAll args args'
  | .newArray dims, .newArray dims' => sameAll dims dims'
  | .newTuple size, .newTuple size' => size.same size'
  | .length base dim, .length base' dim' => base.same base' && dim.same dim'
  | _, _ => false

def sameAll : List Expr → List Expr → Bool
  | [], [] => true
  | left :: lefts, right :: rights => left.same right && sameAll lefts rights
  | _, _ => false

end

mutual

theorem eq_of_same : ∀ {left right : Expr}, left.same right = true → left = right
  | .type _, right, equal => by cases right <;> simp_all [same]
  | .const _, right, equal => by cases right <;> simp_all [same]
  | .label _, right, equal => by cases right <;> simp_all [same]
  | .var _, right, equal => by cases right <;> simp_all [same]
  | .slot _, right, equal => by cases right <;> simp_all [same]
  | .access _ _, right, equal => by
      cases right <;> simp [same] at equal
      rw [eq_of_same equal.1, eq_of_sameAll equal.2]
  | .binary _ _ _, other, equal => by
      cases other <;> simp [same] at equal
      rw [equal.1.1, eq_of_same equal.1.2, eq_of_same equal.2]
  | .call _ _ _, right, equal => by
      cases right <;> simp [same] at equal
      rw [equal.1.1, eq_of_same equal.1.2, eq_of_sameAll equal.2]
  | .newArray _, right, equal => by
      cases right <;> simp [same] at equal
      rw [eq_of_sameAll equal]
  | .newTuple _, right, equal => by
      cases right <;> simp [same] at equal
      rw [eq_of_same equal]
  | .length _ _, right, equal => by
      cases right <;> simp [same] at equal
      rw [eq_of_same equal.1, eq_of_same equal.2]

theorem eq_of_sameAll : ∀ {lefts rights : List Expr}, sameAll lefts rights = true → lefts = rights
  | [], [], _ => rfl
  | [], _ :: _, equal => by simp [sameAll] at equal
  | _ :: _, [], equal => by simp [sameAll] at equal
  | _ :: _, _ :: _, equal => by
      simp [sameAll] at equal
      rw [eq_of_same equal.1, eq_of_sameAll equal.2]

end

mutual

theorem same_refl : ∀ expr : Expr, expr.same expr = true
  | .type _ => by simp [same]
  | .const _ => by simp [same]
  | .label _ => by simp [same]
  | .var _ => by simp [same]
  | .slot _ => by simp [same]
  | .access base offsets => by simp [same, same_refl base, sameAll_refl offsets]
  | .binary _ left right => by simp [same, same_refl left, same_refl right]
  | .call _ callee args => by simp [same, same_refl callee, sameAll_refl args]
  | .newArray dims => by simp [same, sameAll_refl dims]
  | .newTuple size => by simp [same, same_refl size]
  | .length base dim => by simp [same, same_refl base, same_refl dim]

theorem sameAll_refl : ∀ exprs : List Expr, sameAll exprs exprs = true
  | [] => rfl
  | expr :: exprs => by simp [sameAll, same_refl expr, sameAll_refl exprs]

end

theorem same_iff_eq {left right : Expr} : left.same right = true ↔ left = right :=
  ⟨eq_of_same, fun equal => equal ▸ same_refl left⟩

instance : DecidableEq Expr := fun _ _ =>
  decidable_of_iff _ same_iff_eq

def varOccurrences (expr : Expr) : List Var :=
  expr.leaves.filterMap Leaf.var?

/-- The variables of an expression, each once, by first occurrence. -/
def vars (expr : Expr) : List Var :=
  expr.varOccurrences.eraseDups

def slots (expr : Expr) : List Slot :=
  expr.leaves.filterMap Leaf.slot?

def var? : Expr → Option Var
  | .var v => some v
  | _ => none

def label? : Expr → Option String
  | .label name => some name
  | _ => none

def isCall : Expr → Bool
  | .call .. => true
  | _ => false

/-- Variables and constants, which is what an operator may be applied to. -/
def isSimple : Expr → Bool
  | .var _ => true
  | .const _ => true
  | _ => false

end Expr

end Regalloc
