import Regalloc.IndexSet

/-!
# Variables

The variables of a function are numbered in the order in which their names first appear. The
table of a function holds the names and mints fresh ones.
-/

namespace Regalloc

/-- A variable of one function, by its place in the function's table. -/
structure Var where
  index : Nat
  deriving DecidableEq, Repr

instance : Inhabited Var := ⟨⟨0⟩⟩

instance : Indexed Var where
  index := Var.index
  ofIndex := Var.mk
  ofIndex_index _ := rfl
  index_ofIndex _ := rfl

abbrev VarSet := IndexSet Var

/-- The names of a function's variables, by index, and the number the next fresh name is tried
with. -/
structure VarTable where
  names : List String := []
  counter : Nat := 0
  deriving DecidableEq, Repr

namespace VarTable

instance : Inhabited VarTable := ⟨{}⟩

def size (table : VarTable) : Nat :=
  table.names.length

def vars (table : VarTable) : List Var :=
  (List.range table.size).map Var.mk

def lookup (table : VarTable) (name : String) : Option Var :=
  (table.names.idxOf? name).map Var.mk

def intern (table : VarTable) (name : String) : Var × VarTable :=
  match table.lookup name with
  | some v => (v, table)
  | none => (⟨table.size⟩, { table with names := table.names ++ [name] })

def internAll (table : VarTable) (names : List String) : VarTable :=
  names.foldl (fun table name => (table.intern name).2) table

/-- The name of a variable; a variable that is not in the table has a name that no source text
can hold. -/
def name (table : VarTable) (v : Var) : String :=
  table.names.getD v.index "%<unknown>"

def freshName (stem : String) (number : Nat) : String :=
  stem ++ toString number

/-- How many candidates are passed over before a fresh name is found. Among one more candidate
than there are names, one is unused. -/
def skipped (table : VarTable) (stem : String) : Nat :=
  ((List.range (table.size + 1)).find? fun ahead =>
    !table.names.contains (freshName stem (table.counter + ahead))).getD table.size

def fresh (table : VarTable) (stem : String) : Var × VarTable :=
  let number := table.counter + table.skipped stem
  { table with counter := number + 1 }.intern (freshName stem number)

/-- Tables that hold the same names, in any order, and mint alike. -/
def sameNames (left right : VarTable) : Bool :=
  left.names.length == right.names.length && left.names.all right.names.contains &&
    left.counter == right.counter

end VarTable

end Regalloc
