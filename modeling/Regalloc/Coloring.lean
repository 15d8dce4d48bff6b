import Regalloc.Interference

/-!
# Coloring

Variables are taken out of the graph one by one. One with fewer neighbors than there are colors is
sure to find a color once the rest is colored; if there is none, the variable that is cheapest to
spill goes and may turn out to find no color. Then they are put back in the opposite order. Each
gets the first register that no neighbor holds, and is spilled if it may be and there is none.
-/

namespace Regalloc

/-- The registers of the colored variables, and the variables that found none. -/
structure Coloring where
  colors : Bindings Var Register := {}
  spilled : VarSet := ∅
  deriving DecidableEq, Repr

namespace Coloring

structure Candidate where
  v : Var
  /-- How often the function defines or uses it. -/
  uses : Nat
  /-- How many neighbors it has left. -/
  degree : Nat
  deriving DecidableEq, Repr

structure Removal where
  v : Var
  /-- Whether it had as many neighbors as there are colors, so that it may have to be spilled. -/
  risky : Bool
  deriving DecidableEq, Repr

def candidates (graph : Interference) (uses : Var → Nat) : List Candidate :=
  (IndexSet.ofList graph.vars).toList.map fun v => ⟨v, uses v, graph.degree (.var v)⟩

/-- Whether the first candidate has strictly fewer uses per neighbor than the second, as far as the
products that tell do not wrap around. -/
def Candidate.cheaper (first second : Candidate) : Bool :=
  first.uses * second.degree % Text.wordBound < second.uses * first.degree % Text.wordBound

def better (best : Option Candidate) (candidate : Candidate) : Option Candidate :=
  match best with
  | none => some candidate
  | some best => if candidate.cheaper best then some candidate else some best

/-- The candidates that may be spilled: temporaries of earlier spills only if nothing else is
left. -/
def spillable (temporaries : VarSet) (candidates : List Candidate) : List Candidate :=
  let lasting := candidates.filter fun candidate => !temporaries.contains candidate.v
  if lasting.isEmpty then candidates else lasting

/-- The candidate with the fewest uses per neighbor, of several the first. -/
def chooseSpill (temporaries : VarSet) (candidates : List Candidate) : Option Var :=
  ((spillable temporaries candidates).foldl better none).map Candidate.v

/-- The next variable to take out: the first that is sure of a color, or else the one to spill. -/
def nextRemoval (temporaries : VarSet) (colors : Nat) (candidates : List Candidate) :
    Option Removal :=
  match candidates.find? fun candidate => candidate.degree < colors with
  | some candidate => some ⟨candidate.v, false⟩
  | none => (chooseSpill temporaries candidates).map fun v => ⟨v, true⟩

def remove (graph : Interference) (v : Var) (candidates : List Candidate) : List Candidate :=
  let neighbors := graph.neighborSet (.var v)
  (candidates.filter fun candidate => candidate.v != v).map fun candidate =>
    if neighbors.contains (.var candidate.v) then
      { candidate with degree := candidate.degree - 1 }
    else candidate

def removals (graph : Interference) (temporaries : VarSet) (colors : Nat) :
    (count : Nat) → List Candidate → List Removal
  | 0, _ => []
  | count + 1, candidates =>
    match nextRemoval temporaries colors candidates with
    | none => []
    | some removal =>
      removal :: removals graph temporaries colors count (remove graph removal.v candidates)

def simplify (graph : Interference) (uses : Var → Nat) (temporaries : VarSet) (colors : Nat) :
    List Removal :=
  let candidates := candidates graph uses
  removals graph temporaries colors candidates.length candidates

def color (coloring : Coloring) (v : Var) : Option Register :=
  coloring.colors.get? v

def assign (coloring : Coloring) (v : Var) (register : Register) : Coloring :=
  { coloring with colors := coloring.colors.insert v register }

def spill (coloring : Coloring) (v : Var) : Coloring :=
  { coloring with spilled := coloring.spilled.insert v }

@[simp] theorem color_assign (coloring : Coloring) (v other : Var) (register : Register) :
    (coloring.assign v register).color other =
      if other = v then some register else coloring.color other :=
  Bindings.get?_insert coloring.colors v other register

@[simp] theorem color_spill (coloring : Coloring) (v other : Var) :
    (coloring.spill v).color other = coloring.color other :=
  rfl

def holds (coloring : Coloring) : Node → Option Register
  | .register r => some r
  | .var v => coloring.color v

def taken (coloring : Coloring) (graph : Interference) (v : Var) : List Register :=
  (graph.neighbors (.var v)).filterMap coloring.holds

def free? (coloring : Coloring) (graph : Interference) (target : Target) (v : Var) :
    Option Register :=
  let taken := coloring.taken graph v
  target.allocatable.find? fun register => !taken.contains register

def selectFrom (f : Function) (graph : Interference) (target : Target) :
    List Removal → Coloring → Logged Coloring
  | [], coloring => return coloring
  | removal :: rest, coloring =>
    match coloring.free? graph target removal.v with
    | some register => selectFrom f graph target rest (coloring.assign removal.v register)
    | none =>
      if removal.risky then do
        Logged.report (.actualSpill f.name (f.vars.name removal.v))
        selectFrom f graph target rest (coloring.spill removal.v)
      else Logged.fail (.noColorLeft f.name (f.vars.name removal.v) target.colorCount)

/-- Colors the variables that were taken out, the last of them first. -/
def select (f : Function) (graph : Interference) (target : Target) (removals : List Removal) :
    Logged Coloring :=
  selectFrom f graph target removals.reverse {}

end Coloring

end Regalloc
