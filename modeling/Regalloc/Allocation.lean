import Regalloc.Coloring
import Regalloc.Spill

/-!
# Register allocation

Coloring is tried, the variables that found no color are spilled, and coloring is tried again on
the function that results, until every variable has a register. The function is then printed with
registers in place of its variables, under a line that gives the size of its frame.
-/

namespace Regalloc

/-- A function with a register for each of its variables. -/
structure Allocation where
  function : Function
  coloring : Coloring
  frameSlots : Nat
  rounds : Nat
  deriving DecidableEq, Repr

namespace Allocation

structure Config where
  target : Target := .full
  /-- What the names of temporaries start with. -/
  stem : String := "%S"
  /-- The most rounds of spilling; by default one for each variable of the function. -/
  maxRounds : Option Nat := none
  deriving DecidableEq, Repr

def frameSize (allocation : Allocation) : Nat :=
  8 * allocation.frameSlots

def color (config : Config) (rounds : Nat) (temporaries : VarSet) (f : Function) :
    Logged Coloring := do
  let (_, live) ← Liveness.analyze f
  let graph := Interference.build f live config.target
  Logged.report (.graphBuilt f.name rounds graph.size graph.edgeCount)
  let mentions := f.mentions
  let removals := Coloring.simplify graph (fun v => mentions.count v) temporaries
    config.target.colorCount
  Coloring.select f graph config.target removals

/-- A function that is colored, with a frame that ends above all of its slots. -/
def withFrame (config : Config) (f : Function) (coloring : Coloring) (rounds : Nat) :
    Logged Allocation := do
  let slots ← Spill.freeSlot f
  Logged.report (.colored f.name config.target.colorCount rounds slots)
  return ⟨f, coloring, slots, rounds⟩

section Frame

variable {config : Config} {f : Function} {coloring : Coloring} {rounds : Nat}

theorem withFrame_of_lt (room : f.nextFreeSlot < slotBound) :
    withFrame config f coloring rounds =
      ⟨[.colored f.name config.target.colorCount rounds f.nextFreeSlot],
        .ok ⟨f, coloring, f.nextFreeSlot, rounds⟩⟩ := by
  rw [withFrame, Spill.freeSlot_of_lt room]
  rfl

theorem withFrame_of_le (full : slotBound ≤ f.nextFreeSlot) :
    withFrame config f coloring rounds = Logged.fail (.slotsExhausted f.name) := by
  rw [withFrame, Spill.freeSlot_of_le full]
  rfl

theorem eq_of_withFrame {a : Allocation}
    (framed : (withFrame config f coloring rounds).result = .ok a) :
    f.nextFreeSlot < slotBound ∧ a = ⟨f, coloring, f.nextFreeSlot, rounds⟩ := by
  rcases Nat.lt_or_ge f.nextFreeSlot slotBound with room | full
  · rw [withFrame_of_lt room] at framed
    cases framed
    exact ⟨room, rfl⟩
  · rw [withFrame_of_le full] at framed
    cases framed

end Frame

/-- Attempts after some rounds of spilling, with at most `remaining` more. It is given up when
only temporaries are left to spill, which would bring nothing. -/
def allocateFrom (config : Config) (remaining rounds : Nat) (temporaries : VarSet)
    (f : Function) : Logged Allocation := do
  let coloring ← color config rounds temporaries f
  if coloring.spilled.isEmpty then
    withFrame config f coloring rounds
  else
    match remaining with
    | 0 => Logged.fail (.nonTermination f.name (rounds + 1))
    | remaining + 1 =>
      let vars := coloring.spilled.toList
      if vars.all temporaries.contains then
        Logged.fail (.nonTermination f.name (rounds + 1))
      else
        Logged.report (.roundSpills f.name (rounds + 1) (vars.map f.vars.name))
        let spilled ← Spill.toFreeSlots config.stem f vars
        allocateFrom config remaining (rounds + 1)
          (temporaries.union (.ofList spilled.temporaries)) spilled.function

end Allocation

/-- Gives every variable of a function a register or a slot. -/
def allocate (config : Allocation.Config) (f : Function) : Logged Allocation :=
  Allocation.allocateFrom config (config.maxRounds.getD f.vars.size) 0 ∅ f

def allocateAll (config : Allocation.Config) : List Function → Logged (List Function)
  | [] => return []
  | f :: rest => do
    let allocation ← allocate config f
    return allocation.function :: (← allocateAll config rest)

def Program.allocate (config : Allocation.Config) (program : Program) : Logged Program := do
  return ⟨← allocateAll config program.functions⟩

namespace Assembly

/-- Every variable that is defined or used needs a register. So does one that only stands as a
jump target, or it cannot be printed. -/
def check (allocation : Allocation) : Except Error Unit :=
  let f := allocation.function
  let uncolored (v : Var) : Bool := (allocation.coloring.color v).isNone
  match (IndexSet.ofList f.mentions).toList.find? uncolored with
  | some v => .error (.uncolored f.name (f.vars.name v))
  | none =>
    match f.varOccurrences.find? uncolored with
    | some v => .error (.unprintable f.name (f.vars.name v))
    | none => .ok ()

def registerName (coloring : Coloring) (v : Var) : String :=
  (coloring.color v).elim "" Register.name

def render (allocation : Allocation) : String :=
  "// frame: " ++ toString allocation.frameSize ++ " bytes\n" ++
    allocation.function.renderWith (registerName allocation.coloring)

def generate (allocation : Allocation) : Except Error String := do
  check allocation
  return render allocation

end Assembly

end Regalloc
