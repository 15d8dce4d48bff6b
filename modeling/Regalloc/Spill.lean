import Regalloc.Event

/-!
# Spilling

A spilled variable lives in a stack slot. Every point that reads or writes it works on a fresh
temporary instead, loaded before the point and stored after it.
-/

namespace Regalloc

/-- The function with variables moved to slots, the temporaries it works on instead, and the
reports on the moves. -/
structure Spilled where
  function : Function
  temporaries : List Var
  events : List Event
  deriving DecidableEq, Repr

namespace Spill

structure Minted where
  table : VarTable
  temporaries : List Var := []
  deriving DecidableEq, Repr

structure Request where
  v : Var
  slot : Slot
  stem : String
  deriving DecidableEq, Repr

def mint (request : Request) : StateM Minted Var := do
  let minted ← get
  let (temporary, table) := minted.table.fresh request.stem
  set (⟨table, minted.temporaries ++ [temporary]⟩ : Minted)
  return temporary

def load (request : Request) (temporary : Var) : Instruction :=
  .assign (.var temporary) (.slot request.slot)

def store (request : Request) (temporary : Var) : Instruction :=
  .assign (.slot request.slot) (.var temporary)

def replace (request : Request) (temporary v : Var) : Var :=
  if v = request.v then temporary else v

def params (request : Request) : List Param → StateM Minted (List Param × List Instruction)
  | [] => return ([], [])
  | param :: rest => do
    if param.v = request.v then
      let temporary ← mint request
      let (later, stores) ← params request rest
      return ({ param with v := temporary } :: later, store request temporary :: stores)
    else
      let (later, stores) ← params request rest
      return (param :: later, stores)

/-- A point that reads and writes the variable does both on one temporary. -/
def instruction (request : Request) (instruction : Instruction) :
    StateM Minted (List Instruction) := do
  let used := instruction.uses.contains request.v
  let defined := instruction.defs.contains request.v
  if used || defined then
    let temporary ← mint request
    let before := if used then [load request temporary] else []
    let after := if defined then [store request temporary] else []
    return before ++ [instruction.mapVars (replace request temporary)] ++ after
  else
    return [instruction]

def instructions (request : Request) : List Instruction → StateM Minted (List Instruction)
  | [] => return []
  | first :: rest => do
    let moved ← instruction request first
    return moved ++ (← instructions request rest)

def terminator (request : Request) (terminator : Terminator) :
    StateM Minted (List Instruction × Terminator) := do
  if terminator.uses.contains request.v then
    let temporary ← mint request
    return ([load request temporary], terminator.mapVars (replace request temporary))
  else
    return ([], terminator)

def block (request : Request) (block : Block) : StateM Minted Block := do
  let instrs ← instructions request block.instrs
  let (loads, terminator) ← terminator request block.terminator
  return ⟨block.label, instrs ++ loads, terminator⟩

def blocks (request : Request) : List Block → StateM Minted (List Block)
  | [] => return []
  | first :: rest => do
    let moved ← block request first
    return moved :: (← blocks request rest)

def onEntry (instrs : List Instruction) : List Block → List Block
  | [] => []
  | first :: rest => { first with instrs := instrs ++ first.instrs } :: rest

/-- The stores of parameters open the first block; a jump back to it carries them out again. -/
def function (request : Request) (f : Function) : StateM Minted Function := do
  let (params, stores) ← params request f.params
  let blocks ← blocks request (onEntry stores f.blocks)
  return { f with params := params, blocks := blocks, vars := (← get).table }

def one (f : Function) (request : Request) : Spilled :=
  let (moved, minted) := (function request f).run { table := f.vars }
  let event := .spilled f.name (moved.vars.name request.v) request.slot
    minted.temporaries.length
  ⟨moved, minted.temporaries, [event]⟩

/-- Moves variables one after the other, to consecutive slots from the first one on, however far
their numbers go. -/
def all (stem : String) (f : Function) : List Var → (first : Nat) → Spilled
  | [], _ => ⟨f, [], []⟩
  | v :: rest, first =>
    let head := one f ⟨v, ⟨first⟩, stem⟩
    let tail := all stem head.function rest (first + 1)
    ⟨tail.function, head.temporaries ++ tail.temporaries, head.events ++ tail.events⟩

def freeSlot (f : Function) : Logged Nat :=
  if f.nextFreeSlot < slotBound then return f.nextFreeSlot
  else Logged.fail (.slotsExhausted f.name)

/-- Moves variables to consecutive slots. The numbers are drawn before it is known whether there is
another variable, so the one after the last has to be a number of 32 bits, too, and so has the one
that would be drawn next. -/
def allFrom (stem : String) (f : Function) (vars : List Var) (first : Nat) : Logged Spilled := do
  if first + vars.length + 1 < slotBound then
    let spilled := all stem f vars first
    Logged.reportAll spilled.events
    return spilled
  else Logged.fail (.slotsExhausted f.name)

def toFreeSlots (stem : String) (f : Function) (vars : List Var) : Logged Spilled := do
  allFrom stem f vars (← freeSlot f)

section Room

variable {f : Function} {stem : String} {vars : List Var}

theorem freeSlot_of_lt (room : f.nextFreeSlot < slotBound) : freeSlot f = pure f.nextFreeSlot :=
  if_pos room

theorem freeSlot_of_le (full : slotBound ≤ f.nextFreeSlot) :
    freeSlot f = Logged.fail (.slotsExhausted f.name) :=
  if_neg (Nat.not_lt.mpr full)

theorem allFrom_of_lt {first : Nat} (room : first + vars.length + 1 < slotBound) :
    allFrom stem f vars first = ⟨(all stem f vars first).events, .ok (all stem f vars first)⟩ := by
  simp only [allFrom, room, if_true, bind, pure, Logged.reportAll, List.append_nil]

theorem allFrom_of_le {first : Nat} (full : slotBound ≤ first + vars.length + 1) :
    allFrom stem f vars first = Logged.fail (.slotsExhausted f.name) := by
  simp only [allFrom, Nat.not_lt.mpr full, if_false]

theorem toFreeSlots_of_lt (room : f.nextFreeSlot + vars.length + 1 < slotBound) :
    toFreeSlots stem f vars =
      ⟨(all stem f vars f.nextFreeSlot).events, .ok (all stem f vars f.nextFreeSlot)⟩ := by
  have free : f.nextFreeSlot < slotBound := by omega
  rw [toFreeSlots, freeSlot_of_lt free]
  exact allFrom_of_lt room

theorem toFreeSlots_of_le (full : slotBound ≤ f.nextFreeSlot + vars.length + 1) :
    toFreeSlots stem f vars = Logged.fail (.slotsExhausted f.name) := by
  rw [toFreeSlots]
  by_cases free : f.nextFreeSlot < slotBound
  · rw [freeSlot_of_lt free]
    exact allFrom_of_le full
  · rw [freeSlot_of_le (Nat.not_lt.mp free)]
    rfl

theorem eq_of_toFreeSlots {spilled : Spilled}
    (moved : (toFreeSlots stem f vars).result = .ok spilled) :
    f.nextFreeSlot + vars.length + 1 < slotBound ∧
      spilled = all stem f vars f.nextFreeSlot := by
  rcases Nat.lt_or_ge (f.nextFreeSlot + vars.length + 1) slotBound with room | full
  · rw [toFreeSlots_of_lt room] at moved
    cases moved
    exact ⟨room, rfl⟩
  · rw [toFreeSlots_of_le full] at moved
    cases moved

end Room

end Spill

end Regalloc
