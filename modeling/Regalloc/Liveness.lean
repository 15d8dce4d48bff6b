import Regalloc.Event
import Regalloc.Flow

/-!
# Liveness

A variable is live at a point if some path from there reads it before writing it. The sets are
found by passes over the blocks against the flow until a pass changes nothing.
-/

namespace Regalloc

structure PointLive where
  before : VarSet := ∅
  after : VarSet := ∅
  deriving DecidableEq, Repr

namespace Liveness

def transfer (point : DefUse) (after : VarSet) : VarSet :=
  (after.sdiff (.ofList point.defs)).union (.ofList point.uses)

def entry (points : List PointLive) (out : VarSet) : VarSet :=
  match points with
  | [] => out
  | point :: _ => point.before

def sweep (out : VarSet) : List DefUse → List PointLive
  | [] => []
  | point :: points =>
    let later := sweep out points
    let after := entry later out
    ⟨transfer point after, after⟩ :: later

/-- What is live at the end of a block: what its successors need on entry. -/
def exitSet (flow : Flow) (live : List (List PointLive)) (block : Nat) : VarSet :=
  (flow.successorsOf block).foldl (fun out next => out.union (entry (live.getD next []) ∅)) ∅

def update (points : List (List DefUse)) (flow : Flow) (live : List (List PointLive))
    (block : Nat) : List (List PointLive) :=
  live.set block (sweep (exitSet flow live block) (points.getD block []))

/-- Brings every block up to date, successors first where the flow allows it. -/
def pass (points : List (List DefUse)) (flow : Flow) (live : List (List PointLive)) :
    List (List PointLive) :=
  flow.order.reverse.foldl (update points flow) live

/-- Passes until one changes nothing, at most `bound` of them, and the number of passes. -/
def iterate (points : List (List DefUse)) (flow : Flow) :
    (bound : Nat) → List (List PointLive) → List (List PointLive) × Nat
  | 0, live => (live, 0)
  | bound + 1, live =>
    let next := pass points flow live
    if next = live then (live, 1) else
      let (solution, passes) := iterate points flow bound next
      (solution, passes + 1)

/-- Every pass but the last makes some used variable live before or after some point. -/
def passBound (points : List (List DefUse)) : Nat :=
  2 * points.flatten.length * (points.flatten.flatMap DefUse.uses).length + 1

end Liveness

structure Liveness where
  blocks : List (List PointLive)
  iterations : Nat
  deriving DecidableEq, Repr

namespace Liveness

def solve (f : Function) (flow : Flow) : Liveness :=
  let points := f.blocks.map Block.points
  let start := points.map fun block => block.map fun _ => {}
  let (blocks, iterations) := iterate points flow (passBound points) start
  ⟨blocks, iterations⟩

def block (live : Liveness) (b : Nat) : List PointLive :=
  live.blocks.getD b []

def point (live : Liveness) (b i : Nat) : PointLive :=
  (live.block b).getD i {}

def liveIn (live : Liveness) (b i : Nat) : VarSet :=
  (live.point b i).before

def liveOut (live : Liveness) (b i : Nat) : VarSet :=
  (live.point b i).after

def blockIn (live : Liveness) (b : Nat) : VarSet :=
  entry (live.block b) ∅

def blockOut (live : Liveness) (b : Nat) : VarSet :=
  ((live.block b).getLast?.map PointLive.after).getD ∅

def renderSet (f : Function) (vars : VarSet) : String :=
  joinWith " " (vars.toList.map f.vars.name)

def renderLine (f : Function) (text : String) (before after : VarSet) : String :=
  text ++ " in(" ++ renderSet f before ++ ") out(" ++ renderSet f after ++ ")\n"

def render (live : Liveness) (f : Function) : String :=
  let blocks := f.blocks.zipIdx.map fun (block, b) =>
    let points := (block.pointTexts f.vars.name).zipIdx.map fun (text, i) =>
      "    " ++ renderLine f text (live.liveIn b i) (live.liveOut b i)
    "  " ++ renderLine f block.label (live.blockIn b) (live.blockOut b) ++ String.join points
  f.name ++ "\n" ++ String.join blocks

def analyze (f : Function) : Logged (Flow × Liveness) := do
  let flow ← Logged.ofExcept (Flow.build f)
  let live := solve f flow
  Logged.report (.livenessSolved f.name live.iterations)
  return (flow, live)

end Liveness

end Regalloc
