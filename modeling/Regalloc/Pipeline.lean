import Regalloc.Allocation
import Regalloc.Source.Grammar

/-!
# From source text to results

What can be asked for a source text: code for all functions, the live sets or interference graphs
of all functions, or one function with one variable spilled.
-/

namespace Regalloc

inductive Mode where
  | compile
  | spill
  | liveness
  | interference
  deriving DecidableEq, Repr

namespace Pipeline

def compile (config : Allocation.Config) (f : Function) : Logged String := do
  let allocation ← allocate config f
  Logged.report (.compiled f.name allocation.rounds allocation.frameSize)
  Logged.ofExcept (Assembly.generate allocation)

def liveness (f : Function) : Logged String := do
  let (_, live) ← Liveness.analyze f
  return live.render f

def interference (config : Allocation.Config) (f : Function) : Logged String := do
  let (_, live) ← Liveness.analyze f
  return f.name ++ "\n" ++ (Interference.build f live config.target).render f.vars

def forEach (result : Function → Logged String) : List Function → Logged (List String)
  | [] => return []
  | f :: rest => do
    let first ← result f
    return first :: (← forEach result rest)

def refusals {α : Type} (parsed : Except Source.ParseError α) : Logged α :=
  Logged.ofExcept (parsed.mapError .source)

/-- The results of all functions of a text, with an empty line between two of them. -/
def forProgram (result : Function → Logged String) (text : String) : Logged String := do
  let program ← refusals (Source.parseProgram text)
  return joinWith "\n" (← forEach result program.functions)

def spill (text : String) : Logged String := do
  let request ← refusals (Source.parseSpillRequest text)
  let slot ← Spill.freeSlot request.function
  let spilled := Spill.one request.function ⟨request.v, ⟨slot⟩, request.stem⟩
  Logged.reportAll spilled.events
  return spilled.function.render

def run (mode : Mode) (config : Allocation.Config) (text : String) : Logged String :=
  match mode with
  | .compile => forProgram (compile config) text
  | .spill => spill text
  | .liveness => forProgram liveness text
  | .interference => forProgram (interference config) text

end Pipeline

end Regalloc
