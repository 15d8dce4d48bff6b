import Regalloc.Event
import Regalloc.Machine.Exec

/-!
# Running programs

A program runs from one of its functions until that returns, a fault stops it, or the limit of
cycles is passed.
-/

namespace Regalloc.Machine

/-- Calls a function by its name, given how a function is run from its first point. -/
def dispatch (program : Program) (enter : Function → Frame → Exec (Option Value)) : Caller :=
  fun name args =>
    match program.function? name with
    | none => throw (.unknownFunction name)
    | some f =>
      if args.length = f.params.length then enter f (Frame.enter f args)
      else throw (.arity f.name f.params.length args.length)

/-- Continues a call at a point of a block, for at most `fuel` points. Every point takes a cycle
before it does anything, so one more than the limit of cycles is enough for it and for all calls
that it makes. -/
def resume (program : Program) (limit : Nat) :
    (fuel : Nat) → Function → Frame → (block point : Nat) → Exec (Option Value)
  | 0, _, _, _, _ => throw (.cycleLimit limit)
  | fuel + 1, f, frame, b, i =>
    let caller := dispatch program fun g entry => resume program limit fuel g entry 0 0
    match f.blocks[b]? with
    | none => throw (.noBlocks f.name)
    | some block => do
      tick limit
      match block.instrs[i]? with
      | some instruction =>
        let frame ← execute caller f frame instruction
        resume program limit fuel f frame b (i + 1)
      | none =>
        match ← finish caller f frame block.terminator with
        | .leave value => return value
        | .enter next => resume program limit fuel f frame next 0

def call (program : Program) (limit : Nat) : Caller :=
  dispatch program fun f frame => resume program limit (limit + 1) f frame 0 0

structure Execution where
  value : Option Value
  output : List String
  cycles : Nat
  deriving DecidableEq, Repr

def defaultLimit : Nat := 1000000

structure Outcome where
  result : Except Fault Execution
  heap : Heap
  events : List Event

/-- Runs a program from a function, with arguments that may refer to a heap, and with numbers to
be read. -/
def run (program : Program) (limit : Nat) (heap : Heap) (input : List Int64) (entry : String)
    (args : List Value) : Outcome :=
  match (call program limit entry args).run { heap := heap, input := input } with
  | .ok value state =>
    ⟨.ok ⟨value, state.output.toList, state.cycles⟩, state.heap, [.returned entry state.cycles]⟩
  | .error fault state => ⟨.error fault, state.heap, []⟩

end Regalloc.Machine
