import Regalloc.Error
import Regalloc.Program.Render

/-!
# Events

What the program reports about its work while it runs. Computations that report hand back their
events in order, also when they fail.
-/

namespace Regalloc

inductive Level where
  | debug
  | trace
  deriving DecidableEq, Repr

inductive Event where
  | optimizationLevel (level : Nat)
  | livenessSolved (function : String) (iterations : Nat)
  | graphBuilt (function : String) (round nodes edges : Nat)
  | actualSpill (function v : String)
  | roundSpills (function : String) (round : Nat) (vars : List String)
  | spilled (function v : String) (slot : Slot) (temporaries : Nat)
  | colored (function : String) (registers rounds slots : Nat)
  | compiled (function : String) (rounds bytes : Nat)
  | returned (function : String) (cycles : Nat)
  deriving DecidableEq, Repr

namespace Event

def level : Event → Level
  | .livenessSolved .. => .trace
  | .graphBuilt .. => .trace
  | .actualSpill .. => .trace
  | .returned .. => .trace
  | _ => .debug

def message : Event → String
  | .optimizationLevel level => "optimization level " ++ toString level ++ " requested"
  | .livenessSolved function iterations =>
    "liveness for " ++ function ++ " converged after " ++ toString iterations ++ " iterations"
  | .graphBuilt function round nodes edges =>
    function ++ ": round " ++ toString round ++ " graph has " ++ toString nodes ++ " nodes and " ++
      toString edges ++ " edges"
  | .actualSpill function v => function ++ ": " ++ v ++ " is an actual spill"
  | .roundSpills function round vars =>
    function ++ ": round " ++ toString round ++ " spills " ++ joinWith " " vars
  | .spilled function v slot temporaries =>
    function ++ ": spilled " ++ v ++ " to " ++ slot.render ++ " with " ++ toString temporaries ++
      " temporaries"
  | .colored function registers rounds slots =>
    function ++ ": colored with " ++ toString registers ++ " registers after " ++
      toString rounds ++ " spill rounds, " ++ toString slots ++ " stack slots"
  | .compiled function rounds bytes =>
    function ++ ": " ++ toString rounds ++ " spill rounds, frame of " ++ toString bytes ++ " bytes"
  | .returned function cycles => function ++ " returned after " ++ toString cycles ++ " cycles"

end Event

/-- The events of a computation and what came of it. -/
structure Logged (α : Type) where
  events : List Event
  result : Except Error α

namespace Logged

variable {α β : Type}

instance : Monad Logged where
  pure a := ⟨[], .ok a⟩
  bind x f :=
    match x.result with
    | .error error => ⟨x.events, .error error⟩
    | .ok a =>
      let y := f a
      ⟨x.events ++ y.events, y.result⟩

def report (event : Event) : Logged Unit :=
  ⟨[event], .ok ()⟩

def reportAll (events : List Event) : Logged Unit :=
  ⟨events, .ok ()⟩

def fail (error : Error) : Logged α :=
  ⟨[], .error error⟩

def ofExcept (result : Except Error α) : Logged α :=
  ⟨[], result⟩

@[simp] theorem result_pure (a : α) : (pure a : Logged α).result = .ok a :=
  rfl

@[simp] theorem result_bind (x : Logged α) (f : α → Logged β) :
    (x >>= f).result = x.result >>= fun a => (f a).result := by
  cases x with | mk events result => cases result <;> rfl

@[simp] theorem result_report (event : Event) : (report event).result = .ok () :=
  rfl

@[simp] theorem result_reportAll (events : List Event) : (reportAll events).result = .ok () :=
  rfl

@[simp] theorem result_fail (error : Error) : (fail error : Logged α).result = .error error :=
  rfl

@[simp] theorem result_ofExcept (result : Except Error α) : (ofExcept result).result = result :=
  rfl

end Logged

end Regalloc
