/-!
# Registers and targets

A target is the register file that functions are colored with, together with the calling
convention: where arguments arrive and which registers a call may overwrite. Registers are handed
out in a fixed order, those that a call may overwrite first.
-/

namespace Regalloc

inductive Register where
  | r10 | r11 | r8 | r9 | rax | rcx | rdi | rdx | rsi | r12 | r13 | r14 | r15 | rbp | rbx
  deriving DecidableEq, Repr

namespace Register

instance : Inhabited Register := ⟨.r10⟩

/-- All registers, in the order they are handed out. -/
def all : List Register :=
  [.r10, .r11, .r8, .r9, .rax, .rcx, .rdi, .rdx, .rsi, .r12, .r13, .r14, .r15, .rbp, .rbx]

def name : Register → String
  | .r10 => "r10"
  | .r11 => "r11"
  | .r8 => "r8"
  | .r9 => "r9"
  | .rax => "rax"
  | .rcx => "rcx"
  | .rdi => "rdi"
  | .rdx => "rdx"
  | .rsi => "rsi"
  | .r12 => "r12"
  | .r13 => "r13"
  | .r14 => "r14"
  | .r15 => "r15"
  | .rbp => "rbp"
  | .rbx => "rbx"

def ofName? (text : String) : Option Register :=
  all.find? fun register => register.name == text

def index (register : Register) : Nat :=
  all.idxOf register

theorem index_lt (register : Register) : register.index < 15 := by
  cases register <;> decide

theorem all_getD_index (register : Register) : all.getD register.index .r10 = register := by
  cases register <;> decide

theorem index_all_getD : ∀ n : Fin 15, (all.getD n.val .r10).index = n.val := by
  decide

end Register

structure Target where
  /-- Registers that variables may be given, in order of preference. -/
  allocatable : List Register := []
  /-- Where the first, second, … argument of a call arrives. -/
  arguments : List Register := []
  /-- Registers that a call may overwrite. -/
  callerSaved : List Register := []
  deriving DecidableEq, Repr

namespace Target

/-- The whole register file under the System V calling convention. -/
def full : Target where
  allocatable := Register.all
  arguments := [.rdi, .rsi, .rdx, .rcx, .r8, .r9]
  callerSaved := [.r10, .r11, .r8, .r9, .rax, .rcx, .rdi, .rdx, .rsi]

/-- The first `count` registers only, at least one and at most all of them. -/
def withRegisters (count : Nat) : Target :=
  { full with allocatable := full.allocatable.take (max 1 count) }

/-- Number of colors; a register listed twice counts twice. -/
def colorCount (target : Target) : Nat :=
  target.allocatable.length

def isAllocatable (target : Target) (register : Register) : Bool :=
  target.allocatable.contains register

/-- The register that argument `position` arrives in, if variables may live there. -/
def argumentRegister (target : Target) (position : Nat) : Option Register :=
  target.arguments[position]?.filter target.isAllocatable

/-- The allocatable registers that a call may overwrite. -/
def clobbered (target : Target) : List Register :=
  target.callerSaved.filter target.isAllocatable

end Target

end Regalloc
