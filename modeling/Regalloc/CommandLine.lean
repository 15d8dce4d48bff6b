import Regalloc.Pipeline

/-!
# Command line

One source file and options in any order. Arguments are read from left to right, and the first
that cannot stand where it stands, or that asks for help, decides.
-/

namespace Regalloc.CommandLine

inductive Flag where
  | verbose
  | spill
  | liveness
  | interference
  | help
  deriving DecidableEq, Repr

inductive Setting where
  | generate
  | optimization
  | registers
  deriving DecidableEq, Repr

inductive Opt where
  | flag (flag : Flag)
  | setting (setting : Setting)
  deriving DecidableEq, Repr

def short? : Char → Option Opt
  | 'v' => some (.flag .verbose)
  | 's' => some (.flag .spill)
  | 'l' => some (.flag .liveness)
  | 'i' => some (.flag .interference)
  | 'h' => some (.flag .help)
  | 'g' => some (.setting .generate)
  | 'O' => some (.setting .optimization)
  | _ => none

def long? (name : List Char) : Option Opt :=
  match String.ofList name with
  | "verbose" => some (.flag .verbose)
  | "spill" => some (.flag .spill)
  | "liveness" => some (.flag .liveness)
  | "interference" => some (.flag .interference)
  | "help" => some (.flag .help)
  | "registers" => some (.setting .registers)
  | _ => none

def Setting.range : Setting → Nat × Nat
  | .generate => (0, 1)
  | .optimization => (0, 255)
  | .registers => (1, 15)

/-- Why no work is done: help is asked for, or the arguments make no sense. -/
inductive Usage where
  | help
  | invalid
  deriving DecidableEq, Repr

structure Given where
  source : Option String := none
  flags : List Flag := []
  settings : List (Setting × Nat) := []
  deriving DecidableEq, Repr

def number? (text : List Char) : Option Int :=
  let (sign, digits) : Int × List Char :=
    match text with
    | '+' :: digits => (1, digits)
    | '-' :: digits => (-1, digits)
    | digits => (1, digits)
  if digits.isEmpty || !digits.all Source.isDigit then none
  else some (sign * Text.digitsValue digits)

def Given.flag (given : Given) (flag : Flag) : Except Usage Given :=
  if flag = .help then .error .help
  else if given.flags.contains flag then .error .invalid
  else .ok { given with flags := given.flags ++ [flag] }

/-- No setting may be given twice, and its number must lie in its range. -/
def Given.setting (given : Given) (setting : Setting) (text : List Char) : Except Usage Given :=
  match number? text with
  | none => .error .invalid
  | some n =>
    let (least, greatest) := setting.range
    if n < least ∨ greatest < n ∨ (given.settings.lookup setting).isSome then .error .invalid
    else .ok { given with settings := given.settings ++ [(setting, n.toNat)] }

def Given.positional (given : Given) (arg : String) : Except Usage Given :=
  if given.source.isSome || arg.isEmpty then .error .invalid
  else .ok { given with source := some arg }

/-- Options by their letters. The rest after a setting is its number; without a rest the number is
the next argument. -/
def cluster (given : Given) : List Char → Except Usage (Given × Option Setting)
  | [] => .ok (given, none)
  | c :: rest =>
    match short? c with
    | none => .error .invalid
    | some (.flag flag) => do
      cluster (← given.flag flag) rest
    | some (.setting setting) =>
      match rest with
      | [] => .ok (given, some setting)
      | '=' :: value => do
        return (← given.setting setting value, none)
      | value => do
        return (← given.setting setting value, none)

/-- An option by its whole name, with a number after an equals sign or in the next argument. -/
def longOption (given : Given) (text : List Char) : Except Usage (Given × Option Setting) :=
  let name := text.takeWhile (· != '=')
  match long? name, text.drop name.length with
  | some (.flag flag), [] => do
    return (← given.flag flag, none)
  | some (.setting setting), [] => .ok (given, some setting)
  | some (.setting setting), _ :: value => do
    return (← given.setting setting value, none)
  | _, _ => .error .invalid

def positionals (given : Given) : List String → Except Usage Given
  | [] => .ok given
  | arg :: rest => do
    positionals (← given.positional arg) rest

def readArgs (given : Given) : (pending : Option Setting) → List String → Except Usage Given
  | none, [] => .ok given
  | some _, [] => .error .invalid
  | some setting, arg :: rest =>
    match arg.toList with
    | '-' :: _ :: _ => .error .invalid
    | value => do
      readArgs (← given.setting setting value) none rest
  | none, arg :: rest =>
    match arg.toList with
    | ['-', '-'] => positionals given rest
    | '-' :: '-' :: text => do
      let (given, pending) ← longOption given text
      readArgs given pending rest
    | '-' :: c :: letters => do
      let (given, pending) ← cluster given (c :: letters)
      readArgs given pending rest
    | _ => do
      readArgs (← given.positional arg) none rest

structure Options where
  source : String
  verbose : Bool
  /-- Whether results are printed. -/
  emit : Bool
  optimization : Nat
  mode : Mode
  config : Allocation.Config
  deriving DecidableEq, Repr

def Given.mode (given : Given) : Except Usage Mode :=
  match [Flag.spill, .liveness, .interference].filter given.flags.contains with
  | [] => .ok .compile
  | [.spill] => .ok .spill
  | [.liveness] => .ok .liveness
  | [.interference] => .ok .interference
  | _ => .error .invalid

def Given.options (given : Given) : Except Usage Options := do
  let mode ← given.mode
  let some source := given.source | throw .invalid
  let setting (which : Setting) : Option Nat := given.settings.lookup which
  let target := ((setting .registers).map Target.withRegisters).getD .full
  return {
    source := source
    verbose := given.flags.contains .verbose
    emit := (setting .generate).getD 1 == 1 || mode != .compile
    optimization := (setting .optimization).getD 0
    mode := mode
    config := { target := target } }

def parse (args : List String) : Except Usage Options := do
  (← readArgs {} none args).options

def decode (bytes : ByteArray) : Except Unreadable String :=
  match String.fromUTF8? bytes with
  | some text => .ok text
  | none => .error .notText

structure Finished where
  exit : UInt32
  stdout : String
  stderr : List String
  deriving DecidableEq, Repr

def job (options : Options) (contents : Except Unreadable String) : Logged String := do
  Logged.report (.optimizationLevel options.optimization)
  let text ← Logged.ofExcept (contents.mapError .unreadable)
  Pipeline.run options.mode options.config text

/-- Does the work for a source file with given contents. Reports are shown on demand, down to the
debug level. -/
def execute (options : Options) (contents : Except Unreadable String) : Finished :=
  let done := job options contents
  let shown := done.events.filter fun event => options.verbose && event.level == .debug
  let reports := shown.map fun event => "[DEBUG] " ++ event.message
  match done.result with
  | .ok text => ⟨0, if options.emit then text else "", reports⟩
  | .error error => ⟨1, "", reports ++ ["error: " ++ error.message]⟩

end Regalloc.CommandLine
