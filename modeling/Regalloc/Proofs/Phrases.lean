import Mathlib
import Regalloc.Proofs.PrintedTokens
import Regalloc.Source.Grammar

/-!
# Phrases of the language

Which tokens stand for which part of a program, said as a grammar and without reading anything.
Variables are written with the names of a table. A function is written on lines: its head, the
label of each block, one instruction or terminator each, and the closing brace.
-/

namespace Regalloc.Source

namespace Phrase

def brackets (count : Nat) : List TokenKind :=
  (List.replicate count [.leftBracket, .rightBracket]).flatten

inductive Ty : List TokenKind → ValueType → Prop
  | int64 (dims : Nat) : Ty (.word "int64" :: brackets dims) ⟨.int64, dims⟩
  | plain {kind : ValueKind} : kind ≠ .int64 → Ty [.word kind.text] ⟨kind, 0⟩

inductive Separated {α : Type} (item : List TokenKind → α → Prop) :
    List TokenKind → List α → Prop
  | one {kinds : List TokenKind} {a : α} : item kinds a → Separated item kinds [a]
  | more {kinds later : List TokenKind} {a : α} {rest : List α} :
      item kinds a → Separated item later rest →
      Separated item (kinds ++ .comma :: later) (a :: rest)

inductive StackSlot : List TokenKind → Expr → Prop
  | mk {n : Int64} {s : Slot} : slotAt? n = some s →
      StackSlot [.word "mem", .word "rsp", .number n] (.slot s)

section Expressions

variable (table : VarTable)

inductive Operand : List TokenKind → Expr → Prop
  | var {v : Var} : v.index < table.size → Operand [.var (table.name v)] (.var v)
  | const (n : Int64) : Operand [.number n] (.const n)
  | label (name : String) : Operand [.label name] (.label name)
  | function (name : String) : Operand [.function name] (.label name)

inductive Arguments : List TokenKind → List Expr → Prop
  | none : Arguments [.leftParen, .rightParen] []
  | some {kinds : List TokenKind} {args : List Expr} : Separated (Operand table) kinds args →
      Arguments (.leftParen :: (kinds ++ [.rightParen])) args

inductive Callee : List TokenKind → Bool → Expr → Prop
  | builtin (b : Builtin) : Callee [.word b.name] true (.label b.name)
  | var {v : Var} : v.index < table.size → Callee [.var (table.name v)] false (.var v)
  | function (name : String) : Callee [.function name] false (.label name)

inductive Call : List TokenKind → Bool → Expr → List Expr → Prop
  | mk {called passed : List TokenKind} {builtin : Bool} {callee : Expr} {args : List Expr} :
      Callee table called builtin callee → Arguments table passed args →
      Call (.word "call" :: (called ++ passed)) builtin callee args

inductive Offsets : List TokenKind → List Expr → Prop
  | nil : Offsets [] []
  | cons {kinds later : List TokenKind} {offset : Expr} {rest : List Expr} :
      Operand table kinds offset → Offsets later rest →
      Offsets (.leftBracket :: (kinds ++ .rightBracket :: later)) (offset :: rest)

inductive Element : List TokenKind → Expr → Prop
  | mk {v : Var} {kinds : List TokenKind} {offsets : List Expr} : v.index < table.size →
      Offsets table kinds offsets → offsets ≠ [] →
      Element (.var (table.name v) :: kinds) (.access (.var v) offsets)

inductive Place : List TokenKind → Expr → Prop
  | slot {kinds : List TokenKind} {expr : Expr} : StackSlot kinds expr → Place kinds expr
  | var {v : Var} : v.index < table.size → Place [.var (table.name v)] (.var v)
  | element {kinds : List TokenKind} {expr : Expr} : Element table kinds expr → Place kinds expr

inductive Simple : List TokenKind → Expr → Prop
  | operand {kinds : List TokenKind} {expr : Expr} : Operand table kinds expr → Simple kinds expr
  | element {kinds : List TokenKind} {expr : Expr} : Element table kinds expr → Simple kinds expr

inductive Assigned : List TokenKind → Expr → Prop
  | call {kinds : List TokenKind} {builtin : Bool} {callee : Expr} {args : List Expr} :
      Call table kinds builtin callee args → Assigned kinds (.call builtin callee args)
  | slot {kinds : List TokenKind} {expr : Expr} : StackSlot kinds expr → Assigned kinds expr
  | length {first second : List TokenKind} {base dim : Expr} : Operand table first base →
      Operand table second dim → Assigned (.word "length" :: (first ++ second)) (.length base dim)
  | newArray {kinds : List TokenKind} {dims : List Expr} : Arguments table kinds dims →
      Assigned (.word "new" :: .word "Array" :: kinds) (.newArray dims)
  | newTuple {kinds : List TokenKind} {size : Expr} : Operand table kinds size →
      Assigned (.word "new" :: .word "Tuple" :: .leftParen :: (kinds ++ [.rightParen]))
        (.newTuple size)
  | simple {kinds : List TokenKind} {expr : Expr} : Simple table kinds expr → Assigned kinds expr
  | binary {first second : List TokenKind} {operator : Operator} {left right : Expr} :
      Simple table first left → Operand table second right →
      Assigned (first ++ .operator operator :: second) (.binary operator left right)

inductive Instr : List TokenKind → Instruction → Prop
  | declare {kinds : List TokenKind} {ty : ValueType} {v : Var} : Ty kinds ty →
      v.index < table.size → Instr (kinds ++ [.var (table.name v)]) (.declare ty v)
  | call {kinds : List TokenKind} {builtin : Bool} {callee : Expr} {args : List Expr} :
      Call table kinds builtin callee args → Instr kinds (.call builtin callee args)
  | assign {first second : List TokenKind} {target source : Expr} : Place table first target →
      Assigned table second source → Instr (first ++ .arrow :: second) (.assign target source)

inductive End : List TokenKind → Terminator → Prop
  | ret : End [.word "return"] .ret
  | retValue {kinds : List TokenKind} {value : Expr} : Operand table kinds value →
      End (.word "return" :: kinds) (.retValue value)
  | jump {kinds : List TokenKind} {target : Expr} : Operand table kinds target →
      End (.word "br" :: kinds) (.jump target)
  | branch {first second third : List TokenKind} {condition onTrue onFalse : Expr} :
      Operand table first condition → Operand table second onTrue → Operand table third onFalse →
      End (.word "br" :: (first ++ (second ++ third))) (.branch condition onTrue onFalse)

inductive BlockLines : List (List TokenKind) → Block → Prop
  | mk {label : String} {lines : List (List TokenKind)} {instrs : List Instruction}
      {last : List TokenKind} {terminator : Terminator} :
      List.Forall₂ (Instr table) lines instrs → End table last terminator →
      BlockLines ([.label label] :: (lines ++ [last])) ⟨label, instrs, terminator⟩

/-- The lines that are left of a function, which may be within a block. -/
inductive BodyLines : Option OpenBlock → List (List TokenKind) → List Block → Prop
  | done : BodyLines none [] []
  | label {name : String} {lines : List (List TokenKind)} {blocks : List Block} :
      BodyLines (some ⟨name, []⟩) lines blocks → BodyLines none ([.label name] :: lines) blocks
  | instr {name : String} {instrs : List Instruction} {line : List TokenKind}
      {instruction : Instruction} {lines : List (List TokenKind)} {blocks : List Block} :
      Instr table line instruction → BodyLines (some ⟨name, instrs ++ [instruction]⟩) lines blocks →
      BodyLines (some ⟨name, instrs⟩) (line :: lines) blocks
  | last {name : String} {instrs : List Instruction} {line : List TokenKind}
      {terminator : Terminator} {lines : List (List TokenKind)} {blocks : List Block} :
      End table line terminator → BodyLines none lines blocks →
      BodyLines (some ⟨name, instrs⟩) (line :: lines) (⟨name, instrs, terminator⟩ :: blocks)

inductive Parameter : List TokenKind → Param → Prop
  | mk {kinds : List TokenKind} {ty : ValueType} {v : Var} : Ty kinds ty →
      v.index < table.size → Parameter (kinds ++ [.var (table.name v)]) ⟨ty, v⟩

inductive Parameters : List TokenKind → List Param → Prop
  | none : Parameters [] []
  | some {kinds : List TokenKind} {params : List Param} :
      Separated (Parameter table) kinds params → Parameters kinds params

end Expressions

/-- Whether a line may end before a token. After the head of a function and after its closing
brace anything may come. -/
def LineEnds (line : List TokenKind) (next : Option TokenKind) : Prop :=
  line.head? = some (.word "define") ∨ line.head? = some .rightBrace ∨ endsInstruction next = true

inductive Layout : List TokenKind → List (List TokenKind) → Prop
  | nil : Layout [] []
  | newline {kinds : List TokenKind} {lines : List (List TokenKind)} : Layout kinds lines →
      Layout (.newline :: kinds) lines
  | line {line kinds : List TokenKind} {lines : List (List TokenKind)} :
      LineEnds line kinds.head? → Layout kinds lines → Layout (line ++ kinds) (line :: lines)

def varNames (kinds : List TokenKind) : List String :=
  kinds.filterMap fun kind =>
    match kind with
    | .var name => some name
    | _ => none

def headLine (ret : List TokenKind) (name : String) (params : List TokenKind) : List TokenKind :=
  .word "define" :: (ret ++ .function name :: .leftParen :: (params ++ [.rightParen, .leftBrace]))

/-- The lines of a function, whose table holds the variables in the order of the lines. -/
inductive FunctionLines : List (List TokenKind) → Function → Prop
  | mk {f : Function} {ret params : List TokenKind} {blocks : List (List (List TokenKind))} :
      Ty ret f.ret → Parameters f.vars params f.params →
      List.Forall₂ (BlockLines f.vars) blocks f.blocks → f.blocks ≠ [] →
      (f.blocks.map Block.label).Nodup →
      f.vars = VarTable.internAll {} (varNames (params ++ blocks.flatten.flatten)) →
      FunctionLines (headLine ret f.name params :: (blocks.flatten ++ [[.rightBrace]])) f

inductive ProgramPhrase : List TokenKind → Program → Prop
  | mk {kinds : List TokenKind} {parts : List (List (List TokenKind))} {functions : List Function} :
      functions ≠ [] → List.Forall₂ FunctionLines parts functions → Layout kinds parts.flatten →
      ProgramPhrase kinds ⟨functions⟩

end Phrase

end Regalloc.Source
