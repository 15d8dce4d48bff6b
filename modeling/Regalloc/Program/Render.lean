import Regalloc.Program.Function
import Regalloc.Text

/-!
# Printing

The text of a program, with the names of its variables given by a function: the variable table
prints the source names, a coloring prints registers.
-/

namespace Regalloc

abbrev Naming := Var → String

def Slot.render (slot : Slot) : String :=
  "mem rsp " ++ toString slot.offset

def joinWith (separator : String) (texts : List String) : String :=
  separator.intercalate texts

namespace Expr

mutual

def render (naming : Naming) : Expr → String
  | .type ty => ty.render
  | .const value => Text.int64Text value
  | .label name => name
  | .var v => naming v
  | .slot s => s.render
  | .access base offsets =>
    base.render naming ++ String.join ((renderAll naming offsets).map fun text => "[" ++ text ++ "]")
  | .binary operator left right =>
    left.render naming ++ " " ++ operator.symbol ++ " " ++ right.render naming
  | .call _ callee args =>
    "call " ++ callee.render naming ++ "(" ++ joinWith ", " (renderAll naming args) ++ ")"
  | .newArray dims => "new Array(" ++ joinWith ", " (renderAll naming dims) ++ ")"
  | .newTuple size => "new Tuple(" ++ size.render naming ++ ")"
  | .length base dim => "length " ++ base.render naming ++ " " ++ dim.render naming

def renderAll (naming : Naming) : List Expr → List String
  | [] => []
  | expr :: exprs => expr.render naming :: renderAll naming exprs

end

end Expr

def Instruction.render (naming : Naming) : Instruction → String
  | .declare ty v => ty.render ++ " " ++ naming v
  | .call builtin callee args => (Expr.call builtin callee args).render naming
  | .assign target source => target.render naming ++ " <- " ++ source.render naming

def Terminator.render (naming : Naming) : Terminator → String
  | .ret => "return"
  | .retValue value => "return " ++ value.render naming
  | .jump target => "br " ++ target.render naming
  | .branch condition onTrue onFalse =>
    "br " ++ condition.render naming ++ " " ++ onTrue.render naming ++ " " ++ onFalse.render naming

def Block.pointTexts (naming : Naming) (block : Block) : List String :=
  block.instrs.map (Instruction.render naming) ++ [block.terminator.render naming]

def Block.render (naming : Naming) (block : Block) : String :=
  String.join ((block.label :: block.pointTexts naming).map fun line => "  " ++ line ++ "\n")

namespace Function

def renderWith (naming : Naming) (f : Function) : String :=
  let params := f.params.map fun param => param.ty.render ++ " " ++ naming param.v
  "define " ++ f.ret.render ++ " " ++ f.name ++ "(" ++ joinWith ", " params ++ ") \x7b\n" ++
    String.join (f.blocks.map (Block.render naming)) ++ "\x7d\n"

def render (f : Function) : String :=
  f.renderWith f.vars.name

end Function

/-- An empty line stands between two functions. -/
def Program.render (program : Program) : String :=
  joinWith "\n" (program.functions.map Function.render)

end Regalloc
