import Mathlib
import Regalloc.Proofs.LiveRenaming
import Regalloc.Proofs.RoundTrip

/-!
# Phrases in other spellings

Tokens stay a phrase when the names of variables are changed, if the variables are changed with
them. So the lines of a function can be read against another table than its own: the text of a
function whose table holds names that no line shows, in any order, is read as the function with its
variables numbered by first occurrence, and that function has the same text.
-/

namespace Regalloc

theorem Expr.mapVarsOfAll_eq (rename : Var → Var) (exprs : List Expr) :
    mapVarsOfAll rename exprs = exprs.map (mapVars rename) := by
  induction exprs with
  | nil => rfl
  | cons expr exprs ih => rw [mapVarsOfAll, ih, List.map_cons]

theorem Function.renderWith_congr {f f' : Function} {naming naming' : Naming}
    (name : f'.name = f.name) (ret : f'.ret = f.ret)
    (params : f'.params.map (fun param => param.ty.render ++ " " ++ naming' param.v) =
      f.params.map fun param => param.ty.render ++ " " ++ naming param.v)
    (blocks : f'.blocks.map (Block.render naming') = f.blocks.map (Block.render naming)) :
    f'.renderWith naming' = f.renderWith naming := by
  change "define " ++ f'.ret.render ++ " " ++ f'.name ++ "(" ++
      joinWith ", " (f'.params.map fun param => param.ty.render ++ " " ++ naming' param.v) ++
      ") \x7b\n" ++ String.join (f'.blocks.map (Block.render naming')) ++ "\x7d\n" = _
  rw [name, ret, params, blocks]
  rfl

namespace Source

open Phrase

/-- Variables of one table as variables of another, and new names for the names of the first. -/
structure Respelling where
  source : VarTable
  target : VarTable
  spell : String → String
  rename : Var → Var

namespace Respelling

def token (r : Respelling) : TokenKind → TokenKind
  | .var name => .var (r.spell name)
  | kind => kind

def naming (r : Respelling) : Naming :=
  fun v => r.spell (r.source.name v)

def Fits (r : Respelling) (kind : TokenKind) : Prop :=
  ∀ v : Var, v.index < r.source.size → kind = .var (r.source.name v) →
    (r.rename v).index < r.target.size ∧ r.target.name (r.rename v) = r.naming v

def Renders (r : Respelling) (expr : Expr) : Prop :=
  (expr.mapVars r.rename).render r.target.name = expr.render r.naming

variable {r : Respelling} {kinds : List TokenKind}

theorem token_of_keeps (keeps : r.spell = id) (kind : TokenKind) : r.token kind = kind := by
  cases kind <;> simp [token, keeps]

theorem map_token_of_keeps (keeps : r.spell = id) (kinds : List TokenKind) :
    kinds.map r.token = kinds :=
  List.map_id'' (token_of_keeps keeps) kinds

theorem endsOperand_token (kind : TokenKind) : (r.token kind).endsOperand = kind.endsOperand := by
  cases kind <;> rfl

theorem token_eq_number {kind : TokenKind} {n : Int64} (same : r.token kind = .number n) :
    kind = .number n := by
  cases kind <;> cases same
  rfl

theorem printable_token {kind : TokenKind} (printable : kind.Printable)
    (signed : ∀ name, kind = .var name → IsSigned '%' (r.spell name)) :
    (r.token kind).Printable := by
  cases kind with
  | var name => exact signed name rfl
  | _ => exact printable

/-- Names do not matter for where a minus sign subtracts. -/
theorem clean_map_token (clean : Clean kinds)
    (signed : ∀ name, .var name ∈ kinds → IsSigned '%' (r.spell name)) :
    Clean (kinds.map r.token) where
  printable := by
    rw [List.forall_mem_map]
    intro kind member
    exact printable_token (clean.printable kind member) fun name same => signed name (same ▸ member)
  chain := by
    rw [List.isChain_map]
    refine clean.chain.imp fun before kind apart n same neg => ?_
    rw [endsOperand_token]
    exact apart n (token_eq_number same) neg

end Respelling

namespace Phrase

variable {r : Respelling} {kinds : List TokenKind} {expr : Expr}

theorem brackets_respell (count : Nat) : (brackets count).map r.token = brackets count := by
  rw [brackets, List.map_flatten, List.map_replicate]
  rfl

theorem Ty.respell {ty : ValueType} (spelled : Ty kinds ty) : kinds.map r.token = kinds := by
  cases spelled with
  | int64 dims =>
      rw [List.map_cons, brackets_respell]
      rfl
  | plain other => rfl

theorem StackSlot.respell (slot : StackSlot kinds expr) :
    StackSlot (kinds.map r.token) (expr.mapVars r.rename) ∧ r.Renders expr := by
  obtain ⟨found⟩ := slot
  exact ⟨.mk found, rfl⟩

theorem var_respell {v : Var} (fits : ∀ kind ∈ kinds, r.Fits kind)
    (named : .var (r.source.name v) ∈ kinds) (small : v.index < r.source.size) :
    (r.rename v).index < r.target.size ∧
      r.token (.var (r.source.name v)) = .var (r.target.name (r.rename v)) ∧
      r.target.name (r.rename v) = r.naming v := by
  obtain ⟨inside, same⟩ := fits _ named v small rfl
  exact ⟨inside, congrArg TokenKind.var same.symm, same⟩

theorem Operand.respell (operand : Operand r.source kinds expr)
    (fits : ∀ kind ∈ kinds, r.Fits kind) :
    Operand r.target (kinds.map r.token) (expr.mapVars r.rename) ∧ r.Renders expr := by
  cases operand with
  | var small =>
      obtain ⟨inside, token, name⟩ := var_respell fits List.mem_cons_self small
      rw [List.map_singleton, token]
      exact ⟨.var inside, name⟩
  | const n => exact ⟨.const n, rfl⟩
  | label name => exact ⟨.label name, rfl⟩
  | function name => exact ⟨.function name, rfl⟩

theorem Separated.respell {α : Type} {item item' : List TokenKind → α → Prop} {rename : α → α}
    {text text' : α → String} {list : List α} (separated : Separated item kinds list)
    (fits : ∀ kind ∈ kinds, r.Fits kind)
    (each : ∀ kinds a, item kinds a → (∀ kind ∈ kinds, r.Fits kind) →
      item' (kinds.map r.token) (rename a) ∧ text' (rename a) = text a) :
    Separated item' (kinds.map r.token) (list.map rename) ∧
      (list.map rename).map text' = list.map text := by
  induction separated with
  | one spelled =>
      obtain ⟨spelled, same⟩ := each _ _ spelled fits
      exact ⟨.one spelled, congrArg (fun text => [text]) same⟩
  | more spelled separated ih =>
      simp only [List.forall_mem_append, List.forall_mem_cons] at fits
      obtain ⟨spelled, same⟩ := each _ _ spelled fits.1
      obtain ⟨separated, later⟩ := ih fits.2.2
      rw [List.map_append]
      exact ⟨.more spelled separated, congrArg₂ List.cons same later⟩

theorem Arguments.respell {args : List Expr} (passed : Arguments r.source kinds args)
    (fits : ∀ kind ∈ kinds, r.Fits kind) :
    Arguments r.target (kinds.map r.token) (Expr.mapVarsOfAll r.rename args) ∧
      Expr.renderAll r.target.name (Expr.mapVarsOfAll r.rename args) =
        Expr.renderAll r.naming args := by
  rw [Expr.mapVarsOfAll_eq, renderAll_eq, renderAll_eq]
  cases passed with
  | none => exact ⟨.none, rfl⟩
  | some separated =>
      simp only [List.forall_mem_cons, List.forall_mem_append] at fits
      obtain ⟨separated, texts⟩ := separated.respell fits.2.1 fun _ _ => Operand.respell
      rw [List.map_cons, List.map_append]
      exact ⟨.some separated, texts⟩

theorem Callee.respell {builtin : Bool} (callee : Callee r.source kinds builtin expr)
    (fits : ∀ kind ∈ kinds, r.Fits kind) :
    Callee r.target (kinds.map r.token) builtin (expr.mapVars r.rename) ∧ r.Renders expr := by
  cases callee with
  | builtin b => exact ⟨.builtin b, rfl⟩
  | var small =>
      obtain ⟨inside, token, name⟩ := var_respell fits List.mem_cons_self small
      rw [List.map_singleton, token]
      exact ⟨.var inside, name⟩
  | function name => exact ⟨.function name, rfl⟩

theorem Call.respell {builtin : Bool} {args : List Expr}
    (call : Call r.source kinds builtin expr args) (fits : ∀ kind ∈ kinds, r.Fits kind) :
    Call r.target (kinds.map r.token) builtin (expr.mapVars r.rename)
        (Expr.mapVarsOfAll r.rename args) ∧ r.Renders (.call builtin expr args) := by
  obtain ⟨callee, passed⟩ := call
  simp only [List.forall_mem_cons, List.forall_mem_append] at fits
  obtain ⟨callee, name⟩ := callee.respell fits.2.1
  obtain ⟨passed, texts⟩ := passed.respell fits.2.2
  rw [List.map_cons, List.map_append]
  refine ⟨.mk callee passed, ?_⟩
  rw [Respelling.Renders, Expr.mapVars, Expr.render, Expr.render, name, texts]

theorem Offsets.respell {list : List Expr} (offsets : Offsets r.source kinds list)
    (fits : ∀ kind ∈ kinds, r.Fits kind) :
    Offsets r.target (kinds.map r.token) (Expr.mapVarsOfAll r.rename list) ∧
      Expr.renderAll r.target.name (Expr.mapVarsOfAll r.rename list) =
        Expr.renderAll r.naming list := by
  induction offsets with
  | nil => exact ⟨.nil, rfl⟩
  | cons operand offsets ih =>
      simp only [List.forall_mem_cons, List.forall_mem_append] at fits
      obtain ⟨operand, text⟩ := operand.respell fits.2.1
      obtain ⟨offsets, texts⟩ := ih fits.2.2.2
      rw [List.map_cons, List.map_append]
      exact ⟨.cons operand offsets, congrArg₂ List.cons text texts⟩

theorem Element.respell (element : Element r.source kinds expr)
    (fits : ∀ kind ∈ kinds, r.Fits kind) :
    Element r.target (kinds.map r.token) (expr.mapVars r.rename) ∧ r.Renders expr := by
  obtain ⟨small, offsets, some⟩ := element
  obtain ⟨inside, token, base⟩ := var_respell fits List.mem_cons_self small
  rw [List.forall_mem_cons] at fits
  obtain ⟨offsets, texts⟩ := offsets.respell fits.2
  rw [List.map_cons, token]
  refine ⟨.mk inside offsets ?_, ?_⟩
  · rwa [Expr.mapVarsOfAll_eq, ne_eq, List.map_eq_nil_iff]
  · rw [Respelling.Renders, Expr.mapVars, Expr.render, Expr.render, texts]
    exact congrArg (· ++ _) base

theorem Simple.respell (simple : Simple r.source kinds expr) (fits : ∀ kind ∈ kinds, r.Fits kind) :
    Simple r.target (kinds.map r.token) (expr.mapVars r.rename) ∧ r.Renders expr := by
  cases simple with
  | operand operand => exact (operand.respell fits).imp_left .operand
  | element element => exact (element.respell fits).imp_left .element

theorem Place.respell (place : Place r.source kinds expr) (fits : ∀ kind ∈ kinds, r.Fits kind) :
    Place r.target (kinds.map r.token) (expr.mapVars r.rename) ∧ r.Renders expr := by
  cases place with
  | slot slot => exact slot.respell.imp_left .slot
  | var small =>
      obtain ⟨inside, token, name⟩ := var_respell fits List.mem_cons_self small
      rw [List.map_singleton, token]
      exact ⟨.var inside, name⟩
  | element element => exact (element.respell fits).imp_left .element

theorem Assigned.respell (assigned : Assigned r.source kinds expr)
    (fits : ∀ kind ∈ kinds, r.Fits kind) :
    Assigned r.target (kinds.map r.token) (expr.mapVars r.rename) ∧ r.Renders expr := by
  cases assigned with
  | call call => exact (call.respell fits).imp_left .call
  | slot slot => exact slot.respell.imp_left .slot
  | length first second =>
      simp only [List.forall_mem_cons, List.forall_mem_append] at fits
      obtain ⟨first, base⟩ := first.respell fits.2.1
      obtain ⟨second, dim⟩ := second.respell fits.2.2
      rw [List.map_cons, List.map_append]
      refine ⟨.length first second, ?_⟩
      rw [Respelling.Renders, Expr.mapVars, Expr.render, Expr.render, base, dim]
  | newArray passed =>
      simp only [List.forall_mem_cons] at fits
      obtain ⟨passed, texts⟩ := passed.respell fits.2.2
      refine ⟨.newArray passed, ?_⟩
      rw [Respelling.Renders, Expr.mapVars, Expr.render, Expr.render, texts]
  | newTuple operand =>
      simp only [List.forall_mem_cons, List.forall_mem_append] at fits
      obtain ⟨operand, size⟩ := operand.respell fits.2.2.2.1
      rw [List.map_cons, List.map_cons, List.map_cons, List.map_append]
      refine ⟨.newTuple operand, ?_⟩
      rw [Respelling.Renders, Expr.mapVars, Expr.render, Expr.render, size]
  | simple simple => exact (simple.respell fits).imp_left .simple
  | binary simple operand =>
      simp only [List.forall_mem_cons, List.forall_mem_append] at fits
      obtain ⟨simple, left⟩ := simple.respell fits.1
      obtain ⟨operand, right⟩ := operand.respell fits.2.2
      rw [List.map_append]
      refine ⟨.binary simple operand, ?_⟩
      rw [Respelling.Renders, Expr.mapVars, Expr.render, Expr.render, left, right]

theorem Instr.respell {i : Instruction} (spelled : Instr r.source kinds i)
    (fits : ∀ kind ∈ kinds, r.Fits kind) :
    Instr r.target (kinds.map r.token) (i.mapVars r.rename) ∧
      (i.mapVars r.rename).render r.target.name = i.render r.naming := by
  cases spelled with
  | declare typed small =>
      obtain ⟨inside, token, name⟩ :=
        var_respell fits (List.mem_append_right _ List.mem_cons_self) small
      rw [List.map_append, List.map_singleton, token, typed.respell]
      exact ⟨.declare typed inside, congrArg (_ ++ ·) name⟩
  | call call => exact (call.respell fits).imp_left .call
  | assign place assigned =>
      simp only [List.forall_mem_append, List.forall_mem_cons] at fits
      obtain ⟨place, target⟩ := place.respell fits.1
      obtain ⟨assigned, source⟩ := assigned.respell fits.2.2
      rw [List.map_append]
      refine ⟨.assign place assigned, ?_⟩
      rw [Instruction.mapVars, Instruction.render, Instruction.render, target, source]

theorem End.respell {t : Terminator} (spelled : End r.source kinds t)
    (fits : ∀ kind ∈ kinds, r.Fits kind) :
    End r.target (kinds.map r.token) (t.mapVars r.rename) ∧
      (t.mapVars r.rename).render r.target.name = t.render r.naming := by
  cases spelled with
  | ret => exact ⟨.ret, rfl⟩
  | retValue value =>
      rw [List.forall_mem_cons] at fits
      obtain ⟨value, text⟩ := value.respell fits.2
      exact ⟨.retValue value, congrArg (_ ++ ·) text⟩
  | jump target =>
      rw [List.forall_mem_cons] at fits
      obtain ⟨target, text⟩ := target.respell fits.2
      exact ⟨.jump target, congrArg (_ ++ ·) text⟩
  | branch condition onTrue onFalse =>
      simp only [List.forall_mem_cons, List.forall_mem_append] at fits
      obtain ⟨condition, first⟩ := condition.respell fits.2.1
      obtain ⟨onTrue, second⟩ := onTrue.respell fits.2.2.1
      obtain ⟨onFalse, third⟩ := onFalse.respell fits.2.2.2
      rw [List.map_cons, List.map_append, List.map_append]
      refine ⟨.branch condition onTrue onFalse, ?_⟩
      rw [Terminator.mapVars, Terminator.render, Terminator.render, first, second, third]

theorem Parameter.respell {param : Param} (spelled : Parameter r.source kinds param)
    (fits : ∀ kind ∈ kinds, r.Fits kind) :
    Parameter r.target (kinds.map r.token) { param with v := r.rename param.v } ∧
      param.ty.render ++ " " ++ r.target.name (r.rename param.v) =
        param.ty.render ++ " " ++ r.naming param.v := by
  obtain ⟨typed, small⟩ := spelled
  obtain ⟨inside, token, name⟩ :=
    var_respell fits (List.mem_append_right _ List.mem_cons_self) small
  rw [List.map_append, List.map_singleton, token, typed.respell]
  exact ⟨.mk typed inside, congrArg (_ ++ ·) name⟩

theorem Parameters.respell {params : List Param} (spelled : Parameters r.source kinds params)
    (fits : ∀ kind ∈ kinds, r.Fits kind) :
    Parameters r.target (kinds.map r.token)
        (params.map fun param => { param with v := r.rename param.v }) ∧
      (params.map fun param => { param with v := r.rename param.v }).map
          (fun param => param.ty.render ++ " " ++ r.target.name param.v) =
        params.map fun param => param.ty.render ++ " " ++ r.naming param.v := by
  cases spelled with
  | none => exact ⟨.none, rfl⟩
  | some separated => exact (separated.respell fits fun _ _ => Parameter.respell).imp_left .some

theorem forall₂_respell {α β : Type} {R S : β → α → Prop} {spell : β → β} {rename : α → α}
    {text text' : α → String} {others : List β} {list : List α} (each : List.Forall₂ R others list)
    (step : ∀ b ∈ others, ∀ a, R b a → S (spell b) (rename a) ∧ text' (rename a) = text a) :
    List.Forall₂ S (others.map spell) (list.map rename) ∧
      (list.map rename).map text' = list.map text := by
  induction each with
  | nil => exact ⟨.nil, rfl⟩
  | cons related each ih =>
      rw [List.forall_mem_cons] at step
      obtain ⟨related, same⟩ := step.1 _ related
      obtain ⟨each, later⟩ := ih step.2
      exact ⟨.cons related each, congrArg₂ List.cons same later⟩

theorem BlockLines.respell {lines : List (List TokenKind)} {block : Block}
    (spelled : BlockLines r.source lines block)
    (fits : ∀ line ∈ lines, ∀ kind ∈ line, r.Fits kind) :
    BlockLines r.target (lines.map (List.map r.token)) (block.mapVars r.rename) ∧
      (block.mapVars r.rename).render r.target.name = block.render r.naming := by
  obtain ⟨each, last⟩ := spelled
  simp only [List.forall_mem_cons, List.forall_mem_append] at fits
  obtain ⟨each, texts⟩ :=
    forall₂_respell each fun line listed _ spelled => spelled.respell (fits.2.1 line listed)
  obtain ⟨last, text⟩ := last.respell fits.2.2.1
  rw [List.map_cons, List.map_append]
  refine ⟨.mk each last, ?_⟩
  rw [Block.render, Block.render, Block.pointTexts, Block.pointTexts]
  simp only [Block.mapVars, texts, text]

/-- The lines of a function, whatever else its table holds. -/
inductive Drafts : List (List TokenKind) → Function → Prop
  | mk {f : Function} {ret params : List TokenKind} {blocks : List (List (List TokenKind))} :
      Ty ret f.ret → Parameters f.vars params f.params →
      List.Forall₂ (BlockLines f.vars) blocks f.blocks → f.blocks ≠ [] →
      (f.blocks.map Block.label).Nodup →
      Drafts (headLine ret f.name params :: (blocks.flatten ++ [[.rightBrace]])) f

section Drafts

variable {lines : List (List TokenKind)} {f : Function}

theorem Ty.varNames_headLine {ty : ValueType} {ret : List TokenKind} (typed : Ty ret ty)
    (name : String) (params : List TokenKind) :
    varNames (headLine ret name params) = varNames params := by
  have nameless : ret.filterMap _ = [] := typed.varNames_eq
  simp only [headLine, varNames, List.filterMap_cons, List.filterMap_append, nameless,
    List.filterMap_nil, List.nil_append, List.append_nil]

theorem Drafts.functionLines (drafts : Drafts lines f)
    (vars : f.vars = VarTable.internAll {} (varNames lines.flatten)) : FunctionLines lines f := by
  cases drafts with
  | @mk _ ret params parts typed listed each some distinct =>
      have names :
          varNames (headLine ret f.name params :: (parts.flatten ++ [[.rightBrace]])).flatten =
            varNames (params ++ parts.flatten.flatten) := by
        have brace : varNames [.rightBrace] = [] := rfl
        simp only [List.flatten_cons, List.flatten_append, List.flatten_nil, varNames_append,
          typed.varNames_headLine, List.append_nil, brace]
      rw [names] at vars
      exact .mk typed listed each some distinct vars

end Drafts

end Phrase

def Respelling.function (r : Respelling) (f : Function) : Function :=
  { f.mapVars r.rename with vars := r.target }

theorem Phrase.Drafts.respell {r : Respelling} {lines : List (List TokenKind)} {f : Function}
    (drafts : Drafts lines f) (source : f.vars = r.source)
    (fits : ∀ line ∈ lines, ∀ kind ∈ line, r.Fits kind) :
    Drafts (lines.map (List.map r.token)) (r.function f) ∧
      (r.function f).render = f.renderWith r.naming := by
  cases drafts with
  | @mk _ ret params parts typed listed each some distinct =>
      rw [source] at listed each
      simp only [List.forall_mem_cons, List.forall_mem_append] at fits
      obtain ⟨head, inside, -⟩ := fits
      simp only [headLine, List.forall_mem_cons, List.forall_mem_append] at head
      obtain ⟨listed, texts⟩ := listed.respell head.2.2.2.2.1
      obtain ⟨each, bodies⟩ := forall₂_respell each fun part listed _ spelled =>
        spelled.respell fun line member => inside line (List.mem_flatten.mpr ⟨part, listed, member⟩)
      have some' : (r.function f).blocks ≠ [] := by
        simpa [Respelling.function, Function.mapVars] using some
      have labels : (r.function f).blocks.map Block.label = f.blocks.map Block.label :=
        Function.labels_mapVars r.rename f
      have distinct' : ((r.function f).blocks.map Block.label).Nodup := labels ▸ distinct
      have head : (headLine ret f.name params).map r.token =
          headLine ret f.name (params.map r.token) := by
        simp [headLine, typed.respell, Respelling.token]
      constructor
      · rw [List.map_cons, head, List.map_append, List.map_flatten]
        exact @Drafts.mk (r.function f) _ _ _ typed listed each some' distinct'
      · exact Function.renderWith_congr rfl rfl texts bodies

def renumbering (lines : List (List TokenKind)) (f : Function) : Respelling :=
  let table := VarTable.internAll {} (varNames lines.flatten)
  ⟨f.vars, table, id, fun v => (table.intern (f.vars.name v)).1⟩

theorem mem_varNames {kinds : List TokenKind} {name : String} (member : .var name ∈ kinds) :
    name ∈ varNames kinds :=
  List.mem_filterMap.mpr ⟨_, member, rfl⟩

theorem fits_renumbering (lines : List (List TokenKind)) (f : Function) :
    ∀ line ∈ lines, ∀ kind ∈ line, (renumbering lines f).Fits kind := by
  rintro line listed _ member v - rfl
  have written : f.vars.name v ∈ varNames lines.flatten :=
    mem_varNames (List.mem_flatten.mpr ⟨line, listed, member⟩)
  apply VarTable.Extends.name_intern
  rw [VarTable.intern_of_mem (VarTable.mem_names_internAll written)]
  exact .refl _

section Reading

variable {lines others : List (List TokenKind)} {f : Function}

/-- The lines of a function are the lines of the function with its variables renumbered, and both
have the same text. -/
theorem Phrase.Drafts.renumbered (drafts : Drafts lines f) :
    FunctionLines lines ((renumbering lines f).function f) ∧
      ((renumbering lines f).function f).render = f.render := by
  obtain ⟨drafts, text⟩ := drafts.respell rfl (fits_renumbering lines f)
  have kept : lines.map (List.map (renumbering lines f).token) = lines :=
    List.map_id'' (Respelling.map_token_of_keeps rfl) lines
  rw [kept] at drafts
  exact ⟨drafts.functionLines rfl, text⟩

theorem Phrase.Layout.skips {reader : Reader} (layout : Layout reader.kinds lines)
    (starts : ∀ line ∈ lines.head?, ∃ first rest, line = first :: rest ∧ first ≠ .newline) :
    ∃ after, skipNewlines reader = .ok ((), after) ∧ Layout after.kinds lines ∧
      after.kinds.head? ≠ some .newline := by
  obtain ⟨count, rest, here, visible, layout⟩ := layout.exists_newlines starts
  obtain ⟨after, skipped, left, -⟩ := Accepts.run_nameless
    (fun _ => accepts_skipNewlines count visible) (varNames_newlines count) here
  rw [← left] at layout visible
  exact ⟨after, skipped, layout, visible⟩

theorem Phrase.FunctionLines.reads_between (spelled : FunctionLines lines f) {reader : Reader}
    (layout : Layout reader.kinds (lines ++ others))
    (starts : ∀ line ∈ others.head?, ∃ first rest, line = first :: rest ∧ first ≠ .newline) :
    ∃ start middle after, skipNewlines reader = .ok ((), start) ∧
      function start = .ok (f, middle) ∧ skipNewlines middle = .ok ((), after) ∧
      Layout after.kinds others ∧ after.kinds.head? ≠ some .newline := by
  have opens : ∀ line ∈ (lines ++ others).head?,
      ∃ first rest, line = first :: rest ∧ first ≠ .newline := by
    cases spelled
    rintro _ ⟨⟩
    exact ⟨_, _, rfl, nofun⟩
  obtain ⟨start, skipped, layout, visible⟩ := layout.skips opens
  obtain ⟨middle, read, layout, -⟩ := spelled.reads layout visible
  obtain ⟨after, skipped', layout, visible⟩ := layout.skips starts
  exact ⟨start, middle, after, skipped, read, skipped', layout, visible⟩

theorem Phrase.Layout.eq_nil {kinds : List TokenKind} (layout : Layout kinds [])
    (visible : kinds.head? ≠ some .newline) : kinds = [] := by
  cases layout with
  | nil => rfl
  | newline layout => exact absurd rfl visible

theorem expectEnd_eq {reader : Reader} (empty : reader.kinds = []) :
    expectEnd reader = .ok ((), reader) := by
  refine parse_bind_ok rfl ?_
  rw [reader.peek_eq, empty]
  rfl

theorem Phrase.FunctionLines.exists_scan (spelled : FunctionLines lines f)
    (clean : ∀ line ∈ lines, Clean line) {text : String} {more : List TokenKind}
    (writes : Writes more text.toList) (cleaned : Clean more) (layout : Layout more others) :
    ∃ lines' tokens, FunctionLines lines' f ∧ scan (f.render ++ text) = .ok tokens ∧
      Layout (tokens.map Token.kind) (lines' ++ others) := by
  obtain ⟨lines', spelled, prints⟩ :=
    spelled.prints fun line member => (clean line member).printable
  have chain := (clean_spread (prints.clean clean) cleaned).chain
  have written := prints.writes more text.toList writes
  rw [← String.toList_append] at written
  refine ⟨lines', _, spelled, scan_of_writes written chain, ?_⟩
  rw [kinds_numbered]
  exact layout_spread lines' layout

theorem Phrase.FunctionLines.parses (spelled : FunctionLines lines f)
    (clean : ∀ line ∈ lines, Clean line) : parseFunction f.render = .ok f := by
  have nothing : Writes [] ("" : String).toList := .nil
  obtain ⟨lines', tokens, spelled, scanned, layout⟩ := spelled.exists_scan clean nothing .nil .nil
  rw [String.append_empty] at scanned
  have layout : Layout (Reader.kinds { rest := tokens }) (lines' ++ []) := layout
  obtain ⟨start, middle, after, skipped, read, skipped', layout, visible⟩ :=
    spelled.reads_between layout (by simp)
  have ended := expectEnd_eq (layout.eq_nil visible)
  have whole : singleFunction { rest := tokens } = .ok (f, after) :=
    parse_bind_ok skipped (parse_bind_ok read (parse_bind_ok skipped' (parse_bind_ok ended rfl)))
  rw [parseFunction, Source.read, scanned]
  change (singleFunction { rest := tokens } >>= _) = _
  rw [whole]
  rfl

end Reading

end Source

end Regalloc
