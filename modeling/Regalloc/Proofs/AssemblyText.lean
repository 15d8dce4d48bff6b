import Mathlib
import Regalloc.Allocation
import Regalloc.Proofs.ReadNames
import Regalloc.Proofs.RegisterAssignment

/-!
# The text of an allocated function

Every variable that is written down in an allocated function has a register, so its text can be
printed, with registers in place of variables. The sign that variables start with does not occur
in it if the function was read from a text: names of labels and functions do not contain the sign,
spilling brings in no names, and variables are printed as registers.
-/

namespace Regalloc

namespace Assembly

theorem generate_eq_ok {allocation : Allocation}
    (mentioned : ∀ v ∈ allocation.function.mentions, (allocation.coloring.color v).isSome)
    (written : ∀ v ∈ allocation.function.varOccurrences,
      (allocation.coloring.color v).isSome) :
    generate allocation = .ok (render allocation) := by
  have first : (IndexSet.ofList allocation.function.mentions).toList.find?
      (fun v => (allocation.coloring.color v).isNone) = none := by
    apply List.find?_eq_none.mpr
    intro v member
    rw [IndexSet.mem_toList, IndexSet.mem_ofList] at member
    simp [Option.isSome_iff_ne_none.mp (mentioned v member)]
  have second : allocation.function.varOccurrences.find?
      (fun v => (allocation.coloring.color v).isNone) = none := by
    apply List.find?_eq_none.mpr
    intro v member
    simp [Option.isSome_iff_ne_none.mp (written v member)]
  simp only [generate, check, first, second]
  rfl

end Assembly

/-- The sign that the names of variables start with does not occur in a text. -/
def Plain (text : String) : Prop :=
  '%' ∉ text.toList

instance (text : String) : Decidable (Plain text) :=
  inferInstanceAs (Decidable ('%' ∉ text.toList))

namespace Plain

@[simp] theorem append {first second : String} :
    Plain (first ++ second) ↔ Plain first ∧ Plain second := by
  rw [Plain, String.toList_append, List.mem_append, not_or]
  rfl

theorem join {texts : List String} (each : ∀ text ∈ texts, Plain text) :
    Plain (String.join texts) := by
  rw [Plain, String.toList_join, List.mem_flatMap]
  rintro ⟨text, member, sign⟩
  exact each text member sign

theorem joinWith {separator : String} (between : Plain separator) {texts : List String}
    (each : ∀ text ∈ texts, Plain text) : Plain (joinWith separator texts) := by
  rw [Plain, Regalloc.joinWith, String.toList_intercalate]
  induction texts with
  | nil => exact List.not_mem_nil
  | cons first rest ih =>
      have head := each first (List.mem_cons_self ..)
      have later := ih fun text member => each text (List.mem_cons_of_mem _ member)
      cases rest with
      | nil => simpa [List.intercalate, Plain] using head
      | cons second rest =>
          rw [List.map_cons, List.map_cons, List.intercalate_cons_cons, List.mem_append,
            List.mem_append, not_or, not_or]
          exact ⟨⟨head, between⟩, by simpa using later⟩

theorem nat (n : Nat) : Plain (toString n) := by
  rw [Plain, Nat.toString_eq_repr, Nat.toList_repr]
  intro sign
  have digit := Nat.isDigit_of_mem_toDigits (by decide) (by decide) sign
  exact absurd digit (by decide)

theorem int64Text (n : Int64) : Plain (Text.int64Text n) := by
  rw [Text.int64Text]
  cases n.toInt with
  | ofNat m => exact nat m
  | negSucc m => exact append.mpr ⟨by decide, nat (m + 1)⟩

theorem slot (slot : Slot) : Plain slot.render :=
  append.mpr ⟨by decide, nat _⟩

theorem operator (operator : Operator) : Plain operator.symbol := by
  cases operator <;> decide

theorem register (register : Register) : Plain register.name := by
  cases register <;> decide

theorem valueType (type : ValueType) : Plain type.render := by
  have kind : Plain type.kind.text := by cases type.kind <;> decide
  have dims : Plain (String.join (List.replicate type.dims "[]")) := by
    apply join
    intro text member
    rw [List.eq_of_mem_replicate member]
    decide
  unfold ValueType.render
  split
  · exact append.mpr ⟨kind, dims⟩
  · exact kind

theorem registerName (coloring : Coloring) (v : Var) :
    Plain (Assembly.registerName coloring v) := by
  unfold Assembly.registerName
  cases coloring.color v with
  | none => decide
  | some r => exact register r

section Rendered

variable {naming : Naming}

mutual

theorem expr (plain : ∀ v, Plain (naming v)) :
    ∀ expr : Expr, expr.Spelled Plain → Plain (expr.render naming)
  | .type ty, _ => valueType ty
  | .const value, _ => int64Text value
  | .label name, spelled => spelled name (List.mem_singleton_self _)
  | .var v, _ => plain v
  | .slot s, _ => slot s
  | .access base offsets, spelled => by
      simp only [Expr.Spelled, Expr.leaves, List.mem_append, or_imp, forall_and] at spelled
      have first := expr plain base spelled.1
      have each := exprs plain offsets spelled.2
      rw [Expr.render, append]
      refine ⟨first, join ?_⟩
      intro text member
      obtain ⟨offset, listed, rfl⟩ := List.mem_map.mp member
      simp only [append]
      exact ⟨⟨by decide, each offset listed⟩, by decide⟩
  | .binary symbol left right, spelled => by
      simp only [Expr.Spelled, Expr.leaves, List.mem_append, or_imp, forall_and] at spelled
      have first := expr plain left spelled.1
      have second := expr plain right spelled.2
      simp only [Expr.render, append]
      exact ⟨⟨⟨⟨first, by decide⟩, operator symbol⟩, by decide⟩, second⟩
  | .call _ callee args, spelled => by
      simp only [Expr.Spelled, Expr.leaves, List.mem_append, or_imp, forall_and] at spelled
      have first := expr plain callee spelled.1
      have each := exprs plain args spelled.2
      simp only [Expr.render, append]
      exact ⟨⟨⟨⟨by decide, first⟩, by decide⟩, joinWith (by decide) each⟩, by decide⟩
  | .newArray dims, spelled => by
      have each := exprs plain dims (by simpa only [Expr.Spelled, Expr.leaves] using spelled)
      simp only [Expr.render, append]
      exact ⟨⟨by decide, joinWith (by decide) each⟩, by decide⟩
  | .newTuple size, spelled => by
      have inner := expr plain size (by simpa only [Expr.Spelled, Expr.leaves] using spelled)
      simp only [Expr.render, append]
      exact ⟨⟨by decide, inner⟩, by decide⟩
  | .length base dim, spelled => by
      simp only [Expr.Spelled, Expr.leaves, List.mem_append, or_imp, forall_and] at spelled
      have first := expr plain base spelled.1
      have second := expr plain dim spelled.2
      simp only [Expr.render, append]
      exact ⟨⟨⟨by decide, first⟩, by decide⟩, second⟩

theorem exprs (plain : ∀ v, Plain (naming v)) :
    ∀ exprs : List Expr, (∀ name, Leaf.label name ∈ Expr.leavesOfAll exprs → Plain name) →
      ∀ text ∈ Expr.renderAll naming exprs, Plain text
  | [], _ => fun _ member => absurd member List.not_mem_nil
  | first :: rest, spelled => by
      simp only [Expr.leavesOfAll, List.mem_append, or_imp, forall_and] at spelled
      have head := expr plain first spelled.1
      have tail := exprs plain rest spelled.2
      exact List.forall_mem_cons.mpr ⟨head, tail⟩

end

variable (plain : ∀ v, Plain (naming v))

include plain

theorem instruction {instruction : Instruction}
    (spelled : ∀ expr ∈ instruction.exprs, expr.Spelled Plain) :
    Plain (instruction.render naming) := by
  cases instruction with
  | declare ty v =>
      simp only [Instruction.render, append]
      exact ⟨⟨valueType ty, by decide⟩, plain v⟩
  | call builtin callee args => exact expr plain _ (spelled _ (List.mem_singleton_self _))
  | assign target source =>
      have left := expr plain target (spelled target (List.mem_cons_self ..))
      have right := expr plain source (spelled source (by simp [Instruction.exprs]))
      simp only [Instruction.render, append]
      exact ⟨⟨left, by decide⟩, right⟩

theorem terminator {terminator : Terminator}
    (spelled : ∀ expr ∈ terminator.exprs, expr.Spelled Plain) :
    Plain (terminator.render naming) := by
  cases terminator with
  | ret =>
      rw [Terminator.render]
      decide
  | retValue value =>
      rw [Terminator.render, append]
      exact ⟨by decide, expr plain value (spelled value (List.mem_singleton_self _))⟩
  | jump target =>
      rw [Terminator.render, append]
      exact ⟨by decide, expr plain target (spelled target (List.mem_singleton_self _))⟩
  | branch condition onTrue onFalse =>
      have test := expr plain condition (spelled condition (List.mem_cons_self ..))
      have first := expr plain onTrue (spelled onTrue (by simp [Terminator.exprs]))
      have second := expr plain onFalse (spelled onFalse (by simp [Terminator.exprs]))
      simp only [Terminator.render, append]
      exact ⟨⟨⟨⟨⟨by decide, test⟩, by decide⟩, first⟩, by decide⟩, second⟩

theorem block {block : Block} (spelled : block.Spelled Plain) :
    Plain (block.render naming) := by
  apply join
  intro text member
  obtain ⟨line, listed, rfl⟩ := List.mem_map.mp member
  suffices inner : Plain line from append.mpr ⟨append.mpr ⟨by decide, inner⟩, by decide⟩
  simp only [Block.pointTexts, List.mem_cons, List.mem_append, List.mem_map, List.not_mem_nil,
    or_false] at listed
  rcases listed with rfl | ⟨i, inside, rfl⟩ | rfl
  · exact spelled.label
  · exact instruction plain (spelled.instrs i inside)
  · exact terminator plain spelled.terminator

theorem renderWith {f : Function} (spelled : f.Spelled Plain) : Plain (f.renderWith naming) := by
  have params : ∀ text ∈ f.params.map fun param => param.ty.render ++ " " ++ naming param.v,
      Plain text := by
    intro text member
    obtain ⟨param, -, rfl⟩ := List.mem_map.mp member
    simp only [append]
    exact ⟨⟨valueType param.ty, by decide⟩, plain param.v⟩
  have blocks : ∀ text ∈ f.blocks.map (Block.render naming), Plain text := by
    intro text member
    obtain ⟨b, listed, rfl⟩ := List.mem_map.mp member
    exact block plain (spelled.blocks b listed)
  unfold Function.renderWith
  simp only [append]
  exact ⟨⟨⟨⟨⟨⟨⟨⟨by decide, valueType f.ret⟩, by decide⟩, spelled.name⟩, by decide⟩,
    joinWith (by decide) params⟩, by decide⟩, join blocks⟩, by decide⟩

end Rendered

end Plain

theorem Expr.Spelled.mapVars {allowed : String → Prop} {rename : Var → Var} {expr : Expr}
    (spelled : expr.Spelled allowed) : (expr.mapVars rename).Spelled allowed := by
  intro name member
  rw [leaves_mapVars, List.mem_map] at member
  obtain ⟨leaf, listed, same⟩ := member
  cases leaf with
  | label other =>
      cases same
      exact spelled name listed
  | _ => cases same

namespace Spill

section Spelled

variable {allowed : String → Prop} {request : Request}

theorem spelled_load {t : Var} : ∀ expr ∈ (load request t).exprs, expr.Spelled allowed := by
  simp only [load, Instruction.exprs, List.forall_mem_cons]
  exact ⟨Expr.spelled_var _, Expr.spelled_slot _, fun _ member => absurd member List.not_mem_nil⟩

theorem spelled_store {t : Var} : ∀ expr ∈ (store request t).exprs, expr.Spelled allowed := by
  simp only [store, Instruction.exprs, List.forall_mem_cons]
  exact ⟨Expr.spelled_slot _, Expr.spelled_var _, fun _ member => absurd member List.not_mem_nil⟩

theorem kept_spelled (allowed : String → Prop) (request : Request) (low high : Nat) :
    Kept request low high (fun i => ∀ expr ∈ i.exprs, expr.Spelled allowed)
      (fun t => ∀ expr ∈ t.exprs, expr.Spelled allowed) where
  load _ _ := spelled_load
  store _ _ := spelled_store
  mapVars _ _ i spelled := by
    rw [Instruction.exprs_mapVars, List.forall_mem_map]
    exact fun expr part => (spelled expr part).mapVars
  ends _ _ t spelled := by
    rw [Terminator.exprs_mapVars, List.forall_mem_map]
    exact fun expr part => (spelled expr part).mapVars

/-- Spilling brings in no names but those of temporaries. -/
theorem spelled_one {f : Function} (spelled : f.Spelled allowed) (request : Request) :
    (one f request).function.Spelled allowed := by
  obtain ⟨⟨mid, shape⟩, -⟩ := one_rewritten f request
  refine ⟨shape.name ▸ spelled.name, ?_⟩
  intro b' member
  obtain ⟨instrs, terminator⟩ := Kept.rewritten shape (kept_spelled allowed request _ _)
    (fun b listed => ⟨(spelled.blocks b listed).instrs, (spelled.blocks b listed).terminator⟩)
    b' member
  have named : b'.label ∈ f.blocks.map Block.label := shape.labels ▸ List.mem_map_of_mem member
  obtain ⟨b, listed, same⟩ := List.mem_map.mp named
  exact ⟨same ▸ (spelled.blocks b listed).label, instrs, terminator⟩

theorem spelled_all {f : Function} (spelled : f.Spelled allowed) (stem : String)
    (vars : List Var) (first : Nat) : (all stem f vars first).function.Spelled allowed := by
  induction vars generalizing f first with
  | nil => exact spelled
  | cons v rest ih => exact ih (spelled_one spelled _) (first + 1)

end Spelled

end Spill

theorem Allocation.spelled_of_spillRounds {allowed : String → Prop} {stem : String}
    {f f' : Function} (rounds : Relation.ReflTransGen (SpillRound stem) f f')
    (spelled : f.Spelled allowed) : f'.Spelled allowed := by
  induction rounds with
  | refl => exact spelled
  | tail _ round ih =>
      obtain ⟨vars, rfl⟩ := round
      exact Spill.spelled_all ih _ _ _

namespace Source

inductive Parsed : Function → Prop
  | program {text : String} {program : Program} {f : Function} :
      parseProgram text = .ok program → f ∈ program.functions → Parsed f
  | function {text : String} {f : Function} : parseFunction text = .ok f → Parsed f
  | spillRequest {text : String} {request : SpillRequest} :
      parseSpillRequest text = .ok request → Parsed request.function

theorem plain_of_isName (name : String) (isName : IsName name) : Plain name := by
  obtain ⟨sign, rest, chars, signs, each⟩ := isName
  rw [Plain, chars, List.mem_cons, not_or]
  constructor
  · rcases signs with rfl | rfl <;> decide
  · intro member
    exact absurd (each '%' member) (by decide +kernel)

theorem Parsed.spelled {f : Function} (parsed : Parsed f) : f.Spelled Plain := by
  have builtins : ∀ builtin : Builtin, Plain builtin.name := by
    intro builtin
    cases builtin <;> decide
  cases parsed with
  | program read listed =>
      exact post_of_read plain_of_isName (takes_program builtins) read f listed
  | function read => exact post_of_read plain_of_isName (takes_singleFunction builtins) read
  | spillRequest read =>
      have spelled := post_of_read plain_of_isName (takes_spillRequest builtins) read
      exact spelled

end Source

/-- What was allocated can be printed: the text is a line with the size of the frame and then the
function, with the register of each variable in place of it. The text of a function that was read
shows no variable. -/
theorem generate_allocated (config : Allocation.Config) (f : Function) (a : Allocation)
    (allocated : (allocate config f).result = .ok a) :
    ∃ shown : Var → String,
      (∀ v ∈ a.function.varOccurrences, ∃ r ∈ config.target.allocatable,
        a.coloring.color v = some r ∧ shown v = r.name) ∧
      Assembly.generate a = .ok ("// frame: " ++ toString (8 * a.frameSlots) ++ " bytes\n" ++
        a.function.renderWith shown) ∧
      (Source.Parsed f → ∀ text, Assembly.generate a = .ok text → '%' ∉ text.toList) := by
  obtain ⟨rounds, ⟨flow, built, sound⟩, -⟩ := allocate_eq_ok allocated
  have generated : Assembly.generate a = .ok (Assembly.render a) := by
    apply Assembly.generate_eq_ok
    · intro v occurs
      obtain ⟨r, -, colored⟩ :=
        sound.colored v ((Interference.var_mem_nodes_iff built).mpr occurs)
      rw [colored, Option.isSome_some]
    · intro v occurs
      obtain ⟨r, -, colored⟩ := sound.written built occurs
      rw [colored, Option.isSome_some]
  refine ⟨Assembly.registerName a.coloring, ?_, generated, ?_⟩
  · intro v occurs
    obtain ⟨r, allocatable, colored⟩ := sound.written built occurs
    exact ⟨r, allocatable, colored, by rw [Assembly.registerName, colored, Option.elim_some]⟩
  · intro parsed text printed
    cases generated.symm.trans printed
    have spelled := Allocation.spelled_of_spillRounds rounds parsed.spelled
    have body := Plain.renderWith (Plain.registerName a.coloring) spelled
    have whole : Plain (Assembly.render a) := by
      simp only [Assembly.render, Plain.append]
      exact ⟨⟨⟨by decide, Plain.nat _⟩, by decide⟩, body⟩
    exact whole

/-- A variable that lives in a slot shows as the register that it is loaded into. -/
theorem generate_allocated_spilled :
    ∃ f a text, Source.parseFunction
        ("define void @m() \x7b\n:s\n%a <- 1\n%b <- 2\n" ++
          "call print(%b)\ncall print(%a)\nreturn\n\x7d") = .ok f ∧
      (allocate { target := .withRegisters 1 } f).result = .ok a ∧
      Assembly.generate a = .ok text ∧ '%' ∉ text.toList ∧
      text =
        "// frame: 8 bytes\ndefine void @m() \x7b\n  :s\n  r10 <- 1\n  mem rsp 0 <- r10\n" ++
          "  r10 <- 2\n  call print(r10)\n  r10 <- mem rsp 0\n  call print(r10)\n  return\n" ++
          "\x7d\n" := by
  have ran :
      ((Source.parseFunction
        ("define void @m() \x7b\n:s\n%a <- 1\n%b <- 2\n" ++
          "call print(%b)\ncall print(%a)\nreturn\n\x7d")).toOption.bind
        fun f => (allocate { target := .withRegisters 1 } f).result.toOption.bind
          fun a => (Assembly.generate a).toOption) =
        some ("// frame: 8 bytes\ndefine void @m() \x7b\n  :s\n  r10 <- 1\n  mem rsp 0 <- r10\n" ++
          "  r10 <- 2\n  call print(r10)\n  r10 <- mem rsp 0\n  call print(r10)\n  return\n" ++
          "\x7d\n") := by
    decide +kernel
  simp only [Option.bind_eq_some_iff, toOption_eq_some] at ran
  obtain ⟨f, parsed, a, allocated, printed⟩ := ran
  obtain ⟨shown, -, -, plain⟩ := generate_allocated _ f a allocated
  exact ⟨f, a, _, parsed, allocated, printed, plain (.function parsed) _ printed, rfl⟩

end Regalloc
