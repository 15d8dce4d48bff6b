import Mathlib
import Regalloc.Proofs.StaticFaults

/-!
# Jumps and edges of the flow graph

The flow graph takes a label for the first block that carries it, the machine for the last. So
control always goes to a block that has the label of a successor, and it goes to the successor
itself as long as no block that is jumped to shares its label with another. Which jumps a run
takes is told by observers: they are notified of every jump in every call of the run and may
change the state or stop the machine.
-/

namespace Regalloc

def Function.labelAt? (f : Function) (block : Nat) : Option String :=
  f.blocks[block]?.map Block.label

namespace Flow

def Edge (flow : Flow) (source target : Nat) : Prop :=
  target ∈ flow.successorsOf source ∧ source ∈ flow.predecessorsOf target

instance (flow : Flow) (source target : Nat) : Decidable (flow.Edge source target) :=
  inferInstanceAs (Decidable (_ ∧ _))

def OwnLabels (flow : Flow) (f : Function) : Prop :=
  ∀ targets ∈ flow.successors, ∀ target ∈ targets, ∀ other < f.blocks.length,
    f.labelAt? other = f.labelAt? target → other = target

instance (flow : Flow) (f : Function) : Decidable (flow.OwnLabels f) :=
  inferInstanceAs (Decidable (∀ _ ∈ _, ∀ _ ∈ _, ∀ _ < _, _ → _))

theorem mem_successors_of_mem {flow : Flow} {source target : Nat}
    (member : target ∈ flow.successorsOf source) :
    source < flow.size ∧ flow.successorsOf source ∈ flow.successors := by
  unfold successorsOf at member ⊢
  by_cases small : source < flow.successors.length
  · rw [List.getD_eq_getElem _ _ small]
    exact ⟨small, List.getElem_mem small⟩
  · rw [List.getD_eq_default _ _ (Nat.not_lt.mp small)] at member
    cases member

theorem edge_of_mem {flow : Flow} {source target : Nat}
    (member : target ∈ flow.successorsOf source) : flow.Edge source target := by
  refine ⟨member, ?_⟩
  simp only [predecessorsOf, List.mem_filter, List.mem_range, List.contains_eq_mem,
    decide_eq_true_eq]
  exact ⟨(mem_successors_of_mem member).1, member⟩

theorem OwnLabels.edge {flow : Flow} {f : Function} (own : flow.OwnLabels f) {b first next : Nat}
    (edge : flow.Edge b first) (same : f.labelAt? first = f.labelAt? next)
    (small : next < f.blocks.length) : flow.Edge b next := by
  rw [own _ (mem_successors_of_mem edge.1).2 first edge.1 next small same.symm]
  exact edge

theorem first_of_resolve {f : Function} {terminator : Terminator} {target : Expr} {b : Nat}
    (resolved : resolve f terminator target = .ok b) :
    ∃ label, target = .label label ∧
      (f.blocks.findIdx? fun block => block.label == label) = some b := by
  unfold resolve at resolved
  cases target with
  | label name =>
      simp only [Expr.label?] at resolved
      cases found : f.blocks.findIdx? fun block => block.label == name with
      | none => simp [found] at resolved
      | some first =>
          simp only [found, Except.ok.injEq] at resolved
          exact ⟨name, rfl, resolved ▸ found⟩
  | _ => cases resolved

theorem resolve_of_targets {f : Function} {terminator : Terminator} {nexts : List Nat}
    (targeted : targets f terminator = .ok nexts) {target : Expr}
    (jump : target ∈ terminator.jumps) :
    ∃ b ∈ nexts, resolve f terminator target = .ok b := by
  cases terminator with
  | ret => cases jump
  | retValue value => cases jump
  | jump only =>
      obtain ⟨b, resolved, listed⟩ := except_bind_eq_ok.mp targeted
      cases listed
      rw [List.mem_singleton.mp jump]
      exact ⟨b, List.mem_singleton_self b, resolved⟩
  | branch condition onTrue onFalse =>
      simp only [targets] at targeted
      split at targeted
      · obtain ⟨first, resolved, targeted⟩ := except_bind_eq_ok.mp targeted
        obtain ⟨second, resolved', listed⟩ := except_bind_eq_ok.mp targeted
        cases listed
        simp only [Terminator.jumps, List.mem_cons, List.not_mem_nil, or_false] at jump
        rcases jump with rfl | rfl
        · exact ⟨first, by simp, resolved⟩
        · exact ⟨second, by simp, resolved'⟩
      · cases targeted

end Flow

namespace Machine

theorem lastWithLabel_ne_none {label : String} {blocks : List Block} (position : Nat)
    (member : ∃ block ∈ blocks, block.label = label) :
    lastWithLabel label blocks position ≠ none := by
  induction blocks generalizing position with
  | nil => simp at member
  | cons block blocks ih =>
      rw [lastWithLabel, ne_eq, Option.or_eq_none_iff, not_and_or]
      rcases (List.exists_mem_cons_iff ..).mp member with here | later
      · exact Or.inr (by simp [here])
      · exact Or.inl (ih _ later)

end Machine

section Edges

variable {f : Function} {flow : Flow} (built : Flow.build f = .ok flow)
include built

/-- What a terminator may jump to is the label of a block, and its first block is a successor. -/
theorem Flow.jump_resolved {b : Nat} {block : Block} (found : f.blocks[b]? = some block)
    {target : Expr} (jump : target ∈ block.terminator.jumps) :
    ∃ label first, target = .label label ∧ flow.Edge b first ∧
      f.labelAt? first = some label := by
  obtain ⟨first, listed, resolved⟩ :=
    resolve_of_targets (targets_successorsOf built found) jump
  obtain ⟨label, rfl, place⟩ := first_of_resolve resolved
  refine ⟨label, first, rfl, edge_of_mem listed, ?_⟩
  obtain ⟨small, same, -⟩ := List.findIdx?_eq_some_iff_getElem.mp place
  rw [Function.labelAt?, List.getElem?_eq_getElem small]
  exact congrArg some (beq_iff_eq.mp same)

theorem Machine.finish_edge {caller : Caller} {frame : Frame} {b next : Nat} {block : Block}
    (found : f.blocks[b]? = some block) {state after : State}
    (finished : finish caller f frame block.terminator state = .ok (.enter next) after) :
    ∃ first, flow.Edge b first ∧ f.labelAt? first = f.labelAt? next ∧
      next < f.blocks.length := by
  obtain ⟨label, jump, last⟩ := finish_enters finished
  obtain ⟨_, first, same, edge, labeled⟩ := Flow.jump_resolved built found jump
  cases same
  obtain ⟨place, after, rfl, placed, named⟩ := label_of_lastWithLabel last
  rw [Nat.zero_add]
  refine ⟨first, edge, ?_, (List.getElem?_eq_some_iff.mp placed).1⟩
  rw [labeled, Function.labelAt?, placed, Option.map_some, named]

theorem Machine.lastWithLabel_of_jump {block : Block} (listed : block ∈ f.blocks) {target : Expr}
    (jump : target ∈ block.terminator.jumps) :
    (target.label?.bind fun label => lastWithLabel label f.blocks 0) ≠ none := by
  obtain ⟨b, found⟩ := List.getElem?_of_mem listed
  obtain ⟨label, first, rfl, -, labeled⟩ := Flow.jump_resolved built found jump
  obtain ⟨carrier, there, same⟩ := Option.map_eq_some_iff.mp labeled
  exact lastWithLabel_ne_none 0 ⟨carrier, List.mem_of_getElem? there, same⟩

end Edges

namespace Machine

/-- What is done when a call leaves a block of a function for another. -/
abbrev Observer := Function → (source target : Nat) → Exec Unit

def Exit.report (tell : Nat → Exec Unit) : Exit → Exec Unit
  | .leave _ => return ()
  | .enter next => tell next

def observed (observe : Observer) (limit : Nat) : Course :=
  { plain limit with
    finish := fun caller f frame b terminator => do
      let exit ← finish caller f frame terminator
      exit.report (observe f b)
      return exit }

def runObserved (observe : Observer) (program : Program) (limit : Nat) (heap : Heap)
    (input : List Int64) (entry : String) (args : List Value) : Outcome :=
  (observed observe limit).run program (limit + 1) heap input entry args

/-- Every jump that a run of the program takes is one of those that are allowed: observers that
do the same at the allowed jumps cannot make a difference. -/
def JumpsOnly (program : Program) (allowed : Function → (source target : Nat) → Prop) : Prop :=
  ∀ observe observe' : Observer,
    (∀ g source target, allowed g source target →
      observe g source target = observe' g source target) →
    ∀ limit heap input entry args,
      runObserved observe program limit heap input entry args =
        runObserved observe' program limit heap input entry args

theorem runObserved_silent (program : Program) (limit : Nat) (heap : Heap) (input : List Int64)
    (entry : String) (args : List Value) :
    runObserved (fun _ _ _ => pure ()) program limit heap input entry args =
      run program limit heap input entry args := by
  have silent : ∀ exit : Exit, exit.report (fun _ => pure ()) = pure () := by
    intro exit
    cases exit <;> rfl
  have same : observed (fun _ _ _ => pure ()) limit = plain limit := by
    simp only [observed, silent, pure_bind, bind_pure, plain]
  rw [runObserved, same, plain_run]

/-- If every terminator can only be left along allowed jumps, no run takes another. -/
theorem jumpsOnly_of_finish (program : Program)
    {allowed : Function → (source target : Nat) → Prop}
    (step : ∀ (g : Function) (b : Nat) (block : Block), g.blocks[b]? = some block →
      ∀ caller frame state next after,
        finish caller g frame block.terminator state = .ok (.enter next) after →
          allowed g b next) :
    JumpsOnly program allowed := by
  intro observe observe' agree limit heap input entry args
  have resumed : (observed observe limit).resume program =
      (observed observe' limit).resume program := by
    have finished : ∀ (g : Function) (b : Nat) (block : Block), g.blocks[b]? = some block →
        ∀ caller frame, (observed observe limit).finish caller g frame b block.terminator =
          (observed observe' limit).finish caller g frame b block.terminator := by
      intro g b block found caller frame
      refine bind_congr_of_ok fun state exit after left => ?_
      cases exit with
      | leave value => rfl
      | enter next =>
          have same := agree g b next (step g b block found caller frame state next after left)
          simp only [Exit.report, same]
    funext fuel
    exact Course.resume_congr (by rfl) (by rfl) finished (by rfl) program fuel
  simp only [runObserved, Course.run, Course.caller, resumed]

theorem run_ne_badTarget {f : Function} {flow : Flow} (built : Flow.build f = .ok flow)
    {program : Program} (defined : program.function? f.name = some f) (limit : Nat) (heap : Heap)
    (input : List Int64) (entry : String) (args : List Value) :
    (run program limit heap input entry args).result ≠ .error (.badTarget f.name) := by
  intro stopped
  have computed : AllowsComputed fun fault _ => fault ≠ .badTarget f.name := by
    refine allowsComputed_of_isStatic ?_
    rintro fault dynamic rfl
    cases dynamic
  have static : ∀ name g, program.function? name = some g → ∀ fault ∈ g.faults, State →
      fault ≠ .badTarget f.name := by
    rintro name g called _ member - rfl
    obtain ⟨same, block, listed, target, jump, absent⟩ := Function.jump_of_badTarget member
    have named := List.find?_some called
    have whole : f = g := by
      rw [← beq_iff_eq.mp named, ← same, defined] at called
      exact Option.some.inj called
    subst whole
    exact lastWithLabel_of_jump built listed jump absent
  obtain ⟨_, -, other⟩ := run_raises computed static limit heap input entry args stopped
  exact other rfl

/-- Runs of any program follow the flow graph of a function in its calls: no jump goes wrong, and
every jump leads to a block with the label of a successor, which is the successor itself unless
blocks share the label. -/
theorem run_follows_flow (f : Function) (flow : Flow) (built : Flow.build f = .ok flow)
    (program : Program) :
    (program.function? f.name = some f → ∀ limit heap input entry args,
      (run program limit heap input entry args).result ≠ .error (.badTarget f.name)) ∧
    JumpsOnly program (fun g source target => g = f →
      ∃ first, flow.Edge source first ∧ f.labelAt? first = f.labelAt? target) ∧
    (flow.OwnLabels f →
      JumpsOnly program fun g source target => g = f → flow.Edge source target) := by
  refine ⟨run_ne_badTarget built, ?_, ?_⟩
  · refine jumpsOnly_of_finish program ?_
    rintro g b block found caller frame state next after finished rfl
    obtain ⟨first, edge, same, -⟩ := finish_edge built found finished
    exact ⟨first, edge, same⟩
  · intro own
    refine jumpsOnly_of_finish program ?_
    rintro g b block found caller frame state next after finished rfl
    obtain ⟨first, edge, same, small⟩ := finish_edge built found finished
    exact own.edge edge same small

/-- A loop whose blocks have labels of their own; the label that two blocks share is not jumped
to. -/
theorem run_follows_flow_loop :
    ∃ f flow, f = ⟨"@main", ⟨.int64, 0⟩, [⟨⟨.int64, 0⟩, ⟨0⟩⟩],
        [⟨":a", [], .branch (.var ⟨0⟩) (.label ":a") (.label ":b")⟩, ⟨":c", [], .ret⟩,
          ⟨":b", [], .retValue (.var ⟨0⟩)⟩, ⟨":c", [], .ret⟩], ⟨["%x"], 0⟩⟩ ∧
      Flow.build f = .ok flow ∧ flow.successors = [[0, 2], [], [], []] ∧
      (∀ limit heap input entry args,
        (run ⟨[f]⟩ limit heap input entry args).result ≠ .error (.badTarget f.name)) ∧
      JumpsOnly ⟨[f]⟩ fun g source target => g = f → flow.Edge source target := by
  refine ⟨_, ⟨[[0, 2], [], [], []]⟩, rfl, rfl, rfl, ?_, ?_⟩
  · exact (run_follows_flow _ _ rfl _).1 rfl
  · exact (run_follows_flow _ _ rfl _).2.2 (by decide)

/-- Two blocks share a label: the flow graph leads to the first of them, the machine goes to the
last. -/
theorem jump_off_edges_of_shared_label :
    ∃ f flow, f = ⟨"@main", ⟨.int64, 0⟩, [],
        [⟨":a", [], .jump (.label ":b")⟩, ⟨":b", [], .retValue (.const 1)⟩,
          ⟨":b", [], .retValue (.const 2)⟩], {}⟩ ∧
      Flow.build f = .ok flow ∧ flow.successors = [[1], [], []] ∧
      (run ⟨[f]⟩ 2 #[] [] "@main" []).result = .ok ⟨some (.int 2), [], 2⟩ ∧
      ¬JumpsOnly ⟨[f]⟩ fun g source target => g = f → flow.Edge source target := by
  have ran : (run ⟨[⟨"@main", ⟨.int64, 0⟩, [],
      [⟨":a", [], .jump (.label ":b")⟩, ⟨":b", [], .retValue (.const 1)⟩,
        ⟨":b", [], .retValue (.const 2)⟩], {}⟩]⟩ 2 #[] [] "@main" []).result.toOption =
      some ⟨some (.int 2), [], 2⟩ := by
    decide +kernel
  refine ⟨_, ⟨[[1], [], []]⟩, rfl, rfl, rfl, toOption_eq_some.mp ran, ?_⟩
  intro only
  -- An observer that stops the machine off the edges would not be heard.
  have same := only (fun _ _ _ => pure ())
    (fun g source target => if g = _ → Flow.Edge ⟨[[1], [], []]⟩ source target then pure () else
      throw .inputExhausted)
    (fun g source target allowed => (if_pos allowed).symm) 2 #[] [] "@main" []
  exact absurd (congrArg (fun outcome => outcome.result.toOption.isSome) same)
    (by decide +kernel)

end Machine

end Regalloc
