import Regalloc.Bindings
import Regalloc.Liveness
import Regalloc.Target

/-!
# Interference graphs

An undirected graph without loops over registers and variables, which are numbered together,
registers first. Vertices are kept in the order in which they are first mentioned.

In the graph of a function, a variable that is written conflicts with everything that is live
afterwards. What is live across a call conflicts with the registers that calls overwrite. A
parameter conflicts with all registers but the one it arrives in, and with everything that is live
on entry.
-/

namespace Regalloc

inductive Node where
  | register (r : Register)
  | var (v : Var)
  deriving DecidableEq, Repr

namespace Node

def index : Node → Nat
  | .register r => r.index
  | .var v => 15 + v.index

def ofIndex (n : Nat) : Node :=
  if n < 15 then .register (Register.all.getD n .r10) else .var ⟨n - 15⟩

theorem ofIndex_index (node : Node) : ofIndex node.index = node := by
  cases node with
  | register r => simp [ofIndex, index, Register.index_lt, Register.all_getD_index,
      -List.getD_eq_getElem?_getD]
  | var v => simp [ofIndex, index]

theorem index_ofIndex (n : Nat) : (ofIndex n).index = n := by
  unfold ofIndex
  split
  · rename_i small
    exact Register.index_all_getD ⟨n, small⟩
  · simp only [index]
    omega

instance : Indexed Node where
  index := index
  ofIndex := ofIndex
  ofIndex_index := ofIndex_index
  index_ofIndex := index_ofIndex

def var? : Node → Option Var
  | .var v => some v
  | .register _ => none

def name (vars : VarTable) : Node → String
  | .register r => r.name
  | .var v => vars.name v

end Node

abbrev NodeSet := IndexSet Node

/-- The neighbors of every vertex, in the order in which the vertices were mentioned. -/
structure Interference where
  adjacency : Bindings Node NodeSet := {}
  deriving DecidableEq, Repr

namespace Interference

inductive Mention where
  | node (node : Node)
  | edge (first second : Node)
  deriving DecidableEq, Repr

def nodes (graph : Interference) : List Node :=
  graph.adjacency.keys

def vars (graph : Interference) : List Var :=
  graph.nodes.filterMap Node.var?

def neighborSet (graph : Interference) (node : Node) : NodeSet :=
  (graph.adjacency.get? node).getD ∅

/-- The neighbors of a vertex, registers first, each kind by increasing index. -/
def neighbors (graph : Interference) (node : Node) : List Node :=
  (graph.neighborSet node).toList

def interferes (graph : Interference) (first second : Node) : Bool :=
  (graph.neighborSet first).contains second

def degree (graph : Interference) (node : Node) : Nat :=
  (graph.neighborSet node).size

def addNode (graph : Interference) (node : Node) : Interference :=
  if (graph.adjacency.get? node).isSome then graph else ⟨graph.adjacency.insert node ∅⟩

def link (graph : Interference) (first second : Node) : Interference :=
  ⟨graph.adjacency.insert first ((graph.neighborSet first).insert second)⟩

/-- A vertex never becomes its own neighbor. -/
def addEdge (graph : Interference) (first second : Node) : Interference :=
  if first = second then graph else (graph.link first second).link second first

def add (graph : Interference) : Mention → Interference
  | .node node => graph.addNode node
  | .edge first second => graph.addEdge first second

def addAll (graph : Interference) (mentions : List Mention) : Interference :=
  mentions.foldl add graph

def size (graph : Interference) : Nat :=
  graph.nodes.length

def edgeCount (graph : Interference) : Nat :=
  graph.nodes.foldr (fun node total => graph.degree node + total) 0 / 2

def isSymmetric (graph : Interference) : Bool :=
  graph.nodes.all fun node =>
    (graph.neighbors node).all fun other => other != node && graph.interferes other node

/-- The registers are pairwise neighbors, so that no two of them are taken for one. -/
def clique : List Register → List Mention
  | [] => []
  | first :: rest =>
    rest.map (fun second => .edge (.register first) (.register second)) ++ clique rest

def ofTarget (target : Target) : Interference :=
  let graph : Interference := {}
  graph.addAll
    (target.allocatable.map (fun r => .node (.register r)) ++ clique target.allocatable)

@[simp] theorem neighborSet_addNode (graph : Interference) (node other : Node) :
    (graph.addNode node).neighborSet other = graph.neighborSet other := by
  unfold addNode
  split
  · rfl
  · rename_i absent
    simp only [neighborSet, Bindings.get?_insert]
    split
    · rename_i same
      simp_all
    · rfl

theorem neighborSet_link (graph : Interference) (first second node : Node) :
    (graph.link first second).neighborSet node =
      if node = first then (graph.neighborSet first).insert second
      else graph.neighborSet node := by
  simp only [link, neighborSet, Bindings.get?_insert]
  split <;> simp

theorem mem_neighborSet_addEdge (graph : Interference) (first second node other : Node) :
    other ∈ (graph.addEdge first second).neighborSet node ↔
      other ∈ graph.neighborSet node ∨
        first ≠ second ∧ (node = first ∧ other = second ∨ node = second ∧ other = first) := by
  unfold addEdge
  split
  · simp_all
  · rename_i apart
    simp only [neighborSet_link]
    grind [IndexSet.mem_insert]

def render (graph : Interference) (vars : VarTable) : String :=
  let line (node : Node) : String :=
    joinWith " " ((node :: graph.neighbors node).map (Node.name vars)) ++ "\n"
  String.join ((IndexSet.ofList graph.nodes).toList.map line)

def pointMentions (target : Target) (point : DefUse) (after : VarSet) : List Mention :=
  let nodes := (point.defs ++ point.uses).map fun v => .node (.var v)
  let written := point.defs.flatMap fun v =>
    after.toList.map fun other => .edge (.var v) (.var other)
  let kept := after.toList.filter fun v => !point.defs.contains v
  let clobbered := if point.isCall then
      kept.flatMap fun v => target.clobbered.map fun r => .edge (.var v) (.register r)
    else []
  nodes ++ written ++ clobbered

/-- Conflicts that leave a parameter no register but the one it arrives in. -/
def arrivalMentions (target : Target) (position : Nat) (v : Var) : List Mention :=
  match target.argumentRegister position with
  | none => []
  | some fixed =>
    (target.allocatable.filter (· != fixed)).map fun r => .edge (.var v) (.register r)

def entryMentions (f : Function) (live : Liveness) : List Mention :=
  f.paramVars.flatMap fun v =>
    (live.blockIn 0).toList.map fun other => .edge (.var v) (.var other)

def mentions (f : Function) (live : Liveness) (target : Target) : List Mention :=
  let params := f.paramVars.map fun v => .node (.var v)
  let points := f.blocks.zipIdx.flatMap fun (block, b) =>
    block.points.zipIdx.flatMap fun (point, i) => pointMentions target point (live.liveOut b i)
  let arrivals := f.paramVars.zipIdx.flatMap fun (v, position) =>
    arrivalMentions target position v
  params ++ points ++ arrivals ++ entryMentions f live

def build (f : Function) (live : Liveness) (target : Target) : Interference :=
  (ofTarget target).addAll (mentions f live target)

end Interference

end Regalloc
