import GitWarp.LibraryDoubles
import GitWarp.LibraryJsMap
import GitWarp.LibraryJsText
import GitWarp.MinHeap
import Mathlib.Data.Prod.Lex
import Mathlib.Data.List.Lex
import Mathlib.Data.List.Sort

/-! Traversals over a neighbor provider: the topological sort, and what is computed along it. -/

namespace GitWarp
open Js

structure NeighborEdge where
  neighborId : JsString
  label : JsString
  deriving DecidableEq

inductive Direction where
  | out
  | in
  | both
  deriving DecidableEq

/-- A finite graph as a provider shows it: every neighbor is a node. Options are the labels that are followed. -/
structure NeighborProvider where
  nodes : List JsString
  getNeighbors : JsString → Direction → Option (List JsString) → List NeighborEdge
  neighbor_mem : ∀ nodeId direction options, ∀ edge ∈ getNeighbors nodeId direction options, edge.neighborId ∈ nodes

def NeighborProvider.hasNode (provider : NeighborProvider) (nodeId : JsString) : Bool := provider.nodes.contains nodeId

inductive TraversalError where
  | invalidStart (nodeId : JsString)
  | hasCycles (nodesInCycle : Nat) (cycleWitness : Option (JsString × JsString))
  | noPath (start goal : JsString) (nodesExplored : Option Nat)
  | weightFnConflict
  | maxEdgesExceeded (maxEdges edgesSoFar : Nat)
  deriving DecidableEq

namespace TraversalError

def code : TraversalError → String
  | .invalidStart _ => "INVALID_START"
  | .hasCycles _ _ => "ERR_GRAPH_HAS_CYCLES"
  | .noPath _ _ _ => "NO_PATH"
  | .weightFnConflict => "E_WEIGHT_FN_CONFLICT"
  | .maxEdgesExceeded _ _ => "E_MAX_EDGES_EXCEEDED"

def message : TraversalError → String
  | .invalidStart nodeId => s!"Start node '{toText nodeId}' does not exist in the graph"
  | .hasCycles _ _ => "Graph contains a cycle"
  | .noPath start goal _ => s!"No path from {toText start} to {toText goal}"
  | .weightFnConflict => "Cannot provide both weightFn and nodeWeightFn — they are mutually exclusive"
  | .maxEdgesExceeded maxEdges _ => s!"Transitive closure exceeds maxEdges limit ({maxEdges})"

end TraversalError

namespace GraphTraversal

def validateStart (provider : NeighborProvider) (nodeId : JsString) : Except TraversalError Unit :=
  if provider.hasNode nodeId then return () else .error (.invalidStart nodeId)

/-! ### The topological sort -/

/-- What the first phase has found. -/
structure Discovery where
  adjList : Option (JsMap JsString (List JsString))
  neighborEdgeMap : JsMap JsString (List NeighborEdge)
  inDegree : JsMap JsString Int
  discovered : JsSet JsString
  queue : List JsString
  qHead : Nat

def neighborIds (edges : List NeighborEdge) : List JsString := edges.map NeighborEdge.neighborId

def discoverEdge (d : Discovery) (neighborId : JsString) : Discovery :=
  let d := { d with inDegree := d.inDegree.set neighborId ((d.inDegree.get neighborId).getD 0 + 1) }
  if d.discovered.has neighborId then d
  else { d with discovered := d.discovered.add neighborId, queue := d.queue ++ [neighborId] }

section Neighbors

variable (neighborsOf : JsString → List NeighborEdge)

def discoverStep (returnAdjList : Bool) (d : Discovery) : Option Discovery :=
  match d.queue[d.qHead]? with
  | none => none
  | some nodeId =>
      let neighbors := neighborsOf nodeId
      let d := (neighborIds neighbors).foldl discoverEdge { d with qHead := d.qHead + 1 }
      let adjList := d.adjList.map fun adjList => adjList.set nodeId (neighborIds neighbors)
      let neighborEdgeMap := if returnAdjList then d.neighborEdgeMap.set nodeId neighbors else d.neighborEdgeMap
      some { d with adjList := adjList, neighborEdgeMap := neighborEdgeMap }

/-- All nodes that are reachable from the starts, with the number of edges into each. -/
def discover (bound : Nat) (lightweight returnAdjList : Bool) (starts : JsSet JsString) : Discovery :=
  let d := While.loop (discoverStep neighborsOf returnAdjList) bound
    ⟨if lightweight then none else some .empty, .empty, .empty, starts, starts.elems, 0⟩
  let inDegree := starts.elems.foldl (fun degrees s => if degrees.has s then degrees else degrees.set s 0) d.inDegree
  { d with inDegree := inDegree }

def getNeighborIds (adjList : Option (JsMap JsString (List JsString))) (nodeId : JsString) : List JsString :=
  match adjList with
  | some adjList => (adjList.get nodeId).getD []
  | none => neighborIds (neighborsOf nodeId)

end Neighbors

/-- An entry of the queue of ready nodes, of priority zero. -/
def readyEntry (nodeId : JsString) : ℕ ×ₗ JsString := toLex (0, nodeId)

/-- What the second phase has placed, and what may come next. -/
structure Kahn where
  inDegree : JsMap JsString Int
  ready : MinHeap (ℕ ×ₗ JsString)
  sorted : List JsString

def releaseEdge (k : Kahn) (neighborId : JsString) : Kahn :=
  let deg := (k.inDegree.get neighborId).getD 0 - 1
  let ready := if deg = 0 then k.ready.insert (readyEntry neighborId) else k.ready
  { k with inDegree := k.inDegree.set neighborId deg, ready := ready }

def kahnStep (idsOf : JsString → List JsString) (maxNodes : Nat) (k : Kahn) : Option Kahn :=
  match k.ready.extractMin with
  | none => none
  | some (entry, ready) =>
      if k.sorted.length < maxNodes then
        let nodeId := (ofLex entry).2
        some ((idsOf nodeId).foldl releaseEdge ⟨k.inDegree, ready, k.sorted ++ [nodeId]⟩)
      else none

def initialReady (d : Discovery) : MinHeap (ℕ ×ₗ JsString) :=
  d.discovered.elems.foldl (fun ready nodeId =>
    if (d.inDegree.get nodeId).getD 0 = 0 then ready.insert (readyEntry nodeId) else ready) .empty

def kahn (idsOf : JsString → List JsString) (bound maxNodes : Nat) (d : Discovery) : Kahn :=
  While.loop (kahnStep idsOf maxNodes) bound ⟨d.inDegree, initialReady d, []⟩

/-- Distinguishes true topological cycles from maxNodes truncation. -/
def computeTopoHasCycle (sortedLength discoveredSize maxNodes : Nat) (readyRemaining : Bool) : Bool :=
  let stoppedByLimit := decide (maxNodes ≤ sortedLength) && readyRemaining
  !stoppedByLimit && decide (sortedLength < discoveredSize)

/-- The first edge between nodes that are not sorted. -/
def findTopoCycleWitness (idsOf : JsString → List JsString) (discovered sorted : List JsString) :
    Option (JsString × JsString) :=
  discovered.findSome? fun nodeId =>
    if sorted.contains nodeId then none
    else ((idsOf nodeId).find? fun neighborId => !sorted.contains neighborId).map fun neighborId => (nodeId, neighborId)

structure TopoOptions where
  start : List JsString
  maxNodes : Nat
  throwOnCycle : Bool
  returnAdjList : Bool
  lightweight : Bool

/-- The defaults: lightweight unless the neighbor lists are asked for. -/
def TopoOptions.of (start : List JsString) (maxNodes : Nat) (throwOnCycle returnAdjList : Bool) : TopoOptions :=
  ⟨start, maxNodes, throwOnCycle, returnAdjList, !returnAdjList⟩

structure TopoResult where
  sorted : List JsString
  hasCycle : Bool
  neighborEdgeMap : Option (JsMap JsString (List NeighborEdge))
  deriving DecidableEq

section Runs

variable (provider : NeighborProvider) (direction : Direction) (options : Option (List JsString))

def neighborsOf (nodeId : JsString) : List NeighborEdge := provider.getNeighbors nodeId direction options

def topologicalSort (p : TopoOptions) : Except TraversalError TopoResult := do
  let starts := JsSet.ofList p.start
  starts.elems.forM (validateStart provider)
  let lightweight := p.lightweight && !p.returnAdjList
  let neighbors := neighborsOf provider direction options
  let d := discover neighbors provider.nodes.length lightweight p.returnAdjList starts
  let idsOf := getNeighborIds neighbors d.adjList
  let k := kahn idsOf provider.nodes.length p.maxNodes d
  let hasCycle := computeTopoHasCycle k.sorted.length d.discovered.size p.maxNodes (!k.ready.isEmpty)
  if hasCycle && p.throwOnCycle then
    let cycleWitness := findTopoCycleWitness idsOf d.discovered.elems k.sorted
    throw (.hasCycles (d.discovered.size - k.sorted.length) (cycleWitness.filter fun witness => witness.1 ≠ []))
  else return ⟨k.sorted, hasCycle, if p.returnAdjList then some d.neighborEdgeMap else none⟩

/-! ### Weights and paths -/

/-- `weightFn` and `nodeWeightFn`, as far as they are given. -/
structure WeightOptions where
  weightFn : Option (JsString → JsString → JsString → JsNumber)
  nodeWeightFn : Option (JsString → JsNumber)

/-- The weight of an edge: its own, that of the node it leads to, or one. -/
def resolveWeightFn (weights : WeightOptions) : Except TraversalError (JsString → JsString → JsString → JsNumber) :=
  match weights.weightFn, weights.nodeWeightFn with
  | some _, some _ => throw .weightFnConflict
  | none, some nodeWeightFn => return fun _ target _ => nodeWeightFn target
  | some weightFn, none => return weightFn
  | none, none => return fun _ _ _ => .finite 1

/-- The turns of the walk back along the predecessors: the path so far, its first node first. -/
def pathStep (predMap : JsMap JsString JsString) (start : JsString) (path : List JsString) : Option (List JsString) :=
  match path.head? with
  | none => none
  | some current =>
      if current = start then none
      else (predMap.get current).map fun pred => pred :: path

def reconstructPath (predMap : JsMap JsString JsString) (bound : Nat) (start goal : JsString) : List JsString :=
  While.loop (pathStep predMap start) bound [goal]

def shouldUpdatePredecessor (predMap : JsMap JsString JsString) (nodeId candidatePred : JsString) : Bool :=
  match predMap.get nodeId with
  | none => true
  | some current => candidatePred < current

/-! ### Longest paths and levels -/

structure Distances where
  dist : JsMap JsString JsNumber
  prev : JsMap JsString JsString

def lengthenEdge (weightFn : JsString → JsString → JsString → JsNumber) (nodeId : JsString) (s : Distances) (edge : NeighborEdge) :
    Distances :=
  let alt := ((s.dist.get nodeId).getD .nan).plus (weightFn nodeId edge.neighborId edge.label)
  let best := (s.dist.get edge.neighborId).getD (.infinite true)
  if best.lessThan alt || (alt.strictEquals best && shouldUpdatePredecessor s.prev edge.neighborId nodeId) then
    ⟨s.dist.set edge.neighborId alt, s.prev.set edge.neighborId nodeId⟩
  else s

def lengthenFrom (weightFn : JsString → JsString → JsString → JsNumber)
    (neighborEdgeMap : Option (JsMap JsString (List NeighborEdge))) (s : Distances) (nodeId : JsString) : Distances :=
  if s.dist.has nodeId then
    let neighbors := match neighborEdgeMap with
      | some neighborEdgeMap => (neighborEdgeMap.get nodeId).getD []
      | none => neighborsOf provider direction options nodeId
    neighbors.foldl (lengthenEdge weightFn nodeId) s
  else s

structure PathResult where
  path : List JsString
  totalCost : JsNumber
  deriving DecidableEq

def weightedLongestPath (start goal : JsString) (weights : WeightOptions) (maxNodes : Nat) :
    Except TraversalError PathResult := do
  let weightFn ← resolveWeightFn weights
  validateStart provider start
  let topo ← topologicalSort provider direction options (.of [start] maxNodes true true)
  let s := topo.sorted.foldl (lengthenFrom provider direction options weightFn topo.neighborEdgeMap)
    ⟨JsMap.empty.set start (.finite 0), .empty⟩
  match s.dist.get goal with
  | none => throw (.noPath start goal none)
  | some totalCost => return ⟨reconstructPath s.prev provider.nodes.length start goal, totalCost⟩

structure Levels where
  levels : JsMap JsString Nat
  maxLevel : Nat

def raiseLevel (currentLevel : Nat) (s : Levels) (edge : NeighborEdge) : Levels :=
  let neighborLevel := (s.levels.get edge.neighborId).getD 0
  let candidate := currentLevel + 1
  if neighborLevel < candidate then
    ⟨s.levels.set edge.neighborId candidate, if s.maxLevel < candidate then candidate else s.maxLevel⟩
  else s

def raiseFrom (s : Levels) (nodeId : JsString) : Levels :=
  (neighborsOf provider direction options nodeId).foldl (raiseLevel ((s.levels.get nodeId).getD 0)) s

def levels (start : List JsString) (maxNodes : Nat) : Except TraversalError Levels := do
  let topo ← topologicalSort provider direction options (.of start maxNodes true false)
  let initial : JsMap JsString Nat :=
    topo.sorted.foldl (fun levelMap nodeId => if levelMap.has nodeId then levelMap else levelMap.set nodeId 0) .empty
  return topo.sorted.foldl (raiseFrom provider direction options) ⟨initial, 0⟩

/-! ### The transitive reduction -/

structure LabelledEdge where
  source : JsString
  target : JsString
  label : JsString
  deriving DecidableEq

/-- The key `from\0to` of a redundant edge. -/
def redundantKey (source target : JsString) : JsString := source ++ 0 :: target

structure Reduction where
  visited : JsSet JsString
  frontier : List JsString
  redundant : JsSet JsString

/-- A successor joins the next frontier when it is first seen. -/
def visitSuccessor (seen : JsSet JsString × List JsString) (successorId : JsString) : JsSet JsString × List JsString :=
  if seen.1.has successorId then seen else (seen.1.add successorId, seen.2 ++ [successorId])

/-- One level of the search from the grandchildren of a node. -/
def reductionStep (source : JsString) (directSet : JsSet JsString) (s : Reduction) : Option Reduction :=
  if s.frontier = [] then none
  else
    let redundant := s.frontier.foldl (fun redundant nodeId =>
      if directSet.has nodeId then redundant.add (redundantKey source nodeId) else redundant) s.redundant
    let seen := s.frontier.foldl (fun seen nodeId =>
      (neighborIds (neighborsOf provider direction options nodeId)).foldl visitSuccessor seen) (s.visited, [])
    some ⟨seen.1, seen.2, redundant⟩

def redundantFrom (redundant : JsSet JsString) (source : JsString) : JsSet JsString :=
  let directEdges := neighborsOf provider direction options source
  if directEdges.length ≤ 1 then redundant
  else
    let seen := directEdges.foldl (fun seen edge =>
      (neighborIds (neighborsOf provider direction options edge.neighborId)).foldl visitSuccessor seen) (.empty, [])
    (While.loop (reductionStep provider direction options source (.ofList (neighborIds directEdges)))
      provider.nodes.length ⟨seen.1, seen.2, redundant⟩).redundant

structure TransitiveReduction where
  edges : List LabelledEdge
  removed : Nat
  deriving DecidableEq

def edgeOrder (edge : LabelledEdge) : JsString ×ₗ JsString ×ₗ JsString :=
  toLex (edge.source, toLex (edge.target, edge.label))

def transitiveReduction (start : List JsString) (maxNodes : Nat) : Except TraversalError TransitiveReduction := do
  let topo ← topologicalSort provider direction options (.of start maxNodes true false)
  let redundant := topo.sorted.foldl (redundantFrom provider direction options) .empty
  let all := topo.sorted.flatMap fun nodeId => (neighborsOf provider direction options nodeId).map fun edge =>
    LabelledEdge.mk nodeId edge.neighborId edge.label
  let kept := all.filter fun edge => !redundant.has (redundantKey edge.source edge.target)
  return ⟨kept.insertionSort fun a b => edgeOrder a ≤ edgeOrder b, all.length - kept.length⟩

end Runs

end GraphTraversal

end GitWarp
