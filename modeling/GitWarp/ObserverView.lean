import GitWarp.GraphReaders
import GitWarp.LibraryJsObject

/-! Observers: read-only views of a materialized state that show the nodes whose ids match a pattern, and of their
properties those that the expose and redact lists let through. -/

namespace GitWarp
open Js ExceptLoops

variable {V : Type}

/-! ### Patterns -/

/-- A `string` or a `string[]` as a pattern. -/
inductive MatchPattern where
  | one (pattern : JsString)
  | any (patterns : List JsString)
  deriving DecidableEq

/-- The code unit of `*`. -/
def star : CodeUnit := 42

/-- What `.` of a regular expression does not match. -/
def isLineTerminator (c : CodeUnit) : Bool := c = 10 || c = 13 || c = 0x2028 || c = 0x2029

/-- The regular expression of a pattern: `.*` for each `*`, and every other character for itself. -/
def globRegexTest : JsString → JsString → Bool
  | [], s => s.isEmpty
  | c :: pattern, s =>
      if c = star then
        (List.range (s.length + 1)).any fun n =>
          (s.take n).all (fun d => !isLineTerminator d) && globRegexTest pattern (s.drop n)
      else
        match s with
        | [] => false
        | d :: rest => d = c && globRegexTest pattern rest

def matchGlobOne (pattern s : JsString) : Bool :=
  if pattern = [star] then true
  else if !pattern.contains star then pattern = s
  else globRegexTest pattern s

def matchGlob (pattern : MatchPattern) (s : JsString) : Bool :=
  match pattern with
  | .one pattern => matchGlobOne pattern s
  | .any patterns => patterns.any fun pattern => matchGlobOne pattern s

/-! ### Properties -/

structure ObserverConfig where
  pattern : MatchPattern
  expose : Option (List JsString)
  redact : Option (List JsString)
  deriving DecidableEq

/-- `list && list.length > 0 ? new Set(list) : null` -/
def nonEmptySet (list : Option (List JsString)) : Option (JsSet JsString) :=
  (list.filter fun list => list.length > 0).map JsSet.ofList

/-- The keys that an observer shows. -/
def showsKey (expose redact : Option (List JsString)) (key : JsString) : Bool :=
  !(nonEmptySet redact).any (fun redactSet => redactSet.has key) &&
    !(nonEmptySet expose).any fun exposeSet => !exposeSet.has key

def filterProps (propsRecord : JsMap JsString (Option V)) (expose redact : Option (List JsString)) :
    PlainObject (Option V) :=
  let redactSet := nonEmptySet redact
  let exposeSet := nonEmptySet expose
  propsRecord.entries.foldl (fun filtered entry =>
    if redactSet.any (fun redactSet => redactSet.has entry.1) then filtered
    else if exposeSet.any (fun exposeSet => !exposeSet.has entry.1) then filtered
    else filtered.assign entry.1 entry.2) PlainObject.empty

/-- The two tests of the loops over keys, redact first, are one. -/
theorem ite_showsKey {α : Type} (expose redact : Option (List JsString)) (key : JsString) (kept shown : α) :
    (if (nonEmptySet redact).any (fun redactSet => redactSet.has key) then kept
      else if (nonEmptySet expose).any (fun exposeSet => !exposeSet.has key) then kept else shown) =
        if showsKey expose redact key then shown else kept := by
  unfold showsKey
  split
  · rename_i h
    simp [h]
  · rename_i h
    split
    · rename_i h'
      simp [h']
    · rename_i h'
      simp [h, h']

theorem get_filterProps (propsRecord : JsMap JsString (Option V)) (expose redact : Option (List JsString))
    (key : JsString) : (filterProps propsRecord expose redact).props.get key =
      if key = protoKey then none else if showsKey expose redact key then propsRecord.get key else none := by
  have hfilter : filterProps propsRecord expose redact =
      (propsRecord.entries.filter fun entry => showsKey expose redact entry.1).foldl
        (fun filtered entry => filtered.assign entry.1 entry.2) PlainObject.empty := by
    rw [List.foldl_filter]
    refine congrArg (fun step => List.foldl step _ _) ?_
    funext filtered entry
    exact ite_showsKey expose redact entry.1 _ _
  have hnodup : ((propsRecord.entries.filter fun entry => showsKey expose redact entry.1).map Prod.fst).Nodup :=
    propsRecord.nodup.sublist (List.filter_sublist.map Prod.fst)
  have hempty : (PlainObject.empty : PlainObject (Option V)).props.get key = none := rfl
  rw [hfilter, PlainObject.get_foldl_assign _ hnodup, hempty, Option.or_none]
  split
  · rfl
  · refine Option.ext fun value => ?_
    rw [JsMap.lookup_eq_some_iff hnodup, List.mem_filter, Option.ite_none_right_eq_some, JsMap.get_eq_some_iff,
      and_comm]

/-- An edge as an observer lists it, and as it is sent to clients. -/
structure PlainEdge (V : Type) where
  edge : EdgeRef
  props : PlainObject (Option V)

namespace ObserverView

def getNodes (config : ObserverConfig) (state : WarpStateV5 V) : List JsString :=
  (GitWarp.getNodes state).filter fun id => matchGlob config.pattern id

def getNodeProps (config : ObserverConfig) (state : WarpStateV5 V) (nodeId : JsString) :
    Option (PlainObject (Option V)) :=
  if !matchGlob config.pattern nodeId then none
  else (GitWarp.getNodeProps state nodeId).map fun propsRecord => filterProps propsRecord config.expose config.redact

def getEdges (config : ObserverConfig) (state : WarpStateV5 V) : Except JsError (List (PlainEdge V)) := do
  let allEdges ← GitWarp.getEdges state
  return (allEdges.filter fun e => matchGlob config.pattern e.edge.fromId && matchGlob config.pattern e.edge.toId).map
    fun e => ⟨e.edge, filterProps e.props config.expose config.redact⟩

end ObserverView

end GitWarp
