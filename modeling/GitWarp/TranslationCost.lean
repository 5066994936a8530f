import GitWarp.ObserverView
import Mathlib.Algebra.Order.Field.Rat
import Mathlib.Tactic.Linarith
import Mathlib.Tactic.Positivity

/-! The cost of translating what one observer sees into what another one sees. It is a weighted sum of three
fractions: the nodes, the edges and the node properties that are lost. -/

namespace GitWarp
open Js ExceptLoops

variable {V : Type}

/-- `isValidMatch` -/
def MatchPattern.isValid : MatchPattern → Bool
  | .one _ => true
  | .any patterns => !patterns.isEmpty

namespace TranslationCost

def visiblePropKeys (allNodeProps : JsMap JsString Bool) (expose redact : Option (List JsString)) : JsSet JsString :=
  let redactSet := nonEmptySet redact
  let exposeSet := nonEmptySet expose
  allNodeProps.keys.foldl (fun keys key =>
    if redactSet.any (fun redactSet => redactSet.has key) then keys
    else if exposeSet.any (fun exposeSet => !exposeSet.has key) then keys
    else keys.add key) JsSet.empty

def collectNodePropKeys (state : WarpStateV5 V) (nodeId : JsString) : JsMap JsString Bool :=
  state.prop.entries.foldl (fun props entry =>
    if isEdgePropKey entry.1 then props
    else
      let decoded := decodePropKey entry.1
      if decoded.1 = nodeId then props.set decoded.2 true else props) JsMap.empty

structure Breakdown where
  nodeLoss : ℚ
  edgeLoss : ℚ
  propLoss : ℚ
  deriving DecidableEq

structure Result where
  cost : ℚ
  breakdown : Breakdown
  deriving DecidableEq

def nodeWeight : ℚ := 1 / 2

def edgeWeight : ℚ := 3 / 10

def propWeight : ℚ := 1 / 5

def zeroCost : Result := ⟨0, 0, 0, 0⟩

/-- The number of items that are not in the target. -/
def countMissing (source : List JsString) (targetSet : JsSet JsString) : Nat :=
  source.countP fun item => !targetSet.has item

/-- The edges between the nodes of `A`, and those between the nodes of `B`. -/
def collectEdge (state : WarpStateV5 V) (nodesASet nodesBSet : JsSet JsString) (found : List JsString × JsSet JsString)
    (edgeKey : JsString) : List JsString × JsSet JsString :=
  let edge := decodeEdgeKey edgeKey
  if !orsetContains state.nodeAlive edge.fromId || !orsetContains state.nodeAlive edge.toId then found
  else (if nodesASet.has edge.fromId && nodesASet.has edge.toId then found.1 ++ [edgeKey] else found.1,
    if nodesBSet.has edge.fromId && nodesBSet.has edge.toId then found.2.add edgeKey else found.2)

def computeEdgeLoss (state : WarpStateV5 V) (nodesASet nodesBSet : JsSet JsString) : ℚ :=
  let found := (orsetElements state.edgeAlive).foldl (collectEdge state nodesASet nodesBSet) ([], JsSet.empty)
  (countMissing found.1 found.2 : ℚ) / (max found.1.length 1 : Nat)

structure PropCounts where
  propsInA : Nat
  lostProps : Nat

def countNodePropLoss (nodeProps : JsMap JsString Bool) (configA configB : ObserverConfig) (nodeInB : Bool) : PropCounts :=
  let propsA := visiblePropKeys nodeProps configA.expose configA.redact
  if !nodeInB then ⟨propsA.size, propsA.size⟩
  else
    let propsB := visiblePropKeys nodeProps configB.expose configB.redact
    ⟨propsA.size, countMissing propsA.elems propsB⟩

def addNodePropLoss (state : WarpStateV5 V) (nodesBSet : JsSet JsString) (configA configB : ObserverConfig)
    (totals : PropCounts) (nodeId : JsString) : PropCounts :=
  let nodeProps := collectNodePropKeys state nodeId
  if nodeProps.size = 0 then totals
  else
    let counts := countNodePropLoss nodeProps configA configB (nodesBSet.has nodeId)
    ⟨totals.propsInA + counts.propsInA, totals.lostProps + counts.lostProps⟩

def computePropLoss (state : WarpStateV5 V) (nodesA : List JsString) (nodesBSet : JsSet JsString)
    (configA configB : ObserverConfig) : ℚ :=
  let totals := nodesA.foldl (addNodePropLoss state nodesBSet configA configB) ⟨0, 0⟩
  (totals.lostProps : ℚ) / (max totals.propsInA 1 : Nat)

def computeTranslationCost (configA configB : ObserverConfig) (state : WarpStateV5 V) : Except JsError Result :=
  if !configA.pattern.isValid || !configB.pattern.isValid then
    thrown "configA.match and configB.match must be non-empty strings or non-empty arrays of strings"
  else
    let allNodes := orsetElements state.nodeAlive
    let nodesA := allNodes.filter fun id => matchGlob configA.pattern id
    if nodesA.length = 0 then .ok zeroCost
    else
      let nodesASet := JsSet.ofList nodesA
      let nodesBSet := JsSet.ofList (allNodes.filter fun id => matchGlob configB.pattern id)
      let nodeLoss := (countMissing nodesA nodesBSet : ℚ) / (max nodesA.length 1 : Nat)
      let edgeLoss := computeEdgeLoss state nodesASet nodesBSet
      let propLoss := computePropLoss state nodesA nodesBSet configA configB
      let cost := nodeWeight * nodeLoss + edgeWeight * edgeLoss + propWeight * propLoss
      .ok ⟨cost, nodeLoss, edgeLoss, propLoss⟩

/-! ### The fractions -/

theorem fraction_bounds {lost total : Nat} (hle : lost ≤ total) :
    0 ≤ (lost : ℚ) / (max total 1 : Nat) ∧ (lost : ℚ) / (max total 1 : Nat) ≤ 1 := by
  have hle' : lost ≤ max total 1 := hle.trans (le_max_left _ _)
  refine ⟨by positivity, ?_⟩
  apply div_le_one_of_le₀
  · exact_mod_cast hle'
  · positivity

theorem fraction_eq_zero_iff (lost total : Nat) : (lost : ℚ) / (max total 1 : Nat) = 0 ↔ lost = 0 := by
  have hpos : ((max total 1 : Nat) : ℚ) ≠ 0 := by
    have hone : 1 ≤ max total 1 := le_max_right _ _
    exact_mod_cast Nat.one_le_iff_ne_zero.mp hone
  rw [div_eq_zero_iff, or_iff_left hpos, Nat.cast_eq_zero]

theorem countMissing_le (source : List JsString) (targetSet : JsSet JsString) :
    countMissing source targetSet ≤ source.length := List.countP_le_length

theorem countMissing_eq_zero_iff (source : List JsString) (targetSet : JsSet JsString) :
    countMissing source targetSet = 0 ↔ ∀ item ∈ source, item ∈ targetSet := by
  rw [countMissing, List.countP_eq_zero]
  simp

/-- A weighted sum of three fractions is one, and zero only if all three are. -/
theorem weighted_bounds {x y z : ℚ} (hx : 0 ≤ x ∧ x ≤ 1) (hy : 0 ≤ y ∧ y ≤ 1) (hz : 0 ≤ z ∧ z ≤ 1) :
    (0 ≤ nodeWeight * x + edgeWeight * y + propWeight * z ∧ nodeWeight * x + edgeWeight * y + propWeight * z ≤ 1) ∧
      (nodeWeight * x + edgeWeight * y + propWeight * z = 0 ↔ x = 0 ∧ y = 0 ∧ z = 0) := by
  unfold nodeWeight edgeWeight propWeight
  refine ⟨⟨by linarith, by linarith⟩, ?_⟩
  constructor
  · intro hsum
    exact ⟨by linarith, by linarith, by linarith⟩
  · rintro ⟨rfl, rfl, rfl⟩
    norm_num

/-! ### What is counted -/

theorem mem_visiblePropKeys (allNodeProps : JsMap JsString Bool) (expose redact : Option (List JsString))
    (key : JsString) : key ∈ visiblePropKeys allNodeProps expose redact ↔
      key ∈ allNodeProps.keys ∧ showsKey expose redact key = true := by
  have hloop : visiblePropKeys allNodeProps expose redact =
      JsSet.ofList (allNodeProps.keys.filter fun key => showsKey expose redact key) := by
    rw [JsSet.ofList, JsSet.addAll, List.foldl_filter]
    refine congrArg (fun step => List.foldl step _ _) ?_
    funext keys key
    exact ite_showsKey expose redact key _ _
  rw [hloop, JsSet.mem_ofList, List.mem_filter]

/-- No property of the node is lost: `B` shows what `A` shows. -/
def KeepsKeys (nodeProps : JsMap JsString Bool) (configA configB : ObserverConfig) (nodeInB : Bool) : Prop :=
  ∀ key ∈ nodeProps.keys, showsKey configA.expose configA.redact key = true →
    nodeInB = true ∧ showsKey configB.expose configB.redact key = true

theorem countNodePropLoss_spec (nodeProps : JsMap JsString Bool) (configA configB : ObserverConfig) (nodeInB : Bool) :
    (countNodePropLoss nodeProps configA configB nodeInB).lostProps ≤
        (countNodePropLoss nodeProps configA configB nodeInB).propsInA ∧
      ((countNodePropLoss nodeProps configA configB nodeInB).lostProps = 0 ↔
        KeepsKeys nodeProps configA configB nodeInB) := by
  unfold countNodePropLoss KeepsKeys
  cases nodeInB with
  | false =>
      refine ⟨le_rfl, (JsSet.size_eq_zero_iff _).trans ?_⟩
      simp only [mem_visiblePropKeys, not_and, Bool.false_eq_true, false_and]
  | true =>
      refine ⟨countMissing_le _ _, (countMissing_eq_zero_iff _ _).trans ?_⟩
      simp only [JsSet.mem_elems, mem_visiblePropKeys, true_and, and_imp]
      exact forall₂_congr fun key hkey => by simp [hkey]

theorem foldl_addNodePropLoss (state : WarpStateV5 V) (nodesBSet : JsSet JsString) (configA configB : ObserverConfig)
    (nodes : List JsString) {totals : PropCounts} (hle : totals.lostProps ≤ totals.propsInA) :
    (nodes.foldl (addNodePropLoss state nodesBSet configA configB) totals).lostProps ≤
        (nodes.foldl (addNodePropLoss state nodesBSet configA configB) totals).propsInA ∧
      ((nodes.foldl (addNodePropLoss state nodesBSet configA configB) totals).lostProps = 0 ↔ totals.lostProps = 0 ∧
        ∀ node ∈ nodes, KeepsKeys (collectNodePropKeys state node) configA configB (nodesBSet.has node)) := by
  induction nodes generalizing totals with
  | nil => simp [hle]
  | cons node rest ih =>
      obtain ⟨hless, hkeeps⟩ := countNodePropLoss_spec (collectNodePropKeys state node) configA configB (nodesBSet.has node)
      have hstep : (addNodePropLoss state nodesBSet configA configB totals node).lostProps ≤
            (addNodePropLoss state nodesBSet configA configB totals node).propsInA ∧
          ((addNodePropLoss state nodesBSet configA configB totals node).lostProps = 0 ↔ totals.lostProps = 0 ∧
            KeepsKeys (collectNodePropKeys state node) configA configB (nodesBSet.has node)) := by
        unfold addNodePropLoss
        dsimp only
        split
        · rename_i hsize
          have hnone : ∀ key, key ∉ (collectNodePropKeys state node).keys := by
            intro key
            rw [JsMap.keys, List.eq_nil_of_length_eq_zero hsize]
            exact List.not_mem_nil
          exact ⟨hle, (and_iff_left fun key hkey => absurd hkey (hnone key)).symm⟩
        · refine ⟨Nat.add_le_add hle hless, ?_⟩
          rw [← hkeeps]
          exact Nat.add_eq_zero_iff
      obtain ⟨hrest, hzero⟩ := ih hstep.1
      rw [List.foldl_cons, List.forall_mem_cons]
      exact ⟨hrest, by rw [hzero, hstep.2, and_assoc]⟩

/-- Where every node of `A` is one of `B`, so is every edge. -/
theorem computeEdgeLoss_spec (state : WarpStateV5 V) (nodesASet nodesBSet : JsSet JsString) :
    (0 ≤ computeEdgeLoss state nodesASet nodesBSet ∧ computeEdgeLoss state nodesASet nodesBSet ≤ 1) ∧
      ((∀ node ∈ nodesASet, node ∈ nodesBSet) → computeEdgeLoss state nodesASet nodesBSet = 0) := by
  refine ⟨fraction_bounds (countMissing_le _ _), fun hkept => ?_⟩
  have hloop : ∀ (keys : List JsString) (found : List JsString × JsSet JsString), (∀ key ∈ found.1, key ∈ found.2) →
      ∀ key ∈ (keys.foldl (collectEdge state nodesASet nodesBSet) found).1,
        key ∈ (keys.foldl (collectEdge state nodesASet nodesBSet) found).2 := by
    intro keys
    induction keys with
    | nil => exact fun found h => h
    | cons edgeKey rest ih =>
        intro found hfound
        refine ih _ ?_
        unfold collectEdge
        dsimp only
        split
        · exact hfound
        · intro key hkey
          by_cases hA : (nodesASet.has (decodeEdgeKey edgeKey).fromId && nodesASet.has (decodeEdgeKey edgeKey).toId) = true
          · have hends := Bool.and_eq_true_iff.mp hA
            have hB : (nodesBSet.has (decodeEdgeKey edgeKey).fromId && nodesBSet.has (decodeEdgeKey edgeKey).toId) = true := by
              rw [Bool.and_eq_true, JsSet.has_iff, JsSet.has_iff]
              exact ⟨hkept _ ((JsSet.has_iff _ _).mp hends.1), hkept _ ((JsSet.has_iff _ _).mp hends.2)⟩
            rw [if_pos hA] at hkey
            rw [if_pos hB]
            refine (JsSet.mem_add _ _ _).mpr ?_
            rcases List.mem_append.mp hkey with hkey | hkey
            · exact .inr (hfound key hkey)
            · exact .inl (List.mem_singleton.mp hkey)
          · rw [if_neg hA] at hkey
            have hold := hfound key hkey
            dsimp only
            split
            · exact (JsSet.mem_add _ _ _).mpr (.inr hold)
            · exact hold
  exact (fraction_eq_zero_iff _ _).mpr ((countMissing_eq_zero_iff _ _).mpr
    (hloop _ ([], JsSet.empty) fun key hkey => absurd hkey List.not_mem_nil))

/-- What the cost of zero means: no node is lost, and no key of a node of `A`. -/
theorem computeTranslationCost_spec (configA configB : ObserverConfig) (hA : configA.pattern.isValid = true)
    (hB : configB.pattern.isValid = true) (state : WarpStateV5 V) :
    ∃ result, computeTranslationCost configA configB state = .ok result ∧ (0 ≤ result.cost ∧ result.cost ≤ 1) ∧
      (result.cost = 0 ↔ ∀ node ∈ ObserverView.getNodes configA state, node ∈ ObserverView.getNodes configB state ∧
        ∀ key ∈ (collectNodePropKeys state node).keys, showsKey configA.expose configA.redact key = true →
          showsKey configB.expose configB.redact key = true) := by
  unfold computeTranslationCost
  rw [hA, hB, if_neg (by decide)]
  change ∃ result, (if (ObserverView.getNodes configA state).length = 0 then _ else _) = _ ∧ _
  split
  · rename_i hnone
    refine ⟨zeroCost, rfl, ⟨le_rfl, zero_le_one⟩, iff_of_true rfl fun node hnode => ?_⟩
    rw [List.eq_nil_of_length_eq_zero hnone] at hnode
    exact absurd hnode List.not_mem_nil
  · have hnodes := countMissing_le (ObserverView.getNodes configA state) (.ofList (ObserverView.getNodes configB state))
    have hedges := computeEdgeLoss_spec state (.ofList (ObserverView.getNodes configA state))
      (.ofList (ObserverView.getNodes configB state))
    obtain ⟨hprops, hkeys⟩ := foldl_addNodePropLoss state (.ofList (ObserverView.getNodes configB state)) configA configB
      (ObserverView.getNodes configA state) (show (⟨0, 0⟩ : PropCounts).lostProps ≤ (⟨0, 0⟩ : PropCounts).propsInA from le_rfl)
    obtain ⟨hbounds, hzero⟩ := weighted_bounds (fraction_bounds hnodes) hedges.1 (fraction_bounds hprops)
    refine ⟨_, rfl, hbounds, hzero.trans ?_⟩
    rw [fraction_eq_zero_iff, fraction_eq_zero_iff, countMissing_eq_zero_iff, hkeys]
    simp only [JsSet.mem_ofList] at hedges ⊢
    constructor
    · rintro ⟨hkept, -, -, hshown⟩ node hnode
      exact ⟨hkept node hnode, fun key hkey hshows => (hshown node hnode key hkey hshows).2⟩
    · intro h
      refine ⟨fun node hnode => (h node hnode).1, hedges.2 fun node hnode => (h node hnode).1, trivial, ?_⟩
      intro node hnode key hkey hshows
      exact ⟨(JsSet.has_iff _ _).mpr ((JsSet.mem_ofList _ _).mpr (h node hnode).1), (h node hnode).2 key hkey hshows⟩

/-! ### What the observers show -/

/-- All that `A` shows, `B` shows with the same values. -/
structure ShowsAllOf (configA configB : ObserverConfig) (state : WarpStateV5 V) : Prop where
  nodes : ∀ node ∈ ObserverView.getNodes configA state, node ∈ ObserverView.getNodes configB state
  nodeProps : ∀ node propsA, ObserverView.getNodeProps configA state node = some propsA →
    ∃ propsB, ObserverView.getNodeProps configB state node = some propsB ∧
      ∀ key value, propsA.props.get key = some value → propsB.props.get key = some value
  edges : ∃ edgesA edgesB, ObserverView.getEdges configA state = .ok edgesA ∧
    ObserverView.getEdges configB state = .ok edgesB ∧ ∀ shownA ∈ edgesA, ∃ shownB ∈ edgesB,
      shownB.edge = shownA.edge ∧
        ∀ key value, shownA.props.props.get key = some value → shownB.props.props.get key = some value

/-- The cost is a fraction, and zero exactly if nothing is lost. -/
def MeasuresLoss (configA configB : ObserverConfig) (state : WarpStateV5 V) : Prop :=
  ∃ result, computeTranslationCost configA configB state = .ok result ∧ (0 ≤ result.cost ∧ result.cost ≤ 1) ∧
    (result.cost = 0 ↔ ShowsAllOf configA configB state)

/-- The lists of `B` hide a key that those of `A` let through. -/
def HidesKey (configA configB : ObserverConfig) (key : JsString) : Prop :=
  showsKey configA.expose configA.redact key = true ∧ showsKey configB.expose configB.redact key = false

def KeepsNodes (configA configB : ObserverConfig) (state : WarpStateV5 V) : Prop :=
  ∀ node, orsetContains state.nodeAlive node = true → matchGlob configA.pattern node = true →
    matchGlob configB.pattern node = true

/-- A node that `A` shows has a property whose key `B` hides. -/
def HidesNodeProp (configA configB : ObserverConfig) (state : WarpStateV5 V) (key : JsString) : Prop :=
  HidesKey configA configB key ∧ ∃ node, orsetContains state.nodeAlive node = true ∧
    matchGlob configA.pattern node = true ∧ (state.prop.get (encodePropKey node key)).isSome = true

/-- An edge that `A` shows has a property, not older than itself, whose key `B` hides. -/
def HidesEdgeProp (configA configB : ObserverConfig) (state : WarpStateV5 V) (key : JsString) : Prop :=
  HidesKey configA configB key ∧ ∃ edge, EdgeShown state edge ∧ matchGlob configA.pattern edge.fromId = true ∧
    matchGlob configA.pattern edge.toId = true ∧ ∃ register,
      state.prop.get (encodeEdgePropKey edge.fromId edge.toId edge.label key) = some register ∧
        isBeforeBirth state edge.key register = false

theorem mem_getNodes (state : WarpStateV5 V) (config : ObserverConfig) (node : JsString) : node ∈ ObserverView.getNodes config state ↔
    orsetContains state.nodeAlive node = true ∧ matchGlob config.pattern node = true := by
  rw [ObserverView.getNodes, List.mem_filter]
  exact and_congr_left fun _ => mem_orsetElements _ _

theorem get_filterProps_iff (props : JsMap JsString (Option V)) (config : ObserverConfig) (key : JsString)
    (value : Option V) : (filterProps props config.expose config.redact).props.get key = some value ↔
      key ≠ protoKey ∧ showsKey config.expose config.redact key = true ∧ props.get key = some value := by
  rw [get_filterProps]
  split
  · rename_i hproto
    simp [hproto]
  · rename_i hproto
    split
    · rename_i hshows
      simp [hproto, hshows]
    · rename_i hshows
      simp [hshows]

section Clean

variable {state : WarpStateV5 V} (hclean : CleanState state)

include hclean

theorem mem_collectNodePropKeys {node : JsString} (halive : orsetContains state.nodeAlive node = true) (key : JsString) :
    key ∈ (collectNodePropKeys state node).keys ↔ (state.prop.get (encodePropKey node key)).isSome = true := by
  have hnode := hclean.nodes node halive
  let pick (entry : JsString × LWWRegister V) : Option (JsString × Bool) :=
    if isEdgePropKey entry.1 then none
    else if (decodePropKey entry.1).1 = node then some ((decodePropKey entry.1).2, true) else none
  have hpick : ∀ {stored register p}, state.prop.get stored = some register → (pick (stored, register) = some p ↔
      stored = encodePropKey node p.1 ∧ p.2 = true) := by
    intro stored register p hget
    have hsome : (state.prop.get stored).isSome := by rw [hget]; rfl
    constructor
    · intro hp
      simp only [pick] at hp
      split at hp
      · cases hp
      · split at hp
        · rename_i hdecoded
          cases hp
          exact ⟨hclean.nodeKey_of_decode hsome hnode hdecoded, rfl⟩
        · cases hp
    · rintro ⟨rfl, htrue⟩
      simp only [pick, isEdgePropKey_nodeKey hnode, hclean.decode_nodeKey hnode hsome, if_true, Bool.false_eq_true, if_false]
      rw [← htrue]
  have hfold : collectNodePropKeys state node = state.prop.entries.foldl
      (fun props entry => (pick entry).elim props fun p => props.set p.1 p.2) JsMap.empty := by
    unfold collectNodePropKeys
    congr 1
    funext props entry
    simp only [pick]
    split
    · rfl
    · split <;> rfl
  rw [JsMap.mem_keys_iff, hfold, Option.isSome_iff_exists, Option.isSome_iff_exists]
  have hcollect := JsMap.get_collect_iff state.prop pick (fun a ha b hb p q hp hq hsame => by
    have ha' := (state.prop.get_eq_some_iff a.1 a.2).mpr ha
    have hb' := (state.prop.get_eq_some_iff b.1 b.2).mpr hb
    rw [((hpick ha').mp hp).1, ((hpick hb').mp hq).1, hsame])
  constructor
  · rintro ⟨value, hvalue⟩
    obtain ⟨stored, register, hget, hp⟩ := (hcollect key value).mp hvalue
    obtain ⟨rfl, -⟩ := (hpick hget).mp hp
    exact ⟨register, hget⟩
  · rintro ⟨register, hget⟩
    exact ⟨true, (hcollect key true).mpr ⟨_, register, hget, (hpick hget).mpr ⟨rfl, rfl⟩⟩⟩

/-- The node properties that an observer shows. -/
theorem getNodeProps_spec (config : ObserverConfig) {node : JsString} (halive : orsetContains state.nodeAlive node = true)
    (hmatch : matchGlob config.pattern node = true) : ∃ props, ObserverView.getNodeProps config state node = some props ∧
      ∀ key value, props.props.get key = some value ↔ key ≠ protoKey ∧ showsKey config.expose config.redact key = true ∧
        ∃ register, state.prop.get (encodePropKey node key) = some register ∧ register.value = value := by
  obtain ⟨props, hprops, hget⟩ := hclean.getNodeProps_eq halive
  refine ⟨filterProps props config.expose config.redact, ?_, fun key value => ?_⟩
  · rw [ObserverView.getNodeProps, hmatch, hprops]
    rfl
  · rw [get_filterProps_iff, hget]

/-- The edges that an observer shows, and their properties. -/
theorem getEdges_spec (config : ObserverConfig) : ∃ edges, ObserverView.getEdges config state = .ok edges ∧
    (∀ edge, (∃ shown ∈ edges, shown.edge = edge) ↔ EdgeShown state edge ∧ matchGlob config.pattern edge.fromId = true ∧
      matchGlob config.pattern edge.toId = true) ∧
    ∀ shown ∈ edges, ∀ key value, shown.props.props.get key = some value ↔ key ≠ protoKey ∧
      showsKey config.expose config.redact key = true ∧ ∃ register,
        state.prop.get (encodeEdgePropKey shown.edge.fromId shown.edge.toId shown.edge.label key) = some register ∧
          isBeforeBirth state shown.edge.key register = false ∧ register.value = value := by
  obtain ⟨listed, hlisted, hedges, hprops⟩ := hclean.getEdges_eq
  refine ⟨_, by rw [ObserverView.getEdges, hlisted]; rfl, fun edge => ?_, fun shown hshown key value => ?_⟩
  · simp only [List.mem_map, List.mem_filter, Bool.and_eq_true, ← hedges]
    constructor
    · rintro ⟨_, ⟨item, ⟨hitem, hmatch⟩, rfl⟩, rfl⟩
      exact ⟨⟨item, hitem, rfl⟩, hmatch⟩
    · rintro ⟨⟨item, hitem, rfl⟩, hmatch⟩
      exact ⟨_, ⟨item, ⟨hitem, hmatch⟩, rfl⟩, rfl⟩
  · obtain ⟨item, hitem, rfl⟩ := List.mem_map.mp hshown
    rw [get_filterProps_iff, hprops item (List.mem_of_mem_filter hitem)]

/-- All is shown exactly if no node is lost, and no property but those named `__proto__`. -/
theorem showsAllOf_iff (configA configB : ObserverConfig) : ShowsAllOf configA configB state ↔
    KeepsNodes configA configB state ∧
      (∀ key, key ≠ protoKey → ¬ HidesNodeProp configA configB state key) ∧
        ∀ key, key ≠ protoKey → ¬ HidesEdgeProp configA configB state key := by
  obtain ⟨edgesA, hedgesA, hlistA, hpropsA⟩ := getEdges_spec hclean configA
  obtain ⟨edgesB, hedgesB, hlistB, hpropsB⟩ := getEdges_spec hclean configB
  constructor
  · intro h
    have hkept : KeepsNodes configA configB state := fun node halive hmatch =>
      ((mem_getNodes state configB node).mp (h.nodes node ((mem_getNodes state configA node).mpr ⟨halive, hmatch⟩))).2
    refine ⟨hkept, ?_, ?_⟩
    · rintro key hproto ⟨⟨hshows, hhides⟩, node, halive, hmatch, hsome⟩
      obtain ⟨register, hget⟩ := Option.isSome_iff_exists.mp hsome
      obtain ⟨propsA, hnodeA, hgetA⟩ := getNodeProps_spec hclean configA halive hmatch
      obtain ⟨propsB, hnodeB, hgetB⟩ := getNodeProps_spec hclean configB halive (hkept node halive hmatch)
      obtain ⟨props, hprops, hall⟩ := h.nodeProps node propsA hnodeA
      rw [hnodeB, Option.some.injEq] at hprops
      subst hprops
      have hvalue := hall key register.value ((hgetA key _).mpr ⟨hproto, hshows, register, hget, rfl⟩)
      rw [((hgetB key _).mp hvalue).2.1] at hhides
      cases hhides
    · rintro key hproto ⟨⟨hshows, hhides⟩, edge, hedge, hfrom, hto, register, hget, hbirth⟩
      obtain ⟨shownA, hshownA, rfl⟩ := (hlistA edge).mpr ⟨hedge, hfrom, hto⟩
      obtain ⟨edgesA', edgesB', hA, hB, hall⟩ := h.edges
      rw [hedgesA, Except.ok.injEq] at hA
      rw [hedgesB, Except.ok.injEq] at hB
      subst hA hB
      obtain ⟨shownB, hshownB, -, hvalues⟩ := hall shownA hshownA
      have hvalue := hvalues key register.value
        ((hpropsA shownA hshownA key _).mpr ⟨hproto, hshows, register, hget, hbirth, rfl⟩)
      rw [((hpropsB shownB hshownB key _).mp hvalue).2.1] at hhides
      cases hhides
  · rintro ⟨hkept, hnodeProps, hedgeProps⟩
    refine ⟨?_, ?_, edgesA, edgesB, hedgesA, hedgesB, ?_⟩
    · intro node hnode
      obtain ⟨halive, hmatch⟩ := (mem_getNodes state configA node).mp hnode
      exact (mem_getNodes state configB node).mpr ⟨halive, hkept node halive hmatch⟩
    · intro node props hnode
      obtain ⟨halive, hmatch⟩ : orsetContains state.nodeAlive node = true ∧ matchGlob configA.pattern node = true := by
        unfold ObserverView.getNodeProps GitWarp.getNodeProps at hnode
        split at hnode
        · cases hnode
        · rename_i hmatch
          split at hnode
          · rename_i halive
            exact ⟨halive, by simpa using hmatch⟩
          · cases hnode
      obtain ⟨propsA, hnodeA, hgetA⟩ := getNodeProps_spec hclean configA halive hmatch
      obtain ⟨propsB, hnodeB, hgetB⟩ := getNodeProps_spec hclean configB halive (hkept node halive hmatch)
      rw [hnodeA, Option.some.injEq] at hnode
      subst hnode
      refine ⟨propsB, hnodeB, fun key value hvalue => ?_⟩
      obtain ⟨hproto, hshows, register, hget, hregister⟩ := (hgetA key value).mp hvalue
      refine (hgetB key value).mpr ⟨hproto, ?_, register, hget, hregister⟩
      by_contra hhides
      exact hnodeProps key hproto ⟨⟨hshows, Bool.eq_false_of_not_eq_true hhides⟩, node, halive, hmatch, by rw [hget]; rfl⟩
    · intro shownA hshownA
      obtain ⟨hedge, hfrom, hto⟩ := (hlistA shownA.edge).mp ⟨shownA, hshownA, rfl⟩
      obtain ⟨key, -, -, hends⟩ := id hedge
      obtain ⟨shownB, hshownB, hsame⟩ := (hlistB shownA.edge).mpr
        ⟨hedge, hkept _ hends.1 hfrom, hkept _ hends.2 hto⟩
      refine ⟨shownB, hshownB, hsame, fun key value hvalue => ?_⟩
      obtain ⟨hproto, hshows, register, hget, hbirth, hregister⟩ := (hpropsA shownA hshownA key value).mp hvalue
      refine (hpropsB shownB hshownB key value).mpr
        ⟨hproto, ?_, register, by rw [hsame]; exact hget, by rw [hsame]; exact hbirth, hregister⟩
      by_contra hhides
      exact hedgeProps key hproto ⟨⟨hshows, Bool.eq_false_of_not_eq_true hhides⟩, shownA.edge, hedge, hfrom, hto, register,
        hget, hbirth⟩

end Clean

/-- The cost counts the properties of nodes, also those named `__proto__`, and none of edges. It measures the loss
where the former are lost exactly if one of the latter is, or something else is. -/
theorem measuresLoss_iff (configA configB : ObserverConfig) (state : WarpStateV5 V) (hA : configA.pattern.isValid = true)
    (hB : configB.pattern.isValid = true) (hclean : CleanState state) : MeasuresLoss configA configB state ↔
      (KeepsNodes configA configB state → (∀ key, key ≠ protoKey → ¬ HidesNodeProp configA configB state key) →
        (HidesNodeProp configA configB state protoKey ↔ ∃ key, key ≠ protoKey ∧ HidesEdgeProp configA configB state key)) := by
  obtain ⟨result, hresult, hbounds, hzero⟩ := computeTranslationCost_spec configA configB hA hB state
  have hcost : result.cost = 0 ↔ KeepsNodes configA configB state ∧ ∀ key, ¬ HidesNodeProp configA configB state key := by
    rw [hzero]
    constructor
    · intro h
      refine ⟨fun node halive hmatch => ?_, ?_⟩
      · exact ((mem_getNodes state configB node).mp (h node ((mem_getNodes state configA node).mpr ⟨halive, hmatch⟩)).1).2
      · rintro key ⟨⟨hshows, hhides⟩, node, halive, hmatch, hsome⟩
        have hnode := (mem_getNodes state configA node).mpr ⟨halive, hmatch⟩
        have hkey := (mem_collectNodePropKeys hclean halive key).mpr hsome
        rw [(h node hnode).2 key hkey hshows] at hhides
        cases hhides
    · rintro ⟨hkept, hnone⟩ node hnode
      obtain ⟨halive, hmatch⟩ := (mem_getNodes state configA node).mp hnode
      refine ⟨(mem_getNodes state configB node).mpr ⟨halive, hkept node halive hmatch⟩, fun key hkey hshows => ?_⟩
      by_contra hhides
      exact hnone key ⟨⟨hshows, Bool.eq_false_of_not_eq_true hhides⟩, node, halive, hmatch,
        (mem_collectNodePropKeys hclean halive key).mp hkey⟩
  have hmeasures : MeasuresLoss configA configB state ↔ (result.cost = 0 ↔ ShowsAllOf configA configB state) := by
    constructor
    · rintro ⟨other, hother, -, hsame⟩
      rw [hresult, Except.ok.injEq] at hother
      subst hother
      exact hsame
    · exact fun h => ⟨result, hresult, hbounds, h⟩
  rw [hmeasures, hcost, showsAllOf_iff hclean]
  have hsplit : (∀ key, ¬ HidesNodeProp configA configB state key) ↔
      (∀ key, key ≠ protoKey → ¬ HidesNodeProp configA configB state key) ∧ ¬ HidesNodeProp configA configB state protoKey := by
    constructor
    · exact fun h => ⟨fun key _ => h key, h protoKey⟩
    · rintro ⟨hothers, hproto⟩ key
      by_cases hkey : key = protoKey
      · exact hkey ▸ hproto
      · exact hothers key hkey
  have hedges : (∀ key, key ≠ protoKey → ¬ HidesEdgeProp configA configB state key) ↔
      ¬ ∃ key, key ≠ protoKey ∧ HidesEdgeProp configA configB state key := by
    simp only [not_exists, not_and]
  rw [hsplit, hedges, and_congr_right_iff, and_congr_right_iff, not_iff_not]

/-- An edge with a property. -/
def weighsEdge : PatchEntry Nat :=
  ⟨⟨3, js "w", 1, .record [(js "w", 3)], [.nodeAdd (js "a") ⟨js "w", 1⟩, .nodeAdd (js "b") ⟨js "w", 2⟩,
    .edgeAdd ⟨js "a", js "b", js "l"⟩ ⟨js "w", 3⟩,
    .propSet (encodeLegacyEdgePropNode (js "a") (js "b") (js "l")) (js "weight") (some 5)]⟩, js "aaaa"⟩

theorem builtBy_weighsEdge : BuiltBy none [.addNode (js "a"), .addNode (js "b"), .addEdge ⟨js "a", js "b", js "l"⟩,
    .setEdgeProperty ⟨js "a", js "b", js "l"⟩ (js "weight") (some 5)] weighsEdge.patch :=
  builtBy_newBuilder (js "w") .warn (by decide)

theorem cleanState_weighsEdge {state : WarpStateV5 Nat} (h : reduceV5 [weighsEdge] = .ok state) : CleanState state := by
  refine cleanState_reduceV5 (fun entry hentry => ?_) h
  rw [List.mem_singleton.mp hentry]
  exact ⟨_, _, builtBy_weighsEdge⟩

def seesAll : ObserverConfig := ⟨.one [star], none, none⟩

def redactsWeight : ObserverConfig := ⟨.one [star], none, some [js "weight"]⟩

/-- An observer that sees one end of the edge. -/
def seesFirst : ObserverConfig := ⟨.one (js "a"), none, none⟩

theorem measuresLoss_seesFirst : ∃ state : WarpStateV5 Nat, reduceV5 [weighsEdge] = .ok state ∧
    MeasuresLoss seesAll seesFirst state := by
  obtain ⟨state, hstate⟩ : ∃ state, reduceV5 [weighsEdge] = .ok state := ⟨_, rfl⟩
  refine ⟨state, hstate, (measuresLoss_iff seesAll seesFirst state rfl rfl (cleanState_weighsEdge hstate)).mpr ?_⟩
  intro hkept
  have hseen : matchGlob seesFirst.pattern (js "b") = true := by
    cases hstate
    exact hkept (js "b") (by decide) (by decide)
  exact absurd hseen (by decide)

/-- The cost is zero although the property of the edge is lost. -/
theorem not_measuresLoss_redactsWeight : ∃ state : WarpStateV5 Nat, reduceV5 [weighsEdge] = .ok state ∧
    CleanState state ∧ ¬ MeasuresLoss seesAll redactsWeight state := by
  obtain ⟨state, hstate⟩ : ∃ state, reduceV5 [weighsEdge] = .ok state := ⟨_, rfl⟩
  have hclean := cleanState_weighsEdge hstate
  refine ⟨state, hstate, hclean, ?_⟩
  rintro ⟨result, hresult, -, hzero⟩
  have hlost : HidesEdgeProp seesAll redactsWeight state (js "weight") := by
    cases hstate
    exact ⟨⟨by decide, by decide⟩, ⟨js "a", js "b", js "l"⟩, ⟨encodeEdgeKey (js "a") (js "b") (js "l"), by decide⟩,
      rfl, rfl, _, rfl, by decide⟩
  have hcost : result.cost = 0 := by
    obtain ⟨other, hother, -, hspec⟩ := computeTranslationCost_spec seesAll redactsWeight rfl rfl state
    rw [hresult, Except.ok.injEq] at hother
    subst hother
    refine hspec.mpr fun node hnode => ⟨hnode, ?_⟩
    have hnone : ∀ node ∈ ObserverView.getNodes seesAll state, (collectNodePropKeys state node).keys = [] := by
      cases hstate
      exact List.forall_mem_cons.mpr ⟨by decide, List.forall_mem_singleton.mpr (by decide)⟩
    intro key hkey
    rw [hnone node hnode] at hkey
    exact absurd hkey List.not_mem_nil
  exact ((showsAllOf_iff hclean seesAll redactsWeight).mp (hzero.mp hcost)).2.2 (js "weight") (by decide) hlost

end TranslationCost

end GitWarp
