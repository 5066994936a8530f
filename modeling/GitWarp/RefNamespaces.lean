import GitWarp.LibraryLists
import GitWarp.LibraryPaths
import GitWarp.TrustAssessment

/-! The refs of a graph. The names that the builders give never collide, and the writers of a graph are read back from its
own writer refs. -/

namespace GitWarp
open Js ExceptLoops GitWarp.Lists Paths

/-! ### The builders -/

/-- A ref of a graph: `${REF_PREFIX}/${graphName}` and a fixed path. -/
def graphRef (graphName path : JsString) : Except JsError JsString := do
  validateGraphName graphName
  return refPrefix ++ js "/" ++ graphName ++ path

/-- A ref of a graph that ends in a checked name. -/
def namedRef (graphName path name : JsString) : Except JsError JsString := do
  validateGraphName graphName
  validateWriterId name
  return refPrefix ++ js "/" ++ graphName ++ path ++ name

def buildWriterRef (graphName writerId : JsString) : Except JsError JsString := namedRef graphName (js "/writers/") writerId

def buildCheckpointRef (graphName : JsString) : Except JsError JsString := graphRef graphName (js "/checkpoints/head")

def buildCoverageRef (graphName : JsString) : Except JsError JsString := graphRef graphName (js "/coverage/head")

def buildWritersPrefix (graphName : JsString) : Except JsError JsString := graphRef graphName (js "/writers/")

def buildCursorActiveRef (graphName : JsString) : Except JsError JsString := graphRef graphName (js "/cursor/active")

def buildCursorSavedRef (graphName name : JsString) : Except JsError JsString := namedRef graphName (js "/cursor/saved/") name

def buildSeekCacheRef (graphName : JsString) : Except JsError JsString := graphRef graphName (js "/seek-cache")

/-! ### The parser -/

def parseWriterIdFromRef (refPath : JsString) : Option JsString :=
  let front := refPrefix ++ js "/"
  if !front.isPrefixOf refPath then none
  else
    let parts := (refPath.drop front.length).splitOn 47
    if parts.length < 3 then none
    else
      let writersIndex := parts.idxOf (js "writers")
      -- `idxOf` is the length where `indexOf` is -1
      if writersIndex = parts.length ∨ writersIndex = 0 then none
      else if writersIndex ≠ parts.length - 2 then none
      else
        let writerId := (parts[parts.length - 1]?).getD []
        match validateWriterId writerId with
        | .ok () => some writerId
        | .error _ => none

/-- The writers of a graph, sorted. -/
def discoverWriters (refs : JsMap JsString Sha) (failure : Option JsError) (graphName : JsString) :
    Except JsError (List JsString) := do
  let front ← buildWritersPrefix graphName
  let found ← listRefs refs failure front
  return sortWriters ((found.filterMap parseWriterIdFromRef).filter (· ≠ []))

/-! ### The names of refs -/

/-- A kind of ref with its graph and, where it has one, the writer id or the cursor name. -/
inductive RefName where
  | writer (graphName writerId : JsString)
  | checkpoint (graphName : JsString)
  | coverage (graphName : JsString)
  | cursorActive (graphName : JsString)
  | cursorSaved (graphName name : JsString)
  | audit (graphName writerId : JsString)
  | seekCache (graphName : JsString)
  | trustRecord (graphName : JsString)
  deriving DecidableEq

namespace RefName

def build : RefName → Except JsError JsString
  | writer graphName writerId => buildWriterRef graphName writerId
  | checkpoint graphName => buildCheckpointRef graphName
  | coverage graphName => buildCoverageRef graphName
  | cursorActive graphName => buildCursorActiveRef graphName
  | cursorSaved graphName name => buildCursorSavedRef graphName name
  | audit graphName writerId => buildAuditRef graphName writerId
  | seekCache graphName => buildSeekCacheRef graphName
  | trustRecord graphName => buildTrustRecordRef graphName

def graphName : RefName → JsString
  | writer graphName _ => graphName
  | checkpoint graphName => graphName
  | coverage graphName => graphName
  | cursorActive graphName => graphName
  | cursorSaved graphName _ => graphName
  | audit graphName _ => graphName
  | seekCache graphName => graphName
  | trustRecord graphName => graphName

/-- The reserved segment below the graph, and what follows it. -/
def place : RefName → JsString × List JsString
  | writer _ writerId => (js "writers", [writerId])
  | checkpoint _ => (js "checkpoints", [js "head"])
  | coverage _ => (js "coverage", [js "head"])
  | cursorActive _ => (js "cursor", [js "active"])
  | cursorSaved _ name => (js "cursor", [js "saved", name])
  | audit _ writerId => (js "audit", [writerId])
  | seekCache _ => (js "seek-cache", [])
  | trustRecord _ => (js "trust", [js "records"])

end RefName

theorem not_reserved_of_validateGraphName {name : JsString} (h : validateGraphName name = .ok ()) :
    ∀ seg ∈ name.splitOn 47, reservedGraphNameSegments.contains seg = false := by
  unfold validateGraphName thrown at h
  split_ifs at h
  split at h
  · cases h
  · rename_i hfind
    intro seg hseg
    exact Bool.not_eq_true _ ▸ List.find?_eq_none.mp hfind seg hseg

theorem slash_not_mem_of_validateWriterId {id : JsString} (h : validateWriterId id = .ok ()) : 47 ∉ id := by
  unfold validateWriterId thrown at h
  split_ifs at h
  assumption

theorem graphRef_eq_ok {graphName path ref : JsString} (h : graphRef graphName path = .ok ref) :
    validateGraphName graphName = .ok () ∧ ref = refPrefix ++ js "/" ++ graphName ++ path := by
  obtain ⟨⟨⟩, hgraph, hrest⟩ := bind_ok_iff.mp h
  exact ⟨hgraph, (Except.ok.inj hrest).symm⟩

theorem namedRef_eq_ok_iff {graphName path name ref : JsString} : namedRef graphName path name = .ok ref ↔
    validateGraphName graphName = .ok () ∧ validateWriterId name = .ok () ∧
      ref = refPrefix ++ js "/" ++ graphName ++ path ++ name := by
  constructor
  · intro h
    obtain ⟨⟨⟩, hgraph, hrest⟩ := bind_ok_iff.mp h
    obtain ⟨⟨⟩, hname, hlast⟩ := bind_ok_iff.mp hrest
    exact ⟨hgraph, hname, (Except.ok.inj hlast).symm⟩
  · rintro ⟨hgraph, hname, rfl⟩
    rw [namedRef, hgraph, hname]
    rfl

/-! ### The segments of a ref -/

/-- The segments of a ref below `refs/warp`: those of the graph name, a reserved one and the rest. -/
structure Located (ref graphName segment : JsString) (rest : List JsString) : Prop where
  graph : validateGraphName graphName = .ok ()
  segments : ref.splitOn 47 = [js "refs", js "warp"] ++ (graphName.splitOn 47 ++ segment :: rest)

theorem splitOn_ref (graphName path : JsString) :
    (refPrefix ++ js "/" ++ graphName ++ js "/" ++ path).splitOn 47 =
      [js "refs", js "warp"] ++ (graphName.splitOn 47 ++ path.splitOn 47) := by
  have hfront : refPrefix.splitOn 47 = [js "refs", js "warp"] := by decide
  have hslash : js "/" = [47] := rfl
  rw [hslash, segments_append, segments_append, hfront, List.append_assoc]

theorem located_graphRef (path : JsString) {graphName ref segment : JsString} {rest : List JsString}
    (h : graphRef graphName (js "/" ++ path) = .ok ref) (hpath : path.splitOn 47 = segment :: rest) :
    Located ref graphName segment rest := by
  obtain ⟨hgraph, rfl⟩ := graphRef_eq_ok h
  refine ⟨hgraph, ?_⟩
  rw [← List.append_assoc, splitOn_ref, hpath]

theorem located_namedRef (path : JsString) {graphName name ref segment : JsString} {rest : List JsString}
    (h : namedRef graphName (js "/" ++ (path ++ js "/")) name = .ok ref) (hpath : path.splitOn 47 = segment :: rest) :
    Located ref graphName segment (rest ++ [name]) ∧ validateWriterId name = .ok () := by
  obtain ⟨hgraph, hname, rfl⟩ := namedRef_eq_ok_iff.mp h
  refine ⟨⟨hgraph, ?_⟩, hname⟩
  have hslash : js "/" = [47] := rfl
  have hsegments : (path ++ js "/" ++ name).splitOn 47 = segment :: (rest ++ [name]) := by
    rw [hslash, segments_append, hpath, List.splitOn_eq_singleton (slash_not_mem_of_validateWriterId hname)]
    rfl
  rw [← List.append_assoc (_ ++ graphName), List.append_assoc _ (path ++ js "/"), splitOn_ref, hsegments]

namespace RefName

theorem located {name : RefName} {ref : JsString} (h : name.build = .ok ref) :
    Located ref name.graphName name.place.1 name.place.2 := by
  cases name with
  | writer graphName writerId =>
      have hpath : js "/writers/" = js "/" ++ (js "writers" ++ js "/") := by
        rw [js_ofList, js_ofList, js_ofList]
        rfl
      have hsegments : (js "writers").splitOn 47 = [js "writers"] := by
        rw [js_ofList]
        rfl
      rw [build, buildWriterRef, hpath] at h
      exact (located_namedRef _ h hsegments).1
  | checkpoint graphName =>
      have hpath : js "/checkpoints/head" = js "/" ++ js "checkpoints/head" := by
        rw [js_ofList, js_ofList, js_ofList]
        rfl
      have hsegments : (js "checkpoints/head").splitOn 47 = [js "checkpoints", js "head"] := by
        rw [js_ofList, js_ofList, js_ofList]
        rfl
      rw [build, buildCheckpointRef, hpath] at h
      exact located_graphRef _ h hsegments
  | coverage graphName =>
      have hpath : js "/coverage/head" = js "/" ++ js "coverage/head" := by
        rw [js_ofList, js_ofList, js_ofList]
        rfl
      have hsegments : (js "coverage/head").splitOn 47 = [js "coverage", js "head"] := by
        rw [js_ofList, js_ofList, js_ofList]
        rfl
      rw [build, buildCoverageRef, hpath] at h
      exact located_graphRef _ h hsegments
  | cursorActive graphName =>
      have hpath : js "/cursor/active" = js "/" ++ js "cursor/active" := by
        rw [js_ofList, js_ofList, js_ofList]
        rfl
      have hsegments : (js "cursor/active").splitOn 47 = [js "cursor", js "active"] := by
        rw [js_ofList, js_ofList, js_ofList]
        rfl
      rw [build, buildCursorActiveRef, hpath] at h
      exact located_graphRef _ h hsegments
  | cursorSaved graphName saved =>
      have hpath : js "/cursor/saved/" = js "/" ++ (js "cursor/saved" ++ js "/") := by
        rw [js_ofList, js_ofList, js_ofList]
        rfl
      have hsegments : (js "cursor/saved").splitOn 47 = [js "cursor", js "saved"] := by
        rw [js_ofList, js_ofList, js_ofList]
        rfl
      rw [build, buildCursorSavedRef, hpath] at h
      exact (located_namedRef _ h hsegments).1
  | audit graphName writerId =>
      have hpath : js "/audit/" = js "/" ++ (js "audit" ++ js "/") := by
        rw [js_ofList, js_ofList, js_ofList]
        rfl
      have hsegments : (js "audit").splitOn 47 = [js "audit"] := by
        rw [js_ofList]
        rfl
      rw [build, buildAuditRef, hpath] at h
      exact (located_namedRef _ h hsegments).1
  | seekCache graphName =>
      have hpath : js "/seek-cache" = js "/" ++ js "seek-cache" := by
        rw [js_ofList, js_ofList, js_ofList]
        rfl
      have hsegments : (js "seek-cache").splitOn 47 = [js "seek-cache"] := by
        rw [js_ofList]
        rfl
      rw [build, buildSeekCacheRef, hpath] at h
      exact located_graphRef _ h hsegments
  | trustRecord graphName =>
      have hpath : js "/trust/records" = js "/" ++ js "trust/records" := by
        rw [js_ofList, js_ofList, js_ofList]
        rfl
      have hsegments : (js "trust/records").splitOn 47 = [js "trust", js "records"] := by
        rw [js_ofList, js_ofList, js_ofList]
        rfl
      rw [build, buildTrustRecordRef, hpath] at h
      exact located_graphRef _ h hsegments

theorem place_reserved (name : RefName) : reservedGraphNameSegments.contains name.place.1 = true := by
  cases name <;> rfl

/-- Refs of one graph whose places begin each other are the same ref. -/
theorem eq_of_place {a b : RefName} (hgraph : a.graphName = b.graphName)
    (hplace : a.place.1 :: a.place.2 <+: b.place.1 :: b.place.2) : a = b := by
  cases a <;> cases b <;> simp only [graphName] at hgraph <;> subst hgraph <;>
    simp only [place, List.cons_prefix_cons, List.prefix_nil, List.nil_prefix, and_true, true_and, reduceCtorEq,
      and_false] at hplace
  all_goals first | rfl | (subst hplace; rfl) | exact absurd hplace (by decide) | exact absurd hplace.1 (by decide)

/-- No ref is another one or a directory above it. -/
theorem eq_of_pathPrefix {a b : RefName} {ref ref' : JsString} (ha : a.build = .ok ref) (hb : b.build = .ok ref')
    (h : PathPrefix 47 ref ref') : a = b := by
  have hsegments := h.segments
  rw [(located ha).segments, (located hb).segments, List.prefix_append_right_inj] at hsegments
  obtain ⟨hgraph, hplace⟩ := free_part_eq (not_reserved_of_validateGraphName (located ha).graph)
    (not_reserved_of_validateGraphName (located hb).graph) a.place_reserved b.place_reserved hsegments
  exact eq_of_place (splitOn_injective 47 hgraph) hplace

end RefName

/-! ### Reading a writer ref -/

/-- The parser reads the segment after the first `writers`, where that is the last but one and not the first. -/
theorem parse_located {ref : JsString} {front rest : List JsString} (hfront : js "writers" ∉ front) (hne : front ≠ [])
    (hsegments : ref.splitOn 47 = [js "refs", js "warp"] ++ (front ++ js "writers" :: rest)) (writerId : JsString) :
    parseWriterIdFromRef ref = some writerId ↔ rest = [writerId] ∧ validateWriterId writerId = .ok () := by
  have hroot : refPrefix.splitOn 47 = [js "refs", js "warp"] := by decide
  rw [← hroot] at hsegments
  obtain ⟨below, rfl, hparts⟩ := exists_below hsegments (by simp)
  have hslash : [47] = js "/" := rfl
  have hindex : (front ++ js "writers" :: rest).idxOf (js "writers") = front.length := by
    rw [List.idxOf_append_of_notMem hfront, List.idxOf_cons_self, Nat.add_zero]
  have hpos := List.length_pos_iff.mpr hne
  unfold parseWriterIdFromRef
  dsimp only
  rw [hslash, List.isPrefixOf_iff_prefix.mpr (List.prefix_append _ _), List.drop_left, hparts, hindex, List.length_append,
    List.length_cons, if_neg (by decide)]
  by_cases hone : rest.length = 1
  · obtain ⟨id, rfl⟩ := List.length_eq_one_iff.mp hone
    have hlast : (front ++ [js "writers", id])[front.length + 2 - 1]? = some id := by
      have hplace : front.length + 2 - 1 = front.length + 1 := rfl
      rw [hplace, List.getElem?_append_right (Nat.le_add_right _ _), Nat.add_sub_cancel_left]
      rfl
    rw [List.length_singleton, hlast, if_neg (by omega), if_neg (by omega), if_neg (by omega), Option.getD_some,
      List.cons_eq_cons, and_iff_left rfl]
    cases hvalid : validateWriterId id with
    | ok _ =>
        constructor
        · intro h
          cases h
          exact ⟨rfl, hvalid⟩
        · rintro ⟨rfl, -⟩
          rfl
    | error err =>
        refine iff_of_false (by simp) ?_
        rintro ⟨rfl, hok⟩
        rw [hvalid] at hok
        cases hok
  · refine iff_of_false ?_ ?_
    · split_ifs
      · simp
      · simp
      · simp
      · omega
    · rintro ⟨rfl, -⟩
      exact hone rfl

/-- What the parser accepts has `writers` as its last segment but one. -/
theorem exists_front_of_parse {ref writerId : JsString} (h : parseWriterIdFromRef ref = some writerId) :
    ∃ front, js "writers" ∉ front ∧ ref.splitOn 47 = [js "refs", js "warp"] ++ (front ++ [js "writers", writerId]) := by
  have hread := h
  unfold parseWriterIdFromRef at h
  dsimp only at h
  split_ifs at h with hroot hshort hnone
  have hroot' : refPrefix ++ js "/" <+: ref := by simpa using hroot
  obtain ⟨below, rfl⟩ := hroot'
  rw [List.drop_left] at hnone
  obtain ⟨hfound, hfirst⟩ := not_or.mp hnone
  have hmem : js "writers" ∈ below.splitOn 47 := not_not.mp fun hmem => hfound (List.idxOf_eq_length hmem)
  obtain ⟨front, rest, hparts, hfront⟩ := List.eq_append_cons_of_mem hmem
  have hne : front ≠ [] := by
    rintro rfl
    rw [hparts, List.nil_append, List.idxOf_cons_self] at hfirst
    exact hfirst rfl
  have hslash : js "/" = [47] := rfl
  have hfixed : refPrefix.splitOn 47 = [js "refs", js "warp"] := by decide
  have hsegments : (refPrefix ++ js "/" ++ below).splitOn 47 =
      [js "refs", js "warp"] ++ (front ++ js "writers" :: rest) := by
    rw [hslash, segments_append, hfixed, hparts]
  obtain ⟨rfl, -⟩ := (parse_located hfront hne hsegments writerId).mp hread
  exact ⟨front, hfront, hsegments⟩

theorem parse_buildWriterRef {graphName writerId ref : JsString} (h : buildWriterRef graphName writerId = .ok ref) :
    parseWriterIdFromRef ref = some writerId := by
  obtain ⟨hlocated, hvalid⟩ := located_namedRef (js "writers") h rfl
  have hfree : js "writers" ∉ graphName.splitOn 47 := by
    intro hmem
    exact absurd (not_reserved_of_validateGraphName hlocated.graph _ hmem) (by decide)
  exact (parse_located hfree (List.splitOn_ne_nil 47 graphName) hlocated.segments writerId).mpr ⟨rfl, hvalid⟩

/-- A ref of another kind has something else as its last segment but one. -/
theorem parse_other {name : RefName} {ref : JsString} (h : name.build = .ok ref)
    (hother : ∀ graphName writerId, name ≠ .writer graphName writerId) : parseWriterIdFromRef ref = none := by
  rw [Option.eq_none_iff_forall_not_mem]
  intro writerId hparse
  obtain ⟨front, hfront, hsegments⟩ := exists_front_of_parse hparse
  have hlocated := RefName.located h
  rw [hlocated.segments] at hsegments
  have hsegments := List.append_cancel_left hsegments
  have hpair : ∀ {before : List JsString} {x y : JsString}, before ++ [x, y] = front ++ [js "writers", writerId] →
      x = js "writers" := by
    intro before x y hends
    have hlast := (List.append_inj' hends rfl).2
    exact (List.cons_eq_cons.mp hlast).1
  cases name with
  | writer graphName writerId => exact hother graphName writerId rfl
  | checkpoint graphName => exact absurd (hpair hsegments : js "checkpoints" = js "writers") (by decide)
  | coverage graphName => exact absurd (hpair hsegments : js "coverage" = js "writers") (by decide)
  | cursorActive graphName => exact absurd (hpair hsegments : js "cursor" = js "writers") (by decide)
  | audit graphName writerId => exact absurd (hpair hsegments : js "audit" = js "writers") (by decide)
  | trustRecord graphName => exact absurd (hpair hsegments : js "trust" = js "writers") (by decide)
  | cursorSaved graphName saved =>
      have hends : (graphName.splitOn 47 ++ [js "cursor"]) ++ [js "saved", saved] = front ++ [js "writers", writerId] := by
        rw [List.append_assoc]
        exact hsegments
      exact absurd (hpair hends) (by decide)
  | seekCache graphName =>
      -- the last segment of the graph name would be `writers`
      have hends : graphName.splitOn 47 ++ [js "seek-cache"] = (front ++ [js "writers"]) ++ [writerId] := by
        rw [List.append_assoc]
        exact hsegments
      have hgraph := (List.append_inj' hends rfl).1
      have hfree := not_reserved_of_validateGraphName hlocated.graph (js "writers")
      have hmem : js "writers" ∈ graphName.splitOn 47 := by
        rw [hgraph]
        exact List.mem_append_right _ (List.mem_singleton_self _)
      exact absurd (hfree hmem) (by decide)

/-! ### The writers of a graph -/

/-- A ref under the writers of a graph that the parser accepts is the writer ref of that graph. -/
theorem buildWriterRef_of_parse {graphName front ref writerId : JsString} (hfront : buildWritersPrefix graphName = .ok front)
    (hbegins : front <+: ref) (hparse : parseWriterIdFromRef ref = some writerId) :
    buildWriterRef graphName writerId = .ok ref := by
  obtain ⟨hgraph, rfl⟩ := graphRef_eq_ok hfront
  obtain ⟨below, rfl⟩ := hbegins
  have hslash : js "/" = [47] := rfl
  have hpath : js "/writers/" = js "/" ++ (js "writers" ++ js "/") := rfl
  have hsingle : (js "writers").splitOn 47 = [js "writers"] := by decide
  have hsegments : (refPrefix ++ js "/" ++ graphName ++ js "/writers/" ++ below).splitOn 47 =
      [js "refs", js "warp"] ++ (graphName.splitOn 47 ++ js "writers" :: below.splitOn 47) := by
    rw [hpath, List.append_assoc, List.append_assoc (js "/"), ← List.append_assoc _ (js "/"), splitOn_ref, hslash,
      segments_append, hsingle]
    rfl
  have hfree : js "writers" ∉ graphName.splitOn 47 := by
    intro hmem
    exact absurd (not_reserved_of_validateGraphName hgraph _ hmem) (by decide)
  obtain ⟨hbelow, hvalid⟩ := (parse_located hfree (List.splitOn_ne_nil 47 graphName) hsegments writerId).mp hparse
  have hwriter : below = writerId := by
    calc
      below = [47].intercalate (below.splitOn 47) := (List.intercalate_splitOn 47).symm
      _ = writerId := by rw [hbelow, List.intercalate_singleton]
  rw [hwriter]
  exact namedRef_eq_ok_iff.mpr ⟨hgraph, hvalid, rfl⟩

/-- The writers that are found are those with a writer ref of the graph, each once. -/
theorem discoverWriters_spec {graphName : JsString} (hgraph : validateGraphName graphName = .ok ()) (refs : JsMap JsString Sha) :
    ∃ writerIds, discoverWriters refs none graphName = .ok writerIds ∧ writerIds.Pairwise (· < ·) ∧
      ∀ writerId, writerId ∈ writerIds ↔ ∃ ref, buildWriterRef graphName writerId = .ok ref ∧ refs.has ref = true := by
  obtain ⟨front, hfront⟩ : ∃ front, buildWritersPrefix graphName = .ok front := by
    rw [buildWritersPrefix, graphRef, hgraph]
    exact ⟨_, rfl⟩
  have hbuild : ∀ ref ∈ refs.keys.filter front.isPrefixOf, ∀ writerId ∈ parseWriterIdFromRef ref,
      buildWriterRef graphName writerId = .ok ref := by
    intro ref href writerId hparse
    exact buildWriterRef_of_parse hfront (List.isPrefixOf_iff_prefix.mp (List.mem_filter.mp href).2) hparse
  have hnodup : ((refs.keys.filter front.isPrefixOf).filterMap parseWriterIdFromRef).Nodup := by
    have hkeys : (refs.keys.filter front.isPrefixOf).Nodup := refs.nodup.filter _
    refine List.pairwise_filterMap.mpr (hkeys.imp_of_mem ?_)
    rintro ref ref' href href' hne writerId hparse _ hparse' rfl
    have hsame := (hbuild ref href writerId hparse).symm.trans (hbuild ref' href' writerId hparse')
    exact hne (Except.ok.inj hsame)
  refine ⟨sortWriters (((refs.keys.filter front.isPrefixOf).filterMap parseWriterIdFromRef).filter (· ≠ [])), ?_, ?_, ?_⟩
  · rw [discoverWriters, hfront]
    rfl
  · refine pairwise_lt_insertionSort_key _ id (fun _ _ h => h) (fun a b h => (not_le.mp h).le) ?_
    rw [List.map_id]
    exact hnodup.filter _
  · intro writerId
    rw [sortWriters, List.mem_insertionSort, List.mem_filter, List.mem_filterMap]
    constructor
    · rintro ⟨⟨ref, href, hparse⟩, -⟩
      exact ⟨ref, hbuild ref href writerId hparse, (JsMap.has_iff_mem_keys refs ref).mpr (List.mem_filter.mp href).1⟩
    · rintro ⟨ref, hwriter, hhas⟩
      obtain ⟨-, hvalid, htext⟩ := namedRef_eq_ok_iff.mp hwriter
      have hbegins : front <+: ref := by
        rw [(graphRef_eq_ok hfront).2, htext]
        exact List.prefix_append _ _
      refine ⟨⟨ref, List.mem_filter.mpr ⟨(JsMap.has_iff_mem_keys refs ref).mp hhas, List.isPrefixOf_iff_prefix.mpr hbegins⟩,
        parse_buildWriterRef hwriter⟩, ?_⟩
      exact decide_eq_true (ne_nil_of_validateWriterId hvalid)

/-- Distinct refs of graphs never collide, writer refs and no others are read back, and the writers of a graph are found
from its own writer refs whatever else there is. -/
theorem refs_never_collide :
    (∀ a b : RefName, a ≠ b → ∀ ref ref', a.build = .ok ref → b.build = .ok ref' →
        ref ≠ ref' ∧ ¬ PathPrefix 47 ref ref' ∧ ¬ PathPrefix 47 ref' ref) ∧
      (∀ graphName writerId ref, buildWriterRef graphName writerId = .ok ref → parseWriterIdFromRef ref = some writerId) ∧
      (∀ (name : RefName) ref, name.build = .ok ref → (∀ graphName writerId, name ≠ .writer graphName writerId) →
        parseWriterIdFromRef ref = none) ∧
      ∀ graphName, validateGraphName graphName = .ok () → ∀ refs : JsMap JsString Sha,
        ∃ writerIds, discoverWriters refs none graphName = .ok writerIds ∧ writerIds.Pairwise (· < ·) ∧
          ∀ writerId, writerId ∈ writerIds ↔
            ∃ ref, buildWriterRef graphName writerId = .ok ref ∧ refs.has ref = true := by
  refine ⟨?_, fun _ _ _ => parse_buildWriterRef, fun _ _ => parse_other, fun _ => discoverWriters_spec⟩
  intro a b hne ref ref' ha hb
  have happart : ¬ PathPrefix 47 ref ref' := fun h => hne (RefName.eq_of_pathPrefix ha hb h)
  have happart' : ¬ PathPrefix 47 ref' ref := fun h => hne (RefName.eq_of_pathPrefix hb ha h).symm
  exact ⟨fun h => happart (Or.inl h), happart, happart'⟩

/-- A graph may lie below another one: `team/x` and `team`. -/
theorem refs_never_collide_team :
    ∃ ref ref', (RefName.writer (js "team") (js "x")).build = .ok ref ∧
      (RefName.writer (js "team/x") (js "x")).build = .ok ref' ∧ ref ≠ ref' ∧ ¬ PathPrefix 47 ref ref' ∧ ¬ PathPrefix 47 ref' ref := by
  have hteam : (RefName.writer (js "team") (js "x")).build = .ok (refPrefix ++ js "/" ++ js "team" ++ js "/writers/" ++
      js "x") := by
    decide +kernel
  have hbelow : (RefName.writer (js "team/x") (js "x")).build = .ok (refPrefix ++ js "/" ++ js "team/x" ++
      js "/writers/" ++ js "x") := by
    decide +kernel
  exact ⟨_, _, hteam, hbelow, refs_never_collide.1 (.writer (js "team") (js "x")) (.writer (js "team/x") (js "x"))
    (by decide) _ _ hteam hbelow⟩

end GitWarp
