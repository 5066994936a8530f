import GitWarp.AuditMessage
import GitWarp.BoundaryReplay

/-! Wormholes: a range of a writer's patches as one payload. A range is collected by walking parents backwards from its
last patch; two consecutive ranges compose to the whole one, and replaying it is replaying the parts in order. -/

namespace GitWarp
open Js ExceptLoops

variable {V Bytes : Type}

/-! ### The message of a patch commit -/

structure PatchMessage where
  graph : JsString
  writer : JsString
  lamport : Nat
  patchOid : JsString
  schema : Nat
  encrypted : Bool
  deriving DecidableEq

namespace TrailerCodec

def decodePatchMessage (codec : TrailerCodec) (message : JsString) : Except JsError PatchMessage := do
  let trailers ← codec.decode message
  validateKindDiscriminator trailers "patch"
  let graph ← requireTrailer trailers .graph "patch"
  validateGraphName graph
  let writer ← requireTrailer trailers .writer "patch"
  validateWriterId writer
  let lamport ← parsePositiveIntTrailer trailers .lamport "patch"
  let patchOid ← requireTrailer trailers .patchOid "patch"
  validateOid patchOid "patchOid"
  let schema ← parsePositiveIntTrailer trailers .schema "patch"
  let encrypted := trailers.get TrailerKey.encrypted.key = some (js "true")
  return { graph, writer, lamport, patchOid, schema, encrypted }

/-- A kind that is not known, and a message that does not decode, is `none`. -/
def detectMessageKind (codec : TrailerCodec) (message : JsString) : Option JsString :=
  match codec.decode message with
  | .error _ => none
  | .ok trailers => (trailers.get TrailerKey.kind.key).filter fun kind =>
      [js "patch", js "checkpoint", js "anchor", js "audit"].contains kind

end TrailerCodec

namespace Wormhole

/-! ### Collecting a range -/

inductive WormholeError where
  | wormhole (code message : String)
  | other (error : JsError)
  deriving DecidableEq

structure NodeInfo where
  message : JsString
  parents : List JsString

/-- The commits and blobs of a repository, and what reads them. A commit is made after its parents. -/
structure WormholePorts (V Bytes : Type) where
  nodeExists : JsString → Bool
  getNodeInfo : JsString → Except JsError NodeInfo
  readBlob : JsString → Except JsError (Option Bytes)
  patchBlobStorage : Option (JsString → Except JsError (Option Bytes))
  trailers : TrailerCodec
  decode : Bytes → Except JsError (PatchV2 V)
  depth : JsString → Nat
  depth_parent : ∀ sha info, getNodeInfo sha = .ok info → ∀ parent ∈ info.parents, depth parent < depth sha

/-- A patch with its commit, its writer and the parent that the walk goes on with. -/
structure ProcessedCommit (V : Type) where
  patch : PatchV2 V
  sha : JsString
  writerId : JsString
  parentSha : Option JsString

def fail {α : Type} (code message : String) : Except WormholeError α := .error (.wormhole code message)

/-- What another module throws goes through. -/
def lift {α : Type} (result : Except JsError α) : Except WormholeError α := result.mapError .other

def validateSha (sha : JsString) (paramName : String) : Except WormholeError Unit :=
  if sha = [] then fail "E_WORMHOLE_SHA_NOT_FOUND" s!"{paramName} is required and must be a string" else .ok ()

section Ports

variable (ports : WormholePorts V Bytes)

def verifyShaExists (sha : JsString) : Except WormholeError Unit :=
  if ports.nodeExists sha then .ok ()
  else fail "E_WORMHOLE_SHA_NOT_FOUND" s!"Patch SHA '{toText sha}' does not exist"

def processCommit (sha graphName : JsString) (expectedWriter : Option JsString) :
    Except WormholeError (ProcessedCommit V) := do
  let nodeInfo ← lift (ports.getNodeInfo sha)
  let kind := ports.trailers.detectMessageKind nodeInfo.message
  if kind ≠ some (js "patch") then
    let kindText := (kind.map toText).getD "null"
    fail "E_WORMHOLE_NOT_PATCH" s!"Commit '{toText sha}' is not a patch commit (kind: {kindText})"
  else do
    let patchMeta ← lift (ports.trailers.decodePatchMessage nodeInfo.message)
    if patchMeta.graph ≠ graphName then
      fail "E_WORMHOLE_INVALID_RANGE"
        s!"Patch '{toText sha}' belongs to graph '{toText patchMeta.graph}', not '{toText graphName}'"
    else if expectedWriter.any (· ≠ patchMeta.writer) then
      let expected := expectedWriter.getD []
      fail "E_WORMHOLE_MULTI_WRITER" s!"Patches span multiple writers: '{toText expected}' and '{toText patchMeta.writer}'"
    else do
      let patchBuffer ←
        if patchMeta.encrypted then
          match ports.patchBlobStorage with
          | none => lift (.error ⟨"EncryptionError",
              "This graph contains encrypted patches; provide patchBlobStorage with an encryption key"⟩)
          | some retrieve => lift (retrieve patchMeta.patchOid)
        else lift (ports.readBlob patchMeta.patchOid)
      match patchBuffer with
      | none => lift (.error ⟨"PersistenceError", s!"Patch blob not found: {toText patchMeta.patchOid}"⟩)
      | some patchBuffer => do
          let patch ← lift (ports.decode patchBuffer)
          return ⟨patch, sha, patchMeta.writer, nodeInfo.parents.head?⟩

def notAncestor {α : Type} (fromSha toSha : JsString) : Except WormholeError α :=
  fail "E_WORMHOLE_INVALID_RANGE" s!"'{toText fromSha}' is not an ancestor of '{toText toSha}'"

/-- The turns of the walk, newest patch first. An empty sha ends the loop before the range is complete. -/
def collectFrom (graphName fromSha toSha : JsString) :
    Nat → JsString → Option JsString → Except WormholeError (List (ProcessedCommit V))
  | 0, _, _ => notAncestor fromSha toSha
  | turns + 1, currentSha, writerId => do
      let result ← processCommit ports currentSha graphName writerId
      if currentSha = fromSha then return [result]
      else
        match result.parentSha with
        | none | some [] => notAncestor fromSha toSha
        | some parentSha => do
            let older ← collectFrom graphName fromSha toSha turns parentSha (some result.writerId)
            return result :: older

/-- The walk reaches lower commits only, so it ends by itself. -/
def collectPatchRange (graphName fromSha toSha : JsString) : Except WormholeError (List (ProcessedCommit V)) :=
  collectFrom ports graphName fromSha toSha (ports.depth toSha + 1) toSha none

/-! ### Wormholes -/

structure WormholeEdge (V : Type) where
  fromSha : JsString
  toSha : JsString
  writerId : JsString
  payload : List (PatchEntry V)
  patchCount : Nat
  deriving DecidableEq

def createWormhole (graphName fromSha toSha : JsString) : Except WormholeError (WormholeEdge V) := do
  validateSha fromSha "fromSha"
  validateSha toSha "toSha"
  verifyShaExists ports fromSha
  verifyShaExists ports toSha
  let patches ← collectPatchRange ports graphName fromSha toSha
  let patches := patches.reverse
  let writerId := (patches.head?.map ProcessedCommit.writerId).getD []
  return ⟨fromSha, toSha, writerId, patches.map fun entry => ⟨entry.patch, entry.sha⟩, patches.length⟩

/-- `payload.concat(other)` -/
def concat (payload other : List (PatchEntry V)) : List (PatchEntry V) :=
  if payload = [] then other else if other = [] then payload else payload ++ other

/-- With a repository, the second range starts on top of the end of the first. -/
def verifyConsecutive (persistence : Option (WormholePorts V Bytes)) (first second : WormholeEdge V) :
    Except WormholeError Unit := do
  match persistence with
  | none => return ()
  | some ports => do
      let secondFirstInfo ← lift (ports.getNodeInfo second.fromSha)
      if first.toSha ∉ secondFirstInfo.parents then fail "E_WORMHOLE_INVALID_RANGE" "Wormholes are not consecutive"
      else return ()

def composeWormholes (persistence : Option (WormholePorts V Bytes)) (first second : WormholeEdge V) :
    Except WormholeError (WormholeEdge V) := do
  if first.writerId ≠ second.writerId then
    fail "E_WORMHOLE_MULTI_WRITER"
      s!"Cannot compose wormholes from different writers: '{toText first.writerId}' and '{toText second.writerId}'"
  else do
    verifyConsecutive persistence first second
    return ⟨first.fromSha, second.toSha, first.writerId, concat first.payload second.payload,
      first.patchCount + second.patchCount⟩

def replayWormhole (wormhole : WormholeEdge V) (initialState : WarpStateV5 V) : Except JsError (WarpStateV5 V) :=
  Boundary.ProvenancePayload.replay wormhole.payload initialState

end Ports

/-! ### Linear chains -/

section Chains

variable (ports : WormholePorts V Bytes) (graphName writerId : JsString)

/-- A commit of a patch of the writer, whose blob, or what is stored for it encrypted, reads as the patch. -/
def IsPatchCommit (entry : PatchEntry V) : Prop :=
  entry.sha ≠ [] ∧ ports.nodeExists entry.sha = true ∧ ∃ info patchMeta buffer, ports.getNodeInfo entry.sha = .ok info ∧
    ports.trailers.decodePatchMessage info.message = .ok patchMeta ∧ patchMeta.graph = graphName ∧
    patchMeta.writer = writerId ∧
    (if patchMeta.encrypted then ∃ retrieve, ports.patchBlobStorage = some retrieve ∧
        retrieve patchMeta.patchOid = .ok (some buffer)
      else ports.readBlob patchMeta.patchOid = .ok (some buffer)) ∧
    ports.decode buffer = .ok entry.patch

/-- A commit is made on top of another. -/
def OnTopOf (older newer : PatchEntry V) : Prop :=
  ∃ info, ports.getNodeInfo newer.sha = .ok info ∧ info.parents = [older.sha]

/-- Patches of one writer, oldest first, each made on top of the one before it. -/
structure LinearChain (entries : List (PatchEntry V)) : Prop where
  commits : ∀ entry ∈ entries, IsPatchCommit ports graphName writerId entry
  linked : entries.IsChain (OnTopOf ports)

variable {ports graphName writerId}

theorem detectMessageKind_of_decode {codec : TrailerCodec} {message : JsString} {patchMeta : PatchMessage}
    (h : codec.decodePatchMessage message = .ok patchMeta) : codec.detectMessageKind message = some (js "patch") := by
  unfold TrailerCodec.decodePatchMessage at h
  obtain ⟨trailers, hdecode, h⟩ := bind_ok_iff.mp h
  obtain ⟨⟨⟩, hkind, -⟩ := bind_ok_iff.mp h
  unfold validateKindDiscriminator at hkind
  split at hkind
  · rename_i hpatch
    rw [TrailerCodec.detectMessageKind, hdecode]
    dsimp only
    rw [hpatch]
    decide
  · cases hkind

theorem IsPatchCommit.processCommit_eq {entry : PatchEntry V} (h : IsPatchCommit ports graphName writerId entry)
    {info : NodeInfo} (hinfo : ports.getNodeInfo entry.sha = .ok info) {expectedWriter : Option JsString}
    (hwriter : expectedWriter = none ∨ expectedWriter = some writerId) :
    processCommit ports entry.sha graphName expectedWriter =
      .ok ⟨entry.patch, entry.sha, writerId, info.parents.head?⟩ := by
  obtain ⟨-, -, info', patchMeta, buffer, hinfo', hmessage, rfl, rfl, hbuffer, hpatch⟩ := h
  obtain rfl : info' = info := Except.ok.inj (hinfo'.symm.trans hinfo)
  have hexpected : expectedWriter.any (· ≠ patchMeta.writer) = false := by
    rcases hwriter with rfl | rfl <;> simp
  unfold processCommit
  rw [hinfo]
  simp only [lift, Except.mapError, bind, Except.bind, detectMessageKind_of_decode hmessage, hmessage, hexpected, ne_eq,
    not_true_eq_false, if_false, Bool.false_eq_true]
  split at hbuffer
  · rename_i hencrypted
    obtain ⟨retrieve, hstorage, hretrieve⟩ := hbuffer
    simp only [hencrypted, if_true, hstorage, hretrieve, hpatch]
    rfl
  · rename_i hplain
    simp only [hplain, if_false, Bool.false_eq_true, hbuffer, hpatch]
    rfl

theorem LinearChain.append {first second : List (PatchEntry V)}
    (h : LinearChain ports graphName writerId (first ++ second)) :
    LinearChain ports graphName writerId first ∧ LinearChain ports graphName writerId second := by
  obtain ⟨hfirst, hsecond, -⟩ := List.isChain_append.mp h.linked
  exact ⟨⟨fun entry hentry => h.commits entry (List.mem_append_left _ hentry), hfirst⟩,
    ⟨fun entry hentry => h.commits entry (List.mem_append_right _ hentry), hsecond⟩⟩

theorem LinearChain.depth_lt {entries : List (PatchEntry V)} (h : LinearChain ports graphName writerId entries) :
    entries.Pairwise fun older newer => ports.depth older.sha < ports.depth newer.sha := by
  have hchain : entries.IsChain fun older newer => ports.depth older.sha < ports.depth newer.sha := by
    refine h.linked.imp fun older newer => ?_
    rintro ⟨info, hinfo, hparents⟩
    exact ports.depth_parent newer.sha info hinfo older.sha (hparents ▸ List.mem_cons_self)
  exact hchain.pairwise

/-- The walk from the last patch of a chain to its first collects the chain. -/
theorem collectFrom_eq (toSha : JsString) {oldest : PatchEntry V} {rest : List (PatchEntry V)}
    (h : LinearChain ports graphName writerId (oldest :: rest)) {turns : Nat} {expectedWriter : Option JsString}
    (hwriter : expectedWriter = none ∨ expectedWriter = some writerId) {newest : PatchEntry V}
    (hnewest : (oldest :: rest).getLast? = some newest) (hturns : ports.depth newest.sha < turns) :
    ∃ collected, collectFrom ports graphName oldest.sha toSha turns newest.sha expectedWriter = .ok collected ∧
      collected.reverse.map (fun result => PatchEntry.mk result.patch result.sha) = oldest :: rest ∧
      ∀ result ∈ collected, result.writerId = writerId := by
  induction rest using List.reverseRecOn generalizing turns expectedWriter newest with
  | nil =>
      rw [List.getLast?_singleton, Option.some.injEq] at hnewest
      subst hnewest
      have hcommit := h.commits oldest List.mem_cons_self
      obtain ⟨-, -, info, -, -, hinfo, -⟩ := h.commits oldest List.mem_cons_self
      obtain ⟨turns, rfl⟩ : ∃ n, turns = n + 1 := ⟨turns - 1, by omega⟩
      refine ⟨[⟨oldest.patch, oldest.sha, writerId, info.parents.head?⟩], ?_, rfl, ?_⟩
      · rw [collectFrom, hcommit.processCommit_eq hinfo hwriter]
        simp [bind, Except.bind, pure, Except.pure]
      · intro result hresult
        rw [List.mem_singleton.mp hresult]
  | append_singleton rest last ih =>
      rw [← List.cons_append, List.getLast?_concat, Option.some.injEq] at hnewest
      subst hnewest
      rw [← List.cons_append] at h
      obtain ⟨previous, hprevious⟩ : ∃ previous, (oldest :: rest).getLast? = some previous :=
        Option.isSome_iff_exists.mp (by simp)
      obtain ⟨-, -, hlink⟩ := List.isChain_append.mp h.linked
      obtain ⟨info, hinfo, hparents⟩ := hlink previous hprevious last rfl
      have hcommit := h.commits last (List.mem_append_right _ List.mem_cons_self)
      have hless : ports.depth previous.sha < ports.depth last.sha :=
        ports.depth_parent last.sha info hinfo previous.sha (hparents ▸ List.mem_cons_self)
      have hlower := (List.pairwise_append.mp h.depth_lt).2.2 oldest List.mem_cons_self last List.mem_cons_self
      have hne : last.sha ≠ oldest.sha := by
        intro heq
        rw [heq] at hlower
        exact lt_irrefl _ hlower
      obtain ⟨turns, rfl⟩ : ∃ n, turns = n + 1 := ⟨turns - 1, by omega⟩
      obtain ⟨collected, hcollected, hentries, hwriters⟩ :=
        ih h.append.1 (Or.inr rfl) hprevious (show ports.depth previous.sha < turns by omega)
      have hsha : previous.sha ≠ [] := (h.commits previous (List.mem_append_left _ (List.mem_of_getLast? hprevious))).1
      refine ⟨⟨last.patch, last.sha, writerId, info.parents.head?⟩ :: collected, ?_, ?_, ?_⟩
      · rw [collectFrom, hcommit.processCommit_eq hinfo hwriter]
        simp only [bind, Except.bind, if_neg hne, hparents, List.head?_cons]
        cases hcons : previous.sha with
        | nil => exact absurd hcons hsha
        | cons first others =>
            rw [hcons] at hcollected
            rw [hcollected]
            rfl
      · rw [List.reverse_cons, List.map_append, hentries]
        rfl
      · intro result hresult
        rcases List.mem_cons.mp hresult with rfl | hresult
        · rfl
        · exact hwriters result hresult

/-- The wormhole of a chain. -/
theorem createWormhole_eq {entries : List (PatchEntry V)} (h : LinearChain ports graphName writerId entries)
    {oldest newest : PatchEntry V} (holdest : entries.head? = some oldest) (hnewest : entries.getLast? = some newest) :
    createWormhole ports graphName oldest.sha newest.sha =
      .ok ⟨oldest.sha, newest.sha, writerId, entries, entries.length⟩ := by
  obtain ⟨rest, rfl⟩ : ∃ rest, entries = oldest :: rest := by
    cases entries with
    | nil => cases holdest
    | cons entry rest => exact ⟨rest, congrArg (· :: rest) (Option.some.inj holdest)⟩
  obtain ⟨collected, hcollected, hentries, hwriters⟩ :=
    collectFrom_eq newest.sha h (Or.inl rfl) hnewest (Nat.lt_succ_self (ports.depth newest.sha))
  obtain ⟨hfrom, hfromExists, -⟩ := h.commits oldest List.mem_cons_self
  obtain ⟨hto, htoExists, -⟩ := h.commits newest (List.mem_of_getLast? hnewest)
  have hlength := congrArg List.length hentries
  rw [List.length_map] at hlength
  have hwriter : (collected.reverse.head?.map ProcessedCommit.writerId).getD [] = writerId := by
    cases hreverse : collected.reverse with
    | nil =>
        rw [hreverse] at hentries
        cases hentries
    | cons result others =>
        have hmem : result ∈ collected := List.mem_reverse.mp (hreverse ▸ List.mem_cons_self)
        exact hwriters result hmem
  unfold createWormhole collectPatchRange
  rw [hcollected]
  simp only [validateSha, verifyShaExists, hfrom, hto, hfromExists, htoExists, if_true, if_false, bind, Except.bind, pure,
    Except.pure, hwriter, hentries, hlength]

end Chains

/-- Two consecutive ranges compose to the whole range, with and without the check against the repository, and
replaying the whole is replaying the parts in order. -/
theorem composeWormholes_spec (ports : WormholePorts V Bytes) (graphName writerId : JsString)
    {first second : List (PatchEntry V)} (h : LinearChain ports graphName writerId (first ++ second))
    {a b c d : PatchEntry V} (ha : first.head? = some a) (hb : first.getLast? = some b) (hc : second.head? = some c)
    (hd : second.getLast? = some d) :
    ∃ left right whole, createWormhole ports graphName a.sha b.sha = .ok left ∧
      createWormhole ports graphName c.sha d.sha = .ok right ∧
      createWormhole ports graphName a.sha d.sha = .ok whole ∧
      (∀ persistence, persistence = none ∨ persistence = some ports →
        composeWormholes persistence left right = .ok whole) ∧
      whole.fromSha = a.sha ∧ whole.toSha = d.sha ∧ whole.payload = first ++ second ∧
      ∀ s, replayWormhole whole s = (replayWormhole left s).bind (replayWormhole right) ∧
        replayWormhole whole s = reduceV5From s (first ++ second) := by
  obtain ⟨hfirst, hsecond⟩ := h.append
  obtain ⟨-, -, hlink⟩ := List.isChain_append.mp h.linked
  obtain ⟨info, hinfo, hparents⟩ := hlink b hb c hc
  have hne : first ≠ [] := by
    rintro rfl
    cases ha
  have hne' : second ≠ [] := by
    rintro rfl
    cases hc
  have hoverall : (first ++ second).head? = some a := by rw [List.head?_append_of_ne_nil _ hne, ha]
  have hend : (first ++ second).getLast? = some d := by rw [List.getLast?_append_of_ne_nil _ hne', hd]
  refine ⟨_, _, _, createWormhole_eq hfirst ha hb, createWormhole_eq hsecond hc hd, createWormhole_eq h hoverall hend, ?_,
    rfl, rfl, rfl, fun s => ⟨?_, ?_⟩⟩
  · have hconcat : concat first second = first ++ second := by rw [concat, if_neg hne, if_neg hne']
    rintro persistence (rfl | rfl)
    · simp only [composeWormholes, verifyConsecutive, ne_eq, not_true_eq_false, if_false, bind, Except.bind, pure, Except.pure,
        hconcat, List.length_append]
    · simp only [composeWormholes, verifyConsecutive, hinfo, hparents, lift, Except.mapError, List.mem_singleton, ne_eq,
        not_true_eq_false, if_false, bind, Except.bind, pure, Except.pure, hconcat, List.length_append]
  · have hright : ∀ middle, replayWormhole ⟨c.sha, d.sha, writerId, second, second.length⟩ middle =
        reduceV5From middle second := fun middle => Boundary.ProvenancePayload.replay_eq second middle
    simp only [Boundary.ProvenancePayload.replay_eq, replayWormhole, funext hright]
    exact List.foldlM_append
  · rw [replayWormhole, Boundary.ProvenancePayload.replay_eq]

/-! ### Two commits -/

namespace Example

/-- The name of a patch blob. -/
def oid (digit : CodeUnit) : JsString := List.replicate 40 digit

/-- A patch that adds a node. -/
def patchOf (counter : Nat) : PatchV2 Nat :=
  ⟨2, js "alice", counter, .record [], [.nodeAdd (js "x") ⟨js "alice", counter⟩]⟩

/-- The message of a commit is the name of its blob; `q` is made on top of `p`. -/
def ports : WormholePorts Nat JsString where
  nodeExists sha := sha = js "p" || sha = js "q"
  getNodeInfo sha :=
    if sha = js "p" then .ok ⟨oid 97, []⟩
    else if sha = js "q" then .ok ⟨oid 98, [js "p"]⟩
    else thrown "no such commit"
  readBlob blob := .ok (some blob)
  patchBlobStorage := none
  trailers := {
    encode := fun _ _ => thrown "not encoded"
    decode := fun message => .ok (.ofEntries [(TrailerKey.kind.key, js "patch"), (TrailerKey.graph.key, js "g"),
      (TrailerKey.writer.key, js "alice"), (TrailerKey.lamport.key, js "1"), (TrailerKey.patchOid.key, message),
      (TrailerKey.schema.key, js "2")]) }
  decode blob := .ok (patchOf (if blob = oid 97 then 1 else 2))
  depth sha := if sha = js "q" then 1 else 0
  depth_parent sha info hinfo parent hparent := by
    split at hinfo
    · cases hinfo
      cases hparent
    · split at hinfo
      · rename_i hq
        cases hinfo
        rw [List.mem_singleton.mp hparent, hq]
        decide
      · cases hinfo

theorem isPatchCommit {sha : JsString} {digit : CodeUnit} {counter : Nat} {parents : List JsString}
    (hsha : sha ≠ [] ∧ ports.nodeExists sha = true) (hinfo : ports.getNodeInfo sha = .ok ⟨oid digit, parents⟩)
    (hmessage : (ports.trailers.decodePatchMessage (oid digit)).toOption =
      some ⟨js "g", js "alice", 1, oid digit, 2, false⟩)
    (hpatch : (if oid digit = oid 97 then 1 else 2) = counter) :
    IsPatchCommit ports (js "g") (js "alice") ⟨patchOf counter, sha⟩ := by
  refine ⟨hsha.1, hsha.2, _, ⟨js "g", js "alice", 1, oid digit, 2, false⟩, oid digit, hinfo, ?_, rfl, rfl, rfl, ?_⟩
  · exact toOption_eq_some hmessage
  · exact congrArg (fun counter => Except.ok (patchOf counter)) hpatch

end Example

theorem composeWormholes_two : ∃ left right whole,
    createWormhole Example.ports (js "g") (js "p") (js "p") = .ok left ∧
    createWormhole Example.ports (js "g") (js "q") (js "q") = .ok right ∧
    composeWormholes (some Example.ports) left right = .ok whole ∧ whole.payload.length = 2 := by
  have hchain : LinearChain Example.ports (js "g") (js "alice")
      ([⟨Example.patchOf 1, js "p"⟩] ++ [⟨Example.patchOf 2, js "q"⟩]) := by
    have hp : Example.ports.getNodeInfo (js "p") = .ok ⟨Example.oid 97, []⟩ := rfl
    have hq : Example.ports.getNodeInfo (js "q") = .ok ⟨Example.oid 98, [js "p"]⟩ := rfl
    refine ⟨fun entry hentry => ?_, .cons_cons ⟨_, hq, rfl⟩ (.singleton _)⟩
    rcases List.mem_pair.mp hentry with rfl | rfl
    · exact Example.isPatchCommit (by decide +kernel) hp (by decide +kernel) (by decide +kernel)
    · exact Example.isPatchCommit (by decide +kernel) hq (by decide +kernel) (by decide +kernel)
  obtain ⟨left, right, whole, hleft, hright, -, hcomposed, -, -, hpayload, -⟩ :=
    composeWormholes_spec Example.ports (js "g") (js "alice") hchain rfl rfl rfl rfl
  exact ⟨left, right, whole, hleft, hright, hcomposed _ (Or.inr rfl), by rw [hpayload]; rfl⟩

end Wormhole

end GitWarp
