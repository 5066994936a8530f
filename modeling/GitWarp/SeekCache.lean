import GitWarp.GraphStore
import GitWarp.LibraryJsObject

/-! The cache of states at a ceiling. Its entries are assets of a content store, and one blob under a ref is the index
of them. Calls run beside each other: between any two of the steps at which a call awaits the storage, the others may
take steps. -/

namespace GitWarp
open Js

/-! ### Keys -/

/-- `buildSeekCacheKey` -/
def buildSeekCacheKey (hash : JsString → JsString) (ceiling : Int) (frontier : Frontier) : JsString :=
  let sorted := frontier.entries.insertionSort fun a b => a.1 ≤ b.1
  let payload := [10].intercalate (sorted.map fun entry => entry.1 ++ 58 :: entry.2)
  js "v1:t" ++ decimalInt ceiling ++ 45 :: hash payload

/-- `_parseKey`: the ceiling, `none` for `NaN`, and the hash. Without a dash `slice` is given -1 as the end of the one
and 0 as the start of the other. -/
def parseSeekKey (key : JsString) : Option Int × JsString :=
  let rest := if key.contains 58 then key.drop (key.idxOf 58 + 1) else key
  if rest.contains 45 then
    (parseInt ((rest.take (rest.idxOf 45)).drop 1), rest.drop (rest.idxOf 45 + 1))
  else (parseInt (rest.dropLast.drop 1), rest)

/-! ### The index -/

structure SeekIndexEntry where
  treeOid : JsString
  createdAt : JsString
  ceiling : Option Int
  frontierHash : JsString
  sizeBytes : Nat
  codec : JsString
  schemaVersion : Nat
  lastAccessedAt : Option JsString
  indexTreeOid : Option JsString
  deriving DecidableEq

/-- `lastAccessedAt || createdAt || ''` -/
def SeekIndexEntry.time (entry : SeekIndexEntry) : JsString :=
  match entry.lastAccessedAt with
  | some at' => if at' = [] then entry.createdAt else at'
  | none => entry.createdAt

structure SeekCacheIndex where
  schemaVersion : Nat
  entries : PlainObject SeekIndexEntry
  deriving DecidableEq

namespace SeekCacheIndex

def indexSchemaVersion : Nat := 1

def empty : SeekCacheIndex := ⟨indexSchemaVersion, PlainObject.empty⟩

/-- `_enforceMaxEntries`: of the keys in the order of their times the first ones go. -/
def enforceMaxEntries (maxEntries : Nat) (index : SeekCacheIndex) : SeekCacheIndex :=
  let keys := index.entries.props.keys
  if keys.length ≤ maxEntries then index
  else
    let timeOf := fun key => (index.entries.props.get key).elim [] SeekIndexEntry.time
    let sorted := keys.insertionSort fun a b => timeOf a ≤ timeOf b
    let toEvict := sorted.take (keys.length - maxEntries)
    { index with entries := toEvict.foldl PlainObject.delete index.entries }

end SeekCacheIndex

/-- What a call does to the index that it has read. -/
inductive IndexChange where
  | touch (key : JsString)
  | remove (key : JsString)
  | put (key treeOid : JsString) (sizeBytes : Nat) (indexTreeOid : Option JsString)
  deriving DecidableEq

def IndexChange.key : IndexChange → JsString
  | .touch key | .remove key | .put key _ _ _ => key

/-- The callback of `_mutateIndex`; `now` is the time at which it runs. -/
def IndexChange.apply (maxEntries : Nat) (now : JsString) (index : SeekCacheIndex) : IndexChange → SeekCacheIndex
  | .touch key =>
      match index.entries.props.get key with
      | some entry => { index with entries := index.entries.assign key { entry with lastAccessedAt := some now } }
      | none => index
  | .remove key => { index with entries := index.entries.delete key }
  | .put key treeOid sizeBytes indexTreeOid =>
      let parsed := parseSeekKey key
      let entry : SeekIndexEntry :=
        { treeOid, createdAt := now, ceiling := parsed.1, frontierHash := parsed.2, sizeBytes, codec := js "cbor-v1"
          schemaVersion := SeekCacheIndex.indexSchemaVersion, lastAccessedAt := none
          indexTreeOid := indexTreeOid.filter (· ≠ []) }
      { index with entries := index.entries.assign key entry }.enforceMaxEntries maxEntries

/-! ### Calls -/

inductive SeekCall (Buffer : Type) where
  | get (key : JsString)
  | set (key : JsString) (buffer : Buffer) (indexTreeOid : Option JsString)
  | delete (key : JsString)
  | clear

/-- What a call returns. -/
inductive SeekResult (Buffer : Type) where
  | null
  | found (buffer : Buffer) (indexTreeOid : Option JsString)
  | existed (existed : Bool)
  | done
  deriving DecidableEq

/-- What a call returns once its change is written; a `get` that was about to return a buffer gives it up for `null`
when the change cannot be written. -/
inductive AfterChange (Buffer : Type) where
  | found (buffer : Buffer) (indexTreeOid : Option JsString)
  | missed
  | stored
  | deleted
  deriving DecidableEq

/-- Where a call is. Between the read and the write of an index it holds the changed one, and whether the key was in
the one that it read. -/
inductive SeekPhase (Buffer : Type) where
  | started
  /-- `get` has read an entry; a name that every object inherits reads as one that restores to nothing. -/
  | restoring (entry : Option SeekIndexEntry)
  | changing (change : IndexChange) (attempt : Nat) (held : Option (SeekCacheIndex × Bool)) (next : AfterChange Buffer)
  | returned (result : SeekResult Buffer)
  | threw
  deriving DecidableEq

inductive ReadOutcome where
  | reads
  /-- The blob cannot be read or parsed. -/
  | unreadable
  | throws
  deriving DecidableEq

/-- A step at which the storage answers a call. -/
inductive SeekAct where
  | readIndex (outcome : ReadOutcome) (now : JsString)
  | restore (available : Bool)
  /-- `cas.store` and `cas.createTree`; no nonce where one of them throws. -/
  | store (nonce : Option Nat)
  | writeIndex (fails : Bool)
  | deleteRef (fails : Bool)
  deriving DecidableEq

/-- The adapter, with the content store that it is given. -/
structure CasSeekCacheAdapter (Buffer : Type) where
  maxEntries : Nat
  createTree : JsString → Buffer → Nat → JsString
  restore : JsString → Option Buffer
  byteLength : Buffer → Nat

namespace CasSeekCacheAdapter

variable {Buffer : Type}

/-- An asset restores to what was stored, while it is there. -/
def Restores (adapter : CasSeekCacheAdapter Buffer) : Prop :=
  ∀ slug buffer nonce, adapter.restore (adapter.createTree slug buffer nonce) = some buffer

def maxCasRetries : Nat := 3

/-- `_readIndex` -/
def readIndex (ref : Option SeekCacheIndex) (outcome : ReadOutcome) : SeekCacheIndex :=
  match ref with
  | none => .empty
  | some index =>
      if outcome = .unreadable then .empty
      else if index.schemaVersion ≠ SeekCacheIndex.indexSchemaVersion then .empty
      else index

def begin : SeekCall Buffer → SeekPhase Buffer
  | .delete key => .changing (.remove key) 0 none .deleted
  | _ => .started

/-- The `catch` of `get`. -/
def heal (key : JsString) : SeekPhase Buffer := .changing (.remove key) 0 none .missed

/-- `_mutateIndex` has thrown. -/
def giveUp (key : JsString) : AfterChange Buffer → SeekPhase Buffer
  | .found _ _ => heal key
  | _ => .threw

def finish (existed : Bool) : AfterChange Buffer → SeekResult Buffer
  | .found buffer indexTreeOid => .found buffer indexTreeOid
  | .missed => .null
  | .stored => .done
  | .deleted => .existed existed

/-- One step of a call: the ref after it, and where the call is then. An answer that the call does not wait for
changes nothing. -/
def advance (adapter : CasSeekCacheAdapter Buffer) (ref : Option SeekCacheIndex) (call : SeekCall Buffer) :
    SeekPhase Buffer → SeekAct → Option SeekCacheIndex × SeekPhase Buffer
  | .started, .readIndex outcome _ =>
      match call with
      | .get key =>
          if outcome = .throws then (ref, .threw)
          else
            match (readIndex ref outcome).entries.read key with
            | .own entry => (ref, .restoring (some entry))
            | .inherited _ => (ref, .restoring none)
            | .undefined => (ref, .returned .null)
      | _ => (ref, .started)
  | .started, .store nonce =>
      match call, nonce with
      | .set key buffer indexTreeOid, some nonce =>
          (ref, .changing (.put key (adapter.createTree key buffer nonce) (adapter.byteLength buffer) indexTreeOid) 0 none
            .stored)
      | .set _ _ _, none => (ref, .threw)
      | _, _ => (ref, .started)
  | .started, .deleteRef fails =>
      match call with
      | .clear => (if fails then ref else none, .returned .done)
      | _ => (ref, .started)
  | .restoring entry, .restore available =>
      match call with
      | .get key =>
          match entry.filter fun _ => available with
          | some entry =>
              match adapter.restore entry.treeOid with
              | some buffer => (ref, .changing (.touch key) 0 none (.found buffer entry.indexTreeOid))
              | none => (ref, heal key)
          | none => (ref, heal key)
      | _ => (ref, .restoring entry)
  | .changing change attempt none next, .readIndex outcome now =>
      if outcome = .throws then (ref, giveUp change.key next)
      else
        let index := readIndex ref outcome
        let existed := index.entries.read change.key ≠ .undefined
        (ref, .changing change attempt (some (change.apply adapter.maxEntries now index, existed)) next)
  | .changing change attempt (some (index, existed)) next, .writeIndex fails =>
      if fails then
        if attempt = maxCasRetries - 1 then (ref, giveUp change.key next)
        else (ref, .changing change (attempt + 1) none next)
      else (some index, .returned (finish existed next))
  | phase, _ => (ref, phase)

end CasSeekCacheAdapter

/-- The ref of the index, and the calls so far. -/
structure SeekWorld (Buffer : Type) where
  ref : Option SeekCacheIndex
  calls : List (SeekCall Buffer × SeekPhase Buffer)

inductive SeekEvent (Buffer : Type) where
  | call (call : SeekCall Buffer)
  | act (i : Nat) (act : SeekAct)

namespace SeekWorld

variable {Buffer : Type}

def empty : SeekWorld Buffer := ⟨none, []⟩

def step (adapter : CasSeekCacheAdapter Buffer) (world : SeekWorld Buffer) : SeekEvent Buffer → SeekWorld Buffer
  | .call call => { world with calls := world.calls ++ [(call, CasSeekCacheAdapter.begin call)] }
  | .act i act =>
      match world.calls[i]? with
      | none => world
      | some (call, phase) =>
          let next := adapter.advance world.ref call phase act
          ⟨next.1, world.calls.set i (call, next.2)⟩

def run (adapter : CasSeekCacheAdapter Buffer) (events : List (SeekEvent Buffer)) (world : SeekWorld Buffer) :
    SeekWorld Buffer :=
  events.foldl (step adapter) world

end SeekWorld

end GitWarp
