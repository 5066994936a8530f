import GitWarp.CheckpointIncremental
import GitWarp.GcPolicy
import GitWarp.GraphStore
import GitWarp.LibraryRuns

/-! Cached states and the patches they stand for. A state represents a frontier if it shows what the replay
of the patches below the frontier shows, although compactions may have dropped removed dots from it. It goes
on representing when the frontier moves and the patches in between are applied to it, unless one of them
adds again what a compaction has dropped. -/

namespace GitWarp
open Js ExceptLoops

variable {V Buffer : Type}

/-- Equality of what can be seen of two states: alive nodes and edges, registers and births. -/
structure SameProjection (a b : WarpStateV5 V) : Prop where
  nodes : ∀ node, orsetContains a.nodeAlive node = orsetContains b.nodeAlive node
  edges : ∀ edge, orsetContains a.edgeAlive edge = orsetContains b.edgeAlive edge
  prop : ∀ key, a.prop.get key = b.prop.get key
  births : ∀ key, a.edgeBirthEvent.get key = b.edgeBirthEvent.get key

/-! ### States that have forgotten removed dots -/

/-- The state is `full` without adds under the removed dots `forgotten`, of the nodes and of the edges. -/
structure WarpStateV5.Reflects (forgotten : Bool → Set JsString) (state full : WarpStateV5 V) : Prop where
  parts : ∀ edges, AddWins.ForgetsDots (forgotten edges) (state.part edges).view (full.part edges).view
  prop : ∀ key, state.prop.get key = full.prop.get key
  births : ∀ key, state.edgeBirthEvent.get key = full.edgeBirthEvent.get key

namespace WarpStateV5

theorem reflects_refl (state : WarpStateV5 V) : state.Reflects (fun _ => ∅) state where
  parts _ := AddWins.forgetsDots_refl _
  prop _ := rfl
  births _ := rfl

variable {forgotten : Bool → Set JsString} {state full : WarpStateV5 V}

theorem Reflects.sameProjection (h : state.Reflects forgotten full) : SameProjection state full where
  nodes _ := orsetContains_eq_of_view ((h.parts false).alive_iff _)
  edges _ := orsetContains_eq_of_view ((h.parts true).alive_iff _)
  prop := h.prop
  births := h.births

theorem Reflects.of_view {full' : WarpStateV5 V} (h : state.Reflects forgotten full)
    (hview : full'.view = full.view) (hprop : ∀ key, full'.prop.get key = full.prop.get key) :
    state.Reflects forgotten full' where
  parts edges := by
    rw [view_part full', hview, ← view_part]
    exact h.parts edges
  prop key := (h.prop key).trans (hprop key).symm
  births key := by
    rw [h.births]
    exact JsMap.get_eq_of_level_eq (congrFun (congrArg StateView.births hview.symm) key)

/-- Births are joined like levels. -/
theorem births_of_view_sup {a b a' b' : WarpStateV5 V} {effect : StateView}
    (ha : a'.view = a.view ⊔ effect) (hb : b'.view = b.view ⊔ effect)
    (h : ∀ key, a.edgeBirthEvent.get key = b.edgeBirthEvent.get key) (key : JsString) :
    a'.edgeBirthEvent.get key = b'.edgeBirthEvent.get key := by
  have hlevel : ∀ s : WarpStateV5 V, s.view.births = s.edgeBirthEvent.level := fun _ => rfl
  have hsame : a.view.births key = b.view.births key := by
    rw [hlevel, hlevel]
    unfold JsMap.level
    rw [h]
  apply JsMap.get_eq_of_level_eq
  calc a'.edgeBirthEvent.level key = a.view.births key ⊔ effect.births key := by rw [← hlevel, ha]; rfl
    _ = b.view.births key ⊔ effect.births key := by rw [hsame]
    _ = b'.edgeBirthEvent.level key := by rw [← hlevel, hb]; rfl

theorem Reflects.applyReads (h : state.Reflects forgotten full) (reads : List (ReadPatch V))
    (hfresh : ∀ edges, ∀ d ∈ ((joinAll ReadPatch.effect reads).part edges).dots, d ∉ forgotten edges) :
    (reads.foldl applyRead state).Reflects forgotten (reads.foldl applyRead full) where
  parts edges := by
    rw [view_part, view_part, view_foldl_applyRead, view_foldl_applyRead, StateView.part_sup,
      StateView.part_sup, ← view_part, ← view_part]
    exact (h.parts edges).sup _ (hfresh edges)
  prop := prop_foldl_applyRead_congr reads h.prop
  births := births_of_view_sup (view_foldl_applyRead reads state) (view_foldl_applyRead reads full) h.births

theorem Reflects.joinStates (h : state.Reflects forgotten full) (other : WarpStateV5 V)
    (hfresh : ∀ edges, ∀ d ∈ (other.part edges).view.dots, d ∉ forgotten edges) :
    (joinStates state other).Reflects forgotten (joinStates full other) where
  parts edges := by
    rw [view_part, view_part, view_joinStates, view_joinStates, StateView.part_sup, StateView.part_sup,
      ← view_part, ← view_part, ← view_part]
    exact (h.parts edges).sup _ (hfresh edges)
  prop key := by
    show (mergeProps _ _).get key = (mergeProps _ _).get key
    rw [get_mergeProps, get_mergeProps, h.prop]
  births := births_of_view_sup (view_joinStates state other) (view_joinStates full other) h.births

/-- Dropping more removed dots. -/
theorem Reflects.drop {compacted : WarpStateV5 V} {dropped : Bool → Set JsString}
    (h : state.Reflects forgotten full)
    (hdropped : ∀ edges, dropped edges ⊆ (state.part edges).view.tombs)
    (hparts : ∀ edges, (compacted.part edges).view = (state.part edges).view.drop (dropped edges))
    (hprop : ∀ key, compacted.prop.get key = state.prop.get key)
    (hbirths : ∀ key, compacted.edgeBirthEvent.get key = state.edgeBirthEvent.get key) :
    compacted.Reflects (fun edges => forgotten edges ∪ dropped edges) full where
  parts edges := by
    rw [hparts]
    exact (AddWins.forgetsDots_drop (hdropped edges)).trans (h.parts edges)
  prop key := (hprop key).trans (h.prop key)
  births key := (hbirths key).trans (h.births key)

end WarpStateV5

/-! ### The patches below a frontier -/

namespace ObjectStore

/-- The patches up to a tip, if there is one. -/
def chainAt (store : ObjectStore V) (tip : Option Sha) : List (PatchEntry V) :=
  match tip with
  | some sha => store.walk none sha
  | none => []

/-- The patches reachable from the tips of a frontier. -/
def patchesAt (store : ObjectStore V) (frontier : Frontier) : List (PatchEntry V) :=
  frontier.entries.flatMap fun entry => store.walk none entry.2

theorem mem_patchesAt {store : ObjectStore V} {frontier : Frontier} {entry : PatchEntry V} :
    entry ∈ store.patchesAt frontier ↔ ∃ writerId, entry ∈ store.chainAt (frontier.get writerId) := by
  unfold patchesAt
  rw [List.mem_flatMap]
  constructor
  · rintro ⟨⟨writerId, tip⟩, hmem, hentry⟩
    refine ⟨writerId, ?_⟩
    rw [(JsMap.get_eq_some_iff frontier writerId tip).mpr hmem]
    exact hentry
  · rintro ⟨writerId, hentry⟩
    cases htip : frontier.get writerId with
    | none => rw [htip] at hentry; cases hentry
    | some tip =>
        rw [htip] at hentry
        exact ⟨(writerId, tip), (JsMap.get_eq_some_iff frontier writerId tip).mp htip, hentry⟩

/-- The tips of the frontier are objects of the store. -/
def Holds (store : ObjectStore V) (frontier : Frontier) : Prop :=
  ∀ writerId tip, frontier.get writerId = some tip → tip ∈ store.shas

theorem Holds.of_extends {store store' : ObjectStore V} {frontier : Frontier} (h : store.Holds frontier)
    (hstore : store'.Extends store) : store'.Holds frontier :=
  fun writerId tip htip => hstore.mem_shas (h writerId tip htip)

theorem Extends.patchesAt {store store' : ObjectStore V} (h : store'.Extends store) {frontier : Frontier}
    (hholds : store.Holds frontier) : store'.patchesAt frontier = store.patchesAt frontier := by
  unfold ObjectStore.patchesAt
  refine List.flatMap_congr fun entry hentry => ?_
  exact h.walk none (hholds entry.1 entry.2 ((JsMap.get_eq_some_iff frontier entry.1 entry.2).mpr hentry))

/-- Patches below a frontier are told by their shas. -/
theorem consistent_patchesAt {store : ObjectStore V} {frontier : Frontier} (h : store.Holds frontier) :
    ConsistentShas (store.patchesAt frontier) := by
  have hstored : ∀ entry ∈ store.patchesAt frontier,
      ∃ parents, store.get entry.sha = some ⟨parents, .patch entry.patch⟩ := by
    intro entry hentry
    obtain ⟨⟨writerId, tip⟩, hmem, hwalk⟩ := List.mem_flatMap.mp hentry
    exact get_of_mem_walk (h writerId tip ((JsMap.get_eq_some_iff frontier writerId tip).mpr hmem)) hwalk
  intro entry hentry other hother hsha
  obtain ⟨parents, hget⟩ := hstored entry hentry
  obtain ⟨parents', hget'⟩ := hstored other hother
  rw [hsha, hget'] at hget
  injection hget with hcommits
  injection hcommits with _ hcontents
  injection hcontents with hpatches
  exact hpatches.symm

/-- A walk that stops early yields part of the chain, and what is missing lies below the stop. -/
theorem mem_walk_split {store : ObjectStore V} {stopAtSha : Option Sha} {tip : Sha} (htip : tip ∈ store.shas)
    {entry : PatchEntry V} :
    (entry ∈ store.walk stopAtSha tip → entry ∈ store.walk none tip) ∧
      (entry ∈ store.walk none tip → entry ∈ store.chainAt stopAtSha ∨ entry ∈ store.walk stopAtSha tip) := by
  refine parents_induction (P := fun tip =>
    (entry ∈ store.walk stopAtSha tip → entry ∈ store.walk none tip) ∧
      (entry ∈ store.walk none tip → entry ∈ store.chainAt stopAtSha ∨ entry ∈ store.walk stopAtSha tip))
    (fun sha commit hget ih => ?_) tip htip
  have hwalk := walk_eq hget stopAtSha
  have hfull := walk_eq hget none
  rw [if_neg (Option.some_ne_none sha)] at hfull
  by_cases hstop : some sha = stopAtSha
  · rw [if_pos hstop] at hwalk
    rw [hwalk, ← hstop]
    exact ⟨fun hmem => (nomatch hmem), Or.inl⟩
  · rw [if_neg hstop] at hwalk
    rw [hwalk, hfull]
    obtain ⟨parents, content⟩ := commit
    cases content with
    | patch patch =>
        cases parents with
        | nil => exact ⟨id, Or.inr⟩
        | cons parent rest =>
            obtain ⟨hsub, hsplit⟩ := ih parent (List.mem_cons_self ..)
            simp only [List.head?_cons, List.mem_append]
            refine ⟨Or.imp_left hsub, ?_⟩
            rintro (hbelow | hlast)
            · exact (hsplit hbelow).imp_right Or.inl
            · exact Or.inr (Or.inr hlast)
    | _ => exact ⟨id, Or.inr⟩

theorem mem_walk_of_stop {store : ObjectStore V} {stopAtSha : Option Sha} {tip : Sha}
    (htip : tip ∈ store.shas) {entry : PatchEntry V} (hentry : entry ∈ store.walk stopAtSha tip) :
    entry ∈ store.walk none tip :=
  (mem_walk_split htip).1 hentry

theorem mem_chain_or_walk {store : ObjectStore V} (stopAtSha : Option Sha) {tip : Sha}
    (htip : tip ∈ store.shas) {entry : PatchEntry V} (hentry : entry ∈ store.walk none tip) :
    entry ∈ store.chainAt stopAtSha ∨ entry ∈ store.walk stopAtSha tip :=
  (mem_walk_split htip).2 hentry

end ObjectStore

/-! ### Representing a frontier -/

/-- A patch below the frontier has removed the dot. -/
def ObjectStore.Removed (store : ObjectStore V) (frontier : Frontier) (edges : Bool) (encoded : JsString) :
    Prop :=
  ∃ below ∈ store.patchesAt frontier, ∃ removal ∈ below.patch.ops, encoded ∈ removal.removedDots edges

instance (store : ObjectStore V) (frontier : Frontier) (edges : Bool) (encoded : JsString) :
    Decidable (store.Removed frontier edges encoded) :=
  inferInstanceAs (Decidable (∃ below ∈ store.patchesAt frontier, ∃ removal ∈ below.patch.ops, _))

/-- No patch adds an element again that a compaction may have dropped: under a dot that a patch below the
frontier removed and under which the state does not have the element any more. -/
def AddsNothingForgotten (store : ObjectStore V) (frontier : Frontier) (state : WarpStateV5 V)
    (patches : List (PatchEntry V)) : Prop :=
  ∀ entry ∈ patches, ∀ op ∈ entry.patch.ops, ∀ edges, ∀ pair ∈ op.addPair edges,
    store.Removed frontier edges pair.2 → pair.2 ∈ (state.part edges).dotsOf pair.1

instance (store : ObjectStore V) (frontier : Frontier) (state : WarpStateV5 V)
    (patches : List (PatchEntry V)) : Decidable (AddsNothingForgotten store frontier state patches) :=
  inferInstanceAs (Decidable (∀ entry ∈ patches, ∀ op ∈ entry.patch.ops, ∀ edges, ∀ pair ∈ op.addPair edges,
    store.Removed frontier edges pair.2 → pair.2 ∈ (state.part edges).dotsOf pair.1))

/-- The state shows what the patches below the frontier replay to. -/
structure Represents (store : ObjectStore V) (frontier : Frontier) (state : WarpStateV5 V) : Prop where
  holds : store.Holds frontier
  replay : ∃ full forgotten, reduceV5 (store.patchesAt frontier) = .ok full ∧ state.Reflects forgotten full

namespace Represents

variable {store : ObjectStore V} {frontier : Frontier} {state : WarpStateV5 V}

theorem sameProjection (h : Represents store frontier state) :
    ∃ full, reduceV5 (store.patchesAt frontier) = .ok full ∧ SameProjection state full := by
  obtain ⟨full, forgotten, hfull, hreflects⟩ := h.replay
  exact ⟨full, hfull, hreflects.sameProjection⟩

theorem of_extends {store' : ObjectStore V} (h : Represents store frontier state)
    (hstore : store'.Extends store) : Represents store' frontier state where
  holds := h.holds.of_extends hstore
  replay := by
    rw [hstore.patchesAt h.holds]
    exact h.replay

/-- Lists of the same patches are as good as each other. -/
theorem of_same_members {frontier' : Frontier} {patches : List (PatchEntry V)} {full : WarpStateV5 V}
    {forgotten : Bool → Set JsString} (hfull : reduceV5 patches = .ok full)
    (hreflects : state.Reflects forgotten full) (hholds : store.Holds frontier')
    (hmem : ∀ entry, entry ∈ store.patchesAt frontier' ↔ entry ∈ patches) :
    Represents store frontier' state where
  holds := hholds
  replay := by
    have hconsistent : ConsistentShas patches := by
      intro entry hentry other hother
      exact ObjectStore.consistent_patchesAt hholds entry ((hmem entry).mpr hentry) other
        ((hmem other).mpr hother)
    have houtcome := sameOutcome_of_same_members hconsistent fun entry => (hmem entry).symm
    rw [hfull] at houtcome
    cases hfull' : reduceV5 (store.patchesAt frontier') with
    | error err => rw [hfull'] at houtcome; exact houtcome.elim
    | ok full' =>
        rw [hfull'] at houtcome
        refine ⟨full', forgotten, rfl, hreflects.of_view ?_ fun key => (houtcome.prop key).symm⟩
        obtain ⟨reads, hreads, hview⟩ := view_reduceV5From hfull
        obtain ⟨reads', hreads', hview'⟩ := view_reduceV5From hfull'
        rw [hview, hview']
        congr 1
        refine joinAll_congr _ fun read => ?_
        rw [mem_of_mapM_ok hreads, mem_of_mapM_ok hreads']
        simp only [hmem]

theorem of_frontier {frontier' : Frontier} (h : Represents store frontier state)
    (hfrontier : ∀ writerId, frontier'.get writerId = frontier.get writerId) :
    Represents store frontier' state := by
  obtain ⟨full, forgotten, hfull, hreflects⟩ := h.replay
  refine of_same_members hfull hreflects (fun writerId tip htip => ?_) fun entry => ?_
  · rw [hfrontier] at htip
    exact h.holds writerId tip htip
  · simp only [ObjectStore.mem_patchesAt, hfrontier]

/-- Dots that are added without harm are not forgotten ones. -/
theorem fresh_of_addsNothingForgotten {patches : List (PatchEntry V)} {full : WarpStateV5 V}
    {forgotten : Bool → Set JsString} (hfull : reduceV5 (store.patchesAt frontier) = .ok full)
    (hreflects : state.Reflects forgotten full)
    (hfresh : AddsNothingForgotten store frontier state patches) {reads : List (ReadPatch V)}
    (hreads : patches.mapM readPatch = .ok reads) (edges : Bool) :
    ∀ d ∈ ((joinAll ReadPatch.effect reads).part edges).dots, d ∉ forgotten edges := by
  rintro d ⟨e, hadd⟩ hforgotten
  obtain ⟨read, hread, hpair⟩ := (mem_adds_joinAll _ _ _ _).mp hadd
  obtain ⟨entry, hentry, hok⟩ := (mem_of_mapM_ok hreads read).mp hread
  obtain ⟨op, hop, hop'⟩ := (mem_adds_effect_of_readPatch hok edges (e, d)).mp hpair
  have htomb : d ∈ (full.view.part edges).tombs := by
    rw [← WarpStateV5.view_part]
    exact (hreflects.parts edges).removed hforgotten
  rcases (mem_tombs_reduceV5From hfull edges d).mp htomb with hempty | ⟨below, hbelow, removal, hremoval, hd⟩
  · exact not_mem_tombs_empty edges d hempty
  · have hstill := hfresh entry hentry op hop edges (e, d) hop' ⟨below, hbelow, removal, hremoval, hd⟩
    rw [← ORSet.mem_adds_view] at hstill
    exact (((hreflects.parts edges).adds e d).mp hstill).2 hforgotten

/-- The patches between two frontiers, applied to a state that represents the first one, make it represent
the second one. -/
theorem extend (h : Represents store frontier state) {frontier' : Frontier} {patches : List (PatchEntry V)}
    {reads : List (ReadPatch V)} (hreads : patches.mapM readPatch = .ok reads)
    (hholds : store.Holds frontier')
    (hmem : ∀ entry, entry ∈ store.patchesAt frontier' ↔
      entry ∈ store.patchesAt frontier ∨ entry ∈ patches)
    (hfresh : AddsNothingForgotten store frontier state patches) :
    Represents store frontier' (reads.foldl applyRead state) := by
  obtain ⟨full, forgotten, hfull, hreflects⟩ := h.replay
  have hreflects' := hreflects.applyReads reads
    (fresh_of_addsNothingForgotten hfull hreflects hfresh hreads)
  obtain ⟨readsBelow, hreadsBelow, rfl⟩ := reduceV5_eq_ok_iff.mp hfull
  have hreads' : (store.patchesAt frontier ++ patches).mapM readPatch = .ok (readsBelow ++ reads) := by
    rw [List.mapM_append, hreadsBelow, hreads]
    rfl
  exact of_same_members (reduceV5_eq_ok_iff.mpr ⟨_, hreads', List.foldl_append⟩) hreflects' hholds
    fun entry => (hmem entry).trans List.mem_append.symm

/-- A state that represents a frontier may be joined with a replay of patches below the frontier. -/
theorem join (h : Represents store frontier state) {patches : List (PatchEntry V)} {other : WarpStateV5 V}
    (hother : reduceV5 patches = .ok other) (hmem : ∀ entry ∈ patches, entry ∈ store.patchesAt frontier)
    (hfresh : AddsNothingForgotten store frontier state patches) :
    Represents store frontier (joinStates state other) := by
  obtain ⟨full, forgotten, hfull, hreflects⟩ := h.replay
  obtain ⟨reads, hreads, rfl⟩ := reduceV5_eq_ok_iff.mp hother
  have hreflects' := hreflects.joinStates (reads.foldl applyRead createEmptyStateV5) fun edges => by
    rw [WarpStateV5.view_part, view_foldl_applyRead, view_createEmptyStateV5, bot_sup_eq]
    exact fresh_of_addsNothingForgotten hfull hreflects hfresh hreads edges
  have hall : ∀ entry, entry ∈ store.patchesAt frontier ++ patches ↔ entry ∈ store.patchesAt frontier := by
    intro entry
    rw [List.mem_append]
    exact ⟨fun hentry => hentry.elim id (hmem entry), Or.inl⟩
  have hconsistent : ConsistentShas (store.patchesAt frontier ++ patches) := by
    intro a ha b hb
    exact ObjectStore.consistent_patchesAt h.holds a ((hall a).mp ha) b ((hall b).mp hb)
  obtain ⟨readsBelow, hreadsBelow, rfl⟩ := reduceV5_eq_ok_iff.mp hfull
  have hsame := reduceV5_append_same hconsistent hreadsBelow hreads
  have hreads' : (store.patchesAt frontier ++ patches).mapM readPatch = .ok (readsBelow ++ reads) := by
    rw [List.mapM_append, hreadsBelow, hreads]
    rfl
  refine of_same_members (reduceV5_eq_ok_iff.mpr ⟨_, hreads', rfl⟩)
    (hreflects'.of_view ?_ hsame.prop) h.holds fun entry => (hall entry).symm
  rw [view_joinStates, view_foldl_applyRead, view_foldl_applyRead, view_foldl_applyRead,
    view_createEmptyStateV5, joinAll_append, bot_sup_eq, bot_sup_eq, bot_sup_eq]

end Represents

end GitWarp
