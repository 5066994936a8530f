import GitWarp.LibraryRuns
import GitWarp.ReachableStates
import GitWarp.StateDiff

/-! Subscribers of an instance, and the copy of the graph that one of them keeps from the diffs it gets. The replay is
made from the cached state and the later diffs from the state of the last notification: the copy is exact where both
hold the same at every replay and the comparison of property values is exact. -/

namespace GitWarp
open Js ExceptLoops StateDiff

namespace Subscriptions

/-- A subscriber, and the diffs that its `onChange` was called with. -/
structure Subscriber where
  id : Nat
  replay : Bool
  pendingReplay : Bool
  received : List StateDiffResult
  deriving DecidableEq

/-- The part of an instance that subscriptions read and write. -/
structure Notifier where
  cachedState : Option (WarpStateV5 JsValue)
  lastNotifiedState : Option (WarpStateV5 JsValue)
  subscribers : List Subscriber

inductive Event where
  /-- `_cachedState` is set: by a materialization before it ends, by a commit that applies its patch at once, by a
  merge of what a peer sent, by a collection, or by reading at a ceiling. -/
  | install (state : WarpStateV5 JsValue)
  /-- The end of `materialize()` without a ceiling. -/
  | finish (state : WarpStateV5 JsValue)
  | subscribe (id : Nat) (replay : Bool)
  | unsubscribe (id : Nat)

/-- `onChange(diff)` unless the diff is empty. -/
def Subscriber.deliver (subscriber : Subscriber) (diff : StateDiffResult) : Subscriber :=
  if isEmptyDiff diff then subscriber else { subscriber with received := subscriber.received ++ [diff] }

/-- One round of `_notifySubscribers`. -/
def Subscriber.notify (diff : StateDiffResult) (currentState : WarpStateV5 JsValue) (subscriber : Subscriber) :
    Subscriber :=
  if subscriber.pendingReplay then { subscriber with pendingReplay := false }.deliver (diffStates none currentState)
  else subscriber.deliver diff

namespace Notifier

def empty : Notifier := ⟨none, none, []⟩

def finish (notifier : Notifier) (state : WarpStateV5 JsValue) : Notifier :=
  let stateDelta := diffStates notifier.lastNotifiedState state
  let hasPendingReplay := notifier.subscribers.any Subscriber.pendingReplay
  { notifier with
    subscribers :=
      if !isEmptyDiff stateDelta || hasPendingReplay then notifier.subscribers.map (Subscriber.notify stateDelta state)
      else notifier.subscribers
    lastNotifiedState := some state }

def subscribe (notifier : Notifier) (id : Nat) (replay : Bool) : Notifier :=
  let subscriber : Subscriber := ⟨id, replay, replay && notifier.cachedState.isNone, []⟩
  let subscriber :=
    match replay, notifier.cachedState with
    | true, some state => subscriber.deliver (diffStates none state)
    | _, _ => subscriber
  { notifier with subscribers := notifier.subscribers ++ [subscriber] }

/-- One event; a subscription is a new one. -/
def step (notifier : Notifier) : Event → Option Notifier
  | .install state => some { notifier with cachedState := some state }
  | .finish state => some (notifier.finish state)
  | .subscribe id replay =>
      if notifier.subscribers.any (fun subscriber => subscriber.id = id) then none
      else some (notifier.subscribe id replay)
  | .unsubscribe id =>
      some { notifier with subscribers := notifier.subscribers.filter fun subscriber => subscriber.id ≠ id }

end Notifier

/-! ### Copies -/

/-- The copy that the subscriber has folded from nothing. -/
def Subscriber.copy (subscriber : Subscriber) : Copy := subscriber.received.foldl Copy.fold Copy.empty

/-- Each diff changed what the copy held when it came. -/
def Subscriber.ToldOnce (subscriber : Subscriber) : Prop :=
  ∀ told diff later, subscriber.received = told ++ diff :: later → (told.foldl Copy.fold Copy.empty).Fresh diff

/-- The subscriber's copy shows the state, and no change was told to it twice. -/
structure Mirrors (subscriber : Subscriber) (state : WarpStateV5 JsValue) : Prop where
  shown : subscriber.copy.shown = visibleCopy state
  once : subscriber.ToldOnce

/-! ### What each event keeps -/

theorem copy_deliver (subscriber : Subscriber) (diff : StateDiffResult) :
    (subscriber.deliver diff).copy = subscriber.copy.fold diff := by
  unfold Subscriber.deliver
  split
  · rename_i hempty
    exact (fold_of_empty hempty _).symm
  · exact List.foldl_concat ..

theorem toldOnce_deliver {subscriber : Subscriber} {diff : StateDiffResult} (h : subscriber.ToldOnce)
    (hfresh : subscriber.copy.Fresh diff) : (subscriber.deliver diff).ToldOnce := by
  unfold Subscriber.deliver
  split
  · exact h
  · intro told other later hreceived
    rcases List.eq_nil_or_concat later with rfl | ⟨rest, last, rfl⟩
    · obtain ⟨rfl, heq⟩ := List.append_inj' hreceived rfl
      cases heq
      exact hfresh
    · refine h told other rest ?_
      rw [List.concat_eq_append, ← List.cons_append, ← List.append_assoc] at hreceived
      exact (List.append_inj' hreceived rfl).1

/-- What is known of a subscriber with replay: a pending one has got nothing, and the copy of any other holds what the
last notified state does. -/
structure InStep (last : Option (WarpStateV5 JsValue)) (subscriber : Subscriber) : Prop where
  pending : subscriber.pendingReplay = true → subscriber.copy = Copy.empty
  caughtUp : subscriber.pendingReplay = false → subscriber.copy = contentBefore last
  once : subscriber.ToldOnce

/-- The states are clean, and the subscribers with replay are in step with the last notified one. -/
structure Settled (notifier : Notifier) : Prop where
  cached : ∀ cached, notifier.cachedState = some cached → CleanState cached
  clean : ∀ last, notifier.lastNotifiedState = some last → CleanState last
  inStep : ∀ subscriber ∈ notifier.subscribers, subscriber.replay = true →
    InStep notifier.lastNotifiedState subscriber

/-- Before a subscription with replay the cached state holds what the last notified one does, and where a subscriber
with replay is notified, the values of properties are compared exactly. -/
def Matches (notifier : Notifier) : Event → Prop
  | .install _ | .unsubscribe _ | .subscribe _ false => True
  | .finish state =>
      (∃ subscriber ∈ notifier.subscribers, subscriber.replay = true ∧ subscriber.pendingReplay = false) →
        ComparesExactly notifier.lastNotifiedState state
  | .subscribe _ true => ∀ cached, notifier.cachedState = some cached →
      contentOf cached = contentBefore notifier.lastNotifiedState

/-- The state that an event brings. -/
def Event.state : Event → Option (WarpStateV5 JsValue)
  | .install state => some state
  | .finish state => some state
  | _ => none

theorem inStep_deliver {last : Option (WarpStateV5 JsValue)} {subscriber : Subscriber} {diff : StateDiffResult}
    (hpending : subscriber.pendingReplay = false) (honce : subscriber.ToldOnce)
    (hfresh : subscriber.copy.Fresh diff) (hfold : subscriber.copy.fold diff = contentBefore last) :
    InStep last (subscriber.deliver diff) where
  pending h := by
    have hsame : (subscriber.deliver diff).pendingReplay = subscriber.pendingReplay := by
      unfold Subscriber.deliver
      split <;> rfl
    rw [hsame, hpending] at h
    cases h
  caughtUp _ := (copy_deliver _ _).trans hfold
  once := toldOnce_deliver honce hfresh

/-- A replay gives the content of the state to a subscriber that has nothing. -/
theorem inStep_replay {state : WarpStateV5 JsValue} (hclean : CleanState state) {subscriber : Subscriber}
    {last : Option (WarpStateV5 JsValue)} (hcontent : contentOf state = contentBefore last)
    (hpending : subscriber.pendingReplay = false) (honce : subscriber.ToldOnce) (hcopy : subscriber.copy = Copy.empty) :
    InStep last (subscriber.deliver (diffStates none state)) := by
  have hnone : ∀ before : WarpStateV5 JsValue, none = some before → CleanState before := fun _ h => nomatch h
  refine inStep_deliver hpending honce ?_ ?_
  · rw [hcopy]
    exact fresh_diffStates hnone hclean (comparesExactly_none state)
  · rw [hcopy, ← hcontent]
    exact fold_diffStates hnone hclean (comparesExactly_none state)

theorem pendingReplay_deliver (subscriber : Subscriber) (diff : StateDiffResult) :
    (subscriber.deliver diff).pendingReplay = subscriber.pendingReplay ∧
      (subscriber.deliver diff).replay = subscriber.replay := by
  unfold Subscriber.deliver
  split <;> exact ⟨rfl, rfl⟩

theorem pendingReplay_notify (subscriber : Subscriber) (diff : StateDiffResult) (state : WarpStateV5 JsValue) :
    (subscriber.notify diff state).pendingReplay = false ∧ (subscriber.notify diff state).replay = subscriber.replay := by
  unfold Subscriber.notify
  split
  · exact pendingReplay_deliver _ _
  · rename_i h
    exact ⟨(pendingReplay_deliver _ _).1.trans (Bool.eq_false_of_not_eq_true h), (pendingReplay_deliver _ _).2⟩

/-- After a materialization no replay is pending. -/
theorem pendingReplay_finish {notifier : Notifier} {state : WarpStateV5 JsValue} {subscriber : Subscriber}
    (h : subscriber ∈ (notifier.finish state).subscribers) : subscriber.pendingReplay = false := by
  simp only [Notifier.finish] at h
  split at h
  · obtain ⟨before, -, rfl⟩ := List.mem_map.mp h
    exact (pendingReplay_notify _ _ _).1
  · rename_i hquiet
    simp only [Bool.or_eq_true, List.any_eq_true, not_or, not_exists, not_and] at hquiet
    exact Bool.eq_false_of_not_eq_true (hquiet.2 subscriber h)

theorem settled_finish {notifier : Notifier} {state : WarpStateV5 JsValue} (h : Settled notifier)
    (hclean : CleanState state) (hmatches : Matches notifier (.finish state)) : Settled (notifier.finish state) := by
  have hdelta : ∀ subscriber ∈ notifier.subscribers, subscriber.replay = true → subscriber.pendingReplay = false →
      InStep (some state) (subscriber.deliver (diffStates notifier.lastNotifiedState state)) := by
    intro subscriber hmem hreplay hpending
    have hstep := h.inStep subscriber hmem hreplay
    have hexact := hmatches ⟨subscriber, hmem, hreplay, hpending⟩
    refine inStep_deliver hpending hstep.once ?_ ?_
    · rw [hstep.caughtUp hpending]
      exact fresh_diffStates h.clean hclean hexact
    · rw [hstep.caughtUp hpending]
      exact fold_diffStates h.clean hclean hexact
  refine ⟨h.cached, fun last hlast => Option.some.inj hlast ▸ hclean, fun subscriber hmem hreplay => ?_⟩
  simp only [Notifier.finish] at hmem
  split at hmem
  · obtain ⟨before, hbefore, rfl⟩ := List.mem_map.mp hmem
    rw [(pendingReplay_notify _ _ _).2] at hreplay
    have hstep := h.inStep before hbefore hreplay
    unfold Subscriber.notify
    split
    · rename_i hpending
      exact inStep_replay hclean rfl rfl hstep.once (hstep.pending hpending)
    · rename_i hpending
      exact hdelta before hbefore hreplay (Bool.eq_false_of_not_eq_true hpending)
  · rename_i hquiet
    simp only [Bool.or_eq_true, Bool.not_eq_true', not_or, Bool.not_eq_false, List.any_eq_true, not_exists,
      not_and] at hquiet
    have hstep := hdelta subscriber hmem hreplay (Bool.eq_false_of_not_eq_true (hquiet.2 subscriber hmem))
    unfold Subscriber.deliver at hstep
    rwa [if_pos hquiet.1] at hstep

theorem settled_subscribe {notifier : Notifier} {id : Nat} {replay : Bool} (h : Settled notifier)
    (hmatches : Matches notifier (.subscribe id replay)) : Settled (notifier.subscribe id replay) := by
  refine ⟨h.cached, h.clean, fun subscriber hmem hreplay => ?_⟩
  simp only [Notifier.subscribe] at hmem
  rcases List.mem_append.mp hmem with hold | hnew
  · exact h.inStep subscriber hold hreplay
  · rw [List.mem_singleton] at hnew
    subst hnew
    have honce : ∀ pendingReplay, (⟨id, replay, pendingReplay, []⟩ : Subscriber).ToldOnce := by
      intro pendingReplay told diff later hreceived
      exact absurd hreceived.symm (List.append_ne_nil_of_right_ne_nil _ (List.cons_ne_nil _ _))
    cases replay with
    | false => cases hreplay
    | true =>
        cases hstate : notifier.cachedState with
        | none => exact ⟨fun _ => rfl, nofun, honce true⟩
        | some cached => exact inStep_replay (h.cached cached hstate) (hmatches cached hstate) rfl (honce false) rfl

theorem settled_step {notifier notifier' : Notifier} {event : Event} (h : Settled notifier)
    (hclean : ∀ state, event.state = some state → CleanState state) (hmatches : Matches notifier event)
    (hstep : notifier.step event = some notifier') : Settled notifier' := by
  cases event with
  | install state =>
      cases hstep
      exact ⟨fun cached hcached => Option.some.inj hcached ▸ hclean state rfl, h.clean, h.inStep⟩
  | finish state =>
      cases hstep
      exact settled_finish h (hclean state rfl) hmatches
  | subscribe id replay =>
      simp only [Notifier.step, Option.ite_none_left_eq_some, Option.some.injEq] at hstep
      obtain ⟨-, rfl⟩ := hstep
      exact settled_subscribe h hmatches
  | unsubscribe id =>
      cases hstep
      exact ⟨h.cached, h.clean, fun subscriber hmem => h.inStep subscriber (List.mem_of_mem_filter hmem)⟩

theorem settled_run {notifier : Notifier} {events : List Event}
    (hclean : ∀ event ∈ events, ∀ state, event.state = some state → CleanState state)
    (hmatches : Runs.Meets Notifier.step Matches Notifier.empty events)
    (hrun : Runs.run Notifier.step Notifier.empty events = some notifier) : Settled notifier := by
  have hstart : Settled Notifier.empty := ⟨nofun, nofun, nofun⟩
  exact Runs.invariant_of_run (fun _ _ _ hsettled hboth hstep => settled_step hsettled hboth.2 hboth.1 hstep) hstart
    (hmatches.and (Runs.meets_of_forall (fun event hevent _ => hclean event hevent) Notifier.empty)) hrun

/-- In every run in which each replay starts from what was last notified, and whose notifications compare values
exactly, the copy of every subscriber with replay shows the state after each materialization. -/
theorem mirrors_of_run {events : List Event} {state : WarpStateV5 JsValue} {notifier : Notifier}
    (hreachable : ∀ event ∈ events ++ [.finish state], ∀ state', event.state = some state' → Reachable state')
    (hmatches : Runs.Meets Notifier.step Matches Notifier.empty (events ++ [.finish state]))
    (hrun : Runs.run Notifier.step Notifier.empty (events ++ [.finish state]) = some notifier) :
    ∀ subscriber ∈ notifier.subscribers, subscriber.replay = true → Mirrors subscriber state := by
  have hsettled := settled_run (fun event hevent state' h => (hreachable event hevent state' h).cleanState) hmatches hrun
  have hclean := (hreachable (.finish state) (List.mem_append_right _ (List.mem_singleton_self _)) state rfl).cleanState
  obtain ⟨middle, -, hlast⟩ := Runs.run_append_eq_some.mp hrun
  cases hlast
  intro subscriber hmem hreplay
  have hstep := hsettled.inStep subscriber hmem hreplay
  refine ⟨?_, hstep.once⟩
  rw [hstep.caughtUp (pendingReplay_finish hmem)]
  exact shown_contentOf hclean

namespace Example

def addsX : Session JsValue := ⟨js "alice", 1, true, [.addNode (js "x")], js "aaaa"⟩

def removesX : Session JsValue := ⟨js "bob", 2, true, [.removeNode (js "x")], js "bbbb"⟩

/-- The empty graph is materialized and the commit of alice applied at once; then someone subscribes, and what bob
committed is materialized. -/
def events (added removed : WarpStateV5 JsValue) : List Event :=
  [.install createEmptyStateV5, .finish createEmptyStateV5, .install added, .subscribe 0 true, .install removed]

/-- The subscriber keeps the node that was removed. -/
theorem replay_misses_removal : ∃ events state notifier,
    (∀ event ∈ events ++ [.finish state], ∀ state', Event.state event = some state' → Reachable state') ∧
      Runs.run Notifier.step .empty (events ++ [.finish state]) = some notifier ∧
      ∃ subscriber ∈ notifier.subscribers, subscriber.replay = true ∧ ¬ Mirrors subscriber state := by
  have hsome : (do
      let added ← runSessions [addsX]
      let removed ← runSessions [addsX, removesX]
      let notifier ← Runs.run Notifier.step .empty (events added removed ++ [.finish removed])
      return (notifier.subscribers.any fun subscriber => subscriber.replay &&
        subscriber.received.map StateDiffResult.nodesAdded = [[js "x"]]) && !orsetContains removed.nodeAlive (js "x") :
        Option Bool) = some true := by
    decide +kernel
  simp only [Option.bind_eq_bind, Option.bind_eq_some_iff, Option.pure_def, Option.some.injEq, Bool.and_eq_true,
    List.any_eq_true, decide_eq_true_eq, Bool.not_eq_true'] at hsome
  obtain ⟨added, hadded, removed, hremoved, notifier, hrun, ⟨subscriber, hsubscriber, hreplay, hreceived⟩, hgone⟩ := hsome
  obtain ⟨diff, hdiff, htold⟩ := List.map_eq_singleton_iff.mp hreceived
  refine ⟨_, removed, notifier, ?_, hrun, subscriber, hsubscriber, hreplay, fun hmirrors => ?_⟩
  · intro event hevent state' hstate'
    simp only [events, List.cons_append, List.nil_append, List.mem_cons, List.not_mem_nil, or_false] at hevent
    rcases hevent with rfl | rfl | rfl | rfl | rfl | rfl <;> cases hstate'
    · exact .empty
    · exact .empty
    · exact reachable_of_sessions hadded
    · exact reachable_of_sessions hremoved
    · exact reachable_of_sessions hremoved
  · have hshown : js "x" ∈ subscriber.copy.shown.nodes := by
      have hcopy : subscriber.copy = Copy.empty.fold diff := by rw [Subscriber.copy, hdiff]; rfl
      rw [hcopy]
      exact Or.inl (by rw [htold]; exact List.mem_singleton_self _)
    rw [hmirrors.shown] at hshown
    have halive := (mem_orsetElements _ _).mp hshown
    rw [hgone] at halive
    cases halive

/-- A subscriber from the start is told of the add and of the removal. -/
theorem mirrors_small : ∃ added removed notifier, runSessions [addsX] = some added ∧
    runSessions [addsX, removesX] = some removed ∧
    Runs.run Notifier.step .empty ([.subscribe 0 true, .install added, .finish added, .install removed] ++
      [.finish removed]) = some notifier ∧
    ∀ subscriber ∈ notifier.subscribers, subscriber.replay = true → Mirrors subscriber removed := by
  have hsome : (do
      let added ← runSessions [addsX]
      let removed ← runSessions [addsX, removesX]
      let notifier ← Runs.run Notifier.step .empty ([.subscribe 0 true, .install added, .finish added,
        .install removed] ++ [.finish removed])
      return (added.prop.entries.length, notifier.subscribers.length) : Option (Nat × Nat)) = some (0, 1) := by
    decide +kernel
  simp only [Option.bind_eq_bind, Option.bind_eq_some_iff, Option.pure_def, Option.some.injEq, Prod.mk.injEq] at hsome
  obtain ⟨added, hadded, removed, hremoved, notifier, hrun, hprops, -⟩ := hsome
  refine ⟨added, removed, notifier, hadded, hremoved, hrun, mirrors_of_run ?_ ?_ hrun⟩
  · intro event hevent state' hstate'
    simp only [List.cons_append, List.nil_append, List.mem_cons, List.not_mem_nil, or_false] at hevent
    rcases hevent with rfl | rfl | rfl | rfl | rfl <;> cases hstate'
    · exact reachable_of_sessions hadded
    · exact reachable_of_sessions hadded
    · exact reachable_of_sessions hremoved
    · exact reachable_of_sessions hremoved
  · have hexact : ComparesExactly (some added) removed := by
      intro key old new _ hold
      have hmem := (JsMap.get_eq_some_iff added.prop key old).mp hold
      rw [List.length_eq_zero_iff.mp hprops] at hmem
      cases hmem
    refine ⟨fun _ h => (nomatch h), fun _ h => ?_⟩
    cases h
    refine ⟨trivial, fun _ h => ?_⟩
    cases h
    refine ⟨fun _ => comparesExactly_none added, fun _ h => ?_⟩
    cases h
    refine ⟨trivial, fun _ h => ?_⟩
    cases h
    exact ⟨fun _ => hexact, fun _ _ => trivial⟩

end Example

end Subscriptions

end GitWarp
