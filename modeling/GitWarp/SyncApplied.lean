import GitWarp.SyncExchange

/-! What a response that is applied does, in terms of the events its patches are read as. -/

namespace GitWarp
open Js ExceptLoops

variable {V : Type}

/-- The patches can be read and hold operations of the wire only. -/
def Applicable (patches : List (SyncPatch V)) : Prop :=
  ∀ p ∈ patches, p.patch.WireOps ∧ ∃ read, readPatch ⟨p.patch, p.sha⟩ = .ok read

theorem mapM_readPatch_appliedOrder {patches : List (SyncPatch V)} (h : Applicable patches) :
    ∃ reads, (appliedOrder patches).mapM readPatch = .ok reads := by
  refine exists_mapM_ok_iff.mpr fun entry hentry => ?_
  obtain ⟨p, hp, rfl⟩ := (mem_appliedOrder patches entry).mp hentry
  exact (h p hp).2

theorem exists_applySyncResponse_iff (patches : List (SyncPatch V)) (state : WarpStateV5 V)
    (frontier : Frontier) :
    (∃ result, applySyncResponse patches state frontier = .ok result) ↔ Applicable patches := by
  constructor
  · rintro ⟨result, hresult⟩ p hp
    obtain ⟨reads, hreads, -⟩ := applySyncResponse_state hresult
    exact ⟨wireOps_of_applySyncResponse hresult p hp,
      exists_mapM_ok_iff.mp ⟨reads, hreads⟩ _ ((mem_appliedOrder patches _).mpr ⟨p, hp, rfl⟩)⟩
  · exact fun h => exists_applySyncResponse_ok (fun p hp => (h p hp).2) (fun p hp => (h p hp).1) state frontier

theorem mem_reads_iff {patches : List (SyncPatch V)} {reads : List (ReadPatch V)}
    (hreads : (appliedOrder patches).mapM readPatch = .ok reads) (read : ReadPatch V) :
    read ∈ reads ↔ ∃ p ∈ patches, readPatch ⟨p.patch, p.sha⟩ = .ok read := by
  rw [mem_of_mapM_ok hreads]
  simp only [mem_appliedOrder]
  constructor
  · rintro ⟨entry, ⟨p, hp, rfl⟩, hread⟩
    exact ⟨p, hp, hread⟩
  · rintro ⟨p, hp, hread⟩
    exact ⟨_, ⟨p, hp, rfl⟩, hread⟩

end GitWarp
