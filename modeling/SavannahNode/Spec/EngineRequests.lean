import SavannahNode.Native.EngineCommon

/-!
# Outstanding requests

The two maps of `Requests` are inverse to each other, as long as request IDs are new and a
container is requested once at a time. So a container that `Contains` reports has a request whose
answer will be taken.

## Key results

* `Requests.Linked` — the invariant, kept by `Add` and `Remove`.
* `Requests.Linked.contains_iff` — a container is contained iff a request for it is outstanding.
-/

namespace SavannahNode

open Finmap Option

namespace Requests

variable {r : Requests} {n : Nat} {vdr : NodeID} {requestID : Nat} {id containerID : ID}

/-- The two maps agree, and no request has an ID above `n`. -/
structure Linked (r : Requests) (n : Nat) : Prop where
  link : ∀ id key, r.idToReq.lookup id = some key ↔ r.reqsToID.lookup key = some id
  bound : ∀ key id, r.reqsToID.lookup key = some id → key.2 ≤ n

theorem linked_empty (n : Nat) : empty.Linked n := by
  refine ⟨fun id key => ?_, fun key id h => ?_⟩
  · rw [empty, lookup_empty, lookup_empty]
    simp
  · cases h

/-- The container has a request whose answer will be taken. -/
theorem Linked.contains_iff (h : r.Linked n) :
    r.contains id = true ↔ ∃ key, r.reqsToID.lookup key = some id := by
  rw [contains, isSome_iff_exists]
  exact exists_congr fun key => h.link id key

theorem contains_add : (r.add vdr requestID containerID).contains id = true ↔
    id = containerID ∨ r.contains id = true := by
  rw [contains, add, lookup_insert_ite]
  split
  · simp [*]
  · simp [*, contains]

/-- `Add` of a request with a new ID for a container that is not requested. -/
theorem Linked.add (h : r.Linked n) (hnew : r.contains containerID = false) :
    (r.add vdr (n + 1) containerID).Linked (n + 1) := by
  have hfresh : ∀ id, r.reqsToID.lookup (vdr, n + 1) ≠ some id := by
    intro id hid
    have := h.bound _ id hid
    omega
  have hnone : r.idToReq.lookup containerID = none := by
    rw [contains, isSome_eq_false_iff, isNone_iff_eq_none] at hnew
    exact hnew
  refine ⟨fun id key => ?_, fun key id hid => ?_⟩
  · rw [Requests.add, lookup_insert_ite, lookup_insert_ite]
    have hlink := h.link id key
    split
    · split
      · simp_all
      -- the container had no request
      rename_i hid hkey
      subst hid
      rw [hnone] at hlink
      constructor
      · intro heq
        exact absurd (some.inj heq).symm hkey
      · intro hlookup
        cases hlink.mpr hlookup
    split
    · -- the request ID was not used
      rename_i hid hkey
      subst hkey
      constructor
      · intro hlookup
        exact absurd (hlink.mp hlookup) (hfresh id)
      · intro heq
        exact absurd (some.inj heq).symm hid
    · exact hlink
  · rw [Requests.add, lookup_insert_ite] at hid
    split at hid
    · rename_i hkey
      subst hkey
      exact le_rfl
    have := h.bound key id hid
    omega

theorem remove_of_none (h : (r.remove vdr requestID).1 = none) : r.remove vdr requestID = (none, r) := by
  rw [remove] at h ⊢
  cases hlookup : r.reqsToID.lookup (vdr, requestID) with
  | none => rfl
  | some containerID =>
    rw [hlookup] at h
    cases h

theorem remove_of_some (h : (r.remove vdr requestID).1 = some containerID) :
    r.reqsToID.lookup (vdr, requestID) = some containerID ∧
    (r.remove vdr requestID).2 =
      { reqsToID := r.reqsToID.erase (vdr, requestID), idToReq := r.idToReq.erase containerID } := by
  rw [remove] at h ⊢
  cases hlookup : r.reqsToID.lookup (vdr, requestID) with
  | none =>
    rw [hlookup] at h
    cases h
  | some id =>
    rw [hlookup] at h
    cases h
    exact ⟨rfl, rfl⟩

theorem contains_remove (h : (r.remove vdr requestID).1 = some containerID) :
    (r.remove vdr requestID).2.contains id = true ↔ id ≠ containerID ∧ r.contains id = true := by
  rw [(remove_of_some h).2, contains, lookup_erase_ite]
  split
  · simp [*]
  · simp [*, contains]

theorem Linked.remove (h : r.Linked n) (vdr : NodeID) (requestID : Nat) :
    (r.remove vdr requestID).2.Linked n := by
  cases hremove : (r.remove vdr requestID).1 with
  | none =>
    rw [remove_of_none hremove]
    exact h
  | some containerID =>
    obtain ⟨hlookup, heq⟩ := remove_of_some hremove
    rw [heq]
    refine ⟨fun id key => ?_, fun key id hid => ?_⟩
    · rw [lookup_erase_ite, lookup_erase_ite]
      have hlink := h.link id key
      have hkey := (h.link containerID (vdr, requestID)).mpr hlookup
      split
      · split
        · simp
        rename_i hid hne
        subst hid
        rw [hkey] at hlink
        constructor
        · intro heq
          cases heq
        · intro heq
          exact absurd (some.inj (hlink.mpr heq)).symm hne
      split
      · rename_i hid hne
        subst hne
        rw [hlookup] at hlink
        constructor
        · intro heq
          exact absurd (some.inj (hlink.mp heq)).symm hid
        · intro heq
          cases heq
      · exact hlink
    · have hid : (r.reqsToID.erase (vdr, requestID)).lookup key = some id := hid
      rw [lookup_erase_ite] at hid
      split at hid
      · cases hid
      · exact h.bound key id hid

end Requests

namespace Halter

variable {h : Halter}

theorem halted_skip (n : Nat) (hhalted : h.halted = true) : (h.skip n).halted = true := by
  have : h.readsLeft = some 0 := of_decide_eq_true hhalted
  rw [skip, this]
  simp [halted]

theorem halted_halt (n : Nat) (hhalted : h.halted = true) : (h.halt n).halted = true := by
  have : h.readsLeft = some 0 := of_decide_eq_true hhalted
  rw [halt, this]
  simp [halted]

/-- If the halter does not report after `n + 1` calls, none of them has reported. -/
theorem haltedAt_of_skip {n : Nat} (hskip : (h.skip (n + 1)).halted = false) :
    h.haltedAt n = false := by
  rw [haltedAt]
  cases hreads : h.readsLeft with
  | none => rfl
  | some m =>
    rw [skip, hreads] at hskip
    simp only [halted, map_some, decide_eq_false_iff_not, some.injEq] at hskip
    simp only [any_some, decide_eq_false_iff_not]
    omega

end Halter

end SavannahNode
