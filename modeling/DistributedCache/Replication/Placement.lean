import DistributedCache.Cluster.Disruption
import DistributedCache.Replication.Calls

/-!
Where a key is kept. `Lookup` and `LookupN` search the ring each in its own way, writes are
routed by the one and replicas chosen by the other. On every ring that joins and leaves
build, with any hash function, the two agree on the primary.
-/
namespace DistributedCache.Cluster.Ring

variable {r : Ring} {key : String} {n : Int}

theorem Sound.lookupN_fails_iff (sound : r.Sound) (positive : 1 ≤ n) :
    (∃ err, r.lookupN key n = .error err) ↔ r.owner key = none := by
  rw [lookupN_eq_order sound, owner_eq_head_order sound, if_neg (by omega), List.head?_eq_none_iff]
  by_cases empty : r.order key = []
  · rw [if_pos empty]
    exact iff_of_true ⟨_, rfl⟩ empty
  · rw [if_neg empty]
    exact iff_of_false (fun ⟨_, failed⟩ => nomatch failed) empty

theorem Sound.lookupN_members (sound : r.Sound) (positive : 1 ≤ n) {owners : List Node}
    (h : r.lookupN key n = .ok owners) :
    (∀ o ∈ owners, r.nodes.lookup o.id = some o) ∧ owners.head? = r.owner key := by
  rw [lookupN_eq_order sound, if_neg (by omega)] at h
  split at h
  · cases h
  · cases h
    refine ⟨fun o mem => sound.lookup_of_mem_order (List.mem_of_mem_take mem), ?_⟩
    rw [owner_eq_head_order sound, List.head?_take, if_neg (by omega)]

end DistributedCache.Cluster.Ring

namespace DistributedCache.Replication

open Cluster (Node Ring RingConfig RingOp RingRun)

/-- After any joins and leaves and with any hash function, the positions are sorted and
those of the map, and the map leads to members. So the owners of a key are different
members, there are some exactly if the key has a primary, and the primary is the first of
them; the node that takes itself for the primary is in the replica set. -/
theorem ring_primary_agreement {cfg : RingConfig} {past : List (Ring × RingOp)} {r : Ring}
    (run : RingRun cfg past r) :
    r.hashes.Pairwise (· ≤ ·) ∧ (∀ h, h ∈ r.hashes ↔ h ∈ r.lookup) ∧
      (∀ h id, r.lookup.lookup h = some id → id ∈ r.nodes) ∧
      (∀ (key : String) (n : Int), 1 ≤ n →
        ((∃ err, r.lookupN key n = .error err) ↔ r.owner key = none) ∧
        ∀ owners, r.lookupN key n = .ok owners →
          (owners.map Node.id).Nodup ∧ (∀ o ∈ owners, r.nodes.lookup o.id = some o) ∧
            owners.head? = r.owner key) ∧
      ∀ (config : Config) (self key : String), Setup.isPrimary ⟨config, r⟩ self key = true →
        Setup.isInReplicaSet ⟨config, r⟩ self key = true := by
  have sound := (Ring.built_run run).sound
  refine ⟨sound.sorted, sound.positions, fun h id found => (sound.placed h id found).1, ?_, ?_⟩
  · intro key n positive
    refine ⟨sound.lookupN_fails_iff positive, fun owners found => ?_⟩
    exact ⟨Ring.nodup_lookupN sound found, sound.lookupN_members positive found⟩
  · intro config self key primary
    exact Setup.isInReplicaSet_iff.mpr (Setup.mem_owners_of_isPrimary primary)

/-- Two members share a position, and the key goes to the one that joined last. -/
theorem ring_primary_agreement_shared :
    Cluster.sharedPair.2.hashes = [3, 3, 4] ∧ Cluster.sharedPair.2.hashes.Pairwise (· ≤ ·) ∧
      ∀ owners, Cluster.sharedPair.2.lookupN "key" 3 = .ok owners →
        owners.head? = Cluster.sharedPair.2.owner "key" := by
  have run : RingRun _ Cluster.sharedPair.1 Cluster.sharedPair.2 := Cluster.ringRun_ringTrace _ _
  have results := ring_primary_agreement run
  refine ⟨by decide, results.1, fun owners found => ?_⟩
  exact ((results.2.2.2.1 "key" 3 (by decide)).2 owners found).2.2

end DistributedCache.Replication
