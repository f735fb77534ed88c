import DistributedCache.Lib.Quorum
import DistributedCache.Raft.NodeSteps

/-!
Deployments as `cmd/node` starts them: distinct nodes that listen on distinct
addresses, each given the other nodes as its peers.
-/
namespace DistributedCache.Raft

structure Setup.Consistent (S : Setup) : Prop where
  ids_nodup : S.ids.Nodup
  ids_ne : ∀ i ∈ S.ids, i ≠ ""
  addrs_nodup : (S.members.map Cluster.Node.addr).Nodup
  /-- Every node's peers are the other members. -/
  peers : ∀ i ∈ S.ids, ∀ m, m ∈ S.peerNodes i ↔ m ∈ S.members ∧ m.id ≠ i

namespace Setup

def addrOf (S : Setup) (i : String) : String :=
  ((S.members.find? fun m => m.id = i).getD ⟨i, ""⟩).addr

theorem start_node (S : Setup) (i : String) :
    S.start.node i = newNode i (S.addrOf i) (S.peerMap i) := by
  have hid : ((S.members.find? fun m => m.id = i).getD ⟨i, ""⟩).id = i := by
    cases hfind : S.members.find? fun m => m.id = i with
    | none => rfl
    | some m => simpa using List.find?_some hfind
  simp only [start, Sys.node, startProc, addrOf, hid]

/-- Ids and addresses are fixed when a node is started. -/
theorem identity {S : Setup} {past : List (Sys × Action)} {σ : Sys} (run : Run S past σ)
    (i : String) : (σ.node i).id = i ∧ (σ.node i).addr = S.addrOf i := by
  have fixed := Run.node_ordered
    (R := fun n n' => n'.id = n.id ∧ n'.addr = n.addr) (fun n => ⟨rfl, rfl⟩)
    (fun n m o h h' => ⟨h'.1.trans h.1, h'.2.trans h.2⟩)
    (fun n n' (step : NodeStep (fun _ _ => True) n n') => by
      cases step with
      | observe req _ _ => unfold Node.observeLeader; split <;> exact ⟨rfl, rfl⟩
      | store req _ _ _ =>
          unfold Node.storeEntries Node.observeLeader; split <;> exact ⟨rfl, rfl⟩
      | commit req _ _ _ =>
          unfold Node.storeEntries Node.observeLeader; split <;> exact ⟨rfl, rfl⟩
      | _ => exact ⟨rfl, rfl⟩) run (fun _ _ _ _ _ => trivial) i
  obtain ⟨u, hu, hstart⟩ : ∃ u ∈ Transition.visited past σ, u = S.start := by
    refine Transition.Run.induct (C := fun _ _ => True)
      (I := fun past σ => ∃ u ∈ Transition.visited past σ, u = S.start) ?_ ?_ run
      (fun _ _ => trivial)
    · exact fun σ hσ => ⟨σ, Transition.mem_visited_self _ _, hσ⟩
    · rintro past σ a σ' _ _ ⟨u, hu, hstart⟩ _ _
      exact ⟨u, (Transition.mem_visited_next _ _ _ _ _).mpr (.inr hu), hstart⟩
  have := fixed u hu
  rw [hstart, start_node] at this
  exact this

variable {S : Setup}

theorem mem_ids {m : Cluster.Node} (h : m ∈ S.members) : m.id ∈ S.ids :=
  List.mem_map_of_mem h

theorem Consistent.find_member (hS : S.Consistent) {m : Cluster.Node} (h : m ∈ S.members) :
    S.members.find? (fun m' => m'.id = m.id) = some m := by
  cases hfind : S.members.find? fun m' => m'.id = m.id with
  | none =>
      have := List.find?_eq_none.mp hfind m h
      simp at this
  | some m' =>
      have hid : m'.id = m.id := by simpa using List.find?_some hfind
      exact congrArg some
        (List.inj_on_of_nodup_map hS.ids_nodup (List.mem_of_find?_eq_some hfind) h hid)

theorem Consistent.addrOf_eq (hS : S.Consistent) {m : Cluster.Node} (h : m ∈ S.members) :
    S.addrOf m.id = m.addr := by
  rw [addrOf, hS.find_member h, Option.getD_some]

theorem Consistent.addrOf_inj (hS : S.Consistent) {i j : String} (hi : i ∈ S.ids)
    (hj : j ∈ S.ids) (h : S.addrOf i = S.addrOf j) : i = j := by
  obtain ⟨m, hm, rfl⟩ := List.mem_map.mp hi
  obtain ⟨m', hm', rfl⟩ := List.mem_map.mp hj
  rw [hS.addrOf_eq hm, hS.addrOf_eq hm'] at h
  rw [List.inj_on_of_nodup_map hS.addrs_nodup hm hm' h]

/-- Requests reach the node they are addressed to. -/
theorem Consistent.resolve_addrOf (hS : S.Consistent) {σ : Sys}
    (addrs : ∀ i ∈ S.ids, (σ.node i).addr = S.addrOf i) {i j : String} (hj : j ∈ S.ids)
    (h : S.resolve σ (S.addrOf j) = some i) : j = i ∧ i ∈ S.ids := by
  have hmem := List.mem_of_find?_eq_some h
  have haddr : (σ.node i).addr = S.addrOf j := by simpa using List.find?_some h
  exact ⟨(hS.addrOf_inj hmem hj ((addrs i hmem).symm.trans haddr)).symm, hmem⟩

theorem Consistent.mem_peerMap (hS : S.Consistent) {i : String} (hi : i ∈ S.ids) (j : String) :
    j ∈ (S.peerMap i).keys ↔ j ∈ S.ids ∧ j ≠ i := by
  rw [← AList.mem_keys, peerMap, GoMap.mem_ofList, List.map_map]
  constructor
  · rintro h
    obtain ⟨m, hm, rfl⟩ := List.mem_map.mp h
    obtain ⟨hmem, hne⟩ := (hS.peers i hi m).mp hm
    exact ⟨mem_ids hmem, hne⟩
  · rintro ⟨hj, hne⟩
    obtain ⟨m, hm, rfl⟩ := List.mem_map.mp hj
    exact List.mem_map.mpr ⟨m, (hS.peers i hi m).mpr ⟨hm, hne⟩, rfl⟩

theorem Consistent.of_lookup_peerMap (hS : S.Consistent) {i : String} (hi : i ∈ S.ids)
    {j addr : String} (h : (S.peerMap i).lookup j = some addr) :
    j ∈ S.ids ∧ j ≠ i ∧ addr = S.addrOf j := by
  obtain ⟨m, hm, heq⟩ := List.mem_map.mp (GoMap.of_lookup_ofList h)
  obtain ⟨rfl, rfl⟩ := Prod.mk.inj heq
  obtain ⟨hmem, hne⟩ := (hS.peers i hi m).mp hm
  exact ⟨mem_ids hmem, hne, (hS.addrOf_eq hmem).symm⟩

theorem Consistent.card_ids (hS : S.Consistent) : S.ids.toFinset.card = S.ids.length :=
  List.toFinset_card_of_nodup hS.ids_nodup

theorem Consistent.keys_toFinset (hS : S.Consistent) {i : String} (hi : i ∈ S.ids) :
    (S.peerMap i).keys.toFinset = S.ids.toFinset.erase i := by
  ext j
  rw [List.mem_toFinset, hS.mem_peerMap hi, Finset.mem_erase, List.mem_toFinset, and_comm]

theorem Consistent.length_keys (hS : S.Consistent) {i : String} (hi : i ∈ S.ids) :
    (S.peerMap i).keys.length = S.ids.length - 1 := by
  rw [← List.toFinset_card_of_nodup (S.peerMap i).keys_nodup, hS.keys_toFinset hi,
    Finset.card_erase_of_mem (List.mem_toFinset.mpr hi), hS.card_ids]

end Setup

theorem Node.mem_peerAddrsLocked {n : Node} {p : String × String} :
    p ∈ n.peerAddrsLocked ↔ n.peers.lookup p.1 = some p.2 ∧ p.1 ≠ n.id := by
  obtain ⟨id, addr⟩ := p
  rw [Node.peerAddrsLocked, List.mem_filter, List.mem_map]
  constructor
  · rintro ⟨⟨⟨k, v⟩, hmem, heq⟩, hne⟩
    obtain ⟨rfl, rfl⟩ := Prod.mk.inj heq
    exact ⟨AList.mem_lookup_iff.mpr hmem, by simpa using hne⟩
  · rintro ⟨hlook, hne⟩
    exact ⟨⟨⟨id, addr⟩, AList.mem_lookup_iff.mp hlook, rfl⟩, by simpa using hne⟩

/-- Three nodes with a callback that leaves Raft alone. -/
def trio : Setup where
  members := [⟨"a", "a:1"⟩, ⟨"b", "b:1"⟩, ⟨"c", "c:1"⟩]
  peerNodes i := [⟨"a", "a:1"⟩, ⟨"b", "b:1"⟩, ⟨"c", "c:1"⟩].filter fun m => m.id ≠ i
  ringCfg := ⟨1, Cluster.hashKey⟩
  membership := false

theorem trio_consistent : trio.Consistent where
  ids_nodup := by decide
  ids_ne := by decide
  addrs_nodup := by decide
  peers i _ m := by simp [trio]

/-- Node a stands, gets the vote of b and becomes leader of term 1. -/
def electA : List Action :=
  [.timeout "a", .deliver 1, .deliver 1, .resume "a" 0, .resume "a" 0]

/-- Then a stores two commands, sends b both at once and applies them. -/
def commitTwoA : List Action :=
  electA ++ [.propose "a" { type := .noop }, .propose "a" { type := .noop }, .deliver 6,
    .deliver 6, .resume "a" 0, .resume "a" 0, .resume "a" 0, .resume "a" 0, .resume "a" 0,
    .resume "a" 0]

/-- Or a client's command is stored by a and b, and applied by a. -/
def commitA (cmd : Command) : List Action :=
  electA ++ [.propose "a" cmd, .deliver 4, .deliver 4, .resume "a" 0, .resume "a" 0,
    .resume "a" 0]

def join (id addr : String) : Command :=
  { type := .addMember, nodeID := id, addr := addr }

/-- Node a stores the command of a client as leader of term 1, but c is elected for
term 2 by the vote of b, and commits another command at the same index with b. -/
def overwriteA (cmd cmd' : Command) : List Action :=
  electA ++ [.propose "a" cmd, .timeout "c", .timeout "c", .deliver 7, .deliver 8,
    .resume "c" 0, .resume "c" 0, .propose "c" cmd', .deliver 10, .deliver 11, .resume "c" 0,
    .resume "c" 0, .resume "c" 0]

end DistributedCache.Raft
