import DistributedCache.Raft.Sections

/-!
Two AppendEntries requests of one leader, handled in either order.

A request replaces everything behind its `PrevLogIndex` by what it carries. Of two
requests the one handled last therefore decides where the log ends, and the two
orders agree only when both requests end at the same index of the leader's log.
-/
namespace DistributedCache.Raft

/-- A log that holds each entry under its own index. -/
structure LeaderLog where
  entries : List Entry
  index : ∀ (k : Nat) (e : Entry), entries[k]? = some e → e.index = k

/-- The request carries a part of the log and names the entry before it. -/
structure AppendEntriesRequest.Segment (req : AppendEntriesRequest) (L : LeaderLog) : Prop where
  prev : ∃ e, L.entries[req.prevLogIndex]? = some e ∧ e.term = req.prevLogTerm
  entries : req.entries <+: L.entries.drop (req.prevLogIndex + 1)

/-- The request that carries `count` entries of the log behind a position. -/
def LeaderLog.request (L : LeaderLog) (prevLogIndex count : Nat) : AppendEntriesRequest where
  term := 1
  leaderID := "a"
  prevLogIndex := prevLogIndex
  prevLogTerm := (L.entries[prevLogIndex]?.map Entry.term).getD 0
  entries := (L.entries.drop (prevLogIndex + 1)).take count
  leaderCommit := 0

theorem LeaderLog.segment_request (L : LeaderLog) {prevLogIndex : Nat} (count : Nat)
    (inside : prevLogIndex < L.entries.length) : (L.request prevLogIndex count).Segment L where
  prev := ⟨L.entries[prevLogIndex], List.getElem?_eq_getElem inside, by
    simp [request, List.getElem?_eq_getElem inside]⟩
  entries := List.take_prefix count _

/-- The last index that the request speaks of. -/
def AppendEntriesRequest.lastIndex (req : AppendEntriesRequest) : Nat :=
  req.prevLogIndex + req.entries.length

namespace Node

/-- The node after `HandleAppendEntries`, if the answer is a success. -/
def accept (n : Node) (req : AppendEntriesRequest) : Option Node :=
  match n.handleAppendEntries req with
  | .ok (n', status) => if status = .rejected then none else some n'
  | .error _ => none

/-- The node after two requests, if it accepts both. -/
def acceptBoth (n : Node) (first second : AppendEntriesRequest) : Option Node :=
  (n.accept first).bind fun n' => n'.accept second

variable {n n' : Node} {req first second : AppendEntriesRequest} {L : LeaderLog}

theorem accept_log (h : n.accept req = some n') :
    n.Accepts req ∧ n'.log = (n.storeEntries req).log := by
  unfold accept at h
  split at h
  · rename_i handled
    split at h
    · cases h
    · rename_i success
      cases h
      cases handleAppendEntries_ok handled with
      | inl stale => exact absurd stale.2.2 success
      | inr current =>
          cases current with
          | inl refused => exact absurd refused.2.2 success
          | inr done =>
              cases done with
              | inl stored => exact ⟨stored.1, stored.2.1 ▸ storeEntries_observeLeader n req⟩
              | inr committed =>
                  exact ⟨committed.1, committed.2.2.2 ▸ storeEntries_observeLeader n req⟩
  · cases h

/-- What `replicateLocked` sends is a segment of the sender's log. -/
theorem Snapshot.segment (sent : n.Snapshot req)
    (index : ∀ (k : Nat) (e : Entry), n.log[k]? = some e → e.index = k) :
    req.Segment ⟨n.log, index⟩ where
  prev := sent.prev
  entries := sent.entries ▸ List.prefix_rfl

end Node

variable {n a b : Node} {req r s : AppendEntriesRequest} {L : LeaderLog}

/-- The entry that a segment has for an index is the leader's. -/
theorem AppendEntriesRequest.Segment.getElem? (seg : req.Segment L) {k : Nat}
    (after : req.prevLogIndex < k) :
    (req.entries[k - (req.prevLogIndex + 1)]?).map (fun e => { e with index := k }) =
      if k ≤ req.lastIndex then L.entries[k]? else none := by
  unfold AppendEntriesRequest.lastIndex
  obtain ⟨rest, whole⟩ := seg.entries
  split
  · rename_i inside
    have bound : k - (req.prevLogIndex + 1) < req.entries.length := by omega
    have here : req.entries[k - (req.prevLogIndex + 1)]? = L.entries[k]? := by
      have position := congrArg (fun l : List Entry => l[k - (req.prevLogIndex + 1)]?) whole
      rw [List.getElem?_append_left bound, List.getElem?_drop, Nat.add_sub_cancel' after]
        at position
      exact position
    rw [here]
    cases found : L.entries[k]? with
    | none => rfl
    | some e => rw [Option.map_some, ← L.index k e found]
  · rw [List.getElem?_eq_none (by omega), Option.map_none]

/-- The log after one accepted segment. -/
theorem AppendEntriesRequest.Segment.getElem?_store (seg : req.Segment L)
    (inside : req.prevLogIndex < n.log.length) (k : Nat) :
    (n.storeEntries req).log[k]? =
      if k ≤ req.prevLogIndex then n.log[k]?
      else if k ≤ req.lastIndex then L.entries[k]? else none := by
  rw [Node.getElem?_storeEntries inside]
  split
  · rfl
  · rename_i after
    exact seg.getElem? (Nat.not_le.mp after)

/-- An entry of a segment stands in the leader's log under its own index. -/
theorem AppendEntriesRequest.Segment.mem (seg : req.Segment L) {e : Entry}
    (mem : e ∈ req.entries) :
    req.prevLogIndex < e.index ∧ e.index ≤ req.lastIndex ∧ L.entries[e.index]? = some e := by
  obtain ⟨j, found⟩ := List.getElem?_of_mem mem
  obtain ⟨rest, whole⟩ := seg.entries
  have bound := (List.getElem?_eq_some_iff.mp found).1
  have here : L.entries[req.prevLogIndex + 1 + j]? = some e := by
    rw [← List.getElem?_drop, ← whole, List.getElem?_append_left bound, found]
  have index := L.index _ e here
  unfold AppendEntriesRequest.lastIndex
  rw [index]
  exact ⟨by omega, by omega, here⟩

/-- What two accepted segments leave behind: the later one decides where the log ends. -/
structure StoredBoth (n : Node) (r s : AppendEntriesRequest) (L : LeaderLog) (a : Node) : Prop where
  reach : s.prevLogIndex ≤ r.lastIndex
  length : a.log.length = s.lastIndex + 1
  log : ∀ k, a.log[k]? =
    if k ≤ s.prevLogIndex then
      if k ≤ r.prevLogIndex then n.log[k]?
      else if k ≤ r.lastIndex then L.entries[k]? else none
    else if k ≤ s.lastIndex then L.entries[k]? else none

theorem storedBoth_of_acceptBoth (segr : r.Segment L) (segs : s.Segment L)
    (h : n.acceptBoth r s = some a) : StoredBoth n r s L a := by
  obtain ⟨m, first, second⟩ := Option.bind_eq_some_iff.mp h
  obtain ⟨acceptsr, logr⟩ := Node.accept_log first
  obtain ⟨acceptss, logs⟩ := Node.accept_log second
  have lengthr : m.log.length = r.lastIndex + 1 := by
    rw [logr, Node.length_storeEntries acceptsr.lt]
    unfold AppendEntriesRequest.lastIndex
    omega
  have inside := acceptss.lt
  refine ⟨by omega, ?_, ?_⟩
  · rw [logs, Node.length_storeEntries inside]
    unfold AppendEntriesRequest.lastIndex
    omega
  · intro k
    rw [logs, segs.getElem?_store inside, logr, segr.getElem?_store acceptsr.lt]

theorem StoredBoth.log_eq (left : StoredBoth n r s L a) (right : StoredBoth n s r L b)
    (ends : r.lastIndex = s.lastIndex) : a.log = b.log := by
  apply List.ext_getElem?
  intro k
  have reachl := left.reach
  have reachr := right.reach
  rw [left.log, right.log]
  split_ifs <;> first | rfl | omega

theorem StoredBoth.holds (stored : StoredBoth n r s L a) (ends : r.lastIndex = s.lastIndex)
    (segr : r.Segment L) (segs : s.Segment L) {e : Entry} (mem : e ∈ r.entries ++ s.entries) :
    a.log[e.index]? = some e := by
  have reach := stored.reach
  rw [stored.log]
  cases List.mem_append.mp mem with
  | inl mem =>
      obtain ⟨after, before, here⟩ := segr.mem mem
      rw [← here]
      split_ifs <;> first | rfl | omega
  | inr mem =>
      obtain ⟨after, before, here⟩ := segs.mem mem
      rw [← here]
      split_ifs <;> first | rfl | omega

/-- Two requests of one leader that are accepted in either order leave the same log,
with the entries of both under their indices, exactly when they end at the same index.
That both have one term, and not an old one, follows from the acceptance. -/
theorem append_entries_commute (segr : r.Segment L) (segs : s.Segment L)
    (left : n.acceptBoth r s = some a) (right : n.acceptBoth s r = some b) :
    (a.log = b.log ∧ ∀ e ∈ r.entries ++ s.entries, a.log[e.index]? = some e) ↔
      r.prevLogIndex + r.entries.length = s.prevLogIndex + s.entries.length := by
  have storedl := storedBoth_of_acceptBoth segr segs left
  have storedr := storedBoth_of_acceptBoth segs segr right
  constructor
  · intro h
    have length := congrArg List.length h.1
    rw [storedl.length, storedr.length] at length
    unfold AppendEntriesRequest.lastIndex at length
    omega
  · intro ends
    exact ⟨storedl.log_eq storedr ends, fun e mem => storedl.holds ends segr segs mem⟩

/-- A log with two entries of term 1 behind the sentinel. -/
def twoJoins : LeaderLog where
  entries := [sentinel,
    { term := 1, index := 1, command := { type := .addMember, nodeID := "d", addr := "d:1" } },
    { term := 1, index := 2, command := { type := .addMember, nodeID := "e", addr := "e:1" } }]
  index := fun k e found => by
    match k with
    | 0 | 1 | 2 =>
        cases found
        rfl
    | k + 3 => simp at found

/-- A follower that stores the log up to an index. -/
def followerOf (L : LeaderLog) (lastIndex : Nat) : Node :=
  { newNode "b" "b:1" ∅ with log := L.entries.take (lastIndex + 1) }

theorem append_entries_commute_overlap :
    ∃ a b, (followerOf twoJoins 1).acceptBoth (twoJoins.request 0 2) (twoJoins.request 1 1) =
        some a ∧
      (followerOf twoJoins 1).acceptBoth (twoJoins.request 1 1) (twoJoins.request 0 2) = some b ∧
      a.log = b.log ∧
      ∀ e ∈ (twoJoins.request 0 2).entries ++ (twoJoins.request 1 1).entries,
        a.log[e.index]? = some e := by
  obtain ⟨a, left⟩ : ∃ a, (followerOf twoJoins 1).acceptBoth (twoJoins.request 0 2)
      (twoJoins.request 1 1) = some a := ⟨_, rfl⟩
  obtain ⟨b, right⟩ : ∃ b, (followerOf twoJoins 1).acceptBoth (twoJoins.request 1 1)
      (twoJoins.request 0 2) = some b := ⟨_, rfl⟩
  exact ⟨a, b, left, right, (append_entries_commute (twoJoins.segment_request 2 (by decide))
    (twoJoins.segment_request 1 (by decide)) left right).mpr rfl⟩

/-- An empty heartbeat and the request with the entry behind the same position: handled
last, the heartbeat takes the acknowledged entry away again. -/
theorem append_entries_lost :
    ∃ r s, r.Segment twoJoins ∧ s.Segment twoJoins ∧ r.term = s.term ∧
      (followerOf twoJoins 0).currentTerm ≤ r.term ∧
      ∃ a b, (followerOf twoJoins 0).acceptBoth r s = some a ∧
        (followerOf twoJoins 0).acceptBoth s r = some b ∧ a.log ≠ b.log ∧
        ∃ e ∈ r.entries, e ∈ b.log ∧ e ∉ a.log :=
  ⟨twoJoins.request 0 1, twoJoins.request 0 0, twoJoins.segment_request 1 (by decide),
    twoJoins.segment_request 0 (by decide), rfl, Nat.zero_le _, _, _, rfl, rfl, by decide,
    _, List.mem_cons_self, by decide, by decide⟩

end DistributedCache.Raft
