import DistributedCache.Raft.Exchange

/-!
A command can always get through. From every state that is reached without losing stored
entries, a leader of the newest term can store it, go back in the log of each other node until
that accepts, commit the command with the last answer and tell the others, until every node
has applied it and the `Propose` call returns.
-/
namespace DistributedCache.Raft

open Transition (Leads Meets)
open Refinement (Fixed)

/-- The other node ends with the entry, and the leader knows. -/
structure Caught (l : String) (k : Nat) (e : Entry) (j : String) (σ : Sys) : Prop where
  next : (σ.node l).nextIndex.lookup j = some (k + 1)
  stored : (σ.node l).matchIndex.lookup j = some k
  length : (σ.node j).log.length = k + 1
  entry : (σ.node j).log[k]? = some e

/-- The nodes of the list have still to be brought to the end of the leader's log. -/
structure Spreading (S : Setup) (base : List Event) (l : String) (k : Nat) (e : Entry)
    (todo : List String) (σ : Sys) : Prop where
  leading : Leading S base l k e σ
  nodup : todo.Nodup
  left : ∀ j ∈ todo, j ∈ S.ids ∧ j ≠ l ∧
    ∃ x, (σ.node l).nextIndex.lookup j = some x ∧ 1 ≤ x ∧ x ≤ k
  done : ∀ j ∈ S.ids, j ≠ l → j ∉ todo → Caught l k e j σ
  committed : todo = [] → (σ.node l).commitIndex = k

section Spreading

variable {S : Setup} {base : List Event} {σ σ' : Sys} {l j : String} {k : Nat} {e : Entry}
  {todo : List String}

theorem Caught.transfer (h : Caught l k e j σ) (same : σ'.node j = σ.node j)
    (next : (σ'.node l).nextIndex.lookup j = some (k + 1))
    (stored : (σ'.node l).matchIndex.lookup j = (σ.node l).matchIndex.lookup j) :
    Caught l k e j σ' :=
  ⟨next, stored.trans h.stored, same ▸ h.length, same ▸ h.entry⟩

/-- When all others have the entry, they are enough to commit it. -/
theorem Node.Placed.enough {n : Node} (placed : n.Placed S l) (fixed : Fixed S)
    (member : l ∈ S.ids) (stored : ∀ j ∈ S.ids, j ≠ l → n.matchIndex.lookup j = some k) :
    n.peers.keys.length / 2 + 1 ≤ n.ackCount k := by
  have peer {j : String} (mem : j ∈ n.peers.keys) : j ∈ S.ids ∧ j ≠ l := by
    rw [placed.peers] at mem
    exact (fixed.consistent.mem_peerMap member j).mp mem
  have others : (n.peers.keys.filter fun id => id ≠ n.id) = n.peers.keys := by
    refine List.filter_eq_self.mpr fun j mem => ?_
    rw [placed.id]
    simpa using (peer mem).2
  have counted : (n.peers.keys.filter fun id => (n.matchIndex.lookup id).getD 0 ≥ k) =
      n.peers.keys := by
    refine List.filter_eq_self.mpr fun j mem => ?_
    rw [stored j (peer mem).1 (peer mem).2]
    simp
  rw [Node.ackCount, others, counted]
  omega

/-- A request that names the sentinel is accepted. -/
theorem Leading.accepts_first {call : Call AppendEntriesRequest} (fixed : Fixed S)
    (h : Leading S base l k e σ) (listed : j ∈ S.ids) (sent : Sent S l j call σ)
    (first : call.req.prevLogIndex = 0) : (σ.node j).Accepts call.req := by
  have own := (h.newest.reached.placed fixed h.newest.member).log.first
  obtain ⟨d, found, term⟩ := sent.snapshot.prev
  rw [first] at found
  obtain rfl := Option.some.inj (own.symm.trans found)
  refine ⟨h.current listed sent, sentinel, ?_, term⟩
  rw [first]
  exact (h.newest.reached.placed fixed listed).log.first

theorem Sent.last {call : Call AppendEntriesRequest} (h : Leading S base l k e σ)
    (sent : Sent S l j call σ) (before : call.req.prevLogIndex < k) :
    call.req.entries.getLast? = some e := by
  rw [sent.snapshot.entries, List.getLast?_drop, if_neg (by rw [h.length]; omega),
    List.getLast?_eq_getElem?, h.length]
  exact h.entry

/-- A heartbeat sends each node what it still lacks. -/
theorem Spreading.beat (fixed : Fixed S) (h : Spreading S base l k e todo σ) :
    ∃ σ', Leads (exec S) Free σ σ' ∧ Spreading S base l k e todo σ' ∧
      (∀ id x, (σ.node l).nextIndex.lookup id = some x → 1 ≤ x → x ≤ k + 1 →
        (σ'.node l).nextIndex.lookup id = some x ∧
        (id ∈ S.ids → id ≠ l → ∃ call, Sent S l id call σ' ∧ call.req.prevLogIndex = x - 1)) := by
  obtain ⟨next, σ₁, first, leading, rest, node, kept, calls⟩ := h.leading.beat fixed
  have next₁ {id : String} {x : Nat} (was : (σ.node l).nextIndex.lookup id = some x)
      (low : 1 ≤ x) (high : x ≤ k + 1) : (σ₁.node l).nextIndex.lookup id = some x := by
    rw [node]
    exact kept id x was low high
  have stored : (σ₁.node l).matchIndex = (σ.node l).matchIndex := by rw [node]
  refine ⟨σ₁, first, ⟨leading, h.nodup, fun j mem => ?_, fun j mem apart unasked => ?_,
    fun none => ?_⟩, fun id x was low high => ⟨next₁ was low high, fun listed other => ?_⟩⟩
  · obtain ⟨listed, other, x, was, low, high⟩ := h.left j mem
    exact ⟨listed, other, x, next₁ was low (by omega), low, high⟩
  · have caught := h.done j mem apart unasked
    exact caught.transfer (congrArg Proc.node (rest j apart))
      (next₁ caught.next (by omega) (Nat.le_refl _)) (by rw [stored])
  · rw [node]
    exact h.committed none
  · obtain ⟨call, sent, prev⟩ := calls id listed other
    rw [Node.nextFor_eq was low (h.leading.length ▸ high)] at prev
    exact ⟨call, sent, prev⟩

/-- A node that accepts is done with, and with the last of them the entry is committed. -/
theorem Spreading.accepted {call : Call AppendEntriesRequest} (fixed : Fixed S)
    (h : Spreading S base l k e (j :: todo) σ) (sent : Sent S l j call σ)
    (before : call.req.prevLogIndex < k) (accepts : (σ.node j).Accepts call.req) :
    ∃ σ', Leads (exec S) Free σ σ' ∧ Spreading S base l k e todo σ' := by
  obtain ⟨listed, other, _⟩ := h.left j List.mem_cons_self
  obtain ⟨fresh, nodup⟩ := List.nodup_cons.mp h.nodup
  obtain ⟨σ₁, first, leading₁, rest₁, reply, length, entry, _⟩ :=
    h.leading.accepted fixed listed other sent accepts (.inl before)
  have node₁ : σ₁.node l = σ.node l := congrArg Proc.node (rest₁ l other.symm)
  have answered : Answered l j true call σ₁ :=
    ⟨reply, sent.caller, sent.peer, node₁ ▸ sent.snapshot.term⟩
  obtain ⟨σ₂, second, leading₂, rest₂, matched, next, kept, commits⟩ :=
    leading₁.acknowledged fixed answered (sent.last h.leading before)
  rw [node₁] at matched kept
  have here : σ₂.node j = σ₁.node j := congrArg Proc.node (rest₂ j other)
  have done (i : String) (mem : i ∈ S.ids) (apart : i ≠ l) (unasked : i ∉ todo) :
      Caught l k e i σ₂ := by
    by_cases self : i = j
    · subst self
      refine ⟨next, ?_, here ▸ length, here ▸ entry⟩
      rw [matched]
      exact AList.lookup_insert _
    · have caught := h.done i mem apart fun asked => by
        cases List.mem_cons.mp asked with
        | inl first => exact self first
        | inr later => exact unasked later
      refine caught.transfer (congrArg Proc.node ((rest₂ i apart).trans (rest₁ i self))) ?_ ?_
      · exact kept i (k + 1) self caught.next (by omega) (Nat.le_refl _)
      · rw [matched, AList.lookup_insert_ne self]
  refine ⟨σ₂, first.trans second, leading₂, nodup, fun i mem => ?_, done, fun none => ?_⟩
  · obtain ⟨listed', other', y, was, low, high⟩ := h.left i (List.mem_cons_of_mem j mem)
    have apart : i ≠ j := fun same => fresh (same ▸ mem)
    exact ⟨listed', other', y, kept i y apart was low (by omega), low, high⟩
  · subst none
    have placed := leading₂.newest.reached.placed fixed leading₂.newest.member
    have enough := placed.enough fixed leading₂.newest.member fun i mem apart =>
      (done i mem apart List.not_mem_nil).stored
    have peers : (σ₁.node l).peers = (σ₂.node l).peers :=
      (leading₁.newest.reached.placed fixed leading₁.newest.member).peers.trans placed.peers.symm
    exact commits (peers ▸ enough)

/-- A node that refuses will be asked from one entry earlier. -/
theorem Spreading.refused {call : Call AppendEntriesRequest} {x : Nat} (fixed : Fixed S)
    (h : Spreading S base l k e (j :: todo) σ) (sent : Sent S l j call σ)
    (found : (σ.node l).nextIndex.lookup j = some (x + 1)) (low : 1 ≤ x) (high : x + 1 ≤ k)
    (refuses : ¬ (σ.node j).Accepts call.req) :
    ∃ σ', Leads (exec S) Free σ σ' ∧ Spreading S base l k e (j :: todo) σ' ∧
      (σ'.node l).nextIndex.lookup j = some x := by
  obtain ⟨listed, other, _⟩ := h.left j List.mem_cons_self
  obtain ⟨σ₁, first, leading₁, rest₁, reply⟩ :=
    h.leading.refused fixed listed other sent refuses
  have node₁ : σ₁.node l = σ.node l := congrArg Proc.node (rest₁ l other.symm)
  have answered : Answered l j false call σ₁ :=
    ⟨reply, sent.caller, sent.peer, node₁ ▸ sent.snapshot.term⟩
  obtain ⟨next, σ₂, second, leading₂, rest₂, node₂, back, kept⟩ :=
    leading₁.rejected answered (node₁ ▸ found) (by omega) (by omega)
  rw [node₁] at kept
  have here : (σ₂.node l).nextIndex.lookup j = some x := by
    rw [node₂]
    exact back
  have next₂ {i : String} {y : Nat} (apart : i ≠ j)
      (was : (σ.node l).nextIndex.lookup i = some y) (low : 1 ≤ y) (high : y ≤ k + 1) :
      (σ₂.node l).nextIndex.lookup i = some y := by
    rw [node₂]
    exact kept i y apart was low high
  refine ⟨σ₂, first.trans second, ⟨leading₂, h.nodup, fun i mem => ?_,
    fun i mem apart unasked => ?_, fun none => by cases none⟩, here⟩
  · obtain ⟨listed', other', y, was, low', high'⟩ := h.left i mem
    by_cases self : i = j
    · subst self
      exact ⟨listed, other, x, here, low, by omega⟩
    · exact ⟨listed', other', y, next₂ self was low' (by omega), low', high'⟩
  · have self : i ≠ j := fun same => unasked (same ▸ List.mem_cons_self)
    have caught := h.done i mem apart unasked
    refine caught.transfer (congrArg Proc.node ((rest₂ i apart).trans (rest₁ i self)))
      (next₂ self caught.next (by omega) (Nat.le_refl _)) ?_
    rw [node₂]
    change (σ₁.node l).matchIndex.lookup i = _
    rw [node₁]

/-- The next node on the list is brought to the end of the leader's log, however far back
the leader has to go. -/
theorem Spreading.catchUp (fixed : Fixed S) (h : Spreading S base l k e (j :: todo) σ) :
    ∃ σ', Leads (exec S) Free σ σ' ∧ Spreading S base l k e todo σ' := by
  obtain ⟨listed, other, x, found, low, high⟩ := h.left j List.mem_cons_self
  induction x generalizing σ with
  | zero => cases low
  | succ x ih =>
      obtain ⟨σ₁, first, h₁, asks⟩ := h.beat fixed
      obtain ⟨found₁, calls⟩ := asks j (x + 1) found low (by omega)
      obtain ⟨call, sent, prev⟩ := calls listed other
      by_cases accepts : (σ₁.node j).Accepts call.req
      · obtain ⟨σ₂, second, h₂⟩ := h₁.accepted fixed sent (by omega) accepts
        exact ⟨σ₂, first.trans second, h₂⟩
      · have further : 1 ≤ x := by
          by_contra last
          exact accepts (h₁.leading.accepts_first fixed listed sent (by omega))
        obtain ⟨σ₂, second, h₂, found₂⟩ := h₁.refused fixed sent found₁ further high accepts
        obtain ⟨σ₃, third, h₃⟩ := ih h₂ found₂ further (by omega)
        exact ⟨σ₃, (first.trans second).trans third, h₃⟩

theorem Spreading.all (fixed : Fixed S) (h : Spreading S base l k e todo σ) :
    ∃ σ', Leads (exec S) Free σ σ' ∧ Spreading S base l k e [] σ' := by
  induction todo generalizing σ with
  | nil => exact ⟨σ, .refl σ, h⟩
  | cons j todo ih =>
      obtain ⟨σ₁, first, h₁⟩ := h.catchUp fixed
      obtain ⟨σ₂, second, h₂⟩ := ih h₁
      exact ⟨σ₂, first.trans second, h₂⟩

end Spreading

/-- All nodes end with the entry, and those of the list have still to hear that it is
committed. -/
structure Telling (S : Setup) (base : List Event) (l : String) (k : Nat) (e : Entry)
    (todo : List String) (σ : Sys) : Prop where
  leading : Leading S base l k e σ
  caught : ∀ j ∈ S.ids, j ≠ l → Caught l k e j σ
  committed : (σ.node l).commitIndex = k
  left : ∀ j ∈ todo, j ∈ S.ids ∧ j ≠ l
  told : ∀ j ∈ S.ids, j ∉ todo → (σ.node j).commitIndex = k

section Telling

variable {S : Setup} {base : List Event} {σ σ' : Sys} {l j : String} {k : Nat} {e : Entry}
  {todo : List String}

theorem Spreading.telling (fixed : Fixed S) (h : Spreading S base l k e [] σ) :
    Telling S base l k e (S.ids.erase l) σ := by
  have committed := h.committed rfl
  refine ⟨h.leading, fun j mem apart => h.done j mem apart List.not_mem_nil, committed,
    fun j mem => ?_, fun j mem asked => ?_⟩
  · exact ((fixed.consistent.ids_nodup.mem_erase_iff).mp mem).symm
  · obtain rfl : j = l := by
      by_contra apart
      exact asked ((List.mem_erase_of_ne apart).mpr mem)
    exact committed

/-- The next node on the list accepts a request without entries, and commits. -/
theorem Telling.round (fixed : Fixed S) (h : Telling S base l k e (j :: todo) σ) :
    ∃ σ', Leads (exec S) Free σ σ' ∧ Telling S base l k e todo σ' := by
  obtain ⟨listed, other⟩ := h.left j List.mem_cons_self
  obtain ⟨next, σ₁, first, leading₁, rest₁, node₁, kept, calls⟩ := h.leading.beat fixed
  obtain ⟨call, sent, prev⟩ := calls j listed other
  have caught₁ (i : String) (mem : i ∈ S.ids) (apart : i ≠ l) : Caught l k e i σ₁ := by
    have caught := h.caught i mem apart
    refine caught.transfer (congrArg Proc.node (rest₁ i apart)) ?_ (by rw [node₁])
    rw [node₁]
    exact kept i (k + 1) caught.next (Nat.succ_pos k) (Nat.le_refl _)
  have committed₁ : (σ₁.node l).commitIndex = k := by
    rw [node₁]
    exact h.committed
  have last : call.req.prevLogIndex = k := by
    rw [prev, Node.nextFor_eq (h.caught j listed other).next (Nat.succ_pos k) h.leading.length.ge]
    exact Nat.add_sub_cancel k 1
  have entry := (caught₁ j listed other).entry
  have accepts : (σ₁.node j).Accepts call.req := by
    obtain ⟨d, found, term⟩ := sent.snapshot.prev
    rw [last] at found
    obtain rfl := Option.some.inj (leading₁.entry.symm.trans found)
    exact ⟨leading₁.current listed sent, e, by rw [last]; exact entry, term⟩
  obtain ⟨σ₂, second, leading₂, rest₂, _, length, entry₂, least⟩ :=
    leading₁.accepted fixed listed other sent accepts (.inr entry)
  have node₂ : σ₂.node l = σ₁.node l := congrArg Proc.node (rest₂ l other.symm)
  refine ⟨σ₂, first.trans second, leading₂, fun i mem apart => ?_, node₂ ▸ committed₁,
    fun i mem => h.left i (List.mem_cons_of_mem j mem), fun i mem untold => ?_⟩
  · have caught := caught₁ i mem apart
    by_cases self : i = j
    · subst self
      exact ⟨node₂ ▸ caught.next, node₂ ▸ caught.stored, length, entry₂⟩
    · exact caught.transfer (congrArg Proc.node (rest₂ i self)) (node₂ ▸ caught.next)
        (by rw [node₂])
  · by_cases self : i = j
    · subst self
      exact Nat.le_antisymm (leading₂.paces i mem).most (committed₁ ▸ least)
    · by_cases leader : i = l
      · subst leader
        exact node₂ ▸ committed₁
      · have before := h.told i mem fun asked => by
          cases List.mem_cons.mp asked with
          | inl first => exact self first
          | inr later => exact untold later
        rw [Sys.node, rest₂ i self, rest₁ i leader]
        exact before

theorem Telling.all (fixed : Fixed S) (h : Telling S base l k e todo σ) :
    ∃ σ', Leads (exec S) Free σ σ' ∧ Telling S base l k e [] σ' := by
  induction todo generalizing σ with
  | nil => exact ⟨σ, .refl σ, h⟩
  | cons j todo ih =>
      obtain ⟨σ₁, first, h₁⟩ := h.round fixed
      obtain ⟨σ₂, second, h₂⟩ := ih h₁
      exact ⟨σ₂, first.trans second, h₂⟩

/-- With all nodes at the commit index, all have applied the entry, and the `Propose` call has
its notification. -/
theorem Telling.returns (fixed : Fixed S) (h : Telling S base l k e [] σ) :
    ∃ σ', Leads (exec S) Free σ σ' ∧ Since base σ'.events (.proposeNil l k e) ∧
      ∀ i ∈ S.ids, Since base σ'.events (.applyBegin i k e) := by
  have member := h.leading.newest.member
  obtain ⟨channel, waits, _, notified⟩ := h.leading.awaits
  have ready : channel ∈ (σ.procs l).ready :=
    notified ((h.leading.paces l member).even h.committed)
  obtain ⟨x, waiting⟩ := List.getElem?_of_mem waits
  let o : Out := {
    proc := { σ.procs l with
      waiting := (σ.procs l).waiting.eraseIdx x
      ready := (σ.procs l).ready.erase channel }
    events := [.proposeNil (σ.node l).id k e] }
  have woken : (σ.procs l).wake x = .ok o := by
    unfold Proc.wake
    rw [waiting]
    exact if_pos ready
  have step : exec S σ (.wake l x) = .ok (σ.put l σ.net o) := exec_of_act rfl member woken
  have later : σ.events <:+ (σ.put l σ.net o).events := List.suffix_append _ _
  refine ⟨_, .single trivial step, ?_, fun i mem => ?_⟩
  · obtain ⟨new, grown⟩ := h.leading.since
    rw [← (h.leading.newest.reached.placed fixed member).id]
    refine ⟨.proposeNil (σ.node l).id k e :: new, ?_, List.mem_cons_self⟩
    rw [List.cons_append, grown]
    rfl
  · have paces := h.leading.paces i mem
    exact (paces.seen (paces.even (h.told i mem List.not_mem_nil))).later later

end Telling

section Start

variable {S : Setup} {past : List (Sys × Action)} {σ : Sys} {l : String}

theorem Proc.propose_runs {p : Proc} (leads : p.node.role = .leader)
    (peers : p.node.peerAddrsLocked ≠ []) (cmd : Command) :
    ∃ next, ∃ calls : List (Call AppendEntriesRequest), p.propose cmd = .ok {
        proc := { p.proposed cmd with node := { (p.proposed cmd).node with nextIndex := next } }
        sent := calls.map .appendCall } ∧
      ∀ id x, p.node.nextIndex.lookup id = some x → 1 ≤ x → x ≤ p.node.log.length →
        next.lookup id = some x := by
  obtain ⟨next, calls, sent, kept, _⟩ := Node.replicateLocked_runs
    (n := (p.node.appendProposal cmd).1) leads (List.append_ne_nil_of_right_ne_nil _ (by simp))
  refine ⟨next, calls, ?_, fun id x found low high => kept id x found low ?_⟩
  · unfold Proc.propose
    rw [if_neg (not_not.mpr leads)]
    exact (if_neg peers).trans (Go.bind_eq_ok.mpr ⟨_, sent, rfl⟩)
  · exact high.trans (by simp [Node.appendProposal])

/-- A heartbeat leaves the leader with a `nextIndex` inside its log for every other node. -/
theorem Newest.numbers (fixed : Fixed S) (h : Newest S l σ) :
    ∃ next σ', Leads (exec S) Free σ σ' ∧ Newest S l σ' ∧ σ'.events = σ.events ∧
      (∀ i, i ≠ l → σ'.procs i = σ.procs i) ∧
      σ'.node l = { σ.node l with nextIndex := next } ∧
      ∀ j ∈ S.ids, j ≠ l →
        ∃ x, next.lookup j = some x ∧ 1 ≤ x ∧ x ≤ (σ.node l).log.length := by
  obtain ⟨next, calls, first, beats⟩ := leads_heartbeat fixed h.reached h.member h.leads
  let σ₁ := σ.put l σ.net { proc := { σ.procs l with node := { σ.node l with nextIndex := next } }
                            sent := calls.map .appendCall }
  have node : σ₁.node l = { σ.node l with nextIndex := next } :=
    congrArg Proc.node (Sys.put_procs_self _ _ _ _)
  have rest (i : String) (apart : i ≠ l) : σ₁.procs i = σ.procs i :=
    Sys.put_procs_of_ne _ _ _ apart
  refine ⟨next, σ₁, free_of_unled first, ⟨h.reached.leads first, h.member, node ▸ h.leads,
    fun j listed => ?_⟩, rfl, rest, node, fun j listed other => ?_⟩
  · rw [node]
    by_cases self : j = l
    · rw [self, node]
    · rw [Sys.node, rest j self]
      exact h.newest j listed
  · have nonempty := (h.reached.placed fixed h.member).nonempty
    exact ⟨_, (beats.each j listed other).1, Node.nextFor_pos nonempty j, Node.nextFor_le _ j⟩

/-- A leader of the newest term stores the command behind everything that is committed. -/
theorem Newest.proposes (fixed : Fixed S) (two : 2 ≤ S.ids.length) (h : Newest S l σ)
    (bounds : ∀ i ∈ S.ids, (σ.node i).CommitBounds)
    (ahead : ∀ i ∈ S.ids, (σ.node i).commitIndex < (σ.node l).log.length) (cmd : Command)
    (numbered : ∀ j ∈ S.ids, j ≠ l →
      ∃ x, (σ.node l).nextIndex.lookup j = some x ∧ 1 ≤ x ∧ x ≤ (σ.node l).log.length) :
    ∃ σ' k e, e.command = cmd ∧ Leads (exec S) Free σ σ' ∧
      Spreading S σ.events l k e (S.ids.erase l) σ' := by
  have others : S.ids.erase l ≠ [] := List.ne_nil_of_length_pos (by
    rw [List.length_erase_of_mem h.member]
    omega)
  have other {j : String} (mem : j ∈ S.ids.erase l) : j ∈ S.ids ∧ j ≠ l :=
    ((fixed.consistent.ids_nodup.mem_erase_iff).mp mem).symm
  have peers : (σ.node l).peerAddrsLocked ≠ [] := by
    obtain ⟨j, mem⟩ := List.exists_mem_of_ne_nil _ others
    have placed := h.reached.placed fixed h.member
    exact List.ne_nil_of_mem ((placed.mem_peers fixed h.member (p := (j, S.addrOf j))).mpr
      ⟨(other mem).1, (other mem).2, rfl⟩)
  obtain ⟨next, calls, proposed, kept⟩ := Proc.propose_runs (p := σ.procs l) h.leads peers cmd
  let k := (σ.node l).log.length
  let e : Entry := ⟨(σ.node l).currentTerm, k, cmd⟩
  let p := (σ.procs l).proposed cmd
  let o : Out := { proc := { p with node := { p.node with nextIndex := next } }
                   sent := calls.map .appendCall }
  have go : Leads (exec S) Free σ (σ.put l σ.net o) :=
    .single trivial (exec_of_act (a := .propose l cmd) rfl h.member proposed)
  have now : (σ.put l σ.net o).procs l = o.proc := Sys.put_procs_self _ _ _ _
  have rest (i : String) (apart : i ≠ l) : (σ.put l σ.net o).procs i = σ.procs i :=
    Sys.put_procs_of_ne _ _ _ apart
  have node : (σ.put l σ.net o).node l = o.proc.node := congrArg Proc.node now
  have log : o.proc.node.log = (σ.node l).log ++ [e] := rfl
  have newest : Newest S l (σ.put l σ.net o) := by
    refine ⟨h.reached.leads go, h.member, node ▸ h.leads, fun j listed => ?_⟩
    rw [node]
    by_cases self : j = l
    · rw [self, node]
    · rw [Sys.node, rest j self]
      exact h.newest j listed
  have awaits : o.proc.Awaits k e := by
    refine ⟨(σ.node l).channels, List.mem_append_right _ (List.mem_singleton_self _),
      fun _ => ⟨⟨cmd, (σ.node l).channels⟩, AList.lookup_insert _, rfl⟩, fun (same : _ = k) => ?_⟩
    have := (bounds l h.member).applied
    have := ahead l h.member
    change (σ.node l).lastApplied = k at same
    omega
  have paces (i : String) (listed : i ∈ S.ids) :
      ((σ.put l σ.net o).node i).Paces σ.events σ.events i k e := by
    have applied := (bounds i listed).applied
    have below : (σ.node i).commitIndex < k := ahead i listed
    have before : (σ.node i).Paces σ.events σ.events i k e :=
      ⟨bounds i listed, below.le, fun same => by omega, fun same => by omega⟩
    by_cases self : i = l
    · subst self
      rw [node]
      refine before.congr (List.suffix_refl _) rfl rfl ?_
      rw [log, List.length_append]
      exact Nat.lt_succ_of_lt below
    · rw [Sys.node, rest i self]
      exact before
  refine ⟨_, k, e, rfl, go, ⟨newest, ?_, ?_, ?_, now ▸ awaits, List.suffix_refl _, paces⟩,
    fixed.consistent.ids_nodup.erase l, fun j mem => ?_, fun j listed apart done => ?_,
    fun none => absurd none others⟩
  · rw [node, log, List.length_append]
    rfl
  · rw [node, log]
    exact List.getElem?_concat_length
  · rw [node]
    rfl
  · obtain ⟨x, found, low, high⟩ := numbered j (other mem).1 (other mem).2
    refine ⟨(other mem).1, (other mem).2, x, ?_, low, high⟩
    rw [node]
    exact kept j x found low high
  · exact absurd ((List.mem_erase_of_ne apart).mpr listed) done

end Start

section Counters

variable {S : Setup} {past : List (Sys × Action)} {σ σ' : Sys}

theorem mem_delivered {a : Action} {d : String × Call AppendEntriesRequest}
    (h : d ∈ delivered S σ a) :
    .appendCall d.2 ∈ σ.net ∧ S.target σ (.appendCall d.2) = some d.1 := by
  unfold delivered at h
  split at h
  · split at h
    · rename_i call found
      obtain ⟨i, target, rfl⟩ := Option.map_eq_some_iff.mp h
      exact ⟨List.mem_of_getElem? found, target⟩
    · cases h
  · cases h

/-- Where accepted requests have kept what is stored, such a request reaches the commit index. -/
theorem Run.reachesCommit (fixed : Fixed S) (three : 3 ≤ S.ids.length) (run : Run S past σ)
    (meets : Meets (OnDelivery S fun p => p.node.KeepsStored) past) {a : Action}
    (stored : OnDelivery S (fun p => p.node.KeepsStored) σ a) :
    OnDelivery S (fun p => p.node.ReachesCommit) σ a := by
  obtain ⟨g, reach, refines, settled⟩ := Refinement.settled_run fixed three run meets
  rintro ⟨i, call⟩ given current accepts
  obtain ⟨sent, target⟩ := mem_delivered given
  have ok : Refinement.AppendCallOK S g call := refines.msgs _ sent
  obtain ⟨_, listed⟩ := refines.handled fixed.consistent (refines.msgs _ sent) target
  have setting := refines.setting fixed reach listed
  obtain ⟨_, part⟩ := ok.store_log setting.matched setting.indexed setting.node accepts
  have before := settled σ (Transition.mem_visited_self past σ) i listed
  have after := before.store (Consensus.complete_reachable Refinement.zero_sentinel reach)
    setting.matched ok.leads current part
    (Refinement.KeepsOnAccept.of_keepsStored (stored _ given current) accepts)
  have below := after.below
  rw [Node.length_storeEntries accepts.lt] at below
  change (σ.node i).commitIndex ≤ _
  omega

/-- Then the counters of every node are in order. -/
theorem Run.counters (fixed : Fixed S) (three : 3 ≤ S.ids.length) (run : Run S past σ)
    (meets : Meets (OnDelivery S fun p => p.node.KeepsStored) past) (i : String) :
    (σ.node i).CommitBounds := by
  have reaches : Meets (OnDelivery S fun p => p.node.ReachesCommit) past := by
    refine Transition.Run.induct (C := OnDelivery S fun p => p.node.KeepsStored)
      (I := fun past _ => Meets (OnDelivery S fun p => p.node.ReachesCommit) past) ?_ ?_ run meets
    · exact fun _ _ _ mem => absurd mem List.not_mem_nil
    · intro past σ a σ' run meets before stored _
      exact (Transition.meets_cons _ _ _ _).mpr ⟨Run.reachesCommit fixed three run meets stored,
        before⟩
  exact commitBounds_visited run reaches i σ (Transition.mem_visited_self past σ)

/-- Nobody has committed more than a leader of the newest term has stored. -/
theorem Newest.ahead (fixed : Fixed S) (three : 3 ≤ S.ids.length) (run : Run S past σ)
    (meets : Meets (OnDelivery S fun p => p.node.KeepsStored) past) {l i : String}
    (h : Newest S l σ) (listed : i ∈ S.ids) :
    (σ.node i).commitIndex < (σ.node l).log.length := by
  obtain ⟨g, reach, refines, settled⟩ := Refinement.settled_run fixed three run meets
  obtain ⟨leader, lead, _⟩ := (refines.nodes l h.member).leads h.leads
  have before := settled σ (Transition.mem_visited_self past σ) i listed
  have inLead := before.covered.prefix_lead
    (Consensus.complete_reachable Refinement.zero_sentinel reach)
    (Consensus.matched_reachable Refinement.zero_sentinel reach) (h.newest i listed) leader
  rw [lead] at inLead
  have shorter := inLead.length_le
  rw [List.length_take_of_le before.below] at shorter
  exact shorter

theorem exec_events {a : Action} (step : exec S σ a = .ok σ') : σ.events <:+ σ'.events := by
  rcases exec_cases step with ⟨_, rfl⟩ | ⟨_, _, _, o, _, _, _, _, rfl⟩ | ⟨_, o, _, _, _, rfl⟩
  · exact List.suffix_refl _
  · exact List.suffix_append o.events σ.events
  · exact List.suffix_append o.events σ.events

theorem leads_events {C : Sys → Action → Prop} (h : Leads (exec S) C σ σ') :
    σ.events <:+ σ'.events := by
  obtain ⟨more, run, meets⟩ := h
  exact Transition.Run.invariant_from (I := fun u => σ.events <:+ u.events) (List.suffix_refl _)
    (fun _ _ _ before _ step => before.trans (exec_events step)) run meets

end Counters

/-- A command can always get through. From every state of a fixed deployment that is reached
without losing stored entries, whatever has been lost or is under way and whoever leads, the
deployment can go on so that a leader takes the command, every node applies it at one index,
and the `Propose` call that brought it returns nil. -/
theorem command_gets_through {S : Setup} {past : List (Sys × Action)} {σ : Sys} (fixed : Fixed S)
    (three : 3 ≤ S.ids.length) (run : Run S past σ)
    (meets : Meets (OnDelivery S fun p => p.node.KeepsStored) past) (cmd : Command) :
    ∃ more σ', Run S (more ++ past) σ' ∧ ∃ l ∈ S.ids, ∃ k e, e.command = cmd ∧
      Since σ.events σ'.events (.proposeNil l k e) ∧
      ∀ i ∈ S.ids, Since σ.events σ'.events (.applyBegin i k e) := by
  obtain ⟨σ₁, l, first, newest⟩ := leads_newest fixed ⟨past, run⟩
  obtain ⟨more, run₁, unled⟩ := first.extends run
  have meets₁ : Meets (OnDelivery S fun p => p.node.KeepsStored) (more ++ past) := by
    intro x mem
    cases List.mem_append.mp mem with
    | inl new => exact fun d given current => (unled x new d given current).elim
    | inr old => exact meets x old
  -- A heartbeat changes neither the logs nor the counters.
  obtain ⟨next, σ₂, second, newest₂, events, rest, node, numbered⟩ := newest.numbers fixed
  have bounds (i : String) (_ : i ∈ S.ids) : (σ₂.node i).CommitBounds := by
    have before := Run.counters fixed three run₁ meets₁ i
    by_cases self : i = l
    · subst self
      rw [node]
      exact ⟨before.applied, before.stored⟩
    · rw [Sys.node, rest i self]
      exact before
  have ahead (i : String) (listed : i ∈ S.ids) :
      (σ₂.node i).commitIndex < (σ₂.node l).log.length := by
    have before := newest.ahead fixed three run₁ meets₁ listed
    rw [node]
    by_cases self : i = l
    · subst self
      rw [node]
      exact before
    · rw [Sys.node, rest i self]
      exact before
  obtain ⟨σ₃, k, e, same, third, spreading⟩ :=
    newest₂.proposes fixed (by omega) bounds ahead cmd (node ▸ numbered)
  obtain ⟨σ₄, fourth, spread⟩ := spreading.all fixed
  obtain ⟨σ₅, fifth, told⟩ := (spread.telling fixed).all fixed
  obtain ⟨σ₆, sixth, returned, applied⟩ := told.returns fixed
  have go := (free_of_unled first).trans
    (second.trans (third.trans (fourth.trans (fifth.trans sixth))))
  obtain ⟨all, run', _⟩ := go.extends run
  have since : σ.events <:+ σ₂.events := events ▸ leads_events first
  exact ⟨all, σ₆, run', l, newest.member, k, e, same, returned.earlier since,
    fun i listed => (applied i listed).earlier since⟩

/-- Node a leads term 1 with an entry that nobody else has, and b and c both stand for a newer
term. -/
theorem command_gets_through_split : ∃ past σ, Run trio past σ ∧
    (σ.node "a").role = .leader ∧ (σ.node "a").log.length = 2 ∧
    (σ.node "b").role = .candidate ∧ (σ.node "c").role = .candidate ∧
    (σ.node "a").currentTerm < (σ.node "b").currentTerm ∧
    ∃ more σ', Run trio (more ++ past) σ' ∧ ∃ l ∈ trio.ids, ∃ k e,
      e.command = join "d" "d:1" ∧ Since σ.events σ'.events (.proposeNil l k e) ∧
      ∀ i ∈ trio.ids, Since σ.events σ'.events (.applyBegin i k e) := by
  obtain ⟨past, σ, run, check⟩ := Run.of_actions trio
    (electA ++ [.propose "a" { type := .noop }, .timeout "b", .timeout "c"])
    (fun past σ => decide (Meets (OnDelivery trio fun p => p.node.KeepsStored) past ∧
      (σ.node "a").role = .leader ∧ (σ.node "a").log.length = 2 ∧
      (σ.node "b").role = .candidate ∧ (σ.node "c").role = .candidate ∧
      (σ.node "a").currentTerm < (σ.node "b").currentTerm)) (by decide +kernel)
  obtain ⟨meets, leads, stored, stands, stands', newer⟩ := of_decide_eq_true check
  exact ⟨past, σ, run, leads, stored, stands, stands', newer,
    command_gets_through trio_fixed (by decide) run meets (join "d" "d:1")⟩

end DistributedCache.Raft
