import DistributedCache.Cache.TtlMap
import DistributedCache.Replication.Steps

/-!
What every call keeps, whatever the other calls, the peers and the network do: it turns
to each node of the replica set at most once, and every message belongs to a round trip
of a call with one of these nodes.
-/
namespace DistributedCache.Replication

open Cluster (Node)

theorem nodup_of_subperm {α : Type*} {l l' : List α} (part : l.Subperm l') (nodup : l'.Nodup) :
    l.Nodup := by
  obtain ⟨m, perm, sub⟩ := part
  exact perm.nodup_iff.mp (nodup.sublist sub)

namespace Setup

variable {w : Setup} {self key : String}

/-- The ids of the replica set of a key. -/
def owners (w : Setup) (key : String) : List String :=
  match w.replicaSet key with
  | .ok nodes => nodes.map Node.id
  | .error _ => []

theorem owners_of_ok {nodes : List Node} (h : w.replicaSet key = .ok nodes) :
    w.owners key = nodes.map Node.id := by
  rw [owners, h]

theorem isInReplicaSet_iff : w.isInReplicaSet self key = true ↔ self ∈ w.owners key := by
  cases on : w.cfg.enabled with
  | true =>
      rw [isInReplicaSet, on, if_pos rfl, owners]
      cases w.replicaSet key with
      | ok nodes => simp
      | error err => simp
  | false =>
      rw [isInReplicaSet, on, if_neg Bool.false_ne_true, owners, replicaSet, on,
        if_neg Bool.false_ne_true, isPrimary]
      cases w.ring.owner key with
      | some owner => exact (decide_eq_true_iff.trans eq_comm).trans List.mem_singleton.symm
      | none => simp

theorem replicaSet_ne_error (member : self ∈ w.owners key) (err : Cluster.LookupError) :
    w.replicaSet key ≠ .error err := by
  intro failed
  rw [owners, failed] at member
  cases member

theorem nodup_owners (sound : w.ring.Sound) (key : String) : (w.owners key).Nodup := by
  rw [owners]
  split
  · rename_i nodes h
    rw [replicaSet] at h
    split at h
    · exact Cluster.Ring.nodup_lookupN sound h
    · split at h
      · cases h
        exact List.nodup_singleton _
      · cases h
  · exact List.nodup_nil

theorem length_owners_le (on : w.cfg.enabled = true) (key : String) :
    ((w.owners key).length : Int) ≤ w.cfg.replicationFactor := by
  have factor : w.cfg.replicationFactor > 1 := of_decide_eq_true on
  rw [owners]
  split
  · rename_i nodes h
    rw [replicaSet, if_pos on] at h
    rw [List.length_map]
    exact Cluster.Ring.length_lookupN_le h
  · rw [List.length_nil]
    omega

theorem mem_owners_of_isPrimary (primary : w.isPrimary self key = true) :
    self ∈ w.owners key := by
  rw [isPrimary] at primary
  split at primary
  · rename_i owner owns
    obtain rfl : owner.id = self := of_decide_eq_true primary
    rw [owners, replicaSet]
    cases on : w.cfg.enabled with
    | true =>
        have factor : w.cfg.replicationFactor > 1 := of_decide_eq_true on
        obtain ⟨rest, found⟩ := Cluster.Ring.lookupN_of_owner owns (by omega :
          0 < w.cfg.replicationFactor)
        rw [if_pos rfl, found]
        exact List.mem_cons_self
    | false =>
        rw [if_neg Bool.false_ne_true, owns]
        exact List.mem_cons_self
  · cases primary

/-- The owner of a key does not refuse a call. -/
theorem not_refused {op : Op}
    (why : (w.isPrimary self op.key = false ∧
        ((∀ key, op ≠ .read key) ∨ w.cfg.readConsistency = .primary)) ∨
      w.isInReplicaSet self op.key = false ∨ ∃ failed, w.replicaSet op.key = .error failed)
    (primary : w.isPrimary self op.key = true) : False := by
  have member := mem_owners_of_isPrimary primary
  rcases why with ⟨other, _⟩ | outside | ⟨err, failed⟩
  · cases other.symm.trans primary
  · cases outside.symm.trans (isInReplicaSet_iff.mpr member)
  · exact replicaSet_ne_error member err failed

end Setup

/-- A `WriteSet` at the owner of the key starts with its local `Set`. -/
theorem Started.set_cases {w : Setup} {now : Int} {p p' : Proc} {self k : String} {call : Call}
    {value : List UInt8} {ttl : Int} (h : Started w now p self (.set k value ttl) p' call)
    (primary : w.isPrimary self k = true) (ok : (p.store.set now k value ttl).2 = none) :
    p' = p.set now k value ttl ∧
      (call = .begin self (.set k value ttl) (.returned .stored) ∨
        ∃ nodes, call = .begin self (.set k value ttl) (.visiting nodes)) := by
  cases h with
  | refused why => exact (Setup.not_refused why primary).elim
  | setFailed _ failed => cases ok.symm.trans failed
  | lookupFailed failed =>
      have member := Setup.mem_owners_of_isPrimary primary
      exact absurd failed (Setup.replicaSet_ne_error member _)
  | setAlone => exact ⟨rfl, .inl rfl⟩
  | set => exact ⟨rfl, .inr ⟨_, rfl⟩⟩

namespace Call

variable {w : Setup} {now : Int} {p p' : Proc} {c : Nat} {call call' : Call} {a : Action}
  {out : List (String × Request)}

/-- The nodes the call is to turn to. -/
def aims (w : Setup) (call : Call) (id : String) : Bool :=
  call.polls w || id ≠ call.node

def targets (w : Setup) (call : Call) : List String :=
  (w.owners call.op.key).filter (call.aims w)

/-- The nodes whose answer is still out. -/
def pending (call : Call) : List String :=
  (call.running.filter fun r => r.2 = call.request).map Prod.fst

/-- The nodes that the loop has still to come to. -/
def ahead (w : Setup) (call : Call) : List String :=
  match call.phase with
  | .visiting rest => (rest.map Node.id).filter (call.aims w)
  | _ => []

/-- All nodes that have answered or may still do so. -/
def ids (w : Setup) (call : Call) : List String :=
  call.results.map Prod.fst ++ (call.pending ++ call.ahead w)

/-- The call turns to no node twice, takes something back only from nodes it has turned
to, and has its acknowledgements when it returns without an error. -/
structure Spread (w : Setup) (call : Call) : Prop where
  ids : (call.ids w).Subperm (call.targets w)
  undoing : ∀ rest, call.phase = .undoing rest →
    (∀ key, call.op ≠ .read key) ∧ ∀ id ∈ rest, id ∈ call.targets w
  running : ∀ r ∈ call.running,
    r.1 ∈ call.targets w ∧ (r.2 = call.request ∨ r.2 = call.takesBack)
  stored : (∀ key, call.op ≠ .read key) → call.phase = .returned .stored →
    w.required ≤ call.results.length ∧ call.running = []

/-- The same call, at another point. -/
structure Same (call call' : Call) : Prop where
  node : call'.node = call.node
  op : call'.op = call.op
  existing : call'.existing = call.existing

theorem Same.refl (call : Call) : call.Same call :=
  ⟨rfl, rfl, rfl⟩

theorem Same.trans {call'' : Call} (h : call.Same call') (h' : call'.Same call'') :
    call.Same call'' :=
  ⟨h'.node.trans h.node, h'.op.trans h.op, h'.existing.trans h.existing⟩

theorem Moves.same (m : call.Moves w now p c a p' call' out) : call.Same call' := by
  cases m <;> exact ⟨rfl, rfl, rfl⟩

theorem Same.targets (h : call.Same call') : call'.targets w = call.targets w := by
  have aims : call'.aims w = call.aims w := by
    funext id
    simp only [Call.aims, polls, h.node, h.op]
  rw [Call.targets, Call.targets, aims, h.op]

theorem Same.request (h : call.Same call') : call'.request = call.request := by
  simp only [Call.request, h.op]

theorem Same.takesBack (h : call.Same call') : call'.takesBack = call.takesBack := by
  simp only [Call.takesBack, h.op, h.existing]

theorem Same.polls (h : call.Same call') : call'.polls w = call.polls w := by
  simp only [Call.polls, h.op]

theorem takesBack_ne_request (writes : ∀ key, call.op ≠ .read key) :
    call.takesBack ≠ call.request := by
  unfold takesBack request
  cases op : call.op with
  | set key value ttl => simp
  | delete key => simp
  | read key => exact absurd op (writes key)

/-- What is taken back is not waited for as an answer. -/
theorem pending_undo (writes : ∀ key, call.op ≠ .read key) {id : String} {rest : List String} :
    Call.pending { call with phase := .undoing rest, running := [(id, call.takesBack)] } = [] := by
  change ([(id, call.takesBack)].filter fun r => decide (r.2 = call.request)).map _ = _
  rw [List.filter_cons_of_neg (by simpa using takesBack_ne_request writes)]
  rfl

/-- The node of a round trip that comes back leaves the pending ones. -/
theorem pending_ended {peer : String} (waits : (peer, call.request) ∈ call.running) :
    call.pending.Perm (peer :: (call.ended peer call.request).pending) := by
  have perm := ((List.perm_cons_erase waits).filter fun r => decide (r.2 = call.request)).map
    Prod.fst
  rw [List.filter_cons_of_pos (by simp), List.map_cons] at perm
  exact perm

theorem pending_ended_sublist (call : Call) (peer : String) (req : Request) :
    (call.ended peer req).pending.Sublist call.pending :=
  (List.erase_sublist.filter _).map _

theorem aims_of_wanted {node : Node} (wanted : call.skips w p node = false) :
    call.aims w node.id = true := by
  have split := (Bool.or_eq_false_iff.mp wanted).1
  unfold aims
  cases polls : call.polls w with
  | true => rfl
  | false =>
      rw [polls] at split
      simpa using split

/-- Turning to a node takes it from the ones ahead to the pending ones. -/
theorem ids_contact {node : Node} {rest : List Node}
    (phase : call.phase = .visiting (node :: rest)) (wanted : call.skips w p node = false) :
    Call.ids w { call with
      phase := .visiting rest
      running := call.running ++ [(node.id, call.request)] } = call.ids w := by
  have pending : Call.pending { call with
      phase := .visiting rest
      running := call.running ++ [(node.id, call.request)] } = call.pending ++ [node.id] := by
    change ((call.running ++ [(node.id, call.request)]).filter
      fun r => decide (r.2 = call.request)).map Prod.fst = _
    rw [List.filter_append, List.map_append, List.filter_cons_of_pos (by simp)]
    rfl
  have ahead : call.ahead w = node.id :: (rest.map Node.id).filter (call.aims w) := by
    rw [Call.ahead, phase]
    exact List.filter_cons_of_pos (aims_of_wanted wanted)
  rw [ids, ids, pending, ahead, List.append_assoc]
  rfl

/-- An answer takes its node from the pending ones to the results. -/
theorem ids_answer {peer : String} {resp : Response}
    (waits : (peer, call.request) ∈ call.running) :
    (call.ids w).Perm (Call.ids w
      { call.ended peer call.request with results := call.results ++ [(peer, resp)] }) := by
  refine ((List.Perm.append_left _ ((pending_ended waits).append_right _))).trans ?_
  refine List.Perm.of_eq ?_
  change _ = (call.results ++ [(peer, resp)]).map Prod.fst ++ (_ ++ _)
  rw [List.map_append, List.append_assoc]
  rfl

theorem Moves.ids_subperm (m : call.Moves w now p c a p' call' out)
    (reads : ∀ rest, call.phase = .undoing rest → ∀ key, call.op ≠ .read key) :
    (call'.ids w).Subperm (call.ids w) := by
  have returned (result : Result) : ((call.returns result).ids w).Subperm (call.ids w) :=
    (List.Sublist.append_left (List.Sublist.append_left (List.nil_sublist _) _) _).subperm
  cases m with
  | skip phase skips =>
      refine (List.Sublist.append_left (List.Sublist.append_left ?_ _) _).subperm
      unfold ahead
      rw [phase]
      exact (List.sublist_cons_self _ _).filter _
  | contact phase wanted => exact (List.Perm.of_eq (ids_contact phase wanted)).subperm
  | stored | deleted | answered | exhausted | undoneSet | undone | cancelSet | cancelRead =>
      exact returned _
  | short op phase idle few =>
      exact (List.Sublist.append_left (List.Sublist.append_left (List.nil_sublist _) _) _).subperm
  | undo phase idle =>
      refine (List.Sublist.append_left ?_ _).subperm
      rw [pending_undo (reads _ phase)]
      exact List.nil_sublist _
  | answer waits ends => exact (ids_answer waits).symm.subperm
  | fetched op polls waits ends =>
      refine (List.Sublist.append_left ?_ _).subperm
      exact (pending_ended_sublist call _ _).append (List.nil_sublist _)
  | refuse waits ends =>
      refine (List.Sublist.append_left ?_ _).subperm
      exact (pending_ended_sublist call _ _).append_right _
  | settle waits undoes ends =>
      refine (List.Sublist.append_left ?_ _).subperm
      exact (pending_ended_sublist call _ _).append_right _
  | getLocal op polls waits => exact (ids_answer waits).symm.subperm

/-- Only reads ask their own node. -/
theorem ne_node_of_aims {id : String} (writes : ∀ key, call.op ≠ .read key)
    (aims : call.aims w id = true) : id ≠ call.node := by
  cases polls : call.polls w with
  | true =>
      obtain ⟨key, op⟩ := call.read_of_polls polls
      exact absurd op (writes key)
  | false =>
      rw [Call.aims, polls] at aims
      simpa using aims

theorem ne_node_of_mem_targets {id : String} (writes : ∀ key, call.op ≠ .read key)
    (mem : id ∈ call.targets w) : id ≠ call.node :=
  ne_node_of_aims writes (List.mem_filter.mp mem).2

theorem Spread.mem_targets {id : String} (h : call.Spread w) (mem : id ∈ call.ids w) :
    id ∈ call.targets w :=
  h.ids.subset mem

theorem Spread.results_subperm (h : call.Spread w) :
    (call.results.map Prod.fst).Subperm (call.targets w) :=
  (List.sublist_append_left _ _).subperm.trans h.ids

theorem Spread.nodup_results (h : call.Spread w) (ring : w.ring.Sound) :
    (call.results.map Prod.fst).Nodup :=
  nodup_of_subperm h.results_subperm ((Setup.nodup_owners ring _).filter _)

theorem Moves.spread (m : call.Moves w now p c a p' call' out) (h : call.Spread w) :
    call'.Spread w := by
  have ids := (m.ids_subperm fun rest phase => (h.undoing rest phase).1).trans h.ids
  have ended (peer : String) (req : Request) (r : String × Request)
      (mem : r ∈ call.running.erase (peer, req)) :
      r.1 ∈ call.targets w ∧ (r.2 = call.request ∨ r.2 = call.takesBack) :=
    h.running r (List.mem_of_mem_erase mem)
  have waiting {r : String × Request} (waits : r ∈ call.running)
      (writes : ∀ key, call.op ≠ .read key) : call.phase ≠ .returned .stored := by
    intro stored
    rw [(h.stored writes stored).2] at waits
    cases waits
  cases m with
  | skip phase skips => exact ⟨ids, nofun, h.running, nofun⟩
  | @contact node rest phase wanted =>
      refine ⟨ids, nofun, fun r mem => ?_, nofun⟩
      cases List.mem_append.mp mem with
      | inl old => exact h.running r old
      | inr new =>
          obtain rfl := List.mem_singleton.mp new
          refine ⟨h.mem_targets ?_, .inl rfl⟩
          rw [Call.ids, ahead, phase]
          refine List.mem_append_right _ (List.mem_append_right _ ?_)
          exact List.mem_filter.mpr ⟨List.mem_cons_self, aims_of_wanted wanted⟩
  | stored op phase idle enough => exact ⟨ids, nofun, h.running, fun _ _ => ⟨enough, idle⟩⟩
  | deleted op phase idle enough | exhausted op polls phase idle | undoneSet op phase idle
  | undone op phase idle | cancelSet op phase | cancelRead op polls phase =>
      exact ⟨ids, nofun, h.running, nofun⟩
  | answered op polls phase idle =>
      exact ⟨ids, nofun, h.running, fun writes => absurd op (writes _)⟩
  | short op phase idle few =>
      refine ⟨ids, fun rest same => ?_, h.running, nofun⟩
      cases same
      exact ⟨op, fun id mem => h.mem_targets (List.mem_append_left _ mem)⟩
  | undo phase idle =>
      obtain ⟨op, targets⟩ := h.undoing _ phase
      refine ⟨ids, fun rest same => ?_, fun r mem => ?_, nofun⟩
      · cases same
        exact ⟨op, fun id mem => targets id (List.mem_cons_of_mem _ mem)⟩
      · obtain rfl := List.mem_singleton.mp mem
        exact ⟨targets _ List.mem_cons_self, .inr rfl⟩
  | answer waits ends =>
      exact ⟨ids, h.undoing, ended _ _, fun writes stored => absurd stored (waiting waits writes)⟩
  | fetched op polls waits ends => exact ⟨ids, nofun, ended _ _, nofun⟩
  | refuse waits ends =>
      exact ⟨ids, h.undoing, ended _ _, fun writes stored => absurd stored (waiting waits writes)⟩
  | settle waits undoes ends =>
      exact ⟨ids, h.undoing, ended _ _, fun writes stored => absurd stored (waiting waits writes)⟩
  | getLocal op polls waits =>
      exact ⟨ids, h.undoing, ended _ _, fun writes => absurd op (writes _)⟩

/-- What a step sends is a round trip of the call to another node. -/
theorem Moves.out_mem (m : call.Moves w now p c a p' call' out) (h : call.Spread w)
    {r : String × Request} (mem : r ∈ out) : r ∈ call'.running ∧ r.1 ≠ call.node := by
  cases m with
  | @contact node rest phase wanted =>
      split at mem
      · cases mem
      · rename_i other
        obtain rfl := List.mem_singleton.mp mem
        exact ⟨List.mem_append_right _ (List.mem_singleton.mpr rfl), other⟩
  | undo phase idle =>
      obtain ⟨op, targets⟩ := h.undoing _ phase
      obtain rfl := List.mem_singleton.mp mem
      exact ⟨List.mem_singleton.mpr rfl,
        ne_node_of_mem_targets op (targets _ List.mem_cons_self)⟩
  | _ => cases mem

end Call

section Start

variable {w : Setup} {now : Int} {p p' : Proc} {self : String} {op : Op} {call : Call}

theorem Call.Spread.of_returned {result : Result} (unstored : result ≠ .stored) :
    (Call.begin self op (.returned result)).Spread w :=
  ⟨List.nil_subperm, nofun, nofun, fun _ stored => absurd (Phase.returned.inj stored) unstored⟩

theorem Call.Spread.of_visiting {nodes : List Node} {existing : List UInt8}
    (owners : nodes = [] ∨ w.replicaSet op.key = .ok nodes) :
    Call.Spread w { Call.begin self op (.visiting nodes) with existing := existing } := by
  refine ⟨?_, nofun, nofun, nofun⟩
  cases owners with
  | inl none =>
      subst none
      exact List.nil_subperm
  | inr owners =>
      exact (List.Perm.of_eq (congrArg _ (Setup.owners_of_ok owners).symm)).subperm

theorem Started.spread (h : Started w now p self op p' call) : call.Spread w := by
  cases h with
  | refused | setFailed | deleteMissing | lookupFailed | readAny => exact .of_returned nofun
  | setAlone _ _ alone =>
      refine ⟨List.nil_subperm, nofun, nofun, fun _ _ => ⟨?_, rfl⟩⟩
      rw [alone]
      exact Int.le_refl 0
  | @readPrimary key _ =>
      refine .of_returned ?_
      cases (p.store.get now key).2 <;> nofun
  | deleteAlone => exact .of_visiting (.inl rfl)
  | set _ _ _ owners => exact .of_visiting (.inr owners)
  | delete _ _ _ owners => exact .of_visiting (.inr owners)
  | readPeers _ owners => exact .of_visiting (.inr owners)
  | readQuorum _ _ owners => exact .of_visiting (.inr owners)

theorem Started.same (h : Started w now p self op p' call) :
    call.node = self ∧ call.op = op ∧ call.running = [] ∧ call.results = [] := by
  cases h <;> exact ⟨rfl, rfl, rfl, rfl⟩

end Start

end DistributedCache.Replication
