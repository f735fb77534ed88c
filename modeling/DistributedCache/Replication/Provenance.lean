import DistributedCache.Replication.Lone

/-!
Where the values in a cluster come from. Whatever calls run at whatever nodes and
however messages are lost, delayed and reordered, a value under a key was there at the
beginning or was given to a `WriteSet` of that key at its primary, and it is only ever at
nodes of the key's replica set.

Both are instances of one argument: a relation between keys and values that holds of
everything written holds of everything stored, carried and answered.
-/
namespace DistributedCache.Replication

/-- The relation holds of everything in the store. -/
def Proc.All (P : String → List UInt8 → Prop) (p : Proc) : Prop :=
  ∀ k e, p.store.entries.lookup k = some e → P k e.value.value

/-- The relation holds of the value that the request is to store. -/
def Request.All (P : String → List UInt8 → Prop) (req : Request) : Prop :=
  ∀ k v ttl, req = .replSet k v ttl → P k v

def Response.All (P : String → List UInt8 → Prop) (k : String) (resp : Response) : Prop :=
  ∀ v, resp = .value v → P k v

def Msg.All (P : String → List UInt8 → Prop) : Msg → Prop
  | .request _ _ req => req.All P
  | .response _ _ req resp => resp.All P req.key

/-- The relation holds of what the call sends while it runs, of the answers it has got and
of the value it has returned. -/
structure Call.All (P : String → List UInt8 → Prop) (call : Call) : Prop where
  sends : (∀ r, call.phase ≠ .returned r) → call.request.All P ∧ call.takesBack.All P
  results : ∀ r ∈ call.results, r.2.All P call.op.key
  returned : ∀ v, call.phase = .returned (.value v) → P call.op.key v

/-- The relation holds of everything stored, carried and answered. -/
structure Sys.Sourced (P : String → List UInt8 → Prop) (s : Sys) : Prop where
  procs : ∀ i, (s.procs i).All P
  calls : ∀ (c : Nat) (call : Call), s.calls[c]? = some call → call.All P
  net : ∀ msg ∈ s.net, msg.All P

section Stores

variable {P Q : String → List UInt8 → Prop} {p p' : Proc} {now : Int} {k : String}

theorem Proc.All.mono (h : p.All P) (sub : ∀ k v, P k v → Q k v) : p.All Q :=
  fun k e found => sub k _ (h k e found)

theorem Proc.All.congr (h : p.All P) (same : p'.store = p.store) : p'.All P := by
  intro k e found
  rw [same] at found
  exact h k e found

/-- An operation stores nothing but the value of a `Set`. -/
theorem Proc.All.apply (h : p.All P) (sound : p.store.Sound) (op : Cache.Op)
    (given : ∀ k v ttl, op = .set k v ttl → P k v)
    (now' : p'.store = (p.store.apply now op).1) : p'.All P := by
  intro k e found
  rw [now'] at found
  cases writes : op.writes k with
  | true =>
      obtain ⟨ttl, set, _⟩ := Cache.Store.lookup_apply_of_writes sound writes found
      exact given k _ ttl set
  | false => exact h k e (Cache.Store.of_lookup_apply sound writes found)

theorem Proc.All.set (h : p.All P) (sound : p.store.Sound) {v : List UInt8} {ttl : Int}
    (given : P k v) : (p.set now k v ttl).All P := by
  refine h.apply sound (.set k v ttl) (fun k' v' ttl' same => ?_) rfl
  obtain ⟨rfl, rfl, _⟩ := Cache.Op.set.inj same
  exact given

theorem Proc.All.get (h : p.All P) (sound : p.store.Sound) : (p.get now k).All P :=
  h.apply sound (.get k) nofun rfl

theorem Proc.All.delete (h : p.All P) (sound : p.store.Sound) : (p.delete now k).All P :=
  h.apply sound (.delete k) nofun rfl

/-- What a `Get` returns was in the store. -/
theorem Proc.All.of_get (h : p.All P) {v : List UInt8} (got : (p.store.get now k).2 = some v) :
    P k v := by
  obtain ⟨e, found, _, rfl⟩ := (Cache.Store.get_result _ _ _ _).mp got
  exact h k e found

theorem Response.All.of_get (h : p.All P) :
    (Response.ofGet (p.store.get now k).2).All P k := by
  intro v same
  cases got : (p.store.get now k).2 with
  | none =>
      rw [got] at same
      cases same
  | some v' =>
      rw [got] at same
      obtain rfl := Response.value.inj same
      exact h.of_get got

/-- A server stores what a request brings and answers with what it has. -/
theorem Proc.All.serve (h : p.All P) (sound : p.store.Sound) {w : Setup} {self : String}
    {req : Request} (given : req.All P) :
    (serve w self now p req).1.All P ∧ (serve w self now p req).2.All P req.key := by
  unfold Replication.serve
  cases req with
  | replSet key value ttl =>
      dsimp only
      split
      · refine ⟨h.set sound (given key value ttl rfl), fun v same => ?_⟩
        split at same <;> cases same
      · exact ⟨h, nofun⟩
  | replDelete key =>
      dsimp only
      split
      · refine ⟨h.delete sound, fun v same => ?_⟩
        split at same <;> cases same
      · exact ⟨h, nofun⟩
  | replGet key =>
      dsimp only
      split
      · exact ⟨h.get sound, .of_get h⟩
      · exact ⟨h, nofun⟩

end Stores

/-- `readQuorum` returns one of the values it was answered, if its quorum is positive. -/
theorem countAnswers_mem {quorum : Int} (positive : 0 < quorum)
    (answers : List (Option (List UInt8))) (values : GoMap (List UInt8) Nat) (found : Nat)
    (winner : Option (List UInt8)) (seen : 0 < found → ∃ v, winner = some v) {v : List UInt8}
    (h : countAnswers quorum answers values found winner = .value v) :
    some v ∈ answers ∨ winner = some v := by
  induction answers generalizing values found winner with
  | nil =>
      simp only [countAnswers] at h
      split at h
      · rename_i enough
        obtain ⟨u, rfl⟩ := seen (by omega)
        obtain rfl := Result.value.inj h
        exact .inr rfl
      · split at h <;> cases h
  | cons answer rest ih =>
      cases answer with
      | none =>
          exact (ih values found winner seen h).imp_left (List.mem_cons_of_mem _)
      | some u =>
          simp only [countAnswers] at h
          split at h
          · obtain rfl := Result.value.inj h
            exact .inl List.mem_cons_self
          · rcases ih _ _ _ (fun _ => ⟨winner.getD u, by cases winner <;> rfl⟩) h with later | first
            · exact .inl (List.mem_cons_of_mem _ later)
            · cases winner with
              | none =>
                  obtain rfl := Option.some.inj first
                  exact .inl List.mem_cons_self
              | some u' => exact .inr first

section Steps

variable {w : Setup} {P Q : String → List UInt8 → Prop} {now : Int} {p p' : Proc} {s s' : Sys}
  {c : Nat} {call call' : Call} {a : Action} {out : List (String × Request)} {self : String}

theorem Call.All.mono (h : call.All P) (sub : ∀ k v, P k v → Q k v) : call.All Q where
  sends going := (h.sends going).imp (fun h k v ttl same => sub k v (h k v ttl same))
    fun h k v ttl same => sub k v (h k v ttl same)
  results r mem v same := sub _ v (h.results r mem v same)
  returned v same := sub _ v (h.returned v same)

theorem Msg.All.mono {msg : Msg} (h : msg.All P) (sub : ∀ k v, P k v → Q k v) : msg.All Q := by
  cases msg with
  | request _ _ req => exact fun k v ttl same => sub k v (h k v ttl same)
  | response _ _ req resp => exact fun v same => sub _ v (h v same)

theorem Sys.Sourced.mono (h : s.Sourced P) (sub : ∀ k v, P k v → Q k v) : s.Sourced Q where
  procs i := (h.procs i).mono sub
  calls c call found := (h.calls c call found).mono sub
  net msg mem := (h.net msg mem).mono sub

/-- A call that sends nothing any more and has returned no value. -/
theorem Call.All.of_returned {node : String} {op : Op} {r : Result} (none : ∀ v, r ≠ .value v) :
    (Call.begin node op (.returned r)).All P where
  sends going := absurd rfl (going r)
  results := nofun
  returned v same := absurd (Phase.returned.inj same) (none v)

/-- What the first section of a call stores and keeps, given that a `WriteSet` at the
primary may store its value. -/
theorem Started.all {op : Op} (h : Started w now p self op p' call) (stored : p.All P)
    (sound : p.store.Sound)
    (given : ∀ k v ttl, op = .set k v ttl → w.isPrimary self k = true → P k v) :
    p'.All P ∧ call.All P := by
  have reads {k : String} {nodes : List Cluster.Node} :
      (Call.begin self (.read k) (.visiting nodes)).All P :=
    ⟨fun _ => ⟨nofun, nofun⟩, nofun, nofun⟩
  have deletes {k : String} {existing : List UInt8} {nodes : List Cluster.Node}
      (present : (p.store.get now k).2 = some existing) :
      Call.All P { Call.begin self (.delete k) (.visiting nodes) with existing := existing } := by
    refine ⟨fun _ => ⟨nofun, fun k' v ttl same => ?_⟩, nofun, nofun⟩
    obtain ⟨rfl, rfl, _⟩ := Request.replSet.inj same
    exact stored.of_get present
  cases h with
  | refused why => exact ⟨stored, .of_returned nofun⟩
  | setFailed primary failed =>
      exact ⟨stored.set sound (given _ _ _ rfl primary), .of_returned nofun⟩
  | setAlone primary ok alone =>
      exact ⟨stored.set sound (given _ _ _ rfl primary), .of_returned nofun⟩
  | @set key value ttl nodes primary ok needs owners =>
      have mine := given _ _ _ rfl primary
      refine ⟨stored.set sound mine, fun _ => ⟨fun k v ttl same => ?_, nofun⟩, nofun, nofun⟩
      obtain ⟨rfl, rfl, _⟩ := Request.replSet.inj same
      exact mine
  | deleteMissing primary missing => exact ⟨stored.get sound, .of_returned nofun⟩
  | deleteAlone primary present alone => exact ⟨stored.get sound, deletes present⟩
  | delete primary present needs owners => exact ⟨stored.get sound, deletes present⟩
  | lookupFailed failed => exact ⟨stored.get sound, .of_returned nofun⟩
  | @readPrimary key mode =>
      refine ⟨stored.get sound, ⟨fun going => absurd rfl (going _), nofun, fun v same => ?_⟩⟩
      have same := Phase.returned.inj same
      cases got : (p.store.get now key).2 with
      | none =>
          rw [got] at same
          cases same
      | some v' =>
          rw [got] at same
          obtain rfl := Result.value.inj same
          exact stored.of_get got
  | @readAny key v mode present =>
      refine ⟨stored.get sound, ⟨fun going => absurd rfl (going _), nofun, fun v' same => ?_⟩⟩
      obtain rfl := Result.value.inj (Phase.returned.inj same)
      exact stored.of_get present
  | readPeers mode owners missing => exact ⟨stored.get sound, reads⟩
  | readQuorum mode member owners => exact ⟨stored, reads⟩

/-- A round trip brings the response that arrived. -/
theorem Ends.all {node peer : String} {req : Request} {resp : Response}
    (h : Ends c node peer req (some resp) a)
    (answered : ∀ peer req resp, a = .deliver (.response c peer req resp) →
      resp.All P req.key) : resp.All P req.key := by
  cases h with
  | @response resp' told =>
      have same : resp' = resp := by
        unfold Request.outcome at told
        split at told
        · cases told
        · cases told
        · exact Option.some.inj told
      exact same ▸ answered _ _ _ rfl
  | fail _ silent => cases silent

/-- What a step of a call stores, keeps and sends. -/
theorem Call.Moves.all (m : call.Moves w now p c a p' call' out) (positive : 0 < w.cfg.readQuorum)
    (stored : p.All P) (sound : p.store.Sound) (h : call.All P)
    (answered : ∀ peer req resp, a = .deliver (.response c peer req resp) →
      resp.All P req.key) :
    p'.All P ∧ call'.All P ∧ ∀ r ∈ out, r.2.All P := by
  have key : call.request.key = call.op.key := call.key_of_ours (.inl rfl)
  have returns {r : Result} (none : ∀ v, r ≠ .value v) : (call.returns r).All P :=
    ⟨fun going => absurd rfl (going r), h.results,
      fun v same => absurd (Phase.returned.inj same) (none v)⟩
  have going {phase : Phase} (here : call.phase = phase) (runs : ∀ r, phase ≠ .returned r) :
      call.request.All P ∧ call.takesBack.All P :=
    h.sends fun r same => runs r (here.symm.trans same)
  have continues {phase phase' : Phase} {running : List (String × Request)}
      (here : call.phase = phase) (runs : ∀ r, phase ≠ .returned r)
      (runs' : ∀ r, phase' ≠ .returned r) :
      Call.All P { call with phase := phase', running := running } :=
    ⟨fun _ => going here runs, h.results, fun v same => absurd same (runs' _)⟩
  have marked (peer : String) (healthy : Bool) : (p.mark peer healthy).All P :=
    stored.congr rfl
  have collects {peer : String} {resp : Response} (new : resp.All P call.op.key) :
      Call.All P { call.ended peer call.request with
        results := call.results ++ [(peer, resp)] } := by
    refine ⟨h.sends, fun r mem => ?_, h.returned⟩
    rcases List.mem_append.mp mem with old | last
    · exact h.results r old
    · obtain rfl := List.mem_singleton.mp last
      exact new
  cases m with
  | skip phase skips => exact ⟨stored, continues phase nofun nofun, nofun⟩
  | contact phase wanted =>
      refine ⟨stored, continues phase nofun nofun, fun r mem => ?_⟩
      split at mem
      · cases mem
      · obtain rfl := List.mem_singleton.mp mem
        exact (going phase nofun).1
  | stored op phase idle enough => exact ⟨stored, returns nofun, nofun⟩
  | deleted op phase idle enough => exact ⟨stored.delete sound, returns nofun, nofun⟩
  | short op phase idle few => exact ⟨stored, continues phase nofun nofun, nofun⟩
  | @answered key' op polls phase idle =>
      refine ⟨stored, ⟨fun going => absurd rfl (going _), h.results, fun v same => ?_⟩, nofun⟩
      have won := Phase.returned.inj same
      rcases countAnswers_mem positive _ _ _ _ (by omega) won with mem | none
      · obtain ⟨r, mem, answer⟩ := List.mem_map.mp mem
        refine h.results r mem v ?_
        cases resp : r.2 with
        | value v' =>
            rw [resp] at answer
            exact congrArg Response.value (Option.some.inj answer)
        | ok | notFound | error _ =>
            rw [resp] at answer
            cases answer
      · cases none
  | exhausted op polls phase idle => exact ⟨stored, returns nofun, nofun⟩
  | undo phase idle =>
      refine ⟨stored, continues phase nofun nofun, fun r mem => ?_⟩
      obtain rfl := List.mem_singleton.mp mem
      exact (going phase nofun).2
  | undoneSet op phase idle => exact ⟨stored.delete sound, returns nofun, nofun⟩
  | undone op phase idle => exact ⟨stored, returns nofun, nofun⟩
  | cancelSet op phase => exact ⟨stored.delete sound, returns nofun, nofun⟩
  | cancelRead op polls phase => exact ⟨stored, returns nofun, nofun⟩
  | answer waits ends => exact ⟨marked _ _, collects (key ▸ ends.all answered), nofun⟩
  | fetched op polls waits ends =>
      refine ⟨marked _ _, ⟨fun going => absurd rfl (going _), h.results, fun v same => ?_⟩, nofun⟩
      obtain rfl := Result.value.inj (Phase.returned.inj same)
      exact key ▸ ends.all answered _ rfl
  | refuse waits ends => exact ⟨marked _ _, ⟨h.sends, h.results, h.returned⟩, nofun⟩
  | settle waits undoes ends => exact ⟨stored, ⟨h.sends, h.results, h.returned⟩, nofun⟩
  | @getLocal key' op polls waits =>
      refine ⟨stored.get sound, collects ?_, nofun⟩
      rw [op]
      exact .of_get stored

/-- A step stores, sends and returns nothing new but the value of a `WriteSet` that starts
at the primary of its key. -/
theorem Sys.Sourced.step (h : s.Sourced P) (regular : s.Regular w)
    (positive : 0 < w.cfg.readQuorum)
    (given : ∀ node k v ttl, a = .start node (.set k v ttl) → w.isPrimary node k = true → P k v)
    (step : Step w now s a s') : s'.Sourced P := by
  have put {node : String} {q : Proc} (here : q.All P) :
      ∀ i, (Function.update s.procs node q i).All P :=
    (Function.forall_update_iff s.procs fun _ q => q.All P).mpr ⟨here, fun i _ => h.procs i⟩
  cases step with
  | @start node op q call started =>
      obtain ⟨stored, mine⟩ := started.all (h.procs node) (regular.sound node)
        fun k v ttl same => given node k v ttl (same ▸ rfl)
      refine ⟨put stored, fun c call' found => ?_, h.net⟩
      rcases List.mem_append.mp (List.mem_of_getElem? found) with old | new
      · obtain ⟨d, there⟩ := List.mem_iff_getElem?.mp old
        exact h.calls d call' there
      · obtain rfl := List.mem_singleton.mp new
        exact mine
  | @move a c call call' q out found moves sent =>
      obtain ⟨stored, mine, sends⟩ := moves.all positive (h.procs _) (regular.sound _)
        (h.calls c call found) fun peer req resp same => h.net _ (sent _ same)
      refine ⟨put stored, fun d other there => ?_, fun msg mem => ?_⟩
      · rw [getElem?_set_found found] at there
        split at there
        · cases there
          exact mine
        · exact h.calls d other there
      · rcases List.mem_append.mp mem with old | new
        · refine h.net msg ?_
          unfold Action.remaining at old
          split at old
          · exact List.mem_of_mem_erase old
          · exact old
        · obtain ⟨r, ours, rfl⟩ := List.mem_map.mp new
          exact sends r ours
  | @handle c peer req sent =>
      have served : (serve w peer now (s.procs peer) req).1.All P ∧
          (serve w peer now (s.procs peer) req).2.All P req.key :=
        (h.procs peer).serve (regular.sound peer) (h.net _ sent)
      obtain ⟨stored, answer⟩ := served
      refine ⟨put stored, h.calls, fun msg mem => ?_⟩
      rcases List.mem_append.mp mem with old | new
      · exact h.net msg (List.mem_of_mem_erase old)
      · obtain rfl := List.mem_singleton.mp new
        exact answer
  | late | lose =>
      exact ⟨h.procs, h.calls, fun msg mem => h.net msg (List.mem_of_mem_erase mem)⟩
  | mark healthy other => exact ⟨put ((h.procs _).congr rfl), h.calls, h.net⟩
  | cleanupExpired node =>
      have cleaned : Proc.All P
          { s.procs node with store := (s.procs node).store.cleanupExpired now } :=
        (h.procs node).apply (regular.sound node) .cleanupExpired nofun rfl
      exact ⟨put cleaned, h.calls, h.net⟩

end Steps

section Runs

variable {w : Setup} {u s : Sys} {past : List (Sys × Int × Action)}

/-- The value was under the key at some node in `u`, or a `WriteSet` of it has started at
the key's primary since. -/
def Origin (w : Setup) (u : Sys) (past : List (Sys × Int × Action)) (k : String)
    (v : List UInt8) : Prop :=
  (∃ i, (u.procs i).content k = some v) ∨
    ∃ x ∈ past, ∃ node ttl, x.2.2 = .start node (.set k v ttl) ∧ w.isPrimary node k = true

/-- However calls at all nodes interleave and whatever messages are lost, every value that a
`Read` returns and every value in a store was there at the beginning or was given to a
`WriteSet` of that key at its primary. -/
theorem values_never_invented (valid : w.cfg.validate = none) (on : w.cfg.enabled = true)
    (initial : u.Initial) (run : RunFrom w u past s) :
    (∀ c node key v, s.Returned c node (.read key) (.value v) → Origin w u past key v) ∧
      ∀ i k v, (s.procs i).content k = some v → Origin w u past k v := by
  have positive : 0 < w.cfg.readQuorum := by
    have := (Config.validate_enabled valid on).1
    omega
  obtain ⟨_, sourced⟩ : s.Regular w ∧ s.Sourced (Origin w u past) := by
    refine Transition.Run.induct_from (C := fun _ _ => True)
      (I := fun past s => s.Regular w ∧ s.Sourced (Origin w u past)) ?_ ?_ run fun _ _ => trivial
    · refine ⟨initial.regular, fun i k e found => .inl ⟨i, ?_⟩, fun c call found => ?_,
        fun msg mem => ?_⟩
      · rw [Proc.content, found]
        rfl
      · simp [initial.calls] at found
      · simp [initial.net] at mem
    · rintro past s ⟨now, a⟩ s' ⟨regular, sourced⟩ _ step
      have later : ∀ k v, Origin w u past k v → Origin w u ((s, now, a) :: past) k v := by
        rintro k v (old | ⟨x, mem, rest⟩)
        · exact .inl old
        · exact .inr ⟨x, List.mem_cons_of_mem _ mem, rest⟩
      refine ⟨regular.step (exec_step step), (sourced.mono later).step regular positive ?_
        (exec_step step)⟩
      intro node k v ttl same primary
      exact .inr ⟨_, List.mem_cons_self, node, ttl, same, primary⟩
  refine ⟨?_, fun i k v held => ?_⟩
  · rintro c node key v ⟨call, found, _, op, phase⟩
    have := (sourced.calls c call found).returned v phase
    rwa [op] at this
  · obtain ⟨e, found, rfl⟩ := Option.map_eq_some_iff.mp held
    exact sourced.procs i k e found

/-- The value that a has written and its quorum has acknowledged is read at a. -/
theorem values_never_invented_read : ∃ past s, RunFrom sample (Sys.empty fun _ => 0) past s ∧
    s.Returned 1 "a" (.read "k") (.value [1]) ∧
      Origin sample (Sys.empty fun _ => 0) past "k" [1] := by
  obtain ⟨past, s, run, seen⟩ := RunFrom.of_steps sample (Sys.empty fun _ => 0)
    ((0, .start "a" (.set "k" [1] 0)) :: sampleAcks 0 "k" [1] ++
      [.start "a" (.read "k"), .advance 1, .advance 1, .advance 1,
        .deliver (.request 1 "b" (.replGet "k")),
        .deliver (.response 1 "b" (.replGet "k") (.value [1])), .fail 1 "c" (.replGet "k"),
        .getLocal 1, .advance 1].map fun a => (0, a))
    (fun _ s => decide (s.Returned 1 "a" (.read "k") (.value [1]))) (by decide)
  have returned := of_decide_eq_true seen
  exact ⟨past, s, run, returned, (values_never_invented (by decide) (by decide)
    (Sys.empty_initial _) run).1 1 "a" "k" [1] returned⟩

end Runs

section Placement

variable {w : Setup} {now : Int} {p p' : Proc} {s s' u : Sys} {c : Nat} {call call' : Call}
  {a : Action} {out : List (String × Request)} {self : String}

/-- The node has nothing but keys of whose replica set it is. -/
abbrev Proc.Placed (w : Setup) (self : String) (p : Proc) : Prop :=
  p.All fun k _ => self ∈ w.owners k

theorem Started.placed {op : Op} (h : Started w now p self op p' call)
    (stored : p.Placed w self) (sound : p.store.Sound) : p'.Placed w self :=
  (h.all stored sound fun _ _ _ _ primary => Setup.mem_owners_of_isPrimary primary).1

theorem Call.Moves.placed (m : call.Moves w now p c a p' call' out)
    (stored : p.Placed w self) (sound : p.store.Sound) : p'.Placed w self := by
  cases m with
  | deleted | undoneSet | cancelSet => exact stored.delete sound
  | getLocal => exact stored.get sound
  | _ => exact stored.congr rfl

/-- A server looks at the replica set of the key before it stores anything. -/
theorem serve_placed (req : Request) (stored : p.Placed w self) (sound : p.store.Sound) :
    (serve w self now p req).1.Placed w self := by
  unfold serve
  cases req with
  | replSet key value ttl =>
      dsimp only
      split
      · rename_i member
        exact stored.set sound (Setup.isInReplicaSet_iff.mp member)
      · exact stored
  | replDelete key =>
      dsimp only
      split
      · exact stored.delete sound
      · exact stored
  | replGet key =>
      dsimp only
      split
      · exact stored.get sound
      · exact stored

theorem Step.placed (step : Step w now s a s') (regular : s.Regular w)
    (stored : ∀ i, (s.procs i).Placed w i) (i : String) : (s'.procs i).Placed w i := by
  have put {node : String} {q : Proc} (here : q.Placed w node) :
      (Function.update s.procs node q i).Placed w i :=
    (Function.forall_update_iff s.procs fun i q => q.Placed w i).mpr
      ⟨here, fun i _ => stored i⟩ i
  cases step with
  | start started => exact put (started.placed (stored _) (regular.sound _))
  | move found moves sent => exact put (moves.placed (stored _) (regular.sound _))
  | handle sent => exact put (serve_placed _ (stored _) (regular.sound _))
  | late | lose => exact stored i
  | mark healthy other => exact put ((stored _).congr rfl)
  | cleanupExpired node =>
      exact put ((stored node).apply (regular.sound node) .cleanupExpired nofun rfl)

/-- Values stay within the replica sets of their keys: however calls interleave, a node has
only keys of whose replica set it is, so at most `ReplicationFactor` nodes have a key. -/
theorem values_stay_placed (on : w.cfg.enabled = true) (initial : u.Initial)
    (placed : ∀ i k, (u.procs i).content k ≠ none → i ∈ w.owners k)
    {past : List (Sys × Int × Action)} (run : RunFrom w u past s) :
    (∀ i k, (s.procs i).content k ≠ none → i ∈ w.owners k) ∧
      ∀ (k : String) (nodes : List String), nodes.Nodup →
        (∀ i ∈ nodes, (s.procs i).content k ≠ none) →
          (nodes.length : Int) ≤ w.cfg.replicationFactor := by
  have content {v : Sys} (h : ∀ i, (v.procs i).Placed w i) (i k : String)
      (held : (v.procs i).content k ≠ none) : i ∈ w.owners k := by
    cases found : (v.procs i).store.entries.lookup k with
    | none => simp [Proc.content, found] at held
    | some e => exact h i k e found
  obtain ⟨_, stored⟩ : s.Regular w ∧ ∀ i, (s.procs i).Placed w i := by
    refine Transition.Run.invariant_from (C := fun _ _ => True)
      (I := fun s => s.Regular w ∧ ∀ i, (s.procs i).Placed w i) ?_ ?_ run fun _ _ => trivial
    · refine ⟨initial.regular, fun i k e found => placed i k ?_⟩
      simp [Proc.content, found]
    · rintro s x s' ⟨regular, stored⟩ _ step
      exact ⟨regular.step (exec_step step), (exec_step step).placed regular stored⟩
  refine ⟨content stored, fun k nodes nodup held => ?_⟩
  have sub : nodes ⊆ w.owners k := fun i mem => content stored i k (held i mem)
  have fewer := (List.subperm_of_subset nodup sub).length_le
  have most := Setup.length_owners_le on k
  omega

/-- The write of a reaches b while the request to c is on its way. -/
theorem values_stay_placed_write : ∃ past s, RunFrom sample (Sys.empty fun _ => 0) past s ∧
    (s.procs "a").content "k" = some [1] ∧ (s.procs "b").content "k" = some [1] ∧
      "a" ∈ sample.owners "k" ∧ "b" ∈ sample.owners "k" := by
  obtain ⟨past, s, run, seen⟩ := RunFrom.of_steps sample (Sys.empty fun _ => 0)
    ([.start "a" (.set "k" [1] 0), .advance 0, .advance 0, .advance 0,
      .deliver (.request 0 "b" (.replSet "k" [1] 0))].map fun a => (0, a))
    (fun _ s => decide ((s.procs "a").content "k" = some [1] ∧
      (s.procs "b").content "k" = some [1])) (by decide)
  obtain ⟨here, there⟩ := of_decide_eq_true seen
  have owners := (values_stay_placed (by decide) (Sys.empty_initial fun _ => 0) (by
    intro i k held
    simp [Sys.empty, Proc.content, Cache.newStore] at held) run).1
  exact ⟨past, s, run, here, there, owners "a" "k" (by simp [here]),
    owners "b" "k" (by simp [there])⟩

end Placement

end DistributedCache.Replication
