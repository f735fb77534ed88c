import DistributedCache.Replication.LatestRead
import DistributedCache.Replication.Progress

/-!
A read at the primary right after its own write, with nothing else going on. The modes
`primary` and `any` read the local store. A quorum read counts what the other nodes have,
so it also needs that the write has gone out to them.
-/
namespace DistributedCache.Replication

open Transition

variable {w : Setup} {now : Int} {s s' u : Sys} {a : Action} {k node : String} {v : List UInt8}
  {n c : Nat} {call read : Call} {p : Proc} {past : List (Sys × Int × Action)}

theorem Sys.carried_new (s : Sys) : s.Carried s.calls.length := by
  intro c call peer late found
  rw [List.getElem?_eq_none late] at found
  cases found

theorem Sys.Unlimited.accepts (h : s.Unlimited) (reg : s.Regular w) (m : Nat) (x : Int × Action) :
    Accepts m s x := by
  intro c peer key value ttl call _ _ _ _
  exact (Cache.Store.set_unlimited (reg.sound peer) (h peer) _ _ _ _).1

/-- What holds along a smooth run from the start of call `n`, a write, on. -/
structure Sys.Written (w : Setup) (node k : String) (v : List UInt8) (n : Nat) (s : Sys) :
    Prop where
  regular : s.Regular w
  unlimited : s.Unlimited
  writing : s.Writing node k v n
  complete : s.Complete w n
  carried : s.Carried n

/-- A smooth step that starts no write of the key. -/
def Undisturbed (k : String) (s : Sys) (x : Int × Action) : Prop :=
  x.2.smooth = true ∧ NoWrite k s x

theorem Calm.undisturbed {x : Int × Action} (h : Calm s x) (k : String) : Undisturbed k s x := by
  refine ⟨h.1, ?_⟩
  unfold NoWrite Action.begins
  split
  · rename_i node op act
    exact absurd act (h.2 node op)
  · rfl

theorem Sys.Written.start (idle : s.Idle) (healthy : s.Healthy) (reg : s.Regular w)
    (free : s.Unlimited) (ring : w.ring.Sound)
    (step : Step w now s (.start node (.set k v 0)) s') :
    s'.Written w node k v s.calls.length where
  regular := reg.step step
  unlimited := free.step step
  writing := (idle.still k).writing reg free step
  complete := (idle.complete healthy).step reg rfl (free.accepts reg _ _) step
  carried := s.carried_new.step reg ring rfl step

theorem Sys.Written.step (h : s.Written w node k v n) (ring : w.ring.Sound)
    (quiet : Undisturbed k s (now, a)) (step : Step w now s a s') :
    s'.Written w node k v n where
  regular := h.regular.step step
  unlimited := h.unlimited.step step
  writing := h.writing.step h.regular h.unlimited quiet.2 step
  complete := h.complete.step h.regular quiet.1 (h.unlimited.accepts h.regular _ _) step
  carried := h.carried.step h.regular ring quiet.1 step

theorem Sys.Written.run (h : u.Written w node k v n) (ring : w.ring.Sound)
    (run : RunFrom w u past s) (quiet : Meets (Undisturbed k) past) : s.Written w node k v n :=
  Run.invariant_from h (fun _ _ _ h quiet step => h.step ring quiet (exec_step step)) run quiet

/-- The write has gone out: every node of the replica set has acknowledged it. -/
theorem Sys.Written.holders (h : s.Written w node k v n) (found : s.calls[n]? = some call)
    (ok : call.phase = .returned .stored) (needs : 1 ≤ w.required) :
    w.owners k ⊆ call.holders := by
  obtain ⟨call', found', _, op, _⟩ := h.writing.caller
  obtain rfl := Option.some.inj (found'.symm.trans found)
  have writes : ∀ key, call'.op ≠ .read key := by
    intro key read
    cases op.symm.trans read
  have enough := ((h.regular.calls n call' found).stored writes ok).1
  intro i member
  exact h.complete.reached (Nat.le_refl n) found writes ok needs enough (by rwa [op])

/-- Every node of the replica set has answered a quorum read that has counted. -/
theorem Sys.Written.length_results (h : s.Written w node k v n) (polls : read.polls w = true)
    (op : read.op = .read k) (late : n ≤ c) (there : s.calls[c]? = some read) {result : Result}
    (done : read.phase = .returned result) (some : read.results ≠ []) :
    read.results.length = (w.owners k).length := by
  have targets : read.targets w = w.owners k := by
    rw [Call.targets, op]
    refine List.filter_eq_self.mpr fun i _ => ?_
    rw [Call.aims, polls, Bool.true_or]
  cases h.complete.calls c read late there fun _ _ => polls with
  | asking phase | alone _ _ phase => cases done.symm.trans phase
  | heard _ all => rw [← targets, ← all.length_eq, List.length_map]
  | brief _ nobody => exact absurd nobody some

/-- Nothing but the value is under the key. -/
def Proc.Fresh (p : Proc) (k : String) (v : List UInt8) : Prop :=
  p.Lacks k ∨ p.Keeps k v

theorem Proc.Fresh.get (h : p.Fresh k v) (now : Int) :
    (p.store.get now k).2 = some v ∨ (p.store.get now k).2 = none := by
  cases h with
  | inl none =>
      refine .inr (Option.eq_none_iff_forall_ne_some.mpr fun x got => ?_)
      obtain ⟨e, found, _⟩ := (Cache.Store.get_result p.store now k x).mp got
      cases none.symm.trans found
  | inr keeps => exact .inl (keeps.get now)

theorem Proc.Fresh.acts {p' : Proc} (h : p.Fresh k v) (sound : p.store.Sound)
    (limit : p.store.maxBytes ≤ 0) (acts : Acts now k False p p') : p'.Fresh k v :=
  h.imp (·.acts sound acts) (·.acts sound limit acts)

/-- At another node the write stores its own value or takes it back. -/
theorem Sys.Written.fresh (h : s.Written w node k v n) (quiet : NoWrite k s (now, a))
    (step : Step w now s a s') {i : String} (other : i ≠ node) (fresh : (s.procs i).Fresh k v) :
    (s'.procs i).Fresh k v := by
  obtain ⟨call, found, here, op, _⟩ := h.writing.caller
  have sound := h.regular.sound i
  have limit := h.unlimited i
  rcases h.writing.store_cases quiet step i with acts | ⟨mover, _, _, _, was, at', _⟩ |
    ⟨req, sent, served, _⟩
  · exact fresh.acts sound limit acts
  · obtain rfl := Option.some.inj (was.symm.trans found)
    exact absurd (at'.symm.trans here) other
  · obtain ⟨call', found', _, _, ours⟩ := h.regular.msgs _ sent
    obtain rfl := Option.some.inj (found'.symm.trans found)
    rw [served]
    cases ours with
    | inl main =>
        obtain rfl : req = .replSet k v 0 := main.trans (by rw [Call.request, op]; rfl)
        rw [serve]
        split
        · exact .inr (Proc.keeps_set sound limit now k v)
        · exact fresh
    | inr back =>
        obtain rfl : req = .replDelete k := back.trans (by rw [Call.takesBack, op])
        rw [serve]
        split
        · exact .inl (Proc.lacks_delete sound now k)
        · exact fresh

/-- Every answer is the value, or comes from another node that has nothing. -/
def Answers (node : String) (v : List UInt8) (i : String) (resp : Response) : Prop :=
  resp = .value v ∨ (i ≠ node ∧ resp = .notFound)

theorem Call.vote_mem (answers : ∀ r ∈ call.results, Answers node v r.1 r.2)
    (asked : node ∈ call.results.map Prod.fst) : v ∈ call.votes := by
  obtain ⟨r, mem, own⟩ := List.mem_map.mp asked
  have value := (answers r mem).resolve_right fun other => other.1 own
  refine List.mem_filterMap.mpr ⟨_, List.mem_map.mpr ⟨r, mem, rfl⟩, ?_⟩
  rw [value]
  rfl

/-- Counting such answers gives the value, if they are enough. -/
theorem Call.count_value (answers : ∀ r ∈ call.results, Answers node v r.1 r.2)
    (asked : node ∈ call.results.map Prod.fst) (enough : w.cfg.readQuorum ≤ call.votes.length) :
    countAnswers w.cfg.readQuorum (call.results.map fun r => r.2.answer) ∅ 0 none = .value v := by
  refine countAnswers_of_all (fun x mem => ?_) (List.ne_nil_of_mem (vote_mem answers asked)) enough
  obtain ⟨answer, mem, rfl⟩ := List.mem_filterMap.mp mem
  obtain ⟨r, mem, answer⟩ := List.mem_map.mp mem
  rcases answers r mem with value | ⟨_, none⟩
  · rw [value] at answer
    exact (Option.some.inj answer).symm
  · rw [none] at answer
    cases answer

theorem Call.length_votes (all : ∀ r ∈ call.results, r.2 = .value v) :
    call.votes.length = call.results.length := by
  have answers : call.results.map (fun r => r.2.answer) = call.results.map fun _ => some v := by
    refine List.map_congr_left fun r mem => ?_
    rw [all r mem]
    rfl
  rw [Call.votes, answers]
  simp

theorem Started.read_local {p' : Proc} (h : Started w now p node (.read k) p' call)
    (primary : w.isPrimary node k = true) (kept : p.Keeps k v)
    (mode : w.cfg.readConsistency = .primary ∨ w.cfg.readConsistency = .any) :
    call.phase = .returned (.value v) := by
  have member := Setup.mem_owners_of_isPrimary primary
  cases h with
  | refused why => exact (Setup.not_refused why primary).elim
  | lookupFailed failed => exact absurd failed (Setup.replicaSet_ne_error member _)
  | readPrimary =>
      rw [kept.get]
      rfl
  | readAny _ present =>
      obtain rfl := Option.some.inj ((kept.get now).symm.trans present)
      rfl
  | readPeers _ _ missing => cases (kept.get now).symm.trans missing
  | readQuorum neither => exact absurd mode (not_or.mpr neither)

section Read

variable (h : u.Written w node k v n) (ring : w.ring.Built) (found : u.calls[n]? = some call)
  (ok : call.phase = .returned .stored) (run : RunFrom w u past s)
  (quiet : Meets (Undisturbed k) past)
include h ring found ok run quiet

/-- What a read hears, if the other nodes have nothing but the value. -/
theorem Sys.Written.answers (fresh : ∀ i ∈ w.owners k, i ≠ node → (u.procs i).Fresh k v) :
    s.Reading k u.calls.length (Answers node v) := by
  have inv := Run.invariant_from
    (I := fun s => s.Written w node k v n ∧ s.calls[n]? = some call ∧
      (∀ i ∈ w.owners k, i ≠ node → (s.procs i).Fresh k v) ∧
      s.Reading k u.calls.length (Answers node v))
    ⟨h, found, fresh, .init h.regular _⟩ ?_ run quiet
  · exact inv.2.2.2
  · rintro s x s' ⟨h, found, fresh, reading⟩ quiet exec
    have step := exec_step exec
    obtain ⟨call', found', here, op, _⟩ := h.writing.caller
    obtain rfl := Option.some.inj (found'.symm.trans found)
    have writes : ∀ key, call'.op ≠ .read key := by
      intro key read
      cases op.symm.trans read
    have finished : call'.Over := ⟨⟨_, ok⟩, ((h.regular.calls n call' found).stored writes ok).2⟩
    refine ⟨h.step ring.sound quiet step, step.finished found finished,
      fun i mem other => h.fresh quiet.2 step other (fresh i mem other),
      reading.step h.regular step fun i mem => ?_⟩
    by_cases own : i = node
    · refine .inl ?_
      rw [own, (h.writing.own call' found (.inr (.inl ok))).get]
      rfl
    · rcases (fresh i mem own).get x.1 with value | none
      · rw [value]
        exact .inl rfl
      · rw [none]
        exact .inr ⟨own, rfl⟩

theorem Sys.Written.quorum_result (mode : w.cfg.readConsistency = .quorum)
    (primary : w.isPrimary node k = true)
    (enough : (1 ≤ w.required ∧ w.cfg.readQuorum ≤ (w.owners k).length) ∨
      (w.cfg.readQuorum = 1 ∧ ∀ i ∈ w.owners k, i ≠ node → (u.procs i).Fresh k v))
    (late : u.calls.length ≤ c) (there : s.calls[c]? = some read) (own : read.node = node)
    (op : read.op = .read k) {result : Result} (done : read.phase = .returned result) :
    result = .value v := by
  have member := Setup.mem_owners_of_isPrimary primary
  have polls : read.polls w = true := by simp [Call.polls, op, mode]
  have mode := Config.readQuorum_of_quorum mode
  cases polled_run h.regular mode run late there op (own ▸ member) with
  | visiting phase => cases done.symm.trans phase
  | cancelled _ ended =>
      obtain ⟨x, mem, act⟩ := ended
      have smooth := (quiet x mem).1
      rw [act] at smooth
      cases smooth
  | counted phase goes idle asked =>
      obtain rfl := Phase.returned.inj (done.symm.trans phase)
      rw [own] at asked
      rcases enough with ⟨needs, size⟩ | ⟨one, fresh⟩
      · have finished := (h.writing.stored h.regular ring.sound primary found ok).1
        have honest := (h.writing.reading h.regular h.unlimited found ok finished run
          fun x mem => (quiet x mem).2).results c read late there op
        have written := h.run ring.sound run quiet
        -- Every node that can answer has acknowledged the write.
        have all (r : String × Response) (mem : r ∈ read.results) : r.2 = .value v := by
          refine honest r mem (h.holders found ok needs ?_)
          have target := (written.regular.calls c read there).results_subperm.subset
            (List.mem_map_of_mem mem)
          rw [Call.targets, op] at target
          exact (List.mem_filter.mp target).1
        have count := written.length_results polls op (h.complete.bound.trans late) there done
          (List.ne_nil_of_mem (List.mem_map.mp asked).choose_spec.1)
        refine Call.count_value (fun r mem => .inl (all r mem)) asked ?_
        rw [Call.length_votes all, count]
        exact size
      · have answers := (h.answers ring found ok run quiet fresh).results c read late there op
        refine Call.count_value answers asked ?_
        have := List.length_pos_of_mem (Call.vote_mem answers asked)
        omega

end Read

theorem Sys.Written.fresh_run (h : u.Written w node k v n) (ring : w.ring.Sound)
    (run : RunFrom w u past s) (quiet : Meets (Undisturbed k) past) {i : String}
    (other : i ≠ node) (fresh : (u.procs i).Fresh k v) : (s.procs i).Fresh k v := by
  have inv := Run.invariant_from
    (I := fun s => s.Written w node k v n ∧ (s.procs i).Fresh k v) ⟨h, fresh⟩ ?_ run quiet
  · exact inv.2
  · rintro s x s' ⟨h, fresh⟩ quiet exec
    exact ⟨h.step ring quiet (exec_step exec), h.fresh quiet.2 (exec_step exec) other fresh⟩

section Later

variable {u' : Sys} {later : List (Sys × Int × Action)}

theorem Sys.Written.read_result (h : u.Written w node k v n) (ring : w.ring.Built)
    (modes : w.cfg.readConsistency ∈ [.primary, .quorum, .any])
    (primary : w.isPrimary node k = true) (found : u.calls[n]? = some call)
    (ok : call.phase = .returned .stored)
    (enough : w.cfg.readConsistency = .quorum →
      (1 ≤ w.required ∧ w.cfg.readQuorum ≤ (w.owners k).length) ∨
      (w.cfg.readQuorum = 1 ∧ ∀ i ∈ w.owners k, i ≠ node → (u.procs i).Fresh k v))
    (reads : exec w u (now, .start node (.read k)) = .ok u') (run : RunFrom w u' later s)
    (calm : Meets Calm later) {result : Result}
    (done : s.Returned u.calls.length node (.read k) result) : result = .value v := by
  obtain ⟨read, there, own, op, done⟩ := done
  have first : RunFrom w u [(u, now, .start node (.read k))] u' := .next (.start rfl) reads
  by_cases mode : w.cfg.readConsistency = .quorum
  · refine h.quorum_result ring found ok (first.append run) (fun x mem => ?_) mode primary
      (enough mode) (Nat.le_refl _) there own op done
    cases List.mem_append.mp mem with
    | inl mem => exact (calm x mem).undisturbed k
    | inr mem =>
        obtain rfl := List.mem_singleton.mp mem
        exact ⟨rfl, rfl⟩
  · obtain ⟨p, call', started, begun, _⟩ := exec_start reads
    have kept := h.writing.own call found (.inr (.inl ok))
    have returned := started.read_local primary kept (by simpa [mode] using modes)
    have finished : call'.Over := ⟨⟨_, returned⟩, started.same.2.2.1⟩
    obtain rfl := Option.some.inj ((finished.run begun run).symm.trans there)
    exact Phase.returned.inj (done.symm.trans returned)

theorem Sys.Written.read_returns (h : u.Written w node k v n) (ring : w.ring.Built)
    (modes : w.cfg.readConsistency ∈ [.primary, .quorum, .any])
    (primary : w.isPrimary node k = true) (found : u.calls[n]? = some call)
    (ok : call.phase = .returned .stored)
    (reads : exec w u (now, .start node (.read k)) = .ok u') (run : RunFrom w u' later s)
    (calm : Meets Calm later) : ∃ more s', RunFrom w s more s' ∧ Meets Calm more ∧
      ∃ result, s'.Returned u.calls.length node (.read k) result := by
  obtain ⟨p, begin', started, begun, _⟩ := exec_start reads
  obtain ⟨own, op, idle, _⟩ := started.same
  obtain ⟨read, there, same⟩ := Call.persists_run begun run
  by_cases mode : w.cfg.readConsistency = .quorum
  · have polls : read.polls w = true := by simp [Call.polls, same.op.trans op, mode]
    have quiet : Undisturbed k u (now, .start node (.read k)) := ⟨rfl, rfl⟩
    have after := h.step ring.sound quiet (exec_step reads)
    have here := after.run ring.sound run fun x mem => (calm x mem).undisturbed k
    obtain ⟨more, s', run', calm', read', result, there', same', done⟩ :=
      here.carried.returns now here.regular ring.sound h.complete.bound there polls
    have same := same.trans same'
    exact ⟨more, s', run', calm', result, read', there', same.node.trans own,
      same.op.trans op, done⟩
  · have kept := h.writing.own call found (.inr (.inl ok))
    have returned := started.read_local primary kept (by simpa [mode] using modes)
    have finished : begin'.Over := ⟨⟨_, returned⟩, idle⟩
    exact ⟨[], s, .start rfl, List.forall_mem_nil _, _, begin', finished.run begun run, own, op,
      returned⟩

end Later

/-- Let a `WriteSet` at the primary return without error, on unlimited stores, with all
nodes healthy and reachable and nothing else running. Then a read at the primary returns
the value: always in the modes `primary` and `any`, and in the mode `quorum` if the write
goes out to the replica set and this is large enough, or if one vote is enough and no other
node has the key. -/
theorem read_your_write {w : Setup} {cfg : Config} (normal : w.cfg = cfg.normalize)
    (valid : w.cfg.validate = none) (factor : 2 ≤ cfg.replicationFactor) (ring : w.ring.Built)
    {past₀ past₁ past₂ : List (Sys × Int × Action)} {u₀ u₁ u₂ u₃ s : Sys} {t₁ t₂ : Int}
    {node key : String} {v : List UInt8} (before : Run w past₀ u₀) (free : u₀.Unlimited)
    (idle : u₀.Idle) (healthy : u₀.Healthy) (primary : w.isPrimary node key = true)
    (enough : w.cfg.readConsistency = .quorum →
      (1 ≤ w.cfg.requiredWriteAcks ∧ w.cfg.readQuorum ≤ (w.owners key).length) ∨
      (w.cfg.readQuorum = 1 ∧ ∀ i ∈ w.owners key, i ≠ node → (u₀.procs i).Lacks key))
    (writes : exec w u₀ (t₁, .start node (.set key v 0)) = .ok u₁)
    (during : RunFrom w u₁ past₁ u₂) (calm₁ : Meets Calm past₁)
    (acked : u₂.Returned u₀.calls.length node (.set key v 0) .stored)
    (reads : exec w u₂ (t₂, .start node (.read key)) = .ok u₃)
    (later : RunFrom w u₃ past₂ s) (calm₂ : Meets Calm past₂) :
    (∀ result, s.Returned u₂.calls.length node (.read key) result → result = .value v) ∧
      ∃ past₃ s', RunFrom w s past₃ s' ∧ Meets Calm past₃ ∧
        s'.Returned u₂.calls.length node (.read key) (.value v) := by
  have on : w.cfg.enabled = true := normal ▸ Config.enabled_normalize factor
  have modes := (Config.validate_enabled valid on).2.2.2
  have required : w.required = w.cfg.requiredWriteAcks := by rw [Setup.required, if_pos on]
  have quiet₁ : Meets (Undisturbed key) past₁ := fun x mem => (calm₁ x mem).undisturbed key
  have start := Sys.Written.start idle healthy before.regular free ring.sound (exec_step writes)
  have written := start.run ring.sound during quiet₁
  obtain ⟨call, found, _, _, ok⟩ := acked
  have enough (mode : w.cfg.readConsistency = .quorum) :
      (1 ≤ w.required ∧ w.cfg.readQuorum ≤ (w.owners key).length) ∨
      (w.cfg.readQuorum = 1 ∧ ∀ i ∈ w.owners key, i ≠ node → (u₂.procs i).Fresh key v) := by
    rw [required]
    refine (enough mode).imp_right (And.imp_right fun none i mem other => ?_)
    obtain ⟨_, _, _, _, apart⟩ := exec_start writes
    refine start.fresh_run ring.sound during quiet₁ other (.inl ?_)
    rw [apart i other]
    exact none i mem other
  refine ⟨fun result done => written.read_result ring modes primary found ok enough reads later
    calm₂ done, ?_⟩
  obtain ⟨past₃, s', more, calm₃, result, done⟩ :=
    written.read_returns ring modes primary found ok reads later calm₂
  have calm : Meets Calm (past₃ ++ past₂) := fun x mem =>
    (List.mem_append.mp mem).elim (calm₃ x) (calm₂ x)
  obtain rfl := written.read_result ring modes primary found ok enough reads (later.append more)
    calm done
  exact ⟨past₃, s', more, calm₃, done⟩

/-- A read in the middle of its loop goes on to return the value. -/
theorem read_your_write_sample : ∃ (u₂ s s' : Sys) (past₂ past₃ : List (Sys × Int × Action)),
    u₂.Returned 0 "a" (.set "k" [1] 0) .stored ∧
      RunFrom sample (u₂.started sample 0 "a" (.read "k")) past₂ s ∧
      RunFrom sample s past₃ s' ∧ s'.Returned 1 "a" (.read "k") (.value [1]) := by
  obtain ⟨past₁, u₂, past₂, s, during, wrote, later, calm₂⟩ := RunFrom.of_steps_via sample
    ((Sys.empty fun _ => 0).started sample 0 "a" (.set "k" [1] 0))
    (fun u => u.started sample 0 "a" (.read "k")) (sampleAcks 0 "k" [1])
    [(0, .advance 1), (0, .advance 1)]
    (fun past₁ u => decide (Meets Calm past₁ ∧ u.calls.length = 1 ∧
      u.Returned 0 "a" (.set "k" [1] 0) .stored))
    (fun past₂ _ => decide (Meets Calm past₂)) (by decide)
  obtain ⟨calm₁, one, acked⟩ := of_decide_eq_true wrote
  have normal : sample.cfg = defaultConfig.normalize := rfl
  obtain ⟨past₃, s', more, _, done⟩ := (read_your_write normal (by decide) (by decide)
    sampleRing_built (.start (Sys.empty_initial _)) (fun _ => Int.le_refl 0)
    (Sys.empty_initial _).idle (fun _ _ => rfl) (by decide) (fun _ => .inl (by decide)) rfl during
    calm₁ acked rfl later (of_decide_eq_true calm₂)).2
  rw [one] at done
  exact ⟨u₂, s, s', past₂, past₃, acked, later, more, done⟩

/-- A read of `k` at its primary `a`, right after a write that returned without error, fails
although nothing else is going on. -/
def Misses (w : Setup) : Prop :=
  ∃ (past₁ past₂ : List (Sys × Int × Action)) (u₂ s : Sys),
    w.cfg = w.cfg.normalize ∧ w.cfg.validate = none ∧ 2 ≤ w.cfg.replicationFactor ∧
      w.ring.Built ∧ w.cfg.replicationFactor ≤ w.ring.nodes.keys.length ∧
      Sys.Initial (.empty fun _ => 0) ∧ Sys.Unlimited (.empty fun _ => 0) ∧
      Sys.Healthy (.empty fun _ => 0) ∧ w.isPrimary "a" "k" = true ∧
      RunFrom w ((Sys.empty fun _ => 0).started w 0 "a" (.set "k" [1] 0)) past₁ u₂ ∧
      Meets Calm past₁ ∧ u₂.Returned 0 "a" (.set "k" [1] 0) .stored ∧
      RunFrom w (u₂.started w 0 "a" (.read "k")) past₂ s ∧ Meets Calm past₂ ∧
      s.Returned 1 "a" (.read "k") (.error .readQuorumNotMet)

theorem Misses.of_steps (w : Setup) (acks answers : List (Int × Action)) (ring : w.ring.Built)
    (setup : w.cfg = w.cfg.normalize ∧ w.cfg.validate = none ∧ 2 ≤ w.cfg.replicationFactor ∧
      w.cfg.replicationFactor ≤ w.ring.nodes.keys.length ∧ w.isPrimary "a" "k" = true)
    (h : (trace (exec w) [] ((Sys.empty fun _ => 0).started w 0 "a" (.set "k" [1] 0)) acks).any
      (fun r => decide (Meets Calm r.1 ∧ r.2.Returned 0 "a" (.set "k" [1] 0) .stored) &&
        (trace (exec w) [] (r.2.started w 0 "a" (.read "k")) answers).any (fun q =>
          decide (Meets Calm q.1 ∧ q.2.Returned 1 "a" (.read "k") (.error .readQuorumNotMet))))
      = true) : Misses w := by
  obtain ⟨past₁, u₂, past₂, s, during, wrote, later, missed⟩ := RunFrom.of_steps_via w _
    (fun u => u.started w 0 "a" (.read "k")) acks answers
    (fun past₁ u => decide (Meets Calm past₁ ∧ u.Returned 0 "a" (.set "k" [1] 0) .stored))
    (fun past₂ s => decide (Meets Calm past₂ ∧
      s.Returned 1 "a" (.read "k") (.error .readQuorumNotMet))) h
  obtain ⟨normal, valid, factor, members, primary⟩ := setup
  obtain ⟨calm₁, acked⟩ := of_decide_eq_true wrote
  obtain ⟨calm₂, missed⟩ := of_decide_eq_true missed
  exact ⟨past₁, past₂, u₂, s, normal, valid, factor, ring, members, Sys.empty_initial _,
    fun _ => Int.le_refl 0, fun _ _ => rfl, primary, during, calm₁, acked, later, calm₂, missed⟩

/-- Writes that wait for nobody, and reads that ask for two votes. -/
def unacknowledged : Setup :=
  ⟨{ defaultConfig with writeConsistency := .one }, sampleRing⟩

/-- The only virtual node of `c` takes the place of that of `b`. -/
def collidingHash (key : String) : UInt32 :=
  if key = "a#0" then 1 else if key = "b#0" then 2 else if key = "c#0" then 2 else 0

def collidingRing : Cluster.Ring :=
  (((Cluster.newRing ⟨1, collidingHash⟩).join ⟨"a", "a:1"⟩).join ⟨"b", "b:1"⟩).join ⟨"c", "c:1"⟩

theorem collidingRing_built : collidingRing.Built :=
  (((Cluster.Ring.Built.new ⟨1, collidingHash⟩).join _).join _).join _

def colliding : Setup :=
  ⟨{ defaultConfig with readQuorum := 3 }, collidingRing⟩

/-- The reads of the two settings get one vote and two votes. -/
theorem read_your_write_missed : Misses unacknowledged ∧ Misses colliding := by
  constructor
  · exact .of_steps unacknowledged []
      ([.advance 1, .advance 1, .advance 1, .getLocal 1,
        .deliver (.request 1 "b" (.replGet "k")), .deliver (.request 1 "c" (.replGet "k")),
        .deliver (.response 1 "b" (.replGet "k") .notFound),
        .deliver (.response 1 "c" (.replGet "k") .notFound), .advance 1].map fun a => (0, a))
      sampleRing_built (by decide) (by decide)
  · exact .of_steps colliding
      ([.advance 0, .advance 0, .deliver (.request 0 "c" (.replSet "k" [1] 0)),
        .deliver (.response 0 "c" (.replSet "k" [1] 0) .ok), .advance 0].map fun a => (0, a))
      ([.advance 1, .advance 1, .getLocal 1, .deliver (.request 1 "c" (.replGet "k")),
        .deliver (.response 1 "c" (.replGet "k") (.value [1])), .advance 1].map fun a => (0, a))
      collidingRing_built (by decide) (by decide)

end DistributedCache.Replication
