import DistributedCache.Replication.System

/-!
What one step can do, section by section and with the tests that lead there. All
later arguments about runs split steps into these cases.
-/
namespace DistributedCache.Replication

open Cluster (Node)

/-- A round trip of call `c` at `node` ends: a response arrives, or the peer cannot be
reached. -/
inductive Ends (c : Nat) (node peer : String) (req : Request) (outcome : Option Response) :
    Action → Prop
  | response {resp : Response} (told : req.outcome resp = outcome) :
      Ends c node peer req outcome (.deliver (.response c peer req resp))
  | fail (other : peer ≠ node) (silent : outcome = none) :
      Ends c node peer req outcome (.fail c peer req)

theorem Ends.not_cancel {c d : Nat} {node peer : String} {req : Request}
    {outcome : Option Response} {a : Action} (h : Ends c node peer req outcome a) :
    a ≠ .cancel d := by
  cases h <;> simp

/-- No round trip to the node itself fails, so one that ends there brings a response. -/
theorem Ends.ne_node {c : Nat} {node peer : String} {req : Request} {outcome : Option Response}
    {a : Action} (h : Ends c node peer req outcome a)
    (other : ∀ peer req resp, a = .deliver (.response c peer req resp) → peer ≠ node) :
    peer ≠ node := by
  cases h with
  | response => exact other _ _ _ rfl
  | fail ne => exact ne

namespace Call

/-- The round trip to `peer` for `req` is back. -/
def ended (call : Call) (peer : String) (req : Request) : Call :=
  { call with running := call.running.erase (peer, req) }

def returns (call : Call) (result : Result) : Call :=
  { call with phase := .returned result }

/-- The steps of call `c`: the manager and the call afterwards, and what is sent. -/
inductive Moves (w : Setup) (now : Int) (p : Proc) (c : Nat) (call : Call) :
    Action → Proc → Call → List (String × Request) → Prop
  | skip {node : Node} {rest : List Node} (phase : call.phase = .visiting (node :: rest))
      (skips : call.skips w p node = true) :
      Moves w now p c call (.advance c) p { call with phase := .visiting rest } []
  | contact {node : Node} {rest : List Node} (phase : call.phase = .visiting (node :: rest))
      (wanted : call.skips w p node = false) :
      Moves w now p c call (.advance c) p
        { call with
          phase := .visiting rest
          running := call.running ++ [(node.id, call.request)] }
        (if node.id = call.node then [] else [(node.id, call.request)])
  | stored {key : String} {value : List UInt8} {ttl : Int} (op : call.op = .set key value ttl)
      (phase : call.phase = .visiting []) (idle : call.running = [])
      (enough : w.required ≤ call.results.length) :
      Moves w now p c call (.advance c) p (call.returns .stored) []
  | deleted {key : String} (op : call.op = .delete key)
      (phase : call.phase = .visiting []) (idle : call.running = [])
      (enough : w.required ≤ call.results.length) :
      Moves w now p c call (.advance c) (p.delete now key)
        (call.returns (.deleted (p.store.delete now key).2)) []
  | short (op : ∀ key, call.op ≠ .read key)
      (phase : call.phase = .visiting []) (idle : call.running = [])
      (few : call.results.length < w.required) :
      Moves w now p c call (.advance c) p
        { call with phase := .undoing (call.results.map Prod.fst) } []
  | answered {key : String} (op : call.op = .read key) (polls : call.polls w = true)
      (phase : call.phase = .visiting []) (idle : call.running = []) :
      Moves w now p c call (.advance c) p
        (call.returns (countAnswers w.cfg.readQuorum
          (call.results.map fun r => r.2.answer) ∅ 0 none)) []
  | exhausted {key : String} (op : call.op = .read key) (polls : call.polls w = false)
      (phase : call.phase = .visiting []) (idle : call.running = []) :
      Moves w now p c call (.advance c) p (call.returns .notFound) []
  | undo {id : String} {rest : List String} (phase : call.phase = .undoing (id :: rest))
      (idle : call.running = []) :
      Moves w now p c call (.advance c) p
        { call with phase := .undoing rest, running := [(id, call.takesBack)] }
        [(id, call.takesBack)]
  | undoneSet {key : String} {value : List UInt8} {ttl : Int} (op : call.op = .set key value ttl)
      (phase : call.phase = .undoing []) (idle : call.running = []) :
      Moves w now p c call (.advance c) (p.delete now key)
        (call.returns (.error (.quorumNotMet call.results.length w.required))) []
  | undone (op : ∀ key value ttl, call.op ≠ .set key value ttl)
      (phase : call.phase = .undoing []) (idle : call.running = []) :
      Moves w now p c call (.advance c) p
        (call.returns (.error (.quorumNotMet call.results.length w.required))) []
  | cancelSet {key : String} {value : List UInt8} {ttl : Int} (op : call.op = .set key value ttl)
      (phase : call.phase = .visiting []) :
      Moves w now p c call (.cancel c) (p.delete now key)
        (call.returns (.error .contextDone)) []
  | cancelRead {key : String} (op : call.op = .read key) (polls : call.polls w = true)
      (phase : call.phase = .visiting []) :
      Moves w now p c call (.cancel c) p (call.returns (.error .contextDone)) []
  | answer {a : Action} {peer : String} {resp : Response}
      (waits : (peer, call.request) ∈ call.running)
      (ends : Ends c call.node peer call.request (some resp) a) :
      Moves w now p c call a (p.mark peer true)
        { call.ended peer call.request with results := call.results ++ [(peer, resp)] } []
  | fetched {a : Action} {key peer : String} {v : List UInt8} (op : call.op = .read key)
      (polls : call.polls w = false) (waits : (peer, call.request) ∈ call.running)
      (ends : Ends c call.node peer call.request (some (.value v)) a) :
      Moves w now p c call a (p.mark peer true)
        ((call.ended peer call.request).returns (.value v)) []
  | refuse {a : Action} {peer : String} (waits : (peer, call.request) ∈ call.running)
      (ends : Ends c call.node peer call.request none a) :
      Moves w now p c call a (p.mark peer false) (call.ended peer call.request) []
  | settle {a : Action} {peer : String} {req : Request} {outcome : Option Response}
      (waits : (peer, req) ∈ call.running) (undoes : req ≠ call.request)
      (ends : Ends c call.node peer req outcome a) :
      Moves w now p c call a p (call.ended peer req) []
  | getLocal {key : String} (op : call.op = .read key) (polls : call.polls w = true)
      (waits : (call.node, call.request) ∈ call.running) :
      Moves w now p c call (.getLocal c) (p.get now key)
        { call.ended call.node call.request with
          results := call.results ++ [(call.node, .ofGet (p.store.get now key).2)] } []

end Call

/-- The first sections of the three calls at node `self`. -/
inductive Started (w : Setup) (now : Int) (p : Proc) (self : String) : Op → Proc → Call → Prop
  | refused {op : Op} {err : Error}
      (why : (w.isPrimary self op.key = false ∧
          ((∀ key, op ≠ .read key) ∨ w.cfg.readConsistency = .primary)) ∨
        w.isInReplicaSet self op.key = false ∨ ∃ failed, w.replicaSet op.key = .error failed) :
      Started w now p self op p (.begin self op (.returned (.error err)))
  | setFailed {key : String} {value : List UInt8} {ttl : Int} {err : Cache.StoreError}
      (primary : w.isPrimary self key = true)
      (failed : (p.store.set now key value ttl).2 = some err) :
      Started w now p self (.set key value ttl) (p.set now key value ttl)
        (.begin self (.set key value ttl) (.returned (.error (.store err))))
  | setAlone {key : String} {value : List UInt8} {ttl : Int}
      (primary : w.isPrimary self key = true)
      (ok : (p.store.set now key value ttl).2 = none) (alone : w.required = 0) :
      Started w now p self (.set key value ttl) (p.set now key value ttl)
        (.begin self (.set key value ttl) (.returned .stored))
  | set {key : String} {value : List UInt8} {ttl : Int} {nodes : List Node}
      (primary : w.isPrimary self key = true)
      (ok : (p.store.set now key value ttl).2 = none) (needs : w.required ≠ 0)
      (owners : w.replicaSet key = .ok nodes) :
      Started w now p self (.set key value ttl) (p.set now key value ttl)
        (.begin self (.set key value ttl) (.visiting nodes))
  | deleteMissing {key : String} (primary : w.isPrimary self key = true)
      (missing : (p.store.get now key).2 = none) :
      Started w now p self (.delete key) (p.get now key)
        (.begin self (.delete key) (.returned (.deleted false)))
  | deleteAlone {key : String} {existing : List UInt8} (primary : w.isPrimary self key = true)
      (present : (p.store.get now key).2 = some existing) (alone : w.required = 0) :
      Started w now p self (.delete key) (p.get now key)
        { Call.begin self (.delete key) (.visiting []) with existing := existing }
  | delete {key : String} {existing : List UInt8} {nodes : List Node}
      (primary : w.isPrimary self key = true)
      (present : (p.store.get now key).2 = some existing) (needs : w.required ≠ 0)
      (owners : w.replicaSet key = .ok nodes) :
      Started w now p self (.delete key) (p.get now key)
        { Call.begin self (.delete key) (.visiting nodes) with existing := existing }
  | lookupFailed {op : Op} {err : Cluster.LookupError} (failed : w.replicaSet op.key = .error err) :
      Started w now p self op (p.get now op.key)
        (.begin self op (.returned (.error (.lookup err))))
  | readPrimary {key : String} (mode : w.cfg.readConsistency = .primary) :
      Started w now p self (.read key) (p.get now key)
        (.begin self (.read key) (.returned (.ofGet (p.store.get now key).2)))
  | readAny {key : String} {v : List UInt8} (mode : w.cfg.readConsistency = .any)
      (present : (p.store.get now key).2 = some v) :
      Started w now p self (.read key) (p.get now key)
        (.begin self (.read key) (.returned (.value v)))
  | readPeers {key : String} {nodes : List Node} (mode : w.cfg.readConsistency = .any)
      (owners : w.replicaSet key = .ok nodes) (missing : (p.store.get now key).2 = none) :
      Started w now p self (.read key) (p.get now key) (.begin self (.read key) (.visiting nodes))
  | readQuorum {key : String} {nodes : List Node}
      (mode : w.cfg.readConsistency ≠ .primary ∧ w.cfg.readConsistency ≠ .any)
      (member : w.isInReplicaSet self key = true) (owners : w.replicaSet key = .ok nodes) :
      Started w now p self (.read key) p (.begin self (.read key) (.visiting nodes))

/-- The messages that are left when a step has taken the one it is about. -/
def Action.remaining (a : Action) (net : List Msg) : List Msg :=
  match a with
  | .deliver msg => net.erase msg
  | _ => net

inductive Step (w : Setup) (now : Int) (s : Sys) : Action → Sys → Prop
  | start {node : String} {op : Op} {p : Proc} {call : Call}
      (started : Started w now (s.procs node) node op p call) :
      Step w now s (.start node op) { s.put node p with calls := s.calls ++ [call] }
  | move {a : Action} {c : Nat} {call call' : Call} {p : Proc} {out : List (String × Request)}
      (found : s.calls[c]? = some call)
      (moves : call.Moves w now (s.procs call.node) c a p call' out)
      (sent : ∀ msg, a = .deliver msg → msg ∈ s.net) :
      Step w now s a
        { procs := Function.update s.procs call.node p
          calls := s.calls.set c call'
          net := a.remaining s.net ++ out.map fun r => .request c r.1 r.2 }
  | handle {c : Nat} {peer : String} {req : Request} (sent : .request c peer req ∈ s.net) :
      Step w now s (.deliver (.request c peer req))
        { procs := Function.update s.procs peer (serve w peer now (s.procs peer) req).1
          calls := s.calls
          net := s.net.erase (.request c peer req) ++
            [.response c peer req (serve w peer now (s.procs peer) req).2] }
  | late {c : Nat} {peer : String} {req : Request} {resp : Response}
      (sent : .response c peer req resp ∈ s.net)
      (nobody : ∀ call : Call, s.calls[c]? = some call → (peer, req) ∉ call.running) :
      Step w now s (.deliver (.response c peer req resp))
        { s with net := s.net.erase (.response c peer req resp) }
  | lose {msg : Msg} (sent : msg ∈ s.net) :
      Step w now s (.lose msg) { s with net := s.net.erase msg }
  | mark {node peer : String} (healthy : Bool) (other : peer ≠ node) :
      Step w now s (.mark node peer healthy) (s.put node ((s.procs node).mark peer healthy))
  | cleanupExpired (node : String) :
      Step w now s (.cleanupExpired node)
        (s.put node { s.procs node with store := (s.procs node).store.cleanupExpired now })

/-- No call takes the step that starts another. -/
theorem Call.Moves.not_start {w : Setup} {now : Int} {p p' : Proc} {c : Nat} {call call' : Call}
    {node : String} {op : Op} {out : List (String × Request)} :
    ¬ call.Moves w now p c (.start node op) p' call' out := by
  intro m
  cases m with
  | answer _ ends | refuse _ ends | settle _ _ ends | fetched _ _ _ ends => cases ends

theorem Step.started {w : Setup} {now : Int} {s s' : Sys} {node : String} {op : Op}
    (step : Step w now s (.start node op) s') : ∃ (p : Proc) (call : Call),
      Started w now (s.procs node) node op p call ∧
        s' = { s.put node p with calls := s.calls ++ [call] } := by
  cases step with
  | move _ moves => exact absurd moves Call.Moves.not_start
  | start started => exact ⟨_, _, started, rfl⟩

section Inversion

variable {w : Setup} {now : Int} {p p' : Proc} {c : Nat} {call call' : Call}

theorem Call.read_of_polls (call : Call) (polls : call.polls w = true) :
    ∃ key, call.op = .read key := by
  unfold Call.polls at polls
  split at polls
  · rename_i key op
    exact ⟨key, op⟩
  · cases polls

theorem Call.Moves.of_finish (phase : call.phase = .visiting []) (idle : call.running = []) :
    call.Moves w now p c (.advance c) (call.finish w now p).1 (call.finish w now p).2 [] := by
  unfold Call.finish
  split
  · rename_i op
    split
    · rename_i few
      exact .short (by simp [op]) phase idle few
    · rename_i enough
      exact .stored op phase idle (Int.not_lt.mp enough)
  · rename_i op
    split
    · rename_i few
      exact .short (by simp [op]) phase idle few
    · rename_i enough
      exact .deleted op phase idle (Int.not_lt.mp enough)
  · rename_i op
    split
    · rename_i polls
      exact .answered op polls phase idle
    · rename_i polls
      exact .exhausted op (Bool.not_eq_true _ ▸ polls) phase idle

theorem Call.Moves.of_undone (phase : call.phase = .undoing []) (idle : call.running = []) :
    call.Moves w now p c (.advance c) (call.undone w now p).1 (call.undone w now p).2 [] := by
  unfold Call.undone
  dsimp only
  split
  · rename_i op
    exact .undoneSet op phase idle
  · rename_i op
    exact .undone op phase idle

theorem Call.Moves.of_advance {out : List (String × Request)}
    (h : call.advance w now p = some (p', call', out)) :
    call.Moves w now p c (.advance c) p' call' out := by
  unfold Call.advance at h
  split at h
  · rename_i phase
    split at h
    · cases h
    · split at h
      · rename_i skips
        cases h
        exact .skip phase skips
      · rename_i wanted
        cases h
        exact .contact phase (Bool.not_eq_true _ ▸ wanted)
  · rename_i phase
    split at h
    · cases h
    · rename_i idle
      cases h
      exact .of_finish phase (Decidable.not_not.mp idle)
  · rename_i phase
    split at h
    · cases h
    · rename_i idle
      cases h
      exact .undo phase (Decidable.not_not.mp idle)
  · rename_i phase
    split at h
    · cases h
    · rename_i idle
      cases h
      exact .of_undone phase (Decidable.not_not.mp idle)
  · cases h

theorem Call.Moves.of_cancel {next : Proc × Call} (h : call.cancel w now p = some next) :
    call.Moves w now p c (.cancel c) next.1 next.2 [] := by
  unfold Call.cancel at h
  split at h
  · rename_i phase op
    cases h
    exact .cancelSet op phase
  · rename_i phase op
    split at h
    · rename_i polls
      cases h
      exact .cancelRead op polls phase
    · cases h
  · cases h

theorem Call.Moves.of_complete {a : Action} {peer : String} {req : Request}
    {outcome : Option Response} (waits : (peer, req) ∈ call.running)
    (ends : Ends c call.node peer req outcome a) :
    call.Moves w now p c a (call.complete w p peer req outcome).1
      (call.complete w p peer req outcome).2 [] := by
  unfold Call.complete
  dsimp only
  split
  · rename_i main
    obtain rfl : req = call.request := main
    cases outcome with
    | none => exact .refuse waits ends
    | some resp =>
        dsimp only
        split
        · rename_i polls op
          exact .fetched op polls waits ends
        · exact .answer waits ends
  · rename_i undoes
    exact .settle waits undoes ends

variable (w now p) in
theorem startSet_started (self key : String) (value : List UInt8) (ttl : Int) :
    Started w now p self (.set key value ttl) (startSet w self now p key value ttl).1
      (startSet w self now p key value ttl).2 := by
  unfold startSet
  dsimp only
  split
  · rename_i primary
    cases stored : (p.store.set now key value ttl).2 with
    | none =>
        split
        · rename_i alone
          exact .setAlone primary stored alone
        · rename_i needs
          split
          · rename_i err failed
            exact .refused (.inr (.inr ⟨err, failed⟩))
          · rename_i nodes owners
            exact .set primary stored needs owners
    | some err =>
        split
        · exact .setFailed primary stored
        · split
          · rename_i err failed
            exact .refused (.inr (.inr ⟨err, failed⟩))
          · exact .setFailed primary stored
  · rename_i secondary
    exact .refused (.inl ⟨Bool.not_eq_true _ ▸ secondary, .inl nofun⟩)

variable (w now p) in
theorem startDelete_started (self key : String) :
    Started w now p self (.delete key) (startDelete w self now p key).1
      (startDelete w self now p key).2 := by
  unfold startDelete
  dsimp only
  split
  · rename_i primary
    split
    · rename_i missing
      exact .deleteMissing primary missing
    · rename_i existing present
      split
      · rename_i alone
        exact .deleteAlone primary present alone
      · rename_i needs
        split
        · rename_i err failed
          exact .lookupFailed failed
        · rename_i nodes owners
          exact .delete primary present needs owners
  · rename_i secondary
    exact .refused (.inl ⟨Bool.not_eq_true _ ▸ secondary, .inl nofun⟩)

variable (w now p) in
theorem startRead_started (self key : String) :
    Started w now p self (.read key) (startRead w self now p key).1
      (startRead w self now p key).2 := by
  unfold startRead
  dsimp only
  split
  · rename_i member
    split
    · rename_i mode
      split
      · exact .readPrimary mode
      · rename_i secondary
        exact .refused (.inl ⟨Bool.not_eq_true _ ▸ secondary, .inr mode⟩)
    · rename_i mode
      split
      · rename_i v present
        exact .readAny mode present
      · rename_i missing
        split
        · rename_i err failed
          exact .lookupFailed failed
        · rename_i nodes owners
          exact .readPeers mode owners missing
    · rename_i notPrimary notAny
      split
      · rename_i err failed
        exact .refused (.inr (.inr ⟨err, failed⟩))
      · rename_i nodes owners
        exact .readQuorum ⟨notPrimary, notAny⟩ member owners
  · rename_i outside
    exact .refused (.inr (.inl (Bool.not_eq_true _ ▸ outside)))

variable (w now p) in
theorem start_started (self : String) (op : Op) :
    Started w now p self op (start w self now p op).1 (start w self now p op).2 := by
  cases op with
  | set key value ttl => exact startSet_started w now p self key value ttl
  | delete key => exact startDelete_started w now p self key
  | read key => exact startRead_started w now p self key

theorem exec_step {s s' : Sys} {x : Int × Action} (h : exec w s x = .ok s') :
    Step w x.1 s x.2 s' := by
  obtain ⟨now, a⟩ := x
  cases a with
  | start node op =>
      cases h
      exact .start (start_started w now (s.procs node) node op)
  | advance c =>
      simp only [exec] at h
      split at h
      · cases h
      · rename_i call found
        split at h
        · cases h
        · rename_i moves
          cases h
          exact .move found (.of_advance moves) nofun
  | cancel c =>
      simp only [exec] at h
      split at h
      · cases h
      · rename_i call found
        split at h
        · cases h
        · rename_i moves
          cases h
          have step := Step.move found (.of_cancel moves) nofun
          simpa [Action.remaining, Sys.resume, Sys.put] using step
  | deliver msg =>
      simp only [exec] at h
      split at h
      · rename_i sent
        cases msg with
        | request c peer req =>
            cases h
            exact .handle sent
        | response c peer req resp =>
            cases h
            unfold receive
            split
            · rename_i call found
              split
              · rename_i waits
                have found : s.calls[c]? = some call := found
                have step : Step w now s _ _ := .move found (.of_complete waits (.response rfl))
                  (fun msg same => by cases same; exact sent)
                simpa [Action.remaining, Sys.resume, Sys.put, Sys.take] using step
              · rename_i nobody
                refine .late sent fun other there => ?_
                obtain rfl := Option.some.inj (found.symm.trans there)
                exact nobody
            · rename_i none
              refine .late sent fun other there => ?_
              cases none.symm.trans there
      · cases h
  | lose msg =>
      simp only [exec] at h
      split at h
      · rename_i sent
        cases h
        exact .lose sent
      · cases h
  | fail c peer req =>
      simp only [exec] at h
      split at h
      · cases h
      · rename_i call found
        split at h
        · rename_i waits
          cases h
          have step : Step w now s _ _ :=
            .move found (.of_complete waits.1 (.fail waits.2 rfl)) nofun
          simpa [Action.remaining, Sys.resume, Sys.put] using step
        · cases h
  | getLocal c =>
      simp only [exec] at h
      split at h
      · cases h
      · rename_i call found
        split at h
        · rename_i waits
          cases h
          obtain ⟨polls, waits⟩ := waits
          obtain ⟨key, op⟩ := call.read_of_polls polls
          have step : Step w now s _ _ := .move found (.getLocal op polls waits) nofun
          simpa [Action.remaining, Sys.resume, Sys.put, Call.getLocal, Call.ended, op, Op.key]
            using step
        · cases h
  | mark node peer healthy =>
      simp only [exec] at h
      split at h
      · rename_i other
        cases h
        exact .mark healthy other
      · cases h
  | cleanupExpired node =>
      cases h
      exact .cleanupExpired node

end Inversion

end DistributedCache.Replication
