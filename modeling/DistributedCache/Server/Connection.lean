import DistributedCache.Cache.TtlMap
import DistributedCache.Lib.Serving
import DistributedCache.Server.Readable
import DistributedCache.Server.Routing

/-!
`handleConn`, and the connections of a server that is on its own.

A handler reads requests from its connection, one at a time, and writes a response for each.
It leaves without a word when the stream ends at the end of a line or a deadline passes, and
with an `ERR` response when the stream cannot be decoded. Requests may be sent ahead and may
arrive in any pieces. Without a cluster and without Raft the handlers share nothing but the
store, which is locked for each operation. A length that is too large for `make` is left out
here, and so is a connection that is reset, after which there is nobody to read an answer.
-/
namespace DistributedCache.Server

open GoText Framing Protocol Serving

/-- The texts of the errors of `DecodeRequest` and `DecodeResponse`. -/
def decodeErrorText (quote : String → Line) : DecodeError → Bytes
  | .eof => ascii "EOF"
  | .unexpectedEOF => ascii "unexpected EOF"
  | .missingCmd => ascii "invalid request: missing CMD line"
  | .emptyCommand => ascii "invalid request: empty command"
  | .missingKey => ascii "invalid request: missing KEY line"
  | .emptyKey => ascii "invalid request: empty key"
  | .missingVal => ascii "invalid request: missing VAL line"
  | .invalidLength => ascii "invalid request: invalid value length"
  | .invalidTTL => ascii "invalid request: invalid TTL"
  | .missingEnd => ascii "invalid request: missing END line"
  | .unknownCommand command => ascii "unknown command: " ++ command
  | .invalidMembersCount => ascii "invalid request: invalid members count"
  | .invalidMemberLine => ascii "invalid request: invalid member line"
  | .invalidNodeLine line => ascii "invalid request: invalid node line " ++ (quote (text line)).1
  | .unknownLine line =>
      ascii "invalid request: unknown response line " ++ (quote (text line)).1

/-- The errors of a stream that is too short. -/
def starved (e : DecodeError) : Bool :=
  e = .eof ∨ e = .unexpectedEOF

/-- What `handleConn` does with what it reads. -/
def handler (quote : String → Line) : Service UInt8 DecodeError Request Response where
  decode := decodeRequest
  encode := encodeResponse
  starved := starved
  complaint e := if e = .eof then none else some (errorResponse (decodeErrorText quote e))

section Steady

theorem steady_readLine : Steady starved readLine where
  ok := by
    intro s body rest h more
    obtain ⟨raw, free, rfl, rfl⟩ := of_run_readLine h
    rw [List.append_assoc, List.cons_append]
    exact run_readLine free (rest ++ more)
  error := by
    intro s e h fed
    change readLine s = .error e at h
    unfold readLine at h
    split at h
    · cases h
    · cases h
      cases fed

theorem steady_readFull (length : Nat) : Steady starved (readFull length) where
  ok := by
    intro s value rest h more
    obtain ⟨text, ⟨size, rfl⟩, rfl⟩ := (reads_readFull length s value rest).mp h
    rw [List.append_assoc, ← size]
    exact run_readFull text (rest ++ more)
  error := by
    intro s e h fed
    change (if length ≤ s.length then Except.ok (s.take length, s.drop length)
      else .error (if s = [] then DecodeError.eof else .unexpectedEOF)) = _ at h
    split at h
    · cases h
    · cases h
      split at fed <;> cases fed

theorem steady_readRaw (length : Nat) : Steady starved (readRaw length) :=
  (steady_readFull length).bind fun value => steady_readLine.bind fun _ => steady_pure value

theorem steady_readEnd : Steady starved readEnd :=
  steady_readLine.bind fun _ => steady_ite (steady_pure ()) (steady_throw _)

theorem steady_decodeValueBody (req : Request) : Steady starved (decodeValueBody req) := by
  refine steady_readLine.bind fun valLine => ?_
  split
  · exact steady_throw _
  · split
    · exact steady_throw _
    · exact (steady_readRaw _).bind fun value => steady_pure _

theorem steady_decodeSetRequest (req : Request) : Steady starved (decodeSetRequest req) := by
  refine (steady_decodeValueBody req).bind fun req => steady_readLine.bind fun ttlLine => ?_
  split
  · exact steady_ite (steady_pure req) (steady_throw _)
  · split
    · exact steady_throw _
    · exact steady_ite (steady_throw _) (steady_readEnd.bind fun _ => steady_pure _)

theorem steady_decodeValueRequest (req : Request) : Steady starved (decodeValueRequest req) :=
  (steady_decodeValueBody req).bind fun req => steady_readEnd.bind fun _ => steady_pure req

theorem steady_decodeArguments (req : Request) : Steady starved (decodeArguments req) :=
  steady_ite (steady_decodeSetRequest req) (steady_ite (steady_decodeValueRequest req)
    (steady_ite (steady_readEnd.bind fun _ => steady_pure req) (steady_throw _)))

theorem steady_decodeCommand (command : Bytes) : Steady starved (decodeCommand command) := by
  refine steady_ite (steady_throw _) (steady_ite (steady_readEnd.bind fun _ => steady_pure _)
    (steady_readLine.bind fun keyLine => ?_))
  split
  · exact steady_throw _
  · exact steady_ite (steady_throw _) (steady_decodeArguments _)

/-- A request is read as soon as it has arrived, and what is no request is refused as soon as
that can be seen. -/
theorem steady_decodeRequest : Steady starved decodeRequest := by
  refine steady_readLine.bind fun cmdLine => ?_
  split
  · exact steady_throw _
  · exact steady_decodeCommand _

end Steady

section Order

variable {quote : String → Line} {past : List (Conn UInt8 Request Response × Event UInt8 Response)}
  {c : Conn UInt8 Request Response}

theorem serves_handler (run : Connected (handler quote) past c) :
    Serving.Serves (handler quote) past c :=
  run.serves steady_decodeRequest consumes_decodeRequest

/-- The requests of a stream, and what is left behind the last of them. -/
def requests (stream : Bytes) : List Request × Bytes :=
  decodeAll decodeRequest stream

/-- The bytes of the answers, one after another. -/
def written (pairs : List (Request × Response)) : Bytes :=
  pairs.flatMap fun x => encodeResponse x.2

/-- What the handler writes before it leaves. -/
def farewell (quote : String → Line) (e : DecodeError) : Bytes :=
  if e = .eof then [] else encodeResponse (errorResponse (decodeErrorText quote e))

theorem farewell_handler (e : DecodeError) : (handler quote).farewell e = farewell quote e := by
  unfold Service.farewell farewell
  by_cases silent : e = .eof
  · simp [handler, silent]
  · simp [handler, silent]

theorem answered_begins (serves : Serving.Serves (handler quote) past c) :
    (exchanged past).map Prod.fst <+: (requests (Serving.received past)).1 := by
  have stream : requests (Serving.received past ++ []) = _ := serves.stream []
  rw [List.append_nil] at stream
  rw [stream, List.append_assoc]
  exact List.prefix_append _ _

theorem outbox_reading (serves : Serving.Serves (handler quote) past c)
    (reading : c.phase = .reading) : c.outbox = written (exchanged past) := by
  have output := serves.output
  simp only [Conn.Output, reading] at output
  exact output

/-- Where the handler is stuck, all requests have been answered. -/
theorem requests_of_stuck {e : DecodeError} (serves : Serving.Serves (handler quote) past c)
    (idle : c.phase.pending = []) (stuck : c.Stuck (handler quote) e) :
    requests (Serving.received past) = ((exchanged past).map Prod.fst, c.inbox) := by
  have stream : requests (Serving.received past ++ []) = _ := serves.stream []
  rw [List.append_nil, List.append_nil, decodeAll_error stuck.1, idle] at stream
  simpa using stream

/-- Whatever the pieces in which a stream arrives, its requests are answered in its order,
each once. What has been written is the answers one after another, and behind them at most
one `ERR` response, for what follows the last request. If no deadline passes and no write
fails, the handler does not leave before all requests have been answered. -/
theorem requests_answered_in_order (run : Connected (handler quote) past c) :
    (exchanged past).map Prod.fst <+: (requests (Serving.received past)).1 ∧
    (c.phase = .reading → c.outbox = written (exchanged past)) ∧
    (c.outbox <+: written (exchanged past) ∨ ∃ e rest,
      requests (Serving.received past) = ((exchanged past).map Prod.fst, rest) ∧
      decodeRequest.run rest = .error e ∧
      c.outbox <+: written (exchanged past) ++ farewell quote e) ∧
    (Transition.Meets Smooth past → c.phase = .closed → ∃ e rest,
      requests (Serving.received past) = ((exchanged past).map Prod.fst, rest) ∧
      decodeRequest.run rest = .error e ∧
      c.outbox = written (exchanged past) ++ farewell quote e) := by
  have serves := serves_handler run
  have output := serves.output
  have all {e : DecodeError} (idle : c.phase.pending = []) (stuck : c.Stuck (handler quote) e) :=
    requests_of_stuck serves idle stuck
  refine ⟨answered_begins serves, outbox_reading serves, ?_, ?_⟩
  · unfold Conn.Output at output
    cases phase : c.phase with
    | reading | handling =>
        rw [phase] at output
        exact .inl (output ▸ List.prefix_refl _)
    | writing response =>
        rw [phase] at output
        exact .inl ⟨_, output⟩
    | parting response =>
        rw [phase] at output
        exact .inl (output.1 ▸ List.prefix_refl _)
    | closed =>
        rw [phase] at output
        refine output.imp And.right ?_
        rintro ⟨e, stuck, front, _⟩
        exact ⟨e, c.inbox, all (by rw [phase]; rfl) stuck, stuck.1, farewell_handler e ▸ front⟩
  · intro smooth closed
    simp only [Conn.Output, closed] at output
    obtain ⟨broken, _⟩ | ⟨e, stuck, _, whole⟩ := output
    · exact absurd smooth broken
    · exact ⟨e, c.inbox, all (by rw [closed]; rfl) stuck, stuck.1,
        farewell_handler e ▸ whole smooth⟩

end Order

/-- Two requests in three pieces, with a line behind them that is no request. -/
def pieces : List (Event UInt8 Response) :=
  [.arrive (ascii "CMD PING\nEND\nCMD G"), .read, .arrive (ascii "ET\nKEY a\nEN"),
    .answer okResponse, .write, .arrive (ascii "D\nGET a\n"), .read, .answer notFoundResponse,
    .write, .read, .write]

theorem requests_answered_in_order_pieces : ∃ past c, Connected (handler quiet.quote) past c ∧
    c.phase = .closed ∧ (exchanged past).map Prod.snd = [okResponse, notFoundResponse] ∧
    c.outbox = ascii "OK\nEND\nNIL\nEND\nERR invalid request: missing CMD line\nEND\n" ∧
    ∃ e rest, requests (Serving.received past) = ((exchanged past).map Prod.fst, rest) ∧
      decodeRequest.run rest = .error e ∧
      c.outbox = written (exchanged past) ++ farewell quiet.quote e := by
  obtain ⟨past, c, run, check⟩ := Connected.of_events (handler quiet.quote) pieces
    (fun past c => decide (
      Transition.Meets Smooth past ∧ c.phase = .closed ∧
      (exchanged past).map Prod.snd = [okResponse, notFoundResponse] ∧
      c.outbox = ascii "OK\nEND\nNIL\nEND\nERR invalid request: missing CMD line\nEND\n"))
    (by decide +kernel)
  obtain ⟨smooth, closed, answers, out⟩ := of_decide_eq_true check
  exact ⟨past, c, run, closed, answers, out,
    (requests_answered_in_order run).2.2.2 smooth closed⟩

section Alone

/-- A server without a cluster and without Raft. -/
def alone (maxBytes : Int) (metrics : Bool) : Server where
  cluster := none
  raft := none
  metrics := metrics
  store := Cache.newStore maxBytes

/-- What the handlers of such a server share. -/
def standalone : Program Server Request Response Outside Int where
  dispatch s out req := (s.dispatch out req).toOption
  background s now := { s with store := s.store.cleanupExpired now }

/-- The operation that a request stands for. -/
def asked (req : Request) : Option Cache.Op :=
  if req.command = commandSet then some (.set (text req.key) (req.value.getD []) req.ttl)
  else if req.command = commandDelete then some (.delete (text req.key))
  else if req.command = commandGet then some (.get (text req.key))
  else none

/-- The response for the result of an operation. -/
def wire : Cache.Result → Response
  | .set (some err) => errorResponse (storeErrorText err)
  | .get value => getResponse value
  | .delete false => notFoundResponse
  | .set none | .delete true | .cleaned => okResponse

variable {s : Server} (cluster : s.cluster = none) (raft : s.raft = none)

include cluster in
theorem dispatch_asked (out : Outside) {req : Request} {op : Cache.Op} (h : asked req = some op) :
    s.dispatch out req = .ok ({ s with store := (s.store.apply out.now op).1 },
      wire (s.store.apply out.now op).2) := by
  have replicating : s.replicating = none := by simp [replicating, manager, cluster]
  have owned (key : String) : s.checkOwnership key = none := by simp [checkOwnership, cluster]
  have passes : s.checkRouting req = none := by
    unfold checkRouting checkReadRouting checkWriteRouting
    rw [replicating, owned, ite_self]
  unfold asked at h
  split at h
  · rename_i set
    cases h
    rw [dispatch_data (by simp [set]), passes, handleData, if_pos set, dispatchSet, replicating]
    dsimp only
    cases failed : (s.store.set out.now (text req.key) (req.value.getD []) req.ttl).2 with
    | none => simp [routed, Cache.Store.apply, wire, failed]; rfl
    | some err => simp [routed, Cache.Store.apply, wire, failed]; rfl
  · rename_i set
    split at h
    · rename_i delete
      cases h
      rw [dispatch_data (by simp [delete]), passes, handleData, if_neg set, if_pos delete,
        dispatchDelete, replicating]
      dsimp only
      cases found : (s.store.delete out.now (text req.key)).2 with
      | false => simp [routed, Cache.Store.apply, wire, found]; rfl
      | true => simp [routed, Cache.Store.apply, wire, found]; rfl
    · rename_i delete
      split at h
      · rename_i get
        cases h
        rw [dispatch_data (by simp [get]), passes, handleData, if_neg set, if_neg delete,
          dispatchGet, replicating]
        rfl
      · cases h

theorem readable_dispatchMetrics {out : Outside} :
    (s.dispatchMetrics out).value.length < 2 ^ 63 → (s.dispatchMetrics out).Readable := by
  unfold dispatchMetrics
  split
  · cases out.json.metrics with
    | ok value => exact fun bound => bound
    | error message => exact fun _ => message.2
  · intro _
    change (10 : UInt8) ∉ ascii "metrics not enabled"
    decide

include cluster raft in
theorem dispatch_unasked (out : Outside) {req : Request} (h : asked req = none) :
    ∃ resp, s.dispatch out req = .ok (s, resp) ∧ (resp.value.length < 2 ^ 63 → resp.Readable) := by
  have refused (message : Bytes) (free : 10 ∉ message) :
      (errorResponse message).value.length < 2 ^ 63 → (errorResponse message).Readable :=
    fun _ => free
  have unmanaged : s.manager = none := by simp [manager, cluster]
  have data : req.command ≠ commandSet ∧ req.command ≠ commandDelete ∧
      req.command ≠ commandGet := by
    unfold asked at h
    split at h
    · cases h
    · rename_i set
      split at h
      · cases h
      · rename_i delete
        split at h
        · cases h
        · rename_i get
          exact ⟨set, delete, get⟩
  unfold dispatch
  dsimp only
  by_cases ping : req.command = commandPing
  · rw [if_pos ping]
    exact ⟨okResponse, rfl, fun _ => trivial⟩
  rw [if_neg ping]
  by_cases metrics : req.command = commandMetrics
  · rw [if_pos metrics]
    exact ⟨_, rfl, readable_dispatchMetrics⟩
  rw [if_neg metrics]
  by_cases vote : req.command = commandRaftRequestVote
  · rw [if_pos vote, dispatchRaftRequestVote, raft]
    exact ⟨_, rfl, refused _ (by decide)⟩
  rw [if_neg vote]
  by_cases append : req.command = commandRaftAppendEntries
  · rw [if_pos append, dispatchRaftAppendEntries, raft]
    exact ⟨_, rfl, refused _ (by decide)⟩
  rw [if_neg append]
  by_cases status : req.command = commandRaftStatus
  · rw [if_pos status, dispatchRaftStatus, raft]
    exact ⟨_, rfl, refused _ (by decide)⟩
  rw [if_neg status]
  by_cases replSet : req.command = commandReplSet
  · rw [if_pos replSet, dispatchReplicaSet, dispatchReplica, unmanaged]
    exact ⟨_, rfl, refused _ (by decide)⟩
  rw [if_neg replSet]
  by_cases replDelete : req.command = commandReplDelete
  · rw [if_pos replDelete, dispatchReplicaDelete, dispatchReplica, unmanaged]
    exact ⟨_, rfl, refused _ (by decide)⟩
  rw [if_neg replDelete]
  by_cases replGet : req.command = commandReplGet
  · rw [if_pos replGet, dispatchReplicaGet, dispatchReplica, unmanaged]
    exact ⟨_, rfl, refused _ (newline_not_mem_replicationError _ _ _)⟩
  rw [if_neg replGet]
  by_cases owner : req.command = commandOwner
  · rw [if_pos owner, dispatchOwner, cluster]
    exact ⟨_, rfl, refused _ (by decide)⟩
  rw [if_neg owner]
  by_cases members : req.command = commandClusterMembers
  · rw [if_pos members, dispatchClusterMembers, cluster]
    exact ⟨_, rfl, refused _ (by decide)⟩
  rw [if_neg members]
  by_cases join : req.command = commandClusterJoin
  · rw [if_pos join, dispatchClusterJoin, cluster]
    exact ⟨_, rfl, refused _ (by decide)⟩
  rw [if_neg join]
  by_cases leave : req.command = commandClusterLeave
  · rw [if_pos leave, dispatchClusterLeave, cluster]
    exact ⟨_, rfl, refused _ (by decide)⟩
  rw [if_neg leave]
  rw [if_neg data.1, if_neg data.2.1, if_neg data.2.2]
  exact ⟨_, rfl, refused _ (by decide)⟩

end Alone

section Shared

abbrev LoneHost := Host Server UInt8 Request Response

abbrev LoneAct := Act UInt8 Response Outside Int

/-- The operation that a step makes at the store, as the store's own runs record it. -/
def storeCall (x : LoneHost × LoneAct) : Option (Cache.Store × Int × Cache.Op) :=
  match x.2 with
  | .serve i out =>
      match (x.1.conns i).phase with
      | .handling req => (asked req).map fun op => (x.1.server.store, out.now, op)
      | _ => none
  | .background now => some (x.1.server.store, now, .cleanupExpired)
  | .event _ _ => none

/-- A `SET`, `GET` or `DEL` request with its answer. -/
def dataAnswer (x : Served Request Response Outside) : Option (Int × Cache.Op × Response) :=
  (asked x.request).map fun op => (x.outside.now, op, x.response)

/-- Those of all connections, in order. -/
def dataAnswers (past : List (LoneHost × LoneAct)) : List (Int × Cache.Op × Response) :=
  (answers standalone past).filterMap dataAnswer

variable {quote : String → Line} {maxBytes : Int} {metrics : Bool}
  {past : List (LoneHost × LoneAct)} {h : LoneHost}

theorem dataAnswers_cons (x : LoneHost × LoneAct) :
    dataAnswers (x :: past) =
      dataAnswers past ++ ((served standalone x).bind dataAnswer).toList := by
  rw [dataAnswers, answers_cons, List.filterMap_append, dataAnswers]
  cases served standalone x with
  | none => rfl
  | some y =>
      cases made : dataAnswer y with
      | none => simp [made]
      | some z => simp [made]

theorem asked_ne_cleanup {req : Request} {op : Cache.Op} (h : asked req = some op) :
    op ≠ .cleanupExpired := by
  rintro rfl
  unfold asked at h
  split at h
  · cases h
  · split at h
    · cases h
    · split at h <;> cases h

theorem calls_cons {s : Cache.Store} {now : Int} {op : Cache.Op} (other : op ≠ .cleanupExpired)
    (calls : List (Cache.Store × Int × Cache.Op)) :
    Cache.calls ((s, now, op) :: calls) = Cache.record (s, now, op) :: Cache.calls calls := by
  simp [Cache.calls, Cache.history, Cache.record, other]

/-- A record of the store as a request with its answer. -/
def answered (r : Cache.Record) : Int × Cache.Op × Response :=
  (r.time, r.op, wire r.result)

/-- The server stays alone, its store is the one that the operations of all connections leave,
and the answers are the results of these operations. -/
structure Shares (maxBytes : Int) (past : List (LoneHost × LoneAct)) (h : LoneHost) : Prop where
  cluster : h.server.cluster = none
  raft : h.server.raft = none
  store : Cache.Run maxBytes (past.filterMap storeCall) h.server.store
  results : dataAnswers past = (Cache.calls (past.filterMap storeCall)).reverse.map answered
  readable : ∀ x ∈ answers standalone past, x.response.value.length < 2 ^ 63 → x.response.Readable

theorem readable_wire (result : Cache.Result) (bound : (wire result).value.length < 2 ^ 63) :
    (wire result).Readable := by
  cases result with
  | set err =>
      cases err with
      | none => trivial
      | some err => exact newline_not_mem_storeError err
  | get value =>
      cases value with
      | none => trivial
      | some value => exact bound
  | delete deleted => cases deleted <;> trivial
  | cleaned => trivial

theorem Shares.serve {i : Nat} {out : Outside} {req : Request} {server : Server}
    {response : Response} {conns : Nat → Conn UInt8 Request Response}
    (shares : Shares maxBytes past h) (handling : (h.conns i).phase = .handling req)
    (answer : standalone.dispatch h.server out req = some (server, response)) :
    Shares maxBytes ((h, .serve i out) :: past) ⟨server, conns⟩ := by
  have made := served_serve handling answer
  have readable (last : response.value.length < 2 ^ 63 → response.Readable) :
      ∀ x ∈ answers standalone ((h, .serve i out) :: past),
        x.response.value.length < 2 ^ 63 → x.response.Readable := by
    rw [answers_cons, made, Option.toList_some, List.forall_mem_append, List.forall_mem_singleton]
    exact ⟨shares.readable, last⟩
  have done : h.server.dispatch out req = .ok (server, response) := by
    change (h.server.dispatch out req).toOption = _ at answer
    cases result : h.server.dispatch out req with
    | error e =>
        rw [result] at answer
        cases answer
    | ok x =>
        rw [result] at answer
        cases answer
        rfl
  cases data : asked req with
  | none =>
      obtain ⟨resp, same, reads⟩ := dispatch_unasked shares.cluster shares.raft out data
      cases done.symm.trans same
      have quiet : storeCall (h, .serve i out) = none := by simp [storeCall, handling, data]
      have unseen : dataAnswers ((h, .serve i out) :: past) = dataAnswers past := by
        simp [dataAnswers_cons, made, dataAnswer, data]
      refine ⟨shares.cluster, shares.raft, ?_, ?_, readable reads⟩
      · rw [List.filterMap_cons_none quiet]
        exact shares.store
      · rw [List.filterMap_cons_none quiet, unseen]
        exact shares.results
  | some op =>
      cases done.symm.trans (dispatch_asked shares.cluster out data)
      have call : storeCall (h, .serve i out) = some (h.server.store, out.now, op) := by
        simp [storeCall, handling, data]
      refine ⟨shares.cluster, shares.raft, ?_, ?_, readable (readable_wire _)⟩
      · rw [List.filterMap_cons_some call]
        exact .next shares.store rfl
      · rw [List.filterMap_cons_some call, calls_cons (asked_ne_cleanup data), dataAnswers_cons,
          shares.results, made]
        simp [dataAnswer, data, Cache.record, answered]

theorem shares_run (run : Hosted (handler quote) standalone (alone maxBytes metrics) past h) :
    Shares maxBytes past h := by
  refine Transition.Run.induct_from (C := fun _ _ => True) (I := Shares maxBytes) ?_ ?_ run
    fun _ _ => trivial
  · exact ⟨rfl, rfl, .start rfl, rfl, fun x mem => absurd mem List.not_mem_nil⟩
  · intro past h act h' shares _ taken
    have quiet (none : served standalone (h, act) = none) :
        answers standalone ((h, act) :: past) = answers standalone past := by
      rw [answers_cons, none, Option.toList_none, List.append_nil]
    cases Host.steps_of_exec taken with
    | event plain step =>
        refine ⟨shares.cluster, shares.raft, shares.store, ?_, ?_⟩
        · rw [dataAnswers, quiet rfl]
          exact shares.results
        · rw [quiet rfl]
          exact shares.readable
    | background =>
        refine ⟨shares.cluster, shares.raft, .next shares.store rfl, ?_, ?_⟩
        · rw [dataAnswers, quiet rfl]
          exact shares.results
        · rw [quiet rfl]
          exact shares.readable
    | serve handling answer => exact shares.serve handling answer

/-- Every value that a `GET` is answered with is the one that the last `SET` or `DEL` on the
key before it has left, and has not expired. The most recent answer comes first. -/
def Current : List (Int × Cache.Op × Response) → Prop
  | [] => True
  | x :: earlier =>
      (∀ k v, x.2 = (.get k, valueResponse v) → ∃ s ttl,
        earlier.find? (fun y => y.2.1.writes k) = some (s, .set k v ttl, okResponse) ∧
          (ttl ≤ 0 ∨ x.1 < s + ttl)) ∧
      Current earlier

theorem find_answered {k : String} {records : List Cache.Record} {s ttl : Int} {v : Bytes}
    (last : Cache.latest records k = some ⟨s, .set k v ttl, .set none⟩) :
    (records.map answered).find? (fun y => y.2.1.writes k) =
      some (s, .set k v ttl, okResponse) := by
  rw [List.find?_map]
  exact congrArg (Option.map answered) last

theorem current_answers {calls : List (Cache.Store × Int × Cache.Op)} {s : Cache.Store}
    (run : Cache.Run maxBytes calls s) (clock : Cache.Clocked calls) :
    Current ((Cache.calls calls).map answered) := by
  induction run with
  | start initial => trivial
  | @next calls s s' a run step ih =>
      obtain ⟨now, op⟩ := a
      obtain ⟨_, _, before⟩ := clock.of_cons
      have current := ih before
      by_cases cleanup : op = .cleanupExpired
      · subst cleanup
        exact current
      · rw [calls_cons cleanup]
        refine ⟨fun k v same => ?_, current⟩
        obtain ⟨rfl, value⟩ := Prod.mk.inj same
        have got : (s.get now k).2 = some v := by
          change getResponse (s.get now k).2 = _ at value
          cases found : (s.get now k).2 with
          | none =>
              rw [found] at value
              cases value
          | some w =>
              rw [found] at value
              exact congrArg some (congrArg Response.value value)
        obtain ⟨_, backed, _⟩ := Cache.Run.backed run before
        obtain ⟨t, ttl, last, live⟩ := backed.holds_of_get got
        exact ⟨t, ttl, find_answered ((Cache.latest_calls calls k).trans last), live⟩

/-- All clients of a server that is alone see one map with times to live. -/
theorem clients_share_one_map
    (run : Hosted (handler quote) standalone (alone maxBytes metrics) past h)
    (clock : Cache.Clocked (past.filterMap storeCall))
    (fits : ∀ x ∈ answers standalone past, x.response.value.length < 2 ^ 63) :
    (∀ i, ((answers standalone past).filter fun x => x.conn = i).map (fun x => x.request) <+:
        (requests (Serving.received (past.filterMap (project standalone i)))).1 ∧
      ((h.conns i).phase = .reading → decodeAll decodeResponse (h.conns i).outbox =
        (((answers standalone past).filter fun x => x.conn = i).map
          fun x => x.response.received, []))) ∧
    Current (dataAnswers past).reverse ∧
    (maxBytes ≤ 0 → (dataAnswers past).reverse =
      (Cache.replay ((dataAnswers past).reverse.map fun x => (x.1, x.2.1))).map answered) := by
  have shares := shares_run run
  have results : (dataAnswers past).reverse =
      (Cache.calls (past.filterMap storeCall)).map answered := by
    rw [shares.results, List.map_reverse, List.reverse_reverse]
  refine ⟨fun i => ?_, ?_, fun unlimited => ?_⟩
  · obtain ⟨connected, same⟩ := run.connected i
    have serves := serves_handler connected
    have order := answered_begins serves
    rw [same, List.map_map] at order
    refine ⟨order, fun reading => ?_⟩
    rw [outbox_reading serves reading, same, written, List.flatMap_map]
    refine decodeAll_encoded consumes_decodeResponse _ fun x mem rest => ?_
    have mem := (List.mem_filter.mp mem).1
    exact (shares.readable x mem (fits x mem)).run_encodeResponse rest
  · rw [results]
    exact current_answers shares.store clock
  · have issued : (dataAnswers past).reverse.map (fun x => (x.1, x.2.1)) =
        Cache.issued (past.filterMap storeCall) := by
      rw [results, List.map_map]
      rfl
    rw [issued, ← Cache.Run.calls_eq_replay shares.store unlimited clock, results]

/-- One client stores a value for two seconds, and another one asks for it twice. -/
def twoClients : List LoneAct :=
  [.event 0 (.arrive (ascii "CMD SET\nKEY k\nVAL 2\nhi\nTTL 2\nE")),
    .event 1 (.arrive (ascii "CMD GET\nKEY k\nEND\nCMD GET\nKEY k\nEND\n")),
    .event 0 (.arrive (ascii "ND\n")), .event 0 .read, .serve 0 { quiet with now := 1 },
    .event 1 .read, .serve 1 { quiet with now := 2 }, .event 1 .write, .event 0 .write,
    .background 3000000000, .event 1 .read, .serve 1 { quiet with now := 3000000001 },
    .event 1 .write]

theorem clients_share_one_map_twoClients : ∃ past h,
    Hosted (handler quiet.quote) standalone (alone 0 false) past h ∧
    (dataAnswers past).map (fun x => x.2.2) =
      [okResponse, valueResponse (ascii "hi"), notFoundResponse] ∧
    decodeAll decodeResponse (h.conns 1).outbox =
      ([valueResponse (ascii "hi"), notFoundResponse], []) ∧
    Current (dataAnswers past).reverse ∧
    (dataAnswers past).reverse =
      (Cache.replay ((dataAnswers past).reverse.map fun x => (x.1, x.2.1))).map answered := by
  obtain ⟨past, h, run, check⟩ := Hosted.of_acts (handler quiet.quote) standalone (alone 0 false)
    twoClients (fun past h => decide (Cache.Clocked (past.filterMap storeCall) ∧
      (∀ x ∈ answers standalone past, x.response.value.length < 2 ^ 63) ∧
      (dataAnswers past).map (fun x => x.2.2) =
        [okResponse, valueResponse (ascii "hi"), notFoundResponse] ∧
      (h.conns 1).phase = .reading ∧
      (((answers standalone past).filter fun x => x.conn = 1).map fun x => x.response.received) =
        [valueResponse (ascii "hi"), notFoundResponse]))
    (by decide +kernel)
  obtain ⟨clock, fits, data, reading, seen⟩ := of_decide_eq_true check
  obtain ⟨each, current, map⟩ := clients_share_one_map run clock fits
  exact ⟨past, h, run, data, seen ▸ (each 1).2 reading, current, map (Int.le_refl 0)⟩

end Shared

end DistributedCache.Server
