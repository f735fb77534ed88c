import DistributedCache.Cache.TtlMap
import DistributedCache.Protocol.Response
import DistributedCache.Protocol.RoundTrip

/-!
What becomes of an accepted request.

A request that was read can be written again and is read back as it was, so a `SET` from a
client reaches the replicas unchanged. The length of a value and the seconds of a TTL are
taken as they stand, though: bytes between the end of a value and the end of its line are
lost, and the nanoseconds of a TTL above 292 years leave 64 bits.
-/
namespace DistributedCache.Protocol

open GoText Framing

/-- A stream that starts with a `SET` or `REPL_SET` request with a TTL line. -/
def HasTtl (s : Bytes) (seconds : Int) : Prop :=
  ∃ command key value dropped front mid last back, IsHead command key front ∧
    command ∈ setCommands ∧ IsValue value dropped mid ∧ IsTtl seconds last ∧
    s = front ++ (mid ++ (last ++ back))

section WellFormed

variable {command key value dropped text : Bytes} {seconds : Int} {req r : Request}

theorem IsValue.length_lt (body : IsValue value dropped text) : value.length < 2 ^ 63 := by
  obtain ⟨_, _, ⟨_, _, length⟩, _⟩ := body
  exact parseLength_lt length

/-- The seconds whose nanoseconds are a number of 64 bits. -/
theorem durationOfSeconds_eq_iff (positive : 0 < seconds) :
    durationOfSeconds seconds = seconds * 1000000000 ↔ seconds ≤ 9223372036 := by
  unfold durationOfSeconds
  constructor
  · intro same
    have range := Int.bmod_lt (x := seconds * 1000000000) (m := 2 ^ 64) (by decide)
    rw [same] at range
    omega
  · intro small
    refine Int.bmod_eq_of_le ?_ ?_ <;> omega

theorem Request.received_eq (whole : req.ttl = 0 ∨
    ∃ seconds, 0 < seconds ∧ req.ttl = seconds * 1000000000) : req.received = req := by
  have ttl : (if req.ttl > 0 then max 1 (req.ttl / 1000000000) * 1000000000 else 0) = req.ttl := by
    cases whole with
    | inl zero => rw [zero, if_neg (by decide)]
    | inr whole =>
        obtain ⟨seconds, positive, whole⟩ := whole
        rw [whole, if_pos (by omega)]
        omega
  unfold received
  rw [ttl]

/-- What is accepted can be sent, if its TTL did not leave 64 bits. -/
theorem IsArguments.wellFormed (arguments : IsArguments { command := command, key := key } req text)
    (keyed : key ≠ [] ∧ 10 ∉ key ∧ trimSpace key = key) (ttl : 0 ≤ req.ttl ∧ req.ttl < 2 ^ 63) :
    req.WellFormed := by
  have keyless : command ∉ keylessCommands := arguments.keyed.2
  have known : ∀ c ∈ keyCommands ++ (setCommands ++ valueCommands), c ∈ commands := by decide
  cases arguments with
  | key mem ends =>
      have others : ∀ c ∈ keyCommands, c ∉ setCommands ++ valueCommands ∧ c ∉ setCommands := by
        decide
      exact {
        command := known _ (List.mem_append_left _ mem)
        key := by rwa [if_neg keyless]
        value := by rw [if_neg (others _ mem).1]
        ttl := by rw [if_neg (others _ mem).2] }
  | value mem body ends =>
      exact {
        command := known _ (List.mem_append_right _ mem)
        key := by rwa [if_neg keyless]
        value := by
          rw [if_pos mem]
          exact ⟨_, rfl, body.length_lt⟩
        ttl := by
          split
          · exact ttl
          · rfl }
  | ttl mem body line positive ends =>
      have value := List.mem_append_left valueCommands mem
      exact {
        command := known _ (List.mem_append_right _ value)
        key := by rwa [if_neg keyless]
        value := by
          rw [if_pos value]
          exact ⟨_, rfl, body.length_lt⟩
        ttl := by rwa [if_pos mem] }

/-- A request from a client, as the primary sends it to the replicas. -/
theorem Request.WellFormed.replSet (wf : req.WellFormed) (set : req.command ∈ setCommands) :
    ({ req with command := commandReplSet } : Request).WellFormed := by
  have keyless : ∀ c ∈ setCommands, c ∉ keylessCommands := by decide
  have repl : commandReplSet ∈ setCommands := by decide
  have known : commandReplSet ∈ commands := by decide
  have key := wf.key
  have value := wf.value
  have ttl := wf.ttl
  rw [if_neg (keyless _ set)] at key
  rw [if_pos (List.mem_append_left _ set)] at value
  rw [if_pos set] at ttl
  exact {
    command := known
    key := by rwa [if_neg (keyless _ repl)]
    value := by rwa [if_pos (List.mem_append_left _ repl)]
    ttl := by rwa [if_pos repl] }

theorem Request.WellFormed.reencoded (wf : req.WellFormed) (whole : req.received = req) :
    ∃ text, encodeRequest req = .ok text ∧ decodeRequest.run text = .ok (req, []) := by
  refine ⟨requestText req, wf.encodeRequest_eq, ?_⟩
  have request := wf.isRequest
  rw [whole] at request
  exact reads_decodeRequest.run_whole request

end WellFormed

section Accepted

variable {s rest : Bytes} {req : Request}

/-- The TTL of an accepted request is that of its TTL line, in nanoseconds, or there is none. -/
theorem ttl_of_accepted (accepted : decodeRequest.run s = .ok (req, rest)) :
    req.ttl = 0 ∨ ∃ seconds, HasTtl s seconds ∧ 0 < seconds ∧
      req.ttl = durationOfSeconds seconds := by
  obtain ⟨text, request, rfl⟩ := (reads_decodeRequest s req rest).mp accepted
  cases request with
  | keyless => exact .inl rfl
  | keyed head arguments =>
      cases arguments with
      | key | value => exact .inl rfl
      | @ttl _ _ _ _ back _ mem body line positive ends =>
          refine .inr ⟨_, ⟨_, _, _, _, _, _, _, back ++ rest, head, mem, body, line, ?_⟩, positive,
            rfl⟩
          simp only [List.append_assoc]

/-- The line with the TTL of a stream is the one that its request was read from. -/
theorem HasTtl.of_accepted {seconds : Int} (line : HasTtl s seconds)
    (accepted : decodeRequest.run s = .ok (req, rest)) :
    0 < seconds ∧ req.ttl = durationOfSeconds seconds := by
  obtain ⟨command, key, value, dropped, front, mid, last, back, head, mem, body, line, rfl⟩ := line
  obtain ⟨text, request, same⟩ := (reads_decodeRequest _ req rest).mp accepted
  have keyless : ∀ c ∈ setCommands, c ∉ keylessCommands ∧ c ∉ keyCommands := by decide
  cases request with
  | keyless head' mem' ends =>
      obtain ⟨front₁, _, ⟨read, line₁, rfl⟩, _, rfl⟩ := head
      obtain ⟨read', line₂, rfl⟩ := head'
      rw [List.append_assoc, List.append_assoc] at same
      obtain ⟨rfl, _⟩ := line₁.unique_body line₂ same
      exact absurd mem' (keyless _ mem).1
  | keyed head' arguments =>
      rw [List.append_assoc] at same
      obtain ⟨rfl, rfl, same⟩ := head.unique head' same
      cases arguments with
      | key mem' => exact absurd mem' (keyless _ mem).2
      | value _ body' ends =>
          rw [List.append_assoc] at same
          exact (line.not_isEnd ends (body.unique body' same).2).elim
      | ttl _ body' line' positive =>
          rw [List.append_assoc, List.append_assoc] at same
          obtain ⟨rfl, _⟩ := line.unique line' (body.unique body' same).2
          exact ⟨positive, rfl⟩

theorem Request.wellFormed_of_accepted (accepted : decodeRequest.run s = .ok (req, rest))
    (ttl : 0 ≤ req.ttl ∧ req.ttl < 2 ^ 63) : req.WellFormed := by
  obtain ⟨text, request, rfl⟩ := (reads_decodeRequest s req rest).mp accepted
  cases request with
  | keyless head mem ends =>
      have others : ∀ c ∈ keylessCommands, c ∈ commands ∧ c ∉ setCommands ++ valueCommands ∧
          c ∉ setCommands := by decide
      obtain ⟨known, none, other⟩ := others _ mem
      exact {
        command := known
        key := by rw [if_pos mem]
        value := by rw [if_neg none]
        ttl := by rw [if_neg other] }
  | keyed head arguments => exact arguments.wellFormed head.plain ttl

/-- Writing an accepted request again loses nothing: the text is accepted as a whole and
stands for the same request. So a `SET` that a client sent reaches the replicas as it is. -/
theorem accepted_reencoded (accepted : decodeRequest.run s = .ok (req, rest))
    (bound : ∀ seconds, HasTtl s seconds → seconds ≤ (2 ^ 63 - 1) / 10 ^ 9) :
    (∃ text, encodeRequest req = .ok text ∧ decodeRequest.run text = .ok (req, [])) ∧
    (req.command ∈ setCommands →
      ∃ text, encodeRequest { req with command := commandReplSet } = .ok text ∧
        decodeRequest.run text = .ok ({ req with command := commandReplSet }, [])) := by
  have whole : req.ttl = 0 ∨ ∃ seconds, 0 < seconds ∧ req.ttl = seconds * 1000000000 ∧
      seconds ≤ 9223372036 := by
    refine (ttl_of_accepted accepted).imp_right ?_
    rintro ⟨seconds, line, positive, ttl⟩
    have small : seconds ≤ 9223372036 := bound seconds line
    exact ⟨seconds, positive, ttl.trans ((durationOfSeconds_eq_iff positive).mpr small), small⟩
  have range : 0 ≤ req.ttl ∧ req.ttl < 2 ^ 63 := by
    obtain zero | ⟨seconds, positive, ttl, small⟩ := whole
    · omega
    · omega
  have wf := Request.wellFormed_of_accepted accepted range
  have kept : req.ttl = 0 ∨ ∃ seconds, 0 < seconds ∧ req.ttl = seconds * 1000000000 :=
    whole.imp_right fun ⟨seconds, positive, ttl, _⟩ => ⟨seconds, positive, ttl⟩
  exact ⟨wf.reencoded (Request.received_eq kept), fun set =>
    (wf.replSet set).reencoded (Request.received_eq kept)⟩

/-- A stream has one line with a TTL at most. -/
theorem HasTtl.unique {seconds seconds' : Int} (line : HasTtl s seconds)
    (line' : HasTtl s seconds') : seconds = seconds' := by
  obtain ⟨_, _, _, _, front, mid, last, back, head, _, body, line, rfl⟩ := line
  obtain ⟨_, _, _, _, front', mid', last', back', head', _, body', line', same⟩ := line'
  obtain ⟨_, _, same⟩ := head.unique head' same
  exact (line.unique line' (body.unique body' same).2).1

/-- A `SET` with white space, a sign, zeros and carriage returns that the encoder never writes. -/
def looseSet : Bytes :=
  ascii "CMD \tSET \r\nKEY  k \r\n" ++ (ascii "VAL +1 \r\nv\r\n" ++ (ascii "TTL 007\r\n" ++
    ascii "END\r\nCMD PING\n"))

theorem hasTtl_looseSet : HasTtl looseSet 7 := by
  refine ⟨commandSet, ascii "k", ascii "v", [13], _, _, _, _, ?_, by decide, ?_, ?_, rfl⟩
  · exact ⟨ascii "CMD \tSET \r\n", ascii "KEY  k \r\n",
      ⟨ascii "\tSET ", ⟨ascii "CMD \tSET \r", by decide, by decide, by decide⟩, by decide⟩,
      ⟨ascii " k ", ⟨ascii "KEY  k \r", by decide, by decide, by decide⟩, by decide, by decide⟩,
      by decide⟩
  · exact ⟨ascii "VAL +1 \r\n", ascii "v\r\n",
      ⟨ascii "+1 ", ⟨ascii "VAL +1 \r", by decide, by decide, by decide⟩, by decide⟩,
      ⟨by decide, by decide⟩, by decide⟩
  · exact ⟨ascii "007", ⟨ascii "TTL 007\r", by decide, by decide, by decide⟩, by decide⟩

/-- A request for one byte, under a command and with a TTL. -/
def oneByte (command : Bytes) (ttl : Int) : Request :=
  { command := command, key := ascii "k", value := some (ascii "v"), ttl := ttl }

theorem run_looseSet :
    decodeRequest.run looseSet = .ok (oneByte commandSet 7000000000, ascii "CMD PING\n") := by
  decide +kernel

theorem accepted_reencoded_looseSet :
    ∃ text, encodeRequest (oneByte commandReplSet 7000000000) = .ok text ∧
      decodeRequest.run text = .ok (oneByte commandReplSet 7000000000, []) := by
  refine (accepted_reencoded run_looseSet ?_).2 (by decide)
  intro seconds line
  rw [line.unique hasTtl_looseSet]
  decide

/-- The expiry that `Set` gives an entry is that of the seconds of the TTL line exactly up to
292 years. -/
theorem ttl_exact_iff {seconds : Int} (accepted : decodeRequest.run s = .ok (req, rest))
    (line : HasTtl s seconds) :
    (req.ttl = seconds * 10 ^ 9 ∧ 0 < req.ttl ∧
      ∀ (store : Cache.Store) (now : Int) (key : String) (value : Bytes),
        (store.set now key value req.ttl).2 = none →
          ∃ e, (store.set now key value req.ttl).1.entries.lookup key = some e ∧
            e.value.expiresAt = now + seconds * 10 ^ 9) ↔
    seconds ≤ 9223372036 := by
  obtain ⟨positive, ttl⟩ := line.of_accepted accepted
  constructor
  · rintro ⟨whole, _⟩
    exact (durationOfSeconds_eq_iff positive).mp (ttl.symm.trans whole)
  · intro small
    have whole : req.ttl = seconds * 10 ^ 9 :=
      ttl.trans ((durationOfSeconds_eq_iff positive).mpr small)
    have after : req.ttl > 0 := by omega
    refine ⟨whole, after, fun store now key value ok => ?_⟩
    obtain ⟨e, found, stored⟩ := Cache.Store.lookup_set_self ok
    refine ⟨e, found, ?_⟩
    rw [stored, ← whole]
    exact if_pos after

theorem ttl_exact_iff_looseSet :
    (oneByte commandSet 7000000000).ttl = 7 * 10 ^ 9 :=
  ((ttl_exact_iff run_looseSet hasTtl_looseSet).mpr (by decide)).1

/-- A `SET` with a TTL. -/
def setWithTtl (seconds : Nat) : Bytes :=
  ascii "CMD SET\nKEY k\nVAL 1\nv\n" ++ line (ascii "TTL ") (decimal seconds) ++ ascii "END\n"

/-- The nanoseconds of 9223372037 seconds are negative in 64 bits, and the entry never
expires; those of 18446744074 seconds are less than a second. -/
theorem ttl_wraps :
    decodeRequest.run (setWithTtl 9223372037) =
      .ok (oneByte commandSet (-9223372036709551616), []) ∧
    ((Cache.newStore 0).set 5 "k" (ascii "v") (-9223372036709551616)).1.entries.entries.map
      (fun e => e.2.value.expiresAt) = [0] ∧
    decodeRequest.run (setWithTtl 18446744074) = .ok (oneByte commandSet 290448384, []) := by
  decide +kernel

end Accepted

section Truncation

variable {β : Type} {front value after tail : Bytes}

/-- What may stand behind the bytes of a value if nothing is to be lost. -/
def Terminated (after : Bytes) : Prop :=
  [10] <+: after ∨ [13, 10] <+: after

/-- Behind the length of a value the decoder of requests reads the value, and the rest
without changing it. -/
theorem RequestFront.run {length : Nat} (request : RequestFront length front) :
    ∃ next : Bytes → Reader Request,
      (∀ value, Yields (fun r => r.value = some value) (next value)) ∧
      ∀ s, decodeRequest.run (front ++ s) = (readRaw length >>= next).run s := by
  obtain ⟨command, key, head, last, isHead, mem, announced, rfl⟩ := request
  by_cases set : command ∈ setCommands
  · refine ⟨_, fun value => (reads_ttlLine
      { command := command, key := key, value := some value }).yields ?_, fun s => ?_⟩
    · rintro r text (⟨_, rfl⟩ | ⟨_, _, _, _, _, _, rfl, _⟩)
      · rfl
      · rfl
    · rw [List.append_assoc, isHead.run_decodeRequest mem, decodeArguments, if_pos set]
      exact announced.run_value _ _ s
  · have other := (List.mem_append.mp mem).resolve_left set
    refine ⟨fun value => do
      readEnd
      pure { command := command, key := key, value := some value },
      fun value => (yields_any readEnd).bind fun _ _ => yields_pure rfl, fun s => ?_⟩
    rw [List.append_assoc, isHead.run_decodeRequest mem, decodeArguments, if_neg set,
      if_pos other]
    exact announced.run_value _ _ s

theorem IsLength.run_decodeResponse {length : Nat} (announced : IsLength length front) :
    ∃ next : Bytes → Reader Response, (∀ value, Yields (fun r => r.value = value) (next value)) ∧
      ∀ s, decodeResponse.run (front ++ s) = (readRaw length >>= next).run s := by
  obtain ⟨body, line, length⟩ := announced
  refine ⟨fun value => do
    readEnd
    pure { kind := .value, value := value }, fun value => (yields_any readEnd).bind fun _ _ =>
      yields_pure rfl, ?_⟩
  intro s
  unfold decodeResponse
  rw [run_bind (line.run s), decodeBody_value length, bind_assoc]
  simp only [pure_bind]

/-- Whatever stands between a value and the end of its line, the decoder returns the same. -/
def Ignores (decode : Reader β) (front tail : Bytes) (result : β × Bytes) : Prop :=
  ∀ other, 10 ∉ other → decode.run (front ++ (other ++ 10 :: tail)) = .ok result

/-- There is a stream with more bytes than the value between its length and the end of the
line, and the decoder returns the same for it. -/
def TakesLonger (decode : Reader β) (front tail : Bytes) (result : β × Bytes) : Prop :=
  ∃ extra, 10 ∉ extra ∧ ¬ Terminated (extra ++ 10 :: tail) ∧
    decode.run (front ++ (extra ++ 10 :: tail)) = .ok result

theorem Ignores.takesLonger {decode : Reader β} {result : β × Bytes}
    (ignores : Ignores decode front tail result) : TakesLonger decode front tail result := by
  refine ⟨[0], by decide, ?_, ignores [0] (by decide)⟩
  simp [Terminated]

/-- A decoder that goes on to a raw value ignores the rest of its line. -/
theorem ignores_of_run {decode : Reader β} {next : Bytes → Reader β} {P : β → Prop} {b : β}
    {rest : Bytes} (yields : Yields P (next value))
    (run : ∀ s, decode.run (front ++ s) = (readRaw value.length >>= next).run s)
    (accepted : decode.run (front ++ (value ++ after)) = .ok (b, rest)) :
    P b ∧ ∃ dropped tail, 10 ∉ dropped ∧ after = dropped ++ 10 :: tail ∧
      Ignores decode (front ++ value) tail (b, rest) := by
  rw [run] at accepted
  obtain ⟨v, mid, raw, later⟩ := run_bind_eq_ok accepted
  obtain ⟨_, ⟨size, dropped, free, rfl⟩, same⟩ := (reads_readRaw value.length _ v mid).mp raw
  rw [List.append_assoc, List.append_assoc, List.singleton_append] at same
  obtain ⟨rfl, rfl⟩ := List.append_inj same size.symm
  refine ⟨yields mid b rest later, dropped, mid, free, rfl, ?_⟩
  intro other free'
  have raw' : (readRaw value.length).run (value ++ (other ++ 10 :: mid)) = .ok (value, mid) :=
    (reads_readRaw _ _ _ _).mpr ⟨value ++ (other ++ [10]), ⟨rfl, other, free', rfl⟩, by simp⟩
  rw [List.append_assoc, run, run_bind raw', later]

/-- The decoders never look at what stands between a value and the end of its line: they take
as many bytes as the length says and drop the others. Each stream with a value that they accept
they also accept with other bytes in that place, among them a longer value. -/
theorem value_end_unchecked {rest : Bytes} :
    (∀ req, RequestFront value.length front →
      decodeRequest.run (front ++ (value ++ after)) = .ok (req, rest) →
      req.value = some value ∧ ∃ dropped tail, 10 ∉ dropped ∧ after = dropped ++ 10 :: tail ∧
        Ignores decodeRequest (front ++ value) tail (req, rest) ∧
        TakesLonger decodeRequest (front ++ value) tail (req, rest)) ∧
    (∀ resp, IsLength value.length front →
      decodeResponse.run (front ++ (value ++ after)) = .ok (resp, rest) →
      resp.value = value ∧ ∃ dropped tail, 10 ∉ dropped ∧ after = dropped ++ 10 :: tail ∧
        Ignores decodeResponse (front ++ value) tail (resp, rest) ∧
        TakesLonger decodeResponse (front ++ value) tail (resp, rest)) := by
  constructor
  · intro req request accepted
    obtain ⟨next, yields, run⟩ := request.run
    obtain ⟨same, dropped, tail, free, split, ignores⟩ := ignores_of_run (yields value) run accepted
    exact ⟨same, dropped, tail, free, split, ignores, ignores.takesLonger⟩
  · intro resp announced accepted
    obtain ⟨next, yields, run⟩ := announced.run_decodeResponse
    obtain ⟨same, dropped, tail, free, split, ignores⟩ := ignores_of_run (yields value) run accepted
    exact ⟨same, dropped, tail, free, split, ignores, ignores.takesLonger⟩

/-- The lines of a `SET` that announce a value of one byte. -/
def setFront : Bytes :=
  ascii "CMD SET\nKEY k\n" ++ ascii "VAL 1\n"

theorem requestFront_setFront : RequestFront 1 setFront := by
  refine ⟨commandSet, ascii "k", _, _, ?_, by decide, ?_, rfl⟩
  · exact ⟨ascii "CMD SET\n", ascii "KEY k\n",
      ⟨ascii "SET", ⟨ascii "CMD SET", by decide, by decide, by decide⟩, by decide⟩,
      ⟨ascii "k", ⟨ascii "KEY k", by decide, by decide, by decide⟩, by decide, by decide⟩,
      by decide⟩
  · exact ⟨ascii "1", ⟨ascii "VAL 1", by decide, by decide, by decide⟩, by decide⟩

theorem value_end_unchecked_setFront :
    ∃ tail, TakesLonger decodeRequest (setFront ++ ascii "v") tail (oneByte commandSet 0, []) := by
  have accepted : decodeRequest.run (setFront ++ (ascii "v" ++ ascii "\r\nEND\n")) =
      .ok (oneByte commandSet 0, []) := by decide +kernel
  have announced : RequestFront (ascii "v").length setFront := requestFront_setFront
  obtain ⟨_, _, tail, _, _, _, longer⟩ :=
    value_end_unchecked.1 (oneByte commandSet 0) announced accepted
  exact ⟨tail, longer⟩

/-- The value has three bytes, and the first one is stored, or returned to a client. -/
theorem longer_value_accepted :
    RequestFront (ascii "a").length setFront ∧ ¬ Terminated (ascii "bc\nEND\n") ∧
    decodeRequest.run (setFront ++ (ascii "a" ++ ascii "bc\nEND\n")) =
      .ok ({ command := commandSet, key := ascii "k", value := some (ascii "a") }, []) ∧
    decodeResponse.run (ascii "VAL 1\n" ++ (ascii "a" ++ ascii "bc\nEND\n")) =
      .ok ({ kind := .value, value := ascii "a" }, []) := by
  refine ⟨requestFront_setFront, ?_, by decide +kernel, by decide +kernel⟩
  unfold Terminated
  decide

end Truncation

end DistributedCache.Protocol
