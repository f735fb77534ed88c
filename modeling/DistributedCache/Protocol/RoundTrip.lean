import DistributedCache.Protocol.Grammar

/-!
Requests are read back as they were written.

The text of a well-formed request stands for the request as it arrives, where a TTL is in
whole seconds. So the decoder takes it from the front of any stream.
-/
namespace DistributedCache.Protocol

open GoText Framing

section Lines

variable {tag body command key value : Bytes}

theorem isLine_line (freeTag : 10 ∉ tag) (some : tag.getLast? ≠ some 13) (free : 10 ∉ body) :
    IsLine tag (trimSuffix 13 body) (line tag body) :=
  ⟨tag ++ body, fun mem => (List.mem_append.mp mem).elim freeTag free, trimSuffix_append some, rfl⟩

/-- A number keeps its digits on a line. -/
theorem isLine_decimal (freeTag : 10 ∉ tag) (some : tag.getLast? ≠ some 13) (n : Nat) :
    IsLine tag (decimal n) (line tag (decimal n)) := by
  have line := isLine_line freeTag some (newline_not_mem_decimal n)
  rwa [trimSuffix_of_trimSpace (trimSpace_decimal n)] at line

theorem isEnd_text : IsEnd (ascii "END\n") :=
  ⟨ascii "END", by decide, by decide, by decide⟩

theorem isCommand_line (free : 10 ∉ command) :
    IsCommand (trimSpace command) (line (ascii "CMD ") command) :=
  ⟨_, isLine_line (by decide) (by decide) free, trimSpace_trimSuffix command⟩

theorem isKey_line (free : 10 ∉ key) (some : trimSpace key ≠ []) :
    IsKey (trimSpace key) (line (ascii "KEY ") key) :=
  ⟨_, isLine_line (by decide) (by decide) free, trimSpace_trimSuffix key, some⟩

theorem isValue_text (bound : value.length < 2 ^ 63) :
    IsValue value [] (line (ascii "VAL ") (decimal value.length) ++ (value ++ [10])) :=
  ⟨_, _, ⟨_, isLine_decimal (by decide) (by decide) _, parseLength_decimal bound⟩,
    ⟨List.not_mem_nil, rfl⟩, rfl⟩

theorem isTtl_line {seconds : Nat} (small : seconds < 2 ^ 63) :
    IsTtl seconds (line (ascii "TTL ") (decimal seconds)) := by
  refine ⟨_, isLine_decimal (by decide) (by decide) seconds, ?_⟩
  rw [trimSpace_decimal, parseInt_decimal small]

/-- The arguments of a command with a value. -/
theorem isArguments_value {ttl : Int} (mem : command ∈ setCommands ++ valueCommands)
    (bound : value.length < 2 ^ 63) (small : ttl < 2 ^ 63) (key : Bytes) :
    IsArguments { command := command, key := key }
      { command := command
        key := key
        value := some value
        ttl := if command ∈ setCommands ∧ ttl > 0
          then max 1 (ttl / 1000000000) * 1000000000 else 0 }
      (line (ascii "VAL ") (decimal value.length) ++ (value ++
        10 :: ((if command ∈ setCommands ∧ ttl > 0 then
          line (ascii "TTL ") (decimal (ttlSeconds ttl)) else []) ++ ascii "END\n"))) := by
  have body := isValue_text bound
  by_cases sent : command ∈ setCommands ∧ ttl > 0
  · have seconds := ttlSeconds_eq ttl
    have line : IsTtl (ttlSeconds ttl) (line (ascii "TTL ") (decimal (ttlSeconds ttl))) :=
      isTtl_line (by omega)
    have arguments : IsArguments { command := command, key := key } _ _ :=
      .ttl sent.1 body line (by omega) isEnd_text
    rw [durationOfSeconds_ttlSeconds sent.2 small] at arguments
    simpa only [if_pos sent, List.append_assoc, List.singleton_append] using arguments
  · have arguments : IsArguments { command := command, key := key } _ _ :=
      .value mem body isEnd_text
    simpa only [if_neg sent, List.append_assoc, List.singleton_append, List.nil_append]
      using arguments

end Lines

section Text

variable {req : Request}

theorem isRequest_keyless (keyless : req.command ∈ keylessCommands) :
    IsRequest { command := req.command } (requestText req) := by
  have known : ∀ c ∈ keylessCommands, c ∈ commands := by decide
  obtain ⟨_, free, trimmed⟩ := plain_commands _ (known _ keyless)
  have head := isCommand_line free
  rw [trimmed] at head
  rw [requestText_keyless keyless]
  exact .keyless head keyless isEnd_text

variable (wf : req.WellFormed)
include wf

theorem Request.WellFormed.isHead (keyed : req.command ∉ keylessCommands) :
    IsHead req.command req.key
      (line (ascii "CMD ") req.command ++ line (ascii "KEY ") req.key) := by
  obtain ⟨_, free, trimmed⟩ := plain_commands _ wf.command
  have key := wf.key
  rw [if_neg keyed] at key
  obtain ⟨some, freeKey, trimmedKey⟩ := key
  have first := isCommand_line free
  have second := isKey_line freeKey (trimmedKey.symm ▸ some)
  rw [trimmed] at first
  rw [trimmedKey] at second
  exact ⟨_, _, first, second, rfl⟩

theorem Request.WellFormed.isRequest_of_keyless (keyless : req.command ∈ keylessCommands) :
    IsRequest req.received (requestText req) := by
  have others : ∀ c ∈ keylessCommands, c ∉ setCommands ++ valueCommands ∧ c ∉ setCommands := by
    decide
  have key := wf.key
  have value := wf.value
  have ttl := wf.ttl
  rw [if_pos keyless] at key
  rw [if_neg (others _ keyless).1] at value
  rw [if_neg (others _ keyless).2] at ttl
  have same : req.received = { command := req.command } := by
    rw [Request.received, ttl, if_neg (by decide), key, value]
  rw [same]
  exact isRequest_keyless keyless

theorem Request.WellFormed.isRequest_of_value (keyed : req.command ∉ keylessCommands)
    (mem : req.command ∈ setCommands ++ valueCommands) :
    IsRequest req.received (requestText req) := by
  have value := wf.value
  have ttl := wf.ttl
  rw [if_pos mem] at value
  obtain ⟨v, given, bound⟩ := value
  have range : req.ttl < 2 ^ 63 := by
    split at ttl <;> omega
  have positive : (req.command ∈ setCommands ∧ req.ttl > 0) ↔ req.ttl > 0 := by
    refine ⟨And.right, fun positive => ⟨?_, positive⟩⟩
    by_contra other
    rw [if_neg other] at ttl
    omega
  have arguments := isArguments_value mem bound range req.key
  have request := IsRequest.keyed (wf.isHead keyed) arguments
  rw [requestText_value mem, given, Option.getD_some]
  rw [List.append_assoc] at request
  simp only [positive] at request ⊢
  rw [Request.received, given]
  exact request

theorem Request.WellFormed.isRequest_of_key (keyed : req.command ∉ keylessCommands)
    (none : req.command ∉ setCommands ++ valueCommands) :
    IsRequest req.received (requestText req) := by
  have value := wf.value
  have ttl := wf.ttl
  rw [if_neg none] at value
  rw [if_neg fun h => none (List.mem_append_left _ h)] at ttl
  have mem : req.command ∈ keyCommands := by
    have known := wf.command
    unfold commands at known
    rw [List.append_assoc keylessCommands, List.append_assoc keylessCommands] at known
    exact (List.mem_append.mp ((List.mem_append.mp known).resolve_left keyed)).resolve_left none
  have request := IsRequest.keyed (wf.isHead keyed) (.key mem isEnd_text)
  have same : req.received = { command := req.command, key := req.key } := by
    rw [Request.received, ttl, if_neg (by decide), value]
  rw [same, requestText_key keyed none, ← List.append_assoc]
  exact request

/-- The text of a well-formed request stands for it. -/
theorem Request.WellFormed.isRequest : IsRequest req.received (requestText req) := by
  by_cases keyless : req.command ∈ keylessCommands
  · exact wf.isRequest_of_keyless keyless
  · by_cases mem : req.command ∈ setCommands ++ valueCommands
    · exact wf.isRequest_of_value keyless mem
    · exact wf.isRequest_of_key keyless mem

end Text

/-- Requests written one after another are read back one after another, with nothing left
over; positive TTLs come back in whole seconds. -/
theorem requests_round_trip {requests : List Request} (wf : ∀ req ∈ requests, req.WellFormed) :
    ∃ outputs, requests.mapM encodeRequest = .ok outputs ∧
      decodeAll decodeRequest outputs.flatten = (requests.map Request.received, []) := by
  refine ⟨requests.map requestText, ?_, ?_⟩
  · exact mapM_eq_ok fun req mem => (wf req mem).encodeRequest_eq
  · rw [← List.flatMap_def]
    exact decodeAll_encoded consumes_decodeRequest requests
      fun req mem rest => reads_decodeRequest.run (wf req mem).isRequest rest

/-- A value that looks like the end of its request and the start of another one. -/
def pipeline : List Request :=
  [{ command := commandSet, key := ascii "k", value := some (ascii "END\nCMD PING\nEND\n"),
     ttl := 1500000000 },
   { command := commandPing },
   { command := commandGet, key := ascii "k" }]

theorem requests_round_trip_pipeline :
    ∃ outputs, pipeline.mapM encodeRequest = .ok outputs ∧
      decodeAll decodeRequest outputs.flatten = (pipeline.map Request.received, []) ∧
      (pipeline.map Request.received).map Request.ttl = [1000000000, 0, 0] := by
  have wf : ∀ req ∈ pipeline, req.WellFormed := by
    intro req mem
    cases mem with
    | head => exact ⟨by decide, by decide, by simpa using ⟨by decide, by decide⟩, by decide⟩
    | tail _ mem =>
        cases mem with
        | head => exact ⟨by decide, by decide, by simp; decide, by decide⟩
        | tail _ mem =>
            obtain rfl := List.mem_singleton.mp mem
            exact ⟨by decide, by decide, by simp; decide, by decide⟩
  obtain ⟨outputs, encoded, decoded⟩ := requests_round_trip wf
  exact ⟨outputs, encoded, decoded, by decide⟩

end DistributedCache.Protocol
