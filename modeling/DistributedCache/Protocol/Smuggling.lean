import DistributedCache.Protocol.RoundTrip

/-!
What the text of one request can be taken for.

Command and key are written as they are, so a line feed in one of them ends its line there.
The decoder then reads a request with what stands in front of the line feed, if the lines
behind it are those that such a request takes. In every other case it reads the request that
was written, or none.
-/
namespace DistributedCache.Protocol

open GoText Framing

/-- The bounds that the Go types put on a request. -/
structure Request.Typed (req : Request) : Prop where
  value : (req.value.getD []).length < 2 ^ 63
  ttl : req.ttl < 2 ^ 63

/-- What is read from the text of a request, if there is one, is at most one request, with
the command and the key of the request up to white space around them. -/
def Request.Contained (req : Request) : Prop :=
  ∀ bytes, encodeRequest req = .ok bytes →
    (decodeAll decodeRequest bytes).1.length ≤ 1 ∧
    ∀ r ∈ (decodeAll decodeRequest bytes).1,
      trimSpace r.command = trimSpace req.command ∧ trimSpace r.key = trimSpace req.key

/-- What `EncodeRequest` writes behind the key. -/
def argumentsText (req : Request) : Bytes :=
  (if req.command ∈ setCommands ++ valueCommands then
    line (ascii "VAL ") (decimal (req.value.getD []).length) ++ (req.value.getD [] ++
      10 :: (if req.command ∈ setCommands ∧ req.ttl > 0 then
        line (ascii "TTL ") (decimal (ttlSeconds req.ttl)) else []))
  else []) ++ ascii "END\n"

/-- The command is one line, and the key is not. Its first line gives a key, and the lines
behind it are what the command takes. -/
def Request.CutsKey (req : Request) : Prop :=
  10 ∉ req.command ∧ ∃ first rest, cut 10 req.key = some (first, rest) ∧ trimSpace first ≠ [] ∧
    ∃ r text left,
      IsArguments { command := trimSpace req.command, key := trimSpace first } r text ∧
      rest ++ 10 :: argumentsText req = text ++ left

/-- The first line of the command gives a command, and the lines behind it are its end, or a
key and what the command takes. -/
def Request.CutsCommand (req : Request) : Prop :=
  ∃ first rest text left, cut 10 req.command = some (first, rest) ∧
    rest ++ 10 :: (line (ascii "KEY ") req.key ++ ascii "END\n") = text ++ left ∧
    (trimSpace first ∈ keylessCommands ∧ IsEnd text ∨ ∃ key r front back, IsKey key front ∧
      IsArguments { command := trimSpace first, key := key } r back ∧ text = front ++ back)

variable {req r : Request} {command key text left : Bytes}

theorem encodeRequest_ok {bytes : Bytes} (h : encodeRequest req = .ok bytes) :
    bytes = requestText req := by
  unfold encodeRequest at h
  split at h
  · cases h
  · split at h
    · cases h
    · split at h
      · cases h
      · split at h
        · cases h
        · cases h
          rfl

section Text

theorem requestText_keyed (keyed : req.command ∉ keylessCommands) :
    requestText req = line (ascii "CMD ") req.command ++
      (line (ascii "KEY ") req.key ++ argumentsText req) := by
  rw [requestText, if_neg keyed, argumentsText]
  simp only [List.append_assoc, List.cons_append, List.nil_append]

theorem argumentsText_end (none : req.command ∉ setCommands ++ valueCommands) :
    argumentsText req = ascii "END\n" := by
  rw [argumentsText, if_neg none, List.nil_append]

/-- With a line feed in it, the command is none of those that are treated apart. -/
theorem requestText_cut {first rest : Bytes} (found : cut 10 req.command = some (first, rest)) :
    requestText req = line (ascii "CMD ") first ++
      (rest ++ 10 :: (line (ascii "KEY ") req.key ++ ascii "END\n")) := by
  obtain ⟨whole, _⟩ := eq_of_cut found
  have feed : 10 ∈ req.command := by
    rw [whole]
    exact List.mem_append_right _ List.mem_cons_self
  have other : req.command ∉ commands := fun mem => (plain_commands _ mem).2.1 feed
  have known : ∀ c ∈ keylessCommands ++ (setCommands ++ valueCommands), c ∈ commands := by decide
  rw [requestText_keyed fun mem => other (known _ (List.mem_append_left _ mem)),
    argumentsText_end fun mem => other (known _ (List.mem_append_right _ mem)), whole]
  simp only [line, List.append_assoc, List.cons_append, List.nil_append]

theorem line_cut {first rest : Bytes} (found : cut 10 key = some (first, rest)) (tag s : Bytes) :
    line tag key ++ s = line tag first ++ (rest ++ 10 :: s) := by
  rw [(eq_of_cut found).1]
  simp only [line, List.append_assoc, List.cons_append, List.nil_append]

theorem line_first (tag key s : Bytes) :
    ∃ first s', 10 ∉ first ∧ line tag key ++ s = line tag first ++ s' := by
  cases found : cut 10 key with
  | none => exact ⟨key, s, cut_eq_none_iff.mp found, rfl⟩
  | some parts => exact ⟨parts.1, _, (eq_of_cut found).2, line_cut found tag s⟩

/-- The request itself leaves nothing behind its arguments. -/
theorem IsArguments.whole (typed : req.Typed)
    (arguments : IsArguments { command := trimSpace req.command, key := key } r text)
    (same : argumentsText req = text ++ left) : left = [] := by
  by_cases value : req.command ∈ setCommands ++ valueCommands
  · have known : ∀ c ∈ setCommands ++ valueCommands, c ∈ commands := by decide
    rw [(plain_commands _ (known _ value)).2.2] at arguments
    have own := isArguments_value value typed.value typed.ttl key
    rw [argumentsText, if_pos value, List.append_assoc, List.append_assoc, List.cons_append,
      ← List.append_nil (line _ _ ++ _)] at same
    exact ((reads_decodeArguments _).unique own arguments same).2.symm
  · rw [argumentsText_end value, ← List.append_nil (ascii "END\n")] at same
    cases arguments with
    | key _ ends => exact (isEnd_text.unique ends same).2.symm
    | value _ body | ttl _ body =>
        obtain ⟨_, _, ⟨_, announced, _⟩, _, rfl⟩ := body
        simp only [List.append_assoc] at same
        have tags := (isEnd_text.unique announced same).1
        cases tags

end Text

section Cut

variable {tag body rest s : Bytes} {b : UInt8}

/-- A line that a text starts with is in front of the first line feed of the text. -/
theorem IsLine.mem_of_append (line : IsLine tag body text)
    (same : rest ++ 10 :: s = text ++ left) (mem : b ∈ tag) : b ∈ rest := by
  obtain ⟨raw, free, read, rfl⟩ := line
  have inside : b ∈ raw := by
    refine mem_of_mem_trimSuffix (c := 13) ?_
    rw [read]
    exact List.mem_append_left _ mem
  rw [List.append_assoc, List.singleton_append] at same
  rcases List.append_eq_append_iff.mp same with ⟨more, rfl, others⟩ | ⟨more, rfl, _⟩
  · cases more with
    | nil => rwa [List.append_nil] at inside
    | cons c more =>
        obtain rfl := (List.cons.inj others).1
        exact absurd (List.mem_append_right _ List.mem_cons_self) free
  · exact List.mem_append_left _ inside

/-- The arguments of a request start with the `E` of its end or with the `V` of a value. -/
theorem IsArguments.mem_of_append (arguments : IsArguments req r text)
    (same : rest ++ 10 :: s = text ++ left) : 69 ∈ rest ∨ 86 ∈ rest := by
  cases arguments with
  | key _ ends => exact .inl (ends.mem_of_append same (by decide))
  | value _ body | ttl _ body =>
      obtain ⟨_, _, ⟨_, announced, _⟩, _, rfl⟩ := body
      simp only [List.append_assoc] at same
      exact .inr (announced.mem_of_append same (by decide))

/-- What stands behind the line feed is no white space. -/
theorem trimSpace_ne_of_cut {whole first : Bytes} (found : cut 10 whole = some (first, rest))
    (low : 33 ≤ b) (high : b < 128) (mem : b ∈ rest) : trimSpace first ≠ trimSpace whole := by
  intro same
  have counts := congrArg (List.count b) same
  rw [count_trimSpace low high, count_trimSpace low high, (eq_of_cut found).1, List.count_append,
    List.count_cons] at counts
  have positive : 0 < List.count b rest := List.count_pos_iff.mpr mem
  omega

end Cut

section Contained

theorem decodeAll_one {s : Bytes} (h : decodeRequest.run s = .ok (r, [])) :
    (decodeAll decodeRequest s).1 = [r] := by
  rw [decodeAll_ok consumes_decodeRequest h]
  rfl

/-- It is enough to look at the first request that is read. -/
theorem contained_of_first (h : ∀ r left, decodeRequest.run (requestText req) = .ok (r, left) →
    left = [] ∧ trimSpace r.command = trimSpace req.command ∧ trimSpace r.key = trimSpace req.key) :
    req.Contained := by
  intro bytes encoded
  rw [encodeRequest_ok encoded]
  cases run : decodeRequest.run (requestText req) with
  | error e =>
      rw [decodeAll_error run]
      exact ⟨Nat.zero_le 1, fun r mem => absurd mem List.not_mem_nil⟩
  | ok read =>
      obtain ⟨r, left⟩ := read
      obtain ⟨rfl, same⟩ := h r left run
      rw [decodeAll_one run]
      refine ⟨Nat.le_refl 1, fun r' mem => ?_⟩
      obtain rfl := List.mem_singleton.mp mem
      exact same

theorem Request.Contained.first {bytes : Bytes} (contained : req.Contained)
    (encoded : encodeRequest req = .ok bytes)
    (run : decodeRequest.run (requestText req) = .ok (r, left)) :
    trimSpace r.command = trimSpace req.command ∧ trimSpace r.key = trimSpace req.key := by
  have accepted := (contained bytes encoded).2
  rw [encodeRequest_ok encoded, decodeAll_ok consumes_decodeRequest run] at accepted
  exact accepted r List.mem_cons_self

theorem run_requestText_keyless (keyless : req.command ∈ keylessCommands) :
    decodeRequest.run (requestText req) = .ok ({ command := req.command }, []) :=
  reads_decodeRequest.run_whole (isRequest_keyless keyless)

theorem contained_keyless (keyless : req.command ∈ keylessCommands)
    (blank : trimSpace req.key = []) : req.Contained := by
  refine contained_of_first fun r left run => ?_
  rw [run_requestText_keyless keyless] at run
  cases run
  exact ⟨rfl, rfl, blank.symm⟩

variable {bytes : Bytes}

theorem not_contained_of_cutsKey (encoded : encodeRequest req = .ok bytes) (cuts : req.CutsKey) :
    ¬ req.Contained := by
  intro contained
  obtain ⟨free, first, rest, found, given, r, text, left, arguments, same⟩ := cuts
  have keyed : req.command ∉ keylessCommands := by
    intro keyless
    have known : ∀ c ∈ keylessCommands, c ∈ commands := by decide
    have other := arguments.keyed.2
    rw [(plain_commands _ (known _ keyless)).2.2] at other
    exact other keyless
  have head : IsHead (trimSpace req.command) (trimSpace first)
      (line (ascii "CMD ") req.command ++ line (ascii "KEY ") first) :=
    ⟨_, _, isCommand_line free, isKey_line (eq_of_cut found).2 given, rfl⟩
  have run := reads_decodeRequest.run (IsRequest.keyed head arguments) left
  have whole : requestText req =
      line (ascii "CMD ") req.command ++ line (ascii "KEY ") first ++ text ++ left := by
    rw [requestText_keyed keyed, line_cut found, same]
    simp only [List.append_assoc]
  rw [← whole] at run
  have keys := (contained.first encoded run).2
  rw [arguments.same_key, trimSpace_trimSpace] at keys
  rcases arguments.mem_of_append same with mem | mem
  · exact trimSpace_ne_of_cut found (by decide) (by decide) mem keys
  · exact trimSpace_ne_of_cut found (by decide) (by decide) mem keys

theorem not_contained_of_cutsCommand (encoded : encodeRequest req = .ok bytes)
    (cuts : req.CutsCommand) : ¬ req.Contained := by
  intro contained
  obtain ⟨first, rest, text, left, found, same, follows⟩ := cuts
  have command := isCommand_line (eq_of_cut found).2
  -- the line behind the command starts with `END` or with `KEY`
  obtain ⟨r, request, called, mem⟩ : ∃ r, IsRequest r (line (ascii "CMD ") first ++ text) ∧
      r.command = trimSpace first ∧ 69 ∈ rest := by
    rcases follows with ⟨keyless, ends⟩ | ⟨key, r, front, back, keyed, arguments, rfl⟩
    · exact ⟨_, .keyless command keyless ends, rfl, ends.mem_of_append same (by decide)⟩
    · refine ⟨r, ?_, arguments.same_command, ?_⟩
      · rw [← List.append_assoc]
        exact .keyed ⟨_, _, command, keyed, rfl⟩ arguments
      · obtain ⟨_, keyLine, _⟩ := keyed
        rw [List.append_assoc] at same
        exact keyLine.mem_of_append same (by decide)
  have run := reads_decodeRequest.run request left
  rw [List.append_assoc, ← same, ← requestText_cut found] at run
  have commands := (contained.first encoded run).1
  rw [called, trimSpace_trimSpace] at commands
  exact trimSpace_ne_of_cut found (by decide) (by decide) mem commands

theorem contained_of_cut {first rest : Bytes} (found : cut 10 req.command = some (first, rest))
    (cuts : ¬ req.CutsCommand) : req.Contained := by
  refine contained_of_first fun r left run => absurd ?_ cuts
  rw [requestText_cut found, run_decodeRequest (eq_of_cut found).2] at run
  obtain ⟨text, follows, same⟩ := (reads_decodeCommand _ _ _ _).mp run
  refine ⟨first, rest, text, left, found, same, ?_⟩
  rcases follows with ⟨keyless, ends, _⟩ | ⟨key, front, back, keyed, arguments, whole⟩
  · exact .inl ⟨keyless, ends⟩
  · exact .inr ⟨key, r, front, back, keyed, arguments, whole⟩

/-- A command of one line that is sent with a key. -/
theorem contained_keyed (typed : req.Typed) (free : 10 ∉ req.command)
    (keyed : req.command ∉ keylessCommands) (cuts : ¬ req.CutsKey) : req.Contained := by
  refine contained_of_first fun r left run => ?_
  rw [requestText_keyed keyed, run_decodeRequest free] at run
  obtain ⟨_, follows, same⟩ := (reads_decodeCommand _ _ _ _).mp run
  rcases follows with ⟨_, ends, _⟩ | ⟨key, front, back, ⟨body, keyLine, rfl, given⟩, arguments, rfl⟩
  · obtain ⟨first, s, freeFirst, split⟩ := line_first (ascii "KEY ") req.key (argumentsText req)
    rw [split] at same
    have tags := ((isLine_line (by decide) (by decide) freeFirst).unique ends same).1
    cases tags
  · rw [List.append_assoc] at same
    rw [arguments.same_key, arguments.same_command, trimSpace_trimSpace, trimSpace_trimSpace]
    cases found : cut 10 req.key with
    | none =>
        have own : IsLine (ascii "KEY ") _ _ :=
          isLine_line (by decide) (by decide) (cut_eq_none_iff.mp found)
        obtain ⟨rfl, same⟩ := own.unique_body keyLine same
        exact ⟨arguments.whole typed same, rfl, trimSpace_trimSuffix _⟩
    | some cut =>
        obtain ⟨first, rest⟩ := cut
        have own : IsLine (ascii "KEY ") _ _ :=
          isLine_line (by decide) (by decide) (eq_of_cut found).2
        rw [line_cut found] at same
        obtain ⟨rfl, same⟩ := own.unique_body keyLine same
        rw [trimSpace_trimSuffix] at given arguments
        exact absurd ⟨free, first, rest, found, given, r, back, left, arguments, same⟩ cuts

end Contained

/-- At most the request itself is read from the text of a request exactly if there is no text,
or a command that is sent without a key has a blank one, and neither a line feed in the key nor
one in the command is followed by what completes the request in front of it. -/
theorem no_smuggling (typed : req.Typed) :
    req.Contained ↔ (∃ e, encodeRequest req = .error e) ∨
      (req.command ∈ keylessCommands → trimSpace req.key = []) ∧
        ¬ req.CutsKey ∧ ¬ req.CutsCommand := by
  cases encoded : encodeRequest req with
  | error e =>
      refine iff_of_true (fun bytes other => ?_) (.inl ⟨e, rfl⟩)
      cases encoded.symm.trans other
  | ok bytes =>
      constructor
      · intro contained
        refine .inr ⟨fun keyless => ?_, fun cuts => not_contained_of_cutsKey encoded cuts contained,
          fun cuts => not_contained_of_cutsCommand encoded cuts contained⟩
        exact (contained.first encoded (run_requestText_keyless keyless)).2.symm
      · rintro (⟨_, refused⟩ | ⟨blank, cutsKey, cutsCommand⟩)
        · cases refused
        · cases found : cut 10 req.command with
          | some cut => exact contained_of_cut found cutsCommand
          | none =>
              by_cases keyless : req.command ∈ keylessCommands
              · exact contained_keyless keyless (blank keyless)
              · exact contained_keyed typed (cut_eq_none_iff.mp found) keyless cutsKey

/-- The second line of the key announces no value. -/
theorem no_smuggling_set :
    ({ command := commandSet, key := ascii "k\nX", value := some [1] } : Request).Contained := by
  refine (no_smuggling ⟨by decide, by decide⟩).mpr (.inr ⟨by decide, ?_, ?_⟩)
  · rintro ⟨_, first, rest, found, _, r, text, left, arguments, same⟩
    obtain rfl : rest = ascii "X" := by
      cases found
      rfl
    exact absurd (arguments.mem_of_append same) (by decide)
  · rintro ⟨first, rest, _, _, found, _⟩
    cases found

/-- A key from a client that deletes another key besides. -/
def smuggler : Request :=
  { command := commandGet, key := ascii "k\nEND\nCMD DEL\nKEY victim" }

theorem smuggler_smuggles :
    ¬ smuggler.Contained ∧ ∃ bytes, encodeRequest smuggler = .ok bytes ∧
      decodeAll decodeRequest bytes =
        ([{ command := commandGet, key := ascii "k" },
          { command := commandDelete, key := ascii "victim" }], []) := by
  have read : decodeAll decodeRequest (requestText smuggler) =
      ([{ command := commandGet, key := ascii "k" },
        { command := commandDelete, key := ascii "victim" }], []) := by
    decide +kernel
  refine ⟨?_, requestText smuggler, rfl, read⟩
  intro contained
  have one := (contained _ rfl).1
  rw [show decodeAll decodeRequest _ = _ from read] at one
  exact absurd one (by decide)

end DistributedCache.Protocol
