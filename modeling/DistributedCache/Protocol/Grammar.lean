import DistributedCache.Protocol.Request

/-!
The texts that `DecodeRequest` accepts.

The decoder is more lenient than the encoder: a line may end in a carriage return, the
command, the key and the numbers may have white space around them and a number a sign, and
anything may stand between the bytes of a value and the end of their line. The relations
below say which texts stand for a request, and the decoder reads exactly these.
-/
namespace DistributedCache.Protocol

open GoText Framing

/-- A line with a tag and a body. -/
def IsLine (tag body text : Bytes) : Prop :=
  ∃ raw, 10 ∉ raw ∧ trimSuffix 13 raw = tag ++ body ∧ text = raw ++ [10]

def IsEnd (text : Bytes) : Prop :=
  IsLine (ascii "END") [] text

/-- The bytes that a length announces, and the rest of the line behind them. -/
def IsRaw (value dropped text : Bytes) : Prop :=
  10 ∉ dropped ∧ text = value ++ (dropped ++ [10])

/-- The line with the length of a value. -/
def IsLength (length : Nat) (text : Bytes) : Prop :=
  ∃ body, IsLine (ascii "VAL ") body text ∧ parseLength body = some length

def IsValue (value dropped text : Bytes) : Prop :=
  ∃ front back, IsLength value.length front ∧ IsRaw value dropped back ∧ text = front ++ back

def IsTtl (seconds : Int) (text : Bytes) : Prop :=
  ∃ body, IsLine (ascii "TTL ") body text ∧ parseInt (trimSpace body) = some seconds

def IsCommand (command text : Bytes) : Prop :=
  ∃ body, IsLine (ascii "CMD ") body text ∧ trimSpace body = command

def IsKey (key text : Bytes) : Prop :=
  ∃ body, IsLine (ascii "KEY ") body text ∧ trimSpace body = key ∧ key ≠ []

/-- The lines with the command and the key. -/
def IsHead (command key text : Bytes) : Prop :=
  ∃ front back, IsCommand command front ∧ IsKey key back ∧ text = front ++ back

/-- The lines of a request up to the one with the length of its value. -/
def RequestFront (length : Nat) (front : Bytes) : Prop :=
  ∃ command key head last, IsHead command key head ∧ command ∈ setCommands ++ valueCommands ∧
    IsLength length last ∧ front = head ++ last

/-- What may follow the command and the key of a request. -/
inductive IsArguments (req : Request) : Request → Bytes → Prop
  | key {text : Bytes} (mem : req.command ∈ keyCommands) (ends : IsEnd text) :
      IsArguments req req text
  | value {value dropped front back : Bytes} (mem : req.command ∈ setCommands ++ valueCommands)
      (body : IsValue value dropped front) (ends : IsEnd back) :
      IsArguments req { req with value := some value } (front ++ back)
  | ttl {value dropped front last back : Bytes} {seconds : Int} (mem : req.command ∈ setCommands)
      (body : IsValue value dropped front) (line : IsTtl seconds last) (positive : 0 < seconds)
      (ends : IsEnd back) :
      IsArguments req { req with value := some value, ttl := durationOfSeconds seconds }
        (front ++ (last ++ back))

/-- The texts that stand for a request. -/
inductive IsRequest : Request → Bytes → Prop
  | keyless {command front back : Bytes} (head : IsCommand command front)
      (mem : command ∈ keylessCommands) (ends : IsEnd back) :
      IsRequest { command := command } (front ++ back)
  | keyed {command key front back : Bytes} {req : Request} (head : IsHead command key front)
      (arguments : IsArguments { command := command, key := key } req back) :
      IsRequest req (front ++ back)

section Lines

theorem reads_readLine : Reads (fun body text => IsLine [] body text) readLine := by
  intro s body rest
  constructor
  · intro h
    obtain ⟨raw, free, rfl, rfl⟩ := of_run_readLine h
    exact ⟨raw ++ [10], ⟨raw, free, rfl, rfl⟩, by simp⟩
  · rintro ⟨_, ⟨raw, free, body, rfl⟩, rfl⟩
    rw [List.append_assoc, List.singleton_append, run_readLine free, body, List.nil_append]

theorem isLine_append {tag tag' body text : Bytes} :
    IsLine tag (tag' ++ body) text ↔ IsLine (tag ++ tag') body text := by
  simp only [IsLine, List.append_assoc]

/-- A step that looks for a tag at the front of a line. -/
theorem reads_line {β : Type} (tag : Bytes) {x : Bytes → Reader β}
    {M N : Bytes → β → Bytes → Prop}
    (missing : ∀ read, tag.isPrefixOf? read = none → Reads (N read) (x read))
    (found : ∀ body, Reads (M body) (x (tag ++ body))) :
    Reads (fun b text =>
      (∃ read front back, tag.isPrefixOf? read = none ∧ IsLine [] read front ∧ N read b back ∧
        text = front ++ back) ∨
      ∃ body front back, IsLine tag body front ∧ M body b back ∧ text = front ++ back)
      (readLine >>= x) := by
  have step (read : Bytes) : Reads (fun b text => tag.isPrefixOf? read = none ∧ N read b text ∨
      ∃ body, tag ++ body = read ∧ M body b text) (x read) := by
    cases start : tag.isPrefixOf? read with
    | none =>
        have other : ∀ body, tag ++ body ≠ read := by
          rintro body rfl
          rw [isPrefixOf?_append] at start
          cases start
        exact (missing read start).congr fun b text => by simp [other]
    | some body =>
        obtain rfl := List.isPrefixOf?_eq_some_iff_append_eq.mp start
        exact (found body).congr fun b text => by simp
  refine (reads_readLine.bind step).congr fun b text => ?_
  constructor
  · rintro ⟨read, front, back, line, ⟨none, next⟩ | ⟨body, rfl, next⟩, rfl⟩
    · exact .inl ⟨read, front, back, none, line, next, rfl⟩
    · exact .inr ⟨body, front, back, isLine_append.mp line, next, rfl⟩
  · rintro (⟨read, front, back, none, line, next, rfl⟩ | ⟨body, front, back, line, next, rfl⟩)
    · exact ⟨read, front, back, line, .inl ⟨none, next⟩, rfl⟩
    · rw [← List.nil_append tag] at line
      exact ⟨tag ++ body, front, back, isLine_append.mpr line, .inr ⟨body, rfl, next⟩, rfl⟩

/-- A step that needs a line with a tag. -/
theorem reads_tagged {β : Type} (tag : Bytes) {x : Bytes → Reader β}
    {M : Bytes → β → Bytes → Prop}
    (missing : ∀ read, tag.isPrefixOf? read = none → Reads (fun _ _ => False) (x read))
    (found : ∀ body, Reads (M body) (x (tag ++ body))) :
    Reads (fun b text => ∃ body front back, IsLine tag body front ∧ M body b back ∧
      text = front ++ back) (readLine >>= x) :=
  (reads_line tag missing found).congr fun b text => by simp

theorem isEnd_iff {text : Bytes} : IsEnd text ↔ IsLine [] (ascii "END") text := by
  simp only [IsEnd, IsLine, List.nil_append, List.append_nil]

theorem reads_readEnd : Reads (fun _ text => IsEnd text) readEnd := by
  refine (reads_readLine.bind fun endLine =>
    reads_ite (fun _ => reads_pure ()) fun _ => reads_throw _).congr fun _ text => ?_
  simp [isEnd_iff]

theorem reads_readFull (length : Nat) :
    Reads (fun value text => value.length = length ∧ text = value) (readFull length) := by
  intro s value rest
  constructor
  · intro h
    change (if length ≤ s.length then Except.ok (s.take length, s.drop length) else _) = _ at h
    split at h
    · cases h
      rename_i enough
      exact ⟨s.take length, ⟨List.length_take_of_le enough, rfl⟩, (List.take_append_drop _ s).symm⟩
    · cases h
  · rintro ⟨_, ⟨rfl, rfl⟩, rfl⟩
    exact run_readFull _ rest

theorem reads_readRaw (length : Nat) :
    Reads (fun value text => value.length = length ∧ ∃ dropped, IsRaw value dropped text)
      (readRaw length) := by
  refine ((reads_readFull length).bind fun value =>
    reads_readLine.bind fun _ => reads_pure value).congr fun value text => ?_
  constructor
  · rintro ⟨_, front, _, ⟨size, rfl⟩, ⟨_, mid, _, ⟨raw, free, _, rfl⟩, ⟨rfl, rfl⟩, rfl⟩, rfl⟩
    exact ⟨size, raw, free, by rw [List.append_nil]⟩
  · rintro ⟨size, dropped, free, rfl⟩
    exact ⟨value, value, dropped ++ [10], ⟨size, rfl⟩, ⟨trimSuffix 13 dropped, dropped ++ [10], [],
      ⟨dropped, free, rfl, rfl⟩, ⟨rfl, rfl⟩, (List.append_nil _).symm⟩, rfl⟩

theorem reads_decodeValueBody (req : Request) :
    Reads (fun r text => ∃ value dropped, IsValue value dropped text ∧
      r = { req with value := some value }) (decodeValueBody req) := by
  unfold decodeValueBody
  refine (reads_tagged (M := fun body r text => ∃ length, parseLength body = some length ∧
    ∃ value : Bytes, value.length = length ∧ (∃ dropped, IsRaw value dropped text) ∧
      r = { req with value := some value }) (ascii "VAL ") (fun read none => ?_)
    fun body => ?_).congr fun r text => ?_
  · rw [none]
    exact reads_throw _
  · rw [isPrefixOf?_append]
    refine reads_option (parseLength body) (fun none => ?_) fun length found => ?_
    · dsimp only
      rw [none]
      exact reads_throw _
    · dsimp only
      rw [found]
      refine ((reads_readRaw length).bind fun value => reads_pure _).congr fun r text => ?_
      constructor
      · rintro ⟨value, front, _, ⟨size, raw⟩, ⟨rfl, rfl⟩, rfl⟩
        rw [List.append_nil]
        exact ⟨value, size, raw, rfl⟩
      · rintro ⟨value, size, raw, rfl⟩
        exact ⟨value, text, [], ⟨size, raw⟩, ⟨rfl, rfl⟩, (List.append_nil text).symm⟩
  · constructor
    · rintro ⟨body, front, back, line, ⟨_, length, value, rfl, ⟨dropped, raw⟩, rfl⟩, rfl⟩
      exact ⟨value, dropped, ⟨front, back, ⟨body, line, length⟩, raw, rfl⟩, rfl⟩
    · rintro ⟨value, dropped, ⟨front, back, ⟨body, line, length⟩, raw, rfl⟩, rfl⟩
      exact ⟨body, front, back, line, ⟨_, length, value, rfl, ⟨dropped, raw⟩, rfl⟩, rfl⟩

end Lines

section Arguments

/-- The line behind a value is the last one, or the one with the TTL. -/
theorem reads_ttlLine (req : Request) :
    Reads (fun r text => IsEnd text ∧ r = req ∨ ∃ seconds last back, IsTtl seconds last ∧
        0 < seconds ∧ IsEnd back ∧ r = { req with ttl := durationOfSeconds seconds } ∧
        text = last ++ back)
      (do
        let ttlLine ← readLine
        match (ascii "TTL ").isPrefixOf? ttlLine with
        | none => if ttlLine = ascii "END" then pure req else throw .missingEnd
        | some text =>
            match parseInt (trimSpace text) with
            | none => throw .invalidTTL
            | some seconds =>
                if seconds ≤ 0 then throw .invalidTTL
                else do
                  readEnd
                  pure { req with ttl := durationOfSeconds seconds } : Reader Request) := by
  refine (reads_line (ascii "TTL ")
    (N := fun read r text => read = ascii "END" ∧ r = req ∧ text = [])
    (M := fun body r text => ∃ seconds, parseInt (trimSpace body) = some seconds ∧
      0 < seconds ∧ IsEnd text ∧ r = { req with ttl := durationOfSeconds seconds })
    (fun read none => ?_) fun body => ?_).congr fun r text => ?_
  · rw [none]
    exact (reads_ite (fun _ => reads_pure req) fun _ => reads_throw _).congr
      fun r text => by simp
  · rw [isPrefixOf?_append]
    refine reads_option (parseInt (trimSpace body)) (fun none => ?_) fun seconds found => ?_
    · dsimp only
      rw [none]
      exact reads_throw _
    · dsimp only
      rw [found]
      exact (reads_ite (fun _ => reads_throw _) fun _ => reads_readEnd.bind fun _ =>
        reads_pure _).congr fun r text => by simp
  · constructor
    · rintro (⟨_, front, _, _, line, ⟨rfl, rfl, rfl⟩, rfl⟩ |
        ⟨body, last, back, line, ⟨seconds, found, positive, ends, rfl⟩, rfl⟩)
      · rw [List.append_nil]
        exact .inl ⟨isEnd_iff.mpr line, rfl⟩
      · exact .inr ⟨seconds, last, back, ⟨body, line, found⟩, positive, ends, rfl, rfl⟩
    · rintro (⟨ends, rfl⟩ | ⟨seconds, last, back, ⟨body, line, found⟩, positive, ends, rfl, rfl⟩)
      · exact .inl ⟨ascii "END", text, [], by decide, isEnd_iff.mp ends, ⟨rfl, rfl, rfl⟩,
          (List.append_nil text).symm⟩
      · exact .inr ⟨body, last, back, line, ⟨seconds, found, positive, ends, rfl⟩, rfl⟩

theorem reads_decodeSetRequest (req : Request) :
    Reads (fun r text => ∃ value dropped front back, IsValue value dropped front ∧
      (IsEnd back ∧ r = { req with value := some value } ∨
        ∃ seconds last ends, IsTtl seconds last ∧ 0 < seconds ∧ IsEnd ends ∧
          r = { req with value := some value, ttl := durationOfSeconds seconds } ∧
          back = last ++ ends) ∧
      text = front ++ back) (decodeSetRequest req) := by
  refine ((reads_decodeValueBody req).bind reads_ttlLine).congr fun r text => ?_
  constructor
  · rintro ⟨_, front, back, ⟨value, dropped, body, rfl⟩, tail, rfl⟩
    exact ⟨value, dropped, front, back, body, tail, rfl⟩
  · rintro ⟨value, dropped, front, back, body, tail, rfl⟩
    exact ⟨_, front, back, ⟨value, dropped, body, rfl⟩, tail, rfl⟩

theorem reads_decodeValueRequest (req : Request) :
    Reads (fun r text => ∃ value dropped front back, IsValue value dropped front ∧
      IsEnd back ∧ r = { req with value := some value } ∧ text = front ++ back)
      (decodeValueRequest req) := by
  refine ((reads_decodeValueBody req).bind fun req =>
    reads_readEnd.bind fun _ => reads_pure req).congr fun r text => ?_
  constructor
  · rintro ⟨_, front, _, ⟨value, dropped, body, rfl⟩, ⟨_, back, _, ends, ⟨rfl, rfl⟩, rfl⟩, rfl⟩
    rw [List.append_nil]
    exact ⟨value, dropped, front, back, body, ends, rfl, rfl⟩
  · rintro ⟨value, dropped, front, back, body, ends, rfl, rfl⟩
    exact ⟨_, front, back, ⟨value, dropped, body, rfl⟩,
      ⟨(), back, [], ends, ⟨rfl, rfl⟩, (List.append_nil back).symm⟩, rfl⟩

theorem reads_decodeArguments (req : Request) :
    Reads (fun r text => IsArguments req r text) (decodeArguments req) := by
  refine (reads_ite (fun _ => reads_decodeSetRequest req) fun _ =>
    reads_ite (fun _ => reads_decodeValueRequest req) fun _ =>
      reads_ite (fun _ => reads_readEnd.bind fun _ => reads_pure req) fun _ =>
        reads_throw _).congr fun r text => ?_
  constructor
  · rintro (⟨set, value, dropped, front, back, body, ⟨ends, rfl⟩ |
        ⟨seconds, last, ends, line, positive, final, rfl, rfl⟩, rfl⟩ |
      ⟨_, ⟨mem, value, dropped, front, back, body, ends, rfl, rfl⟩ |
        ⟨_, ⟨mem, _, front, _, ends, ⟨rfl, rfl⟩, rfl⟩ | ⟨_, none⟩⟩⟩)
    · exact .value (List.mem_append_left _ set) body ends
    · exact .ttl set body line positive final
    · exact .value (List.mem_append_right _ mem) body ends
    · rw [List.append_nil]
      exact .key mem ends
    · exact none.elim
  · intro arguments
    cases arguments with
    | key mem ends =>
        have others : ∀ c ∈ keyCommands, c ∉ setCommands ∧ c ∉ valueCommands := by decide
        exact .inr ⟨(others _ mem).1, .inr ⟨(others _ mem).2, .inl ⟨mem, (), text, [], ends,
          ⟨rfl, rfl⟩, (List.append_nil text).symm⟩⟩⟩
    | value mem body ends =>
        by_cases set : req.command ∈ setCommands
        · exact .inl ⟨set, _, _, _, _, body, .inl ⟨ends, rfl⟩, rfl⟩
        · exact .inr ⟨set, .inl ⟨(List.mem_append.mp mem).resolve_left set, _, _, _, _, body, ends,
            rfl, rfl⟩⟩
    | ttl mem body line positive ends =>
        exact .inl ⟨mem, _, _, _, _, body, .inr ⟨_, _, _, line, positive, ends, rfl, rfl⟩, rfl⟩

end Arguments

theorem IsArguments.keyed {req r : Request} {text : Bytes} (arguments : IsArguments req r text) :
    req.command ≠ [] ∧ req.command ∉ keylessCommands := by
  have others : ∀ c ∈ keyCommands ++ (setCommands ++ valueCommands),
      c ≠ [] ∧ c ∉ keylessCommands := by decide
  cases arguments with
  | key mem => exact others _ (List.mem_append_left _ mem)
  | value mem => exact others _ (List.mem_append_right _ mem)
  | ttl mem => exact others _ (List.mem_append_right _ (List.mem_append_left _ mem))

theorem reads_decodeCommand (command : Bytes) :
    Reads (fun r text => command ∈ keylessCommands ∧ IsEnd text ∧ r = { command := command } ∨
      ∃ key front back, IsKey key front ∧ IsArguments { command := command, key := key } r back ∧
        text = front ++ back) (decodeCommand command) := by
  refine (reads_ite (fun _ => reads_throw _) fun _ =>
    reads_ite (fun _ => reads_readEnd.bind fun _ => reads_pure _) fun _ =>
      reads_tagged (M := fun body r text => trimSpace body ≠ [] ∧
        IsArguments { command := command, key := trimSpace body } r text) (ascii "KEY ")
        (fun read none => ?_) fun body => ?_).congr fun r text => ?_
  · rw [none]
    exact reads_throw _
  · rw [isPrefixOf?_append]
    exact (reads_ite (fun _ => reads_throw _) fun _ => reads_decodeArguments _).congr
      fun r text => by simp
  · constructor
    · rintro (⟨_, none⟩ | ⟨_, ⟨mem, _, front, _, ends, ⟨rfl, rfl⟩, rfl⟩ |
        ⟨_, body, front, back, line, ⟨some, arguments⟩, rfl⟩⟩)
      · exact none.elim
      · rw [List.append_nil]
        exact .inl ⟨mem, ends, rfl⟩
      · exact .inr ⟨_, front, back, ⟨body, line, rfl, some⟩, arguments, rfl⟩
    · rintro (⟨mem, ends, rfl⟩ | ⟨_, front, back, ⟨body, line, rfl, some⟩, arguments, rfl⟩)
      · have some : ∀ c ∈ keylessCommands, c ≠ [] := by decide
        exact .inr ⟨some _ mem, .inl ⟨mem, (), text, [], ends, ⟨rfl, rfl⟩,
          (List.append_nil text).symm⟩⟩
      · exact .inr ⟨arguments.keyed.1, .inr ⟨arguments.keyed.2, body, front, back, line,
          ⟨some, arguments⟩, rfl⟩⟩

/-- The decoder accepts the texts that stand for a request, and no others. -/
theorem reads_decodeRequest : Reads IsRequest decodeRequest := by
  refine (reads_tagged (M := fun body r text => trimSpace body ∈ keylessCommands ∧ IsEnd text ∧
      r = { command := trimSpace body } ∨ ∃ key front back, IsKey key front ∧
        IsArguments { command := trimSpace body, key := key } r back ∧ text = front ++ back)
    (ascii "CMD ") (fun read none => ?_) fun body => ?_).congr fun r text => ?_
  · rw [none]
    exact reads_throw _
  · rw [isPrefixOf?_append]
    exact reads_decodeCommand (trimSpace body)
  · constructor
    · rintro ⟨body, front, back, line, ⟨mem, ends, rfl⟩ | ⟨key, mid, last, keyed, arguments, rfl⟩,
        rfl⟩
      · exact .keyless ⟨body, line, rfl⟩ mem ends
      · rw [← List.append_assoc]
        exact .keyed ⟨front, mid, ⟨body, line, rfl⟩, keyed, rfl⟩ arguments
    · intro request
      cases request with
      | keyless head mem ends =>
          obtain ⟨body, line, rfl⟩ := head
          exact ⟨body, _, _, line, .inl ⟨mem, ends, rfl⟩, rfl⟩
      | keyed head arguments =>
          obtain ⟨front, mid, ⟨body, line, rfl⟩, keyed, rfl⟩ := head
          rw [List.append_assoc]
          exact ⟨body, front, _, line, .inr ⟨_, mid, _, keyed, arguments, rfl⟩, rfl⟩

section Accepted

variable {tag body command key text : Bytes} {req : Request}

theorem IsLine.ne_nil (line : IsLine tag body text) : text ≠ [] := by
  obtain ⟨raw, _, _, rfl⟩ := line
  exact List.append_ne_nil_of_right_ne_nil raw (List.cons_ne_nil 10 [])

theorem IsRequest.ne_nil (request : IsRequest req text) : text ≠ [] := by
  cases request with
  | keyless head =>
      obtain ⟨_, line, _⟩ := head
      exact List.append_ne_nil_of_left_ne_nil line.ne_nil _
  | keyed head =>
      obtain ⟨_, _, ⟨_, line, _⟩, _, rfl⟩ := head
      rw [List.append_assoc]
      exact List.append_ne_nil_of_left_ne_nil line.ne_nil _

theorem consumes_decodeRequest : Consumes decodeRequest :=
  reads_decodeRequest.consumes fun _ _ => IsRequest.ne_nil

theorem IsKey.plain (keyed : IsKey key text) : key ≠ [] ∧ 10 ∉ key ∧ trimSpace key = key := by
  obtain ⟨body, ⟨raw, free, read, _⟩, rfl, some⟩ := keyed
  refine ⟨some, ?_, trimSpace_trimSpace body⟩
  intro mem
  have inBody : 10 ∈ trimSuffix 13 raw := by
    rw [read]
    exact List.mem_append_right _ (mem_of_mem_trimSpace mem)
  exact free (mem_of_mem_trimSuffix inBody)

theorem IsHead.plain (head : IsHead command key text) :
    key ≠ [] ∧ 10 ∉ key ∧ trimSpace key = key := by
  obtain ⟨_, _, _, keyed, _⟩ := head
  exact keyed.plain

theorem IsArguments.same_key {r : Request} (arguments : IsArguments req r text) :
    r.key = req.key := by
  cases arguments with
  | key | value | ttl => rfl

theorem IsArguments.same_command {r : Request} (arguments : IsArguments req r text) :
    r.command = req.command := by
  cases arguments with
  | key | value | ttl => rfl

/-- The key of a request that was read is one line. -/
theorem Request.Accepted.newline_not_mem_key (accepted : req.Accepted) : 10 ∉ req.key := by
  obtain ⟨s, rest, read⟩ := accepted
  obtain ⟨text, request, _⟩ := (reads_decodeRequest s req rest).mp read
  cases request with
  | keyless => exact List.not_mem_nil
  | keyed head arguments =>
      rw [arguments.same_key]
      exact head.plain.2.1

end Accepted

section Run

variable {tag body command key front : Bytes} {length : Nat}

theorem IsLine.run (line : IsLine tag body front) (s : Bytes) :
    readLine.run (front ++ s) = .ok (tag ++ body, s) := by
  rw [← List.nil_append tag] at line
  exact reads_readLine.run (isLine_append.mpr line) s

/-- The decoder goes on behind the lines with the command and the key. -/
theorem IsHead.run_decodeRequest (head : IsHead command key front)
    (mem : command ∈ setCommands ++ valueCommands) (s : Bytes) :
    decodeRequest.run (front ++ s) =
      (decodeArguments { command := command, key := key }).run s := by
  obtain ⟨front, back, ⟨body, line, rfl⟩, ⟨keyed, line', rfl, some⟩, rfl⟩ := head
  have others : ∀ c ∈ setCommands ++ valueCommands, c ≠ [] ∧ c ∉ keylessCommands := by decide
  unfold decodeRequest
  rw [List.append_assoc, run_bind (line.run _), isPrefixOf?_append]
  dsimp only
  unfold decodeCommand
  rw [if_neg (others _ mem).1, if_neg (others _ mem).2, run_bind (line'.run s),
    isPrefixOf?_append]
  dsimp only
  rw [if_neg some]

theorem IsLength.run_value {β : Type} (announced : IsLength length front) (req : Request)
    (next : Request → Reader β) (s : Bytes) :
    (decodeValueBody req >>= next).run (front ++ s) =
      (readRaw length >>= fun value => next { req with value := some value }).run s := by
  obtain ⟨body, line, length⟩ := announced
  unfold decodeValueBody
  rw [bind_assoc, run_bind (line.run s), isPrefixOf?_append]
  dsimp only
  rw [length]
  dsimp only
  rw [bind_assoc]
  simp only [pure_bind]

end Run

section Unique

variable {tag tag' body body' value value' dropped dropped' command command' key key' : Bytes}
  {text text' rest rest' : Bytes} {seconds seconds' : Int}

theorem IsLine.unique (line : IsLine tag body text) (line' : IsLine tag' body' text')
    (same : text ++ rest = text' ++ rest') : tag ++ body = tag' ++ body' ∧ rest = rest' := by
  rw [← List.nil_append tag] at line
  rw [← List.nil_append tag'] at line'
  exact reads_readLine.unique (isLine_append.mpr line) (isLine_append.mpr line') same

theorem IsLine.unique_body (line : IsLine tag body text) (line' : IsLine tag body' text')
    (same : text ++ rest = text' ++ rest') : body = body' ∧ rest = rest' :=
  (line.unique line' same).imp_left List.append_cancel_left

theorem IsHead.unique (head : IsHead command key text) (head' : IsHead command' key' text')
    (same : text ++ rest = text' ++ rest') : command = command' ∧ key = key' ∧ rest = rest' := by
  obtain ⟨front, back, ⟨body, line, rfl⟩, ⟨keyed, line₂, rfl, _⟩, rfl⟩ := head
  obtain ⟨front', back', ⟨body', line', rfl⟩, ⟨keyed', line₂', rfl, _⟩, rfl⟩ := head'
  rw [List.append_assoc, List.append_assoc] at same
  obtain ⟨rfl, same⟩ := line.unique_body line' same
  obtain ⟨rfl, same⟩ := line₂.unique_body line₂' same
  exact ⟨rfl, rfl, same⟩

theorem IsValue.unique (read : IsValue value dropped text) (read' : IsValue value' dropped' text')
    (same : text ++ rest = text' ++ rest') : value = value' ∧ rest = rest' := by
  obtain ⟨front, back, ⟨body, line, length⟩, raw, rfl⟩ := read
  obtain ⟨front', back', ⟨body', line', length'⟩, raw', rfl⟩ := read'
  rw [List.append_assoc, List.append_assoc] at same
  obtain ⟨rfl, same⟩ := line.unique_body line' same
  have size : value'.length = value.length := Option.some.inj (length'.symm.trans length)
  exact (reads_readRaw value.length).unique ⟨rfl, dropped, raw⟩ ⟨size, dropped', raw'⟩ same

theorem IsTtl.unique (line : IsTtl seconds text) (line' : IsTtl seconds' text')
    (same : text ++ rest = text' ++ rest') : seconds = seconds' ∧ rest = rest' := by
  obtain ⟨body, line, found⟩ := line
  obtain ⟨body', line', found'⟩ := line'
  obtain ⟨rfl, same⟩ := line.unique_body line' same
  exact ⟨Option.some.inj (found.symm.trans found'), same⟩

/-- A line with a TTL is not the last one. -/
theorem IsTtl.not_isEnd (line : IsTtl seconds text) (ends : IsEnd text')
    (same : text ++ rest = text' ++ rest') : False := by
  obtain ⟨body, line, _⟩ := line
  have heads : some (84 : UInt8) = some 69 := congrArg List.head? (line.unique ends same).1
  exact absurd heads (by decide)

end Unique

end DistributedCache.Protocol
