import DistributedCache.Server.Transport

/-!
The loop of `cmd/client` over redirects.

The client sends its request to an address, and sends it again to the address in a `MOVED` or
`NOT_LEADER` response, at most `maxRedirects` times. Each round trip is a connection of its
own, so that the server at an address may have changed in between, and it goes through the
texts of request and response.
-/
namespace DistributedCache.Server

open GoText Framing Protocol

def maxRedirects : Nat := 5

/-- How `main` ends: with a response that it prints, or with an error. -/
inductive ClientResult
  | answered (resp : Response)
  | failed (err : TripError)
  | tooManyRedirects

/-- The loop with so many redirects left. The `k`-th round trip to an address ends as `net k`
says, and the number of round trips is returned as well. -/
def redirectLoop (net : Nat → Bytes → Except TripError Response) :
    Nat → Nat → Bytes → ClientResult × Nat
  | left, k, targetAddr =>
      match net k targetAddr with
      | .error err => (.failed err, k + 1)
      | .ok resp =>
          match resp.kind, left with
          | .moved, 0 | .notLeader, 0 => (.tooManyRedirects, k + 1)
          | .moved, left + 1 => redirectLoop net left (k + 1) resp.addr
          | .notLeader, left + 1 =>
              redirectLoop net left (k + 1) (if resp.addr ≠ [] then resp.addr else targetAddr)
          | .ok, _ | .value, _ | .notFound, _ | .error, _ | .owner, _ | .members, _ =>
              (.answered resp, k + 1)

/-- The loop of `main`. -/
def follow (net : Nat → Bytes → Except TripError Response) (addr : Bytes) : ClientResult × Nat :=
  redirectLoop net maxRedirects 0 addr

section Loop

variable {net : Nat → Bytes → Except TripError Response} {left k : Nat} {targetAddr : Bytes}
  {resp : Response}

theorem redirectLoop_answered (trip : net k targetAddr = .ok resp)
    (kind : resp.kind ≠ .moved ∧ resp.kind ≠ .notLeader) :
    redirectLoop net left k targetAddr = (.answered resp, k + 1) := by
  unfold redirectLoop
  rw [trip]
  cases kinds : resp.kind with
  | moved => exact absurd kinds kind.1
  | notLeader => exact absurd kinds kind.2
  | ok | value | notFound | error | owner | members => simp only [kinds]

theorem redirectLoop_moved (trip : net k targetAddr = .ok resp) (moved : resp.kind = .moved) :
    redirectLoop net (left + 1) k targetAddr = redirectLoop net left (k + 1) resp.addr := by
  rw [redirectLoop, trip]
  simp only [moved]

end Loop

section Fleet

variable {s s' : Server} {out : Outside} {req : Request} {resp : Response}

/-- Every round trip to the address of a member reaches a server of the fleet that is this
member, in whatever state. A slice has fewer than `2 ^ 63` elements. -/
def Reaches (fleet : Fleet) (req : Request) (net : Nat → Bytes → Except TripError Response) :
    Prop :=
  ∀ k id node, fleet.nodes.lookup id = some node → ∃ s ∈ fleet.servers, ∃ v out s',
    s.cluster = some v ∧ v.selfID = node.id ∧
    s.roundTrip out req = .ok (s', net k (ascii node.addr)) ∧
    ∀ t resp, s.dispatch out req.received = .ok (t, resp) → resp.value.length < 2 ^ 63

theorem roundTrip_readBack (wf : req.WellFormed)
    (answer : s.dispatch out req.received = .ok (s', resp)) (readBack : resp.ReadBack)
    (value : resp.value.length < 2 ^ 63) (members : resp.members = []) :
    ∃ back, s.roundTrip out req = .ok (s', .ok back) ∧ back.kind = resp.kind ∧
      back.value = resp.value ∧ back.addr = resp.addr := by
  have few : resp.members.length < 2 ^ 63 := by
    rw [members]
    decide
  obtain ⟨back, reply, kind, same, _, addr, _⟩ := readBack value few []
  rw [List.append_nil] at reply
  exact ⟨back, roundTrip_of_reply wf answer reply, kind, same, addr⟩

/-- The responses to data requests name no leader and no members. -/
theorem data_response (data : req.command ∈ [commandSet, commandDelete, commandGet])
    (answer : s.dispatch out req = .ok (s', resp)) :
    resp.kind ≠ .notLeader ∧ resp.members = [] := by
  have redirect (key : String) : (s.redirectToPrimary key).kind ≠ .notLeader ∧
      (s.redirectToPrimary key).members = [] := by
    unfold redirectToPrimary
    split
    · exact ⟨nofun, rfl⟩
    · split <;> exact ⟨nofun, rfl⟩
  rw [dispatch_data data] at answer
  cases passes : s.checkRouting req with
  | some turned =>
      rw [passes] at answer
      cases answer
      rw [eq_redirect_of_checkRouting passes]
      exact redirect _
  | none =>
      rw [passes] at answer
      have handled : (.ok (s.handleData out req) : Raft.Go (Server × Response)) =
          .ok (s', resp) := answer
      obtain rfl : (s.handleData out req).2 = resp :=
        congrArg Prod.snd (Except.ok.inj handled)
      unfold handleData
      split
      · unfold dispatchSet
        split
        · dsimp only
          split <;> exact ⟨nofun, rfl⟩
        · dsimp only
          split <;> exact ⟨nofun, rfl⟩
      · split
        · unfold dispatchDelete
          split
          · dsimp only
            split <;> exact ⟨nofun, rfl⟩
          · dsimp only
            split <;> exact ⟨nofun, rfl⟩
        · unfold dispatchGet
          split
          · dsimp only
            split
            · exact redirect _
            · exact ⟨nofun, rfl⟩
            · exact ⟨nofun, rfl⟩
            · exact ⟨nofun, rfl⟩
          · dsimp only
            cases (s.store.get out.now (text req.key)).2 <;> exact ⟨nofun, rfl⟩

theorem Fleet.plainServer (fleet : Fleet)
    (plain : ∀ id node, fleet.nodes.lookup id = some node → PlainNode node)
    (server : s ∈ fleet.servers) : PlainServer s := by
  intro v cluster id node found
  obtain ⟨v', sees⟩ := fleet.sees s server
  obtain rfl : v = v' := Option.some.inj (cluster.symm.trans sees.cluster)
  exact plain id node ((sees.members id).symm.trans found)

/-- What a client reads of an answer to a data request. -/
theorem data_roundTrip (plain : PlainServer s) (wf : req.WellFormed)
    (data : req.command ∈ [commandSet, commandDelete, commandGet])
    (answer : s.dispatch out req.received = .ok (s', resp))
    (value : resp.value.length < 2 ^ 63) :
    ∃ back, s.roundTrip out req = .ok (s', .ok back) ∧ back.kind = resp.kind ∧
      back.value = resp.value ∧ back.addr = resp.addr := by
  have others : ∀ c ∈ [commandSet, commandDelete, commandGet], c ≠ commandClusterJoin ∧
      c ∉ [commandClusterJoin, commandClusterLeave] := by decide
  have accepted : req.received.Accepted :=
    ⟨requestText req, [], reads_decodeRequest.run_whole wf.isRequest⟩
  have command : req.received.command ∈ [commandSet, commandDelete, commandGet] := data
  have fine : Fine (s', resp) :=
    fine_dispatch plain accepted (fun join => absurd join (others _ command).1)
      (fun change => absurd change (others _ command).2) answer
  exact roundTrip_readBack wf answer fine.answer value (data_response command answer).2

/-- The response that a client reads is the one of a server that serves the request. -/
def ServedBy (fleet : Fleet) (req : Request) (back : Response) : Prop :=
  ∃ s ∈ fleet.servers, ∃ out s' resp, s.Serves out req.received ∧
    s.dispatch out req.received = .ok (s', resp) ∧ resp.kind = back.kind ∧
    resp.value = back.value

section Arrives

variable {fleet : Fleet} {net : Nat → Bytes → Except TripError Response} {addr : Bytes} {k : Nat}

/-- A round trip to a server that serves the request. -/
theorem trip_served (plain : PlainServer s) (wf : req.WellFormed)
    (data : req.command ∈ [commandSet, commandDelete, commandGet]) (server : s ∈ fleet.servers)
    (trip : s.roundTrip out req = .ok (s', net k addr))
    (fits : ∀ t resp, s.dispatch out req.received = .ok (t, resp) → resp.value.length < 2 ^ 63)
    (serves : s.Serves out req.received) :
    ∃ back, net k addr = .ok back ∧ (back.kind ≠ .moved ∧ back.kind ≠ .notLeader) ∧
      ServedBy fleet req back := by
  obtain ⟨passes, t, resp, answer, kind⟩ := serves
  obtain ⟨back, same, kinds, values, _⟩ := data_roundTrip plain wf data answer (fits t resp answer)
  have read : net k addr = .ok back := (Prod.mk.inj (Except.ok.inj (trip.symm.trans same))).2
  have command : req.received.command ∈ [commandSet, commandDelete, commandGet] := data
  have other := (data_response command answer).1
  exact ⟨back, read, ⟨kinds ▸ kind, kinds ▸ other⟩, s, server, out, t, resp,
    ⟨passes, t, resp, answer, kind⟩, answer, kinds.symm, values.symm⟩

/-- A client of a fleet that starts at any member has its data request served, after at most
one redirect. -/
theorem client_arrives (plain : ∀ id node, fleet.nodes.lookup id = some node → PlainNode node)
    (reaches : Reaches fleet req net) (wf : req.WellFormed)
    (data : req.command ∈ [commandSet, commandDelete, commandGet]) {id : String}
    {first : Cluster.Node} (member : fleet.nodes.lookup id = some first) :
    ∃ back trips, follow net (ascii first.addr) = (.answered back, trips) ∧ trips ≤ 2 ∧
      ServedBy fleet req back := by
  have command : req.received.command ∈ [commandSet, commandDelete, commandGet] := data
  obtain ⟨s, server, v, out, s', cluster, _, trip, fits⟩ := reaches 0 id first member
  have clean := fleet.plainServer plain server
  unfold follow
  cases (serves_or_redirects command : s.Serves out req.received ∨ _) with
  | inl serves =>
      obtain ⟨back, read, kind, served⟩ := trip_served clean wf data server trip fits serves
      exact ⟨back, 1, redirectLoop_answered read kind, by decide, served⟩
  | inr redirected =>
      obtain ⟨node, known, owns⟩ :=
        fleet.exists_owner (GoMap.mem_iff.mpr ⟨_, member⟩) (text req.received.key)
      obtain ⟨t, answer⟩ := redirected
      rw [redirectToPrimary_eq cluster (owns s server v cluster)] at answer
      obtain ⟨turned, same, kind, _, addr⟩ :=
        data_roundTrip clean wf data answer (fits _ _ answer)
      have read : net 0 (ascii first.addr) = .ok turned :=
        (Prod.mk.inj (Except.ok.inj (trip.symm.trans same))).2
      have moved : turned.kind = .moved := kind
      have target : turned.addr = ascii node.addr := addr
      -- The second trip is to the owner, as its own ring has it.
      obtain ⟨o, server', u, out', o', cluster', self, trip', fits'⟩ := reaches 1 node.id node known
      have serves : o.Serves out' req.received :=
        serves_of_owner command cluster' (owns o server' u cluster') self.symm
      obtain ⟨back, read', kind', served⟩ :=
        trip_served (fleet.plainServer plain server') wf data server' trip' fits' serves
      have loop : redirectLoop net maxRedirects 0 (ascii first.addr) = (.answered back, 2) := by
        rw [maxRedirects, redirectLoop_moved read moved, target]
        exact redirectLoop_answered read' kind'
      exact ⟨back, 2, loop, le_rfl, served⟩

/-- The two servers of a fleet, each at its address. -/
def pairAt (addr : Bytes) : Server :=
  if addr = ascii "a:1" then pairServer "a" Cluster.firstView.2
  else pairServer "b" Cluster.secondView.2

def pairNet (_ : Nat) (addr : Bytes) : Except TripError Response :=
  match (pairAt addr).roundTrip quiet pairRead with
  | .ok (_, result) => result
  | .error _ => .error (.unexpected .error)

theorem pairFleet_nodes {id : String} {node : Cluster.Node}
    (found : pairFleet.nodes.lookup id = some node) :
    node = ⟨"a", "a:1"⟩ ∨ node = ⟨"b", "b:1"⟩ := by
  have listed : ∀ id ∈ pairFleet.nodes.keys,
      pairFleet.nodes.lookup id = some ⟨"a", "a:1"⟩ ∨
        pairFleet.nodes.lookup id = some ⟨"b", "b:1"⟩ := by
    decide +kernel
  have either := listed id (GoMap.mem_iff.mpr ⟨_, found⟩)
  rw [found, Option.some.injEq, Option.some.injEq] at either
  exact either

theorem reaches_pairNet : Reaches pairFleet pairRead pairNet := by
  have trips : ∀ addr ∈ [ascii "a:1", ascii "b:1"],
      ((pairAt addr).roundTrip quiet pairRead).isOk = true ∧
        (((pairAt addr).dispatch quiet pairRead.received).toOption.all
          fun answer => answer.2.value.length < 2 ^ 63) = true := by
    decide +kernel
  have reach (addr) (mem : addr ∈ [ascii "a:1", ascii "b:1"]) (k : Nat) :
      (∃ s', (pairAt addr).roundTrip quiet pairRead = .ok (s', pairNet k addr)) ∧
        ∀ t resp, (pairAt addr).dispatch quiet pairRead.received = .ok (t, resp) →
          resp.value.length < 2 ^ 63 := by
    obtain ⟨ok, fits⟩ := trips addr mem
    refine ⟨?_, ?_⟩
    · unfold pairNet
      cases trip : (pairAt addr).roundTrip quiet pairRead with
      | error e =>
          rw [trip] at ok
          cases ok
      | ok x => exact ⟨x.1, rfl⟩
    · intro t resp answer
      rw [answer] at fits
      exact of_decide_eq_true fits
  intro k id node found
  cases pairFleet_nodes found with
  | inl first =>
      subst first
      obtain ⟨⟨s', trip⟩, fits⟩ := reach (ascii "a:1") (by decide) k
      exact ⟨pairAt (ascii "a:1"), .inl rfl, _, quiet, s', rfl, rfl, trip, fits⟩
  | inr second =>
      subst second
      obtain ⟨⟨s', trip⟩, fits⟩ := reach (ascii "b:1") (by decide) k
      exact ⟨pairAt (ascii "b:1"), .inr rfl, _, quiet, s', rfl, rfl, trip, fits⟩

/-- The read of a key of `a` that starts at `b`. -/
theorem client_arrives_pair :
    (follow pairNet (ascii "b:1")).2 = 2 ∧
      ∃ back trips, follow pairNet (ascii "b:1") = (.answered back, trips) ∧ trips ≤ 2 ∧
        ServedBy pairFleet pairRead back := by
  refine ⟨by decide +kernel, ?_⟩
  have plain (id node) (found : pairFleet.nodes.lookup id = some node) : PlainNode node := by
    cases pairFleet_nodes found with
    | inl first =>
        subst first
        exact ⟨by decide, by decide⟩
    | inr second =>
        subst second
        exact ⟨by decide, by decide⟩
  have member : pairFleet.nodes.lookup "b" = some ⟨"b", "b:1"⟩ := by decide +kernel
  exact client_arrives plain reaches_pairNet (by constructor <;> decide) (by decide) member

end Arrives

end Fleet

end DistributedCache.Server
