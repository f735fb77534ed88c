import DistributedCache.Protocol.Grammar
import DistributedCache.Server.Membership

/-!
Whether a client can read what a server answers.

Node ids and addresses come from the configuration, from `CLUSTER_JOIN` and from Raft,
and go into later answers as they are. The decoder splits the lines that name a node at
white space, so the answers stay readable as long as no id or address with white space in
it gets onto the ring, and as long as the address of a known leader is known too.
-/
namespace DistributedCache

open GoText Protocol
open Cluster (Ring RingConfig newCluster)

/-- A client reads the response with the same fields, but for the message. A slice has
fewer than `2 ^ 63` elements. -/
def Protocol.Response.ReadBack (resp : Response) : Prop :=
  resp.value.length < 2 ^ 63 → resp.members.length < 2 ^ 63 → ∀ rest, ∃ back,
    decodeResponse.run (encodeResponse resp ++ rest) = .ok (back, rest) ∧
    back.kind = resp.kind ∧ back.value = resp.value ∧ back.nodeID = resp.nodeID ∧
    back.addr = resp.addr ∧ back.members = resp.members

namespace Server

/-- A text that is a field of its own on a line. -/
def PlainText (s : String) : Prop :=
  s ≠ "" ∧ spaceFree (ascii s)

def PlainNode (node : Cluster.Node) : Prop :=
  PlainText node.id ∧ PlainText node.addr

/-- All members of the ring are plain. -/
def PlainRing (r : Ring) : Prop :=
  ∀ id node, r.nodes.lookup id = some node → PlainNode node

instance (s : String) : Decidable (PlainText s) :=
  inferInstanceAs (Decidable (_ ∧ _))

instance (node : Cluster.Node) : Decidable (PlainNode node) :=
  inferInstanceAs (Decidable (_ ∧ _))

section Responses

theorem ascii_ne_nil {s : String} (some : s ≠ "") : ascii s ≠ [] := by
  intro none
  rw [ascii, List.map_eq_nil_iff, String.toList_eq_nil_iff] at none
  exact some none

theorem readBack_of_readable {resp : Response}
    (readable : resp.value.length < 2 ^ 63 → resp.members.length < 2 ^ 63 → resp.Readable)
    (same : resp.received.kind = resp.kind ∧ resp.received.value = resp.value ∧
      resp.received.nodeID = resp.nodeID ∧ resp.received.addr = resp.addr ∧
      resp.received.members = resp.members) : resp.ReadBack :=
  fun value members rest => ⟨_, (readable value members).run_encodeResponse rest, same⟩

theorem readBack_ok : okResponse.ReadBack :=
  readBack_of_readable (fun _ _ => trivial) ⟨rfl, rfl, rfl, rfl, rfl⟩

theorem readBack_notFound : notFoundResponse.ReadBack :=
  readBack_of_readable (fun _ _ => trivial) ⟨rfl, rfl, rfl, rfl, rfl⟩

theorem readBack_error {message : Bytes} (free : 10 ∉ message) :
    (errorResponse message).ReadBack :=
  readBack_of_readable (fun _ _ => free) ⟨rfl, rfl, rfl, rfl, rfl⟩

theorem readBack_value (value : Bytes) : (valueResponse value).ReadBack :=
  readBack_of_readable (fun bound _ => bound) ⟨rfl, rfl, rfl, rfl, rfl⟩

section Plain

variable {node : Cluster.Node} (plain : PlainNode node)
include plain

theorem fields_plain : (ascii node.id ≠ [] ∧ spaceFree (ascii node.id)) ∧
    (ascii node.addr ≠ [] ∧ spaceFree (ascii node.addr)) :=
  ⟨⟨ascii_ne_nil plain.1.1, plain.1.2⟩, ⟨ascii_ne_nil plain.2.1, plain.2.2⟩⟩

theorem readBack_node {kind : ResponseKind} (names : kind ∈ [.moved, .owner, .notLeader]) :
    (nodeResponse kind node).ReadBack := by
  cases kind with
  | moved | owner | notLeader =>
      exact readBack_of_readable (fun _ _ => fields_plain plain) ⟨rfl, rfl, rfl, rfl, rfl⟩
  | value | ok | notFound | error | members => exact absurd names (by decide)

end Plain

theorem readBack_json (x : Except Line Bytes) : (jsonResponse x).ReadBack := by
  cases x with
  | ok value => exact readBack_value value
  | error message => exact readBack_error message.2

theorem readBack_get (value : Option Bytes) : (getResponse value).ReadBack := by
  cases value with
  | none => exact readBack_notFound
  | some value => exact readBack_value value

theorem readBack_replication (out : Outside) (err : Replication.Error) :
    (errorResponse (out.errorText err)).ReadBack :=
  readBack_error (newline_not_mem_replicationError _ _ err)

theorem readBack_emptyRing : (errorResponse (lookupErrorText .emptyRing)).ReadBack :=
  readBack_error (newline_not_mem_lookupError _)

end Responses

section Ring

variable {r r' : Ring} {node : Cluster.Node} {nodeID key : String}

theorem PlainRing.addNode (plain : PlainRing r) (h : r.addNode node = .ok r')
    (new : PlainNode node) : PlainRing r' := by
  obtain ⟨_, _, _, rfl⟩ := Ring.addNode_eq_ok.mp h
  intro id other found
  by_cases same : id = node.id
  · subst same
    rw [AList.lookup_insert] at found
    cases found
    exact new
  · rw [AList.lookup_insert_ne same] at found
    exact plain id other found

theorem PlainRing.removeNode (plain : PlainRing r) (h : r.removeNode nodeID = .ok r') :
    PlainRing r' := by
  obtain ⟨_, rfl⟩ := Ring.removeNode_eq_ok.mp h
  intro id node found
  exact plain id node (GoMap.of_lookup_erase found)

theorem plain_newCluster {self : Cluster.Node} {peers : List Cluster.Node} {cfg : RingConfig}
    (h : newCluster self peers cfg = .ok r) (here : PlainNode self)
    (there : ∀ peer ∈ peers, PlainNode peer) : PlainRing r := by
  obtain ⟨first, joined, added⟩ := Cluster.newCluster_eq_ok.mp h
  have empty : PlainRing (Cluster.newRing cfg) := fun id node found => by
    simp [Cluster.newRing] at found
  exact Ring.addPeers_induct (P := fun _ r => PlainRing r) (empty.addNode joined here)
    (fun _ r peer r' plain mem _ h => plain.addNode h (there peer mem)) added

theorem PlainRing.owner (plain : PlainRing r) (owns : r.owner key = some node) :
    PlainNode node := by
  unfold Ring.owner Ring.lookupHash at owns
  split at owns
  · cases owns
  · exact plain _ node owns

theorem PlainRing.members (plain : PlainRing r) : ∀ node ∈ r.members, PlainNode node := by
  intro node mem
  rw [Ring.members, List.mem_insertionSort] at mem
  obtain ⟨entry, found, rfl⟩ := List.mem_map.mp mem
  exact plain entry.1 entry.2 (AList.mem_lookup_iff.mpr found)

end Ring

/-- All members that the server knows are plain. -/
def PlainServer (s : Server) : Prop :=
  ∀ v, s.cluster = some v → PlainRing v.ring

/-- A call that adds this node to the ring adds a plain node. -/
def JoinsPlain (s : Server) (node : Cluster.Node) : Prop :=
  ∀ v, s.cluster = some v → Takes v.ring (.add node) → PlainNode node

/-- A leader that the server would name has a plain id and a plain address. -/
def KnowsLeader (s : Server) : Prop :=
  s.cluster ≠ none → ∀ n, s.raft = some n → n.isLeader = false → n.leaderID ≠ "" →
    PlainNode ⟨n.leaderID, n.leaderAddr⟩

section Handlers

variable {s s' : Server} {out : Outside} {key : String} {resp : Response}

theorem readBack_dispatchReplica {missing : Bytes} (free : 10 ∉ missing)
    (req : Replication.Request) : (s.dispatchReplica out missing req).2.ReadBack := by
  unfold dispatchReplica
  split
  · exact readBack_error free
  · dsimp only
    unfold replicaResponse
    split
    · exact readBack_ok
    · exact readBack_value _
    · exact readBack_notFound
    · exact readBack_replication out _

theorem readBack_dispatchSet (value : Bytes) (ttl : Int) :
    (s.dispatchSet out key value ttl).2.ReadBack := by
  unfold dispatchSet
  split
  · dsimp only
    split
    · exact readBack_replication out _
    · exact readBack_ok
  · dsimp only
    split
    · exact readBack_error (newline_not_mem_storeError _)
    · exact readBack_ok

theorem readBack_dispatchDelete : (s.dispatchDelete out key).2.ReadBack := by
  unfold dispatchDelete
  split
  · dsimp only
    split
    · exact readBack_replication out _
    · exact readBack_ok
    · exact readBack_notFound
  · dsimp only
    split
    · exact readBack_ok
    · exact readBack_notFound

section Plain

variable (plain : PlainServer s)
include plain

theorem readBack_redirectToPrimary : (s.redirectToPrimary key).ReadBack := by
  unfold redirectToPrimary
  split
  · exact readBack_error (by decide)
  · rename_i v cluster
    split
    · exact readBack_emptyRing
    · rename_i owns
      exact readBack_node ((plain v cluster).owner owns) (by decide)

theorem readBack_dispatchGet : (s.dispatchGet out key).2.ReadBack := by
  unfold dispatchGet
  split
  · dsimp only
    split
    · exact readBack_redirectToPrimary plain
    · exact readBack_replication out _
    · exact readBack_value _
    · exact readBack_notFound
  · exact readBack_get _

theorem readBack_dispatchOwner : (s.dispatchOwner key).ReadBack := by
  unfold dispatchOwner
  split
  · exact readBack_error (by decide)
  · rename_i v cluster
    split
    · exact readBack_emptyRing
    · rename_i owns
      exact readBack_node ((plain v cluster).owner owns) (by decide)

theorem readBack_dispatchClusterMembers : s.dispatchClusterMembers.ReadBack := by
  unfold dispatchClusterMembers
  split
  · exact readBack_error (by decide)
  · rename_i v cluster
    refine readBack_of_readable (fun _ bound => ⟨bound, ?_⟩) ⟨rfl, rfl, rfl, rfl, rfl⟩
    intro member mem
    obtain ⟨node, known, rfl⟩ := List.mem_map.mp mem
    have fields := fields_plain ((plain v cluster).members node known)
    exact plain_of_spaceFree fields.1 fields.2

/-- The callback of an entry that adds a plain node, or none. -/
theorem PlainServer.applyEntry {cmd : Raft.Command}
    (joins : cmd.type = .addMember → s.JoinsPlain ⟨cmd.nodeID, cmd.addr⟩)
    (h : s.applyEntry cmd = .ok s') : PlainServer s' := by
  unfold Server.applyEntry at h
  split at h
  · rename_i v n cluster _
    obtain ⟨⟨p, calls⟩, callback, h⟩ := Raft.Go.bind_eq_ok.mp h
    cases h
    intro v' same
    cases same
    cases Raft.Proc.applied_of_apply callback with
    | added type ring _ _ =>
        obtain ⟨id, addr, fresh, _⟩ := Ring.addNode_eq_ok.mp ring
        exact (plain v cluster).addNode ring (joins type v cluster ⟨id, addr, fresh⟩)
    | removed _ ring _ _ => exact (plain v cluster).removeNode ring
    | left _ _ same => exact same ▸ plain v cluster
  · cases h
    exact plain

end Plain

/-- The answer can be read, and the server is still plain. -/
structure Fine (x : Server × Response) : Prop where
  answer : x.2.ReadBack
  plain : PlainServer x.1

section Fine

variable {x : Server × Response} {cmd : Raft.Command}

theorem Fine.of_cluster (plain : PlainServer s) (answer : x.2.ReadBack)
    (same : x.1.cluster = s.cluster) : Fine x :=
  ⟨answer, fun v cluster => plain v (same ▸ cluster)⟩

theorem fine_propose {n : Raft.Node} (plain : PlainServer s) (clustered : s.cluster ≠ none)
    (raft : s.raft = some n) (knows : s.KnowsLeader)
    (joins : cmd.type = .addMember → s.JoinsPlain ⟨cmd.nodeID, cmd.addr⟩)
    (h : s.propose out n cmd = .ok x) : Fine x := by
  unfold propose at h
  split at h
  · split at h
    · cases h
      exact ⟨readBack_error (newline_not_mem_proposeError _), plain⟩
    · obtain ⟨s', applied, h⟩ := Raft.Go.bind_eq_ok.mp h
      cases h
      exact ⟨readBack_ok, plain.applyEntry joins applied⟩
  · rename_i follows
    cases h
    refine ⟨?_, plain⟩
    dsimp only
    unfold raftNotLeaderResponse
    split
    · exact readBack_error (by decide)
    · rename_i known
      exact readBack_node (knows clustered n raft (Bool.eq_false_iff.mpr follows) known) (by decide)

theorem fine_changeRing {v : ClusterView} {changed : Except Cluster.RingError Ring}
    (plain : PlainServer s)
    (refused : ∀ err, changed = .error err → 10 ∉ ringErrorText out.quote err)
    (ring : ∀ r, changed = .ok r → PlainRing r) : Fine (s.changeRing out v changed) := by
  cases changed with
  | error err => exact ⟨readBack_error (refused err rfl), plain⟩
  | ok r =>
      refine ⟨readBack_ok, fun v' same => ?_⟩
      cases same
      exact ring r rfl

theorem fine_dispatchClusterJoin {nodeID addr : String} (plain : PlainServer s)
    (free : 10 ∉ ascii nodeID) (knows : s.KnowsLeader) (joins : s.JoinsPlain ⟨nodeID, addr⟩)
    (h : s.dispatchClusterJoin out nodeID addr = .ok x) : Fine x := by
  unfold dispatchClusterJoin at h
  split at h
  · cases h
    exact ⟨readBack_error (by decide), plain⟩
  · rename_i v cluster
    split at h
    · rename_i n raft
      exact fine_propose plain (by simp [cluster]) raft knows (fun _ => joins) h
    · cases h
      refine fine_changeRing plain (fun err refused => ?_) (fun r added => ?_)
      · exact newline_not_mem_of_addNode _ refused free
      · obtain ⟨id, address, fresh, _⟩ := Ring.addNode_eq_ok.mp added
        exact (plain v cluster).addNode added (joins v cluster ⟨id, address, fresh⟩)

theorem fine_dispatchClusterLeave {nodeID : String} (plain : PlainServer s)
    (free : 10 ∉ ascii nodeID) (knows : s.KnowsLeader)
    (h : s.dispatchClusterLeave out nodeID = .ok x) : Fine x := by
  unfold dispatchClusterLeave at h
  split at h
  · cases h
    exact ⟨readBack_error (by decide), plain⟩
  · rename_i v cluster
    split at h
    · rename_i n raft
      exact fine_propose plain (by simp [cluster]) raft knows
        (fun (adds : Raft.CommandType.removeMember = .addMember) => by cases adds) h
    · cases h
      exact fine_changeRing plain (fun _ refused => newline_not_mem_of_removeNode _ refused free)
        (fun _ removed => (plain v cluster).removeNode removed)

theorem fine_dispatchRaftRequestVote {payload : Bytes} (plain : PlainServer s)
    (h : s.dispatchRaftRequestVote out payload = .ok x) : Fine x := by
  unfold dispatchRaftRequestVote at h
  split at h
  · cases h
    exact ⟨readBack_error (by decide), plain⟩
  · split at h
    · rename_i message _
      cases h
      exact ⟨readBack_error message.2, plain⟩
    · obtain ⟨⟨n, resp⟩, _, h⟩ := Raft.Go.bind_eq_ok.mp h
      cases h
      exact ⟨readBack_json _, plain⟩

theorem fine_dispatchRaftAppendEntries {payload : Bytes} (plain : PlainServer s)
    (h : s.dispatchRaftAppendEntries out payload = .ok x) : Fine x := by
  unfold dispatchRaftAppendEntries at h
  split at h
  · cases h
    exact ⟨readBack_error (by decide), plain⟩
  · split at h
    · rename_i message _
      cases h
      exact ⟨readBack_error message.2, plain⟩
    · obtain ⟨⟨n, status⟩, _, h⟩ := Raft.Go.bind_eq_ok.mp h
      cases h
      exact ⟨readBack_json _, plain⟩

theorem readBack_dispatchRaftStatus : (s.dispatchRaftStatus out).ReadBack := by
  unfold dispatchRaftStatus
  split
  · exact readBack_error (by decide)
  · exact readBack_json _

theorem readBack_dispatchMetrics : (s.dispatchMetrics out).ReadBack := by
  unfold dispatchMetrics
  split
  · exact readBack_json _
  · exact readBack_error (by decide)

theorem fine_dispatchReplica {missing : Bytes} (plain : PlainServer s) (free : 10 ∉ missing)
    (req : Replication.Request) : Fine (s.dispatchReplica out missing req) := by
  refine .of_cluster plain (readBack_dispatchReplica free req) ?_
  unfold dispatchReplica
  split <;> rfl

/-- A handler behind a check that redirects. -/
theorem fine_routed {check : Option Response} {handled : Server × Response}
    (plain : PlainServer s)
    (turned : ∀ resp, check = some resp → resp = s.redirectToPrimary key)
    (fine : Fine handled) (h : s.routed check handled = .ok x) : Fine x := by
  cases check with
  | none =>
      cases h
      exact fine
  | some resp =>
      cases h
      exact ⟨turned resp rfl ▸ readBack_redirectToPrimary plain, plain⟩

theorem fine_dispatchSet (plain : PlainServer s) (value : Bytes) (ttl : Int) :
    Fine (s.dispatchSet out key value ttl) := by
  refine .of_cluster plain (readBack_dispatchSet value ttl) ?_
  unfold dispatchSet
  split <;> rfl

theorem fine_dispatchDelete (plain : PlainServer s) : Fine (s.dispatchDelete out key) := by
  refine .of_cluster plain readBack_dispatchDelete ?_
  unfold dispatchDelete
  split <;> rfl

theorem fine_dispatchGet (plain : PlainServer s) : Fine (s.dispatchGet out key) := by
  refine .of_cluster plain (readBack_dispatchGet plain) ?_
  unfold dispatchGet
  split <;> rfl

/-- One request at a plain server. -/
theorem fine_dispatch {req : Request} (plain : PlainServer s) (accepted : req.Accepted)
    (joins : req.command = commandClusterJoin →
      s.JoinsPlain ⟨text req.key, text (req.value.getD [])⟩)
    (knows : req.command ∈ [commandClusterJoin, commandClusterLeave] → s.KnowsLeader)
    (h : s.dispatch out req = .ok x) : Fine x := by
  have free : 10 ∉ ascii (text req.key) := by
    rw [ascii_text]
    exact accepted.newline_not_mem_key
  unfold dispatch at h
  dsimp only at h
  by_cases ping : req.command = commandPing
  · rw [if_pos ping] at h
    cases h
    exact ⟨readBack_ok, plain⟩
  rw [if_neg ping] at h
  by_cases metrics : req.command = commandMetrics
  · rw [if_pos metrics] at h
    cases h
    exact ⟨readBack_dispatchMetrics, plain⟩
  rw [if_neg metrics] at h
  by_cases vote : req.command = commandRaftRequestVote
  · rw [if_pos vote] at h
    exact fine_dispatchRaftRequestVote plain h
  rw [if_neg vote] at h
  by_cases append : req.command = commandRaftAppendEntries
  · rw [if_pos append] at h
    exact fine_dispatchRaftAppendEntries plain h
  rw [if_neg append] at h
  by_cases status : req.command = commandRaftStatus
  · rw [if_pos status] at h
    cases h
    exact ⟨readBack_dispatchRaftStatus, plain⟩
  rw [if_neg status] at h
  by_cases replSet : req.command = commandReplSet
  · rw [if_pos replSet] at h
    cases h
    exact fine_dispatchReplica plain (by decide) _
  rw [if_neg replSet] at h
  by_cases replDelete : req.command = commandReplDelete
  · rw [if_pos replDelete] at h
    cases h
    exact fine_dispatchReplica plain (by decide) _
  rw [if_neg replDelete] at h
  by_cases replGet : req.command = commandReplGet
  · rw [if_pos replGet] at h
    cases h
    exact fine_dispatchReplica plain (newline_not_mem_replicationError _ _ _) _
  rw [if_neg replGet] at h
  by_cases owner : req.command = commandOwner
  · rw [if_pos owner] at h
    cases h
    exact ⟨readBack_dispatchOwner plain, plain⟩
  rw [if_neg owner] at h
  by_cases members : req.command = commandClusterMembers
  · rw [if_pos members] at h
    cases h
    exact ⟨readBack_dispatchClusterMembers plain, plain⟩
  rw [if_neg members] at h
  by_cases join : req.command = commandClusterJoin
  · rw [if_pos join] at h
    exact fine_dispatchClusterJoin plain free (knows (by simp [join])) (joins join) h
  rw [if_neg join] at h
  by_cases leave : req.command = commandClusterLeave
  · rw [if_pos leave] at h
    exact fine_dispatchClusterLeave plain free (knows (by simp [leave])) h
  rw [if_neg leave] at h
  by_cases set : req.command = commandSet
  · rw [if_pos set] at h
    exact fine_routed plain (fun _ => eq_redirect_of_checkWriteRouting)
      (fine_dispatchSet plain _ _) h
  rw [if_neg set] at h
  by_cases delete : req.command = commandDelete
  · rw [if_pos delete] at h
    exact fine_routed plain (fun _ => eq_redirect_of_checkWriteRouting)
      (fine_dispatchDelete plain) h
  rw [if_neg delete] at h
  by_cases get : req.command = commandGet
  · rw [if_pos get] at h
    exact fine_routed plain (fun _ => eq_redirect_of_checkReadRouting)
      (fine_dispatchGet plain) h
  rw [if_neg get] at h
  cases h
  exact ⟨readBack_error (by decide), plain⟩

end Fine

end Handlers

/-- How a server in cluster mode is started. -/
structure Launch where
  self : Cluster.Node
  peers : List Cluster.Node
  ringCfg : RingConfig
  replication : Option Replication.Config

/-- A request, an entry that the callback applies, or what other goroutines make of the Raft
node and of the store. -/
inductive Action
  | request (req : Request) (out : Outside)
  | apply (cmd : Raft.Command)
  | background (n : Raft.Node) (store : Cache.Store)

def Step (s : Server) (a : Action) (s' : Server) : Prop :=
  match a with
  | .request req out => req.Accepted ∧ ∃ resp, s.dispatch out req = .ok (s', resp)
  | .apply cmd => s.applyEntry cmd = .ok s'
  | .background n store => s' = { s with raft := s.raft.map fun _ => n, store := store }

/-- A server that is started with or without a cluster. The rest of its configuration may
be anything. -/
def servingSystem (launch : Option Launch) : Transition.System Server Action where
  init s :=
    match launch with
    | none => s.cluster = none
    | some l => ∃ r, newCluster l.self l.peers l.ringCfg = .ok r ∧
        s.cluster = some ⟨l.self.id, r, l.replication⟩
  step := Step

abbrev ServingRun (launch : Option Launch) (past : List (Server × Action)) (s : Server) : Prop :=
  Transition.Run (servingSystem launch) past s

/-- The step brings no white space into the ring, and does not have to name a leader
without a plain address. -/
def Clean (s : Server) : Action → Prop
  | .request req _ =>
      (req.command = commandClusterJoin →
        s.JoinsPlain ⟨text req.key, text (req.value.getD [])⟩) ∧
      (req.command ∈ [commandClusterJoin, commandClusterLeave] → s.KnowsLeader)
  | .apply cmd => cmd.type = .addMember → s.JoinsPlain ⟨cmd.nodeID, cmd.addr⟩
  | .background _ _ => True

section Runs

variable {launch : Option Launch} {past : List (Server × Action)} {s s' : Server}
  {out : Outside} {req : Request} {resp : Response}

theorem servingRun_request (run : ServingRun launch past s) (accepted : req.Accepted)
    (h : s.dispatch out req = .ok (s', resp)) :
    ServingRun launch ((s, .request req out) :: past) s' :=
  .next run ⟨accepted, resp, h⟩

theorem plainServer_run
    (plain : ∀ l ∈ launch, PlainNode l.self ∧ ∀ peer ∈ l.peers, PlainNode peer)
    (run : ServingRun launch past s) (meets : Transition.Meets Clean past) : PlainServer s := by
  refine Transition.Run.invariant (I := PlainServer) ?_ ?_ run meets
  · intro s start v cluster
    cases launch with
    | none =>
        change s.cluster = none at start
        rw [start] at cluster
        cases cluster
    | some l =>
        obtain ⟨r, ring, same⟩ := start
        rw [same] at cluster
        cases cluster
        exact plain_newCluster ring (plain l rfl).1 (plain l rfl).2
  · intro s a s' before clean step
    cases a with
    | request req out =>
        obtain ⟨accepted, resp, h⟩ := step
        exact (fine_dispatch before accepted clean.1 clean.2 h).plain
    | apply cmd => exact before.applyEntry clean step
    | background n store =>
        obtain rfl : s' = { s with raft := s.raft.map fun _ => n, store := store } := step
        exact before

/-- In every run in which only ids and addresses without white space are configured and
join, every answer can be read, except where a leader has to be named without a plain
address. -/
theorem answers_readable
    (plain : ∀ l ∈ launch, PlainNode l.self ∧ ∀ peer ∈ l.peers, PlainNode peer)
    (run : ServingRun launch past s) (meets : Transition.Meets Clean past)
    (accepted : req.Accepted) (clean : s.Clean (.request req out))
    (h : s.dispatch out req = .ok (s', resp)) : resp.ReadBack :=
  (fine_dispatch (plainServer_run plain run meets) accepted clean.1 clean.2 h).answer

end Runs

/-- A server that starts alone, with one virtual node. -/
def soloLaunch : Launch where
  self := ⟨"a", "a:1"⟩
  peers := []
  ringCfg := ⟨1, Cluster.hashKey⟩
  replication := none

def soloServer (raft : Option Raft.Node) : Server where
  cluster := some ⟨"a", (Cluster.newRing ⟨1, Cluster.hashKey⟩).join ⟨"a", "a:1"⟩, none⟩
  raft := raft
  metrics := false
  store := Cache.newStore 0

theorem soloServer_starts (raft : Option Raft.Node) :
    ServingRun (some soloLaunch) [] (soloServer raft) :=
  .start ⟨_, rfl, rfl⟩

def membersRequest : Request where
  command := commandClusterMembers

def joinRequest (nodeID addr : Bytes) : Request where
  command := commandClusterJoin
  key := nodeID
  value := some addr

def leaveRequest (nodeID : Bytes) : Request where
  command := commandClusterLeave
  key := nodeID

theorem membersRequest_accepted : membersRequest.Accepted :=
  ⟨ascii "CMD CLUSTER_MEMBERS\nEND\n", [], by decide +kernel⟩

/-- A node with a plain id and a plain address joins. -/
theorem answers_readable_join : ∃ past s s' resp, ServingRun (some soloLaunch) past s ∧
    s.dispatch quiet membersRequest = .ok (s', resp) ∧ resp.members.length = 2 ∧
    resp.ReadBack := by
  have accepted : (joinRequest (ascii "b") (ascii "b:1")).Accepted :=
    ⟨ascii "CMD CLUSTER_JOIN\nKEY b\nVAL 3\nb:1\nEND\n", [], by decide +kernel⟩
  have plain : ∀ l ∈ some soloLaunch, PlainNode l.self ∧ ∀ peer ∈ l.peers, PlainNode peer := by
    intro l mem
    cases mem
    exact ⟨by decide +kernel, fun peer none => absurd none List.not_mem_nil⟩
  have run := servingRun_request (soloServer_starts none) accepted
    (rfl : (soloServer none).dispatch quiet _ = .ok _)
  have meets : Transition.Meets Clean
      [(soloServer none, .request (joinRequest (ascii "b") (ascii "b:1")) quiet)] := by
    intro step mem
    obtain rfl := List.mem_singleton.mp mem
    refine ⟨fun _ v _ _ => by decide +kernel, fun _ _ n raft => ?_⟩
    cases raft
  have clean (s : Server) : s.Clean (.request membersRequest quiet) :=
    ⟨fun join => absurd join (by decide), fun change => absurd change (by decide)⟩
  exact ⟨_, _, _, _, run, rfl, by decide +kernel,
    answers_readable plain run meets membersRequest_accepted (clean _) rfl⟩

/-- A heartbeat of a leader `x` that is not among the peers of the node. -/
def heartbeatRequest : Request where
  command := commandRaftAppendEntries
  key := ascii "raft"
  value := some (ascii ("\x7b\"term\":1,\"leader_id\":\"x\",\"prev_log_index\":0," ++
    "\"prev_log_term\":0,\"entries\":null,\"leader_commit\":0\x7d"))

theorem not_readBack {resp : Response}
    (small : resp.value.length < 2 ^ 63 ∧ resp.members.length < 2 ^ 63)
    (other : (decodeResponse.run (encodeResponse resp)).toOption.map (fun r => r.1.members) ≠
      some resp.members) : ¬ resp.ReadBack := by
  intro read
  obtain ⟨back, run, _, _, _, _, members⟩ := read small.1 small.2 []
  rw [List.append_nil] at run
  rw [run] at other
  exact other (congrArg some members)

/-- The members that a client reads after a join with a blank in the id, and the answer of a
follower that does not know its leader's address. -/
theorem answers_unreadable :
    (∃ past s s' resp, ServingRun (some soloLaunch) past s ∧ membersRequest.Accepted ∧
      s.dispatch quiet membersRequest = .ok (s', resp) ∧
      resp.members = [⟨ascii "a", ascii "a:1"⟩, ⟨ascii "b c", ascii "x:1"⟩] ∧
      ¬ resp.ReadBack) ∧
    ∃ past s s' resp, ServingRun (some soloLaunch) past s ∧ (leaveRequest (ascii "a")).Accepted ∧
      s.dispatch quiet (leaveRequest (ascii "a")) = .ok (s', resp) ∧
      resp = { kind := .notLeader, nodeID := ascii "x" } ∧ ¬ resp.ReadBack := by
  have join : (joinRequest (ascii "b c") (ascii "x:1")).Accepted :=
    ⟨ascii "CMD CLUSTER_JOIN\nKEY b c\nVAL 3\nx:1\nEND\n", [], by decide +kernel⟩
  have heard : heartbeatRequest.Accepted :=
    ⟨requestText heartbeatRequest, [], by decide +kernel⟩
  have leave : (leaveRequest (ascii "a")).Accepted :=
    ⟨ascii "CMD CLUSTER_LEAVE\nKEY a\nEND\n", [], by decide +kernel⟩
  constructor
  · have run := servingRun_request (soloServer_starts none) join
      (rfl : (soloServer none).dispatch quiet _ = .ok _)
    exact ⟨_, _, _, _, run, membersRequest_accepted, rfl, by decide +kernel,
      not_readBack (by decide +kernel) (by decide +kernel)⟩
  · have answered : (soloServer (some (Raft.newNode "a" "a:1" ∅))).dispatch quiet
        heartbeatRequest = .ok _ := rfl
    have run := servingRun_request (soloServer_starts _) heard answered
    exact ⟨_, _, _, _, run, leave, rfl, by decide +kernel,
      not_readBack (by decide +kernel) (by decide +kernel)⟩

end Server

end DistributedCache
