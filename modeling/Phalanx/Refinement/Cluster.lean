import Phalanx.Refinement.Moves
import Phalanx.Refinement.Node

/-! A static cluster refines the protocol. In every run without discovery events
there is a protocol state that the nodes track and that accounts for every packet
in the network and every leader there ever was. -/
namespace Phalanx

open Consensus Go Raft

/-- Every node is configured with the same distinct, non-empty IDs, and its address
book leads to the peers it names. -/
structure Static (w : World) : Prop where
  nodup : w.members.Nodup
  named : ∀ i ∈ w.members, i ≠ None
  peersNodup : ∀ i ∈ w.members, (w.peers i).Nodup
  peers : ∀ i ∈ w.members, ∀ p, p ∈ w.peers i ↔ p ∈ w.members ∧ p ≠ i
  wired : ∀ i ∈ w.members, ∀ store n, w.boot i store = some n →
    ∀ p ∈ w.members, p ≠ i → w.env.dial i (n.resolvePeerAddr p) = p

/-- A cluster in which a node's ID is its address. Every timeout drawn is the shortest, and
every payload sets the key that it spells. -/
def mesh (members : List String) (electionTimeout heartbeatTimeout : Int) : World where
  env := { newSource := fun _ _ => 0, unmarshal := fun data => some { op := opSet, key := data }
           dial := fun _ addr => addr }
  members := members
  peers := fun i => members.filter fun p => p ≠ i
  electionTimeout := fun _ => electionTimeout
  heartbeatTimeout := fun _ => heartbeatTimeout
  addrs := fun _ => []

theorem mesh_static {members : List String} (hnodup : members.Nodup) (hnamed : None ∉ members)
    (electionTimeout heartbeatTimeout : Int) :
    Static (mesh members electionTimeout heartbeatTimeout) where
  nodup := hnodup
  named := fun i hi h => hnamed (h ▸ hi)
  peersNodup := fun _ _ => hnodup.filter _
  peers := fun i _ p => by simp [mesh]
  wired := by
    intro i _ store n hboot p _ _
    obtain ⟨n₀, hnew, hboot⟩ := Option.bind_eq_some_iff.mp hboot
    cases hboot
    obtain ⟨raft, -, hn⟩ := Option.bind_eq_some_iff.mp hnew
    cases hn
    simp [mesh, Node.resolvePeerAddr]

def Stimulus.isJoin : Stimulus → Bool
  | .join _ _ => true
  | _ => false

def Event.joinless : Event → Bool
  | .handle _ stimulus => !stimulus.isJoin
  | .crash _ during => !(during.any Stimulus.isJoin)
  | _ => true

def Event.crashless : Event → Bool
  | .crash _ _ => false
  | _ => true

/-- Neither a discovery event nor a crash. -/
def Event.steady (e : Event) : Bool := e.joinless && e.crashless

def Event.delivers : Event → Bool
  | .handle _ (.packet _) => true
  | .dial _ => true
  | _ => false

theorem Event.isJoin_of_steady {i : String} {stimulus : Stimulus}
    (h : (Event.handle i stimulus).steady = true) : stimulus.isJoin = false := by
  have hjoinless := (Bool.and_eq_true_iff.mp h).1
  simpa [Event.joinless] using hjoinless

theorem Event.not_steady_crash {i : String} {during : Option Stimulus}
    (h : (Event.crash i during).steady = true) : False := by
  cases (Bool.and_eq_true_iff.mp h).2

/-- No Raft state of the run reached the last `uint64` term. -/
def Cluster.TermsBelow (c : Cluster) : Prop :=
  ∀ seen ∈ c.hist, seen.2.currentTerm < uint64Size - 1

instance (c : Cluster) : Decidable c.TermsBelow :=
  inferInstanceAs (Decidable (∀ seen ∈ c.hist, _))

structure Hosts (w : World) (s : Protocol) (i : String) (n : Node) : Prop where
  member : i ∈ w.members
  id : n.id = i
  tracks : Tracks w.members.toFinset s i n.raft
  drained : n.raft.msgs = []
  term : n.store.term = n.raft.currentTerm
  vote : n.store.votedFor = n.raft.votedFor
  log : n.store.log = []
  routes : ∀ p ∈ w.members, p ≠ i → w.env.dial i (n.resolvePeerAddr p) = p

structure Transit (w : World) (s : Protocol) (pk : Packet) : Prop where
  genuine : Genuine s pk.msg
  origin : pk.origin = pk.msg.sender
  sender : pk.msg.sender ∈ w.members
  recipient : pk.msg.recipient ∈ w.members
  apart : pk.msg.sender ≠ pk.msg.recipient
  dest : ∀ d, pk.dest = some d → d = pk.msg.recipient

/-- A leader that was ever seen won its term, and its log goes on from where it won. -/
def Ruled (mayCrash : Protocol → String → Prop) (w : World) (s : Protocol) (i : String)
    (r : Raft) : Prop :=
  r.state = .leader → ∃ k, s.reign r.currentTerm = some k ∧ k.leader = i ∧ k.base <+: r.log ∧
    k.base.length < r.log.length ∧ r.log <+: k.log ∧
    (NoLoss mayCrash → Settled LogEntry.term (quorums w.members.toFinset) s r.currentTerm r.log
      r.commitIndex)

structure Refines (mayCrash : Protocol → String → Prop) (w : World) (c : Cluster)
    (s : Protocol) : Prop where
  safe : ProtocolSafe w.members.toFinset mayCrash s
  node : ∀ i n, c.node i = some n → Hosts w s i n
  net : ∀ pk ∈ c.net, Transit w s pk
  hist : ∀ seen ∈ c.hist, Ruled mayCrash w s seen.1 seen.2
  now : ∀ i n, c.node i = some n → (i, n.raft) ∈ c.hist

variable {mayCrash : Protocol → String → Prop} {w : World} {c c' : Cluster} {s s' : Protocol}
variable {i : String} {n n' : Node} {r r' : Raft}

theorem Static.named' (h : Static w) : None ∉ w.members.toFinset := by
  intro hmem
  exact h.named None (List.mem_toFinset.mp hmem) rfl

theorem Hosts.mono (hgrows : Grows s s') (hpeer : s'.peer i = s.peer i) (h : Hosts w s i n) :
    Hosts w s' i n :=
  { h with tracks := h.tracks.mono hgrows hpeer }

theorem Transit.mono (hgrows : Grows s s') {pk : Packet} (h : Transit w s pk) :
    Transit w s' pk :=
  { h with genuine := h.genuine.mono hgrows }

theorem Ruled.mono (hgrows : Grows s s') (h : Ruled mayCrash w s i r) :
    Ruled mayCrash w s' i r := by
  intro hstate
  obtain ⟨k, hk, hleader, hbase, hlen, hlog, hsettled⟩ := h hstate
  obtain ⟨k', hk', hleader', -, hbase', hlog'⟩ := hgrows.reign _ k hk
  refine ⟨k', hk', hleader'.trans hleader, by rwa [hbase'], by rwa [hbase'],
    hlog.trans hlog', fun hloss => ?_⟩
  exact (hsettled hloss).mono hgrows.ledger hgrows.acks le_rfl (List.prefix_refl _)

theorem Tracks.ruled (hsafe : ProtocolSafe w.members.toFinset mayCrash s)
    (h : Tracks w.members.toFinset s i r) : Ruled mayCrash w s i r := by
  intro hstate
  have hrole : (s.peer i).role = .leader := by
    simp [h.role, hstate]
  obtain ⟨k, hk, hleader⟩ := hsafe.votes.leaderReign i hrole
  have hlog := hsafe.logs.leaderLog i hrole
  rw [ledger_eq hk, h.log] at hlog
  rw [h.term] at hk
  refine ⟨k, hk, hleader, ?_, ?_, ?_, fun hloss => ?_⟩
  · rw [hlog]
    exact List.prefix_append _ _
  · have htail := (hsafe.logs.tail _ k hk).1
    rw [hlog, Reign.log, List.length_append]
    have := List.length_pos_iff.mpr htail
    omega
  · rw [hlog]
  · have := (hsafe.commits hloss).peerCommit i
    rwa [h.term, h.log, h.commit] at this

theorem Tracks.drain {members : Finset String} (h : Tracks members s i r) (lastApplied : Nat) :
    Tracks members s i { r with lastApplied, msgs := [] } :=
  h.still rfl rfl rfl rfl rfl rfl fun m hm => by cases hm

theorem Genuine.received {msg : Message} (hreq : msg.isRequest = true) (id : String)
    (h : Genuine s msg) : Genuine s (msg.received id) := by
  unfold Message.isRequest at hreq
  unfold Message.received
  unfold Genuine at h ⊢
  rcases of_decide_eq_true hreq with htype | htype
  · rw [if_pos htype]
    rw [htype] at h
    exact ⟨rfl, h.2⟩
  · rw [if_neg (by simp [htype])]
    rw [htype] at h
    exact h

theorem Refines.set (h : Refines mayCrash w c s)
    (hsafe : ProtocolSafe w.members.toFinset mayCrash s') (hgrows : Grows s s')
    (hother : ∀ j, j ≠ i → s'.peer j = s.peer j) (hhosts : Hosts w s' i n') (new : List Packet)
    (hnew : ∀ pk ∈ new, Transit w s' pk) :
    Refines mayCrash w { c.setNode i n' with net := c.net ++ new } s' := by
  have hraft : { n'.raft with msgs := [] } = n'.raft := by
    rw [← hhosts.drained]
  refine { safe := hsafe, node := ?_, net := ?_, hist := ?_, now := ?_ }
  · intro j m hm
    by_cases hj : j = i
    · subst hj
      simp only [Cluster.setNode, Function.update_self, Option.some.injEq] at hm
      rw [← hm]
      exact hhosts
    · simp only [Cluster.setNode, Function.update_of_ne hj] at hm
      exact (h.node j m hm).mono hgrows (hother j hj)
  · intro pk hpk
    rcases List.mem_append.mp hpk with hold | hadded
    · exact (h.net pk hold).mono hgrows
    · exact hnew pk hadded
  · intro seen hseen
    rcases List.mem_append.mp hseen with hold | hadded
    · exact (h.hist seen hold).mono hgrows
    · rw [List.mem_singleton] at hadded
      rw [hadded, hraft]
      exact hhosts.tracks.ruled hsafe
  · intro j m hm
    by_cases hj : j = i
    · subst hj
      simp only [Cluster.setNode, Function.update_self, Option.some.injEq] at hm
      rw [← hm]
      exact List.mem_append_right _ (by rw [hraft]; exact List.mem_singleton_self _)
    · simp only [Cluster.setNode, Function.update_of_ne hj] at hm
      exact List.mem_append_left _ (h.now j m hm)

theorem Refines.deliverable (h : Refines mayCrash w c s) {stimulus : Stimulus} {input : Input}
    {via : Option (Nat × Packet)} (hn : c.node i = some n)
    (hinput : c.input i stimulus = some (input, via)) {m : Message}
    (hm : input.stepped n.id = some m) : Deliverable w.members.toFinset s i m := by
  rcases Cluster.input_cases hinput with ⟨-, -, rfl⟩ | ⟨data, -, -, rfl⟩ | ⟨a, b, -, -, rfl⟩ |
    ⟨k, pk, -, hpk, hdest, -, rfl⟩
  · cases hm
  · cases hm
  · cases hm
  · have htransit := h.net pk (List.mem_of_getElem? hpk)
    have hrecipient := htransit.dest i hdest
    have hsender : pk.msg.sender ∈ w.members.toFinset := List.mem_toFinset.mpr htransit.sender
    have hapart : pk.msg.sender ≠ i := hrecipient ▸ htransit.apart
    split at hm
    next hreq =>
      simp only [Input.stepped, Option.some.injEq] at hm
      subst hm
      refine ⟨htransit.genuine.received hreq n.id, ?_⟩
      rw [(h.node i n hn).id]
      unfold Message.received
      split <;> exact ⟨rfl, hsender, hapart⟩
    next =>
      simp only [Input.stepped, Option.some.injEq] at hm
      subst hm
      exact ⟨htransit.genuine, hrecipient.symm, hsender, hapart⟩

private theorem genuine_answered {msg reply : Message} (hreply : reply.isReply msg = true)
    (hsender : reply.sender = msg.recipient) (h : Genuine s reply) :
    Genuine s (msg.answered reply) := by
  obtain ⟨hrecipient, hcase⟩ := of_decide_eq_true hreply
  unfold Genuine at h ⊢
  unfold Message.answered
  rcases hcase with ⟨htype, hrtype⟩ | ⟨htype, hrtype⟩
  · rw [if_pos htype]
    rw [hrtype] at h
    refine ⟨rfl, ?_⟩
    simp only
    rw [← hsender]
    exact h.2
  · rw [if_neg htype]
    rw [hrtype] at h
    refine ⟨h.1, ?_⟩
    simp only
    rw [← hsender, ← hrecipient]
    exact h.2

private theorem transit_emitted {out : List Message} {via : Option (Nat × Packet)}
    (hi : i ∈ w.members) (hout : ∀ m ∈ out, Outgoing w.members.toFinset s i m)
    (hvia : ∀ k pk, via = some (k, pk) → Transit w s pk ∧ pk.dest = some i) :
    ∀ pk ∈ Cluster.emitted i out via, Transit w s pk := by
  intro pk hpk
  rcases Cluster.mem_emitted hpk with ⟨m, hm, -, rfl⟩ | ⟨k, req, m, rfl, -, hm, hisReply, rfl⟩
  · obtain ⟨hgenuine, hsender, hrecipient, hne⟩ := hout m hm
    refine ⟨hgenuine, hsender.symm, ?_, List.mem_toFinset.mp hrecipient, ?_,
      fun d hd => by cases hd⟩
    · change m.sender ∈ w.members
      rw [hsender]
      exact hi
    · change m.sender ≠ m.recipient
      rw [hsender]
      exact Ne.symm hne
  · obtain ⟨htransit, hdest⟩ := hvia k req rfl
    have hrecipient := htransit.dest i hdest
    obtain ⟨hgenuine, hsender, -⟩ := hout m hm
    have hans : (req.msg.answered m).sender = req.msg.recipient ∧
        (req.msg.answered m).recipient = req.msg.sender := by
      unfold Message.answered
      split <;> exact ⟨rfl, rfl⟩
    refine ⟨genuine_answered hisReply (hsender.trans hrecipient) hgenuine, ?_, ?_, ?_, ?_, ?_⟩
    · exact hrecipient.trans hans.1.symm
    · rw [hans.1]
      exact htransit.recipient
    · rw [hans.2]
      exact htransit.sender
    · rw [hans.1, hans.2]
      exact Ne.symm htransit.apart
    · intro d hd
      rw [hans.2, ← htransit.origin]
      exact (Option.some.inj hd).symm

theorem no_join {stimulus : Stimulus} {input : Input} {via : Option (Nat × Packet)}
    (hjoin : stimulus.isJoin = false) (hinput : c.input i stimulus = some (input, via)) :
    ∀ a b, input ≠ .join a b := by
  rintro a b rfl
  rcases Cluster.input_cases hinput with ⟨-, -, hne⟩ | ⟨data, -, -, hne⟩ |
    ⟨a, b, -, rfl, -⟩ | ⟨k, pk, -, -, -, -, hne⟩
  · cases hne
  · cases hne
  · cases hjoin
  · split at hne <;> cases hne

theorem Refines.acted (hstatic : Static w) (h : Refines mayCrash w c s) (hbelow : c.TermsBelow)
    {stimulus : Stimulus} {input : Input} {via : Option (Nat × Packet)}
    (hjoin : stimulus.isJoin = false) (hn : c.node i = some n)
    (hinput : c.input i stimulus = some (input, via)) (hact : n.act w.env input = some n') :
    Simulated w.members.toFinset mayCrash s i n'.raft ∧ Node.SameHost n n' := by
  have hhosts := h.node i n hn
  have hdeliver : ∀ m, input.stepped n.id = some m → Deliverable w.members.toFinset s i m :=
    fun m hm => h.deliverable hn hinput hm
  have hacted : (∃ r₁ lastApplied, Moves (fun m => input.stepped n.id = some m)
      (fun t => t = n.raft.currentTerm) n.raft r₁ ∧ n'.raft = { r₁ with lastApplied }) ∧
      Node.SameHost n n' :=
    Node.act_moves (no_join hjoin hinput) (fun _ => rfl) (fun m hm => (hdeliver m hm).1.1)
      (fun _ hm => Cluster.reply_of_input hinput hm) hact
  obtain ⟨⟨r₁, lastApplied, hmoves, hraft⟩, hsame⟩ := hacted
  refine ⟨?_, hsame⟩
  have hbound : ∀ t, t = n.raft.currentTerm → t < uint64Size - 1 := by
    rintro t rfl
    exact hbelow _ (h.now i n hn)
  obtain ⟨s', hsteps, hother, htracks⟩ := Moves.simulate hstatic.named'
    (List.mem_toFinset.mpr hhosts.member) hbound hdeliver h.safe hhosts.tracks hmoves
  refine ⟨s', hsteps, hother, ?_⟩
  rw [hraft]
  exact htracks.still rfl rfl rfl rfl rfl rfl fun m hm => .inl hm

theorem Refines.completed (h : Refines mayCrash w c s) {stimulus : Stimulus} {input : Input}
    {via : Option (Nat × Packet)} (hn : c.node i = some n)
    (hinput : c.input i stimulus = some (input, via))
    (hsim : Simulated w.members.toFinset mayCrash s i n'.raft) (hsame : Node.SameHost n n') :
    ∃ s', Refines mayCrash w (c.completed i n' via) s' ∧
      ProtocolSteps w.members.toFinset mayCrash s s' := by
  have hhosts := h.node i n hn
  obtain ⟨s', hsteps, hother, htracks⟩ := hsim
  obtain ⟨hsafe, hgrows⟩ := h.safe.steps (fun t => quorums_meet _ t t) (quorums_meet _) hsteps
  refine ⟨s', ?_, hsteps⟩
  apply h.set hsafe hgrows hother
  · refine
      { member := hhosts.member, id := hsame.id.trans hhosts.id
        tracks := htracks.drain n'.raft.lastApplied, drained := rfl, term := rfl, vote := rfl
        log := ?_, routes := ?_ }
    · change n'.store.log = []
      rw [hsame.store]
      exact hhosts.log
    · intro p hp hne
      have := hhosts.routes p hp hne
      unfold Node.resolvePeerAddr at this ⊢
      rw [← hsame.peerAddrs] at this
      exact this
  · apply transit_emitted hhosts.member htracks.outbox
    intro k pk hvia
    rcases Cluster.input_cases hinput with ⟨hnone, -⟩ | ⟨data, hnone, -⟩ | ⟨a, b, hnone, -⟩ |
      ⟨k', pk', -, hpk, hdest, hsome, -⟩
    · rw [hnone] at hvia
      cases hvia
    · rw [hnone] at hvia
      cases hvia
    · rw [hnone] at hvia
      cases hvia
    · rw [hsome] at hvia
      cases hvia
      exact ⟨(h.net pk (List.mem_of_getElem? hpk)).mono hgrows, hdest⟩

theorem Refines.handled (hstatic : Static w) (h : Refines mayCrash w c s)
    (hbelow : c.TermsBelow) {stimulus : Stimulus} {input : Input} {via : Option (Nat × Packet)}
    (hjoin : stimulus.isJoin = false) (hn : c.node i = some n)
    (hinput : c.input i stimulus = some (input, via)) (hact : n.act w.env input = some n') :
    ∃ s', Refines mayCrash w (c.completed i n' via) s' ∧ Grows s s' := by
  obtain ⟨hsim, hsame⟩ := h.acted hstatic hbelow hjoin hn hinput hact
  obtain ⟨s', hs', hsteps⟩ := h.completed hn hinput hsim hsame
  exact ⟨s', hs', (h.safe.steps (fun t => quorums_meet _ t t) (quorums_meet _) hsteps).2⟩

theorem Refines.voter_term (h : Refines mayCrash w c s) {term : Nat} {k : Reign String LogEntry}
    (hk : s.reign term = some k) (hi : i ∈ k.voters) (hn : c.node i = some n) :
    term ≤ n.raft.currentTerm := by
  rw [← (h.node i n hn).tracks.term]
  obtain ⟨-, -, hrequest, hvotes⟩ := h.safe.votes.reignVotes term k hk
  rcases hvotes i hi with rfl | ⟨l, hgrant⟩
  · exact h.safe.votes.requestTerm _ hrequest
  · rcases (h.safe.votes.grantVote _ hgrant).2 with hlt | ⟨heq, -⟩
    · exact hlt.le
    · exact heq.le

def freshPeer (store : Store) : Peer String LogEntry where
  term := store.term
  vote := if store.votedFor = None then none else some store.votedFor
  role := .follower
  active := false
  log := []
  commit := 0

theorem Static.hosts_boot (hstatic : Static w) (hi : i ∈ w.members) {store : Store}
    (hlog : store.log = []) (hpeer : s.peer i = freshPeer store)
    (hboot : w.boot i store = some n) : Hosts w s i n := by
  have hroutes := hstatic.wired i hi store n hboot
  obtain ⟨peerAddrs, rfl⟩ := World.boot_eq hboot
  refine
    { member := hi, id := rfl, tracks := ?_, drained := rfl, term := rfl, vote := rfl
      log := hlog, routes := hroutes }
  refine
    { peer := ?_, id := rfl, nodup := hstatic.peersNodup i hi, peers := ?_
      indexed := ?_, standing := ?_, leading := ?_, outbox := ?_ }
  · rw [hpeer]
    simp only [freshPeer, view, World.fresh, redraw, hlog]
    rfl
  · intro p
    rw [List.mem_toFinset]
    exact hstatic.peers i hi p
  · change Indexed store.log
    rw [hlog]
    exact .nil
  · intro hs
    cases hs
  · intro hs
    cases hs
  · intro m hm
    cases hm

theorem Refines.reboot (hstatic : Static w) (h : Refines mayCrash w c s)
    (hn : c.node i = some n) (hmay : mayCrash s i) (hboot : w.boot i n.store = some n') :
    ∃ s', Refines mayCrash w (c.setNode i n') s' := by
  have hhosts := h.node i n hn
  have hstep : ProtocolStep w.members.toFinset mayCrash s _ := .crash s i hmay
  have hgrows := hstep.grows h.safe.votes fun t => quorums_meet _ t t
  have hsafe := h.safe.step (fun t => quorums_meet _ t t) (quorums_meet _) hstep
  have hpeer : (s.setPeer i { s.peer i with
      role := .follower, active := false, log := [], commit := 0 }).peer i =
      freshPeer n.store := by
    simp only [State.setPeer_peer, if_true, hhosts.tracks.peer, freshPeer, view, hhosts.term,
      hhosts.vote]
  have hset := h.set hsafe hgrows (fun j hj => by simp [hj])
    (hstatic.hosts_boot hhosts.member hhosts.log hpeer hboot) [] (by simp)
  rw [List.append_nil] at hset
  exact ⟨_, hset⟩

/-- A crash is sound if the protocol lets the node crash in the state its memory was in,
or, where the interrupted handler left no leader behind, in the state before it. A leader
that an interrupted handler left behind must be of the term that was saved. -/
def CrashSound (mayCrash : Protocol → String → Prop) (i : String) (r r' : Raft) : Prop :=
  (r'.state = .leader → r.state ≠ .follower ∧ r'.currentTerm = r.currentTerm ∧
    ∀ s : Protocol, s.peer i = r'.view → mayCrash s i) ∧
  (r'.state ≠ .leader → ∀ s : Protocol, s.peer i = r.view → mayCrash s i)

theorem Refines.crash_during (hstatic : Static w) (h : Refines mayCrash w c s)
    (hn : c.node i = some n) (hsim : Simulated w.members.toFinset mayCrash s i n'.raft)
    (hsound : CrashSound mayCrash i n.raft n'.raft) {n₂ : Node}
    (hboot : w.boot i n.store = some n₂) :
    ∃ s', Refines mayCrash w ((c.recorded i n').setNode i n₂) s' := by
  have hhosts := h.node i n hn
  by_cases hleader : n'.raft.state = .leader
  · -- The protocol follows the handler to its end and crashes the leader there.
    obtain ⟨hoffice, hterm, hmay⟩ := hsound.1 hleader
    obtain ⟨s', hsteps, hother, htracks⟩ := hsim
    obtain ⟨hsafe, hgrows⟩ := h.safe.steps (fun t => quorums_meet _ t t) (quorums_meet _) hsteps
    have hvote : n'.raft.votedFor = n.raft.votedFor := by
      have hnew := hsafe.votes.standing i (by simp [htracks.role, hleader])
      have hold := h.safe.votes.standing i (by
        rw [hhosts.tracks.role]
        exact fun hrole => hoffice (NodeState.role_injective hrole))
      rw [htracks.vote] at hnew
      rw [hhosts.tracks.vote] at hold
      split at hnew
      · cases hnew
      · split at hold
        · cases hold
        · rw [Option.some.inj hnew, Option.some.inj hold]
    have hhosts' : Hosts w s' i { n with raft := { n'.raft with msgs := [] } } :=
      { hhosts with
        tracks := htracks.drain n'.raft.lastApplied, drained := rfl
        term := hhosts.term.trans hterm.symm, vote := hhosts.vote.trans hvote.symm }
    have hset := h.set hsafe hgrows hother hhosts' [] (by simp)
    rw [List.append_nil] at hset
    obtain ⟨s'', hs''⟩ := hset.reboot hstatic (Function.update_self ..) (hmay s' htracks.peer)
      hboot
    refine ⟨s'', ?_⟩
    have heq : (Cluster.setNode (c.setNode i { n with raft := { n'.raft with msgs := [] } }) i n₂) =
        (c.recorded i n').setNode i n₂ := by
      simp [Cluster.setNode, Cluster.recorded]
    rw [← heq]
    exact hs''
  · have hrec : Refines mayCrash w (c.recorded i n') s := by
      refine { safe := h.safe, node := h.node, net := h.net, hist := ?_, now := ?_ }
      · intro seen hseen
        rcases List.mem_append.mp hseen with hold | hadded
        · exact h.hist seen hold
        · rw [List.mem_singleton] at hadded
          rw [hadded]
          exact fun hs => absurd hs hleader
      · exact fun j m hm => List.mem_append_left _ (h.now j m hm)
    exact hrec.reboot hstatic hn (hsound.2 hleader s hhosts.tracks.peer) hboot

theorem refines_start (hstatic : Static w) (h : Cluster.start w = some c) :
    ∃ s, Refines mayCrash w c s := by
  refine ⟨State.init fun _ => freshPeer {}, ?_⟩
  apply Cluster.start_induction _ _ h
  · refine { safe := .init (fun _ => rfl) (fun _ => rfl) (fun _ => rfl), node := ?_, net := ?_
             hist := ?_, now := ?_ }
    · intro i n hn
      cases hn
    · intro pk hpk
      cases hpk
    · intro seen hseen
      cases hseen
    · intro i n hn
      cases hn
  · intro c₀ i n hi hboot h₀
    have hset := h₀.set h₀.safe (.refl _) (fun _ _ => rfl)
      (hstatic.hosts_boot hi rfl rfl hboot) [] (by simp)
    rw [List.append_nil] at hset
    exact hset

def CrashAllowed (mayCrash : Protocol → String → Prop) (w : World) (c : Cluster) : Event → Prop
  | .crash i none => ∀ n, c.node i = some n → CrashSound mayCrash i n.raft n.raft
  | .crash i (some stimulus) => ∀ n input via n', c.node i = some n →
      c.input i stimulus = some (input, via) → n.act w.env input = some n' →
      CrashSound mayCrash i n.raft n'.raft
  | _ => True

theorem Refines.dialled (h : Refines mayCrash w c s) {k : Nat}
    (hstep : c.step w (.dial k) = some c') : Refines mayCrash w c' s := by
  obtain ⟨pk, n, dest, hpk, hn, hdest, rfl, rfl⟩ := Cluster.step_dial hstep
  have htransit := h.net pk (List.mem_of_getElem? hpk)
  refine { safe := h.safe, node := h.node, net := ?_, hist := h.hist, now := h.now }
  intro pk' hpk'
  rcases List.mem_append.mp hpk' with hold | hadded
  · exact h.net pk' hold
  · rw [List.mem_singleton] at hadded
    subst hadded
    refine { htransit with dest := ?_ }
    intro d hd
    rw [← Option.some.inj hd]
    rw [htransit.origin] at hn ⊢
    exact (h.node _ n hn).routes _ htransit.recipient (Ne.symm htransit.apart)

theorem Refines.answered (h : Refines mayCrash w c s) {call : Nat} {success : Bool}
    (hstep : c.step w (.answer i call success) = some c') : Refines mayCrash w c' s := by
  obtain ⟨n, n', hn, hanswer, rfl⟩ := Cluster.step_answer hstep
  obtain ⟨calls, rfl⟩ := Node.answer_frame hanswer
  refine { safe := h.safe, node := ?_, net := h.net, hist := h.hist, now := ?_ }
  · intro j m hm
    by_cases hj : j = i
    · subst hj
      simp only [Function.update_self, Option.some.injEq] at hm
      subst hm
      exact { h.node j n hn with }
    · simp only [Function.update_of_ne hj] at hm
      exact h.node j m hm
  · intro j m hm
    by_cases hj : j = i
    · subst hj
      simp only [Function.update_self, Option.some.injEq] at hm
      subst hm
      exact h.now j n hn
    · simp only [Function.update_of_ne hj] at hm
      exact h.now j m hm

theorem Refines.step (hstatic : Static w) (h : Refines mayCrash w c s) (hbelow : c.TermsBelow)
    {e : Event} (hjoin : e.joinless = true) (hcrash : CrashAllowed mayCrash w c e)
    (hstep : c.step w e = some c') : ∃ s', Refines mayCrash w c' s' := by
  cases e with
  | handle i stimulus =>
    obtain ⟨n, input, via, hn, hinput, ⟨-, rfl⟩ | ⟨n₁, hact, rfl⟩⟩ := Cluster.step_handle hstep
    · exact ⟨s, h⟩
    · obtain ⟨hsim, hsame⟩ := h.acted hstatic hbelow (by simpa [Event.joinless] using hjoin) hn
        hinput hact
      obtain ⟨s', hs', -⟩ := h.completed hn hinput hsim hsame
      exact ⟨s', hs'⟩
  | crash i during =>
    obtain ⟨n, n', hn, hboot, ⟨rfl, rfl⟩ | ⟨stimulus, input, via, n₁, rfl, hinput, hact, rfl⟩⟩ :=
      Cluster.step_crash hstep
    · obtain ⟨hlead, hother⟩ := hcrash n hn
      apply h.reboot hstatic hn _ hboot
      by_cases hleader : n.raft.state = .leader
      · exact (hlead hleader).2.2 s (h.node i n hn).tracks.peer
      · exact hother hleader s (h.node i n hn).tracks.peer
    · obtain ⟨hsim, -⟩ := h.acted hstatic hbelow (by simpa [Event.joinless] using hjoin) hn
        hinput hact
      exact h.crash_during hstatic hn hsim (hcrash n input via n₁ hn hinput hact) hboot
  | dial k => exact ⟨s, h.dialled hstep⟩
  | answer i call success => exact ⟨s, h.answered hstep⟩

theorem Cluster.TermsBelow.before {e : Event} (h : c'.TermsBelow)
    (hstep : c.step w e = some c') : c.TermsBelow :=
  fun seen hseen => h seen ((Cluster.step_grows hstep).1.subset hseen)

theorem refines_of_reach (hstatic : Static w) {ok : Cluster → Event → Prop}
    (hjoin : ∀ c e, ok c e → e.joinless = true)
    (hcrash : ∀ c e s, ok c e → c.TermsBelow → Refines mayCrash w c s →
      CrashAllowed mayCrash w c e)
    (hreach : Cluster.Reach w ok c) (hbelow : c.TermsBelow) : ∃ s, Refines mayCrash w c s := by
  induction hreach with
  | start h => exact refines_start hstatic h
  | step _ hok hstep ih =>
    have hbefore := hbelow.before hstep
    obtain ⟨s, hs⟩ := ih hbefore
    exact hs.step hstatic hbefore (hjoin _ _ hok) (hcrash _ _ s hok hbefore hs) hstep

theorem refines_of_steady (hstatic : Static w) {ok : Cluster → Event → Prop}
    (hok : ∀ c e, ok c e → e.steady = true) (hreach : Cluster.Reach w ok c)
    (hbelow : c.TermsBelow) : ∃ s, Refines (fun _ _ => False) w c s := by
  apply refines_of_reach hstatic _ _ hreach hbelow
  · intro c e he
    exact (Bool.and_eq_true_iff.mp (hok c e he)).1
  · intro c e s he _ _
    cases e with
    | crash i during => exact (Event.not_steady_crash (hok c _ he)).elim
    | _ => trivial

end Phalanx
