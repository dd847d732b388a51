import Phalanx.Raft.Outbox
import Phalanx.Raft.Repeat
import Phalanx.Record
import Phalanx.Safety.Election
import Phalanx.Safety.Reads

/-! What a successful AppendEntries response stands for. A follower acknowledges its own last
index, not the end of what it was sent; that is the truth all the same, because whatever it
accepts reaches an entry of the leader's own term, and nothing but a beginning of that leader's
log can lie before such an entry. -/
namespace Phalanx

open Consensus Go Raft

namespace Raft

variable {r r' : Raft} {msg : Message}

/-- What a call without an AppendEntries does to a log: nothing, unless it leaves a leader
that has appended an entry. -/
def Adds (log : List LogEntry) (r' : Raft) : Prop :=
  r'.log = log ∨ r'.state = .leader ∧ ∃ e, r'.log = log ++ [e] ∧ e.term = r'.currentTerm

theorem becomeLeader_adds {log : List LogEntry} (h : r.becomeLeader = some r')
    (hlog : r.log = log) : Adds log r' := by
  subst hlog
  obtain ⟨out, -, rfl⟩ := broadcastHeartbeat_eq h
  exact .inr ⟨rfl, _, rfl, rfl⟩

theorem becomeCandidate_adds {log : List LogEntry} (h : r.becomeCandidate = some r')
    (hlog : r.log = log) : Adds log r' := by
  rcases becomeCandidate_cases h with ⟨-, hlead⟩ | ⟨-, rfl⟩
  · exact becomeLeader_adds hlead hlog
  · exact .inl hlog

theorem tick_adds (h : r.tick = some r') : Adds r.log r' := by
  rcases tick_cases h with ⟨-, h⟩ | ⟨-, h⟩
  · obtain ⟨heartbeatElapsed, heartbeatAcked, msgs, rfl⟩ := tickHeartbeat_frame h
    exact .inl rfl
  · rcases tickElection_cases h with ⟨-, rfl⟩ | ⟨-, h⟩
    · exact .inl rfl
    · exact becomeCandidate_adds h rfl

theorem propose_adds {data : List UInt8} {index : Option Nat}
    (h : r.propose data = some (index, r')) : Adds r.log r' := by
  rcases propose_cases h with ⟨-, rfl⟩ | ⟨hstate, -, matchIndex, -, hcast⟩
  · exact .inl rfl
  · obtain ⟨out, -, rfl⟩ := broadcastHeartbeat_eq hcast
    exact .inr ⟨hstate, _, rfl, rfl⟩

theorem step_adds (htype : msg.type ≠ .appendEntries) (h : r.step msg = some r') :
    Adds r.log r' := by
  obtain ⟨r₁, hr₁, h⟩ := Option.bind_eq_some_iff.mp h
  have hsame : r₁.log = r.log := by
    rcases observeTerm_cases hr₁ with rfl | ⟨-, leaderID, rfl⟩ <;> rfl
  rw [← hsame]
  unfold handle at h
  split at h
  · cases h
    obtain ⟨votedFor, electionElapsed, msgs, hframe⟩ := handleRequestVote_frame r₁ msg
    rw [hframe]
    exact .inl rfl
  · rcases handleRequestVoteResp_cases h with rfl | ⟨-, ⟨-, hpre⟩ | ⟨-, -, votes, -, hvotes⟩⟩
    · exact .inl rfl
    · obtain ⟨tally, preVotes, -, -, ⟨-, hcand⟩ | ⟨-, rfl⟩⟩ := handlePreVoteResp_cases hpre
      · exact becomeCandidate_adds hcand rfl
      · exact .inl rfl
    · rcases hvotes with rfl | hlead
      · exact .inl rfl
      · exact becomeLeader_adds hlead rfl
  next hno => exact absurd hno htype
  · rcases handleAppendEntriesResp_cases h with ⟨rfl, -⟩ | ⟨-, -, -, -, -, -, rfl⟩ |
      ⟨-, -, -, matchIndex, nextIndex, -, rfl⟩
    · exact .inl rfl
    · exact .inl rfl
    · rw [maybeAdvanceCommit_frame]
      exact .inl rfl
  · cases h
    exact .inl rfl

theorem step_appendEntries_acks (htype : msg.type = .appendEntries) (h : r.step msg = some r')
    (hempty : r.msgs = []) {m : Message} (hm : m ∈ r'.msgs) (hreject : m.reject = false) :
    r.currentTerm ≤ msg.term ∧ r.passes msg ∧ r'.currentTerm = msg.term ∧
      r.appendLoop (msg.prevLogIndex + 1) msg.entries = some r'.log ∧
      m.index = r'.lastLogIndex ∧ m.term = msg.term := by
  rcases step_appendEntries_cases htype h with ⟨-, rfl⟩ | ⟨hterm, h⟩
  · rw [send, hempty] at hm
    cases List.mem_singleton.mp hm
    cases hreject
  · obtain ⟨hlog, -, -, hmsgs⟩ := following_frame r msg
    have hfollowing := following_term hterm
    rw [hempty] at hmsgs
    by_cases hpasses : (r.following msg).passes msg
    · rw [replicate_takes hpasses] at h
      obtain ⟨log, hloop, rfl⟩ := Option.map_eq_some_iff.mp h
      rw [followCommit_eq] at hm ⊢
      simp only [send, hmsgs, List.nil_append, List.mem_singleton] at hm
      subst hm
      rw [appendLoop_congr hlog] at hloop
      exact ⟨hterm, (passes_congr hlog).mp hpasses, hfollowing, hloop, rfl, hfollowing⟩
    · rw [replicate_refuses hpasses] at h
      cases h
      rw [send, hmsgs] at hm
      cases List.mem_singleton.mp hm
      cases hreject

def Credited (heard : String → Nat → Nat → Prop) (r : Raft) : Prop :=
  r.state = .leader → ∀ p ∈ r.peers, 0 < r.matchIndex.read p →
    heard p r.currentTerm (r.matchIndex.read p)

theorem Credited.of_follower {heard : String → Nat → Nat → Prop} (h : r.state ≠ .leader) :
    Credited heard r :=
  fun hlead => absurd hlead h

theorem Move.credited {heard : String → Nat → Nat → Prop} {inbox : Message → Prop}
    {clock : Nat → Prop} (hinbox : ∀ m, inbox m → m.type = .appendEntriesResp →
      m.reject = false → heard m.sender m.term m.index) (hself : r.id ∉ r.peers)
    (h : Credited heard r) (hmove : Move inbox clock r r') : Credited heard r' := by
  cases hmove with
  | stand => exact .of_follower NodeState.noConfusion
  | win =>
    intro _ p hp hpos
    change 0 < (initialCursors r.peers 0).read p at hpos
    rw [initialCursors_read r.peers 0 hp] at hpos
    cases hpos
  | broadcast _ _ hout =>
    obtain ⟨out, -, rfl⟩ := broadcastHeartbeat_eq hout
    exact h
  | observe => exact .of_follower NodeState.noConfusion
  | heed msg =>
    apply Credited.of_follower
    rw [heeding_state]
    exact NodeState.noConfusion
  | accept msg log _ _ _ hstate =>
    apply Credited.of_follower
    rw [accepting_eq]
    change r.state ≠ .leader
    rw [hstate]
    exact NodeState.noConfusion
  | matched msg matchIndex hin htype hstate hterm hreject hpos hmatch =>
    intro hlead p hp hread
    change 0 < matchIndex.read p at hread
    change heard p r.currentTerm (matchIndex.read p)
    rw [GoMap.read_write hmatch] at hread ⊢
    split at hread
    next heq =>
      rw [if_pos heq, heq, ← hterm]
      exact hinbox msg hin htype hreject
    next hne =>
      rw [if_neg hne]
      exact h hlead p hp hread
  | extend data matchIndex hstate hmatch =>
    intro hlead p hp hread
    change 0 < matchIndex.read p at hread
    change heard p r.currentTerm (matchIndex.read p)
    rw [hmatch p fun heq => hself (heq ▸ hp)] at hread ⊢
    exact h hlead p hp hread
  | _ => exact h

theorem Moves.credited {heard : String → Nat → Nat → Prop} {inbox : Message → Prop}
    {clock : Nat → Prop} (hinbox : ∀ m, inbox m → m.type = .appendEntriesResp →
      m.reject = false → heard m.sender m.term m.index) (hself : r.id ∉ r.peers)
    (h : Credited heard r) (hmoves : Moves inbox clock r r') : Credited heard r' := by
  have hall : Credited heard r' ∧ r'.id ∉ r'.peers := by
    induction hmoves with
    | refl => exact ⟨h, hself⟩
    | tail _ hmove ih =>
      obtain ⟨hid, hpeers, -⟩ := hmove.sends
      refine ⟨hmove.credited hinbox ih.2 ih.1, ?_⟩
      rw [hid, hpeers]
      exact ih.2
  exact hall.1

end Raft

variable {w : World} {c c' : Cluster} {s : Protocol} {i : String} {n n' : Node} {r : Raft}
  {stimulus : Stimulus} {input : Input} {via : Option (Nat × Packet)}
  {leader : String} {term : Nat} {log held : List LogEntry}

theorem Node.act_log {env : Env} (hact : n.act env input = some n') :
    Adds n.raft.log n'.raft ∨ ∃ msg, input.stepped n.id = some msg ∧
      msg.type = .appendEntries ∧ n.raft.passes msg ∧
      n.raft.appendLoop (msg.prevLogIndex + 1) msg.entries = some n'.raft.log := by
  obtain ⟨r, lastApplied, hperforms, hraft, -⟩ := Node.act_performs hact
  have hlog : Adds n.raft.log r ∨ ∃ msg, input.stepped n.id = some msg ∧
      msg.type = .appendEntries ∧ n.raft.passes msg ∧
      n.raft.appendLoop (msg.prevLogIndex + 1) msg.entries = some r.log := by
    cases hperforms with
    | tick htick => exact .inl (tick_adds htick)
    | propose hpropose => exact .inl (propose_adds hpropose)
    | @step _ msg _ hm hstep =>
      by_cases htype : msg.type = .appendEntries
      · rcases step_appendEntries_log htype hstep with hsame | ⟨-, hpasses, hloop⟩
        · exact .inl (.inl hsame)
        · exact .inr ⟨msg, hm, htype, hpasses, hloop⟩
      · exact .inl (step_adds htype hstep)
    | @join nodeID =>
      rw [(addPeer_frame n.raft nodeID).1]
      exact .inl (.inl rfl)
  rw [hraft]
  exact hlog

namespace Cluster

def Led (c : Cluster) (leader : String) (term : Nat) (log : List LogEntry) : Prop :=
  ∃ r, (leader, r) ∈ c.hist ∧ r.state = .leader ∧ r.currentTerm = term ∧ r.log = log

theorem Led.mono (hextends : c.Extends c') (h : c.Led leader term log) :
    c'.Led leader term log := by
  obtain ⟨r, hr, hrest⟩ := h
  exact ⟨r, hextends.mem_hist hr, hrest⟩

/-- Each entry of the log, with all before it, was in the log of the leader who wrote it. -/
def Traced (c : Cluster) (log : List LogEntry) : Prop :=
  ∀ k e, log[k]? = some e → ∃ leader held, c.Led leader e.term held ∧ log.take (k + 1) <+: held

theorem Traced.mono (hextends : c.Extends c') (h : c.Traced log) : c'.Traced log := by
  intro k e he
  obtain ⟨leader, held, hled, hpre⟩ := h k e he
  exact ⟨leader, held, hled.mono hextends, hpre⟩

theorem Traced.nil : c.Traced [] := by
  intro k e he
  cases he

theorem Traced.adds (h : c.Traced log) (hadds : Adds log r) (hseen : (i, r) ∈ c.hist) :
    c.Traced r.log := by
  rcases hadds with hsame | ⟨hlead, e, hlog, hterm⟩
  · rwa [hsame]
  · intro k x hx
    rw [hlog] at hx
    rcases Nat.lt_or_ge k log.length with hold | hnew
    · rw [List.getElem?_append_left hold] at hx
      rw [hlog, List.take_append_of_le_length hold]
      exact h k x hx
    · rw [List.getElem?_append_right hnew] at hx
      obtain ⟨hzero, hx⟩ := List.getElem?_eq_some_iff.mp hx
      have hterm' : x.term = r.currentTerm := by
        rw [← hx, List.getElem_singleton, hterm]
      exact ⟨i, r.log, ⟨r, hseen, hlead, hterm'.symm, rfl⟩, List.take_prefix _ _⟩

/-- An AppendEntries is cut from a log that its sender had as the leader of its term. -/
def ledgers : Invariant where
  node := fun c _ n => c.Traced n.raft.log
  packet := fun c pk => pk.msg.type = .appendEntries →
    ∃ held, c.Led pk.msg.sender pk.msg.term held ∧ Carries pk.msg held
  seen := fun c _ r => c.Traced r.log
  node_mono := fun hextends h => h.mono hextends
  packet_mono := by
    intro c c' pk hextends h htype
    obtain ⟨held, hled, hcarries⟩ := h htype
    exact ⟨held, hled.mono hextends, hcarries⟩
  seen_mono := fun hextends h => h.mono hextends

theorem stepped_carries (h : ledgers.Holds c) (hinput : c.input i stimulus = some (input, via))
    {id : String} {m : Message} (hm : input.stepped id = some m)
    (htype : m.type = .appendEntries) :
    ∃ held, c.Led m.sender m.term held ∧ Carries m held := by
  obtain ⟨k, pk, -, -, hpk, -, ⟨hrequest, -, rfl⟩ | ⟨-, -, rfl⟩⟩ := stepped_packet hinput hm
  · obtain ⟨hsame, hsender, hterm, -⟩ := Message.received_frame hrequest id
    obtain ⟨held, hled, hcarries⟩ :=
      h.packet pk (List.mem_of_getElem? hpk) (hsame.symm.trans htype)
    rw [hsender, hterm]
    refine ⟨held, hled, ?_⟩
    rw [Message.received, if_pos (hsame.symm.trans htype)]
    exact hcarries
  · exact h.packet pk (List.mem_of_getElem? hpk) htype

end Cluster

theorem Refines.led {mayCrash : Protocol → String → Prop} (h : Refines mayCrash w c s)
    (hled : c.Led leader term held) :
    held <+: s.ledger term ∧ ∃ e, held[held.length - 1]? = some e ∧ e.term = term := by
  obtain ⟨r, hr, hlead, rfl, rfl⟩ := hled
  obtain ⟨k, hk, -, -, hlen, hpre, -⟩ := h.hist _ hr hlead
  rw [← ledger_eq hk] at hpre
  obtain ⟨e, he⟩ : ∃ e, r.log[r.log.length - 1]? = some e :=
    ⟨_, List.getElem?_eq_getElem (by simp only at hlen; omega)⟩
  refine ⟨hpre, e, he, ?_⟩
  rcases h.safe.logs.ledger_key h.safe.votes hk (getElem?_of_isPrefix hpre he) with
    ⟨hlt, -⟩ | ⟨-, hterm⟩
  · simp only at hlen
    omega
  · exact hterm

theorem Refines.sound {mayCrash : Protocol → String → Prop} (h : Refines mayCrash w c s)
    (hn : c.node i = some n) : Sound LogEntry.term s n.raft.log := by
  have hsound := h.safe.logs.peerSound i
  rwa [(h.node i n hn).tracks.log] at hsound

theorem Refines.last_term {mayCrash : Protocol → String → Prop} (h : Refines mayCrash w c s)
    (hn : c.node i = some n) (hled : c.Led leader term held) (hhas : held <+: n.raft.log)
    (hterm : n.raft.currentTerm ≤ term) :
    ∃ e, n.raft.log[n.raft.log.length - 1]? = some e ∧ e.term = term := by
  obtain ⟨-, x, hx, hxterm⟩ := h.led hled
  have hmid := getElem?_of_isPrefix hhas hx
  have hpos : 0 < n.raft.log.length :=
    (Nat.zero_le _).trans_lt (List.getElem?_eq_some_iff.mp hmid).1
  obtain ⟨e, he⟩ : ∃ e, n.raft.log[n.raft.log.length - 1]? = some e :=
    ⟨_, List.getElem?_eq_getElem (by omega)⟩
  have hge := h.safe.logs.key_le (h.sound hn) (by have := hhas.length_le; omega) hmid he
  have hbound := h.safe.logs.bound i
  rw [(h.node i n hn).tracks.log, (h.node i n hn).tracks.term] at hbound
  have hle := hbound e (List.mem_of_getElem? he)
  exact ⟨e, he, by omega⟩

theorem Refines.accepted {mayCrash : Protocol → String → Prop} (h : Refines mayCrash w c s)
    (hn : c.node i = some n) {msg : Message} (hled : c.Led leader term held)
    (hcarries : Carries msg held) (hpasses : n.raft.passes msg)
    (hloop : n.raft.appendLoop (msg.prevLogIndex + 1) msg.entries = some log) :
    held <+: log ∧ (log = n.raft.log ∨ log = held) := by
  have hindexed := (h.node i n hn).tracks.indexed
  have hown := h.sound hn
  have hheld : Sound LogEntry.term s held :=
    (h.safe.logs.ledgerSound term).of_isPrefix (h.led hled).1
  obtain ⟨hwithin, -, hentries, hmeets⟩ := hcarries.meets hindexed
    (fun _ he => h.safe.logs.key_pos h.safe.votes hown he) hpasses
  rw [appendLoop_eq hindexed _ _ hwithin, hentries, Option.some.injEq] at hloop
  rw [← hloop]
  rcases splice_after (hown.keyed hheld) (hown.shared hheld hmeets) with ⟨hkept, heq⟩ | ⟨-, heq⟩
  · rw [heq]
    exact ⟨hkept, .inl rfl⟩
  · rw [heq]
    exact ⟨List.prefix_refl _, .inr rfl⟩

namespace Cluster

theorem acted_traced {mayCrash : Protocol → String → Prop} (h : ledgers.Holds c)
    (hs : Refines mayCrash w c s) (hn : c.node i = some n)
    (hinput : c.input i stimulus = some (input, via)) (hact : n.act w.env input = some n')
    (hextends : c.Extends c') (hseen : (i, { n'.raft with msgs := [] }) ∈ c'.hist) :
    c'.Traced n'.raft.log := by
  have hbefore := (h.node i n hn).mono hextends
  rcases Node.act_log hact with hadds | ⟨msg, hm, htype, hpasses, hloop⟩
  · exact hbefore.adds (r := { n'.raft with msgs := [] }) hadds hseen
  · obtain ⟨held, hled, hcarries⟩ := stepped_carries h hinput hm htype
    rcases (hs.accepted hn hled hcarries hpasses hloop).2 with hsame | htaken
    · rwa [hsame]
    · obtain ⟨r, hr, -, -, hlog⟩ := hled
      rw [htaken, ← hlog]
      exact (h.seen _ r hr).mono hextends

theorem refines_joinless (hstatic : Static w) (hmany : 1 < w.members.length)
    {ok : Cluster → Event → Prop} (hok : ∀ c e, ok c e → e.joinless = true)
    (hreach : Reach w ok c) (hbelow : c.TermsBelow) : ∃ s, Refines (fun _ _ => True) w c s := by
  apply refines_of_reach hstatic hok _ hreach hbelow
  exact fun c e s he _ hs => hs.crash_sound hmany hstatic (hok c e he)

theorem ledgers_kept (hstatic : Static w) (hmany : 1 < w.members.length)
    {ok : Cluster → Event → Prop} (hok : ∀ c e, ok c e → e.joinless = true ∧ c.TermsBelow) :
    ledgers.Kept w ok := by
  have hrefines : ∀ c e, ok c e → Reach w ok c → ∃ s, Refines (fun _ _ => True) w c s := by
    intro c e he hreach
    exact refines_joinless hstatic hmany (fun c e he => (hok c e he).1) hreach (hok c e he).2
  refine
    { boot := ?_, handle := ?_, interrupt := ?_, crash := ?_, dial := ?_, answer := ?_ }
  · intro c i n hi hboot
    obtain ⟨peerAddrs, rfl⟩ := World.boot_eq hboot
    exact ⟨.nil, .nil⟩
  · intro c i stimulus n input via n' hreach h hoke hn hinput hact
    obtain ⟨s, hs⟩ := hrefines _ _ hoke hreach
    obtain ⟨hjoinless, hbelow⟩ := hok _ _ hoke
    have hjoin : stimulus.isJoin = false := by simpa [Event.joinless] using hjoinless
    have hseen : (i, { n'.raft with msgs := [] }) ∈ (c.completed i n' via).hist :=
      List.mem_append_right _ (List.mem_singleton.mpr rfl)
    have htraced := acted_traced h hs hn hinput hact (extends_completed c i n' via) hseen
    refine ⟨htraced, htraced, fun pk hpk htype => ?_⟩
    obtain ⟨s', hs', -⟩ := hs.handled hstatic hbelow hjoin hn hinput hact
    have htracks := (hs'.node i (n'.release true).1 (Function.update_self ..)).tracks
    rcases mem_emitted hpk with ⟨m, hm, -, rfl⟩ | ⟨k, req, m, -, -, -, -, rfl⟩
    · obtain ⟨hlead, -, peer, hpeer, hfor⟩ :=
        (Node.act_posts (hs.node i n hn).drained hact m hm).broadcast htype
      obtain ⟨-, hsender, -, hterm, -, -, hcarries⟩ := carries_appendEntriesFor
        (r := { n'.raft with msgs := [] }) htracks.indexed
        ((htracks.leading hlead).cursor peer hpeer) hfor
      have hid : n'.raft.id = i := htracks.id
      refine ⟨n'.raft.log, ⟨{ n'.raft with msgs := [] }, ?_, hlead, hterm.symm, rfl⟩, hcarries⟩
      rw [hsender]
      change (n'.raft.id, _) ∈ _
      rw [hid]
      exact hseen
    · have hno := req.msg.answered_isRequest m
      rw [isRequest_of_type (.inr htype)] at hno
      cases hno
  · intro c i stimulus n input via n' hreach h hoke hn hinput hact
    obtain ⟨s, hs⟩ := hrefines _ _ hoke hreach
    exact acted_traced h hs hn hinput hact (extends_recorded c i n')
      (List.mem_append_right _ (List.mem_singleton.mpr rfl))
  · intro c c₁ i during n n' hreach _ _ hn hboot _ _
    have hlog := (hreach.orderly.node i n hn).log
    obtain ⟨peerAddrs, rfl⟩ := World.boot_eq hboot
    have htraced : (c₁.setNode i
        { id := i, raft := w.fresh i n.store, store := n.store, peerAddrs }).Traced
          n.store.log := by
      rw [hlog]
      exact .nil
    exact ⟨htraced, htraced⟩
  · exact fun c k pk n dest _ h _ hk _ _ _ => h.packet pk (List.mem_of_getElem? hk)
  · intro c i call success n n' _ h _ hn hanswer
    obtain ⟨calls, rfl⟩ := Node.answer_frame hanswer
    exact h.node i n hn

theorem acted_acks {mayCrash : Protocol → String → Prop} (horderly : (orderly w).Holds c)
    (h : ledgers.Holds c) (hs : Refines mayCrash w c s) (hn : c.node i = some n)
    (hinput : c.input i stimulus = some (input, via)) (hact : n.act w.env input = some n')
    {m : Message} (hm : m ∈ n'.raft.msgs) (htype : m.type = .appendEntriesResp)
    (hreject : m.reject = false) :
    m.index = n'.raft.lastLogIndex ∧ m.term = n'.raft.currentTerm ∧
      ∃ leader held, c.Led leader m.term held ∧ n'.raft.log <+: held := by
  have hhoused := horderly.node i n hn
  obtain ⟨msg, r, lastApplied, hin, hmsg, hstep, hraft⟩ :=
    acted_response horderly hn hinput hact hm htype
  rw [hraft] at hm ⊢
  obtain ⟨hterm, hpasses, hafter, hloop, hindex, hmterm⟩ :=
    step_appendEntries_acks hmsg hstep hhoused.drained hm hreject
  obtain ⟨held, hled, hcarries⟩ := stepped_carries h hinput hin hmsg
  refine ⟨hindex, hmterm.trans hafter.symm, ?_⟩
  rw [hmterm]
  change ∃ leader held, c.Led leader msg.term held ∧ r.log <+: held
  obtain ⟨hhas, hsame | htaken⟩ := hs.accepted hn hled hcarries hpasses hloop
  · rw [hsame] at hhas ⊢
    obtain ⟨x, hx, hxterm⟩ := hs.last_term hn hled hhas hterm
    obtain ⟨leader, held', hled', hpre⟩ := h.node i n hn _ x hx
    rw [List.take_of_length_le (by omega)] at hpre
    rw [hxterm] at hled'
    exact ⟨leader, held', hled', hpre⟩
  · exact ⟨msg.sender, held, hled, by rw [htaken]⟩

theorem emitted_response {out : List Message} {pk : Packet} (h : pk ∈ emitted i out via)
    (htype : pk.msg.type = .appendEntriesResp) :
    ∃ k req m, via = some (k, req) ∧ m ∈ out ∧ m.type = .appendEntriesResp ∧
      m.term = pk.msg.term ∧ m.reject = pk.msg.reject ∧ m.index = pk.msg.index := by
  rcases mem_emitted h with ⟨m, -, hrequest, rfl⟩ | ⟨k, req, m, hvia, -, hm, hreply, rfl⟩
  · rw [not_isRequest_of_type (.inr htype)] at hrequest
    cases hrequest
  · obtain ⟨-, htypes⟩ := of_decide_eq_true hreply
    refine ⟨k, req, m, hvia, hm, ?_⟩
    unfold Message.answered at htype ⊢
    split at htype
    next heq =>
      rw [if_pos heq]
      exact ⟨(htypes.resolve_right fun hno => hno.1 heq).2, rfl, rfl, rfl⟩
    next => cases htype

/-- The clusters that a run may go on to. -/
abbrev Leads (w : World) (ok : Cluster → Event → Prop) : Cluster → Cluster → Prop :=
  Relation.ReflTransGen fun c c' => ∃ e, ok c e ∧ c.step w e = some c'

theorem Leads.extends {ok : Cluster → Event → Prop} (h : Leads w ok c c') : c.Extends c' := by
  induction h with
  | refl => exact .refl c
  | tail _ hstep ih =>
    obtain ⟨e, -, hstep⟩ := hstep
    obtain ⟨hhist, hnet⟩ := step_grows hstep
    exact ⟨ih.net.trans hnet, ih.hist.trans hhist⟩

/-- Packet `k` leaves in the step from `c` to `c'`, and leaves its sender as `n`. -/
structure Emits (w : World) (ok : Cluster → Event → Prop) (c c' : Cluster) (k : Nat) (pk : Packet)
    (n : Node) : Prop where
  step : ∃ stimulus, ok c (.handle pk.origin stimulus) ∧
    c.step w (.handle pk.origin stimulus) = some c'
  fresh : c.net.length ≤ k
  packet : c'.net[k]? = some pk
  node : c'.node pk.origin = some n

theorem Reach.emits {ok : Cluster → Event → Prop} (hreach : Reach w ok c) {k : Nat}
    {pk : Packet} (hk : c.net[k]? = some pk) (hreply : pk.msg.isRequest = false) :
    ∃ c₁ c₂ n, Reach w ok c₁ ∧ Emits w ok c₁ c₂ k pk n ∧ Leads w ok c₂ c := by
  induction hreach with
  | start hstart =>
    rw [(start_past hstart).1] at hk
    cases hk
  | @step c c' e hreach hok hstep ih =>
    by_cases hold : k < c.net.length
    · have hbefore : c.net[k]? = some pk := by
        obtain ⟨new, hnew⟩ := (step_grows hstep).2
        rwa [← hnew, List.getElem?_append_left hold] at hk
      obtain ⟨c₁, c₂, n, hreach₁, hemits, hleads⟩ := ih hbefore
      exact ⟨c₁, c₂, n, hreach₁, hemits, hleads.tail ⟨e, hok, hstep⟩⟩
    · have hfresh : c.net.length ≤ k := Nat.le_of_not_lt hold
      cases e with
      | handle i stimulus =>
        obtain ⟨n, input, via, hn, hinput, ⟨-, rfl⟩ | ⟨n₁, hact, rfl⟩⟩ := step_handle hstep
        · exact absurd (List.getElem?_eq_some_iff.mp hk).1 hold
        · have hmem : pk ∈ emitted i n₁.raft.msgs via := by
            change (c.net ++ emitted i n₁.raft.msgs via)[k]? = some pk at hk
            rw [List.getElem?_append_right hfresh] at hk
            exact List.mem_of_getElem? hk
          have horigin := emitted_origin hmem
          refine ⟨c, _, (n₁.release true).1, hreach, ⟨⟨stimulus, ?_⟩, hfresh, hk, ?_⟩, .refl⟩
          · rw [horigin]
            exact ⟨hok, hstep⟩
          · rw [horigin]
            exact Function.update_self ..
      | crash i during =>
        obtain ⟨n, n', -, -, ⟨-, rfl⟩ | ⟨stimulus, input, via, n₁, -, -, -, rfl⟩⟩ :=
          step_crash hstep
        · exact absurd (List.getElem?_eq_some_iff.mp hk).1 hold
        · exact absurd (List.getElem?_eq_some_iff.mp hk).1 hold
      | dial j =>
        -- only requests are dialled
        obtain ⟨pk₀, n, dest, hpk₀, -, hnone, -, rfl⟩ := step_dial hstep
        rw [List.getElem?_append_right hfresh] at hk
        cases List.mem_singleton.mp (List.mem_of_getElem? hk)
        obtain ⟨k', req, -, -, -, -, hdest, -⟩ :=
          ((Reach.orderly hreach).packet pk₀ (List.mem_of_getElem? hpk₀)).reply hreply
        rw [hnone] at hdest
        cases hdest
      | answer i call success =>
        obtain ⟨n, n', -, -, rfl⟩ := step_answer hstep
        exact absurd (List.getElem?_eq_some_iff.mp hk).1 hold

/-- In a run to `c` packet `k` was `pk`, and left its sender as `n`. -/
def Sent (w : World) (ok : Cluster → Event → Prop) (c : Cluster) (k : Nat) (pk : Packet)
    (n : Node) : Prop :=
  ∃ c₁ c₂, Reach w ok c₁ ∧ Emits w ok c₁ c₂ k pk n ∧ Leads w ok c₂ c

/-- `log` is as far as a follower has come in the log of the leader of `term`. -/
def Follows (c : Cluster) (term : Nat) (log : List LogEntry) : Prop :=
  (∃ leader held, c.Led leader term held ∧ log <+: held) ∧
    ∀ leader held, c.Led leader term held → log <+: held ∨ held <+: log

theorem Reach.ack_sent (hstatic : Static w) (hmany : 1 < w.members.length)
    {ok : Cluster → Event → Prop} (hok : ∀ c e, ok c e → e.joinless = true)
    (hreach : Reach w ok c) (hbelow : c.TermsBelow) {k : Nat} {pk : Packet}
    (hk : c.net[k]? = some pk) (htype : pk.msg.type = .appendEntriesResp)
    (hreject : pk.msg.reject = false) :
    ∃ n, Sent w ok c k pk n ∧
      n.raft.log.length = pk.msg.index ∧ n.raft.currentTerm = pk.msg.term ∧
      c.Follows pk.msg.term n.raft.log := by
  obtain ⟨c₁, c₂, n, hreach₁, hemits, hleads⟩ :=
    hreach.emits hk (not_isRequest_of_type (.inr htype))
  refine ⟨n, ⟨c₁, c₂, hreach₁, hemits, hleads⟩, ?_⟩
  obtain ⟨⟨stimulus, hoke, hstep⟩, hfresh, hpacket, hnode⟩ := hemits
  have hlater := hleads.extends
  obtain ⟨hhist, hnet⟩ := step_grows hstep
  have hbelow₁ : c₁.TermsBelow :=
    fun seen hseen => hbelow seen (hlater.mem_hist (hhist.subset hseen))
  obtain ⟨s, hs⟩ := refines_joinless hstatic hmany hok hreach hbelow
  obtain ⟨s₁, hs₁⟩ := refines_joinless hstatic hmany hok hreach₁ hbelow₁
  have hledgers : ledgers.Holds c₁ :=
    (ledgers_kept hstatic hmany fun c e h => ⟨hok c e h.1, h.2⟩).reach
      (hreach₁.before (fun _ _ _ hstep h => h.before hstep) hbelow₁)
  obtain ⟨n₀, input, via, hn₀, hinput, ⟨-, rfl⟩ | ⟨n₁, hact, rfl⟩⟩ := step_handle hstep
  · exact absurd (List.getElem?_eq_some_iff.mp hpacket).1 (Nat.not_lt.mpr hfresh)
  have hmem : pk ∈ emitted pk.origin n₁.raft.msgs via := by
    change (c₁.net ++ emitted pk.origin n₁.raft.msgs via)[k]? = some pk at hpacket
    rw [List.getElem?_append_right hfresh] at hpacket
    exact List.mem_of_getElem? hpacket
  obtain ⟨j, req, m, rfl, hm, hmtype, hmterm, hmreject, hmindex⟩ := emitted_response hmem htype
  have hjoin : stimulus.isJoin = false := by simpa [Event.joinless] using hok _ _ hoke
  obtain ⟨hindex, hterm, leader, held, hled, hpre⟩ := acted_acks hreach₁.orderly hledgers hs₁ hn₀
    hinput hact hm hmtype (hmreject.trans hreject)
  obtain ⟨s₂, hs₂, -⟩ := hs₁.handled hstatic hbelow₁ hjoin hn₀ hinput hact
  have hindexed : Indexed n₁.raft.log :=
    (hs₂.node pk.origin (n₁.release true).1 (Function.update_self ..)).tracks.indexed
  have hraft : n.raft = { n₁.raft with msgs := [] } := by
    have hself : (c₁.completed pk.origin n₁ (some (j, req))).node pk.origin =
        some (n₁.release true).1 := Function.update_self ..
    cases hself.symm.trans hnode
    rfl
  have hlast := lastLogIndex_eq hindexed
  have hled' := (hled.mono (extends_completed c₁ pk.origin n₁ (some (j, req)))).mono hlater
  rw [hmterm] at hled'
  rw [hraft]
  refine ⟨by simp only; omega, hterm.symm.trans hmterm, ⟨leader, held, hled', hpre⟩, ?_⟩
  intro leader' held' hother
  exact List.prefix_or_prefix_of_prefix (hpre.trans (hs.led hled').1) (hs.led hother).1

def Heard (c : Cluster) (p : String) (term index : Nat) : Prop :=
  ∃ (k : Nat) (pk : Packet), c.net[k]? = some pk ∧ pk.msg.type = .appendEntriesResp ∧
    pk.msg.reject = false ∧ pk.msg.sender = p ∧ pk.msg.term = term ∧ pk.msg.index = index

def credits : Invariant where
  node := fun c _ n => n.raft.Credited c.Heard
  packet := fun _ _ => True
  seen := fun _ _ _ => True
  node_mono := by
    intro c c' i n hextends h hlead p hp hpos
    obtain ⟨k, pk, hk, hrest⟩ := h hlead p hp hpos
    exact ⟨k, pk, hextends.packet hk, hrest⟩
  packet_mono := fun _ h => h
  seen_mono := fun _ h => h

theorem credits_kept (hstatic : Static w) (hmany : 1 < w.members.length)
    {ok : Cluster → Event → Prop} (hok : ∀ c e, ok c e → e.joinless = true ∧ c.TermsBelow) :
    credits.Kept w ok where
  boot := by
    intro c i n _ hboot
    obtain ⟨peerAddrs, rfl⟩ := World.boot_eq hboot
    exact ⟨.of_follower NodeState.noConfusion, trivial⟩
  handle := by
    intro c i stimulus n input via n' hreach h hoke hn hinput hact
    obtain ⟨hjoinless, hbelow⟩ := hok _ _ hoke
    have hjoin : stimulus.isJoin = false := by simpa [Event.joinless] using hjoinless
    obtain ⟨s, hs⟩ := refines_joinless hstatic hmany (fun c e he => (hok c e he).1) hreach hbelow
    have hself := (hs.node i n hn).tracks.self_not_mem
    obtain ⟨⟨r₁, lastApplied, hmoves, hraft⟩, -⟩ :=
      acted_moves hreach.orderly hinput (no_join hjoin hinput) hact
    have hinbox : ∀ m, input.stepped n.id = some m → m.type = .appendEntriesResp →
        m.reject = false → c.Heard m.sender m.term m.index := by
      intro m hm htype hreject
      obtain ⟨k, pk, -, hpk, -, -, -, rfl⟩ := stepped_response hinput hm (.inr htype)
      exact ⟨k, pk, hpk, htype, hreject, rfl, rfl, rfl⟩
    have hafter : r₁.Credited c.Heard := hmoves.credited hinbox hself (h.node i n hn)
    refine ⟨?_, trivial, fun _ _ => trivial⟩
    apply credits.node_mono (extends_completed c i n' via)
    change n'.raft.Credited c.Heard
    rw [hraft]
    exact hafter
  interrupt := fun _ _ _ _ _ _ _ _ _ _ _ _ _ => trivial
  crash := by
    intro c c₁ i during n n' _ _ _ _ hboot _ _
    obtain ⟨peerAddrs, rfl⟩ := World.boot_eq hboot
    exact ⟨.of_follower NodeState.noConfusion, trivial⟩
  dial := fun _ _ _ _ _ _ _ _ _ _ _ _ => trivial
  answer := by
    intro c i call success n n' _ h _ hn hanswer
    obtain ⟨calls, rfl⟩ := Node.answer_frame hanswer
    exact h.node i n hn

end Cluster

/-- A success says how long the log of its sender was, and that log was a beginning of the log
of the leader of the term. What a leader has counted for a peer is such a success, and the
leader has the peer's log of then. -/
theorem acks_are_truthful (hstatic : Static w)
    (hreach : Cluster.Reach w (fun _ e => e.joinless = true) c) (hbelow : c.TermsBelow) :
    (∀ (k : Nat) (pk : Packet), c.net[k]? = some pk → pk.msg.type = .appendEntriesResp →
      pk.msg.reject = false →
      ∃ n, Cluster.Sent w (fun _ e => e.joinless = true) c k pk n ∧
        n.raft.log.length = pk.msg.index ∧ n.raft.currentTerm = pk.msg.term ∧
        c.Follows pk.msg.term n.raft.log) ∧
    ∀ i n p, c.node i = some n → n.raft.state = .leader → p ∈ n.raft.peers →
      0 < n.raft.matchIndex.read p →
      n.raft.matchIndex.read p ≤ n.raft.lastLogIndex ∧
      ∃ k pk m, Cluster.Sent w (fun _ e => e.joinless = true) c k pk m ∧ pk.origin = p ∧
        pk.msg.type = .appendEntriesResp ∧ pk.msg.reject = false ∧
        pk.msg.term = n.raft.currentTerm ∧ pk.msg.index = n.raft.matchIndex.read p ∧
        m.raft.log = n.raft.log.take (n.raft.matchIndex.read p) := by
  by_cases hmany : 1 < w.members.length
  · refine ⟨fun k pk hk htype hreject =>
      hreach.ack_sent hstatic hmany (fun _ _ h => h) hbelow hk htype hreject, ?_⟩
    intro i n p hn hlead hp hpos
    obtain ⟨s, hs⟩ :=
      Cluster.refines_joinless hstatic hmany (fun _ _ h => h) hreach hbelow
    have hcredits : Cluster.credits.Holds c :=
      (Cluster.credits_kept hstatic hmany fun _ _ h => h).reach
        (hreach.before (fun _ _ _ hstep h => h.before hstep) hbelow)
    obtain ⟨k, pk, hk, htype, hreject, hsender, hterm, hindex⟩ :=
      hcredits.node i n hn hlead p hp hpos
    obtain ⟨m, hsent, hlength, -, ⟨leader, held, hled, hpre⟩, -⟩ :=
      hreach.ack_sent hstatic hmany (fun _ _ h => h) hbelow hk htype hreject
    have htracks := (hs.node i n hn).tracks
    have hledger : n.raft.log = s.ledger n.raft.currentTerm := by
      have hlog := hs.safe.logs.leaderLog i (by simp [htracks.role, hlead])
      rwa [htracks.log, htracks.term] at hlog
    have hown : m.raft.log <+: n.raft.log := by
      rw [hledger, ← hterm]
      exact hpre.trans (hs.led hled).1
    rw [hindex] at hlength
    refine ⟨?_, k, pk, m, hsent, ?_, htype, hreject, hterm, hindex, ?_⟩
    · rw [lastLogIndex_eq htracks.indexed, ← hlength]
      exact hown.length_le
    · rw [(hs.net pk (List.mem_of_getElem? hk)).origin, hsender]
    · rw [← hlength]
      exact List.prefix_iff_eq_take.mp hown
  · have hlonely := (Cluster.lonely_kept hstatic (Nat.le_of_not_lt hmany)
      (fun _ _ h => h)).reach hreach
    refine ⟨fun k pk hk => (hlonely.packet pk (List.mem_of_getElem? hk)).elim, ?_⟩
    intro i n p hn _ hp
    rw [(hlonely.node i n hn).1] at hp
    cases hp

/-- B acknowledges the first entry of A, C restarts, and A counts what B has said. -/
theorem acks_are_truthful_first_entry :
    ∃ c, Cluster.Reach (mesh ["a", "b", "c"] 1 1) (fun _ e => e.joinless = true) c ∧
      (∃ pk ∈ c.net[7]?, ∃ n,
        Cluster.Sent (mesh ["a", "b", "c"] 1 1) (fun _ e => e.joinless = true) c 7 pk n ∧
          n.raft.log.length = 1 ∧ c.Follows 1 n.raft.log) ∧
      ∃ n ∈ c.node "a", ∃ k pk m,
        Cluster.Sent (mesh ["a", "b", "c"] 1 1) (fun _ e => e.joinless = true) c k pk m ∧
          pk.origin = "b" ∧ pk.msg.index = 1 ∧ m.raft.log = n.raft.log.take 1 := by
  obtain ⟨c, hreach, hbelow, ⟨pk, hpk, htype, hreject, hindex, hterm⟩, n, hn, hlead, hpeer,
    hmatch⟩ :
      ∃ c, Cluster.Reach (mesh ["a", "b", "c"] 1 1) (fun _ e => e.joinless = true) c ∧
        c.TermsBelow ∧ (∃ pk ∈ c.net[7]?, pk.msg.type = .appendEntriesResp ∧
          pk.msg.reject = false ∧ pk.msg.index = 1 ∧ pk.msg.term = 1) ∧
        ∃ n ∈ c.node "a", n.raft.state = .leader ∧ "b" ∈ n.raft.peers ∧
          n.raft.matchIndex.read "b" = 1 :=
    Reachable.of_any
      [.handle "a" .tick, .dial 0, .handle "b" (.packet 2), .handle "a" (.packet 3), .dial 4,
        .handle "b" (.packet 6), .crash "c" none, .handle "a" (.packet 7)] rfl
  obtain ⟨hsent, hcounted⟩ :=
    acks_are_truthful (mesh_static (by decide) (by decide) 1 1) hreach hbelow
  obtain ⟨m, hm, hlength, -, hfollows⟩ := hsent 7 pk hpk htype hreject
  obtain ⟨-, k, pk', m', hm', horigin, -, -, -, hindex', hlog⟩ :=
    hcounted "a" n "b" hn hlead hpeer (by rw [hmatch]; decide)
  rw [hmatch] at hindex' hlog
  rw [hindex] at hlength
  rw [hterm] at hfollows
  exact ⟨c, hreach, ⟨pk, hpk, m, hm, hlength, hfollows⟩, n, hn, k, pk', m', hm', horigin, hindex',
    hlog⟩

end Phalanx
