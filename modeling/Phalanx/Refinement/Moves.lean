import Phalanx.Refinement.Tracks

/-! Every move of a Raft instance is a run of the protocol that leaves the other
nodes alone. -/
namespace Phalanx

open Consensus Go Raft

variable {members : Finset String} {mayCrash : Protocol → String → Prop}
variable {s s' : Protocol} {i : String} {r r' : Raft} {inbox : Message → Prop} {clock : Nat → Prop}

abbrev quorums (members : Finset String) : Nat → Finset String → Prop :=
  fun _ => Majority members

theorem quorums_meet (members : Finset String) (t t' : Nat) :
    Meet (quorums members t) (quorums members t') :=
  majority_meet members

abbrev ProtocolStep (members : Finset String) (mayCrash : Protocol → String → Prop) :
    Protocol → Protocol → Prop :=
  Step LogEntry.term (quorums members) (quorums members) mayCrash

abbrev ProtocolSteps (members : Finset String) (mayCrash : Protocol → String → Prop) :
    Protocol → Protocol → Prop :=
  Steps LogEntry.term (quorums members) (quorums members) mayCrash

abbrev ProtocolSafe (members : Finset String) (mayCrash : Protocol → String → Prop) :
    Protocol → Prop :=
  Safe LogEntry.term (quorums members) (quorums members) mayCrash

/-- The protocol gets from `s` to where it is tracked by `r'`, and only node `i` moves. -/
def Simulated (members : Finset String) (mayCrash : Protocol → String → Prop) (s : Protocol)
    (i : String) (r' : Raft) : Prop :=
  ∃ s', ProtocolSteps members mayCrash s s' ∧ (∀ j, j ≠ i → s'.peer j = s.peer j) ∧
    Tracks members s' i r'

theorem Simulated.refl (h : Tracks members s i r') : Simulated members mayCrash s i r' :=
  ⟨s, .refl, fun _ _ => rfl, h⟩

theorem Simulated.step (hsafe : ProtocolSafe members mayCrash s)
    (hstep : ProtocolStep members mayCrash s s') (hother : ∀ j, j ≠ i → s'.peer j = s.peer j)
    (h : Grows s s' → Tracks members s' i r') : Simulated members mayCrash s i r' :=
  ⟨s', .single hstep, hother,
    h (hstep.grows hsafe.votes fun t => quorums_meet members t t)⟩

section Cases

variable (hnamed : None ∉ members) (hi : i ∈ members)
variable (hsafe : ProtocolSafe members mayCrash s) (htracks : Tracks members s i r)

include hsafe htracks

include hnamed hi in
private theorem simulate_stand (hbound : r.currentTerm < uint64Size - 1) :
    Simulated members mayCrash s i
      { r with electionElapsed := 0, leaderActive := false }.candidacy := by
  have hnone : i ≠ None := fun h => hnamed (h ▸ hi)
  refine .step hsafe (.timeout s i) (fun j hj => by simp [hj]) fun hgrows => ?_
  refine htracks.update hgrows ?_ rfl rfl htracks.indexed ?_ ?_ (fun m hm => .inl hm)
  · simp [htracks.peer, view, candidacy, redraw, succ64_of_lt hbound, htracks.id, hnone]
  · intro _
    have hkeys : ∀ q, q ∈ (GoMap.mk (some (Finmap.insert r.id true ∅))).trueKeys → q = i := by
      intro q hq
      rw [GoMap.mem_trueKeys, GoMap.lookup_write (GoMap.write_make r.id true)] at hq
      by_contra hne
      rw [if_neg (by rw [htracks.id]; exact hne), GoMap.lookup_make] at hq
      cases hq
    refine ⟨?_, fun q hq => ⟨?_, .inl (hkeys q hq)⟩⟩
    · change i ∈ (GoMap.mk (some (Finmap.insert r.id true ∅))).trueKeys
      rw [GoMap.mem_trueKeys, GoMap.lookup_write (GoMap.write_make r.id true),
        if_pos htracks.id.symm]
    · rw [hkeys q hq]
      exact hi
  · intro hstate
    cases hstate

private theorem simulate_canvass (hstate : r.state = .candidate) :
    Simulated members mayCrash s i r.broadcastRequestVote := by
  refine .refl (htracks.still rfl rfl rfl rfl rfl rfl ?_)
  intro m hm
  rcases List.mem_append.mp hm with hold | hnew
  · exact .inl hold
  · right
    obtain ⟨p, hp, rfl⟩ := List.mem_map.mp hnew
    refine ⟨⟨rfl, r.log, ?_, lastLogIndex_eq htracks.indexed, lastLogTerm_eq r⟩, htracks.id,
      (htracks.peers p).mp hp⟩
    have hreq := hsafe.votes.candidateRequest i (by simp [htracks.role, hstate])
    rw [htracks.term, htracks.log, ← htracks.id] at hreq
    exact hreq

include hi in
private theorem simulate_win (hstate : r.state = .candidate) (hquorum : r.quorum = true) :
    Simulated members mayCrash s i r.crowned := by
  obtain ⟨hself, hvotes⟩ := htracks.standing hstate
  have hQ : Majority members r.votes.trueKeys :=
    htracks.majority hi (fun q hq => (hvotes q hq).1) (of_decide_eq_true hquorum)
  have hrole : (s.peer i).role = .candidate := by
    simp [htracks.role, hstate]
  have hlast := lastLogIndex_eq htracks.indexed
  refine .step hsafe (.win s i r.votes.trueKeys
    { index := r.lastLogIndex + 1, term := r.currentTerm } hrole hQ hself ?_ htracks.term.symm)
    ?_ fun hgrows => ?_
  · rw [htracks.term]
    exact fun q hq => (hvotes q hq).2
  · intro j hj
    simp [State.append, hj]
  · refine htracks.update hgrows ?_ rfl rfl ?_ (fun h => by cases h) ?_ (fun m hm => .inl hm)
    · simp only [State.append, Function.update_self, htracks.peer]
      rfl
    · exact htracks.indexed.concat (by rw [hlast])
    · intro _
      refine { cursor := ?_, matched := ?_, own := ?_ }
      · intro p hp
        change 0 < (initialCursors r.peers (r.lastLogIndex + 1)).read p
        rw [initialCursors_read r.peers _ hp]
        exact Nat.succ_pos _
      · intro p hp hpos
        change 0 < (initialCursors r.peers 0).read p at hpos
        rw [initialCursors_read r.peers _ hp] at hpos
        cases hpos
      · simp [State.append, crowned, htracks.term, htracks.log]

private theorem simulate_broadcast (hstate : r.state = .leader)
    (h : r.broadcastHeartbeat = some r') : Simulated members mayCrash s i r' := by
  obtain ⟨out, hout, rfl⟩ := broadcastHeartbeat_eq h
  have hlead := htracks.leading hstate
  have hrole : (s.peer i).role = .leader := by
    simp [htracks.role, hstate]
  refine .step hsafe (.send s i hrole) (fun j _ => rfl) fun hgrows => ?_
  refine htracks.update hgrows htracks.peer rfl rfl htracks.indexed ?_ ?_ ?_
  · exact fun hs => (htracks.standing hs).mono (r := r) hgrows rfl rfl
  · exact fun _ => hlead.mono (r := r) hgrows rfl rfl rfl rfl rfl
  · intro m hm
    rcases List.mem_append.mp hm with hold | hnew
    · exact .inl hold
    · right
      obtain ⟨p, hp, hm⟩ : ∃ p ∈ r.peers, r.appendEntriesFor p = some m :=
        exists_of_mem_mapM hout hnew
      obtain ⟨htype, hsender, hrecipient, hterm, hcommit, hreal, hcarries⟩ :=
        carries_appendEntriesFor htracks.indexed (hlead.cursor p hp) hm
      refine ⟨⟨hreal, ?_⟩, hsender.trans htracks.id, ?_⟩
      · rw [htype]
        refine ⟨_, Set.mem_insert _ _, ?_, ?_, ?_, ?_, ?_⟩
        · rw [hsender, htracks.id]
        · rw [hterm, htracks.term]
        · rw [hcommit, htracks.commit]
        · simp only [htracks.log]
          exact htracks.indexed
        · simp only [htracks.log]
          exact hcarries
      · rw [hrecipient]
        exact (htracks.peers p).mp hp

private theorem simulate_observe {msg : Message} (hterm : r.currentTerm < msg.term)
    (leaderID : String) :
    Simulated members mayCrash s i (r.demoted msg.term leaderID) := by
  refine .step hsafe (.observe s i msg.term (leaderID ≠ None) ?_) (fun j hj => by simp [hj])
    fun hgrows => ?_
  · rw [htracks.term]
    exact hterm
  · refine htracks.update hgrows ?_ rfl rfl htracks.indexed (fun h => by cases h)
      (fun h => by cases h) (fun m hm => .inl hm)
    simp only [State.setPeer_peer, if_true, htracks.peer]
    rfl

omit hsafe in
private theorem simulate_refuse {msg reply : Message} (hin : Deliverable members s i msg)
    (hsender : reply.sender = r.id) (hrecipient : reply.recipient = msg.sender)
    (htype : reply.type = .requestVoteResp ∨ reply.type = .appendEntriesResp)
    (hreal : reply.isPreVote = false) (hreject : reply.reject = true) :
    Simulated members mayCrash s i (r.send reply) := by
  refine .refl (htracks.still rfl rfl rfl rfl rfl rfl ?_)
  intro m hm
  rcases List.mem_append.mp hm with hold | hnew
  · exact .inl hold
  · right
    rw [List.mem_singleton] at hnew
    subst hnew
    refine ⟨⟨hreal, ?_⟩, hsender.trans htracks.id, ?_⟩
    · rcases htype with htype | htype <;> simp [htype, hreject]
    · rw [hrecipient]
      exact hin.2.2

include hnamed in
private theorem simulate_grant {msg : Message} (hin : Deliverable members s i msg)
    (htype : msg.type = .requestVote) (hterm : msg.term = r.currentTerm)
    (hidle : r.leaderActive = false) (hvote : r.votedFor = None ∨ r.votedFor = msg.sender)
    (hlog : r.isLogUpToDate msg.lastLogIndex msg.lastLogTerm = true) :
    Simulated members mayCrash s i
      ({ r with votedFor := msg.sender, electionElapsed := 0 }.send
        { type := .requestVoteResp, sender := r.id, recipient := msg.sender,
          term := r.currentTerm }) := by
  obtain ⟨⟨-, hgenuine⟩, -, hmember, hne⟩ := hin
  rw [htype] at hgenuine
  obtain ⟨l, hl, hindex, hlterm⟩ := hgenuine
  have hnone : msg.sender ≠ None := fun h => hnamed (h ▸ hmember)
  rw [hindex, hlterm, isLogUpToDate_iff htracks.indexed] at hlog
  refine .step hsafe (.grant s i msg.sender l ?_ (Ne.symm hne) ?_ ?_ ?_)
    (fun j hj => by simp [hj]) fun hgrows => ?_
  · rw [htracks.term, ← hterm]
    exact hl
  · rw [htracks.vote]
    rcases hvote with hvote | hvote
    · exact .inl (if_pos hvote)
    · rw [hvote]
      exact .inr (if_neg hnone)
  · rw [htracks.active]
    exact hidle
  · rw [htracks.log]
    exact hlog
  · refine htracks.update hgrows ?_ rfl rfl htracks.indexed ?_ ?_ ?_
    · simp only [State.setPeer_peer, if_true, htracks.peer]
      simp [view, send, hnone]
    · exact fun hs => (htracks.standing hs).mono (r := r) hgrows rfl rfl
    · exact fun hs => (htracks.leading hs).mono (r := r) hgrows rfl rfl rfl rfl rfl
    · intro m hm
      rcases List.mem_append.mp hm with hold | hnew
      · exact .inl hold
      · right
        rw [List.mem_singleton] at hnew
        subst hnew
        refine ⟨⟨rfl, fun _ => ⟨r.log, ?_⟩⟩, htracks.id, hmember, hne⟩
        simp [htracks.id, htracks.term, htracks.log]

omit hsafe in
private theorem simulate_tally {msg : Message} {votes : GoMap String Bool}
    (hin : Deliverable members s i msg) (htype : msg.type = .requestVoteResp)
    (hstate : r.state = .candidate) (hterm : msg.term = r.currentTerm)
    (hvotes : r.votes.write msg.sender (!msg.reject) = some votes) :
    Simulated members mayCrash s i { r with votes } := by
  obtain ⟨⟨-, hgenuine⟩, hrecipient, hmember, hne⟩ := hin
  rw [htype] at hgenuine
  obtain ⟨hself, hgranted⟩ := htracks.standing hstate
  refine .refl (htracks.update (.refl s) htracks.peer rfl rfl htracks.indexed ?_ ?_
    (fun m hm => .inl hm))
  · intro _
    refine ⟨?_, ?_⟩
    · change i ∈ votes.trueKeys
      rw [GoMap.mem_trueKeys, GoMap.lookup_write hvotes, if_neg (Ne.symm hne)]
      exact GoMap.mem_trueKeys.mp hself
    · intro q hq
      change q ∈ votes.trueKeys at hq
      rw [GoMap.mem_trueKeys, GoMap.lookup_write hvotes] at hq
      by_cases heq : q = msg.sender
      · subst heq
        rw [if_pos rfl, Option.some.injEq, Bool.not_eq_true'] at hq
        obtain ⟨l, hl⟩ := hgenuine hq
        rw [hrecipient, hterm] at hl
        exact ⟨hmember, .inr ⟨l, hl⟩⟩
      · rw [if_neg heq] at hq
        exact hgranted q (GoMap.mem_trueKeys.mpr hq)
  · intro hleader
    rw [hstate] at hleader
    cases hleader

include hnamed in
private theorem simulate_heed {msg : Message} (hin : Deliverable members s i msg)
    (htype : msg.type = .appendEntries) (hterm : msg.term = r.currentTerm) :
    Simulated members mayCrash s i (r.heeding msg) := by
  obtain ⟨⟨-, hgenuine⟩, -, hmember, hne⟩ := hin
  rw [htype] at hgenuine
  obtain ⟨a, ha, hleader, haterm, -⟩ := hgenuine
  have hnone : msg.sender ≠ None := fun h => hnamed (h ▸ hmember)
  have hown : a.leader = i → ∀ s j, ¬ mayCrash s j := fun h => absurd (hleader.symm.trans h) hne
  refine .step hsafe (.heed s i a ha ?_ hown) (fun j hj => by simp [hj]) fun hgrows => ?_
  · rw [haterm, hterm, htracks.term]
  · have hfollower := heeding_state r msg
    have hlog : (r.heeding msg).log = r.log := by
      unfold heeding
      split <;> rfl
    refine htracks.update hgrows ?_ ?_ ?_ ?_ ?_ ?_ ?_
    · simp only [State.setPeer_peer, if_true, htracks.peer]
      unfold heeding
      by_cases hstate : r.state = .follower
      · simp [hstate, view]
      · have hrole : r.state.role ≠ .follower := fun h => hstate (NodeState.role_injective h)
        simp [hstate, view, demoted, redraw, hrole, hterm, hnone]
    · unfold heeding
      split <;> rfl
    · unfold heeding
      split <;> rfl
    · rw [hlog]
      exact htracks.indexed
    · simp [hfollower]
    · simp [hfollower]
    · intro m hm
      left
      unfold heeding at hm
      split at hm <;> exact hm

omit hsafe htracks in
private theorem followCommit_commitIndex {msg : Message} (log : List LogEntry)
    {sent : List LogEntry} (hprev : msg.prevLogIndex ≤ sent.length)
    (hentries : msg.entries = sent.drop msg.prevLogIndex) :
    (followCommit { r with log } msg).commitIndex =
      if r.commitIndex < msg.leaderCommit then min msg.leaderCommit sent.length
      else r.commitIndex := by
  have hlast : msg.prevLogIndex + msg.entries.length = sent.length := by
    rw [hentries, List.length_drop]
    omega
  rw [commitIndex_followCommit, hlast]

include hnamed in
private theorem simulate_accept {msg : Message} {log : List LogEntry}
    (hin : Deliverable members s i msg) (htype : msg.type = .appendEntries)
    (hterm : msg.term = r.currentTerm) (hstate : r.state = .follower)
    (hactive : msg.sender ≠ None → r.leaderActive = true) (hpasses : r.passes msg)
    (hlog : r.appendLoop (msg.prevLogIndex + 1) msg.entries = some log) :
    Simulated members mayCrash s i (r.accepting msg log) := by
  obtain ⟨⟨-, hgenuine⟩, -, hmember, hne⟩ := hin
  rw [htype] at hgenuine
  obtain ⟨a, ha, -, haterm, hcommit, haindexed, hcarries⟩ := hgenuine
  have hnone : msg.sender ≠ None := fun h => hnamed (h ▸ hmember)
  have hsound : Sound LogEntry.term s r.log := htracks.log ▸ hsafe.logs.peerSound i
  obtain ⟨hple, hprev, hentries, hmeets⟩ := hcarries.meets htracks.indexed
    (fun _ he => hsafe.logs.key_pos hsafe.votes hsound he) hpasses
  rw [appendLoop_eq htracks.indexed _ _ hple, Option.some.injEq, hentries] at hlog
  have hpterm : a.term = (s.peer i).term := by rw [haterm, hterm, htracks.term]
  have hcheck : msg.prevLogIndex = 0 ∨ ∃ x y, (s.peer i).log[msg.prevLogIndex - 1]? = some x ∧
      a.log[msg.prevLogIndex - 1]? = some y ∧ x.term = y.term := by
    rw [htracks.log]
    exact hmeets
  have hlog' : (s.peer i).log.take msg.prevLogIndex ++ splice LogEntry.term
      ((s.peer i).log.drop msg.prevLogIndex) (a.log.drop msg.prevLogIndex) = log := by
    rw [htracks.log]
    exact hlog
  have hindexed : Indexed log := by
    rcases (hsafe.logs.accept_log hsafe.votes ha hpterm hcheck hlog').1 with ⟨-, h⟩ | ⟨-, h⟩
    · rw [h, htracks.log]
      exact htracks.indexed
    · rw [h]
      exact haindexed
  have hfollow := followCommit_commitIndex (r := r) log hprev hentries
  refine .step hsafe (.accept s i a msg.prevLogIndex ha hpterm ?_ ?_ hcheck)
    (fun j hj => by simp [hj]) fun hgrows => ?_
  · simp [htracks.role, hstate]
  · rw [htracks.active]
    exact hactive hnone
  · rw [hlog'] at hgrows ⊢
    rw [accepting_eq, hfollow, hindexed.lastIndexOf]
    refine htracks.update hgrows ?_ rfl rfl hindexed ?_ ?_ ?_
    · simp only [State.setPeer_peer, if_true, htracks.peer, hcommit]
      rfl
    · simp [hstate]
    · simp [hstate]
    · intro m hm
      rw [List.mem_append, List.mem_singleton] at hm
      refine hm.imp (fun h => h) ?_
      rintro rfl
      refine ⟨⟨rfl, fun _ _ => ?_⟩, htracks.id, hmember, hne⟩
      simp [htracks.id, htracks.term]

omit hsafe in
private theorem simulate_aim {p : String} {next : Nat} {nextIndex : GoMap String Nat}
    (hstate : r.state = .leader) (hpos : 0 < next)
    (hnext : r.nextIndex.write p next = some nextIndex) :
    Simulated members mayCrash s i { r with nextIndex } := by
  have hlead := htracks.leading hstate
  refine .refl (htracks.update (.refl s) htracks.peer rfl rfl htracks.indexed ?_ ?_
    (fun m hm => .inl hm))
  · exact fun hs => (htracks.standing hs).mono (r := r) (.refl s) rfl rfl
  · intro _
    refine { cursor := ?_, matched := hlead.matched, own := hlead.own }
    intro q hq
    change 0 < nextIndex.read q
    rw [GoMap.read_write hnext]
    split
    · exact hpos
    · exact hlead.cursor q hq

omit hsafe in
private theorem simulate_matched {msg : Message} {matchIndex : GoMap String Nat}
    (hin : Deliverable members s i msg) (htype : msg.type = .appendEntriesResp)
    (hstate : r.state = .leader) (hterm : msg.term = r.currentTerm) (hreject : msg.reject = false)
    (hpos : 0 < msg.index)
    (hmatch : r.matchIndex.write msg.sender msg.index = some matchIndex) :
    Simulated members mayCrash s i { r with matchIndex } := by
  have hlead := htracks.leading hstate
  obtain ⟨⟨-, hgenuine⟩, -⟩ := hin
  rw [htype] at hgenuine
  refine .refl (htracks.update (.refl s) htracks.peer rfl rfl htracks.indexed ?_ ?_
    (fun m hm => .inl hm))
  · exact fun hs => (htracks.standing hs).mono (r := r) (.refl s) rfl rfl
  · intro _
    refine { cursor := hlead.cursor, matched := ?_, own := hlead.own }
    intro q hq
    change 0 < matchIndex.read q → (⟨q, r.currentTerm, matchIndex.read q⟩ : Ack String) ∈ s.acks
    rw [GoMap.read_write hmatch]
    split
    next heq =>
      intro _
      rw [heq, ← hterm]
      exact hgenuine hreject hpos
    next => exact hlead.matched q hq

include hi in
private theorem simulate_advance {n : Nat} (hstate : r.state = .leader) (hn : r.commitIndex < n)
    (hlast : n ≤ r.lastLogIndex) (hterm : r.logTerm n = r.currentTerm)
    (hquorum : r.quorumSize ≤
      1 + (r.peers.filter fun peer => n ≤ r.matchIndex.read peer).length) :
    Simulated members mayCrash s i { r with commitIndex := n } := by
  have hlead := htracks.leading hstate
  rw [lastLogIndex_eq htracks.indexed] at hlast
  obtain ⟨e, he, heterm⟩ := exists_of_logTerm (by omega) hlast
  have hfilter : ∀ q, q ∈ r.peers.filter (fun peer => n ≤ r.matchIndex.read peer) ↔
      q ∈ r.peers ∧ n ≤ r.matchIndex.read q := by
    intro q
    simp
  have hout : i ∉ (r.peers.filter fun peer => n ≤ r.matchIndex.read peer).toFinset := by
    rw [List.mem_toFinset, hfilter, htracks.peers]
    simp
  have hC : Majority members
      (insert i (r.peers.filter fun peer => n ≤ r.matchIndex.read peer).toFinset) := by
    apply htracks.majority hi
    · intro q hq
      rw [Finset.mem_insert, List.mem_toFinset, hfilter, htracks.peers] at hq
      rcases hq with rfl | ⟨⟨hq, -⟩, -⟩
      · exact hi
      · exact hq
    · rw [Finset.card_insert_of_notMem hout, List.toFinset_card_of_nodup (htracks.nodup.filter _)]
      omega
  refine .step hsafe (.commit s i n _ e ?_ ?_ ?_ ?_ hC ?_) (fun j hj => by simp [hj])
    fun hgrows => ?_
  · simp [htracks.role, hstate]
  · rw [htracks.commit]
    exact hn
  · rw [htracks.log]
    exact he
  · rw [htracks.term, ← heterm, hterm]
  · intro q hq
    rw [htracks.term]
    rw [Finset.mem_insert, List.mem_toFinset, hfilter] at hq
    rcases hq with rfl | ⟨hq, hmatch⟩
    · exact ⟨r.log.length, hlast, hlead.own⟩
    · exact ⟨r.matchIndex.read q, hmatch, hlead.matched q hq (by omega)⟩
  · refine htracks.update hgrows ?_ rfl rfl htracks.indexed ?_ ?_ (fun m hm => .inl hm)
    · simp only [State.setPeer_peer, if_true, htracks.peer]
      rfl
    · exact fun hs => (htracks.standing hs).mono (r := r) hgrows rfl rfl
    · exact fun _ => hlead.mono (r := r) hgrows rfl rfl rfl rfl rfl

private theorem simulate_extend {data : List UInt8} {matchIndex : GoMap String Nat}
    (hstate : r.state = .leader)
    (hmatch : ∀ peer, peer ≠ r.id → matchIndex.read peer = r.matchIndex.read peer) :
    Simulated members mayCrash s i
      { r with
        log := r.log ++ [{ index := r.lastLogIndex + 1, term := r.currentTerm, data }]
        matchIndex } := by
  have hlead := htracks.leading hstate
  have hrole : (s.peer i).role = .leader := by
    simp [htracks.role, hstate]
  obtain ⟨reign, hreign, -⟩ := hsafe.votes.leaderReign i hrole
  refine .step hsafe (.extend s i reign
    { index := r.lastLogIndex + 1, term := r.currentTerm, data } hrole hreign htracks.term.symm)
    (fun j hj => by simp [State.append, hj]) fun hgrows => ?_
  refine htracks.update hgrows ?_ rfl rfl ?_ ?_ ?_ (fun m hm => .inl hm)
  · simp only [State.append, Function.update_self, htracks.peer]
    rfl
  · exact htracks.indexed.concat (by rw [lastLogIndex_eq htracks.indexed])
  · exact fun hs => (htracks.standing hs).mono (r := r) hgrows rfl rfl
  · intro _
    refine { cursor := hlead.cursor, matched := ?_, own := ?_ }
    · intro p hp hpos
      have hne : p ≠ r.id := by
        rw [htracks.id]
        exact ((htracks.peers p).mp hp).2
      change 0 < matchIndex.read p at hpos
      change (⟨p, r.currentTerm, matchIndex.read p⟩ : Ack String) ∈ _
      rw [hmatch p hne] at hpos ⊢
      exact hgrows.acks (hlead.matched p hp hpos)
    · simp [State.append, htracks.term, htracks.log]

end Cases

theorem Move.simulate (hnamed : None ∉ members) (hi : i ∈ members)
    (hbound : ∀ t, clock t → t < uint64Size - 1)
    (hinbox : ∀ m, inbox m → Deliverable members s i m)
    (hsafe : ProtocolSafe members mayCrash s) (htracks : Tracks members s i r)
    (hmove : Move inbox clock r r') : Simulated members mayCrash s i r' := by
  cases hmove with
  | wait hstate hclock hearly =>
    exact .refl (htracks.still rfl rfl rfl rfl rfl rfl fun m hm => .inl hm)
  | stand hstate hclock hdue => exact simulate_stand hnamed hi hsafe htracks (hbound _ hclock)
  | canvass hstate => exact simulate_canvass hsafe htracks hstate
  | win hstate hquorum => exact simulate_win hi hsafe htracks hstate hquorum
  | beat elapsed acked hstate hclock =>
    exact .refl (htracks.still rfl rfl rfl rfl rfl rfl fun m hm => .inl hm)
  | count msg hin htype hstate =>
    exact .refl (htracks.still rfl rfl rfl rfl rfl rfl fun m hm => .inl hm)
  | broadcast _ hstate h => exact simulate_broadcast hsafe htracks hstate h
  | observe msg _ hterm => exact simulate_observe hsafe htracks hterm _
  | refuse msg reply hin hsender hrecipient hterm htype hreal hreject =>
    exact simulate_refuse htracks (hinbox msg hin) hsender hrecipient
      (htype.imp And.right And.right) hreal hreject
  | grant msg hin htype hterm hidle hvote hlog =>
    exact simulate_grant hnamed hsafe htracks (hinbox msg hin) htype hterm hidle hvote hlog
  | tally msg votes hin htype hstate hterm hvotes =>
    exact simulate_tally htracks (hinbox msg hin) htype hstate hterm hvotes
  | heed msg hin htype hterm =>
    exact simulate_heed hnamed hsafe htracks (hinbox msg hin) htype hterm
  | accept msg log hin htype hterm hstate hactive hpasses hlog =>
    exact simulate_accept hnamed hsafe htracks (hinbox msg hin) htype hterm hstate hactive
      hpasses hlog
  | aim p next nextIndex hstate hpos hnext =>
    exact simulate_aim htracks hstate hpos hnext
  | matched msg matchIndex hin htype hstate hterm hreject hpos hmatch =>
    exact simulate_matched htracks (hinbox msg hin) htype hstate hterm hreject hpos hmatch
  | advance msg n hin htype hstate hn hlast hterm hquorum =>
    exact simulate_advance hi hsafe htracks hstate hn hlast hterm hquorum
  | extend data matchIndex hstate hmatch => exact simulate_extend hsafe htracks hstate hmatch

theorem Moves.simulate (hnamed : None ∉ members) (hi : i ∈ members)
    (hbound : ∀ t, clock t → t < uint64Size - 1)
    (hinbox : ∀ m, inbox m → Deliverable members s i m)
    (hsafe : ProtocolSafe members mayCrash s) (htracks : Tracks members s i r)
    (hmoves : Moves inbox clock r r') : Simulated members mayCrash s i r' := by
  induction hmoves with
  | refl => exact .refl htracks
  | tail _ hmove ih =>
    obtain ⟨s₁, hsteps, hother, htracks₁⟩ := ih
    obtain ⟨hsafe₁, hgrows⟩ := hsafe.steps (fun t => quorums_meet members t t)
      (quorums_meet members) hsteps
    obtain ⟨s₂, hsteps', hother', htracks₂⟩ := Move.simulate hnamed hi hbound
      (fun m hm => (hinbox m hm).mono hgrows) hsafe₁ htracks₁ hmove
    exact ⟨s₂, hsteps.trans hsteps', fun j hj => (hother' j hj).trans (hother j hj), htracks₂⟩

end Phalanx
