import Phalanx.Progress.Election
import Phalanx.Safety.Service

/-! A leader of the highest term brings every node to its log and then to its commit index. One
round of exchanges with every peer makes the logs equal, and the last response in it lets the
leader commit all it has; the next broadcast tells everybody. -/
namespace Phalanx

open Consensus Go Raft

namespace Raft

variable {l l' l₁ f : Raft} {msg : Message} {ps qs : List String}

theorem tick_quiet (hlead : l.state = .leader)
    (hearly : l.heartbeatElapsed + 1 < l.heartbeatTimeout) :
    l.tick = some { l with heartbeatElapsed := l.heartbeatElapsed + 1 } := by
  have hticks : l.tick = l.tickHeartbeat := by rw [tick, hlead]
  rw [hticks]
  exact if_neg (Int.not_le.mpr hearly)

theorem tick_beats (hlead : l.state = .leader)
    (hdue : l.heartbeatTimeout ≤ l.heartbeatElapsed + 1) :
    l.tick = { l with heartbeatElapsed := 0, heartbeatAcked := 1 }.broadcastHeartbeat := by
  have hticks : l.tick = l.tickHeartbeat := by rw [tick, hlead]
  rw [hticks]
  exact if_pos hdue

/-- What the peers in `ps` say to a leader leaves all else as it is. -/
structure Concerns (ps : List String) (l l' : Raft) : Prop where
  state : l'.state = l.state
  term : l'.currentTerm = l.currentTerm
  log : l'.log = l.log
  peers : l'.peers = l.peers
  others : ∀ q, q ∉ ps → l'.matchIndex.read q = l.matchIndex.read q ∧
    l'.nextIndex.read q = l.nextIndex.read q

namespace Concerns

theorem refl (l : Raft) : Concerns ps l l := ⟨rfl, rfl, rfl, rfl, fun _ _ => ⟨rfl, rfl⟩⟩

theorem mono (h : Concerns ps l l') (hsub : ps ⊆ qs) : Concerns qs l l' :=
  { h with others := fun q hq => h.others q fun hmem => hq (hsub hmem) }

theorem trans (h : Concerns ps l l₁) (h' : Concerns ps l₁ l') : Concerns ps l l' where
  state := h'.state.trans h.state
  term := h'.term.trans h.term
  log := h'.log.trans h.log
  peers := h'.peers.trans h.peers
  others := fun q hq => ⟨(h'.others q hq).1.trans (h.others q hq).1,
    (h'.others q hq).2.trans (h.others q hq).2⟩

end Concerns

theorem step_concerns (htype : msg.type = .appendEntriesResp) (hterm : msg.term = l.currentTerm)
    (h : l.step msg = some l') : Concerns [msg.sender] l l' := by
  rw [step_response htype hterm] at h
  have hread : ∀ {m m' : GoMap String Nat} {v : Nat}, m.write msg.sender v = some m' →
      ∀ q, q ∉ [msg.sender] → m'.read q = m.read q := by
    intro m m' v hwrite q hq
    rw [GoMap.read_write hwrite, if_neg fun heq => hq (List.mem_singleton.mpr heq)]
  rcases handleAppendEntriesResp_cases h with ⟨rfl, -⟩ | ⟨next, nextIndex, -, -, -, hwrite, rfl⟩ |
    ⟨-, -, -, matchIndex, nextIndex, hmoves, rfl⟩
  · exact .refl _
  · exact ⟨rfl, rfl, rfl, rfl, fun q hq => ⟨rfl, hread hwrite q hq⟩⟩
  · rw [maybeAdvanceCommit_frame]
    refine ⟨rfl, rfl, rfl, rfl, fun q hq => ?_⟩
    rcases hmoves with ⟨rfl, rfl⟩ | ⟨-, hmatch, hnext⟩
    · exact ⟨rfl, rfl⟩
    · exact ⟨hread hmatch q hq, hread hnext q hq⟩

theorem step_commits (htype : msg.type = .appendEntriesResp) (hterm : msg.term = l.currentTerm)
    (hlead : l.state = .leader) (hreject : msg.reject = false) (hindexed : Indexed l.log)
    (hlast : l.logTerm l.log.length = l.currentTerm) (h : l.step msg = some l')
    (hall : ∀ q ∈ l.peers, l'.matchIndex.read q = l.log.length) :
    l.log.length ≤ l'.commitIndex := by
  rw [step_response htype hterm] at h
  rcases handleAppendEntriesResp_cases h with ⟨-, hno⟩ | ⟨next, nextIndex, -, hno, -⟩ |
    ⟨-, -, -, matchIndex, nextIndex, -, rfl⟩
  · exact absurd ⟨hlead, hterm, hreject⟩ hno
  · rw [hreject] at hno
    cases hno
  · rw [maybeAdvanceCommit_frame] at hall
    refine maybeAdvanceCommit_covers _ (lastLogIndex_eq hindexed).ge hlast ?_
    have hfilter : l.peers.filter (fun peer => l.log.length ≤ matchIndex.read peer) = l.peers :=
      List.filter_eq_self.mpr fun q hq => decide_eq_true (hall q hq).ge
    change (l.peers.length + 1) / 2 + 1 ≤
      1 + (l.peers.filter fun peer => l.log.length ≤ matchIndex.read peer).length
    rw [hfilter]
    omega

theorem Facing.settles (h : Facing l f) (hm : l.appendEntriesFor f.id = some msg)
    (hlog : f.log = l.log) (hnext : l.nextIndex.read f.id = l.log.length + 1)
    (hcommit : l.log.length ≤ l.commitIndex) :
    ∃ f' reply, f.step (msg.received f.id) = some f' ∧ f'.msgs = [reply] ∧
      f'.currentTerm = l.currentTerm ∧ f'.log = l.log ∧ l.log.length ≤ f'.commitIndex := by
  have hlast := lastLogIndex_eq h.indexed
  have hprev : pred64 (l.log.length + 1) = l.log.length := pred64_of_pos (Nat.succ_pos _)
  have hmsg : msg.received f.id =
      { type := .appendEntries, sender := l.id, recipient := f.id, term := l.currentTerm,
        prevLogIndex := l.log.length, prevLogTerm := l.logTerm l.log.length,
        leaderCommit := l.commitIndex } := by
    unfold appendEntriesFor at hm
    simp only [hnext, hlast, hprev] at hm
    rw [if_neg (by omega)] at hm
    cases hm
    rfl
  generalize msg.received f.id = got at hmsg
  have hterm : got.term = l.currentTerm := by rw [hmsg]
  have hfresh : f.currentTerm ≤ got.term := hterm ▸ h.term
  obtain ⟨hsame, -, -, hmsgs⟩ := following_frame f got
  rw [h.silent] at hmsgs
  rw [hlog] at hsame
  have hpasses : (f.following got).passes got := by
    refine .inr ⟨?_, ?_⟩
    · rw [lastLogIndex_eq (hsame ▸ h.indexed), hsame, hmsg]
    · have hterms : ∀ k, (f.following got).logTerm k = l.logTerm k := by
        intro k
        unfold logTerm slots
        rw [hsame]
      rw [hterms, hmsg]
  rw [step_appendEntries h.base (by rw [hmsg]), if_neg (Nat.not_lt.mpr hfresh),
    replicate_takes hpasses]
  have hloop : (f.following got).appendLoop (got.prevLogIndex + 1) got.entries = some l.log := by
    rw [← hsame, hmsg]
    rfl
  rw [hloop, Option.map_some, followCommit_eq]
  refine ⟨_, _, rfl, congrArg (· ++ _) hmsgs, (following_term hfresh).trans hterm, rfl, ?_⟩
  change l.log.length ≤ (followCommit { f.following got with log := l.log } got).commitIndex
  have hgot : got.leaderCommit = l.commitIndex ∧
      got.prevLogIndex + got.entries.length = l.log.length := by
    rw [hmsg]
    exact ⟨rfl, rfl⟩
  rw [commitIndex_followCommit, hgot.1, hgot.2]
  split <;> omega

end Raft

variable {w : World} {bound : Nat} {c c' : Cluster} {i p : String} {n n' m : Node}

namespace Cluster

theorem Fit.facing (h : Fit w bound c) (hn : c.node i = some n) (hlead : n.raft.state = .leader)
    (hm : c.node p = some m) (hother : p ≠ i)
    (hterm : m.raft.currentTerm ≤ n.raft.currentTerm) : Facing n.raft m.raft :=
  h.reach.facing h.static h.below hn hlead hm hother hterm

theorem Fit.commit_le (h : Fit w bound c) (hn : c.node i = some n) :
    n.raft.commitIndex ≤ n.raft.log.length := by
  obtain ⟨s, hs⟩ := h.refines
  have htracks := (hs.node i n hn).tracks
  have hsettled := (hs.safe.commits fun _ _ hno => hno.elim).peerCommit i
  rw [htracks.term, htracks.log, htracks.commit] at hsettled
  exact hsettled.1

theorem Fit.last_term (h : Fit w bound c) (hn : c.node i = some n)
    (hlead : n.raft.state = .leader) :
    n.raft.logTerm n.raft.log.length = n.raft.currentTerm := by
  obtain ⟨s, hs⟩ := h.refines
  obtain ⟨-, e, he, hterm⟩ := hs.led ⟨n.raft, hs.now i n hn, hlead, rfl, rfl⟩
  have hpos : 0 < n.raft.log.length :=
    List.length_pos_of_ne_nil (List.ne_nil_of_mem (List.mem_of_getElem? he))
  have hat := logTerm_of_getElem he
  rw [Nat.sub_add_cancel hpos] at hat
  exact hat.trans hterm

theorem Fit.beat (h : Fit w bound c) (hn : c.node i = some n) (hlead : n.raft.state = .leader) :
    ∃ c' n' heartbeatElapsed heartbeatAcked lastApplied, Fit w bound c' ∧ Later w c c' ∧
      c'.node = Function.update c.node i (some n') ∧
      n'.raft = { n.raft with heartbeatElapsed, heartbeatAcked, lastApplied, msgs := [] } ∧
      ∀ p ∈ n.raft.peers, ∃ msg, n.raft.appendEntriesFor p = some msg ∧
        { origin := i, msg, dest := none } ∈ c'.net := by
  generalize hfuel : (n.raft.heartbeatTimeout - n.raft.heartbeatElapsed).toNat = fuel
  induction fuel using Nat.strong_induction_on generalizing c n with
  | h fuel ih =>
    obtain ⟨s, hs⟩ := h.refines
    have hhosts := hs.node i n hn
    have hterm := h.terms _ (hs.now i n hn)
    by_cases hdue : n.raft.heartbeatTimeout ≤ n.raft.heartbeatElapsed + 1
    · have htick := tick_beats hlead hdue
      obtain ⟨r, hr, -⟩ := tick_returns hhosts.tracks.indexed (h.equipped hn)
      obtain ⟨out, hout, rfl⟩ := broadcastHeartbeat_eq (htick.symm.trans hr)
      obtain ⟨c', hmoved⟩ := h.tick hn hr hterm
      obtain ⟨n', lastApplied, hnode, hraft⟩ := hmoved.node
      refine ⟨c', n', 0, 1, lastApplied, hmoved.fit, hmoved.later, hnode, hraft, fun p hp => ?_⟩
      obtain ⟨msg, hfind, hfor⟩ := find_broadcast hp hout
      obtain ⟨entries, hshape⟩ := appendEntriesFor_eq hfor
      refine ⟨msg, hfor, hmoved.sent msg
        (List.mem_append_right _ (List.mem_of_find?_eq_some hfind)) ?_⟩
      rw [hshape]
      rfl
    · have htick := tick_quiet hlead (by omega)
      obtain ⟨c₁, hmoved⟩ := h.tick hn htick hterm
      obtain ⟨n₁, lastApplied, hnode, hraft⟩ := hmoved.node
      have hn₁ : c₁.node i = some n₁ := by rw [hnode, Function.update_self]
      obtain ⟨c', n', heartbeatElapsed, heartbeatAcked, lastApplied', hfit, hlater, hnode',
        hraft', hsent⟩ := ih _ (by rw [hraft]; simp only; omega) hmoved.fit hn₁
          (by rw [hraft]; exact hlead) rfl
      rw [hraft] at hraft' hsent
      refine ⟨c', n', heartbeatElapsed, heartbeatAcked, lastApplied', hfit,
        hmoved.later.trans hlater, ?_, hraft', hsent⟩
      rw [hnode', hnode, Function.update_idem]

/-- The run has gone on from `c` to `c'`, and nobody but node `i` and those in `ps` has moved. -/
structure Visited (w : World) (bound : Nat) (c : Cluster) (i : String) (ps : List String)
    (c' : Cluster) (n' : Node) : Prop where
  fit : Fit w bound c'
  later : Later w c c'
  self : c'.node i = some n'
  others : ∀ j, j ≠ i → j ∉ ps → c'.node j = c.node j

theorem Visited.trans {c₁ : Cluster} {n₁ : Node} {ps : List String}
    (h : Visited w bound c i ps c₁ n₁) (h' : Visited w bound c₁ i ps c' n') :
    Visited w bound c i ps c' n' where
  fit := h'.fit
  later := h.later.trans h'.later
  self := h'.self
  others := fun j hj hps => (h'.others j hj hps).trans (h.others j hj hps)

theorem Visited.mono {ps qs : List String} (h : Visited w bound c i ps c' n') (hsub : ps ⊆ qs) :
    Visited w bound c i qs c' n' :=
  { h with others := fun j hj hqs => h.others j hj fun hmem => hqs (hsub hmem) }

/-- What the leader `l` knows of a peer that it has brought up to date. -/
def Level (c : Cluster) (l : Raft) (p : String) : Prop :=
  l.matchIndex.read p = l.log.length ∧ l.nextIndex.read p = l.log.length + 1 ∧
    ∃ m, c.node p = some m ∧ m.raft.currentTerm = l.currentTerm ∧ m.raft.log = l.log

def Ratifies (l : Raft) : Prop :=
  (∀ q ∈ l.peers, l.matchIndex.read q = l.log.length) → l.log.length ≤ l.commitIndex

theorem Fit.exchanged (h : Fit w bound c) (hn : c.node i = some n)
    (hlead : n.raft.state = .leader) (hm : c.node p = some m) (hother : p ≠ i)
    (hle : m.raft.currentTerm ≤ n.raft.currentTerm) :
    ∃ c' n', Visited w bound c i [p] c' n' ∧ Concerns [p] n.raft n'.raft ∧
      (n'.raft.nextIndex.read p < n.raft.nextIndex.read p ∧
          (∃ m', c'.node p = some m' ∧ m'.raft.currentTerm = n.raft.currentTerm) ∨
        c'.Level n'.raft p ∧ Ratifies n'.raft) := by
  obtain ⟨s, hs⟩ := h.refines
  have hname : m.raft.id = p := (hs.node p m hm).tracks.id
  have hterm := h.terms _ (hs.now i n hn)
  have hpeer : p ∈ n.raft.peers := hname ▸ (h.facing hn hlead hm hother hle).peer
  obtain ⟨c₁, n₁, heartbeatElapsed, heartbeatAcked, lastApplied, hfit, hlater, hnode, hraft,
    hsent⟩ := h.beat hn hlead
  obtain ⟨msg, hfor, hpacket⟩ := hsent p hpeer
  have hn₁ : c₁.node i = some n₁ := by rw [hnode, Function.update_self]
  have hm₁ : c₁.node p = some m := by rw [hnode, Function.update_of_ne hother, hm]
  have hfacing := hfit.facing hn₁ (by rw [hraft]; exact hlead) hm₁ hother
    (by rw [hraft]; exact hle)
  have hbeat : Concerns [p] n.raft n₁.raft := by
    rw [hraft]
    exact ⟨rfl, rfl, rfl, rfl, fun _ _ => ⟨rfl, rfl⟩⟩
  have hfor₁ : n₁.raft.appendEntriesFor m.raft.id = some msg := by
    rw [hraft, hname]
    exact hfor
  have hnext : n₁.raft.nextIndex = n.raft.nextIndex := by rw [hraft]
  obtain ⟨htype, -, hrecipient, -⟩ :=
    carries_appendEntriesFor hfacing.indexed hfacing.cursor hfor₁
  have hprev : msg.prevLogIndex = n₁.raft.nextIndex.read m.raft.id - 1 := by
    obtain ⟨entries, rfl⟩ := appendEntriesFor_eq hfor₁
    exact pred64_of_pos hfacing.cursor
  obtain ⟨f, reply, hstep, hmsgs, -, -, hnow, hreplyTerm, hreply⟩ := hfacing.answered hfor₁
  rw [hname] at hstep hrecipient
  obtain ⟨c₂, cause, hmoved, hback⟩ := hfit.request hpacket rfl (by simp [Message.isRequest, htype])
    hrecipient hn₁ hm₁ hstep (hnow.trans_le (hbeat.term.trans_le hterm)) hmsgs
  obtain ⟨m', hm', hmraft⟩ : ∃ m', c₂.node p = some m' ∧ ∃ lastApplied,
      m'.raft = { f with lastApplied, msgs := [] } := by
    obtain ⟨m', lastApplied, hm', hmraft⟩ := hmoved.self
    exact ⟨m', hm', lastApplied, hmraft⟩
  obtain ⟨lastApplied', hmraft⟩ := hmraft
  have hn₂ : c₂.node i = some n₁ := (hmoved.other (Ne.symm hother)).trans hn₁
  have hanswer : msg.answered reply =
      { type := .appendEntriesResp, sender := p, recipient := msg.sender, term := reply.term
        reject := reply.reject, index := reply.index } := by
    rw [Message.answered, if_pos htype, hrecipient]
  generalize msg.answered reply = answer at hback hanswer
  have hkind : answer.type = .appendEntriesResp := by rw [hanswer]
  have hsame : answer.term = n₁.raft.currentTerm := by rw [hanswer]; exact hreplyTerm
  have hsender : answer.sender = p := by rw [hanswer]
  obtain ⟨l, hl, -⟩ := step_returns hfacing.indexed hfacing.equipped answer
  have hconcerns : Concerns [p] n₁.raft l := hsender ▸ step_concerns hkind hsame hl
  obtain ⟨c₃, hmoved'⟩ := hmoved.fit.response hback rfl (by simp [Message.isRequest, hkind]) hn₂ hl
    (hconcerns.term.trans_le (hbeat.term.trans_le hterm))
  obtain ⟨n', applied, hn', hnraft⟩ := hmoved'.self
  have hm₃ : c₃.node p = some m' := (hmoved'.other hother).trans hm'
  have hdrained : Concerns [p] l n'.raft := by
    rw [hnraft]
    exact ⟨rfl, rfl, rfl, rfl, fun _ _ => ⟨rfl, rfl⟩⟩
  refine ⟨c₃, n', ⟨hmoved'.fit, (hlater.trans hmoved.later).trans hmoved'.later, hn', ?_⟩,
    (hbeat.trans hconcerns).trans hdrained, ?_⟩
  · intro j hji hjp
    rw [hmoved'.other hji, hmoved.other fun heq => hjp (List.mem_singleton.mpr heq), hnode,
      Function.update_of_ne hji]
  rcases hreply with ⟨hrefused, hlog, hindex⟩ | ⟨htaken, hlog, hindex⟩
  · refine .inl ⟨?_, m', hm₃, by rw [hmraft]; exact hnow.trans hbeat.term⟩
    obtain ⟨nextIndex, hl', -, -, hdown⟩ := hfacing.refused hkind (hsender.trans hname.symm)
      hsame (by rw [hanswer]; exact hrefused) (by rw [hanswer]; simp only; omega)
    cases hl.symm.trans hl'
    rw [hnraft, ← hnext, ← hname]
    exact hdown
  · have haccepts : answer.reject = false ∧ answer.index = n₁.raft.log.length := by
      rw [hanswer]
      exact ⟨htaken, hindex⟩
    obtain ⟨matchIndex, nextIndex, acked, commitIndex, hl', -, -, hmatched, hcursor⟩ :=
      hfacing.accepted hkind (hsender.trans hname.symm) hsame haccepts.1
        (haccepts.2 ▸ List.length_pos_of_ne_nil hfacing.started)
    have hratifies := step_commits hkind hsame hfacing.leader haccepts.1 hfacing.indexed
      (hmoved.fit.last_term hn₂ hfacing.leader) hl
    cases hl.symm.trans hl'
    rw [hname, haccepts.2] at hmatched hcursor
    rw [hnraft]
    refine .inr ⟨⟨hmatched, hcursor, m', hm₃, ?_, ?_⟩, hratifies⟩
    · rw [hmraft]
      exact hnow
    · rw [hmraft]
      exact hlog

theorem Fit.sync (h : Fit w bound c) (hn : c.node i = some n) (hlead : n.raft.state = .leader)
    (hm : c.node p = some m) (hother : p ≠ i)
    (hle : m.raft.currentTerm ≤ n.raft.currentTerm) :
    ∃ c' n', Visited w bound c i [p] c' n' ∧ Concerns [p] n.raft n'.raft ∧
      c'.Level n'.raft p ∧ Ratifies n'.raft := by
  generalize hfuel : n.raft.nextIndex.read p = fuel
  induction fuel using Nat.strong_induction_on generalizing c n m with
  | h fuel ih =>
    obtain ⟨c₁, n₁, hvisited, hconcerns, ⟨hdown, m₁, hm₁, hnow⟩ | hlevel⟩ :=
      h.exchanged hn hlead hm hother hle
    · obtain ⟨c', n', hvisited', hconcerns', hlevel⟩ := ih _ (hfuel ▸ hdown) hvisited.fit
        hvisited.self (hconcerns.state.trans hlead) hm₁
        (hnow.trans hconcerns.term.symm).le rfl
      exact ⟨c', n', hvisited.trans hvisited', hconcerns.trans hconcerns', hlevel⟩
    · exact ⟨c₁, n₁, hvisited, hconcerns, hlevel⟩

theorem Fit.syncAll (ps : List String) (hnodup : ps.Nodup) (hself : i ∉ ps)
    (h : Fit w bound c) (hn : c.node i = some n) (hlead : n.raft.state = .leader)
    (hle : ∀ p ∈ ps, ∃ m, c.node p = some m ∧ m.raft.currentTerm ≤ n.raft.currentTerm) :
    ∃ c' n', Visited w bound c i ps c' n' ∧ Concerns ps n.raft n'.raft ∧
      (∀ p ∈ ps, c'.Level n'.raft p) ∧ (ps ≠ [] ∨ Ratifies n.raft → Ratifies n'.raft) := by
  induction ps generalizing c n with
  | nil =>
    exact ⟨c, n, ⟨h, .refl, hn, fun _ _ _ => rfl⟩, .refl _, fun p hp => (by cases hp),
      fun hrat => hrat.resolve_left fun hno => hno rfl⟩
  | cons p rest ih =>
    obtain ⟨hp, hnodup⟩ := List.nodup_cons.mp hnodup
    obtain ⟨hpi, hself⟩ := not_or.mp (mt List.mem_cons.mpr hself)
    obtain ⟨m, hm, hmle⟩ := hle p List.mem_cons_self
    obtain ⟨c₁, n₁, hvisited, hconcerns, hlevel, hratifies⟩ :=
      h.sync hn hlead hm (Ne.symm hpi) hmle
    have hfirst : [p] ⊆ p :: rest := List.cons_subset_cons p (List.nil_subset rest)
    obtain ⟨c₂, n₂, hvisited₂, hconcerns₂, hlevels, hratifies₂⟩ := ih hnodup hself hvisited.fit
      hvisited.self (hconcerns.state.trans hlead) fun q hq => by
        obtain ⟨m', hm', hmle'⟩ := hle q (List.mem_cons_of_mem p hq)
        refine ⟨m', ?_, hconcerns.term ▸ hmle'⟩
        rw [hvisited.others q (fun heq => hself (heq ▸ hq)) fun hmem =>
          hp (List.mem_singleton.mp hmem ▸ hq), hm']
    refine ⟨c₂, n₂, (hvisited.mono hfirst).trans (hvisited₂.mono (List.subset_cons_self p rest)),
      (hconcerns.mono hfirst).trans (hconcerns₂.mono (List.subset_cons_self p rest)),
      fun q hq => ?_, fun _ => hratifies₂ (.inr hratifies)⟩
    rcases List.mem_cons.mp hq with rfl | hq
    · obtain ⟨hmatch, hnext, m', hm', hterm, hlog⟩ := hlevel
      obtain ⟨hmatch', hnext'⟩ := hconcerns₂.others q hp
      refine ⟨by rw [hmatch', hconcerns₂.log, hmatch], by rw [hnext', hconcerns₂.log, hnext], m',
        (hvisited₂.others q (Ne.symm hpi) hp).trans hm', ?_, ?_⟩
      · rw [hterm, hconcerns₂.term]
      · rw [hlog, hconcerns₂.log]
    · exact hlevels q hq

end Cluster
end Phalanx
