import Phalanx.Node
import Phalanx.Raft.Returns
import Phalanx.Refinement.Tracks

/-! The back-off of a leader that is out of step with one peer. A refusal carries a hint that
is computed on the peer's log alone, and the leader makes a cursor of it without looking at its
own; the cursor moves down all the same, because the hint lies before the entry that was
refused. -/
namespace Phalanx

open Go

namespace Raft

variable {l l' f f' : Raft} {msg : Message} {held : List LogEntry}

/-- The leader `l` broadcasts, `f` steps the AppendEntries addressed to it, and `l` steps the
reply, each message as the handler at its end rebuilds it. The flag is what `f` said. -/
def exchange (l f : Raft) : Option (Raft × Raft × Bool) := do
  let (out, l) := (← l.broadcastHeartbeat).messages
  let request ← out.find? fun m => m.recipient = f.id
  let (replies, f) := (← f.step (request.received f.id)).messages
  let reply ← replies.getLast?
  let l ← l.step (request.answered reply)
  pure (l, f, reply.reject)

def exchanges (l f : Raft) : Nat → Option (Raft × Raft)
  | 0 => some (l, f)
  | k + 1 => do
    let (l, f) ← exchanges l f k
    let (l, f, _) ← l.exchange f
    pure (l, f)

/-- Whatever part of `held` is accepted, the log is `held` afterwards. -/
def Catches (f : Raft) (held : List LogEntry) : Prop :=
  ∀ msg, Carries msg held → f.passes msg →
    f.appendLoop (msg.prevLogIndex + 1) msg.entries = some held

theorem Catches.congr (h : f.Catches held) (hlog : f'.log = f.log) : f'.Catches held := by
  intro msg hcarries hpasses
  rw [appendLoop_congr hlog]
  exact h msg hcarries ((passes_congr hlog).mp hpasses)

/-- A leader and a peer that it can bring up to date. -/
structure Facing (l f : Raft) : Prop where
  leader : l.state = .leader
  equipped : l.Equipped
  drained : l.msgs = []
  indexed : Indexed l.log
  started : l.log ≠ []
  peer : f.id ∈ l.peers
  cursor : 0 < l.nextIndex.read f.id
  own : l.Catches l.log
  base : 0 < f.baseElectionTimeout
  silent : f.msgs = []
  term : f.currentTerm ≤ l.currentTerm
  catches : f.Catches l.log

theorem find_broadcast {p : String} {out : List Message} (hp : p ∈ l.peers)
    (hout : l.peers.mapM l.appendEntriesFor = some out) :
    ∃ m, out.find? (fun m => m.recipient = p) = some m ∧ l.appendEntriesFor p = some m := by
  generalize hpeers : l.peers = peers at hp hout
  clear hpeers
  induction peers generalizing out with
  | nil => cases hp
  | cons q rest ih =>
    rw [List.mapM_cons] at hout
    obtain ⟨m, hm, hout⟩ := Option.bind_eq_some_iff.mp hout
    obtain ⟨ms, hms, hout⟩ := Option.bind_eq_some_iff.mp hout
    cases hout
    obtain ⟨entries, hshape⟩ := appendEntriesFor_eq hm
    have hrecipient : m.recipient = q := by rw [hshape]
    by_cases heq : q = p
    · subst heq
      exact ⟨m, List.find?_cons_of_pos (by simpa using hrecipient), hm⟩
    · rw [List.find?_cons_of_neg (by simpa [hrecipient] using heq)]
      exact ih ((List.mem_cons.mp hp).resolve_left (Ne.symm heq)) hms

theorem following_base (r : Raft) (msg : Message) :
    (r.following msg).baseElectionTimeout = r.baseElectionTimeout ∧
      (r.following msg).id = r.id := by
  unfold following heeding
  split <;> split <;> exact ⟨rfl, rfl⟩

theorem exchange_eq {cast : Raft} {out : List Message} {request reply : Message}
    (hcast : l.broadcastHeartbeat = some cast) (hdrain : cast.messages = (out, l))
    (hfind : out.find? (fun m => m.recipient = f.id) = some request)
    (hstep : f.step (request.received f.id) = some f') (hreplies : f'.msgs = [reply])
    (hanswer : l.step (request.answered reply) = some l') :
    l.exchange f = some (l', { f' with msgs := [] }, reply.reject) := by
  have hsent : f'.messages = ([reply], { f' with msgs := [] }) := by rw [messages, hreplies]
  simp only [exchange, hcast, hdrain, hfind, hstep, hsent, hanswer, Option.bind_eq_bind,
    Option.bind_some, List.getLast?_singleton, Option.pure_def]

theorem exchanges_succ {l₁ f₁ : Raft} {k : Nat} {refused : Bool}
    (hmany : exchanges l f k = some (l₁, f₁)) (hone : l₁.exchange f₁ = some (l', f', refused)) :
    exchanges l f (k + 1) = some (l', f') := by
  simp only [exchanges, hmany, hone, Option.bind_eq_bind, Option.bind_some, Option.pure_def]

theorem step_response (htype : msg.type = .appendEntriesResp) (hterm : msg.term = l.currentTerm) :
    l.step msg = l.handleAppendEntriesResp msg := by
  unfold step observeTerm handle
  rw [if_neg (by omega), htype]
  rfl

namespace Facing

theorem answered (h : Facing l f) (hm : l.appendEntriesFor f.id = some msg) :
    ∃ f' reply, f.step (msg.received f.id) = some f' ∧ f'.msgs = [reply] ∧ f'.id = f.id ∧
      f'.baseElectionTimeout = f.baseElectionTimeout ∧ f'.currentTerm = l.currentTerm ∧
      reply.term = l.currentTerm ∧
      (reply.reject = true ∧ f'.log = f.log ∧ reply.index < msg.prevLogIndex ∨
        reply.reject = false ∧ f'.log = l.log ∧ reply.index = l.log.length) := by
  obtain ⟨htype, -, -, hterm, -, -, hcarries⟩ :=
    carries_appendEntriesFor h.indexed h.cursor hm
  have hreceived : (msg.received f.id).type = .appendEntries ∧
      (msg.received f.id).term = l.currentTerm ∧
      (msg.received f.id).prevLogIndex = msg.prevLogIndex ∧
      Carries (msg.received f.id) l.log := by
    rw [Message.received, if_pos htype]
    exact ⟨rfl, hterm, rfl, hcarries⟩
  generalize msg.received f.id = got at hreceived
  obtain ⟨hgot, hgotTerm, hprev, hgotCarries⟩ := hreceived
  have hfresh : f.currentTerm ≤ got.term := hgotTerm ▸ h.term
  obtain ⟨hlog, -, -, hmsgs⟩ := following_frame f got
  obtain ⟨hbase, hid⟩ := following_base f got
  have hnow : (f.following got).currentTerm = l.currentTerm :=
    (following_term hfresh).trans hgotTerm
  rw [h.silent] at hmsgs
  rw [step_appendEntries h.base hgot, if_neg (Nat.not_lt.mpr hfresh)]
  by_cases hpasses : (f.following got).passes got
  · have hloop := (h.catches.congr hlog) got hgotCarries hpasses
    rw [replicate_takes hpasses, hloop, Option.map_some, followCommit_eq]
    refine ⟨_, { (f.following got).refusal got with reject := false, index := lastIndexOf l.log },
      rfl, ?_, hid, hbase, hnow, hnow, .inr ⟨rfl, rfl, h.indexed.lastIndexOf⟩⟩
    simp only [send, hmsgs, List.nil_append]
  · obtain ⟨hint, hlt, hrefuses⟩ := replicate_fails hpasses
    rw [hrefuses]
    refine ⟨_, { (f.following got).refusal got with index := hint }, rfl, ?_, hid, hbase, hnow,
      hnow, .inl ⟨rfl, hlog, hprev ▸ hlt⟩⟩
    simp only [send, hmsgs, List.nil_append]

theorem refused (h : Facing l f) (htype : msg.type = .appendEntriesResp)
    (hsender : msg.sender = f.id) (hterm : msg.term = l.currentTerm)
    (hreject : msg.reject = true) (hindex : msg.index + 1 < l.nextIndex.read f.id) :
    ∃ nextIndex : GoMap String Nat, l.step msg = some { l with nextIndex } ∧
      nextIndex.table.isSome = true ∧ 0 < nextIndex.read f.id ∧
      nextIndex.read f.id < l.nextIndex.read f.id := by
  have hmade := (h.equipped.cursors h.leader).1
  rw [step_response htype hterm, handleAppendEntriesResp, if_neg (by simp [h.leader]),
    if_neg (by simp [hterm]), if_pos hreject, hsender]
  split
  next hpos =>
    obtain ⟨nextIndex, hwrite, hmade'⟩ := GoMap.write_of_made hmade f.id (msg.index + 1)
    rw [hwrite]
    refine ⟨nextIndex, rfl, hmade', ?_⟩
    rw [GoMap.read_write hwrite, if_pos rfl]
    omega
  next =>
    rw [if_pos (by omega)]
    obtain ⟨nextIndex, hwrite, hmade'⟩ :=
      GoMap.write_of_made hmade f.id (l.nextIndex.read f.id - 1)
    rw [hwrite]
    refine ⟨nextIndex, rfl, hmade', ?_⟩
    rw [GoMap.read_write hwrite, if_pos rfl]
    omega

theorem accepted (h : Facing l f) (htype : msg.type = .appendEntriesResp)
    (hsender : msg.sender = f.id) (hterm : msg.term = l.currentTerm)
    (hreject : msg.reject = false) (hindex : 0 < msg.index) :
    ∃ (matchIndex nextIndex : GoMap String Nat) (heartbeatAcked : Int) (commitIndex : Nat),
      l.step msg = some { l with matchIndex, nextIndex, heartbeatAcked, commitIndex } ∧
      matchIndex.table.isSome = true ∧ nextIndex.table.isSome = true ∧
      matchIndex.read f.id = msg.index ∧ nextIndex.read f.id = msg.index + 1 := by
  obtain ⟨hnext, hmatch⟩ := h.equipped.cursors h.leader
  obtain ⟨matchIndex, hwrite, hmade⟩ := GoMap.write_of_made hmatch f.id msg.index
  obtain ⟨nextIndex, hwrite', hmade'⟩ := GoMap.write_of_made hnext f.id (msg.index + 1)
  rw [step_response htype hterm, handleAppendEntriesResp, if_neg (by simp [h.leader]),
    if_neg (by simp [hterm]), if_neg (by simp [hreject]), if_pos hindex, hsender]
  simp only [hwrite, hwrite', Option.bind_eq_bind, Option.bind_some, Option.pure_def]
  rw [maybeAdvanceCommit_frame]
  refine ⟨matchIndex, nextIndex, _, _, rfl, hmade, hmade', ?_, ?_⟩
  · rw [GoMap.read_write hwrite, if_pos rfl]
  · rw [GoMap.read_write hwrite', if_pos rfl]

theorem delivered (h : Facing l f) :
    ∃ (f' : Raft) (answer : Message), (∀ l', l.step answer = some l' →
        l.exchange f = some (l', { f' with msgs := [] }, answer.reject)) ∧
      answer.type = .appendEntriesResp ∧ answer.sender = f.id ∧ answer.term = l.currentTerm ∧
      f'.id = f.id ∧ f'.baseElectionTimeout = f.baseElectionTimeout ∧
      f'.currentTerm = l.currentTerm ∧
      (answer.reject = true ∧ f'.log = f.log ∧ answer.index + 1 < l.nextIndex.read f.id ∨
        answer.reject = false ∧ f'.log = l.log ∧ answer.index = l.log.length) := by
  obtain ⟨cast, hcast, -⟩ := broadcastHeartbeat_returns h.indexed h.equipped
  obtain ⟨out, hout, rfl⟩ := broadcastHeartbeat_eq hcast
  obtain ⟨request, hfind, hrequest⟩ := find_broadcast h.peer hout
  obtain ⟨htype, -, hrecipient, -⟩ := carries_appendEntriesFor h.indexed h.cursor hrequest
  obtain ⟨f', reply, hstep, hreplies, hid, hbase, hnow, hterm, hreply⟩ := h.answered hrequest
  have hprev : request.prevLogIndex = l.nextIndex.read f.id - 1 := by
    obtain ⟨entries, rfl⟩ := appendEntriesFor_eq hrequest
    exact pred64_of_pos h.cursor
  -- Draining the outbox of the leader gives back the leader.
  have hdrain : ({ l with msgs := l.msgs ++ out } : Raft).messages = (out, l) := by
    rw [messages, h.drained]
    refine Prod.ext rfl ?_
    change ({ l with msgs := [] } : Raft) = l
    rw [← h.drained]
  have hanswered : (request.answered reply).type = .appendEntriesResp ∧
      (request.answered reply).sender = f.id ∧ (request.answered reply).term = reply.term ∧
      (request.answered reply).reject = reply.reject ∧
      (request.answered reply).index = reply.index := by
    rw [Message.answered, if_pos htype]
    exact ⟨rfl, hrecipient, rfl, rfl, rfl⟩
  obtain ⟨hkind, hsender, hsame, hreject, hindex⟩ := hanswered
  refine ⟨f', request.answered reply, fun l' hl' => ?_, hkind, hsender, hsame.trans hterm, hid,
    hbase, hnow, ?_⟩
  · rw [hreject]
    exact exchange_eq hcast hdrain hfind hstep hreplies hl'
  · rw [hreject, hindex]
    refine hreply.imp_left fun hrefused => ⟨hrefused.1, hrefused.2.1, ?_⟩
    have hlt := hrefused.2.2
    omega

theorem renew (h : Facing l f) {matchIndex nextIndex : GoMap String Nat} {heartbeatAcked : Int}
    {commitIndex : Nat} (hmatch : matchIndex.table.isSome = true)
    (hnext : nextIndex.table.isSome = true) (hcursor : 0 < nextIndex.read f.id)
    (hid : f'.id = f.id) (hbase : f'.baseElectionTimeout = f.baseElectionTimeout)
    (hterm : f'.currentTerm = l.currentTerm) (hcatches : f'.Catches l.log) :
    Facing { l with matchIndex, nextIndex, heartbeatAcked, commitIndex }
      { f' with msgs := [] } where
  leader := h.leader
  equipped := ⟨h.equipped.base, h.equipped.votes, fun _ => ⟨hnext, hmatch⟩⟩
  drained := h.drained
  indexed := h.indexed
  started := h.started
  peer := hid ▸ h.peer
  cursor := hid ▸ hcursor
  own := h.own.congr rfl
  base := hbase ▸ h.base
  silent := rfl
  term := hterm.le
  catches := hcatches.congr rfl

theorem exchanged (h : Facing l f) :
    ∃ l' f' refused, l.exchange f = some (l', f', refused) ∧ Facing l' f' ∧ f'.id = f.id ∧
      l'.log = l.log ∧
      (refused = true → l'.nextIndex.read f.id < l.nextIndex.read f.id) ∧
      (refused = false → f'.log = l.log ∧ l'.matchIndex.read f.id = l.log.length ∧
        l'.nextIndex.read f.id = l.log.length + 1) := by
  obtain ⟨f', answer, hexchange, htype, hsender, hterm, hid, hbase, hnow,
    ⟨hrefused, hlog, hindex⟩ | ⟨htaken, hlog, hindex⟩⟩ := h.delivered
  · obtain ⟨nextIndex, hl', hmade, hpos, hdown⟩ :=
      h.refused htype hsender hterm hrefused hindex
    refine ⟨_, _, _, hexchange _ hl', ?_, hid, rfl, fun _ => hdown, fun hno => ?_⟩
    · exact h.renew (h.equipped.cursors h.leader).2 hmade hpos hid hbase hnow
        (h.catches.congr hlog)
    · rw [hrefused] at hno
      cases hno
  · obtain ⟨matchIndex, nextIndex, heartbeatAcked, commitIndex, hl', hmade, hmade', hmatch,
      hnext⟩ := h.accepted htype hsender hterm htaken
        (hindex ▸ List.length_pos_of_ne_nil h.started)
    rw [hindex] at hmatch hnext
    refine ⟨_, _, _, hexchange _ hl', ?_, hid, rfl, fun hno => ?_, fun _ => ⟨hlog, hmatch, hnext⟩⟩
    · exact h.renew hmade hmade' (hnext ▸ Nat.succ_pos _) hid hbase hnow (h.own.congr hlog)
    · rw [htaken] at hno
      cases hno

theorem exchanged_many (h : Facing l f) (k : Nat) :
    ∃ l' f', exchanges l f k = some (l', f') ∧ Facing l' f' ∧ f'.id = f.id ∧
      l'.log = l.log := by
  induction k with
  | zero => exact ⟨l, f, rfl, h, rfl, rfl⟩
  | succ k ih =>
    obtain ⟨l₁, f₁, hmany, hfacing, hid, hlog⟩ := ih
    obtain ⟨l', f', refused, hone, hfacing', hid', hlog', -⟩ := hfacing.exchanged
    exact ⟨l', f', exchanges_succ hmany hone, hfacing', hid'.trans hid, hlog'.trans hlog⟩

theorem refused_many (h : Facing l f) (k : Nat)
    (hrefused : ∀ j < k, ∀ l₁ f₁ l₂ f₂ refused, exchanges l f j = some (l₁, f₁) →
      l₁.exchange f₁ = some (l₂, f₂, refused) → refused = true) :
    ∃ l' f', exchanges l f k = some (l', f') ∧
      l'.nextIndex.read f.id + k ≤ l.nextIndex.read f.id := by
  induction k with
  | zero => exact ⟨l, f, rfl, le_rfl⟩
  | succ k ih =>
    obtain ⟨l₁, f₁, hmany, hdown⟩ := ih fun j hj => hrefused j (Nat.lt_succ_of_lt hj)
    obtain ⟨l₁', f₁', hmany', hfacing, hid, -⟩ := h.exchanged_many k
    cases hmany.symm.trans hmany'
    obtain ⟨l', f', refused, hone, -, -, -, hless, -⟩ := hfacing.exchanged
    refine ⟨l', f', exchanges_succ hmany hone, ?_⟩
    have hlast := hless (hrefused k (Nat.lt_succ_self k) _ _ _ _ _ hmany hone)
    rw [hid] at hlast
    omega

theorem converges (h : Facing l f) :
    ∃ k < l.nextIndex.read f.id, ∃ l₁ f₁ l' f', exchanges l f k = some (l₁, f₁) ∧
      l₁.exchange f₁ = some (l', f', false) := by
  by_contra hno
  push Not at hno
  obtain ⟨l', f', hmany, hdown⟩ := h.refused_many (l.nextIndex.read f.id) (by
    intro j hj l₁ f₁ l₂ f₂ refused hmany hone
    cases refused with
    | true => rfl
    | false => exact absurd hone (hno j hj l₁ f₁ l₂ f₂ hmany))
  obtain ⟨l'', f'', hmany', hfacing, hid, -⟩ := h.exchanged_many (l.nextIndex.read f.id)
  cases hmany.symm.trans hmany'
  have hpos := hfacing.cursor
  rw [hid] at hpos
  omega

end Facing
end Raft
end Phalanx
