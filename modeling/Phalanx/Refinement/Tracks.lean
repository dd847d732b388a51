import Phalanx.Consensus.Run
import Phalanx.Raft.Log

/-! How a Raft instance and the messages it sends stand for a state of the
protocol. `view` forgets everything but what the protocol speaks of; `Genuine`
says of a message what must have happened for it to be sent; `Tracks` ties one
instance to the protocol, with what its vote and replication tables mean. -/
namespace Phalanx

open Consensus Go

def NodeState.role : NodeState → Role
  | .follower => .follower
  | .candidate => .candidate
  | .leader => .leader

@[simp] theorem NodeState.role_follower : NodeState.follower.role = .follower := rfl

@[simp] theorem NodeState.role_candidate : NodeState.candidate.role = .candidate := rfl

@[simp] theorem NodeState.role_leader : NodeState.leader.role = .leader := rfl

theorem NodeState.role_injective {a b : NodeState} (h : a.role = b.role) : a = b := by
  cases a <;> cases b <;> first | rfl | cases h

def Raft.view (r : Raft) : Peer String LogEntry where
  term := r.currentTerm
  vote := if r.votedFor = None then none else some r.votedFor
  role := r.state.role
  active := r.leaderActive
  log := r.log
  commit := r.commitIndex

abbrev Protocol := State String LogEntry

variable {members : Finset String} {s s' : Protocol} {i : String} {r r' : Raft}

/-- An AppendEntries and the leader's log it was cut from. The first kind comes from
a cursor past the end of the log; no follower's log passes its check. -/
def Carries (m : Message) (log : List LogEntry) : Prop :=
  (0 < m.prevLogIndex ∧ m.prevLogTerm = 0) ∨
    (m.prevLogIndex ≤ log.length ∧ m.entries = log.drop m.prevLogIndex ∧
      (m.prevLogIndex = 0 ∨
        ∃ y, log[m.prevLogIndex - 1]? = some y ∧ y.term = m.prevLogTerm))

theorem carries_log {m : Message} {k : Nat} (hprev : m.prevLogIndex = k)
    (hterm : m.prevLogTerm = r.logTerm k) (hentries : m.entries = r.log.drop k) :
    Carries m r.log := by
  unfold Carries
  rw [hprev, hterm, hentries]
  by_cases hlen : k ≤ r.log.length
  · refine .inr ⟨hlen, rfl, ?_⟩
    by_cases hzero : k = 0
    · exact .inl hzero
    · obtain ⟨e, he, hsame⟩ := Raft.exists_of_logTerm (Nat.pos_of_ne_zero hzero) hlen
      exact .inr ⟨e, he, hsame.symm⟩
  · obtain ⟨j, rfl⟩ : ∃ j, k = j + 1 := ⟨k - 1, by omega⟩
    refine .inl ⟨Nat.succ_pos j, ?_⟩
    rw [Raft.logTerm_succ, List.getElem?_eq_none (by omega)]
    rfl

theorem Carries.meets {m : Message} {held : List LogEntry} (h : Carries m held)
    (hindexed : Indexed r.log) (hpos : ∀ e ∈ r.log, 0 < e.term) (hpasses : r.passes m) :
    m.prevLogIndex ≤ r.log.length ∧ m.prevLogIndex ≤ held.length ∧
      m.entries = held.drop m.prevLogIndex ∧
      (m.prevLogIndex = 0 ∨ ∃ x y, r.log[m.prevLogIndex - 1]? = some x ∧
        held[m.prevLogIndex - 1]? = some y ∧ x.term = y.term) := by
  have hpresent : 0 < m.prevLogIndex → m.prevLogIndex ≤ r.log.length ∧
      ∃ x, r.log[m.prevLogIndex - 1]? = some x ∧ x.term = m.prevLogTerm := by
    intro hnonzero
    rcases hpasses with hzero | ⟨hle, hprevTerm⟩
    · omega
    · rw [Raft.lastLogIndex_eq hindexed] at hle
      obtain ⟨x, hx, hxterm⟩ := Raft.exists_of_logTerm hnonzero hle
      exact ⟨hle, x, hx, hxterm.symm.trans hprevTerm⟩
  rcases h with ⟨hnonzero, hzero⟩ | ⟨hheld, hentries, hsent⟩
  · -- The log would need an entry of term zero.
    exfalso
    obtain ⟨-, x, hx, hxterm⟩ := hpresent hnonzero
    have hterm := hpos x (List.mem_of_getElem? hx)
    omega
  · rcases Nat.eq_zero_or_pos m.prevLogIndex with hzero | hnonzero
    · exact ⟨by omega, hheld, hentries, .inl hzero⟩
    · obtain ⟨hle, x, hx, hxterm⟩ := hpresent hnonzero
      obtain ⟨y, hy, hyterm⟩ := hsent.resolve_left (Nat.ne_of_gt hnonzero)
      exact ⟨hle, hheld, hentries, .inr ⟨x, y, hx, hy, hxterm.trans hyterm.symm⟩⟩

theorem carries_appendEntriesFor (hindexed : Indexed r.log) {p : String} {m : Message}
    (hnext : 0 < r.nextIndex.read p) (h : r.appendEntriesFor p = some m) :
    m.type = .appendEntries ∧ m.sender = r.id ∧ m.recipient = p ∧ m.term = r.currentTerm ∧
      m.leaderCommit = r.commitIndex ∧ m.isPreVote = false ∧ Carries m r.log := by
  have hlast := Raft.lastLogIndex_eq hindexed
  have hprev := pred64_of_pos hnext
  obtain ⟨k, hk⟩ : ∃ k, r.nextIndex.read p = k + 1 := ⟨r.nextIndex.read p - 1, by omega⟩
  rw [hk, Nat.add_sub_cancel] at hprev
  unfold Raft.appendEntriesFor at h
  simp only [hk, hprev, hlast] at h
  split at h
  next hle =>
    rw [if_pos (by simp only [Raft.slots, List.length_cons]; omega)] at h
    cases h
    exact ⟨rfl, rfl, rfl, rfl, rfl, rfl, carries_log rfl rfl rfl⟩
  next hgt =>
    cases h
    have hnone : r.log.drop k = [] := List.drop_eq_nil_of_le (by omega)
    exact ⟨rfl, rfl, rfl, rfl, rfl, rfl, carries_log rfl rfl hnone.symm⟩

def Genuine (s : Protocol) (m : Message) : Prop :=
  m.isPreVote = false ∧
  match m.type with
  | .requestVote => ∃ l, ⟨m.sender, m.term, l⟩ ∈ s.requests ∧ m.lastLogIndex = l.length ∧
      m.lastLogTerm = lastKey LogEntry.term l
  | .requestVoteResp => m.reject = false → ∃ l, ⟨m.sender, m.recipient, m.term, l⟩ ∈ s.grants
  | .appendEntries => ∃ a ∈ s.appends, a.leader = m.sender ∧ a.term = m.term ∧
      a.commit = m.leaderCommit ∧ Indexed a.log ∧ Carries m a.log
  | .appendEntriesResp => m.reject = false → 0 < m.index → ⟨m.sender, m.term, m.index⟩ ∈ s.acks
  | .unknown => False

/-- A message that node `i` may be stepped with. -/
def Deliverable (members : Finset String) (s : Protocol) (i : String) (m : Message) : Prop :=
  Genuine s m ∧ m.recipient = i ∧ m.sender ∈ members ∧ m.sender ≠ i

def Outgoing (members : Finset String) (s : Protocol) (i : String) (m : Message) : Prop :=
  Genuine s m ∧ m.sender = i ∧ m.recipient ∈ members ∧ m.recipient ≠ i

def Standing (members : Finset String) (s : Protocol) (i : String) (r : Raft) : Prop :=
  i ∈ r.votes.trueKeys ∧ ∀ q ∈ r.votes.trueKeys, q ∈ members ∧
    (q = i ∨ ∃ l, ⟨q, i, r.currentTerm, l⟩ ∈ s.grants)

structure Leading (s : Protocol) (i : String) (r : Raft) : Prop where
  cursor : ∀ p ∈ r.peers, 0 < r.nextIndex.read p
  matched : ∀ p ∈ r.peers, 0 < r.matchIndex.read p →
    ⟨p, r.currentTerm, r.matchIndex.read p⟩ ∈ s.acks
  own : ⟨i, r.currentTerm, r.log.length⟩ ∈ s.acks

structure Tracks (members : Finset String) (s : Protocol) (i : String) (r : Raft) : Prop where
  peer : s.peer i = r.view
  id : r.id = i
  nodup : r.peers.Nodup
  peers : ∀ p, p ∈ r.peers ↔ p ∈ members ∧ p ≠ i
  indexed : Indexed r.log
  standing : r.state = .candidate → Standing members s i r
  leading : r.state = .leader → Leading s i r
  outbox : ∀ m ∈ r.msgs, Outgoing members s i m

theorem Genuine.mono (hgrows : Grows s s') {m : Message} (h : Genuine s m) : Genuine s' m := by
  refine ⟨h.1, ?_⟩
  have hm := h.2
  cases htype : m.type with
  | requestVote =>
    simp only [htype] at hm ⊢
    obtain ⟨l, hl, hrest⟩ := hm
    exact ⟨l, hgrows.requests hl, hrest⟩
  | requestVoteResp =>
    simp only [htype] at hm ⊢
    intro hreject
    obtain ⟨l, hl⟩ := hm hreject
    exact ⟨l, hgrows.grants hl⟩
  | appendEntries =>
    simp only [htype] at hm ⊢
    obtain ⟨a, ha, hrest⟩ := hm
    exact ⟨a, hgrows.appends ha, hrest⟩
  | appendEntriesResp =>
    simp only [htype] at hm ⊢
    exact fun hreject hpos => hgrows.acks (hm hreject hpos)
  | unknown =>
    simp only [htype] at hm

theorem Deliverable.mono (hgrows : Grows s s') {m : Message} (h : Deliverable members s i m) :
    Deliverable members s' i m :=
  ⟨h.1.mono hgrows, h.2⟩

theorem Outgoing.mono (hgrows : Grows s s') {m : Message} (h : Outgoing members s i m) :
    Outgoing members s' i m :=
  ⟨h.1.mono hgrows, h.2⟩

theorem Standing.mono (hgrows : Grows s s') (hvotes : r'.votes = r.votes)
    (hterm : r'.currentTerm = r.currentTerm) (h : Standing members s i r) :
    Standing members s' i r' := by
  unfold Standing
  rw [hvotes, hterm]
  refine ⟨h.1, fun q hq => ⟨(h.2 q hq).1, (h.2 q hq).2.imp id ?_⟩⟩
  rintro ⟨l, hl⟩
  exact ⟨l, hgrows.grants hl⟩

theorem Leading.mono (hgrows : Grows s s') (hpeers : r'.peers = r.peers)
    (hnext : r'.nextIndex = r.nextIndex) (hmatch : r'.matchIndex = r.matchIndex)
    (hterm : r'.currentTerm = r.currentTerm) (hlog : r'.log.length = r.log.length)
    (h : Leading s i r) : Leading s' i r' where
  cursor := by
    rw [hpeers, hnext]
    exact h.cursor
  matched := by
    rw [hpeers, hmatch, hterm]
    exact fun p hp hpos => hgrows.acks (h.matched p hp hpos)
  own := by
    rw [hterm, hlog]
    exact hgrows.acks h.own

namespace Tracks

theorem self_not_mem (h : Tracks members s i r) : r.id ∉ r.peers := by
  rw [h.id, h.peers]
  exact fun hmem => hmem.2 rfl

theorem term (h : Tracks members s i r) : (s.peer i).term = r.currentTerm := by
  rw [h.peer]
  rfl

theorem log (h : Tracks members s i r) : (s.peer i).log = r.log := by
  rw [h.peer]
  rfl

theorem role (h : Tracks members s i r) : (s.peer i).role = r.state.role := by
  rw [h.peer]
  rfl

theorem active (h : Tracks members s i r) : (s.peer i).active = r.leaderActive := by
  rw [h.peer]
  rfl

theorem commit (h : Tracks members s i r) : (s.peer i).commit = r.commitIndex := by
  rw [h.peer]
  rfl

theorem vote (h : Tracks members s i r) :
    (s.peer i).vote = if r.votedFor = None then none else some r.votedFor := by
  rw [h.peer]
  rfl

theorem mono (hgrows : Grows s s') (hpeer : s'.peer i = s.peer i) (h : Tracks members s i r) :
    Tracks members s' i r where
  peer := hpeer.trans h.peer
  id := h.id
  nodup := h.nodup
  peers := h.peers
  indexed := h.indexed
  standing := fun hstate => (h.standing hstate).mono hgrows rfl rfl
  leading := fun hstate => (h.leading hstate).mono hgrows rfl rfl rfl rfl rfl
  outbox := fun m hm => (h.outbox m hm).mono hgrows

theorem update (h : Tracks members s i r) (hgrows : Grows s s') (hpeer : s'.peer i = r'.view)
    (hid : r'.id = r.id) (hpeers : r'.peers = r.peers) (hindexed : Indexed r'.log)
    (hstanding : r'.state = .candidate → Standing members s' i r')
    (hleading : r'.state = .leader → Leading s' i r')
    (houtbox : ∀ m ∈ r'.msgs, m ∈ r.msgs ∨ Outgoing members s' i m) :
    Tracks members s' i r' where
  peer := hpeer
  id := hid.trans h.id
  nodup := by
    rw [hpeers]
    exact h.nodup
  peers := by
    rw [hpeers]
    exact h.peers
  indexed := hindexed
  standing := hstanding
  leading := hleading
  outbox := fun m hm => (houtbox m hm).elim (fun hold => (h.outbox m hold).mono hgrows)
    fun hnew => hnew

theorem still (h : Tracks members s i r) (hview : r'.view = r.view) (hid : r'.id = r.id)
    (hpeers : r'.peers = r.peers) (hvotes : r'.votes = r.votes)
    (hnext : r'.nextIndex = r.nextIndex) (hmatch : r'.matchIndex = r.matchIndex)
    (houtbox : ∀ m ∈ r'.msgs, m ∈ r.msgs ∨ Outgoing members s i m) :
    Tracks members s i r' := by
  have hterm : r'.currentTerm = r.currentTerm := congrArg Peer.term hview
  have hlog : r'.log = r.log := congrArg Peer.log hview
  have hstate : r'.state = r.state := NodeState.role_injective (congrArg Peer.role hview)
  refine h.update (.refl s) (h.peer.trans hview.symm) hid hpeers ?_ ?_ ?_ houtbox
  · rw [hlog]
    exact h.indexed
  · rw [hstate]
    exact fun hs => (h.standing hs).mono (.refl s) hvotes hterm
  · rw [hstate]
    exact fun hs => (h.leading hs).mono (.refl s) hpeers hnext hmatch hterm (by rw [hlog])

theorem card (h : Tracks members s i r) (hi : i ∈ members) :
    members.card = r.peers.length + 1 := by
  have herase : members.erase i = r.peers.toFinset := by
    ext p
    rw [Finset.mem_erase, List.mem_toFinset, h.peers, and_comm]
  have hcard := Finset.card_erase_add_one hi
  rw [herase, List.toFinset_card_of_nodup h.nodup] at hcard
  exact hcard.symm

theorem majority (h : Tracks members s i r) (hi : i ∈ members) {S : Finset String}
    (hsub : S ⊆ members) (hcard : r.quorumSize ≤ S.card) : Majority members S := by
  refine ⟨hsub, ?_⟩
  rw [h.card hi]
  unfold Raft.quorumSize Raft.clusterSize at hcard
  omega

end Tracks
end Phalanx
