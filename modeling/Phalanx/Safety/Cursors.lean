import Phalanx.Safety.Hints
import Phalanx.Safety.Joins
import Phalanx.Safety.Reigns

/-! The range of `nextIndex`, in runs with at most one leader a term. Crashes are allowed:
what a node had let others see of a term it led, it has saved the term of. What breaks the
range is only the map default that a leader reads for a peer it learns of while in office. -/
namespace Phalanx

open Consensus Go Raft

namespace Cluster

variable {w : World} {c c' : Cluster} {i : String} {stimulus : Stimulus} {input : Input}
variable {via : Option (Nat × Packet)} {n n' : Node} {reigns : List Reign}

/-- A discovery event that finds a leader names nobody new. -/
def JoinsKnown (c : Cluster) : Event → Prop
  | .handle i (.join nodeID _) | .crash i (some (.join nodeID _)) => ∀ n ∈ c.node i,
      n.raft.state = .leader → nodeID = n.raft.id ∨ nodeID ∈ n.raft.peers
  | _ => True

instance (c : Cluster) : (e : Event) → Decidable (c.JoinsKnown e)
  | .handle i (.join _ _) => inferInstanceAs (Decidable (∀ n ∈ c.node i, _))
  | .crash i (some (.join _ _)) => inferInstanceAs (Decidable (∀ n ∈ c.node i, _))
  | .handle _ .tick => inferInstanceAs (Decidable True)
  | .handle _ (.propose _) => inferInstanceAs (Decidable True)
  | .handle _ (.packet _) => inferInstanceAs (Decidable True)
  | .crash _ none => inferInstanceAs (Decidable True)
  | .crash _ (some .tick) => inferInstanceAs (Decidable True)
  | .crash _ (some (.propose _)) => inferInstanceAs (Decidable True)
  | .crash _ (some (.packet _)) => inferInstanceAs (Decidable True)
  | .dial _ => inferInstanceAs (Decidable True)
  | .answer _ _ _ => inferInstanceAs (Decidable True)

def Vouched (c : Cluster) (origin : String) (m : Message) : Prop :=
  m.type = .appendEntries → sentinel ∉ m.entries ∧ ∃ r, (origin, r) ∈ c.hist ∧
    r.state = .leader ∧ r.currentTerm = m.term ∧ m.prevLogIndex ≤ r.lastLogIndex

structure Ranged (c : Cluster) (reigns : List Reign) : Prop where
  won : ∀ g ∈ reigns, c.Won g.leader g.term
  node : ∀ i n, c.node i = some n → n.raft.Bounded reigns
  packet : ∀ pk ∈ c.net, pk.msg.Bounded reigns ∧ c.Vouched pk.origin pk.msg
  seen : ∀ i r, (i, r) ∈ c.hist → r.Cursored

theorem Vouched.mono {origin : String} {m : Message} (h : c.Vouched origin m)
    (hextends : c.Extends c') : c'.Vouched origin m := by
  intro htype
  obtain ⟨hentries, r, hr, hrest⟩ := h htype
  exact ⟨hentries, r, hextends.mem_hist hr, hrest⟩

theorem stepped_bounded (h : c.Ranged reigns) (hinput : c.input i stimulus = some (input, via))
    {id : String} {m : Message} (hm : input.stepped id = some m) : m.Bounded reigns := by
  obtain ⟨k, pk, -, -, hpk, -, ⟨-, -, rfl⟩ | ⟨-, -, rfl⟩⟩ := stepped_packet hinput hm
  · have hbounded := (h.packet pk (List.mem_of_getElem? hpk)).1
    unfold Message.received
    split
    next htype => exact ⟨fun _ => hbounded.issued htype, nofun⟩
    next => exact ⟨nofun, nofun⟩
  · exact (h.packet pk (List.mem_of_getElem? hpk)).1

theorem acted_bounded (horderly : (orderly w).Holds c) (htidy : tidy.Holds c)
    (h : c.Ranged reigns) (hone : c.OneLeader) (hterms : c.TermsBelow) (hn : c.node i = some n)
    (hknown : ∀ a b, stimulus = .join a b → n.raft.state = .leader →
      a = n.raft.id ∨ a ∈ n.raft.peers)
    (hinput : c.input i stimulus = some (input, via)) (hact : n.act w.env input = some n') :
    n'.raft.Bounded (reigns ++ n'.raft.reign) := by
  have hhoused := horderly.node i n hn
  have hbounded := h.node i n hn
  obtain ⟨hordered, hequipped⟩ := htidy.node i n hn
  obtain ⟨r, lastApplied, hperforms, hraft, -⟩ := Node.act_performs hact
  have hr : r.Bounded (reigns ++ r.reign) := by
    cases hperforms with
    | tick htick => exact hbounded.tick hordered.tidy.indexed (hterms _ hhoused.now) htick
    | propose hpropose => exact hbounded.propose hordered.tidy.indexed hpropose
    | step hm hstep =>
      refine hbounded.step hordered hequipped.base (stepped_sourced htidy hinput hm)
        (stepped_bounded h hinput hm) (stepped_real horderly hinput hm) ?_ hstep
      intro hlead g hg hterm
      obtain ⟨r₀, hr₀, hlead₀, hterm₀⟩ := h.won g hg
      rw [hhoused.raftId]
      exact hone _ _ _ _ hr₀ hhoused.now hlead₀ hlead (hterm₀.trans hterm)
    | @join nodeID raftAddr =>
      refine (hbounded.addPeer (hknown nodeID raftAddr ?_)).settle
      rcases input_cases hinput with ⟨-, -, hno⟩ | ⟨_, -, -, hno⟩ | ⟨a, b, -, hjoin, hyes⟩ |
        ⟨k, pk, -, -, -, -, hno⟩
      · cases hno
      · cases hno
      · cases hyes
        exact hjoin
      · split at hno <;> cases hno
  rw [hraft]
  exact ⟨hr.own, hr.entries, hr.office, hr.cursors⟩

theorem acted_index (horderly : (orderly w).Holds c) (htidy : tidy.Holds c)
    (h : c.Ranged reigns) (hn : c.node i = some n)
    (hinput : c.input i stimulus = some (input, via)) (hact : n.act w.env input = some n')
    {m : Message} (hm : m ∈ n'.raft.msgs) (htype : m.type = .appendEntriesResp)
    (hpos : 0 < m.index) : Reached reigns m.term m.index := by
  have hhoused := horderly.node i n hn
  obtain ⟨hordered, hequipped⟩ := htidy.node i n hn
  obtain ⟨msg, r, lastApplied, hin, hmsg, hstep, hraft⟩ :=
    acted_response horderly hn hinput hact hm htype
  obtain ⟨-, reply, hmsgs, hindex⟩ := (h.node i n hn).appendEntries hordered hequipped.base
    (stepped_sourced htidy hinput hin) (stepped_bounded h hinput hin) hmsg hstep
  rw [hraft] at hm
  change m ∈ r.msgs at hm
  rw [hmsgs, hhoused.drained] at hm
  cases List.mem_singleton.mp hm
  exact hindex hpos

theorem bounded_emitted (horderly : (orderly w).Holds c) (htidy : tidy.Holds c)
    (h : c.Ranged reigns) (hn : c.node i = some n)
    (hinput : c.input i stimulus = some (input, via)) (hact : n.act w.env input = some n')
    (hbounded : n'.raft.Bounded (reigns ++ n'.raft.reign)) (hordered : n'.raft.Ordered)
    {pk : Packet} (hpk : pk ∈ emitted i n'.raft.msgs via) :
    pk.msg.Bounded (reigns ++ n'.raft.reign) ∧
      (c.completed i n' via).Vouched pk.origin pk.msg := by
  have hnow : (i, { n'.raft with msgs := [] }) ∈ (c.completed i n' via).hist :=
    List.mem_append_right _ (List.mem_singleton.mpr rfl)
  rcases mem_emitted hpk with ⟨m, hm, hrequest, rfl⟩ | ⟨k, req, m, -, -, hm, hreply, rfl⟩
  · have hposted := Node.act_posts (horderly.node i n hn).drained hact m hm
    by_cases htype : m.type = .appendEntries
    · obtain ⟨hlead, -, peer, hpeer, hfor⟩ := hposted.broadcast htype
      obtain ⟨hm', hprev, hentries⟩ := hbounded.issues hordered hlead hpeer hfor
      exact ⟨hm', fun _ => ⟨hentries, _, hnow, hlead, hposted.term.symm, hprev⟩⟩
    · refine ⟨⟨fun hno => absurd hno htype, fun hno => ?_⟩, fun hno => absurd hno htype⟩
      rw [not_isRequest_of_type (.inr hno)] at hrequest
      cases hrequest
  · obtain ⟨-, htypes⟩ := of_decide_eq_true hreply
    unfold Message.answered
    split
    next htype =>
      obtain ⟨-, hresp⟩ := htypes.resolve_right fun hno => hno.1 htype
      refine ⟨⟨nofun, fun _ hpos => ?_⟩, nofun⟩
      exact (acted_index horderly htidy h hn hinput hact hm hresp hpos).mono
        (List.subset_append_left _ _)
    next => exact ⟨⟨nofun, nofun⟩, nofun⟩

theorem bounded_boot {store : Store} (hlog : store.log = [])
    (hbefore : ∀ g ∈ reigns, g.leader = i → g.term ≤ store.term)
    (hboot : w.boot i store = some n) : n.raft.Bounded reigns := by
  obtain ⟨peerAddrs, rfl⟩ := World.boot_eq hboot
  refine ⟨fun g hg hself => ⟨hbefore g hg hself, fun _ => ⟨nofun, nofun⟩⟩, ?_, nofun, nofun⟩
  change ∀ e ∈ store.log, _
  rw [hlog]
  simp

theorem Ranged.next {more : List Reign} (h : c.Ranged reigns) (hextends : c.Extends c')
    (hwon : ∀ g ∈ more, c'.Won g.leader g.term)
    (hnode : ∀ j m, c'.node j = some m → m.raft.Bounded (reigns ++ more))
    (hpacket : ∀ pk ∈ c'.net, pk ∈ c.net ∨
      pk.msg.Bounded (reigns ++ more) ∧ c'.Vouched pk.origin pk.msg)
    (hseen : ∀ j r, (j, r) ∈ c'.hist → (j, r) ∈ c.hist ∨ r.Cursored) :
    c'.Ranged (reigns ++ more) where
  won := by
    intro g hg
    rcases List.mem_append.mp hg with hold | hnew
    · exact (h.won g hold).mono hextends
    · exact hwon g hnew
  node := hnode
  packet := by
    intro pk hpk
    rcases hpacket pk hpk with hold | hnew
    · obtain ⟨hbounded, hvouched⟩ := h.packet pk hold
      exact ⟨hbounded.mono (List.subset_append_left _ _), hvouched.mono hextends⟩
    · exact hnew
  seen := by
    intro j r hr
    rcases hseen j r hr with hold | hnew
    · exact h.seen j r hold
    · exact hnew

theorem Ranged.completed (horderly : (orderly w).Holds c) (htidy : tidy.Holds c)
    (h : c.Ranged reigns) (hn : c.node i = some n)
    (hinput : c.input i stimulus = some (input, via)) (hact : n.act w.env input = some n')
    (hbounded : n'.raft.Bounded (reigns ++ n'.raft.reign)) (hordered : n'.raft.Ordered) :
    (c.completed i n' via).Ranged (reigns ++ n'.raft.reign) := by
  obtain ⟨-, hid, -⟩ := acted_sends horderly hn hinput hact
  refine h.next (extends_completed c i n' via) ?_ ?_ ?_ ?_
  · intro g hg
    obtain ⟨hlead, rfl⟩ := mem_reign hg
    refine ⟨{ n'.raft with msgs := [] }, ?_, hlead, rfl⟩
    rw [hid]
    exact List.mem_append_right _ (List.mem_singleton.mpr rfl)
  · intro j m hm
    by_cases hj : j = i
    · subst hj
      have heq : (n'.release true).1 = m := by
        simpa [Cluster.completed, setNode] using hm
      subst heq
      exact ⟨hbounded.own, hbounded.entries, hbounded.office, hbounded.cursors⟩
    · have hold : c.node j = some m := by
        simpa [Cluster.completed, setNode, Function.update_of_ne hj] using hm
      refine (h.node j m hold).foreign fun g hg => ?_
      obtain ⟨-, rfl⟩ := mem_reign hg
      rw [hid, (horderly.node j m hold).raftId]
      exact Ne.symm hj
  · intro pk hpk
    rcases List.mem_append.mp hpk with hold | hnew
    · exact .inl hold
    · exact .inr (bounded_emitted horderly htidy h hn hinput hact hbounded hordered hnew)
  · intro j r hr
    rcases List.mem_append.mp hr with hold | hnew
    · exact .inl hold
    · cases List.mem_singleton.mp hnew
      exact .inr hbounded.cursors

theorem Ranged.setNode (h : c.Ranged reigns) {store : Store} (hlog : store.log = [])
    (hbefore : ∀ g ∈ reigns, g.leader = i → g.term ≤ store.term)
    (hboot : w.boot i store = some n) : (c.setNode i n).Ranged reigns := by
  have hbounded := bounded_boot hlog hbefore hboot
  rw [← List.append_nil reigns]
  refine h.next (extends_setNode c i n) nofun ?_ (fun pk hpk => .inl hpk) ?_
  · intro j m hm
    rw [List.append_nil]
    by_cases hj : j = i
    · subst hj
      have heq : n = m := by simpa [Cluster.setNode] using hm
      exact heq ▸ hbounded
    · have hold : c.node j = some m := by
        simpa [Cluster.setNode, Function.update_of_ne hj] using hm
      exact h.node j m hold
  · intro j r hr
    rcases List.mem_append.mp hr with hold | hnew
    · exact .inl hold
    · cases List.mem_singleton.mp hnew
      exact .inr hbounded.cursors

theorem Ranged.recorded (h : c.Ranged reigns) (hcursors : n.raft.Cursored) :
    (c.recorded i n).Ranged reigns where
  won := fun g hg => (h.won g hg).mono (extends_recorded c i n)
  node := h.node
  packet := fun pk hpk => ⟨(h.packet pk hpk).1, (h.packet pk hpk).2.mono (extends_recorded c i n)⟩
  seen := by
    intro j r hr
    rcases List.mem_append.mp hr with hold | hnew
    · exact h.seen j r hold
    · cases List.mem_singleton.mp hnew
      exact hcursors

theorem Ranged.step (horderly : (orderly w).Holds c) (htidy : tidy.Holds c)
    (h : c.Ranged reigns) (hone : c.OneLeader) (hterms : c.TermsBelow) {e : Event}
    (hok : c.JoinsKnown e) (hstep : c.step w e = some c') : ∃ reigns', c'.Ranged reigns' := by
  cases e with
  | handle i stimulus =>
    obtain ⟨n, input, via, hn, hinput, ⟨-, rfl⟩ | ⟨n₁, hact, rfl⟩⟩ := step_handle hstep
    · exact ⟨reigns, h⟩
    · have hbounded := acted_bounded horderly htidy h hone hterms hn
        (fun a b hjoin hlead => by subst hjoin; exact hok n hn hlead) hinput hact
      have hordered := (acted_ordered horderly htidy hterms hn hinput hact).1
      exact ⟨_, h.completed horderly htidy hn hinput hact hbounded hordered⟩
  | crash i during =>
    obtain ⟨n, n', hn, hboot, hcase⟩ := step_crash hstep
    have hhoused := horderly.node i n hn
    have hbefore : ∀ g ∈ reigns, g.leader = i → g.term ≤ n.store.term := by
      intro g hg hself
      rw [hhoused.term]
      exact ((h.node i n hn).own g hg (hself.trans hhoused.raftId.symm)).1
    rcases hcase with ⟨-, rfl⟩ | ⟨stimulus, input, via, n₁, rfl, hinput, hact, rfl⟩
    · exact ⟨reigns, h.setNode hhoused.log hbefore hboot⟩
    · have hbounded := acted_bounded horderly htidy h hone hterms hn
        (fun a b hjoin hlead => by subst hjoin; exact hok n hn hlead) hinput hact
      exact ⟨reigns, (h.recorded hbounded.cursors).setNode hhoused.log hbefore hboot⟩
  | dial k =>
    obtain ⟨pk, n, dest, hpk, -, -, -, rfl⟩ := step_dial hstep
    refine ⟨reigns, h.won, h.node, fun pk' hpk' => ?_, h.seen⟩
    rcases List.mem_append.mp hpk' with hold | hnew
    · exact h.packet pk' hold
    · rw [List.mem_singleton.mp hnew]
      exact h.packet pk (List.mem_of_getElem? hpk)
  | answer i call success =>
    obtain ⟨n, n', hn, hanswer, rfl⟩ := step_answer hstep
    refine ⟨reigns, h.won, fun j m hm => ?_, h.packet, h.seen⟩
    by_cases hj : j = i
    · subst hj
      have heq : n' = m := by simpa using hm
      obtain ⟨calls, rfl⟩ := Node.answer_frame hanswer
      exact heq ▸ h.node j n hn
    · have hold : c.node j = some m := by simpa [Function.update_of_ne hj] using hm
      exact h.node j m hold

theorem Reach.ranged {ok : Cluster → Event → Prop} (hok : ∀ c e, ok c e → c.JoinsKnown e)
    (hreach : Reach w ok c) (hone : c.OneLeader) (hterms : c.TermsBelow) (hlogs : c.LogsBelow) :
    ∃ reigns, c.Ranged reigns := by
  induction hreach with
  | start h =>
    refine ⟨[], start_induction (P := fun c => c.Ranged []) ?_ ?_ h⟩
    · exact ⟨fun _ hg => (by cases hg), fun _ _ hn => (by cases hn), fun _ hpk => (by cases hpk),
        fun _ _ hr => (by cases hr)⟩
    · exact fun c i n _ hboot hc => hc.setNode rfl (fun _ hg => (by cases hg)) hboot
  | step hreach hstepOk hstep ih =>
    have hbefore : Reach w ok _ := hreach
    have hhist := (step_grows hstep).1.subset
    have hone' : OneLeader _ := fun i r j r' hi hj => hone i r j r' (hhist hi) (hhist hj)
    have hterms' := hterms.before hstep
    have hlogs' : LogsBelow _ := fun seen hseen => hlogs seen (hhist hseen)
    obtain ⟨reigns, h⟩ := ih hone' hterms' hlogs'
    exact h.step hbefore.orderly (hbefore.tidy hterms' hlogs') hone' hterms' (hok _ _ hstepOk) hstep

end Cluster
variable {w : World} {c : Cluster}

/-- A leader's cursors stay between the first index and the one after its last, so what it
broadcasts starts within its log and leaves the sentinel out. -/
theorem cursors_in_range (hreach : Cluster.Reach w (fun c e => c.JoinsKnown e) c)
    (hone : c.OneLeader) (hterms : c.TermsBelow) (hlogs : c.LogsBelow) :
    (∀ i r, (i, r) ∈ c.hist → r.state = .leader → ∀ p ∈ r.peers,
      1 ≤ r.nextIndex.read p ∧ r.nextIndex.read p ≤ r.lastLogIndex + 1) ∧
    ∀ pk ∈ c.net, pk.msg.type = .appendEntries → sentinel ∉ pk.msg.entries ∧
      ∃ r, (pk.origin, r) ∈ c.hist ∧ r.state = .leader ∧ r.currentTerm = pk.msg.term ∧
        pk.msg.prevLogIndex ≤ r.lastLogIndex := by
  obtain ⟨reigns, hranged⟩ := hreach.ranged (fun _ _ hok => hok) hone hterms hlogs
  refine ⟨fun i r hr hlead p hp => ?_, fun pk hpk => (hranged.packet pk hpk).2⟩
  have hindexed := ((hreach.tidy hterms hlogs).seen i r hr).tidy.indexed
  obtain ⟨hhigh, hlow⟩ := hranged.seen i r hr hlead
  rw [lastLogIndex_eq hindexed]
  exact ⟨hlow p hp, hhigh p⟩

/-- A learns of D before it is elected, hears of B again in office, and B acknowledges. -/
theorem cursors_in_range_early_join :
    ∃ c, Cluster.Reach (mesh ["a", "b", "c"] 1 1) (fun c e => c.JoinsKnown e) c ∧
      ∃ seen ∈ c.hist, seen.2.state = .leader ∧ seen.2.peers = ["b", "c", "d"] ∧
        seen.2.nextIndex.read "b" = 2 ∧ ∀ p ∈ seen.2.peers,
          1 ≤ seen.2.nextIndex.read p ∧ seen.2.nextIndex.read p ≤ seen.2.lastLogIndex + 1 := by
  obtain ⟨c, hreach, hone, hterms, hlogs, seen, hseen, hlead, hpeers, hnext⟩ :
      ∃ c, Cluster.Reach (mesh ["a", "b", "c"] 1 1) (fun c e => c.JoinsKnown e) c ∧
        (∀ seen ∈ c.hist, ∀ seen' ∈ c.hist, seen.2.state = .leader →
          seen'.2.state = .leader → seen.2.currentTerm = seen'.2.currentTerm →
          seen.1 = seen'.1) ∧ c.TermsBelow ∧ c.LogsBelow ∧
        ∃ seen ∈ c.hist, seen.2.state = .leader ∧ seen.2.peers = ["b", "c", "d"] ∧
          seen.2.nextIndex.read "b" = 2 :=
    Reachable.of_any
      [.handle "a" (.join "d" "d"), .handle "a" .tick, .dial 0, .dial 1,
        .handle "b" (.packet 3), .handle "c" (.packet 4), .handle "a" (.packet 5),
        .handle "a" (.packet 6), .handle "a" (.join "b" "b"), .dial 7, .handle "b" (.packet 10),
        .handle "a" (.packet 11)] rfl
  obtain ⟨hrange, -⟩ := cursors_in_range hreach
    (fun i r j r' hi hj => hone (i, r) hi (j, r') hj) hterms hlogs
  exact ⟨c, hreach, seen, hseen, hlead, hpeers, hnext, hrange seen.1 seen.2 hseen hlead⟩

/-- A is the only leader there is when it learns of D. Its cursor for D reads 0, the index
before that wraps, and D is sent the log from the sentinel on. -/
theorem joined_peer_has_no_cursor :
    ∃ c, Cluster.Reach (mesh ["a", "b", "c"] 1 1) (fun _ _ => True) c ∧ c.OneLeader ∧
      c.TermsBelow ∧ c.LogsBelow ∧
      (∃ seen ∈ c.hist, seen.2.state = .leader ∧ "d" ∈ seen.2.peers ∧
        seen.2.nextIndex.read "d" = 0) ∧
      ∃ pk ∈ c.net, pk.msg.type = .appendEntries ∧ pk.msg.recipient = "d" ∧
        pk.msg.prevLogIndex = uint64Size - 1 ∧ sentinel ∈ pk.msg.entries := by
  obtain ⟨c, hreach, hone, hrest⟩ :
      ∃ c, Cluster.Reach (mesh ["a", "b", "c"] 1 1) (fun _ _ => True) c ∧
        (∀ seen ∈ c.hist, ∀ seen' ∈ c.hist, seen.2.state = .leader →
          seen'.2.state = .leader → seen.2.currentTerm = seen'.2.currentTerm →
          seen.1 = seen'.1) ∧ c.TermsBelow ∧ c.LogsBelow ∧
        (∃ seen ∈ c.hist, seen.2.state = .leader ∧ "d" ∈ seen.2.peers ∧
          seen.2.nextIndex.read "d" = 0) ∧
        ∃ pk ∈ c.net, pk.msg.type = .appendEntries ∧ pk.msg.recipient = "d" ∧
          pk.msg.prevLogIndex = uint64Size - 1 ∧ sentinel ∈ pk.msg.entries :=
    Reachable.of_any
      [.handle "a" .tick, .dial 0, .handle "b" (.packet 2), .handle "a" (.packet 3),
        .handle "a" (.join "d" "d"), .handle "a" .tick] rfl
  exact ⟨c, hreach, fun i r j r' hi hj => hone (i, r) hi (j, r') hj, hrest⟩

end Phalanx
