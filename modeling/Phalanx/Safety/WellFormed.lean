import Phalanx.Raft.Outbox
import Phalanx.Raft.Returns
import Phalanx.Refinement.Cluster
import Phalanx.Traffic

/-! Logs in order and accesses in range, in runs of any nodes whatsoever: peers may be
wrong, addresses may lead anywhere, discovery may have broken every quorum. What saves
the logs is that every AppendEntries is cut from a leader's log that is itself in order,
and that a cursor outside the log makes a message which no such log lets pass. -/
namespace Phalanx

open Consensus Go Raft

/-- A log whose positions and terms are in order, none of them after `term`. -/
structure Tidy (term : Nat) (log : List LogEntry) : Prop where
  indexed : Indexed log
  sorted : log.Pairwise fun a b => a.term ≤ b.term
  positive : ∀ e ∈ log, 0 < e.term
  bounded : ∀ e ∈ log, e.term ≤ term

namespace Tidy

variable {term term' : Nat} {log sent : List LogEntry}

theorem nil (term : Nat) : Tidy term [] where
  indexed := Indexed.nil
  sorted := .nil
  positive := by simp
  bounded := by simp

theorem mono (h : Tidy term log) (hle : term ≤ term') : Tidy term' log :=
  { h with bounded := fun e he => (h.bounded e he).trans hle }

theorem concat (h : Tidy term log) (hpos : 0 < term) {entry : LogEntry}
    (hindex : entry.index = lastIndexOf log + 1) (hterm : entry.term = term) :
    Tidy term (log ++ [entry]) where
  indexed := h.indexed.concat (by rw [hindex, h.indexed.lastIndexOf])
  sorted := by
    rw [List.pairwise_append]
    refine ⟨h.sorted, List.pairwise_singleton _ _, fun a ha b hb => ?_⟩
    rw [List.mem_singleton.mp hb, hterm]
    exact h.bounded a ha
  positive := by
    intro e he
    rcases List.mem_append.mp he with hold | hnew
    · exact h.positive e hold
    · rw [List.mem_singleton.mp hnew, hterm]
      exact hpos
  bounded := by
    intro e he
    rcases List.mem_append.mp he with hold | hnew
    · exact h.bounded e hold
    · rw [List.mem_singleton.mp hnew, hterm]

theorem le_of_lt (h : Tidy term log) {j k : Nat} {a b : LogEntry} (hjk : j ≤ k)
    (ha : log[j]? = some a) (hb : log[k]? = some b) : a.term ≤ b.term := by
  rcases Nat.eq_or_lt_of_le hjk with rfl | hlt
  · cases ha.symm.trans hb
    exact le_rfl
  · obtain ⟨hj, rfl⟩ := List.getElem?_eq_some_iff.mp ha
    obtain ⟨hk, rfl⟩ := List.getElem?_eq_some_iff.mp hb
    exact List.pairwise_iff_getElem.mp h.sorted j k hj hk hlt

theorem cut (h : Tidy term log) (hsent : Tidy term sent) {k : Nat} (hk : k ≤ log.length)
    (hk' : k ≤ sent.length) (hseam : ∀ a b, 0 < k → log[k - 1]? = some a →
      sent[k - 1]? = some b → a.term = b.term) : Tidy term (log.take k ++ sent.drop k) where
  indexed := by
    intro j e he
    by_cases hj : j < k
    · rw [List.getElem?_append_left (by simp; omega), List.getElem?_take_of_lt hj] at he
      exact h.indexed j e he
    · rw [List.getElem?_append_right (by simp; omega), List.getElem?_drop, List.length_take,
        Nat.min_eq_left hk, show k + (j - k) = j by omega] at he
      exact hsent.indexed j e he
  sorted := by
    rw [List.pairwise_append]
    refine ⟨h.sorted.sublist (List.take_sublist _ _), hsent.sorted.sublist (List.drop_sublist _ _),
      fun a ha b hb => ?_⟩
    -- the last entry before the cut stands between the two
    obtain ⟨j, hj⟩ := List.getElem?_of_mem ha
    obtain ⟨l, hl⟩ := List.getElem?_of_mem hb
    rw [List.getElem?_drop] at hl
    have hjk : j < k := by
      have := (List.getElem?_eq_some_iff.mp hj).1
      rw [List.length_take] at this
      omega
    rw [List.getElem?_take_of_lt hjk] at hj
    have hlast : log[k - 1]? = some log[k - 1] := List.getElem?_eq_getElem (by omega)
    have hlast' : sent[k - 1]? = some sent[k - 1] := List.getElem?_eq_getElem (by omega)
    calc a.term ≤ log[k - 1].term := h.le_of_lt (by omega) hj hlast
      _ = sent[k - 1].term := hseam _ _ (by omega) hlast hlast'
      _ ≤ b.term := hsent.le_of_lt (by omega) hlast' hl
  positive := by
    intro e he
    rcases List.mem_append.mp he with hold | hnew
    · exact h.positive e (List.mem_of_mem_take hold)
    · exact hsent.positive e (List.mem_of_mem_drop hnew)
  bounded := by
    intro e he
    rcases List.mem_append.mp he with hold | hnew
    · exact h.bounded e (List.mem_of_mem_take hold)
    · exact hsent.bounded e (List.mem_of_mem_drop hnew)

theorem splice (h : Tidy term log) (hsent : Tidy term sent) {p : Nat} (hp : p ≤ log.length)
    (hp' : p ≤ sent.length) (hseam : ∀ a b, 0 < p → log[p - 1]? = some a →
      sent[p - 1]? = some b → a.term = b.term) :
    Tidy term (log.take p ++ Consensus.splice LogEntry.term (log.drop p) (sent.drop p)) := by
  rcases splice_cut LogEntry.term (log.drop p) (sent.drop p) with
    hsame | ⟨k, hk, hk', hagree, hcut⟩
  · rw [hsame, List.take_append_drop]
    exact h
  · rw [List.length_drop] at hk hk'
    rw [hcut, ← List.append_assoc, ← List.take_add, List.drop_drop]
    apply h.cut hsent (by omega) (by omega)
    intro a b _ ha hb
    cases k with
    | zero => exact hseam a b (by omega) ha hb
    | succ k =>
      apply hagree k a b (Nat.lt_succ_self k)
      · rw [List.getElem?_drop]
        exact ha
      · rw [List.getElem?_drop]
        exact hb

end Tidy

def Message.Sourced (m : Message) : Prop :=
  m.type = .appendEntries → ∃ log, Tidy m.term log ∧ Carries m log

namespace Raft

variable {inbox : Message → Prop} {clock : Nat → Prop} {r r' : Raft} {msg : Message}

structure Ordered (r : Raft) : Prop where
  tidy : Tidy r.currentTerm r.log
  active : r.state ≠ .follower → 0 < r.currentTerm

theorem Ordered.accept {log : List LogEntry} (h : r.Ordered) (hsourced : msg.Sourced)
    (htype : msg.type = .appendEntries) (hterm : msg.term = r.currentTerm)
    (hpasses : r.passes msg)
    (hlog : r.appendLoop (msg.prevLogIndex + 1) msg.entries = some log) :
    Tidy r.currentTerm log := by
  obtain ⟨sent, hsent, hcarries⟩ := hsourced htype
  obtain ⟨hwithin, hle, hentries, hmeets⟩ :=
    hcarries.meets h.tidy.indexed h.tidy.positive hpasses
  rw [appendLoop_eq h.tidy.indexed _ _ hwithin] at hlog
  cases hlog
  rw [hentries]
  apply h.tidy.splice (hterm ▸ hsent) hwithin hle
  intro a b hpos ha hb
  obtain ⟨x, y, hx, hy, hsame⟩ := hmeets.resolve_left (Nat.ne_of_gt hpos)
  cases ha.symm.trans hx
  cases hb.symm.trans hy
  exact hsame

theorem Move.ordered (hinbox : ∀ m, inbox m → m.Sourced)
    (hclock : ∀ t, clock t → t < uint64Size - 1) (h : r.Ordered)
    (hmove : Move inbox clock r r') : r'.Ordered := by
  cases hmove with
  | stand _ hticks =>
    have hterm : succ64 r.currentTerm = r.currentTerm + 1 := succ64_of_lt (hclock _ hticks)
    refine ⟨h.tidy.mono ?_, fun _ => ?_⟩
    · change r.currentTerm ≤ succ64 r.currentTerm
      omega
    · change 0 < succ64 r.currentTerm
      omega
  | win hstate => exact ⟨h.tidy.concat (h.active (by simp [hstate])) rfl rfl, fun _ =>
      h.active (by simp [hstate])⟩
  | broadcast _ _ hout =>
    obtain ⟨out, -, rfl⟩ := broadcastHeartbeat_eq hout
    exact ⟨h.tidy, h.active⟩
  | observe msg _ hlater => exact ⟨h.tidy.mono hlater.le, fun hno => absurd rfl hno⟩
  | heed msg _ _ hterm =>
    unfold heeding
    split
    · exact ⟨h.tidy, h.active⟩
    · exact ⟨h.tidy.mono hterm.ge, fun hno => absurd rfl hno⟩
  | accept msg log hin htype hterm _ _ hpasses hlog =>
    rw [accepting_eq]
    exact ⟨h.accept (hinbox msg hin) htype hterm hpasses hlog, h.active⟩
  | extend _ _ hstate => exact ⟨h.tidy.concat (h.active (by simp [hstate])) rfl rfl, h.active⟩
  | _ => exact ⟨h.tidy, h.active⟩

theorem Moves.ordered (hinbox : ∀ m, inbox m → m.Sourced)
    (hclock : ∀ t, clock t → t < uint64Size - 1) (h : r.Ordered)
    (hmoves : Moves inbox clock r r') : r'.Ordered := by
  induction hmoves with
  | refl => exact h
  | tail _ hmove ih => exact hmove.ordered hinbox hclock ih

theorem Ordered.sourced {peer : String} (h : r.Ordered) (hlen : r.log.length < uint64Size - 1)
    (hmsg : r.appendEntriesFor peer = some msg) : msg.Sourced := by
  intro _
  by_cases hnext : 0 < r.nextIndex.read peer
  · obtain ⟨-, -, -, hterm, -, -, hcarries⟩ := carries_appendEntriesFor h.tidy.indexed hnext hmsg
    exact ⟨r.log, hterm ▸ h.tidy, hcarries⟩
  · -- the cursor of a peer that was added later reads 0, and the index before it wraps
    obtain ⟨entries, rfl⟩ := appendEntriesFor_eq hmsg
    have hprev : pred64 (r.nextIndex.read peer) = uint64Size - 1 := if_pos (by omega)
    refine ⟨r.log, h.tidy, .inl ⟨?_, ?_⟩⟩
    · simp only [hprev]
      decide
    · simp only [hprev]
      change r.logTerm (uint64Size - 2 + 1) = 0
      rw [logTerm_succ, List.getElem?_eq_none]
      · rfl
      · omega

theorem applicableEntries_in_range (r : Raft) {k : Nat} (hlow : r.lastApplied < k)
    (hhigh : k ≤ r.applicableEntries.2.lastApplied) : k < r.slots.length := by
  have hpos : 0 < r.slots.length := Nat.succ_pos _
  have hstop : r.applicableEntries.2.lastApplied = r.lastApplied ∨
      r.applicableEntries.2.lastApplied < r.slots.length := by
    unfold applicableEntries
    split
    · exact .inl rfl
    · simp only
      split
      · split
        · exact .inl rfl
        · exact .inr (Nat.sub_lt hpos Nat.one_pos)
      next hwithin => exact .inr (Nat.lt_of_not_le hwithin)
  omega

end Raft

theorem Message.Sourced.received {msg : Message} (h : msg.Sourced) (id : String) :
    (msg.received id).Sourced := by
  unfold Message.received
  split
  next htype => exact fun _ => h htype
  next => exact nofun

theorem Node.act_equipped {env : Env} {n n' : Node} {input : Input} (hlog : Indexed n.raft.log)
    (h : n.raft.Equipped) (hact : n.act env input = some n') : n'.raft.Equipped := by
  obtain ⟨r, lastApplied, hperforms, hraft, -⟩ := Node.act_performs hact
  have hequipped : r.Equipped := by
    cases hperforms with
    | tick htick =>
      obtain ⟨r', hr', hequipped⟩ := tick_returns hlog h
      cases htick.symm.trans hr'
      exact hequipped
    | @propose data _ _ hpropose =>
      obtain ⟨index, r', hr', hequipped⟩ := propose_returns hlog h data
      cases hpropose.symm.trans hr'
      exact hequipped
    | @step _ m _ _ hstep =>
      obtain ⟨r', hr', hequipped⟩ := step_returns hlog h m
      cases hstep.symm.trans hr'
      exact hequipped
    | @join nodeID =>
      rw [(addPeer_frame n.raft nodeID).1]
      exact ⟨h.base, h.votes, h.cursors⟩
  rw [hraft]
  exact ⟨hequipped.base, hequipped.votes, hequipped.cursors⟩

theorem Node.performs (n : Node) (hlog : Indexed n.raft.log) (h : n.raft.Equipped)
    (input : Input) : ∃ r, n.Performs input r := by
  cases input with
  | tick =>
    obtain ⟨r, hr, -⟩ := tick_returns hlog h
    exact ⟨r, .tick hr⟩
  | propose data =>
    obtain ⟨index, r, hr, -⟩ := propose_returns hlog h data
    exact ⟨r, .propose hr⟩
  | request msg =>
    obtain ⟨r, hr, -⟩ := step_returns hlog h (msg.received n.id)
    exact ⟨r, .step rfl hr⟩
  | response msg =>
    obtain ⟨r, hr, -⟩ := step_returns hlog h msg
    exact ⟨r, .step rfl hr⟩
  | join nodeID raftAddr => exact ⟨_, .join⟩

namespace Cluster

variable {w : World} {c : Cluster} {i : String} {stimulus : Stimulus} {input : Input}
variable {via : Option (Nat × Packet)} {n n' : Node} {ok : Cluster → Event → Prop}

/-- The length of a slice is an `int`. -/
def LogsBelow (c : Cluster) : Prop := ∀ seen ∈ c.hist, seen.2.slots.length < 9223372036854775808

instance (c : Cluster) : Decidable c.LogsBelow :=
  inferInstanceAs (Decidable (∀ seen ∈ c.hist, _))

def tidy : Invariant where
  node := fun _ _ n => n.raft.Ordered ∧ n.raft.Equipped
  packet := fun _ pk => pk.msg.Sourced
  seen := fun _ _ r => r.Ordered
  node_mono := fun _ h => h
  packet_mono := fun _ h => h
  seen_mono := fun _ h => h

theorem tidy_boot {store : Store} (hlog : store.log = []) (hboot : w.boot i store = some n) :
    n.raft.Ordered ∧ n.raft.Equipped := by
  have hbase := World.boot_base hboot
  obtain ⟨peerAddrs, rfl⟩ := World.boot_eq hboot
  refine ⟨⟨?_, fun hno => absurd rfl hno⟩, .of_follower hbase rfl⟩
  change Tidy store.term store.log
  rw [hlog]
  exact .nil _

theorem stepped_sourced (h : tidy.Holds c) (hinput : c.input i stimulus = some (input, via))
    {id : String} {m : Message} (hm : input.stepped id = some m) : m.Sourced := by
  obtain ⟨k, pk, -, -, hpk, -, ⟨-, -, rfl⟩ | ⟨-, -, rfl⟩⟩ := stepped_packet hinput hm
  · exact (h.packet pk (List.mem_of_getElem? hpk)).received id
  · exact h.packet pk (List.mem_of_getElem? hpk)

theorem acted_ordered (horderly : (orderly w).Holds c) (h : tidy.Holds c) (hterms : c.TermsBelow)
    (hn : c.node i = some n) (hinput : c.input i stimulus = some (input, via))
    (hact : n.act w.env input = some n') : n'.raft.Ordered ∧ n'.raft.Equipped := by
  obtain ⟨hordered, hequipped⟩ := h.node i n hn
  refine ⟨?_, Node.act_equipped hordered.tidy.indexed hequipped hact⟩
  rcases acted_cases horderly hinput hact with ⟨r₁, lastApplied, hmoves, hraft⟩ | ⟨peers, hraft⟩
  · have hordered₁ : r₁.Ordered := by
      refine hmoves.ordered (fun m hm => stepped_sourced h hinput hm) ?_ hordered
      rintro t ⟨-, rfl⟩
      exact hterms _ (horderly.node i n hn).now
    rw [hraft]
    exact ⟨hordered₁.tidy, hordered₁.active⟩
  · rw [hraft]
    exact ⟨hordered.tidy, hordered.active⟩

theorem sourced_emitted (horderly : (orderly w).Holds c) (hlogs : c.LogsBelow)
    (hn : c.node i = some n) (hact : n.act w.env input = some n') (hordered : n'.raft.Ordered)
    {pk : Packet} (hpk : pk ∈ emitted i n'.raft.msgs via) : pk.msg.Sourced := by
  have hhoused := horderly.node i n hn
  rcases mem_emitted hpk with ⟨m, hm, -, rfl⟩ | ⟨k, req, m, -, -, -, -, rfl⟩
  · intro htype
    obtain ⟨-, hlen, peer, -, hmsg⟩ := (Node.act_posts hhoused.drained hact m hm).broadcast htype
    have hbound : n.raft.log.length + 1 < 9223372036854775808 := hlogs _ hhoused.now
    refine hordered.sourced ?_ hmsg htype
    simp only [uint64Size]
    omega
  · intro htype
    unfold Message.answered at htype
    split at htype <;> cases htype

theorem tidy_kept (hok : ∀ c e, ok c e → c.TermsBelow ∧ c.LogsBelow) : tidy.Kept w ok where
  boot := fun c i n _ hboot => by
    obtain ⟨hordered, hequipped⟩ := tidy_boot rfl hboot
    exact ⟨⟨hordered, hequipped⟩, hordered.tidy, hordered.active⟩
  handle := by
    intro c i stimulus n input via n' hreach h hhandle hn hinput hact
    obtain ⟨hterms, hlogs⟩ := hok _ _ hhandle
    obtain ⟨hordered, hequipped⟩ := acted_ordered hreach.orderly h hterms hn hinput hact
    refine ⟨⟨⟨hordered.tidy, hordered.active⟩, hequipped.base, hequipped.votes,
      hequipped.cursors⟩, ⟨hordered.tidy, hordered.active⟩, fun pk hpk => ?_⟩
    exact sourced_emitted hreach.orderly hlogs hn hact hordered hpk
  interrupt := by
    intro c i stimulus n input via n' hreach h hcrash hn hinput hact
    obtain ⟨hordered, -⟩ := acted_ordered hreach.orderly h (hok _ _ hcrash).1 hn hinput hact
    exact ⟨hordered.tidy, hordered.active⟩
  crash := by
    intro c c₁ i during n n' hreach _ _ hn hboot _ _
    obtain ⟨hordered, hequipped⟩ := tidy_boot (hreach.orderly.node i n hn).log hboot
    exact ⟨⟨hordered, hequipped⟩, hordered.tidy, hordered.active⟩
  dial := fun c k pk n dest _ h _ hk _ _ _ => h.packet pk (List.mem_of_getElem? hk)
  answer := by
    intro c i call success n n' _ h _ hn hanswer
    obtain ⟨calls, rfl⟩ := Node.answer_frame hanswer
    exact h.node i n hn

theorem Reach.tidy (hreach : Reach w ok c) (hterms : c.TermsBelow) (hlogs : c.LogsBelow) :
    Cluster.tidy.Holds c := by
  have hbounded : Reach w (fun c e => ok c e ∧ c.TermsBelow ∧ c.LogsBelow) c := by
    refine hreach.before ?_ ⟨hterms, hlogs⟩
    intro s s' e hstep hs'
    exact ⟨hs'.1.before hstep, fun seen hseen => hs'.2 seen ((step_grows hstep).1.subset hseen)⟩
  exact (tidy_kept fun _ _ hok => hok.2).reach hbounded

end Cluster

variable {w : World} {c : Cluster}

/-- Every log ever is in order and no handler of any node meets a panic. -/
theorem logs_well_formed (hreach : Cluster.Reach w (fun _ _ => True) c) (hterms : c.TermsBelow)
    (hlogs : c.LogsBelow) :
    (∀ i r, (i, r) ∈ c.hist → (∀ (k : Nat) (e : LogEntry), r.slots[k]? = some e → e.index = k) ∧
      r.lastLogIndex = r.slots.length - 1 ∧ (r.slots.Pairwise fun a b => a.term ≤ b.term) ∧
      (∀ e ∈ r.log, 0 < e.term ∧ e.term ≤ r.currentTerm) ∧
      ∀ k, r.lastApplied < k → k ≤ r.applicableEntries.2.lastApplied → k < r.slots.length) ∧
    ∀ i n, c.node i = some n → ∀ stimulus input via,
      c.input i stimulus = some (input, via) → ∃ r, n.Performs input r := by
  have htidy := hreach.tidy hterms hlogs
  refine ⟨fun i r hr => ?_, fun i n hn _ input _ _ => ?_⟩
  · obtain ⟨hlog, -⟩ := htidy.seen i r hr
    refine ⟨?_, lastLogIndex_eq hlog.indexed, ?_,
      fun e he => ⟨hlog.positive e he, hlog.bounded e he⟩, fun k => applicableEntries_in_range r⟩
    · intro k e he
      cases k with
      | zero =>
        cases he
        rfl
      | succ k => exact hlog.indexed k e he
    · exact List.pairwise_cons.mpr ⟨fun e _ => Nat.zero_le _, hlog.sorted⟩
  · obtain ⟨hordered, hequipped⟩ := htidy.node i n hn
    exact n.performs hordered.tidy.indexed hequipped input

/-- A leader learns of D, whose address is B's, and sends it a log from before the first
slot; B turns it down and restarts. -/
theorem logs_well_formed_join :
    ∃ c, Cluster.Reach (mesh ["a", "b", "c"] 1 1) (fun _ _ => True) c ∧
      (∃ pk ∈ c.net, pk.dest = some "b" ∧ pk.msg.prevLogIndex = uint64Size - 1 ∧
        sentinel ∈ pk.msg.entries) ∧
      (∀ i r, (i, r) ∈ c.hist → r.lastLogIndex = r.slots.length - 1) ∧
      ∀ n, c.node "b" = some n → ∃ r, n.Performs .tick r := by
  obtain ⟨c, hreach, hterms, hlogs, hwrapped⟩ :
      ∃ c, Cluster.Reach (mesh ["a", "b", "c"] 1 1) (fun _ _ => True) c ∧
        c.TermsBelow ∧ c.LogsBelow ∧ ∃ pk ∈ c.net, pk.dest = some "b" ∧
        pk.msg.prevLogIndex = uint64Size - 1 ∧ sentinel ∈ pk.msg.entries :=
    Reachable.of_any
      [.handle "a" .tick, .dial 0, .handle "b" (.packet 2), .handle "a" (.packet 3),
        .handle "a" (.join "d" "b"), .handle "a" .tick, .dial 8, .handle "b" (.packet 9),
        .crash "b" none] rfl
  obtain ⟨hordered, hreturns⟩ := logs_well_formed hreach hterms hlogs
  refine ⟨c, hreach, hwrapped, fun i r hr => (hordered i r hr).2.1, fun n hn => ?_⟩
  exact hreturns "b" n hn .tick .tick none rfl

end Phalanx
