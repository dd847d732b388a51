import Phalanx.Safety.Applied

/-! What a successful `HandlePropose` tells its client. The waiter is found by the
index of the applied entry alone, so it is woken by whatever ends up at that index.
As long as no AppendEntries overwrites an entry that a client still waits for, the
entry applied there is the client's own. -/
namespace Phalanx

open Consensus Go Raft

variable {w : World} {c : Cluster} {i : String} {n n' : Node} {r r' : Raft}
variable {log applied : List LogEntry} {proposals : GoMap Nat Nat} {calls : List Call}

def Call.entry (call : Call) : LogEntry :=
  { index := call.index, term := call.term, data := call.data }

/-- A call that may still succeed has its entry in the log until it is signalled, and
among the applied entries from then on. -/
structure Call.Fair (log applied : List LogEntry) (call : Call) : Prop where
  pending : call.outcome = none → call.signalled = false →
    log[call.index - 1]? = some call.entry
  done : call.outcome ≠ some false → call.signalled = true →
    applied[call.index - 1]? = some call.entry
  told : call.outcome = some true → call.signalled = true

structure Waiting (log applied : List LogEntry) (proposals : GoMap Nat Nat)
    (calls : List Call) : Prop where
  keyed : ∀ k q, proposals.lookup k = some q → ∃ call, calls[q]? = some call ∧ call.index = k
  fair : ∀ (q : Nat) (call : Call), calls[q]? = some call → call.Fair log applied

namespace Waiting

theorem modify (h : Waiting log applied proposals calls) {q : Nat} {f : Call → Call}
    (hindex : ∀ call, (f call).index = call.index)
    (hfair : ∀ call, calls[q]? = some call → (f call).Fair log applied) :
    Waiting log applied proposals (calls.modify q f) where
  keyed := by
    intro k p hp
    obtain ⟨call, hcall, hk⟩ := h.keyed k p hp
    rw [List.getElem?_modify, hcall]
    refine ⟨_, rfl, ?_⟩
    simp only
    split
    · exact (hindex call).trans hk
    · exact hk
  fair := by
    intro p call hcall
    rw [List.getElem?_modify] at hcall
    obtain ⟨old, hold, rfl⟩ := Option.map_eq_some_iff.mp hcall
    split
    next heq => exact hfair old (heq ▸ hold)
    next => exact h.fair p old hold

theorem delete (h : Waiting log applied proposals calls) (k : Nat) :
    Waiting log applied (proposals.delete k) calls := by
  refine ⟨fun k' q hq => ?_, h.fair⟩
  rw [GoMap.lookup_delete] at hq
  split at hq
  · cases hq
  · exact h.keyed k' q hq

theorem signal (h : Waiting log applied proposals calls) {e : LogEntry} {q : Nat}
    (hq : proposals.lookup e.index = some q) (hlog : log[e.index - 1]? = some e)
    (happlied : applied[e.index - 1]? = some e) :
    Waiting log applied (proposals.delete e.index)
      (calls.modify q fun call => { call with signalled := true }) := by
  obtain ⟨waiter, hwaiter, hindex⟩ := h.keyed _ _ hq
  apply delete
  refine h.modify ?_ ?_
  · exact fun _ => rfl
  intro call hcall
  rw [hwaiter] at hcall
  cases hcall
  have hfair := h.fair q waiter hwaiter
  refine ⟨fun _ hno => (by cases hno), fun houtcome _ => ?_, fun _ => rfl⟩
  change applied[waiter.index - 1]? = some waiter.entry
  cases hsignalled : waiter.signalled with
  | true => exact hfair.done houtcome hsignalled
  | false =>
    have hwaits : waiter.outcome = none := by
      cases hout : waiter.outcome with
      | none => rfl
      | some success =>
        cases success with
        | false => exact absurd hout houtcome
        | true =>
          rw [hfair.told hout] at hsignalled
          cases hsignalled
    have hentry := hfair.pending hwaits hsignalled
    rw [hindex, hlog] at hentry
    rw [hindex, happlied, Option.some.inj hentry]

theorem relog (h : Waiting log applied proposals calls) {log' : List LogEntry}
    (hkeep : ∀ call ∈ calls, call.outcome = none →
      log[call.index - 1]? = some call.entry → log'[call.index - 1]? = some call.entry) :
    Waiting log' applied proposals calls := by
  refine ⟨h.keyed, fun q call hcall => ?_⟩
  have hfair := h.fair q call hcall
  refine ⟨fun hout hsig => ?_, hfair.done, hfair.told⟩
  exact hkeep call (List.mem_of_getElem? hcall) hout (hfair.pending hout hsig)

theorem reapplied (h : Waiting log applied proposals calls) {applied' : List LogEntry}
    (hgrows : applied <+: applied') : Waiting log applied' proposals calls := by
  refine ⟨h.keyed, fun q call hcall => ?_⟩
  have hfair := h.fair q call hcall
  exact ⟨hfair.pending, fun hout hsig => getElem?_of_isPrefix hgrows (hfair.done hout hsig),
    hfair.told⟩

theorem register (h : Waiting log applied proposals calls) {call : Call}
    {proposals' : GoMap Nat Nat}
    (hwrite : proposals.write call.index calls.length = some proposals')
    (hnew : call.outcome = none ∧ call.signalled = false)
    (hentry : log[call.index - 1]? = some call.entry) :
    Waiting log applied proposals' (calls ++ [call]) where
  keyed := by
    intro k q hq
    rw [GoMap.lookup_write hwrite] at hq
    split at hq
    next heq =>
      cases hq
      exact ⟨call, List.getElem?_concat_length, heq.symm⟩
    next =>
      obtain ⟨old, hold, hk⟩ := h.keyed k q hq
      exact ⟨old, getElem?_of_isPrefix (List.prefix_append _ _) hold, hk⟩
  fair := by
    intro q call' hcall
    rcases List.mem_append.mp (List.mem_of_getElem? hcall) with hold | hadded
    · obtain ⟨p, hp⟩ := List.getElem?_of_mem hold
      exact h.fair p call' hp
    · rw [List.mem_singleton.mp hadded]
      refine ⟨fun _ _ => hentry, fun _ hsig => ?_, fun hout => ?_⟩
      · rw [hnew.2] at hsig
        cases hsig
      · rw [hnew.1] at hout
        cases hout

theorem answer (h : Waiting log applied n.proposals n.calls) {q : Nat} {success : Bool}
    (hanswer : n.answer q success = some n') : Waiting log applied n'.proposals n'.calls := by
  unfold Node.answer at hanswer
  split at hanswer
  next call hcall =>
    split at hanswer
    next hguard =>
      cases hanswer
      have hset : n.calls.set q { call with outcome := some success } =
          n.calls.modify q fun call => { call with outcome := some success } := by
        rw [List.modify_eq_set_getElem?, hcall]
        rfl
      rw [hset]
      refine h.modify ?_ ?_
      · exact fun _ => rfl
      intro old hold
      rw [hcall] at hold
      cases hold
      have hfair := h.fair q call hcall
      refine ⟨fun hno => (by cases hno), fun _ hsig => ?_, fun hout => ?_⟩
      · exact hfair.done (by simp [hguard.1]) hsig
      · exact hguard.2 (Option.some.inj hout)
    next => cases hanswer
  next => cases hanswer

theorem foldl_applyEntry {env : Env} {entries : List LogEntry}
    (hentries : ∀ e ∈ entries, log[e.index - 1]? = some e ∧ applied[e.index - 1]? = some e)
    (h : Waiting log applied n.proposals n.calls) :
    Waiting log applied (entries.foldl (Node.applyEntry env) n).proposals
      (entries.foldl (Node.applyEntry env) n).calls := by
  induction entries generalizing n with
  | nil => exact h
  | cons e rest ih =>
    rw [List.foldl_cons]
    apply ih (fun e' he' => hentries e' (List.mem_cons_of_mem e he'))
    obtain ⟨hlog, happlied⟩ := hentries e List.mem_cons_self
    unfold Node.applyEntry
    simp only
    split
    next => exact h
    next q hq => exact h.signal hq hlog happlied

end Waiting

theorem Raft.applicable_at_index (hindexed : Indexed r.log)
    (hle : r.lastApplied ≤ r.commitIndex) (hlen : r.commitIndex ≤ r.log.length)
    (happlied : applied = r.log.take r.commitIndex) :
    ∀ e ∈ r.applicableEntries.1,
      r.log[e.index - 1]? = some e ∧ applied[e.index - 1]? = some e := by
  intro e he
  rw [applicableEntries_spec hle hlen] at he
  obtain ⟨k, hk⟩ := List.getElem?_of_mem he
  have hlt : k < r.commitIndex - r.lastApplied := by
    have := (List.getElem?_eq_some_iff.mp hk).1
    rw [List.length_take] at this
    omega
  simp only at hk
  rw [List.getElem?_take_of_lt hlt, List.getElem?_drop] at hk
  have hindex := hindexed _ e hk
  rw [hindex, Nat.add_sub_cancel, happlied, List.getElem?_take_of_lt (by omega)]
  exact ⟨hk, hk⟩

theorem Waiting.apply {env : Env} (h : Waiting r.log n.applied n.proposals n.calls)
    (hindexed : Indexed r.log) (hle : r.lastApplied ≤ r.commitIndex)
    (hlen : r.commitIndex ≤ r.log.length) (happlied : n.applied = r.log.take r.lastApplied)
    (hn' : n' = Node.applyCommitted env { n with raft := r }) :
    Waiting r.log n'.applied n'.proposals n'.calls := by
  subst hn'
  obtain ⟨-, -, -, -, hlist⟩ := Node.applyCommitted_frame env { n with raft := r }
  have htaken : n.applied ++ r.applicableEntries.1 = r.log.take r.commitIndex := by
    rw [applicableEntries_spec hle hlen, happlied, ← List.take_add]
    congr 1
    omega
  rw [hlist]
  apply foldl_applyEntry (applicable_at_index hindexed hle hlen htaken)
  exact h.reapplied (List.prefix_append _ _)

/-- The AppendEntries conflicts with the log at or below `index`, so that `index` will be
overwritten or cut off. -/
def Raft.overwrites (r : Raft) (msg : Message) (index : Nat) : Prop :=
  msg.type = .appendEntries ∧ r.currentTerm ≤ msg.term ∧ r.passes msg ∧
    ∃ k < msg.entries.length, msg.prevLogIndex + 1 + k ≤ index ∧
      msg.prevLogIndex + 1 + k ≤ r.lastLogIndex ∧
      ∃ e ∈ msg.entries[k]?, r.logTerm (msg.prevLogIndex + 1 + k) ≠ e.term

instance (r : Raft) (msg : Message) (index : Nat) : Decidable (r.overwrites msg index) :=
  inferInstanceAs (Decidable (_ ∧ _))

/-- No node is handed an AppendEntries that overwrites what one of its clients waits for. -/
def Cluster.Undisturbed (c : Cluster) : Event → Prop
  | .handle i (.packet k) => ∀ n ∈ c.node i, ∀ pk ∈ c.net[k]?, ∀ call ∈ n.calls,
      call.outcome = none → ¬ n.raft.overwrites pk.msg call.index
  | _ => True

instance (c : Cluster) (e : Event) : Decidable (c.Undisturbed e) := by
  unfold Cluster.Undisturbed
  split <;> infer_instance

theorem Raft.step_keeps_entry {msg : Message} {index : Nat} {e : LogEntry}
    (hindexed : Indexed r.log) (htype : msg.type = .appendEntries)
    (hcalm : ¬ r.overwrites msg index) (he : r.log[index - 1]? = some e)
    (hindex : e.index = index) (h : r.step msg = some r') : r'.log[index - 1]? = some e := by
  rcases step_appendEntries_log htype h with hsame | ⟨hterm, hpasses, hloop⟩
  · rw [hsame, he]
  · have hagree : ∀ (k : Nat) (e : LogEntry), msg.entries[k]? = some e →
        msg.prevLogIndex + 1 + k ≤ index → msg.prevLogIndex + 1 + k ≤ r.lastLogIndex →
        r.logTerm (msg.prevLogIndex + 1 + k) = e.term := by
      intro k e he hle hlast
      by_contra hne
      exact hcalm ⟨htype, hterm, hpasses, k, (List.getElem?_eq_some_iff.mp he).1, hle, hlast, e,
        he, hne⟩
    have hkept := appendLoop_keeps (Nat.succ_pos _) hagree hloop
    have hpos := hindexed _ e he
    apply getElem?_of_isPrefix hkept
    rw [List.getElem?_take_of_lt (by omega), he]

namespace Cluster

variable {stimulus : Stimulus} {input : Input} {via : Option (Nat × Packet)}

theorem acted_keeps_entry (h : (orderly w).Holds c) (hindexed : Indexed n.raft.log)
    (hn : c.node i = some n) (hjoin : stimulus.isJoin = false)
    (hinput : c.input i stimulus = some (input, via)) (hact : n.act w.env input = some n')
    (hcalm : c.Undisturbed (.handle i stimulus)) {call : Call} (hcall : call ∈ n.calls)
    (hout : call.outcome = none) (hentry : n.raft.log[call.index - 1]? = some call.entry) :
    n'.raft.log[call.index - 1]? = some call.entry := by
  by_cases hsent : ∃ m, input.stepped n.id = some m ∧ m.type = .appendEntries
  · obtain ⟨m, hm, htype⟩ := hsent
    obtain ⟨k, pk, rfl, -, hpk, -, hcase⟩ := stepped_packet hinput hm
    have hrequest : pk.msg.isRequest = true ∧ input = .request pk.msg ∧
        m = pk.msg.received n.id := by
      rcases hcase with hrequest | ⟨hreply, -, rfl⟩
      · exact hrequest
      · rw [isRequest_of_type (.inr htype)] at hreply
        cases hreply
    obtain ⟨hisRequest, rfl, rfl⟩ := hrequest
    have htype' : pk.msg.type = .appendEntries :=
      (Message.received_frame hisRequest n.id).1.symm.trans htype
    have hcalm' : ¬ n.raft.overwrites (pk.msg.received n.id) call.index := by
      rintro ⟨-, hoverwrites⟩
      rw [Message.received, if_pos htype'] at hoverwrites
      exact hcalm n hn pk hpk call hcall hout ⟨htype', hoverwrites⟩
    obtain ⟨raft, hstep, hact⟩ := Option.bind_eq_some_iff.mp hact
    rw [if_pos htype'] at hact
    cases hact
    have hlog : (Node.applyCommitted w.env { n with raft }).raft.log = raft.log := by
      rw [(Node.applyCommitted_frame _ _).1, applicableEntries_eq]
    rw [hlog]
    exact step_keeps_entry hindexed htype hcalm' hentry rfl hstep
  · obtain ⟨⟨r₁, lastApplied, hmoves, hraft⟩, -⟩ :=
      acted_moves h hinput (no_join hjoin hinput) hact
    rw [hraft]
    apply getElem?_of_isPrefix (hmoves.log_grows _) hentry
    exact fun m hm htype => hsent ⟨m, hm, htype⟩

def clients : Invariant where
  node := fun _ _ n => Waiting n.raft.log n.applied n.proposals n.calls
  packet := fun _ _ => True
  seen := fun _ _ _ => True
  node_mono := fun _ h => h
  packet_mono := fun _ h => h
  seen_mono := fun _ h => h

theorem clients_kept (hstatic : Static w) {ok : Cluster → Event → Prop}
    (hok : ∀ c e, ok c e → (e.steady = true ∧ c.Undisturbed e) ∧ c.TermsBelow) :
    clients.Kept w ok where
  boot := by
    intro c i n _ hboot
    obtain ⟨peerAddrs, rfl⟩ := World.boot_eq hboot
    refine ⟨⟨fun k q hq => ?_, fun q call hcall => ?_⟩, trivial⟩
    · simp at hq
    · simp at hcall
  handle := by
    intro c i stimulus n input via n' hreach h hoke hn hinput hact
    obtain ⟨⟨hsteady, hcalm⟩, hbelow⟩ := hok _ _ hoke
    have hjoin : stimulus.isJoin = false := Event.isJoin_of_steady hsteady
    refine ⟨?_, trivial, fun _ _ => trivial⟩
    have hkept := applying_kept hstatic (fun c e he => ⟨(hok c e he).1.1, (hok c e he).2⟩)
    obtain ⟨s, hs⟩ := refines_of_steady hstatic (fun c e he => (hok c e he).1.1) hreach hbelow
    obtain ⟨⟨s', -, -, htracks⟩, -⟩ := hs.acted hstatic hbelow hjoin hn hinput hact
    obtain ⟨hle, hlen, hkeep⟩ := hs.act_keeps hstatic hbelow hjoin hn hinput hact
    have hold := (hkept.reach hreach).node i n hn
    obtain ⟨r, hmoves, hcloses⟩ :=
      acted_closes hreach.orderly hinput (no_join hjoin hinput) hact
    have hindexed := htracks.indexed
    have hrelog : Waiting n'.raft.log n.applied n.proposals n.calls :=
      (h.node i n hn).relog fun call hcall hout hentry =>
        acted_keeps_entry hreach.orderly (hs.node i n hn).tracks.indexed hn hjoin hinput hact
          hcalm hcall hout hentry
    change Waiting n'.raft.log n'.applied n'.proposals n'.calls
    obtain ⟨⟨lastApplied, hraft⟩, -⟩ := hcloses.frame
    cases hcloses with
    | hold => exact hrelog
    | register hpropose hwrite =>
      apply hrelog.register hwrite ⟨rfl, rfl⟩
      rcases propose_cases hpropose with ⟨hno, -⟩ | ⟨-, hidx, matchIndex, -, hcast⟩
      · cases hno
      · obtain ⟨out, -, rfl⟩ := broadcastHeartbeat_eq hcast
        cases hidx
        rw [lastLogIndex_eq (hs.node i n hn).tracks.indexed, Nat.add_sub_cancel]
        exact List.getElem?_concat_length
    | apply =>
      rw [hraft] at hrelog hle hlen hkeep hindexed ⊢
      have hcaught : r.lastApplied = n.raft.commitIndex := hmoves.lastApplied_eq.trans hold.caught
      refine Waiting.apply (r := r) hrelog hindexed (hcaught.trans_le hle) hlen ?_ rfl
      rw [hold.applied, hold.caught, hcaught]
      exact hkeep
  interrupt := fun _ _ _ _ _ _ _ _ _ _ _ _ _ => trivial
  crash := fun _ _ _ _ _ _ _ _ hoke => (Event.not_steady_crash (hok _ _ hoke).1.1).elim
  dial := fun _ _ _ _ _ _ _ _ _ _ _ _ => trivial
  answer := by
    intro c i call success n n' _ h _ hn hanswer
    have hframe := Node.answer_frame hanswer
    have hwaiting := (h.node i n hn).answer hanswer
    obtain ⟨calls, rfl⟩ := hframe
    exact hwaiting

end Cluster

theorem success_acknowledges_own_entry (hstatic : Static w)
    (hreach : Cluster.Reach w (fun c e => e.steady = true ∧ c.Undisturbed e) c)
    (hbelow : c.TermsBelow) (hn : c.node i = some n) {call : Call} (hcall : call ∈ n.calls)
    (hsuccess : call.outcome = some true) :
    n.applied[call.index - 1]? =
      some { index := call.index, term := call.term, data := call.data } := by
  have hbefore := hreach.before (fun _ _ _ hstep h => h.before hstep) hbelow
  have hwaiting := ((Cluster.clients_kept hstatic (fun _ _ h => h)).reach hbefore).node i n hn
  obtain ⟨q, hq⟩ := List.getElem?_of_mem hcall
  have hfair := hwaiting.fair q call hq
  exact hfair.done (by simp [hsuccess]) (hfair.told hsuccess)

/-- A proposal is replicated to B, applied and acknowledged. -/
theorem success_acknowledges_own_entry_replicated :
    ∃ c, Cluster.Reach (mesh ["a", "b", "c"] 1 1) (fun c e => e.steady = true ∧ c.Undisturbed e) c ∧
      ∃ n ∈ c.node "a", ∃ call ∈ n.calls, call.outcome = some true ∧
        n.applied[1]? = some { index := 2, term := 1, data := [7] } := by
  obtain ⟨c, hreach, hbelow, n, hn, call, hcall, hout, hindex, hterm, hdata⟩ :
      ∃ c, Cluster.Reach (mesh ["a", "b", "c"] 1 1) (fun c e => e.steady = true ∧ c.Undisturbed e) c
          ∧
        c.TermsBelow ∧ ∃ n ∈ c.node "a", ∃ call ∈ n.calls, call.outcome = some true ∧
        call.index = 2 ∧ call.term = 1 ∧ call.data = [7] :=
    Reachable.of_any
      [.handle "a" .tick, .dial 0, .handle "b" (.packet 2), .handle "a" (.packet 3),
        .handle "a" (.propose [7]), .dial 6, .handle "b" (.packet 8), .handle "a" (.packet 9),
        .answer "a" 0 true] rfl
  have hown := success_acknowledges_own_entry (mesh_static (by decide) (by decide) 1 1) hreach
    hbelow hn hcall hout
  rw [hindex, hterm, hdata] at hown
  exact ⟨c, hreach, n, hn, call, hcall, hout, hown⟩

/-- A proposes while it is cut off, B wins the next term and commits a proposal of its own,
and B's entry wakes the client of A. -/
theorem success_for_another_entry :
    ∃ c, Cluster.Reach (mesh ["a", "b", "c"] 1 1) (fun _ e => e.steady = true) c ∧
      c.TermsBelow ∧ ∃ n ∈ c.node "a", ∃ call ∈ n.calls, call.outcome = some true ∧
        call.data = [7] ∧
        n.applied[call.index - 1]? = some { index := 2, term := 2, data := [8] } :=
  Reachable.of_any
    [.handle "a" .tick, .dial 0, .handle "b" (.packet 2), .handle "a" (.packet 3),
      .handle "a" (.propose [7]), .handle "b" .tick, .dial 9, .handle "c" (.packet 10),
      .handle "b" (.packet 11), .handle "b" (.propose [8]), .dial 15, .handle "c" (.packet 16),
      .handle "b" (.packet 17), .handle "b" .tick, .dial 18, .handle "a" (.packet 20),
      .answer "a" 0 true] rfl

end Phalanx
