import Phalanx.Safety.Lockstep

/-! The read lease. Between two heartbeats a leader counts the replies it gets, and
followers that have just heard from it neither stand nor vote for a while, so that
no later leader can exist as long as the replies are those of the interval. The code
does not tell when the request behind a reply was sent, nor whose replies it has
counted already, and a vote request of a later term overrules a follower that has
just heard from its leader. -/
namespace Phalanx

open Consensus Go Raft

namespace Timed

/-- No discovery event, no crash, and messages are prompt: a leader is handed a reply only
if the request was put on the wire in the current heartbeat interval, and only one of each
peer; and a node that has a leader is handed no message of a later term but an
AppendEntries. -/
def Prompt (t : Timed) : Beat → Prop
  | .round => True
  | .event e => e.steady = true ∧
    match e with
    | .handle i (.packet k) => ∀ n ∈ t.cluster.node i, ∀ pk ∈ t.cluster.net[k]?,
        (n.raft.counts pk.msg = true →
          (∃ m ∈ pk.cause, t.mark i ≤ m) ∧ pk.msg.sender ∉ t.counted i) ∧
        (n.raft.leaderActive = true → n.raft.currentTerm < pk.msg.term →
          pk.msg.type = .appendEntries)
    | _ => True

instance (t : Timed) : (b : Beat) → Decidable (t.Prompt b)
  | .round => inferInstanceAs (Decidable True)
  | .event (.handle _ (.packet _)) => inferInstanceAs (Decidable (_ ∧ ∀ n ∈ _, ∀ pk ∈ _, _))
  | .event (.handle _ .tick) => inferInstanceAs (Decidable (_ ∧ True))
  | .event (.handle _ (.propose _)) => inferInstanceAs (Decidable (_ ∧ True))
  | .event (.handle _ (.join _ _)) => inferInstanceAs (Decidable (_ ∧ True))
  | .event (.crash _ _) => inferInstanceAs (Decidable (_ ∧ True))
  | .event (.dial _) => inferInstanceAs (Decidable (_ ∧ True))
  | .event (.answer _ _ _) => inferInstanceAs (Decidable (_ ∧ True))

/-- `p` has acknowledged an AppendEntries of the current heartbeat interval of `i`. -/
def Acked (t : Timed) (i : String) (term : Nat) (p : String) : Prop :=
  ∃ pk ∈ t.cluster.net, pk.origin = p ∧ pk.msg.type = .appendEntriesResp ∧
    pk.msg.reject = false ∧ pk.msg.term = term ∧ pk.msg.recipient = i ∧
    ∃ k, pk.cause = some k ∧ t.mark i ≤ k

end Timed

variable {w : World} {c c' : Cluster} {s s' : Protocol} {i j p : String} {n n' : Node}
variable {t t' : Timed} {term : Nat} {bound bound' : Int}

def StickyAt (c : Cluster) (term : Nat) (bound : Int) (p : String) : Prop :=
  ∃ n, c.node p = some n ∧ Sticky term bound n.raft

/-- Either nobody leads a later term than `i`, and then all that have acknowledged are
sticky; or there is a later leader that neither they nor `i` voted for. -/
def Guarded (s : Protocol) (c : Cluster) (i : String) (term : Nat) (bound : Int)
    (A : String → Prop) : Prop :=
  ((∀ t, term < t → s.reign t = none) ∧ ∀ p, A p → StickyAt c term bound p) ∨
    ∃ t k, term < t ∧ s.reign t = some k ∧ i ∉ k.voters ∧ ∀ p, A p → p ∉ k.voters

theorem Refines.not_voter (hs : Refines (fun _ _ => False) w c s) (hn : c.node i = some n)
    (hterm : n.raft.currentTerm = term) {t : Nat} {k : Reign String LogEntry} (hlater : term < t)
    (hk : s.reign t = some k) : i ∉ k.voters := by
  intro hvoter
  have hle := hs.voter_term hk hvoter hn
  omega

theorem Guarded.step {A A' : String → Prop} (h : Guarded s c i term bound A)
    (hs' : Refines (fun _ _ => False) w c' s') (hgrows : Grows s s') (hn : c'.node i = some n)
    (hterm : n.raft.currentTerm = term)
    (hA : ∀ p, A' p → A p ∨ StickyAt c' term bound' p)
    (hkeep : (∀ t, term < t → s.reign t = none) → ∀ p, A p → StickyAt c term bound p →
      StickyAt c' term bound' p) : Guarded s' c' i term bound' A' := by
  have hsticky : ∀ {t : Nat} {k : Reign String LogEntry} {p : String}, term < t →
      s'.reign t = some k → StickyAt c' term bound' p → p ∉ k.voters := by
    intro t k p hlater hk hp
    obtain ⟨m, hm, hp⟩ := hp
    exact hs'.not_voter hm hp.term hlater hk
  rcases h with ⟨hnone, hold⟩ | ⟨t, k, hlater, hk, hi, hold⟩
  · have hall : ∀ p, A' p → StickyAt c' term bound' p := by
      intro p hp
      rcases hA p hp with hp | hp
      · exact hkeep hnone p hp (hold p hp)
      · exact hp
    by_cases hreign : ∃ t k, term < t ∧ s'.reign t = some k
    · obtain ⟨t, k, hlater, hk⟩ := hreign
      exact .inr ⟨t, k, hlater, hk, hs'.not_voter hn hterm hlater hk,
        fun p hp => hsticky hlater hk (hall p hp)⟩
    · refine .inl ⟨fun t hlater => ?_, hall⟩
      cases hk : s'.reign t with
      | none => rfl
      | some k => exact absurd ⟨t, k, hlater, hk⟩ hreign
  · obtain ⟨k', hk', -, hvoters, -⟩ := hgrows.reign t k hk
    refine .inr ⟨t, k', hlater, hk', hvoters ▸ hi, fun p hp => ?_⟩
    rcases hA p hp with hp | hp
    · exact hvoters ▸ hold p hp
    · exact hsticky hlater hk' hp

theorem Guarded.begin (hs : Refines (fun _ _ => False) w c s) (hn : c.node i = some n)
    (hterm : n.raft.currentTerm = term) {A : String → Prop} (hA : ∀ p, ¬ A p) :
    Guarded s c i term bound A := by
  by_cases hreign : ∃ t k, term < t ∧ s.reign t = some k
  · obtain ⟨t, k, hlater, hk⟩ := hreign
    exact .inr ⟨t, k, hlater, hk, hs.not_voter hn hterm hlater hk,
      fun p hp => absurd hp (hA p)⟩
  · refine .inl ⟨fun t hlater => ?_, fun p hp => absurd hp (hA p)⟩
    cases hk : s.reign t with
    | none => rfl
    | some k => exact absurd ⟨t, k, hlater, hk⟩ hreign

namespace Cluster

variable {stimulus : Stimulus} {input : Input} {via : Option (Nat × Packet)}

theorem Mailed.cause_lt {pk : Packet} {k : Nat} (h : Mailed c pk)
    (htype : pk.msg.type = .appendEntriesResp) (hcause : pk.cause = some k) :
    k < c.net.length := by
  obtain ⟨k', req, hcause', hreq, -⟩ := h.reply (not_isRequest_of_type (.inr htype))
  rw [hcause] at hcause'
  cases hcause'
  exact (List.getElem?_eq_some_iff.mp hreq).1

theorem acked_sticky (hstatic : Static w) (hs : Refines (fun _ _ => False) w c s)
    (hn : c.node j = some n) (hinput : c.input j stimulus = some (input, via))
    (hact : n.act w.env input = some n') {pk : Packet}
    (hpk : pk ∈ emitted j n'.raft.msgs via) (htype : pk.msg.type = .appendEntriesResp)
    (hreject : pk.msg.reject = false) : pk.origin = j ∧ Sticky pk.msg.term 0 n'.raft := by
  rcases mem_emitted hpk with ⟨m, hm, hrequest, rfl⟩ | ⟨k, req, m, rfl, hrequest, hm, -, rfl⟩
  · rw [not_isRequest_of_type (.inr htype)] at hrequest
    cases hrequest
  · refine ⟨rfl, ?_⟩
    have hreqType : req.msg.type = .appendEntries := by
      by_contra hne
      rw [Message.answered, if_neg hne] at htype
      cases htype
    rcases input_cases hinput with ⟨hno, -⟩ | ⟨_, hno, -⟩ | ⟨_, _, hno, -⟩ |
      ⟨k', req', -, hreq, -, hvia, hcall⟩
    · cases hno
    · cases hno
    · cases hno
    cases hvia
    rw [if_pos hrequest] at hcall
    subst hcall
    obtain ⟨raft, hstep, hact⟩ := Option.bind_eq_some_iff.mp hact
    rw [if_pos hreqType] at hact
    cases hact
    rw [(Node.applyCommitted_frame _ _).1, applicableEntries_eq] at hm ⊢
    obtain ⟨htypeR, hsenderR, htermR, -⟩ := Message.received_frame hrequest n.id
    obtain ⟨-, -, hterm', hreject'⟩ := Message.answered_frame req.msg m
    have hsender : (req.msg.received n.id).sender ≠ None := by
      rw [hsenderR]
      exact hstatic.named _ (hs.net req (List.mem_of_getElem? hreq)).sender
    obtain ⟨hterm, hsticky⟩ := step_accepts (htypeR.trans hreqType) hsender
      (hs.node j n hn).drained hstep hm (hreject'.symm.trans hreject)
    simp only
    rw [hterm', hterm]
    exact { hsticky with }

theorem acted_sticky (horderly : (orderly w).Holds c) (hs : Refines (fun _ _ => False) w c s)
    (hjoin : stimulus.isJoin = false) (htick : input ≠ .tick)
    (hinput : c.input j stimulus = some (input, via)) (hact : n.act w.env input = some n')
    (hprompt : ∀ k pk, stimulus = .packet k → c.net[k]? = some pk →
      n.raft.leaderActive = true → n.raft.currentTerm < pk.msg.term →
      pk.msg.type = .appendEntries)
    (hnone : ∀ t, term < t → s.reign t = none) (hbound : 0 ≤ bound)
    (h : Sticky term bound n.raft) : Sticky term bound n'.raft := by
  obtain ⟨⟨r₁, lastApplied, hmoves, hraft⟩, -⟩ :=
    acted_moves horderly hinput (no_join hjoin hinput) hact
  have hinbox : ∀ m, input.stepped n.id = some m → m.term ≤ term := by
    intro m hm
    obtain ⟨k, pk, hstimulus, -, hpk, -, hcase⟩ := stepped_packet hinput hm
    have hterm : m.term = pk.msg.term := by
      rcases hcase with ⟨hrequest, -, rfl⟩ | ⟨-, -, rfl⟩
      · exact (Message.received_frame hrequest n.id).2.2.1
      · rfl
    rw [hterm]
    by_contra hlater
    have htype := hprompt k pk hstimulus hpk h.active (by rw [h.term]; omega)
    have hgenuine := (hs.net pk (List.mem_of_getElem? hpk)).genuine.2
    simp only [htype] at hgenuine
    obtain ⟨a, ha, -, haterm, -⟩ := hgenuine
    obtain ⟨k, hk, -⟩ := hs.safe.logs.appendLog a ha
    rw [haterm, hnone _ (by omega)] at hk
    cases hk
  have hsticky := hmoves.sticky (fun t hclock => htick hclock.1) hinbox hbound h
  rw [hraft]
  exact { hsticky with }

end Cluster

open Cluster

namespace Timed

variable {stimulus : Stimulus} {input : Input} {via : Option (Nat × Packet)}

theorem Acked.mono (h : t.Acked i term p) (hnet : ∀ pk ∈ t.cluster.net, pk ∈ t'.cluster.net)
    (hmark : t'.mark i = t.mark i) : t'.Acked i term p := by
  obtain ⟨pk, hpk, horigin, htype, hreject, hterm, hrecipient, k, hcause, hle⟩ := h
  exact ⟨pk, hnet pk hpk, horigin, htype, hreject, hterm, hrecipient, k, hcause, hmark ▸ hle⟩

/-- What a leader's count stands for. -/
structure Leasing (s : Protocol) (t : Timed) (i : String) (r : Raft) : Prop where
  elapsed : 0 ≤ r.heartbeatElapsed
  acked : r.heartbeatAcked = 1 + (t.counted i).length
  nodup : (t.counted i).Nodup
  replied : ∀ p ∈ t.counted i, t.Acked i r.currentTerm p
  guarded : Guarded s t.cluster i r.currentTerm r.heartbeatElapsed (t.Acked i r.currentTerm)

structure Leased (w : World) (s : Protocol) (t : Timed) : Prop where
  refines : Refines (fun _ _ => False) w t.cluster s
  leader : ∀ i n, t.cluster.node i = some n → n.raft.state = .leader → Leasing s t i n.raft

theorem acked_handled (hstatic : Static w) (hs : Refines (fun _ _ => False) w t.cluster s)
    (hs' : Refines (fun _ _ => False) w (t.cluster.completed j n' via) s')
    (hn : t.cluster.node j = some n) (hinput : t.cluster.input j stimulus = some (input, via))
    (hact : n.act w.env input = some n') (hcluster : t'.cluster = t.cluster.completed j n' via)
    (hmark : t'.mark i = t.mark i) (h : t'.Acked i term p) :
    t.Acked i term p ∨ p = j ∧ j ≠ i ∧ Sticky term 0 n'.raft := by
  obtain ⟨pk, hpk, rfl, htype, hreject, rfl, rfl, hcause⟩ := h
  rw [hcluster] at hpk
  rcases List.mem_append.mp hpk with hold | hnew
  · exact .inl ⟨pk, hold, rfl, htype, hreject, rfl, rfl, hmark ▸ hcause⟩
  · obtain ⟨horigin, hsticky⟩ := acked_sticky hstatic hs hn hinput hact hnew htype hreject
    have htransit := hs'.net pk hpk
    have hapart := htransit.apart
    rw [← htransit.origin, horigin] at hapart
    exact .inr ⟨horigin, hapart, hsticky⟩

theorem not_acked_fresh (horderly : (orderly w).Holds t.cluster)
    (hn : t.cluster.node j = some n) (hinput : t.cluster.input j stimulus = some (input, via))
    (hact : n.act w.env input = some n') (hcluster : t'.cluster = t.cluster.completed j n' via)
    (hmark : t'.mark i = t.cluster.net.length) : ¬ t'.Acked i term p := by
  rintro ⟨pk, hpk, -, htype, -, -, -, k, hcause, hle⟩
  have hmailed : Mailed t.cluster pk := by
    rw [hcluster] at hpk
    rcases List.mem_append.mp hpk with hold | hnew
    · exact horderly.packet pk hold
    · exact mailed_emitted horderly hn hinput hact hnew
  have hlt := hmailed.cause_lt htype hcause
  omega

theorem Leasing.begin {r : Raft} (hs : Refines (fun _ _ => False) w t.cluster s)
    (hn : t.cluster.node i = some n) (hterm : n.raft.currentTerm = r.currentTerm)
    (helapsed : r.heartbeatElapsed = 0) (hacked : r.heartbeatAcked = 1)
    (hcounted : t.counted i = []) (hnone : ∀ p, ¬ t.Acked i r.currentTerm p) :
    Leasing s t i r where
  elapsed := helapsed.ge
  acked := by
    rw [hcounted]
    exact hacked
  nodup := by
    rw [hcounted]
    exact List.nodup_nil
  replied := by
    rw [hcounted]
    exact fun p hp => by cases hp
  guarded := .begin hs hn hterm hnone

theorem Leasing.handled_other (hstatic : Static w) (horderly : (orderly w).Holds t.cluster)
    (hs : Refines (fun _ _ => False) w t.cluster s)
    (hs' : Refines (fun _ _ => False) w (t.cluster.completed j n' via) s') (hgrows : Grows s s')
    (hjoin : stimulus.isJoin = false) (htick : input ≠ .tick)
    (hn : t.cluster.node j = some n) (hinput : t.cluster.input j stimulus = some (input, via))
    (hact : n.act w.env input = some n') (hcluster : t'.cluster = t.cluster.completed j n' via)
    (hprompt : Prompt t (.event (.handle j stimulus))) (hij : i ≠ j)
    (hmark : t'.mark i = t.mark i) (hcounted : t'.counted i = t.counted i) {m : Node}
    (hm : t.cluster.node i = some m) (h : Leasing s t i m.raft) : Leasing s' t' i m.raft := by
  have hnode : ∀ q, q ≠ j → t'.cluster.node q = t.cluster.node q := by
    intro q hq
    rw [hcluster]
    exact Function.update_of_ne hq ..
  have hself : t'.cluster.node j = some (n'.release true).1 := by
    rw [hcluster]
    exact Function.update_self ..
  refine { elapsed := h.elapsed, acked := ?_, nodup := ?_, replied := ?_, guarded := ?_ }
  · rw [hcounted]
    exact h.acked
  · rw [hcounted]
    exact h.nodup
  · intro p hp
    rw [hcounted] at hp
    refine (h.replied p hp).mono (fun pk hpk => ?_) hmark
    rw [hcluster]
    exact List.mem_append_left _ hpk
  · apply h.guarded.step (hcluster ▸ hs') hgrows ((hnode i hij).trans hm) rfl
    · intro p hp
      rcases acked_handled hstatic hs hs' hn hinput hact hcluster hmark hp with
        hold | ⟨rfl, -, hsticky⟩
      · exact .inl hold
      · refine .inr ⟨_, hself, hsticky.follower, hsticky.term, hsticky.active, ?_⟩
        exact hsticky.elapsed.trans h.elapsed
    · intro hnone p hp hsticky
      obtain ⟨q, hq, hsticky⟩ := hsticky
      by_cases hpj : p = j
      · subst hpj
        cases hn.symm.trans hq
        have hkept := acted_sticky horderly hs hjoin htick hinput hact
          (fun k pk hstimulus hpk => by
            subst hstimulus
            exact (hprompt.2 n hn pk hpk).2) hnone h.elapsed hsticky
        exact ⟨_, hself, { hkept with }⟩
      · exact ⟨q, (hnode p hpj).trans hq, hsticky⟩

theorem acked_replier (hs : Refines (fun _ _ => False) w t.cluster s)
    (hn : t.cluster.node j = some n) (hinput : t.cluster.input j stimulus = some (input, via))
    (hprompt : Prompt t (.event (.handle j stimulus)))
    (hp : p ∈ t.cluster.replier n.raft stimulus) :
    t.Acked j n.raft.currentTerm p ∧ p ∉ t.counted j := by
  rcases input_cases hinput with ⟨-, rfl, -⟩ | ⟨_, -, rfl, -⟩ | ⟨_, _, -, rfl, -⟩ |
    ⟨k, pk, rfl, hpk, hdest, -, -⟩
  · cases hp
  · cases hp
  · cases hp
  · obtain ⟨pk', hpk', rfl⟩ := List.mem_map.mp hp
    rw [Option.mem_toList, Option.filter_eq_some_iff] at hpk'
    obtain ⟨hmem, hcounts⟩ := hpk'
    cases hpk.symm.trans hmem
    obtain ⟨⟨m, hcause, hle⟩, hfresh⟩ := (hprompt.2 n hn pk hpk).1 hcounts
    obtain ⟨-, htype, hterm, hreject⟩ := of_decide_eq_true hcounts
    have htransit := hs.net pk (List.mem_of_getElem? hpk)
    exact ⟨⟨pk, List.mem_of_getElem? hpk, htransit.origin, htype, hreject, hterm,
      (htransit.dest j hdest).symm, m, hcause, hle⟩, hfresh⟩

theorem replier_nodup (c : Cluster) (r : Raft) (stimulus : Stimulus) :
    (c.replier r stimulus).Nodup := by
  unfold replier
  split
  · cases Option.filter _ _ <;> simp
  · exact List.nodup_nil

theorem Leasing.handled_own (hstatic : Static w) (horderly : (orderly w).Holds t.cluster)
    (hs : Refines (fun _ _ => False) w t.cluster s)
    (hs' : Refines (fun _ _ => False) w (t.cluster.completed j n' via) s') (hgrows : Grows s s')
    (hjoin : stimulus.isJoin = false) (hstimulus : stimulus ≠ .tick)
    (hn : t.cluster.node j = some n) (hinput : t.cluster.input j stimulus = some (input, via))
    (hact : n.act w.env input = some n') (hcluster : t'.cluster = t.cluster.completed j n' via)
    (hprompt : Prompt t (.event (.handle j stimulus)))
    (hcounts : Counts t t' j n.raft n'.raft stimulus) (hlead : n'.raft.state = .leader)
    (h : n.raft.state = .leader → Leasing s t j n.raft) : Leasing s' t' j n'.raft := by
  have hself : t'.cluster.node j = some (n'.release true).1 := by
    rw [hcluster]
    exact Function.update_self ..
  rcases acted_paced horderly hjoin (input_ne_tick hstimulus hinput) hinput hact hlead with
    ⟨hold, helapsed, hacked⟩ | ⟨hold, hterm, helapsed, hacked⟩
  · obtain ⟨-, hmark, hcounted⟩ := hcounts.own.resolve_right (by simp [renews, hlead, hold])
    exact .begin (hcluster ▸ hs') hself rfl helapsed hacked hcounted
      fun p => not_acked_fresh horderly hn hinput hact hcluster hmark
  · have hleasing := h hold
    obtain ⟨-, hmark, hcounted⟩ := hcounts.own.resolve_left (by simp [renews, hold, hstimulus])
    have hnet : ∀ pk ∈ t.cluster.net, pk ∈ t'.cluster.net := by
      rw [hcluster]
      exact fun pk hpk => List.mem_append_left _ hpk
    have hreplier := fun p hp => acked_replier (p := p) hs hn hinput hprompt hp
    refine { elapsed := helapsed ▸ hleasing.elapsed, acked := ?_, nodup := ?_, replied := ?_
             guarded := ?_ }
    · rw [hacked, hcounted, hleasing.acked, List.length_append]
      push_cast
      omega
    · rw [hcounted]
      refine List.nodup_append'.mpr ⟨hleasing.nodup, replier_nodup _ _ _, fun p hp hq => ?_⟩
      exact (hreplier p hq).2 hp
    · intro p hp
      rw [hterm]
      rw [hcounted] at hp
      rcases List.mem_append.mp hp with hp | hp
      · exact (hleasing.replied p hp).mono hnet hmark
      · exact (hreplier p hp).1.mono hnet hmark
    · rw [hterm, helapsed]
      apply hleasing.guarded.step (hcluster ▸ hs') hgrows hself hterm
      · intro p hp
        rcases acked_handled hstatic hs hs' hn hinput hact hcluster hmark hp with
          hp | ⟨-, hno, -⟩
        · exact .inl hp
        · exact absurd rfl hno
      · rintro - p - ⟨q, hq, hsticky⟩
        have hpj : p ≠ j := by
          rintro rfl
          cases hn.symm.trans hq
          rw [hsticky.follower] at hold
          cases hold
        refine ⟨q, ?_, hsticky⟩
        rw [hcluster]
        exact (Function.update_of_ne hpj ..).trans hq

theorem Reach.cluster (h : Reach w Prompt t) :
    Cluster.Reach w (fun _ e => e.steady = true) t.cluster := by
  induction h with
  | start h =>
    obtain ⟨c, hc, rfl⟩ := Option.map_eq_some_iff.mp h
    exact .start hc
  | @step t t' b _ hok h ih =>
    cases b with
    | round =>
      apply round_induction (P := fun t => Cluster.Reach w _ t.cluster) _ h ih
      exact fun t t' j ih h => ih.step rfl (handle_step h)
    | event e =>
      cases e with
      | handle j stimulus =>
        change (if _ then none else _) = _ at h
        split at h
        · cases h
        · exact ih.step hok.1 (handle_step h)
      | _ =>
        obtain ⟨c, hc, h⟩ := Option.bind_eq_some_iff.mp h
        cases h
        exact ih.step hok.1 hc

theorem acked_ticked {members : List String} (h : Ticked members t t')
    (hacked : t'.Acked i term p) :
    ∃ pk ∈ t.cluster.net, pk.origin = p ∧ pk.msg.type = .appendEntriesResp ∧
      pk.msg.reject = false ∧ pk.msg.term = term ∧ pk.msg.recipient = i ∧
      ∃ k, pk.cause = some k ∧ t'.mark i ≤ k := by
  obtain ⟨pk, hpk, horigin, htype, hrest⟩ := hacked
  rcases h.requests pk hpk with hold | hrequest
  · exact ⟨pk, hold, horigin, htype, hrest⟩
  · rw [not_isRequest_of_type (.inr htype)] at hrequest
    cases hrequest

theorem tick_renews {r r' : Raft} (htick : r.tick = some r') (hlead : r'.state = .leader) :
    r.renews r' .tick = true ∧ r'.heartbeatElapsed = 0 ∧ r'.heartbeatAcked = 1 ∨
      r.renews r' .tick = false ∧ r.state = .leader ∧ r'.currentTerm = r.currentTerm ∧
        r.heartbeatElapsed + 1 < r.heartbeatTimeout ∧
        r'.heartbeatElapsed = r.heartbeatElapsed + 1 ∧ r'.heartbeatAcked = r.heartbeatAcked := by
  by_cases hold : r.state = .leader
  · obtain ⟨-, hterm, ⟨hdue, hfresh⟩ | ⟨hearly, hsame⟩⟩ := tick_paced hold htick
    · exact .inl ⟨by simp [renews, hlead, hdue], hfresh⟩
    · exact .inr ⟨by simp [renews, hold, hearly], hold, hterm, hearly, hsame⟩
  · obtain ⟨helapsed, hacked, -⟩ := tick_crowned hold htick hlead
    exact .inl ⟨by simp [renews, hlead, hold], helapsed, hacked⟩

theorem Leasing.ticked (htimeouts : ∀ i ∈ w.members, ∀ j ∈ w.members,
      w.heartbeatTimeout i < w.electionTimeout j)
    (hfits : ∀ j ∈ w.members, w.electionTimeout j ≤ maxElectionTimeout)
    (horderly : (orderly w).Holds t.cluster) (htimers : (timers w).Holds t.cluster)
    (hs' : Refines (fun _ _ => False) w t'.cluster s') (hgrows : Grows s s')
    (hticked : Ticked w.members t t')
    (h : ∀ n, t.cluster.node i = some n → n.raft.state = .leader → Leasing s t i n.raft)
    (hn' : t'.cluster.node i = some n') (hlead : n'.raft.state = .leader) :
    Leasing s' t' i n'.raft := by
  have hi := (hs'.node i n' hn').member
  obtain ⟨n, r, lastApplied, m, hn, htick, hm, hraft, hcount⟩ := hticked.ticks i hi
  cases hn'.symm.trans hm
  rw [hraft] at hlead ⊢
  change r.state = .leader at hlead
  rcases tick_renews htick hlead with ⟨hrenews, helapsed, hacked⟩ |
    ⟨hrenews, hold, hterm, hearly, helapsed, hacked⟩
  · obtain ⟨-, hmark, hcounted⟩ := hcount.resolve_right (by simp [hrenews])
    refine .begin hs' hn' (by rw [hraft]) helapsed hacked hcounted fun p hp => ?_
    obtain ⟨pk, hpk, -, htype, -, -, -, k, hcause, hle⟩ := acked_ticked hticked hp
    have hlt := (horderly.packet pk hpk).cause_lt htype hcause
    omega
  · have hleasing := h n hn hold
    obtain ⟨-, hmark, hcounted⟩ := hcount.resolve_left (by simp [hrenews])
    refine { elapsed := ?_, acked := ?_, nodup := ?_, replied := ?_, guarded := ?_ }
    · have := hleasing.elapsed
      change 0 ≤ r.heartbeatElapsed
      omega
    · rw [hcounted]
      exact hacked.trans hleasing.acked
    · rw [hcounted]
      exact hleasing.nodup
    · intro p hp
      rw [hcounted] at hp
      change t'.Acked i r.currentTerm p
      rw [hterm]
      exact (hleasing.replied p hp).mono hticked.grows hmark
    · change Guarded s' t'.cluster i r.currentTerm r.heartbeatElapsed (t'.Acked i r.currentTerm)
      rw [hterm, helapsed]
      apply hleasing.guarded.step hs' hgrows hn' (by rw [hraft]; exact hterm)
      · intro p hp
        obtain ⟨pk, hpk, hrest⟩ := acked_ticked hticked hp
        rw [hmark] at hrest
        exact .inl ⟨pk, hpk, hrest⟩
      · -- A sticky follower ticks too early to stand: its clock runs with the leader's.
        rintro - p - ⟨q, hq, hsticky⟩
        have hp := (horderly.node p q hq).member
        obtain ⟨q', r', lastApplied', q₁, hq', htick', hq₁, hraft', -⟩ := hticked.ticks p hp
        cases hq.symm.trans hq'
        have htimeout := (htimers.node p q hq).2.2.2 (hfits p hp)
        have hheartbeat := (htimers.node i n hn).2.1
        have hlt := htimeouts i hi p hp
        have hkept := tick_sticky hsticky (by omega) htick'
        refine ⟨q₁, hq₁, ?_⟩
        rw [hraft']
        exact { hkept with }

theorem Leasing.frame {r : Raft} (h : Leasing s t i r) (hmark : t'.mark = t.mark)
    (hcounted : t'.counted = t.counted) (hgrows : ∀ pk ∈ t.cluster.net, pk ∈ t'.cluster.net)
    (hrequests : ∀ pk ∈ t'.cluster.net, pk ∈ t.cluster.net ∨ pk.msg.isRequest = true)
    (hnode : ∀ p n, t.cluster.node p = some n →
      ∃ n', t'.cluster.node p = some n' ∧ n'.raft = n.raft) : Leasing s t' i r := by
  have hacked : ∀ p, t'.Acked i r.currentTerm p → t.Acked i r.currentTerm p := by
    rintro p ⟨pk, hpk, horigin, htype, hrest⟩
    rcases hrequests pk hpk with hold | hrequest
    · exact ⟨pk, hold, horigin, htype, hmark ▸ hrest⟩
    · rw [not_isRequest_of_type (.inr htype)] at hrequest
      cases hrequest
  refine { elapsed := h.elapsed, acked := hcounted ▸ h.acked, nodup := hcounted ▸ h.nodup
           replied := ?_, guarded := ?_ }
  · intro p hp
    rw [hcounted] at hp
    exact (h.replied p hp).mono hgrows (congrFun hmark i)
  · rcases h.guarded with ⟨hnone, hsticky⟩ | ⟨term, k, hlater, hk, hi, hout⟩
    · refine .inl ⟨hnone, fun p hp => ?_⟩
      obtain ⟨n, hn, hn'⟩ := hsticky p (hacked p hp)
      obtain ⟨n', hnode', hraft⟩ := hnode p n hn
      exact ⟨n', hnode', hraft ▸ hn'⟩
    · exact .inr ⟨term, k, hlater, hk, hi, fun p hp => hout p (hacked p hp)⟩

theorem Leased.start (hstatic : Static w) (h : Cluster.start w = some c) :
    ∃ s, Leased w s { cluster := c } := by
  obtain ⟨s, hs⟩ := refines_start hstatic h
  refine ⟨s, hs, fun i n hn hlead => ?_⟩
  have hidle : ∀ i n, c.node i = some n → n.raft.state = .follower := by
    apply start_induction (P := fun c => ∀ i n, c.node i = some n → n.raft.state = .follower) _ _ h
    · exact fun _ _ hn => by cases hn
    · intro c j m _ hboot hc i n hn
      by_cases hij : i = j
      · subst hij
        simp only [setNode, Function.update_self] at hn
        cases hn
        obtain ⟨peerAddrs, rfl⟩ := World.boot_eq hboot
        rfl
      · simp only [setNode, Function.update_of_ne hij] at hn
        exact hc i n hn
  rw [hidle i n hn] at hlead
  cases hlead

theorem Leased.handled (hstatic : Static w) (horderly : (orderly w).Holds t.cluster)
    (h : Leased w s t) (hbelow : t.cluster.TermsBelow)
    (hprompt : Prompt t (.event (.handle j stimulus))) (hstimulus : stimulus ≠ .tick)
    (hstep : t.handle w j stimulus = some t') : ∃ s', Leased w s' t' := by
  have hjoin := Event.isJoin_of_steady hprompt.1
  obtain ⟨rfl, -⟩ | ⟨n, input, via, n', hn, hinput, hact, hcluster, hcounts⟩ := handle_cases hstep
  · exact ⟨s, h⟩
  · obtain ⟨s', hs', hgrows⟩ := h.refines.handled hstatic hbelow hjoin hn hinput hact
    refine ⟨s', hcluster ▸ hs', fun i m hm hlead => ?_⟩
    rw [hcluster] at hm
    by_cases hij : i = j
    · subst hij
      have hself : (t.cluster.completed i n' via).node i = some (n'.release true).1 :=
        Function.update_self ..
      cases hself.symm.trans hm
      have hown := Leasing.handled_own hstatic horderly h.refines hs' hgrows hjoin hstimulus hn
        hinput hact hcluster hprompt hcounts hlead (h.leader i n hn)
      exact { hown with }
    · have hold : t.cluster.node i = some m := (Function.update_of_ne hij ..).symm.trans hm
      exact Leasing.handled_other hstatic horderly h.refines hs' hgrows hjoin
        (input_ne_tick hstimulus hinput) hn hinput hact hcluster hprompt hij
        (hcounts.other i hij).1 (hcounts.other i hij).2 hold (h.leader i m hold hlead)

theorem Leased.step (hstatic : Static w) (htimeouts : ∀ i ∈ w.members, ∀ j ∈ w.members,
      w.heartbeatTimeout i < w.electionTimeout j)
    (hfits : ∀ j ∈ w.members, w.electionTimeout j ≤ maxElectionTimeout)
    (hreach : Reach w Prompt t) (h : Leased w s t) {b : Beat} (hprompt : Prompt t b)
    (hstep : t.step w b = some t') (hbelow : t'.cluster.TermsBelow) : ∃ s', Leased w s' t' := by
  have horderly := hreach.cluster.orderly
  cases b with
  | round =>
    have htimers := (timers_kept w _).reach hreach.cluster
    have hticked := round_ticked hstatic.nodup hstep
    obtain ⟨s', hs', hgrows⟩ := round_refines hstatic h.refines hstep hbelow
    refine ⟨s', hs', fun i m hm hlead => ?_⟩
    exact Leasing.ticked htimeouts hfits horderly htimers hs' hgrows hticked (h.leader i) hm hlead
  | event e =>
    cases e with
    | handle j stimulus =>
      have hbefore := step_below hstep hbelow
      change (if _ then none else _) = _ at hstep
      split at hstep
      · cases hstep
      next hstimulus => exact h.handled hstatic horderly hbefore hprompt hstimulus hstep
    | crash j during => exact (Event.not_steady_crash hprompt.1).elim
    | dial k =>
      obtain ⟨c, hc, hstep⟩ := Option.bind_eq_some_iff.mp hstep
      cases hstep
      refine ⟨s, h.refines.dialled hc, ?_⟩
      obtain ⟨pk, n, dest, hpk, hn, hdest, hresolved, rfl⟩ := step_dial hc
      intro i m hm hlead
      refine (h.leader i m hm hlead).frame rfl rfl (fun _ hold => List.mem_append_left _ hold) ?_
        (fun p q hq => ⟨q, hq, rfl⟩)
      intro pk' hpk'
      rcases List.mem_append.mp hpk' with hold | hadded
      · exact .inl hold
      · -- A response is put on the wire with its destination, so only a request is dialled.
        right
        rw [List.mem_singleton.mp hadded]
        by_contra hreply
        obtain ⟨_, _, -, -, -, -, hsome, -⟩ := (horderly.packet pk
          (List.mem_of_getElem? hpk)).reply (eq_false_of_ne_true hreply)
        rw [hdest] at hsome
        cases hsome
    | answer j call success =>
      obtain ⟨c, hc, hstep⟩ := Option.bind_eq_some_iff.mp hstep
      cases hstep
      refine ⟨s, h.refines.answered hc, ?_⟩
      obtain ⟨n, n', hn, hanswer, rfl⟩ := step_answer hc
      obtain ⟨calls, rfl⟩ := Node.answer_frame hanswer
      have hnode : ∀ p q, t.cluster.node p = some q → ∃ q',
          Function.update t.cluster.node j (some { n with calls }) p = some q' ∧
            q'.raft = q.raft := by
        intro p q hq
        by_cases hpj : p = j
        · subst hpj
          cases hn.symm.trans hq
          exact ⟨_, Function.update_self .., rfl⟩
        · exact ⟨q, (Function.update_of_ne hpj ..).trans hq, rfl⟩
      intro i m hm hlead
      obtain ⟨m₀, hm₀⟩ : ∃ m₀, t.cluster.node i = some m₀ := by
        by_cases hij : i = j
        · exact ⟨n, hij ▸ hn⟩
        · exact ⟨m, (Function.update_of_ne hij ..).symm.trans hm⟩
      obtain ⟨m', hm', hraft⟩ := hnode i m₀ hm₀
      cases hm.symm.trans hm'
      rw [hraft] at hlead ⊢
      exact (h.leader i m₀ hm₀ hlead).frame rfl rfl (fun _ hold => hold) (fun _ hold => .inl hold)
        hnode

theorem Reach.leased (hstatic : Static w) (htimeouts : ∀ i ∈ w.members, ∀ j ∈ w.members,
      w.heartbeatTimeout i < w.electionTimeout j)
    (hfits : ∀ j ∈ w.members, w.electionTimeout j ≤ maxElectionTimeout)
    (hreach : Reach w Prompt t) (hbelow : t.cluster.TermsBelow) : ∃ s, Leased w s t := by
  induction hreach with
  | start h =>
    obtain ⟨c, hc, rfl⟩ := Option.map_eq_some_iff.mp h
    exact Leased.start hstatic hc
  | step hreach hok hstep ih =>
    obtain ⟨s, hs⟩ := ih (step_below hstep hbelow)
    exact hs.step hstatic htimeouts hfits hreach hok hstep hbelow

/-- A leader that has counted a quorum is the last one there was. -/
theorem Leased.last_leader (h : Leased w s t) (hn : t.cluster.node i = some n)
    (hread : n.servesRead = true) {j : String} {r : Raft} (hr : (j, r) ∈ t.cluster.hist)
    (hlead : r.state = .leader) : r.currentTerm ≤ n.raft.currentTerm := by
  obtain ⟨hleader, hquorum⟩ := of_decide_eq_true hread
  have hleasing := h.leader i n hn hleader
  have hhosts := h.refines.node i n hn
  have hvoters : Majority w.members.toFinset (insert i (t.counted i).toFinset) := by
    have hi : i ∉ (t.counted i).toFinset := by
      intro hmem
      obtain ⟨pk, hpk, horigin, -, -, -, hrecipient, -⟩ :=
        hleasing.replied i (List.mem_toFinset.mp hmem)
      have htransit := h.refines.net pk hpk
      exact htransit.apart (htransit.origin.symm.trans (horigin.trans hrecipient.symm))
    apply hhosts.tracks.majority (List.mem_toFinset.mpr hhosts.member)
    · intro p hp
      rw [List.mem_toFinset]
      rcases Finset.mem_insert.mp hp with rfl | hp
      · exact hhosts.member
      · obtain ⟨pk, hpk, horigin, -⟩ := hleasing.replied p (List.mem_toFinset.mp hp)
        have htransit := h.refines.net pk hpk
        rw [← horigin, htransit.origin]
        exact htransit.sender
    · rw [Finset.card_insert_of_notMem hi, List.toFinset_card_of_nodup hleasing.nodup]
      have hcount := (of_decide_eq_true hquorum).2
      rw [hleasing.acked] at hcount
      omega
  obtain ⟨k, hk, -⟩ := h.refines.hist _ hr hlead
  by_contra hlater
  rcases hleasing.guarded with ⟨hnone, -⟩ | ⟨term, k', -, hk', hi, hout⟩
  · rw [hnone _ (not_le.mp hlater)] at hk
    cases hk
  · obtain ⟨hmajority, -⟩ := h.refines.safe.votes.reignVotes term k' hk'
    obtain ⟨q, hq, hvoter⟩ := majority_meet _ hvoters hmajority
    rcases Finset.mem_insert.mp hq with rfl | hq
    · exact hi hvoter
    · exact hout q (hleasing.replied q (List.mem_toFinset.mp hq)) hvoter

end Timed

def Raft.committedOwn (r : Raft) : Bool :=
  r.state = .leader ∧ 0 < r.commitIndex ∧ r.logTerm r.commitIndex = r.currentTerm

theorem deposed_leader_serves_no_read (hstatic : Static w)
    (htimeouts : ∀ i ∈ w.members, ∀ j ∈ w.members, w.heartbeatTimeout i < w.electionTimeout j)
    (hfits : ∀ j ∈ w.members, w.electionTimeout j ≤ maxElectionTimeout)
    (hreach : Timed.Reach w Timed.Prompt t) (hbelow : t.cluster.TermsBelow)
    (hn : t.cluster.node i = some n) (hread : n.servesRead = true) :
    ∀ seen ∈ t.cluster.hist, seen.2.committedOwn = true →
      seen.2.currentTerm ≤ n.raft.currentTerm := by
  intro seen hseen hcommitted
  obtain ⟨s, hs⟩ := hreach.leased hstatic htimeouts hfits hbelow
  exact hs.last_leader hn hread hseen (of_decide_eq_true hcommitted).1

/-- The mesh with two lengths of the election timeout: A draws the shorter one. -/
def skewed (members : List String) (electionTimeout heartbeatTimeout : Int) : World :=
  { mesh members electionTimeout heartbeatTimeout with
    env :=
      { (mesh members electionTimeout heartbeatTimeout).env with
        newSource := fun seed _ => if seed = (djb2 "a").toInt64.toInt then 0 else 1 } }

theorem skewed_static {members : List String} (hnodup : members.Nodup)
    (hnamed : None ∉ members) (electionTimeout heartbeatTimeout : Int) :
    Static (skewed members electionTimeout heartbeatTimeout) where
  nodup := hnodup
  named := fun i hi h => hnamed (h ▸ hi)
  peersNodup := fun _ _ => hnodup.filter _
  peers := fun i _ p => by simp [skewed, mesh]
  wired := by
    intro i _ store n hboot p _ _
    obtain ⟨n₀, hnew, hboot⟩ := Option.bind_eq_some_iff.mp hboot
    cases hboot
    obtain ⟨raft, -, hn⟩ := Option.bind_eq_some_iff.mp hnew
    cases hn
    simp [skewed, mesh, Node.resolvePeerAddr]

/-- A wins term 1, B acknowledges its first entry at once, and A serves a read. -/
theorem deposed_leader_serves_no_read_prompt :
    ∃ t, Timed.Reach (skewed ["a", "b", "c"] 2 1) Timed.Prompt t ∧
      ∃ n ∈ t.cluster.node "a", n.servesRead = true ∧
        ∀ seen ∈ t.cluster.hist, seen.2.committedOwn = true →
          seen.2.currentTerm ≤ n.raft.currentTerm := by
  obtain ⟨t, hreach, hbelow, n, hn, hread⟩ : ∃ t,
      Timed.Reach (skewed ["a", "b", "c"] 2 1) Timed.Prompt t ∧ t.cluster.TermsBelow ∧
        ∃ n ∈ t.cluster.node "a", n.servesRead = true :=
    Reachable.of_any [.round, .round, .event (.dial 0), .event (.handle "b" (.packet 2)),
      .event (.handle "a" (.packet 3)), .event (.dial 4), .event (.handle "b" (.packet 6)),
      .event (.handle "a" (.packet 7))] rfl
  have hlast := deposed_leader_serves_no_read (skewed_static (by decide) (by decide) 2 1)
    (fun _ _ _ _ => show (1 : Int) < 2 by decide)
    (fun _ _ => show (2 : Int) ≤ maxElectionTimeout by decide) hreach hbelow hn hread
  exact ⟨t, hreach, n, hn, hread, hlast⟩

/-- A wins term 1 and is cut off for three rounds, in which B, elected by C, commits an
entry of term 2. Then A is handed the reply of B to its first AppendEntries. Nothing is
delivered twice. -/
theorem late_reply_opens_stale_read :
    ∃ beats : List Beat, (beats.filter Beat.delivers).Nodup ∧
      ∃ t ∈ Timed.run (skewed ["a", "b", "c"] 2 1) (fun _ b => b.steady = true) beats,
        t.cluster.TermsBelow ∧ ∃ n ∈ t.cluster.node "a", n.servesRead = true ∧
          ∃ seen ∈ t.cluster.hist, seen.2.committedOwn = true ∧
            n.raft.currentTerm < seen.2.currentTerm := by
  refine ⟨[.round, .round, .event (.dial 0), .event (.handle "b" (.packet 2)),
    .event (.handle "a" (.packet 3)), .event (.dial 4), .event (.handle "b" (.packet 6)),
    .event (.dial 5), .event (.handle "c" (.packet 8)), .round, .event (.dial 11),
    .event (.handle "c" (.packet 12)), .round, .round, .event (.dial 19),
    .event (.handle "c" (.packet 20)), .event (.handle "b" (.packet 21)), .event (.dial 23),
    .event (.handle "c" (.packet 24)), .event (.handle "b" (.packet 25)),
    .event (.handle "a" (.packet 7))], by decide, ?_⟩
  apply of_decide_eq_true
  rfl

end Phalanx
