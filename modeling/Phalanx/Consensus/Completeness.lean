import Phalanx.Consensus.Matching

/-! Leader completeness and agreement on commits, as long as no node that crashes
has anything in its log. What a node has acknowledged it keeps until it follows a
later leader whose log differs there. No leader of a later term differs from an
entry that a quorum has acknowledged: by induction on the term, since the quorum
that elected it shares a voter with the quorum that acknowledged. -/
namespace Phalanx.Consensus

variable {ι ε : Type}
variable {key : ε → Nat} {Q C : Nat → Finset ι → Prop} {mayCrash : State ι ε → ι → Prop}
variable {s s' : State ι ε}

/-- The log `l` has what `a` acknowledges, or one of the `reached` ledgers differs. -/
def Retained (s : State ι ε) (a : Ack ι) (l : List ε) (reached : Nat → Prop) : Prop :=
  ∀ n ≤ a.index, (s.ledger a.term).take n <+: l ∨
    ∃ t, a.term < t ∧ reached t ∧ Diverge ((s.ledger a.term).take n) (s.ledger t)

/-- The terms whose leader may have changed the log of `p`. -/
def Peer.heard (p : Peer ι ε) (t : Nat) : Prop := t < p.term ∨ t = p.term ∧ p.active = true

theorem Peer.heard_lt {p : Peer ι ε} {t term : Nat} (h : p.heard t) (hterm : p.term < term) :
    t < term := by
  rcases h with ht | ⟨rfl, -⟩
  · exact ht.trans hterm
  · exact hterm

structure Kept (s : State ι ε) : Prop where
  ackTerm : ∀ a ∈ s.acks, a.term ≤ (s.peer a.node).term
  ackIndex : ∀ a ∈ s.acks, a.index ≤ (s.ledger a.term).length
  ackLog : ∀ a ∈ s.acks, (s.peer a.node).log ≠ []
  peerKept : ∀ a ∈ s.acks, Retained s a (s.peer a.node).log (s.peer a.node).heard
  grantKept : ∀ g ∈ s.grants, ∀ a ∈ s.acks, a.node = g.voter → a.term < g.term →
    Retained s a g.log (· < g.term)
  requestKept : ∀ r ∈ s.requests, ∀ a ∈ s.acks, a.node = r.cand → a.term < r.term →
    Retained s a r.log (· < r.term)

/-- A quorum has acknowledged the entry at position `n` in the entry's own term. -/
def Chosen (key : ε → Nat) (C : Nat → Finset ι → Prop) (s : State ι ε) (t n : Nat) : Prop :=
  (∃ e, 0 < n ∧ (s.ledger t)[n - 1]? = some e ∧ key e = t) ∧
    ∃ S, C t S ∧ ∀ q ∈ S, ∃ k, n ≤ k ∧ ⟨q, t, k⟩ ∈ s.acks

def Settled (key : ε → Nat) (C : Nat → Finset ι → Prop) (s : State ι ε) (t : Nat) (l : List ε)
    (n : Nat) : Prop :=
  n ≤ l.length ∧ (n = 0 ∨ ∃ t' m, t' ≤ t ∧ Chosen key C s t' m ∧ n ≤ m ∧
    l.take n <+: s.ledger t')

structure Commits (key : ε → Nat) (C : Nat → Finset ι → Prop) (s : State ι ε) : Prop where
  peerCommit : ∀ i, Settled key C s (s.peer i).term (s.peer i).log (s.peer i).commit
  appendCommit : ∀ a ∈ s.appends, Settled key C s a.term a.log a.commit

theorem Kept.init {peer : ι → Peer ι ε} : Kept (State.init peer) := by
  constructor <;> simp [State.init]

theorem Commits.init {peer : ι → Peer ι ε} (hcommit : ∀ i, (peer i).commit = 0) :
    Commits key C (State.init peer) := by
  constructor <;> simp [State.init, hcommit, Settled]

theorem Retained.mono {a : Ack ι} {l l' : List ε} {reached reached' : Nat → Prop}
    (h : Retained s a l reached) (hindex : a.index ≤ (s.ledger a.term).length)
    (hledger : ∀ t, s.ledger t <+: s'.ledger t) (hl : l <+: l')
    (hreached : ∀ t, reached t → reached' t) : Retained s' a l' reached' := by
  intro n hn
  rw [take_eq_of_isPrefix (hledger a.term) (hn.trans hindex)]
  rcases h n hn with hkept | ⟨t, hlt, ht, hdiv⟩
  · exact .inl (hkept.trans hl)
  · exact .inr ⟨t, hlt, hreached t ht, hdiv.mono (List.prefix_refl _) (hledger t)⟩

theorem Chosen.mono {t n : Nat} (h : Chosen key C s t n)
    (hledger : ∀ t, s.ledger t <+: s'.ledger t) (hacks : s.acks ⊆ s'.acks) :
    Chosen key C s' t n := by
  obtain ⟨⟨e, hn, he, hkey⟩, S, hC, hS⟩ := h
  refine ⟨⟨e, hn, getElem?_of_isPrefix (hledger t) he, hkey⟩, S, hC, ?_⟩
  intro q hq
  obtain ⟨k, hk, hack⟩ := hS q hq
  exact ⟨k, hk, hacks hack⟩

theorem Settled.mono {t t' n : Nat} {l l' : List ε} (h : Settled key C s t l n)
    (hledger : ∀ t, s.ledger t <+: s'.ledger t) (hacks : s.acks ⊆ s'.acks) (ht : t ≤ t')
    (hl : l <+: l') : Settled key C s' t' l' n := by
  obtain ⟨hlen, h⟩ := h
  refine ⟨hlen.trans hl.length_le, h.imp id ?_⟩
  rintro ⟨u, m, hu, hm, hnm, hpre⟩
  rw [take_eq_of_isPrefix hl hlen]
  exact ⟨u, m, hu.trans ht, hm.mono hledger hacks, hnm, hpre.trans (hledger u)⟩

theorem Logs.upToDate_carries (h : Logs key s) {p l base : List ε} {e : ε} {t t' : Nat}
    (hp : p <+: l) (he : p.getLast? = some e) (hkey : key e = t) (hpos : 0 < t)
    (hl : Sound key s l) (hbase : Sound key s base) (hbound : ∀ x ∈ base, key x < t')
    (hup : UpToDate key base l)
    (hlater : ∀ u, t < u → u < t' → s.ledger u ≠ [] → p <+: s.ledger u) : p <+: base := by
  have hpne : p ≠ [] := by
    rintro rfl
    simp at he
  have hlne : l ≠ [] := hp.ne_nil hpne
  have hplen := List.length_pos_iff.mpr hpne
  have hllen : p.length ≤ l.length := hp.length_le
  have hpe : p[p.length - 1]? = some e := by rw [← List.getLast?_eq_getElem?, he]
  have hlast : l[l.length - 1]? = some (l.getLast hlne) := by
    rw [← List.getLast?_eq_getElem?, List.getLast?_eq_some_getLast]
  have hlk : lastKey key l = key (l.getLast hlne) := by
    simp [lastKey, List.getLast?_eq_some_getLast hlne]
  have hle : t ≤ lastKey key l := by
    rw [hlk, ← hkey]
    exact h.key_le hl (by omega) (getElem?_of_isPrefix hp hpe) hlast
  have hbne : base ≠ [] := by
    rintro rfl
    simp only [UpToDate, lastKey, List.getLast?_nil, Option.map_none, Option.getD_none] at hup
    simp only [lastKey] at hle
    omega
  have hbpre := hbase.isPrefix_ledger hbne
  have hbk : lastKey key base = key (base.getLast hbne) := by
    simp [lastKey, List.getLast?_eq_some_getLast hbne]
  rcases hup with hlt | ⟨heq, hlen⟩
  · -- The later leader whose entry ends `base` had `p`, and `base` ends above it.
    have hpre : p <+: s.ledger (lastKey key base) := by
      apply hlater
      · omega
      · rw [hbk]
        exact hbound _ (List.getLast_mem hbne)
      · exact hbpre.ne_nil hbne
    rcases List.prefix_or_prefix_of_prefix hpre hbpre with hpb | hbp
    · exact hpb
    · exfalso
      have hblast : base[base.length - 1]? = some (base.getLast hbne) := by
        rw [← List.getLast?_eq_getElem?, List.getLast?_eq_some_getLast]
      have hsound : Sound key s p := hl.of_isPrefix hp
      have hblen : base.length ≤ p.length := hbp.length_le
      have := h.key_le hsound (by omega) (getElem?_of_isPrefix hbp hblast) hpe
      omega
  · have hlpre := hl.isPrefix_ledger hlne
    rw [heq] at hlpre
    exact hp.trans (List.prefix_of_prefix_length_le hlpre hbpre hlen)

/-- Whatever a quorum acknowledged in its own term is in the log that any leader of a
later term started from. -/
theorem Kept.complete (h : Kept s) (hl : Logs key s) (hv : Votes key Q mayCrash s)
    (hmeet : ∀ t t', Meet (C t) (Q t')) {t n : Nat} (hchosen : Chosen key C s t n) :
    ∀ (t' : Nat) (r : Reign ι ε), t < t' → s.reign t' = some r →
      (s.ledger t).take n <+: r.base := by
  obtain ⟨⟨e, hn, he, hkey⟩, S, hC, hS⟩ := hchosen
  have hlast : ((s.ledger t).take n).getLast? = some e := by
    have hlen := (List.getElem?_eq_some_iff.mp he).1
    rw [List.getLast?_eq_getElem?, List.length_take, Nat.min_eq_left (by omega),
      List.getElem?_take_of_lt (by omega), he]
  have hpos : 0 < t := hkey ▸ hl.key_pos hv (hl.ledgerSound t) (List.mem_of_getElem? he)
  intro t'
  induction t' using Nat.strong_induction_on with
  | _ t' ih =>
    intro r hlt hr
    have hlater : ∀ u, t < u → u < t' → s.ledger u ≠ [] →
        (s.ledger t).take n <+: s.ledger u := by
      intro u htu hut hne
      obtain ⟨ru, hru⟩ := reign_of_ledger_ne_nil hne
      rw [ledger_eq hru]
      exact (ih u hut ru htu hru).trans (List.prefix_append _ _)
    have hno : ∀ u, t < u → u < t' → ¬ Diverge ((s.ledger t).take n) (s.ledger u) := by
      intro u htu hut hdiv
      have hne : s.ledger u ≠ [] := by
        obtain ⟨k, a, b, -, hb, -⟩ := hdiv
        intro hnil
        simp [hnil] at hb
      exact not_diverge_of_isPrefix (hlater u htu hut hne) hdiv
    obtain ⟨hQ, hleader, hreq, hvotes⟩ := hv.reignVotes t' r hr
    obtain ⟨q, hqS, hqV⟩ := hmeet _ _ hC hQ
    obtain ⟨k, hk, hack⟩ := hS q hqS
    rcases hvotes q hqV with rfl | ⟨l, hg⟩
    · rcases h.requestKept _ hreq _ hack rfl hlt n hk with hpre | ⟨u, htu, hut, hdiv⟩
      · exact hpre
      · exact absurd hdiv (hno u htu hut)
    · rcases h.grantKept _ hg _ hack rfl hlt n hk with hpre | ⟨u, htu, hut, hdiv⟩
      · obtain ⟨l', hl', hup⟩ := hv.grantRequest _ hg
        have hsame : l' = r.base := hv.requestUnique _ hl' _ hreq rfl rfl
        rw [hsame] at hup
        exact hl.upToDate_carries hpre hlast hkey hpos (hl.grantSound _ hg)
          (hl.requestSound _ hreq) (hl.requestBound _ hreq) hup hlater
      · exact absurd hdiv (hno u htu hut)

theorem Kept.settled_ledger (h : Kept s) (hl : Logs key s) (hv : Votes key Q mayCrash s)
    (hmeet : ∀ t t', Meet (C t) (Q t')) {t t' n : Nat} {l : List ε} {r : Reign ι ε}
    (hsettled : Settled key C s t l n) (ht : t ≤ t') (hr : s.reign t' = some r) :
    l.take n <+: s.ledger t' := by
  obtain ⟨hlen, rfl | ⟨u, m, hu, hm, hnm, hpre⟩⟩ := hsettled
  · simp
  · rcases Nat.lt_or_eq_of_le (hu.trans ht) with hlt | rfl
    · have hbase := h.complete hl hv hmeet hm t' r hlt hr
      rw [ledger_eq hr]
      exact (take_isPrefix_take hpre hnm).trans (hbase.trans (List.prefix_append _ _))
    · exact hpre

theorem Kept.settled_base (h : Kept s) (hl : Logs key s) (hv : Votes key Q mayCrash s)
    (hmeet : ∀ t t', Meet (C t) (Q t')) {t t' n : Nat} {l : List ε} {r : Reign ι ε}
    (hsettled : Settled key C s t l n) (ht : t < t') (hr : s.reign t' = some r) :
    l.take n <+: r.base := by
  obtain ⟨hlen, rfl | ⟨u, m, hu, hm, hnm, hpre⟩⟩ := hsettled
  · simp
  · exact (take_isPrefix_take hpre hnm).trans (h.complete hl hv hmeet hm t' r (by omega) hr)

theorem Kept.settled_agree (h : Kept s) (hl : Logs key s) (hv : Votes key Q mayCrash s)
    (hmeet : ∀ t t', Meet (C t) (Q t')) {t t' n n' : Nat} {l l' : List ε}
    (hs : Settled key C s t l n) (hs' : Settled key C s t' l' n') :
    l.take n <+: l'.take n' ∨ l'.take n' <+: l.take n := by
  obtain ⟨hlen, rfl | ⟨u, m, -, hm, hnm, hpre⟩⟩ := hs
  · simp
  obtain ⟨hlen', rfl | ⟨u', m', -, hm', hnm', hpre'⟩⟩ := hs'
  · simp
  have hreign : ∀ {v k}, Chosen key C s v k → ∃ r, s.reign v = some r := by
    rintro v k ⟨⟨e, -, he, -⟩, -⟩
    exact reign_of_ledger_ne_nil (List.ne_nil_of_mem (List.mem_of_getElem? he))
  rcases Nat.le_total u u' with hu | hu
  · obtain ⟨r, hr⟩ := hreign hm'
    exact List.prefix_or_prefix_of_prefix
      (h.settled_ledger hl hv hmeet ⟨hlen, .inr ⟨u, m, le_rfl, hm, hnm, hpre⟩⟩ hu hr) hpre'
  · obtain ⟨r, hr⟩ := hreign hm
    exact List.prefix_or_prefix_of_prefix hpre
      (h.settled_ledger hl hv hmeet ⟨hlen', .inr ⟨u', m', le_rfl, hm', hnm', hpre'⟩⟩ hu hr)

private theorem Kept.frame (h : Kept s) (hledger : ∀ t, s'.ledger t = s.ledger t)
    (hacks : s'.acks = s.acks)
    (hpeer : ∀ i, (s'.peer i).log = (s.peer i).log ∧ (s.peer i).term ≤ (s'.peer i).term ∧
      ∀ t, (s.peer i).heard t → (s'.peer i).heard t)
    (hgrants : ∀ g ∈ s'.grants, g ∈ s.grants ∨
      g.log = (s.peer g.voter).log ∧ ∀ t, (s.peer g.voter).heard t → t < g.term)
    (hrequests : ∀ r ∈ s'.requests, r ∈ s.requests ∨
      r.log = (s.peer r.cand).log ∧ ∀ t, (s.peer r.cand).heard t → t < r.term) : Kept s' := by
  have hmono : ∀ t, s.ledger t <+: s'.ledger t := by
    intro t
    rw [hledger]
  refine
    { ackTerm := ?_, ackIndex := ?_, ackLog := ?_, peerKept := ?_, grantKept := ?_
      requestKept := ?_ }
  · intro a ha
    rw [hacks] at ha
    exact (h.ackTerm a ha).trans (hpeer a.node).2.1
  · intro a ha
    rw [hacks] at ha
    rw [hledger]
    exact h.ackIndex a ha
  · intro a ha
    rw [hacks] at ha
    rw [(hpeer a.node).1]
    exact h.ackLog a ha
  · intro a ha
    rw [hacks] at ha
    rw [(hpeer a.node).1]
    exact (h.peerKept a ha).mono (h.ackIndex a ha) hmono (List.prefix_refl _) (hpeer a.node).2.2
  · intro g hg a ha hnode hlt
    rw [hacks] at ha
    rcases hgrants g hg with hold | ⟨hlog, hheard⟩
    · exact (h.grantKept g hold a ha hnode hlt).mono (h.ackIndex a ha) hmono
        (List.prefix_refl _) fun _ ht => ht
    · rw [hlog, ← hnode]
      rw [← hnode] at hheard
      exact (h.peerKept a ha).mono (h.ackIndex a ha) hmono (List.prefix_refl _) hheard
  · intro r hr a ha hnode hlt
    rw [hacks] at ha
    rcases hrequests r hr with hold | ⟨hlog, hheard⟩
    · exact (h.requestKept r hold a ha hnode hlt).mono (h.ackIndex a ha) hmono
        (List.prefix_refl _) fun _ ht => ht
    · rw [hlog, ← hnode]
      rw [← hnode] at hheard
      exact (h.peerKept a ha).mono (h.ackIndex a ha) hmono (List.prefix_refl _) hheard

/-- One node acknowledges a beginning of the ledger of its current term. -/
private theorem Kept.ack (h : Kept s) (hv : Votes key Q mayCrash s) {i : ι} {k : Nat}
    (hledger : ∀ t, s.ledger t <+: s'.ledger t)
    (hacks : s'.acks = insert ⟨i, (s.peer i).term, k⟩ s.acks)
    (hgrants : s'.grants = s.grants) (hrequests : s'.requests = s.requests)
    (hother : ∀ j, j ≠ i → s'.peer j = s.peer j) (hterm : (s'.peer i).term = (s.peer i).term)
    (hne : (s'.peer i).log ≠ []) (hk : k ≤ (s'.peer i).log.length)
    (hnew : (s'.peer i).log <+: s'.ledger (s.peer i).term)
    (hkept : ∀ a ∈ s.acks, a.node = i → Retained s' a (s'.peer i).log (s'.peer i).heard) :
    Kept s' := by
  refine
    { ackTerm := ?_, ackIndex := ?_, ackLog := ?_, peerKept := ?_, grantKept := ?_
      requestKept := ?_ }
  · intro a ha
    rw [hacks] at ha
    rcases ha with rfl | ha
    · exact hterm.ge
    · by_cases hj : a.node = i
      · rw [hj, hterm, ← hj]
        exact h.ackTerm a ha
      · rw [hother _ hj]
        exact h.ackTerm a ha
  · intro a ha
    rw [hacks] at ha
    rcases ha with rfl | ha
    · exact hk.trans hnew.length_le
    · exact (h.ackIndex a ha).trans (hledger _).length_le
  · intro a ha
    rw [hacks] at ha
    rcases ha with rfl | ha
    · exact hne
    · by_cases hj : a.node = i
      · rwa [hj]
      · rw [hother _ hj]
        exact h.ackLog a ha
  · intro a ha
    rw [hacks] at ha
    rcases ha with rfl | ha
    · intro n hn
      left
      have := List.prefix_of_prefix_length_le (List.take_prefix n _) hnew
      apply this
      rw [List.length_take]
      exact (Nat.min_le_left _ _).trans (le_trans hn hk)
    · by_cases hj : a.node = i
      · rw [hj]
        exact hkept a ha hj
      · rw [hother _ hj]
        exact (h.peerKept a ha).mono (h.ackIndex a ha) hledger (List.prefix_refl _) fun _ ht => ht
  · -- A node votes in no term above its own, so a fresh acknowledgement is never older.
    intro g hg a ha hnode hlt
    rw [hgrants] at hg
    rw [hacks] at ha
    rcases ha with rfl | ha
    · exfalso
      have hvote := (hv.grantVote g hg).2
      simp only at hnode hlt
      rw [← hnode] at hvote
      omega
    · exact (h.grantKept g hg a ha hnode hlt).mono (h.ackIndex a ha) hledger
        (List.prefix_refl _) fun _ ht => ht
  · intro r hr a ha hnode hlt
    rw [hrequests] at hr
    rw [hacks] at ha
    rcases ha with rfl | ha
    · exfalso
      have hreq := hv.requestTerm r hr
      simp only at hnode hlt
      rw [← hnode] at hreq
      omega
    · exact (h.requestKept r hr a ha hnode hlt).mono (h.ackIndex a ha) hledger
        (List.prefix_refl _) fun _ ht => ht

private theorem Commits.frame (h : Commits key C s)
    (hledger : ∀ t, s.ledger t <+: s'.ledger t) (hacks : s.acks ⊆ s'.acks)
    (hpeer : ∀ i, (s'.peer i).commit = (s.peer i).commit ∧ (s.peer i).log <+: (s'.peer i).log ∧
      (s.peer i).term ≤ (s'.peer i).term)
    (happends : s'.appends = s.appends) : Commits key C s' := by
  refine { peerCommit := ?_, appendCommit := ?_ }
  · intro i
    obtain ⟨hcommit, hlog, hterm⟩ := hpeer i
    rw [hcommit]
    exact (h.peerCommit i).mono hledger hacks hterm hlog
  · intro a ha
    rw [happends] at ha
    exact (h.appendCommit a ha).mono hledger hacks le_rfl (List.prefix_refl _)

theorem Commits.accept_keeps (h : Commits key C s) (hk : Kept s) (hl : Logs key s)
    (hv : Votes key Q mayCrash s) (hmeet : ∀ t t', Meet (C t) (Q t')) {i : ι} {a : Append ι ε}
    {log : List ε} (ha : a ∈ s.appends) (hterm : a.term = (s.peer i).term)
    (hcase : (a.log <+: (s.peer i).log ∧ log = (s.peer i).log) ∨
      (¬ a.log <+: (s.peer i).log ∧ log = a.log)) :
    (s.peer i).log.take (s.peer i).commit <+: log := by
  rcases hcase with ⟨-, rfl⟩ | ⟨hnot, rfl⟩
  · exact List.take_prefix _ _
  · obtain ⟨r, hr, hlog, -⟩ := hl.appendLog a ha
    rw [← ledger_eq hr] at hlog
    have hpre := hk.settled_ledger hl hv hmeet (h.peerCommit i) hterm.ge hr
    rcases List.prefix_or_prefix_of_prefix hpre hlog with hp | hp
    · exact hp
    · exact absurd (hp.trans (List.take_prefix _ _)) hnot

variable [DecidableEq ι]

private theorem Kept.append (h : Kept s) (hv : Votes key Q mayCrash s) {i : ι} {p : Peer ι ε}
    {r : Reign ι ε} {e : ε} (hp : p.log = (s.peer i).log) (hterm : p.term = (s.peer i).term)
    (hactive : p.active = (s.peer i).active) (hlog : p.log = r.log)
    (hold : s.ledger p.term <+: r.log) : Kept (s.append i p r e) := by
  have hledger := append_ledger_mono i e hold
  have hi : (s.append i p r e).peer i = { p with log := p.log ++ [e] } := by
    simp [State.append]
  apply h.ack hv hledger (i := i) (k := p.log.length + 1)
  · rw [← hterm]
    rfl
  · rfl
  · rfl
  · intro j hj
    simp [State.append, hj]
  · rw [hi, hterm]
  · rw [hi]
    simp
  · rw [hi]
    simp
  · rw [hi, append_ledger, if_pos hterm.symm, hlog]
  · intro a ha hnode
    rw [hi]
    subst hnode
    apply (h.peerKept a ha).mono (h.ackIndex a ha) hledger
    · rw [hp]
      exact List.prefix_append _ _
    · intro t ht
      simpa only [Peer.heard, hterm, hactive] using ht

private theorem Kept.accept (h : Kept s) (hl : Logs key s) (hv : Votes key Q mayCrash s) {i : ι}
    {a : Append ι ε} {log : List ε} {commit : Nat} (ha : a ∈ s.appends)
    (hterm : a.term = (s.peer i).term) (hactive : (s.peer i).active = true)
    (hcase : (a.log <+: (s.peer i).log ∧ log = (s.peer i).log) ∨
      (¬ a.log <+: (s.peer i).log ∧ log = a.log))
    (hsent : a.log <+: log) (hledger : log <+: s.ledger a.term) :
    Kept { s.setPeer i { s.peer i with log, commit } with
      acks := insert ⟨i, (s.peer i).term, log.length⟩ s.acks } := by
  obtain ⟨hlog, e, he, -⟩ := hl.append_last hv ha
  have hne : log ≠ [] := by
    apply hsent.ne_nil
    exact List.ne_nil_of_mem (List.mem_of_getElem? he)
  apply h.ack hv (i := i) (k := log.length)
  · exact fun t => List.prefix_refl _
  · rfl
  · rfl
  · rfl
  · intro j hj
    simp [hj]
  · simp
  · simpa using hne
  · simp
  · simp only [State.setPeer_peer, if_true]
    rw [hterm] at hledger
    exact hledger
  · intro b hb hnode n hn
    subst hnode
    simp only [State.setPeer_peer, if_true]
    rcases h.peerKept b hb n hn with hkept | ⟨t, hlt, ht, hdiv⟩
    · rcases hcase with ⟨-, rfl⟩ | ⟨hnot, rfl⟩
      · exact .inl hkept
      · -- What is cut from the log differs there from the current leader's ledger.
        rcases prefix_or_diverge ((s.ledger b.term).take n) a.log with hpre | hpre | hdiv
        · exact .inl hpre
        · exact absurd (hpre.trans hkept) hnot
        · refine .inr ⟨a.term, ?_, .inr ⟨hterm, hactive⟩,
            hdiv.mono (List.prefix_refl _) hlog⟩
          have hle := h.ackTerm b hb
          rw [← hterm] at hle
          rcases Nat.lt_or_eq_of_le hle with hlt | heq
          · exact hlt
          · exfalso
            refine not_diverge_of_isPrefix (List.prefix_refl (s.ledger b.term)) ?_
            exact hdiv.mono (List.take_prefix _ _) (heq ▸ hlog)
    · exact .inr ⟨t, hlt, ht, hdiv⟩

private theorem Kept.replace (h : Kept s) {i : ι} {p : Peer ι ε}
    (hledger : ∀ t, s'.ledger t = s.ledger t) (hacks : s'.acks = s.acks)
    (hpeer : s'.peer = (s.setPeer i p).peer) (hlog : p.log = (s.peer i).log)
    (hterm : (s.peer i).term ≤ p.term) (hheard : ∀ t, (s.peer i).heard t → p.heard t)
    (hgrants : ∀ g ∈ s'.grants, g ∈ s.grants ∨
      g.log = (s.peer g.voter).log ∧ ∀ t, (s.peer g.voter).heard t → t < g.term)
    (hrequests : ∀ r ∈ s'.requests, r ∈ s.requests ∨
      r.log = (s.peer r.cand).log ∧ ∀ t, (s.peer r.cand).heard t → t < r.term) : Kept s' := by
  refine h.frame hledger hacks ?_ hgrants hrequests
  rw [hpeer]
  exact State.setPeer_forall (P := fun j p => p.log = (s.peer j).log ∧
    (s.peer j).term ≤ p.term ∧ ∀ t, (s.peer j).heard t → p.heard t)
    ⟨hlog, hterm, hheard⟩ (fun _ => ⟨rfl, le_rfl, fun _ ht => ht⟩)

theorem Kept.step (h : Kept s) (hl : Logs key s) (hv : Votes key Q mayCrash s)
    (hmeet : ∀ t, Meet (Q t) (Q t)) (hempty : ∀ s i, mayCrash s i → (s.peer i).log = [])
    (hstep : Step key Q C mayCrash s s') : Kept s' := by
  cases hstep with
  | timeout i =>
    have hpast := fun t ht => Peer.heard_lt (p := s.peer i) (t := t) ht (Nat.lt_succ_self _)
    refine h.replace (fun _ => rfl) rfl rfl rfl (Nat.le_succ _) (fun t ht => .inl (hpast t ht))
      (fun g hg => .inl hg) ?_
    rintro r (rfl | hr)
    · exact .inr ⟨rfl, hpast⟩
    · exact .inl hr
  | observe i term active hterm =>
    exact h.replace (fun _ => rfl) rfl rfl rfl hterm.le (fun _ ht => .inl (Peer.heard_lt ht hterm))
      (fun g hg => .inl hg) (fun r hr => .inl hr)
  | grant i c l hreq hne hvote hidle hlog =>
    refine h.replace (fun _ => rfl) rfl rfl rfl le_rfl (fun _ ht => ht) ?_ (fun r hr => .inl hr)
    rintro g (rfl | hg)
    · refine .inr ⟨rfl, ?_⟩
      rintro t (ht | ⟨-, hact⟩)
      · exact ht
      · rw [hidle] at hact
        cases hact
    · exact .inl hg
  | win i S e hrole hQ hself hvotes hkey =>
    have hnone := hv.no_reign hmeet hrole hQ hvotes
    apply h.append hv
    · rfl
    · rfl
    · rfl
    · simp [Reign.log]
    · rw [ledger_nil hnone]
      exact List.nil_prefix
  | extend i r e hrole hreign hkey =>
    have hlog := hl.leaderLog i hrole
    rw [ledger_eq hreign] at hlog
    apply h.append hv rfl rfl rfl hlog
    rw [ledger_eq hreign]
  | send i hrole =>
    apply h.frame
    · exact fun _ => rfl
    · rfl
    · exact fun j => ⟨rfl, le_rfl, fun _ ht => ht⟩
    · exact fun g hg => .inl hg
    · exact fun r hr => .inl hr
  | heed i a ha hterm hself =>
    exact h.replace (fun _ => rfl) rfl rfl rfl le_rfl
      (fun t ht => ht.imp_right fun heard => ⟨heard.1, rfl⟩) (fun g hg => .inl hg)
      (fun r hr => .inl hr)
  | accept i a p ha hterm hrole hactive hprev =>
    obtain ⟨hcase, hsent, hledger⟩ := hl.accept_log hv ha hterm hprev rfl
    exact h.accept hl hv ha hterm hactive hcase hsent hledger
  | commit i n S e hrole hn hentry hkey hC hacks =>
    exact h.replace (fun _ => rfl) rfl rfl rfl le_rfl (fun _ ht => ht) (fun g hg => .inl hg)
      (fun r hr => .inl hr)
  | crash i hcrash =>
    -- A node whose log is empty has acknowledged nothing.
    have hout : ∀ a ∈ s.acks, a.node ≠ i := by
      rintro a ha rfl
      exact h.ackLog a ha (hempty s _ hcrash)
    refine
      { ackTerm := ?_, ackIndex := h.ackIndex, ackLog := ?_, peerKept := ?_
        grantKept := h.grantKept, requestKept := h.requestKept }
    · intro a ha
      simpa [hout a ha] using h.ackTerm a ha
    · intro a ha
      simpa [hout a ha] using h.ackLog a ha
    · intro a ha
      simp only [State.setPeer_peer, if_neg (hout a ha)]
      exact h.peerKept a ha

private theorem Commits.accept (h : Commits key C s) (hk : Kept s) (hl : Logs key s)
    (hv : Votes key Q mayCrash s) (hmeet : ∀ t t', Meet (C t) (Q t')) {i : ι} {a : Append ι ε}
    {log : List ε} (ha : a ∈ s.appends) (hterm : a.term = (s.peer i).term)
    (hcase : (a.log <+: (s.peer i).log ∧ log = (s.peer i).log) ∨
      (¬ a.log <+: (s.peer i).log ∧ log = a.log)) (hsent : a.log <+: log) :
    Commits key C { s.setPeer i { s.peer i with
        log
        commit := if (s.peer i).commit < a.commit then min a.commit a.log.length
          else (s.peer i).commit } with
      acks := insert ⟨i, (s.peer i).term, log.length⟩ s.acks } := by
  have hledger : ∀ t, s.ledger t <+: s.ledger t := fun t => List.prefix_refl _
  have hsub : s.acks ⊆ insert ⟨i, (s.peer i).term, log.length⟩ s.acks := Set.subset_insert _ _
  refine { peerCommit := ?_, appendCommit := ?_ }
  · intro j
    by_cases hj : j = i
    · subst hj
      simp only [State.setPeer_peer, if_true]
      split
      next =>
        rw [Nat.min_eq_left (h.appendCommit a ha).1]
        exact (h.appendCommit a ha).mono hledger hsub hterm.le hsent
      next =>
        have hkeep := h.accept_keeps hk hl hv hmeet ha hterm hcase
        obtain ⟨hlen, hcommit⟩ := h.peerCommit j
        have hshort : Settled key C s (s.peer j).term
            ((s.peer j).log.take (s.peer j).commit) (s.peer j).commit := by
          refine ⟨by rw [List.length_take]; omega, hcommit.imp id ?_⟩
          rintro ⟨u, m, hu, hm, hnm, hpre⟩
          exact ⟨u, m, hu, hm, hnm, by rwa [List.take_take, Nat.min_self]⟩
        exact hshort.mono hledger hsub le_rfl hkeep
    · simp only [State.setPeer_peer, if_neg hj]
      exact (h.peerCommit j).mono hledger hsub le_rfl (List.prefix_refl _)
  · intro b hb
    exact (h.appendCommit b hb).mono hledger hsub le_rfl (List.prefix_refl _)

private theorem Commits.append (h : Commits key C s) {i : ι} {p : Peer ι ε} {r : Reign ι ε}
    {e : ε} (hp : p.log = (s.peer i).log) (hterm : p.term = (s.peer i).term)
    (hcommit : p.commit = (s.peer i).commit) (hold : s.ledger p.term <+: r.log) :
    Commits key C (s.append i p r e) := by
  apply h.frame (append_ledger_mono i e hold)
  · exact Set.subset_insert _ _
  · intro j
    by_cases hj : j = i
    · subst hj
      simp [State.append, hp, hterm, hcommit]
    · simp [State.append, hj]
  · rfl

private theorem Commits.replace (h : Commits key C s) {i : ι} {p : Peer ι ε}
    (hledger : s'.ledger = s.ledger) (hacks : s'.acks = s.acks) (happends : s'.appends = s.appends)
    (hpeer : s'.peer = (s.setPeer i p).peer) (hcommit : p.commit = (s.peer i).commit)
    (hlog : p.log = (s.peer i).log) (hterm : (s.peer i).term ≤ p.term) : Commits key C s' := by
  refine h.frame (fun t => by rw [hledger]) hacks.ge ?_ happends
  rw [hpeer]
  exact State.setPeer_forall (P := fun j p =>
    p.commit = (s.peer j).commit ∧ (s.peer j).log <+: p.log ∧ (s.peer j).term ≤ p.term)
    ⟨hcommit, by rw [hlog], hterm⟩ (fun _ => ⟨rfl, List.prefix_refl _, le_rfl⟩)

theorem Commits.step (h : Commits key C s) (hk : Kept s) (hl : Logs key s)
    (hv : Votes key Q mayCrash s) (hself : ∀ t, Meet (Q t) (Q t))
    (hmeet : ∀ t t', Meet (C t) (Q t')) (hstep : Step key Q C mayCrash s s') :
    Commits key C s' := by
  cases hstep with
  | timeout i => exact h.replace rfl rfl rfl rfl rfl rfl (Nat.le_succ _)
  | observe i term active hterm => exact h.replace rfl rfl rfl rfl rfl rfl hterm.le
  | grant i c l hreq hne hvote hidle hlog => exact h.replace rfl rfl rfl rfl rfl rfl le_rfl
  | win i S e hrole hQ hin hvotes hkey =>
    have hnone := hv.no_reign hself hrole hQ hvotes
    apply h.append
    · rfl
    · rfl
    · rfl
    · rw [ledger_nil hnone]
      exact List.nil_prefix
  | extend i r e hrole hreign hkey =>
    apply h.append rfl rfl rfl
    rw [ledger_eq hreign]
  | send i hrole =>
    refine { peerCommit := h.peerCommit, appendCommit := ?_ }
    rintro a (rfl | ha)
    · exact h.peerCommit i
    · exact h.appendCommit a ha
  | heed i a ha hterm hown => exact h.replace rfl rfl rfl rfl rfl rfl le_rfl
  | accept i a p ha hterm hrole hactive hprev =>
    obtain ⟨hcase, hsent, -⟩ := hl.accept_log hv ha hterm hprev rfl
    exact h.accept hk hl hv hmeet ha hterm hcase hsent
  | commit i n S e hrole hn hentry hkey hC hacks =>
    refine { peerCommit := ?_, appendCommit := h.appendCommit }
    refine State.setPeer_forall (P := fun _ p => Settled key C s p.term p.log p.commit) ?_
      h.peerCommit
    have hlen := (List.getElem?_eq_some_iff.mp hentry).1
    have hlog := hl.leaderLog i hrole
    have hbound : n ≤ (s.peer i).log.length := by omega
    refine ⟨hbound, .inr ⟨(s.peer i).term, n, le_rfl, ⟨⟨e, by omega, ?_, hkey⟩, S, hC, hacks⟩,
      le_rfl, ?_⟩⟩
    · rw [← hlog]
      exact hentry
    · rw [← hlog]
      exact List.take_prefix _ _
  | crash i hcrash =>
    refine { peerCommit := ?_, appendCommit := h.appendCommit }
    exact State.setPeer_forall (P := fun _ p => Settled key C s p.term p.log p.commit)
      ⟨Nat.zero_le _, .inl rfl⟩ h.peerCommit

end Phalanx.Consensus
