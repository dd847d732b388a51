import Phalanx.Consensus.Election

/-! Log matching. A log is `Sound` when each of its entries, with everything
before it, is the beginning of the log of the leader that wrote the entry. Every
log a node holds or has sent is sound, so two logs with the same key at a
position agree up to there, and an accepted append leaves the follower with a
beginning of the leader's log that includes all that was sent. -/
namespace Phalanx.Consensus

variable {ι ε : Type}
variable {key : ε → Nat} {Q C : Nat → Finset ι → Prop} {mayCrash : State ι ε → ι → Prop}
variable {s s' : State ι ε} {l m : List ε}

def Sound (key : ε → Nat) (s : State ι ε) (l : List ε) : Prop :=
  ∀ k e, l[k]? = some e → l.take (k + 1) <+: s.ledger (key e)

theorem Sound.nil : Sound key s [] := by
  intro k e he
  simp at he

theorem Sound.mono (hledger : ∀ t, s.ledger t <+: s'.ledger t) (h : Sound key s l) :
    Sound key s' l := by
  intro k e he
  exact (h k e he).trans (hledger _)

theorem Sound.of_isPrefix (hm : Sound key s m) (hl : l <+: m) : Sound key s l := by
  intro k e he
  have hk : k < l.length := (List.getElem?_eq_some_iff.mp he).1
  rw [← take_eq_of_isPrefix hl hk]
  exact hm k e (getElem?_of_isPrefix hl he)

theorem Sound.concat {e : ε} (h : Sound key s l) (he : l ++ [e] <+: s.ledger (key e)) :
    Sound key s (l ++ [e]) := by
  intro k x hx
  rcases Nat.lt_trichotomy k l.length with hlt | rfl | hgt
  · rw [List.getElem?_append_left hlt] at hx
    rw [List.take_append_of_le_length (by omega)]
    exact h k x hx
  · rw [List.getElem?_append_right (by omega)] at hx
    simp only [Nat.sub_self, List.getElem?_cons_zero, Option.some.injEq] at hx
    subst hx
    rw [List.take_of_length_le (by simp)]
    exact he
  · rw [List.getElem?_eq_none (by simp; omega)] at hx
    cases hx

theorem Sound.take_eq (hl : Sound key s l) (hm : Sound key s m) {k : Nat} {a b : ε}
    (ha : l[k]? = some a) (hb : m[k]? = some b) (hkey : key a = key b) :
    l.take (k + 1) = m.take (k + 1) := by
  have hla := hl k a ha
  have hmb := hm k b hb
  rw [← hkey] at hmb
  have hk : k < l.length := (List.getElem?_eq_some_iff.mp ha).1
  have hk' : k < m.length := (List.getElem?_eq_some_iff.mp hb).1
  have hlen : (l.take (k + 1)).length = (m.take (k + 1)).length := by
    simp only [List.length_take]
    omega
  exact (List.prefix_of_prefix_length_le hla hmb hlen.le).eq_of_length hlen

theorem Sound.shared (hl : Sound key s l) (hm : Sound key s m) {p : Nat}
    (hprev : p = 0 ∨ ∃ x y, l[p - 1]? = some x ∧ m[p - 1]? = some y ∧ key x = key y) :
    l.take p = m.take p := by
  rcases Nat.eq_zero_or_pos p with rfl | hpos
  · simp
  · obtain ⟨x, y, hx, hy, hxy⟩ := hprev.resolve_left (Nat.ne_of_gt hpos)
    have htake := hl.take_eq hm hx hy hxy
    rwa [Nat.sub_add_cancel hpos] at htake

theorem Sound.keyed (hl : Sound key s l) (hm : Sound key s m) : Keyed key l m := by
  intro k a b ha hb hkey
  have htake := hl.take_eq hm ha hb hkey
  have : (l.take (k + 1))[k]? = (m.take (k + 1))[k]? := by rw [htake]
  rw [List.getElem?_take_of_lt (by omega), List.getElem?_take_of_lt (by omega), ha, hb] at this
  exact Option.some.inj this

/-- A sound log is the beginning of the ledger that its last entry belongs to. -/
theorem Sound.isPrefix_ledger (hl : Sound key s l) (hne : l ≠ []) :
    l <+: s.ledger (lastKey key l) := by
  have hlen : 0 < l.length := List.length_pos_iff.mpr hne
  have hlast : l[l.length - 1]? = some (l.getLast hne) := by
    rw [List.getElem?_eq_getElem (by omega), List.getLast_eq_getElem]
  have := hl _ _ hlast
  rw [List.take_of_length_le (by omega)] at this
  simpa [lastKey, List.getLast?_eq_some_getLast hne] using this

structure Logs (key : ε → Nat) (s : State ι ε) : Prop where
  peerSound : ∀ i, Sound key s (s.peer i).log
  requestSound : ∀ r ∈ s.requests, Sound key s r.log
  grantSound : ∀ g ∈ s.grants, Sound key s g.log
  ledgerSound : ∀ t, Sound key s (s.ledger t)
  bound : ∀ i, ∀ e ∈ (s.peer i).log, key e ≤ (s.peer i).term
  requestBound : ∀ r ∈ s.requests, ∀ e ∈ r.log, key e < r.term
  requestPos : ∀ r ∈ s.requests, 0 < r.term
  tail : ∀ t r, s.reign t = some r → r.tail ≠ [] ∧ ∀ e ∈ r.tail, key e = t
  sorted : ∀ t, (s.ledger t).Pairwise fun a b => key a ≤ key b
  leaderLog : ∀ i, (s.peer i).role = .leader → (s.peer i).log = s.ledger (s.peer i).term
  appendLog : ∀ a ∈ s.appends, ∃ r, s.reign a.term = some r ∧ a.log <+: r.log ∧
    r.base.length < a.log.length

theorem ledger_eq {t : Nat} {r : Reign ι ε} (hr : s.reign t = some r) : s.ledger t = r.log := by
  simp [State.ledger, hr]

theorem ledger_nil {t : Nat} (hr : s.reign t = none) : s.ledger t = [] := by
  simp [State.ledger, hr]

theorem reign_of_ledger_ne_nil {t : Nat} (h : s.ledger t ≠ []) : ∃ r, s.reign t = some r := by
  cases hr : s.reign t with
  | none => exact absurd (ledger_nil hr) h
  | some r => exact ⟨r, rfl⟩

theorem Logs.init {peer : ι → Peer ι ε} (hrole : ∀ i, (peer i).role = .follower)
    (hlog : ∀ i, (peer i).log = []) : Logs key (State.init peer) := by
  constructor <;> simp [State.init, hrole, hlog, State.ledger, Sound]

/-- The keys of a ledger up to the winner's own log precede its term; the rest have it. -/
theorem Logs.ledger_key (h : Logs key s) (hv : Votes key Q mayCrash s) {t k : Nat}
    {r : Reign ι ε} {e : ε} (hr : s.reign t = some r) (he : (s.ledger t)[k]? = some e) :
    (k < r.base.length ∧ key e < t) ∨ (r.base.length ≤ k ∧ key e = t) := by
  rw [ledger_eq hr, Reign.log] at he
  by_cases hk : k < r.base.length
  · rw [List.getElem?_append_left hk] at he
    have hreq := (hv.reignVotes t r hr).2.2.1
    exact .inl ⟨hk, h.requestBound _ hreq e (List.mem_of_getElem? he)⟩
  · rw [List.getElem?_append_right (by omega)] at he
    exact .inr ⟨by omega, (h.tail t r hr).2 e (List.mem_of_getElem? he)⟩

theorem Logs.ledger_le (h : Logs key s) (hv : Votes key Q mayCrash s) {t : Nat} {e : ε}
    (he : e ∈ s.ledger t) : key e ≤ t := by
  obtain ⟨r, hr⟩ := reign_of_ledger_ne_nil (List.ne_nil_of_mem he)
  obtain ⟨k, hk⟩ := List.getElem?_of_mem he
  rcases h.ledger_key hv hr hk with ⟨-, hlt⟩ | ⟨-, heq⟩ <;> omega

theorem Logs.reign_pos (h : Logs key s) (hv : Votes key Q mayCrash s) {t : Nat} {r : Reign ι ε}
    (hr : s.reign t = some r) : 0 < t :=
  h.requestPos _ (hv.reignVotes t r hr).2.2.1

theorem Logs.key_pos (h : Logs key s) (hv : Votes key Q mayCrash s) (hl : Sound key s l) {e : ε}
    (he : e ∈ l) : 0 < key e := by
  obtain ⟨k, hk⟩ := List.getElem?_of_mem he
  have hlen : k < l.length := (List.getElem?_eq_some_iff.mp hk).1
  have hne : s.ledger (key e) ≠ [] := by
    apply (hl k e hk).ne_nil
    intro hnil
    have := congrArg List.length hnil
    simp only [List.length_take, List.length_nil] at this
    omega
  obtain ⟨r, hr⟩ := reign_of_ledger_ne_nil hne
  exact h.reign_pos hv hr

theorem Logs.sound_sorted (h : Logs key s) (hl : Sound key s l) :
    l.Pairwise fun a b => key a ≤ key b := by
  by_cases hne : l = []
  · simp [hne]
  · exact (h.sorted _).sublist (hl.isPrefix_ledger hne).sublist

theorem Logs.key_le (h : Logs key s) (hl : Sound key s l) {j k : Nat} {a b : ε} (hjk : j ≤ k)
    (ha : l[j]? = some a) (hb : l[k]? = some b) : key a ≤ key b := by
  rcases Nat.lt_or_eq_of_le hjk with hlt | rfl
  · obtain ⟨hj, rfl⟩ := List.getElem?_eq_some_iff.mp ha
    obtain ⟨hk, rfl⟩ := List.getElem?_eq_some_iff.mp hb
    exact List.pairwise_iff_getElem.mp (h.sound_sorted hl) j k hj hk hlt
  · rw [ha] at hb
    cases hb
    exact le_rfl

theorem Logs.append_last (h : Logs key s) (hv : Votes key Q mayCrash s) {a : Append ι ε}
    (ha : a ∈ s.appends) :
    a.log <+: s.ledger a.term ∧ ∃ e, a.log[a.log.length - 1]? = some e ∧ key e = a.term := by
  obtain ⟨r, hr, hlog, hlen⟩ := h.appendLog a ha
  rw [← ledger_eq hr] at hlog
  refine ⟨hlog, ?_⟩
  obtain ⟨e, he⟩ : ∃ e, a.log[a.log.length - 1]? = some e :=
    ⟨_, List.getElem?_eq_getElem (by omega)⟩
  refine ⟨e, he, ?_⟩
  rcases h.ledger_key hv hr (getElem?_of_isPrefix hlog he) with ⟨hlt, -⟩ | ⟨-, heq⟩
  · omega
  · exact heq

theorem Logs.accept_log (h : Logs key s) (hv : Votes key Q mayCrash s) {i : ι} {a : Append ι ε}
    {p : Nat} (ha : a ∈ s.appends) (hterm : a.term = (s.peer i).term)
    (hprev : p = 0 ∨ ∃ x y, (s.peer i).log[p - 1]? = some x ∧ a.log[p - 1]? = some y ∧
      key x = key y) {log : List ε}
    (hlog : (s.peer i).log.take p ++ splice key ((s.peer i).log.drop p) (a.log.drop p) = log) :
    ((a.log <+: (s.peer i).log ∧ log = (s.peer i).log) ∨
      (¬ a.log <+: (s.peer i).log ∧ log = a.log)) ∧
    a.log <+: log ∧ log <+: s.ledger a.term := by
  obtain ⟨hledger, e, he, hkey⟩ := h.append_last hv ha
  have hsound : Sound key s a.log := (h.ledgerSound _).of_isPrefix hledger
  have hshared := (h.peerSound i).shared hsound hprev
  rcases splice_after ((h.peerSound i).keyed hsound) hshared with ⟨hkept, heq⟩ | ⟨hkept, heq⟩
  · rw [heq] at hlog
    subst hlog
    refine ⟨.inl ⟨hkept, rfl⟩, hkept, ?_⟩
    -- The log ends in an entry of the append's term, hence belongs to that ledger.
    have hne : (s.peer i).log ≠ [] := by
      intro hnil
      rw [hnil, List.prefix_nil] at hkept
      simp [hkept] at he
    have hlen : a.log.length ≤ (s.peer i).log.length := hkept.length_le
    have hlast : (s.peer i).log[(s.peer i).log.length - 1]? =
        some ((s.peer i).log.getLast hne) := by
      rw [List.getElem?_eq_getElem (by have := List.length_pos_iff.mpr hne; omega),
        List.getLast_eq_getElem]
    have hle := h.key_le (h.peerSound i) (by omega) (getElem?_of_isPrefix hkept he) hlast
    have hge := h.bound i _ (List.getLast_mem hne)
    have heqk : lastKey key (s.peer i).log = a.term := by
      rw [lastKey, List.getLast?_eq_some_getLast hne]
      simp only [Option.map_some, Option.getD_some]
      omega
    rw [← heqk]
    exact (h.peerSound i).isPrefix_ledger hne
  · rw [heq] at hlog
    subst hlog
    exact ⟨.inr ⟨hkept, rfl⟩, List.prefix_refl _, hledger⟩

variable [DecidableEq ι]

private theorem Logs.replace (h : Logs key s) {i : ι} {p : Peer ι ε} (hreign : s'.reign = s.reign)
    (happends : s'.appends = s.appends) (hrequests : s'.requests = s.requests)
    (hgrants : ∀ g ∈ s'.grants, g ∈ s.grants ∨ Sound key s g.log)
    (hpeer : s'.peer = (s.setPeer i p).peer) (hsound : Sound key s p.log)
    (hbound : ∀ e ∈ p.log, key e ≤ p.term)
    (hleader : p.role = .leader → p.log = s.ledger p.term) : Logs key s' := by
  have hledger : s'.ledger = s.ledger := by
    funext t
    simp [State.ledger, hreign]
  have hmono : ∀ t, s.ledger t <+: s'.ledger t := by
    intro t
    rw [hledger]
  refine
    { peerSound := ?_, requestSound := ?_, grantSound := ?_, ledgerSound := ?_, bound := ?_
      requestBound := ?_, requestPos := ?_, tail := ?_, sorted := ?_
      leaderLog := ?_, appendLog := ?_ }
  · intro j
    rw [hpeer]
    exact (State.setPeer_forall (P := fun _ p => Sound key s p.log) hsound h.peerSound j).mono hmono
  · rw [hrequests]
    exact fun r hr => (h.requestSound r hr).mono hmono
  · intro g hg
    exact ((hgrants g hg).elim (h.grantSound g) id).mono hmono
  · rw [hledger]
    exact fun t => (h.ledgerSound t).mono hmono
  · rw [hpeer]
    exact State.setPeer_forall (P := fun _ p => ∀ e ∈ p.log, key e ≤ p.term) hbound h.bound
  · rw [hrequests]
    exact h.requestBound
  · rw [hrequests]
    exact h.requestPos
  · rw [hreign]
    exact h.tail
  · rw [hledger]
    exact h.sorted
  · rw [hledger, hpeer]
    exact State.setPeer_forall (P := fun _ p => p.role = .leader → p.log = s.ledger p.term)
      hleader h.leaderLog
  · rw [happends, hreign]
    exact h.appendLog

theorem append_ledger (s : State ι ε) (i : ι) (p : Peer ι ε) (r : Reign ι ε) (e : ε) (t : Nat) :
    (s.append i p r e).ledger t = if t = p.term then r.log ++ [e] else s.ledger t := by
  by_cases ht : t = p.term
  · subst ht
    simp [State.ledger, State.append, Reign.log]
  · simp [State.ledger, State.append, ht]

theorem append_ledger_mono (i : ι) {p : Peer ι ε} {r : Reign ι ε} (e : ε)
    (hold : s.ledger p.term <+: r.log) (t : Nat) :
    s.ledger t <+: (s.append i p r e).ledger t := by
  rw [append_ledger]
  split
  next heq => exact heq ▸ hold.trans (List.prefix_append _ _)
  next => exact List.prefix_refl _

private theorem Logs.append (h : Logs key s) {i : ι} {p : Peer ι ε} {r : Reign ι ε} {e : ε}
    (hkey : key e = p.term) (hlog : p.log = r.log)
    (hp : p.log = (s.peer i).log) (hterm : p.term = (s.peer i).term)
    (hold : s.ledger p.term <+: r.log) (htail : ∀ x ∈ r.tail, key x = p.term)
    (hbase : ∀ r', s.reign p.term = some r' → r'.base = r.base)
    (hleader : ∀ j, j ≠ i → (s.peer j).role = .leader → (s.peer j).term ≠ p.term) :
    Logs key (s.append i p r e) := by
  have hledger := append_ledger s i p r e
  have hmono := append_ledger_mono i e hold
  have hsound : Sound key (s.append i p r e) (p.log ++ [e]) := by
    apply Sound.concat
    · rw [hp]
      exact (h.peerSound i).mono hmono
    · rw [hledger, if_pos hkey, hlog]
  have hbound : ∀ x ∈ p.log ++ [e], key x ≤ p.term := by
    intro x hx
    rcases List.mem_append.mp hx with hx | hx
    · rw [hp] at hx
      rw [hterm]
      exact h.bound i x hx
    · simp only [List.mem_singleton] at hx
      rw [hx, hkey]
  refine
    { peerSound := ?_, requestSound := fun q hq => (h.requestSound q hq).mono hmono
      grantSound := fun g hg => (h.grantSound g hg).mono hmono, ledgerSound := ?_, bound := ?_
      requestBound := h.requestBound, requestPos := h.requestPos, tail := ?_, sorted := ?_
      leaderLog := ?_, appendLog := ?_ }
  · exact State.setPeer_forall (P := fun _ p' => Sound key (s.append i p r e) p'.log) hsound
      fun j => (h.peerSound j).mono hmono
  · intro t
    rw [hledger]
    split
    next => rw [← hlog]; exact hsound
    next => exact (h.ledgerSound t).mono hmono
  · exact State.setPeer_forall (P := fun _ p' => ∀ x ∈ p'.log, key x ≤ p'.term) hbound h.bound
  · intro t r' hr'
    simp only [State.append, Function.update_apply] at hr'
    split at hr'
    next heq =>
      cases hr'
      refine ⟨by simp, ?_⟩
      intro x hx
      rcases List.mem_append.mp hx with hx | hx
      · rw [heq, htail x hx]
      · simp only [List.mem_singleton] at hx
        rw [hx, hkey, heq]
    next => exact h.tail t r' hr'
  · intro t
    rw [hledger]
    split
    next =>
      rw [← hlog, List.pairwise_append]
      refine ⟨?_, by simp, ?_⟩
      · rw [hp]
        exact h.sound_sorted (h.peerSound i)
      · intro x hx y hy
        simp only [List.mem_singleton] at hy
        rw [hy, hkey]
        exact hbound x (List.mem_append_left _ hx)
    next => exact h.sorted t
  · intro j hj
    by_cases hji : j = i
    · subst hji
      rw [hledger]
      simp [State.append, hlog]
    · simp only [State.append, Function.update_apply, hji, if_false] at hj ⊢
      have := append_ledger s i p r e (s.peer j).term
      rw [if_neg (hleader j hji hj)] at this
      rw [h.leaderLog j hj]
      exact this.symm
  · intro a ha
    obtain ⟨r', hr', hlog', hlen⟩ := h.appendLog a ha
    by_cases heq : a.term = p.term
    · refine ⟨{ r with tail := r.tail ++ [e] }, by simp [State.append, heq], ?_, ?_⟩
      · rw [heq] at hr'
        have : r'.log <+: r.log := by
          rw [← ledger_eq hr']
          exact hold
        refine hlog'.trans (this.trans ?_)
        simp only [Reign.log, ← List.append_assoc]
        exact List.prefix_append _ _
      · rw [heq] at hr'
        simpa [← hbase r' hr'] using hlen
    · exact ⟨r', by simpa [State.append, heq] using hr', hlog', hlen⟩

theorem Logs.step (h : Logs key s) (hv : Votes key Q mayCrash s) (hmeet : ∀ t, Meet (Q t) (Q t))
    (hstep : Step key Q C mayCrash s s') : Logs key s' := by
  cases hstep with
  | timeout i =>
    refine
      { peerSound := State.setPeer_forall (P := fun _ p => Sound key s p.log)
          (h.peerSound i) h.peerSound
        requestSound := ?_, grantSound := h.grantSound, ledgerSound := h.ledgerSound
        bound := State.setPeer_forall (P := fun _ p => ∀ e ∈ p.log, key e ≤ p.term) ?_ h.bound
        requestBound := ?_, requestPos := ?_, tail := h.tail, sorted := h.sorted
        leaderLog := State.setPeer_forall
          (P := fun _ p => p.role = .leader → p.log = s.ledger p.term) (by simp) h.leaderLog
        appendLog := h.appendLog }
    · rintro r (rfl | hr)
      · exact h.peerSound i
      · exact h.requestSound r hr
    · exact fun e he => (h.bound i e he).trans (Nat.le_succ _)
    · rintro r (rfl | hr) e he
      · exact Nat.lt_succ_of_le (h.bound i e he)
      · exact h.requestBound r hr e he
    · rintro r (rfl | hr)
      · exact Nat.succ_pos _
      · exact h.requestPos r hr
  | observe i term active hterm =>
    refine h.replace rfl rfl rfl (fun g hg => .inl hg) rfl ?_ ?_ ?_
    · exact h.peerSound i
    · exact fun e he => (h.bound i e he).trans hterm.le
    · exact fun hno => by cases hno
  | grant i c l hreq hne hvote hidle hlog =>
    refine h.replace rfl rfl rfl ?_ rfl (h.peerSound i) (h.bound i) (h.leaderLog i)
    rintro g (rfl | hg)
    · exact .inr (h.peerSound i)
    · exact .inl hg
  | win i S e hrole hQ hself hvotes hkey =>
    have hnone := hv.no_reign hmeet hrole hQ hvotes
    apply h.append
    · exact hkey
    · simp [Reign.log]
    · rfl
    · rfl
    · simp [ledger_nil hnone]
    · simp
    · simp [hnone]
    · intro j hj hlead hterm
      obtain ⟨r, hr, -⟩ := hv.leaderReign j hlead
      rw [hterm, hnone] at hr
      cases hr
  | extend i r e hrole hreign hkey =>
    apply h.append
    · exact hkey
    · rw [← ledger_eq hreign]
      exact h.leaderLog i hrole
    · rfl
    · rfl
    · rw [ledger_eq hreign]
    · exact (h.tail _ r hreign).2
    · intro r' hr'
      rw [hreign] at hr'
      cases hr'
      rfl
    · intro j hj hlead hterm
      exact hj (hv.leader_unique hlead hrole hterm)
  | send i hrole =>
    refine { h with appendLog := ?_ }
    rintro a (rfl | ha)
    · obtain ⟨r, hr, -⟩ := hv.leaderReign i hrole
      have hlog := h.leaderLog i hrole
      rw [ledger_eq hr] at hlog
      refine ⟨r, hr, by rw [hlog], ?_⟩
      have := List.length_pos_iff.mpr (h.tail _ r hr).1
      simp only [hlog, Reign.log, List.length_append]
      omega
    · exact h.appendLog a ha
  | heed i a ha hterm hself =>
    refine h.replace rfl rfl rfl (fun g hg => .inl hg) rfl ?_ ?_ ?_
    · exact h.peerSound i
    · exact h.bound i
    · exact fun hno => by cases hno
  | accept i a p ha hterm hrole hactive hprev =>
    have hled := (h.accept_log hv ha hterm hprev rfl).2.2
    refine h.replace rfl rfl rfl (fun g hg => .inl hg) rfl ?_ ?_ ?_
    · exact (h.ledgerSound _).of_isPrefix hled
    · exact fun e he => hterm ▸ h.ledger_le hv (hled.subset he)
    · simp [hrole]
  | commit i n S e hrole hn hentry hkey hC hacks =>
    refine h.replace rfl rfl rfl (fun g hg => .inl hg) rfl ?_ ?_ ?_
    · exact h.peerSound i
    · exact h.bound i
    · exact h.leaderLog i
  | crash i hcrash =>
    refine h.replace rfl rfl rfl (fun g hg => .inl hg) rfl ?_ ?_ ?_
    · exact Sound.nil
    · simp
    · exact fun hno => by cases hno

end Phalanx.Consensus
