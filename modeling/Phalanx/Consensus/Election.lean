import Phalanx.Consensus.Protocol

/-! At most one reign a term. A node may vote twice in a term: it stood, stepped
down and forgot its own vote, and a crash then cleared the flag that kept it from
voting. The invariant that survives this is `displaced`: such a node was no
voter of the reign that displaced it, so its second vote meets every quorum of
that reign in somebody else. -/
namespace Phalanx.Consensus

variable {ι ε : Type}
variable {key : ε → Nat} {Q C : Nat → Finset ι → Prop} {mayCrash : State ι ε → ι → Prop}
variable {s s' : State ι ε}

structure Votes (key : ε → Nat) (Q : Nat → Finset ι → Prop) (mayCrash : State ι ε → ι → Prop)
    (s : State ι ε) : Prop where
  standing : ∀ i, (s.peer i).role ≠ .follower → (s.peer i).vote = some i
  requestTerm : ∀ r ∈ s.requests, r.term ≤ (s.peer r.cand).term
  requestUnique : ∀ r ∈ s.requests, ∀ r' ∈ s.requests, r.cand = r'.cand → r.term = r'.term →
    r.log = r'.log
  candidateRequest : ∀ i, (s.peer i).role = .candidate →
    ⟨i, (s.peer i).term, (s.peer i).log⟩ ∈ s.requests
  grantVote : ∀ g ∈ s.grants, g.voter ≠ g.cand ∧ (g.term < (s.peer g.voter).term ∨
    g.term = (s.peer g.voter).term ∧ (s.peer g.voter).vote = some g.cand)
  grantUnique : ∀ g ∈ s.grants, ∀ g' ∈ s.grants, g.voter = g'.voter → g.term = g'.term →
    g.cand = g'.cand
  grantRequest : ∀ g ∈ s.grants, ∃ l, ⟨g.cand, g.term, l⟩ ∈ s.requests ∧ UpToDate key l g.log
  reignVotes : ∀ t r, s.reign t = some r → Q t r.voters ∧ r.leader ∈ r.voters ∧
    ⟨r.leader, t, r.base⟩ ∈ s.requests ∧
    ∀ q ∈ r.voters, q = r.leader ∨ ∃ l, ⟨q, r.leader, t, l⟩ ∈ s.grants
  reignPast : ∀ t r, s.reign t = some r → t < (s.peer r.leader).term ∨
    t = (s.peer r.leader).term ∧ (s.peer r.leader).role ≠ .candidate
  leaderReign : ∀ i, (s.peer i).role = .leader →
    ∃ r, s.reign (s.peer i).term = some r ∧ r.leader = i
  appendReign : ∀ a ∈ s.appends, ∃ r, s.reign a.term = some r ∧ r.leader = a.leader
  displaced : ∀ q ∈ s.requests,
    ((∃ g ∈ s.grants, g.voter = q.cand ∧ g.term = q.term) ∨
      (s.peer q.cand).term = q.term ∧ (s.peer q.cand).vote ≠ some q.cand ∧
        ((s.peer q.cand).active = false ∨ ∃ s j, mayCrash s j)) →
    ∃ r, s.reign q.term = some r ∧ q.cand ∉ r.voters

theorem Votes.init {peer : ι → Peer ι ε} (hrole : ∀ i, (peer i).role = .follower) :
    Votes key Q mayCrash (State.init peer) := by
  constructor <;> simp [State.init, hrole]

theorem Votes.leader_unique (h : Votes key Q mayCrash s) {i j : ι}
    (hi : (s.peer i).role = .leader) (hj : (s.peer j).role = .leader)
    (hterm : (s.peer i).term = (s.peer j).term) : i = j := by
  obtain ⟨r, hr, rfl⟩ := h.leaderReign i hi
  obtain ⟨r', hr', rfl⟩ := h.leaderReign j hj
  rw [hterm, hr'] at hr
  cases hr
  rfl

theorem Votes.no_reign (h : Votes key Q mayCrash s) (hmeet : ∀ t, Meet (Q t) (Q t)) {i : ι}
    {S : Finset ι} (hrole : (s.peer i).role = .candidate) (hQ : Q (s.peer i).term S)
    (hvotes : ∀ q ∈ S, q = i ∨ ∃ l, ⟨q, i, (s.peer i).term, l⟩ ∈ s.grants) :
    s.reign (s.peer i).term = none := by
  cases hreign : s.reign (s.peer i).term with
  | none => rfl
  | some r =>
    exfalso
    obtain ⟨hQ', hleader, hreq, hvotes'⟩ := h.reignVotes _ r hreign
    have hvote : (s.peer i).vote = some i := h.standing i (by simp [hrole])
    have hne : r.leader ≠ i := by
      rintro rfl
      rcases h.reignPast _ r hreign with hlt | ⟨-, hrole'⟩
      · exact lt_irrefl _ hlt
      · exact hrole' hrole
    -- The voter the two quorums share voted once for each of two candidates.
    obtain ⟨q, hq, hq'⟩ := hmeet _ hQ hQ'
    rcases hvotes q hq with rfl | ⟨l, hg⟩
    · rcases hvotes' q hq' with heq | ⟨l', hg'⟩
      · exact hne heq.symm
      · rcases (h.grantVote _ hg').2 with hlt | ⟨-, hvote'⟩
        · exact lt_irrefl _ hlt
        · rw [hvote] at hvote'
          exact hne (Option.some.inj hvote').symm
    · rcases hvotes' q hq' with rfl | ⟨l', hg'⟩
      · obtain ⟨r', hr', hout⟩ := h.displaced _ hreq (.inl ⟨_, hg, rfl, rfl⟩)
        rw [hreign] at hr'
        cases hr'
        exact hout hleader
      · exact hne (h.grantUnique _ hg' _ hg rfl rfl)

/-- Steps that touch only logs, commits and acknowledgements, and lengthen reigns. -/
theorem Votes.frame (h : Votes key Q mayCrash s)
    (hpeer : ∀ j, (s'.peer j).term = (s.peer j).term ∧ (s'.peer j).vote = (s.peer j).vote ∧
      (s'.peer j).role = (s.peer j).role ∧ (s'.peer j).active = (s.peer j).active)
    (hlog : ∀ j, (s.peer j).role = .candidate → (s'.peer j).log = (s.peer j).log)
    (hrequests : s'.requests = s.requests) (hgrants : s'.grants = s.grants)
    (hreign : ∀ t r', s'.reign t = some r' → ∃ r, s.reign t = some r ∧
      r'.leader = r.leader ∧ r'.voters = r.voters ∧ r'.base = r.base)
    (hreign' : ∀ t r, s.reign t = some r → ∃ r', s'.reign t = some r' ∧
      r'.leader = r.leader ∧ r'.voters = r.voters)
    (happends : ∀ a ∈ s'.appends, a ∈ s.appends ∨
      ∃ r, s.reign a.term = some r ∧ r.leader = a.leader) :
    Votes key Q mayCrash s' where
  standing := by
    intro j hrole
    rw [(hpeer j).2.2.1] at hrole
    rw [(hpeer j).2.1]
    exact h.standing j hrole
  requestTerm := by
    intro r hr
    rw [hrequests] at hr
    rw [(hpeer r.cand).1]
    exact h.requestTerm r hr
  requestUnique := by
    rw [hrequests]
    exact h.requestUnique
  candidateRequest := by
    intro j hrole
    rw [(hpeer j).2.2.1] at hrole
    rw [(hpeer j).1, hlog j hrole, hrequests]
    exact h.candidateRequest j hrole
  grantVote := by
    intro g hg
    rw [hgrants] at hg
    rw [(hpeer g.voter).1, (hpeer g.voter).2.1]
    exact h.grantVote g hg
  grantUnique := by
    rw [hgrants]
    exact h.grantUnique
  grantRequest := by
    rw [hgrants, hrequests]
    exact h.grantRequest
  reignVotes := by
    intro t r' hr'
    obtain ⟨r, hr, hleader, hvoters, hbase⟩ := hreign t r' hr'
    rw [hleader, hvoters, hbase, hrequests, hgrants]
    exact h.reignVotes t r hr
  reignPast := by
    intro t r' hr'
    obtain ⟨r, hr, hleader, -⟩ := hreign t r' hr'
    rw [hleader, (hpeer r.leader).1, (hpeer r.leader).2.2.1]
    exact h.reignPast t r hr
  leaderReign := by
    intro j hrole
    rw [(hpeer j).2.2.1] at hrole
    obtain ⟨r, hr, rfl⟩ := h.leaderReign j hrole
    obtain ⟨r', hr', hleader, -⟩ := hreign' _ r hr
    rw [(hpeer r.leader).1]
    exact ⟨r', hr', hleader⟩
  appendReign := by
    intro a ha
    obtain ⟨r, hr, hleader⟩ := (happends a ha).elim (h.appendReign a) id
    obtain ⟨r', hr', hleader', -⟩ := hreign' _ r hr
    exact ⟨r', hr', hleader'.trans hleader⟩
  displaced := by
    intro q hq hd
    rw [hrequests] at hq
    rw [hgrants, (hpeer q.cand).1, (hpeer q.cand).2.1, (hpeer q.cand).2.2.2] at hd
    obtain ⟨r, hr, hout⟩ := h.displaced q hq hd
    obtain ⟨r', hr', -, hvoters⟩ := hreign' _ r hr
    exact ⟨r', hr', by rwa [hvoters]⟩

variable [DecidableEq ι]

private theorem Votes.timeout (h : Votes key Q mayCrash s) (i : ι) :
    Votes key Q mayCrash { s.setPeer i { s.peer i with
        term := (s.peer i).term + 1, vote := some i, role := .candidate, active := false } with
      requests := insert ⟨i, (s.peer i).term + 1, (s.peer i).log⟩ s.requests } where
  standing := by
    intro j hrole
    by_cases hj : j = i
    · simp [hj]
    · simp_all [h.standing j]
  requestTerm := by
    rintro r (rfl | hr)
    · simp
    · have := h.requestTerm r hr
      grind [State.setPeer_peer]
  requestUnique := by
    rintro r (rfl | hr) r' (rfl | hr') hcand hterm
    · rfl
    · have := h.requestTerm r' hr'
      grind
    · have := h.requestTerm r hr
      grind
    · exact h.requestUnique r hr r' hr' hcand hterm
  candidateRequest := by
    intro j hrole
    by_cases hj : j = i
    · simp [hj]
    · simp_all [h.candidateRequest j]
  grantVote := by
    intro g hg
    have := h.grantVote g hg
    grind [State.setPeer_peer]
  grantUnique := h.grantUnique
  grantRequest := by
    intro g hg
    obtain ⟨l, hl, hlog⟩ := h.grantRequest g hg
    exact ⟨l, .inr hl, hlog⟩
  reignVotes := by
    intro t r hr
    obtain ⟨hQ, hmem, hreq, hvotes⟩ := h.reignVotes t r hr
    exact ⟨hQ, hmem, .inr hreq, hvotes⟩
  reignPast := by
    intro t r hr
    have := h.reignPast t r hr
    grind [State.setPeer_peer]
  leaderReign := by
    intro j hrole
    by_cases hj : j = i
    · simp [hj] at hrole
    · simp_all [h.leaderReign j]
  appendReign := h.appendReign
  displaced := by
    rintro q (rfl | hq) hd
    · exfalso
      obtain ⟨g, hg, hvoter, hterm⟩ | hd := hd
      · have := h.grantVote g hg
        grind
      · simp at hd
    · apply h.displaced q hq
      have := h.requestTerm q hq
      refine hd.imp id ?_
      intro hd
      by_cases hj : q.cand = i
      · simp_all
      · simpa [hj] using hd

/-- A node becomes a follower: it keeps what it voted in its new term, and may vote again there
only if the term has a leader that won without it. -/
private theorem Votes.stepDown (h : Votes key Q mayCrash s) (i : ι) {p : Peer ι ε}
    (hrole : p.role = .follower) (hterm : (s.peer i).term ≤ p.term)
    (hvote : ∀ g ∈ s.grants, g.voter = i → g.term = p.term → p.vote = some g.cand)
    (hdisplaced : ∀ q ∈ s.requests, q.cand = i → q.term = p.term → p.vote ≠ some i →
      (p.active = false ∨ ∃ s j, mayCrash s j) → ∃ r, s.reign q.term = some r ∧ i ∉ r.voters) :
    Votes key Q mayCrash (s.setPeer i p) where
  standing := by
    intro j hstands
    by_cases hj : j = i
    · simp [hj, hrole] at hstands
    · simp_all [h.standing j]
  requestTerm := by
    intro r hr
    have := h.requestTerm r hr
    grind [State.setPeer_peer]
  requestUnique := h.requestUnique
  candidateRequest := by
    intro j hstands
    by_cases hj : j = i
    · simp [hj, hrole] at hstands
    · simp_all [h.candidateRequest j]
  grantVote := by
    intro g hg
    have hold := h.grantVote g hg
    have hkeeps := hvote g hg
    grind [State.setPeer_peer]
  grantUnique := h.grantUnique
  grantRequest := h.grantRequest
  reignVotes := h.reignVotes
  reignPast := by
    intro t r hr
    have := h.reignPast t r hr
    grind [State.setPeer_peer]
  leaderReign := by
    intro j hleads
    by_cases hj : j = i
    · simp [hj, hrole] at hleads
    · simp_all [h.leaderReign j]
  appendReign := h.appendReign
  displaced := by
    rintro q hq (hgrant | hd)
    · exact h.displaced q hq (.inl hgrant)
    · by_cases hj : q.cand = i
      · simp only [State.setPeer_peer, hj, if_true] at hd ⊢
        exact hdisplaced q hq hj hd.1.symm hd.2.1 hd.2.2
      · exact h.displaced q hq (.inr (by simpa [hj] using hd))

private theorem Votes.observe (h : Votes key Q mayCrash s) (i : ι) (term : Nat) (active : Bool)
    (hterm : (s.peer i).term < term) :
    Votes key Q mayCrash
      (s.setPeer i { s.peer i with term, vote := none, role := .follower, active }) := by
  -- Nobody has voted or stood in a term the node has yet to reach.
  refine h.stepDown i rfl hterm.le ?_ ?_
  · rintro g hg rfl heq
    have hpast := (h.grantVote g hg).2
    simp only at heq
    omega
  · rintro q hq rfl heq
    have hpast := h.requestTerm q hq
    simp only at heq
    omega

private theorem Votes.grant (h : Votes key Q mayCrash s) {i c : ι} {l : List ε}
    (hreq : ⟨c, (s.peer i).term, l⟩ ∈ s.requests) (hne : i ≠ c)
    (hvote : (s.peer i).vote = none ∨ (s.peer i).vote = some c)
    (hidle : (s.peer i).active = false) (hlog : UpToDate key l (s.peer i).log) :
    Votes key Q mayCrash { s.setPeer i { s.peer i with vote := some c } with
      grants := insert ⟨i, c, (s.peer i).term, (s.peer i).log⟩ s.grants } := by
  have hother : (s.peer i).vote ≠ some i := by
    rintro heq
    rw [heq] at hvote
    simp [hne] at hvote
  refine
    { standing := ?_, requestTerm := ?_, requestUnique := h.requestUnique, candidateRequest := ?_,
      grantVote := ?_, grantUnique := ?_, grantRequest := ?_, reignVotes := ?_, reignPast := ?_,
      leaderReign := ?_, appendReign := h.appendReign, displaced := ?_ }
  · intro j hrole
    by_cases hj : j = i
    · subst hj
      exact absurd (h.standing j (by simpa using hrole)) hother
    · simp_all [h.standing j]
  · intro r hr
    have := h.requestTerm r hr
    grind [State.setPeer_peer]
  · intro j hrole
    by_cases hj : j = i
    · subst hj
      simpa using h.candidateRequest j (by simpa using hrole)
    · simp_all [h.candidateRequest j]
  · rintro g (rfl | hg)
    · simp [hne]
    · obtain ⟨hgne, hg'⟩ := h.grantVote g hg
      refine ⟨hgne, ?_⟩
      by_cases hj : g.voter = i
      · subst hj
        rcases hg' with hlt | ⟨heq, hv⟩
        · simp [hlt]
        · rw [hv] at hvote
          simp_all
      · simpa [hj] using hg'
  · have hold : ∀ g ∈ s.grants, g.voter = i → g.term = (s.peer i).term → g.cand = c := by
      intro g hg hvoter hterm
      have := (h.grantVote g hg).2
      rw [hvoter, hterm] at this
      rcases this with hlt | ⟨-, hv⟩
      · exact absurd hlt (lt_irrefl _)
      · rw [hv] at hvote
        simpa using hvote
    rintro g (rfl | hg) g' (rfl | hg') hvoter hterm
    · rfl
    · exact (hold g' hg' hvoter.symm hterm.symm).symm
    · exact hold g hg hvoter hterm
    · exact h.grantUnique g hg g' hg' hvoter hterm
  · rintro g (rfl | hg)
    · exact ⟨l, hreq, hlog⟩
    · exact h.grantRequest g hg
  · intro t r hr
    obtain ⟨hQ, hmem, hreq, hvotes⟩ := h.reignVotes t r hr
    exact ⟨hQ, hmem, hreq, fun q hq => (hvotes q hq).imp id fun ⟨l, hg⟩ => ⟨l, .inr hg⟩⟩
  · intro t r hr
    have := h.reignPast t r hr
    grind [State.setPeer_peer]
  · intro j hrole
    by_cases hj : j = i
    · subst hj
      simpa using h.leaderReign j (by simpa using hrole)
    · simp_all [h.leaderReign j]
  · -- A second vote was open to the node before it cast it.
    intro q hq hd
    apply h.displaced q hq
    rcases hd with ⟨g, rfl | hg, hvoter, hterm⟩ | hd
    · exact .inr ⟨by rw [← hvoter, ← hterm], by rwa [← hvoter], .inl (by rwa [← hvoter])⟩
    · exact .inl ⟨g, hg, hvoter, hterm⟩
    · by_cases hj : q.cand = i
      · simp only [State.setPeer_peer, hj, if_true] at hd
        exact .inr ⟨by rw [hj]; exact hd.1, by rwa [hj], .inl (by rwa [hj])⟩
      · exact .inr (by simpa [hj] using hd)

private theorem Votes.win (h : Votes key Q mayCrash s) (hmeet : ∀ t, Meet (Q t) (Q t)) {i : ι}
    {S : Finset ι} (e : ε) (hrole : (s.peer i).role = .candidate) (hQ : Q (s.peer i).term S)
    (hself : i ∈ S)
    (hvotes : ∀ q ∈ S, q = i ∨ ∃ l, ⟨q, i, (s.peer i).term, l⟩ ∈ s.grants) :
    Votes key Q mayCrash
      (s.append i { s.peer i with role := .leader } ⟨i, S, (s.peer i).log, []⟩ e) := by
  have hnone := h.no_reign hmeet hrole hQ hvotes
  have hold : ∀ t r, s.reign t = some r → t ≠ (s.peer i).term := by
    rintro t r hr rfl
    rw [hnone] at hr
    cases hr
  refine
    { standing := ?_, requestTerm := ?_, requestUnique := h.requestUnique, candidateRequest := ?_,
      grantVote := ?_, grantUnique := h.grantUnique, grantRequest := h.grantRequest,
      reignVotes := ?_, reignPast := ?_, leaderReign := ?_, appendReign := ?_, displaced := ?_ } <;>
    simp only [State.append, Function.update_apply]
  · intro j hj
    by_cases hji : j = i
    · subst hji
      simpa using h.standing j (by simp [hrole])
    · simp_all [h.standing j]
  · intro r hr
    have := h.requestTerm r hr
    grind
  · intro j hj
    by_cases hji : j = i
    · simp [hji] at hj
    · simp_all [h.candidateRequest j]
  · intro g hg
    have := h.grantVote g hg
    grind
  · intro t r hr
    split at hr
    next heq =>
      cases hr
      subst heq
      exact ⟨hQ, hself, h.candidateRequest i hrole, hvotes⟩
    next => exact h.reignVotes t r hr
  · intro t r hr
    split at hr
    next heq =>
      cases hr
      simp [heq]
    next =>
      have := h.reignPast t r hr
      grind
  · intro j hj
    by_cases hji : j = i
    · simp [hji]
    · simp only [hji, if_false] at hj ⊢
      obtain ⟨r, hr, hleader⟩ := h.leaderReign j hj
      exact ⟨r, by simp [hold _ r hr, hr], hleader⟩
  · intro a ha
    obtain ⟨r, hr, hleader⟩ := h.appendReign a ha
    exact ⟨r, by simp [hold _ r hr, hr], hleader⟩
  · intro q hq hd
    have hd' : ∃ r, s.reign q.term = some r ∧ q.cand ∉ r.voters := by
      apply h.displaced q hq
      refine hd.imp id ?_
      intro hd
      by_cases hj : q.cand = i
      · simpa [hj] using hd
      · simpa [hj] using hd
    obtain ⟨r, hr, hout⟩ := hd'
    exact ⟨r, by simp [hold _ r hr, hr], hout⟩

private theorem Votes.heed (h : Votes key Q mayCrash s) {i : ι} {a : Append ι ε}
    (ha : a ∈ s.appends) (hterm : a.term = (s.peer i).term)
    (hself : a.leader = i → ∀ s j, ¬ mayCrash s j) :
    Votes key Q mayCrash (s.setPeer i { s.peer i with
      vote := if (s.peer i).role = .follower then (s.peer i).vote else none
      role := .follower
      active := true }) := by
  refine h.stepDown i rfl le_rfl ?_ ?_
  · rintro g hg rfl heq
    obtain ⟨hne, hlt | ⟨-, hvote⟩⟩ := h.grantVote g hg
    · exact absurd heq hlt.ne
    · by_cases hrole : (s.peer g.voter).role = .follower
      · exact (if_pos hrole).trans hvote
      · -- A node that stands or leads has voted for nobody else in its term.
        rw [h.standing g.voter hrole] at hvote
        exact absurd (Option.some.inj hvote) hne
  · rintro q hq rfl heq hvote (hidle | hcrash)
    · cases hidle
    · by_cases hrole : (s.peer q.cand).role = .follower
      · rw [if_pos hrole] at hvote
        exact h.displaced q hq (.inr ⟨heq.symm, hvote, .inr hcrash⟩)
      · -- The leader that displaces the node won without its vote.
        obtain ⟨r, hr, hleader⟩ := h.appendReign a ha
        have hne : a.leader ≠ q.cand := by
          intro hsame
          obtain ⟨s, j, hcrash⟩ := hcrash
          exact hself hsame s j hcrash
        refine ⟨r, by rw [heq, ← hterm]; exact hr, ?_⟩
        intro hmem
        rcases (h.reignVotes _ r hr).2.2.2 q.cand hmem with hown | ⟨l, hg⟩
        · exact hne (by rw [hown, hleader])
        · have hgrant := (h.grantVote _ hg).2
          simp [hterm, h.standing q.cand hrole, hleader, hne.symm] at hgrant

private theorem Votes.crash (h : Votes key Q mayCrash s) {i : ι} (hcrash : mayCrash s i) :
    Votes key Q mayCrash (s.setPeer i { s.peer i with
      role := .follower, active := false, log := [], commit := 0 }) := by
  refine h.stepDown i rfl le_rfl ?_ ?_
  · rintro g hg rfl heq
    obtain ⟨-, hlt | ⟨-, hvote⟩⟩ := h.grantVote g hg
    · exact absurd heq hlt.ne
    · exact hvote
  · rintro q hq rfl heq hvote -
    exact h.displaced q hq (.inr ⟨heq.symm, hvote, .inr ⟨s, q.cand, hcrash⟩⟩)

private theorem Votes.extend (h : Votes key Q mayCrash s) {i : ι} {r : Reign ι ε} (e : ε)
    (hrole : (s.peer i).role = .leader) (hreign : s.reign (s.peer i).term = some r) :
    Votes key Q mayCrash (s.append i (s.peer i) r e) := by
  apply h.frame
  · intro j
    by_cases hj : j = i <;> simp [State.append, hj]
  · intro j hj
    have hne : j ≠ i := by
      rintro rfl
      simp [hrole] at hj
    simp [State.append, hne]
  · rfl
  · rfl
  · intro t r' hr'
    simp only [State.append, Function.update_apply] at hr'
    split at hr'
    next heq =>
      cases hr'
      exact ⟨r, heq ▸ hreign, rfl, rfl, rfl⟩
    next => exact ⟨r', hr', rfl, rfl, rfl⟩
  · intro t r' hr'
    by_cases heq : t = (s.peer i).term
    · subst heq
      rw [hreign] at hr'
      cases hr'
      exact ⟨_, Function.update_self .., rfl, rfl⟩
    · exact ⟨r', by simpa [State.append, heq] using hr', rfl, rfl⟩
  · exact fun a ha => .inl ha

theorem Votes.step (h : Votes key Q mayCrash s) (hmeet : ∀ t, Meet (Q t) (Q t))
    (hstep : Step key Q C mayCrash s s') : Votes key Q mayCrash s' := by
  cases hstep with
  | timeout i => exact h.timeout i
  | observe i term active hterm => exact h.observe i term active hterm
  | grant i c l hreq hne hvote hidle hlog => exact h.grant hreq hne hvote hidle hlog
  | win i S e hrole hQ hself hvotes => exact h.win hmeet e hrole hQ hself hvotes
  | extend i r e hrole hreign => exact h.extend e hrole hreign
  | send i hrole =>
    apply h.frame
    · exact fun j => ⟨rfl, rfl, rfl, rfl⟩
    · exact fun j hj => rfl
    · rfl
    · rfl
    · exact fun t r hr => ⟨r, hr, rfl, rfl, rfl⟩
    · exact fun t r hr => ⟨r, hr, rfl, rfl⟩
    · rintro a (rfl | ha)
      · exact .inr (h.leaderReign i hrole)
      · exact .inl ha
  | heed i a ha hterm hself => exact h.heed ha hterm hself
  | accept i a p ha hterm hrole hactive hprev =>
    apply h.frame
    · intro j
      by_cases hj : j = i <;> simp [hj]
    · intro j hj
      have hne : j ≠ i := by
        rintro rfl
        simp [hrole] at hj
      simp [hne]
    · rfl
    · rfl
    · exact fun t r hr => ⟨r, hr, rfl, rfl, rfl⟩
    · exact fun t r hr => ⟨r, hr, rfl, rfl⟩
    · exact fun a ha => .inl ha
  | commit i n S e hrole hn hentry hkey hC hacks =>
    apply h.frame
    · intro j
      by_cases hj : j = i <;> simp [hj]
    · intro j hj
      by_cases hji : j = i <;> simp [hji]
    · rfl
    · rfl
    · exact fun t r hr => ⟨r, hr, rfl, rfl, rfl⟩
    · exact fun t r hr => ⟨r, hr, rfl, rfl⟩
    · exact fun a ha => .inl ha
  | crash i hcrash => exact h.crash hcrash

end Phalanx.Consensus
