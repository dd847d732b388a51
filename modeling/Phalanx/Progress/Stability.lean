import Phalanx.Progress.Replication
import Phalanx.Safety.Lockstep

/-! A leader whose heartbeats come in time leads for ever. All nodes tick in rounds; a heartbeat
may take some rounds on its way, may be overtaken or lost if a later one is not, and anything else
that was ever sent may turn up at any time. -/
namespace Phalanx

open Consensus Go Raft

namespace Raft

variable {inbox : Message → Prop} {clock : Nat → Prop} {r r' : Raft} {msg : Message} {term : Nat}

theorem Moves.follows (hmoves : Moves inbox clock r r') (hquiet : ∀ t, ¬ clock t)
    (hinbox : ∀ m, inbox m → m.term ≤ term) (hstate : r.state = .follower)
    (hterm : r.currentTerm = term) :
    r'.state = .follower ∧ r'.currentTerm = term ∧
      (r'.electionElapsed = r.electionElapsed ∨ r'.electionElapsed = 0) := by
  induction hmoves with
  | refl => exact ⟨hstate, hterm, .inl rfl⟩
  | @tail r₁ r₂ _ hmove ih =>
    obtain ⟨hstate₁, hterm₁, helapsed⟩ := ih
    have hfollower : ∀ {state : NodeState}, r₁.state = state → state ≠ .follower → False :=
      fun hno hne => hne (hno.symm.trans hstate₁)
    cases hmove with
    | wait _ hclock => exact absurd hclock (hquiet _)
    | stand _ hclock => exact absurd hclock (hquiet _)
    | canvass hno => exact (hfollower hno nofun).elim
    | win hno => exact (hfollower hno nofun).elim
    | beat _ _ hno => exact (hfollower hno nofun).elim
    | count _ _ _ hno => exact (hfollower hno nofun).elim
    | broadcast _ hno => exact (hfollower hno nofun).elim
    | observe msg hin hlater =>
      have := hinbox msg hin
      omega
    | refuse => exact ⟨hstate₁, hterm₁, helapsed⟩
    | grant => exact ⟨hstate₁, hterm₁, .inr rfl⟩
    | tally _ _ _ _ hno => exact (hfollower hno nofun).elim
    | heed =>
      rw [heeding, if_pos hstate₁]
      exact ⟨hstate₁, hterm₁, .inr rfl⟩
    | accept =>
      rw [accepting_eq]
      exact ⟨hstate₁, hterm₁, helapsed⟩
    | aim _ _ _ hno => exact (hfollower hno nofun).elim
    | matched _ _ _ _ hno => exact (hfollower hno nofun).elim
    | advance _ _ _ _ hno => exact (hfollower hno nofun).elim
    | extend _ _ hno => exact (hfollower hno nofun).elim

theorem Moves.leads (hmoves : Moves inbox clock r r') (hquiet : ∀ t, ¬ clock t)
    (hinbox : ∀ m, inbox m → m.term ≤ term ∧ (m.type = .appendEntries → m.term ≠ term))
    (hstate : r.state = .leader) (hterm : r.currentTerm = term) :
    r'.state = .leader ∧ r'.currentTerm = term ∧ r'.heartbeatElapsed = r.heartbeatElapsed := by
  induction hmoves with
  | refl => exact ⟨hstate, hterm, rfl⟩
  | @tail r₁ r₂ _ hmove ih =>
    obtain ⟨hstate₁, hterm₁, helapsed⟩ := ih
    have hleader : ∀ {state : NodeState}, r₁.state = state → state ≠ .leader → False :=
      fun hno hne => hne (hno.symm.trans hstate₁)
    cases hmove with
    | wait hno => exact absurd hstate₁ hno
    | stand hno => exact absurd hstate₁ hno
    | canvass hno => exact (hleader hno nofun).elim
    | win hno => exact (hleader hno nofun).elim
    | beat _ _ _ hclock => exact absurd hclock (hquiet _)
    | broadcast _ _ h =>
      obtain ⟨out, -, rfl⟩ := broadcastHeartbeat_eq h
      exact ⟨hstate₁, hterm₁, helapsed⟩
    | observe msg hin hlater =>
      have := (hinbox msg hin).1
      omega
    | tally _ _ _ _ hno => exact (hleader hno nofun).elim
    | heed msg hin htype hsame => exact absurd (hsame.trans hterm₁) ((hinbox msg hin).2 htype)
    | accept _ _ _ _ _ hno => exact (hleader hno nofun).elim
    | count => exact ⟨hstate₁, hterm₁, helapsed⟩
    | refuse => exact ⟨hstate₁, hterm₁, helapsed⟩
    | grant => exact ⟨hstate₁, hterm₁, helapsed⟩
    | aim => exact ⟨hstate₁, hterm₁, helapsed⟩
    | matched => exact ⟨hstate₁, hterm₁, helapsed⟩
    | advance => exact ⟨hstate₁, hterm₁, helapsed⟩
    | extend => exact ⟨hstate₁, hterm₁, helapsed⟩

theorem step_restarts (htype : msg.type = .appendEntries) (hterm : msg.term = r.currentTerm)
    (hstate : r.state = .follower) (h : r.step msg = some r') : r'.electionElapsed = 0 := by
  rcases step_appendEntries_cases htype h with ⟨hstale, -⟩ | ⟨-, h⟩
  · omega
  · have hfollowing : (r.following msg).electionElapsed = 0 := by
      rw [following, if_neg (by omega), heeding, if_pos hstate]
    by_cases hpasses : (r.following msg).passes msg
    · rw [replicate_takes hpasses] at h
      obtain ⟨log, -, rfl⟩ := Option.map_eq_some_iff.mp h
      rw [followCommit_eq]
      exact hfollowing
    · rw [replicate_refuses hpasses] at h
      cases h
      exact hfollowing

end Raft

namespace Cluster

variable {w : World} {c c' : Cluster} {i j : String} {n n' m : Node} {term : Nat}
variable {stimulus : Stimulus} {input : Input} {via : Option (Nat × Packet)}

def dated : Invariant where
  node := fun _ _ _ => True
  packet := fun c pk => ∃ seen ∈ c.hist, pk.msg.term ≤ seen.2.currentTerm
  seen := fun _ _ _ => True
  node_mono := fun _ h => h
  packet_mono := by
    rintro c c' pk hextends ⟨seen, hseen, hle⟩
    exact ⟨seen, hextends.mem_hist hseen, hle⟩
  seen_mono := fun _ h => h

theorem dated_kept (w : World) (ok : Cluster → Event → Prop) : dated.Kept w ok where
  boot := fun _ _ _ _ _ => ⟨trivial, trivial⟩
  handle := by
    intro c i stimulus n input via n' hreach _ _ hn _ hact
    refine ⟨trivial, trivial, fun pk hpk => ?_⟩
    have hposted := Node.act_posts (hreach.orderly.node i n hn).drained hact
    refine ⟨_, List.mem_append_right _ (List.mem_singleton.mpr rfl), ?_⟩
    rcases mem_emitted hpk with ⟨m, hm, -, rfl⟩ | ⟨k, req, m, -, -, hm, -, rfl⟩
    · exact (hposted m hm).term.le
    · rw [(Message.answered_frame req.msg m).2.2.1]
      exact (hposted m hm).term.le
  interrupt := fun _ _ _ _ _ _ _ _ _ _ _ _ _ => trivial
  crash := fun _ _ _ _ _ _ _ _ _ _ _ _ _ => ⟨trivial, trivial⟩
  dial := fun _ _ pk _ _ _ h _ hpk _ _ _ => h.packet pk (List.mem_of_getElem? hpk)
  answer := fun _ _ _ _ _ _ _ _ _ _ _ => trivial

def paced (w : World) : Invariant where
  node := fun _ i n => n.raft.state = .leader → 0 ≤ n.raft.heartbeatElapsed ∧
    n.raft.heartbeatElapsed < max 1 (w.heartbeatTimeout i)
  packet := fun _ _ => True
  seen := fun _ _ _ => True
  node_mono := fun _ h => h
  packet_mono := fun _ h => h
  seen_mono := fun _ h => h

theorem paced_kept (w : World) : (paced w).Kept w fun _ e => e.steady = true where
  boot := by
    intro c i n _ hboot
    obtain ⟨peerAddrs, rfl⟩ := World.boot_eq hboot
    exact ⟨nofun, trivial⟩
  handle := by
    intro c i stimulus n input via n' hreach h hok hn hinput hact
    refine ⟨fun hlead => ?_, trivial, fun _ _ => trivial⟩
    change 0 ≤ n'.raft.heartbeatElapsed ∧ n'.raft.heartbeatElapsed < _
    change n'.raft.state = .leader at hlead
    have hfresh : (0 : Int) < max 1 (w.heartbeatTimeout i) := lt_max_of_lt_left Int.one_pos
    by_cases htick : input = .tick
    · subst htick
      obtain ⟨r, htick, hact⟩ := Option.bind_eq_some_iff.mp hact
      cases hact
      obtain ⟨lastApplied, hraft⟩ := applyCommitted_raft w.env n r
      rw [hraft] at hlead ⊢
      change r.state = .leader at hlead
      change 0 ≤ r.heartbeatElapsed ∧ r.heartbeatElapsed < _
      by_cases hold : n.raft.state = .leader
      · obtain ⟨hpos, -⟩ := h.node i n hn hold
        obtain ⟨-, htimeout, -⟩ := ((timers_kept w _).reach hreach).node i n hn
        obtain ⟨-, -, ⟨-, helapsed, -⟩ | ⟨hearly, helapsed, -⟩⟩ := tick_paced hold htick
        · exact ⟨helapsed.ge, helapsed ▸ hfresh⟩
        · rw [helapsed, ← htimeout]
          exact ⟨by omega, lt_max_of_lt_right hearly⟩
      · rw [(tick_crowned hold htick hlead).1]
        exact ⟨le_rfl, hfresh⟩
    · rcases acted_paced hreach.orderly (Event.isJoin_of_steady hok) htick hinput hact hlead with
        ⟨-, helapsed, -⟩ | ⟨hold, -, helapsed, -⟩
      · rw [helapsed]
        exact ⟨le_rfl, hfresh⟩
      · rw [helapsed]
        exact h.node i n hn hold
  interrupt := fun _ _ _ _ _ _ _ _ _ _ _ _ _ => trivial
  crash := fun _ _ _ _ _ _ _ _ hok => (Event.not_steady_crash hok).elim
  dial := fun _ _ _ _ _ _ _ _ _ _ _ _ => trivial
  answer := by
    intro c i call success n n' _ h _ hn hanswer
    obtain ⟨calls, rfl⟩ := Node.answer_frame hanswer
    exact h.node i n hn

theorem Fit.stepped (h : Fit w term c) (hinput : c.input j stimulus = some (input, via))
    {id : String} {m : Message} (hm : input.stepped id = some m) : m.term ≤ term := by
  obtain ⟨k, pk, -, -, hk, -, hcase⟩ := stepped_packet hinput hm
  have hterm : m.term = pk.msg.term := by
    rcases hcase with ⟨hrequest, -, rfl⟩ | ⟨-, -, rfl⟩
    · exact (Message.received_frame hrequest id).2.2.1
    · rfl
  obtain ⟨seen, hseen, hle⟩ := ((dated_kept w _).reach h.reach).packet pk (List.mem_of_getElem? hk)
  exact hterm.trans_le (hle.trans (h.terms seen hseen))

theorem Fit.not_own (h : Fit w term c) (hn : c.node i = some n) (hlead : n.raft.state = .leader)
    (hinput : c.input i stimulus = some (input, via)) {id : String} {m : Message}
    (hm : input.stepped id = some m) (htype : m.type = .appendEntries) :
    m.term ≠ n.raft.currentTerm := by
  intro hterm
  obtain ⟨s, hs⟩ := h.refines
  obtain ⟨k, pk, -, -, hk, hdest, hcase⟩ := stepped_packet hinput hm
  have htransit := hs.net pk (List.mem_of_getElem? hk)
  have hshape : m.type = pk.msg.type ∧ m.term = pk.msg.term := by
    rcases hcase with ⟨hrequest, -, rfl⟩ | ⟨-, -, rfl⟩
    · obtain ⟨htype', -, hterm', -⟩ := Message.received_frame hrequest id
      exact ⟨htype', hterm'⟩
    · exact ⟨rfl, rfl⟩
  have hgenuine := htransit.genuine.2
  simp only [hshape.1.symm.trans htype] at hgenuine
  obtain ⟨a, ha, hsender, haterm, -⟩ := hgenuine
  obtain ⟨k₁, hk₁, hleader₁⟩ := hs.safe.votes.appendReign a ha
  obtain ⟨k₂, hk₂, hleader₂, -⟩ := hs.hist _ (hs.now i n hn) hlead
  simp only at hk₂ hleader₂
  rw [haterm, ← hshape.2, hterm, hk₂] at hk₁
  cases hk₁
  apply htransit.apart
  rw [← hsender, ← hleader₁, hleader₂]
  exact htransit.dest i hdest

theorem Fit.follower_acts (h : Fit w term c) (hjoin : stimulus.isJoin = false)
    (htick : input ≠ .tick) (hinput : c.input j stimulus = some (input, via))
    (hact : n.act w.env input = some n') (hstate : n.raft.state = .follower)
    (hterm : n.raft.currentTerm = term) :
    n'.raft.state = .follower ∧ n'.raft.currentTerm = term ∧
      (n'.raft.electionElapsed = n.raft.electionElapsed ∨ n'.raft.electionElapsed = 0) := by
  obtain ⟨⟨r₁, lastApplied, hmoves, hraft⟩, -⟩ :=
    acted_moves h.reach.orderly hinput (no_join hjoin hinput) hact
  rw [hraft]
  exact hmoves.follows (fun _ hclock => htick hclock.1) (fun _ hm => h.stepped hinput hm) hstate
    hterm

theorem Fit.leader_acts (h : Fit w term c) (hjoin : stimulus.isJoin = false)
    (htick : input ≠ .tick) (hn : c.node i = some n)
    (hinput : c.input i stimulus = some (input, via)) (hact : n.act w.env input = some n')
    (hlead : n.raft.state = .leader) (hterm : n.raft.currentTerm = term) :
    n'.raft.state = .leader ∧ n'.raft.currentTerm = term ∧
      n'.raft.heartbeatElapsed = n.raft.heartbeatElapsed := by
  obtain ⟨⟨r₁, lastApplied, hmoves, hraft⟩, -⟩ :=
    acted_moves h.reach.orderly hinput (no_join hjoin hinput) hact
  rw [hraft]
  refine hmoves.leads (fun _ hclock => htick hclock.1) (fun m hm => ?_) hlead hterm
  exact ⟨h.stepped hinput hm, fun htype => hterm ▸ h.not_own hn hlead hinput hm htype⟩

theorem Fit.ticks (h : Fit w term c) (hn : c.node j = some n) {r : Raft}
    (htick : n.raft.tick = some r) (hterm : r.currentTerm = term) :
    ∃ n' lastApplied, c.step w (.handle j .tick) = some (c.completed j n' none) ∧
      n'.raft = { r with lastApplied } ∧ Fit w term (c.completed j n' none) := by
  obtain ⟨lastApplied, hraft⟩ := applyCommitted_raft w.env n r
  have hact : n.act w.env .tick = some (Node.applyCommitted w.env { n with raft := r }) := by
    simp [Node.act, htick]
  refine ⟨_, lastApplied, step_completed hn rfl rfl hact, hraft, ?_⟩
  refine (h.handle (show (Event.handle j .tick).unattended = true from rfl) hn rfl rfl hact ?_).1
  rw [hraft]
  exact hterm.le

theorem act_restarts {msg : Message} (htype : msg.type = .appendEntries)
    (hterm : msg.term = n.raft.currentTerm) (hstate : n.raft.state = .follower)
    (hact : n.act w.env (.request msg) = some n') : n'.raft.electionElapsed = 0 := by
  obtain ⟨r, hstep, hact⟩ := Option.bind_eq_some_iff.mp hact
  rw [if_pos htype] at hact
  cases hact
  obtain ⟨lastApplied, hraft⟩ := applyCommitted_raft w.env n r
  rw [hraft]
  change r.electionElapsed = 0
  obtain ⟨htype', -, hterm', -⟩ := Message.received_frame (isRequest_of_type (.inr htype)) n.id
  exact step_restarts (htype'.trans htype) (hterm'.trans hterm) hstate hstep

end Cluster

/-- A cluster with a clock of rounds. It keeps in which round each packet of the network was first
sent, in which rounds the heartbeat of the leader was due, and of each node the round of the
newest AppendEntries that it has handled in its own term. -/
structure Tended where
  cluster : Cluster
  clock : Nat
  births : List Nat
  beats : List Nat
  reached : String → Nat

namespace Tended

/-- The cluster has become `c`; what was added to the network was first sent in round `born`. -/
def become (t : Tended) (born : Nat) (c : Cluster) : Tended :=
  { t with
    cluster := c
    births := t.births ++ List.replicate (c.net.length - t.cluster.net.length) born }

def tick (w : World) (i : String) (t : Tended) (j : String) : Option Tended := do
  let n ← t.cluster.node j
  let c ← t.cluster.step w (.handle j .tick)
  let due := j = i ∧ n.raft.heartbeatTimeout ≤ n.raft.heartbeatElapsed + 1
  pure { t.become t.clock c with beats := if due then t.beats ++ [t.clock] else t.beats }

def event (w : World) (t : Tended) (e : Event) : Option Tended := do
  let c ← t.cluster.step w e
  match e with
  | .handle j (.packet k) =>
    let n ← t.cluster.node j
    let pk ← t.cluster.net[k]?
    let heard := pk.msg.type = .appendEntries ∧ pk.msg.term = n.raft.currentTerm
    pure
      { t.become t.clock c with
        reached :=
          if heard then Function.update t.reached j (max (t.reached j) (t.births.getD k 0))
          else t.reached }
  | .dial k => pure (t.become (t.births.getD k 0) c)
  | _ => pure (t.become t.clock c)

def step (w : World) (i : String) (t : Tended) : Beat → Option Tended
  | .round => w.members.foldlM (tick w i) { t with clock := t.clock + 1 }
  | .event (.handle _ .tick) => none
  | .event e => t.event w e

/-- No discovery event and no crash; and before a round begins every other node has handled an
AppendEntries that is no older than any heartbeat that was due `delay` rounds ago. -/
def Timely (w : World) (i : String) (delay : Nat) (t : Tended) : Beat → Prop
  | .round => ∀ beat ∈ t.beats, beat + delay ≤ t.clock → ∀ j ∈ w.members, j ≠ i →
      beat ≤ t.reached j
  | .event e => e.steady = true

instance decidableTimely (w : World) (i : String) (delay : Nat) (t : Tended) :
    (b : Beat) → Decidable (Timely w i delay t b)
  | .round => inferInstanceAs (Decidable (∀ beat ∈ t.beats, _ → ∀ j ∈ w.members, _ → _))
  | .event e => inferInstanceAs (Decidable (e.steady = true))

/-- The clock is set to the age of the last heartbeat. -/
def begin (c : Cluster) (age : Nat) : Tended where
  cluster := c
  clock := age
  births := c.net.map fun _ => 0
  beats := [0]
  reached := fun _ => 0

abbrev Reach (w : World) (i : String) (delay : Nat) (t₀ : Tended) : Tended → Prop :=
  Reachable (some t₀) (step w i) (Timely w i delay)

end Tended

open Cluster

/-- A node that has yet to tick in a round which the clock has counted lags behind. -/
def lag (late : List String) (j : String) : Nat := if j ∈ late then 1 else 0

theorem lag_nil (j : String) : lag [] j = 0 := rfl

theorem lag_of_mem {late : List String} {j : String} (h : j ∈ late) : lag late j = 1 := if_pos h

theorem lag_of_not_mem {late : List String} {j : String} (h : j ∉ late) : lag late j = 0 :=
  if_neg h

theorem lag_cons {late : List String} {j p : String} (h : p ≠ j) : lag (j :: late) p = lag late p :=
  by simp [lag, h]

namespace Tended

structure Beating (w : World) (i : String) (term late : Nat) (t : Tended) : Prop where
  leads : ∃ n, t.cluster.node i = some n ∧ n.raft.state = .leader ∧ n.raft.currentTerm = term ∧
    ∃ beat ∈ t.beats, beat + n.raft.heartbeatElapsed + late = t.clock
  covered : ∀ now, now + late ≤ t.clock →
    ∃ beat ∈ t.beats, beat ≤ now ∧ (now : Int) < beat + max 1 (w.heartbeatTimeout i)

/-- Node `j` follows, and has not waited longer than since the newest AppendEntries it handled. -/
def Hearing (term late : Nat) (t : Tended) (j : String) : Prop :=
  ∃ m, t.cluster.node j = some m ∧ m.raft.state = .follower ∧ m.raft.currentTerm = term ∧
    m.raft.electionElapsed + t.reached j + late ≤ t.clock

theorem tick_eq {w : World} {t : Tended} {i j : String} {n : Node} {c : Cluster}
    (hn : t.cluster.node j = some n) (hstep : t.cluster.step w (.handle j .tick) = some c) :
    t.tick w i j = some
      { t.become t.clock c with
        beats :=
          if j = i ∧ n.raft.heartbeatTimeout ≤ n.raft.heartbeatElapsed + 1 then t.beats ++ [t.clock]
          else t.beats } := by
  rw [tick, hn, hstep]
  rfl

theorem step_event {w : World} {t t' : Tended} {i : String} {e : Event}
    (h : t.step w i (.event e) = some t') :
    (∀ j, e ≠ .handle j .tick) ∧ t.event w e = some t' := by
  refine ⟨?_, ?_⟩
  · rintro j rfl
    cases h
  · cases e with
    | handle j stimulus =>
      cases stimulus with
      | tick => cases h
      | _ => exact h
    | _ => exact h

end Tended

open Tended

/-- Node `i` leads and all others follow; those in `late` have yet to tick in this round. -/
structure Calm (w : World) (i : String) (term : Nat) (late : List String) (t : Tended) : Prop where
  fit : Fit w term t.cluster
  births : ∀ born ∈ t.births, born ≤ t.clock
  reached : ∀ j, t.reached j ≤ t.clock
  beating : Beating w i term (lag late i) t
  hearing : ∀ j ∈ w.members, j ≠ i → Hearing term (lag late j) t j

variable {w : World} {i j : String} {term delay : Nat} {late rest : List String} {t t' : Tended}
variable {c : Cluster} {n n' m : Node} {stimulus : Stimulus} {input : Input}
variable {via : Option (Nat × Packet)}

namespace Calm

/-- A state in which all others have heard from the leader since its last heartbeat. -/
theorem begin (hfit : Fit w term c) (hn : c.node i = some n) (hlead : n.raft.state = .leader)
    (hterm : n.raft.currentTerm = term)
    (hfollow : ∀ j ∈ w.members, j ≠ i → ∃ m, c.node j = some m ∧ m.raft.state = .follower ∧
      m.raft.currentTerm = term ∧ m.raft.electionElapsed ≤ n.raft.heartbeatElapsed) :
    Calm w i term [] (Tended.begin c n.raft.heartbeatElapsed.toNat) := by
  obtain ⟨hpos, hlt⟩ := ((paced_kept w).reach hfit.reach).node i n hn hlead
  have hage : (n.raft.heartbeatElapsed.toNat : Int) = n.raft.heartbeatElapsed :=
    Int.toNat_of_nonneg hpos
  refine ⟨hfit, ?_, fun _ => Nat.zero_le _,
    ⟨⟨n, hn, hlead, hterm, 0, List.mem_singleton.mpr rfl, ?_⟩, ?_⟩, ?_⟩
  · intro born hborn
    obtain ⟨pk, -, rfl⟩ := List.mem_map.mp hborn
    exact Nat.zero_le _
  · simp [Tended.begin, lag_nil, hage]
  · intro now hnow
    refine ⟨0, List.mem_singleton.mpr rfl, Nat.zero_le _, ?_⟩
    rw [lag_nil] at hnow
    change now + 0 ≤ n.raft.heartbeatElapsed.toNat at hnow
    omega
  · intro j hj hji
    obtain ⟨m, hm, hstate, hterm', hle⟩ := hfollow j hj hji
    refine ⟨m, hm, hstate, hterm', ?_⟩
    simpa [Tended.begin, lag_nil, hage] using hle

theorem round (h : Calm w i term [] t) (hi : i ∈ w.members) :
    Calm w i term w.members { t with clock := t.clock + 1 } where
  fit := h.fit
  births := fun born hborn => (h.births born hborn).trans (Nat.le_succ _)
  reached := fun j => (h.reached j).trans (Nat.le_succ _)
  beating := by
    obtain ⟨⟨n, hn, hlead, hterm, beat, hbeat, hage⟩, hcovered⟩ := h.beating
    rw [lag_nil] at hage hcovered
    rw [lag_of_mem hi]
    refine ⟨⟨n, hn, hlead, hterm, beat, hbeat, ?_⟩, fun now hnow => ?_⟩
    · push_cast
      omega
    · exact hcovered now (Nat.le_of_succ_le_succ hnow)
  hearing := by
    intro j hj hji
    obtain ⟨m, hm, hstate, hterm, hle⟩ := h.hearing j hj hji
    rw [lag_nil] at hle
    rw [lag_of_mem hj]
    refine ⟨m, hm, hstate, hterm, ?_⟩
    push_cast
    omega

theorem recent (h : Calm w i term [] t) (htimely : t.Timely w i delay .round) (hj : j ∈ w.members)
    (hji : j ≠ i) : (t.clock : Int) + 1 ≤ t.reached j + delay + max 1 (w.heartbeatTimeout i) := by
  by_cases hearly : t.clock < delay
  · omega
  · obtain ⟨beat, hbeat, hle, hlt⟩ := h.beating.covered (t.clock - delay) (by simp [lag_nil])
    have hreached := htimely beat hbeat (by omega) j hj hji
    omega

theorem set (h : Calm w i term late t) (hfit : Fit w term t'.cluster) (hclock : t'.clock = t.clock)
    (hbirths : ∀ born ∈ t'.births, born ≤ t.clock)
    (hnode : ∀ p, p ≠ j → t'.cluster.node p = t.cluster.node p)
    (hlate : ∀ p, p ≠ j → lag rest p = lag late p)
    (hother : ∀ p, p ≠ j → t'.reached p = t.reached p) (hown : t'.reached j ≤ t.clock)
    (hbeats : j ≠ i → t'.beats = t.beats)
    (hbeating : j = i → Beating w i term (lag rest i) t')
    (hhearing : j ∈ w.members → j ≠ i → Hearing term (lag rest j) t' j) :
    Calm w i term rest t' where
  fit := hfit
  births := hclock ▸ hbirths
  reached := by
    intro p
    rw [hclock]
    by_cases hpj : p = j
    · subst hpj
      exact hown
    · rw [hother p hpj]
      exact h.reached p
  beating := by
    by_cases hji : j = i
    · exact hbeating hji
    · have hij : i ≠ j := Ne.symm hji
      obtain ⟨hleads, hcovered⟩ := h.beating
      refine ⟨?_, ?_⟩
      · rw [hnode i hij, hbeats hji, hclock, hlate i hij]
        exact hleads
      · rw [hbeats hji, hclock, hlate i hij]
        exact hcovered
  hearing := by
    intro p hp hpi
    by_cases hpj : p = j
    · subst hpj
      exact hhearing hp hpi
    · obtain ⟨m, hm, hheard⟩ := h.hearing p hp hpi
      refine ⟨m, (hnode p hpj).trans hm, ?_⟩
      rw [hother p hpj, hclock, hlate p hpj]
      exact hheard

theorem births_become (h : Calm w i term late t) {born : Nat} (hborn : born ≤ t.clock) :
    ∀ b ∈ (t.become born c).births, b ≤ t.clock := by
  intro b hb
  rcases List.mem_append.mp hb with hold | hnew
  · exact h.births b hold
  · rw [List.eq_of_mem_replicate hnew]
    exact hborn

theorem tick_leader (h : Calm w i term (i :: rest) t) (hfresh : i ∉ rest) :
    ∃ t', t.tick w i i = some t' ∧ t'.clock = t.clock ∧ t'.reached = t.reached ∧
      Calm w i term rest t' := by
  obtain ⟨⟨n, hn, hlead, hterm, beat, hbeat, hage⟩, hcovered⟩ := h.beating
  rw [lag_of_mem List.mem_cons_self] at hage hcovered
  obtain ⟨s, hs⟩ := h.fit.refines
  obtain ⟨r, htick, -⟩ := tick_returns (hs.node i n hn).tracks.indexed (h.fit.equipped hn)
  obtain ⟨hlead', hterm', hpace⟩ := tick_paced hlead htick
  obtain ⟨n', lastApplied, hstep, hraft, hfit⟩ := h.fit.ticks hn htick (hterm'.trans hterm)
  obtain ⟨-, htimeout, -⟩ := ((timers_kept w _).reach h.fit.reach).node i n hn
  obtain ⟨hpos, -⟩ := ((paced_kept w).reach h.fit.reach).node i n hn hlead
  refine ⟨_, tick_eq hn hstep, rfl, rfl, ?_⟩
  refine h.set (j := i) hfit rfl (h.births_become le_rfl) (fun p hp => Function.update_of_ne hp ..)
    (fun p hp => (lag_cons hp).symm) (fun _ _ => rfl) (h.reached i) (fun hno => absurd rfl hno)
    (fun _ => ?_) (fun _ hno => absurd rfl hno)
  rw [lag_of_not_mem hfresh]
  have hself : (t.cluster.completed i n' none).node i = some (n'.release true).1 :=
    Function.update_self ..
  have helapsed : (n'.release true).1.raft.heartbeatElapsed = r.heartbeatElapsed := by
    change n'.raft.heartbeatElapsed = _
    rw [hraft]
  have hleads : (n'.release true).1.raft.state = .leader ∧
      (n'.release true).1.raft.currentTerm = term := by
    change n'.raft.state = _ ∧ n'.raft.currentTerm = _
    rw [hraft]
    exact ⟨hlead', hterm'.trans hterm⟩
  rcases hpace with ⟨hdue, hzero, -⟩ | ⟨hearly, hsucc, -⟩
  · -- the heartbeat is due: it starts a new interval in this round
    simp only [hdue, and_self, if_true]
    have hnew : t.clock ∈ t.beats ++ [t.clock] := by simp
    refine ⟨⟨_, hself, hleads.1, hleads.2, t.clock, hnew, ?_⟩, fun now hnow => ?_⟩
    · rw [helapsed, hzero]
      change (t.clock : Int) + 0 + 0 = t.clock
      omega
    · by_cases hnow' : now = t.clock
      · exact ⟨t.clock, hnew, hnow'.ge, by omega⟩
      · change now + 0 ≤ t.clock at hnow
        obtain ⟨old, hold, hwithin⟩ := hcovered now (by omega)
        exact ⟨old, List.mem_append_left _ hold, hwithin⟩
  · have hnot : ¬ n.raft.heartbeatTimeout ≤ n.raft.heartbeatElapsed + 1 := by omega
    simp only [hnot, and_false, if_false]
    refine ⟨⟨_, hself, hleads.1, hleads.2, beat, hbeat, ?_⟩, fun now hnow => ?_⟩
    · rw [helapsed, hsucc]
      change (beat : Int) + (n.raft.heartbeatElapsed + 1) + 0 = t.clock
      omega
    · by_cases hnow' : now = t.clock
      · exact ⟨beat, hbeat, by omega, by omega⟩
      · change now + 0 ≤ t.clock at hnow
        exact hcovered now (by omega)

theorem tick_follower (h : Calm w i term (j :: rest) t) (hfresh : j ∉ rest) (hj : j ∈ w.members)
    (hji : j ≠ i) (hfits : w.electionTimeout j ≤ maxElectionTimeout)
    (hspare : (t.clock : Int) < t.reached j + w.electionTimeout j) :
    ∃ t', t.tick w i j = some t' ∧ t'.clock = t.clock ∧ t'.reached = t.reached ∧
      Calm w i term rest t' := by
  obtain ⟨m, hm, hstate, hterm, hle⟩ := h.hearing j hj hji
  rw [lag_of_mem List.mem_cons_self] at hle
  obtain ⟨-, -, -, hfits'⟩ := ((timers_kept w _).reach h.fit.reach).node j m hm
  have htimeout := hfits' hfits
  have htick := tick_early (by simp [hstate]) (show m.raft.electionElapsed + 1 < _ by omega)
  obtain ⟨n', lastApplied, hstep, hraft, hfit⟩ := h.fit.ticks hm htick hterm
  refine ⟨_, tick_eq hm hstep, rfl, rfl, ?_⟩
  refine h.set (j := j) hfit rfl (h.births_become le_rfl) (fun p hp => Function.update_of_ne hp ..)
    (fun p hp => (lag_cons hp).symm) (fun _ _ => rfl) (h.reached j)
    (fun _ => if_neg fun hno => hji hno.1) (fun hno => absurd hno hji) (fun _ _ => ?_)
  rw [lag_of_not_mem hfresh]
  refine ⟨(n'.release true).1, Function.update_self .., ?_⟩
  change n'.raft.state = _ ∧ n'.raft.currentTerm = _ ∧
    n'.raft.electionElapsed + t.reached j + 0 ≤ t.clock
  rw [hraft]
  exact ⟨hstate, hterm, by simp only; omega⟩

theorem ticks (h : Calm w i term late t) (hnodup : late.Nodup)
    (hmembers : ∀ j ∈ late, j ∈ w.members)
    (hfits : ∀ j ∈ w.members, w.electionTimeout j ≤ maxElectionTimeout)
    (hspare : ∀ j ∈ w.members, j ≠ i → (t.clock : Int) < t.reached j + w.electionTimeout j) :
    ∃ t', late.foldlM (Tended.tick w i) t = some t' ∧ Calm w i term [] t' := by
  induction late generalizing t with
  | nil => exact ⟨t, rfl, h⟩
  | cons j rest ih =>
    have hfresh := (List.nodup_cons.mp hnodup).1
    obtain ⟨t₁, ht₁, hclock, hreached, h₁⟩ : ∃ t', t.tick w i j = some t' ∧
        t'.clock = t.clock ∧ t'.reached = t.reached ∧ Calm w i term rest t' := by
      have hj := hmembers j List.mem_cons_self
      by_cases hji : j = i
      · subst hji
        exact h.tick_leader hfresh
      · exact h.tick_follower hfresh hj hji (hfits j hj) (hspare j hj hji)
    obtain ⟨t', ht', h'⟩ := ih h₁ (List.nodup_cons.mp hnodup).2
      (fun p hp => hmembers p (List.mem_cons_of_mem j hp)) (by rw [hclock, hreached]; exact hspare)
    exact ⟨t', by rw [List.foldlM_cons, ht₁]; exact ht', h'⟩

theorem keep (h : Calm w i term [] t) (hfit : Fit w term t'.cluster) (hclock : t'.clock = t.clock)
    (hbirths : ∀ born ∈ t'.births, born ≤ t.clock) (hbeats : t'.beats = t.beats)
    (hn : t.cluster.node j = some n)
    (hnode : t'.cluster.node = Function.update t.cluster.node j (some n'))
    (hother : ∀ p, p ≠ j → t'.reached p = t.reached p) (hown : t'.reached j ≤ t.clock)
    (hstate : n'.raft.state = n.raft.state) (hterm : n'.raft.currentTerm = n.raft.currentTerm)
    (hleader : j = i → n'.raft.heartbeatElapsed = n.raft.heartbeatElapsed)
    (hfollower : j ≠ i → n'.raft.electionElapsed = 0 ∨
      n'.raft.electionElapsed = n.raft.electionElapsed ∧ t'.reached j = t.reached j) :
    Calm w i term [] t' := by
  have hself : t'.cluster.node j = some n' := by
    rw [hnode]
    exact Function.update_self ..
  refine h.set (j := j) hfit hclock hbirths (fun p hp => by rw [hnode, Function.update_of_ne hp])
    (fun _ _ => rfl) hother hown (fun _ => hbeats) (fun hji => ?_) (fun hj hji => ?_)
  · subst hji
    obtain ⟨⟨n₁, hn₁, hlead, hterm₁, beat, hbeat, hage⟩, hcovered⟩ := h.beating
    cases hn.symm.trans hn₁
    rw [← hclock, ← hbeats] at hcovered
    refine ⟨⟨n', hself, hstate.trans hlead, hterm.trans hterm₁, beat, hbeats ▸ hbeat, ?_⟩, hcovered⟩
    rw [hleader rfl, hclock]
    exact hage
  · obtain ⟨m, hm, hstate₁, hterm₁, hle⟩ := h.hearing j hj hji
    cases hn.symm.trans hm
    refine ⟨n', hself, hstate.trans hstate₁, hterm.trans hterm₁, ?_⟩
    rw [lag_nil] at hle ⊢
    rw [hclock]
    rcases hfollower hji with hzero | ⟨helapsed, hreached⟩
    · rw [hzero]
      push_cast
      omega
    · rw [helapsed, hreached]
      exact hle

theorem handle (h : Calm w i term [] t) (hsteady : (Event.handle j stimulus).steady = true)
    (htick : stimulus ≠ .tick) (hstep : t.cluster.step w (.handle j stimulus) = some t'.cluster)
    (hclock : t'.clock = t.clock) (hbirths : ∀ born ∈ t'.births, born ≤ t.clock)
    (hbeats : t'.beats = t.beats) (hother : ∀ p, p ≠ j → t'.reached p = t.reached p)
    (hown : t'.reached j ≤ t.clock)
    (hheard : t'.reached j = t.reached j ∨ ∃ k pk n, stimulus = .packet k ∧
      t.cluster.net[k]? = some pk ∧ t.cluster.node j = some n ∧ pk.msg.type = .appendEntries ∧
      pk.msg.term = n.raft.currentTerm) : Calm w i term [] t' := by
  have hjoin := Event.isJoin_of_steady hsteady
  obtain ⟨n, input, via, hn, hinput, hcase⟩ := step_handle hstep
  have hfit : (∀ seen ∈ t'.cluster.hist, seen.2.currentTerm ≤ term) → Fit w term t'.cluster :=
    fun hterms => ⟨h.fit.static, h.fit.small, h.fit.reach.step hsteady hstep, hterms⟩
  rcases hcase with ⟨hdeclines, hsame⟩ | ⟨n', hact, hcompleted⟩
  · have hreached : t'.reached j = t.reached j := by
      rcases hheard with hreached | ⟨k, pk, -, rfl, hk, -⟩
      · exact hreached
      · obtain ⟨pk', hk', hinput⟩ := Option.bind_eq_some_iff.mp hinput
        split at hinput
        · cases hinput
          split at hdeclines <;> cases hdeclines
        · cases hinput
    have hnode : t'.cluster.node = Function.update t.cluster.node j (some n) := by
      rw [hsame, ← hn, Function.update_eq_self]
    exact h.keep (hsame ▸ h.fit) hclock hbirths hbeats hn hnode hother hown rfl rfl
      (fun _ => rfl) (fun _ => .inr ⟨rfl, hreached⟩)
  · have hnotick := input_ne_tick htick hinput
    have hnode : t'.cluster.node =
        Function.update t.cluster.node j (some (n'.release true).1) := by
      rw [hcompleted]
      rfl
    have hterms : n'.raft.currentTerm = term → Fit w term t'.cluster := by
      intro hterm
      refine hfit fun seen hseen => ?_
      rw [hcompleted] at hseen
      rcases List.mem_append.mp hseen with hold | hnew
      · exact h.fit.terms seen hold
      · rw [List.mem_singleton.mp hnew]
        exact hterm.le
    by_cases hji : j = i
    · subst hji
      obtain ⟨⟨n₁, hn₁, hlead, hterm, -⟩, -⟩ := h.beating
      cases hn.symm.trans hn₁
      obtain ⟨hlead', hterm', helapsed⟩ :=
        h.fit.leader_acts hjoin hnotick hn hinput hact hlead hterm
      exact h.keep (hterms hterm') hclock hbirths hbeats hn hnode hother hown
        (hlead'.trans hlead.symm) (hterm'.trans hterm.symm) (fun _ => helapsed)
        (fun hno => absurd rfl hno)
    · obtain ⟨m, hm, hstate, hterm, -⟩ := h.hearing j (h.fit.reach.orderly.node j n hn).member hji
      cases hn.symm.trans hm
      obtain ⟨hstate', hterm', helapsed⟩ :=
        h.fit.follower_acts hjoin hnotick hinput hact hstate hterm
      refine h.keep (hterms hterm') hclock hbirths hbeats hn hnode hother hown
        (hstate'.trans hstate.symm) (hterm'.trans hterm.symm) (fun hno => absurd hno hji)
        (fun _ => ?_)
      rcases hheard with hreached | ⟨k, pk, n₁, rfl, hk, hn₁, htype, hsame⟩
      · exact helapsed.symm.imp id fun hkept => ⟨hkept, hreached⟩
      · cases hn.symm.trans hn₁
        obtain ⟨pk', hk', hinput⟩ := Option.bind_eq_some_iff.mp hinput
        cases hk.symm.trans hk'
        split at hinput
        · rw [if_pos (isRequest_of_type (.inr htype))] at hinput
          cases hinput
          have hzero : n'.raft.electionElapsed = 0 := act_restarts htype hsame hstate hact
          exact .inl hzero
        · cases hinput

theorem event {e : Event} (h : Calm w i term [] t) (hsteady : e.steady = true)
    (htick : ∀ j, e ≠ .handle j .tick) (hevent : t.event w e = some t') : Calm w i term [] t' := by
  obtain ⟨c, hstep, hevent⟩ := Option.bind_eq_some_iff.mp hevent
  have hborn : ∀ k, t.births.getD k 0 ≤ t.clock := by
    intro k
    rw [List.getD_eq_getElem?_getD]
    cases hk : t.births[k]? with
    | none => exact Nat.zero_le _
    | some born => exact h.births born (List.mem_of_getElem? hk)
  cases e with
  | handle j stimulus =>
    have hstimulus : stimulus ≠ .tick := fun hno => htick j (congrArg _ hno)
    cases stimulus with
    | packet k =>
      obtain ⟨n, hn, hevent⟩ := Option.bind_eq_some_iff.mp hevent
      obtain ⟨pk, hk, hevent⟩ := Option.bind_eq_some_iff.mp hevent
      cases hevent
      by_cases hheard : pk.msg.type = .appendEntries ∧ pk.msg.term = n.raft.currentTerm
      · simp only [if_pos hheard]
        refine h.handle hsteady hstimulus hstep rfl (h.births_become le_rfl) rfl
          (fun p hp => Function.update_of_ne hp ..) ?_ (.inr ⟨k, pk, n, rfl, hk, hn, hheard⟩)
        change Function.update t.reached j _ j ≤ _
        rw [Function.update_self]
        exact max_le (h.reached j) (hborn k)
      · simp only [if_neg hheard]
        exact h.handle hsteady hstimulus hstep rfl (h.births_become le_rfl) rfl (fun _ _ => rfl)
          (h.reached j) (.inl rfl)
    | _ =>
      cases hevent
      exact h.handle hsteady hstimulus hstep rfl (h.births_become le_rfl) rfl (fun _ _ => rfl)
        (h.reached j) (.inl rfl)
  | crash j during => exact (Event.not_steady_crash hsteady).elim
  | dial k =>
    cases hevent
    obtain ⟨n, hn, -⟩ := h.beating.leads
    obtain ⟨pk, m, dest, -, -, -, -, rfl⟩ := step_dial hstep
    refine h.keep ⟨h.fit.static, h.fit.small, h.fit.reach.step hsteady hstep, h.fit.terms⟩ rfl
      (h.births_become (hborn k)) rfl hn ?_ (fun _ _ => rfl) (h.reached i) rfl rfl (fun _ => rfl)
      (fun _ => .inr ⟨rfl, rfl⟩)
    rw [← hn]
    exact (Function.update_eq_self ..).symm
  | answer j call success =>
    cases hevent
    obtain ⟨n, n', hn, hanswer, rfl⟩ := step_answer hstep
    obtain ⟨calls, rfl⟩ := Node.answer_frame hanswer
    exact h.keep ⟨h.fit.static, h.fit.small, h.fit.reach.step hsteady hstep, h.fit.terms⟩ rfl
      (h.births_become le_rfl) rfl hn rfl (fun _ _ => rfl) (h.reached j) rfl rfl (fun _ => rfl)
      (fun _ => .inr ⟨rfl, rfl⟩)

end Calm

/-- A leader whose heartbeats are handled in time is never deposed. Let it have the newest term
there is, and all others follow it and have heard from it since its last heartbeat; let an
AppendEntries as new as each heartbeat be handled within `delay` rounds, where the heartbeat
interval and the delay are together shorter than every election timeout, and no draw of a timeout
overflows. Then nobody ever stands, whatever else is delivered, reordered, delayed or lost, and
every round goes through. -/
theorem timely_leader_reigns (hfit : Fit w term c) (hn : c.node i = some n)
    (hlead : n.raft.state = .leader) (hterm : n.raft.currentTerm = term)
    (hfollow : ∀ j ∈ w.members, j ≠ i → ∃ m, c.node j = some m ∧ m.raft.state = .follower ∧
      m.raft.currentTerm = term ∧ m.raft.electionElapsed ≤ n.raft.heartbeatElapsed)
    (hfits : ∀ j ∈ w.members, w.electionTimeout j ≤ maxElectionTimeout)
    (hmargin : ∀ j ∈ w.members, j ≠ i →
      max 1 (w.heartbeatTimeout i) + delay < w.electionTimeout j)
    (hreach : Tended.Reach w i delay (.begin c n.raft.heartbeatElapsed.toNat) t) :
    (∃ n', t.cluster.node i = some n' ∧ n'.raft.state = .leader ∧ n'.raft.currentTerm = term) ∧
    (∀ j ∈ w.members, j ≠ i → ∃ m, t.cluster.node j = some m ∧ m.raft.state = .follower ∧
      m.raft.currentTerm = term) ∧
    (t.Timely w i delay .round → ∃ t', t.step w i .round = some t') := by
  have hi := (hfit.reach.orderly.node i n hn).member
  have hround : ∀ {t : Tended}, Calm w i term [] t → t.Timely w i delay .round →
      ∃ t', t.step w i .round = some t' ∧ Calm w i term [] t' := by
    intro t h htimely
    refine (h.round hi).ticks hfit.static.nodup (fun _ hj => hj) hfits fun j hj hji => ?_
    have hrecent := h.recent htimely hj hji
    have := hmargin j hj hji
    push_cast
    omega
  have hcalm : Calm w i term [] t := by
    induction hreach with
    | start h =>
      cases h
      exact .begin hfit hn hlead hterm hfollow
    | @step t t' b _ hok hstep ih =>
      cases b with
      | round =>
        obtain ⟨t₁, ht₁, h₁⟩ := hround ih hok
        cases ht₁.symm.trans hstep
        exact h₁
      | event e =>
        obtain ⟨htick, hevent⟩ := step_event hstep
        exact ih.event hok htick hevent
  obtain ⟨⟨n', hn', hlead', hterm', -⟩, -⟩ := hcalm.beating
  refine ⟨⟨n', hn', hlead', hterm'⟩, fun j hj hji => ?_, fun htimely => ?_⟩
  · obtain ⟨m, hm, hstate, hterm, -⟩ := hcalm.hearing j hj hji
    exact ⟨m, hm, hstate, hterm⟩
  · obtain ⟨t', ht', -⟩ := hround hcalm htimely
    exact ⟨t', ht'⟩

/-- Four rounds with an election timeout of four: the heartbeat of the second round is handled in
the third. -/
theorem timely_leader_reigns_four_rounds :
    ∃ c t, Fit (mesh ["a", "b", "c"] 4 2) 1 c ∧
      Tended.Reach (mesh ["a", "b", "c"] 4 2) "a" 1 (.begin c 0) t ∧ t.clock = 4 ∧
      t.beats = [0, 2, 4] ∧ (∃ n, t.cluster.node "a" = some n ∧ n.raft.state = .leader) ∧
      ∃ m, t.cluster.node "b" = some m ∧ m.raft.state = .follower := by
  obtain ⟨c, hreach, hterms, hlead, hb, hc, hrun⟩ :
      ∃ c, Cluster.Reach (mesh ["a", "b", "c"] 4 2) (fun _ e => e.steady = true) c ∧
        (∀ seen ∈ c.hist, seen.2.currentTerm ≤ 1) ∧
        (∃ n ∈ c.node "a", n.raft.state = .leader ∧ n.raft.currentTerm = 1 ∧
          n.raft.heartbeatElapsed = 0) ∧
        (∃ n ∈ c.node "b", n.raft.state = .follower ∧ n.raft.currentTerm = 1 ∧
          n.raft.electionElapsed ≤ 0) ∧
        (∃ n ∈ c.node "c", n.raft.state = .follower ∧ n.raft.currentTerm = 1 ∧
          n.raft.electionElapsed ≤ 0) ∧
        (runFrom (some (Tended.begin c 0)) (Tended.step (mesh ["a", "b", "c"] 4 2) "a")
          (Tended.Timely (mesh ["a", "b", "c"] 4 2) "a" 1)
          [.round, .round, .event (.dial 8), .event (.dial 9), .round,
            .event (.handle "c" (.packet 11)), .event (.handle "a" (.packet 5)),
            .event (.handle "b" (.packet 10)), .round]).any
          (fun t => decide (t.clock = 4 ∧ t.beats = [0, 2, 4])) = true :=
    Reachable.of_any
      [.handle "a" .tick, .handle "a" .tick, .handle "a" .tick, .handle "a" .tick, .dial 0, .dial 1,
        .handle "b" (.packet 2), .handle "c" (.packet 3), .handle "a" (.packet 4)] rfl
  obtain ⟨t, ht, hclock, hbeats⟩ := Reachable.of_any _ hrun
  obtain ⟨n, hn, hlead, hterm, helapsed⟩ := hlead
  obtain ⟨m, hm, hm'⟩ := hb
  obtain ⟨l, hl, hl'⟩ := hc
  have hfit : Fit (mesh ["a", "b", "c"] 4 2) 1 c :=
    ⟨mesh_static (by decide) (by decide) 4 2, by decide, hreach, hterms⟩
  have hfollow : ∀ j ∈ (mesh ["a", "b", "c"] 4 2).members, j ≠ "a" → ∃ m, c.node j = some m ∧
      m.raft.state = .follower ∧ m.raft.currentTerm = 1 ∧
      m.raft.electionElapsed ≤ n.raft.heartbeatElapsed := by
    intro j hj hja
    rw [helapsed]
    rcases List.mem_cons.mp hj with rfl | hj
    · exact absurd rfl hja
    rcases List.mem_cons.mp hj with rfl | hj
    · exact ⟨m, hm, hm'⟩
    · cases List.mem_singleton.mp hj
      exact ⟨l, hl, hl'⟩
  have ht' : Tended.Reach (mesh ["a", "b", "c"] 4 2) "a" 1
      (.begin c n.raft.heartbeatElapsed.toNat) t := by
    rw [helapsed]
    exact ht
  have hmargin : max (1 : Int) 2 + (1 : Nat) < 4 := by decide
  obtain ⟨⟨n', hn', hlead', -⟩, hfollows, -⟩ := timely_leader_reigns hfit hn hlead hterm hfollow
    (fun _ _ => show (4 : Int) ≤ maxElectionTimeout by decide) (fun _ _ _ => hmargin) ht'
  obtain ⟨m', hm', hstate, -⟩ := hfollows "b" (by decide) (by decide)
  exact ⟨c, t, hfit, ht, hclock, hbeats, ⟨n', hn', hlead'⟩, m', hm', hstate⟩

end Phalanx
