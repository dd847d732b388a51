import Phalanx.Refinement.Cluster
import Phalanx.Raft.Timers
import Phalanx.Traffic

/-! A cluster whose nodes tick in lockstep: a round ticks every node once. Beside the
cluster, `Timed` keeps for every node where the network stood when the current heartbeat
interval of the node began, and whose replies the node has counted since. -/
namespace Phalanx

open Consensus Go Raft

structure Timed where
  cluster : Cluster
  mark : String → Nat := fun _ => 0
  counted : String → List String := fun _ => []

inductive Beat where
  | round
  | event (e : Event)
deriving DecidableEq

def Beat.steady : Beat → Bool
  | .round => true
  | .event e => e.steady

def Beat.delivers : Beat → Bool
  | .round => false
  | .event e => e.delivers

/-- A leader begins to count anew: it has just won, or its heartbeat is due. -/
def Raft.renews (r r' : Raft) (stimulus : Stimulus) : Bool :=
  r'.state = .leader ∧
    (r.state ≠ .leader ∨ stimulus = .tick ∧ r.heartbeatTimeout ≤ r.heartbeatElapsed + 1)

def Cluster.replier (c : Cluster) (r : Raft) : Stimulus → List String
  | .packet k => ((c.net[k]?).filter fun pk => r.counts pk.msg).toList.map fun pk => pk.msg.sender
  | _ => []

namespace Timed

def handle (w : World) (t : Timed) (i : String) (stimulus : Stimulus) : Option Timed := do
  let n ← t.cluster.node i
  let c ← t.cluster.step w (.handle i stimulus)
  let n' ← c.node i
  if n.raft.renews n'.raft stimulus then
    pure
      { cluster := c
        mark := Function.update t.mark i t.cluster.net.length
        counted := Function.update t.counted i [] }
  else
    pure
      { t with
        cluster := c
        counted := Function.update t.counted i
          (t.counted i ++ t.cluster.replier n.raft stimulus) }

def round (w : World) (members : List String) (t : Timed) : Option Timed :=
  members.foldlM (fun t i => t.handle w i .tick) t

def step (w : World) (t : Timed) : Beat → Option Timed
  | .round => t.round w w.members
  | .event (.handle i stimulus) => if stimulus = .tick then none else t.handle w i stimulus
  | .event e => do
    let c ← t.cluster.step w e
    pure { t with cluster := c }

abbrev run (w : World) (ok : Timed → Beat → Prop) [∀ t b, Decidable (ok t b)]
    (beats : List Beat) : Option Timed :=
  runFrom ((Cluster.start w).map fun c => { cluster := c }) (step w) ok beats

abbrev Reach (w : World) (ok : Timed → Beat → Prop) : Timed → Prop :=
  Reachable ((Cluster.start w).map fun c => { cluster := c }) (step w) ok

end Timed

variable {w : World} {c c' : Cluster} {s s' : Protocol} {i j p : String} {n n' : Node}
variable {t t' : Timed}

namespace Cluster

variable {stimulus : Stimulus} {input : Input} {via : Option (Nat × Packet)}

def timers (w : World) : Invariant where
  node := fun _ i n => n.raft.baseElectionTimeout = w.electionTimeout i ∧
    n.raft.heartbeatTimeout = w.heartbeatTimeout i ∧ 0 < w.electionTimeout i ∧
    (w.electionTimeout i ≤ maxElectionTimeout → w.electionTimeout i ≤ n.raft.electionTimeout)
  packet := fun _ _ => True
  seen := fun _ _ _ => True
  node_mono := fun _ h => h
  packet_mono := fun _ h => h
  seen_mono := fun _ h => h

theorem timers_boot {store : Store} (hboot : w.boot i store = some n) :
    (timers w).node c i n := by
  have hpos := World.boot_base hboot
  obtain ⟨peerAddrs, rfl⟩ := World.boot_eq hboot
  exact ⟨rfl, rfl, hpos, fun hfits => (redraw_range _ hpos hfits).1⟩

theorem timers_kept (w : World) (ok : Cluster → Event → Prop) : (timers w).Kept w ok where
  boot := fun c i n _ hboot => ⟨timers_boot hboot, trivial⟩
  handle := by
    intro c i stimulus n input via n' hreach h _ hn hinput hact
    refine ⟨?_, trivial, fun _ _ => trivial⟩
    obtain ⟨hbase, hheartbeat, hpos, htimeout⟩ := h.node i n hn
    change n'.raft.baseElectionTimeout = _ ∧ n'.raft.heartbeatTimeout = _ ∧ _ ∧
      (_ → _ ≤ n'.raft.electionTimeout)
    rcases acted_cases hreach.orderly hinput hact with ⟨r₁, lastApplied, hmoves, hraft⟩ |
      ⟨peers, hraft⟩
    · obtain ⟨hbase', hheartbeat', htimeout'⟩ := hmoves.timeouts
      rw [hbase] at htimeout'
      rw [hraft]
      exact ⟨hbase'.trans hbase, hheartbeat'.trans hheartbeat, hpos,
        fun hfits => htimeout' hpos hfits (htimeout hfits)⟩
    · rw [hraft]
      exact ⟨hbase, hheartbeat, hpos, htimeout⟩
  interrupt := fun _ _ _ _ _ _ _ _ _ _ _ _ _ => trivial
  crash := fun c c₁ i _ n n' _ _ _ _ hboot _ _ => ⟨timers_boot hboot, trivial⟩
  dial := fun _ _ _ _ _ _ _ _ _ _ _ _ => trivial
  answer := by
    intro c i call success n n' _ h _ hn hanswer
    obtain ⟨calls, rfl⟩ := Node.answer_frame hanswer
    exact h.node i n hn

theorem replier_length {k : Nat} {pk : Packet} (hpk : c.net[k]? = some pk) (r : Raft) :
    ((c.replier r (.packet k)).length : Int) = if r.counts pk.msg then 1 else 0 := by
  rw [replier, hpk]
  cases hcounts : r.counts pk.msg <;> simp [Option.filter, hcounts]

theorem acted_paced (horderly : (orderly w).Holds c) (hjoin : stimulus.isJoin = false)
    (htick : input ≠ .tick) (hinput : c.input j stimulus = some (input, via))
    (hact : n.act w.env input = some n') (hlead : n'.raft.state = .leader) :
    n.raft.state ≠ .leader ∧ n'.raft.heartbeatElapsed = 0 ∧ n'.raft.heartbeatAcked = 1 ∨
    n.raft.state = .leader ∧ n'.raft.currentTerm = n.raft.currentTerm ∧
      n'.raft.heartbeatElapsed = n.raft.heartbeatElapsed ∧
      n'.raft.heartbeatAcked =
        n.raft.heartbeatAcked + (c.replier n.raft stimulus).length := by
  obtain ⟨⟨r₁, lastApplied, hmoves, hraft⟩, -⟩ :=
    acted_moves horderly hinput (no_join hjoin hinput) hact
  have hclock : ∀ t, ¬ (input = .tick ∧ t = n.raft.currentTerm) := fun _ h => htick h.1
  have hlead₁ : r₁.state = .leader := by
    rw [hraft] at hlead
    exact hlead
  have hterm := (hmoves.keeps_office hclock (by simp [hlead₁])).2
  by_cases hresp : ∃ m, input.stepped n.id = some m ∧ m.type = .appendEntriesResp
  · obtain ⟨m, hm, htype⟩ := hresp
    obtain ⟨k, pk, rfl, hpk, -, -, rfl, rfl⟩ := stepped_response hinput hm (.inr htype)
    obtain ⟨raft, hstep, hact⟩ := Option.bind_eq_some_iff.mp hact
    rw [if_pos htype] at hact
    cases hact
    have hframe : (Node.applyCommitted w.env { n with raft }).raft =
        { raft with lastApplied := raft.applicableEntries.2.lastApplied } := by
      rw [(Node.applyCommitted_frame _ _).1]
      exact applicableEntries_eq raft
    rw [hframe] at hraft hlead ⊢
    rw [replier_length hpk]
    have hold := step_leads htype hstep hlead
    have hpaced := step_paced htype hold hstep hlead
    exact .inr ⟨hold, (congrArg Raft.currentTerm hraft).trans hterm, hpaced⟩
  · push Not at hresp
    have hnone : c.replier n.raft stimulus = [] := by
      rcases input_cases hinput with ⟨-, rfl, -⟩ | ⟨_, -, rfl, -⟩ | ⟨_, _, -, rfl, -⟩ |
        ⟨k, pk, rfl, hpk, -, -, rfl⟩
      · rfl
      · rfl
      · rfl
      · have hcounts : n.raft.counts pk.msg = false := by
          apply decide_eq_false
          rintro ⟨-, htype, -⟩
          rw [not_isRequest_of_type (.inr htype)] at hresp
          exact hresp pk.msg rfl htype
        rw [replier, hpk]
        simp [Option.filter, hcounts]
    rw [hraft, hnone]
    by_cases hold : n.raft.state = .leader
    · have hpaced := hmoves.paced hclock hresp
        ⟨fun h => absurd h (by simp [hold]), fun _ => ⟨rfl, rfl⟩⟩
      exact .inr ⟨hold, hterm, (hpaced.leader hlead₁).1, by simpa using (hpaced.leader hlead₁).2⟩
    · have hpaced := hmoves.paced hclock hresp
        ⟨fun _ => ⟨rfl, rfl⟩, fun h => absurd h hold⟩
      exact .inl ⟨hold, hpaced.leader hlead₁⟩

end Cluster

open Cluster

namespace Timed

variable {stimulus : Stimulus} {input : Input} {via : Option (Nat × Packet)}

/-- How a handler of `j` changes the count that `j` keeps. -/
structure Counts (t t' : Timed) (j : String) (r r' : Raft) (stimulus : Stimulus) : Prop where
  other : ∀ i, i ≠ j → t'.mark i = t.mark i ∧ t'.counted i = t.counted i
  own : r.renews r' stimulus = true ∧ t'.mark j = t.cluster.net.length ∧ t'.counted j = [] ∨
    r.renews r' stimulus = false ∧ t'.mark j = t.mark j ∧
      t'.counted j = t.counted j ++ t.cluster.replier r stimulus

theorem handle_cases (h : t.handle w j stimulus = some t') :
    t' = t ∧ stimulus ≠ .tick ∨ ∃ n input via n', t.cluster.node j = some n ∧
      t.cluster.input j stimulus = some (input, via) ∧ n.act w.env input = some n' ∧
      t'.cluster = t.cluster.completed j n' via ∧ Counts t t' j n.raft n'.raft stimulus := by
  obtain ⟨n, hn, h⟩ := Option.bind_eq_some_iff.mp h
  obtain ⟨c, hc, h⟩ := Option.bind_eq_some_iff.mp h
  obtain ⟨n₁, hn₁, h⟩ := Option.bind_eq_some_iff.mp h
  obtain ⟨n₀, input, via, hn₀, hinput, hcase⟩ := step_handle hc
  cases hn.symm.trans hn₀
  rcases hcase with ⟨hdeclines, rfl⟩ | ⟨n', hact, rfl⟩
  · left
    cases hn.symm.trans hn₁
    rcases input_cases hinput with ⟨-, -, rfl⟩ | ⟨data, -, rfl, rfl⟩ | ⟨_, _, -, -, rfl⟩ |
      ⟨k, pk, -, -, -, -, rfl⟩
    · cases hdeclines
    · rw [renews, decide_eq_false (by simp), if_neg Bool.false_ne_true] at h
      cases h
      simp [replier]
    · cases hdeclines
    · split at hdeclines <;> cases hdeclines
  · right
    refine ⟨n, input, via, n', hn, hinput, hact, ?_⟩
    have hraft : n.raft.renews n₁.raft stimulus = n.raft.renews n'.raft stimulus := by
      have hself : (t.cluster.completed j n' via).node j = some (n'.release true).1 :=
        Function.update_self ..
      cases hself.symm.trans hn₁
      rfl
    rw [hraft] at h
    split at h
    next hrenews =>
      cases h
      exact ⟨rfl, fun i hi => by simp [hi], .inl ⟨hrenews, by simp, by simp⟩⟩
    next hrenews =>
      cases h
      exact ⟨rfl, fun i hi => by simp [hi],
        .inr ⟨eq_false_of_ne_true hrenews, rfl, by simp⟩⟩

theorem handle_step (h : t.handle w j stimulus = some t') :
    t.cluster.step w (.handle j stimulus) = some t'.cluster := by
  obtain ⟨n, hn, h⟩ := Option.bind_eq_some_iff.mp h
  obtain ⟨c, hc, h⟩ := Option.bind_eq_some_iff.mp h
  obtain ⟨n₁, hn₁, h⟩ := Option.bind_eq_some_iff.mp h
  split at h <;> cases h <;> exact hc

theorem handle_tick (h : t.handle w j .tick = some t') :
    ∃ n r lastApplied n', t.cluster.node j = some n ∧ n.raft.tick = some r ∧
      n.act w.env .tick = some n' ∧ n'.raft = { r with lastApplied } ∧
      t'.cluster = t.cluster.completed j n' none ∧ Counts t t' j n.raft r .tick := by
  obtain ⟨-, hno⟩ | ⟨n, input, via, n', hn, hinput, hact, hcluster, hcounts⟩ := handle_cases h
  · exact absurd rfl hno
  · cases hinput
    obtain ⟨r, htick, hn'⟩ := Option.bind_eq_some_iff.mp hact
    cases hn'
    have hframe : (Node.applyCommitted w.env { n with raft := r }).raft =
        { r with lastApplied := r.applicableEntries.2.lastApplied } := by
      rw [(Node.applyCommitted_frame _ _).1]
      exact applicableEntries_eq r
    rw [hframe] at hcounts
    exact ⟨n, r, _, _, hn, htick, hact, hframe, hcluster, hcounts.other, hcounts.own⟩

/-- What a round over `members` does: each of them ticks once, and only requests leave. -/
structure Ticked (members : List String) (t t' : Timed) : Prop where
  waits : ∀ j, j ∉ members → t'.cluster.node j = t.cluster.node j ∧ t'.mark j = t.mark j ∧
    t'.counted j = t.counted j
  ticks : ∀ j ∈ members, ∃ n r lastApplied n', t.cluster.node j = some n ∧
    n.raft.tick = some r ∧ t'.cluster.node j = some n' ∧
    n'.raft = { r with lastApplied, msgs := [] } ∧
    (n.raft.renews r .tick = true ∧ t.cluster.net.length ≤ t'.mark j ∧ t'.counted j = [] ∨
      n.raft.renews r .tick = false ∧ t'.mark j = t.mark j ∧ t'.counted j = t.counted j)
  grows : ∀ pk ∈ t.cluster.net, pk ∈ t'.cluster.net
  length : t.cluster.net.length ≤ t'.cluster.net.length
  requests : ∀ pk ∈ t'.cluster.net, pk ∈ t.cluster.net ∨ pk.msg.isRequest = true

theorem Ticked.nil (t : Timed) : Ticked [] t t where
  waits := fun _ _ => ⟨rfl, rfl, rfl⟩
  ticks := fun _ hj => by cases hj
  grows := fun _ hpk => hpk
  length := le_rfl
  requests := fun _ hpk => .inl hpk

theorem Ticked.cons {members : List String} {t₁ : Timed} (hfresh : j ∉ members)
    (h : t.handle w j .tick = some t₁) (hrest : Ticked members t₁ t') :
    Ticked (j :: members) t t' := by
  obtain ⟨n, r, lastApplied, n', hn, htick, -, hraft, hcluster, hother, hown⟩ := handle_tick h
  have hnet : t₁.cluster.net = t.cluster.net ++ emitted j n'.raft.msgs none := by
    rw [hcluster]
    rfl
  have hlength : t.cluster.net.length ≤ t₁.cluster.net.length := by
    rw [hnet, List.length_append]
    omega
  have hnode : ∀ q, q ≠ j → t₁.cluster.node q = t.cluster.node q := by
    intro q hq
    rw [hcluster]
    exact Function.update_of_ne hq ..
  refine { waits := ?_, ticks := ?_, grows := ?_, length := hlength.trans hrest.length
           requests := ?_ }
  · intro q hq
    have hqj := List.ne_of_not_mem_cons hq
    obtain ⟨hnode', hmark, hcounted⟩ := hrest.waits q (List.not_mem_of_not_mem_cons hq)
    exact ⟨hnode'.trans (hnode q hqj), hmark.trans (hother q hqj).1,
      hcounted.trans (hother q hqj).2⟩
  · intro q hq
    by_cases hqj : q = j
    · subst hqj
      obtain ⟨hnode', hmark, hcounted⟩ := hrest.waits q hfresh
      refine ⟨n, r, lastApplied, (n'.release true).1, hn, htick, ?_, ?_, ?_⟩
      · rw [hnode', hcluster]
        exact Function.update_self ..
      · change { n'.raft with msgs := [] } = _
        rw [hraft]
      · rw [hmark, hcounted]
        rcases hown with ⟨hrenews, heq, hnil⟩ | ⟨hrenews, heq, hsame⟩
        · exact .inl ⟨hrenews, heq.ge, hnil⟩
        · exact .inr ⟨hrenews, heq, hsame.trans (List.append_nil _)⟩
    · obtain ⟨m, r₁, lastApplied₁, m', hm, htick₁, hm', hraft₁, hcase⟩ :=
        hrest.ticks q (List.mem_of_ne_of_mem hqj hq)
      rw [(hother q hqj).1, (hother q hqj).2] at hcase
      refine ⟨m, r₁, lastApplied₁, m', (hnode q hqj).symm.trans hm, htick₁, hm', hraft₁, ?_⟩
      rcases hcase with ⟨hrenews, hle, hnil⟩ | hsame
      · exact .inl ⟨hrenews, hlength.trans hle, hnil⟩
      · exact .inr hsame
  · intro pk hpk
    exact hrest.grows pk (by rw [hnet]; exact List.mem_append_left _ hpk)
  · intro pk hpk
    rcases hrest.requests pk hpk with hpk | hrequest
    · rw [hnet] at hpk
      rcases List.mem_append.mp hpk with hold | hnew
      · exact .inl hold
      · obtain ⟨m, -, hrequest, rfl⟩ | ⟨_, _, _, hno, -⟩ := mem_emitted hnew
        · exact .inr hrequest
        · cases hno
    · exact .inr hrequest

theorem round_induction {P : Timed → Prop} {members : List String}
    (hkeep : ∀ t t' j, P t → t.handle w j .tick = some t' → P t')
    (h : t.round w members = some t') (hP : P t) : P t' := by
  induction members generalizing t with
  | nil =>
    cases h
    exact hP
  | cons j rest ih =>
    rw [round, List.foldlM_cons] at h
    obtain ⟨t₁, ht₁, h⟩ := Option.bind_eq_some_iff.mp h
    exact ih h (hkeep t t₁ j hP ht₁)

theorem round_ticked {members : List String} (hnodup : members.Nodup)
    (h : t.round w members = some t') : Ticked members t t' := by
  induction members generalizing t with
  | nil =>
    cases h
    exact .nil _
  | cons j rest ih =>
    rw [round, List.foldlM_cons] at h
    obtain ⟨t₁, ht₁, h⟩ := Option.bind_eq_some_iff.mp h
    exact .cons (List.nodup_cons.mp hnodup).1 ht₁ (ih (List.nodup_cons.mp hnodup).2 h)

theorem round_below {members : List String} (h : t.round w members = some t')
    (hbelow : t'.cluster.TermsBelow) : t.cluster.TermsBelow := by
  by_contra hno
  refine round_induction (P := fun t => ¬ t.cluster.TermsBelow) ?_ h hno hbelow
  exact fun t t' j hno h hbelow => hno (hbelow.before (handle_step h))

theorem step_below {b : Beat} (h : t.step w b = some t') (hbelow : t'.cluster.TermsBelow) :
    t.cluster.TermsBelow := by
  cases b with
  | round => exact round_below h hbelow
  | event e =>
    cases e with
    | handle j stimulus =>
      change (if _ then none else _) = _ at h
      split at h
      · cases h
      · exact hbelow.before (handle_step h)
    | _ =>
      obtain ⟨c, hc, h⟩ := Option.bind_eq_some_iff.mp h
      cases h
      exact hbelow.before hc

theorem round_refines (hstatic : Static w) (hs : Refines (fun _ _ => False) w t.cluster s)
    {members : List String} (h : t.round w members = some t')
    (hbelow : t'.cluster.TermsBelow) :
    ∃ s', Refines (fun _ _ => False) w t'.cluster s' ∧ Grows s s' := by
  induction members generalizing t s with
  | nil =>
    cases h
    exact ⟨s, hs, .refl s⟩
  | cons j rest ih =>
    rw [round, List.foldlM_cons] at h
    obtain ⟨t₁, ht₁, h⟩ := Option.bind_eq_some_iff.mp h
    obtain ⟨n, r, lastApplied, n', hn, -, hact, -, hcluster, -⟩ := handle_tick ht₁
    have hbefore := (round_below h hbelow).before (handle_step ht₁)
    have hinput : t.cluster.input j .tick = some (.tick, none) := rfl
    obtain ⟨s₁, hs₁, hgrows₁⟩ := hs.handled hstatic hbefore rfl hn hinput hact
    rw [← hcluster] at hs₁
    obtain ⟨s', hs', hgrows⟩ := ih hs₁ h
    exact ⟨s', hs', hgrows₁.trans hgrows⟩

end Timed
end Phalanx
