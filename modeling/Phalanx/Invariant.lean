import Phalanx.Cluster

/-! Invariants of a cluster that speak of one node, one packet or one recorded state
at a time. They may refer to everything sent and seen so far, which only grows, so
an event needs a look only at the node, the packets and the record it adds. -/
namespace Phalanx

namespace Cluster

structure Extends (c c' : Cluster) : Prop where
  net : c.net <+: c'.net
  hist : c.hist <+: c'.hist

theorem Extends.refl (c : Cluster) : c.Extends c := ⟨List.prefix_refl _, List.prefix_refl _⟩

theorem Extends.packet {c c' : Cluster} (h : c.Extends c') {k : Nat} {pk : Packet}
    (hk : c.net[k]? = some pk) : c'.net[k]? = some pk := by
  obtain ⟨new, hnew⟩ := h.net
  rw [← hnew, List.getElem?_append_left (List.getElem?_eq_some_iff.mp hk).1, hk]

theorem Extends.mem_net {c c' : Cluster} (h : c.Extends c') {pk : Packet} (hpk : pk ∈ c.net) :
    pk ∈ c'.net := h.net.subset hpk

theorem Extends.mem_hist {c c' : Cluster} (h : c.Extends c') {seen : String × Raft}
    (hseen : seen ∈ c.hist) : seen ∈ c'.hist := h.hist.subset hseen

theorem extends_completed (c : Cluster) (i : String) (n : Node) (via : Option (Nat × Packet)) :
    c.Extends (c.completed i n via) := ⟨List.prefix_append _ _, List.prefix_append _ _⟩

theorem extends_recorded (c : Cluster) (i : String) (n : Node) : c.Extends (c.recorded i n) :=
  ⟨List.prefix_refl _, List.prefix_append _ _⟩

theorem extends_setNode (c : Cluster) (i : String) (n : Node) : c.Extends (c.setNode i n) :=
  ⟨List.prefix_refl _, List.prefix_append _ _⟩

end Cluster

open Cluster

structure Invariant where
  node : Cluster → String → Node → Prop
  packet : Cluster → Packet → Prop
  seen : Cluster → String → Raft → Prop
  node_mono : ∀ {c c' : Cluster} {i : String} {n : Node}, c.Extends c' → node c i n → node c' i n
  packet_mono : ∀ {c c' : Cluster} {pk : Packet}, c.Extends c' → packet c pk → packet c' pk
  seen_mono : ∀ {c c' : Cluster} {i : String} {r : Raft}, c.Extends c' → seen c i r → seen c' i r

namespace Invariant

structure Holds (I : Invariant) (c : Cluster) : Prop where
  node : ∀ i n, c.node i = some n → I.node c i n
  packet : ∀ pk ∈ c.net, I.packet c pk
  seen : ∀ i r, (i, r) ∈ c.hist → I.seen c i r

/-- What each event has to establish for what it adds. -/
structure Kept (I : Invariant) (w : World) (ok : Cluster → Event → Prop) : Prop where
  boot : ∀ (c : Cluster) (i : String) (n : Node), i ∈ w.members → w.boot i {} = some n →
    I.node (c.setNode i n) i n ∧ I.seen (c.setNode i n) i { n.raft with msgs := [] }
  handle : ∀ (c : Cluster) (i : String) (stimulus : Stimulus) (n : Node) (input : Input)
    (via : Option (Nat × Packet)) (n' : Node),
    Reach w ok c → I.Holds c → ok c (.handle i stimulus) → c.node i = some n →
    c.input i stimulus = some (input, via) → n.act w.env input = some n' →
    I.node (c.completed i n' via) i (n'.release true).1 ∧
      I.seen (c.completed i n' via) i { n'.raft with msgs := [] } ∧
      ∀ pk ∈ emitted i n'.raft.msgs via, I.packet (c.completed i n' via) pk
  interrupt : ∀ (c : Cluster) (i : String) (stimulus : Stimulus) (n : Node) (input : Input)
    (via : Option (Nat × Packet)) (n' : Node),
    Reach w ok c → I.Holds c → ok c (.crash i (some stimulus)) → c.node i = some n →
    c.input i stimulus = some (input, via) → n.act w.env input = some n' →
    I.seen (c.recorded i n') i { n'.raft with msgs := [] }
  crash : ∀ (c c₁ : Cluster) (i : String) (during : Option Stimulus) (n n' : Node),
    Reach w ok c → I.Holds c → ok c (.crash i during) → c.node i = some n →
    w.boot i n.store = some n' → c.Extends c₁ →
    (c₁ = c ∧ during = none ∨ ∃ stimulus input via n₁, during = some stimulus ∧
      c.input i stimulus = some (input, via) ∧ n.act w.env input = some n₁ ∧
      c₁ = c.recorded i n₁) →
    I.node (c₁.setNode i n') i n' ∧ I.seen (c₁.setNode i n') i { n'.raft with msgs := [] }
  dial : ∀ (c : Cluster) (k : Nat) (pk : Packet) (n : Node) (dest : String),
    Reach w ok c → I.Holds c → ok c (.dial k) → c.net[k]? = some pk →
    c.node pk.origin = some n → pk.dest = none →
    dest = w.env.dial pk.origin (n.resolvePeerAddr pk.msg.recipient) →
    I.packet c { pk with dest := some dest }
  answer : ∀ (c : Cluster) (i : String) (call : Nat) (success : Bool) (n n' : Node),
    Reach w ok c → I.Holds c → ok c (.answer i call success) → c.node i = some n →
    n.answer call success = some n' → I.node c i n'

variable {I : Invariant} {w : World} {ok : Cluster → Event → Prop} {c c' : Cluster}
variable {i : String} {n : Node}

theorem Holds.set (h : I.Holds c) (new : List Packet)
    (hextends : c.Extends { c.setNode i n with net := c.net ++ new })
    (hnode : I.node { c.setNode i n with net := c.net ++ new } i n)
    (hseen : I.seen { c.setNode i n with net := c.net ++ new } i { n.raft with msgs := [] })
    (hnew : ∀ pk ∈ new, I.packet { c.setNode i n with net := c.net ++ new } pk) :
    I.Holds { c.setNode i n with net := c.net ++ new } where
  node := by
    intro j m hm
    by_cases hj : j = i
    · subst hj
      simp only [setNode, Function.update_self] at hm
      cases hm
      exact hnode
    · simp only [setNode, Function.update_of_ne hj] at hm
      exact I.node_mono hextends (h.node j m hm)
  packet := by
    intro pk hpk
    rcases List.mem_append.mp hpk with hold | hadded
    · exact I.packet_mono hextends (h.packet pk hold)
    · exact hnew pk hadded
  seen := by
    intro j r hr
    rcases List.mem_append.mp hr with hold | hadded
    · exact I.seen_mono hextends (h.seen j r hold)
    · cases List.mem_singleton.mp hadded
      exact hseen

theorem Holds.setNode (h : I.Holds c) (hnode : I.node (c.setNode i n) i n)
    (hseen : I.seen (c.setNode i n) i { n.raft with msgs := [] }) : I.Holds (c.setNode i n) := by
  have heq : c.setNode i n = { c.setNode i n with net := c.net ++ [] } := by
    rw [List.append_nil]
    rfl
  rw [heq] at hnode hseen ⊢
  exact h.set [] (heq ▸ extends_setNode c i n) hnode hseen (by simp)

theorem Holds.recorded (h : I.Holds c)
    (hseen : I.seen (c.recorded i n) i { n.raft with msgs := [] }) : I.Holds (c.recorded i n) where
  node := fun j m hm => I.node_mono (extends_recorded c i n) (h.node j m hm)
  packet := fun pk hpk => I.packet_mono (extends_recorded c i n) (h.packet pk hpk)
  seen := by
    intro j r hr
    rcases List.mem_append.mp hr with hold | hadded
    · exact I.seen_mono (extends_recorded c i n) (h.seen j r hold)
    · cases List.mem_singleton.mp hadded
      exact hseen

theorem Kept.step (hI : I.Kept w ok) (hreach : Reach w ok c) (h : I.Holds c) {e : Event}
    (hok : ok c e) (hstep : c.step w e = some c') : I.Holds c' := by
  cases e with
  | handle i stimulus =>
    obtain ⟨n, input, via, hn, hinput, ⟨-, rfl⟩ | ⟨n₁, hact, rfl⟩⟩ := step_handle hstep
    · exact h
    · obtain ⟨hnode, hseen, hnew⟩ := hI.handle c i stimulus n input via n₁ hreach h hok hn hinput
        hact
      exact h.set _ (extends_completed c i n₁ via) hnode hseen hnew
  | crash i during =>
    obtain ⟨n, n', hn, hboot, ⟨rfl, rfl⟩ | ⟨stimulus, input, via, n₁, rfl, hinput, hact, rfl⟩⟩ :=
      step_crash hstep
    · obtain ⟨hnode, hseen⟩ := hI.crash c c i none n n' hreach h hok hn hboot (.refl c)
        (.inl ⟨rfl, rfl⟩)
      exact h.setNode hnode hseen
    · have hrecord := h.recorded (hI.interrupt c i stimulus n input via n₁ hreach h hok hn hinput
        hact)
      obtain ⟨hnode, hseen⟩ := hI.crash c _ i (some stimulus) n n' hreach h hok hn hboot
        (extends_recorded c i n₁) (.inr ⟨stimulus, input, via, n₁, rfl, hinput, hact, rfl⟩)
      exact hrecord.setNode hnode hseen
  | dial k =>
    obtain ⟨pk, n, dest, hpk, hn, hdest, hresolved, rfl⟩ := step_dial hstep
    have hextends : c.Extends { c with net := c.net ++ [{ pk with dest := some dest }] } :=
      ⟨List.prefix_append _ _, List.prefix_refl _⟩
    refine ⟨fun j m hm => I.node_mono hextends (h.node j m hm), ?_,
      fun j r hr => I.seen_mono hextends (h.seen j r hr)⟩
    intro pk' hpk'
    rcases List.mem_append.mp hpk' with hold | hadded
    · exact I.packet_mono hextends (h.packet pk' hold)
    · rw [List.mem_singleton.mp hadded]
      exact I.packet_mono hextends
        (hI.dial c k pk n dest hreach h hok hpk hn hdest hresolved)
  | answer i call success =>
    obtain ⟨n, n', hn, hanswer, rfl⟩ := step_answer hstep
    have hextends : c.Extends { c with node := Function.update c.node i (some n') } :=
      ⟨List.prefix_refl _, List.prefix_refl _⟩
    refine ⟨?_, fun pk hpk => I.packet_mono hextends (h.packet pk hpk),
      fun j r hr => I.seen_mono hextends (h.seen j r hr)⟩
    intro j m hm
    by_cases hj : j = i
    · subst hj
      simp only [Function.update_self] at hm
      cases hm
      exact I.node_mono hextends (hI.answer c j call success n n' hreach h hok hn hanswer)
    · simp only [Function.update_of_ne hj] at hm
      exact I.node_mono hextends (h.node j m hm)

theorem Kept.reach (hI : I.Kept w ok) (hreach : Reach w ok c) : I.Holds c := by
  induction hreach with
  | start h =>
    apply start_induction _ _ h
    · refine ⟨?_, ?_, ?_⟩
      · intro i n hn
        cases hn
      · intro pk hpk
        cases hpk
      · intro i r hr
        cases hr
    · intro c i n hi hboot hc
      obtain ⟨hnode, hseen⟩ := hI.boot c i n hi hboot
      exact hc.setNode hnode hseen
  | step hreach hok hstep ih => exact hI.step hreach ih hok hstep

end Invariant
end Phalanx
