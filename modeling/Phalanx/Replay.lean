import Phalanx.Cluster

/-! The past of a cluster does not matter to what it does next: a run can be replayed where
more packets were sent before, with every packet number moved up by as many. A run too long
to be computed is so reduced to its end. -/
namespace Phalanx

def Packet.after (d : Nat) (pk : Packet) : Packet := { pk with cause := pk.cause.map (d + ·) }

def Stimulus.after (d : Nat) : Stimulus → Stimulus
  | .packet k => .packet (d + k)
  | stimulus => stimulus

def Event.after (d : Nat) : Event → Event
  | .handle i stimulus => .handle i (stimulus.after d)
  | .crash i during => .crash i (during.map (Stimulus.after d))
  | .dial k => .dial (d + k)
  | .answer i call success => .answer i call success

namespace Cluster

variable {w : World} {d : Nat} {c c₀ c₀' : Cluster} {i : String} {stimulus : Stimulus}
  {input : Input} {via : Option (Nat × Packet)}

/-- In `c` there are the nodes and the packets of `c₀`, and `d` packets before them. -/
structure Resumes (d : Nat) (c₀ c : Cluster) : Prop where
  node : ∀ i n, c₀.node i = some n → c.node i = some n
  net : ∃ past : List Packet, past.length = d ∧ c.net = past ++ c₀.net.map (Packet.after d)

def viaAfter (d : Nat) (via : Option (Nat × Packet)) : Option (Nat × Packet) :=
  via.map fun x => (d + x.1, x.2.after d)

theorem emitted_after (d : Nat) (i : String) (out : List Message)
    (via : Option (Nat × Packet)) :
    emitted i out (viaAfter d via) = (emitted i out via).map (Packet.after d) := by
  have hroute : ∀ out, (route i out).map (Packet.after d) = route i out := by
    intro out
    simp [route, Packet.after]
  cases via with
  | none => exact (hroute out).symm
  | some x =>
    obtain ⟨k, pk⟩ := x
    simp only [viaAfter, Option.map_some, emitted, Packet.after]
    split
    · rw [List.map_append, hroute, List.map_map]
      rfl
    · exact (hroute out).symm

namespace Resumes

theorem packet (h : Resumes d c₀ c) {k : Nat} {pk : Packet} (hk : c₀.net[k]? = some pk) :
    c.net[d + k]? = some (pk.after d) := by
  obtain ⟨past, rfl, hnet⟩ := h.net
  rw [hnet, List.getElem?_append_right (Nat.le_add_right _ _), Nat.add_sub_cancel_left,
    List.getElem?_map, hk, Option.map_some]

theorem input_after (h : Resumes d c₀ c) (hinput : c₀.input i stimulus = some (input, via)) :
    c.input i (stimulus.after d) = some (input, viaAfter d via) := by
  rcases input_cases hinput with ⟨rfl, rfl, rfl⟩ | ⟨data, rfl, rfl, rfl⟩ | ⟨a, b, rfl, rfl, rfl⟩ |
    ⟨k, pk, rfl, hpk, hdest, rfl, rfl⟩
  · rfl
  · rfl
  · rfl
  · simp only [Stimulus.after, Cluster.input, h.packet hpk, Option.bind_eq_bind, Option.bind_some]
    rw [if_pos (by exact hdest)]
    rfl

theorem setNode (h : Resumes d c₀ c) (i : String) (n : Node) :
    Resumes d (c₀.setNode i n) (c.setNode i n) where
  node := by
    intro j m hm
    change Function.update c₀.node i (some n) j = some m at hm
    change Function.update c.node i (some n) j = some m
    rw [Function.update_apply] at hm ⊢
    split at hm
    next hself => rwa [if_pos hself]
    next hother =>
      rw [if_neg hother]
      exact h.node j m hm
  net := h.net

theorem send (h : Resumes d c₀ c) {new new' : List Packet}
    (hnew : new' = new.map (Packet.after d)) :
    Resumes d { c₀ with net := c₀.net ++ new } { c with net := c.net ++ new' } where
  node := h.node
  net := by
    obtain ⟨past, hpast, hnet⟩ := h.net
    refine ⟨past, hpast, ?_⟩
    rw [hnew]
    simp only [hnet, List.map_append, List.append_assoc]

theorem step (h : Resumes d c₀ c) {e : Event} (hstep : c₀.step w e = some c₀') :
    ∃ c', c.step w (e.after d) = some c' ∧ Resumes d c₀' c' := by
  cases e with
  | handle i stimulus =>
    obtain ⟨n, hn, hstep⟩ := Option.bind_eq_some_iff.mp hstep
    obtain ⟨⟨input, via⟩, hinput, hstep⟩ := Option.bind_eq_some_iff.mp hstep
    simp only [Event.after, Cluster.step, h.node i n hn, h.input_after hinput,
      Option.bind_eq_bind, Option.bind_some]
    simp only at hstep
    split at hstep
    next hdeclines =>
      cases hstep
      rw [if_pos hdeclines]
      exact ⟨c, rfl, h⟩
    next hacts =>
      obtain ⟨n₁, hact, hstep⟩ := Option.bind_eq_some_iff.mp hstep
      cases hstep
      rw [if_neg hacts, hact]
      exact ⟨_, rfl, (h.setNode i (n₁.release true).1).send (emitted_after d i _ via)⟩
  | crash i during =>
    obtain ⟨n, n', hn, hboot, ⟨rfl, rfl⟩ | ⟨stimulus, input, via, n₁, rfl, hinput, hact, rfl⟩⟩ :=
      step_crash hstep
    · simp only [Event.after, Cluster.step, h.node i n hn, hboot, Option.map_none,
        Option.bind_eq_bind, Option.bind_some]
      exact ⟨_, rfl, h.setNode i n'⟩
    · simp only [Event.after, Cluster.step, h.node i n hn, hboot, Option.map_some,
        h.input_after hinput, hact, Option.bind_eq_bind, Option.bind_some]
      have hrecorded : Resumes d (c₀.recorded i n₁) (c.recorded i n₁) := ⟨h.node, h.net⟩
      exact ⟨_, rfl, hrecorded.setNode i n'⟩
  | dial k =>
    obtain ⟨pk, n, dest, hpk, hn, hnone, rfl, rfl⟩ := step_dial hstep
    have hn' : c.node (pk.after d).origin = some n := h.node _ n hn
    simp only [Event.after, Cluster.step, h.packet hpk, hn', Option.bind_eq_bind,
      Option.bind_some]
    rw [if_pos (by exact hnone)]
    exact ⟨_, rfl, h.send rfl⟩
  | answer i call success =>
    obtain ⟨n, n', hn, hanswer, rfl⟩ := step_answer hstep
    simp only [Event.after, Cluster.step, h.node i n hn, hanswer, Option.bind_eq_bind,
      Option.bind_some]
    exact ⟨_, rfl, (h.setNode i n').node, h.net⟩

end Resumes

theorem Reach.resume {ok : Cluster → Event → Prop} (hok : ∀ c c' e, ok c e → ok c' (e.after d))
    [∀ c e, Decidable (ok c e)] {events : List Event} (hreach : Reach w ok c)
    (h : Resumes d c₀ c) (hwalk : walk (Cluster.step w) ok c₀ events = some c₀') :
    ∃ c', Reach w ok c' ∧ Resumes d c₀' c' := by
  induction events generalizing c c₀ with
  | nil =>
    cases hwalk
    exact ⟨c, hreach, h⟩
  | cons e rest ih =>
    rw [walk] at hwalk
    split at hwalk
    next hallowed =>
      obtain ⟨c₁, hstep, hwalk⟩ := Option.bind_eq_some_iff.mp hwalk
      obtain ⟨c', hstep', h'⟩ := h.step hstep
      exact ih (hreach.step (hok c₀ c e hallowed) hstep') h' hwalk
    next => cases hwalk

end Cluster
end Phalanx
