import Phalanx.Traffic

/-! Invariants of one node that speak of everything the node ever was and sent. Only
events of the node itself touch them. -/
namespace Phalanx

open Raft

namespace Cluster

def past (c : Cluster) (i : String) : List Raft :=
  (c.hist.filter fun seen => seen.1 = i).map fun seen => seen.2

/-- Every packet that node `i` sent. -/
def sent (c : Cluster) (i : String) : List Packet :=
  c.net.filter fun pk => pk.origin = i

variable {w : World} {c c' : Cluster} {i j : String} {n n' : Node}

theorem mem_past {r : Raft} : r ∈ c.past i ↔ (i, r) ∈ c.hist := by
  simp only [past, List.mem_map, List.mem_filter, decide_eq_true_eq, Prod.exists,
    exists_eq_right]

theorem mem_sent {pk : Packet} : pk ∈ c.sent i ↔ pk ∈ c.net ∧ pk.origin = i := by
  simp [sent]

theorem past_concat (node : String → Option Node) (net : List Packet) (r : Raft) :
    past { node, net, hist := c.hist ++ [(i, r)] } j =
      if j = i then c.past i ++ [r] else c.past j := by
  unfold past
  rw [List.filter_append, List.map_append]
  split
  next heq => simp [heq]
  next hne => simp [Ne.symm hne]

theorem sent_append (node : String → Option Node) (hist : List (String × Raft))
    {new : List Packet} (hnew : ∀ pk ∈ new, pk.origin = i) :
    sent { node, net := c.net ++ new, hist } j = if j = i then c.sent i ++ new else c.sent j := by
  unfold sent
  rw [List.filter_append]
  split
  next heq =>
    rw [heq, List.filter_eq_self.mpr (fun pk hpk => decide_eq_true (hnew pk hpk))]
  next hne =>
    have hnil : new.filter (fun pk => decide (pk.origin = j)) = [] := by
      rw [List.filter_eq_nil_iff]
      intro pk hpk heq
      exact hne ((of_decide_eq_true heq).symm.trans (hnew pk hpk))
    rw [hnil, List.append_nil]

theorem emitted_origin {out : List Message} {via : Option (Nat × Packet)} {pk : Packet}
    (h : pk ∈ emitted i out via) : pk.origin = i := by
  rcases mem_emitted h with ⟨m, -, -, rfl⟩ | ⟨k, req, m, -, -, -, -, rfl⟩ <;> rfl

/-- What each event of a node has to establish for its record. -/
structure Keeps (w : World) (ok : Cluster → Event → Prop)
    (P : String → List Raft → List Packet → Node → Prop) : Prop where
  boot : ∀ (i : String) (n : Node) (past : List Raft), i ∈ w.members → w.boot i {} = some n →
    (∀ r ∈ past, r.state = .follower) → P i past [] n
  handle : ∀ (c : Cluster) (i : String) (stimulus : Stimulus) (n : Node) (input : Input)
    (via : Option (Nat × Packet)) (n' : Node),
    Reach w ok c → ok c (.handle i stimulus) → c.node i = some n →
    c.input i stimulus = some (input, via) → n.act w.env input = some n' →
    P i (c.past i) (c.sent i) n →
    P i (c.past i ++ [{ n'.raft with msgs := [] }]) (c.sent i ++ emitted i n'.raft.msgs via)
      (n'.release true).1
  crash : ∀ (c : Cluster) (i : String) (n n' : Node), Reach w ok c → ok c (.crash i none) →
    c.node i = some n → w.boot i n.store = some n' → P i (c.past i) (c.sent i) n →
    P i (c.past i ++ [{ n'.raft with msgs := [] }]) (c.sent i) n'
  interrupt : ∀ (c : Cluster) (i : String) (stimulus : Stimulus) (n : Node) (input : Input)
    (via : Option (Nat × Packet)) (n₁ n' : Node),
    Reach w ok c → ok c (.crash i (some stimulus)) → c.node i = some n →
    c.input i stimulus = some (input, via) → n.act w.env input = some n₁ →
    w.boot i n.store = some n' → P i (c.past i) (c.sent i) n →
    P i (c.past i ++ [{ n₁.raft with msgs := [] }] ++ [{ n'.raft with msgs := [] }]) (c.sent i) n'
  dial : ∀ (c : Cluster) (k : Nat) (pk : Packet) (n : Node) (dest : String),
    Reach w ok c → ok c (.dial k) → c.net[k]? = some pk → c.node pk.origin = some n →
    pk.dest = none → P pk.origin (c.past pk.origin) (c.sent pk.origin) n →
    P pk.origin (c.past pk.origin) (c.sent pk.origin ++ [{ pk with dest := some dest }]) n
  answer : ∀ (c : Cluster) (i : String) (call : Nat) (success : Bool) (n n' : Node),
    Reach w ok c → c.node i = some n → n.answer call success = some n' →
    P i (c.past i) (c.sent i) n → P i (c.past i) (c.sent i) n'

def InOrder (P : String → List Raft → List Packet → Node → Prop) (c : Cluster) (i : String) :
    Prop :=
  (c.node i = none ∧ c.past i = [] ∧ c.sent i = []) ∨
    ∃ n, c.node i = some n ∧ P i (c.past i) (c.sent i) n

variable {ok : Cluster → Event → Prop} {P : String → List Raft → List Packet → Node → Prop}

theorem InOrder.node (h : InOrder P c i) (hn : c.node i = some n) :
    P i (c.past i) (c.sent i) n := by
  rcases h with ⟨hnone, -⟩ | ⟨m, hm, hP⟩
  · rw [hn] at hnone
    cases hnone
  · cases hn.symm.trans hm
    exact hP

theorem InOrder.congr (h : InOrder P c j) (hnode : c'.node j = c.node j)
    (hpast : c'.past j = c.past j) (hsent : c'.sent j = c.sent j) : InOrder P c' j := by
  unfold InOrder
  rw [hnode, hpast, hsent]
  exact h

theorem Keeps.step (hP : Keeps w ok P) (hreach : Reach w ok c) (h : ∀ i, InOrder P c i)
    {e : Event} (hok : ok c e) (hstep : c.step w e = some c') : ∀ i, InOrder P c' i := by
  cases e with
  | handle i stimulus =>
    obtain ⟨n, input, via, hn, hinput, ⟨-, rfl⟩ | ⟨n₁, hact, rfl⟩⟩ := step_handle hstep
    · exact h
    · intro j
      have hpast : (c.completed i n₁ via).past j = _ := past_concat ..
      have hsent : (c.completed i n₁ via).sent j = _ :=
        sent_append _ _ (fun pk hpk => emitted_origin hpk)
      by_cases hj : j = i
      · subst hj
        rw [if_pos rfl] at hpast hsent
        refine .inr ⟨(n₁.release true).1, Function.update_self .., ?_⟩
        rw [hpast, hsent]
        exact hP.handle c j stimulus n input via n₁ hreach hok hn hinput hact ((h j).node hn)
      · rw [if_neg hj] at hpast hsent
        exact (h j).congr (Function.update_of_ne hj ..) hpast hsent
  | crash i during =>
    obtain ⟨n, n', hn, hboot, hcase⟩ := step_crash hstep
    intro j
    rcases hcase with ⟨rfl, rfl⟩ | ⟨stimulus, input, via, n₁, rfl, hinput, hact, rfl⟩
    · have hpast : (c.setNode i n').past j = _ := past_concat ..
      by_cases hj : j = i
      · subst hj
        rw [if_pos rfl] at hpast
        refine .inr ⟨n', Function.update_self .., ?_⟩
        rw [hpast]
        exact hP.crash c j n n' hreach hok hn hboot ((h j).node hn)
      · rw [if_neg hj] at hpast
        exact (h j).congr (Function.update_of_ne hj ..) hpast rfl
    · have hpast : ((c.recorded i n₁).setNode i n').past j = _ := past_concat ..
      have hrecorded : ∀ q, (c.recorded i n₁).past q = _ := fun q => past_concat ..
      by_cases hj : j = i
      · subst hj
        rw [if_pos rfl, hrecorded, if_pos rfl] at hpast
        refine .inr ⟨n', Function.update_self .., ?_⟩
        rw [hpast]
        exact hP.interrupt c j stimulus n input via n₁ n' hreach hok hn hinput hact hboot
          ((h j).node hn)
      · rw [if_neg hj, hrecorded, if_neg hj] at hpast
        exact (h j).congr (Function.update_of_ne hj ..) hpast rfl
  | dial k =>
    obtain ⟨pk, n, dest, hpk, hn, hdest, -, rfl⟩ := step_dial hstep
    intro j
    have hsent : sent { c with net := c.net ++ [{ pk with dest := some dest }] } j = _ :=
      sent_append (i := pk.origin) _ _ (by simp)
    by_cases hj : j = pk.origin
    · subst hj
      rw [if_pos rfl] at hsent
      refine .inr ⟨n, hn, ?_⟩
      rw [hsent]
      exact hP.dial c k pk n dest hreach hok hpk hn hdest ((h pk.origin).node hn)
    · rw [if_neg hj] at hsent
      exact (h j).congr rfl rfl hsent
  | answer i call success =>
    obtain ⟨n, n', hn, hanswer, rfl⟩ := step_answer hstep
    intro j
    by_cases hj : j = i
    · subst hj
      refine .inr ⟨n', Function.update_self .., ?_⟩
      exact hP.answer c j call success n n' hreach hn hanswer ((h j).node hn)
    · exact (h j).congr (Function.update_of_ne hj ..) rfl rfl

theorem start_past (h : start w = some c) :
    c.net = [] ∧ ∀ i, (∀ r ∈ c.past i, r.state = .follower) ∧
      (c.node i = none ∧ c.past i = [] ∨
        i ∈ w.members ∧ ∃ n, c.node i = some n ∧ w.boot i {} = some n) := by
  apply start_induction (P := fun c => c.net = [] ∧ ∀ i, (∀ r ∈ c.past i, r.state = .follower) ∧
      (c.node i = none ∧ c.past i = [] ∨
        i ∈ w.members ∧ ∃ n, c.node i = some n ∧ w.boot i {} = some n)) _ _ h
  · exact ⟨rfl, fun i => ⟨fun r hr => (by cases hr), .inl ⟨rfl, rfl⟩⟩⟩
  · rintro c i n hi hboot ⟨hnet, hc⟩
    refine ⟨hnet, fun j => ?_⟩
    have hpast : (c.setNode i n).past j = _ := past_concat ..
    rw [hpast]
    by_cases hj : j = i
    · subst hj
      rw [if_pos rfl]
      refine ⟨fun r hr => ?_, .inr ⟨hi, n, Function.update_self .., hboot⟩⟩
      rcases List.mem_append.mp hr with hold | hnew
      · exact (hc j).1 r hold
      · rw [List.mem_singleton.mp hnew]
        obtain ⟨peerAddrs, rfl⟩ := World.boot_eq hboot
        rfl
    · rw [if_neg hj]
      have hnode : (c.setNode i n).node j = c.node j := Function.update_of_ne hj ..
      rw [hnode]
      exact hc j

theorem Keeps.reach (hP : Keeps w ok P) (hreach : Reach w ok c) : ∀ i, InOrder P c i := by
  induction hreach with
  | @start c h =>
    intro i
    obtain ⟨hnet, hstart⟩ := start_past h
    have hsent : c.sent i = [] := by
      rw [sent, hnet]
      rfl
    obtain ⟨hidle, ⟨hnone, hpast⟩ | ⟨hi, n, hn, hboot⟩⟩ := hstart i
    · exact .inl ⟨hnone, hpast, hsent⟩
    · refine .inr ⟨n, hn, ?_⟩
      rw [hsent]
      exact hP.boot i n _ hi hboot hidle
  | step hreach hok hstep ih => exact hP.step hreach ih hok hstep

theorem Reach.origin_member (hreach : Reach w ok c) {pk : Packet} (hpk : pk ∈ c.net) :
    pk.origin ∈ w.members := by
  have hkeeps : Keeps w ok fun _ _ _ _ => True :=
    { boot := fun _ _ _ _ _ _ => trivial
      handle := fun _ _ _ _ _ _ _ _ _ _ _ _ _ => trivial
      crash := fun _ _ _ _ _ _ _ _ _ => trivial
      interrupt := fun _ _ _ _ _ _ _ _ _ _ _ _ _ _ _ => trivial
      dial := fun _ _ _ _ _ _ _ _ _ _ _ => trivial
      answer := fun _ _ _ _ _ _ _ _ _ _ => trivial }
  have hsent : pk ∈ c.sent pk.origin := mem_sent.mpr ⟨hpk, rfl⟩
  rcases hkeeps.reach hreach pk.origin with ⟨-, -, hnil⟩ | ⟨n, hn, -⟩
  · rw [hnil] at hsent
    cases hsent
  · exact (hreach.orderly.node _ n hn).member

end Cluster
end Phalanx
