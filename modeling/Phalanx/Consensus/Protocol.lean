import Mathlib.Data.Set.Insert
import Mathlib.Logic.Function.Basic
import Phalanx.Consensus.Quorum
import Phalanx.Consensus.Splice

/-! A leader-based replicated log, stated over arbitrary identities and entries.
The state carries what every node knows and everything that was ever sent.
Messages hold more than they need on a wire (a vote remembers the voter's log, an
append the leader's whole log) so that the invariants can be stated. The quorums
that elect, `Q`, and those that commit, `C`, are given term by term.

Two rules are weaker than the textbook's. A node that `heed`s a leader of its own
term while standing or leading forgets its vote in that term, and then only its
`active` flag keeps it from voting again; and a `crash` loses that flag and the
log, and keeps the term and the vote. -/
namespace Phalanx.Consensus

inductive Role where
  | follower
  | candidate
  | leader
deriving DecidableEq

structure Peer (ι ε : Type) where
  term : Nat
  vote : Option ι
  role : Role
  active : Bool
  log : List ε
  commit : Nat

structure Request (ι ε : Type) where
  cand : ι
  term : Nat
  log : List ε

structure Grant (ι ε : Type) where
  voter : ι
  cand : ι
  term : Nat
  log : List ε

structure Append (ι ε : Type) where
  leader : ι
  term : Nat
  log : List ε
  commit : Nat

structure Ack (ι : Type) where
  node : ι
  term : Nat
  index : Nat

/-- A won election: who won, on whose votes, from which log, and what the winner
has appended since. -/
structure Reign (ι ε : Type) where
  leader : ι
  voters : Finset ι
  base : List ε
  tail : List ε

def Reign.log (r : Reign ι ε) : List ε := r.base ++ r.tail

structure State (ι ε : Type) where
  peer : ι → Peer ι ε
  requests : Set (Request ι ε)
  grants : Set (Grant ι ε)
  appends : Set (Append ι ε)
  acks : Set (Ack ι)
  reign : Nat → Option (Reign ι ε)

namespace State

variable {ι ε : Type}

/-- The log of the leader of a term, empty if the term has none. -/
def ledger (s : State ι ε) (term : Nat) : List ε :=
  (s.reign term).elim [] Reign.log

def init (peer : ι → Peer ι ε) : State ι ε where
  peer := peer
  requests := ∅
  grants := ∅
  appends := ∅
  acks := ∅
  reign := fun _ => none

variable [DecidableEq ι]

def setPeer (s : State ι ε) (i : ι) (p : Peer ι ε) : State ι ε :=
  { s with peer := Function.update s.peer i p }

@[simp] theorem setPeer_peer (s : State ι ε) (i j : ι) (p : Peer ι ε) :
    (s.setPeer i p).peer j = if j = i then p else s.peer j :=
  Function.update_apply s.peer i p j

theorem setPeer_forall {P : ι → Peer ι ε → Prop} {s : State ι ε} {i : ι} {p : Peer ι ε}
    (hi : P i p) (hother : ∀ j, P j (s.peer j)) (j : ι) : P j ((s.setPeer i p).peer j) := by
  rw [setPeer_peer]
  split
  next heq => exact heq ▸ hi
  next => exact hother j

@[simp] theorem setPeer_requests (s : State ι ε) (i : ι) (p : Peer ι ε) :
    (s.setPeer i p).requests = s.requests := rfl

@[simp] theorem setPeer_grants (s : State ι ε) (i : ι) (p : Peer ι ε) :
    (s.setPeer i p).grants = s.grants := rfl

@[simp] theorem setPeer_appends (s : State ι ε) (i : ι) (p : Peer ι ε) :
    (s.setPeer i p).appends = s.appends := rfl

@[simp] theorem setPeer_acks (s : State ι ε) (i : ι) (p : Peer ι ε) :
    (s.setPeer i p).acks = s.acks := rfl

@[simp] theorem setPeer_reign (s : State ι ε) (i : ι) (p : Peer ι ε) :
    (s.setPeer i p).reign = s.reign := rfl

@[simp] theorem setPeer_ledger (s : State ι ε) (i : ι) (p : Peer ι ε) :
    (s.setPeer i p).ledger = s.ledger := rfl

def append (s : State ι ε) (i : ι) (p : Peer ι ε) (r : Reign ι ε) (e : ε) : State ι ε where
  peer := Function.update s.peer i { p with log := p.log ++ [e] }
  requests := s.requests
  grants := s.grants
  appends := s.appends
  acks := insert ⟨i, p.term, p.log.length + 1⟩ s.acks
  reign := Function.update s.reign p.term (some { r with tail := r.tail ++ [e] })

end State

section Rules

variable {ι ε : Type} [DecidableEq ι]
variable (key : ε → Nat) (Q C : Nat → Finset ι → Prop) (mayCrash : State ι ε → ι → Prop)

inductive Step : State ι ε → State ι ε → Prop
  | timeout (s : State ι ε) (i : ι) :
      Step s { s.setPeer i { s.peer i with
            term := (s.peer i).term + 1, vote := some i, role := .candidate, active := false } with
          requests := insert ⟨i, (s.peer i).term + 1, (s.peer i).log⟩ s.requests }
  | observe (s : State ι ε) (i : ι) (term : Nat) (active : Bool)
      (hterm : (s.peer i).term < term) :
      Step s (s.setPeer i { s.peer i with term, vote := none, role := .follower, active })
  | grant (s : State ι ε) (i c : ι) (l : List ε)
      (hreq : ⟨c, (s.peer i).term, l⟩ ∈ s.requests) (hne : i ≠ c)
      (hvote : (s.peer i).vote = none ∨ (s.peer i).vote = some c)
      (hidle : (s.peer i).active = false) (hlog : UpToDate key l (s.peer i).log) :
      Step s { s.setPeer i { s.peer i with vote := some c } with
          grants := insert ⟨i, c, (s.peer i).term, (s.peer i).log⟩ s.grants }
  | win (s : State ι ε) (i : ι) (S : Finset ι) (e : ε)
      (hrole : (s.peer i).role = .candidate) (hQ : Q (s.peer i).term S) (hself : i ∈ S)
      (hvotes : ∀ q ∈ S, q = i ∨ ∃ l, ⟨q, i, (s.peer i).term, l⟩ ∈ s.grants)
      (hkey : key e = (s.peer i).term) :
      Step s (s.append i { s.peer i with role := .leader } ⟨i, S, (s.peer i).log, []⟩ e)
  | extend (s : State ι ε) (i : ι) (r : Reign ι ε) (e : ε)
      (hrole : (s.peer i).role = .leader) (hreign : s.reign (s.peer i).term = some r)
      (hkey : key e = (s.peer i).term) :
      Step s (s.append i (s.peer i) r e)
  | send (s : State ι ε) (i : ι) (hrole : (s.peer i).role = .leader) :
      Step s { s with
          appends := insert ⟨i, (s.peer i).term, (s.peer i).log, (s.peer i).commit⟩ s.appends }
  | heed (s : State ι ε) (i : ι) (a : Append ι ε)
      (ha : a ∈ s.appends) (hterm : a.term = (s.peer i).term)
      (hself : a.leader = i → ∀ s j, ¬ mayCrash s j) :
      Step s (s.setPeer i { s.peer i with
          vote := if (s.peer i).role = .follower then (s.peer i).vote else none
          role := .follower
          active := true })
  | accept (s : State ι ε) (i : ι) (a : Append ι ε) (p : Nat)
      (ha : a ∈ s.appends) (hterm : a.term = (s.peer i).term)
      (hrole : (s.peer i).role = .follower) (hactive : (s.peer i).active = true)
      (hprev : p = 0 ∨ ∃ x y, (s.peer i).log[p - 1]? = some x ∧ a.log[p - 1]? = some y ∧
        key x = key y) :
      Step s { s.setPeer i { s.peer i with
            log := (s.peer i).log.take p ++ splice key ((s.peer i).log.drop p) (a.log.drop p)
            commit := if (s.peer i).commit < a.commit then min a.commit a.log.length
              else (s.peer i).commit } with
          acks := insert ⟨i, (s.peer i).term, ((s.peer i).log.take p ++
            splice key ((s.peer i).log.drop p) (a.log.drop p)).length⟩ s.acks }
  | commit (s : State ι ε) (i : ι) (n : Nat) (S : Finset ι) (e : ε)
      (hrole : (s.peer i).role = .leader) (hn : (s.peer i).commit < n)
      (hentry : (s.peer i).log[n - 1]? = some e) (hkey : key e = (s.peer i).term)
      (hC : C (s.peer i).term S)
      (hacks : ∀ q ∈ S, ∃ k, n ≤ k ∧ ⟨q, (s.peer i).term, k⟩ ∈ s.acks) :
      Step s (s.setPeer i { s.peer i with commit := n })
  | crash (s : State ι ε) (i : ι) (hcrash : mayCrash s i) :
      Step s (s.setPeer i { s.peer i with
          role := .follower, active := false, log := [], commit := 0 })

end Rules

end Phalanx.Consensus
