import Mathlib.Data.Finset.Card

/-! Families of quorums. Everything a protocol needs from its quorums is that
those of one kind and those of another share a member. -/
namespace Phalanx.Consensus

variable {ι : Type}

def Meet (P Q : Finset ι → Prop) : Prop :=
  ∀ ⦃S T⦄, P S → Q T → ∃ q, q ∈ S ∧ q ∈ T

theorem exists_mem_of_card_lt [DecidableEq ι] {S T U : Finset ι} (hS : S ⊆ U) (hT : T ⊆ U)
    (hcard : U.card < S.card + T.card) : ∃ q, q ∈ S ∧ q ∈ T := by
  have hinter := Finset.card_union_add_card_inter S T
  have hunion : (S ∪ T).card ≤ U.card := Finset.card_le_card (Finset.union_subset hS hT)
  have hpos : 0 < (S ∩ T).card := by omega
  obtain ⟨q, hq⟩ := Finset.card_pos.mp hpos
  exact ⟨q, Finset.mem_inter.mp hq⟩

def Majority (members S : Finset ι) : Prop :=
  S ⊆ members ∧ members.card < 2 * S.card

theorem majority_meet [DecidableEq ι] (members : Finset ι) :
    Meet (Majority members) (Majority members) := by
  intro S T hS hT
  apply exists_mem_of_card_lt hS.1 hT.1
  have := hS.2
  have := hT.2
  omega

end Phalanx.Consensus
