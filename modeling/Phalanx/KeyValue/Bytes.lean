import Mathlib.Algebra.Ring.Nat
import Mathlib.Data.List.Lex
import Mathlib.Order.Lattice

/-! Byte strings in bytewise lexicographic order. The strings that begin with a given one
lie next to each other, and numbers written with the high byte first in a fixed width come
in the order of the numbers. -/
namespace Phalanx.KeyValue

section Lexicographic

variable {α : Type} [LinearOrder α] {p a b : List α}

theorem cons_le_cons {x y : α} : x :: a ≤ y :: b ↔ x < y ∨ x = y ∧ a ≤ b := by
  rw [← not_lt, ← not_lt, List.cons_lt_cons_iff]
  constructor
  · intro h
    rcases lt_trichotomy x y with hlt | heq | hgt
    · exact .inl hlt
    · exact .inr ⟨heq, fun hba => h (.inr ⟨heq.symm, hba⟩)⟩
    · exact absurd (.inl hgt) h
  · rintro (hlt | ⟨rfl, hab⟩) (hgt | ⟨heq, hba⟩)
    · exact lt_asymm hlt hgt
    · exact hlt.ne heq.symm
    · exact lt_irrefl _ hgt
    · exact hab hba

theorem le_of_isPrefix (h : p <+: a) : p ≤ a := by
  induction p generalizing a with
  | nil => exact not_lt.mp (List.not_lt_nil a)
  | cons x p ih =>
    obtain ⟨rest, rfl⟩ := h
    rw [List.cons_append, cons_le_cons]
    exact .inr ⟨rfl, ih (List.prefix_append p rest)⟩

theorem isPrefix_of_between (hb : p <+: b) (hpa : p ≤ a) (hab : a ≤ b) : p <+: a := by
  induction p generalizing a b with
  | nil => exact List.nil_prefix
  | cons x p ih =>
    obtain ⟨rest, rfl⟩ := hb
    cases a with
    | nil => exact absurd hpa (not_le.mpr (List.nil_lt_cons x p))
    | cons y a =>
      rw [List.cons_append, cons_le_cons] at hab
      rw [cons_le_cons] at hpa
      have heq : x = y := by
        rcases hpa with hxy | ⟨hxy, -⟩
        · rcases hab with hyx | ⟨hyx, -⟩
          · exact absurd hxy (lt_asymm hyx)
          · exact hyx.symm
        · exact hxy
      subst heq
      have hpa' := (hpa.resolve_left (lt_irrefl x)).2
      have hab' := (hab.resolve_left (lt_irrefl x)).2
      exact List.cons_prefix_cons.mpr ⟨rfl, ih (List.prefix_append p rest) hpa' hab'⟩

theorem append_lt_append : p ++ a < p ++ b ↔ a < b := by
  induction p with
  | nil => rfl
  | cons x p ih =>
    rw [List.cons_append, List.cons_append, List.cons_lt_cons_iff, ih]
    simp

end Lexicographic

instance byteOrder : LinearOrder UInt8 where
  le_refl := UInt8.le_refl
  le_trans := fun _ _ _ => UInt8.le_trans
  le_antisymm := fun _ _ => UInt8.le_antisymm
  le_total := UInt8.le_total
  lt_iff_le_not_ge := fun a b => by
    rw [UInt8.lt_iff_toNat_lt, UInt8.le_iff_toNat_le, UInt8.le_iff_toNat_le]
    omega
  toDecidableLE := inferInstance
  toDecidableEq := inferInstance
  toDecidableLT := inferInstance

def bigEndian : Nat → Nat → List UInt8
  | 0, _ => []
  | width + 1, n => UInt8.ofNat (n / 256 ^ width) :: bigEndian width n

def ofBigEndian : List UInt8 → Nat
  | [] => 0
  | b :: bytes => b.toNat * 256 ^ bytes.length + ofBigEndian bytes

@[simp] theorem length_bigEndian (width n : Nat) : (bigEndian width n).length = width := by
  induction width with
  | zero => rfl
  | succ width ih => rw [bigEndian, List.length_cons, ih]

theorem ofBigEndian_bigEndian (width n : Nat) :
    ofBigEndian (bigEndian width n) = n % 256 ^ width := by
  induction width with
  | zero => rw [bigEndian, ofBigEndian, pow_zero, Nat.mod_one]
  | succ width ih =>
    have hbyte : (UInt8.ofNat (n / 256 ^ width)).toNat = n / 256 ^ width % 256 :=
      UInt8.toNat_ofNat'
    rw [bigEndian, ofBigEndian, length_bigEndian, ih, hbyte, pow_succ, Nat.mod_mul, Nat.mul_comm,
      Nat.add_comm]

theorem ofBigEndian_lt (bytes : List UInt8) : ofBigEndian bytes < 256 ^ bytes.length := by
  induction bytes with
  | nil => exact Nat.one_pos
  | cons b bytes ih =>
    have hb : b.toNat + 1 ≤ 256 := b.toNat_lt
    calc ofBigEndian (b :: bytes) < b.toNat * 256 ^ bytes.length + 256 ^ bytes.length :=
          Nat.add_lt_add_left ih _
      _ = (b.toNat + 1) * 256 ^ bytes.length := (Nat.succ_mul _ _).symm
      _ ≤ 256 * 256 ^ bytes.length := Nat.mul_le_mul_right _ hb
      _ = 256 ^ (b :: bytes).length := by rw [List.length_cons, pow_succ']

theorem lt_iff_ofBigEndian_lt {a b : List UInt8} (h : a.length = b.length) :
    a < b ↔ ofBigEndian a < ofBigEndian b := by
  induction a generalizing b with
  | nil =>
    obtain rfl : b = [] := List.eq_nil_of_length_eq_zero h.symm
    simp
  | cons x a ih =>
    cases b with
    | nil => cases h
    | cons y b =>
      have hlen : a.length = b.length := Nat.succ.inj h
      have ha := ofBigEndian_lt a
      have hb := ofBigEndian_lt b
      rw [List.cons_lt_cons_iff, ih hlen, ofBigEndian, ofBigEndian, UInt8.lt_iff_toNat_lt,
        ← UInt8.toNat_inj, hlen]
      rw [hlen] at ha
      rcases lt_trichotomy x.toNat y.toNat with hlt | heq | hgt
      · have : (x.toNat + 1) * 256 ^ b.length ≤ y.toNat * 256 ^ b.length :=
          Nat.mul_le_mul_right _ hlt
        rw [Nat.add_mul, Nat.one_mul] at this
        exact ⟨fun _ => by omega, fun _ => .inl hlt⟩
      · rw [heq]
        simp
      · have : (y.toNat + 1) * 256 ^ b.length ≤ x.toNat * 256 ^ b.length :=
          Nat.mul_le_mul_right _ hgt
        rw [Nat.add_mul, Nat.one_mul] at this
        exact ⟨fun h => by omega, fun h => by omega⟩

theorem bigEndian_lt_iff {width m n : Nat} (hm : m < 256 ^ width) (hn : n < 256 ^ width) :
    bigEndian width m < bigEndian width n ↔ m < n := by
  rw [lt_iff_ofBigEndian_lt (by simp), ofBigEndian_bigEndian, ofBigEndian_bigEndian,
    Nat.mod_eq_of_lt hm, Nat.mod_eq_of_lt hn]

theorem bigEndian_inj {width m n : Nat} (hm : m < 256 ^ width) (hn : n < 256 ^ width) :
    bigEndian width m = bigEndian width n ↔ m = n := by
  refine ⟨fun h => ?_, congrArg _⟩
  have hnumber := congrArg ofBigEndian h
  rwa [ofBigEndian_bigEndian, ofBigEndian_bigEndian, Nat.mod_eq_of_lt hm,
    Nat.mod_eq_of_lt hn] at hnumber

end Phalanx.KeyValue
