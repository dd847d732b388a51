import Mathlib.Data.Fintype.Basic

/-! `base64.StdEncoding`. Three bytes are four sextets; a last group of one or two bytes is
padded. The decoder skips line breaks and ignores the bits that the padding cuts off. -/
namespace Phalanx.Go.Base64

def alphabet (i : Nat) : UInt8 :=
  if i < 26 then UInt8.ofNat (0x41 + i)
  else if i < 52 then UInt8.ofNat (0x61 + (i - 26))
  else if i < 62 then UInt8.ofNat (0x30 + (i - 52))
  else if i = 62 then 0x2B
  else 0x2F

def sextet (c : UInt8) : Option Nat :=
  if 0x41 ≤ c ∧ c ≤ 0x5A then some (c.toNat - 0x41)
  else if 0x61 ≤ c ∧ c ≤ 0x7A then some (c.toNat - 0x61 + 26)
  else if 0x30 ≤ c ∧ c ≤ 0x39 then some (c.toNat - 0x30 + 52)
  else if c = 0x2B then some 62
  else if c = 0x2F then some 63
  else none

def padding : UInt8 := 0x3D

def encode : List UInt8 → List UInt8
  | [] => []
  | [a] => [alphabet (a.toNat / 4), alphabet (a.toNat % 4 * 16), padding, padding]
  | [a, b] =>
    let n := a.toNat * 256 + b.toNat
    [alphabet (n / 1024), alphabet (n / 16 % 64), alphabet (n % 16 * 4), padding]
  | a :: b :: c :: rest =>
    let n := a.toNat * 65536 + b.toNat * 256 + c.toNat
    alphabet (n / 262144) :: alphabet (n / 4096 % 64) :: alphabet (n / 64 % 64) ::
      alphabet (n % 64) :: encode rest

def decodeGroups : List UInt8 → Option (List UInt8)
  | [] => some []
  | p :: q :: r :: s :: rest => do
    let p ← sextet p
    let q ← sextet q
    if r = padding then
      if s = padding ∧ rest = [] then some [UInt8.ofNat (p * 4 + q / 16)] else none
    else
      let r ← sextet r
      if s = padding then
        let n := p * 1024 + q * 16 + r / 4
        if rest = [] then some [UInt8.ofNat (n / 256), UInt8.ofNat n] else none
      else
        let s ← sextet s
        let n := p * 262144 + q * 4096 + r * 64 + s
        (decodeGroups rest).map fun bytes =>
          UInt8.ofNat (n / 65536) :: UInt8.ofNat (n / 256) :: UInt8.ofNat n :: bytes
  | _ => none

def isBreak (c : UInt8) : Bool := c = 0x0A || c = 0x0D

def decode (text : List UInt8) : Option (List UInt8) :=
  decodeGroups (text.filter fun c => !isBreak c)

theorem sextet_alphabet {i : Nat} (h : i < 64) : sextet (alphabet i) = some i := by
  have hall : ∀ i : Fin 64, sextet (alphabet i) = some i.val := by decide
  exact hall ⟨i, h⟩

theorem alphabet_plain {i : Nat} (h : i < 64) :
    alphabet i ≠ padding ∧ isBreak (alphabet i) = false ∧ alphabet i < 0x80 := by
  have hall : ∀ i : Fin 64, alphabet i ≠ padding ∧ isBreak (alphabet i) = false ∧
      alphabet i < 0x80 := by decide
  exact hall ⟨i, h⟩

theorem ofNat_eq_of_mod {n : Nat} {b : UInt8} (h : n % 256 = b.toNat) : UInt8.ofNat n = b := by
  rw [← UInt8.toNat_inj, UInt8.toNat_ofNat', ← h]

theorem decodeGroups_encode (bytes : List UInt8) : decodeGroups (encode bytes) = some bytes := by
  induction bytes using encode.induct with
  | case1 => rfl
  | case2 a =>
    have ha := a.toNat_lt
    rw [encode, decodeGroups, sextet_alphabet (by omega), sextet_alphabet (by omega)]
    have hbyte : UInt8.ofNat (a.toNat / 4 * 4 + a.toNat % 4 * 16 / 16) = a :=
      ofNat_eq_of_mod (by omega)
    simp only [Option.bind_eq_bind, Option.bind_some, if_true, and_self, hbyte]
  | case3 a b =>
    have ha := a.toNat_lt
    have hb := b.toNat_lt
    obtain ⟨n, hn⟩ : ∃ n, n = a.toNat * 256 + b.toNat := ⟨_, rfl⟩
    have hplain := (alphabet_plain (i := n % 16 * 4) (by omega)).1
    have hjoined : n / 1024 * 1024 + n / 16 % 64 * 16 + n % 16 * 4 / 4 = n := by omega
    have hhigh : UInt8.ofNat (n / 256) = a := ofNat_eq_of_mod (by omega)
    have hlow : UInt8.ofNat n = b := ofNat_eq_of_mod (by omega)
    rw [encode, decodeGroups, ← hn, sextet_alphabet (by omega), sextet_alphabet (by omega),
      sextet_alphabet (by omega)]
    simp only [Option.bind_eq_bind, Option.bind_some, if_neg hplain, if_true, hjoined, hhigh, hlow]
  | case4 a b c rest ih =>
    have ha := a.toNat_lt
    have hb := b.toNat_lt
    have hc := c.toNat_lt
    obtain ⟨n, hn⟩ : ∃ n, n = a.toNat * 65536 + b.toNat * 256 + c.toNat := ⟨_, rfl⟩
    have hplain := (alphabet_plain (i := n / 64 % 64) (by omega)).1
    have hplain' := (alphabet_plain (i := n % 64) (by omega)).1
    have hjoined : n / 262144 * 262144 + n / 4096 % 64 * 4096 + n / 64 % 64 * 64 + n % 64 = n := by
      omega
    have hhigh : UInt8.ofNat (n / 65536) = a := ofNat_eq_of_mod (by omega)
    have hmid : UInt8.ofNat (n / 256) = b := ofNat_eq_of_mod (by omega)
    have hlow : UInt8.ofNat n = c := ofNat_eq_of_mod (by omega)
    rw [encode, decodeGroups, ← hn, sextet_alphabet (by omega), sextet_alphabet (by omega),
      sextet_alphabet (by omega), sextet_alphabet (by omega)]
    simp only [Option.bind_eq_bind, Option.bind_some, if_neg hplain, if_neg hplain', hjoined,
      hhigh, hmid, hlow, ih, Option.map_some]

theorem plain_of_mem_encode {bytes : List UInt8} {c : UInt8} (h : c ∈ encode bytes) :
    isBreak c = false ∧ c < 0x80 := by
  have hpadding : isBreak padding = false ∧ padding < 0x80 := by decide
  have hletter : ∀ i, i < 64 → isBreak (alphabet i) = false ∧ alphabet i < 0x80 :=
    fun i hi => (alphabet_plain hi).2
  induction bytes using encode.induct with
  | case1 => cases h
  | case2 a =>
    have ha := a.toNat_lt
    simp only [encode, List.mem_cons, List.not_mem_nil, or_false] at h
    rcases h with rfl | rfl | rfl | rfl
    · exact hletter _ (by omega)
    · exact hletter _ (by omega)
    · exact hpadding
    · exact hpadding
  | case3 a b =>
    have ha := a.toNat_lt
    have hb := b.toNat_lt
    simp only [encode, List.mem_cons, List.not_mem_nil, or_false] at h
    rcases h with rfl | rfl | rfl | rfl
    · exact hletter _ (by omega)
    · exact hletter _ (by omega)
    · exact hletter _ (by omega)
    · exact hpadding
  | case4 a b c rest ih =>
    have ha := a.toNat_lt
    have hb := b.toNat_lt
    have hc := c.toNat_lt
    simp only [encode, List.mem_cons] at h
    rcases h with rfl | rfl | rfl | rfl | h
    · exact hletter _ (by omega)
    · exact hletter _ (by omega)
    · exact hletter _ (by omega)
    · exact hletter _ (by omega)
    · exact ih h

theorem decode_encode (bytes : List UInt8) : decode (encode bytes) = some bytes := by
  have hkept : (encode bytes).filter (fun c => !isBreak c) = encode bytes :=
    List.filter_eq_self.mpr fun c hc => by rw [(plain_of_mem_encode hc).1]; rfl
  rw [decode, hkept, decodeGroups_encode]

example : encode [0x4D, 0x61, 0x6E, 0x4D] = [0x54, 0x57, 0x46, 0x75, 0x54, 0x51, 0x3D, 0x3D] := by
  decide

end Phalanx.Go.Base64
