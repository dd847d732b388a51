import Mathlib.Data.List.TakeWhile
import Mathlib.Data.Nat.Digits.Lemmas

/-! Unsigned numbers as `strconv` writes and reads them in base ten, and the grammar of a
JSON number. -/
namespace Phalanx.Go.Decimal

def isDigit (b : UInt8) : Bool := 0x30 ≤ b && b ≤ 0x39

def ofDigit (d : Nat) : UInt8 := UInt8.ofNat (0x30 + d)

/-- `strconv.FormatUint(n, 10)`. -/
def format (n : Nat) : List UInt8 :=
  if n = 0 then [0x30] else (Nat.digits 10 n).reverse.map ofDigit

/-- `strconv.ParseUint(text, 10, …)` for the numbers below `limit`. -/
def parseUint (limit : Nat) (text : List UInt8) : Option Nat :=
  if text = [] ∨ text.any (fun b => !isDigit b) = true then none
  else
    let n := text.foldl (fun n b => n * 10 + (b.toNat - 0x30)) 0
    if n < limit then some n else none

theorem toNat_ofDigit {d : Nat} (h : d < 10) : (ofDigit d).toNat = 0x30 + d :=
  UInt8.toNat_ofNat_of_lt (by simp only [UInt8.size]; omega)

theorem isDigit_ofDigit {d : Nat} (h : d < 10) : isDigit (ofDigit d) = true := by
  have hnat := toNat_ofDigit h
  simp only [isDigit, Bool.and_eq_true, decide_eq_true_eq, UInt8.le_iff_toNat_le, hnat]
  exact ⟨Nat.le_add_right _ _, by simpa using (by omega : 0x30 + d ≤ 0x39)⟩

theorem format_ne_nil (n : Nat) : format n ≠ [] := by
  unfold format
  split
  · exact List.cons_ne_nil _ _
  next hpos => simp [Nat.digits_ne_nil_iff_ne_zero.mpr hpos]

theorem isDigit_of_mem_format {n : Nat} {b : UInt8} (h : b ∈ format n) : isDigit b = true := by
  unfold format at h
  split at h
  · rw [List.mem_singleton.mp h]
    rfl
  · obtain ⟨d, hd, rfl⟩ := List.mem_map.mp h
    exact isDigit_ofDigit (Nat.digits_lt_base (by decide) (List.mem_reverse.mp hd))

theorem foldl_digits (digits : List Nat) (h : ∀ d ∈ digits, d < 10) :
    (digits.reverse.map ofDigit).foldl (fun n b => n * 10 + (b.toNat - 0x30)) 0 =
      Nat.ofDigits 10 digits := by
  induction digits with
  | nil => rfl
  | cons d rest ih =>
    have hd := h d List.mem_cons_self
    have hrest := ih fun e he => h e (List.mem_cons_of_mem d he)
    rw [List.reverse_cons, List.map_append, List.foldl_append, hrest, List.map_singleton,
      List.foldl_cons, List.foldl_nil, toNat_ofDigit hd, Nat.ofDigits_cons]
    omega

theorem parseUint_format {limit n : Nat} (h : n < limit) : parseUint limit (format n) = some n := by
  have hdigits : ¬ (format n = [] ∨ (format n).any (fun b => !isDigit b) = true) := by
    rintro (hnil | hany)
    · exact format_ne_nil n hnil
    · obtain ⟨b, hb, hnot⟩ := List.any_eq_true.mp hany
      rw [isDigit_of_mem_format hb] at hnot
      cases hnot
  have hvalue : (format n).foldl (fun n b => n * 10 + (b.toNat - 0x30)) 0 = n := by
    unfold format
    split
    next hzero => rw [hzero]; rfl
    next =>
      rw [foldl_digits _ fun d hd => Nat.digits_lt_base (by decide) hd, Nat.ofDigits_digits]
  rw [parseUint, if_neg hdigits]
  simp only [hvalue, if_pos h]

/-! The grammar of a number. -/

def afterDigits : List UInt8 → Option (List UInt8)
  | [] => none
  | a :: rest => if isDigit a then some (rest.dropWhile isDigit) else none

/-- The integer part has no zero in front of other digits. -/
def afterInt : List UInt8 → Option (List UInt8)
  | [] => none
  | a :: rest => if a = 0x30 then some rest else afterDigits (a :: rest)

def afterFraction : List UInt8 → Option (List UInt8)
  | [] => some []
  | a :: rest => if a = 0x2E then afterDigits rest else some (a :: rest)

def afterSign : List UInt8 → List UInt8
  | [] => []
  | a :: rest => if a = 0x2B ∨ a = 0x2D then rest else a :: rest

def afterExponent : List UInt8 → Option (List UInt8)
  | [] => some []
  | a :: rest => if a = 0x65 ∨ a = 0x45 then afterDigits (afterSign rest) else some (a :: rest)

def isNumber (text : List UInt8) : Bool :=
  let unsigned := if text.head? = some 0x2D then text.tail else text
  ((afterInt unsigned).bind afterFraction).bind afterExponent = some []

theorem isNumber_format (n : Nat) : isNumber (format n) = true := by
  have hdigits : ∀ b ∈ format n, isDigit b = true := fun b hb => isDigit_of_mem_format hb
  have hshape : format n = [0x30] ∨ ∃ a rest, format n = a :: rest ∧ a ≠ 0x30 := by
    unfold format
    split
    next => exact .inl rfl
    next hpos =>
      have hne : Nat.digits 10 n ≠ [] := Nat.digits_ne_nil_iff_ne_zero.mpr hpos
      have hlast := Nat.getLast_digit_ne_zero 10 hpos
      have hlt := Nat.digits_lt_base (by decide) (List.getLast_mem hne)
      refine .inr ⟨ofDigit ((Nat.digits 10 n).getLast hne),
        ((Nat.digits 10 n).dropLast.reverse.map ofDigit), ?_, fun heq => hlast ?_⟩
      · conv_lhs => rw [← List.dropLast_append_getLast hne]
        rw [List.reverse_append, List.reverse_singleton, List.singleton_append, List.map_cons]
      · have := congrArg UInt8.toNat heq
        rw [toNat_ofDigit hlt] at this
        simpa using this
  rcases hshape with hzero | ⟨a, rest, heq, hne⟩
  · rw [hzero]
    decide
  · rw [heq] at hdigits ⊢
    have ha := hdigits a List.mem_cons_self
    have hsign : a ≠ 0x2D := by
      rintro rfl
      cases ha
    have hrest : rest.dropWhile isDigit = [] :=
      List.dropWhile_eq_nil_iff.mpr fun b hb => hdigits b (List.mem_cons_of_mem a hb)
    simp [isNumber, afterInt, afterDigits, afterFraction, afterExponent, hne, hsign, ha, hrest]

example : format 1042 = [0x31, 0x30, 0x34, 0x32] := by decide

example : isNumber [0x2D, 0x30, 0x2E, 0x35, 0x65, 0x2B, 0x37] = true ∧
    isNumber [0x30, 0x31] = false := by decide

end Phalanx.Go.Decimal
