import Mathlib.Data.List.TakeDrop

/-! UTF-8 in byte strings that need not be UTF-8. A scan copies each well-formed sequence
and puts U+FFFD in the place of every byte that starts none, as Go does wherever it has to
make text of a string. -/
namespace Phalanx.Go.Utf8

/-- The ranges of the bytes that follow a first byte. -/
def ranges (a : UInt8) : Option (List (UInt8 × UInt8)) :=
  if a < 0x80 then some []
  else if a < 0xC2 then none
  else if a < 0xE0 then some [(0x80, 0xBF)]
  else if a = 0xE0 then some [(0xA0, 0xBF), (0x80, 0xBF)]
  else if a = 0xED then some [(0x80, 0x9F), (0x80, 0xBF)]
  else if a < 0xF0 then some [(0x80, 0xBF), (0x80, 0xBF)]
  else if a = 0xF0 then some [(0x90, 0xBF), (0x80, 0xBF), (0x80, 0xBF)]
  else if a < 0xF4 then some [(0x80, 0xBF), (0x80, 0xBF), (0x80, 0xBF)]
  else if a = 0xF4 then some [(0x80, 0x8F), (0x80, 0xBF), (0x80, 0xBF)]
  else none

def fits : List (UInt8 × UInt8) → List UInt8 → Bool
  | [], _ => true
  | _ :: _, [] => false
  | (low, high) :: more, b :: rest => low ≤ b && b ≤ high && fits more rest

/-- The bytes that follow `a` in its sequence, if `a` starts one here. -/
def tail (a : UInt8) (rest : List UInt8) : Option Nat :=
  (ranges a).bind fun more => if fits more rest then some more.length else none

def replacement : List UInt8 := [0xEF, 0xBF, 0xBD]

/-- The scan, with `owed` bytes of a sequence still to copy. -/
def coerceFrom : Nat → List UInt8 → List UInt8
  | _, [] => []
  | owed + 1, a :: rest => a :: coerceFrom owed rest
  | 0, a :: rest =>
    match tail a rest with
    | some owed => a :: coerceFrom owed rest
    | none => replacement ++ coerceFrom 0 rest

def coerce (s : List UInt8) : List UInt8 := coerceFrom 0 s

def validFrom : Nat → List UInt8 → Bool
  | _, [] => true
  | owed + 1, _ :: rest => validFrom owed rest
  | 0, a :: rest =>
    match tail a rest with
    | some owed => validFrom owed rest
    | none => false

/-- Every byte belongs to a well-formed sequence. -/
def Valid (s : List UInt8) : Prop := validFrom 0 s = true

instance (s : List UInt8) : Decidable (Valid s) := inferInstanceAs (Decidable (_ = true))

theorem coerceFrom_valid (s : List UInt8) : ∀ owed, validFrom owed s = true →
    coerceFrom owed s = s := by
  induction s with
  | nil =>
    intro owed _
    cases owed <;> rfl
  | cons a rest ih =>
    intro owed h
    cases owed with
    | succ owed => rw [coerceFrom, ih owed h]
    | zero =>
      rw [validFrom] at h
      rw [coerceFrom]
      cases htail : tail a rest with
      | none =>
        rw [htail] at h
        cases h
      | some owed =>
        rw [htail] at h
        simp only [ih owed h]

theorem coerce_of_valid {s : List UInt8} (h : Valid s) : coerce s = s := coerceFrom_valid s 0 h

theorem fits_congr {s t : List UInt8} {more : List (UInt8 × UInt8)} (h : fits more s = true)
    (hsame : s.take more.length = t.take more.length) : fits more t = true := by
  induction more generalizing s t with
  | nil => rfl
  | cons range more ih =>
    cases s with
    | nil => cases h
    | cons b s =>
      cases t with
      | nil => simp at hsame
      | cons c t =>
        simp only [List.length_cons, List.take_succ_cons, List.cons.injEq] at hsame
        obtain ⟨rfl, hsame⟩ := hsame
        simp only [fits, Bool.and_eq_true] at h ⊢
        exact ⟨h.1, ih h.2 hsame⟩

theorem take_coerceFrom (owed : Nat) (s : List UInt8) :
    (coerceFrom owed s).take owed = s.take owed := by
  induction owed generalizing s with
  | zero => rfl
  | succ owed ih =>
    cases s with
    | nil => rfl
    | cons a rest => rw [coerceFrom, List.take_succ_cons, List.take_succ_cons, ih]

theorem tail_coerceFrom {a : UInt8} {rest : List UInt8} {owed : Nat} (h : tail a rest = some owed) :
    tail a (coerceFrom owed rest) = some owed := by
  obtain ⟨more, hmore, h⟩ := Option.bind_eq_some_iff.mp h
  split at h
  next hfits =>
    cases h
    rw [tail, hmore, Option.bind_some, if_pos]
    exact fits_congr hfits (take_coerceFrom _ _).symm
  next => cases h

theorem validFrom_coerceFrom (s : List UInt8) : ∀ owed,
    validFrom owed (coerceFrom owed s) = true := by
  induction s with
  | nil =>
    intro owed
    cases owed <;> rfl
  | cons a rest ih =>
    intro owed
    cases owed with
    | succ owed => exact ih owed
    | zero =>
      rw [coerceFrom]
      cases htail : tail a rest with
      | none => exact ih 0
      | some owed =>
        simp only
        rw [validFrom, tail_coerceFrom htail]
        exact ih owed

theorem valid_coerce (s : List UInt8) : Valid (coerce s) := validFrom_coerceFrom s 0

theorem coerce_eq_self_iff {s : List UInt8} : coerce s = s ↔ Valid s :=
  ⟨fun h => h ▸ valid_coerce s, coerce_of_valid⟩

theorem coerceFrom_eq (owed : Nat) (s : List UInt8) :
    coerceFrom owed s = s.take owed ++ coerceFrom 0 (s.drop owed) := by
  induction owed generalizing s with
  | zero => simp
  | succ owed ih =>
    cases s with
    | nil => rfl
    | cons a rest => rw [coerceFrom, ih, List.take_succ_cons, List.drop_succ_cons, List.cons_append]

theorem fits_length {s : List UInt8} {more : List (UInt8 × UInt8)} (h : fits more s = true) :
    more.length ≤ s.length := by
  induction more generalizing s with
  | nil => exact Nat.zero_le _
  | cons range more ih =>
    cases s with
    | nil => cases h
    | cons b s =>
      simp only [fits, Bool.and_eq_true] at h
      exact Nat.succ_le_succ (ih h.2)

theorem tail_take {a : UInt8} {rest : List UInt8} {k : Nat} (h : tail a rest = some k)
    (more : List UInt8) : (rest.take k).length = k ∧ tail a (rest.take k ++ more) = some k := by
  obtain ⟨ranges', hranges, h⟩ := Option.bind_eq_some_iff.mp h
  split at h
  next hfits =>
    cases h
    have hlen : (rest.take ranges'.length).length = ranges'.length := by
      rw [List.length_take, Nat.min_eq_left (fits_length hfits)]
    refine ⟨hlen, ?_⟩
    rw [tail, hranges, Option.bind_some, if_pos]
    exact fits_congr hfits (List.take_left' hlen).symm
  next => cases h

theorem tail_of_ascii {a : UInt8} (h : a < 0x80) (rest : List UInt8) : tail a rest = some 0 := by
  rw [tail, ranges, if_pos h]
  rfl

theorem valid_of_ascii {s : List UInt8} (h : ∀ b ∈ s, b < 0x80) : Valid s := by
  induction s with
  | nil => rfl
  | cons a rest ih =>
    have hrest := ih fun b hb => h b (List.mem_cons_of_mem a hb)
    rw [Valid, validFrom, tail_of_ascii (h a List.mem_cons_self)]
    exact hrest

/-! Strings whose bytes are UTF-8 by their type. -/

theorem validFrom_take {more s : List UInt8} {n : Nat} (hn : more.length = n) (h : Valid s) :
    validFrom n (more ++ s) = true := by
  induction more generalizing n with
  | nil => cases hn; exact h
  | cons b more ih =>
    cases hn
    exact ih rfl

theorem valid_cons {a : UInt8} {more s : List UInt8} {bounds : List (UInt8 × UInt8)}
    (hbounds : ranges a = some bounds) (hfits : fits bounds more = true)
    (hlen : more.length = bounds.length) (h : Valid s) : Valid (a :: more ++ s) := by
  have htail : tail a (more ++ s) = some bounds.length := by
    rw [tail, hbounds, Option.bind_some, if_pos]
    exact fits_congr hfits (by rw [← hlen, List.take_left, List.take_length])
  rw [Valid, List.cons_append, validFrom, htail]
  exact validFrom_take hlen h

theorem ranges_two {n : Nat} (hlow : 0xC2 ≤ n) (hhigh : n < 0xE0) :
    ranges (UInt8.ofNat n) = some [(0x80, 0xBF)] := by
  have hall : ∀ k, k < 30 → ranges (UInt8.ofNat (0xC2 + k)) = some [(0x80, 0xBF)] := by decide
  obtain ⟨k, rfl⟩ := Nat.exists_eq_add_of_le hlow
  exact hall k (by omega)

theorem ranges_three {n : Nat} (hlow : 0xE0 ≤ n) (hhigh : n < 0xF0) : ranges (UInt8.ofNat n) =
    some [(if n = 0xE0 then 0xA0 else 0x80, if n = 0xED then 0x9F else 0xBF), (0x80, 0xBF)] := by
  have hall : ∀ k, k < 16 → ranges (UInt8.ofNat (0xE0 + k)) =
      some [(if 0xE0 + k = 0xE0 then 0xA0 else 0x80, if 0xE0 + k = 0xED then 0x9F else 0xBF),
        (0x80, 0xBF)] := by decide
  obtain ⟨k, rfl⟩ := Nat.exists_eq_add_of_le hlow
  exact hall k (by omega)

theorem ranges_four {n : Nat} (hlow : 0xF0 ≤ n) (hhigh : n < 0xF5) : ranges (UInt8.ofNat n) =
    some [(if n = 0xF0 then 0x90 else 0x80, if n = 0xF4 then 0x8F else 0xBF), (0x80, 0xBF),
      (0x80, 0xBF)] := by
  have hall : ∀ k, k < 5 → ranges (UInt8.ofNat (0xF0 + k)) =
      some [(if 0xF0 + k = 0xF0 then 0x90 else 0x80, if 0xF0 + k = 0xF4 then 0x8F else 0xBF),
        (0x80, 0xBF), (0x80, 0xBF)] := by decide
  obtain ⟨k, rfl⟩ := Nat.exists_eq_add_of_le hlow
  exact hall k (by omega)

theorem fits_cons {low high : UInt8} {n : Nat} (hn : n < 256) (hlow : low.toNat ≤ n)
    (hhigh : n ≤ high.toNat) {more : List (UInt8 × UInt8)} {s : List UInt8}
    (h : fits more s = true) : fits ((low, high) :: more) (UInt8.ofNat n :: s) = true := by
  have hnat : (UInt8.ofNat n).toNat = n := UInt8.toNat_ofNat_of_lt hn
  simp only [fits, Bool.and_eq_true, decide_eq_true_eq, UInt8.le_iff_toNat_le, hnat]
  exact ⟨⟨hlow, hhigh⟩, h⟩

theorem valid_utf8EncodeChar (c : Char) {s : List UInt8} (h : Valid s) :
    Valid (String.utf8EncodeChar c ++ s) := by
  have hc : c.val.toNat < 0xD800 ∨ 0xDFFF < c.val.toNat ∧ c.val.toNat < 0x110000 := c.valid
  unfold String.utf8EncodeChar
  obtain ⟨v, hv⟩ : ∃ v, v = c.val.toNat := ⟨_, rfl⟩
  rw [← hv] at hc ⊢
  -- A byte after the first carries six bits.
  have hsix : ∀ n, fits [(0x80, 0xBF)] [UInt8.ofNat (n % 64 + 128)] = true := fun n =>
    fits_cons (by omega) (by simp only [UInt8.reduceToNat]; omega)
      (by simp only [UInt8.reduceToNat]; omega) rfl
  simp only
  split
  next hsmall =>
    have hnat : (UInt8.ofNat v).toNat = v :=
      UInt8.toNat_ofNat_of_lt (by simp only [UInt8.size]; omega)
    have hascii : UInt8.ofNat v < 0x80 := by
      rw [UInt8.lt_iff_toNat_lt, hnat]
      exact Nat.lt_succ_of_le hsmall
    rw [List.singleton_append, Valid, validFrom, tail_of_ascii hascii]
    exact h
  split
  next =>
    exact valid_cons (ranges_two (by omega) (by omega)) (hsix v) rfl h
  split
  next =>
    refine valid_cons (ranges_three (by omega) (by omega))
      (fits_cons (by omega) ?_ ?_ (hsix v)) rfl h
    · split <;> simp only [UInt8.reduceToNat] <;> omega
    · split <;> simp only [UInt8.reduceToNat] <;> omega
  next =>
    refine valid_cons (ranges_four (by omega) (by omega))
      (fits_cons (by omega) ?_ ?_ (fits_cons (by omega) ?_ ?_ (hsix v))) rfl h
    · split <;> simp only [UInt8.reduceToNat] <;> omega
    · split <;> simp only [UInt8.reduceToNat] <;> omega
    · simp only [UInt8.reduceToNat]; omega
    · simp only [UInt8.reduceToNat]; omega

theorem valid_toUTF8 (s : String) : Valid s.toUTF8.data.toList := by
  obtain ⟨chars, hchars⟩ := s.isValidUTF8
  rw [String.toUTF8_eq_toByteArray, hchars]
  clear hchars
  have hlist : (List.utf8Encode chars).data.toList = chars.flatMap String.utf8EncodeChar := by
    simp [List.utf8Encode]
  rw [hlist]
  clear hlist
  induction chars with
  | nil => rfl
  | cons c rest ih =>
    rw [List.flatMap_cons]
    exact valid_utf8EncodeChar c ih

example : coerce [0x6B, 0xFF, 0xC3, 0xA9, 0xC3] =
    [0x6B, 0xEF, 0xBF, 0xBD, 0xC3, 0xA9, 0xEF, 0xBF, 0xBD] := by decide

end Phalanx.Go.Utf8
