import Phalanx.Go.Utf8

/-! The string literals of `encoding/json`. A literal is written sequence by sequence: quotes,
backslashes, control characters, the markup characters and the line separators U+2028 and
U+2029 are escaped, and a byte that starts no UTF-8 sequence becomes U+FFFD. -/
namespace Phalanx.Go.Literal

def hexDigit (n : Nat) : UInt8 := UInt8.ofNat (if n < 10 then 0x30 + n else 0x57 + n)

def hexValue (c : UInt8) : Option Nat :=
  if 0x30 ≤ c ∧ c ≤ 0x39 then some (c.toNat - 0x30)
  else if 0x61 ≤ c ∧ c ≤ 0x66 then some (c.toNat - 0x57)
  else if 0x41 ≤ c ∧ c ≤ 0x46 then some (c.toNat - 0x37)
  else none

/-! Writing. -/

def escapeByte (b : UInt8) : List UInt8 :=
  if b = 0x22 ∨ b = 0x5C then [0x5C, b]
  else if b = 0x08 then [0x5C, 0x62]
  else if b = 0x0C then [0x5C, 0x66]
  else if b = 0x0A then [0x5C, 0x6E]
  else if b = 0x0D then [0x5C, 0x72]
  else if b = 0x09 then [0x5C, 0x74]
  else if b < 0x20 ∨ b = 0x3C ∨ b = 0x3E ∨ b = 0x26 then
    [0x5C, 0x75, 0x30, 0x30, hexDigit (b.toNat / 16), hexDigit (b.toNat % 16)]
  else [b]

/-- The text for the sequence that `a` starts, and how many bytes after `a` belong to it. -/
def written (a : UInt8) (rest : List UInt8) : List UInt8 × Nat :=
  if a < 0x80 then (escapeByte a, 0)
  else match Utf8.tail a rest with
    | none => ([0x5C, 0x75, 0x66, 0x66, 0x66, 0x64], 0)
    | some k =>
      if a = 0xE2 ∧ rest.take k = [0x80, 0xA8] then ([0x5C, 0x75, 0x32, 0x30, 0x32, 0x38], k)
      else if a = 0xE2 ∧ rest.take k = [0x80, 0xA9] then ([0x5C, 0x75, 0x32, 0x30, 0x32, 0x39], k)
      else (a :: rest.take k, k)

def quoteFrom : Nat → List UInt8 → List UInt8
  | _, [] => []
  | skip + 1, _ :: rest => quoteFrom skip rest
  | 0, a :: rest => (written a rest).1 ++ quoteFrom (written a rest).2 rest

def quote (s : List UInt8) : List UInt8 := 0x22 :: (quoteFrom 0 s ++ [0x22])

/-! Reading. -/

def u4 : List UInt8 → Option Nat
  | a :: b :: c :: d :: _ => do
    let a ← hexValue a
    let b ← hexValue b
    let c ← hexValue c
    let d ← hexValue d
    some (a * 4096 + b * 256 + c * 16 + d)
  | _ => none

def encodeRune (r : Nat) : List UInt8 :=
  if r < 0x80 then [UInt8.ofNat r]
  else if r < 0x800 then [UInt8.ofNat (0xC0 + r / 64), UInt8.ofNat (0x80 + r % 64)]
  else if 0xD800 ≤ r ∧ r < 0xE000 then Utf8.replacement
  else if r < 0x10000 then
    [UInt8.ofNat (0xE0 + r / 4096), UInt8.ofNat (0x80 + r / 64 % 64), UInt8.ofNat (0x80 + r % 64)]
  else if r < 0x110000 then
    [UInt8.ofNat (0xF0 + r / 262144), UInt8.ofNat (0x80 + r / 4096 % 64),
      UInt8.ofNat (0x80 + r / 64 % 64), UInt8.ofNat (0x80 + r % 64)]
  else Utf8.replacement

/-- The low half that follows the high half `r` of a surrogate pair, and the pair's rune. -/
def lowHalf (r : Nat) (rest : List UInt8) : Option Nat :=
  if rest.take 2 = [0x5C, 0x75] then
    (u4 (rest.drop 2)).bind fun low =>
      if r < 0xDC00 ∧ 0xDC00 ≤ low ∧ low < 0xE000 then
        some (0x10000 + (r - 0xD800) * 1024 + (low - 0xDC00))
      else none
  else none

/-- What an escape stands for, and how many bytes after the backslash belong to it. -/
def escape : List UInt8 → Option (List UInt8 × Nat)
  | [] => none
  | e :: rest =>
    if e = 0x22 ∨ e = 0x5C ∨ e = 0x2F then some ([e], 1)
    else if e = 0x62 then some ([0x08], 1)
    else if e = 0x66 then some ([0x0C], 1)
    else if e = 0x6E then some ([0x0A], 1)
    else if e = 0x72 then some ([0x0D], 1)
    else if e = 0x74 then some ([0x09], 1)
    else if e = 0x75 then
      (u4 rest).map fun r =>
        if 0xD800 ≤ r ∧ r < 0xE000 then
          match lowHalf r (rest.drop 4) with
          | some r => (encodeRune r, 11)
          | none => (Utf8.replacement, 5)
        else (encodeRune r, 5)
    else none

def token (a : UInt8) (rest : List UInt8) : Option (List UInt8 × Nat) :=
  if a = 0x5C then escape rest
  else if a < 0x20 then none
  else match Utf8.tail a rest with
    | none => some (Utf8.replacement, 0)
    | some k => some (a :: rest.take k, k)

/-- The string up to the closing quote, and what follows the literal. -/
def unquoteFrom : Nat → List UInt8 → Option (List UInt8 × List UInt8)
  | _, [] => none
  | skip + 1, _ :: rest => unquoteFrom skip rest
  | 0, a :: rest =>
    if a = 0x22 then some ([], rest)
    else match token a rest with
      | none => none
      | some (bytes, k) => (unquoteFrom k rest).map fun read => (bytes ++ read.1, read.2)

/-! What is written is read back. -/

theorem quoteFrom_eq (skip : Nat) (s : List UInt8) :
    quoteFrom skip s = quoteFrom 0 (s.drop skip) := by
  induction skip generalizing s with
  | zero => rfl
  | succ skip ih =>
    cases s with
    | nil => rfl
    | cons a rest => exact ih rest

theorem unquoteFrom_append (text more : List UInt8) :
    unquoteFrom text.length (text ++ more) = unquoteFrom 0 more := by
  induction text with
  | nil => rfl
  | cons a rest ih => exact ih

theorem hexValue_hexDigit {n : Nat} (h : n < 16) : hexValue (hexDigit n) = some n := by
  have hall : ∀ n : Fin 16, hexValue (hexDigit n) = some n.val := by decide
  exact hall ⟨n, h⟩

/-- What the sequence that `a` starts comes back as. -/
def kept (a : UInt8) (rest : List UInt8) : List UInt8 :=
  match Utf8.tail a rest with
  | none => Utf8.replacement
  | some k => a :: rest.take k

theorem coerce_cons (a : UInt8) (rest : List UInt8) :
    Utf8.coerce (a :: rest) =
      kept a rest ++ Utf8.coerce (rest.drop ((Utf8.tail a rest).getD 0)) := by
  unfold Utf8.coerce kept
  rw [Utf8.coerceFrom]
  cases Utf8.tail a rest with
  | none => rfl
  | some k =>
    simp only [Option.getD_some]
    rw [Utf8.coerceFrom_eq, List.cons_append]

structure Reads (text bytes : List UInt8) : Prop where
  read : ∃ x xs, text = x :: xs ∧ x ≠ 0x22 ∧
    ∀ more, token x (xs ++ more) = some (bytes, xs.length)

theorem reads_escape {xs bytes : List UInt8}
    (h : ∀ more, escape (xs ++ more) = some (bytes, xs.length)) : Reads (0x5C :: xs) bytes :=
  ⟨0x5C, xs, rfl, by decide, fun more => by rw [token, if_pos rfl, h]⟩

theorem reads_rune {a b c d : UInt8} {r : Nat}
    (h : ∀ more, u4 (a :: b :: c :: d :: more) = some r) (hhalf : ¬ (0xD800 ≤ r ∧ r < 0xE000)) :
    Reads [0x5C, 0x75, a, b, c, d] (encodeRune r) := by
  refine reads_escape fun more => ?_
  simp only [List.cons_append, List.nil_append]
  rw [escape, if_neg (by decide), if_neg (by decide), if_neg (by decide), if_neg (by decide),
    if_neg (by decide), if_neg (by decide), if_pos rfl, h, Option.map_some, if_neg hhalf]
  rfl

theorem reads_escapeByte {a : UInt8} (h : a < 0x80) : Reads (escapeByte a) [a] := by
  unfold escapeByte
  split
  next hmark =>
    refine reads_escape fun more => ?_
    rw [List.singleton_append, escape, if_pos (by tauto)]
    rfl
  split
  next heq => exact heq ▸ reads_escape fun more => rfl
  split
  next heq => exact heq ▸ reads_escape fun more => rfl
  split
  next heq => exact heq ▸ reads_escape fun more => rfl
  split
  next heq => exact heq ▸ reads_escape fun more => rfl
  split
  next heq => exact heq ▸ reads_escape fun more => rfl
  split
  next =>
    have ha : a.toNat < 128 := UInt8.lt_iff_toNat_lt.mp h
    have hhigh := hexValue_hexDigit (n := a.toNat / 16) (by omega)
    have hlow := hexValue_hexDigit (n := a.toNat % 16) (by omega)
    have hrune : encodeRune a.toNat = [a] := by
      rw [encodeRune, if_pos ha, UInt8.ofNat_toNat]
    refine hrune ▸ reads_rune (r := a.toNat) (fun more => ?_) (by omega)
    have hzero : hexValue 0x30 = some 0 := rfl
    simp only [u4, hzero, hhigh, hlow, Option.bind_eq_bind, Option.bind_some, Option.some.injEq]
    omega
  next hmark _ _ _ _ _ hplain =>
    refine ⟨a, [], rfl, fun heq => hmark (.inl heq), fun more => ?_⟩
    rw [token, if_neg fun heq => hmark (.inr heq), if_neg fun hlt => hplain (.inl hlt),
      Utf8.tail_of_ascii h]
    rfl

theorem reads_written (a : UInt8) (rest : List UInt8) :
    Reads (written a rest).1 (kept a rest) ∧
      (written a rest).2 = (Utf8.tail a rest).getD 0 := by
  unfold written kept
  split
  next hascii =>
    rw [Utf8.tail_of_ascii hascii]
    exact ⟨reads_escapeByte hascii, rfl⟩
  next hwide =>
    cases htail : Utf8.tail a rest with
    | none => exact ⟨reads_rune (r := 0xFFFD) (fun more => rfl) (by decide), rfl⟩
    | some k =>
      simp only [Option.getD_some]
      split
      next hsep =>
        rw [hsep.1, hsep.2]
        exact ⟨reads_rune (r := 0x2028) (fun more => rfl) (by decide), rfl⟩
      split
      next hsep =>
        rw [hsep.1, hsep.2]
        exact ⟨reads_rune (r := 0x2029) (fun more => rfl) (by decide), rfl⟩
      next =>
        have hwide' : 0x80 ≤ a := UInt8.not_lt.mp hwide
        refine ⟨⟨a, rest.take k, rfl, ?_, fun more => ?_⟩, rfl⟩
        · rintro rfl
          exact absurd hwide' (by decide)
        · obtain ⟨hlen, htail'⟩ := Utf8.tail_take htail more
          rw [token, if_neg, if_neg, htail']
          simp only [List.take_left' hlen, hlen]
          · exact fun hlt => absurd (UInt8.lt_of_lt_of_le hlt (by decide)) hwide
          · rintro rfl
            exact absurd hwide' (by decide)

theorem unquoteFrom_quoteFrom (s more : List UInt8) :
    unquoteFrom 0 (quoteFrom 0 s ++ 0x22 :: more) = some (Utf8.coerce s, more) := by
  -- A sequence takes several bytes at once, so the induction is on the length.
  induction hlen : s.length using Nat.strongRecOn generalizing s with
  | _ n ih =>
    cases s with
    | nil => rfl
    | cons a rest =>
      obtain ⟨⟨x, xs, htext, hquote, htoken⟩, hskip⟩ := reads_written a rest
      have hrest := ih (rest.drop ((Utf8.tail a rest).getD 0)).length (by
        rw [List.length_drop]
        rw [List.length_cons] at hlen
        omega) _ rfl
      rw [quoteFrom, htext, hskip, quoteFrom_eq, List.append_assoc, List.cons_append, unquoteFrom,
        if_neg hquote, htoken]
      simp only
      rw [unquoteFrom_append, hrest, coerce_cons]
      rfl

example : quote [0x3C, 0x0A, 0xFF] =
    [0x22, 0x5C, 0x75, 0x30, 0x30, 0x33, 0x63, 0x5C, 0x6E, 0x5C, 0x75, 0x66, 0x66, 0x66, 0x64,
      0x22] := by decide

end Phalanx.Go.Literal
