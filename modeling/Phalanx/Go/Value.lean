import Phalanx.Go.Decimal
import Phalanx.Go.Literal

/-! JSON texts as trees, written as `json.Marshal` writes them and read as `json.Unmarshal`
scans them. The nesting limit of the scanner is left out. -/
namespace Phalanx.Go

/-- A number is kept as it is spelled, an object as the list of its members. -/
inductive Value where
  | null
  | bool (b : Bool)
  | number (text : List UInt8)
  | string (s : List UInt8)
  | array (items : List Value)
  | object (members : List (List UInt8 × Value))

namespace Value

def trueText : List UInt8 := [0x74, 0x72, 0x75, 0x65]

def falseText : List UInt8 := [0x66, 0x61, 0x6C, 0x73, 0x65]

def nullText : List UInt8 := [0x6E, 0x75, 0x6C, 0x6C]

mutual

def write : Value → List UInt8
  | .null => nullText
  | .bool b => if b then trueText else falseText
  | .number text => text
  | .string s => Literal.quote s
  | .array items => 0x5B :: writeItems items
  | .object members => 0x7B :: writeMembers members

def writeItems : List Value → List UInt8
  | [] => [0x5D]
  | v :: rest => v.write ++ writeMore rest

def writeMore : List Value → List UInt8
  | [] => [0x5D]
  | v :: rest => 0x2C :: (v.write ++ writeMore rest)

def writeMembers : List (List UInt8 × Value) → List UInt8
  | [] => [0x7D]
  | (name, v) :: rest => Literal.quote name ++ 0x3A :: (v.write ++ writeMoreMembers rest)

def writeMoreMembers : List (List UInt8 × Value) → List UInt8
  | [] => [0x7D]
  | (name, v) :: rest =>
    0x2C :: (Literal.quote name ++ 0x3A :: (v.write ++ writeMoreMembers rest))

end

def isSpace (b : UInt8) : Bool := b = 0x20 || b = 0x09 || b = 0x0A || b = 0x0D

def skipSpace (text : List UInt8) : List UInt8 := text.dropWhile isSpace

def inNumber (b : UInt8) : Bool :=
  Decimal.isDigit b || b = 0x2B || b = 0x2D || b = 0x2E || b = 0x65 || b = 0x45

def readWord (word : List UInt8) (v : Value) (text : List UInt8) : Option (Value × List UInt8) :=
  if text.take word.length = word then some (v, text.drop word.length) else none

/-- A number goes as far as its bytes go, and has to be one in full. -/
def readNumber (text : List UInt8) : Option (Value × List UInt8) :=
  if Decimal.isNumber (text.takeWhile inNumber) then
    some (.number (text.takeWhile inNumber), text.dropWhile inNumber)
  else none

def readName (text : List UInt8) : Option (List UInt8 × List UInt8) :=
  match skipSpace text with
  | [] => none
  | a :: rest => if a = 0x22 then Literal.unquoteFrom 0 rest else none

def readColon (text : List UInt8) : Option (List UInt8) :=
  match skipSpace text with
  | [] => none
  | a :: rest => if a = 0x3A then some rest else none

mutual

def readValue : Nat → List UInt8 → Option (Value × List UInt8)
  | 0, _ => none
  | fuel + 1, text =>
    match skipSpace text with
    | [] => none
    | a :: rest =>
      if a = 0x22 then (Literal.unquoteFrom 0 rest).map fun read => (.string read.1, read.2)
      else if a = 0x5B then
        if (skipSpace rest).head? = some 0x5D then some (.array [], (skipSpace rest).tail)
        else (readItems fuel rest).map fun read => (.array read.1, read.2)
      else if a = 0x7B then
        if (skipSpace rest).head? = some 0x7D then some (.object [], (skipSpace rest).tail)
        else (readMembers fuel rest).map fun read => (.object read.1, read.2)
      else if a = 0x74 then readWord trueText (.bool true) (a :: rest)
      else if a = 0x66 then readWord falseText (.bool false) (a :: rest)
      else if a = 0x6E then readWord nullText .null (a :: rest)
      else readNumber (a :: rest)

def readItems : Nat → List UInt8 → Option (List Value × List UInt8)
  | 0, _ => none
  | fuel + 1, text => do
    let (v, text) ← readValue fuel text
    match skipSpace text with
    | [] => none
    | a :: rest =>
      if a = 0x5D then some ([v], rest)
      else if a = 0x2C then (readItems fuel rest).map fun read => (v :: read.1, read.2)
      else none

def readMembers : Nat → List UInt8 → Option (List (List UInt8 × Value) × List UInt8)
  | 0, _ => none
  | fuel + 1, text => do
    let (name, text) ← readName text
    let (v, text) ← readValue fuel (← readColon text)
    match skipSpace text with
    | [] => none
    | a :: rest =>
      if a = 0x7D then some ([(name, v)], rest)
      else if a = 0x2C then (readMembers fuel rest).map fun read => ((name, v) :: read.1, read.2)
      else none

end

/-- `json.Unmarshal` up to the tree. -/
def parse (text : List UInt8) : Option Value :=
  (readValue (2 * text.length + 1) text).bind fun read =>
    if skipSpace read.2 = [] then some read.1 else none

/-! What is written is read back, with every string made UTF-8. -/

mutual

def coerced : Value → Value
  | .null => .null
  | .bool b => .bool b
  | .number text => .number text
  | .string s => .string (Utf8.coerce s)
  | .array items => .array (coercedItems items)
  | .object members => .object (coercedMembers members)

def coercedItems : List Value → List Value
  | [] => []
  | v :: rest => v.coerced :: coercedItems rest

def coercedMembers : List (List UInt8 × Value) → List (List UInt8 × Value)
  | [] => []
  | (name, v) :: rest => (Utf8.coerce name, v.coerced) :: coercedMembers rest

end

mutual

def Spelled : Value → Prop
  | .number text => Decimal.isNumber text = true ∧ ∀ b ∈ text, inNumber b = true
  | .array items => SpelledItems items
  | .object members => SpelledMembers members
  | _ => True

def SpelledItems : List Value → Prop
  | [] => True
  | v :: rest => v.Spelled ∧ SpelledItems rest

def SpelledMembers : List (List UInt8 × Value) → Prop
  | [] => True
  | (_, v) :: rest => v.Spelled ∧ SpelledMembers rest

end

def Ends (more : List UInt8) : Prop := ∀ b ∈ more.head?, inNumber b = false

theorem skipSpace_cons {a : UInt8} (h : isSpace a = false) (rest : List UInt8) :
    skipSpace (a :: rest) = a :: rest := by
  rw [skipSpace, List.dropWhile_cons_of_neg (by simp [h])]

theorem ends_cons {a : UInt8} (h : inNumber a = false) (rest : List UInt8) : Ends (a :: rest) := by
  intro b hb
  cases hb
  exact h

theorem quote_append (s more : List UInt8) :
    Literal.quote s ++ more = 0x22 :: (Literal.quoteFrom 0 s ++ 0x22 :: more) := by
  simp [Literal.quote]

theorem readName_quote (s more : List UInt8) :
    readName (Literal.quote s ++ more) = some (Utf8.coerce s, more) := by
  rw [quote_append, readName, skipSpace_cons (by decide)]
  simp only [if_true]
  exact Literal.unquoteFrom_quoteFrom s more

theorem readNumber_append {text more : List UInt8} (hnumber : Decimal.isNumber text = true)
    (hall : ∀ b ∈ text, inNumber b = true) (hmore : Ends more) :
    readNumber (text ++ more) = some (.number text, more) := by
  have hnone : more.takeWhile inNumber = [] ∧ more.dropWhile inNumber = more := by
    cases more with
    | nil => exact ⟨rfl, rfl⟩
    | cons a rest =>
      have ha := hmore a rfl
      exact ⟨List.takeWhile_cons_of_neg (by simp [ha]), List.dropWhile_cons_of_neg (by simp [ha])⟩
  have htake : (text ++ more).takeWhile inNumber = text := by
    rw [List.takeWhile_append_of_pos hall, hnone.1, List.append_nil]
  have hdrop : (text ++ more).dropWhile inNumber = more := by
    rw [List.dropWhile_append_of_pos hall, hnone.2]
  rw [readNumber, htake, hdrop, if_pos hnumber]

theorem ne_of_inNumber {a b : UInt8} (h : inNumber a = true) (hb : inNumber b = false) : a ≠ b := by
  rintro rfl
  rw [h] at hb
  cases hb

theorem special_of_inNumber {a : UInt8} (h : inNumber a = true) :
    isSpace a = false ∧ a ≠ 0x5D := by
  refine ⟨?_, ne_of_inNumber h rfl⟩
  simp only [isSpace, Bool.or_eq_false_iff, decide_eq_false_iff_not]
  exact ⟨⟨⟨ne_of_inNumber h rfl, ne_of_inNumber h rfl⟩, ne_of_inNumber h rfl⟩,
    ne_of_inNumber h rfl⟩

theorem isNumber_cons {text : List UInt8} (h : Decimal.isNumber text = true) :
    ∃ a rest, text = a :: rest := by
  cases text with
  | nil => cases h
  | cons a rest => exact ⟨a, rest, rfl⟩

theorem writeMore_cons (v : Value) (rest : List Value) :
    writeMore (v :: rest) = 0x2C :: writeItems (v :: rest) := by rw [writeMore, writeItems]

theorem writeMoreMembers_cons (m : List UInt8 × Value) (rest : List (List UInt8 × Value)) :
    writeMoreMembers (m :: rest) = 0x2C :: writeMembers (m :: rest) := by
  rw [writeMoreMembers, writeMembers]

theorem write_head {v : Value} (hv : v.Spelled) :
    ∃ a rest, v.write = a :: rest ∧ isSpace a = false ∧ a ≠ 0x5D := by
  cases v with
  | null => exact ⟨_, _, rfl, by decide, by decide⟩
  | bool b => cases b <;> exact ⟨_, _, rfl, by decide, by decide⟩
  | number text =>
    obtain ⟨hnumber, hall⟩ := hv
    obtain ⟨a, rest, rfl⟩ := isNumber_cons hnumber
    exact ⟨a, rest, rfl, special_of_inNumber (hall a List.mem_cons_self)⟩
  | string s => exact ⟨_, _, rfl, by decide, by decide⟩
  | array items => exact ⟨_, _, rfl, by decide, by decide⟩
  | object members => exact ⟨_, _, rfl, by decide, by decide⟩

/-- What this much fuel reads back. -/
structure Back (fuel : Nat) : Prop where
  value : ∀ v : Value, v.Spelled → 2 * v.write.length < fuel → ∀ more, Ends more →
    readValue fuel (v.write ++ more) = some (v.coerced, more)
  items : ∀ items : List Value, items ≠ [] → SpelledItems items →
    2 * (writeItems items).length < fuel → ∀ more,
    readItems fuel (writeItems items ++ more) = some (coercedItems items, more)
  members : ∀ members : List (List UInt8 × Value), members ≠ [] → SpelledMembers members →
    2 * (writeMembers members).length < fuel → ∀ more,
    readMembers fuel (writeMembers members ++ more) = some (coercedMembers members, more)

variable {fuel : Nat}

theorem Back.value_succ (h : Back fuel) (v : Value) (hv : v.Spelled)
    (hfuel : 2 * v.write.length < fuel + 1) (more : List UInt8) (hmore : Ends more) :
    readValue (fuel + 1) (v.write ++ more) = some (v.coerced, more) := by
  cases v with
  | null => rfl
  | bool b => cases b <;> rfl
  | number text =>
    obtain ⟨hnumber, hall⟩ := hv
    have hread := readNumber_append hnumber hall hmore
    obtain ⟨a, rest, rfl⟩ := isNumber_cons hnumber
    have ha := hall a List.mem_cons_self
    rw [write, List.cons_append, readValue, skipSpace_cons (special_of_inNumber ha).1]
    simp only
    rw [if_neg (ne_of_inNumber ha rfl), if_neg (ne_of_inNumber ha rfl),
      if_neg (ne_of_inNumber ha rfl), if_neg (ne_of_inNumber ha rfl),
      if_neg (ne_of_inNumber ha rfl), if_neg (ne_of_inNumber ha rfl)]
    exact hread
  | string s =>
    rw [write, quote_append, readValue, skipSpace_cons (by decide)]
    simp only [if_true]
    rw [Literal.unquoteFrom_quoteFrom]
    rfl
  | array items =>
    rw [write, List.cons_append, readValue, skipSpace_cons (by decide)]
    simp only [show ((0x5B : UInt8) = 0x22) = False by decide, if_false, if_true]
    cases items with
    | nil => rfl
    | cons v rest =>
      obtain ⟨a, text, htext, hspace, hclose⟩ := write_head hv.1
      have hhead : skipSpace (writeItems (v :: rest) ++ more) =
          a :: (text ++ writeMore rest ++ more) := by
        rw [writeItems, htext, List.cons_append, List.cons_append, skipSpace_cons hspace]
      have hread := h.items (v :: rest) (List.cons_ne_nil _ _) hv (by
        simp only [write, List.length_cons] at hfuel
        omega) more
      rw [hhead, if_neg (by simpa using hclose), hread]
      rfl
  | object members =>
    rw [write, List.cons_append, readValue, skipSpace_cons (by decide)]
    simp only [show ((0x7B : UInt8) = 0x22) = False by decide,
      show ((0x7B : UInt8) = 0x5B) = False by decide, if_false, if_true]
    cases members with
    | nil => rfl
    | cons m rest =>
      have hhead : (skipSpace (writeMembers (m :: rest) ++ more)).head? = some 0x22 := by
        rw [writeMembers, List.append_assoc, quote_append, skipSpace_cons (by decide)]
        rfl
      have hread := h.members (m :: rest) (List.cons_ne_nil _ _) hv (by
        simp only [write, List.length_cons] at hfuel
        omega) more
      rw [hhead, if_neg (by decide), hread]
      rfl

theorem Back.items_succ (h : Back fuel) (items : List Value) (hne : items ≠ [])
    (hitems : SpelledItems items) (hfuel : 2 * (writeItems items).length < fuel + 1)
    (more : List UInt8) :
    readItems (fuel + 1) (writeItems items ++ more) = some (coercedItems items, more) := by
  cases items with
  | nil => exact absurd rfl hne
  | cons v rest =>
    cases rest with
    | nil =>
      rw [writeItems, writeMore, List.length_append, List.length_singleton] at hfuel
      have hread := h.value v hitems.1 (by omega) (0x5D :: more) (ends_cons (by decide) _)
      rw [writeItems, writeMore, List.append_assoc, readItems, List.singleton_append, hread]
      rfl
    | cons w rest =>
      rw [writeItems, writeMore_cons, List.length_append, List.length_cons] at hfuel
      have hread := h.value v hitems.1 (by omega) (0x2C :: (writeItems (w :: rest) ++ more))
        (ends_cons (by decide) _)
      have hmore := h.items (w :: rest) (List.cons_ne_nil _ _) hitems.2 (by omega) more
      rw [writeItems, writeMore_cons, List.append_assoc, readItems, List.cons_append, hread]
      simp only [Option.bind_eq_bind, Option.bind_some]
      rw [skipSpace_cons (by decide)]
      simp only [show ((0x2C : UInt8) = 0x5D) = False by decide, if_false, if_true]
      rw [hmore]
      rfl

theorem Back.members_succ (h : Back fuel) (members : List (List UInt8 × Value))
    (hne : members ≠ []) (hmembers : SpelledMembers members)
    (hfuel : 2 * (writeMembers members).length < fuel + 1) (more : List UInt8) :
    readMembers (fuel + 1) (writeMembers members ++ more) =
      some (coercedMembers members, more) := by
  cases members with
  | nil => exact absurd rfl hne
  | cons m rest =>
    obtain ⟨name, v⟩ := m
    have hcolon : ∀ text, readColon (0x3A :: text) = some text := fun text => by
      rw [readColon, skipSpace_cons (by decide)]
      rfl
    cases rest with
    | nil =>
      simp only [writeMembers, writeMoreMembers, List.length_append, List.length_cons,
        List.length_nil] at hfuel
      have hread := h.value v hmembers.1 (by omega) (0x7D :: more) (ends_cons (by decide) _)
      rw [writeMembers, writeMoreMembers, List.append_assoc, readMembers, readName_quote]
      simp only [Option.bind_eq_bind, Option.bind_some, List.cons_append, List.append_assoc,
        List.nil_append, hcolon, hread]
      rfl
    | cons m rest =>
      simp only [writeMembers, writeMoreMembers_cons, List.length_append,
        List.length_cons] at hfuel
      have hread := h.value v hmembers.1 (by omega) (0x2C :: (writeMembers (m :: rest) ++ more))
        (ends_cons (by decide) _)
      have hmore := h.members (m :: rest) (List.cons_ne_nil _ _) hmembers.2 (by
        simp only [writeMembers, List.length_append, List.length_cons]
        omega) more
      rw [writeMembers, writeMoreMembers_cons, List.append_assoc, readMembers, readName_quote]
      simp only [Option.bind_eq_bind, Option.bind_some, List.cons_append, List.append_assoc,
        hcolon, hread]
      rw [skipSpace_cons (by decide)]
      simp only [show ((0x2C : UInt8) = 0x7D) = False by decide, if_false, if_true]
      rw [hmore]
      rfl

theorem back : ∀ fuel, Back fuel
  | 0 => ⟨fun _ _ h => absurd h (Nat.not_lt_zero _), fun _ _ _ h => absurd h (Nat.not_lt_zero _),
      fun _ _ _ h => absurd h (Nat.not_lt_zero _)⟩
  | fuel + 1 =>
    have h := back fuel
    ⟨h.value_succ, h.items_succ, h.members_succ⟩

theorem parse_write {v : Value} (hv : v.Spelled) : parse v.write = some v.coerced := by
  have hread := (back _).value v hv (Nat.lt_succ_self _) [] (fun _ hb => (by cases hb))
  rw [List.append_nil] at hread
  rw [parse, hread]
  rfl

end Value
end Phalanx.Go
