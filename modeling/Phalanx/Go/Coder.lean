import Phalanx.Go.Base64
import Phalanx.Go.Value

/-! How `encoding/json` writes Go values and fills them from text. A coder pairs the two: a
null leaves a scalar alone, a member is found by its name without regard to case, and a name
that no field has is ignored. What a coder has written it reads back into a fresh value, with
the strings made UTF-8. -/
namespace Phalanx.Go

structure Coder (α : Type) where
  zero : α
  write : α → Value
  /-- What a value becomes when it is filled from a tree. -/
  fill : α → Value → Option α
  /-- What a value comes back as. -/
  settle : α → α
  spelled : ∀ a, (write a).Spelled
  fill_write : ∀ a, fill zero (write a).coerced = some (settle a)

namespace Coder

variable {α σ : Type}

def marshal (c : Coder α) (a : α) : List UInt8 := (c.write a).write

def unmarshal (c : Coder α) (text : List UInt8) : Option α :=
  (Value.parse text).bind (c.fill c.zero)

theorem unmarshal_marshal (c : Coder α) (a : α) :
    c.unmarshal (c.marshal a) = some (c.settle a) := by
  rw [unmarshal, marshal, Value.parse_write (c.spelled a), Option.bind_some, c.fill_write]

/-! Scalars. -/

def boolean : Coder Bool where
  zero := false
  write := .bool
  fill := fun
    | old, .null => some old
    | _, .bool b => some b
    | _, _ => none
  settle := id
  spelled := fun _ => trivial
  fill_write := fun _ => rfl

def string : Coder (List UInt8) where
  zero := []
  write := .string
  fill := fun
    | old, .null => some old
    | _, .string s => some s
    | _, _ => none
  settle := Utf8.coerce
  spelled := fun _ => trivial
  fill_write := fun _ => rfl

theorem fromUTF8_toUTF8 (s : String) :
    String.fromUTF8? ⟨s.toUTF8.data.toList.toArray⟩ = some s := dif_pos s.isValidUTF8

/-- A string that is known to be UTF-8. -/
def text : Coder String where
  zero := ""
  write := fun s => .string s.toUTF8.data.toList
  fill := fun
    | old, .null => some old
    | _, .string s => String.fromUTF8? ⟨s.toArray⟩
    | _, _ => none
  settle := id
  spelled := fun _ => trivial
  fill_write := fun s => by
    simp only [Value.coerced, Utf8.coerce_of_valid (Utf8.valid_toUTF8 s), id]
    exact fromUTF8_toUTF8 s

theorem spelled_number (n : Nat) : (Value.number (Decimal.format n)).Spelled :=
  ⟨Decimal.isNumber_format n, fun b hb => by
    rw [Value.inNumber, Decimal.isDigit_of_mem_format hb]
    rfl⟩

def uint64 : Coder UInt64 where
  zero := 0
  write := fun n => .number (Decimal.format n.toNat)
  fill := fun
    | old, .null => some old
    | _, .number text => (Decimal.parseUint UInt64.size text).map UInt64.ofNat
    | _, _ => none
  settle := id
  spelled := fun n => spelled_number n.toNat
  fill_write := fun n => by
    simp only [Value.coerced, Decimal.parseUint_format n.toNat_lt_size, Option.map_some,
      UInt64.ofNat_toNat, id]

def uint8 : Coder UInt8 where
  zero := 0
  write := fun n => .number (Decimal.format n.toNat)
  fill := fun
    | old, .null => some old
    | _, .number text => (Decimal.parseUint UInt8.size text).map UInt8.ofNat
    | _, _ => none
  settle := id
  spelled := fun n => spelled_number n.toNat
  fill_write := fun n => by
    simp only [Value.coerced, Decimal.parseUint_format n.toNat_lt_size, Option.map_some,
      UInt8.ofNat_toNat, id]

/-! Structs. A member is left out where its `value` is `none`. -/

structure Member (σ : Type) where
  name : List UInt8
  value : σ → Option Value
  fill : σ → Value → Option σ
  spelled : ∀ s, ∀ v ∈ value s, v.Spelled

def lower (b : UInt8) : UInt8 := if 0x41 ≤ b ∧ b ≤ 0x5A then b + 0x20 else b

/-- `foldName`, as far as it can make an ASCII name of another one: the long s and the Kelvin
sign are letters in another case. -/
def foldName : List UInt8 → List UInt8
  | 0xC5 :: 0xBF :: rest => 0x73 :: foldName rest
  | 0xE2 :: 0x84 :: 0xAA :: rest => 0x6B :: foldName rest
  | b :: rest => lower b :: foldName rest
  | [] => []

def sameName (a b : List UInt8) : Bool := foldName a = foldName b

def writeStruct (fields : List (Member σ)) (s : σ) : List (List UInt8 × Value) :=
  fields.filterMap fun f => (f.value s).map fun v => (f.name, v)

def fillMember (fields : List (Member σ)) (s : σ) (m : List UInt8 × Value) : Option σ :=
  match fields.find? fun f => sameName f.name m.1 with
  | some f => f.fill s m.2
  | none => some s

def fillStruct (fields : List (Member σ)) (s : σ) : Value → Option σ
  | .null => some s
  | .object members => members.foldlM (fillMember fields) s
  | _ => none

def fillOwn (fields : List (Member σ)) (s t : σ) : Option σ :=
  fields.foldlM (fun t f => match f.value s with
    | some v => f.fill t v.coerced
    | none => some t) t

/-- The names are UTF-8, and no two are the same without regard to case. -/
def Distinct (fields : List (Member σ)) : Prop :=
  (∀ f ∈ fields, Utf8.Valid f.name) ∧ fields.Pairwise fun f g => sameName f.name g.name = false

instance (fields : List (Member σ)) : Decidable (Distinct fields) :=
  inferInstanceAs (Decidable (_ ∧ _))

theorem find_own {fields : List (Member σ)} (h : Distinct fields) {f : Member σ}
    (hf : f ∈ fields) : (fields.find? fun g => sameName g.name f.name) = some f := by
  obtain ⟨before, after, rfl⟩ := List.append_of_mem hf
  rw [List.find?_append, List.find?_eq_none.mpr, Option.none_or, List.find?_cons_of_pos]
  · simp [sameName]
  · intro g hg
    have hpair := (List.pairwise_append.mp h.2).2.2 g hg f List.mem_cons_self
    simp [hpair]

theorem fill_writeStruct {fields : List (Member σ)} (h : Distinct fields) (s t : σ) :
    fillStruct fields t (Value.object (writeStruct fields s)).coerced = fillOwn fields s t := by
  have hpart : ∀ part : List (Member σ), (∀ f ∈ part, f ∈ fields) → ∀ t,
      (Value.coercedMembers (writeStruct part s)).foldlM (fillMember fields) t =
        fillOwn part s t := by
    intro part
    induction part with
    | nil => exact fun _ _ => rfl
    | cons f rest ih =>
      intro hmem t
      have hf := hmem f List.mem_cons_self
      have hrest := ih fun g hg => hmem g (List.mem_cons_of_mem f hg)
      have hname : Utf8.coerce f.name = f.name := Utf8.coerce_of_valid (h.1 f hf)
      unfold writeStruct fillOwn at hrest ⊢
      cases hvalue : f.value s with
      | none =>
        rw [List.filterMap_cons_none (by rw [hvalue]; rfl), hrest, List.foldlM_cons]
        simp only [hvalue]
        rfl
      | some v =>
        rw [List.filterMap_cons_some (b := (f.name, v)) (by rw [hvalue]; rfl),
          Value.coercedMembers, List.foldlM_cons, List.foldlM_cons, hname]
        simp only [fillMember, find_own h hf, hvalue, hrest]
  exact hpart fields (fun _ hf => hf) t

theorem spelledMembers_of_forall {members : List (List UInt8 × Value)}
    (h : ∀ m ∈ members, m.2.Spelled) : Value.SpelledMembers members := by
  induction members with
  | nil => trivial
  | cons m rest ih =>
    obtain ⟨name, v⟩ := m
    exact ⟨h _ List.mem_cons_self, ih fun m hm => h m (List.mem_cons_of_mem _ hm)⟩

/-- A field that is always written. -/
def field (name : List UInt8) (c : Coder α) (get : σ → α) (set : σ → α → σ) : Member σ where
  name := name
  value := fun s => some (c.write (get s))
  fill := fun s v => (c.fill (get s) v).map (set s)
  spelled := fun s v hv => by
    cases hv
    exact c.spelled (get s)

/-- A string with the option `omitempty`. -/
def optional (name : List UInt8) (get : σ → List UInt8) (set : σ → List UInt8 → σ) : Member σ where
  name := name
  value := fun s => if get s = [] then none else some (string.write (get s))
  fill := fun s v => (string.fill (get s) v).map (set s)
  spelled := fun s v hv => by
    split at hv
    · cases hv
    · cases hv
      trivial

section Fields

variable {fields : List (Member σ)} {name : List UInt8} {s t r : σ}

theorem fillOwn_field {c : Coder α} {get : σ → α} {set : σ → α → σ} (hzero : get t = c.zero)
    (hrest : fillOwn fields s (set t (c.settle (get s))) = some r) :
    fillOwn (field name c get set :: fields) s t = some r := by
  rw [← hrest, fillOwn, List.foldlM_cons]
  simp only [field, hzero, c.fill_write]
  rfl

theorem fillOwn_optional {get : σ → List UInt8} {set : σ → List UInt8 → σ} (hset : set t [] = t)
    (hrest : fillOwn fields s (set t (Utf8.coerce (get s))) = some r) :
    fillOwn (optional name get set :: fields) s t = some r := by
  rw [← hrest, fillOwn, List.foldlM_cons]
  by_cases hempty : get s = []
  · simp only [optional, if_pos hempty]
    rw [hempty, show Utf8.coerce [] = [] from rfl, hset]
    rfl
  · simp only [optional, if_neg hempty]
    rfl

end Fields

def struct (zero : σ) (fields : List (Member σ)) (settle : σ → σ) (hnames : Distinct fields)
    (hfill : ∀ s, fillOwn fields s zero = some (settle s)) : Coder σ where
  zero := zero
  write := fun s => .object (writeStruct fields s)
  fill := fillStruct fields
  settle := settle
  spelled := fun s => spelledMembers_of_forall fun m hm => by
    obtain ⟨f, -, hm⟩ := List.mem_filterMap.mp hm
    obtain ⟨v, hv, rfl⟩ := Option.map_eq_some_iff.mp hm
    exact f.spelled s v hv
  fill_write := fun s => by rw [fill_writeStruct hnames, hfill]

/-! Pointers and slices, where `none` is nil. -/

def pointer (c : Coder α) (h : ∀ a, ∃ members, c.write a = .object members) :
    Coder (Option α) where
  zero := none
  write := fun a => a.elim .null c.write
  fill := fun old v => match v with
    | .null => some none
    | v => (c.fill (old.getD c.zero) v).map some
  settle := Option.map c.settle
  spelled := fun a => by
    cases a with
    | none => trivial
    | some a => exact c.spelled a
  fill_write := fun a => by
    cases a with
    | none => rfl
    | some a =>
      obtain ⟨members, hmembers⟩ := h a
      have hfill := c.fill_write a
      rw [hmembers] at hfill
      simp only [Option.elim_some, hmembers, Value.coerced] at hfill ⊢
      rw [Option.getD_none, hfill]
      rfl

def fillItems (c : Coder α) : List α → List Value → Option (List α)
  | _, [] => some []
  | old, v :: rest => do
    let a ← c.fill (old.head?.getD c.zero) v
    (fillItems c old.tail rest).map (a :: ·)

theorem fillItems_write (c : Coder α) (items : List α) :
    fillItems c [] (Value.coercedItems (items.map c.write)) = some (items.map c.settle) := by
  induction items with
  | nil => rfl
  | cons a rest ih =>
    rw [List.map_cons, Value.coercedItems, fillItems, List.head?_nil, Option.getD_none,
      c.fill_write, List.tail_nil, ih]
    rfl

theorem spelledItems_write (c : Coder α) (items : List α) :
    Value.SpelledItems (items.map c.write) := by
  induction items with
  | nil => trivial
  | cons a rest ih => exact ⟨c.spelled a, ih⟩

def slice (c : Coder α) : Coder (Option (List α)) where
  zero := none
  write := fun items => items.elim .null fun items => .array (items.map c.write)
  fill := fun
    | _, .null => some none
    | old, .array items => (fillItems c (old.getD []) items).map some
    | _, _ => none
  settle := Option.map (List.map c.settle)
  spelled := fun items => by
    cases items with
    | none => trivial
    | some items => exact spelledItems_write c items
  fill_write := fun items => by
    cases items with
    | none => rfl
    | some items =>
      simp only [Option.elim_some, Value.coerced, Option.getD_none, fillItems_write]
      rfl

/-- A `[]byte` is a base64 string. -/
def bytes : Coder (Option (List UInt8)) where
  zero := none
  write := fun data => data.elim .null fun data => .string (Base64.encode data)
  fill := fun
    | _, .null => some none
    | _, .string text => (Base64.decode text).map some
    | old, .array items => (fillItems uint8 (old.getD []) items).map some
    | _, _ => none
  settle := id
  spelled := fun data => by cases data <;> trivial
  fill_write := fun data => by
    cases data with
    | none => rfl
    | some data =>
      have hvalid : Utf8.Valid (Base64.encode data) :=
        Utf8.valid_of_ascii fun b hb => (Base64.plain_of_mem_encode hb).2
      simp only [Option.elim_some, Value.coerced, Utf8.coerce_of_valid hvalid,
        Base64.decode_encode, Option.map_some, id]

end Coder
end Phalanx.Go
