import Phalanx.Go.Utf8

/-! Objects with string members in `encoding/json`. A codec is anything that makes text of
the members after the values have been made UTF-8, and reads the members back from the text
of UTF-8 values; `Json.text` is one that writes the usual text, without the escapes that
only keep control characters and markup out of it. -/
namespace Phalanx.Go

/-- The members of an object in the order they are written. -/
abbrev Members := List (List UInt8 × List UInt8)

namespace Members

def coerced (members : Members) : Members := members.map fun m => (m.1, Utf8.coerce m.2)

def Valid (members : Members) : Prop := ∀ m ∈ members, Utf8.Valid m.2

theorem coerced_valid (members : Members) : members.coerced.Valid := by
  intro m hm
  obtain ⟨m', -, rfl⟩ := List.mem_map.mp hm
  exact Utf8.valid_coerce _

theorem Valid.coerced {members : Members} (h : members.Valid) : members.coerced = members := by
  unfold Members.coerced
  rw [List.map_congr_left (g := fun m => m), List.map_id']
  intro m hm
  rw [Utf8.coerce_of_valid (h m hm)]

end Members

structure Json where
  marshal : Members → List UInt8
  unmarshal : List UInt8 → Option Members
  marshal_ne_nil : ∀ members, marshal members ≠ []
  marshal_coerced : ∀ members : Members, marshal members = marshal members.coerced
  unmarshal_marshal : ∀ members : Members, members.Valid →
    unmarshal (marshal members) = some members

theorem Json.unmarshal_coerced (json : Json) (members : Members) :
    json.unmarshal (json.marshal members) = some members.coerced := by
  rw [json.marshal_coerced, json.unmarshal_marshal _ members.coerced_valid]

namespace Json

def escape : List UInt8 → List UInt8
  | [] => []
  | b :: rest => if b = 0x22 ∨ b = 0x5C then 0x5C :: b :: escape rest else b :: escape rest

def quote (s : List UInt8) (rest : List UInt8) : List UInt8 := 0x22 :: escape s ++ 0x22 :: rest

/-- The string up to the closing mark and what follows it, after a backslash or not. -/
def unescape : Bool → List UInt8 → Option (List UInt8 × List UInt8)
  | _, [] => none
  | true, b :: rest => (unescape false rest).map fun read => (b :: read.1, read.2)
  | false, a :: rest =>
    if a = 0x22 then some ([], rest)
    else if a = 0x5C then unescape true rest
    else (unescape false rest).map fun read => (a :: read.1, read.2)

def unquote : List UInt8 → Option (List UInt8 × List UInt8)
  | [] => none
  | a :: rest => if a = 0x22 then unescape false rest else none

theorem unescape_escape (s rest : List UInt8) :
    unescape false (escape s ++ 0x22 :: rest) = some (s, rest) := by
  induction s with
  | nil => simp [escape, unescape]
  | cons b s ih =>
    rw [escape]
    split
    next => simp [unescape, ih]
    next hplain =>
      push Not at hplain
      rw [List.cons_append, unescape, if_neg hplain.1, if_neg hplain.2, ih]
      rfl

theorem unquote_quote (s rest : List UInt8) : unquote (quote s rest) = some (s, rest) := by
  rw [quote, List.cons_append, unquote, if_pos rfl, unescape_escape]

def expect (b : UInt8) : List UInt8 → Option (List UInt8)
  | [] => none
  | a :: rest => if a = b then some rest else none

def writeMembers (m : List UInt8 × List UInt8) : Members → List UInt8
  | [] => quote m.1 (0x3A :: quote m.2 [0x7D])
  | next :: rest => quote m.1 (0x3A :: quote m.2 (0x2C :: writeMembers next rest))

def readMembers : Nat → List UInt8 → Option Members
  | 0, _ => none
  | fuel + 1, text => do
    let (name, text) ← unquote text
    let (value, text) ← unquote (← expect 0x3A text)
    if text = [0x7D] then some [(name, value)]
    else (readMembers fuel (← expect 0x2C text)).map ((name, value) :: ·)

theorem readMembers_writeMembers (m : List UInt8 × List UInt8) (rest : Members) (fuel : Nat)
    (hfuel : rest.length < fuel) : readMembers fuel (writeMembers m rest) = some (m :: rest) := by
  induction rest generalizing m fuel with
  | nil =>
    obtain ⟨fuel, rfl⟩ := Nat.exists_eq_add_of_lt hfuel
    simp [writeMembers, readMembers, unquote_quote, expect]
  | cons next rest ih =>
    obtain ⟨fuel, rfl⟩ := Nat.exists_eq_add_of_lt hfuel
    have hread := ih next (rest.length + 1 + fuel) (by omega)
    simp only [List.length_cons, writeMembers, readMembers, unquote_quote, expect,
      Option.bind_eq_bind, Option.bind_some, if_true]
    rw [if_neg (by simp), hread]
    rfl

theorem length_writeMembers (m : List UInt8 × List UInt8) (rest : Members) :
    rest.length < (writeMembers m rest).length := by
  induction rest generalizing m with
  | nil => simp [writeMembers, quote]
  | cons next rest ih =>
    have := ih next
    simp [writeMembers, quote]
    omega

def write : Members → List UInt8
  | [] => [0x7B, 0x7D]
  | m :: rest => 0x7B :: writeMembers m rest

def read (text : List UInt8) : Option Members := do
  let text ← expect 0x7B text
  if text = [0x7D] then some [] else readMembers text.length text

theorem read_write (members : Members) : read (write members) = some members := by
  cases members with
  | nil => rfl
  | cons m rest =>
    have hmark : writeMembers m rest ≠ [0x7D] := by
      cases rest <;> simp [writeMembers, quote]
    simp only [read, write, expect, Option.bind_eq_bind, Option.bind_some, if_true]
    rw [if_neg hmark, readMembers_writeMembers m rest _ (length_writeMembers m rest)]

def text : Json where
  marshal := fun members => write members.coerced
  unmarshal := read
  marshal_ne_nil := by
    intro members
    cases members <;> simp [write, Members.coerced]
  marshal_coerced := fun members => by rw [members.coerced_valid.coerced]
  unmarshal_marshal := by
    intro members hvalid
    rw [hvalid.coerced, read_write]

end Json
end Phalanx.Go
