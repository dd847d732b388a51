import Phalanx.FSM.KV
import Phalanx.Go.Json

/-! Commands on their way through JSON into the state machine. `json.Marshal` makes UTF-8
of every string, so a key that is not UTF-8 is stored under another one, and several keys
may end up in the same place. -/
namespace Phalanx

open Go

namespace Command

def opName : GoString := [0x6F, 0x70]

def keyName : GoString := [0x6B, 0x65, 0x79]

def valueName : GoString := [0x76, 0x61, 0x6C, 0x75, 0x65]

/-- The members that are written: an empty value is left out. -/
def members (c : Command) : Members :=
  [(opName, c.op), (keyName, c.key)] ++ if c.value = [] then [] else [(valueName, c.value)]

def encode (json : Json) (c : Command) : List UInt8 := json.marshal c.members

theorem encode_ne_nil (json : Json) (c : Command) : c.encode json ≠ [] :=
  json.marshal_ne_nil c.members

def assign (c : Command) (m : GoString × GoString) : Command :=
  if m.1 = opName then { c with op := m.2 }
  else if m.1 = keyName then { c with key := m.2 }
  else if m.1 = valueName then { c with value := m.2 }
  else c

end Command

def decodeCommand (json : Json) (data : List UInt8) : Option Command :=
  (json.unmarshal data).map (List.foldl Command.assign { op := [], key := [] })

theorem decodeCommand_encode (json : Json) (c : Command) :
    decodeCommand json (c.encode json) =
      some { op := Utf8.coerce c.op, key := Utf8.coerce c.key, value := Utf8.coerce c.value } := by
  rw [decodeCommand, Command.encode, json.unmarshal_coerced, Option.map_some]
  unfold Command.members
  split
  next hempty =>
    rw [hempty]
    rfl
  next => rfl

namespace KV

variable (json : Json) {kv : KV}

def Made (kv : KV) : Prop := kv.data.table.isSome = true

theorem made_empty : KV.Made {} := rfl

theorem apply_encode (kv : KV) (c : Command) :
    kv.apply (decodeCommand json) (c.encode json) =
      if Utf8.coerce c.op = opSet then
        .ok ⟨(kv.data.write (Utf8.coerce c.key) (Utf8.coerce c.value)).getD kv.data⟩
      else if Utf8.coerce c.op = opDelete then .ok ⟨kv.data.delete (Utf8.coerce c.key)⟩
      else .error (.unknownOp (Utf8.coerce c.op)) := by
  unfold KV.apply
  rw [if_neg (c.encode_ne_nil json), decodeCommand_encode]

theorem coerce_opSet : Utf8.coerce opSet = opSet := by decide

theorem coerce_opDelete : Utf8.coerce opDelete = opDelete := by decide

theorem apply_set (h : kv.Made) (k v : GoString) :
    ∃ kv', kv.apply (decodeCommand json)
        (Command.encode json { op := opSet, key := k, value := v }) = .ok kv' ∧
      ∀ q, kv'.get q = if q = Utf8.coerce k then some (Utf8.coerce v) else kv.get q := by
  obtain ⟨data, hwrite, -⟩ := GoMap.write_of_made h (Utf8.coerce k) (Utf8.coerce v)
  refine ⟨⟨data⟩, ?_, fun q => GoMap.lookup_write hwrite q⟩
  rw [apply_encode, if_pos coerce_opSet, hwrite, Option.getD_some]

theorem apply_delete (kv : KV) (k : GoString) :
    ∃ kv', kv.apply (decodeCommand json) (Command.encode json { op := opDelete, key := k }) =
        .ok kv' ∧
      ∀ q, kv'.get q = if q = Utf8.coerce k then none else kv.get q := by
  refine ⟨⟨kv.data.delete (Utf8.coerce k)⟩, ?_, fun q => GoMap.lookup_delete _ _ q⟩
  rw [apply_encode, coerce_opDelete, if_neg (by decide), if_pos rfl]

theorem Made.applied {unmarshal : List UInt8 → Option Command} (h : kv.Made) (data : List UInt8) :
    (kv.applied unmarshal data).Made := by
  unfold KV.applied KV.apply
  split
  · exact h
  · split
    · exact h
    next cmd _ =>
      split
      · obtain ⟨table, hwrite, hmade⟩ := GoMap.write_of_made h cmd.key cmd.value
        rw [hwrite]
        exact hmade
      · split
        · exact (Option.isSome_map ..).trans h
        · exact h

theorem made_of_applied {unmarshal : List UInt8 → Option Command} (payloads : List (List UInt8)) :
    (payloads.foldl (KV.applied unmarshal) {}).Made := by
  have hfold : ∀ (payloads : List (List UInt8)) (kv : KV), kv.Made →
      (payloads.foldl (KV.applied unmarshal) kv).Made := by
    intro payloads
    induction payloads with
    | nil => exact fun _ h => h
    | cons data rest ih => exact fun kv h => ih _ (h.applied data)
  exact hfold payloads {} made_empty

/-- A command is applied without an error, leaves `v` at its key and changes no other key. -/
def Changes (kv : KV) (c : Command) (v : Option GoString) : Prop :=
  ∃ kv', kv.apply (decodeCommand json) (c.encode json) = .ok kv' ∧ kv'.get c.key = v ∧
    ∀ k', k' ≠ c.key → kv'.get k' = kv.get k'

variable {json} {k v : GoString}

theorem changes_set (h : kv.Made) (hk : Utf8.Valid k) (hv : Utf8.Valid v) :
    kv.Changes json { op := opSet, key := k, value := v } (some v) := by
  obtain ⟨kv', hok, hget⟩ := apply_set json h k v
  rw [Utf8.coerce_of_valid hk, Utf8.coerce_of_valid hv] at hget
  exact ⟨kv', hok, by rw [hget, if_pos rfl], fun k' hk' => by rw [hget, if_neg hk']⟩

theorem valid_of_changes_set (h : kv.Made) (hnew : kv.get k = none)
    (hset : kv.Changes json { op := opSet, key := k, value := v } (some v)) :
    Utf8.Valid k ∧ Utf8.Valid v := by
  obtain ⟨kv', hok, hget⟩ := apply_set json h k v
  obtain ⟨kv₁, hok₁, hfound, -⟩ := hset
  cases hok.symm.trans hok₁
  rw [hget] at hfound
  split at hfound
  next hk =>
    exact ⟨Utf8.coerce_eq_self_iff.mp hk.symm, Utf8.coerce_eq_self_iff.mp (Option.some.inj hfound)⟩
  next => cases hnew.symm.trans hfound

theorem changes_delete (kv : KV) (hk : Utf8.Valid k) :
    kv.Changes json { op := opDelete, key := k } none := by
  obtain ⟨kv', hok, hget⟩ := apply_delete json kv k
  rw [Utf8.coerce_of_valid hk] at hget
  exact ⟨kv', hok, by rw [hget, if_pos rfl], fun k' hk' => by rw [hget, if_neg hk']⟩

theorem valid_of_changes_delete (hthere : kv.get (Utf8.coerce k) = some v)
    (hdelete : kv.Changes json { op := opDelete, key := k } none) : Utf8.Valid k := by
  obtain ⟨kv', hok, hget⟩ := apply_delete json kv k
  obtain ⟨kv₁, hok₁, -, hothers⟩ := hdelete
  cases hok.symm.trans hok₁
  refine Utf8.coerce_eq_self_iff.mp (by_contra fun hk => ?_)
  have hkept := hothers (Utf8.coerce k) hk
  rw [hget, if_pos rfl, hthere] at hkept
  cases hkept

end KV

/-- Whatever was applied before, a command does what it says to its key and nothing to any other:
exactly for the keys and values that are UTF-8. -/
theorem commands_mean_what_was_written (json : Json) (k v : GoString) :
    ((∀ payloads : List (List UInt8),
        (payloads.foldl (KV.applied (decodeCommand json)) {}).Changes json
          { op := opSet, key := k, value := v } (some v)) ↔ Utf8.Valid k ∧ Utf8.Valid v) ∧
    ((∀ payloads : List (List UInt8),
        (payloads.foldl (KV.applied (decodeCommand json)) {}).Changes json
          { op := opDelete, key := k } none) ↔ Utf8.Valid k) := by
  refine ⟨⟨fun h => ?_, fun ⟨hk, hv⟩ payloads => ?_⟩, ⟨fun h => ?_, fun hk payloads => ?_⟩⟩
  · exact KV.valid_of_changes_set KV.made_empty rfl (h [])
  · exact KV.changes_set (KV.made_of_applied payloads) hk hv
  · -- the state in which the key that is deleted in its place is there
    obtain ⟨kv, hok, hget⟩ := KV.apply_set json KV.made_empty k v
    have hdelete := h [Command.encode json { op := opSet, key := k, value := v }]
    rw [List.foldl_cons, List.foldl_nil, KV.applied, hok] at hdelete
    exact KV.valid_of_changes_delete ((hget _).trans (if_pos rfl)) hdelete
  · exact KV.changes_delete _ hk

/-- `SET é = "` in an empty store, in the usual text. -/
theorem commands_mean_what_was_written_text :
    ∃ kv', KV.apply (decodeCommand Json.text) {}
        (Command.encode Json.text { op := opSet, key := [0xC3, 0xA9], value := [0x22] }) =
          .ok kv' ∧
      kv'.get [0xC3, 0xA9] = some [0x22] ∧ kv'.get [0xFF] = none := by
  obtain ⟨hset, -⟩ := commands_mean_what_was_written Json.text [0xC3, 0xA9] [0x22]
  obtain ⟨kv', hok, hget, hother⟩ := hset.mpr (by decide) []
  exact ⟨kv', hok, hget, hother [0xFF] (by decide)⟩

/-- A key of one byte that is not UTF-8 is not found after it was set, and another one is. -/
theorem invalid_key_lands_elsewhere :
    ∃ kv', KV.apply (decodeCommand Json.text) {}
        (Command.encode Json.text { op := opSet, key := [0xFF], value := [0x31] }) = .ok kv' ∧
      kv'.get [0xFF] = none ∧ KV.get {} [0xEF, 0xBF, 0xBD] = none ∧
      kv'.get [0xEF, 0xBF, 0xBD] = some [0x31] := by
  obtain ⟨kv', hok, hget⟩ := KV.apply_set Json.text KV.made_empty [0xFF] [0x31]
  have hcoerce : Utf8.coerce [0xFF] = [0xEF, 0xBF, 0xBD] := by decide
  rw [hcoerce] at hget
  refine ⟨kv', hok, ?_, rfl, ?_⟩
  · rw [hget, if_neg (by decide)]
    rfl
  · rw [hget, if_pos rfl]
    rfl

end Phalanx
