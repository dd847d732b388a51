import Phalanx.FSM.Commands
import Phalanx.Go.Coder

/-! Commands as the text that `json.Marshal` writes of them, and the map that a list of such
texts stands for. What the state machine holds after it has applied them is that map, with
every string made UTF-8 on the way; an operation that it does not know changes nothing. -/
namespace Phalanx

open Go Coder

namespace Command

/-- What a command comes back as. -/
def coerced (c : Command) : Command where
  op := Utf8.coerce c.op
  key := Utf8.coerce c.key
  value := Utf8.coerce c.value

def codec : Coder Command :=
  struct { op := [], key := [] }
    [field opName string (·.op) fun c op => { c with op },
      field keyName string (·.key) fun c key => { c with key },
      optional valueName (·.value) fun c value => { c with value }]
    coerced (by decide) fun _ => fillOwn_field rfl (fillOwn_field rfl (fillOwn_optional rfl rfl))

def text (c : Command) : List UInt8 := codec.marshal c

theorem unmarshal_text (c : Command) : codec.unmarshal c.text = some c.coerced :=
  codec.unmarshal_marshal c

theorem text_ne_nil (c : Command) : c.text ≠ [] := by
  intro hempty
  have hback := c.unmarshal_text
  rw [hempty] at hback
  cases hback

end Command

/-- What a store of keys and values is for. -/
abbrev Mapping := GoString → Option GoString

namespace Mapping

def perform (m : Mapping) (c : Command) : Mapping :=
  if c.op = opSet then Function.update m c.key (some c.value)
  else if c.op = opDelete then Function.update m c.key none
  else m

def after (commands : List Command) : Mapping := commands.foldl perform fun _ => none

end Mapping

namespace KV

variable {kv : KV}

theorem get_applied_text (h : kv.Made) (c : Command) :
    (kv.applied Command.codec.unmarshal c.text).get = Mapping.perform kv.get c.coerced := by
  funext key
  unfold applied apply Mapping.perform
  rw [if_neg c.text_ne_nil, c.unmarshal_text]
  simp only
  split
  · obtain ⟨data, hwrite, -⟩ := GoMap.write_of_made h c.coerced.key c.coerced.value
    rw [hwrite, Option.getD_some, Function.update_apply]
    exact GoMap.lookup_write hwrite key
  · split
    · rw [Function.update_apply]
      exact GoMap.lookup_delete _ _ key
    · rfl

theorem get_empty : KV.get {} = fun _ => none := by
  funext key
  exact GoMap.lookup_make key

theorem get_foldl_text (h : kv.Made) (commands : List Command) :
    ((commands.map Command.text).foldl (KV.applied Command.codec.unmarshal) kv).get =
      (commands.map Command.coerced).foldl Mapping.perform kv.get := by
  induction commands generalizing kv with
  | nil => rfl
  | cons c rest ih =>
    rw [List.map_cons, List.foldl_cons, List.map_cons, List.foldl_cons, ih (h.applied _),
      get_applied_text h]

end KV
end Phalanx
