import Phalanx.Go.Map

/-! The key-value state machine of `kv.go`. A Go string is a list of bytes. The
JSON decoder is a parameter: every function here takes what `json.Unmarshal`
makes of a payload as its first argument. -/
namespace Phalanx

open Go

abbrev GoString := List UInt8

def opSet : GoString := [0x53, 0x45, 0x54]

def opDelete : GoString := [0x44, 0x45, 0x4C, 0x45, 0x54, 0x45]

structure Command where
  op : GoString
  key : GoString
  value : GoString := []
deriving DecidableEq

inductive ApplyError where
  | decodeCommand
  | unknownOp (op : GoString)
deriving DecidableEq

structure KV where
  data : GoMap GoString GoString := .make

namespace KV

variable (unmarshal : List UInt8 → Option Command)

def apply (kv : KV) (data : List UInt8) : Except ApplyError KV :=
  if data = [] then .ok kv
  else match unmarshal data with
    | none => .error .decodeCommand
    | some cmd =>
      if cmd.op = opSet then
        -- `NewKV` makes the map, so the write does not fault.
        .ok ⟨(kv.data.write cmd.key cmd.value).getD kv.data⟩
      else if cmd.op = opDelete then .ok ⟨kv.data.delete cmd.key⟩
      else .error (.unknownOp cmd.op)

/-- `Apply` as its caller sees it: an error is logged and leaves the map alone. -/
def applied (kv : KV) (data : List UInt8) : KV := (kv.apply unmarshal data).toOption.getD kv

def get (kv : KV) (key : GoString) : Option GoString := kv.data.lookup key

end KV
end Phalanx
