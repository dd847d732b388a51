import Mathlib.Data.Finmap
import Mathlib.Data.Finset.Card

/-! Go maps. A nil map reads as empty and faults when it is written; a made map
is a finite map, compared by its contents since Go gives it no order. `lookup` is
the comma-ok read and `read` the plain one, where a missing key yields the zero
value. -/
namespace Phalanx.Go

structure GoMap (κ ν : Type) where
  table : Option (Finmap fun _ : κ => ν)

namespace GoMap

variable {κ ν : Type}

def nil : GoMap κ ν := ⟨none⟩

def make : GoMap κ ν := ⟨some ∅⟩

variable [DecidableEq κ]

def lookup (m : GoMap κ ν) (key : κ) : Option ν :=
  m.table.bind fun table => table.lookup key

def read [Inhabited ν] (m : GoMap κ ν) (key : κ) : ν :=
  (m.lookup key).getD default

/-- Assignment to an element; `none` is the panic of a write to a nil map. -/
def write (m : GoMap κ ν) (key : κ) (value : ν) : Option (GoMap κ ν) :=
  m.table.map fun table => ⟨some (table.insert key value)⟩

def delete (m : GoMap κ ν) (key : κ) : GoMap κ ν :=
  ⟨m.table.map fun table => table.erase key⟩

def trueKeys (m : GoMap κ Bool) : Finset κ :=
  match m.table with
  | none => ∅
  | some table => table.keys.filter fun key => table.lookup key = some true

@[simp] theorem lookup_nil (key : κ) : (nil : GoMap κ ν).lookup key = none := rfl

@[simp] theorem lookup_make (key : κ) : (make : GoMap κ ν).lookup key = none := by
  simp [make, lookup]

@[simp] theorem read_make [Inhabited ν] (key : κ) :
    (make : GoMap κ ν).read key = default := by
  simp [read]

theorem write_make (key : κ) (value : ν) :
    (make : GoMap κ ν).write key value = some ⟨some (Finmap.insert key value ∅)⟩ := rfl

theorem lookup_write {m m' : GoMap κ ν} {key : κ} {value : ν}
    (h : m.write key value = some m') (other : κ) :
    m'.lookup other = if other = key then some value else m.lookup other := by
  obtain ⟨table, htable, rfl⟩ := Option.map_eq_some_iff.mp h
  simp only [lookup, htable, Option.bind_some]
  split
  next heq => subst heq; exact Finmap.lookup_insert table
  next hne => exact Finmap.lookup_insert_of_ne table hne

theorem read_write [Inhabited ν] {m m' : GoMap κ ν} {key : κ} {value : ν}
    (h : m.write key value = some m') (other : κ) :
    m'.read other = if other = key then value else m.read other := by
  simp only [read, lookup_write h]
  split <;> simp

theorem write_of_made {m : GoMap κ ν} (h : m.table.isSome = true) (key : κ) (value : ν) :
    ∃ m', m.write key value = some m' ∧ m'.table.isSome = true := by
  obtain ⟨table, htable⟩ := Option.isSome_iff_exists.mp h
  exact ⟨_, by rw [write, htable, Option.map_some], rfl⟩

@[simp] theorem lookup_delete (m : GoMap κ ν) (key other : κ) :
    (m.delete key).lookup other = if other = key then none else m.lookup other := by
  cases htable : m.table with
  | none => simp [lookup, delete, htable]
  | some table =>
    simp only [lookup, delete, htable, Option.map_some, Option.bind_some]
    split
    next heq => subst heq; exact Finmap.lookup_erase other table
    next hne => exact Finmap.lookup_erase_ne hne

@[simp] theorem mem_trueKeys {m : GoMap κ Bool} {key : κ} :
    key ∈ m.trueKeys ↔ m.lookup key = some true := by
  cases htable : m.table with
  | none => simp [trueKeys, lookup, htable]
  | some table =>
    simp only [trueKeys, lookup, htable, Finset.mem_filter, Finmap.mem_keys, Option.bind_some,
      and_iff_right_iff_imp]
    intro hlookup
    exact Finmap.mem_of_lookup_eq_some hlookup

end GoMap
end Phalanx.Go
