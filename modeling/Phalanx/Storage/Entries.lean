import Phalanx.Pb
import Phalanx.Storage.Badger

/-! Log entries as JSON, on disk and on the wire. The Raft core keeps a payload that is empty
and one that is nil as the same value; `Clone` writes both as null. -/
namespace Phalanx

open Go

def EntryType.code : EntryType → UInt8
  | .command => Pb.entryCommand
  | .configChange => Pb.entryConfigChange

/-- The Raft core and the node only ask whether an entry is a command. -/
def EntryType.ofCode (code : UInt8) : EntryType :=
  if code = Pb.entryCommand then .command else .configChange

def LogEntry.clone (e : LogEntry) : Pb.LogEntry where
  index := .ofNat e.index
  term := .ofNat e.term
  data := if e.data = [] then none else some e.data
  type := e.type.code

def Pb.LogEntry.held (e : Pb.LogEntry) : Phalanx.LogEntry where
  index := e.index.toNat
  term := e.term.toNat
  data := e.data.getD []
  type := .ofCode e.type

theorem toNat_ofNat_uint64 {n : Nat} (h : n < uint64Size) : (UInt64.ofNat n).toNat = n :=
  UInt64.toNat_ofNat_of_lt h

theorem LogEntry.held_clone {e : LogEntry} (h : e.Fits) : e.clone.held = e := by
  obtain ⟨index, term, data, type⟩ := e
  simp only [LogEntry.clone, Pb.LogEntry.held, toNat_ofNat_uint64 h.1, toNat_ofNat_uint64 h.2]
  congr 1
  · split
    next hempty => exact hempty.symm
    next => rfl
  · cases type <;> rfl

def jsonEntries : EntryCodec where
  marshal := fun e => some (Pb.Codec.logEntry.marshal e.clone)
  unmarshal := fun text => (Pb.Codec.logEntry.unmarshal text).map Pb.LogEntry.held

theorem jsonEntries_roundTrips : jsonEntries.RoundTrips := by
  intro e he
  refine ⟨_, rfl, ?_⟩
  have hback := Pb.Codec.logEntry.unmarshal_marshal e.clone
  simp only [jsonEntries, hback, Option.map_some]
  exact congrArg some (LogEntry.held_clone he)

/-- Entries out of order and twice, a cut in between, and a vote, all as JSON. -/
theorem store_refines_ledger_overlap :
    ∃ db entries, DB.run jsonEntries
        [.appendEntries [⟨3, 1, [], .command⟩, ⟨1, 1, [], .command⟩, ⟨2, 1, [], .command⟩],
          .saveState 2 [98], .truncateFrom 2,
          .appendEntries [⟨2, 1, [], .command⟩, ⟨2, 2, [7], .command⟩]] = some db ∧
      db.loadState = (2, [98]) ∧ db.loadLog jsonEntries = some entries ∧
      (entries.Pairwise fun a b => a.index < b.index) ∧
      (∀ e, e ∈ entries → e.index ≠ 3) ∧ ⟨2, 2, [7], .command⟩ ∈ entries := by
  obtain ⟨db, entries, hrun, hstate, hload, hinc, hmem⟩ := store_refines_ledger jsonEntries
    jsonEntries_roundTrips
    [.appendEntries [⟨3, 1, [], .command⟩, ⟨1, 1, [], .command⟩, ⟨2, 1, [], .command⟩],
      .saveState 2 [98], .truncateFrom 2,
      .appendEntries [⟨2, 1, [], .command⟩, ⟨2, 2, [7], .command⟩]] (by decide)
  refine ⟨db, entries, hrun, hstate, hload, hinc, fun e he hindex => ?_, ?_⟩
  · have hgone := (hmem 3 e).mpr ⟨he, hindex⟩
    exact absurd hgone nofun
  · exact ((hmem 2 _).mp rfl).1

end Phalanx
