import Phalanx.KeyValue.Table
import Phalanx.Storage.Store

/-! The store of `storage/store.go` over the bytes it writes. Badger is a map from byte
strings to byte strings that is iterated in bytewise order, and whose transactions happen
as a whole or not at all. What the calls are for is an indexed log beside a term and a
vote, and that is what can be read back after any calls in any order. -/
namespace Phalanx

open KeyValue

abbrev Bytes := List UInt8

abbrev DB := Table Bytes Bytes

/-- `json.Marshal` and `json.Unmarshal` of a log entry. -/
structure EntryCodec where
  marshal : LogEntry → Option Bytes
  unmarshal : Bytes → Option LogEntry

def LogEntry.Fits (e : LogEntry) : Prop := e.index < uint64Size ∧ e.term < uint64Size

instance (e : LogEntry) : Decidable e.Fits := inferInstanceAs (Decidable (_ ∧ _))

def EntryCodec.RoundTrips (codec : EntryCodec) : Prop :=
  ∀ e : LogEntry, e.Fits → ∃ data, codec.marshal e = some data ∧ codec.unmarshal data = some e

inductive Write where
  | saveState (term : Nat) (votedFor : Bytes)
  | appendEntries (entries : List LogEntry)
  | truncateFrom (startIndex : Nat)

def Write.Fits : Write → Prop
  | .saveState term _ => term < uint64Size
  | .appendEntries entries => ∀ e ∈ entries, e.Fits
  | .truncateFrom startIndex => startIndex < uint64Size

instance : (write : Write) → Decidable write.Fits
  | .saveState term _ => inferInstanceAs (Decidable (term < _))
  | .appendEntries entries => inferInstanceAs (Decidable (∀ e ∈ entries, _))
  | .truncateFrom startIndex => inferInstanceAs (Decidable (startIndex < _))

namespace DB

def keyTerm : Bytes := "m:term".toUTF8.data.toList

def keyVotedFor : Bytes := "m:vote".toUTF8.data.toList

def prefixLog : Bytes := "l:".toUTF8.data.toList

def logKey (index : Nat) : Bytes := prefixLog ++ bigEndian 8 index

def saveState (db : DB) (term : Nat) (votedFor : Bytes) : DB :=
  (db.set keyTerm (bigEndian 8 term)).set keyVotedFor votedFor

def loadState (db : DB) : Nat × Bytes :=
  let term := match db.get keyTerm with
    | some val => if val.length = 8 then ofBigEndian val else 0
    | none => 0
  (term, (db.get keyVotedFor).getD [])

variable (codec : EntryCodec)

def appendEntries (db : DB) (entries : List LogEntry) : Option DB :=
  entries.foldlM (fun txn entry => do
    let data ← codec.marshal entry
    pure (txn.set (logKey entry.index) data)) db

def loadLog (db : DB) : Option (List LogEntry) :=
  (db.scan prefixLog prefixLog).mapM fun item => codec.unmarshal item.2

/-- The iterator is that of the transaction, so it still finds what the loop has deleted. -/
def truncateFrom (db : DB) (startIndex : Nat) : DB :=
  ((db.scan prefixLog (logKey startIndex)).map Prod.fst).foldl Table.delete db

def perform (db : DB) : Write → Option DB
  | .saveState term votedFor => some (db.saveState term votedFor)
  | .appendEntries entries => db.appendEntries codec entries
  | .truncateFrom startIndex => some (db.truncateFrom startIndex)

def run (writes : List Write) : Option DB := writes.foldlM (perform codec) Table.empty

end DB

/-- A log as a map from indices to entries. -/
abbrev Ledger := Nat → Option LogEntry

namespace Ledger

def upsert (m : Ledger) (entry : LogEntry) : Ledger :=
  fun i => if i = entry.index then some entry else m i

def truncate (m : Ledger) (startIndex : Nat) : Ledger :=
  fun i => if startIndex ≤ i then none else m i

def apply (m : Ledger) : Write → Ledger
  | .saveState _ _ => m
  | .appendEntries entries => entries.foldl upsert m
  | .truncateFrom startIndex => m.truncate startIndex

def after (writes : List Write) : Ledger := writes.foldl apply fun _ => none

end Ledger

def Write.saved (state : Nat × Bytes) : Write → Nat × Bytes
  | .saveState term votedFor => (term, votedFor)
  | _ => state

def lastSaved (writes : List Write) : Nat × Bytes := writes.foldl Write.saved (0, [])

namespace DB

variable {codec : EntryCodec} {db : DB} {m : Ledger} {i j : Nat} {entry : LogEntry}

theorem logKey_begins (i : Nat) : prefixLog <+: logKey i := List.prefix_append _ _

theorem logKey_lt_iff (hi : i < uint64Size) (hj : j < uint64Size) :
    logKey i < logKey j ↔ i < j := by
  rw [logKey, logKey, append_lt_append]
  exact bigEndian_lt_iff hi hj

theorem logKey_inj (hi : i < uint64Size) (hj : j < uint64Size) : logKey i = logKey j ↔ i = j := by
  rw [logKey, logKey, List.append_cancel_left_eq]
  exact bigEndian_inj hi hj

theorem keyTerm_apart : ¬ prefixLog <+: keyTerm := by decide

theorem keyVotedFor_apart : ¬ prefixLog <+: keyVotedFor := by decide

/-- The stored entries are those of the log, each under the key of its index. -/
structure Keeps (codec : EntryCodec) (db : DB) (m : Ledger) : Prop where
  sound : ∀ b ∈ db.bindings, prefixLog <+: b.1 → ∃ e : LogEntry, e.index < uint64Size ∧
    b.1 = logKey e.index ∧ codec.unmarshal b.2 = some e ∧ m e.index = some e
  complete : ∀ i e, m i = some e → e.index = i ∧ i < uint64Size ∧
    ∃ b ∈ db.bindings, b.1 = logKey i ∧ codec.unmarshal b.2 = some e

theorem Keeps.empty : Keeps codec Table.empty fun _ => none where
  sound := fun _ hb => (by cases hb)
  complete := fun _ _ he => (by cases he)

theorem Keeps.set (h : Keeps codec db m) {key value : Bytes} (hkey : ¬ prefixLog <+: key) :
    Keeps codec (db.set key value) m where
  sound := by
    intro b hb hbegins
    rcases Table.mem_set.mp hb with rfl | ⟨hold, -⟩
    · exact absurd hbegins hkey
    · exact h.sound b hold hbegins
  complete := by
    intro i e he
    obtain ⟨hindex, hfits, b, hb, hbkey, hread⟩ := h.complete i e he
    refine ⟨hindex, hfits, b, Table.mem_set.mpr (.inr ⟨hb, fun heq => hkey ?_⟩), hbkey, hread⟩
    rw [← heq, hbkey]
    exact logKey_begins i

theorem Keeps.upsert (h : Keeps codec db m) (hfits : entry.index < uint64Size) {data : Bytes}
    (hread : codec.unmarshal data = some entry) :
    Keeps codec (db.set (logKey entry.index) data) (m.upsert entry) where
  sound := by
    intro b hb hbegins
    rcases Table.mem_set.mp hb with rfl | ⟨hold, hother⟩
    · exact ⟨entry, hfits, rfl, hread, if_pos rfl⟩
    · obtain ⟨e, he, hkey, hbread, hm⟩ := h.sound b hold hbegins
      have hne : e.index ≠ entry.index := fun heq => hother (by rw [hkey, heq])
      refine ⟨e, he, hkey, hbread, ?_⟩
      rw [Ledger.upsert, if_neg hne]
      exact hm
  complete := by
    intro i e he
    unfold Ledger.upsert at he
    split at he
    next heq =>
      cases he
      subst heq
      exact ⟨rfl, hfits, _, Table.mem_set.mpr (.inl rfl), rfl, hread⟩
    next hne =>
      obtain ⟨hindex, hi, b, hb, hkey, hbread⟩ := h.complete i e he
      refine ⟨hindex, hi, b, Table.mem_set.mpr (.inr ⟨hb, fun heq => hne ?_⟩), hkey, hbread⟩
      exact (logKey_inj hi hfits).mp (hkey.symm.trans heq)

theorem Keeps.appendEntries (hcodec : codec.RoundTrips) (h : Keeps codec db m)
    (entries : List LogEntry) (hfits : ∀ e ∈ entries, e.Fits) :
    ∃ db', db.appendEntries codec entries = some db' ∧
      Keeps codec db' (entries.foldl Ledger.upsert m) ∧ db'.loadState = db.loadState := by
  induction entries generalizing db m with
  | nil => exact ⟨db, rfl, h, rfl⟩
  | cons entry rest ih =>
    have hentry := hfits entry List.mem_cons_self
    obtain ⟨data, hmarshal, hread⟩ := hcodec entry hentry
    obtain ⟨db', hrest, hkeeps, hstate⟩ :=
      ih (h.upsert hentry.1 hread) fun e he => hfits e (List.mem_cons_of_mem entry he)
    refine ⟨db', ?_, hkeeps, hstate.trans ?_⟩
    · rw [DB.appendEntries, List.foldlM_cons, hmarshal]
      exact hrest
    · have hterm : keyTerm ≠ logKey entry.index := fun heq =>
        keyTerm_apart (heq ▸ logKey_begins entry.index)
      have hvote : keyVotedFor ≠ logKey entry.index := fun heq =>
        keyVotedFor_apart (heq ▸ logKey_begins entry.index)
      unfold loadState
      rw [Table.get_set_of_ne hterm, Table.get_set_of_ne hvote]

theorem mem_truncateFrom {b : Bytes × Bytes} :
    b ∈ (db.truncateFrom j).bindings ↔
      b ∈ db.bindings ∧ ¬ (logKey j ≤ b.1 ∧ prefixLog <+: b.1) := by
  unfold truncateFrom
  rw [Table.mem_foldl_delete]
  refine and_congr_right fun hb => not_congr ?_
  rw [List.mem_map]
  constructor
  · rintro ⟨b', hb', heq⟩
    rw [← heq]
    exact ((Table.mem_scan (logKey_begins j)).mp hb').2
  · exact fun hcut => ⟨b, (Table.mem_scan (logKey_begins j)).mpr ⟨hb, hcut⟩, rfl⟩

theorem Keeps.truncateFrom (h : Keeps codec db m) (hj : j < uint64Size) :
    Keeps codec (db.truncateFrom j) (m.truncate j) where
  sound := by
    intro b hb hbegins
    obtain ⟨hold, hkept⟩ := mem_truncateFrom.mp hb
    obtain ⟨e, he, hkey, hread, hm⟩ := h.sound b hold hbegins
    have hbefore : e.index < j := by
      rw [← logKey_lt_iff he hj, ← hkey]
      exact not_le.mp fun hle => hkept ⟨hle, hbegins⟩
    refine ⟨e, he, hkey, hread, ?_⟩
    rw [Ledger.truncate, if_neg (Nat.not_le_of_lt hbefore)]
    exact hm
  complete := by
    intro i e he
    unfold Ledger.truncate at he
    split at he
    · cases he
    next hbefore =>
      obtain ⟨hindex, hi, b, hb, hkey, hread⟩ := h.complete i e he
      refine ⟨hindex, hi, b, mem_truncateFrom.mpr ⟨hb, fun hcut => ?_⟩, hkey, hread⟩
      have hlt : logKey i < logKey j := (logKey_lt_iff hi hj).mpr (Nat.lt_of_not_le hbefore)
      exact absurd (hkey ▸ hcut.1) (not_le.mpr hlt)

theorem loadState_truncateFrom (db : DB) (j : Nat) :
    (db.truncateFrom j).loadState = db.loadState := by
  have hget : ∀ key, ¬ prefixLog <+: key → (db.truncateFrom j).get key = db.get key := by
    intro key hkey
    apply Table.get_congr
    intro value
    rw [mem_truncateFrom]
    exact ⟨And.left, fun hb => ⟨hb, fun hcut => hkey hcut.2⟩⟩
  unfold loadState
  rw [hget _ keyTerm_apart, hget _ keyVotedFor_apart]

theorem loadState_saveState (db : DB) {term : Nat} (hterm : term < uint64Size)
    (votedFor : Bytes) : (db.saveState term votedFor).loadState = (term, votedFor) := by
  have hne : keyTerm ≠ keyVotedFor := by decide
  unfold loadState saveState
  rw [Table.get_set_of_ne hne, Table.get_set_self, Table.get_set_self]
  simp only [length_bigEndian, if_true, Option.getD_some, ofBigEndian_bigEndian]
  rw [Nat.mod_eq_of_lt (by exact hterm)]

theorem loadLog_saveState (codec : EntryCodec) (db : DB) (term : Nat) (votedFor : Bytes) :
    (db.saveState term votedFor).loadLog codec = db.loadLog codec := by
  have hself : prefixLog <+: prefixLog := List.prefix_refl _
  unfold loadLog saveState
  rw [Table.scan_set_of_other hself keyVotedFor_apart, Table.scan_set_of_other hself keyTerm_apart]

theorem Keeps.perform (hcodec : codec.RoundTrips) (h : Keeps codec db m) (write : Write)
    (hfits : write.Fits) :
    ∃ db', db.perform codec write = some db' ∧ Keeps codec db' (m.apply write) ∧
      db'.loadState = write.saved db.loadState := by
  cases write with
  | saveState term votedFor =>
    exact ⟨_, rfl, (h.set keyTerm_apart).set keyVotedFor_apart,
      loadState_saveState db hfits votedFor⟩
  | appendEntries entries => exact h.appendEntries hcodec entries hfits
  | truncateFrom startIndex =>
    exact ⟨_, rfl, h.truncateFrom hfits, loadState_truncateFrom db startIndex⟩

theorem Keeps.run (hcodec : codec.RoundTrips) (writes : List Write)
    (hfits : ∀ write ∈ writes, write.Fits) :
    ∃ db, run codec writes = some db ∧ Keeps codec db (Ledger.after writes) ∧
      db.loadState = lastSaved writes := by
  have hfrom : ∀ (writes : List Write) (db : DB) (m : Ledger), Keeps codec db m →
      (∀ write ∈ writes, write.Fits) → ∃ db', writes.foldlM (DB.perform codec) db = some db' ∧
        Keeps codec db' (writes.foldl Ledger.apply m) ∧
        db'.loadState = writes.foldl Write.saved db.loadState := by
    intro writes
    induction writes with
    | nil => exact fun db m h _ => ⟨db, rfl, h, rfl⟩
    | cons write rest ih =>
      intro db m h hall
      obtain ⟨db₁, hperform, hkeeps, hstate⟩ :=
        h.perform hcodec write (hall write List.mem_cons_self)
      obtain ⟨db', hrest, hkeeps', hstate'⟩ :=
        ih db₁ _ hkeeps fun w hw => hall w (List.mem_cons_of_mem write hw)
      refine ⟨db', ?_, hkeeps', ?_⟩
      · rw [List.foldlM_cons, hperform]
        exact hrest
      · rw [hstate', hstate]
        rfl
  exact hfrom writes Table.empty _ .empty hfits

/-- Reading values in the order of their keys gives entries in the order of their indices. -/
theorem read_all {l : List (Bytes × Bytes)} (hsorted : l.Pairwise fun a b => a.1 < b.1)
    (hread : ∀ b ∈ l, ∃ e : LogEntry, e.index < uint64Size ∧ b.1 = logKey e.index ∧
      codec.unmarshal b.2 = some e) :
    ∃ entries, l.mapM (fun b => codec.unmarshal b.2) = some entries ∧
      (entries.Pairwise fun a b => a.index < b.index) ∧
      ∀ e, e ∈ entries ↔ ∃ b ∈ l, codec.unmarshal b.2 = some e := by
  induction l with
  | nil => exact ⟨[], rfl, .nil, by simp⟩
  | cons b rest ih =>
    obtain ⟨hfirst, hrest⟩ := List.pairwise_cons.mp hsorted
    obtain ⟨e, he, hkey, hbread⟩ := hread b List.mem_cons_self
    obtain ⟨entries, hmap, hinc, hmem⟩ :=
      ih hrest fun b' hb' => hread b' (List.mem_cons_of_mem b hb')
    refine ⟨e :: entries, ?_, List.pairwise_cons.mpr ⟨fun e' he' => ?_, hinc⟩, fun e' => ?_⟩
    · rw [List.mapM_cons, hbread, hmap]
      rfl
    · obtain ⟨b', hb', hread'⟩ := (hmem e').mp he'
      obtain ⟨e'', hfits, hkey', hread''⟩ := hread b' (List.mem_cons_of_mem b hb')
      cases hread'.symm.trans hread''
      rw [← logKey_lt_iff he hfits, ← hkey, ← hkey']
      exact hfirst b' hb'
    · rw [List.mem_cons, hmem]
      constructor
      · rintro (rfl | ⟨b', hb', hread'⟩)
        · exact ⟨b, List.mem_cons_self, hbread⟩
        · exact ⟨b', List.mem_cons_of_mem b hb', hread'⟩
      · rintro ⟨b', hb', hread'⟩
        rcases List.mem_cons.mp hb' with rfl | hb'
        · exact .inl (Option.some.inj (hread'.symm.trans hbread))
        · exact .inr ⟨b', hb', hread'⟩

theorem Keeps.loadLog (h : Keeps codec db m) :
    ∃ entries, db.loadLog codec = some entries ∧
      (entries.Pairwise fun a b => a.index < b.index) ∧
      ∀ i e, m i = some e ↔ e ∈ entries ∧ e.index = i := by
  have hscan : ∀ b, b ∈ db.scan prefixLog prefixLog ↔ b ∈ db.bindings ∧ prefixLog <+: b.1 := by
    intro b
    rw [Table.mem_scan (List.prefix_refl _)]
    exact and_congr_right fun _ => and_iff_right_of_imp le_of_isPrefix
  obtain ⟨entries, hmap, hinc, hmem⟩ := read_all Table.scan_sorted fun b hb => by
    obtain ⟨hold, hbegins⟩ := (hscan b).mp hb
    obtain ⟨e, he, hkey, hread, -⟩ := h.sound b hold hbegins
    exact ⟨e, he, hkey, hread⟩
  refine ⟨entries, hmap, hinc, fun i e => ?_⟩
  rw [hmem]
  constructor
  · intro he
    obtain ⟨hindex, -, b, hb, hkey, hread⟩ := h.complete i e he
    exact ⟨⟨b, (hscan b).mpr ⟨hb, hkey ▸ logKey_begins i⟩, hread⟩, hindex⟩
  · rintro ⟨⟨b, hb, hread⟩, rfl⟩
    obtain ⟨hold, hbegins⟩ := (hscan b).mp hb
    obtain ⟨e', -, -, hread', hm⟩ := h.sound b hold hbegins
    cases hread.symm.trans hread'
    exact hm

end DB

/-- After any calls the log reads back as the indexed log they describe, in index order, and
the state as it was saved last. -/
theorem store_refines_ledger (codec : EntryCodec) (hcodec : codec.RoundTrips)
    (writes : List Write) (hfits : ∀ write ∈ writes, write.Fits) :
    ∃ db entries, DB.run codec writes = some db ∧ db.loadState = lastSaved writes ∧
      db.loadLog codec = some entries ∧ (entries.Pairwise fun a b => a.index < b.index) ∧
      ∀ i e, Ledger.after writes i = some e ↔ e ∈ entries ∧ e.index = i := by
  obtain ⟨db, hrun, hkeeps, hstate⟩ := DB.Keeps.run hcodec writes hfits
  obtain ⟨entries, hload, hinc, hmem⟩ := hkeeps.loadLog
  exact ⟨db, entries, hrun, hstate, hload, hinc, hmem⟩

namespace Store

variable {codec : EntryCodec} {db : DB} {s : Store}

structure Reads (codec : EntryCodec) (db : DB) (s : Store) : Prop where
  state : db.loadState = (s.term, s.votedFor.toUTF8.data.toList)
  log : db.loadLog codec = some s.log

theorem Reads.empty (codec : EntryCodec) : Reads codec Table.empty {} := ⟨rfl, rfl⟩

theorem Reads.saveState (h : Reads codec db s) {term : Nat} (hterm : term < uint64Size)
    (votedFor : String) :
    Reads codec (db.saveState term votedFor.toUTF8.data.toList) (s.saveState term votedFor) where
  state := DB.loadState_saveState db hterm _
  log := (DB.loadLog_saveState codec db term _).trans h.log

end Store
end Phalanx
