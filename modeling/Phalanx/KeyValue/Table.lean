import Mathlib.Data.List.Pairwise
import Mathlib.Data.List.Sort
import Phalanx.KeyValue.Bytes

/-! Finite maps kept as the list of their bindings in key order, so that an iterator is a
piece of that list. -/
namespace Phalanx.KeyValue

structure Table (κ ν : Type) [LT κ] where
  bindings : List (κ × ν)
  sorted : bindings.Pairwise fun a b => a.1 < b.1

namespace Table

section Ordered

variable {κ ν : Type} [LinearOrder κ] {t : Table κ ν} {key : κ} {value : ν} {b : κ × ν}

def empty : Table κ ν := ⟨[], .nil⟩

def put (key : κ) (value : ν) : List (κ × ν) → List (κ × ν)
  | [] => [(key, value)]
  | b :: rest =>
    if key < b.1 then (key, value) :: b :: rest
    else if key = b.1 then (key, value) :: rest
    else b :: put key value rest

theorem mem_put {l : List (κ × ν)} (hsorted : l.Pairwise fun a b => a.1 < b.1) :
    b ∈ put key value l ↔ b = (key, value) ∨ b ∈ l ∧ b.1 ≠ key := by
  induction l with
  | nil => simp [put]
  | cons a rest ih =>
    obtain ⟨hfirst, hrest⟩ := List.pairwise_cons.mp hsorted
    rw [put]
    split
    next hlt =>
      have hother : ∀ b ∈ a :: rest, b.1 ≠ key := by
        intro b hb
        rcases List.mem_cons.mp hb with rfl | hb
        · exact hlt.ne'
        · exact (hlt.trans (hfirst b hb)).ne'
      rw [List.mem_cons]
      exact or_congr_right ⟨fun hb => ⟨hb, hother b hb⟩, And.left⟩
    next hge =>
      split
      next heq =>
        subst heq
        rw [List.mem_cons, List.mem_cons]
        refine or_congr_right ⟨fun hb => ⟨.inr hb, (hfirst b hb).ne'⟩, ?_⟩
        rintro ⟨rfl | hb, hne⟩
        · exact absurd rfl hne
        · exact hb
      next hne =>
        rw [List.mem_cons, ih hrest, List.mem_cons]
        constructor
        · rintro (rfl | rfl | ⟨hb, hkey⟩)
          · exact .inr ⟨.inl rfl, fun heq => hne heq.symm⟩
          · exact .inl rfl
          · exact .inr ⟨.inr hb, hkey⟩
        · rintro (rfl | ⟨rfl | hb, hkey⟩)
          · exact .inr (.inl rfl)
          · exact .inl rfl
          · exact .inr (.inr ⟨hb, hkey⟩)

theorem put_sorted {l : List (κ × ν)} (hsorted : l.Pairwise fun a b => a.1 < b.1) :
    (put key value l).Pairwise fun a b => a.1 < b.1 := by
  induction l with
  | nil => exact List.pairwise_singleton _ _
  | cons a rest ih =>
    obtain ⟨hfirst, hrest⟩ := List.pairwise_cons.mp hsorted
    rw [put]
    split
    next hlt =>
      refine List.pairwise_cons.mpr ⟨fun b hb => ?_, hsorted⟩
      rcases List.mem_cons.mp hb with rfl | hb
      · exact hlt
      · exact hlt.trans (hfirst b hb)
    next hge =>
      split
      next heq => exact List.pairwise_cons.mpr ⟨fun b hb => heq ▸ hfirst b hb, hrest⟩
      next hne =>
        refine List.pairwise_cons.mpr ⟨fun b hb => ?_, ih hrest⟩
        rcases (mem_put hrest).mp hb with rfl | ⟨hb, -⟩
        · exact lt_of_le_of_ne (not_lt.mp hge) (Ne.symm hne)
        · exact hfirst b hb

def set (t : Table κ ν) (key : κ) (value : ν) : Table κ ν :=
  ⟨put key value t.bindings, put_sorted t.sorted⟩

def delete (t : Table κ ν) (key : κ) : Table κ ν :=
  ⟨t.bindings.filter fun b => b.1 ≠ key, t.sorted.sublist List.filter_sublist⟩

def get (t : Table κ ν) (key : κ) : Option ν :=
  (t.bindings.find? fun b => b.1 = key).map Prod.snd

/-- The bindings that an iterator finds from `key` on. -/
def seek (t : Table κ ν) (key : κ) : List (κ × ν) := t.bindings.dropWhile fun b => b.1 < key

theorem mem_set : b ∈ (t.set key value).bindings ↔
    b = (key, value) ∨ b ∈ t.bindings ∧ b.1 ≠ key := mem_put t.sorted

theorem mem_delete : b ∈ (t.delete key).bindings ↔ b ∈ t.bindings ∧ b.1 ≠ key := by
  simp [delete]

theorem mem_foldl_delete {keys : List κ} :
    b ∈ (keys.foldl delete t).bindings ↔ b ∈ t.bindings ∧ b.1 ∉ keys := by
  induction keys generalizing t with
  | nil => simp
  | cons key keys ih =>
    rw [List.foldl_cons, ih, mem_delete, List.mem_cons, not_or, and_assoc]

theorem get_eq_some : t.get key = some value ↔ (key, value) ∈ t.bindings := by
  unfold get
  rw [Option.map_eq_some_iff]
  constructor
  · rintro ⟨⟨k, v⟩, hfind, rfl⟩
    obtain rfl : k = key := by simpa using List.find?_some hfind
    exact List.mem_of_find?_eq_some hfind
  · intro hmem
    cases hfind : t.bindings.find? fun b => decide (b.1 = key) with
    | none => exact absurd (List.find?_eq_none.mp hfind _ hmem) (by simp)
    | some b =>
      obtain ⟨k, v⟩ := b
      obtain rfl : k = key := by simpa using List.find?_some hfind
      -- a sorted list has no second binding of a key
      have hsymm : Std.Symm fun a b : κ × ν => a.1 ≠ b.1 := ⟨fun _ _ h => Ne.symm h⟩
      have hdistinct : t.bindings.Pairwise fun a b => a.1 ≠ b.1 := t.sorted.imp fun h => h.ne
      have hunique : (k, v) = (k, value) := by
        by_contra hne
        exact hdistinct.forall (List.mem_of_find?_eq_some hfind) hmem hne rfl
      exact ⟨(k, v), rfl, congrArg Prod.snd hunique⟩

theorem get_congr {t' : Table κ ν}
    (h : ∀ value, (key, value) ∈ t'.bindings ↔ (key, value) ∈ t.bindings) :
    t'.get key = t.get key := by
  apply Option.ext
  intro value
  rw [get_eq_some, get_eq_some, h]

@[simp] theorem get_set_self : (t.set key value).get key = some value :=
  get_eq_some.mpr (mem_set.mpr (.inl rfl))

theorem get_set_of_ne {key' : κ} (hne : key' ≠ key) : (t.set key value).get key' = t.get key' := by
  apply get_congr
  intro value'
  rw [mem_set]
  constructor
  · rintro (heq | ⟨hmem, -⟩)
    · exact absurd (congrArg Prod.fst heq) hne
    · exact hmem
  · exact fun hmem => .inr ⟨hmem, hne⟩

theorem mem_dropWhile {l : List (κ × ν)} (hsorted : l.Pairwise fun a b => a.1 < b.1) :
    b ∈ l.dropWhile (fun b => b.1 < key) ↔ b ∈ l ∧ key ≤ b.1 := by
  induction l with
  | nil => simp
  | cons a rest ih =>
    obtain ⟨hfirst, hrest⟩ := List.pairwise_cons.mp hsorted
    by_cases hlt : a.1 < key
    · rw [List.dropWhile_cons_of_pos (by simpa using hlt), ih hrest, List.mem_cons]
      constructor
      · exact fun ⟨hb, hle⟩ => ⟨.inr hb, hle⟩
      · rintro ⟨rfl | hb, hle⟩
        · exact absurd hlt (not_lt.mpr hle)
        · exact ⟨hb, hle⟩
    · rw [List.dropWhile_cons_of_neg (by simpa using hlt)]
      refine ⟨fun hb => ⟨hb, ?_⟩, And.left⟩
      rcases List.mem_cons.mp hb with rfl | hb
      · exact not_lt.mp hlt
      · exact (not_lt.mp hlt).trans (hfirst b hb).le

theorem mem_seek : b ∈ t.seek key ↔ b ∈ t.bindings ∧ key ≤ b.1 := mem_dropWhile t.sorted

theorem seek_sorted : (t.seek key).Pairwise fun a b => a.1 < b.1 :=
  t.sorted.sublist (List.dropWhile_sublist _)

end Ordered

section Scans

variable {α ν : Type} [LinearOrder α] {t t' : Table (List α) ν} {start : List α}
  {b : List α × ν}

/-- What an iterator finds from `key` on, as long as the keys begin with `start`. -/
def scan (t : Table (List α) ν) (start key : List α) : List (List α × ν) :=
  (t.seek key).takeWhile fun b => start.isPrefixOf b.1

theorem mem_scan {key : List α} (hkey : start <+: key) :
    b ∈ t.scan start key ↔ b ∈ t.bindings ∧ key ≤ b.1 ∧ start <+: b.1 := by
  have htake : ∀ l : List (List α × ν), l.Pairwise (fun a b => a.1 < b.1) →
      (∀ b ∈ l, start ≤ b.1) → (b ∈ l.takeWhile (fun b => start.isPrefixOf b.1) ↔
        b ∈ l ∧ start <+: b.1) := by
    intro l
    induction l with
    | nil => simp
    | cons a rest ih =>
      intro hsorted hafter
      obtain ⟨hfirst, hrest⟩ := List.pairwise_cons.mp hsorted
      by_cases hstart : start <+: a.1
      · rw [List.takeWhile_cons_of_pos (p := fun b : List α × ν => start.isPrefixOf b.1)
          (List.isPrefixOf_iff_prefix.mpr hstart), List.mem_cons,
          ih hrest fun b hb => hafter b (List.mem_cons_of_mem a hb), List.mem_cons]
        constructor
        · rintro (rfl | ⟨hb, hbegins⟩)
          · exact ⟨.inl rfl, hstart⟩
          · exact ⟨.inr hb, hbegins⟩
        · rintro ⟨rfl | hb, hbegins⟩
          · exact .inl rfl
          · exact .inr ⟨hb, hbegins⟩
      · rw [List.takeWhile_cons_of_neg (p := fun b : List α × ν => start.isPrefixOf b.1)
          (mt List.isPrefixOf_iff_prefix.mp hstart)]
        -- once the keys have left the interval they stay outside
        refine ⟨nofun, fun ⟨hb, hbegins⟩ => absurd ?_ hstart⟩
        have hle : a.1 ≤ b.1 := by
          rcases List.mem_cons.mp hb with rfl | hb
          · exact le_rfl
          · exact (hfirst b hb).le
        exact isPrefix_of_between hbegins (hafter a List.mem_cons_self) hle
  unfold scan
  rw [htake _ seek_sorted fun b hb => (le_of_isPrefix hkey).trans (mem_seek.mp hb).2, mem_seek,
    and_assoc]

theorem scan_sorted {key : List α} : (t.scan start key).Pairwise fun a b => a.1 < b.1 :=
  seek_sorted.sublist (List.takeWhile_sublist _)

theorem scan_congr {key : List α} (hkey : start <+: key)
    (h : ∀ b, start <+: b.1 → (b ∈ t'.bindings ↔ b ∈ t.bindings)) :
    t'.scan start key = t.scan start key := by
  have hirrefl : Std.Irrefl fun a b : List α × ν => a.1 < b.1 := ⟨fun _ => lt_irrefl _⟩
  have hantisymm : Std.Antisymm fun a b : List α × ν => a.1 < b.1 :=
    ⟨fun _ _ hab hba => absurd hba (lt_asymm hab)⟩
  refine List.Pairwise.eq_of_mem_iff scan_sorted scan_sorted fun {b} => ?_
  rw [mem_scan hkey, mem_scan hkey]
  constructor
  · exact fun ⟨hb, hle, hbegins⟩ => ⟨(h b hbegins).mp hb, hle, hbegins⟩
  · exact fun ⟨hb, hle, hbegins⟩ => ⟨(h b hbegins).mpr hb, hle, hbegins⟩

theorem scan_set_of_other {key key' : List α} {value : ν} (hkey : start <+: key)
    (hother : ¬ start <+: key') : (t.set key' value).scan start key = t.scan start key := by
  apply scan_congr hkey
  intro b hb
  rw [mem_set]
  constructor
  · rintro (rfl | ⟨hmem, -⟩)
    · exact absurd hb hother
    · exact hmem
  · exact fun hmem => .inr ⟨hmem, fun heq => hother (heq ▸ hb)⟩

end Scans
end Table
end Phalanx.KeyValue
