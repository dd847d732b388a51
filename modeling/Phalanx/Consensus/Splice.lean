import Mathlib.Data.List.Infix

/-! Logs as lists with a key on each entry. `splice` is the follower's rule for
entries it is sent: skip those whose keys it already has, cut at the first
difference, append the rest. Where equal keys at a position mean equal entries,
the rule keeps the local log or adopts the sent one, and nothing in between. -/
namespace Phalanx.Consensus

variable {ε : Type} {key : ε → Nat}

def splice (key : ε → Nat) : List ε → List ε → List ε
  | kept, [] => kept
  | [], sent => sent
  | a :: kept, b :: sent => if key a = key b then a :: splice key kept sent else b :: sent

@[simp] theorem splice_nil (kept : List ε) : splice key kept [] = kept := by
  cases kept <;> rfl

def Diverge (l m : List ε) : Prop :=
  ∃ (k : Nat) (a b : ε), l[k]? = some a ∧ m[k]? = some b ∧ a ≠ b

def Keyed (key : ε → Nat) (l m : List ε) : Prop :=
  ∀ (k : Nat) (a b : ε), l[k]? = some a → m[k]? = some b → key a = key b → a = b

theorem getElem?_of_isPrefix {l m : List ε} (h : l <+: m) {k : Nat} {a : ε} (ha : l[k]? = some a) :
    m[k]? = some a := by
  obtain ⟨rest, rfl⟩ := h
  have hk : k < l.length := (List.getElem?_eq_some_iff.mp ha).1
  rw [List.getElem?_append_left hk]
  exact ha

theorem take_eq_of_isPrefix {l m : List ε} (h : l <+: m) {n : Nat} (hn : n ≤ l.length) :
    m.take n = l.take n := by
  obtain ⟨rest, rfl⟩ := h
  exact List.take_append_of_le_length hn

theorem take_isPrefix_take {l m : List ε} {n k : Nat} (h : l.take n <+: m) (hn : n ≤ k) :
    l.take n <+: m.take k := by
  rw [List.prefix_take_iff]
  exact ⟨h, (List.length_take_le n l).trans hn⟩

theorem Diverge.mono {l l' m m' : List ε} (hl : l <+: l') (hm : m <+: m') (h : Diverge l m) :
    Diverge l' m' := by
  obtain ⟨k, a, b, ha, hb, hne⟩ := h
  exact ⟨k, a, b, getElem?_of_isPrefix hl ha, getElem?_of_isPrefix hm hb, hne⟩

theorem not_diverge_of_isPrefix {l m : List ε} (h : l <+: m) : ¬ Diverge l m := by
  rintro ⟨k, a, b, ha, hb, hne⟩
  have := getElem?_of_isPrefix h ha
  exact hne (Option.some.inj (this.symm.trans hb))

theorem prefix_or_diverge (l m : List ε) : l <+: m ∨ m <+: l ∨ Diverge l m := by
  induction l generalizing m with
  | nil => exact .inl List.nil_prefix
  | cons a l ih =>
    cases m with
    | nil => exact .inr (.inl List.nil_prefix)
    | cons b m =>
      by_cases hab : a = b
      · subst hab
        rcases ih m with h | h | ⟨k, x, y, hx, hy, hne⟩
        · exact .inl (List.cons_prefix_cons.mpr ⟨rfl, h⟩)
        · exact .inr (.inl (List.cons_prefix_cons.mpr ⟨rfl, h⟩))
        · exact .inr (.inr ⟨k + 1, x, y, by simpa using hx, by simpa using hy, hne⟩)
      · exact .inr (.inr ⟨0, a, b, rfl, rfl, hab⟩)

theorem splice_eq {l m : List ε} (hkeyed : Keyed key l m) :
    (m <+: l ∧ splice key l m = l) ∨ (¬ m <+: l ∧ splice key l m = m) := by
  induction l generalizing m with
  | nil =>
    cases m with
    | nil => exact .inl ⟨List.nil_prefix, rfl⟩
    | cons b m => exact .inr ⟨by simp, rfl⟩
  | cons a l ih =>
    cases m with
    | nil => exact .inl ⟨List.nil_prefix, rfl⟩
    | cons b m =>
      have htail : Keyed key l m := by
        intro k x y hx hy hxy
        exact hkeyed (k + 1) x y (by simpa using hx) (by simpa using hy) hxy
      by_cases hab : key a = key b
      · have heq : a = b := hkeyed 0 a b rfl rfl hab
        subst heq
        simp only [splice, if_true, List.cons_prefix_cons, true_and, List.cons.injEq]
        exact ih htail
      · refine .inr ⟨?_, by simp [splice, hab]⟩
        intro hcons
        exact hab (by rw [(List.cons_prefix_cons.mp hcons).1])

theorem splice_cut (key : ε → Nat) (l m : List ε) :
    splice key l m = l ∨ ∃ k, k ≤ l.length ∧ k < m.length ∧
      (∀ (j : Nat) (a b : ε), j < k → l[j]? = some a → m[j]? = some b → key a = key b) ∧
      splice key l m = l.take k ++ m.drop k := by
  induction l generalizing m with
  | nil =>
    cases m with
    | nil => exact .inl rfl
    | cons b m => exact .inr ⟨0, by simp [splice]⟩
  | cons a l ih =>
    cases m with
    | nil => exact .inl rfl
    | cons b m =>
      by_cases hab : key a = key b
      · simp only [splice, if_pos hab]
        rcases ih m with hsame | ⟨k, hl, hm, hagree, hcut⟩
        · exact .inl (by rw [hsame])
        · refine .inr ⟨k + 1, by simpa using hl, by simpa using hm, ?_, by simp [hcut]⟩
          intro j x y hj hx hy
          cases j with
          | zero =>
            cases hx
            cases hy
            exact hab
          | succ j => exact hagree j x y (by omega) hx hy
      · exact .inr ⟨0, by simp [splice, hab]⟩

theorem splice_key {l m : List ε} {j : Nat} {b : ε} (hb : m[j]? = some b) :
    ∃ a, (splice key l m)[j]? = some a ∧ key a = key b := by
  induction l generalizing m j with
  | nil =>
    cases m with
    | nil => cases hb
    | cons => exact ⟨b, hb, rfl⟩
  | cons a l ih =>
    cases m with
    | nil => cases hb
    | cons b' m =>
      rw [splice]
      split
      next hab =>
        cases j with
        | zero =>
          cases hb
          exact ⟨a, rfl, hab⟩
        | succ j => exact ih hb
      next => exact ⟨b, hb, rfl⟩

theorem splice_self (key : ε → Nat) (l : List ε) : splice key l l = l := by
  induction l with
  | nil => rfl
  | cons a l ih => rw [splice, if_pos rfl, ih]

theorem splice_splice (key : ε → Nat) (l m : List ε) :
    splice key (splice key l m) m = splice key l m := by
  induction l generalizing m with
  | nil =>
    cases m with
    | nil => rfl
    | cons b m => exact splice_self key (b :: m)
  | cons a l ih =>
    cases m with
    | nil => rfl
    | cons b m =>
      by_cases hab : key a = key b
      · rw [splice, if_pos hab, splice, if_pos hab, ih]
      · rw [splice, if_neg hab, splice_self]

theorem mem_splice {l m : List ε} {e : ε} (he : e ∈ splice key l m) : e ∈ l ∨ e ∈ m := by
  rcases splice_cut key l m with hsame | ⟨k, -, -, -, hcut⟩
  · exact .inl (hsame ▸ he)
  · rw [hcut] at he
    exact (List.mem_append.mp he).imp List.mem_of_mem_take List.mem_of_mem_drop

theorem splice_after {l m : List ε} {p : Nat} (hkeyed : Keyed key l m)
    (hshared : l.take p = m.take p) :
    (m <+: l ∧ l.take p ++ splice key (l.drop p) (m.drop p) = l) ∨
      (¬ m <+: l ∧ l.take p ++ splice key (l.drop p) (m.drop p) = m) := by
  have hdrop : Keyed key (l.drop p) (m.drop p) := by
    intro k a b ha hb hab
    rw [List.getElem?_drop] at ha hb
    exact hkeyed (p + k) a b ha hb hab
  have hiff : m.drop p <+: l.drop p ↔ m <+: l := by
    rw [← List.prefix_append_right_inj (l.take p), List.take_append_drop, hshared,
      List.take_append_drop]
  rcases splice_eq hdrop with ⟨hp, heq⟩ | ⟨hp, heq⟩
  · exact .inl ⟨hiff.mp hp, by rw [heq, List.take_append_drop]⟩
  · exact .inr ⟨fun h => hp (hiff.mpr h), by rw [heq, hshared, List.take_append_drop]⟩

def lastKey (key : ε → Nat) (l : List ε) : Nat := (l.getLast?.map key).getD 0

/-- The voting order: the later last key wins, and the longer log on equal keys. -/
def UpToDate (key : ε → Nat) (l m : List ε) : Prop :=
  lastKey key m < lastKey key l ∨ lastKey key m = lastKey key l ∧ m.length ≤ l.length

end Phalanx.Consensus
