import Mathlib.Data.List.Basic
import Mathlib.Data.List.Infix
import Mathlib.Order.Basic

/-!
# Logs whose entries carry a term

Entries are numbered from `1`; index `0` stands for "before the first entry" and has term `0`, so
`termAt` is total on `0 … length` and a comparison at index `0` always succeeds.

## Soundness against a family of logs

The whole of log matching is one definition. Given for every term `t` a log `T t` — the log of
whoever wrote the entries of term `t` — a log `l` is `Sound` when each of its prefixes that ends in
an entry of term `t` is a prefix of `T t`. Two sound logs that hold the same term at the same index
then have the same prefix up to there, because both are the prefix of `T t` of that length
(`Sound.take_eq`). The definition is closed under taking prefixes and under growing the family,
which is all that a protocol step does to it.
-/

namespace Foundations

/-! ### Prefixes -/

section Prefix

variable {α : Type*} {l₁ l₂ : List α} {i j : ℕ}

theorem getElem?_of_isPrefix (h : l₁ <+: l₂) (hi : i < l₁.length) : l₁[i]? = l₂[i]? := by
  obtain ⟨r, rfl⟩ := h
  rw [List.getElem?_append_left hi]

theorem take_eq_of_isPrefix (h : l₁ <+: l₂) (hi : i ≤ l₁.length) : l₁.take i = l₂.take i := by
  obtain ⟨r, rfl⟩ := h
  rw [List.take_append_of_le_length hi]

/-- A prefix of given length is pinned down by the log it is a prefix of. -/
theorem take_prefix_iff (hi : i ≤ l₁.length) : l₁.take i <+: l₂ ↔
    i ≤ l₂.length ∧ l₁.take i = l₂.take i := by
  have hlen : (l₁.take i).length = i := by simp [hi]
  constructor
  · intro h
    refine ⟨hlen ▸ h.length_le, ?_⟩
    have := List.prefix_iff_eq_take.mp h
    rwa [hlen] at this
  · rintro ⟨-, h⟩
    rw [h]
    exact List.take_prefix _ _

end Prefix

/-! ### Terms -/

/-- Entries that record the term they were written in. -/
class HasTerm (E : Type*) where
  /-- The term an entry was written in. -/
  termOf : E → ℕ

export HasTerm (termOf)

variable {E : Type*} [HasTerm E] {l l₁ l₂ : List E} {i j t u : ℕ} {T T' : ℕ → List E}

/-- The term at a one-based index, with `0` before the first entry; `none` beyond the end. -/
def termAt (l : List E) : ℕ → Option ℕ
  | 0 => some 0
  | i + 1 => l[i]?.map termOf

@[simp] theorem termAt_zero (l : List E) : termAt l 0 = some 0 := rfl

theorem termAt_succ (l : List E) (i : ℕ) : termAt l (i + 1) = l[i]?.map termOf := rfl

theorem le_length_of_termAt (h : termAt l i = some t) : i ≤ l.length := by
  cases i with
  | zero => exact Nat.zero_le _
  | succ i =>
    obtain ⟨e, he, -⟩ := Option.map_eq_some_iff.mp h
    exact (List.getElem?_eq_some_iff.mp he).1

theorem exists_termAt (h : i ≤ l.length) : ∃ t, termAt l i = some t := by
  cases i with
  | zero => exact ⟨0, rfl⟩
  | succ i => exact ⟨termOf l[i], by rw [termAt_succ, List.getElem?_eq_getElem h]; rfl⟩

/-- An index with a term carries an entry. -/
theorem exists_entry_of_termAt (hi : 0 < i) (h : termAt l i = some t) :
    ∃ e, l[i - 1]? = some e ∧ termOf e = t := by
  obtain ⟨i, rfl⟩ := Nat.exists_eq_succ_of_ne_zero hi.ne'
  exact Option.map_eq_some_iff.mp h

theorem termAt_eq_some_of_getElem? {e : E} (h : l[i]? = some e) :
    termAt l (i + 1) = some (termOf e) := by
  rw [termAt_succ, h]
  rfl

/-- A prefix has the terms of the whole log. -/
theorem termAt_of_isPrefix (h : l₁ <+: l₂) (hi : i ≤ l₁.length) : termAt l₁ i = termAt l₂ i := by
  cases i with
  | zero => rfl
  | succ i => rw [termAt_succ, termAt_succ, getElem?_of_isPrefix h hi]

theorem termAt_take (hi : i ≤ j) : termAt (l.take j) i = termAt l i := by
  cases i with
  | zero => rfl
  | succ i => rw [termAt_succ, termAt_succ, List.getElem?_take_of_lt hi]

/-- Logs that agree up to `j` have the same terms up to `j`. -/
theorem termAt_congr (h : l₁.take j = l₂.take j) (hi : i ≤ j) : termAt l₁ i = termAt l₂ i := by
  rw [← termAt_take hi, h, termAt_take hi]

theorem termAt_append_right (l : List E) (e : E) :
    termAt (l ++ [e]) (l.length + 1) = some (termOf e) := by
  simp [termAt_succ]

theorem termAt_append_left {r : List E} (hi : i ≤ l.length) : termAt (l ++ r) i = termAt l i :=
  (termAt_of_isPrefix (List.prefix_append l r) hi).symm

/-- The term of the last entry, `0` for the empty log. -/
def lastTerm (l : List E) : ℕ := (termAt l l.length).getD 0

theorem termAt_length (l : List E) : termAt l l.length = some (lastTerm l) := by
  obtain ⟨t, ht⟩ := exists_termAt (Nat.le_refl l.length)
  rw [lastTerm, ht]
  rfl

@[simp] theorem lastTerm_nil : lastTerm ([] : List E) = 0 := rfl

/-! ### Sound logs -/

/-- Every prefix of `l` that ends in an entry of term `t` is a prefix of `T t`. -/
def Sound (T : ℕ → List E) (l : List E) : Prop :=
  ∀ i t, termAt l i = some t → l.take i <+: T t

theorem sound_nil (T : ℕ → List E) : Sound T [] := by
  intro i t _
  simp

theorem Sound.of_isPrefix (h : Sound T l₂) (hp : l₁ <+: l₂) : Sound T l₁ := by
  intro i t hi
  have hle := le_length_of_termAt hi
  rw [termAt_of_isPrefix hp hle] at hi
  rw [take_eq_of_isPrefix hp hle]
  exact h i t hi

theorem Sound.mono (h : Sound T l) (hT : ∀ t, T t <+: T' t) : Sound T' l :=
  fun i t hi => (h i t hi).trans (hT t)

/-- **Log matching.** The same term at the same index means the same log up to there. -/
theorem Sound.take_eq (h₁ : Sound T l₁) (h₂ : Sound T l₂) (hi₁ : termAt l₁ i = some t)
    (hi₂ : termAt l₂ i = some t) : l₁.take i = l₂.take i := by
  have hl₁ := le_length_of_termAt hi₁
  have hl₂ := le_length_of_termAt hi₂
  refine List.IsPrefix.eq_of_length
    (List.prefix_of_prefix_length_le (h₁ i t hi₁) (h₂ i t hi₂) ?_) ?_ <;>
    simp [hl₁, hl₂]

/-- An entry written by term `t` at the end of `T t` keeps the log sound. -/
theorem Sound.append (h : Sound T l) {e : E} (hT : l ++ [e] <+: T (termOf e)) :
    Sound T (l ++ [e]) := by
  intro i t hi
  have hle := le_length_of_termAt hi
  rw [List.length_append, List.length_singleton] at hle
  rcases Nat.lt_or_ge l.length i with hlt | hge
  · obtain rfl : i = l.length + 1 := by omega
    rw [termAt_append_right] at hi
    obtain rfl := Option.some.inj hi
    rwa [List.take_of_length_le (by simp)]
  · rw [List.take_append_of_le_length hge]
    rw [termAt_append_left hge] at hi
    exact h i t hi

/-! ### Ordered logs -/

/-- Terms never decrease along the log, index `0` included. -/
def Ordered (l : List E) : Prop :=
  ∀ i j t u, i ≤ j → termAt l i = some t → termAt l j = some u → t ≤ u

theorem ordered_nil : Ordered ([] : List E) := by
  intro i j t u hij hi hj
  have := le_length_of_termAt hj
  obtain rfl : j = 0 := by simpa using this
  obtain rfl : i = 0 := by omega
  rw [hi] at hj
  exact (Option.some.inj hj).le

theorem Ordered.of_isPrefix (h : Ordered l₂) (hp : l₁ <+: l₂) : Ordered l₁ := by
  intro i j t u hij hi hj
  rw [termAt_of_isPrefix hp (le_length_of_termAt hi)] at hi
  rw [termAt_of_isPrefix hp (le_length_of_termAt hj)] at hj
  exact h i j t u hij hi hj

/-- Every term of the log is at most `t`. -/
def TermsLe (l : List E) (t : ℕ) : Prop := ∀ i u, termAt l i = some u → u ≤ t

theorem TermsLe.of_isPrefix (h : TermsLe l₂ t) (hp : l₁ <+: l₂) : TermsLe l₁ t := by
  intro i u hi
  rw [termAt_of_isPrefix hp (le_length_of_termAt hi)] at hi
  exact h i u hi

theorem TermsLe.mono (h : TermsLe l t) (htu : t ≤ u) : TermsLe l u :=
  fun i v hi => (h i v hi).trans htu

theorem Ordered.termsLe (h : Ordered l) : TermsLe l (lastTerm l) :=
  fun i _ hi => h i l.length _ _ (le_length_of_termAt hi) hi (termAt_length l)

theorem Ordered.append (h : Ordered l) {e : E} (he : TermsLe l (termOf e)) :
    Ordered (l ++ [e]) := by
  intro i j t u hij hi hj
  have hj' := le_length_of_termAt hj
  rw [List.length_append, List.length_singleton] at hj'
  rcases Nat.lt_or_ge l.length j with hlt | hge
  · obtain rfl : j = l.length + 1 := by omega
    rw [termAt_append_right] at hj
    obtain rfl := Option.some.inj hj
    rcases Nat.lt_or_ge l.length i with hi' | hi'
    · obtain rfl : i = l.length + 1 := by omega
      rw [termAt_append_right] at hi
      exact (Option.some.inj hi).ge
    · rw [termAt_append_left hi'] at hi
      exact he i t hi
  · rw [termAt_append_left hge] at hj
    rw [termAt_append_left (hij.trans hge)] at hi
    exact h i j t u hij hi hj

theorem TermsLe.append (h : TermsLe l t) {e : E} (he : termOf e ≤ t) : TermsLe (l ++ [e]) t := by
  intro i u hi
  have hle := le_length_of_termAt hi
  rw [List.length_append, List.length_singleton] at hle
  rcases Nat.lt_or_ge l.length i with hlt | hge
  · obtain rfl : i = l.length + 1 := by omega
    rw [termAt_append_right] at hi
    exact (Option.some.inj hi) ▸ he
  · rw [termAt_append_left hge] at hi
    exact h i u hi

/-! ### Comparing logs at an election -/

/-- `l₁` is at least as up to date as `l₂`: a later last term, or the same one and no shorter. -/
def UpToDate (l₁ l₂ : List E) : Prop :=
  lastTerm l₂ < lastTerm l₁ ∨ lastTerm l₁ = lastTerm l₂ ∧ l₂.length ≤ l₁.length

theorem UpToDate.lastTerm_le (h : UpToDate l₁ l₂) : lastTerm l₂ ≤ lastTerm l₁ := by
  rcases h with h | ⟨h, -⟩
  · exact h.le
  · exact h.ge

end Foundations
