import Mathlib.Data.List.Basic

/-!
# Lists of which a part is seen

Of many things that go on, a few are seen: `l.filterMap f` is what is seen of the list `l`. When one
element of `l` is changed or taken out, what is seen is the same, or it has one element more, fewer
or changed. All of this follows from `filterMap_split`, which takes the list apart at that element.
-/

namespace Foundations

variable {β γ : Type*} {f : β → Option γ} {l : List β} {k : ℕ} {x y : β} {b : γ}

/-- What is seen before the element at `k`, of it, and after it. -/
theorem filterMap_split (hk : l[k]? = some x) (y : β) : l.filterMap f =
      (l.take k).filterMap f ++ (f x).toList ++ (l.drop (k + 1)).filterMap f ∧
    (l.set k y).filterMap f =
      (l.take k).filterMap f ++ (f y).toList ++ (l.drop (k + 1)).filterMap f ∧
    (l.eraseIdx k).filterMap f =
      (l.take k).filterMap f ++ (l.drop (k + 1)).filterMap f := by
  obtain ⟨hlt, rfl⟩ := List.getElem?_eq_some_iff.mp hk
  have hcons : ∀ z : β, (z :: l.drop (k + 1)).filterMap f =
      (f z).toList ++ (l.drop (k + 1)).filterMap f := by
    intro z
    cases h : f z <;> simp [h]
  refine ⟨?_, ?_, ?_⟩
  · conv_lhs => rw [← List.take_append_drop k l, List.drop_eq_getElem_cons hlt]
    rw [List.filterMap_append, hcons, List.append_assoc]
  · rw [List.set_eq_take_append_cons_drop, if_pos hlt, List.filterMap_append, hcons,
      List.append_assoc]
  · rw [List.eraseIdx_eq_take_drop_succ, List.filterMap_append]

/-! ### One element changed -/

/-- An element that is seen as before. -/
theorem filterMap_set_of_eq (h : f y = f x) (hk : l[k]? = some x) :
    (l.set k y).filterMap f = l.filterMap f := by
  obtain ⟨hl, hset, -⟩ := filterMap_split (f := f) hk y
  rw [hl, hset, h]

/-- An element that was not seen. -/
theorem filterMap_eraseIdx_of_none (hk : l[k]? = some x) (h : f x = none) :
    (l.eraseIdx k).filterMap f = l.filterMap f := by
  obtain ⟨hl, -, herase⟩ := filterMap_split (f := f) hk x
  rw [hl, herase, h]
  simp

/-- An element that is seen now. -/
theorem mem_filterMap_set (hk : l[k]? = some x) (h : f x = none) (h' : f y = some b) (z : γ) :
    z ∈ (l.set k y).filterMap f ↔ z ∈ l.filterMap f ∨ z = b := by
  obtain ⟨hl, hset, -⟩ := filterMap_split (f := f) hk y
  rw [hl, hset, h, h']
  simp only [Option.toList_some, Option.toList_none, List.append_nil, List.mem_append,
    List.mem_singleton]
  tauto

/-- **An element that was seen** has a place in what is seen, and there it is seen differently or
not at all. -/
theorem exists_filterMap_set (hk : l[k]? = some x) (h : f x = some b) (y : β) :
    ∃ j, (l.filterMap f)[j]? = some b ∧
      (∀ b', f y = some b' → (l.set k y).filterMap f = (l.filterMap f).set j b') ∧
      (f y = none → (l.set k y).filterMap f = (l.filterMap f).eraseIdx j) := by
  obtain ⟨hl, hset, -⟩ := filterMap_split (f := f) hk y
  refine ⟨((l.take k).filterMap f).length, ?_, fun b' hb' => ?_, fun hnone => ?_⟩
  · rw [hl, h]
    simp
  · rw [hl, hset, h, hb']
    simp
  · rw [hl, hset, h, hnone]
    simp [List.eraseIdx_append_of_length_le]

/-! ### Positions that are seen -/

variable {g g' : ℕ → Option γ} {n : ℕ}

/-- **One position is seen differently.** -/
theorem exists_filterMap_range (hk : k < n) (hsame : ∀ i, i ≠ k → g' i = g i)
    (h : g k = some b) : ∃ j, ((List.range n).filterMap g)[j]? = some b ∧
      (∀ b', g' k = some b' →
        (List.range n).filterMap g' = ((List.range n).filterMap g).set j b') ∧
      (g' k = none → (List.range n).filterMap g' = ((List.range n).filterMap g).eraseIdx j) := by
  have hset : (List.range n).map g' = ((List.range n).map g).set k (g' k) := by
    refine List.ext_getElem (by simp) fun i hi _ => ?_
    rcases eq_or_ne k i with rfl | hne
    · simp
    · simp [hne, hsame i hne.symm]
  have hid : ∀ g : ℕ → Option γ, (List.range n).filterMap g =
      ((List.range n).map g).filterMap id := fun g => by simp [List.filterMap_map]
  have hget : ((List.range n).map g)[k]? = some (g k) := by simp [hk]
  rw [hid g, hid g', hset]
  exact exists_filterMap_set (f := id) hget h (g' k)

/-- **Fewer elements are seen.** -/
theorem filterMap_sublist {f' : β → Option γ} (h : ∀ x ∈ l, f' x = f x ∨ f' x = none) :
    (l.filterMap f').Sublist (l.filterMap f) := by
  induction l with
  | nil => exact List.Sublist.slnil
  | cons x l ih =>
    have hrest := ih fun y hy => h y (.tail _ hy)
    rcases h x (.head _) with heq | hnone
    · cases hx : f x with
      | none => simpa [List.filterMap_cons, heq, hx] using hrest
      | some b => simpa [List.filterMap_cons, heq, hx] using hrest
    · rw [List.filterMap_cons, hnone]
      cases hx : f x with
      | none => simpa [List.filterMap_cons, hx] using hrest
      | some b => simpa [List.filterMap_cons, hx] using hrest.cons b

/-- A list seen position by position. -/
theorem filterMap_range_bind (l : List β) (f : β → Option γ) :
    (List.range l.length).filterMap (fun i => l[i]?.bind f) = l.filterMap f := by
  induction l with
  | nil => rfl
  | cons x l ih =>
    rw [List.length_cons, List.range_succ_eq_map, List.filterMap_cons, List.filterMap_map,
      List.filterMap_cons, ← ih]
    rfl

end Foundations
