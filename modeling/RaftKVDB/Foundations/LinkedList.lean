import Mathlib.Data.List.Nodup
import Mathlib.Logic.Function.Basic

/-!
# Doubly linked lists

An element that is taken out of a doubly linked list keeps its own links, so that it can be put back
where it was: this takes as many assignments as taking it out. Elements that were taken out have to
be put back in the opposite order.

## Main results

* `Linked.unlink` — the other elements are linked as before
* `Linked.relink_unlink` — putting an element back undoes taking it out
-/

namespace Foundations

/-- The links of a memory of list elements; `none` is the end of a list. -/
@[ext]
structure Links (A : Type*) where
  next : A → Option A
  prev : A → Option A

namespace Links

variable {A : Type*} [DecidableEq A]

/-- `a.next = b`, if there is an `a`. -/
def setNext (L : Links A) (a b : Option A) : Links A :=
  match a with
  | some a => { L with next := Function.update L.next a b }
  | none => L

/-- `a.prev = b`, if there is an `a`. -/
def setPrev (L : Links A) (a b : Option A) : Links A :=
  match a with
  | some a => { L with prev := Function.update L.prev a b }
  | none => L

/-- Take `a` out. -/
def unlink (L : Links A) (a : A) : Links A :=
  (L.setNext (L.prev a) (L.next a)).setPrev (L.next a) (L.prev a)

/-- Put `a` back where its links say. -/
def relink (L : Links A) (a : A) : Links A :=
  (L.setNext (L.prev a) (some a)).setPrev (L.next a) (some a)

omit [DecidableEq A] in
variable (L : Links A) in
/-- The elements are linked to a list, which begins with the first of them. -/
def Linked : List A → Prop
  | [] => True
  | [a] => L.next a = none
  | a :: b :: l => L.next a = some b ∧ L.prev b = some a ∧ Linked (b :: l)

variable {L L' : Links A} {l l₁ l₂ : List A} {a x : A}

section

omit [DecidableEq A]

theorem Linked.tail (h : L.Linked (a :: l)) : L.Linked l := by
  cases l with
  | nil => trivial
  | cons b l => exact h.2.2

theorem Linked.next_first (h : L.Linked (a :: l)) : L.next a = l.head? := by
  cases l with
  | nil => exact h
  | cons b l => exact h.1

theorem Linked.next_eq (h : L.Linked (l₁ ++ a :: l₂)) : L.next a = l₂.head? := by
  induction l₁ with
  | nil => exact h.next_first
  | cons b l₁ ih => exact ih h.tail

/-- The links of the elements matter, and not what the first of them is linked back to. -/
theorem Linked.congr (h : L.Linked l) (hnext : ∀ x ∈ l, L'.next x = L.next x)
    (hprev : ∀ x ∈ l.tail, L'.prev x = L.prev x) : L'.Linked l := by
  induction l with
  | nil => trivial
  | cons a l ih =>
    cases l with
    | nil => exact (hnext a List.mem_cons_self).trans h
    | cons b l =>
      refine ⟨(hnext a List.mem_cons_self).trans h.1, (hprev b List.mem_cons_self).trans h.2.1, ?_⟩
      exact ih h.2.2 (fun x hx => hnext x (List.mem_cons_of_mem _ hx))
        fun x hx => hprev x (List.mem_cons_of_mem _ hx)

/-- The neighbours of an element that is not the first. -/
theorem Linked.around (h : L.Linked (x :: l)) (hnodup : (x :: l).Nodup) (ha : a ∈ l) :
    (∃ p ∈ x :: l, p ≠ a ∧ L.prev a = some p ∧ L.next p = some a) ∧
      ∀ q, L.next a = some q → q ∈ l ∧ q ≠ a ∧ L.prev q = some a := by
  induction l generalizing x with
  | nil => exact nomatch ha
  | cons y l ih =>
    obtain ⟨hnext, hprev, hrest⟩ := h
    have hnodup' := (List.nodup_cons.mp hnodup).2
    by_cases hay : a = y
    · subst hay
      have hne : x ≠ a := by
        rintro rfl
        exact (List.nodup_cons.mp hnodup).1 List.mem_cons_self
      refine ⟨⟨x, List.mem_cons_self, hne, hprev, hnext⟩, fun q hq => ?_⟩
      cases l with
      | nil => exact nomatch (show L.next a = none from hrest).symm.trans hq
      | cons z l =>
        obtain rfl := Option.some.inj (hrest.1.symm.trans hq)
        refine ⟨List.mem_cons_of_mem _ List.mem_cons_self, ?_, hrest.2.1⟩
        rintro rfl
        exact (List.nodup_cons.mp hnodup').1 List.mem_cons_self
    · have hal := (List.mem_cons.mp ha).resolve_left hay
      obtain ⟨⟨p, hp, hpa, hprev', hnext'⟩, hq⟩ := ih hrest hnodup' hal
      refine ⟨⟨p, List.mem_cons_of_mem _ hp, hpa, hprev', hnext'⟩, fun q hq' => ?_⟩
      obtain ⟨hmem, hrest⟩ := hq q hq'
      exact ⟨List.mem_cons_of_mem _ hmem, hrest⟩

end

@[simp] theorem next_setNext (a b : Option A) (x : A) :
    (L.setNext a b).next x = if a = some x then b else L.next x := by
  cases a with
  | none => rfl
  | some a => simp [setNext, Function.update_apply, eq_comm]

@[simp] theorem prev_setNext (a b : Option A) (x : A) : (L.setNext a b).prev x = L.prev x := by
  cases a <;> rfl

@[simp] theorem next_setPrev (a b : Option A) (x : A) : (L.setPrev a b).next x = L.next x := by
  cases a <;> rfl

@[simp] theorem prev_setPrev (a b : Option A) (x : A) :
    (L.setPrev a b).prev x = if a = some x then b else L.prev x := by
  cases a with
  | none => rfl
  | some a => simp [setPrev, Function.update_apply, eq_comm]

theorem next_unlink (a x : A) :
    (L.unlink a).next x = if L.prev a = some x then L.next a else L.next x := by
  simp [Links.unlink]

theorem prev_unlink (a x : A) :
    (L.unlink a).prev x = if L.next a = some x then L.prev a else L.prev x := by
  simp [Links.unlink]

/-- **The others stay linked.** -/
theorem Linked.unlink (h : L.Linked (x :: l)) (hnodup : (x :: l).Nodup) (ha : a ∈ l) :
    (L.unlink a).Linked (x :: l.erase a) := by
  induction l generalizing x with
  | nil => exact nomatch ha
  | cons y l ih =>
    have hrest := h.2.2
    have hnodup' := (List.nodup_cons.mp hnodup).2
    by_cases hay : y = a
    · subst hay
      rw [List.erase_cons_head]
      have hx : (L.unlink y).next x = L.next y := by rw [next_unlink, if_pos h.2.1]
      cases l with
      | nil => exact hx.trans hrest
      | cons z l =>
        have hz : (L.unlink y).prev z = L.prev y := by rw [prev_unlink, if_pos hrest.1]
        refine ⟨hx.trans hrest.1, hz.trans h.2.1, ?_⟩
        refine hrest.tail.congr (fun u hu => ?_) fun u hu => ?_
        · rw [next_unlink, if_neg]
          rw [h.2.1]
          rintro ⟨⟩
          exact (List.nodup_cons.mp hnodup).1 (List.mem_cons_of_mem _ hu)
        · rw [prev_unlink, if_neg]
          rw [hrest.1]
          rintro ⟨⟩
          exact (List.nodup_cons.mp (List.nodup_cons.mp hnodup').2).1 hu
    · have hal := (List.mem_cons.mp ha).resolve_left (Ne.symm hay)
      obtain ⟨⟨p, hp, -, hprev, -⟩, hq⟩ := hrest.around hnodup' hal
      rw [List.erase_cons_tail (by simpa using hay)]
      refine ⟨?_, ?_, ih hrest hnodup' hal⟩
      · rw [next_unlink, if_neg, h.1]
        rw [hprev]
        rintro ⟨⟩
        exact (List.nodup_cons.mp hnodup).1 hp
      · rw [prev_unlink, if_neg, h.2.1]
        exact fun hnext => (List.nodup_cons.mp hnodup').1 (hq y hnext).1

/-- **Putting back undoes taking out.** -/
theorem Linked.relink_unlink (h : L.Linked (x :: l)) (hnodup : (x :: l).Nodup) (ha : a ∈ l) :
    (L.unlink a).relink a = L := by
  obtain ⟨⟨p, -, hpa, hprev, hnext⟩, hq⟩ := h.around hnodup ha
  have hprev' : (L.unlink a).prev a = some p := by
    rw [prev_unlink, if_neg fun hself => (hq a hself).2.1 rfl, hprev]
  have hnext' : (L.unlink a).next a = L.next a := by
    rw [next_unlink, hprev, if_neg fun hself => hpa (Option.some.inj hself)]
  ext1
  · funext u
    simp only [relink, next_setPrev, next_setNext, hprev', next_unlink, hprev]
    split_ifs with hu
    · rw [← Option.some.inj hu, hnext]
    · rfl
  · funext u
    simp only [relink, prev_setPrev, prev_setNext, hnext', prev_unlink]
    split_ifs with hu
    · exact (hq u hu).2.2.symm
    · rfl

end Links

end Foundations
