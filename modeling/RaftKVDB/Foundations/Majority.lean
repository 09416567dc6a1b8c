import Mathlib.Data.Fintype.Card
import Mathlib.Data.Finset.Card
import Mathlib.Data.Fintype.List
import Mathlib.Tactic.Push

/-!
# Majorities

`Majority P` says that more than half of a finite type satisfies `P`. It is stated with an explicit
set of members, so that it needs no decidability and is monotone in `P` for free; what the
protocols use is that two majorities meet.
-/

namespace Foundations

variable {S : Type*} [Fintype S] {P Q : S → Prop}

/-- More than half of `S` satisfies `P`. -/
def Majority (P : S → Prop) : Prop :=
  ∃ Q : Finset S, Fintype.card S < 2 * Q.card ∧ ∀ v ∈ Q, P v

theorem Majority.mono (h : Majority P) (hPQ : ∀ v, P v → Q v) : Majority Q := by
  obtain ⟨A, hA, hP⟩ := h
  exact ⟨A, hA, fun v hv => hPQ v (hP v hv)⟩

/-- **Two majorities meet.** -/
theorem Majority.inter (hP : Majority P) (hQ : Majority Q) : ∃ v, P v ∧ Q v := by
  classical
  obtain ⟨A, hA, hPA⟩ := hP
  obtain ⟨B, hB, hQB⟩ := hQ
  by_contra hno
  push Not at hno
  have hdisj : Disjoint A B :=
    Finset.disjoint_left.mpr fun v hv hv' => hno v (hPA v hv) (hQB v hv')
  have hcard : A.card + B.card ≤ Fintype.card S := by
    rw [← Finset.card_union_of_disjoint hdisj]
    exact Finset.card_le_univ _
  omega

/-- A duplicate-free list of members that is long enough is a majority. -/
theorem Majority.of_nodup {l : List S} (hnd : l.Nodup) (hlen : Fintype.card S / 2 < l.length)
    (hP : ∀ v ∈ l, P v) : Majority P := by
  classical
  refine ⟨l.toFinset, ?_, fun v hv => hP v (List.mem_toFinset.mp hv)⟩
  rw [List.toFinset_card_of_nodup hnd]
  omega

/-- What holds of at most half is not held by a majority. -/
theorem not_majority {A : Finset S} (hP : ∀ v, P v → v ∈ A) (hA : 2 * A.card ≤ Fintype.card S) :
    ¬Majority P := by
  rintro ⟨B, hB, hPB⟩
  have hcard := Finset.card_le_card fun v hv => hP v (hPB v hv)
  omega

end Foundations
