import Mathlib.Tactic.Common

/-!
# Rounds of a partial step

A step that may fail, taken again and again: `rounds next N s` is the state after `N` rounds from
`s`. What holds after some number of rounds can be shown one round at a time, forwards with
`exists_rounds_of_next`, and what it needed at the beginning backwards with `of_exists_rounds`.
-/

universe v

namespace Foundations

variable {S E : Type*} {next : S → Except E S} {P : S → Prop} {s s' : S}

/-- The state after `N` rounds. -/
def rounds (next : S → Except E S) : ℕ → S → Except E S
  | 0, s => .ok s
  | N + 1, s => next s >>= rounds next N

theorem bind_eq_ok {β γ : Type v} {x : Except E β} {f : β → Except E γ} {c : γ} :
    x >>= f = .ok c ↔ ∃ b, x = .ok b ∧ f b = .ok c := by
  cases x with
  | error => simp [bind, Except.bind]
  | ok b => simp [bind, Except.bind]

theorem map_eq_ok {β γ : Type*} {x : Except E β} {f : β → γ} {c : γ} :
    x.map f = .ok c ↔ ∃ b, x = .ok b ∧ f b = c := by
  cases x with
  | error => simp [Except.map]
  | ok b => simp [Except.map]

theorem ite_ok_eq_ok {c : Prop} [Decidable c] {β : Type*} {x y : β} {e : E} :
    (if c then Except.ok x else Except.error e) = .ok y ↔ c ∧ x = y := by
  split <;> simp_all

theorem bind_eq_error {β γ : Type v} {x : Except E β} {f : β → Except E γ} {e : E} :
    x >>= f = .error e ↔ x = .error e ∨ ∃ b, x = .ok b ∧ f b = .error e := by
  cases x with
  | error => simp [bind, Except.bind]
  | ok b => simp [bind, Except.bind]

theorem rounds_succ_eq_ok {N : ℕ} :
    rounds next (N + 1) s = .ok s' ↔ ∃ t, next s = .ok t ∧ rounds next N t = .ok s' :=
  bind_eq_ok

theorem exists_rounds_of_next (hnext : next s = .ok s')
    (h : ∃ N t, rounds next N s' = .ok t ∧ P t) : ∃ N t, rounds next N s = .ok t ∧ P t := by
  obtain ⟨N, t, hrounds, ht⟩ := h
  exact ⟨N + 1, t, rounds_succ_eq_ok.mpr ⟨s', hnext, hrounds⟩, ht⟩

/-- **Backwards along the rounds.** What the goal needs, and a round cannot bring about, was there
at the beginning. -/
theorem of_exists_rounds {I Q : S → Prop}
    (hstep : ∀ s s', I s → next s = .ok s' → Q s ∨ I s' ∧ (Q s' → Q s))
    (hgoal : ∀ s, I s → P s → Q s) (hs : I s)
    (h : ∃ N t, rounds next N s = .ok t ∧ P t) : Q s := by
  obtain ⟨N, t, hrounds, ht⟩ := h
  induction N generalizing s with
  | zero =>
    obtain rfl := Except.ok.inj hrounds
    exact hgoal s hs ht
  | succ N ih =>
    obtain ⟨s', hnext, hrounds⟩ := rounds_succ_eq_ok.mp hrounds
    rcases hstep s s' hs hnext with hQ | ⟨hs', hback⟩
    · exact hQ
    · exact hback (ih hs' hrounds)

end Foundations
