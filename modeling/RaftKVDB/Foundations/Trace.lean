import Mathlib.Data.Nat.Notation
import Mathlib.Logic.Relation

/-!
# Runs of a labelled transition system

A run is kept as the list of the states it went through, *newest first*. That list is the whole
history, so "at some moment of the run" is membership in it and needs no clock, no index and no
ghost variable: a history-dependent statement is a statement about `σ ∈ τ`.

The transition relation is arbitrary. A run "all of whose steps meet a condition" is a run of the
relation cut down by that condition.

## Main results

* `Trace.invariant` — an invariant of the newest state, by one step
* `Trace.pairwise` — a transitive relation along a segment, by one step
* `Trace.history` — a relation to an auxiliary state that is carried along the run, together with
  the same relation at every earlier moment
* `Trace.past` — an invariant of the newest state and what was before it
* `Trace.exists_of_foldlM`, `Trace.exists_of_stepIf` — a run through a list of events
* `Inevitably.of_rank` — what every run comes to, by a rank that every step makes smaller
-/

namespace Foundations

variable {S E A : Type*} {init : S} {next : S → E → S → Prop}

/-- The list `τ` of states, newest first, is a run from `init`. -/
inductive Trace (init : S) (next : S → E → S → Prop) : List S → Prop
  | start : Trace init next [init]
  | step {s s' : S} {e : E} {τ : List S} :
      Trace init next (s :: τ) → next s e s' → Trace init next (s' :: s :: τ)

/-- **The invariant rule.** What holds at the start and is preserved by a step holds of the newest
state of every run. -/
theorem Trace.invariant {P : S → Prop} (h₀ : P init)
    (hstep : ∀ s e s', P s → next s e s' → P s') {τ : List S} (h : Trace init next τ) :
    ∀ s ∈ τ, P s := by
  induction h with
  | start => simpa using h₀
  | step _ hs ih =>
    intro s hmem
    rcases List.mem_cons.mp hmem with rfl | hmem
    · exact hstep _ _ _ (ih _ (by simp)) hs
    · exact ih s hmem

/-- **The segment rule.** What each step does to two neighbouring states of a segment of a run in
which `Q` holds, it does to any two of them, if it is transitive. The segment is the newest part of
the run; an invariant `P` may be used. -/
theorem Trace.pairwise {P Q : S → Prop} {R : S → S → Prop} (h₀ : P init)
    (hinv : ∀ s e s', P s → next s e s' → P s') (htrans : ∀ s s' s'', R s'' s' → R s' s → R s'' s)
    (hstep : ∀ s e s', P s → next s e s' → Q s → Q s' → R s' s) (τ₁ τ₂ : List S)
    (h : Trace init next (τ₁ ++ τ₂)) (hQ : ∀ s ∈ τ₁, Q s) : τ₁.Pairwise R := by
  induction τ₁ with
  | nil => exact .nil
  | cons s' τ₁ ih =>
    cases τ₁ with
    | nil => exact List.pairwise_singleton R s'
    | cons s τ₁ =>
      obtain _ | @⟨_, _, e, _, hrun, hn⟩ := h
      have hpair := ih hrun fun r hr => hQ r (List.mem_cons_of_mem _ hr)
      have hR := hstep s e s' (hrun.invariant h₀ hinv s List.mem_cons_self) hn
        (hQ s (by simp)) (hQ s' List.mem_cons_self)
      refine List.pairwise_cons.mpr ⟨fun r hr => ?_, hpair⟩
      rcases List.mem_cons.mp hr with rfl | hr
      · exact hR
      · exact htrans r s s' hR ((List.pairwise_cons.mp hpair).1 r hr)

/-- At some moment of the run `τ`, with what was before it, `P` held. -/
def Once (τ : List S) (P : S → List S → Prop) : Prop :=
  ∃ s τ₀, (s :: τ₀) <:+ τ ∧ P s τ₀

theorem Once.now {P : S → List S → Prop} {s : S} {τ : List S} (h : P s τ) : Once (s :: τ) P :=
  ⟨s, τ, List.suffix_rfl, h⟩

theorem Once.later {P : S → List S → Prop} {τ : List S} (h : Once τ P) (s : S) :
    Once (s :: τ) P := by
  obtain ⟨s₀, τ₀, hsuffix, hP⟩ := h
  exact ⟨s₀, τ₀, hsuffix.trans (List.suffix_cons s τ), hP⟩

/-- **The past rule.** An invariant of the newest state that may speak of what was before it. -/
theorem Trace.past {P : S → List S → Prop} (h₀ : P init [])
    (hstep : ∀ s e s' τ, P s τ → next s e s' → P s' (s :: τ)) {s : S} {τ : List S}
    (h : Trace init next (s :: τ)) : P s τ := by
  generalize hτ : s :: τ = τ' at h
  induction h generalizing s τ with
  | start =>
    obtain ⟨rfl, rfl⟩ := List.cons.inj hτ
    exact h₀
  | step _ hn ih =>
    obtain ⟨rfl, rfl⟩ := List.cons.inj hτ
    exact hstep _ _ _ _ (ih rfl) hn

/-- **The history rule.** An auxiliary state is carried along the run by a relation `R` to the
history so far; `ext` orders auxiliary states by what a later one still knows. Then at the end
there is one auxiliary state, and every earlier moment had one that it extends. -/
theorem Trace.history {R : List S → A → Prop} {ext : A → A → Prop}
    (hrefl : ∀ a, ext a a) (htrans : ∀ a b c, ext a b → ext b c → ext a c)
    {a₀ : A} (h₀ : R [init] a₀)
    (hstep : ∀ s e s' τ a, Trace init next (s :: τ) → R (s :: τ) a → next s e s' →
      ∃ a', ext a a' ∧ R (s' :: s :: τ) a') {τ : List S} (h : Trace init next τ) :
    ∃ a, R τ a ∧ ∀ s ∈ τ, ∃ τ' b, (s :: τ') <:+ τ ∧ R (s :: τ') b ∧ ext b a := by
  induction h with
  | start =>
    refine ⟨a₀, h₀, fun s hs => ?_⟩
    obtain rfl := List.mem_singleton.mp hs
    exact ⟨[], a₀, List.suffix_rfl, h₀, hrefl a₀⟩
  | @step s₀ s' e τ₀ ht hn ih =>
    obtain ⟨a, hR, hpast⟩ := ih
    obtain ⟨a', hext, hR'⟩ := hstep s₀ e s' τ₀ a ht hR hn
    refine ⟨a', hR', fun s hs => ?_⟩
    rcases List.mem_cons.mp hs with rfl | hs
    · exact ⟨s₀ :: τ₀, a', List.suffix_rfl, hR', hrefl a'⟩
    · obtain ⟨τ', b, hsuf, hb, hba⟩ := hpast s hs
      exact ⟨τ', b, hsuf.trans (List.suffix_cons _ _), hb, htrans _ _ _ hba hext⟩

/-- A run that meets a condition meets a weaker one. -/
theorem Trace.mono {next' : S → E → S → Prop} {τ : List S} (h : Trace init next τ)
    (hle : ∀ s e s', next s e s' → next' s e s') : Trace init next' τ := by
  induction h with
  | start => exact .start
  | step _ hs ih => exact .step ih (hle _ _ _ hs)

/-- What is known of every state of a run is known before and after each of its steps. -/
theorem Trace.strengthen {A : S → Prop} {τ : List S} (h : Trace init next τ) (hA : ∀ s ∈ τ, A s) :
    Trace init (fun s e s' => A s ∧ A s' ∧ next s e s') τ := by
  induction h with
  | start => exact .start
  | step _ hs ih =>
    refine .step (ih fun s hs => hA s (.tail _ hs)) ⟨hA _ (.tail _ (.head _)), hA _ (.head _), hs⟩

/-- What a run was at an earlier moment is a run. -/
theorem Trace.of_suffix {s : S} {τ τ' : List S} (h : Trace init next τ) (hs : (s :: τ') <:+ τ) :
    Trace init next (s :: τ') := by
  induction h with
  | start =>
    obtain ⟨rfl, rfl⟩ := List.cons.inj ((List.suffix_cons_iff.mp hs).resolve_right (by simp))
    exact .start
  | step hrun hn ih =>
    rcases List.suffix_cons_iff.mp hs with heq | hs
    · obtain ⟨rfl, rfl⟩ := List.cons.inj heq
      exact .step hrun hn
    · exact ih hs

/-- A run goes on with the events of a list, one after the other, if each of them can happen. -/
theorem Trace.extends_of_foldlM {F : Type*} {f : S → E → Except F S}
    (hf : ∀ s e s', f s e = .ok s' → next s e s') (es : List E) {s s' : S} {τ : List S}
    (h : Trace init next (s :: τ)) (hs : es.foldlM f s = .ok s') :
    ∃ τ', Trace init next (s' :: τ') ∧ (s :: τ) <:+ (s' :: τ') := by
  induction es generalizing s τ with
  | nil =>
    cases hs
    exact ⟨τ, h, List.suffix_rfl⟩
  | cons e es ih =>
    rw [List.foldlM_cons] at hs
    cases he : f s e with
    | error =>
      rw [he] at hs
      cases hs
    | ok t =>
      rw [he] at hs
      obtain ⟨τ', hrun, hsuffix⟩ := ih (.step h (hf s e t he)) hs
      exact ⟨τ', hrun, (List.suffix_cons _ _).trans hsuffix⟩

theorem Trace.exists_of_foldlM {F : Type*} {f : S → E → Except F S}
    (hf : ∀ s e s', f s e = .ok s' → next s e s') (es : List E) {s s' : S} {τ : List S}
    (h : Trace init next (s :: τ)) (hs : es.foldlM f s = .ok s') :
    ∃ τ', Trace init next (s' :: τ') := by
  obtain ⟨τ', hrun, -⟩ := Trace.extends_of_foldlM hf es h hs
  exact ⟨τ', hrun⟩

/-- A step, if the condition is met. -/
def stepIf {F : Type*} (fault : F) (ok : S → E → Prop) [∀ s, DecidablePred (ok s)]
    (f : S → E → Except F S) (s : S) (e : E) : Except F S :=
  if ok s e then f s e else .error fault

theorem stepIf_eq_ok {F : Type*} {fault : F} {ok : S → E → Prop} [∀ s, DecidablePred (ok s)]
    {f : S → E → Except F S} {s s' : S} {e : E} (h : stepIf fault ok f s e = .ok s') :
    ok s e ∧ f s e = .ok s' := by
  rw [stepIf] at h
  split at h
  · next hok => exact ⟨hok, h⟩
  · cases h

theorem Trace.extends_of_stepIf {F : Type*} {fault : F} {ok : S → E → Prop}
    [∀ s, DecidablePred (ok s)] {f : S → E → Except F S} {es : List E} {s s' : S} {τ : List S}
    (h : Trace init (fun s e s' => ok s e ∧ f s e = .ok s') (s :: τ))
    (hs : es.foldlM (stepIf fault ok f) s = .ok s') :
    ∃ τ', Trace init (fun s e s' => ok s e ∧ f s e = .ok s') (s' :: τ') ∧
      (s :: τ) <:+ (s' :: τ') :=
  Trace.extends_of_foldlM (fun _ _ _ => stepIf_eq_ok) es h hs

theorem Trace.exists_of_stepIf {F : Type*} {fault : F} {ok : S → E → Prop}
    [∀ s, DecidablePred (ok s)] {f : S → E → Except F S} {es : List E} {s : S}
    (h : es.foldlM (stepIf fault ok f) init = .ok s) :
    ∃ τ, Trace init (fun s e s' => ok s e ∧ f s e = .ok s') (s :: τ) :=
  Trace.exists_of_foldlM (fun _ _ _ => stepIf_eq_ok) es Trace.start h

/-- Every run from a state comes to a state with `P`, whichever events happen: until then there is
an event that can happen, no event crashes, and it does not go on forever. -/
inductive Inevitably {F : Type*} (step : S → E → Except F S) (crash : F) (P : S → Prop) : S → Prop
  | now {s : S} : P s → Inevitably step crash P s
  | later {s : S} : (∃ e s', step s e = .ok s') → (∀ e, step s e ≠ .error crash) →
      (∀ e s', step s e = .ok s' → Inevitably step crash P s') → Inevitably step crash P s

theorem Inevitably.mono {F : Type*} {step : S → E → Except F S} {crash : F} {P Q : S → Prop} {s : S}
    (h : Inevitably step crash P s) (hPQ : ∀ s, P s → Q s) : Inevitably step crash Q s := by
  induction h with
  | now hP => exact .now (hPQ _ hP)
  | later henabled hcrash _ ih => exact .later henabled hcrash ih

/-- **The rank rule.** -/
theorem Inevitably.of_rank {F : Type*} {step : S → E → Except F S} {crash : F} {P : S → Prop}
    {Inv : ℕ → S → Prop} (henabled : ∀ n s, Inv n s → ∃ e s', step s e = .ok s')
    (hcrash : ∀ n s, Inv n s → ∀ e, step s e ≠ .error crash)
    (hstep : ∀ n s e s', Inv n s → step s e = .ok s' → P s' ∨ ∃ m < n, Inv m s') {n : ℕ} {s : S}
    (h : Inv n s) : Inevitably step crash P s := by
  induction n using Nat.strongRecOn generalizing s with
  | ind n ih =>
    refine .later (henabled n s h) (hcrash n s h) fun e s' hs => ?_
    rcases hstep n s e s' h hs with hP | ⟨m, hm, hinv⟩
    · exact .now hP
    · exact ih m hm hinv

end Foundations
