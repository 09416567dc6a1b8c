import RaftKVDB.Foundations.Reach

/-!
# Refinement

Two transition systems, a fine one and a coarse one, and a function that forgets. If whatever one
step of the fine system does can be done by any number of steps of the coarse one, none included,
then every run of the fine system is seen as a run of the coarse one, which goes through what is
seen of its states in their order (`Trace.refines`).
-/

namespace Foundations

variable {S E S' E' : Type*} {f : S → S'}

/-- The run `τ'` goes through what is seen of the states of `τ`, in their order, and ends where
`τ` ends. -/
inductive Follows (f : S → S') : List S → List S' → Prop
  | start {s : S} {τ' : List S'} : Follows f [s] (f s :: τ')
  | step {s s' : S} {τ : List S} {τ' τ'' : List S'} : Follows f (s :: τ) τ' →
      τ' <:+ f s' :: τ'' → Follows f (s' :: s :: τ) (f s' :: τ'')

theorem Follows.mem {τ : List S} {τ' : List S'} (h : Follows f τ τ') : ∀ s ∈ τ, f s ∈ τ' := by
  induction h with
  | start => simp
  | step _ hsuffix ih =>
    intro s hs
    rcases List.mem_cons.mp hs with rfl | hs
    · exact List.mem_cons_self
    · exact hsuffix.subset (ih s hs)

variable {init : S} {init' : S'} {next : S → E → S → Prop} {next' : S' → E' → S' → Prop}

/-- **Refinement.** -/
theorem Trace.refines {P : S → Prop} (hinit : f init = init') (hP : P init)
    (hinv : ∀ s e s', P s → next s e s' → P s')
    (hstep : ∀ s e s', P s → next s e s' → Leads next' (fun _ => True) (f s) (f s'))
    {s : S} {τ : List S} (h : Trace init next (s :: τ)) :
    ∃ τ', Trace init' next' (f s :: τ') ∧ Follows f (s :: τ) (f s :: τ') := by
  generalize hτ : s :: τ = τ₁ at h
  induction h generalizing s τ with
  | start =>
    obtain ⟨rfl, rfl⟩ := List.cons.inj hτ
    exact ⟨[], hinit ▸ .start, .start⟩
  | @step s₀ s' e τ₀ hrun hn ih =>
    obtain ⟨rfl, rfl⟩ := List.cons.inj hτ
    obtain ⟨τ', htrace, hfollows⟩ := ih rfl
    have hs₀ : P s₀ := hrun.invariant hP hinv s₀ List.mem_cons_self
    obtain ⟨τ'', htrace', hsuffix⟩ := (hstep _ _ _ hs₀ hn).trace htrace
    exact ⟨τ'', htrace', .step hfollows hsuffix⟩

end Foundations
