import RaftKVDB.Foundations.Trace

/-!
# What a system can do from a state on

`Leads next A s s'`: from `s` the system can get to `s'` by events that meet `A`. A run goes on that
way (`Leads.trace`), and a list of tasks, each of which can be done without undoing another, can be
done one after the other (`Leads.forall_mem`). A system with more detail can get as far as one with
less, if it can do each of the other's steps (`Leads.lift`).
-/

namespace Foundations

variable {S E : Type*} {init s s' s'' : S} {next : S → E → S → Prop} {A : E → Prop} {e : E}

/-- Some steps, by events that meet `A`, lead from one state to the other. -/
def Leads (next : S → E → S → Prop) (A : E → Prop) : S → S → Prop :=
  Relation.ReflTransGen fun s s' => ∃ e, A e ∧ next s e s'

theorem Leads.refl (s : S) : Leads next A s s := Relation.ReflTransGen.refl

theorem Leads.trans (h : Leads next A s s') (h' : Leads next A s' s'') : Leads next A s s'' :=
  Relation.ReflTransGen.trans h h'

theorem Leads.single (he : A e) (hn : next s e s') : Leads next A s s' :=
  Relation.ReflTransGen.single ⟨e, he, hn⟩

/-- First one step. -/
theorem Leads.head (he : A e) (hn : next s e s') (h : Leads next A s' s'') : Leads next A s s'' :=
  (Leads.single he hn).trans h

theorem Leads.mono {B : E → Prop} (h : Leads next A s s') (hAB : ∀ e, A e → B e) :
    Leads next B s s' := by
  refine Relation.ReflTransGen.mono ?_ s s' h
  rintro s s' ⟨e, he, hn⟩
  exact ⟨e, hAB e he, hn⟩

theorem Leads.imp {next' : S → E → S → Prop} (h : Leads next A s s')
    (himp : ∀ s e s', next s e s' → next' s e s') : Leads next' A s s' := by
  refine Relation.ReflTransGen.mono ?_ s s' h
  rintro s s' ⟨e, he, hn⟩
  exact ⟨e, he, himp s e s' hn⟩

/-- **What an abstract system can do, one that can do each of its steps can do.** -/
theorem Leads.lift {T D : Type*} {more : T → D → T → Prop} {B : D → Prop} {f : T → S}
    {K : T → Prop} {t : T} (h : Leads next A (f t) s')
    (hstep : ∀ t e s', K t → A e → next (f t) e s' → ∃ t', Leads more B t t' ∧ K t' ∧ f t' = s')
    (ht : K t) : ∃ t', Leads more B t t' ∧ K t' ∧ f t' = s' := by
  induction h with
  | refl => exact ⟨t, .refl t, ht, rfl⟩
  | tail _ hlast ih =>
    obtain ⟨t₁, hlead, hK, rfl⟩ := ih
    obtain ⟨e, he, hn⟩ := hlast
    obtain ⟨t₂, hlead', hK', hf⟩ := hstep t₁ e _ hK he hn
    exact ⟨t₂, hlead.trans hlead', hK', hf⟩

/-- What a step preserves is preserved. -/
theorem Leads.invariant {P : S → Prop} (h : Leads next A s s')
    (hstep : ∀ s e s', A e → P s → next s e s' → P s') (hs : P s) : P s' := by
  induction h with
  | refl => exact hs
  | tail _ hlast ih =>
    obtain ⟨e, he, hn⟩ := hlast
    exact hstep _ e _ he ih hn

/-- **A run goes on.** -/
theorem Leads.trace {τ : List S} (h : Leads next A s s') (hrun : Trace init next (s :: τ)) :
    ∃ τ', Trace init next (s' :: τ') ∧ (s :: τ) <:+ (s' :: τ') := by
  induction h with
  | refl => exact ⟨τ, hrun, List.suffix_rfl⟩
  | tail _ hlast ih =>
    obtain ⟨τ', hrun', hsuffix⟩ := ih
    obtain ⟨e, -, hn⟩ := hlast
    exact ⟨_, .step hrun' hn, hsuffix.trans (List.suffix_cons _ _)⟩

/-- **One task after the other.** If each task can be done where `K` holds, such that `K` holds
again and no task that was done before is undone, then all of them can be done. -/
theorem Leads.forall_mem {ι : Type*} {K : S → Prop} {P : ι → S → Prop} (l : List ι)
    (htask : ∀ i ∈ l, ∀ s, K s → ∃ s', Leads next A s s' ∧ K s' ∧ P i s' ∧ ∀ j, P j s → P j s')
    (hs : K s) : ∃ s', Leads next A s s' ∧ K s' ∧ ∀ i ∈ l, P i s' := by
  suffices h : ∃ s', Leads next A s s' ∧ K s' ∧ (∀ i ∈ l, P i s') ∧ ∀ j, P j s → P j s' by
    obtain ⟨s', hlead, hK, hP, -⟩ := h
    exact ⟨s', hlead, hK, hP⟩
  induction l generalizing s with
  | nil => exact ⟨s, .refl s, hs, fun i hi => (List.not_mem_nil hi).elim, fun _ hj => hj⟩
  | cons i l ih =>
    obtain ⟨s₁, hlead, hK, hi, hkeep⟩ := htask i (.head l) s hs
    obtain ⟨s₂, hlead', hK', hl, hkeep'⟩ := ih (fun j hj => htask j (.tail i hj)) hK
    refine ⟨s₂, hlead.trans hlead', hK', fun j hj => ?_, fun j hj => hkeep' j (hkeep j hj)⟩
    rcases List.mem_cons.mp hj with rfl | hj
    · exact hkeep' j hi
    · exact hl j hj

end Foundations
