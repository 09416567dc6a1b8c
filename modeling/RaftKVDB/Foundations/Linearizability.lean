import Mathlib.Data.List.Nodup
import Mathlib.Data.List.Range
import Mathlib.Order.Lattice

/-!
# Linearizability

A history is the sequence of the calls and the returns of operations on a shared object. It is
linearizable when its operations can be put in one order in which they make sense one after the
other, and in which no operation comes before one that had returned when it was called. Operations
that have not returned may take part in that order or not.

## Main results

* `linearizable_of_stages` — it is enough to give each operation a stage: what the operations of a
  stage do together takes the object from the state before it to the state after it, and an
  operation that returned before another was called has an earlier stage
* `exists_merge` — orders of the operations on several objects can be merged into one order of all
  operations
-/

namespace Foundations

variable {ι S I O : Type*}

/-- A sequential object: what an operation with a given input and output does, if it can. -/
structure SeqSpec (S I O : Type*) where
  init : S
  step : S → I → O → Option S

/-- The state after operations one after the other. -/
def SeqSpec.run (spec : SeqSpec S I O) (s : S) (l : List (I × O)) : Option S :=
  l.foldlM (fun s x => spec.step s x.1 x.2) s

/-- Something seen by the clients. -/
inductive HistoryEvent (ι I O : Type*)
  | call (id : ι) (input : I)
  | ret (id : ι) (output : O)
  deriving DecidableEq

/-- The operation that an event is about. -/
def HistoryEvent.id : HistoryEvent ι I O → ι
  | .call id _ => id
  | .ret id _ => id

/-- `a` returned before `b` was called. -/
def Precedes (H : List (HistoryEvent ι I O)) (a b : ι) : Prop :=
  ∃ (i j : ℕ) (x : I) (y : O), i < j ∧ H[i]? = some (HistoryEvent.ret a y) ∧
    H[j]? = some (HistoryEvent.call b x)

/-- `L` is an order of operations that explains the history. -/
structure Linearization (spec : SeqSpec S I O) (H : List (HistoryEvent ι I O))
    (L : List (ι × I × O)) : Prop where
  nodup : (L.map Prod.fst).Nodup
  called : ∀ x ∈ L, .call x.1 x.2.1 ∈ H
  returned : ∀ a y, .ret a y ∈ H → ∃ x, (a, x, y) ∈ L
  legal : (spec.run spec.init (L.map Prod.snd)).isSome = true
  order : L.Pairwise fun a b => ¬Precedes H b.1 a.1

/-- There is an order that explains the history. -/
def Linearizable (spec : SeqSpec S I O) (H : List (HistoryEvent ι I O)) : Prop :=
  ∃ L, Linearization spec H L

variable {spec : SeqSpec S I O} {H : List (HistoryEvent ι I O)}

theorem SeqSpec.run_append (s : S) (l l' : List (I × O)) :
    spec.run s (l ++ l') = (spec.run s l).bind fun s' => spec.run s' l' := by
  rw [run, List.foldlM_append]
  rfl

/-- Stages that do their part one after the other do all of it. -/
theorem SeqSpec.run_stages {seg : ℕ → List (ι × I × O)} {state : ℕ → S} (N : ℕ)
    (h : ∀ k < N, spec.run (state k) ((seg k).map Prod.snd) = some (state (k + 1))) :
    spec.run (state 0) (((List.range N).flatMap seg).map Prod.snd) = some (state N) := by
  induction N with
  | zero => rfl
  | succ N ih =>
    rw [List.range_succ, List.flatMap_append, List.map_append, run_append,
      ih fun k hk => h k (Nat.lt_succ_of_lt hk)]
    simpa using h N (Nat.lt_succ_self N)

/-- **Linearizability by stages.** -/
theorem linearizable_of_stages (seg : ℕ → List (ι × I × O)) (state : ℕ → S) (N : ℕ)
    (hinit : state 0 = spec.init)
    (hrun : ∀ k < N, spec.run (state k) ((seg k).map Prod.snd) = some (state (k + 1)))
    (hnodup : ∀ k, ((seg k).map Prod.fst).Nodup)
    (hdisj : ∀ j k x y, x ∈ seg j → y ∈ seg k → x.1 = y.1 → j = k)
    (hcalled : ∀ k, ∀ x ∈ seg k, .call x.1 x.2.1 ∈ H)
    (hreturned : ∀ a y, .ret a y ∈ H → ∃ k < N, ∃ x, (a, x, y) ∈ seg k)
    (horder : ∀ j k x y, x ∈ seg j → y ∈ seg k → Precedes H x.1 y.1 → j < k) :
    Linearizable spec H := by
  refine ⟨(List.range N).flatMap seg, ?_, ?_, ?_, ?_, ?_⟩
  · rw [List.map_flatMap, List.nodup_flatMap]
    refine ⟨fun k _ => hnodup k, List.pairwise_lt_range.imp fun {j k} hjk => ?_⟩
    refine List.disjoint_left.mpr fun a hj hk => ?_
    obtain ⟨x, hx, rfl⟩ := List.mem_map.mp hj
    obtain ⟨y, hy, heq⟩ := List.mem_map.mp hk
    exact hjk.ne (hdisj j k x y hx hy heq.symm)
  · intro x hx
    obtain ⟨k, -, hk⟩ := List.mem_flatMap.mp hx
    exact hcalled k x hk
  · intro a y hy
    obtain ⟨k, hk, x, hx⟩ := hreturned a y hy
    exact ⟨x, List.mem_flatMap.mpr ⟨k, List.mem_range.mpr hk, hx⟩⟩
  · rw [← hinit, SeqSpec.run_stages N hrun]
    rfl
  · rw [List.pairwise_flatMap]
    refine ⟨fun k _ => ?_, List.pairwise_lt_range.imp fun {j k} hjk x hx y hy hpre => ?_⟩
    · refine List.pairwise_of_forall_mem_list fun x hx y hy hpre => ?_
      exact Nat.lt_irrefl k (horder k k y x hy hx hpre)
    · exact Nat.lt_asymm hjk (horder k j y x hy hx hpre)

/-! ### Locality

Here operations are given with the times of their calls and of their returns. -/

section Locality

variable {A K T : Type*} [DecidableEq K] [LinearOrder T] {call ret : A → T}

/-- If the first of one order has to wait for the second order, then the first of the second order
does not have to wait for the first one. -/
theorem forall_not_ret_lt_call {a b : A} {l₁ l₂ : List A} (ha : call a ≤ ret a)
    (hb : call b ≤ ret b) (h₁ : (a :: l₁).Pairwise fun a b => ¬ret b < call a)
    (h₂ : (b :: l₂).Pairwise fun a b => ¬ret b < call a)
    (hwait : ∃ b' ∈ b :: l₂, ret b' < call a) : ∀ a' ∈ a :: l₁, ¬ret a' < call b := by
  obtain ⟨b', hb', hlt⟩ := hwait
  have hba : call b ≤ ret b' := by
    rcases List.mem_cons.mp hb' with rfl | hmem
    · exact hb
    · exact not_lt.mp (List.rel_of_pairwise_cons h₂ hmem)
  intro a' ha' hlt'
  have hab : call a ≤ ret a' := by
    rcases List.mem_cons.mp ha' with rfl | hmem
    · exact ha
    · exact not_lt.mp (List.rel_of_pairwise_cons h₁ hmem)
  exact lt_irrefl _ (calc
    ret b' < call a := hlt
    _ ≤ ret a' := hab
    _ < call b := hlt'
    _ ≤ ret b' := hba)

/-- Two orders can be merged. -/
theorem exists_merge_two {p : A → Bool} {l₁ l₂ : List A} (hp₁ : ∀ a ∈ l₁, p a = true)
    (hp₂ : ∀ a ∈ l₂, p a = false) (hself₁ : ∀ a ∈ l₁, call a ≤ ret a)
    (hself₂ : ∀ a ∈ l₂, call a ≤ ret a) (h₁ : l₁.Pairwise fun a b => ¬ret b < call a)
    (h₂ : l₂.Pairwise fun a b => ¬ret b < call a) :
    ∃ l : List A, (l.Pairwise fun a b => ¬ret b < call a) ∧ l.filter p = l₁ ∧
      l.filter (fun a => !p a) = l₂ := by
  induction l₁ generalizing l₂ with
  | nil =>
    refine ⟨l₂, h₂, List.filter_eq_nil_iff.mpr fun a ha => ?_,
      List.filter_eq_self.mpr fun a ha => ?_⟩
    · simp [hp₂ a ha]
    · simp [hp₂ a ha]
  | cons a l₁ ih₁ =>
    induction l₂ with
    | nil =>
      refine ⟨a :: l₁, h₁, List.filter_eq_self.mpr hp₁, List.filter_eq_nil_iff.mpr fun b hb => ?_⟩
      simp [hp₁ b hb]
    | cons b l₂ ih₂ =>
      have ha := List.forall_mem_cons.mp hp₁
      have hb := List.forall_mem_cons.mp hp₂
      have hsa := List.forall_mem_cons.mp hself₁
      have hsb := List.forall_mem_cons.mp hself₂
      -- an operation of the merged order is one of the two orders
      have hmem : ∀ {l l₁ l₂ : List A} {c : A}, l.filter p = l₁ → l.filter (fun a => !p a) = l₂ →
          c ∈ l → c ∈ l₁ ∨ c ∈ l₂ := by
        intro l l₁ l₂ c hl₁ hl₂ hc
        cases hpc : p c with
        | true => exact .inl (hl₁ ▸ List.mem_filter.mpr ⟨hc, hpc⟩)
        | false => exact .inr (hl₂ ▸ List.mem_filter.mpr ⟨hc, by simp [hpc]⟩)
      by_cases hwait : ∃ b' ∈ b :: l₂, ret b' < call a
      · have hfirst := forall_not_ret_lt_call hsa.1 hsb.1 h₁ h₂ hwait
        obtain ⟨l, hl, hl₁, hl₂⟩ := ih₂ hb.2 hsb.2 h₂.of_cons
        refine ⟨b :: l, List.pairwise_cons.mpr ⟨fun c hc => ?_, hl⟩, ?_, ?_⟩
        · rcases hmem hl₁ hl₂ hc with hc | hc
          · exact hfirst c hc
          · exact List.rel_of_pairwise_cons h₂ hc
        · simpa [hb.1] using hl₁
        · simpa [hb.1] using hl₂
      · obtain ⟨l, hl, hl₁, hl₂⟩ := ih₁ ha.2 hp₂ hsa.2 hself₂ h₁.of_cons h₂
        refine ⟨a :: l, List.pairwise_cons.mpr ⟨fun c hc => ?_, hl⟩, ?_, ?_⟩
        · rcases hmem hl₁ hl₂ hc with hc | hc
          · exact List.rel_of_pairwise_cons h₁ hc
          · exact fun hlt => hwait ⟨c, hc, hlt⟩
        · simpa [ha.1] using hl₁
        · simpa [ha.1] using hl₂

/-- **Orders of the operations of several keys can be merged** into one order of all of them. -/
theorem exists_merge (call ret : A → T) (key : A → K) {keys : List K} (hnodup : keys.Nodup)
    {order : K → List A}
    (hkey : ∀ k ∈ keys, ∀ a ∈ order k, key a = k)
    (hself : ∀ k ∈ keys, ∀ a ∈ order k, call a ≤ ret a)
    (horder : ∀ k ∈ keys, (order k).Pairwise fun a b => ¬ret b < call a) :
    ∃ l : List A, (l.Pairwise fun a b => ¬ret b < call a) ∧ (∀ a ∈ l, key a ∈ keys) ∧
      ∀ k ∈ keys, l.filter (fun a => decide (key a = k)) = order k := by
  induction keys with
  | nil => exact ⟨[], .nil, nofun, nofun⟩
  | cons k keys ih =>
    obtain ⟨hk, hnodup⟩ := List.nodup_cons.mp hnodup
    obtain ⟨hkey₁, hkey⟩ := List.forall_mem_cons.mp hkey
    obtain ⟨hself₁, hself⟩ := List.forall_mem_cons.mp hself
    obtain ⟨horder₁, horder⟩ := List.forall_mem_cons.mp horder
    obtain ⟨l, hl, hmem, hfilter⟩ := ih hnodup hkey hself horder
    have hne : ∀ a ∈ l, decide (key a = k) = false := by
      intro a ha
      exact decide_eq_false fun heq => hk (heq ▸ hmem a ha)
    have hself₂ : ∀ a ∈ l, call a ≤ ret a := by
      intro a ha
      refine hself _ (hmem a ha) a ?_
      rw [← hfilter _ (hmem a ha)]
      exact List.mem_filter.mpr ⟨ha, decide_eq_true rfl⟩
    obtain ⟨l', hl', hfilter₁, hfilter₂⟩ := exists_merge_two
      (fun a ha => decide_eq_true (hkey₁ a ha)) hne hself₁ hself₂ horder₁ hl
    refine ⟨l', hl', fun a ha => ?_, List.forall_mem_cons.mpr ⟨hfilter₁, fun j hj => ?_⟩⟩
    · by_cases heq : key a = k
      · exact heq ▸ List.mem_cons_self
      · refine List.mem_cons_of_mem _ (hmem a ?_)
        rw [← hfilter₂]
        exact List.mem_filter.mpr ⟨ha, by simp [heq]⟩
    · -- what has the key `j` does not have the key `k`
      have hjk : j ≠ k := fun heq => hk (heq ▸ hj)
      rw [← hfilter j hj, ← hfilter₂, List.filter_filter]
      refine List.filter_congr fun a _ => ?_
      by_cases heq : key a = j
      · simp [heq, hjk]
      · simp [heq]

/-- Lists that have the same operations with each key have the same operations. -/
theorem perm_of_forall_filter (key : A → K) {l l' : List A}
    (h : ∀ k, (l.filter fun a => decide (key a = k)).Perm (l'.filter fun a => decide (key a = k))) :
    l.Perm l' := by
  classical
  refine List.perm_iff_count.mpr fun a => ?_
  have hcount : ∀ l : List A, (l.filter fun b => decide (key b = key a)).count a = l.count a :=
    fun l => List.count_filter (by simp)
  rw [← hcount l, ← hcount l', (h (key a)).count_eq]

end Locality

end Foundations
