import Mathlib.Data.Finset.Card
import Mathlib.Data.List.Nodup
import Mathlib.Data.Prod.Lex
import Mathlib.Data.Set.Finite.Basic
import Mathlib.Data.Set.Finite.Lattice
import Mathlib.Logic.Relation
import Mathlib.Order.WellFounded

/-!
# Depth-first search with a memory

A machine takes steps until it has a result. The one here looks for a goal: it goes to a place that
it has not been at before as soon as it finds a way, and goes back when it has tried all ways. It
remembers all places it has been at, and never forgets one.

## Main results

* `HaltsIn.simulate` — a machine that goes along with another one halts with it
* `Problem.finite_reachable` — if ways go down some measure, finitely many places are reachable
* `Problem.halts` — then the search halts, and finds a goal if and only if one is reachable
-/

namespace Foundations

/-! ### Machines that halt -/

/-- A machine halts with `b` after `N` steps. What a step leads to is a result or another state. -/
inductive HaltsIn {S B : Type*} (next : S → B ⊕ S → Prop) : ℕ → S → B → Prop
  | now {s : S} {b : B} : next s (.inl b) → HaltsIn next 1 s b
  | later {N : ℕ} {s s' : S} {b : B} :
      next s (.inr s') → HaltsIn next N s' b → HaltsIn next (N + 1) s b

theorem HaltsIn.simulate {S T B : Type*} {next : S → B ⊕ S → Prop} {next' : T → B ⊕ T → Prop}
    {R : S → T → Prop} (hnow : ∀ s t b, R s t → next s (.inl b) → next' t (.inl b))
    (hlater : ∀ s t s', R s t → next s (.inr s') → ∃ t', next' t (.inr t') ∧ R s' t')
    {N : ℕ} {s : S} {b : B} (h : HaltsIn next N s b) {t : T} (hR : R s t) :
    HaltsIn next' N t b := by
  induction h generalizing t with
  | now hs => exact .now (hnow _ _ _ hR hs)
  | later hs _ ih =>
    obtain ⟨t', ht, hR'⟩ := hlater _ _ _ hR hs
    exact .later ht (ih hR')

/-! ### Problems -/

/-- Places, with the ways from each of them in the order in which they are tried. A way may turn out
to lead nowhere. -/
structure Problem (C X : Type*) where
  ways : C → List X
  follow : C → X → Option C
  goal : C → Bool

namespace Problem

variable {C X : Type*} (P : Problem C X)

/-- A way leads from a place to another. -/
def Leads (c c' : C) : Prop := ∃ x ∈ P.ways c, P.follow c x = some c'

/-- The places that can be reached. -/
def Reachable : C → C → Prop := Relation.ReflTransGen P.Leads

/-- **Finitely many places** are reachable if every way goes down. -/
theorem finite_reachable {Inv : C → Prop} {μ : C → ℕ}
    (hinv : ∀ c c', Inv c → P.Leads c c' → Inv c')
    (hμ : ∀ c c', Inv c → P.Leads c c' → μ c' < μ c) {c : C} (hc : Inv c) :
    {c' | P.Reachable c c'}.Finite := by
  induction hm : μ c using Nat.strong_induction_on generalizing c with
  | h m ih =>
    have hsplit : {c' | P.Reachable c c'} ⊆ insert c
        (⋃ x ∈ {x | x ∈ P.ways c}, ⋃ d ∈ {d | P.follow c x = some d}, {c' | P.Reachable d c'}) := by
      intro c' hc'
      rcases Relation.ReflTransGen.cases_head hc' with rfl | ⟨d, ⟨x, hx, hd⟩, hrest⟩
      · exact Set.mem_insert _ _
      · refine Set.mem_insert_of_mem _ ?_
        exact Set.mem_biUnion hx (Set.mem_biUnion hd hrest)
    refine Set.Finite.subset (Set.Finite.insert _ ?_) hsplit
    refine Set.Finite.biUnion (List.finite_toSet _) fun x hx => ?_
    refine Set.Finite.biUnion ?_ fun d hd => ?_
    · refine Set.Subsingleton.finite fun d hd d' hd' => ?_
      exact Option.some.inj (hd.symm.trans hd')
    · have hlead : P.Leads c d := ⟨x, hx, hd⟩
      exact ih (μ d) (hm ▸ hμ c d hc hlead) (hinv c d hc hlead) rfl

end Problem

/-! ### The search -/

/-- The place that the search is at and the ways that are left to try, the same for the places that
it has come through, and the places that it has been at. -/
structure Search (C X : Type*) where
  current : C
  todo : List X
  stack : List (C × List X)
  seen : List C

namespace Problem

variable {C X : Type*} (P : Problem C X)

/-- The search begins. -/
def start (c : C) : Search C X := ⟨c, P.ways c, [], []⟩

/-- A place and the ways that are left: the others were tried, and what they lead to was seen. -/
def Tried (seen : List C) (frame : C × List X) : Prop :=
  ∃ tried, P.ways frame.1 = tried ++ frame.2 ∧
    ∀ x ∈ tried, ∀ c, P.follow frame.1 x = some c → c ∈ seen

/-- What holds while the search from `c₀` is going on. -/
structure Explored (c₀ : C) (s : Search C X) : Prop where
  /-- The search came from `c₀`, through places that it has seen. -/
  root : ∃ path, s.current :: s.stack.map Prod.fst = path ++ [c₀] ∧ ∀ c ∈ path, c ∈ s.seen
  reachable : ∀ c ∈ s.current :: s.stack.map Prod.fst ++ s.seen, P.Reachable c₀ c
  tried : ∀ frame ∈ (s.current, s.todo) :: s.stack, P.Tried s.seen frame
  /-- The search is done with the other places. -/
  done : ∀ c ∈ s.seen, c ∉ s.current :: s.stack.map Prod.fst →
    P.goal c = false ∧ ∀ c', P.Leads c c' → c' ∈ s.seen
  passed : ∀ c ∈ s.stack.map Prod.fst, P.goal c = false
  nodup : s.seen.Nodup

variable {P} {c₀ : C} {s s' : Search C X}

theorem explored_start (c₀ : C) : P.Explored c₀ (P.start c₀) where
  root := ⟨[], rfl, nofun⟩
  reachable c hc := by
    obtain rfl : c = c₀ := by simpa [start] using hc
    exact .refl
  tried frame hframe := by
    obtain rfl := List.mem_singleton.mp hframe
    exact ⟨[], rfl, nofun⟩
  done := nofun
  passed := nofun
  nodup := List.nodup_nil

theorem Tried.mono {seen seen' : List C} {frame : C × List X} (h : P.Tried seen frame)
    (hsub : seen ⊆ seen') : P.Tried seen' frame := by
  obtain ⟨tried, hways, hseen⟩ := h
  exact ⟨tried, hways, fun x hx c hc => hsub (hseen x hx c hc)⟩

/-- One more way was tried. -/
theorem Tried.cons {seen : List C} {c : C} {x : X} {todo : List X}
    (h : P.Tried seen (c, x :: todo)) (hx : ∀ c', P.follow c x = some c' → c' ∈ seen) :
    P.Tried seen (c, todo) := by
  obtain ⟨tried, hways, hseen⟩ := h
  refine ⟨tried ++ [x], by rw [hways, List.append_assoc, List.singleton_append], fun y hy => ?_⟩
  rcases List.mem_append.mp hy with hy | hy
  · exact hseen y hy
  · obtain rfl := List.mem_singleton.mp hy
    exact hx

/-- All ways were tried. -/
theorem Tried.leads {seen : List C} {c c' : C} (h : P.Tried seen (c, []))
    (hc : P.Leads c c') : c' ∈ seen := by
  obtain ⟨tried, hways, hseen⟩ := h
  obtain ⟨x, hx, hfollow⟩ := hc
  rw [hways, List.append_nil] at hx
  exact hseen x hx c' hfollow

namespace Explored

/-- A way is tried that does not lead to a new place. -/
theorem skip (h : P.Explored c₀ s) {x : X} {todo : List X} (htodo : s.todo = x :: todo)
    (hx : ∀ c, P.follow s.current x = some c → c ∈ s.seen) :
    P.Explored c₀ { s with todo := todo } where
  root := h.root
  reachable := h.reachable
  tried frame hframe := by
    rcases List.mem_cons.mp hframe with rfl | hframe
    · exact Tried.cons (htodo ▸ h.tried _ List.mem_cons_self) hx
    · exact h.tried frame (List.mem_cons_of_mem _ hframe)
  done := h.done
  passed := h.passed
  nodup := h.nodup

/-- The search goes to a new place. -/
theorem enter (h : P.Explored c₀ s) {x : X} {todo : List X} (htodo : s.todo = x :: todo)
    {c : C} (hx : P.follow s.current x = some c) (hnew : c ∉ s.seen)
    (hgoal : P.goal s.current = false) :
    P.Explored c₀ ⟨c, P.ways c, (s.current, todo) :: s.stack, c :: s.seen⟩ where
  root := by
    obtain ⟨path, hpath, hseen⟩ := h.root
    refine ⟨c :: path, congrArg (c :: ·) hpath, fun d hd => ?_⟩
    rcases List.mem_cons.mp hd with rfl | hd
    · exact List.mem_cons_self
    · exact List.mem_cons_of_mem _ (hseen d hd)
  reachable d hd := by
    have hcur := h.reachable s.current List.mem_cons_self
    have hc : P.Reachable c₀ c := by
      obtain ⟨tried, hways, -⟩ := h.tried _ List.mem_cons_self
      refine hcur.tail ⟨x, ?_, hx⟩
      rw [hways, htodo]
      exact List.mem_append_right _ List.mem_cons_self
    simp only [List.map_cons, List.cons_append, List.mem_cons, List.mem_append] at hd
    rcases hd with rfl | rfl | hd | rfl | hd
    · exact hc
    · exact hcur
    · exact h.reachable d (List.mem_cons_of_mem _ (List.mem_append_left _ hd))
    · exact hc
    · exact h.reachable d (List.mem_append_right _ hd)
  tried frame hframe := by
    simp only [List.mem_cons] at hframe
    rcases hframe with rfl | rfl | hframe
    · exact ⟨[], rfl, nofun⟩
    · have hold := (h.tried _ List.mem_cons_self).mono (List.subset_cons_self c s.seen)
      refine Tried.cons (htodo ▸ hold) fun d hd => ?_
      rw [Option.some.inj (hx.symm.trans hd)]
      exact List.mem_cons_self
    · exact (h.tried frame (List.mem_cons_of_mem _ hframe)).mono (List.subset_cons_self _ _)
  done d hd hnot := by
    rcases List.mem_cons.mp hd with rfl | hd
    · exact absurd List.mem_cons_self hnot
    · obtain ⟨hg, hleads⟩ := h.done d hd fun hmem => hnot (List.mem_cons_of_mem _ hmem)
      exact ⟨hg, fun d' hd' => List.mem_cons_of_mem _ (hleads d' hd')⟩
  passed d hd := by
    rcases List.mem_cons.mp hd with rfl | hd
    · exact hgoal
    · exact h.passed d hd
  nodup := List.nodup_cons.mpr ⟨hnew, h.nodup⟩

/-- The search goes back from a place of which it has tried all ways. -/
theorem leave (h : P.Explored c₀ s) {c : C} {todo : List X} {stack : List (C × List X)}
    (htodo : s.todo = []) (hstack : s.stack = (c, todo) :: stack)
    (hgoal : P.goal s.current = false) : P.Explored c₀ ⟨c, todo, stack, s.seen⟩ where
  root := by
    obtain ⟨path, hpath, hseen⟩ := h.root
    rw [hstack, List.map_cons] at hpath
    cases path with
    | nil => exact absurd (congrArg List.length hpath) (by simp)
    | cons d path =>
      exact ⟨path, (List.cons.inj hpath).2, fun e he => hseen e (List.mem_cons_of_mem _ he)⟩
  reachable d hd := by
    refine h.reachable d (List.mem_cons_of_mem _ ?_)
    rwa [hstack, List.map_cons]
  tried frame hframe := h.tried frame (List.mem_cons_of_mem _ (hstack ▸ hframe))
  done d hd hnot := by
    rcases eq_or_ne d s.current with rfl | hne
    · exact ⟨hgoal, fun d' => (htodo ▸ h.tried _ List.mem_cons_self).leads⟩
    · refine h.done d hd fun hmem => ?_
      rcases List.mem_cons.mp hmem with heq | hmem
      · exact hne heq
      · rw [hstack, List.map_cons] at hmem
        exact hnot hmem
  passed d hd := h.passed d (hstack ▸ List.mem_cons_of_mem _ hd)
  nodup := h.nodup

/-- **There is nowhere left to go.** What was seen has no way out. -/
theorem exhausted (h : P.Explored c₀ s) (htodo : s.todo = []) (hstack : s.stack = [])
    (hgoal : P.goal s.current = false) {c : C} (hc : P.Reachable c₀ c) : P.goal c = false := by
  obtain ⟨path, hpath, -⟩ := h.root
  rw [hstack, List.map_nil] at hpath
  have hroot : s.current = c₀ := by
    cases path with
    | nil => exact (List.cons.inj hpath).1
    | cons d path => exact absurd (congrArg List.length hpath) (by simp)
  have hall : ∀ d, d = c₀ ∨ d ∈ s.seen →
      P.goal d = false ∧ ∀ d', P.Leads d d' → d' ∈ s.seen := by
    intro d hd
    by_cases heq : d = c₀
    · rw [heq, ← hroot]
      exact ⟨hgoal, fun d' => (htodo ▸ h.tried _ List.mem_cons_self).leads⟩
    · refine h.done d (hd.resolve_left heq) ?_
      rw [hstack, hroot, List.map_nil, List.mem_singleton]
      exact heq
  have hclosed : c = c₀ ∨ c ∈ s.seen := by
    induction hc with
    | refl => exact .inl rfl
    | tail _ hlead ih => exact .inr ((hall _ ih).2 _ hlead)
  exact (hall c hclosed).1

end Explored

/-! ### What the search comes to -/

section Halts

variable [DecidableEq C]

variable (P) in
/-- One step: a goal is found, or a way is tried, or the search goes back. -/
def next (s : Search C X) : Bool ⊕ Search C X :=
  if P.goal s.current then .inl true
  else
    match s.todo with
    | x :: todo =>
      match P.follow s.current x with
      | some c =>
        if c ∈ s.seen then .inr { s with todo := todo }
        else .inr ⟨c, P.ways c, (s.current, todo) :: s.stack, c :: s.seen⟩
      | none => .inr { s with todo := todo }
    | [] =>
      match s.stack with
      | (c, todo) :: stack => .inr ⟨c, todo, stack, s.seen⟩
      | [] => .inl false

variable (P) in
/-- The search halts. -/
def Halts (N : ℕ) (s : Search C X) (b : Bool) : Prop := HaltsIn (fun s r => P.next s = r) N s b

/-- The places that have not been seen, those that the search has come through, and the ways that
are left to try. -/
noncomputable def rank (hfin : {c | P.Reachable c₀ c}.Finite) (s : Search C X) : ℕ ×ₗ ℕ ×ₗ ℕ :=
  toLex (hfin.toFinset.card - s.seen.length, toLex (s.stack.length, s.todo.length))

theorem Explored.length_seen_le (h : P.Explored c₀ s)
    (hfin : {c | P.Reachable c₀ c}.Finite) : s.seen.length ≤ hfin.toFinset.card := by
  rw [← List.toFinset_card_of_nodup h.nodup]
  refine Finset.card_le_card fun c hc => ?_
  rw [Set.Finite.mem_toFinset]
  exact h.reachable c (List.mem_append_right _ (List.mem_toFinset.mp hc))

/-- What a step may come to: the right result, or less that is left to do. -/
def Progress (hfin : {c | P.Reachable c₀ c}.Finite) (s : Search C X) : Bool ⊕ Search C X → Prop
  | .inl b => b = true ↔ ∃ c, P.Reachable c₀ c ∧ P.goal c = true
  | .inr s' => P.Explored c₀ s' ∧ rank hfin s' < rank hfin s

/-- **One step** of the search. -/
theorem Explored.progress (h : P.Explored c₀ s) (hfin : {c | P.Reachable c₀ c}.Finite) :
    Progress hfin s (P.next s) := by
  rw [Problem.next]
  split_ifs with hgoal
  · exact ⟨fun _ => ⟨s.current, h.reachable _ List.mem_cons_self, hgoal⟩, fun _ => rfl⟩
  rw [Bool.not_eq_true] at hgoal
  have hshorter : ∀ {x todo}, s.todo = x :: todo →
      rank hfin { s with todo := todo } < rank hfin s := by
    intro x todo htodo
    refine Prod.Lex.right _ (Prod.Lex.right _ ?_)
    rw [htodo]
    exact Nat.lt_succ_self _
  split
  · next x todo htodo =>
    split
    · next c hx =>
      split_ifs with hseen
      · refine ⟨h.skip htodo fun d hd => ?_, hshorter htodo⟩
        rwa [← Option.some.inj (hx.symm.trans hd)]
      · have henter := h.enter htodo hx hseen hgoal
        refine ⟨henter, Prod.Lex.left _ _ ?_⟩
        have hle : s.seen.length + 1 ≤ hfin.toFinset.card := henter.length_seen_le hfin
        show hfin.toFinset.card - (s.seen.length + 1) < hfin.toFinset.card - s.seen.length
        omega
    · next hx =>
      refine ⟨h.skip htodo fun d hd => ?_, hshorter htodo⟩
      exact nomatch hx.symm.trans hd
  · next htodo =>
    split
    · next c todo stack hstack =>
      refine ⟨h.leave htodo hstack hgoal, Prod.Lex.right _ (Prod.Lex.left _ _ ?_)⟩
      rw [hstack]
      exact Nat.lt_succ_self _
    · next hstack =>
      refine ⟨nofun, fun ⟨c, hc, hgoal'⟩ => ?_⟩
      exact absurd hgoal' (Bool.eq_false_iff.mp (h.exhausted htodo hstack hgoal hc))

/-- **The search halts**, and finds a goal if and only if one is reachable. -/
theorem halts (hfin : {c | P.Reachable c₀ c}.Finite) :
    ∃ N b, P.Halts N (P.start c₀) b ∧ (b = true ↔ ∃ c, P.Reachable c₀ c ∧ P.goal c = true) := by
  suffices hall : ∀ s, P.Explored c₀ s → ∃ N b, P.Halts N s b ∧
      (b = true ↔ ∃ c, P.Reachable c₀ c ∧ P.goal c = true) from hall _ (explored_start c₀)
  intro s
  -- by induction on what is left to do
  induction hr : rank hfin s using WellFoundedLT.induction generalizing s with
  | ind r ih =>
    intro h
    have hprogress := h.progress hfin
    cases hs : P.next s with
    | inl b =>
      rw [hs] at hprogress
      exact ⟨1, b, .now hs, hprogress⟩
    | inr s' =>
      rw [hs] at hprogress
      obtain ⟨N, b, hhalts, hb⟩ := ih _ (hr ▸ hprogress.2) s' rfl hprogress.1
      exact ⟨N + 1, b, .later hs hhalts, hb⟩

end Halts

end Problem

end Foundations
