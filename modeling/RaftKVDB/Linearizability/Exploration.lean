import Mathlib.Data.List.Pairwise
import RaftKVDB.Foundations.Search
import RaftKVDB.Linearizability.CheckSingle

/-!
# What there is to be searched

A configuration is a set of operations that are in the order already, and the state that they lead
to. The operations that may come next are those that were called before any of the remaining ones
returned: in the order of times, their calls come before all returns. A history is linearizable if
and only if the configuration of all operations can be reached.

## Main results

* `Model.Linearizable` — what the checker is for
* `Model.reachable_goal_iff` — a history is linearizable if and only if a goal is reachable
-/

namespace RaftKVDB

open Foundations

variable {I O S : Type}

/-! ### Linearizable histories -/

/-- The model accepts the operations one after the other. -/
def Model.Accepts (model : Model I O S) : S → List (Operation I O) → Prop
  | _, [] => True
  | s, op :: ops => (model.step s op.input op.output).1 = true ∧
      model.Accepts (model.step s op.input op.output).2 ops

/-- **A linearizable history**: there is an order of its operations that the model accepts, in which
no operation comes before one that returned before it was called. -/
def Model.Linearizable (model : Model I O S) (history : List (Operation I O)) : Prop :=
  ∃ order : List (Operation I O), order.Perm history ∧
    order.Pairwise (fun a b => ¬b.ret < a.call) ∧ model.Accepts model.init order

/-- Operations are called before they return, and all times are distinct. -/
structure WellTimed (history : List (Operation I O)) : Prop where
  lt : ∀ op ∈ history, op.call < op.ret
  nodup : (history.flatMap fun op => [op.call, op.ret]).Nodup

/-! ### The entries of a history -/

variable {history : List (Operation I O)} {e : Entry I O} {k : ℕ}

theorem mem_entriesFrom : e ∈ entriesFrom k history ↔ ∃ (i : ℕ) (op : Operation I O),
    history[i]? = some op ∧ (e = op.callEntry (k + i) ∨ e = op.returnEntry (k + i)) := by
  induction history generalizing k with
  | nil => simp [entriesFrom]
  | cons op history ih =>
    rw [entriesFrom, List.mem_cons, List.mem_cons, ih]
    constructor
    · rintro (rfl | rfl | ⟨i, op', hop, he⟩)
      · exact ⟨0, op, rfl, .inl rfl⟩
      · exact ⟨0, op, rfl, .inr rfl⟩
      · refine ⟨i + 1, op', hop, ?_⟩
        rwa [← Nat.add_assoc, Nat.add_right_comm]
    · rintro ⟨_ | i, op', hop, he⟩
      · cases hop
        exact he.imp id .inl
      · refine .inr (.inr ⟨i, op', hop, ?_⟩)
        rwa [← Nat.add_assoc, Nat.add_right_comm] at he

theorem mem_makeEntries : e ∈ makeEntries history ↔ ∃ (i : ℕ) (op : Operation I O),
    history[i]? = some op ∧ (e = op.callEntry i ∨ e = op.returnEntry i) := by
  rw [makeEntries, List.mem_insertionSort, mem_entriesFrom]
  simp only [Nat.zero_add]

theorem callEntry_mem {i : ℕ} {op : Operation I O} (hop : history[i]? = some op) :
    op.callEntry i ∈ makeEntries history := mem_makeEntries.mpr ⟨i, op, hop, .inl rfl⟩

theorem returnEntry_mem {i : ℕ} {op : Operation I O} (hop : history[i]? = some op) :
    op.returnEntry i ∈ makeEntries history := mem_makeEntries.mpr ⟨i, op, hop, .inr rfl⟩

theorem length_makeEntries : (makeEntries history).length = 2 * history.length := by
  rw [makeEntries, List.length_insertionSort]
  generalize 0 = k
  induction history generalizing k with
  | nil => rfl
  | cons op history ih =>
    rw [entriesFrom, List.length_cons, List.length_cons, ih, List.length_cons]
    omega

theorem nodup_keys_entriesFrom : ((entriesFrom k history).map Entry.key).Nodup := by
  induction history generalizing k with
  | nil => exact List.nodup_nil
  | cons op history ih =>
    have hlater : ∀ kind, (kind, k) ∉ (entriesFrom (k + 1) history).map Entry.key := by
      intro kind hmem
      obtain ⟨e, he, hkey⟩ := List.mem_map.mp hmem
      have hid : e.id = k := congrArg Prod.snd hkey
      obtain ⟨i, op', -, rfl | rfl⟩ := mem_entriesFrom.mp he
      · exact absurd hid (by simp [Operation.callEntry]; omega)
      · exact absurd hid (by simp [Operation.returnEntry]; omega)
    rw [entriesFrom, List.map_cons, List.map_cons, List.nodup_cons, List.nodup_cons]
    refine ⟨fun hmem => ?_, hlater _, ih⟩
    rcases List.mem_cons.mp hmem with heq | hmem
    · exact nomatch congrArg Prod.fst heq
    · exact hlater _ hmem

theorem nodup_keys : ((makeEntries history).map Entry.key).Nodup :=
  ((List.perm_insertionSort _ _).map _).nodup_iff.mpr nodup_keys_entriesFrom

theorem times_entriesFrom : (entriesFrom k history).map Entry.time =
    history.flatMap fun op => [op.call, op.ret] := by
  induction history generalizing k with
  | nil => rfl
  | cons op history ih =>
    rw [entriesFrom, List.map_cons, List.map_cons, ih]
    rfl

theorem WellTimed.nodup_times (h : WellTimed history) :
    ((makeEntries history).map Entry.time).Nodup := by
  refine ((List.perm_insertionSort _ _).map _).nodup_iff.mpr ?_
  rw [times_entriesFrom]
  exact h.nodup

/-- **Later entries have later times.** -/
theorem WellTimed.sorted (h : WellTimed history) :
    (makeEntries history).Pairwise fun a b => a.time < b.time := by
  have hle : (makeEntries history).Pairwise fun a b => a.time ≤ b.time := by
    have : Std.Total fun a b : Entry I O => a.time ≤ b.time := ⟨fun a b => le_total _ _⟩
    have : IsTrans (Entry I O) fun a b => a.time ≤ b.time := ⟨fun _ _ _ => le_trans⟩
    exact List.pairwise_insertionSort _ _
  have hne : (makeEntries history).Pairwise fun a b => a.time ≠ b.time :=
    List.pairwise_map.mp h.nodup_times
  exact hle.imp₂ (fun _ _ => lt_of_le_of_ne) hne

/-- No operation returns at the time at which one is called. -/
theorem WellTimed.call_ne_ret (h : WellTimed history) {i j : ℕ} {op op' : Operation I O}
    (hi : history[i]? = some op) (hj : history[j]? = some op') : op.call ≠ op'.ret := by
  intro heq
  have hsame := List.inj_on_of_nodup_map h.nodup_times (callEntry_mem hi) (returnEntry_mem hj) heq
  exact nomatch congrArg Entry.kind hsame

/-! ### Configurations -/

/-- The entries of the operations that are not in the order yet. -/
def remaining (history : List (Operation I O)) (b : Bitset) : List (Entry I O) :=
  (makeEntries history).filter fun e => !b.has e.id

/-- A call. -/
def Entry.isCall (e : Entry I O) : Bool := e.kind == .callEntry

/-- **The search** through the configurations: the operations that may come next are those whose
calls come before all returns. -/
def Model.problem (model : Model I O S) (history : List (Operation I O)) :
    Problem (Bitset × S) ℕ where
  ways c := ((remaining history c.1).takeWhile Entry.isCall).map Entry.id
  follow c id := (history[id]?).bind fun op =>
    let (ok, newState) := model.step c.2 op.input op.output
    if ok then some (c.1.insert id, newState) else none
  goal c := (remaining history c.1).isEmpty

/-- There is a bit for every operation. -/
def Fits (history : List (Operation I O)) (b : Bitset) : Prop :=
  ∀ i < history.length, i / 64 < b.words.length

variable {model : Model I O S} {b : Bitset} {c c' : Bitset × S} {i : ℕ} {op : Operation I O}

theorem mem_remaining : e ∈ remaining history b ↔ ∃ (i : ℕ) (op : Operation I O),
    history[i]? = some op ∧ b.has i = false ∧ (e = op.callEntry i ∨ e = op.returnEntry i) := by
  rw [remaining, List.mem_filter, mem_makeEntries, Bool.not_eq_true']
  constructor
  · rintro ⟨⟨i, op, hop, rfl | rfl⟩, hb⟩
    · exact ⟨i, op, hop, hb, .inl rfl⟩
    · exact ⟨i, op, hop, hb, .inr rfl⟩
  · rintro ⟨i, op, hop, hb, rfl | rfl⟩
    · exact ⟨⟨i, op, hop, .inl rfl⟩, hb⟩
    · exact ⟨⟨i, op, hop, .inr rfl⟩, hb⟩

theorem follow_eq_some : (model.problem history).follow c i = some c' ↔
    ∃ op, history[i]? = some op ∧ (model.step c.2 op.input op.output).1 = true ∧
      c' = (c.1.insert i, (model.step c.2 op.input op.output).2) := by
  simp only [Model.problem, Option.bind_eq_some_iff, Option.ite_none_right_eq_some,
    Option.some.injEq, @eq_comm _ _ c']

/-- The first entries of a list that is sorted are the calls that come before all returns. -/
theorem mem_takeWhile_isCall {l : List (Entry I O)} (hl : l.Pairwise fun a b => a.time < b.time) :
    e ∈ l.takeWhile Entry.isCall ↔
      e ∈ l ∧ e.isCall = true ∧ ∀ r ∈ l, r.isCall = false → e.time < r.time := by
  induction l with
  | nil => simp
  | cons x l ih =>
    obtain ⟨hx, hl⟩ := List.pairwise_cons.mp hl
    cases hcall : x.isCall with
    | false =>
      rw [List.takeWhile_cons_of_neg (by simp [hcall])]
      refine ⟨nofun, fun ⟨he, _, hfirst⟩ => ?_⟩
      have hlt := hfirst x List.mem_cons_self hcall
      rcases List.mem_cons.mp he with rfl | he
      · exact absurd hlt (lt_irrefl _)
      · exact absurd hlt (hx e he).asymm
    | true =>
      rw [List.takeWhile_cons_of_pos hcall, List.mem_cons, List.mem_cons, ih hl]
      constructor
      · rintro (rfl | ⟨he, hec, hfirst⟩)
        · refine ⟨.inl rfl, hcall, fun r hr hret => ?_⟩
          rcases List.mem_cons.mp hr with rfl | hr
          · exact absurd (hcall.symm.trans hret) nofun
          · exact hx r hr
        · refine ⟨.inr he, hec, fun r hr hret => ?_⟩
          rcases List.mem_cons.mp hr with rfl | hr
          · exact absurd (hcall.symm.trans hret) nofun
          · exact hfirst r hr hret
      · rintro ⟨rfl | he, hec, hfirst⟩
        · exact .inl rfl
        · exact .inr ⟨he, hec, fun r hr => hfirst r (List.mem_cons_of_mem _ hr)⟩

theorem WellTimed.sorted_remaining (h : WellTimed history) (b : Bitset) :
    (remaining history b).Pairwise fun a b => a.time < b.time :=
  h.sorted.sublist List.filter_sublist

/-- **What may come next**: an operation that was called before any of the others returned. -/
theorem mem_ways (h : WellTimed history) : i ∈ (model.problem history).ways c ↔
    ∃ op, history[i]? = some op ∧ c.1.has i = false ∧
      ∀ (j : ℕ) (op' : Operation I O), history[j]? = some op' → c.1.has j = false →
        op.call < op'.ret := by
  simp only [Model.problem, List.mem_map, mem_takeWhile_isCall (h.sorted_remaining c.1)]
  constructor
  · rintro ⟨e, ⟨he, hcall, hfirst⟩, rfl⟩
    obtain ⟨i, op, hop, hb, rfl | rfl⟩ := mem_remaining.mp he
    · refine ⟨op, hop, hb, fun j op' hop' hj => ?_⟩
      exact hfirst (op'.returnEntry j) (mem_remaining.mpr ⟨j, op', hop', hj, .inr rfl⟩) rfl
    · exact nomatch hcall
  · rintro ⟨op, hop, hb, hfirst⟩
    refine ⟨op.callEntry i, ⟨mem_remaining.mpr ⟨i, op, hop, hb, .inl rfl⟩, rfl, ?_⟩, rfl⟩
    intro r hr hret
    obtain ⟨j, op', hop', hj, rfl | rfl⟩ := mem_remaining.mp hr
    · exact nomatch hret
    · exact hfirst j op' hop' hj

/-- No entries remain if no operation does. -/
theorem goal_iff : (model.problem history).goal c = true ↔
    ∀ (i : ℕ) (op : Operation I O), history[i]? = some op → c.1.has i = true := by
  simp only [Model.problem, List.isEmpty_iff]
  constructor
  · intro hempty i op hop
    by_contra hb
    have hmem : op.callEntry i ∈ remaining history c.1 :=
      mem_remaining.mpr ⟨i, op, hop, Bool.eq_false_iff.mpr hb, .inl rfl⟩
    rw [hempty] at hmem
    exact nomatch hmem
  · intro hall
    refine List.eq_nil_iff_forall_not_mem.mpr fun e he => ?_
    obtain ⟨i, op, hop, hb, -⟩ := mem_remaining.mp he
    exact Bool.eq_false_iff.mp hb (hall i op hop)

/-! ### Orders of what remains -/

/-- There is an order of the remaining operations, with their numbers, which the model accepts. -/
def Model.Completes (model : Model I O S) (history : List (Operation I O)) (c : Bitset × S) :
    Prop :=
  ∃ order : List (Operation I O × ℕ), order.Nodup ∧
    (∀ x, x ∈ order ↔ history[x.2]? = some x.1 ∧ c.1.has x.2 = false) ∧
    order.Pairwise (fun x y => ¬y.1.ret < x.1.call) ∧ model.Accepts c.2 (order.map Prod.fst)

theorem Fits.insert (h : Fits history b) (i : ℕ) : Fits history (b.insert i) := fun j hj =>
  (h j hj).trans_eq Bitset.length_insert.symm

theorem Fits.has_insert (h : Fits history b) (hop : history[i]? = some op) (j : ℕ) :
    (b.insert i).has j = (decide (j = i) || b.has j) :=
  Bitset.has_insert (h i (List.getElem?_eq_some_iff.mp hop).1) j

/-- What remains when one more operation is in the order. -/
theorem Fits.remains_insert (h : Fits history b) (hop : history[i]? = some op)
    (x : Operation I O × ℕ) :
    (history[x.2]? = some x.1 ∧ (b.insert i).has x.2 = false) ↔
      (history[x.2]? = some x.1 ∧ b.has x.2 = false) ∧ x ≠ (op, i) := by
  rw [h.has_insert hop, Bool.or_eq_false_iff, decide_eq_false_iff_not]
  constructor
  · rintro ⟨hx, hne, hb⟩
    refine ⟨⟨hx, hb⟩, ?_⟩
    rintro rfl
    exact hne rfl
  · rintro ⟨⟨hx, hb⟩, hne⟩
    refine ⟨hx, fun heq => hne ?_, hb⟩
    rw [heq, hop] at hx
    exact Prod.ext (Option.some.inj hx).symm heq

/-- An operation that may come next is put before an order of the others. -/
theorem Model.Completes.of_leads (h : WellTimed history) (hfits : Fits history c.1)
    (hlead : (model.problem history).Leads c c') (hc' : model.Completes history c') :
    model.Completes history c := by
  obtain ⟨i, hi, hfollow⟩ := hlead
  obtain ⟨op, hop, hb, hfirst⟩ := (mem_ways h).mp hi
  obtain ⟨op', hop', hok, rfl⟩ := follow_eq_some.mp hfollow
  obtain rfl := Option.some.inj (hop.symm.trans hop')
  obtain ⟨order, hnodup, hmem, hpair, hacc⟩ := hc'
  have hmem' : ∀ x, x ∈ order ↔
      (history[x.2]? = some x.1 ∧ c.1.has x.2 = false) ∧ x ≠ (op, i) := fun x =>
    (hmem x).trans (hfits.remains_insert hop x)
  refine ⟨(op, i) :: order, ?_, fun x => ?_, ?_, hok, hacc⟩
  · exact List.nodup_cons.mpr ⟨fun hx => ((hmem' _).mp hx).2 rfl, hnodup⟩
  · rw [List.mem_cons, hmem']
    constructor
    · rintro (rfl | hx)
      · exact ⟨hop, hb⟩
      · exact hx.1
    · intro hx
      rcases eq_or_ne x (op, i) with heq | hne
      · exact .inl heq
      · exact .inr ⟨hx, hne⟩
  · refine List.pairwise_cons.mpr ⟨fun y hy => ?_, hpair⟩
    obtain ⟨⟨hy, hby⟩, -⟩ := (hmem' y).mp hy
    exact (hfirst y.2 y.1 hy hby).asymm

/-- **A configuration can be completed if and only if a goal is reachable.** -/
theorem completes_iff (h : WellTimed history) (hfits : Fits history c.1) :
    model.Completes history c ↔
      ∃ c', (model.problem history).Reachable c c' ∧ (model.problem history).goal c' = true := by
  constructor
  · rintro ⟨order, hnodup, hmem, hpair, hacc⟩
    -- the operations of the order, one after the other
    induction order generalizing c with
    | nil =>
      refine ⟨c, .refl, goal_iff.mpr fun i op hop => ?_⟩
      by_contra hb
      exact nomatch (hmem (op, i)).mpr ⟨hop, Bool.eq_false_iff.mpr hb⟩
    | cons x order ih =>
      obtain ⟨op, i⟩ := x
      obtain ⟨hnot, hnodup⟩ := List.nodup_cons.mp hnodup
      obtain ⟨hfirst, hpair⟩ := List.pairwise_cons.mp hpair
      obtain ⟨hop, hb⟩ := (hmem (op, i)).mp List.mem_cons_self
      obtain ⟨hok, hacc⟩ := hacc
      have hlead : (model.problem history).Leads c
          (c.1.insert i, (model.step c.2 op.input op.output).2) := by
        refine ⟨i, (mem_ways h).mpr ⟨op, hop, hb, fun j op' hop' hj => ?_⟩,
          follow_eq_some.mpr ⟨op, hop, hok, rfl⟩⟩
        rcases List.mem_cons.mp ((hmem (op', j)).mpr ⟨hop', hj⟩) with heq | hlater
        · cases heq
          exact h.lt op (List.mem_of_getElem? hop)
        · exact (not_lt.mp (hfirst _ hlater)).lt_of_ne (h.call_ne_ret hop hop')
      have hmem' : ∀ x, x ∈ order ↔
          history[x.2]? = some x.1 ∧ (c.1.insert i).has x.2 = false := by
        intro x
        rw [hfits.remains_insert hop, ← hmem x, List.mem_cons]
        constructor
        · intro hx
          refine ⟨.inr hx, ?_⟩
          rintro rfl
          exact hnot hx
        · rintro ⟨hx, hne⟩
          exact hx.resolve_left hne
      obtain ⟨c', hreach, hgoal⟩ :=
        ih (c := (c.1.insert i, _)) (hfits.insert i) hnodup hmem' hpair hacc
      exact ⟨c', .head hlead hreach, hgoal⟩
  · rintro ⟨c', hreach, hgoal⟩
    induction hreach using Relation.ReflTransGen.head_induction_on with
    | refl =>
      refine ⟨[], List.nodup_nil, fun x => ⟨nofun, fun ⟨hx, hb⟩ => ?_⟩, .nil, trivial⟩
      exact absurd (goal_iff.mp hgoal _ _ hx) (Bool.eq_false_iff.mp hb)
    | head hlead _ ih =>
      refine Model.Completes.of_leads h hfits hlead (ih ?_)
      obtain ⟨i, -, hfollow⟩ := hlead
      obtain ⟨op, -, -, rfl⟩ := follow_eq_some.mp hfollow
      exact hfits.insert i

/-- Numbering the operations makes no difference to the orders of a history. -/
theorem exists_order_zipIdx {order : List (Operation I O)} (h : order.Perm history) :
    ∃ order' : List (Operation I O × ℕ), order'.Perm history.zipIdx ∧
      order'.map Prod.fst = order := by
  have hall : List.Forall₂ (fun op x => op = Prod.fst x) history history.zipIdx := by
    refine List.forall₂_iff_get.mpr ⟨by simp, fun i h₁ h₂ => ?_⟩
    simp
  obtain ⟨order', heq, hperm⟩ := List.perm_comp_forall₂ h hall
  refine ⟨order', hperm, ?_⟩
  rw [← List.forall₂_eq_eq_eq, List.forall₂_map_left_iff]
  exact heq.flip.imp fun _ _ => Eq.symm

/-- At the start, what remains is everything. -/
theorem linearizable_iff_completes :
    model.Linearizable history ↔
      model.Completes history (Bitset.newBitset history.length, model.init) := by
  have hnodup : history.zipIdx.Nodup := by
    refine List.Nodup.of_map Prod.snd ?_
    rw [List.zipIdx_map_snd]
    exact List.nodup_range'
  have hmem : ∀ x, x ∈ history.zipIdx ↔ history[x.2]? = some x.1 ∧
      (Bitset.newBitset history.length).has x.2 = false := by
    intro x
    rw [List.mem_zipIdx_iff_getElem?, Bitset.has_newBitset]
    exact (and_iff_left rfl).symm
  constructor
  · rintro ⟨order, hperm, hpair, hacc⟩
    obtain ⟨order', hperm', rfl⟩ := exists_order_zipIdx hperm
    refine ⟨order', hperm'.nodup_iff.mpr hnodup, fun x => ?_, List.pairwise_map.mp hpair, hacc⟩
    rw [hperm'.mem_iff]
    exact hmem x
  · rintro ⟨order, hnodup', hmem', hpair, hacc⟩
    refine ⟨order.map Prod.fst, ?_, List.pairwise_map.mpr hpair, hacc⟩
    have hperm : order.Perm history.zipIdx :=
      (List.perm_ext_iff_of_nodup hnodup' hnodup).mpr fun x => (hmem' x).trans (hmem x).symm
    have hmap := hperm.map Prod.fst
    rwa [List.zipIdx_map_fst] at hmap

theorem fits_newBitset : Fits history (Bitset.newBitset history.length) := fun _ =>
  Bitset.lt_length_newBitset

/-- **A history is linearizable if and only if a goal is reachable.** -/
theorem Model.reachable_goal_iff (h : WellTimed history) :
    model.Linearizable history ↔ ∃ c, (model.problem history).Reachable
      (Bitset.newBitset history.length, model.init) c ∧ (model.problem history).goal c = true :=
  linearizable_iff_completes.trans (completes_iff h fits_newBitset)

/-- **The search is finite**, since every operation is put in the order once. -/
theorem Model.finite_reachable (h : WellTimed history) (hfits : Fits history c.1) :
    {c' | (model.problem history).Reachable c c'}.Finite := by
  refine (model.problem history).finite_reachable (μ := fun c => (remaining history c.1).length)
    (fun c c' (hc : Fits history c.1) hlead => ?_) (fun c c' hc hlead => ?_) hfits
  · obtain ⟨i, -, hfollow⟩ := hlead
    obtain ⟨op, -, -, rfl⟩ := follow_eq_some.mp hfollow
    exact hc.insert i
  · obtain ⟨i, hi, hfollow⟩ := hlead
    obtain ⟨op, hop, hb, -⟩ := (mem_ways h).mp hi
    obtain ⟨op', -, -, rfl⟩ := follow_eq_some.mp hfollow
    have hsub : (remaining history (c.1.insert i)).Sublist (remaining history c.1) := by
      refine List.monotone_filter_right _ fun e he => ?_
      rw [hc.has_insert hop, Bool.not_or, Bool.and_eq_true] at he
      exact he.2
    refine hsub.length_le.lt_of_ne fun hlen => ?_
    have hmem : op.callEntry i ∈ remaining history c.1 :=
      mem_remaining.mpr ⟨i, op, hop, hb, .inl rfl⟩
    rw [← hsub.eq_of_length hlen, remaining, List.mem_filter] at hmem
    have hnot := hmem.2
    rw [hc.has_insert hop] at hnot
    simp [Operation.callEntry] at hnot

end RaftKVDB
