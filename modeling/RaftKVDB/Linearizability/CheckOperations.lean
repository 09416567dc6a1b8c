import Mathlib.Algebra.Order.BigOperators.Group.Finset
import RaftKVDB.Foundations.Trace
import RaftKVDB.Linearizability.Correctness
import RaftKVDB.Linearizability.KvModel

/-!
# Checking the parts of a history

`CheckOperations` checks each part of a history in a goroutine of its own, and receives the results
in whatever order they come. At the first `false` it sets `kill` and returns; it returns `true` when
as many results as there are parts have come. There is no timeout.

A step of a goroutine is one turn of one of its loops, the one of `length` or the one of
`checkSingle`; a result is sent over a channel without buffer.

## Main results

* `Check.inevitably_returned` — whatever the order of the steps, the check returns, and it returns
  `true` if and only if all parts are linearizable
* `checkOperations_correct` — for the model of the key/value store: if and only if the history is
  linearizable for a single store
-/

namespace RaftKVDB

open Foundations

variable {I O S : Type}

/-- A goroutine of `CheckOperationsTimeout`. -/
inductive Worker (I O S : Type)
  /-- It has not been started. -/
  | idle (subhistory : List (Operation I O))
  /-- It is in `length`. -/
  | count (linked : LinkedEntries I O) (n : Option ℕ) (l : ℕ)
  /-- It is in the loop of `checkSingle`. -/
  | search (c : Checker I O S)
  /-- It waits until the result is received. -/
  | send (result : Bool)
  | done

namespace Worker

/-- The goroutine is started. -/
def spawn (subhistory : List (Operation I O)) : Worker I O S :=
  let linked := makeLinkedEntries (makeEntries subhistory)
  .count linked linked.root 0

/-- One turn of a loop. -/
def step (model : Model I O S) (kill : Bool) : Worker I O S → Except Fault (Worker I O S)
  | .count linked (some n) l => .ok (.count linked (linked.heap.node n).next (l + 1))
  | .count linked none l => .ok (.search (Checker.start model linked.heap linked.root l))
  | .search c => do
    match ← c.next model kill with
    | .inl result => return .send result
    | .inr c => return .search c
  | .idle _ | .send _ | .done => .error .disabled

/-- It has not been started. -/
def isIdle : Worker I O S → Bool
  | .idle _ => true
  | _ => false

/-- Its result has been received. -/
def isDone : Worker I O S → Bool
  | .done => true
  | _ => false

end Worker

/-- `CheckOperationsTimeout`, and its goroutines. -/
structure Check (I O S : Type) where
  workers : List (Worker I O S)
  /-- How far the loop is that starts the goroutines. -/
  spawned : ℕ
  ok : Bool
  kill : Bool
  count : ℕ
  returned : Option Bool

/-- What happens. -/
inductive CheckEvent
  /-- The next goroutine is started. -/
  | spawn
  /-- A goroutine takes a step. -/
  | work (k : ℕ)
  /-- The result of a goroutine is received. -/
  | receive (k : ℕ)

namespace Check

/-- When the history has been split. -/
def start (model : Model I O S) (history : List (Operation I O)) : Check I O S where
  workers := (model.partition history).map .idle
  spawned := 0
  ok := true
  kill := false
  count := 0
  returned := none

/-- A result is received. -/
def receive (σ : Check I O S) (k : ℕ) (result : Bool) : Check I O S :=
  let ok := σ.ok && result
  let σ := { σ with workers := σ.workers.set k .done, ok := ok }
  if !ok then { σ with kill := true, returned := some ok }
  else
    let count := σ.count + 1
    if count ≥ σ.workers.length then { σ with count := count, returned := some ok }
    else { σ with count := count }

/-- One step of the check. -/
def step (model : Model I O S) (σ : Check I O S) : CheckEvent → Except Fault (Check I O S)
  | .spawn =>
    match σ.workers[σ.spawned]? with
    | some (.idle subhistory) =>
      .ok { σ with
        workers := σ.workers.set σ.spawned (.spawn subhistory)
        spawned := σ.spawned + 1 }
    | _ => .error .disabled
  | .work k =>
    match σ.workers[k]? with
    | some w => do
      let w ← w.step model σ.kill
      return { σ with workers := σ.workers.set k w }
    | none => .error .disabled
  | .receive k =>
    -- the loop that receives comes after the one that starts the goroutines
    if σ.spawned < σ.workers.length ∨ σ.returned ≠ none then .error .disabled
    else
      match σ.workers[k]? with
      | some (.send result) => .ok (σ.receive k result)
      | _ => .error .disabled

end Check

/-! ### What a goroutine will do -/

/-- The goroutine will send a result, in so many steps, if it is not killed. -/
inductive Worker.Promises (model : Model I O S) : ℕ → Worker I O S → Bool → Prop
  | idle {N : ℕ} {subhistory : List (Operation I O)} {b : Bool} :
      Promises model N (.spawn subhistory) b → Promises model (N + 1) (.idle subhistory) b
  | step {N : ℕ} {w w' : Worker I O S} {b : Bool} : w.step model false = .ok w' →
      Promises model N w' b → Promises model (N + 1) w b
  | send (b : Bool) : Promises model 1 (.send b) b
  | done : Promises model 0 .done true

namespace Worker.Promises

variable {model : Model I O S} {N : ℕ} {w w' : Worker I O S} {b : Bool}

theorem search {c : Checker I O S}
    (h : HaltsIn (fun c r => Checker.next model false c = .ok r) N c b) :
    Promises model (N + 1) (.search c) b := by
  induction h with
  | @now c b hnext =>
    have hs : (Worker.search c).step model false = .ok (.send b) := by
      rw [Worker.step, hnext]
      rfl
    exact .step hs (.send b)
  | @later N c c' b hnext _ ih =>
    have hs : (Worker.search c).step model false = .ok (.search c') := by
      rw [Worker.step, hnext]
      rfl
    exact .step hs ih

theorem count {linked : LinkedEntries I O} {nodes : List ℕ} (hl : linked.heap.links.Linked nodes)
    {l : ℕ} (h : Promises model N
      (.search (Checker.start model linked.heap linked.root (l + nodes.length))) b) :
    Promises model (N + 1 + nodes.length) (.count linked nodes.head? l) b := by
  induction nodes generalizing l with
  | nil => exact .step rfl h
  | cons n nodes ih =>
    have hnext : (linked.heap.node n).next = nodes.head? := hl.next_first
    have hs : (Worker.count linked (some n) l).step model false =
        .ok (.count linked nodes.head? (l + 1)) := by
      rw [Worker.step, hnext]
    refine .step hs (ih hl.tail ?_)
    rwa [Nat.add_right_comm]

/-- A goroutine that is started on a history will send the right result. -/
theorem exists_idle (hequal : ∀ s s', model.equal s s' = true ↔ s = s')
    {subhistory : List (Operation I O)} (ht : WellTimed subhistory) : ∃ N b,
    Promises model N (.idle subhistory) b ∧ (b = true ↔ model.Linearizable subhistory) := by
  obtain ⟨N, b, hhalts, hb⟩ := checkSingle_halts hequal ht
  have hspec := makeLinkedEntries_spec (makeEntries subhistory)
  have hsearch : Promises model (N + 1) (.search (Checker.startOn model subhistory)) b :=
    search hhalts
  have hspawn : ∃ N, Promises model N (.spawn subhistory) b := by
    rw [Worker.spawn, hspec.root]
    refine ⟨_, count hspec.linked (N := N + 1) ?_⟩
    rwa [Nat.zero_add, List.length_reverse, List.length_range]
  obtain ⟨N, hspawn⟩ := hspawn
  exact ⟨N + 1, b, .idle hspawn, hb⟩

theorem of_step (h : Promises model N w b) (hs : w.step model false = .ok w') :
    ∃ m < N, Promises model m w' b := by
  cases h with
  | idle => cases hs
  | @step N _ w'' _ hs' h =>
    obtain rfl : w' = w'' := Except.ok.inj (hs.symm.trans hs')
    exact ⟨N, Nat.lt_succ_self N, h⟩
  | send => cases hs
  | done => cases hs

theorem step_ne_panic (h : Promises model N w b) : w.step model false ≠ .error .panic := by
  cases h with
  | idle => exact nofun
  | step hs => rw [hs]; exact nofun
  | send => exact nofun
  | done => exact nofun

theorem of_idle {subhistory : List (Operation I O)} (h : Promises model N (.idle subhistory) b) :
    ∃ m < N, Promises model m (.spawn subhistory) b := by
  cases h with
  | idle h => exact ⟨_, Nat.lt_succ_self _, h⟩
  | step hs => cases hs

theorem of_send {result : Bool} (h : Promises model N (.send result) b) : N = 1 ∧ result = b := by
  cases h with
  | step hs => cases hs
  | send => exact ⟨rfl, rfl⟩

theorem of_done (h : Promises model N .done b) : b = true := by
  cases h with
  | step hs => cases hs
  | done => rfl

end Worker.Promises

theorem Worker.of_step {model : Model I O S} {w w' : Worker I O S}
    (hs : w.step model false = .ok w') :
    (w.isIdle = false ∧ w.isDone = false) ∧ w'.isIdle = false ∧ w'.isDone = false := by
  cases w with
  | idle | send | done => cases hs
  | count linked n l =>
    refine ⟨⟨rfl, rfl⟩, ?_⟩
    cases n <;> (cases hs; exact ⟨rfl, rfl⟩)
  | search c =>
    refine ⟨⟨rfl, rfl⟩, ?_⟩
    obtain ⟨r, -, hr⟩ := bind_eq_ok.mp hs
    cases r <;> (cases hr; exact ⟨rfl, rfl⟩)

/-! ### What the check will return -/

/-- The goroutines will send the results, in so many steps together. -/
def Planned (model : Model I O S) (verdict : ℕ → Bool) (n : ℕ) (workers : List (Worker I O S)) :
    Prop :=
  ∃ rank : ℕ → ℕ, ∑ i ∈ Finset.range workers.length, rank i = n ∧
    ∀ (i : ℕ) (w : Worker I O S), workers[i]? = some w → w.Promises model (rank i) (verdict i)

/-- The check has not returned. -/
structure Check.Working (model : Model I O S) (parts : ℕ) (verdict : ℕ → Bool) (n : ℕ)
    (σ : Check I O S) : Prop where
  length : σ.workers.length = parts
  ok : σ.ok = true
  kill : σ.kill = false
  returned : σ.returned = none
  planned : Planned model verdict n σ.workers
  idle : ∀ i w, σ.workers[i]? = some w → (w.isIdle = true ↔ σ.spawned ≤ i)
  count : σ.count = σ.workers.countP Worker.isDone
  more : σ.count < σ.workers.length

/-- The check has returned what it should. -/
def Check.Returned (parts : ℕ) (verdict : ℕ → Bool) (σ : Check I O S) : Prop :=
  ∃ result, σ.returned = some result ∧ (result = true ↔ ∀ i < parts, verdict i = true)

section Step

variable {model : Model I O S} {verdict : ℕ → Bool} {parts n k : ℕ} {workers : List (Worker I O S)}
  {w w' : Worker I O S} {σ σ' : Check I O S}

/-- What holds of all goroutines, when one of them is replaced. -/
theorem forall_getElem?_set {Q : ℕ → Worker I O S → Prop} (hw : workers[k]? = some w) (hk : Q k w')
    (hrest : ∀ i v, i ≠ k → workers[i]? = some v → Q i v) :
    ∀ i v, (workers.set k w')[i]? = some v → Q i v := by
  intro i v hv
  by_cases hi : i = k
  · rw [hi, List.getElem?_set_self (List.getElem?_eq_some_iff.mp hw).1] at hv
    rw [hi, ← Option.some.inj hv]
    exact hk
  · rw [List.getElem?_set_ne (Ne.symm hi)] at hv
    exact hrest i v hi hv

/-- One goroutine has come nearer to its result. -/
theorem Planned.set (h : Planned model verdict n workers) (hw : workers[k]? = some w)
    (hw' : ∀ N, w.Promises model N (verdict k) → ∃ m < N, w'.Promises model m (verdict k)) :
    ∃ m < n, Planned model verdict m (workers.set k w') := by
  obtain ⟨rank, hsum, hall⟩ := h
  obtain ⟨m, hm, hpromise⟩ := hw' _ (hall k w hw)
  have hk : k < workers.length := (List.getElem?_eq_some_iff.mp hw).1
  refine ⟨_, ?_, Function.update rank k m, rfl, forall_getElem?_set hw ?_ fun i v hi hv => ?_⟩
  · rw [← hsum, List.length_set]
    refine Finset.sum_lt_sum (fun i _ => ?_) ⟨k, Finset.mem_range.mpr hk, ?_⟩
    · by_cases hi : i = k
      · rw [hi, Function.update_self]
        exact hm.le
      · rw [Function.update_of_ne hi]
    · rwa [Function.update_self]
  · rw [Function.update_self]
    exact hpromise
  · rw [Function.update_of_ne hi]
    exact hall i v hv

theorem countP_isDone_set (hw : workers[k]? = some w) (hdone : w.isDone = false)
    (w' : Worker I O S) :
    (workers.set k w').countP Worker.isDone =
      workers.countP Worker.isDone + if w'.isDone then 1 else 0 := by
  obtain ⟨hk, rfl⟩ := List.getElem?_eq_some_iff.mp hw
  rw [List.countP_set hk, hdone]
  simp

theorem Check.step_spawn_iff : Check.step model σ .spawn = .ok σ' ↔
    ∃ subhistory, σ.workers[σ.spawned]? = some (.idle subhistory) ∧
      { σ with
        workers := σ.workers.set σ.spawned (.spawn subhistory)
        spawned := σ.spawned + 1 } = σ' := by
  rw [Check.step]
  split
  · next subhistory hw => simp [hw]
  · next hne => exact ⟨nofun, fun ⟨_, hw, _⟩ => absurd hw (hne _)⟩

theorem Check.step_work_iff : Check.step model σ (.work k) = .ok σ' ↔
    ∃ w w', σ.workers[k]? = some w ∧ w.step model σ.kill = .ok w' ∧
      { σ with workers := σ.workers.set k w' } = σ' := by
  rw [Check.step]
  cases hw : σ.workers[k]? with
  | none => exact ⟨nofun, nofun⟩
  | some w => simp [bind_eq_ok, pure, Except.pure]

theorem Check.step_receive_iff : Check.step model σ (.receive k) = .ok σ' ↔
    (σ.workers.length ≤ σ.spawned ∧ σ.returned = none) ∧
      ∃ result, σ.workers[k]? = some (.send result) ∧ σ.receive k result = σ' := by
  rw [Check.step]
  split
  · next hdisabled =>
    refine ⟨nofun, fun ⟨⟨hle, hnone⟩, _⟩ => ?_⟩
    simp [hle.not_gt, hnone] at hdisabled
  · next henabled =>
    rw [not_or, not_lt, not_not] at henabled
    split
    · next result hw => simp [hw, henabled]
    · next hne => exact ⟨nofun, fun ⟨_, _, hw, _⟩ => absurd hw (hne _)⟩

theorem Check.Working.enabled (h : σ.Working model parts verdict n) :
    ∃ e σ', Check.step model σ e = .ok σ' := by
  by_cases hspawned : σ.spawned < σ.workers.length
  · have hw := List.getElem?_eq_getElem hspawned
    have hidle := (h.idle _ _ hw).mpr (Nat.le_refl _)
    cases hworker : σ.workers[σ.spawned] with
    | idle subhistory => exact ⟨.spawn, _, Check.step_spawn_iff.mpr ⟨_, hworker ▸ hw, rfl⟩⟩
    | count | search | send | done =>
      rw [hworker] at hidle
      cases hidle
  · -- all goroutines have been started, and not all of them are done
    have hnot : ∃ w ∈ σ.workers, w.isDone = false := by
      by_contra hall
      push Not at hall
      have hcount : σ.workers.countP Worker.isDone = σ.workers.length :=
        List.countP_eq_length.mpr fun w hw => Bool.eq_true_of_not_eq_false (hall w hw)
      exact absurd h.more (by rw [h.count, hcount]; exact Nat.lt_irrefl _)
    obtain ⟨w, hmem, hdone⟩ := hnot
    obtain ⟨k, hw⟩ := List.mem_iff_getElem?.mp hmem
    obtain ⟨rank, -, hall⟩ := h.planned
    have hpromise := hall k w hw
    generalize rank k = N, verdict k = b at hpromise
    cases hpromise with
    | idle =>
      have hk := (List.getElem?_eq_some_iff.mp hw).1
      have hle := (h.idle k _ hw).mp rfl
      omega
    | step hs => exact ⟨.work k, _, Check.step_work_iff.mpr ⟨_, _, hw, h.kill ▸ hs, rfl⟩⟩
    | send =>
      exact ⟨.receive k, _,
        Check.step_receive_iff.mpr ⟨⟨not_lt.mp hspawned, h.returned⟩, _, hw, rfl⟩⟩
    | done => cases hdone

theorem Check.Working.step_ne_panic (h : σ.Working model parts verdict n) (e : CheckEvent) :
    Check.step model σ e ≠ .error .panic := by
  obtain ⟨rank, -, hall⟩ := h.planned
  cases e with
  | spawn =>
    rw [Check.step]
    split <;> exact nofun
  | work k =>
    rw [Check.step, h.kill]
    cases hw : σ.workers[k]? with
    | none => exact nofun
    | some w =>
      intro hpanic
      rcases bind_eq_error.mp hpanic with hpanic | ⟨w', -, hpanic⟩
      · exact (hall k w hw).step_ne_panic hpanic
      · cases hpanic
  | receive k =>
    rw [Check.step]
    split
    · exact nofun
    · split <;> exact nofun

theorem Check.Working.spawn (h : σ.Working model parts verdict n)
    (hs : Check.step model σ .spawn = .ok σ') : ∃ m < n, σ'.Working model parts verdict m := by
  obtain ⟨subhistory, hw, rfl⟩ := Check.step_spawn_iff.mp hs
  obtain ⟨m, hm, hplanned⟩ := h.planned.set hw fun N hN => hN.of_idle
  have hlength : (σ.workers.set σ.spawned (.spawn subhistory)).length = σ.workers.length :=
    List.length_set
  refine ⟨m, hm, hlength.trans h.length, h.ok, h.kill, h.returned, hplanned,
    forall_getElem?_set hw ?_ fun i v hi hv => ?_,
    h.count.trans (countP_isDone_set hw rfl (.spawn subhistory)).symm,
    h.more.trans_eq hlength.symm⟩
  · exact ⟨nofun, fun hle => absurd hle (Nat.not_succ_le_self _)⟩
  · rw [h.idle i v hv]
    exact ⟨fun hle => Nat.lt_of_le_of_ne hle (Ne.symm hi), Nat.le_of_succ_le⟩

theorem Check.Working.work (h : σ.Working model parts verdict n)
    (hs : Check.step model σ (.work k) = .ok σ') : ∃ m < n, σ'.Working model parts verdict m := by
  obtain ⟨w, w', hw, hstep, rfl⟩ := Check.step_work_iff.mp hs
  rw [h.kill] at hstep
  obtain ⟨m, hm, hplanned⟩ := h.planned.set hw fun N hN => hN.of_step hstep
  obtain ⟨⟨hidle, hdone⟩, hidle', hdone'⟩ := Worker.of_step hstep
  have hlength : (σ.workers.set k w').length = σ.workers.length := List.length_set
  have hcount := countP_isDone_set hw hdone w'
  rw [hdone'] at hcount
  refine ⟨m, hm, hlength.trans h.length, h.ok, h.kill, h.returned, hplanned,
    forall_getElem?_set hw ?_ fun i v _ hv => h.idle i v hv, h.count.trans hcount.symm,
    h.more.trans_eq hlength.symm⟩
  rw [hidle', ← hidle]
  exact h.idle k w hw

/-- When the last result has been received, all of them are `true`. -/
theorem Planned.verdict_eq_true (h : Planned model verdict n workers)
    (hdone : workers.countP Worker.isDone = workers.length) :
    ∀ i < workers.length, verdict i = true := by
  obtain ⟨rank, -, hall⟩ := h
  intro i hi
  have hw := List.getElem?_eq_getElem hi
  have hdone' := List.countP_eq_length.mp hdone _ (List.getElem_mem hi)
  have hpromise := hall i _ hw
  cases hworker : workers[i] with
  | done =>
    rw [hworker] at hpromise
    exact hpromise.of_done
  | idle | count | search | send =>
    rw [hworker] at hdone'
    cases hdone'

theorem Check.Working.receive (h : σ.Working model parts verdict n)
    (hs : Check.step model σ (.receive k) = .ok σ') :
    σ'.Returned parts verdict ∨ ∃ m < n, σ'.Working model parts verdict m := by
  obtain ⟨⟨hspawned, -⟩, result, hw, rfl⟩ := Check.step_receive_iff.mp hs
  have hk : k < parts := h.length ▸ (List.getElem?_eq_some_iff.mp hw).1
  have hresult : result = verdict k := by
    obtain ⟨rank, -, hall⟩ := h.planned
    exact (hall k _ hw).of_send.2
  cases result with
  | false =>
    refine .inl ⟨false, by simp [Check.receive], nofun, fun hall => ?_⟩
    rw [hresult]
    exact hall k hk
  | true =>
    have hdone : ∀ N, (Worker.send true).Promises model N (verdict k) →
        ∃ m < N, (Worker.done : Worker I O S).Promises model m (verdict k) := by
      intro N hN
      obtain ⟨rfl, -⟩ := hN.of_send
      exact ⟨0, Nat.one_pos, hresult ▸ .done⟩
    obtain ⟨m, hm, hplanned⟩ := h.planned.set hw hdone
    have hlength : (σ.workers.set k .done).length = σ.workers.length := List.length_set
    have hcount : (σ.workers.set k .done).countP Worker.isDone = σ.count + 1 := by
      rw [countP_isDone_set hw rfl .done, ← h.count]
      rfl
    by_cases hlast : σ.workers.length ≤ σ.count + 1
    · -- as many results have been received as there are goroutines
      refine .inl ⟨true, by simp [Check.receive, h.ok, hlast], fun _ => ?_, fun _ => rfl⟩
      have hall := hplanned.verdict_eq_true (by rw [hcount, hlength]; exact hlast.antisymm' h.more)
      rwa [hlength, h.length] at hall
    · have hreceive : σ.receive k true =
          { σ with workers := σ.workers.set k .done, count := σ.count + 1 } := by
        simp [Check.receive, h.ok, hlast]
      rw [hreceive]
      refine .inr ⟨m, hm, hlength.trans h.length, h.ok, h.kill, h.returned, hplanned,
        forall_getElem?_set hw ?_ fun i v _ hv => h.idle i v hv, hcount.symm, ?_⟩
      · exact ⟨nofun, fun hle => absurd (h.length ▸ hspawned.trans hle) hk.not_ge⟩
      · rw [hlength]
        exact not_le.mp hlast

/-- **The check returns**, whatever the order of the steps, and it returns what it should. -/
theorem Check.Working.inevitably (h : σ.Working model parts verdict n) :
    Inevitably (Check.step model) .panic (Check.Returned parts verdict) σ := by
  refine Inevitably.of_rank (fun n σ h => h.enabled) (fun n σ h => h.step_ne_panic)
    (fun n σ e σ' h hs => ?_) h
  cases e with
  | spawn => exact .inr (h.spawn hs)
  | work => exact .inr (h.work hs)
  | receive => exact h.receive hs

end Step

/-- **The check of all parts is right**, whatever the order of the steps: it returns, and it returns
`true` if and only if all parts are linearizable. -/
theorem Check.inevitably_returned {model : Model I O S} {history : List (Operation I O)}
    (hequal : ∀ s s', model.equal s s' = true ↔ s = s') (hne : model.partition history ≠ [])
    (ht : ∀ part ∈ model.partition history, WellTimed part) :
    Inevitably (Check.step model) .panic
      (fun σ => ∃ result, σ.returned = some result ∧
        (result = true ↔ ∀ part ∈ model.partition history, model.Linearizable part))
      (Check.start model history) := by
  have hplan : ∀ i : ℕ, ∃ N b, ∀ part, (model.partition history)[i]? = some part →
      (Worker.idle part).Promises model N b ∧ (b = true ↔ model.Linearizable part) := by
    intro i
    cases hpart : (model.partition history)[i]? with
    | none => exact ⟨0, true, nofun⟩
    | some part =>
      obtain ⟨N, b, hpromise⟩ :=
        Worker.Promises.exists_idle hequal (ht part (List.mem_of_getElem? hpart))
      refine ⟨N, b, fun part' hpart' => ?_⟩
      cases hpart'
      exact hpromise
  choose rank verdict hpromise using hplan
  have hworkers : ∀ (i : ℕ) (w : Worker I O S), (Check.start model history).workers[i]? = some w →
      ∃ part, (model.partition history)[i]? = some part ∧ .idle part = w := by
    intro i w hw
    exact Option.map_eq_some_iff.mp ((List.getElem?_map ..).symm.trans hw)
  have hstart : (Check.start model history).Working model (model.partition history).length verdict
      (∑ i ∈ Finset.range (Check.start model history).workers.length, rank i) := by
    refine ⟨List.length_map _, rfl, rfl, rfl, ⟨rank, rfl, fun i w hw => ?_⟩, fun i w hw => ?_, ?_,
      ?_⟩
    · obtain ⟨part, hpart, rfl⟩ := hworkers i w hw
      exact (hpromise i part hpart).1
    · obtain ⟨part, -, rfl⟩ := hworkers i w hw
      exact ⟨fun _ => Nat.zero_le i, fun _ => rfl⟩
    · refine (List.countP_eq_zero.mpr fun w hw => ?_).symm
      obtain ⟨part, -, rfl⟩ := List.mem_map.mp hw
      exact nofun
    · exact (List.length_pos_iff.mpr hne).trans_eq (List.length_map _).symm
  refine hstart.inevitably.mono fun σ ⟨result, hresult, hiff⟩ => ⟨result, hresult, hiff.trans ?_⟩
  constructor
  · intro hall part hmem
    obtain ⟨i, hi⟩ := List.mem_iff_getElem?.mp hmem
    exact (hpromise i part hi).2.mp (hall i (List.getElem?_eq_some_iff.mp hi).1)
  · intro hall i hi
    exact (hpromise i _ (List.getElem?_eq_getElem hi)).2.mpr (hall _ (List.getElem_mem hi))

/-- **Checking key by key is exact**: for every history of operations on the key/value store that
are called before they return, at distinct times, `CheckOperations` returns, whatever the order in
which the goroutines take their steps and their results arrive, and it returns `true` if and only if
the history is linearizable for a single store. -/
theorem checkOperations_correct (range : RangeOrder String (List (Operation KvInput KvOutput)))
    (history : List (Operation KvInput KvOutput)) (hne : history ≠ []) (ht : WellTimed history) :
    Inevitably (Check.step (kvModel range)) .panic
      (fun σ => ∃ result, σ.returned = some result ∧
        (result = true ↔ storeModel.Linearizable history))
      (Check.start (kvModel range) history) := by
  have hparts : (kvModel range).partition history ≠ [] := by
    obtain ⟨op, hop⟩ := List.exists_mem_of_ne_nil history hne
    exact List.ne_nil_of_mem (mem_partition.mpr ⟨op, hop, rfl⟩)
  have htimed : ∀ part ∈ (kvModel range).partition history, WellTimed part := by
    intro part hpart
    obtain ⟨op, -, rfl⟩ := mem_partition.mp hpart
    exact ht.ofKey _
  have hiff : (∀ part ∈ (kvModel range).partition history, (kvModel range).Linearizable part) ↔
      storeModel.Linearizable history := by
    rw [storeModel_linearizable_iff range ht]
    constructor
    · intro hall k
      by_cases hk : ∃ op ∈ history, op.input.key = k
      · obtain ⟨op, hop, rfl⟩ := hk
        exact hall _ (mem_partition.mpr ⟨op, hop, rfl⟩)
      · -- nothing was done with this key
        have hnone : ofKey k history = [] := by
          refine List.filter_eq_nil_iff.mpr fun op hop heq => hk ⟨op, hop, of_decide_eq_true heq⟩
        exact ⟨[], hnone ▸ .refl _, .nil, trivial⟩
    · intro hall part hpart
      obtain ⟨op, -, rfl⟩ := mem_partition.mp hpart
      exact hall _
  have hequal : ∀ s s', (kvModel range).equal s s' = true ↔ s = s' := fun _ _ => decide_eq_true_iff
  refine (Check.inevitably_returned hequal hparts htimed).mono fun σ ⟨result, hresult, hall⟩ => ?_
  exact ⟨result, hresult, hall.trans hiff⟩

/-- A map is gone through as it is. -/
def RangeOrder.same {K V : Type} : RangeOrder K V := ⟨id, fun m => .refl m⟩

/-- `y` is read while it is put, and `x` is appended to. -/
def twoKeys : List (Operation KvInput KvOutput) :=
  [⟨⟨1, "y", "b"⟩, 0, ⟨""⟩, 4⟩, ⟨⟨0, "y", ""⟩, 1, ⟨"b"⟩, 2⟩, ⟨⟨2, "x", "a"⟩, 3, ⟨""⟩, 5⟩]

theorem checkOperations_correct_twoKeys : (twoKeys ≠ [] ∧ WellTimed twoKeys) ∧
    Inevitably (Check.step (kvModel .same)) .panic
      (fun σ => ∃ result, σ.returned = some result ∧
        (result = true ↔ storeModel.Linearizable twoKeys))
      (Check.start (kvModel .same) twoKeys) := by
  have hne : twoKeys ≠ [] := by decide
  have ht : WellTimed twoKeys := ⟨by decide, by decide⟩
  exact ⟨⟨hne, ht⟩, checkOperations_correct .same twoKeys hne ht⟩

end RaftKVDB
