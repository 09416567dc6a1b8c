import RaftKVDB.Kv.ServiceRun

/-!
# Linearizability of the service

Where an operation takes effect is read off the log. A `Put` or an `Append` takes effect where its
command occurs first, which is where `DupMap` lets it through. A `Get` takes effect where the server
that answered it stood when it read its store: that may be later than any occurrence of its own
command, and the server need not be the leader, but it had been given that command, so it stood
somewhere between the call and the return.

So the operations are put in stages: stage `k` has the write that is performed as the `k`-th command
of the log, if that is one, and then the reads that were answered by a server that had been given
`k` commands.

## Main results

* `service_linearizable` — the operations of the clerks are linearizable, with respect to a map
  from keys to strings that are empty at first
-/

namespace RaftKVDB

open Foundations

variable {n : ℕ}

/-! ### A map from keys to strings -/

/-- What the service is meant to be: a map in which every string is empty at first. A `Get` returns
the string of its key; `Put` and `Append` return nothing. -/
def mapSpec : SeqSpec (String → String) Request (Option String) where
  init _ := ""
  step m request output :=
    match request with
    | .get key => if output = some (m key) then some m else none
    | .put key value => if output = none then some (Function.update m key value) else none
    | .append key value =>
      if output = none then some (Function.update m key (m key ++ value)) else none

/-- `Kvdb` as such a map. -/
def Kv.asMap (kv : Kv) (key : String) : String := (kv.kvdb.lookup key).getD ""

/-- Whether an operation is a `Get`. -/
def Request.isGet : Request → Bool
  | .get _ => true
  | _ => false

theorem Kv.asMap_insert (kvdb : Finmap fun _ : String => String) (dupMap : Finmap fun _ : ℕ => ℕ)
    (key value : String) :
    Kv.asMap ⟨kvdb.insert key value, dupMap⟩ =
      Function.update (Kv.asMap ⟨kvdb, dupMap⟩) key value := by
  funext x
  by_cases hx : x = key
  · subst hx
    simp [Kv.asMap]
  · simp [Kv.asMap, Finmap.lookup_insert_of_ne _ hx, Function.update_of_ne hx]

theorem Request.result_of_write {request : Request} (h : request.isGet = false) (kv : Kv) :
    request.result kv = none := by
  cases request with
  | get key => cases h
  | _ => rfl

theorem mapSpec_step_get {request : Request} (h : request.isGet = true) (kv : Kv) :
    mapSpec.step kv.asMap request (request.result kv) = some kv.asMap := by
  cases request with
  | get key => exact if_pos rfl
  | _ => cases h

/-- A new command that writes does to the map what its operation does. -/
theorem mapSpec_step_enact {kv : Kv} {operation : Op} (hnew : kv.isNew operation = true)
    (hwrite : operation.request.isGet = false) :
    mapSpec.step kv.asMap operation.request none = some (kv.enact operation).asMap := by
  obtain ⟨cmdType, key, val, c, m⟩ := operation
  rw [Kv.enact, if_pos hnew]
  cases cmdType with
  | get => cases hwrite
  | put => exact congrArg some (Kv.asMap_insert kv.kvdb _ key val).symm
  | append => exact congrArg some (Kv.asMap_insert kv.kvdb _ key _).symm

/-- A command that is not new, or that reads, leaves the map alone. -/
theorem Kv.asMap_enact {kv : Kv} {operation : Op}
    (h : kv.isNew operation = false ∨ operation.request.isGet = true) :
    (kv.enact operation).asMap = kv.asMap := by
  rw [Kv.enact]
  split_ifs with hnew
  · obtain ⟨cmdType, key, val, c, m⟩ := operation
    have hget := h.resolve_left (ne_false_of_eq_true hnew)
    cases cmdType with
    | get => rfl
    | _ => cases hget
  · rfl

/-! ### Stages -/

/-- The write that is performed at a position of the log. -/
def writes (log : List Op) (p : ℕ) : List (OpId × Request × Option String) :=
  match log[p]? with
  | some operation =>
    if (Kv.after (log.take p)).isNew operation ∧ operation.request.isGet = false then
      [((operation.clientID, operation.cmdID), operation.request, none)]
    else []
  | none => []

open Classical in
/-- The reads that take effect after `k` commands, if `point` tells where each read does. -/
noncomputable def reads (log : List Op) (history : KvHistory) (point : OpId → ℕ) (k : ℕ) :
    List (OpId × Request × Option String) :=
  ((callsOf history).filter fun x =>
    x.2.isGet ∧ (∃ ℓ output, (ℓ, HistoryEvent.ret x.1 output) ∈ history) ∧ point x.1 = k).map
      fun x => (x.1, x.2, x.2.result (Kv.after (log.take k)))

/-- What happens in stage `k`. -/
noncomputable def stage (log : List Op) (history : KvHistory) (point : OpId → ℕ) (k : ℕ) :
    List (OpId × Request × Option String) :=
  (match k with
    | 0 => []
    | p + 1 => writes log p) ++ reads log history point k

variable {log : List Op} {history : KvHistory} {point : OpId → ℕ} {clerks : ℕ → Clerk n}
  {x : OpId × Request × Option String} {p j k : ℕ}

theorem mem_writes : x ∈ writes log p ↔
    ∃ operation, log[p]? = some operation ∧ (Kv.after (log.take p)).isNew operation = true ∧
      operation.request.isGet = false ∧
      x = ((operation.clientID, operation.cmdID), operation.request, none) := by
  rw [writes]
  cases log[p]? with
  | none => simp
  | some operation =>
    dsimp only
    split_ifs with h
    · simp [h]
    · simpa using fun hnew hwrite => absurd ⟨hnew, hwrite⟩ h

theorem mem_reads : x ∈ reads log history point k ↔
    Called history x.1 x.2.1 ∧ x.2.1.isGet = true ∧
      (∃ ℓ output, (ℓ, HistoryEvent.ret x.1 output) ∈ history) ∧ point x.1 = k ∧
      x.2.2 = x.2.1.result (Kv.after (log.take k)) := by
  obtain ⟨id, request, output⟩ := x
  simp only [reads, List.mem_map, List.mem_filter, decide_eq_true_eq, Prod.mk.injEq]
  constructor
  · rintro ⟨⟨id, request⟩, ⟨hcalled, hget, hret, hpoint⟩, rfl, rfl, rfl⟩
    exact ⟨mem_callsOf.mp hcalled, hget, hret, hpoint, rfl⟩
  · rintro ⟨hcalled, hget, hret, hpoint, hout⟩
    exact ⟨(id, request), ⟨mem_callsOf.mpr hcalled, hget, hret, hpoint⟩, rfl, rfl, hout.symm⟩

theorem mem_stage : x ∈ stage log history point k ↔
    (∃ p, k = p + 1 ∧ x ∈ writes log p) ∨ x ∈ reads log history point k := by
  cases k <;> simp [stage]

/-- The write of a position does what the command there does. -/
theorem run_writes (hp : p < log.length) :
    mapSpec.run (Kv.after (log.take p)).asMap ((writes log p).map Prod.snd) =
      some (Kv.after (log.take (p + 1))).asMap := by
  obtain ⟨operation, hop⟩ : ∃ operation, log[p]? = some operation :=
    ⟨_, List.getElem?_eq_getElem hp⟩
  rw [Kv.after_take_succ hop, writes, hop]
  dsimp only
  split_ifs with h
  · simp [SeqSpec.run, mapSpec_step_enact h.1 h.2]
  · rw [Kv.asMap_enact]
    · rfl
    · rwa [not_and_or, Bool.not_eq_true, Bool.not_eq_false] at h

/-- Reads leave the map alone. -/
theorem run_reads : mapSpec.run (Kv.after (log.take k)).asMap
    ((reads log history point k).map Prod.snd) = some (Kv.after (log.take k)).asMap := by
  have hall : ∀ x ∈ reads log history point k, x.2.1.isGet = true ∧
      x.2.2 = x.2.1.result (Kv.after (log.take k)) := fun x hx =>
    ⟨(mem_reads.mp hx).2.1, (mem_reads.mp hx).2.2.2.2⟩
  generalize reads log history point k = l at hall
  induction l with
  | nil => rfl
  | cons x l ih =>
    obtain ⟨⟨hget, hout⟩, htail⟩ := List.forall_mem_cons.mp hall
    rw [List.map_cons, SeqSpec.run, List.foldlM_cons, hout, mapSpec_step_get hget]
    exact ih htail

/-- A stage takes the map from the state before its command to the state after it. -/
theorem run_stage (hk : k < log.length + 1) :
    mapSpec.run (Kv.after (log.take (k - 1))).asMap
      ((stage log history point k).map Prod.snd) = some (Kv.after (log.take k)).asMap := by
  cases k with
  | zero =>
    rw [stage, List.nil_append]
    exact run_reads
  | succ p =>
    rw [stage, List.map_append, SeqSpec.run_append, Nat.add_sub_cancel,
      run_writes (Nat.lt_of_succ_lt_succ hk)]
    exact run_reads

namespace Clients

/-- An operation is called with one request. -/
theorem called_unique (h : Clients log clerks history) {id : OpId} {request request' : Request}
    (hcalled : Called history id request) (hcalled' : Called history id request') :
    request = request' := by
  have hinj := List.inj_on_of_nodup_map h.calls_nodup (mem_callsOf.mpr hcalled)
    (mem_callsOf.mpr hcalled') rfl
  exact (Prod.mk.inj hinj).2

/-- `point` tells, of every operation that returned, a place in the log at which it had been given
the right answer. -/
def Points (log : List Op) (history : KvHistory) (point : OpId → ℕ) : Prop :=
  ∀ ℓ c m output, (ℓ, HistoryEvent.ret (c, m) output) ∈ history →
    point (c, m) ≤ ℓ ∧ ∃ request, Called history (c, m) request ∧
      Answered (log.take (point (c, m))) ⟨request, c, m⟩ output

theorem exists_points (h : Clients log clerks history) : ∃ point, Points log history point := by
  have hex : ∀ id : OpId, ∃ k, ∀ ℓ output, (ℓ, HistoryEvent.ret id output) ∈ history →
      k ≤ ℓ ∧ ∃ request, Called history id request ∧
        Answered (log.take k) ⟨request, id.1, id.2⟩ output := by
    intro id
    by_cases hret : ∃ ℓ output, (ℓ, HistoryEvent.ret id output) ∈ history
    · obtain ⟨ℓ, output, hret⟩ := hret
      obtain ⟨request, hcalled, k, hk, hans⟩ := h.answered ℓ id.1 id.2 output hret
      refine ⟨k, fun ℓ' output' hret' => ?_⟩
      obtain ⟨rfl, rfl⟩ := h.ret_unique _ _ _ _ _ hret hret'
      exact ⟨hk, request, hcalled, hans⟩
    · exact ⟨0, fun ℓ output hmem => absurd ⟨ℓ, output, hmem⟩ hret⟩
  choose point hpoint using hex
  exact ⟨point, fun ℓ c m output hret => hpoint (c, m) ℓ output hret⟩

theorem called_of_mem_stage (h : Clients log clerks history)
    (hx : x ∈ stage log history point k) : Called history x.1 x.2.1 := by
  rcases mem_stage.mp hx with ⟨p, -, hw⟩ | hr
  · obtain ⟨operation, hop, -, -, rfl⟩ := mem_writes.mp hw
    exact h.logged operation (List.mem_of_getElem? hop)
  · exact (mem_reads.mp hr).1

/-- An operation takes effect after it was called. -/
theorem lt_of_called (h : Clients log clerks history) (hpoint : Points log history point)
    (hx : x ∈ stage log history point k) {ℓ : ℕ} {request : Request}
    (hcall : (ℓ, .call x.1 request) ∈ history) : ℓ < k := by
  rcases mem_stage.mp hx with ⟨p, rfl, hw⟩ | hr
  · obtain ⟨operation, hop, -, -, rfl⟩ := mem_writes.mp hw
    exact Nat.lt_succ_of_le (h.call_le ℓ _ _ p operation hcall hop rfl)
  · obtain ⟨-, -, ⟨ℓ', output, hret⟩, rfl, -⟩ := mem_reads.mp hr
    obtain ⟨-, request', -, hans⟩ := hpoint ℓ' x.1.1 x.1.2 output hret
    obtain ⟨q, hq, operation, hop, hc, hm⟩ := occurs_take_iff.mp hans.1
    exact (h.call_le ℓ _ _ q operation hcall hop (Prod.ext hc hm)).trans_lt hq

/-- An operation takes effect before it returns. -/
theorem le_of_returned (hpoint : Points log history point)
    (hx : x ∈ stage log history point k) {ℓ : ℕ} {output : Option String}
    (hret : (ℓ, .ret x.1 output) ∈ history) : k ≤ ℓ := by
  obtain ⟨hle, request, -, hans⟩ := hpoint ℓ x.1.1 x.1.2 output hret
  rcases mem_stage.mp hx with ⟨p, rfl, hw⟩ | hr
  · obtain ⟨operation, hop, hnew, -, rfl⟩ := mem_writes.mp hw
    obtain ⟨q, hq, operation', hop', hc, hm⟩ := occurs_take_iff.mp hans.1
    have := Kv.le_of_isNew hnew hop' hc hm
    omega
  · obtain ⟨-, -, -, rfl, -⟩ := mem_reads.mp hr
    exact hle

/-- A write is not a read. -/
theorem not_mem_reads (h : Clients log clerks history) {y : OpId × Request × Option String}
    (hx : x ∈ writes log p) (hid : x.1 = y.1) : y ∉ reads log history point k := by
  intro hy
  obtain ⟨operation, hop, -, hwrite, rfl⟩ := mem_writes.mp hx
  obtain ⟨hcalled, hget, -⟩ := mem_reads.mp hy
  have heq := h.called_unique (h.logged operation (List.mem_of_getElem? hop)) (hid ▸ hcalled)
  rw [← heq, hwrite] at hget
  cases hget

/-- An operation takes effect once. -/
theorem stage_unique (h : Clients log clerks history) {y : OpId × Request × Option String}
    (hx : x ∈ stage log history point j) (hy : y ∈ stage log history point k) (hid : x.1 = y.1) :
    j = k := by
  rcases mem_stage.mp hx with ⟨p, rfl, hw⟩ | hr <;> rcases mem_stage.mp hy with ⟨q, rfl, hw'⟩ | hr'
  · obtain ⟨operation, hop, hnew, -, rfl⟩ := mem_writes.mp hw
    obtain ⟨operation', hop', hnew', -, rfl⟩ := mem_writes.mp hw'
    obtain ⟨hc, hm⟩ := Prod.mk.inj hid
    rw [(Kv.le_of_isNew hnew hop' hc.symm hm.symm).antisymm (Kv.le_of_isNew hnew' hop hc hm)]
  · exact absurd hr' (h.not_mem_reads hw hid)
  · exact absurd hr (h.not_mem_reads hw' hid.symm)
  · obtain ⟨-, -, -, rfl, -⟩ := mem_reads.mp hr
    obtain ⟨-, -, -, rfl, -⟩ := mem_reads.mp hr'
    rw [hid]

theorem nodup_stage (h : Clients log clerks history) (k : ℕ) :
    ((stage log history point k).map Prod.fst).Nodup := by
  have hreads : ((reads log history point k).map Prod.fst).Nodup := by
    rw [reads, List.map_map]
    exact h.calls_nodup.sublist (List.filter_sublist.map _)
  cases k with
  | zero =>
    rw [stage, List.nil_append]
    exact hreads
  | succ p =>
    rw [stage, List.map_append, List.nodup_append]
    refine ⟨?_, hreads, ?_⟩
    · rw [writes]
      split
      · split_ifs <;> simp
      · exact List.nodup_nil
    · rintro _ hw _ hr rfl
      obtain ⟨x, hx, hid⟩ := List.mem_map.mp hw
      obtain ⟨y, hy, hid'⟩ := List.mem_map.mp hr
      exact h.not_mem_reads hx (hid.trans hid'.symm) hy

/-- What returned took effect, with the output that it returned. -/
theorem exists_mem_stage (h : Clients log clerks history) (hpoint : Points log history point)
    {ℓ : ℕ} {id : OpId} {output : Option String} (hret : (ℓ, .ret id output) ∈ history) :
    ∃ k < log.length + 1, ∃ request, (id, request, output) ∈ stage log history point k := by
  obtain ⟨c, m⟩ := id
  obtain ⟨hle, request, hcalled, hocc, hout⟩ := hpoint ℓ c m output hret
  have hlen := h.le_length _ hret
  cases hget : request.isGet with
  | true =>
    refine ⟨point (c, m), by omega, request, mem_stage.mpr (.inr (mem_reads.mpr ?_))⟩
    exact ⟨hcalled, hget, ⟨ℓ, output, hret⟩, rfl, hout⟩
  | false =>
    obtain ⟨p, hp, operation, hop, rfl, rfl, hnew⟩ := h.orderly.exists_isNew hocc
    obtain rfl := h.called_unique hcalled (h.logged operation (List.mem_of_getElem? hop))
    refine ⟨p + 1, by omega, operation.request, mem_stage.mpr (.inl ⟨p, rfl, mem_writes.mpr ?_⟩)⟩
    exact ⟨operation, hop, hnew, hget, by rw [hout, Request.result_of_write hget]⟩

/-- **The history is linearizable.** -/
theorem linearizable (h : Clients log clerks history) :
    Linearizable mapSpec (history.map Prod.snd) := by
  obtain ⟨point, hpoint⟩ := h.exists_points
  refine linearizable_of_stages (stage log history point)
    (fun k => (Kv.after (log.take (k - 1))).asMap) (log.length + 1) rfl
    (fun k hk => run_stage hk) h.nodup_stage (fun j k x y => h.stage_unique) ?_ ?_ ?_
  · intro k x hx
    obtain ⟨ℓ, hcall⟩ := h.called_of_mem_stage hx
    exact List.mem_map.mpr ⟨_, hcall, rfl⟩
  · intro id output hret
    obtain ⟨⟨ℓ, e⟩, hmem, rfl⟩ := List.mem_map.mp hret
    exact h.exists_mem_stage hpoint hmem
  · rintro j k x y hx hy ⟨i, i', request, output, hlt, hret, hcall⟩
    rw [List.getElem?_map] at hret hcall
    obtain ⟨⟨ℓ, _⟩, hi, rfl⟩ := Option.map_eq_some_iff.mp hret
    obtain ⟨⟨ℓ', _⟩, hi', rfl⟩ := Option.map_eq_some_iff.mp hcall
    -- the log had at least `j` commands when `x` returned, and fewer than `k` when `y` was called
    have hj : j ≤ ℓ := le_of_returned hpoint hx (List.mem_of_getElem? hi)
    have hk : ℓ' < k := h.lt_of_called hpoint hy (List.mem_of_getElem? hi')
    have hle : ℓ ≤ ℓ' := by
      obtain ⟨hi₁, hi₂⟩ := List.getElem?_eq_some_iff.mp hi
      obtain ⟨hi₁', hi₂'⟩ := List.getElem?_eq_some_iff.mp hi'
      simpa [hi₂, hi₂'] using List.pairwise_iff_getElem.mp h.sorted i i' hi₁ hi₁' hlt
    omega

end Clients

/-! ### Every run -/

/-- **Linearizability.** In every run of the service, what the clients have seen is linearizable. -/
theorem service_linearizable [NeZero n] {gob : Gob Kv} {τ : List (Service n)}
    (h : Service.Run gob τ) {σ : Service n} (hσ : σ ∈ τ) :
    Linearizable mapSpec (σ.history.map Prod.snd) := by
  have hinv : ∀ σ ∈ τ, σ.Inv :=
    Trace.invariant Service.inv_init (fun _ _ _ hi hn => hi.step hn) h
  exact (hinv σ hσ).clients.linearizable

/-- Client 7 puts `x` at the leader, and has the leader start to get it. It gives up on the leader,
and is answered by the other server, which has been given both commands. -/
def answeredElsewhere : List (ServiceEvent 2) :=
  [.invoke 7 (.put "x" "1"), .send 7, .serve 0, .turn 0 (.raftState true), .turn 0 .run,
    .turn 0 (.raftStart (some 1)), .turn 0 .run, .commit ⟨.put, "x", "1", 7, 0⟩, .apply 0,
    .finishApply 0, .turn 0 .run, .turn 0 .run, .turn 0 .run, .turn 0 .run, .receive 7,
    .invoke 7 (.get "x"), .send 7, .serve 1, .turn 1 (.raftState true), .turn 1 .run,
    .turn 1 (.raftStart (some 2)), .commit ⟨.get, "x", "", 7, 1⟩, .giveUp 7, .apply 1,
    .finishApply 1, .apply 1, .finishApply 1, .send 7, .serve 2, .turn 2 (.raftState false),
    .turn 2 .run, .turn 2 .run, .receive 7]

/-- What client 7 sees. -/
def answeredHistory : List KvEvent :=
  [.call (7, 0) (.put "x" "1"), .ret (7, 0) none, .call (7, 1) (.get "x"), .ret (7, 1) (some "1")]

theorem service_linearizable_two : ∃ τ : List (Service 2), Service.Run (Gob.unary Kv) τ ∧
    ∃ σ ∈ τ, σ.history.map Prod.snd = answeredHistory ∧
      Linearizable mapSpec (σ.history.map Prod.snd) := by
  have hseen : (answeredElsewhere.foldlM (Service.step (Gob.unary Kv))
      (Service.init 2)).toOption.map (fun σ => σ.history.map Prod.snd) = some answeredHistory := by
    decide +kernel
  obtain ⟨σ, hσ, hhistory⟩ := Option.map_eq_some_iff.mp hseen
  obtain ⟨τ, hrun⟩ := Trace.exists_of_foldlM (fun _ _ _ h => h) answeredElsewhere Trace.start
    (Cluster.eq_ok_of_mem_toOption hσ)
  exact ⟨σ :: τ, hrun, σ, List.mem_cons_self, hhistory,
    service_linearizable hrun List.mem_cons_self⟩

end RaftKVDB
