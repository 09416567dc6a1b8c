import RaftKVDB.Kv.Service

/-!
# What the clients have seen

What the clerks, the log and the history have to do with each other, apart from what the servers
are doing. A clerk starts an operation when the one before it is in the log, so the log is orderly;
and what it returns was right at some point of the log between the call and the return.

## Main results

* `Clients` — the invariant
* `Clients.invoke`, `Clients.ret`, `Clients.commit` — the events that matter to it
-/

namespace RaftKVDB

open Foundations

variable {n : ℕ}

/-- The request that the handler made a command of. -/
def Op.request (operation : Op) : Request :=
  match operation.cmdType with
  | .get => .get operation.key
  | .put => .put operation.key operation.val
  | .append => .append operation.key operation.val

@[simp] theorem Args.operation_clientID (args : Args) :
    args.operation.clientID = args.clientID := by
  rw [operation]
  split <;> rfl

@[simp] theorem Args.operation_cmdID (args : Args) : args.operation.cmdID = args.cmdID := by
  rw [operation]
  split <;> rfl

@[simp] theorem Args.operation_request (args : Args) : args.operation.request = args.request := by
  rw [operation]
  split <;> simp_all [Op.request]

/-- The operation was called. -/
def Called (history : KvHistory) (id : OpId) (request : Request) : Prop :=
  ∃ ℓ, (ℓ, HistoryEvent.call id request) ∈ history

/-- The operations that were called. -/
def callsOf (history : KvHistory) : List (OpId × Request) :=
  history.filterMap fun x =>
    match x.2 with
    | .call id request => some (id, request)
    | .ret _ _ => none

variable {history history' : KvHistory} {id : OpId} {request : Request} {log : List Op}
  {clerks : ℕ → Clerk n} {c : ℕ} {ck : Clerk n}

theorem Called.mono (h : Called history id request) (hsub : history ⊆ history') :
    Called history' id request := by
  obtain ⟨ℓ, hmem⟩ := h
  exact ⟨ℓ, hsub hmem⟩

theorem mem_callsOf : (id, request) ∈ callsOf history ↔ Called history id request := by
  simp only [callsOf, List.mem_filterMap, Called]
  constructor
  · rintro ⟨⟨ℓ, e⟩, hmem, he⟩
    cases e with
    | call id' request' =>
      cases he
      exact ⟨ℓ, hmem⟩
    | ret id' output => cases he
  · rintro ⟨ℓ, hmem⟩
    exact ⟨_, hmem, rfl⟩

theorem mem_append_event {ℓ ℓ' : ℕ} {e e' : KvEvent} :
    (ℓ', e') ∈ history ++ [(ℓ, e)] ↔ (ℓ', e') ∈ history ∨ ℓ' = ℓ ∧ e' = e := by
  rw [List.mem_append, List.mem_singleton, Prod.mk.injEq]

theorem callsOf_append_call (history : KvHistory) (ℓ : ℕ) (id : OpId) (request : Request) :
    callsOf (history ++ [(ℓ, .call id request)]) = callsOf history ++ [(id, request)] := by
  simp [callsOf]

theorem callsOf_append_ret (history : KvHistory) (ℓ : ℕ) (id : OpId) (output : Option String) :
    callsOf (history ++ [(ℓ, .ret id output)]) = callsOf history := by
  simp [callsOf]

/-- What a clerk has to do with the log and the history. -/
structure Clerk.Sound (log : List Op) (history : KvHistory) (c : ℕ) (ck : Clerk n) : Prop where
  call_lt : ∀ m request, Called history (c, m) request → m < ck.nextSeq
  /-- The clerk is busy with its last operation, which has not returned. -/
  current : ∀ args, ck.current = some args →
    args.clientID = c ∧ args.cmdID + 1 = ck.nextSeq ∧ Called history (c, args.cmdID) args.request ∧
      ∀ ℓ output, (ℓ, .ret (c, args.cmdID) output) ∉ history
  /-- The operations that the clerk is done with are in the log. -/
  finished : ∀ m < ck.nextSeq, (∀ args, ck.current = some args → args.cmdID ≠ m) → Occurs log c m

/-- What the clerks, the log and the history have to do with each other. -/
structure Clients (log : List Op) (clerks : ℕ → Clerk n) (history : KvHistory) : Prop where
  clerk : ∀ c, (clerks c).Sound log history c
  orderly : Orderly log
  /-- Commands come from clients. -/
  logged : ∀ operation ∈ log, Called history (operation.clientID, operation.cmdID) operation.request
  /-- A command is not in the log before the client calls for it. -/
  call_le : ∀ ℓ id request p operation, (ℓ, .call id request) ∈ history →
    log[p]? = some operation → (operation.clientID, operation.cmdID) = id → ℓ ≤ p
  calls_nodup : ((callsOf history).map Prod.fst).Nodup
  /-- What was returned is right at some point of the log as it was then. -/
  answered : ∀ ℓ c m output, (ℓ, .ret (c, m) output) ∈ history →
    ∃ request, Called history (c, m) request ∧
      ∃ k ≤ ℓ, Answered (log.take k) ⟨request, c, m⟩ output
  ret_unique : ∀ ℓ ℓ' id output output', (ℓ, .ret id output) ∈ history →
    (ℓ', .ret id output') ∈ history → ℓ = ℓ' ∧ output = output'
  le_length : ∀ x ∈ history, x.1 ≤ log.length
  sorted : history.Pairwise fun x y => x.1 ≤ y.1

/-- What another client does makes no difference to a clerk. -/
theorem Clerk.Sound.see (h : ck.Sound log history c) {ℓ : ℕ} {e : KvEvent} (he : e.id.1 ≠ c) :
    ck.Sound log (history ++ [(ℓ, e)]) c where
  call_lt := by
    rintro m request ⟨ℓ', hmem⟩
    rcases List.mem_append.mp hmem with hmem | hmem
    · exact h.call_lt m request ⟨ℓ', hmem⟩
    · cases List.mem_singleton.mp hmem
      exact absurd rfl he
  current args hargs := by
    obtain ⟨hid, hlast, hcalled, hret⟩ := h.current args hargs
    refine ⟨hid, hlast, hcalled.mono (List.subset_append_left _ _), fun ℓ' output hmem => ?_⟩
    rcases List.mem_append.mp hmem with hmem | hmem
    · exact hret ℓ' output hmem
    · cases List.mem_singleton.mp hmem
      exact absurd rfl he
  finished := h.finished

namespace Clients

theorem init [NeZero n] : Clients [] (fun _ => Clerk.makeClerk n) [] where
  clerk _ := ⟨nofun, nofun, nofun⟩
  orderly := nofun
  logged := nofun
  call_le := nofun
  calls_nodup := List.nodup_nil
  answered := nofun
  ret_unique := nofun
  le_length := nofun
  sorted := .nil

/-- A clerk changes, and neither the log nor the history does. -/
theorem setClerk (h : Clients log clerks history) (hck : ck.Sound log history c) :
    Clients log (Function.update clerks c ck) history :=
  { h with clerk := (Function.forall_update_iff _ _).mpr ⟨hck, fun c' _ => h.clerk c'⟩ }

theorem sorted_append (h : Clients log clerks history) (e : KvEvent) :
    (history ++ [(log.length, e)]).Pairwise fun x y => x.1 ≤ y.1 := by
  refine List.pairwise_append.mpr ⟨h.sorted, List.pairwise_singleton _ _, fun x hx y hy => ?_⟩
  obtain rfl := List.mem_singleton.mp hy
  exact h.le_length x hx

theorem le_length_append (h : Clients log clerks history) (e : KvEvent) :
    ∀ x ∈ history ++ [(log.length, e)], x.1 ≤ log.length := by
  simpa [or_imp, forall_and] using h.le_length

/-- An operation is called. -/
theorem invoke (h : Clients log clerks history) (hidle : (clerks c).current = none)
    (hcur : ck.current = some ⟨request, c, (clerks c).nextSeq⟩)
    (hseq : ck.nextSeq = (clerks c).nextSeq + 1) :
    Clients log (Function.update clerks c ck)
      (history ++ [(log.length, .call (c, (clerks c).nextSeq) request)]) := by
  have hsub : history ⊆ history ++ [(log.length, .call (c, (clerks c).nextSeq) request)] :=
    List.subset_append_left _ _
  have hfresh : ∀ request, ¬Called history (c, (clerks c).nextSeq) request :=
    fun request hcalled => Nat.lt_irrefl _ ((h.clerk c).call_lt _ _ hcalled)
  have hrets : ∀ {ℓ id output}, (ℓ, HistoryEvent.ret id output) ∈
      history ++ [(log.length, .call (c, (clerks c).nextSeq) request)] →
        (ℓ, HistoryEvent.ret id output) ∈ history := fun hret =>
    (mem_append_event.mp hret).resolve_right fun heq => nomatch heq.2
  refine
    { clerk := (Function.forall_update_iff _ _).mpr ⟨⟨?_, ?_, ?_⟩, fun c' hc => ?_⟩
      orderly := h.orderly
      logged := fun x hx => (h.logged x hx).mono hsub
      call_le := ?_
      calls_nodup := ?_
      answered := ?_
      ret_unique := ?_
      le_length := h.le_length_append _
      sorted := h.sorted_append _ }
  · rintro m request' ⟨ℓ, hcall⟩
    rw [hseq]
    rcases mem_append_event.mp hcall with hcall | ⟨-, heq⟩
    · exact Nat.lt_succ_of_lt ((h.clerk c).call_lt m request' ⟨ℓ, hcall⟩)
    · cases heq
      exact Nat.lt_succ_self _
  · intro args hargs
    cases hcur.symm.trans hargs
    refine ⟨rfl, hseq.symm, ⟨_, mem_append_event.mpr (.inr ⟨rfl, rfl⟩)⟩,
      fun ℓ output hret => ?_⟩
    obtain ⟨request', hcalled, -⟩ := h.answered ℓ c _ output (hrets hret)
    exact hfresh _ hcalled
  · intro m hm hne
    refine (h.clerk c).finished m ?_ fun args hargs => absurd (hidle.symm.trans hargs) nofun
    have := hne _ hcur
    dsimp only at this
    omega
  · exact (h.clerk c').see fun heq => hc heq.symm
  · intro ℓ id request' p x hcall hx hid
    rcases mem_append_event.mp hcall with hcall | ⟨rfl, heq⟩
    · exact h.call_le ℓ id request' p x hcall hx hid
    · cases heq
      exact absurd (hid ▸ h.logged x (List.mem_of_getElem? hx)) (hfresh _)
  · rw [callsOf_append_call, List.map_append, List.nodup_append]
    refine ⟨h.calls_nodup, List.nodup_singleton _, ?_⟩
    rintro id hid _ hmem rfl
    obtain ⟨⟨id, request'⟩, hcalled, rfl⟩ := List.mem_map.mp hid
    rw [List.map_singleton, List.mem_singleton] at hmem
    obtain rfl : id = _ := hmem
    exact hfresh request' (mem_callsOf.mp hcalled)
  · intro ℓ c' m output hret
    obtain ⟨request', hcalled, hans⟩ := h.answered ℓ c' m output (hrets hret)
    exact ⟨request', hcalled.mono hsub, hans⟩
  · intro ℓ ℓ' id output output' hret hret'
    exact h.ret_unique ℓ ℓ' id output output' (hrets hret) (hrets hret')

/-- An operation returns. -/
theorem ret (h : Clients log clerks history) {args : Args} {k : ℕ} {output : Option String}
    (hbusy : (clerks c).current = some args) (hk : k ≤ log.length)
    (hans : Answered (log.take k) args output)
    (hcur : ck.current = none) (hseq : ck.nextSeq = (clerks c).nextSeq) :
    Clients log (Function.update clerks c ck)
      (history ++ [(log.length, .ret (c, args.cmdID) output)]) := by
  obtain ⟨rfl, hlast, hcalled, hnot⟩ := (h.clerk c).current args hbusy
  have hsub : history ⊆ history ++ [(log.length, .ret (args.clientID, args.cmdID) output)] :=
    List.subset_append_left _ _
  have hcalls : ∀ {ℓ id request}, (ℓ, HistoryEvent.call id request) ∈
      history ++ [(log.length, .ret (args.clientID, args.cmdID) output)] →
        (ℓ, HistoryEvent.call id request) ∈ history := fun hcall =>
    (mem_append_event.mp hcall).resolve_right fun heq => nomatch heq.2
  refine
    { clerk := (Function.forall_update_iff _ _).mpr ⟨⟨?_, ?_, ?_⟩, fun c' hc => ?_⟩
      orderly := h.orderly
      logged := fun x hx => (h.logged x hx).mono hsub
      call_le := ?_
      calls_nodup := ?_
      answered := ?_
      ret_unique := ?_
      le_length := h.le_length_append _
      sorted := h.sorted_append _ }
  · rintro m request' ⟨ℓ, hcall⟩
    rw [hseq]
    exact (h.clerk _).call_lt m request' ⟨ℓ, hcalls hcall⟩
  · intro args' hargs
    exact absurd (hcur.symm.trans hargs) nofun
  · intro m hm _
    by_cases heq : args.cmdID = m
    · exact heq ▸ hans.1.of_take
    · refine (h.clerk _).finished m (hseq ▸ hm) fun args' hargs' => ?_
      cases hbusy.symm.trans hargs'
      exact heq
  · exact (h.clerk c').see fun heq => hc heq.symm
  · intro ℓ id request' p x hcall hx hid
    exact h.call_le ℓ id request' p x (hcalls hcall) hx hid
  · rw [callsOf_append_ret]
    exact h.calls_nodup
  · intro ℓ c' m output' hret
    rcases mem_append_event.mp hret with hret | ⟨rfl, heq⟩
    · obtain ⟨request', hcalled', hans'⟩ := h.answered ℓ c' m output' hret
      exact ⟨request', hcalled'.mono hsub, hans'⟩
    · cases heq
      exact ⟨args.request, hcalled.mono hsub, k, hk, hans⟩
  · intro ℓ ℓ' id y y' hret hret'
    rcases mem_append_event.mp hret with hold | ⟨rfl, heq⟩ <;>
      rcases mem_append_event.mp hret' with hold' | ⟨rfl, heq'⟩
    · exact h.ret_unique ℓ ℓ' id y y' hold hold'
    · cases heq'
      exact absurd hold (hnot _ _)
    · cases heq
      exact absurd hold' (hnot _ _)
    · cases heq
      cases heq'
      exact ⟨rfl, rfl⟩

/-- A command is agreed on. -/
theorem commit (h : Clients log clerks history) {operation : Op}
    (hop : Called history (operation.clientID, operation.cmdID) operation.request) :
    Clients (log ++ [operation]) clerks history where
  clerk c :=
    ⟨(h.clerk c).call_lt, (h.clerk c).current, fun m hm hne =>
      ((h.clerk c).finished m hm hne).of_subset (List.subset_append_left _ _)⟩
  orderly := by
    have hlt := (h.clerk _).call_lt _ _ hop
    refine h.orderly.append_singleton fun m hm =>
      (h.clerk _).finished m (hm.trans hlt) fun args hargs => ?_
    have := ((h.clerk _).current args hargs).2.1
    omega
  logged x hx := by
    rcases List.mem_append.mp hx with hx | hx
    · exact h.logged x hx
    · obtain rfl := List.mem_singleton.mp hx
      exact hop
  call_le ℓ id request p x hcall hx hid := by
    rcases getElem?_append_singleton.mp hx with hx | ⟨rfl, rfl⟩
    · exact h.call_le ℓ id request p x hcall hx hid
    · exact h.le_length _ hcall
  calls_nodup := h.calls_nodup
  answered ℓ c m output hret := by
    obtain ⟨request, hcalled, k, hk, hans⟩ := h.answered ℓ c m output hret
    refine ⟨request, hcalled, k, hk, ?_⟩
    rwa [List.take_append_of_le_length (hk.trans (h.le_length _ hret))]
  ret_unique := h.ret_unique
  le_length x hx := by
    rw [List.length_append]
    exact (h.le_length x hx).trans (Nat.le_add_right _ _)
  sorted := h.sorted

end Clients

end RaftKVDB
