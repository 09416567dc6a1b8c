import RaftKVDB.Kv.ServiceRun

/-!
# One clerk and several goroutines

`ck.mu` is there for goroutines that share a `Clerk`. Any number of them is in `PutAppend` at the
same time here, of any number of clerks, over the servers of `Service`: each takes its own number,
and what they have in common is `nextSeq` and `leadId`.

The servers remember one number for each clerk, so the commands of a clerk have to come into the log
in the order of their numbers, which nothing sees to if two of them are on their way.

## Main results

* `shared_clerk_once` — what returned was performed once, if the commands of every clerk are
  agreed on in the order of their numbers
* `shared_clerk_lost` — and may never be, otherwise
-/

namespace RaftKVDB

open Foundations

variable {n : ℕ}

/-- Where a goroutine is in the loop of `Clerk.PutAppend`: at its top, in `Call`, about to take
`ck.mu` for the next server, or done. -/
inductive LoopPc
  | call
  | waiting (k : ℕ)
  | advance
  | returned
  deriving DecidableEq, Repr

/-- A goroutine in `Clerk.PutAppend`. -/
structure Goroutine where
  args : Args
  pc : LoopPc
  deriving DecidableEq, Repr

/-- The servers, the clerks and the goroutines. -/
structure SharedService (n : ℕ) where
  service : Service n
  goroutines : List Goroutine

/-- What can happen next. -/
inductive SharedEvent (n : ℕ)
  | put (c : ℕ) (key value : String)
  | append (c : ℕ) (key value : String)
  | call (g : ℕ)
  | receive (g : ℕ)
  | giveUp (g : ℕ)
  | advance (g : ℕ)
  | server (e : ServiceEvent n)

instance : DecidablePred (ServiceEvent.OfServer (n := n))
  | .invoke _ _ | .send _ | .receive _ | .giveUp _ => .isFalse id
  | .serve _ | .turn _ _ | .apply _ | .finishApply _ | .install _ _ | .restart _ | .commit _ =>
    .isTrue trivial

namespace SharedService

/-- Nothing has happened. -/
def init (n : ℕ) [NeZero n] : SharedService n := ⟨Service.init n, []⟩

/-- The goroutine `g` goes on to `pc`. -/
def goOn (σ : SharedService n) (g : ℕ) (args : Args) (pc : LoopPc) : SharedService n :=
  { σ with goroutines := σ.goroutines.set g ⟨args, pc⟩ }

/-- `Clerk.PutAppend` up to its loop. -/
def putAppend (σ : SharedService n) (c : ℕ) (request : Request) : SharedService n :=
  let ck := σ.service.clerks c
  { service := (σ.service.setClerk c { ck with nextSeq := ck.nextSeq + 1 }).see
      (.call (c, ck.nextSeq) request)
    goroutines := σ.goroutines ++ [⟨⟨request, c, ck.nextSeq⟩, .call⟩] }

/-- A goroutine calls the server that its clerk takes for the leader. -/
def call (σ : SharedService n) (g : ℕ) : Except Fault (SharedService n) :=
  match σ.goroutines[g]? with
  | some ⟨args, .call⟩ =>
    .ok { σ.goOn g args (.waiting σ.service.calls.length) with
      service := { σ.service with
        calls := σ.service.calls ++ [⟨args, (σ.service.clerks args.clientID).leadId, 0, none⟩] } }
  | _ => .error .disabled

/-- `Call` returns `true`, and the goroutine looks at the reply. -/
def receive (σ : SharedService n) (g : ℕ) : Except Fault (SharedService n) :=
  match σ.goroutines[g]? with
  | some ⟨args, .waiting k⟩ =>
    match (σ.service.calls[k]?).bind KvCall.pc with
    | some (.replied reply) =>
      match args.output reply with
      | some output =>
        .ok { σ.goOn g args .returned with
          service := σ.service.see (.ret (args.clientID, args.cmdID) output) }
      | none => .ok (σ.goOn g args (if reply.wrongLeader then .advance else .call))
    | _ => .error .disabled
  | _ => .error .disabled

/-- `Call` returns `false`. -/
def giveUp (σ : SharedService n) (g : ℕ) : Except Fault (SharedService n) :=
  match σ.goroutines[g]? with
  | some ⟨args, .waiting _⟩ => .ok (σ.goOn g args .advance)
  | _ => .error .disabled

/-- `ck.leadId = (ck.leadId+1)%len(ck.servers)`, for all goroutines of the clerk. -/
def advance [NeZero n] (σ : SharedService n) (g : ℕ) : Except Fault (SharedService n) :=
  match σ.goroutines[g]? with
  | some ⟨args, .advance⟩ =>
    .ok { σ.goOn g args .call with
      service := σ.service.setClerk args.clientID (σ.service.clerks args.clientID).nextServer }
  | _ => .error .disabled

/-- One event. -/
def step [NeZero n] (gob : Gob Kv) (σ : SharedService n) :
    SharedEvent n → Except Fault (SharedService n)
  | .put c key value => .ok (σ.putAppend c (.put key value))
  | .append c key value => .ok (σ.putAppend c (.append key value))
  | .call g => σ.call g
  | .receive g => σ.receive g
  | .giveUp g => σ.giveUp g
  | .advance g => σ.advance g
  | .server e =>
    if e.OfServer then do
      let service ← σ.service.step gob e
      return { σ with service := service }
    else .error .disabled

/-- A run, newest state first, all of whose steps meet the condition `ok`. -/
def Run [NeZero n] (gob : Gob Kv) (ok : SharedService n → SharedEvent n → Prop) :
    List (SharedService n) → Prop :=
  Trace (init n) fun σ e σ' => ok σ e ∧ σ.step gob e = .ok σ'

/-- A command is agreed on after all that its clerk numbered before it. -/
def InOrder (σ : SharedService n) : SharedEvent n → Prop
  | .server (.commit operation) =>
    ∀ m < operation.cmdID, Occurs σ.service.log operation.clientID m
  | _ => True

end SharedService

/-! ### What holds if they come in order -/

/-- A goroutine's call was seen, and it waits for a call of its own. -/
structure Goroutine.Sound (service : Service n) (g : Goroutine) : Prop where
  called : Called service.history (g.args.clientID, g.args.cmdID) g.args.request
  waits : ∀ k : ℕ, g.pc = .waiting k → (service.calls[k]?).map KvCall.args = some g.args

/-- What holds if the commands of every clerk come in order. -/
structure SharedService.Inv (σ : SharedService n) : Prop where
  served : σ.service.Served
  call_lt : ∀ c m request, Called σ.service.history (c, m) request →
    m < (σ.service.clerks c).nextSeq
  called_unique : ∀ id request request', Called σ.service.history id request →
    Called σ.service.history id request' → request = request'
  logged : ∀ operation ∈ σ.service.log,
    Called σ.service.history (operation.clientID, operation.cmdID) operation.request
  goroutine : ∀ g ∈ σ.goroutines, g.Sound σ.service
  returned : ∀ ℓ c m output, (ℓ, .ret (c, m) output) ∈ σ.service.history →
    (∃ request, Called σ.service.history (c, m) request) ∧ Occurs σ.service.log c m

section Inv

variable {σ σ' : SharedService n} {service service' : Service n} {g : Goroutine} {gob : Gob Kv}
  {history : KvHistory} {id id' : OpId} {request request' : Request} {ℓ : ℕ}

theorem called_append_call : Called (history ++ [(ℓ, .call id' request')]) id request ↔
    Called history id request ∨ id = id' ∧ request = request' := by
  rw [← mem_callsOf, callsOf_append_call, List.mem_append, mem_callsOf, List.mem_singleton,
    Prod.mk.injEq]

theorem called_append_ret {output : Option String} :
    Called (history ++ [(ℓ, .ret id' output)]) id request ↔ Called history id request := by
  rw [← mem_callsOf, callsOf_append_ret, mem_callsOf]

theorem Goroutine.Sound.mono (h : g.Sound service) (hhistory : service.history ⊆ service'.history)
    (hargs : ∀ k : ℕ, (service.calls[k]?).map KvCall.args = some g.args →
      (service'.calls[k]?).map KvCall.args = some g.args) : g.Sound service' :=
  ⟨h.called.mono hhistory, fun k hk => hargs k (h.waits k hk)⟩

namespace SharedService

theorem inv_init [NeZero n] : (init n).Inv where
  served := Service.inv_init.served
  call_lt _ _ _ h := nomatch h
  called_unique _ _ _ h := nomatch h
  logged := nofun
  goroutine := nofun
  returned := nofun

namespace Inv

/-- A number is taken. -/
theorem putAppend (h : σ.Inv) (c : ℕ) (request : Request) : (σ.putAppend c request).Inv where
  served := (h.served.setClerk _ _).see _
  call_lt c' m r hr := by
    rcases called_append_call.mp hr with hr | ⟨heq, -⟩
    · have hlt := h.call_lt c' m r hr
      show m < (Function.update σ.service.clerks c _ c').nextSeq
      rcases eq_or_ne c' c with rfl | hne
      · rw [Function.update_self]
        exact hlt.trans (Nat.lt_succ_self _)
      · rwa [Function.update_of_ne hne]
    · obtain ⟨rfl, rfl⟩ := Prod.mk.inj heq
      show _ < (Function.update σ.service.clerks c' _ c').nextSeq
      rw [Function.update_self]
      exact Nat.lt_succ_self _
  called_unique id r r' hr hr' := by
    -- the number is not one that was called before
    have hfresh : ∀ r, ¬Called σ.service.history (c, (σ.service.clerks c).nextSeq) r :=
      fun r hr => (h.call_lt _ _ r hr).false
    rcases called_append_call.mp hr with hold | ⟨rfl, rfl⟩
    · rcases called_append_call.mp hr' with hold' | ⟨rfl, rfl⟩
      · exact h.called_unique id r r' hold hold'
      · exact absurd hold (hfresh r)
    · rcases called_append_call.mp hr' with hold' | ⟨-, rfl⟩
      · exact absurd hold' (hfresh r')
      · rfl
  logged x hx := (h.logged x hx).mono (List.subset_append_left _ _)
  goroutine g hg := by
    rcases List.mem_append.mp hg with hg | hg
    · exact (h.goroutine g hg).mono (List.subset_append_left _ _) fun _ => id
    · obtain rfl := List.mem_singleton.mp hg
      exact ⟨called_append_call.mpr (.inr ⟨rfl, rfl⟩), nofun⟩
  returned ℓ c' m output hret := by
    have hret := (mem_append_event.mp hret).resolve_right nofun
    obtain ⟨⟨r, hr⟩, hocc⟩ := h.returned ℓ c' m output hret
    exact ⟨⟨r, hr.mono (List.subset_append_left _ _)⟩, hocc⟩

/-- A goroutine goes on, with something that it may wait for. -/
theorem goOn (h : σ.Inv) {g : ℕ} {args : Args} {pc : LoopPc}
    (hsound : Goroutine.Sound σ.service ⟨args, pc⟩) : (σ.goOn g args pc).Inv where
  served := h.served
  call_lt := h.call_lt
  called_unique := h.called_unique
  logged := h.logged
  goroutine x hx := (List.mem_or_eq_of_mem_set hx).elim (h.goroutine x) fun heq => heq ▸ hsound
  returned := h.returned

theorem call (h : σ.Inv) {g : ℕ} (hstep : σ.call g = .ok σ') : σ'.Inv := by
  rw [SharedService.call] at hstep
  split at hstep
  · next args hg =>
    cases hstep
    have hcalled := (h.goroutine _ (List.mem_of_getElem? hg)).called
    refine ⟨h.served.addCall hcalled _, h.call_lt, h.called_unique, h.logged, fun x hx => ?_,
      h.returned⟩
    rcases List.mem_or_eq_of_mem_set hx with hx | rfl
    · refine (h.goroutine x hx).mono (List.Subset.refl _) fun k hk => ?_
      obtain ⟨call, hcall, -⟩ := Option.map_eq_some_iff.mp hk
      dsimp only
      rwa [List.getElem?_append_left (List.getElem?_eq_some_iff.mp hcall).1]
    · refine ⟨hcalled, fun k hk => ?_⟩
      obtain rfl := LoopPc.waiting.inj hk
      dsimp only
      rw [List.getElem?_concat_length, Option.map_some]
  · cases hstep

/-- What is returned is in the log. -/
theorem receive (h : σ.Inv) {g : ℕ} (hstep : σ.receive g = .ok σ') : σ'.Inv := by
  rw [SharedService.receive] at hstep
  split at hstep
  · next args k hg =>
    obtain ⟨hcalled, hwaits⟩ := h.goroutine _ (List.mem_of_getElem? hg)
    split at hstep
    · next reply hreply =>
      obtain ⟨call, hk, hpc⟩ := Option.bind_eq_some_iff.mp hreply
      have hargs := hwaits k rfl
      rw [hk] at hargs
      obtain rfl := Option.some.inj hargs
      split at hstep
      · next output hout =>
        cases hstep
        obtain ⟨j, -, hocc, -⟩ :=
          (h.served.calls call (List.mem_of_getElem? hk)).answered reply output hpc hout
        refine ⟨h.served.see _, fun c m r hr => ?_, fun id r r' hr hr' => ?_, fun x hx => ?_,
          fun x hx => ?_, fun ℓ c m out hret => ?_⟩
        · exact h.call_lt c m r (called_append_ret.mp hr)
        · exact h.called_unique id r r' (called_append_ret.mp hr) (called_append_ret.mp hr')
        · exact called_append_ret.mpr (h.logged x hx)
        · rcases List.mem_or_eq_of_mem_set hx with hx | rfl
          · exact (h.goroutine x hx).mono (List.subset_append_left _ _) fun _ => id
          · exact ⟨called_append_ret.mpr hcalled, nofun⟩
        · rcases mem_append_event.mp hret with hret | ⟨-, heq⟩
          · obtain ⟨⟨r, hr⟩, hlog⟩ := h.returned ℓ c m out hret
            exact ⟨⟨r, called_append_ret.mpr hr⟩, hlog⟩
          · cases heq
            exact ⟨⟨_, called_append_ret.mpr hcalled⟩, hocc.of_take⟩
      · cases hstep
        refine h.goOn ⟨hcalled, ?_⟩
        split_ifs <;> nofun
    · cases hstep
  · cases hstep

theorem giveUp (h : σ.Inv) {g : ℕ} (hstep : σ.giveUp g = .ok σ') : σ'.Inv := by
  rw [SharedService.giveUp] at hstep
  split at hstep
  · next args k hg =>
    cases hstep
    exact h.goOn ⟨(h.goroutine _ (List.mem_of_getElem? hg)).called, nofun⟩
  · cases hstep

theorem advance [NeZero n] (h : σ.Inv) {g : ℕ} (hstep : σ.advance g = .ok σ') : σ'.Inv := by
  rw [SharedService.advance] at hstep
  split at hstep
  · next args hg =>
    cases hstep
    have hgo : (σ.goOn g args .call).Inv :=
      h.goOn ⟨(h.goroutine _ (List.mem_of_getElem? hg)).called, nofun⟩
    refine ⟨h.served.setClerk _ _, fun c m r hr => ?_, h.called_unique, h.logged, fun x hx => ?_,
      h.returned⟩
    · have hlt := h.call_lt c m r hr
      show m < (Function.update σ.service.clerks args.clientID _ c).nextSeq
      rcases eq_or_ne c args.clientID with rfl | hne
      · rwa [Function.update_self]
      · rwa [Function.update_of_ne hne]
    · exact (hgo.goroutine x hx).mono (List.Subset.refl _) fun _ => id
  · cases hstep

/-- What the servers do. -/
theorem server [NeZero n] (h : σ.Inv) {e : ServiceEvent n} (he : e.OfServer)
    (hok : σ.InOrder (.server e)) (hstep : σ.service.step gob e = .ok service) :
    Inv { σ with service := service } := by
  obtain ⟨⟨hclerks, hhistory, hargs⟩, hlog⟩ := Service.sameClients_of_step he hstep
  have hserved : service.Served := by
    refine h.served.step he ?_ hstep
    rintro operation rfl
    exact hok
  have hsub : σ.service.log ⊆ service.log ∧ ∀ operation ∈ service.log,
      Called σ.service.history (operation.clientID, operation.cmdID) operation.request := by
    cases e with
    | commit operation =>
      rw [Service.step, Service.commit] at hstep
      split_ifs at hstep with hop
      cases hstep
      refine ⟨List.subset_append_left _ _, fun x hx => ?_⟩
      rcases List.mem_append.mp hx with hx | hx
      · exact h.logged x hx
      · obtain rfl := List.mem_singleton.mp hx
        exact h.served.started x hop
    | _ =>
      rw [hlog (by simp)]
      exact ⟨List.Subset.refl _, h.logged⟩
  refine ⟨hserved, ?_, ?_, ?_, fun g hg => ?_, fun ℓ c m output hret => ?_⟩
  · rw [hhistory, hclerks]
    exact h.call_lt
  · rw [hhistory]
    exact h.called_unique
  · rw [hhistory]
    exact hsub.2
  · exact (h.goroutine g hg).mono (by rw [hhistory]; exact List.Subset.refl _)
      fun k hk => (hargs k).trans hk
  · dsimp only at hret ⊢
    rw [hhistory] at hret ⊢
    obtain ⟨hr, hocc⟩ := h.returned ℓ c m output hret
    exact ⟨hr, hocc.of_subset hsub.1⟩

/-- **One event** keeps all of it, if commands come in order. -/
theorem step [NeZero n] (h : σ.Inv) {e : SharedEvent n} (hok : σ.InOrder e)
    (hstep : σ.step gob e = .ok σ') : σ'.Inv := by
  cases e with
  | put c key value =>
    cases hstep
    exact h.putAppend c _
  | append c key value =>
    cases hstep
    exact h.putAppend c _
  | call g => exact h.call hstep
  | receive g => exact h.receive hstep
  | giveUp g => exact h.giveUp hstep
  | advance g => exact h.advance hstep
  | server e =>
    rw [SharedService.step] at hstep
    split_ifs at hstep with he
    obtain ⟨service, hservice, hstep⟩ := bind_eq_ok.mp hstep
    cases hstep
    exact h.server he hok hservice

/-- **What returned was performed, once.** -/
theorem performed (h : σ.Inv) {c m : ℕ} {output : Option String}
    (hret : (ℓ, .ret (c, m) output) ∈ σ.service.history) :
    ∃ p operation, σ.service.log[p]? = some operation ∧ operation.clientID = c ∧
      operation.cmdID = m ∧ Called σ.service.history (c, m) operation.request ∧
      (Kv.after (σ.service.log.take p)).isNew operation = true ∧
      ∀ q operation', σ.service.log[q]? = some operation' → operation'.clientID = c →
        operation'.cmdID = m → (Kv.after (σ.service.log.take q)).isNew operation' = true →
          q = p := by
  obtain ⟨-, hocc⟩ := h.returned ℓ c m output hret
  rw [← List.take_length (l := σ.service.log)] at hocc
  obtain ⟨p, -, operation, hp, rfl, rfl, hnew⟩ := h.served.orderly.exists_isNew hocc
  refine ⟨p, operation, hp, rfl, rfl, h.logged operation (List.mem_of_getElem? hp), hnew, ?_⟩
  intro q operation' hq hc hm hnew'
  exact (Kv.le_of_isNew hnew' hp hc.symm hm.symm).antisymm (Kv.le_of_isNew hnew hq hc hm)

end Inv

end SharedService

end Inv

/-! ### Every run -/

/-- **Goroutines that share a clerk**, in every run in which the commands of a clerk are agreed on
in the order of their numbers: a `Put` or `Append` that returned was performed at one point of the
log, and at no other. -/
theorem shared_clerk_once [NeZero n] {gob : Gob Kv} {τ : List (SharedService n)}
    (h : SharedService.Run gob SharedService.InOrder τ) {σ : SharedService n} (hσ : σ ∈ τ)
    {ℓ c m : ℕ} {output : Option String}
    (hret : (ℓ, .ret (c, m) output) ∈ σ.service.history) :
    ∃ p operation, σ.service.log[p]? = some operation ∧ operation.clientID = c ∧
      operation.cmdID = m ∧ Called σ.service.history (c, m) operation.request ∧
      (Kv.after (σ.service.log.take p)).isNew operation = true ∧
      ∀ q operation', σ.service.log[q]? = some operation' → operation'.clientID = c →
        operation'.cmdID = m → (Kv.after (σ.service.log.take q)).isNew operation' = true →
          q = p := by
  have hinv : ∀ σ ∈ τ, σ.Inv := by
    refine Trace.invariant SharedService.inv_init (fun _ _ _ hi hn => ?_) h
    exact hi.step hn.1 hn.2
  exact (hinv σ hσ).performed hret

instance (σ : SharedService n) : DecidablePred σ.InOrder
  | .server (.commit operation) => inferInstanceAs (Decidable (∀ m < operation.cmdID, _))
  | .server (.invoke _ _) | .server (.send _) | .server (.receive _) | .server (.giveUp _)
  | .server (.serve _) | .server (.turn _ _) | .server (.apply _) | .server (.finishApply _)
  | .server (.install _ _) | .server (.restart _)
  | .put _ _ _ | .append _ _ _ | .call _ | .receive _ | .giveUp _ | .advance _ => .isTrue trivial

/-- Server 0 of three leads. Two goroutines append to the value of `x`. They call server 0 at the
same time, and the handler of the first puts its command in the log first. -/
def appendedInOrder : List (SharedEvent 3) :=
  [.append 7 "x" "a", .append 7 "x" "b", .call 0, .call 1, .server (.serve 0), .server (.serve 1),
    .server (.turn 0 (.raftState true)), .server (.turn 0 .run),
    .server (.turn 0 (.raftStart (some 1))), .server (.turn 0 .run),
    .server (.turn 1 (.raftState true)), .server (.turn 1 .run),
    .server (.turn 1 (.raftStart (some 2))), .server (.turn 1 .run),
    .server (.commit ⟨.append, "x", "a", 7, 0⟩), .server (.commit ⟨.append, "x", "b", 7, 1⟩),
    .server (.apply 0), .server (.finishApply 0), .server (.turn 0 .run), .server (.turn 0 .run),
    .server (.turn 0 .run), .server (.turn 0 .run), .receive 0]

theorem shared_clerk_once_two : ∃ (σ : SharedService 3) (τ : List (SharedService 3)),
    SharedService.Run (Gob.unary Kv) SharedService.InOrder (σ :: τ) ∧
    (2, .ret (7, 0) none) ∈ σ.service.history ∧
    ∃ p operation, σ.service.log[p]? = some operation ∧ operation.clientID = 7 ∧
      operation.cmdID = 0 ∧ Called σ.service.history (7, 0) operation.request ∧
      (Kv.after (σ.service.log.take p)).isNew operation = true ∧
      ∀ q operation', σ.service.log[q]? = some operation' → operation'.clientID = 7 →
        operation'.cmdID = 0 → (Kv.after (σ.service.log.take q)).isNew operation' = true →
          q = p := by
  have hend : (appendedInOrder.foldlM (stepIf .disabled SharedService.InOrder
      (SharedService.step (Gob.unary Kv))) (SharedService.init 3)).toOption.map
        (fun σ => decide ((2, .ret (7, 0) none) ∈ σ.service.history)) = some true := by
    decide +kernel
  obtain ⟨σ, hσ, hret⟩ := Option.map_eq_some_iff.mp hend
  obtain ⟨τ, hrun⟩ := Trace.exists_of_stepIf (Cluster.eq_ok_of_mem_toOption hσ)
  have hret := of_decide_eq_true hret
  exact ⟨σ, τ, hrun, hret, shared_clerk_once hrun List.mem_cons_self hret⟩

/-- Server 0 of three leads, and two goroutines append to the value of `x`. The handler of the
second is faster, and its command is performed before that of the first is in the log. The handler
of the first then finds that server 0 has seen a command with a larger number. -/
def overtaken : List (SharedEvent 3) :=
  [.append 7 "x" "a", .append 7 "x" "b", .call 0, .call 1, .server (.serve 0), .server (.serve 1),
    .server (.turn 1 (.raftState true)), .server (.turn 1 .run),
    .server (.turn 1 (.raftStart (some 1))), .server (.turn 1 .run),
    .server (.commit ⟨.append, "x", "b", 7, 1⟩), .server (.apply 0), .server (.finishApply 0),
    .server (.turn 0 (.raftState true)), .server (.turn 0 .run), .server (.turn 0 .run),
    .receive 0]

/-- **A write that is acknowledged and lost**: `Append` of `"a"` returned, and no command of the log
is that one. -/
theorem shared_clerk_lost : ∃ (σ : SharedService 3) (τ : List (SharedService 3)),
    SharedService.Run (Gob.unary Kv) (fun _ _ => True) (σ :: τ) ∧
    Called σ.service.history (7, 0) (.append "x" "a") ∧
    (1, .ret (7, 0) none) ∈ σ.service.history ∧
    σ.service.log = [⟨.append, "x", "b", 7, 1⟩] ∧
    (σ.service.servers 0).kv.kvdb.lookup "x" = some "b" := by
  have hend : (overtaken.foldlM (stepIf .disabled (fun _ _ => True)
      (SharedService.step (Gob.unary Kv))) (SharedService.init 3)).toOption.map
        (fun σ => (decide ((0, .call (7, 0) (.append "x" "a")) ∈ σ.service.history ∧
          (1, .ret (7, 0) none) ∈ σ.service.history), σ.service.log,
            (σ.service.servers 0).kv.kvdb.lookup "x")) =
        some (true, [⟨.append, "x", "b", 7, 1⟩], some "b") := by
    decide +kernel
  obtain ⟨σ, hσ, hlast⟩ := Option.map_eq_some_iff.mp hend
  obtain ⟨τ, hrun⟩ := Trace.exists_of_stepIf (Cluster.eq_ok_of_mem_toOption hσ)
  obtain ⟨hseen, hlast⟩ := Prod.mk.inj hlast
  obtain ⟨hlog, hval⟩ := Prod.mk.inj hlast
  obtain ⟨hcall, hret⟩ := of_decide_eq_true hseen
  exact ⟨σ, τ, hrun, ⟨0, hcall⟩, hret, hlog, hval⟩

end RaftKVDB
