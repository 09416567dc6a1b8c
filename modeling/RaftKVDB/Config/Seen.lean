import RaftKVDB.Config.Testbed
import RaftKVDB.Foundations.Refinement
import RaftKVDB.Foundations.Views

/-!
# What is seen of the test bed

An abstraction of the test bed to a cluster: the peer of a server is that of the instance that runs
or will be started next, and of the calls one sees those that can still have an effect on such an
instance. A call of the network goes through many stages. In the cluster it is requested, handled or
answered, or it is not there.

Most of what the network does is not seen, and now and then a call gets lost (`seen_turned`). What
the handlers and the callers do is what they do in the cluster, if their instance runs, and is not
seen if it has crashed.

## Main definitions

* `Testbed.cluster` — the cluster that is seen
* `Testbed.Inv` — what holds of the test bed

## Main results

* `Testbed.seen_turned`
* `Testbed.leads_handle`, `Testbed.leads_notify`, `Testbed.leads_process`
-/

namespace RaftKVDB

open Foundations Labrpc

namespace Testbed

variable {n : ℕ} {α : Type*}

/-! ### What is seen of the test bed -/

/-- The instance runs, or will run next. All others have crashed. -/
def live (T : Testbed n α) (i : Instance n) : Bool := decide (i.epoch = T.epoch i.server)

/-- The peer of a server: the one that runs, or the one that will be started. -/
def peer (T : Testbed n α) (p : Fin n) : Raft n α :=
  if T.up p then T.rafts (T.current p) else Raft.make p (T.saved p)

/-- A call with these arguments, as a cluster has it. -/
def body : RaftArgs n α → Option RaftReply → Body n α
  | .requestVote args, some (.requestVote reply) => .requestVote args (some reply)
  | .requestVote args, _ => .requestVote args none
  | .appendEntries args, some (.appendEntries reply) => .appendEntries args (some reply)
  | .appendEntries args, _ => .appendEntries args none
  | .installSnapShot args, some (.installSnapShot reply) => .installSnapShot args (some reply)
  | .installSnapShot args, _ => .installSnapShot args none

/-- A call whose handler runs. -/
def runningBody (server : Instance n) : RaftArgs n α → Option RaftReply → Body n α
  | .installSnapShot args, some (.installSnapShot reply) => .notifying args reply server.epoch
  | args, _ => body args none

/-- How far a call is, as far as the cluster is concerned. A request that has not been looked up is
there as long as its caller is, since the ends of a crashed instance are disabled; one that has
been, as long as the server is. From when the handler has run, it is for the caller; and until the
last look at the server, only as long as the server is there, too. -/
def seen (live : Instance n → Bool) (notice : Option RaftReply) (processed : Bool)
    (c : RaftRpc n α) : Option (Body n α) :=
  match c.handler with
  | .none =>
    match c.pc with
    | .sending | .received => if live c.req.endname.owner then some (body c.req.args none) else none
    | .routed route => if live route.server then some (body c.req.args none) else none
    | _ => none
  | .spawned s | .dispatched s _ _ => if live s then some (body c.req.args none) else none
  | .running s _ _ => if live s then some (runningBody s c.req.args notice) else none
  | .finished s reply =>
    match c.pc with
    | .waiting _ =>
      if live s && live c.req.endname.owner then some (body c.req.args (some reply)) else none
    | _ => none
  | .exited =>
    match c.pc with
    | .checking route (some reply) =>
      if live route.server && live c.req.endname.owner then some (body c.req.args (some reply))
      else none
    | .answering _ reply | .replying (some reply) | .delayed (some reply) =>
      if live c.req.endname.owner then some (body c.req.args (some reply)) else none
    | .returned (some reply) =>
      if live c.req.endname.owner && !processed then some (body c.req.args (some reply)) else none
    | _ => none

/-- The call `c` at position `k`, as the cluster has it. -/
def callOf (T : Testbed n α) (k : ℕ) (c : RaftRpc n α) : Option (Call n α) :=
  (seen T.live (T.notices k) (T.processed k) c).map fun body =>
    ⟨c.req.endname.owner.server, c.req.endname.owner.epoch, c.req.endname.server, body⟩

/-- What is seen at position `k`. -/
def view (T : Testbed n α) (k : ℕ) : Option (Call n α) := T.net.calls[k]?.bind (T.callOf k)

/-- **The cluster that is seen.** -/
def cluster (T : Testbed n α) : Cluster n α where
  peers := T.peer
  epoch := T.epoch
  calls := (List.range T.net.calls.length).filterMap T.view

/-! ### What holds of the test bed -/

/-- The reply is one to these arguments. -/
def Fits : RaftArgs n α → RaftReply → Prop
  | .requestVote _, .requestVote _ | .appendEntries _, .appendEntries _
  | .installSnapShot _, .installSnapShot _ => True
  | _, _ => False

/-- A reply on its way. -/
def Carries (c : RaftRpc n α) (reply : RaftReply) : Prop :=
  (∃ s, c.handler = .finished s reply) ∨ (∃ route, c.pc = .checking route (some reply)) ∨
    c.pc.reply = some reply

/-- What holds of a call: it goes from an instance that was started to one of the server it is
meant for, and the notes about it are true. -/
structure CallInv (T : Testbed n α) (k : ℕ) (c : RaftRpc n α) : Prop where
  sound : c.Sound
  owner : T.made c.req.endname.owner = true
  route : ∀ route, c.pc.route = some route →
    route.servername = c.req.endname.server ∧ route.server.server = c.req.endname.server ∧
      T.made route.server = true
  handler : ∀ s, c.handler.server = some s → s.server = c.req.endname.server ∧ T.made s = true
  dispatched : ∀ s service methname, c.handler = .dispatched s service methname →
    service = raftService s
  running : ∀ s service methname, c.handler = .running s service methname →
    service = raftService s
  notice : ∀ reply, T.notices k = some reply →
    (∃ args r, c.req.args = .installSnapShot args ∧ reply = .installSnapShot r) ∧
      ∃ s service methname, c.handler = .running s service methname
  processed : T.processed k = true → ∃ reply, c.pc = .returned (some reply)
  fits : ∀ reply, Carries c reply → Fits c.req.args reply

/-- What holds of what the tester is doing. From when the ends are disabled until the copy is made,
the instance has none that is enabled; what is killed has crashed. -/
def TesterInv (T : Testbed n α) : Prop :=
  match T.tester with
  | .idle => True
  | .disconnecting p todo =>
    ∀ e, T.net.enabled e = true → e.owner = T.current p → T.up p = true → e ∈ todo
  | .deleting p => ∀ e, T.net.enabled e = true → e.owner = T.current p → T.up p = false
  | .copying p => T.net.servers p = none ∧
    ∀ e, T.net.enabled e = true → e.owner = T.current p → T.up p = false
  | .killing i => i.epoch < T.epoch i.server
  | .wiring p _ | .making p => T.up p = false ∧ T.endnames p = some (T.epoch p)
  | .adding p => T.up p = true

/-- What holds of the test bed: what is registered runs, and what is enabled is an end of a running
instance or of one that is being started. -/
structure Inv (T : Testbed n α) : Prop where
  server : ∀ p s, T.net.servers p = some s → s = T.current p ∧ T.up p = true
  enabled : ∀ e, T.net.enabled e = true → T.live e.owner = true
  endnames : ∀ p, T.up p = true → T.endnames p = some (T.epoch p)
  connection : ∀ e p, T.net.connections e = some p → p = e.server
  service : ∀ s name svc, T.net.services s name = some svc → svc = raftService s
  tester : T.TesterInv
  call : ∀ (k : ℕ) c, T.net.calls[k]? = some c → T.CallInv k c
  note : ∀ k, T.net.calls.length ≤ k → T.notices k = none ∧ T.processed k = false

variable {T T' : Testbed n α} {c c' : RaftRpc n α} {k : ℕ} {t : Labrpc.Turn RaftReply}
  {i : Instance n}

@[simp] theorem live_current (T : Testbed n α) (p : Fin n) : T.live (T.current p) = true :=
  decide_eq_true rfl

theorem eq_current_of_live (h : T.live i = true) : i = T.current i.server := by
  obtain ⟨p, e⟩ := i
  exact congrArg (Instance.mk p) (of_decide_eq_true h)

@[simp] theorem made_current (T : Testbed n α) (p : Fin n) : T.made (T.current p) = T.up p := by
  simp [made, current]

theorem up_of_live (hmade : T.made i = true) (hlive : T.live i = true) : T.up i.server = true := by
  rw [eq_current_of_live hlive, made_current] at hmade
  exact hmade

/-- The peer that is seen is that of the running instance. -/
theorem peer_of_live (hmade : T.made i = true) (hlive : T.live i = true) :
    T.peer i.server = T.rafts i := by
  rw [peer, if_pos (up_of_live hmade hlive), ← eq_current_of_live hlive]

@[simp] theorem runningBody_none (s : Instance n) (args : RaftArgs n α) :
    runningBody s args none = body args none := by
  cases args <;> rfl

theorem CallInv.notice_eq_none (h : T.CallInv k c)
    (hhandler : ∀ s service methname, c.handler ≠ .running s service methname) :
    T.notices k = none := by
  rw [Option.eq_none_iff_forall_ne_some]
  intro reply hreply
  obtain ⟨-, s, service, methname, heq⟩ := h.notice reply hreply
  exact hhandler s service methname heq

theorem CallInv.processed_eq_false (h : T.CallInv k c)
    (hpc : ∀ reply, c.pc ≠ .returned (some reply)) : T.processed k = false := by
  rw [Bool.eq_false_iff]
  intro hprocessed
  obtain ⟨reply, heq⟩ := h.processed hprocessed
  exact hpc reply heq

/-- Whoever finds the server alive finds both instances running. -/
theorem Inv.live_of_alive {e : EndName n} {p : Fin n} {s : Instance n} (h : T.Inv)
    (halive : T.net.isServerDead e p s = false) : T.live e.owner = true ∧ T.live s = true := by
  obtain ⟨henabled, hserver⟩ := Network.isServerDead_eq_false.mp halive
  obtain ⟨rfl, -⟩ := h.server p s hserver
  exact ⟨h.enabled e henabled, live_current T p⟩

/-- **A turn in the network** is not seen, except that a call may be lost. -/
theorem seen_turned (hinv : T.Inv) (h : T.CallInv k c) (hturn : T.net.Turned c t c')
    (ht : ∀ reply, t ≠ .handlerReturn reply) :
    seen T.live (T.notices k) (T.processed k) c' = seen T.live (T.notices k) (T.processed k) c ∨
      seen T.live (T.notices k) (T.processed k) c' = none := by
  have hsound := h.sound
  cases hturn with
  | handlerReturn reply => exact (ht reply rfl).elim
  | abandon hpc | lost hpc | dropRequest hpc =>
    simp only [Rpc.Sound, hpc] at hsound
    exact .inr (by simp [seen, hsound.1])
  | accept hpc =>
    simp only [Rpc.Sound, hpc] at hsound
    exact .inl (by simp [seen, hsound.1, hpc])
  | found hpc henabled hconn hserver =>
    simp only [Rpc.Sound, hpc] at hsound
    obtain ⟨rfl, -⟩ := hinv.server _ _ hserver
    exact .inl (by simp [seen, hsound.1, hpc, hinv.enabled _ henabled])
  | execute hpc =>
    simp only [Rpc.Sound, hpc] at hsound
    exact .inl (by simp [seen, hsound.1, hpc])
  | dispatch hhandler => exact .inl (by simp [seen, hhandler])
  | callMethod hhandler =>
    exact .inl (by simp [seen, hhandler, h.notice_eq_none (by simp [hhandler])])
  | @receive route s reply hpc hhandler =>
    simp only [Rpc.Sound, hpc, hhandler, Labrpc.Handler.server, Option.some.injEq] at hsound
    obtain ⟨rfl, -⟩ := hsound
    exact .inl (by simp [seen, hpc, hhandler])
  | giveUp hpc =>
    cases hhandler : c.handler with
    | finished => exact .inr (by simp [seen])
    | none | spawned | dispatched | running | exited => simp_all [seen]
  | goOn => exact .inl rfl
  | drain hhandler hdraining =>
    refine .inr ?_
    obtain ⟨req, pc, handler, draining⟩ := c
    cases pc with
    | checking route reply | replying reply | delayed reply | returned reply =>
      cases reply with
      | none => simp [seen]
      | some reply => simp_all [Rpc.Sound]
    | sending | received | routed | waiting | answering => simp_all [Rpc.Sound]
  | pass hpc halive =>
    simp only [Rpc.Sound, hpc] at hsound
    obtain ⟨howner, hserver⟩ := hinv.live_of_alive halive
    exact .inl (by simp [seen, hpc, hsound.1, howner, hserver])
  | @fail route reply hpc hdead =>
    cases reply with
    | none => cases hhandler : c.handler <;> simp_all [seen]
    | some reply =>
      simp only [Rpc.Sound, hpc] at hsound
      exact .inr (by simp [seen, hsound.1])
  | dropReply hpc =>
    simp only [Rpc.Sound, hpc] at hsound
    exact .inr (by simp [seen, hsound.1])
  | delayReply hpc | sendReply hpc =>
    simp only [Rpc.Sound, hpc] at hsound
    exact .inl (by simp [seen, hpc, hsound.1])
  | @reply reply hpc =>
    have hprocessed : T.processed k = false := h.processed_eq_false (by
      rcases hpc with hpc | hpc <;> simp [hpc])
    cases reply with
    | none => rcases hpc with hpc | hpc <;> cases hhandler : c.handler <;> simp_all [seen]
    | some reply => rcases hpc with hpc | hpc <;> simp_all [seen, Rpc.Sound]

/-! ### Losing calls -/

section Lose

variable {ok : Cluster n α → Event n α → Prop} (hok : ∀ σ e, e.processed = none → ok σ e)

include hok

/-- A cluster can lose any of its calls. -/
theorem leads_lose {σ : Cluster n α} {calls : List (Call n α)} (h : calls.Sublist σ.calls) :
    Leads (Cluster.Next ok) (fun _ => True) σ { σ with calls := calls } := by
  suffices hall : ∀ front : List (Call n α), Leads (Cluster.Next ok) (fun _ => True)
      { σ with calls := front ++ σ.calls } { σ with calls := front ++ calls } from hall []
  generalize σ.calls = all at h
  induction h with
  | slnil => exact fun front => .refl _
  | @cons l₁ l₂ c _ ih =>
    intro front
    refine .head (e := .lose front.length) trivial ⟨hok _ _ rfl, ?_⟩ (ih front)
    simp [Cluster.step, Cluster.onCall, Cluster.endCall, List.eraseIdx_append_of_length_le]
  | @cons_cons l₁ l₂ c _ ih =>
    intro front
    simpa using ih (front ++ [c])

/-- What is seen of the peers stays, and of the calls no more than before. -/
theorem leads_of_view (hpeer : T'.peer = T.peer) (hepoch : T'.epoch = T.epoch)
    (hlen : T.net.calls.length ≤ T'.net.calls.length)
    (hview : ∀ k < T.net.calls.length, T'.view k = T.view k ∨ T'.view k = none)
    (hnew : ∀ k < T'.net.calls.length, T.net.calls.length ≤ k → T'.view k = none) :
    Leads (Cluster.Next ok) (fun _ => True) T.cluster T'.cluster := by
  have hcalls : (List.range T'.net.calls.length).filterMap T'.view =
      (List.range T.net.calls.length).filterMap T'.view := by
    obtain ⟨m, hm⟩ := Nat.exists_eq_add_of_le hlen
    have hnone : ((List.range m).map (T.net.calls.length + ·)).filterMap T'.view = [] := by
      refine List.filterMap_eq_nil_iff.mpr fun k hk => ?_
      obtain ⟨j, hj, rfl⟩ := List.mem_map.mp hk
      exact hnew _ (by have := List.mem_range.mp hj; omega) (Nat.le_add_right _ _)
    rw [hm, List.range_add, List.filterMap_append, hnone, List.append_nil]
  have hcluster : T'.cluster =
      { T.cluster with calls := (List.range T.net.calls.length).filterMap T'.view } := by
    rw [cluster, hcalls, hpeer, hepoch]
    rfl
  rw [hcluster]
  exact leads_lose hok (filterMap_sublist fun k hk => hview k (List.mem_range.mp hk))

end Lose

theorem view_eq (hc : T.net.calls[k]? = some c) : T.view k = T.callOf k c := by
  rw [view, hc]
  rfl

theorem view_congr {j : ℕ} (hcalls : T'.net.calls[j]? = T.net.calls[j]?)
    (hepoch : T'.epoch = T.epoch) (hnotice : T'.notices j = T.notices j)
    (hprocessed : T'.processed j = T.processed j) : T'.view j = T.view j := by
  have hlive : T'.live = T.live := by
    funext i
    rw [live, live, hepoch]
  have hcall : T'.callOf j = T.callOf j := by
    funext c
    rw [callOf, callOf, hlive, hnotice, hprocessed]
  rw [view, view, hcalls, hcall]

/-- One call changed. -/
theorem view_set {net : RaftNet n α} (hc : T.net.calls[k]? = some c)
    (hcalls : net.calls = T.net.calls.set k c') (j : ℕ) :
    { T with net := net }.view j = if j = k then T.callOf k c' else T.view j := by
  have hlt : k < T.net.calls.length := (List.getElem?_eq_some_iff.mp hc).1
  rcases eq_or_ne j k with rfl | hne
  · rw [if_pos rfl]
    refine view_eq ?_
    simp [hcalls, hlt]
  · rw [if_neg hne, view, view]
    simp only [hcalls, List.getElem?_set_ne (Ne.symm hne)]
    rfl

theorem calls_set_self (hc : T.net.calls[k]? = some c) : T.net.calls.set k c = T.net.calls := by
  obtain ⟨hlt, rfl⟩ := List.getElem?_eq_some_iff.mp hc
  exact List.set_getElem_self hlt

theorem view_eq_none (h : T.net.calls.length ≤ k) : T.view k = none := by
  rw [view, List.getElem?_eq_none h]
  rfl

/-- A call that is seen has a place in the cluster, at which one sees what becomes of it. -/
theorem exists_place {call : Call n α} (hk : T.view k = some call)
    (hlen : T'.net.calls.length = T.net.calls.length)
    (hsame : ∀ j, j ≠ k → T'.view j = T.view j) :
    ∃ i, T.cluster.calls[i]? = some call ∧
      (∀ call', T'.view k = some call' → T'.cluster.calls = T.cluster.calls.set i call') ∧
      (T'.view k = none → T'.cluster.calls = T.cluster.calls.eraseIdx i) := by
  have hlt : k < T.net.calls.length := by
    by_contra hge
    rw [view_eq_none (Nat.le_of_not_lt hge)] at hk
    cases hk
  rw [cluster, cluster, hlen]
  exact exists_filterMap_range hlt hsame hk

section Answer

variable {ok : Cluster n α → Event n α → Prop} (hok : ∀ σ e, e.processed = none → ok σ e)

include hok

/-- The server of a call does something, and the call comes further, or is not for anybody any
more. -/
theorem leads_answer {call : Call n α} {q : Fin n} {rf : Raft n α} (newBody : Body n α)
    (hk : T.view k = some call) (hlen : T'.net.calls.length = T.net.calls.length)
    (hsame : ∀ j, j ≠ k → T'.view j = T.view j) (hepoch : T'.epoch = T.epoch)
    (hpeer : T'.peer = Function.update T.peer q rf)
    (hnew : T'.view k = some { call with body := newBody } ∨ T'.view k = none)
    (hstep : ∀ i, T.cluster.calls[i]? = some call → ∃ e, e.processed = none ∧
      T.cluster.step e = .ok ((T.cluster.setPeer q rf).setBody i call newBody)) :
    Leads (Cluster.Next ok) (fun _ => True) T.cluster T'.cluster := by
  obtain ⟨i, hi, hset, herase⟩ := exists_place hk hlen hsame
  obtain ⟨e, he, hrun⟩ := hstep i hi
  refine .head (e := e) trivial ⟨hok _ _ he, hrun⟩ ?_
  have hcluster : T'.cluster = { (T.cluster.setPeer q rf).setBody i call newBody with
      calls := T'.cluster.calls } := by
    simp only [cluster, Cluster.setPeer, Cluster.setBody, hpeer, hepoch]
  rw [hcluster]
  refine leads_lose hok ?_
  simp only [Cluster.setPeer, Cluster.setBody]
  rcases hnew with hsome | hnone
  · rw [hset _ hsome]
  · rw [herase hnone, ← List.eraseIdx_set_eq (a := { call with body := newBody })]
    exact List.eraseIdx_sublist _ _

end Answer

theorem peer_setRaft (T : Testbed n α) (i : Instance n) (rf : Raft n α) (p : Fin n) :
    (T.setRaft i rf).peer p =
      if T.up p then Function.update T.rafts i rf (T.current p) else Raft.make p (T.saved p) :=
  rfl

/-- A peer that has crashed is not seen. -/
theorem peer_setRaft_of_not_live (rf : Raft n α) (h : T.live i = false) :
    (T.setRaft i rf).peer = T.peer := by
  funext p
  have hne : T.current p ≠ i := by
    rintro rfl
    simp at h
  rw [peer_setRaft, Function.update_of_ne hne, peer]

/-- The peer of the running instance is. -/
theorem peer_setRaft_of_live (rf : Raft n α) (hmade : T.made i = true) (h : T.live i = true) :
    (T.setRaft i rf).peer = Function.update T.peer i.server rf := by
  funext p
  have hi := eq_current_of_live h
  rw [peer_setRaft]
  rcases eq_or_ne p i.server with rfl | hne
  · rw [if_pos (up_of_live hmade h), ← hi, Function.update_self, Function.update_self]
  · have hcur : T.current p ≠ i := fun heq => hne (congrArg Instance.server heq)
    rw [Function.update_of_ne hcur, Function.update_of_ne hne, peer]

/-! ### The handlers -/

/-- What a handler's step leaves: its peer, how far the call is, and the note. -/
def handled (T : Testbed n α) (k : ℕ) (i : Instance n) (rf : Raft n α) (c : RaftRpc n α)
    (notice : Option RaftReply) : Testbed n α :=
  { T.setRaft i rf with
    net := { T.net with calls := T.net.calls.set k c }
    notices := Function.update T.notices k notice }

theorem handlerReturn_eq {s : Instance n} {service : Labrpc.Service (Instance n)}
    {methname : String} (hc : T.net.calls[k]? = some c)
    (hhandler : c.handler = .running s service methname)
    (reply : RaftReply) : T.handlerReturn k reply = .ok { T with net := { T.net with
      calls := T.net.calls.set k { c with handler := .finished s reply } } } := by
  simp [handlerReturn, Network.turn, hc, Network.rpcTurn, hhandler, Except.map, Network.counted]

/-- What `handle` does: the method is called, and returns or has yet to hand over a snapshot. -/
theorem handle_cases (h : T.handle k = .ok T') : ∃ c s service methname rf reply installed,
    T.net.calls[k]? = some c ∧ c.handler = .running s service methname ∧ T.notices k = none ∧
    callMethod (T.rafts service.rcvr) c.req.args = some (rf, reply, installed) ∧
    T' = if installed then T.handled k service.rcvr rf c (some reply)
      else T.handled k service.rcvr rf { c with handler := .finished s reply } none := by
  rw [handle] at h
  split at h
  · cases h
  next c hc =>
  split at h
  next s service methname hhandler hnotice =>
    obtain ⟨⟨rf, reply, installed⟩, hm, hrest⟩ := bind_eq_ok.mp h
    refine ⟨c, s, service, methname, rf, reply, installed, hc, hhandler, hnotice,
      Cluster.orPanic_eq_ok.mp hm, ?_⟩
    dsimp only at hrest
    split at hrest
    next hinstalled =>
      rw [if_pos hinstalled, handled, calls_set_self hc]
      exact (Except.ok.inj hrest).symm
    next hinstalled =>
      rw [if_neg hinstalled, handled, Function.update_eq_self_iff.mpr hnotice.symm]
      rw [handlerReturn_eq (T := T.setRaft service.rcvr rf) hc hhandler] at hrest
      exact (Except.ok.inj hrest).symm
  · cases h

/-- What `notify` does. -/
theorem notify_cases (h : T.notify k = .ok T') : ∃ c s service methname reply args,
    T.net.calls[k]? = some c ∧ c.handler = .running s service methname ∧
    T.notices k = some reply ∧ c.req.args = .installSnapShot args ∧
    T' = T.handled k service.rcvr ((T.rafts service.rcvr).notifyAppUseNewSnapShot args.snapshot)
      { c with handler := .finished s reply } none := by
  rw [notify] at h
  split at h
  · cases h
  next c hc =>
  split at h
  next s service methname reply args hhandler hnotice hargs =>
    refine ⟨c, s, service, methname, reply, args, hc, hhandler, hnotice, hargs, ?_⟩
    have hreturn := handlerReturn_eq (T := { T.setRaft service.rcvr
      ((T.rafts service.rcvr).notifyAppUseNewSnapShot args.snapshot) with
        notices := Function.update T.notices k none }) hc hhandler reply
    exact Except.ok.inj (h.symm.trans hreturn)
  · cases h

/-- **The handler, in the cluster.** -/
theorem cluster_handle {σ : Cluster n α} {place : ℕ} {call : Call n α} {args : RaftArgs n α}
    {rf : Raft n α} {reply : RaftReply} {installed : Bool} {s : Instance n}
    (hi : σ.calls[place]? = some call) (hbody : call.body = body args none)
    (hm : callMethod (σ.peers call.server) args = some (rf, reply, installed))
    (hs : s.epoch = σ.epoch call.server) :
    σ.step (.handle place) = .ok ((σ.setPeer call.server rf).setBody place call
      (if installed then runningBody s args (some reply) else body args (some reply))) := by
  cases args with
  | requestVote args =>
    obtain ⟨⟨rf', reply'⟩, hrun, heq⟩ := Option.map_eq_some_iff.mp hm
    simp only [Prod.mk.injEq] at heq
    obtain ⟨rfl, rfl, rfl⟩ := heq
    simp [Cluster.step, Cluster.onCall, hi, Cluster.handle, hbody, body, hrun, Cluster.orPanic]
  | appendEntries args =>
    obtain ⟨⟨rf', reply'⟩, hrun, heq⟩ := Option.map_eq_some_iff.mp hm
    simp only [Prod.mk.injEq] at heq
    obtain ⟨rfl, rfl, rfl⟩ := heq
    simp [Cluster.step, Cluster.onCall, hi, Cluster.handle, hbody, body, hrun, Cluster.orPanic]
  | installSnapShot args =>
    obtain ⟨⟨rf', reply', installed'⟩, hrun, heq⟩ := Option.map_eq_some_iff.mp hm
    simp only [Prod.mk.injEq] at heq
    obtain ⟨rfl, rfl, rfl⟩ := heq
    cases installed' <;>
      simp [Cluster.step, Cluster.onCall, hi, Cluster.handle, hbody, body, runningBody, hrun,
        Cluster.orPanic, hs]

theorem callOf_eq_some {newBody : Body n α}
    (h : seen T.live (T.notices k) (T.processed k) c = some newBody) : T.callOf k c =
      some ⟨c.req.endname.owner.server, c.req.endname.owner.epoch, c.req.endname.server,
        newBody⟩ := by
  rw [callOf, h]
  rfl

theorem callOf_eq_none (h : seen T.live (T.notices k) (T.processed k) c = none) :
    T.callOf k c = none := by
  rw [callOf, h]
  rfl

theorem view_handled {rf : Raft n α} {notice : Option RaftReply} {j : ℕ} (hne : j ≠ k) :
    (T.handled k i rf c notice).view j = T.view j := by
  refine view_congr ?_ rfl (Function.update_of_ne hne _ _) rfl
  exact List.getElem?_set_ne hne.symm

theorem view_handled_self {rf : Raft n α} {notice : Option RaftReply}
    (hc : T.net.calls[k]? = some c) : (T.handled k i rf c' notice).view k =
      (seen T.live notice (T.processed k) c').map fun body =>
        ⟨c'.req.endname.owner.server, c'.req.endname.owner.epoch, c'.req.endname.server, body⟩ := by
  have hlt : k < T.net.calls.length := (List.getElem?_eq_some_iff.mp hc).1
  rw [view_eq (c := c') (by simp [handled, hlt]), callOf]
  simp only [handled, Function.update_self]
  rfl

/-- What is seen of a call that has been handled. -/
theorem seen_finished (live : Instance n → Bool) (notice : Option RaftReply) (processed : Bool)
    (c : RaftRpc n α) (s : Instance n) (reply : RaftReply) :
    seen live notice processed { c with handler := .finished s reply } = none ∨
      live s = true ∧ seen live notice processed { c with handler := .finished s reply } =
        some (body c.req.args (some reply)) := by
  cases c.pc with
  | waiting route =>
    cases hs : live s <;> cases howner : live c.req.endname.owner <;> simp [seen, hs, howner]
  | sending | received | routed | checking | answering | replying | delayed | returned =>
    simp [seen]

section Handlers

variable {ok : Cluster n α → Event n α → Prop} (hok : ∀ σ e, e.processed = none → ok σ e)

include hok

/-- A handler's step: what the cluster does if the server runs, and nothing if it has crashed. -/
theorem leads_handled {s : Instance n} {rf : Raft n α} {before : Body n α} (after : Body n α)
    {notice : Option RaftReply} (hinv : T.CallInv k c) (hc : T.net.calls[k]? = some c)
    (hs : c.handler.server = some s) (hreq : c'.req = c.req)
    (hseen : seen T.live (T.notices k) (T.processed k) c = if T.live s then some before else none)
    (hseen' : seen T.live notice (T.processed k) c' = none ∨
      T.live s = true ∧ seen T.live notice (T.processed k) c' = some after)
    (hstep : ∀ i call, T.cluster.calls[i]? = some call →
      call.body = before → T.cluster.peers call.server = T.rafts s →
      T.cluster.epoch call.server = s.epoch → ∃ e, e.processed = none ∧
        T.cluster.step e = .ok ((T.cluster.setPeer call.server rf).setBody i call after)) :
    Leads (Cluster.Next ok) (fun _ => True) T.cluster (T.handled k s rf c' notice).cluster := by
  obtain ⟨hserver, hmade⟩ := hinv.handler s hs
  have hlen : (T.handled k s rf c' notice).net.calls.length = T.net.calls.length :=
    List.length_set
  cases hlive : T.live s with
  | false =>
    refine leads_of_view hok (peer_setRaft_of_not_live rf hlive) rfl hlen.ge
      (fun j hj => ?_) fun j hj hge => absurd hj (hlen ▸ hge).not_gt
    rcases eq_or_ne j k with rfl | hne
    · refine .inr ?_
      rcases hseen' with hnone | ⟨hcontra, -⟩
      · rw [view_handled_self hc, hnone]
        rfl
      · rw [hlive] at hcontra
        cases hcontra
    · exact .inl (view_handled hne)
  | true =>
    rw [hlive, if_pos rfl] at hseen
    refine leads_answer hok after
      ((view_eq hc).trans (callOf_eq_some hseen)) hlen (fun j hne => view_handled hne) rfl
      (peer_setRaft_of_live rf hmade hlive) ?_ fun i hi => ?_
    · rw [view_handled_self hc, hreq]
      rcases hseen' with hnone | ⟨-, hsome⟩
      · exact .inr (by rw [hnone]; rfl)
      · exact .inl (by rw [hsome]; rfl)
    · have hpeer : T.cluster.peers c.req.endname.server = T.rafts s := by
        rw [← hserver]
        exact peer_of_live hmade hlive
      have hepoch : T.cluster.epoch c.req.endname.server = s.epoch := by
        rw [← hserver]
        exact (of_decide_eq_true hlive).symm
      obtain ⟨e, he, hrun⟩ := hstep i _ hi rfl hpeer hepoch
      refine ⟨e, he, ?_⟩
      rw [hserver]
      exact hrun

/-- The step of a handler. -/
theorem leads_handle (hinv : T.Inv) (h : T.handle k = .ok T') :
    Leads (Cluster.Next ok) (fun _ => True) T.cluster T'.cluster := by
  obtain ⟨c, s, service, methname, rf, reply, installed, hc, hhandler, hnotice, hm, rfl⟩ :=
    handle_cases h
  have hcall := hinv.call k c hc
  obtain rfl := hcall.running s service methname hhandler
  have hs : c.handler.server = some s := by rw [hhandler, Labrpc.Handler.server]
  have hseen : seen T.live (T.notices k) (T.processed k) c =
      if T.live s then some (body c.req.args none) else none := by
    simp [seen, hhandler, hnotice]
  have hstep : ∀ i call, T.cluster.calls[i]? = some call → call.body = body c.req.args none →
      T.cluster.peers call.server = T.rafts s → T.cluster.epoch call.server = s.epoch →
      ∃ e, e.processed = none ∧ T.cluster.step e =
        .ok ((T.cluster.setPeer call.server rf).setBody i call (if installed then
          runningBody s c.req.args (some reply) else body c.req.args (some reply))) := by
    intro i call hi hbody hpeer hepoch
    refine ⟨.handle i, rfl, cluster_handle hi hbody ?_ hepoch.symm⟩
    rw [hpeer]
    exact hm
  cases installed with
  | true =>
    refine leads_handled hok (runningBody s c.req.args (some reply)) hcall hc hs rfl hseen ?_ hstep
    cases hlive : T.live s <;> simp [seen, hhandler, hlive, raftService]
  | false => exact leads_handled hok _ hcall hc hs rfl hseen (seen_finished ..) hstep

/-- The end of an `InstallSnapShot` handler that installed a snapshot, where it hands that to the
application and replies. -/
theorem leads_notify (hinv : T.Inv) (h : T.notify k = .ok T') :
    Leads (Cluster.Next ok) (fun _ => True) T.cluster T'.cluster := by
  obtain ⟨c, s, service, methname, reply, args, hc, hhandler, hnotice, hargs, rfl⟩ :=
    notify_cases h
  have hcall := hinv.call k c hc
  obtain rfl := hcall.running s service methname hhandler
  obtain ⟨⟨_, r, _, rfl⟩, -⟩ := hcall.notice reply hnotice
  have hs : c.handler.server = some s := by rw [hhandler, Labrpc.Handler.server]
  have hseen : seen T.live (T.notices k) (T.processed k) c =
      if T.live s then some (.notifying args r s.epoch) else none := by
    simp [seen, hhandler, hnotice, hargs, runningBody]
  refine leads_handled hok _ hcall hc hs rfl hseen (seen_finished ..) ?_
  intro i call hi hbody hpeer hepoch
  refine ⟨.notify i, rfl, ?_⟩
  simp [Cluster.step, Cluster.onCall, hi, Cluster.notify, hbody, hpeer, hepoch, hargs, body,
    raftService]

end Handlers

/-! ### The callers -/

/-- What a caller leaves that has dealt with the reply to call `k`. -/
def dealt (T : Testbed n α) (k : ℕ) (i : Instance n) (rf : Raft n α) : Testbed n α :=
  { T.setRaft i rf with processed := Function.update T.processed k true }

/-- What `process` does. -/
theorem process_cases (h : T.process k = .ok T') : ∃ c reply rf,
    T.net.calls[k]? = some c ∧ c.pc = .returned (some reply) ∧ T.processed k = false ∧
    processReply (T.rafts c.req.endname.owner) c.req.endname.server c.req.args reply = .ok rf ∧
    T' = T.dealt k c.req.endname.owner rf := by
  rw [process] at h
  split at h
  · cases h
  next c hc =>
  split at h
  next reply hpc hprocessed =>
    obtain ⟨rf, hrf, rfl⟩ := map_eq_ok.mp h
    exact ⟨c, reply, rf, hc, hpc, hprocessed, hrf, rfl⟩
  · cases h

/-- **The caller, in the cluster.** -/
theorem cluster_process {σ : Cluster n α} {place : ℕ} {call : Call n α} {args : RaftArgs n α}
    {rf : Raft n α} {reply : RaftReply} (hi : σ.calls[place]? = some call)
    (hbody : call.body = body args (some reply)) (hepoch : σ.epoch call.caller = call.epoch)
    (hrun : processReply (σ.peers call.caller) call.server args reply = .ok rf) :
    σ.step (.process place) = .ok ((σ.setPeer call.caller rf).endCall place) := by
  cases args with
  | requestVote args =>
    cases reply with
    | requestVote reply =>
      obtain rfl := Except.ok.inj hrun
      simp [Cluster.step, Cluster.onCall, hi, Cluster.process, hbody, body, hepoch]
    | appendEntries | installSnapShot => cases hrun
  | appendEntries args =>
    cases reply with
    | appendEntries reply =>
      have hrf := Cluster.orPanic_eq_ok.mp hrun
      simp [Cluster.step, Cluster.onCall, hi, Cluster.process, hbody, body, hepoch, hrf]
    | requestVote | installSnapShot => cases hrun
  | installSnapShot args =>
    cases reply with
    | installSnapShot reply =>
      obtain rfl := Except.ok.inj hrun
      simp [Cluster.step, Cluster.onCall, hi, Cluster.process, hbody, body, hepoch]
    | requestVote | appendEntries => cases hrun

/-- The step of a caller that has a reply: what the cluster does if the caller runs, and nothing if
it has crashed. -/
theorem leads_process {ok : Cluster n α → Event n α → Prop}
    (hok : ∀ σ e, e.processed = none → ok σ e) (hinv : T.Inv) (h : T.process k = .ok T')
    (hprocess : ∀ i call, T.view k = some call → T.cluster.calls[i]? = some call →
      ok T.cluster (.process i)) :
    Leads (Cluster.Next ok) (fun _ => True) T.cluster T'.cluster := by
  obtain ⟨c, reply, rf, hc, hpc, hprocessed, hrf, rfl⟩ := process_cases h
  have hcall := hinv.call k c hc
  have hsame (j : ℕ) (hne : j ≠ k) : (T.dealt k c.req.endname.owner rf).view j = T.view j :=
    view_congr rfl rfl rfl (Function.update_of_ne hne _ _)
  have hsound := hcall.sound
  simp only [Rpc.Sound, hpc] at hsound
  have hnone : (T.dealt k c.req.endname.owner rf).view k = none := by
    rw [view_eq (show (T.dealt k c.req.endname.owner rf).net.calls[k]? = some c from hc)]
    refine callOf_eq_none ?_
    simp [seen, hpc, hsound.1, dealt]
  cases hlive : T.live c.req.endname.owner with
  | false =>
    refine leads_of_view hok (peer_setRaft_of_not_live rf hlive) rfl le_rfl (fun j hj => ?_)
      fun j hj hge => absurd hj hge.not_gt
    rcases eq_or_ne j k with rfl | hne
    · exact .inr hnone
    · exact .inl (hsame j hne)
  | true =>
    have hseen : seen T.live (T.notices k) (T.processed k) c =
        some (body c.req.args (some reply)) := by
      simp [seen, hpc, hsound.1, hlive, hprocessed]
    have hview := (view_eq hc).trans (callOf_eq_some hseen)
    have hlen : (T.dealt k c.req.endname.owner rf).net.calls.length = T.net.calls.length := rfl
    obtain ⟨i, hi, -, herase⟩ := exists_place hview hlen hsame
    rw [← peer_of_live hcall.owner hlive] at hrf
    refine .single trivial ⟨hprocess i _ hview hi,
      (cluster_process hi rfl (of_decide_eq_true hlive).symm hrf).trans ?_⟩
    rw [Cluster.endCall, Cluster.setPeer_calls, ← herase hnone]
    simp only [cluster, Cluster.setPeer, dealt, ← peer_setRaft_of_live rf hcall.owner hlive]
    rfl

end Testbed

end RaftKVDB
