import RaftKVDB.Config.Seen

/-!
# The peers in the test bed

What holds of the test bed (`Testbed.Inv`) is kept by the network, by the handlers and the callers,
and by what the peers do by themselves; and each of these steps is seen as steps of a cluster
(`Testbed.Simulated`). A running instance does what its server does in the cluster. A crashed one
does it, too, but nobody sees it: its peer is not the one that is seen, and its requests find their
end disabled.

## Main results

* `Testbed.CallInv.turned` — what holds of a call, through all stages of `ProcessReq`
* `Testbed.simulated_setRaft`, `Testbed.simulated_sends`, `Testbed.simulated_turn`
-/

namespace RaftKVDB

open Foundations Labrpc

namespace Testbed

variable {n : ℕ} {α : Type*} {T T' : Testbed n α} {c c' : RaftRpc n α} {k : ℕ}
  {t : Labrpc.Turn RaftReply} {i : Instance n}

/-! ### What a turn in the network keeps -/

/-- The server is looked up once. -/
theorem route_of_turned (hturn : T.net.Turned c t c') {route : Route (Fin n) (Instance n)}
    (h : c'.pc.route = some route) : c.pc.route = some route ∨
      T.net.connections c.req.endname = some route.servername ∧
        T.net.servers route.servername = some route.server := by
  cases hturn with
  | found hpc henabled hconn hserver =>
    obtain rfl := Option.some.inj h
    exact .inr ⟨hconn, hserver⟩
  | abandon | lost | dropRequest | fail | dropReply | delayReply | sendReply | reply | accept =>
    simp [Pc.route] at h
  | execute hpc | receive hpc | giveUp hpc | pass hpc =>
    exact .inl (by simpa [Pc.route, hpc] using h)
  | dispatch | callMethod | handlerReturn | goOn | drain => exact .inl h

/-- The handler is one of the server that was looked up. -/
theorem server_of_turned (hturn : T.net.Turned c t c') {s : Instance n}
    (h : c'.handler.server = some s) : c.handler.server = some s ∨
      ∃ route, c.pc.route = some route ∧ route.server = s := by
  cases hturn with
  | execute hpc => exact .inr ⟨_, by rw [hpc]; rfl, Option.some.inj h⟩
  | dispatch hhandler | callMethod hhandler | handlerReturn _ hhandler =>
    exact .inl (by rw [hhandler]; exact h)
  | receive | drain => simp [Labrpc.Handler.server] at h
  | abandon | lost | dropRequest | fail | dropReply | delayReply | sendReply | reply | accept
  | found | giveUp | pass | goOn => exact .inl h

/-- A reply that is on its way was so before. -/
theorem carries_of_turned (hturn : T.net.Turned c t c') (ht : ∀ reply, t ≠ .handlerReturn reply)
    {reply : RaftReply} (h : Carries c' reply) : Carries c reply := by
  cases hturn with
  | handlerReturn reply => exact (ht reply rfl).elim
  | abandon | lost | dropRequest | fail | dropReply | accept | found | giveUp =>
    exact .inl (by simpa [Carries, Pc.reply] using h)
  | execute | dispatch | callMethod => simp_all [Carries, Pc.reply]
  | receive hpc hhandler => simp_all [Carries, Pc.reply]
  | goOn => exact h
  | drain => simp_all [Carries]
  | pass hpc | delayReply hpc | sendReply hpc => simp_all [Carries, Pc.reply]
  | @reply r hpc =>
    cases r with
    | none => exact .inl (by simpa [Carries, Pc.reply] using h)
    | some r => rcases hpc with hpc | hpc <;> simpa [Carries, Pc.reply, hpc] using h

/-- What is dispatched to is registered. -/
theorem service_of_dispatch {s : Instance n} {svcMeth methname : String}
    {service : Labrpc.Service (Instance n)}
    (h : T.net.dispatch s svcMeth = .ok (service, methname)) :
    ∃ name, T.net.services s name = some service := by
  rw [Network.dispatch] at h
  split at h
  · cases h
  · split at h
    · cases h
    next name _ _ service' hservice =>
      simp only [Except.ok.injEq, Prod.mk.injEq] at h
      exact ⟨_, h.1 ▸ hservice⟩

/-- What holds of a call goes on to hold when more instances have been started. -/
theorem CallInv.mono (h : T.CallInv k c) (hmade : ∀ i, T.made i = true → T'.made i = true)
    (hnotice : T'.notices k = T.notices k) (hprocessed : T'.processed k = T.processed k) :
    T'.CallInv k c where
  sound := h.sound
  owner := hmade _ h.owner
  route route hr := (h.route route hr).imp_right (And.imp_right (hmade _))
  handler s hs := (h.handler s hs).imp_right (hmade _)
  dispatched := h.dispatched
  running := h.running
  notice reply hreply := h.notice reply (hnotice ▸ hreply)
  processed hp := h.processed (hprocessed ▸ hp)
  fits := h.fits

/-- **A turn in the network keeps what holds of a call.** -/
theorem CallInv.turned (h : T.CallInv k c) (hinv : T.Inv) (hturn : T.net.Turned c t c')
    (ht : ∀ reply, t ≠ .handlerReturn reply) : T.CallInv k c' where
  sound := h.sound.turned hturn
  owner := hturn.req_eq ▸ h.owner
  route route hr := by
    rw [hturn.req_eq]
    rcases route_of_turned hturn hr with hold | ⟨hconn, hserver⟩
    · exact h.route route hold
    · obtain ⟨hs, hup⟩ := hinv.server _ _ hserver
      have hname := hinv.connection _ _ hconn
      rw [hs, made_current]
      exact ⟨hname, hname, hup⟩
  handler s hs := by
    rw [hturn.req_eq]
    rcases server_of_turned hturn hs with hold | ⟨route, hroute, rfl⟩
    · exact h.handler s hold
    · exact (h.route route hroute).2
  dispatched s service methname hhandler := by
    cases hturn with
    | @dispatch server _ _ _ hservice =>
      obtain ⟨rfl, rfl, rfl⟩ : server = s ∧ _ = service ∧ _ = methname := by simpa using hhandler
      obtain ⟨name, hname⟩ := service_of_dispatch hservice
      exact hinv.service _ _ _ hname
    | execute | callMethod | receive | drain | handlerReturn => cases hhandler
    | abandon | lost | dropRequest | fail | dropReply | delayReply | sendReply | reply | accept
    | found | giveUp | pass | goOn => exact h.dispatched s service methname hhandler
  running s service methname hhandler := by
    cases hturn with
    | @callMethod server _ _ hdispatched =>
      obtain ⟨rfl, rfl, rfl⟩ : server = s ∧ _ = service ∧ _ = methname := by simpa using hhandler
      exact h.dispatched _ _ _ hdispatched
    | execute | dispatch | receive | drain | handlerReturn => cases hhandler
    | abandon | lost | dropRequest | fail | dropReply | delayReply | sendReply | reply | accept
    | found | giveUp | pass | goOn => exact h.running s service methname hhandler
  notice reply hreply := by
    obtain ⟨hargs, s, service, methname, hrunning⟩ := h.notice reply hreply
    refine ⟨hturn.req_eq ▸ hargs, s, service, methname, ?_⟩
    have hsound := h.sound
    cases hturn with
    | handlerReturn reply => exact (ht reply rfl).elim
    | execute hpc => simp [Rpc.Sound, hpc, hrunning] at hsound
    | dispatch hhandler | callMethod hhandler | receive _ hhandler | drain hhandler =>
      rw [hrunning] at hhandler
      cases hhandler
    | abandon | lost | dropRequest | fail | dropReply | delayReply | sendReply | reply | accept
    | found | giveUp | pass | goOn => exact hrunning
  processed hp := by
    obtain ⟨reply, hreturned⟩ := h.processed hp
    refine ⟨reply, ?_⟩
    cases hturn with
    | abandon hpc | accept hpc | found hpc | lost hpc | dropRequest hpc | execute hpc | receive hpc
    | giveUp hpc | pass hpc | fail hpc | dropReply hpc | delayReply hpc | sendReply hpc =>
      rw [hreturned] at hpc
      cases hpc
    | reply hpc => simp [hreturned] at hpc
    | dispatch | callMethod | handlerReturn | goOn | drain => exact hreturned
  fits reply hcarries := by
    rw [hturn.req_eq]
    exact h.fits reply (carries_of_turned hturn ht hcarries)

/-! ### What the peers and the network keep -/

/-- Nothing that is the tester's has changed. -/
structure Untouched (T T' : Testbed n α) : Prop where
  servers : T'.net.servers = T.net.servers
  enabled : T'.net.enabled = T.net.enabled
  connections : T'.net.connections = T.net.connections
  services : T'.net.services = T.net.services
  epoch : T'.epoch = T.epoch
  up : T'.up = T.up
  endnames : T'.endnames = T.endnames
  tester : T'.tester = T.tester

theorem Untouched.made (h : Untouched T T') : T'.made = T.made := by
  funext i
  rw [Testbed.made, Testbed.made, h.epoch, h.up]

theorem Inv.untouched (h : T.Inv) (hsame : Untouched T T')
    (hcall : ∀ (k : ℕ) c, T'.net.calls[k]? = some c → T'.CallInv k c)
    (hnote : ∀ k, T'.net.calls.length ≤ k → T'.notices k = none ∧ T'.processed k = false) :
    T'.Inv where
  server p s hs := by
    have hserver := h.server p s (hsame.servers ▸ hs)
    rwa [current, hsame.epoch, hsame.up]
  enabled e he := by
    have hlive := h.enabled e (hsame.enabled ▸ he)
    rwa [live, hsame.epoch]
  endnames p hp := by
    rw [hsame.endnames, hsame.epoch]
    exact h.endnames p (hsame.up ▸ hp)
  connection e p hp := h.connection e p (hsame.connections ▸ hp)
  service s name svc hs := h.service s name svc (hsame.services ▸ hs)
  tester := by
    have htester := h.tester
    rw [TesterInv] at htester ⊢
    simp only [current, hsame.tester, hsame.servers, hsame.enabled, hsame.up, hsame.endnames,
      hsame.epoch]
    exact htester
  call := hcall
  note := hnote

/-- One call comes further. -/
theorem Inv.set (h : T.Inv) (hsame : Untouched T T') (hc : T.net.calls[k]? = some c)
    (hcalls : T'.net.calls = T.net.calls.set k c') (hnew : T'.CallInv k c')
    (hnotes : ∀ j, j ≠ k → T'.notices j = T.notices j ∧ T'.processed j = T.processed j) :
    T'.Inv := by
  have hlt : k < T.net.calls.length := (List.getElem?_eq_some_iff.mp hc).1
  refine h.untouched hsame (fun j d hd => ?_) fun j hj => ?_
  · rw [hcalls] at hd
    rcases eq_or_ne j k with rfl | hne
    · rw [List.getElem?_set_self hlt] at hd
      exact Option.some.inj hd ▸ hnew
    · rw [List.getElem?_set_ne hne.symm] at hd
      exact (h.call j d hd).mono (fun i hi => hsame.made ▸ hi) (hnotes j hne).1 (hnotes j hne).2
  · rw [hcalls, List.length_set] at hj
    rw [(hnotes j (by omega)).1, (hnotes j (by omega)).2]
    exact h.note j hj

/-- What `turn` does. -/
theorem turn_cases {net : RaftNet n α} (h : T.net.turn k t = .ok net) : ∃ c c',
    T.net.calls[k]? = some c ∧ T.net.Turned c t c' ∧
    net = { T.net.counted k c t with calls := T.net.calls.set k c' } := by
  rw [Network.turn] at h
  split at h
  · cases h
  next c hc =>
    obtain ⟨c', hturn, rfl⟩ := map_eq_ok.mp h
    exact ⟨c, c', hc, Network.turned_of_rpcTurn hturn, rfl⟩

theorem untouched_turn {calls : List (RaftRpc n α)} :
    Untouched T { T with net := { T.net.counted k c t with calls := calls } } := by
  rw [Network.counted.eq_def]
  split
  · exact ⟨rfl, rfl, rfl, rfl, rfl, rfl, rfl, rfl⟩
  · exact ⟨rfl, rfl, rfl, rfl, rfl, rfl, rfl, rfl⟩
  · split
    · exact ⟨rfl, rfl, rfl, rfl, rfl, rfl, rfl, rfl⟩
    · exact ⟨rfl, rfl, rfl, rfl, rfl, rfl, rfl, rfl⟩
  · exact ⟨rfl, rfl, rfl, rfl, rfl, rfl, rfl, rfl⟩

theorem Inv.turn {net : RaftNet n α} (h : T.Inv) (hturn : T.net.turn k t = .ok net)
    (ht : ∀ reply, t ≠ .handlerReturn reply) : Testbed.Inv { T with net := net } := by
  obtain ⟨c, c', hc, hturned, rfl⟩ := turn_cases hturn
  refine h.set untouched_turn hc rfl ?_ fun j _ => ⟨rfl, rfl⟩
  exact ((h.call k c hc).turned h hturned ht).mono (fun _ => id) rfl rfl

/-- A method replies to what it was asked, and only `InstallSnapShot` has a snapshot to hand
over. -/
theorem fits_of_callMethod {rf rf' : Raft n α} {args : RaftArgs n α} {reply : RaftReply}
    {installed : Bool} (h : callMethod rf args = some (rf', reply, installed)) :
    Fits args reply ∧ (installed = true →
      ∃ a r, args = .installSnapShot a ∧ reply = .installSnapShot r) := by
  cases args with
  | requestVote args | appendEntries args =>
    obtain ⟨⟨rf₁, r⟩, -, heq⟩ := Option.map_eq_some_iff.mp h
    simp only [Prod.mk.injEq] at heq
    obtain ⟨-, rfl, rfl⟩ := heq
    exact ⟨trivial, by simp⟩
  | installSnapShot args =>
    obtain ⟨⟨rf₁, r, b⟩, -, heq⟩ := Option.map_eq_some_iff.mp h
    simp only [Prod.mk.injEq] at heq
    obtain ⟨-, rfl, -⟩ := heq
    exact ⟨trivial, fun _ => ⟨args, r, rfl, rfl⟩⟩

/-- The handler of a call has returned. -/
theorem CallInv.finish {s : Instance n} {service : Labrpc.Service (Instance n)} {methname : String}
    {reply : RaftReply} {rf : Raft n α} (h : T.CallInv k c)
    (hhandler : c.handler = .running s service methname) (hfits : Fits c.req.args reply) :
    (T.handled k i rf { c with handler := .finished s reply } none).CallInv k
      { c with handler := .finished s reply } where
  sound := h.sound.handler (by rw [hhandler]; rfl) rfl
  owner := h.owner
  route := h.route
  handler s' hs' := h.handler s' (by rw [hhandler]; exact hs')
  dispatched _ _ _ hd := by cases hd
  running _ _ _ hr := by cases hr
  notice r hr := by simp [handled] at hr
  processed := h.processed
  fits r hr := by
    rcases hr with ⟨_, heq⟩ | hr
    · obtain ⟨-, rfl⟩ := Labrpc.Handler.finished.inj heq
      exact hfits
    · exact h.fits r (.inr hr)

theorem Inv.handle (h : T.Inv) (hstep : T.handle k = .ok T') : T'.Inv := by
  obtain ⟨c, s, service, methname, rf, reply, installed, hc, hhandler, hnotice, hm, rfl⟩ :=
    handle_cases hstep
  have hcall := h.call k c hc
  obtain ⟨hfits, hsnapshot⟩ := fits_of_callMethod hm
  have hnotes (j : ℕ) (hne : j ≠ k) (notice : Option RaftReply) :
      Function.update T.notices k notice j = T.notices j := Function.update_of_ne hne _ _
  cases installed with
  | true =>
    refine h.set ⟨rfl, rfl, rfl, rfl, rfl, rfl, rfl, rfl⟩ hc rfl ?_
      fun j hne => ⟨hnotes j hne _, rfl⟩
    refine { hcall with notice := fun r hr => ⟨?_, s, service, methname, hhandler⟩ }
    obtain rfl : reply = r := by simpa [handled] using hr
    exact hsnapshot rfl
  | false =>
    exact h.set ⟨rfl, rfl, rfl, rfl, rfl, rfl, rfl, rfl⟩ hc rfl (hcall.finish hhandler hfits)
      fun j hne => ⟨hnotes j hne _, rfl⟩

theorem Inv.notify (h : T.Inv) (hstep : T.notify k = .ok T') : T'.Inv := by
  obtain ⟨c, s, service, methname, reply, args, hc, hhandler, hnotice, hargs, rfl⟩ :=
    notify_cases hstep
  have hcall := h.call k c hc
  obtain ⟨⟨a, r, hargs', rfl⟩, -⟩ := hcall.notice reply hnotice
  have hfits : Fits c.req.args (.installSnapShot r) := by rw [hargs']; trivial
  exact h.set ⟨rfl, rfl, rfl, rfl, rfl, rfl, rfl, rfl⟩ hc rfl (hcall.finish hhandler hfits)
    fun j hne => ⟨Function.update_of_ne hne _ _, rfl⟩

theorem Inv.process (h : T.Inv) (hstep : T.process k = .ok T') : T'.Inv := by
  obtain ⟨c, reply, rf, hc, hpc, -, -, rfl⟩ := process_cases hstep
  refine h.set ⟨rfl, rfl, rfl, rfl, rfl, rfl, rfl, rfl⟩ hc (calls_set_self hc).symm ?_
    fun j hne => ⟨rfl, Function.update_of_ne hne _ _⟩
  exact { h.call k c hc with processed := fun _ => ⟨reply, hpc⟩ }

theorem Inv.setRaft (h : T.Inv) (i : Instance n) (rf : Raft n α) : (T.setRaft i rf).Inv :=
  h.untouched ⟨rfl, rfl, rfl, rfl, rfl, rfl, rfl, rfl⟩
    (fun k c hc => (h.call k c hc).mono (fun _ => id) rfl rfl) h.note

theorem calls_sends (T : Testbed n α) (i : Instance n) (servers : List (Fin n))
    (args : RaftArgs n α) : (T.sends i servers args).net.calls =
      T.net.calls ++ servers.map fun j => Rpc.fresh ⟨⟨i, j⟩, args.svcMeth, args⟩ := rfl

theorem Inv.sends (h : T.Inv) (hmade : T.made i = true) (servers : List (Fin n))
    (args : RaftArgs n α) : (T.sends i servers args).Inv := by
  refine h.untouched ⟨rfl, rfl, rfl, rfl, rfl, rfl, rfl, rfl⟩ (fun k c hc => ?_) fun k hk => ?_
  · rcases lt_or_ge k T.net.calls.length with hlt | hge
    · rw [calls_sends, List.getElem?_append_left hlt] at hc
      exact (h.call k c hc).mono (fun _ => id) rfl rfl
    · rw [calls_sends, List.getElem?_append_right hge] at hc
      obtain ⟨j, -, rfl⟩ := List.mem_map.mp (List.mem_of_getElem? hc)
      obtain ⟨hnotice, hprocessed⟩ := h.note k hge
      constructor
      case owner => exact hmade
      case notice =>
        intro reply hreply
        cases hnotice.symm.trans hreply
      case processed =>
        intro hp
        cases hprocessed.symm.trans hp
      all_goals simp [Rpc.fresh, Rpc.Sound, Pc.route, Labrpc.Handler.server, Carries, Pc.reply]
  · refine h.note k (le_trans ?_ hk)
    simp [calls_sends]

/-! ### What is seen of the peers' own steps -/

/-- The calls of a running instance are seen as requested, and those of a crashed one not at
all. -/
theorem cluster_sends (h : T.Inv) (servers : List (Fin n)) (args : RaftArgs n α) :
    (T.sends i servers args).cluster = { T.cluster with
      calls := T.cluster.calls ++ if T.live i then
        servers.map fun j => ⟨i.server, i.epoch, j, body args none⟩ else [] } := by
  have hold : (List.range T.net.calls.length).filterMap (T.sends i servers args).view =
      (List.range T.net.calls.length).filterMap T.view := by
    refine List.filterMap_congr fun k hk => view_congr ?_ rfl rfl rfl
    rw [calls_sends, List.getElem?_append_left (List.mem_range.mp hk)]
  have hnew (m : ℕ) : (T.sends i servers args).view (T.net.calls.length + m) =
      servers[m]?.bind fun j => if T.live i then
        some ⟨i.server, i.epoch, j, body args none⟩ else none := by
    obtain ⟨hnotice, hprocessed⟩ := h.note (T.net.calls.length + m) (Nat.le_add_right _ _)
    rw [view, calls_sends, List.getElem?_append_right (Nat.le_add_right _ _),
      Nat.add_sub_cancel_left, List.getElem?_map, Option.bind_map]
    congr 1
    funext j
    rw [Function.comp_apply, callOf]
    show (seen T.live (T.notices _) (T.processed _) _).map _ = _
    cases hlive : T.live i <;> simp [seen, Rpc.fresh, hlive]
  have hlen : (T.sends i servers args).net.calls.length = T.net.calls.length + servers.length := by
    rw [calls_sends, List.length_append, List.length_map]
  have hcalls : (T.sends i servers args).cluster.calls = T.cluster.calls ++ if T.live i then
      servers.map fun j => ⟨i.server, i.epoch, j, body args none⟩ else [] := by
    simp only [cluster]
    rw [hlen, List.range_add, List.filterMap_append, hold, List.filterMap_map]
    congr 1
    refine (List.filterMap_congr fun m _ => hnew m).trans ?_
    rw [filterMap_range_bind]
    cases T.live i <;> simp
  rw [← hcalls]
  rfl

theorem cluster_setRaft_of_live {rf : Raft n α} (hmade : T.made i = true)
    (hlive : T.live i = true) : (T.setRaft i rf).cluster = T.cluster.setPeer i.server rf := by
  simp only [cluster, Cluster.setPeer, peer_setRaft_of_live rf hmade hlive]
  rfl

theorem cluster_setRaft_of_not_live {rf : Raft n α} (hlive : T.live i = false) :
    (T.setRaft i rf).cluster = T.cluster := by
  simp only [cluster, peer_setRaft_of_not_live rf hlive]
  rfl

/-- The step of the test bed keeps what holds of it, and is seen as steps of the cluster. -/
def Simulated (ok : Cluster n α → Event n α → Prop) (T T' : Testbed n α) : Prop :=
  T'.Inv ∧ Leads (Cluster.Next ok) (fun _ => True) T.cluster T'.cluster

section Own

variable {ok : Cluster n α → Event n α → Prop} (hok : ∀ σ e, e.processed = none → ok σ e)

include hok

/-- A peer does something by itself: what it does in the cluster if it runs, and nothing if it has
crashed. -/
theorem simulated_setRaft {rf : Raft n α} (e : Event n α) (h : T.Inv) (hmade : T.made i = true)
    (he : e.processed = none)
    (hstep : T.cluster.peers i.server = T.rafts i →
      T.cluster.step e = .ok (T.cluster.setPeer i.server rf)) :
    Simulated ok T (T.setRaft i rf) := by
  refine ⟨h.setRaft i rf, ?_⟩
  cases hlive : T.live i with
  | false =>
    rw [cluster_setRaft_of_not_live hlive]
    exact .refl _
  | true =>
    refine .single (e := e) trivial ⟨hok _ _ he, ?_⟩
    rw [cluster_setRaft_of_live hmade hlive]
    exact hstep (peer_of_live hmade hlive)

/-- A peer does something by itself and makes calls: that is what it does in the cluster if it runs,
and nothing if it has crashed. -/
theorem simulated_sends {rf : Raft n α} {servers : List (Fin n)} {args : RaftArgs n α}
    (e : Event n α) (h : T.Inv) (hmade : T.made i = true) (he : e.processed = none)
    (hstep : T.cluster.peers i.server = T.rafts i → T.cluster.step e =
      .ok { T.cluster.setPeer i.server rf with
        calls := T.cluster.calls ++
          servers.map fun j => ⟨i.server, T.cluster.epoch i.server, j, body args none⟩ }) :
    Simulated ok T ((T.setRaft i rf).sends i servers args) := by
  have hset := h.setRaft i rf
  refine ⟨hset.sends hmade servers args, ?_⟩
  rw [cluster_sends hset]
  cases hlive : T.live i with
  | false =>
    have hfalse : (T.setRaft i rf).live i = false := hlive
    rw [hfalse, cluster_setRaft_of_not_live hlive, if_neg Bool.false_ne_true, List.append_nil]
    exact .refl _
  | true =>
    have htrue : (T.setRaft i rf).live i = true := hlive
    have hepoch : T.cluster.epoch i.server = i.epoch := (of_decide_eq_true hlive).symm
    refine .single (e := e) trivial ⟨hok _ _ he, ?_⟩
    rw [htrue, if_pos rfl, cluster_setRaft_of_live hmade hlive, ← hepoch]
    exact hstep (peer_of_live hmade hlive)

theorem simulated_broadCastVote (h : T.Inv) (hstep : T.step (.broadCastVote i) = .ok T') :
    Simulated ok T T' := by
  rw [step] at hstep
  split at hstep
  next hmade =>
    obtain ⟨⟨rf, sent⟩, hrun, rfl⟩ := map_eq_ok.mp hstep
    have hvote := Cluster.orPanic_eq_ok.mp hrun
    cases sent with
    | none =>
      refine simulated_setRaft hok (.broadCastVote i.server) h hmade rfl fun hpeer => ?_
      simp [Cluster.step, hpeer, hvote]
    | some args =>
      refine simulated_sends hok (.broadCastVote i.server) h hmade rfl fun hpeer => ?_
      simp [Cluster.step, hpeer, hvote, Cluster.sendVotes, body, Cluster.setPeer]
  · cases hstep

theorem simulated_start {command : Option α} (h : T.Inv)
    (hstep : T.step (.start i command) = .ok T') : Simulated ok T T' := by
  obtain ⟨hmade, rfl⟩ := ite_ok_eq_ok.mp hstep
  refine simulated_setRaft hok (.start i.server command) h hmade rfl fun hpeer => ?_
  rw [Cluster.step, hpeer]

theorem simulated_checkConsistency {peer : Fin n} (h : T.Inv)
    (hstep : T.step (.checkConsistency i peer) = .ok T') : Simulated ok T T' := by
  rw [step] at hstep
  split at hstep
  next hcond =>
    obtain ⟨hmade, hne⟩ : T.made i = true ∧ i.server ≠ peer := by simpa using hcond
    obtain ⟨sent, hrun, rfl⟩ := map_eq_ok.mp hstep
    have hsent := Cluster.orPanic_eq_ok.mp hrun
    cases sent with
    | none => exact ⟨h, .refl _⟩
    | some request =>
      have hself : T.setRaft i (T.rafts i) = T := by
        rw [setRaft, Function.update_eq_self]
      have hsim : Simulated ok T ((T.setRaft i (T.rafts i)).sends i [peer]
          (requestArgs request)) := by
        refine simulated_sends hok (.checkConsistency i.server peer) h hmade rfl fun hpeer => ?_
        have hset : T.cluster.setPeer i.server (T.rafts i) = T.cluster := by
          rw [Cluster.setPeer, ← hpeer, Function.update_eq_self]
        rw [hset]
        cases request <;> simp [Cluster.step, hne, hpeer, hsent, Cluster.sendRequest,
          Cluster.addCall, requestArgs, body]
      rw [hself] at hsim
      exact hsim
  · cases hstep

theorem simulated_compact {cmdIndex : ℕ} {snapshot : List UInt8} (h : T.Inv)
    (hstep : T.step (.compact i cmdIndex snapshot) = .ok T') : Simulated ok T T' := by
  rw [step] at hstep
  split at hstep
  next hcond =>
    obtain ⟨hmade, hdelivered⟩ : T.made i = true ∧ Cluster.delivered (T.rafts i) cmdIndex = true :=
      by simpa using hcond
    obtain ⟨rf, hrun, rfl⟩ := map_eq_ok.mp hstep
    have hcompact := Cluster.orPanic_eq_ok.mp hrun
    refine simulated_setRaft hok (.compact i.server cmdIndex snapshot) h hmade rfl fun hpeer => ?_
    simp [Cluster.step, hpeer, hdelivered, hcompact]
  · cases hstep

theorem simulated_apply (h : T.Inv) (hstep : T.step (.apply i) = .ok T') :
    Simulated ok T T' := by
  rw [step] at hstep
  split at hstep
  next hcond =>
    obtain ⟨hmade, hsignal⟩ : T.made i = true ∧ (T.rafts i).commitCh ≠ 0 := by simpa using hcond
    obtain ⟨rf, hrun, rfl⟩ := map_eq_ok.mp hstep
    have happly := Cluster.orPanic_eq_ok.mp hrun
    refine simulated_setRaft hok (.apply i.server) h hmade rfl fun hpeer => ?_
    simp [Cluster.step, hpeer, hsignal, happly]
  · cases hstep

/-- A turn in the network. -/
theorem simulated_turn {net : RaftNet n α} (h : T.Inv) (hturn : T.net.turn k t = .ok net)
    (ht : ∀ reply, t ≠ .handlerReturn reply) : Simulated ok T { T with net := net } := by
  refine ⟨h.turn hturn ht, ?_⟩
  obtain ⟨c, c', hc, hturned, rfl⟩ := turn_cases hturn
  have hlen : (T.net.calls.set k c').length = T.net.calls.length := List.length_set
  refine leads_of_view hok rfl rfl hlen.ge (fun j _ => ?_)
    fun j hj hge => absurd hj (hlen ▸ hge).not_gt
  rw [view_set hc rfl]
  split
  next heq =>
    subst heq
    rw [view_eq hc, callOf, callOf, hturned.req_eq]
    rcases seen_turned h (h.call j c hc) hturned ht with hsame | hnone
    · exact .inl (by rw [hsame])
    · exact .inr (by rw [hnone]; rfl)
  · exact .inl rfl

end Own

end Testbed

end RaftKVDB
