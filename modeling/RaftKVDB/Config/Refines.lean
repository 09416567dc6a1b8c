import RaftKVDB.Config.Peers

/-!
# The test bed is a cluster

`ShutdownServer` is many steps, between which everybody goes on, and `StartServer` is, too. Their
order is what makes a crash one step: the ends of the instance are disabled and the server is
deleted before the persister is copied, so nobody is told of what the instance does after the copy.
The copy is the crash. What is seen there is that the server restarts, and that the calls are lost
which were the instance's or on their way to it.

So every run of the test bed is seen as a run of the cluster (`Testbed.Run.refines`), and what was
proved of clusters holds of what runs in the test bed.

## Main results

* `Testbed.simulated_crash`
* `Testbed.testbed_refines`
* `Testbed.testbed_one_leader`
-/

namespace RaftKVDB

open Foundations Labrpc

namespace Testbed

variable {n : ℕ} {α : Type*} {T T' : Testbed n α} {c c' : RaftRpc n α} {k : ℕ}
  {t : Labrpc.Turn RaftReply} {i : Instance n}

/-! ### The tester -/

/-- What the tester's steps leave as it is. -/
theorem cluster_congr (hpeer : T'.peer = T.peer) (hepoch : T'.epoch = T.epoch)
    (hcalls : T'.net.calls = T.net.calls) (hnotices : T'.notices = T.notices)
    (hprocessed : T'.processed = T.processed) : T'.cluster = T.cluster := by
  have hview : T'.view = T.view := by
    funext k
    exact view_congr (by rw [hcalls]) hepoch (by rw [hnotices]) (by rw [hprocessed])
  rw [cluster, cluster, hpeer, hepoch, hcalls, hview]

/-- When an instance crashes, calls are lost. -/
theorem seen_mono {live live' : Instance n → Bool} (notice : Option RaftReply) (processed : Bool)
    (h : T.CallInv k c) (hle : ∀ i, T.made i = true → live' i = true → live i = true) :
    seen live' notice processed c = seen live notice processed c ∨
      seen live' notice processed c = none := by
  have hite {b b' : Bool} (himp : b' = true → b = true) (x : Option (Body n α)) :
      (if b' then x else none) = (if b then x else none) ∨ (if b' then x else none) = none := by
    cases hb : b' with
    | false => exact .inr rfl
    | true => exact .inl (by rw [himp hb])
  have howner := hle _ h.owner
  rw [seen.eq_def, seen.eq_def]
  cases hhandler : c.handler with
  | none =>
    cases hpc : c.pc with
    | sending | received => exact hite howner _
    | routed route => exact hite (hle _ (h.route route (by rw [hpc]; rfl)).2.2) _
    | waiting | checking | answering | replying | delayed | returned => exact .inr rfl
  | spawned s | dispatched s | running s =>
    exact hite (hle _ (h.handler s (by rw [hhandler]; rfl)).2) _
  | finished s reply =>
    have hserver := hle _ (h.handler s (by rw [hhandler]; rfl)).2
    cases hpc : c.pc with
    | waiting => exact hite (fun hb => by simp_all) _
    | sending | received | routed | checking | answering | replying | delayed | returned =>
      exact .inr rfl
  | exited =>
    cases hpc : c.pc with
    | checking route reply =>
      have hserver := hle _ (h.route route (by rw [hpc]; rfl)).2.2
      cases reply with
      | none => exact .inr rfl
      | some reply => exact hite (fun hb => by simp_all) _
    | answering => exact hite howner _
    | replying reply | delayed reply =>
      cases reply with
      | none => exact .inr rfl
      | some reply => exact hite howner _
    | returned reply =>
      cases reply with
      | none => exact .inr rfl
      | some reply => exact hite (fun hb => by simp_all) _
    | sending | received | routed | waiting => exact .inr rfl

theorem made_iff : T.made i = true ↔
    i.epoch < T.epoch i.server ∨ i.epoch = T.epoch i.server ∧ T.up i.server = true := by
  simp [made]

section Tester

variable {ok : Cluster n α → Event n α → Prop} {p : Fin n} {todo : List (EndName n)}

/-- A step of the tester in which no instance crashes is not seen. -/
theorem simulated_of_unseen (hinv : T'.Inv) (hpeer : T'.peer = T.peer) (hepoch : T'.epoch = T.epoch)
    (hcalls : T'.net.calls = T.net.calls) (hnotices : T'.notices = T.notices)
    (hprocessed : T'.processed = T.processed) : Simulated ok T T' := by
  refine ⟨hinv, ?_⟩
  rw [cluster_congr hpeer hepoch hcalls hnotices hprocessed]
  exact .refl _

theorem Inv.calls_of_made (h : T.Inv) (hmade : ∀ i, T.made i = true → T'.made i = true)
    (hcalls : T'.net.calls = T.net.calls) (hnotices : T'.notices = T.notices)
    (hprocessed : T'.processed = T.processed) (k : ℕ) (c : RaftRpc n α)
    (hc : T'.net.calls[k]? = some c) : T'.CallInv k c :=
  (h.call k c (hcalls ▸ hc)).mono hmade (by rw [hnotices]) (by rw [hprocessed])

theorem simulated_shutdownServer (h : T.Inv) (hstep : T.step (.shutdownServer p) = .ok T') :
    Simulated ok T T' := by
  rw [step] at hstep
  split at hstep
  · obtain rfl := Except.ok.inj hstep
    refine simulated_of_unseen ?_ rfl rfl rfl rfl rfl
    refine { h with tester := ?_, call := h.calls_of_made (fun _ => id) rfl rfl rfl }
    -- The ends of a running instance are those in `cfg.endnames`.
    rintro ⟨owner, j⟩ - rfl hup
    simp [endsOf, h.endnames p hup, current]
  · cases hstep

theorem simulated_startServer (h : T.Inv) (hdown : T.up p = false)
    (hstep : T.step (.startServer p) = .ok T') : Simulated ok T T' := by
  rw [step] at hstep
  split at hstep
  · obtain rfl := Except.ok.inj hstep
    refine simulated_of_unseen ?_ rfl rfl rfl rfl rfl
    refine { h with
      endnames := fun q hq => ?_
      tester := ⟨hdown, Function.update_self ..⟩
      call := h.calls_of_made (fun _ => id) rfl rfl rfl }
    have hne : q ≠ p := by
      rintro rfl
      rw [hdown] at hq
      cases hq
    exact (Function.update_of_ne hne _ _).trans (h.endnames q hq)
  · cases hstep

theorem enabled_enable (e e' : EndName n) (enabled : Bool) :
    (T.net.enable e enabled).enabled e' = if e' = e then enabled else T.net.enabled e' := by
  simp only [Network.enable, Function.update_apply]

/-- `ShutdownServer` disables an end. -/
theorem simulated_disconnect {e : EndName n} (h : T.Inv)
    (htester : T.tester = .disconnecting p (e :: todo)) :
    Simulated ok T { T with net := T.net.enable e false, tester := .disconnecting p todo } := by
  have hends := h.tester
  rw [TesterInv, htester] at hends
  have henabled {e' : EndName n} (he' : (T.net.enable e false).enabled e' = true) :
      e' ≠ e ∧ T.net.enabled e' = true := by
    rw [enabled_enable] at he'
    split at he'
    · cases he'
    next hne => exact ⟨hne, he'⟩
  refine simulated_of_unseen ?_ rfl rfl rfl rfl rfl
  refine { h with
    enabled := fun e' he' => h.enabled e' (henabled he').2
    tester := fun e' he' howner hup => ?_
    call := h.calls_of_made (fun _ => id) rfl rfl rfl }
  exact (List.mem_cons.mp (hends e' (henabled he').2 howner hup)).resolve_left (henabled he').1

/-- `DeleteServer`. -/
theorem simulated_delete (h : T.Inv) (htester : T.tester = .deleting p) :
    Simulated ok T { T with net := T.net.deleteServer p, tester := .copying p } := by
  have hends := h.tester
  rw [TesterInv, htester] at hends
  refine simulated_of_unseen ?_ rfl rfl rfl rfl rfl
  refine { h with
    server := fun q s hs => h.server q s ?_
    tester := ⟨Function.update_self .., hends⟩
    call := h.calls_of_made (fun _ => id) rfl rfl rfl }
  have hif : (if q = p then none else T.net.servers q) = some s := by
    simpa only [Network.deleteServer, Function.update_apply] using hs
  split at hif
  · cases hif
  · exact hif

/-- What `ShutdownServer` leaves when it has made a copy of the persister. -/
def crashed (T : Testbed n α) (p : Fin n) : Testbed n α :=
  { T with
    saved := Function.update T.saved p (T.rafts (T.current p)).persister
    epoch := Function.update T.epoch p (T.epoch p + 1)
    up := Function.update T.up p false
    tester := .killing (T.current p) }

theorem made_crashed (hmade : T.made i = true) : (T.crashed p).made i = true := by
  rw [made_iff] at hmade ⊢
  rcases eq_or_ne i.server p with rfl | hne
  · simp only [crashed, Function.update_self]
    omega
  · simpa only [crashed, Function.update_of_ne hne] using hmade

theorem live_crashed_of_ne (hne : i.server ≠ p) : (T.crashed p).live i = T.live i := by
  simp only [live, crashed, Function.update_of_ne hne]

/-- Of what was started, the instance that crashes is the only one that was there and no longer
is. -/
theorem live_of_live_crashed (hmade : T.made i = true) (h : (T.crashed p).live i = true) :
    T.live i = true := by
  rcases eq_or_ne i.server p with rfl | hne
  · have hepoch : i.epoch = T.epoch i.server + 1 := by
      simpa only [live, crashed, Function.update_self, decide_eq_true_eq] using h
    rw [made_iff] at hmade
    omega
  · rwa [live_crashed_of_ne hne] at h

theorem inv_crashed (h : T.Inv) (htester : T.tester = .copying p) (hup : T.up p = true) :
    (T.crashed p).Inv := by
  have hends := h.tester
  rw [TesterInv, htester] at hends
  obtain ⟨hdeleted, hends⟩ := hends
  refine { h with
    server := fun q s hs => ?_
    enabled := fun e he => ?_
    endnames := fun q hq => ?_
    tester := ?_
    call := h.calls_of_made (fun _ => made_crashed) rfl rfl rfl }
  · have hne : q ≠ p := by
      rintro rfl
      cases hdeleted.symm.trans hs
    simpa only [crashed, current, Function.update_of_ne hne] using h.server q s hs
  · have hne : e.owner.server ≠ p := by
      rintro rfl
      have howner := eq_current_of_live (h.enabled e he)
      cases hup.symm.trans (hends e he howner)
    rw [live_crashed_of_ne hne]
    exact h.enabled e he
  · have hne : q ≠ p := by
      rintro rfl
      simp [crashed] at hq
    simp only [crashed, Function.update_of_ne hne] at hq ⊢
    exact h.endnames q hq
  · simp [TesterInv, crashed, current]

/-- **A crash.** The copy is made, and what the cluster sees is a server that restarts and calls
that get lost. -/
theorem simulated_crash (hok : ∀ σ e, e.processed = none → ok σ e) (h : T.Inv)
    (htester : T.tester = .copying p) (hup : T.up p = true) : Simulated ok T (T.crashed p) := by
  refine ⟨inv_crashed h htester hup, ?_⟩
  have hpeer : (T.crashed p).peer =
      Function.update T.peer p (Raft.make p (T.peer p).persister) := by
    funext q
    rcases eq_or_ne q p with rfl | hne
    · simp [peer, crashed, hup]
    · simp [peer, crashed, current, hne]
  have hcluster : (T.crashed p).cluster =
      { T.cluster.setPeer p (Raft.make p (T.peer p).persister) with
        epoch := Function.update T.epoch p (T.epoch p + 1)
        calls := (T.crashed p).cluster.calls } := by
    simp only [cluster, Cluster.setPeer, hpeer]
    rfl
  rw [hcluster]
  refine .head (e := .restart p) trivial ⟨hok _ _ rfl, rfl⟩ (leads_lose hok ?_)
  refine filterMap_sublist fun k _ => ?_
  cases hc : T.net.calls[k]? with
  | none =>
    refine .inr ?_
    rw [view, show (T.crashed p).net.calls[k]? = none from hc]
    rfl
  | some c =>
    rw [view_eq hc, view_eq (show (T.crashed p).net.calls[k]? = some c from hc), callOf, callOf]
    rcases seen_mono (T.notices k) (T.processed k) (h.call k c hc)
      (fun _ => live_of_live_crashed (p := p)) with hsame | hnone
    · exact .inl (congrArg _ hsame)
    · exact .inr (congrArg _ hnone)

/-- `Kill` of the instance that has crashed. -/
theorem simulated_kill (h : T.Inv) (htester : T.tester = .killing i) :
    Simulated ok T { T.setRaft i (T.rafts i).kill with tester := .idle } := by
  have hcrashed := h.tester
  rw [TesterInv, htester] at hcrashed
  have hlive : T.live i = false := decide_eq_false (Nat.ne_of_lt hcrashed)
  refine simulated_of_unseen ?_ (peer_setRaft_of_not_live _ hlive) rfl rfl rfl rfl
  exact { h with tester := trivial, call := h.calls_of_made (fun _ => id) rfl rfl rfl }

/-- `StartServer` makes an end and connects it. -/
theorem simulated_wire {j : Fin n} {rest : List (Fin n)} {net : RaftNet n α} (h : T.Inv)
    (htester : T.tester = .wiring p (j :: rest))
    (hnet : T.net.makeEnd ⟨T.current p, j⟩ = .ok net) :
    Simulated ok T { T with net := net.connect ⟨T.current p, j⟩ j, tester := .wiring p rest } := by
  have hstarting := h.tester
  rw [TesterInv, htester] at hstarting
  rw [Network.makeEnd] at hnet
  split at hnet
  · cases hnet
  obtain rfl := Except.ok.inj hnet
  refine simulated_of_unseen ?_ rfl rfl rfl rfl rfl
  refine { h with
    enabled := fun e he => h.enabled e ?_
    connection := fun e q hq => ?_
    tester := hstarting
    call := h.calls_of_made (fun _ => id) rfl rfl rfl }
  · have hif : (if e = ⟨T.current p, j⟩ then false else T.net.enabled e) = true := by
      simpa only [Network.connect, Function.update_apply] using he
    split at hif
    · cases hif
    · exact hif
  · have hif : (if e = ⟨T.current p, j⟩ then some j else T.net.connections e) = some q := by
      simpa only [Network.connect, Function.update_idem, Function.update_apply] using hq
    split at hif
    next heq =>
      rw [heq]
      exact (Option.some.inj hif).symm
    · exact h.connection e q hif

/-- `Make` of the new instance: it is the peer that was going to be started. -/
theorem simulated_make (h : T.Inv) (htester : T.tester = .making p) :
    Simulated ok T { T with
      rafts := Function.update T.rafts (T.current p) (Raft.make p (T.saved p))
      up := Function.update T.up p true
      tester := .adding p } := by
  have hstarting := h.tester
  rw [TesterInv, htester] at hstarting
  obtain ⟨hdown, hendnames⟩ := hstarting
  have hup {q : Fin n} (hq : T.up q = true) : Function.update T.up p true q = true := by
    rcases eq_or_ne q p with rfl | hne
    · exact Function.update_self ..
    · rwa [Function.update_of_ne hne]
  refine simulated_of_unseen ?_ ?_ rfl rfl rfl rfl
  · refine { h with
      server := fun q s hs => (h.server q s hs).imp_right hup
      endnames := fun q hq => ?_
      tester := Function.update_self ..
      call := h.calls_of_made (fun i hi => ?_) rfl rfl rfl }
    · rcases eq_or_ne q p with rfl | hne
      · exact hendnames
      · exact h.endnames q ((Function.update_of_ne hne true T.up).symm.trans hq)
    · rw [made_iff] at hi ⊢
      exact hi.imp_right (And.imp_right hup)
  · funext q
    rcases eq_or_ne q p with rfl | hne
    · simp [peer, current, hdown]
    · have hcurrent : T.current q ≠ T.current p := fun heq => hne (congrArg Instance.server heq)
      show (if Function.update T.up p true q then
        Function.update T.rafts (T.current p) (Raft.make p (T.saved p)) (T.current q)
          else Raft.make q (T.saved q)) = T.peer q
      rw [Function.update_of_ne hne, Function.update_of_ne hcurrent, peer]

/-- `AddService` and `AddServer`. -/
theorem simulated_add (h : T.Inv) (htester : T.tester = .adding p) :
    Simulated ok T { T with
      net := (T.net.addService (T.current p) (raftService (T.current p))).addServer p (T.current p)
      tester := .idle } := by
  have hup := h.tester
  rw [TesterInv, htester] at hup
  refine simulated_of_unseen ?_ rfl rfl rfl rfl rfl
  refine { h with
    server := fun q s hs => ?_
    service := fun s name svc hsvc => ?_
    tester := trivial
    call := h.calls_of_made (fun _ => id) rfl rfl rfl }
  · have hif : (if q = p then some (T.current p) else T.net.servers q) = some s := by
      simpa only [Network.addServer, Network.addService, Function.update_apply] using hs
    split at hif
    next heq =>
      rw [heq]
      exact ⟨(Option.some.inj hif).symm, hup⟩
    · exact h.server q s hif
  · have hif : (if s = T.current p then (if name = (raftService (T.current p)).name then
        some (raftService (T.current p)) else T.net.services (T.current p) name)
          else T.net.services s name) = some svc := by
      simp only [Network.addServer, Network.addService, Function.update_apply] at hsvc
      split at hsvc
      next heq => simpa only [heq, if_true, Function.update_apply] using hsvc
      next hne => simpa only [hne, if_false] using hsvc
    split at hif
    next heq =>
      split at hif
      · rw [heq]
        exact (Option.some.inj hif).symm
      · exact h.service s name svc (heq ▸ hif)
    · exact h.service s name svc hif

/-- The steps of `ShutdownServer` and `StartServer`. -/
theorem simulated_goOn (hok : ∀ σ e, e.processed = none → ok σ e) (h : T.Inv)
    (hstep : T.goOn = .ok T') : Simulated ok T T' := by
  have hinv := h.tester
  rw [TesterInv.eq_def] at hinv
  rw [goOn] at hstep
  cases htester : T.tester with
  | idle =>
    rw [htester] at hstep
    cases hstep
  | disconnecting p todo =>
    rw [htester] at hstep hinv
    cases todo with
    | nil =>
      obtain rfl := Except.ok.inj hstep
      refine simulated_of_unseen ?_ rfl rfl rfl rfl rfl
      refine { h with
        tester := fun e he howner => ?_
        call := h.calls_of_made (fun _ => id) rfl rfl rfl }
      rw [Bool.eq_false_iff]
      intro hup
      cases hinv e he howner hup
    | cons e todo =>
      obtain rfl := Except.ok.inj hstep
      exact simulated_disconnect h htester
  | deleting p =>
    rw [htester] at hstep
    obtain rfl := Except.ok.inj hstep
    exact simulated_delete h htester
  | copying p =>
    rw [htester] at hstep
    dsimp only at hstep
    split at hstep
    next hup =>
      obtain rfl := Except.ok.inj hstep
      exact simulated_crash hok h htester hup
    · obtain rfl := Except.ok.inj hstep
      refine simulated_of_unseen ?_ rfl rfl rfl rfl rfl
      exact { h with tester := trivial, call := h.calls_of_made (fun _ => id) rfl rfl rfl }
  | killing i =>
    rw [htester] at hstep
    obtain rfl := Except.ok.inj hstep
    exact simulated_kill h htester
  | wiring p todo =>
    rw [htester] at hstep hinv
    cases todo with
    | nil =>
      obtain rfl := Except.ok.inj hstep
      refine simulated_of_unseen ?_ rfl rfl rfl rfl rfl
      exact { h with tester := hinv, call := h.calls_of_made (fun _ => id) rfl rfl rfl }
    | cons j todo =>
      obtain ⟨net, hnet, rfl⟩ := map_eq_ok.mp hstep
      exact simulated_wire h htester hnet
  | making p =>
    rw [htester] at hstep
    obtain rfl := Except.ok.inj hstep
    exact simulated_make h htester
  | adding p =>
    rw [htester] at hstep
    obtain rfl := Except.ok.inj hstep
    exact simulated_add h htester

/-- `Enable`. -/
theorem simulated_enable {j q : Fin n} {enabled : Bool} (h : T.Inv)
    (htended : T.Tended (.enable q j enabled)) (hstep : T.step (.enable q j enabled) = .ok T') :
    Simulated ok T T' := by
  rw [step] at hstep
  split at hstep
  next e hlocked hendnames =>
    obtain rfl := Except.ok.inj hstep
    refine simulated_of_unseen ?_ rfl rfl rfl rfl rfl
    refine { h with
      enabled := fun e' he' => ?_
      tester := ?_
      call := h.calls_of_made (fun _ => id) rfl rfl rfl }
    · have hif : (if e' = ⟨⟨q, e⟩, j⟩ then enabled else T.net.enabled e') = true :=
        (enabled_enable _ _ _).symm.trans he'
      split at hif
      next heq =>
        subst heq hif
        have hepoch : some e = some (T.epoch q) := hendnames.symm.trans htended
        exact decide_eq_true (Option.some.inj hepoch)
      · exact h.enabled e' hif
    · have htester := h.tester
      rw [TesterInv.eq_def] at htester ⊢
      rw [locked.eq_def] at hlocked
      cases hcase : T.tester with
      | idle => trivial
      | disconnecting | deleting | copying | wiring =>
        rw [hcase] at hlocked
        cases hlocked
      | killing | making | adding =>
        rw [hcase] at htester
        exact htester
  · cases hstep

end Tester

/-! ### Runs -/

/-- The request and the reply of `AppendEntries` that the caller has yet to deal with. -/
def ackOf (c : RaftRpc n α) : Option (AppendEntriesArgs n α × AppendEntriesReply) :=
  match c.req.args, c.pc with
  | .appendEntries args, .returned (some (.appendEntries reply)) => some (args, reply)
  | _, _ => none

/-- The condition on a step: a running leader that processes a success finds its log to agree with
the request. -/
def Honest (T : Testbed n α) : TestbedEvent n α → Prop
  | .process k => ∀ c ∈ T.net.calls[k]?, ∀ x ∈ ackOf c, T.live c.req.endname.owner = true →
    (T.rafts c.req.endname.owner).Confirms x.1 x.2
  | _ => True

theorem appendReply_body {args : RaftArgs n α} {reply : RaftReply}
    {x : AppendEntriesArgs n α × AppendEntriesReply}
    (h : x ∈ (body args (some reply)).appendReply) :
    args = .appendEntries x.1 ∧ reply = .appendEntries x.2 := by
  cases args <;> cases reply <;> simp [body, Body.appendReply] at h
  subst h
  exact ⟨rfl, rfl⟩

theorem truthful_of_honest {call : Call n α} {place : ℕ} (h : T.Inv)
    (hhonest : T.Honest (.process k)) (hstep : T.process k = .ok T') (hview : T.view k = some call)
    (hplace : T.cluster.calls[place]? = some call) : Truthful T.cluster (.process place) := by
  obtain ⟨c, reply, -, hc, hpc, -, -, -⟩ := process_cases hstep
  have hcall := h.call k c hc
  have hsound := hcall.sound
  simp only [Rpc.Sound, hpc] at hsound
  rw [view_eq hc, callOf] at hview
  obtain ⟨b, hseen, rfl⟩ := Option.map_eq_some_iff.mp hview
  simp only [seen, hsound.1, hpc, Bool.and_eq_true, Option.ite_none_right_eq_some,
    Option.some.injEq] at hseen
  obtain ⟨⟨hlive, -⟩, rfl⟩ := hseen
  intro place' hplace' call' hcall' x hx
  obtain rfl : place = place' := Option.some.inj hplace'
  obtain rfl := Option.some.inj (hplace.symm.trans hcall')
  obtain ⟨hargs, hreply⟩ := appendReply_body hx
  have hack : x ∈ ackOf c := by
    rw [ackOf, hargs, hpc, hreply]
    rfl
  have hpeer : T.cluster.peers c.req.endname.owner.server = T.rafts c.req.endname.owner :=
    peer_of_live hcall.owner hlive
  rw [hpeer]
  exact hhonest c hc x hack hlive

/-- **Every step of the test bed is seen as steps of a cluster.** -/
theorem simulated_step {ok : Cluster n α → Event n α → Prop} {e : TestbedEvent n α}
    (hok : ∀ σ e, e.processed = none → ok σ e)
    (hprocess : ∀ k T' place call, e = .process k → T.process k = .ok T' → T.view k = some call →
      T.cluster.calls[place]? = some call → ok T.cluster (.process place))
    (h : T.Inv) (htended : T.Tended e) (hstep : T.step e = .ok T') : Simulated ok T T' := by
  cases e with
  | shutdownServer p => exact simulated_shutdownServer h hstep
  | startServer p => exact simulated_startServer h htended hstep
  | goOn => exact simulated_goOn hok h hstep
  | enable i j enabled => exact simulated_enable h htended hstep
  | reliable yes | longReordering yes =>
    obtain rfl := Except.ok.inj hstep
    refine simulated_of_unseen ?_ rfl rfl rfl rfl rfl
    exact h.untouched ⟨rfl, rfl, rfl, rfl, rfl, rfl, rfl, rfl⟩
      (h.calls_of_made (fun _ => id) rfl rfl rfl) h.note
  | turn k t =>
    have ht : ∀ reply, t ≠ .handlerReturn reply := by
      rintro reply rfl
      simp [step] at hstep
    rw [step] at hstep
    · obtain ⟨net, hturn, rfl⟩ := map_eq_ok.mp hstep
      exact simulated_turn hok h hturn ht
    · exact ht
  | handle k => exact ⟨h.handle hstep, leads_handle hok h hstep⟩
  | notify k => exact ⟨h.notify hstep, leads_notify hok h hstep⟩
  | process k =>
    exact ⟨h.process hstep, leads_process hok h hstep fun place call =>
      hprocess k T' place call rfl hstep⟩
  | broadCastVote i => exact simulated_broadCastVote hok h hstep
  | start i command => exact simulated_start hok h hstep
  | checkConsistency i peer => exact simulated_checkConsistency hok h hstep
  | compact i cmdIndex snapshot => exact simulated_compact hok h hstep
  | apply i => exact simulated_apply hok h hstep

theorem inv_init : (init n α).Inv := by
  constructor <;> simp [init, Network.makeNetwork, TesterInv]

theorem cluster_init : (init n α).cluster = Cluster.init n α := rfl

/-- What is seen of a run is a run of a cluster. -/
theorem Run.refines {okT : Testbed n α → TestbedEvent n α → Prop}
    {ok : Cluster n α → Event n α → Prop} (hok : ∀ σ e, e.processed = none → ok σ e)
    (hprocess : ∀ T T' k place call, Inv T → okT T (.process k) → T.process k = .ok T' →
      T.view k = some call → T.cluster.calls[place]? = some call → ok T.cluster (.process place))
    {τ : List (Testbed n α)} (h : Run okT (T :: τ)) :
    ∃ τ', Cluster.Run ok (T.cluster :: τ') ∧
      Foundations.Follows cluster (T :: τ) (T.cluster :: τ') := by
  have hsim : ∀ T e T', Inv T → okT T e ∧ T.Tended e ∧ T.step e = .ok T' → Simulated ok T T' := by
    rintro T e T' hinv ⟨hokT, htended, hstep⟩
    refine simulated_step hok (fun k T' place call he => ?_) hinv htended hstep
    subst he
    exact hprocess T T' k place call hinv hokT
  exact Trace.refines cluster_init inv_init (fun T e T' hinv hnext => (hsim T e T' hinv hnext).1)
    (fun T e T' hinv hnext => (hsim T e T' hinv hnext).2) h

/-- **The test bed is a cluster.** However the servers are shut down and started again, cut off and
connected, whatever the network loses, delays and reorders, and whatever the crashed instances still
do: what is seen of a run of the test bed is a run of the cluster, in which a crash is one step and
a crashed server is gone. It goes through what is seen of each state of the run, in their order. -/
theorem testbed_refines {τ : List (Testbed n α)} (h : Run Honest (T :: τ)) :
    ∃ τ', Cluster.Run Truthful (T.cluster :: τ') ∧
      Foundations.Follows cluster (T :: τ) (T.cluster :: τ') := by
  refine h.refines (fun σ e he k hk => ?_) fun T T' k place call hinv hhonest hstep hview hplace =>
    truthful_of_honest hinv hhonest hstep hview hplace
  rw [he] at hk
  cases hk

instance (T : Testbed n α) (e : TestbedEvent n α) : Decidable (T.Honest e) :=
  match e with
  | .process k => inferInstanceAs (Decidable (∀ c ∈ T.net.calls[k]?, ∀ x ∈ ackOf c,
      T.live c.req.endname.owner = true → (T.rafts c.req.endname.owner).Confirms x.1 x.2))
  | .shutdownServer _ | .startServer _ | .goOn | .enable _ _ _ | .reliable _ | .longReordering _
  | .turn _ _ | .handle _ | .notify _ | .broadCastVote _ | .start _ _ | .checkConsistency _ _
  | .compact _ _ _ | .apply _ => .isTrue trivial

instance (T : Testbed n α) (e : TestbedEvent n α) : Decidable (T.Tended e) :=
  match e with
  | .startServer p => inferInstanceAs (Decidable (T.up p = false))
  | .enable i _ true => inferInstanceAs (Decidable (T.endnames i = some (T.epoch i)))
  | .enable _ _ false | .shutdownServer _ | .goOn | .reliable _ | .longReordering _ | .turn _ _
  | .handle _ | .notify _ | .process _ | .broadCastVote _ | .start _ _ | .checkConsistency _ _
  | .compact _ _ _ | .apply _ => .isTrue trivial

/-- `StartServer` of one of three servers, to its end. -/
def startOf (p : Fin 3) : List (TestbedEvent 3 ℕ) := .startServer p :: List.replicate 6 .goOn

/-- A call of the network that gets through, with its handler. -/
def callThrough (k : ℕ) : List (TestbedEvent 3 ℕ) :=
  [.turn k .accept, .turn k .readEndnameInfo, .turn k .execute, .turn k .dispatch,
    .turn k .callMethod, .handle k, .turn k .receive, .turn k .check, .turn k .sendReply,
    .turn k .reply, .process k]

/-- Two servers elect the first. -/
def firstLeader : List (TestbedEvent 3 ℕ) :=
  startOf 0 ++ startOf 1 ++ [.enable 0 1 true, .broadCastVote ⟨0, 0⟩] ++ callThrough 0

/-- The first leader is shut down. When the copy is made and before `Kill`, it goes on to send a
heartbeat. Then it is killed and started again. -/
def oldLeader : List (TestbedEvent 3 ℕ) :=
  firstLeader ++ .shutdownServer 0 :: List.replicate 8 .goOn ++ [.checkConsistency ⟨0, 0⟩ 1] ++
    .goOn :: startOf 0

/-- The heartbeat is the third of the calls, of which none is seen. -/
theorem testbed_refines_three : ∃ T : Testbed 3 ℕ, ∃ τ, Run Honest (T :: τ) ∧
    T.up 0 = true ∧ T.epoch 0 = 1 ∧ T.net.calls.length = 3 ∧ T.cluster.calls.length = 0 ∧
    ∃ τ', Cluster.Run Truthful (T.cluster :: τ') ∧
      Foundations.Follows cluster (T :: τ) (T.cluster :: τ') := by
  have hend : ∃ T ∈ (oldLeader.foldlM (stepIf .disabled (fun T e => T.Honest e ∧ T.Tended e) step)
      (init 3 ℕ)).toOption, T.up 0 = true ∧ T.epoch 0 = 1 ∧ T.net.calls.length = 3 ∧
        T.cluster.calls.length = 0 := by
    decide +kernel
  obtain ⟨T, hT, hup, hepoch, hcalls, hseen⟩ := hend
  obtain ⟨τ, hrun⟩ := Trace.exists_of_stepIf (Cluster.eq_ok_of_mem_toOption hT)
  have h : Run Honest (T :: τ) := hrun.mono fun _ _ _ hnext => ⟨hnext.1.1, hnext.1.2, hnext.2⟩
  exact ⟨T, τ, h, hup, hepoch, hcalls, hseen, testbed_refines h⟩

/-- **One leader a term**, of those that run. A crashed instance may go on to take itself for one;
among the instances that run, at any two moments of a run, two that are leaders of one term are of
the same server. -/
theorem testbed_one_leader {ok : Testbed n α → TestbedEvent n α → Prop} {τ : List (Testbed n α)}
    {p q : Fin n} (h : Run ok τ) (hT : T ∈ τ) (hT' : T' ∈ τ) (hp : T.up p = true)
    (hq : T'.up q = true) (hleader : (T.rafts (T.current p)).state = .leader)
    (hleader' : (T'.rafts (T'.current q)).state = .leader)
    (hterm : (T.rafts (T.current p)).currentTerm = (T'.rafts (T'.current q)).currentTerm) :
    p = q := by
  obtain ⟨T₀, τ₀, rfl⟩ := List.exists_cons_of_ne_nil (List.ne_nil_of_mem hT)
  have hrefines : ∃ τ', Cluster.Run Cluster.Always (T₀.cluster :: τ') ∧
      Foundations.Follows cluster (T₀ :: τ₀) (T₀.cluster :: τ') :=
    h.refines (fun _ _ _ => trivial) fun _ _ _ _ _ _ _ _ _ _ => trivial
  obtain ⟨τ', hrun, hfollows⟩ := hrefines
  obtain ⟨a, -, hpast⟩ := Cluster.Run.history hrun
  obtain ⟨τ₁, b, -, hb, hext⟩ := hpast _ (hfollows.mem T hT)
  obtain ⟨τ₂, b', -, hb', hext'⟩ := hpast _ (hfollows.mem T' hT')
  have hpeer : T.cluster.peers p = T.rafts (T.current p) := if_pos hp
  have hpeer' : T'.cluster.peers q = T'.rafts (T'.current q) := if_pos hq
  rw [← hpeer] at hleader hterm
  rw [← hpeer'] at hleader' hterm
  have hlp := leader_of_mem hb hext hleader
  have hlq := leader_of_mem hb' hext' hleader'
  rw [hterm, hlq] at hlp
  exact (Option.some.inj hlp).symm

/-- The first server, which leads, is shut down up to `Kill`, and the second is elected by the
third. -/
def newLeader : List (TestbedEvent 3 ℕ) :=
  startOf 2 ++ .shutdownServer 0 :: List.replicate 9 .goOn ++
    [.enable 1 2 true, .broadCastVote ⟨1, 0⟩] ++ callThrough 3

/-- The crashed instance of the first server still takes itself for the leader, of term 1, when the
second server leads term 2 and when that has taken a command. -/
theorem testbed_one_leader_three : ∃ T₀ T T' : Testbed 3 ℕ, ∃ τ, Run Honest (T' :: T :: τ) ∧
    T₀ ∈ T :: τ ∧ (T₀.up 0 = true ∧ (T₀.rafts (T₀.current 0)).state = .leader) ∧
    (T'.epoch 0 = 1 ∧ (T'.rafts ⟨0, 0⟩).state = .leader) ∧
    (T.rafts (T.current 1)).state = .leader ∧ (T'.rafts (T'.current 1)).state = .leader ∧
    (T₀.rafts (T₀.current 0)).currentTerm ≠ (T'.rafts (T'.current 1)).currentTerm ∧
    (1 : Fin 3) = 1 := by
  have hend : ∃ T₀ ∈ (firstLeader.foldlM
        (stepIf .disabled (fun T e => T.Honest e ∧ T.Tended e) step) (init 3 ℕ)).toOption,
      ∃ T ∈ (newLeader.foldlM
        (stepIf .disabled (fun T e => T.Honest e ∧ T.Tended e) step) T₀).toOption,
      ∃ T' ∈ (T.step (.start ⟨1, 0⟩ (some 5))).toOption,
        (T₀.up 0 = true ∧ (T₀.rafts (T₀.current 0)).state = .leader) ∧
        (T.up 1 = true ∧ (T.rafts (T.current 1)).state = .leader) ∧
        (T'.up 1 = true ∧ (T'.rafts (T'.current 1)).state = .leader) ∧
        (T'.epoch 0 = 1 ∧ (T'.rafts ⟨0, 0⟩).state = .leader) ∧
        (T.rafts (T.current 1)).currentTerm = (T'.rafts (T'.current 1)).currentTerm := by
    decide +kernel
  obtain ⟨T₀, hT₀, T, hT, T', hT', ⟨hup₀, hleader₀⟩, ⟨hup, hleader⟩, ⟨hup', hleader'⟩, hold,
    hterm⟩ := hend
  obtain ⟨τ₀, hrun₀⟩ := Trace.exists_of_stepIf (Cluster.eq_ok_of_mem_toOption hT₀)
  obtain ⟨τ, hrun, hsuffix⟩ := Trace.extends_of_stepIf hrun₀ (Cluster.eq_ok_of_mem_toOption hT)
  have hstart : T.Honest (.start ⟨1, 0⟩ (some 5)) ∧ T.Tended (.start ⟨1, 0⟩ (some 5)) ∧
      T.step (.start ⟨1, 0⟩ (some 5)) = .ok T' :=
    ⟨trivial, trivial, Cluster.eq_ok_of_mem_toOption hT'⟩
  have h : Run Honest (T' :: T :: τ) :=
    .step (hrun.mono fun _ _ _ hnext => ⟨hnext.1.1, hnext.1.2, hnext.2⟩) hstart
  have hmem : T₀ ∈ T :: τ := hsuffix.mem List.mem_cons_self
  refine ⟨T₀, T, T', τ, h, hmem, ⟨hup₀, hleader₀⟩, hold, hleader, hleader', fun heq => ?_,
    testbed_one_leader h (.tail _ (.head _)) (.head _) hup hup' hleader hleader' hterm⟩
  exact absurd (testbed_one_leader h (.tail _ hmem) (.head _) hup₀ hup' hleader₀ hleader' heq)
    (by decide)

end Testbed

end RaftKVDB
