import RaftKVDB.Labrpc.Calls

/-!
# What the result of a remote call means

`Call` returns true to indicate that the server executed the request and the reply is valid. There
is more to it. A server that has crashed goes on in the tests, with a persister that nobody will
read again; so `ProcessReq` must not pass on the reply of a server that was deleted while it worked,
and it looks once more after it has got the reply. True therefore means that the server was still
there when its method had already returned.

And `Call` returns false if the network lost the request or the reply or the server is down; it does
not, if the network is reliable and the server stays where it is.

What a result means is a matter of what was before. `Rpc.Past` says it for each stage of a call.

## Main results

* `call_true_sound` — what it means that `Call` returned true
* `reliable_call_succeeds` — on a reliable network with nothing switched off, it does
-/

namespace RaftKVDB

namespace Labrpc

open Foundations Network

variable {E N S O A R : Type*} [DecidableEq S]
variable {rn rn' : Network E N S O A R} {c c' : Rpc E N S O A R} {e : NetEvent E N S O A R}
variable {t : Turn R} {k : ℕ} {τ : List (Network E N S O A R)}

/-! ### What it means that `Call` returned true -/

/-- The end was enabled, and connected to the server of that name, which was that object. -/
def Network.Routes (rn : Network E N S O A R) (endname : E) (route : Route N S) : Prop :=
  rn.enabled endname = true ∧ rn.connections endname = some route.servername ∧
    rn.servers route.servername = some route.server

/-- The method that the request names runs, at the server object. -/
def Network.Runs (rn : Network E N S O A R) (k : ℕ) (req : ReqMsg E A) (server : S) : Prop :=
  ∃ c service methname, rn.calls[k]? = some c ∧ c.handler = .running server service methname ∧
    splitMethod req.svcMeth = some (service.name, methname) ∧ methname ∈ service.methods

/-- The method has returned the reply. -/
def Network.Returns (rn : Network E N S O A R) (k : ℕ) (server : S) (reply : R) : Prop :=
  ∃ c, rn.calls[k]? = some c ∧ c.handler = .finished server reply

/-- First the method ran at the object, then it had returned the reply. -/
def Executed (τ : List (Network E N S O A R)) (k : ℕ) (req : ReqMsg E A) (server : S)
    (reply : R) : Prop :=
  Once τ fun rn τ => rn.Returns k server reply ∧ Once τ fun rn _ => rn.Runs k req server

/-- The method was executed at the object with the reply, and after that the end was still enabled
and the object still the server of that name. -/
def Vouched (τ : List (Network E N S O A R)) (k : ℕ) (req : ReqMsg E A) (route : Route N S)
    (reply : R) : Prop :=
  Once τ fun rn τ => rn.isServerDead req.endname route.servername route.server = false ∧
    Executed τ k req route.server reply

/-- What `ProcessReq` knows of the server. -/
def Pc.route : Pc N S R → Option (Route N S)
  | .routed route | .waiting route | .checking route _ | .answering route _ => some route
  | _ => none

/-- The reply, from the last look at the server on. -/
def Pc.reply : Pc N S R → Option R
  | .answering _ reply | .replying (some reply) | .delayed (some reply)
  | .returned (some reply) => some reply
  | _ => none

/-- What must have been before, at each stage of a call. -/
structure Rpc.Past (τ : List (Network E N S O A R)) (k : ℕ) (c : Rpc E N S O A R) : Prop where
  routed : ∀ route, c.pc.route = some route → Once τ fun rn _ => rn.Routes c.req.endname route
  dispatched : ∀ server service methname, c.handler = .dispatched server service methname →
    splitMethod c.req.svcMeth = some (service.name, methname)
  running : ∀ server service methname, c.handler = .running server service methname →
    splitMethod c.req.svcMeth = some (service.name, methname) ∧ methname ∈ service.methods
  finished : ∀ server reply, c.handler = .finished server reply →
    Once τ fun rn _ => rn.Runs k c.req server
  checking : ∀ route reply, c.pc = .checking route (some reply) →
    Executed τ k c.req route.server reply
  replied : ∀ reply, c.pc.reply = some reply → ∃ route,
    (Once τ fun rn _ => rn.Routes c.req.endname route) ∧ Vouched τ k c.req route reply

theorem Rpc.past_fresh (τ : List (Network E N S O A R)) (k : ℕ) (req : ReqMsg E A) :
    (Rpc.fresh req : Rpc E N S O A R).Past τ k := by
  constructor <;> simp [Rpc.fresh, Pc.route, Pc.reply]

theorem Rpc.Past.later (h : c.Past τ k) (rn : Network E N S O A R) : c.Past (rn :: τ) k where
  routed route hroute := (h.routed route hroute).later rn
  dispatched := h.dispatched
  running := h.running
  finished server reply hhandler := (h.finished server reply hhandler).later rn
  checking route reply hpc := (h.checking route reply hpc).later rn
  replied reply hreply := by
    obtain ⟨route, hroute, hvouched⟩ := h.replied reply hreply
    exact ⟨route, hroute.later rn, hvouched.later rn⟩

/-- A turn that only brings `ProcessReq` on, and needs no more than was known. -/
theorem Rpc.Past.move {pc : Pc N S R} {draining : Bool} (h : c.Past τ k)
    (hroute : ∀ route, pc.route = some route → c.pc.route = some route)
    (hchecking : ∀ route reply, pc ≠ .checking route (some reply))
    (hreply : ∀ reply, pc.reply = some reply → c.pc.reply = some reply) :
    Rpc.Past τ k { c with pc := pc, draining := draining } where
  routed route hr := h.routed route (hroute route hr)
  dispatched := h.dispatched
  running := h.running
  finished := h.finished
  checking route reply hpc := (hchecking route reply hpc).elim
  replied reply hr := h.replied reply (hreply reply hr)

/-- A turn that only brings the handler on. -/
theorem Rpc.Past.handle {handler : Handler S O R} {draining : Bool} (h : c.Past τ k)
    (hdispatched : ∀ server service methname, handler = .dispatched server service methname →
      splitMethod c.req.svcMeth = some (service.name, methname))
    (hrunning : ∀ server service methname, handler = .running server service methname →
      splitMethod c.req.svcMeth = some (service.name, methname) ∧ methname ∈ service.methods)
    (hfinished : ∀ server reply, handler = .finished server reply →
      Once τ fun rn _ => rn.Runs k c.req server) :
    Rpc.Past τ k { c with handler := handler, draining := draining } where
  routed := h.routed
  dispatched := hdispatched
  running := hrunning
  finished := hfinished
  checking := h.checking
  replied := h.replied

/-- **A turn and the past.** -/
theorem Rpc.Past.turned (h : c.Past τ k) (hsound : c.Sound)
    (hnamed : ∀ server name svc, rn.services server name = some svc → svc.name = name)
    (hc : rn.calls[k]? = some c) (hturn : Turned rn c t c') : c'.Past (rn :: τ) k := by
  cases hturn with
  | found hpc henabled hconn hserver =>
    refine ⟨fun route hroute => ?_, h.dispatched, h.running,
      fun server reply hh => (h.finished server reply hh).later rn, fun _ _ hpc' => ?_,
      fun _ hreply => ?_⟩
    · obtain rfl := Option.some.inj hroute
      exact .now ⟨henabled, hconn, hserver⟩
    · cases hpc'
    · cases hreply
  | execute hpc =>
    have hwaiting : Rpc.Past (rn :: τ) k { c with pc := .waiting _ } :=
      (h.later rn).move (fun route hroute => by rwa [hpc]) (by simp) (by simp [Pc.reply])
    exact hwaiting.handle (by simp) (by simp) (by simp)
  | @dispatch server service methname hhandler hservice =>
    refine (h.later rn).handle (fun _ _ _ heq => ?_) (by simp) (by simp)
    obtain ⟨rfl, rfl, rfl⟩ := Handler.dispatched.inj heq
    rw [dispatch] at hservice
    split at hservice
    · cases hservice
    next name m hsplit =>
    split at hservice
    · cases hservice
    next svc hsvc =>
    obtain ⟨rfl, rfl⟩ := Prod.mk.inj (Except.ok.inj hservice)
    rw [hnamed _ _ _ hsvc]
    exact hsplit
  | callMethod hhandler hmethod =>
    refine (h.later rn).handle (by simp) (fun _ _ _ heq => ?_) (by simp)
    obtain ⟨rfl, rfl, rfl⟩ := Handler.running.inj heq
    exact ⟨h.dispatched _ _ _ hhandler, hmethod⟩
  | handlerReturn reply hhandler =>
    refine (h.later rn).handle (by simp) (by simp) fun _ _ heq => ?_
    obtain ⟨rfl, rfl⟩ := Handler.finished.inj heq
    exact .now ⟨c, _, _, hc, hhandler, h.running _ _ _ hhandler⟩
  | @receive route server reply hpc hhandler =>
    obtain ⟨hserver, -⟩ : c.handler.server = some route.server ∧ c.draining = false := by
      simpa only [Rpc.Sound, hpc] using hsound
    obtain rfl : server = route.server := by
      rw [hhandler] at hserver
      exact Option.some.inj hserver
    refine ⟨fun route' hroute => ?_, by simp, by simp, by simp, fun _ _ heq => ?_,
      by simp [Pc.reply]⟩
    · exact (h.later rn).routed route' (by rwa [hpc])
    · obtain ⟨rfl, hr⟩ := Pc.checking.inj heq
      obtain rfl := Option.some.inj hr
      exact .now ⟨⟨c, hc, hhandler⟩, h.finished _ _ hhandler⟩
  | goOn hpc => exact h.later rn
  | drain hhandler hdraining => exact (h.later rn).handle (by simp) (by simp) (by simp)
  | @pass route reply hpc halive =>
    refine ⟨fun route' hroute => (h.later rn).routed route' (by rwa [hpc]), h.dispatched, h.running,
      (h.later rn).finished, by simp, fun _ hreply => ?_⟩
    obtain rfl := Option.some.inj hreply
    exact ⟨route, (h.later rn).routed route (by rw [hpc]; rfl),
      .now ⟨halive, h.checking route reply hpc⟩⟩
  | delayReply hpc | sendReply hpc =>
    exact (h.later rn).move (by simp [Pc.route]) (by simp) (by simp [hpc, Pc.reply])
  | @reply reply hpc =>
    refine (h.later rn).move (by simp [Pc.route]) (by simp) fun r hr => ?_
    cases reply with
    | none => cases hr
    | some reply => rcases hpc with hpc | hpc <;> rwa [hpc]
  | abandon | accept | lost | dropRequest | fail | dropReply =>
    exact (h.later rn).move (by simp [Pc.route]) (by simp) (by simp [Pc.reply])
  | giveUp hpc =>
    exact (h.later rn).move (fun route hroute => by rwa [hpc]) (by simp) (by simp [Pc.reply])

/-- A service is found under its name. -/
def Network.Named (rn : Network E N S O A R) : Prop :=
  ∀ server name svc, rn.services server name = some svc → svc.name = name

/-- The method has been called. -/
def Handler.Called : Handler S O R → Prop
  | .running _ _ _ | .finished _ _ | .exited => True
  | .none | .spawned _ | .dispatched _ _ _ => False

/-- `executed` has each call whose method has been called, once. -/
structure Network.Recorded (rn : Network E N S O A R) : Prop where
  nodup : rn.executed.Nodup
  mem_iff : ∀ k, k ∈ rn.executed ↔ ∃ c, rn.calls[k]? = some c ∧ c.handler.Called

theorem Rpc.Sound.called_turned (h : c.Sound) (hturn : Turned rn c t c') (ht : t ≠ .callMethod) :
    c'.handler.Called ↔ c.handler.Called := by
  cases hturn with
  | callMethod => exact (ht rfl).elim
  | execute hpc =>
    obtain ⟨hhandler, -⟩ : c.handler = .none ∧ c.draining = false := by
      simpa only [Rpc.Sound, hpc] using h
    simp [hhandler, Handler.Called]
  | dispatch hhandler | drain hhandler => simp [hhandler, Handler.Called]
  | handlerReturn reply hhandler => simp [hhandler, Handler.Called]
  | receive hpc hhandler => simp [hhandler, Handler.Called]
  | _ => exact Iff.rfl

theorem Network.services_counted (rn : Network E N S O A R) (k : ℕ) (c : Rpc E N S O A R)
    (t : Turn R) : (rn.counted k c t).services = rn.services := by
  cases t with
  | dispatch =>
    simp only [counted]
    split
    · rfl
    · rfl
  | _ => rfl

theorem Network.executed_counted (rn : Network E N S O A R) (k : ℕ) (c : Rpc E N S O A R)
    (ht : t ≠ .callMethod) : (rn.counted k c t).executed = rn.executed := by
  cases t with
  | callMethod => exact (ht rfl).elim
  | dispatch =>
    simp only [counted]
    split
    · rfl
    · rfl
  | _ => rfl

theorem Network.Recorded.turn (h : rn.Recorded) (hsound : c.Sound) (hc : rn.calls[k]? = some c)
    (hturn : Turned rn c t c') :
    Network.Recorded { rn.counted k c t with calls := rn.calls.set k c' } := by
  have hlt : k < rn.calls.length := (List.getElem?_eq_some_iff.mp hc).1
  have hcalled : ∀ j, (∃ d, (rn.calls.set k c')[j]? = some d ∧ d.handler.Called) ↔
      if j = k then c'.handler.Called else ∃ d, rn.calls[j]? = some d ∧ d.handler.Called := by
    intro j
    rcases eq_or_ne j k with rfl | hne
    · simp [hlt]
    · simp [hne, hne.symm]
  by_cases ht : t = .callMethod
  · subst ht
    cases hturn with
    | callMethod hhandler hmethod =>
    have hnew : k ∉ rn.executed := by
      rw [h.mem_iff]
      rintro ⟨d, hd, hcall⟩
      obtain rfl := Option.some.inj (hc.symm.trans hd)
      rw [hhandler] at hcall
      exact hcall
    refine ⟨List.nodup_append.mpr ⟨h.nodup, by simp, ?_⟩, fun j => ?_⟩
    · rintro j hj j' hj' rfl
      exact hnew (List.mem_singleton.mp hj' ▸ hj)
    · rw [hcalled, counted, List.mem_append, List.mem_singleton, h.mem_iff]
      rcases eq_or_ne j k with rfl | hne
      · simp [Handler.Called]
      · simp [hne]
  · refine ⟨by simpa only [executed_counted rn k c ht] using h.nodup, fun j => ?_⟩
    simp only [executed_counted rn k c ht]
    rw [hcalled, h.mem_iff]
    rcases eq_or_ne j k with rfl | hne
    · simp [hc, hsound.called_turned hturn ht]
    · simp [hne]

section Truth

variable [DecidableEq E] [DecidableEq N]

theorem Network.Named.step (h : rn.Named) (hstep : rn.step e = .ok rn') : rn'.Named := by
  cases e with
  | addService rs svc =>
    obtain rfl := Except.ok.inj hstep
    intro server name svc' hsvc
    simp only [addService, Function.update_apply] at hsvc
    split at hsvc
    · rw [Function.update_apply] at hsvc
      split at hsvc
      next hname => rw [← Option.some.inj hsvc, hname]
      · exact h _ _ _ hsvc
    · exact h _ _ _ hsvc
  | turn k t =>
    simp only [Network.step, turn] at hstep
    split at hstep
    · cases hstep
    · obtain ⟨c', -, rfl⟩ := map_eq_ok.mp hstep
      intro server name svc hsvc
      rw [services_counted] at hsvc
      exact h _ _ _ hsvc
  | makeEnd endname =>
    simp only [Network.step, makeEnd] at hstep
    split at hstep
    · cases hstep
    · obtain rfl := Except.ok.inj hstep
      exact h
  | cleanup =>
    simp only [Network.step, cleanup] at hstep
    split at hstep
    · cases hstep
    · obtain rfl := Except.ok.inj hstep
      exact h
  | quit =>
    obtain ⟨-, rfl⟩ := ite_ok_eq_ok.mp hstep
    exact h
  | call endname svcMeth args =>
    obtain ⟨-, rfl⟩ := ite_ok_eq_ok.mp hstep
    exact h
  | addServer | deleteServer | connect | enable | reliable | longReordering =>
    obtain rfl := Except.ok.inj hstep
    exact h

theorem Network.Run.past (h : Run (rn :: τ)) (hc : rn.calls[k]? = some c) : c.Past τ k := by
  refine (Trace.past (P := fun (rn : Network E N S O A R) τ => rn.Named ∧
    ∀ (k : ℕ) c, rn.calls[k]? = some c → c.Sound ∧ c.Past τ k) ⟨?_, ?_⟩ ?_ h).2 k c hc |>.2
  · intro server name svc hsvc
    cases hsvc
  · intro k c hc
    cases hc
  · rintro rn e rn' τ ⟨hnamed, hcalls⟩ hstep
    refine ⟨hnamed.step hstep, fun k c' hc' => ?_⟩
    rcases call_of_step hstep hc' with hc | ⟨c, t, -, hc, hturn⟩ | ⟨-, req, rfl⟩
    · exact ⟨(hcalls k c' hc).1, (hcalls k c' hc).2.later rn⟩
    · obtain ⟨hsound, hpast⟩ := hcalls k c hc
      exact ⟨hsound.turned hturn, hpast.turned hsound hnamed hc hturn⟩
    · exact ⟨⟨rfl, rfl⟩, Rpc.past_fresh _ _ _⟩

theorem Network.Run.recorded (h : Run τ) : ∀ rn ∈ τ, rn.Recorded := by
  have hrun := Trace.strengthen h h.sound
  refine Trace.invariant (P := Network.Recorded) ⟨List.nodup_nil, fun k => by simp [makeNetwork]⟩
    (fun rn e rn' hrecorded hstep => ?_) hrun
  obtain ⟨hsound, -, hstep⟩ := hstep
  rcases step_cases hstep with ⟨k, t, c, c', rfl, hc, hturn, rfl⟩ | ⟨req, rfl⟩ | haside
  · exact hrecorded.turn (hsound k c hc) hc hturn
  · refine ⟨hrecorded.nodup, fun j => ?_⟩
    rw [hrecorded.mem_iff]
    rcases lt_trichotomy j rn.calls.length with hlt | rfl | hgt
    · rw [List.getElem?_append_left hlt]
    · simp [Rpc.fresh, Handler.Called]
    · rw [List.getElem?_eq_none hgt.le, List.getElem?_eq_none (by simp; omega)]
  · refine ⟨haside.executed ▸ hrecorded.nodup, ?_⟩
    rw [haside.executed, haside.calls]
    exact hrecorded.mem_iff

/-- **What `true` means.** In every state of every run, no method was called twice for one call. And
if a `Call` has returned true then its request was executed. At some moment the end was enabled and
connected to a server; the method that the request names ran at that server object; later it had
returned the very reply that the caller got; and later than that, the end was still enabled and the
object was still registered under its name. So nobody is told of an update that a server made after
it was deleted. -/
theorem call_true_sound (h : Run (rn :: τ)) : rn.executed.Nodup ∧
    ∀ k c reply, rn.calls[k]? = some c → c.pc = .returned (some reply) →
      k ∈ rn.executed ∧ ∃ route,
        (Once τ fun rn _ => rn.Routes c.req.endname route) ∧ Vouched τ k c.req route reply := by
  have hrecorded := h.recorded rn List.mem_cons_self
  refine ⟨hrecorded.nodup, fun k c reply hc hpc => ⟨?_, ?_⟩⟩
  · have hsound := h.sound rn List.mem_cons_self k c hc
    obtain ⟨hhandler, -⟩ : c.handler = .exited ∧ c.draining = false := by
      simpa only [Rpc.Sound, hpc] using hsound
    exact (hrecorded.mem_iff k).mpr ⟨c, hc, by rw [hhandler]; trivial⟩
  · exact (h.past hc).replied reply (by rw [hpc]; rfl)

/-- The method returns, and the reply gets back. -/
def answeredCall : List (NetEvent ℕ ℕ ℕ ℕ ℕ ℕ) :=
  oneCall ++ [.turn 0 (.handlerReturn 9), .turn 0 .receive, .turn 0 .check, .turn 0 .sendReply,
    .turn 0 .reply]

theorem call_true_sound_one : ∃ (τ : List (Network ℕ ℕ ℕ ℕ ℕ ℕ)) (rn : Network ℕ ℕ ℕ ℕ ℕ ℕ)
    (c : Rpc ℕ ℕ ℕ ℕ ℕ ℕ), Run (rn :: τ) ∧ rn.calls[0]? = some c ∧ c.pc = .returned (some 9) ∧
      rn.executed.Nodup ∧ 0 ∈ rn.executed ∧ ∃ route,
        (Once τ fun rn _ => rn.Routes c.req.endname route) ∧ Vouched τ 0 c.req route 9 := by
  have hend : ∃ rn ∈ (answeredCall.foldlM step makeNetwork).toOption,
      ∃ c ∈ rn.calls[0]?, c.pc = .returned (some 9) := by
    decide +kernel
  obtain ⟨rn, hrn, c, hc, hpc⟩ := hend
  obtain ⟨τ, hrun⟩ := Trace.exists_of_foldlM (fun _ _ _ => id) _ .start
    (Cluster.eq_ok_of_mem_toOption hrn)
  obtain ⟨hnodup, htrue⟩ := call_true_sound hrun
  exact ⟨τ, rn, c, hrun, hc, hpc, hnodup, htrue 0 c 9 hc hpc⟩

end Truth

/-! ### On a quiet network -/

/-- The network is reliable and not cleaned up, and the end is enabled and connected to the
server. -/
structure Network.Calm (endname : E) (servername : N) (server : S) (rn : Network E N S O A R) :
    Prop where
  reliable : rn.reliable = true
  routes : rn.enabled endname = true ∧ rn.connections endname = some servername ∧
    rn.servers servername = some server
  notDone : rn.done = false

instance (endname : E) (servername : N) (server : S) (rn : Network E N S O A R) [DecidableEq N] :
    Decidable (rn.Calm endname servername server) :=
  decidable_of_iff (rn.reliable = true ∧ (rn.enabled endname = true ∧
      rn.connections endname = some servername ∧ rn.servers servername = some server) ∧
      rn.done = false)
    ⟨fun h => ⟨h.1, h.2.1, h.2.2⟩, fun h => ⟨h.reliable, h.routes, h.notDone⟩⟩

/-- A call about which nothing has gone wrong. -/
def Rpc.Fine (servername : N) (server : S) (c : Rpc E N S O A R) : Prop :=
  match c.pc with
  | .sending | .received => True
  | .routed route | .waiting route | .answering route _ | .checking route (some _) =>
    route.servername = servername ∧ route.server = server ∧ route.reliable = true
  | .replying (some _) | .delayed (some _) | .returned (some _) => True
  | .checking _ none | .replying none | .delayed none | .returned none => False

theorem Network.Turned.req_eq (hturn : Turned rn c t c') : c'.req = c.req := by
  cases hturn <;> rfl

theorem Rpc.Fine.turned {servername : N} {server : S} (h : c.Fine servername server)
    (hcalm : rn.Calm c.req.endname servername server) (hturn : Turned rn c t c') :
    c'.Fine servername server := by
  obtain ⟨hrel, ⟨henabled, hconn, hserver⟩, hdone⟩ := hcalm
  cases hturn with
  | abandon hpc hdone' => simp [hdone] at hdone'
  | found hpc henabled' hconn' hserver' =>
    obtain rfl := Option.some.inj (hconn.symm.trans hconn')
    obtain rfl := Option.some.inj (hserver.symm.trans hserver')
    exact ⟨rfl, rfl, hrel⟩
  | lost hpc hnone => simp [henabled, hconn, hserver] at hnone
  | dropRequest hpc hrel' => simp [Rpc.Fine, hpc, hrel'] at h
  | giveUp hpc hdead =>
    simp only [Rpc.Fine, hpc] at h
    obtain ⟨rfl, rfl, -⟩ := h
    rw [isServerDead_eq_false.mpr ⟨henabled, hserver⟩] at hdead
    cases hdead
  | @fail route reply hpc hdead =>
    cases reply with
    | none => simp [Rpc.Fine, hpc] at h
    | some reply =>
      simp only [Rpc.Fine, hpc] at h
      obtain ⟨rfl, rfl, -⟩ := h
      rw [isServerDead_eq_false.mpr ⟨henabled, hserver⟩] at hdead
      simp at hdead
  | dropReply hpc hrel' => simp [Rpc.Fine, hpc, hrel'] at h
  | @reply reply hpc =>
    cases reply with
    | none => rcases hpc with hpc | hpc <;> simp [Rpc.Fine, hpc] at h
    | some reply => trivial
  | goOn | dispatch | callMethod | handlerReturn | drain => exact h
  | accept | delayReply | sendReply => trivial
  | execute hpc | receive hpc | pass hpc => simpa [Rpc.Fine, hpc] using h

section Quiet

variable [DecidableEq E] [DecidableEq N]

/-- **On a reliable network `Call` does not return false.** From the state in which a call is made,
whatever else happens: as long as the network is reliable and not cleaned up and the end is enabled
and connected to the same registered server object, the call does not fail. -/
theorem reliable_call_succeeds {req : ReqMsg E A} {servername : N} {server : S}
    (hc : rn.calls[k]? = some (Rpc.fresh req))
    (h : Trace rn (fun rn e rn' => rn.Calm req.endname servername server ∧ rn.step e = .ok rn') τ) :
    ∀ rn' ∈ τ, ∀ c, rn'.calls[k]? = some c → c.pc ≠ .returned none := by
  have hfine : ∀ rn' ∈ τ, ∃ c, rn'.calls[k]? = some c ∧ c.req = req ∧ c.Fine servername server := by
    refine Trace.invariant ⟨_, hc, rfl, trivial⟩ (fun rn e rn' hrn hstep => ?_) h
    obtain ⟨c, hcall, hreq, hfine⟩ := hrn
    obtain ⟨c', hcall', hmoved⟩ := exists_call_of_step hstep.2 hcall
    rcases hmoved with rfl | ⟨t, -, hturn⟩
    · exact ⟨c', hcall', hreq, hfine⟩
    · exact ⟨c', hcall', hturn.req_eq.trans hreq, hfine.turned (hreq ▸ hstep.1) hturn⟩
  intro rn' hrn' c hc' hpc
  obtain ⟨d, hd, -, hfine⟩ := hfine rn' hrn'
  obtain rfl := Option.some.inj (hd.symm.trans hc')
  simp [Rpc.Fine, hpc] at hfine

/-- The network when the call has just been made. -/
def calledNet : Network ℕ ℕ ℕ ℕ ℕ ℕ :=
  ((oneCall.take 6).foldlM step makeNetwork).toOption.getD makeNetwork

theorem reliable_call_succeeds_one : ∃ τ : List (Network ℕ ℕ ℕ ℕ ℕ ℕ),
    (∃ rn' ∈ τ, ∃ c ∈ rn'.calls[0]?, c.pc = .returned (some 9)) ∧
    ∀ rn' ∈ τ, ∀ c, rn'.calls[0]? = some c → c.pc ≠ .returned none := by
  have hend : ∃ rn' ∈ ((answeredCall.drop 6).foldlM
      (stepIf Fault.disabled (fun rn _ => rn.Calm 0 1 5) step) calledNet).toOption,
      ∃ c ∈ rn'.calls[0]?, c.pc = .returned (some 9) := by
    decide +kernel
  obtain ⟨rn', hrn', hreturned⟩ := hend
  obtain ⟨τ, hrun⟩ := Trace.exists_of_stepIf (Cluster.eq_ok_of_mem_toOption hrn')
  have hcalled : calledNet.calls[0]? = some (Rpc.fresh ⟨0, "Raft.RequestVote", 3⟩) := by
    decide +kernel
  exact ⟨_, ⟨rn', List.mem_cons_self, hreturned⟩, reliable_call_succeeds hcalled hrun⟩

end Quiet

end Labrpc

end RaftKVDB
