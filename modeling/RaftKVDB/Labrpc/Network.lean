import RaftKVDB.Foundations.Rounds
import RaftKVDB.Raft.Cluster

/-!
# The network of labrpc

A call goes through three goroutines. `Call` hands the request to the goroutine of `MakeNetwork`
and waits for the reply. `ProcessReq`, one goroutine for each request, looks up where the request
goes and sits between the caller and the handler: it may drop the request or the reply, it looks
every 100 ms whether the server is still there, and it looks once more when it has the reply. The
handler runs in a goroutine of its own, which nobody can stop. It hands its reply over on a channel
without a buffer, so `ProcessReq`, when it gives up, leaves a goroutine behind that takes it.

Meanwhile the tester takes servers away, puts others in their place and switches ends on and off.
Each such change is made under `rn.mu`, and so is each look of `ProcessReq`; between two looks
everything may change.

A `Turn` is a step of one call, up to its next lock or channel. What a handler replies is the
environment's choice. There is no time: a timer goes off when it likes, a random number is any
number, and `longDelays`, which only makes some delays longer, is left out.

Names of ends and servers, server objects (which are pointers in the source), receivers of
services, arguments and replies are arbitrary types.

## Main definitions

* `Labrpc.Network.step` — one turn of a call, or something the tester or a client does
* `Labrpc.Turned` — what a turn does, with what it needs
-/

namespace RaftKVDB

namespace Labrpc

open Foundations

/-- `reqMsg`. -/
structure ReqMsg (E A : Type*) where
  endname : E
  svcMeth : String
  args : A
  deriving DecidableEq

/-- `Service`: what it is called, the object, and the methods that are fit to be handlers. -/
structure Service (O : Type*) where
  name : String
  rcvr : O
  methods : List String
  deriving DecidableEq

/-- What `ProcessReq` found out with `ReadEndnameInfo`. It does not look again. -/
structure Route (N S : Type*) where
  servername : N
  server : S
  reliable : Bool
  longreordering : Bool
  deriving DecidableEq

/-- How far a request is, from the caller's point of view. -/
inductive Pc (N S R : Type*)
  /-- `Call`, at its `select`. -/
  | sending
  /-- The network has it, `ProcessReq` begins. -/
  | received
  /-- The server is there, the request may yet be dropped. -/
  | routed (route : Route N S)
  /-- In the loop that waits for the handler. -/
  | waiting (route : Route N S)
  /-- After the loop, with the reply or without, before the last look at the server. -/
  | checking (route : Route N S) (reply : Option R)
  /-- The reply is good, but may yet be dropped or delayed. -/
  | answering (route : Route N S) (reply : R)
  /-- `ProcessReq`, at a send on `replyCh`. -/
  | replying (reply : Option R)
  /-- A timer is to make the send on `replyCh`. -/
  | delayed (reply : Option R)
  /-- `Call` has returned: true and the reply, or false. -/
  | returned (reply : Option R)
  deriving DecidableEq

/-- How far the goroutine of the handler is. -/
inductive Handler (S O R : Type*)
  | none
  /-- Before `Server.dispatch`. -/
  | spawned (server : S)
  /-- In `Service.dispatch`, before the method is called. -/
  | dispatched (server : S) (service : Service O) (methname : String)
  /-- The method runs. -/
  | running (server : S) (service : Service O) (methname : String)
  /-- At the send on `ech`. -/
  | finished (server : S) (reply : R)
  | exited
  deriving DecidableEq

/-- A call with its goroutines. `draining` says that there is one that takes from `ech` what
`ProcessReq` no longer waits for. -/
structure Rpc (E N S O A R : Type*) where
  req : ReqMsg E A
  pc : Pc N S R
  handler : Handler S O R
  draining : Bool
  deriving DecidableEq

/-- A request at the `select` of `Call`. -/
def Rpc.fresh {E N S O A R : Type*} (req : ReqMsg E A) : Rpc E N S O A R :=
  ⟨req, .sending, .none, false⟩

/-- `Network`, with the services and counts of the server objects and all calls made so far.
`listening` says that the goroutine of `MakeNetwork` runs, and `done` that the channel is closed.
`count` is an `int32`, and wraps around. `executed` is bookkeeping: the calls whose methods were
called, in that order. -/
structure Network (E N S O A R : Type*) where
  reliable : Bool
  longReordering : Bool
  ends : E → Bool
  enabled : E → Bool
  servers : N → Option S
  connections : E → Option N
  done : Bool
  listening : Bool
  count : Int32
  services : S → String → Option (Service O)
  counts : S → ℕ
  calls : List (Rpc E N S O A R)
  executed : List ℕ

/-- A step of one call. -/
inductive Turn (R : Type*)
  | abandon
  | accept
  | readEndnameInfo
  | dropRequest
  | execute
  | dispatch
  | callMethod
  | handlerReturn (reply : R)
  | receive
  | timeOut
  | drain
  | check
  | dropReply
  | delayReply
  | sendReply
  | reply

/-- What can happen next. A call is named by its position in the list. -/
inductive NetEvent (E N S O A R : Type*)
  | makeEnd (endname : E)
  | addServer (servername : N) (rs : S)
  | deleteServer (servername : N)
  | connect (endname : E) (servername : N)
  | enable (endname : E) (enabled : Bool)
  | reliable (yes : Bool)
  | longReordering (yes : Bool)
  | cleanup
  | quit
  | addService (rs : S) (svc : Service O)
  | call (endname : E) (svcMeth : String) (args : A)
  | turn (k : ℕ) (t : Turn R)

/-- The name of the service and the name of the method: what is before and after the last dot.
Without a dot the slice expression panics. -/
def splitMethod (svcMeth : String) : Option (String × String) :=
  match svcMeth.toList.reverse.span (· ≠ '.') with
  | (_, []) => none
  | (method, _ :: service) =>
    some (String.ofList service.reverse, String.ofList method.reverse)

theorem splitMethod_append (service method : String) (h : '.' ∉ method.toList) :
    splitMethod (service ++ "." ++ method) = some (service, method) := by
  have hlist : (service ++ "." ++ method).toList.reverse =
      method.toList.reverse ++ '.' :: service.toList.reverse := by simp
  have hall : ∀ c ∈ method.toList.reverse, decide (c ≠ '.') = true := by
    intro c hc
    rw [decide_eq_true_eq]
    rintro rfl
    exact h (List.mem_reverse.mp hc)
  rw [splitMethod, hlist, List.span_eq_takeWhile_dropWhile, List.takeWhile_append_of_pos hall,
    List.dropWhile_append_of_pos hall]
  simp

namespace Network

variable {E N S O A R : Type*}

/-- `MakeNetwork`. -/
def makeNetwork : Network E N S O A R where
  reliable := true
  longReordering := false
  ends _ := false
  enabled _ := false
  servers _ := none
  connections _ := none
  done := false
  listening := true
  count := 0
  services _ _ := none
  counts _ := 0
  calls := []
  executed := []

section Tester

variable [DecidableEq E] [DecidableEq N] [DecidableEq S] (rn : Network E N S O A R)

/-- `MakeEnd`. It is fatal to use a name twice. -/
def makeEnd (endname : E) : Except Fault (Network E N S O A R) :=
  if rn.ends endname then .error .panic
  else
    .ok { rn with
      ends := Function.update rn.ends endname true
      enabled := Function.update rn.enabled endname false
      connections := Function.update rn.connections endname none }

/-- `AddServer`. -/
def addServer (servername : N) (rs : S) : Network E N S O A R :=
  { rn with servers := Function.update rn.servers servername (some rs) }

/-- `DeleteServer`. -/
def deleteServer (servername : N) : Network E N S O A R :=
  { rn with servers := Function.update rn.servers servername none }

/-- `Connect`. -/
def connect (endname : E) (servername : N) : Network E N S O A R :=
  { rn with connections := Function.update rn.connections endname (some servername) }

/-- `Enable`. -/
def enable (endname : E) (enabled : Bool) : Network E N S O A R :=
  { rn with enabled := Function.update rn.enabled endname enabled }

/-- `Cleanup`. Closing a closed channel panics. -/
def cleanup : Except Fault (Network E N S O A R) :=
  if rn.done then .error .panic else .ok { rn with done := true }

/-- The goroutine of `MakeNetwork` returns when the network is cleaned up. -/
def quit : Except Fault (Network E N S O A R) :=
  if rn.done && rn.listening then .ok { rn with listening := false } else .error .disabled

/-- `AddService`. -/
def addService (rs : S) (svc : Service O) : Network E N S O A R :=
  { rn with
    services := Function.update rn.services rs
      (Function.update (rn.services rs) svc.name (some svc)) }

end Tester

/-- `Call`, up to its `select`. There is an end to call from. -/
def call (rn : Network E N S O A R) (endname : E) (svcMeth : String) (args : A) :
    Except Fault (Network E N S O A R) :=
  if rn.ends endname then
    .ok { rn with calls := rn.calls ++ [Rpc.fresh ⟨endname, svcMeth, args⟩] }
  else .error .disabled

/-- `ReadEndnameInfo`: whether the end is enabled, and which server it is connected to. -/
def readEndnameInfo (rn : Network E N S O A R) (endname : E) :
    Bool × Option N × Option S × Bool × Bool :=
  let servername := rn.connections endname
  (rn.enabled endname, servername, servername.bind rn.servers, rn.reliable, rn.longReordering)

/-- `IsServerDead`. -/
def isServerDead [DecidableEq S] (rn : Network E N S O A R) (endname : E) (servername : N)
    (server : S) : Bool :=
  !rn.enabled endname || decide (rn.servers servername ≠ some server)

/-- The beginning of `ProcessReq`: where it goes from what it read. -/
def route (rn : Network E N S O A R) (endname : E) : Pc N S R :=
  match rn.readEndnameInfo endname with
  | (true, some servername, some server, reliable, longreordering) =>
    .routed ⟨servername, server, reliable, longreordering⟩
  | _ => .delayed none

/-- `Server.dispatch`, under the lock of the server: the service and the name of the method. An
unknown service is fatal. -/
def dispatch (rn : Network E N S O A R) (server : S) (svcMeth : String) :
    Except Fault (Service O × String) :=
  match splitMethod svcMeth with
  | none => .error .panic
  | some (serviceName, methodName) =>
    match rn.services server serviceName with
    | none => .error .panic
    | some service => .ok (service, methodName)

/-- A turn of the call `c`. -/
def rpcTurn [DecidableEq S] (rn : Network E N S O A R) (c : Rpc E N S O A R) :
    Turn R → Except Fault (Rpc E N S O A R)
  | .abandon =>
    match c.pc with
    | .sending => if rn.done then .ok { c with pc := .returned none } else .error .disabled
    | _ => .error .disabled
  | .accept =>
    match c.pc with
    | .sending => if rn.listening then .ok { c with pc := .received } else .error .disabled
    | _ => .error .disabled
  | .readEndnameInfo =>
    match c.pc with
    | .received => .ok { c with pc := rn.route c.req.endname }
    | _ => .error .disabled
  | .dropRequest =>
    match c.pc with
    | .routed route =>
      if route.reliable then .error .disabled else .ok { c with pc := .replying none }
    | _ => .error .disabled
  | .execute =>
    match c.pc with
    | .routed route => .ok { c with pc := .waiting route, handler := .spawned route.server }
    | _ => .error .disabled
  | .dispatch =>
    match c.handler with
    | .spawned server =>
      (rn.dispatch server c.req.svcMeth).map fun (service, methname) =>
        { c with handler := .dispatched server service methname }
    | _ => .error .disabled
  | .callMethod =>
    match c.handler with
    | .dispatched server service methname =>
      -- An unknown method is fatal.
      if methname ∈ service.methods then
        .ok { c with handler := .running server service methname }
      else .error .panic
    | _ => .error .disabled
  | .handlerReturn reply =>
    match c.handler with
    | .running server _ _ => .ok { c with handler := .finished server reply }
    | _ => .error .disabled
  | .receive =>
    match c.pc, c.handler with
    | .waiting route, .finished _ reply =>
      .ok { c with pc := .checking route (some reply), handler := .exited }
    | _, _ => .error .disabled
  | .timeOut =>
    match c.pc with
    | .waiting route =>
      if rn.isServerDead c.req.endname route.servername route.server then
        .ok { c with pc := .checking route none, draining := true }
      else .ok c
    | _ => .error .disabled
  | .drain =>
    match c.handler with
    | .finished _ _ =>
      if c.draining then .ok { c with handler := .exited, draining := false }
      else .error .disabled
    | _ => .error .disabled
  | .check =>
    match c.pc with
    | .checking route (some reply) =>
      if rn.isServerDead c.req.endname route.servername route.server then
        .ok { c with pc := .replying none }
      else .ok { c with pc := .answering route reply }
    | .checking _ none => .ok { c with pc := .replying none }
    | _ => .error .disabled
  | .dropReply =>
    match c.pc with
    | .answering route _ =>
      if route.reliable then .error .disabled else .ok { c with pc := .replying none }
    | _ => .error .disabled
  | .delayReply =>
    match c.pc with
    | .answering route reply =>
      if route.longreordering then .ok { c with pc := .delayed (some reply) }
      else .error .disabled
    | _ => .error .disabled
  | .sendReply =>
    match c.pc with
    | .answering _ reply => .ok { c with pc := .replying (some reply) }
    | _ => .error .disabled
  | .reply =>
    match c.pc with
    | .replying reply => .ok { c with pc := .returned reply }
    | .delayed reply => .ok { c with pc := .returned reply }
    | _ => .error .disabled

/-- The counts go up when the network takes a request and when a server gets it. -/
def counted [DecidableEq S] (rn : Network E N S O A R) (k : ℕ) (c : Rpc E N S O A R) :
    Turn R → Network E N S O A R
  | .accept => { rn with count := rn.count + 1 }
  | .callMethod => { rn with executed := rn.executed ++ [k] }
  | .dispatch =>
    match c.handler with
    | .spawned server =>
      { rn with counts := Function.update rn.counts server (rn.counts server + 1) }
    | _ => rn
  | _ => rn

/-- `GetTotalCount`. -/
def getTotalCount (rn : Network E N S O A R) : ℤ := rn.count.toInt

/-- A turn of the call at position `k`. -/
def turn [DecidableEq S] (rn : Network E N S O A R) (k : ℕ) (t : Turn R) :
    Except Fault (Network E N S O A R) :=
  match rn.calls[k]? with
  | none => .error .disabled
  | some c => (rn.rpcTurn c t).map fun c' => { rn.counted k c t with calls := rn.calls.set k c' }

/-! ### What a turn does -/

variable {rn rn' : Network E N S O A R} {c c' : Rpc E N S O A R}

/-- The two ends of a look-up. -/
theorem route_cases (rn : Network E N S O A R) (endname : E) :
    (∃ servername server, rn.enabled endname = true ∧
      rn.connections endname = some servername ∧ rn.servers servername = some server ∧
      rn.route endname =
        (.routed ⟨servername, server, rn.reliable, rn.longReordering⟩ : Pc N S R)) ∨
    ((rn.enabled endname = false ∨ rn.connections endname = none ∨
      ∃ servername, rn.connections endname = some servername ∧ rn.servers servername = none) ∧
      rn.route endname = (.delayed none : Pc N S R)) := by
  cases henabled : rn.enabled endname with
  | false => exact .inr ⟨.inl rfl, by simp [route, readEndnameInfo, henabled]⟩
  | true =>
    cases hconn : rn.connections endname with
    | none => exact .inr ⟨.inr (.inl rfl), by simp [route, readEndnameInfo, hconn]⟩
    | some servername =>
      cases hserver : rn.servers servername with
      | none =>
        exact .inr ⟨.inr (.inr ⟨servername, rfl, hserver⟩),
          by simp [route, readEndnameInfo, hconn, hserver]⟩
      | some server =>
        exact .inl ⟨servername, server, rfl, rfl, hserver,
          by simp [route, readEndnameInfo, henabled, hconn, hserver]⟩

/-- `Server.dispatch` finds the service, or the program ends. -/
theorem dispatch_cases (rn : Network E N S O A R) (server : S) (svcMeth : String) :
    (∃ service methname, rn.dispatch server svcMeth = .ok (service, methname)) ∨
      rn.dispatch server svcMeth = .error .panic := by
  rw [dispatch]
  split
  · exact .inr rfl
  · split
    · exact .inr rfl
    · exact .inl ⟨_, _, rfl⟩

variable [DecidableEq S]

theorem isServerDead_eq_false {endname : E} {servername : N} {server : S} :
    rn.isServerDead endname servername server = false ↔
      rn.enabled endname = true ∧ rn.servers servername = some server := by
  simp [isServerDead]

/-- The turns of a call, each with what it needs. -/
inductive Turned (rn : Network E N S O A R) (c : Rpc E N S O A R) :
    Turn R → Rpc E N S O A R → Prop
  | abandon (hpc : c.pc = .sending) (hdone : rn.done = true) :
      Turned rn c .abandon { c with pc := .returned none }
  | accept (hpc : c.pc = .sending) (hlistening : rn.listening = true) :
      Turned rn c .accept { c with pc := .received }
  | found {servername : N} {server : S} (hpc : c.pc = .received)
      (henabled : rn.enabled c.req.endname = true)
      (hconn : rn.connections c.req.endname = some servername)
      (hserver : rn.servers servername = some server) :
      Turned rn c .readEndnameInfo
        { c with pc := .routed ⟨servername, server, rn.reliable, rn.longReordering⟩ }
  | lost (hpc : c.pc = .received)
      (hnone : rn.enabled c.req.endname = false ∨ rn.connections c.req.endname = none ∨
        ∃ servername, rn.connections c.req.endname = some servername ∧
          rn.servers servername = none) :
      Turned rn c .readEndnameInfo { c with pc := .delayed none }
  | dropRequest {route : Route N S} (hpc : c.pc = .routed route) (hrel : route.reliable = false) :
      Turned rn c .dropRequest { c with pc := .replying none }
  | execute {route : Route N S} (hpc : c.pc = .routed route) :
      Turned rn c .execute { c with pc := .waiting route, handler := .spawned route.server }
  | dispatch {server : S} {service : Service O} {methname : String}
      (hhandler : c.handler = .spawned server)
      (hservice : rn.dispatch server c.req.svcMeth = .ok (service, methname)) :
      Turned rn c .dispatch { c with handler := .dispatched server service methname }
  | callMethod {server : S} {service : Service O} {methname : String}
      (hhandler : c.handler = .dispatched server service methname)
      (hmethod : methname ∈ service.methods) :
      Turned rn c .callMethod { c with handler := .running server service methname }
  | handlerReturn {server : S} {service : Service O} {methname : String} (reply : R)
      (hhandler : c.handler = .running server service methname) :
      Turned rn c (.handlerReturn reply) { c with handler := .finished server reply }
  | receive {route : Route N S} {server : S} {reply : R} (hpc : c.pc = .waiting route)
      (hhandler : c.handler = .finished server reply) :
      Turned rn c .receive { c with pc := .checking route (some reply), handler := .exited }
  | giveUp {route : Route N S} (hpc : c.pc = .waiting route)
      (hdead : rn.isServerDead c.req.endname route.servername route.server = true) :
      Turned rn c .timeOut { c with pc := .checking route none, draining := true }
  | goOn {route : Route N S} (hpc : c.pc = .waiting route)
      (halive : rn.isServerDead c.req.endname route.servername route.server = false) :
      Turned rn c .timeOut c
  | drain {server : S} {reply : R} (hhandler : c.handler = .finished server reply)
      (hdraining : c.draining = true) :
      Turned rn c .drain { c with handler := .exited, draining := false }
  | pass {route : Route N S} {reply : R} (hpc : c.pc = .checking route (some reply))
      (halive : rn.isServerDead c.req.endname route.servername route.server = false) :
      Turned rn c .check { c with pc := .answering route reply }
  | fail {route : Route N S} {reply : Option R} (hpc : c.pc = .checking route reply)
      (hdead : reply = none ∨
        rn.isServerDead c.req.endname route.servername route.server = true) :
      Turned rn c .check { c with pc := .replying none }
  | dropReply {route : Route N S} {reply : R} (hpc : c.pc = .answering route reply)
      (hrel : route.reliable = false) :
      Turned rn c .dropReply { c with pc := .replying none }
  | delayReply {route : Route N S} {reply : R} (hpc : c.pc = .answering route reply)
      (hlong : route.longreordering = true) :
      Turned rn c .delayReply { c with pc := .delayed (some reply) }
  | sendReply {route : Route N S} {reply : R} (hpc : c.pc = .answering route reply) :
      Turned rn c .sendReply { c with pc := .replying (some reply) }
  | reply {reply : Option R} (hpc : c.pc = .replying reply ∨ c.pc = .delayed reply) :
      Turned rn c .reply { c with pc := .returned reply }

/-- **What a turn does.** -/
theorem turned_of_rpcTurn {t : Turn R} (h : rn.rpcTurn c t = .ok c') : Turned rn c t c' := by
  cases t with
  | abandon =>
    simp only [rpcTurn] at h
    split at h
    · obtain ⟨hdone, rfl⟩ := ite_ok_eq_ok.mp h
      exact .abandon ‹_› hdone
    · cases h
  | accept =>
    simp only [rpcTurn] at h
    split at h
    · obtain ⟨hl, rfl⟩ := ite_ok_eq_ok.mp h
      exact .accept ‹_› hl
    · cases h
  | readEndnameInfo =>
    simp only [rpcTurn] at h
    split at h
    · obtain rfl := Except.ok.inj h
      rcases rn.route_cases c.req.endname with
        ⟨servername, server, henabled, hconn, hserver, hroute⟩ | ⟨hnone, hroute⟩
      · rw [hroute]
        exact .found ‹_› henabled hconn hserver
      · rw [hroute]
        exact .lost ‹_› hnone
    · cases h
  | dropRequest =>
    simp only [rpcTurn] at h
    split at h
    · split at h
      · cases h
      · obtain rfl := Except.ok.inj h
        exact .dropRequest ‹_› (Bool.eq_false_of_not_eq_true ‹_›)
    · cases h
  | execute =>
    simp only [rpcTurn] at h
    split at h
    · obtain rfl := Except.ok.inj h
      exact .execute ‹_›
    · cases h
  | dispatch =>
    simp only [rpcTurn] at h
    split at h
    · obtain ⟨⟨service, methname⟩, hservice, rfl⟩ := map_eq_ok.mp h
      exact .dispatch ‹_› hservice
    · cases h
  | callMethod =>
    simp only [rpcTurn] at h
    split at h
    · obtain ⟨hmethod, rfl⟩ := ite_ok_eq_ok.mp h
      exact .callMethod ‹_› hmethod
    · cases h
  | handlerReturn reply =>
    simp only [rpcTurn] at h
    split at h
    · obtain rfl := Except.ok.inj h
      exact .handlerReturn reply ‹_›
    · cases h
  | receive =>
    simp only [rpcTurn] at h
    split at h
    · obtain rfl := Except.ok.inj h
      exact .receive ‹_› ‹_›
    · cases h
  | timeOut =>
    simp only [rpcTurn] at h
    split at h
    · split at h
      · obtain rfl := Except.ok.inj h
        exact .giveUp ‹_› ‹_›
      · obtain rfl := Except.ok.inj h
        exact .goOn ‹_› (Bool.eq_false_of_not_eq_true ‹_›)
    · cases h
  | drain =>
    simp only [rpcTurn] at h
    split at h
    · obtain ⟨hdraining, rfl⟩ := ite_ok_eq_ok.mp h
      exact .drain ‹_› hdraining
    · cases h
  | check =>
    simp only [rpcTurn] at h
    split at h
    · split at h
      · obtain rfl := Except.ok.inj h
        exact .fail ‹_› (.inr ‹_›)
      · obtain rfl := Except.ok.inj h
        exact .pass ‹_› (Bool.eq_false_of_not_eq_true ‹_›)
    · obtain rfl := Except.ok.inj h
      exact .fail ‹_› (.inl rfl)
    · cases h
  | dropReply =>
    simp only [rpcTurn] at h
    split at h
    · split at h
      · cases h
      · obtain rfl := Except.ok.inj h
        exact .dropReply ‹_› (Bool.eq_false_of_not_eq_true ‹_›)
    · cases h
  | delayReply =>
    simp only [rpcTurn] at h
    split at h
    · obtain ⟨hlong, rfl⟩ := ite_ok_eq_ok.mp h
      exact .delayReply ‹_› hlong
    · cases h
  | sendReply =>
    simp only [rpcTurn] at h
    split at h
    · obtain rfl := Except.ok.inj h
      exact .sendReply ‹_›
    · cases h
  | reply =>
    simp only [rpcTurn] at h
    split at h
    · obtain rfl := Except.ok.inj h
      exact .reply (.inl ‹_›)
    · obtain rfl := Except.ok.inj h
      exact .reply (.inr ‹_›)
    · cases h

/-- A turn that has what it needs can be taken. -/
theorem rpcTurn_of_turned {t : Turn R} (h : Turned rn c t c') : rn.rpcTurn c t = .ok c' := by
  cases h with
  | found hpc henabled hconn hserver =>
    simp [rpcTurn, hpc, route, readEndnameInfo, henabled, hconn, hserver]
  | lost hpc hnone =>
    rcases hnone with henabled | hconn | ⟨servername, hconn, hserver⟩
    · simp [rpcTurn, hpc, route, readEndnameInfo, henabled]
    · simp [rpcTurn, hpc, route, readEndnameInfo, hconn]
    · simp [rpcTurn, hpc, route, readEndnameInfo, hconn, hserver]
  | @fail route reply hpc hdead =>
    cases reply with
    | none => simp [rpcTurn, hpc]
    | some reply => simp [rpcTurn, hpc, hdead.resolve_left (by simp)]
  | reply hpc =>
    rcases hpc with hpc | hpc
    · simp [rpcTurn, hpc]
    · simp [rpcTurn, hpc]
  | dispatch hhandler hservice => simp [rpcTurn, hhandler, hservice, Except.map]
  | abandon h₁ h₂ => simp [rpcTurn, h₁, h₂]
  | accept h₁ h₂ => simp [rpcTurn, h₁, h₂]
  | dropRequest h₁ h₂ => simp [rpcTurn, h₁, h₂]
  | execute h₁ => simp [rpcTurn, h₁]
  | callMethod h₁ h₂ => simp [rpcTurn, h₁, h₂]
  | handlerReturn reply h₁ => simp [rpcTurn, h₁]
  | receive h₁ h₂ => simp [rpcTurn, h₁, h₂]
  | giveUp h₁ h₂ => simp [rpcTurn, h₁, h₂]
  | goOn h₁ h₂ => simp [rpcTurn, h₁, h₂]
  | drain h₁ h₂ => simp [rpcTurn, h₁, h₂]
  | pass h₁ h₂ => simp [rpcTurn, h₁, h₂]
  | dropReply h₁ h₂ => simp [rpcTurn, h₁, h₂]
  | delayReply h₁ h₂ => simp [rpcTurn, h₁, h₂]
  | sendReply h₁ => simp [rpcTurn, h₁]

variable [DecidableEq E] [DecidableEq N]

/-- One event. -/
def step (rn : Network E N S O A R) : NetEvent E N S O A R → Except Fault (Network E N S O A R)
  | .makeEnd endname => rn.makeEnd endname
  | .addServer servername rs => .ok (rn.addServer servername rs)
  | .deleteServer servername => .ok (rn.deleteServer servername)
  | .connect endname servername => .ok (rn.connect endname servername)
  | .enable endname enabled => .ok (rn.enable endname enabled)
  | .reliable yes => .ok { rn with reliable := yes }
  | .longReordering yes => .ok { rn with longReordering := yes }
  | .cleanup => rn.cleanup
  | .quit => rn.quit
  | .addService rs svc => .ok (rn.addService rs svc)
  | .call endname svcMeth args => rn.call endname svcMeth args
  | .turn k t => rn.turn k t

/-- A run of the network, the newest state first. -/
def Run : List (Network E N S O A R) → Prop :=
  Trace makeNetwork fun rn e rn' => rn.step e = .ok rn'

/-! ### What a step does to the calls -/

variable {e : NetEvent E N S O A R} {k : ℕ} {τ : List (Network E N S O A R)}

/-- The tester leaves the calls and the statistics alone, and does not open `done` again. -/
structure Aside (rn rn' : Network E N S O A R) : Prop where
  calls : rn'.calls = rn.calls
  count : rn'.count = rn.count
  counts : rn'.counts = rn.counts
  executed : rn'.executed = rn.executed
  done : rn.done = true → rn'.done = true
  listening : rn'.listening = rn.listening ∨ rn'.listening = false ∧ rn'.done = true

/-- A step is a turn of a call, a new call, or the tester's. -/
theorem step_cases (h : rn.step e = .ok rn') :
    (∃ k t c c', e = .turn k t ∧ rn.calls[k]? = some c ∧ Turned rn c t c' ∧
      rn' = { rn.counted k c t with calls := rn.calls.set k c' }) ∨
    (∃ req, rn' = { rn with calls := rn.calls ++ [Rpc.fresh req] }) ∨ rn.Aside rn' := by
  cases e with
  | makeEnd endname =>
    simp only [step, makeEnd] at h
    split at h
    · cases h
    · obtain rfl := Except.ok.inj h
      exact .inr (.inr ⟨rfl, rfl, rfl, rfl, id, .inl rfl⟩)
  | addServer servername rs =>
    obtain rfl := Except.ok.inj h
    exact .inr (.inr ⟨rfl, rfl, rfl, rfl, id, .inl rfl⟩)
  | deleteServer servername =>
    obtain rfl := Except.ok.inj h
    exact .inr (.inr ⟨rfl, rfl, rfl, rfl, id, .inl rfl⟩)
  | connect endname servername =>
    obtain rfl := Except.ok.inj h
    exact .inr (.inr ⟨rfl, rfl, rfl, rfl, id, .inl rfl⟩)
  | enable endname enabled =>
    obtain rfl := Except.ok.inj h
    exact .inr (.inr ⟨rfl, rfl, rfl, rfl, id, .inl rfl⟩)
  | reliable yes =>
    obtain rfl := Except.ok.inj h
    exact .inr (.inr ⟨rfl, rfl, rfl, rfl, id, .inl rfl⟩)
  | longReordering yes =>
    obtain rfl := Except.ok.inj h
    exact .inr (.inr ⟨rfl, rfl, rfl, rfl, id, .inl rfl⟩)
  | cleanup =>
    simp only [step, cleanup] at h
    split at h
    · cases h
    · obtain rfl := Except.ok.inj h
      exact .inr (.inr ⟨rfl, rfl, rfl, rfl, fun _ => rfl, .inl rfl⟩)
  | quit =>
    obtain ⟨hboth, rfl⟩ := ite_ok_eq_ok.mp h
    have hdone : rn.done = true := (Bool.and_eq_true_iff.mp hboth).1
    exact .inr (.inr ⟨rfl, rfl, rfl, rfl, id, .inr ⟨rfl, hdone⟩⟩)
  | addService rs svc =>
    obtain rfl := Except.ok.inj h
    exact .inr (.inr ⟨rfl, rfl, rfl, rfl, id, .inl rfl⟩)
  | call endname svcMeth args =>
    obtain ⟨-, rfl⟩ := ite_ok_eq_ok.mp h
    exact .inr (.inl ⟨⟨endname, svcMeth, args⟩, rfl⟩)
  | turn k t =>
    simp only [step, turn] at h
    split at h
    · cases h
    next c hc =>
    obtain ⟨c', hturn, rfl⟩ := map_eq_ok.mp h
    exact .inl ⟨k, t, c, c', rfl, hc, turned_of_rpcTurn hturn, rfl⟩

/-- Where a call of the next state comes from. -/
theorem call_of_step (h : rn.step e = .ok rn') (hc' : rn'.calls[k]? = some c') :
    rn.calls[k]? = some c' ∨
    (∃ c t, e = .turn k t ∧ rn.calls[k]? = some c ∧ Turned rn c t c') ∨
    (rn.calls[k]? = none ∧ ∃ req, c' = Rpc.fresh req) := by
  rcases step_cases h with ⟨j, t, c, d, rfl, hc, hturn, rfl⟩ | ⟨req, rfl⟩ | haside
  · rw [List.getElem?_set] at hc'
    split at hc'
    next heq =>
      subst heq
      split at hc'
      · obtain rfl := Option.some.inj hc'
        exact .inr (.inl ⟨c, t, rfl, hc, hturn⟩)
      · cases hc'
    · exact .inl hc'
  · rcases lt_trichotomy k rn.calls.length with hlt | rfl | hgt
    · exact .inl (by rwa [List.getElem?_append_left hlt] at hc')
    · rw [List.getElem?_append_right (Nat.le_refl _), Nat.sub_self] at hc'
      exact .inr (.inr ⟨List.getElem?_eq_none (Nat.le_refl _), req, (Option.some.inj hc').symm⟩)
    · rw [List.getElem?_eq_none (by simp; omega)] at hc'
      cases hc'
  · exact .inl (by rwa [haside.calls] at hc')

/-- What has become of a call in the next state. -/
theorem exists_call_of_step (h : rn.step e = .ok rn') (hc : rn.calls[k]? = some c) :
    ∃ c', rn'.calls[k]? = some c' ∧ (c' = c ∨ ∃ t, e = .turn k t ∧ Turned rn c t c') := by
  have hlt : k < rn.calls.length := (List.getElem?_eq_some_iff.mp hc).1
  rcases step_cases h with ⟨j, t, d, d', rfl, hd, hturn, rfl⟩ | ⟨req, rfl⟩ | haside
  · rcases eq_or_ne j k with rfl | hne
    · obtain rfl := Option.some.inj (hc.symm.trans hd)
      exact ⟨d', by simp [hlt], .inr ⟨t, rfl, hturn⟩⟩
    · exact ⟨c, by simpa [hne] using hc, .inl rfl⟩
  · exact ⟨c, by rwa [List.getElem?_append_left hlt], .inl rfl⟩
  · exact ⟨c, by rwa [haside.calls], .inl rfl⟩

/-- **An invariant of calls** is what a new call has and a turn keeps. -/
theorem Run.forall_calls {P : Rpc E N S O A R → Prop} (hfresh : ∀ req, P (Rpc.fresh req))
    (hturn : ∀ (rn : Network E N S O A R) c t c', P c → Turned rn c t c' → P c') (h : Run τ) :
    ∀ rn ∈ τ, ∀ (k : ℕ) c, rn.calls[k]? = some c → P c := by
  refine Trace.invariant
    (P := fun rn : Network E N S O A R => ∀ (k : ℕ) c, rn.calls[k]? = some c → P c)
    (fun k c hc => by simp [makeNetwork] at hc) (fun rn e rn' hP hstep k c' hc' => ?_) h
  rcases call_of_step hstep hc' with hc | ⟨c, t, -, hc, hmoved⟩ | ⟨-, req, rfl⟩
  · exact hP k c' hc
  · exact hturn rn c t c' (hP k c hc) hmoved
  · exact hfresh req

end Network

end Labrpc

end RaftKVDB
