import RaftKVDB.Labrpc.Outcome
import RaftKVDB.Raft.Commit

/-!
# The test bed

In the tests the servers run in one process, and a server that crashes cannot be stopped. The tester
does what it can to take it out of the world: it disables its ends, deletes it from the network,
makes a copy of its persister for the next instance to start from, and calls `Kill`, which stops its
timer and makes it a follower. The old instance goes on. It sends requests, until `Kill`, it goes on
with the requests it was working on, and it writes to the old persister.

This is the test bed as `kvraft/config.go` builds it: the network of labrpc, a Raft peer for each
instance that was ever started, and a tester that takes its steps one at a time, while everybody
else goes on. `Cluster` has none of this: there a crash is one step, a crashed server is gone, and
a call is requested, answered or lost.

An end is named by its owner, the owner's instance and the server it is connected to, so a new
instance has new names, as those that `randstring` makes are. A server object and a Raft peer are
named by server and instance.

The tester holds `cfg.mu` in `ShutdownServer` up to `Kill`, and while it makes the ends in
`StartServer`, so nobody enables an end in between. What the tests see to, and the configuration
does not, is that a server is started only when it is down, and that no end of a server that is down
is enabled (`Tended`).

A step of a peer is a stretch of code under `rf.mu`, as in `Cluster`, so the persister is copied
between two of them. The clerks, which have ends of their own, the service of the key/value server
and the end of a test are left out.

## Main definitions

* `Testbed.step`
* `Testbed.Tended` — the discipline of the tests
-/

namespace RaftKVDB

open Foundations Labrpc

/-- The arguments of Raft's remote calls. -/
inductive RaftArgs (n : ℕ) (α : Type*)
  | requestVote (args : RequestVoteArgs n)
  | appendEntries (args : AppendEntriesArgs n α)
  | installSnapShot (args : InstallSnapshotArgs n)

/-- The replies of Raft's remote calls. -/
inductive RaftReply
  | requestVote (reply : RequestVoteReply)
  | appendEntries (reply : AppendEntriesReply)
  | installSnapShot (reply : InstallSnapshotReply)

/-- What `sendRequestVote`, `sendAppendEntries` and `sendSnapShot` call. -/
def RaftArgs.svcMeth {n : ℕ} {α : Type*} : RaftArgs n α → String
  | .requestVote _ => "Raft.RequestVote"
  | .appendEntries _ => "Raft.AppendEntries"
  | .installSnapShot _ => "Raft.InstallSnapShot"

/-- An instance of a server: what runs between two crashes. -/
structure Instance (n : ℕ) where
  server : Fin n
  epoch : ℕ
  deriving DecidableEq

/-- The end of the instance `owner` that is connected to `server`. -/
structure EndName (n : ℕ) where
  owner : Instance n
  server : Fin n
  deriving DecidableEq

/-- The network between the peers. -/
abbrev RaftNet (n : ℕ) (α : Type*) :=
  Network (EndName n) (Fin n) (Instance n) (Instance n) (RaftArgs n α) RaftReply

/-- A remote call of a peer. -/
abbrev RaftRpc (n : ℕ) (α : Type*) :=
  Rpc (EndName n) (Fin n) (Instance n) (Instance n) (RaftArgs n α) RaftReply

/-- `MakeService` of a peer: those of its methods that are fit to be handlers. -/
def raftService {n : ℕ} (i : Instance n) : Labrpc.Service (Instance n) :=
  ⟨"Raft", i, ["AppendEntries", "InstallSnapShot", "RequestVote"]⟩

/-- `Kill`, which takes no lock. The timer that it stops is not part of the model: an election can
start at any time there. -/
def Raft.kill {n : ℕ} {α : Type*} (rf : Raft n α) : Raft n α := { rf with state := .follower }

/-- What the tester is about to do. -/
inductive Tester (n : ℕ)
  | idle
  /-- `ShutdownServer`: these ends are to be disabled. -/
  | disconnecting (p : Fin n) (todo : List (EndName n))
  | deleting (p : Fin n)
  | copying (p : Fin n)
  | killing (i : Instance n)
  /-- `StartServer`: ends to these servers are to be made. -/
  | wiring (p : Fin n) (todo : List (Fin n))
  | making (p : Fin n)
  | adding (p : Fin n)

/-- The test bed. `epoch` is the number of the instance that runs, or that will run next; `endnames`
says of which instance the ends in `cfg.endnames` are. A running instance and `cfg.saved` share the
persister, which is a field of the peer here; `saved` counts while the server is down. For each call
there is a note whether its handler has installed a snapshot and is about to hand it to the
application, with the reply that it has then, and whether the caller has dealt with the reply. -/
structure Testbed (n : ℕ) (α : Type*) where
  net : RaftNet n α
  rafts : Instance n → Raft n α
  epoch : Fin n → ℕ
  up : Fin n → Bool
  saved : Fin n → Persister n α
  endnames : Fin n → Option ℕ
  tester : Tester n
  notices : ℕ → Option RaftReply
  processed : ℕ → Bool

/-- What can happen next. -/
inductive TestbedEvent (n : ℕ) (α : Type*)
  | shutdownServer (p : Fin n)
  | startServer (p : Fin n)
  | goOn
  | enable (i j : Fin n) (enabled : Bool)
  | reliable (yes : Bool)
  | longReordering (yes : Bool)
  | turn (k : ℕ) (t : Labrpc.Turn RaftReply)
  | handle (k : ℕ)
  | notify (k : ℕ)
  | process (k : ℕ)
  | broadCastVote (i : Instance n)
  | start (i : Instance n) (command : Option α)
  | checkConsistency (i : Instance n) (peer : Fin n)
  | compact (i : Instance n) (cmdIndex : ℕ) (snapshot : List UInt8)
  | apply (i : Instance n)

namespace Testbed

variable {n : ℕ} {α : Type*}

/-- Before anything is started. -/
def init (n : ℕ) (α : Type*) : Testbed n α where
  net := Network.makeNetwork
  rafts i := Raft.make i.server makePersister
  epoch _ := 0
  up _ := false
  saved _ := makePersister
  endnames _ := none
  tester := .idle
  notices _ := none
  processed _ := false

/-- The instance of `p` that runs, or that will run next. -/
def current (T : Testbed n α) (p : Fin n) : Instance n := ⟨p, T.epoch p⟩

/-- The instance has been started. -/
def made (T : Testbed n α) (i : Instance n) : Bool :=
  decide (i.epoch < T.epoch i.server) || (decide (i.epoch = T.epoch i.server) && T.up i.server)

/-- One peer changed. -/
def setRaft (T : Testbed n α) (i : Instance n) (rf : Raft n α) : Testbed n α :=
  { T with rafts := Function.update T.rafts i rf }

/-! ### The tester -/

/-- What `disconnectUnlocked(p, cfg.All())` disables, in its order. -/
def endsOf (T : Testbed n α) (p : Fin n) : List (EndName n) :=
  ((T.endnames p).elim [] fun e => (List.finRange n).map fun j => ⟨⟨p, e⟩, j⟩) ++
    (List.finRange n).filterMap fun j => (T.endnames j).map fun e => ⟨⟨j, e⟩, p⟩

/-- The next step of `ShutdownServer` or `StartServer`. -/
def goOn (T : Testbed n α) : Except Fault (Testbed n α) :=
  match T.tester with
  | .idle => .error .disabled
  | .disconnecting p [] => .ok { T with tester := .deleting p }
  | .disconnecting p (e :: todo) =>
    .ok { T with net := T.net.enable e false, tester := .disconnecting p todo }
  | .deleting p => .ok { T with net := T.net.deleteServer p, tester := .copying p }
  | .copying p =>
    if T.up p then
      .ok { T with
        saved := Function.update T.saved p (T.rafts (T.current p)).persister
        epoch := Function.update T.epoch p (T.epoch p + 1)
        up := Function.update T.up p false
        tester := .killing (T.current p) }
    else .ok { T with tester := .idle }
  | .killing i => .ok { T.setRaft i (T.rafts i).kill with tester := .idle }
  | .wiring p [] => .ok { T with tester := .making p }
  | .wiring p (j :: todo) =>
    -- Nobody has the end yet, so `MakeEnd` and `Connect` are one step.
    (T.net.makeEnd ⟨T.current p, j⟩).map fun net =>
      { T with net := net.connect ⟨T.current p, j⟩ j, tester := .wiring p todo }
  | .making p =>
    .ok { T with
      rafts := Function.update T.rafts (T.current p) (Raft.make p (T.saved p))
      up := Function.update T.up p true
      tester := .adding p }
  | .adding p =>
    .ok { T with
      net := (T.net.addService (T.current p) (raftService (T.current p))).addServer p (T.current p)
      tester := .idle }

/-- `cfg.mu` is held by `ShutdownServer` or `StartServer`. -/
def locked (T : Testbed n α) : Bool :=
  match T.tester with
  | .disconnecting _ _ | .deleting _ | .copying _ | .wiring _ _ => true
  | .idle | .killing _ | .making _ | .adding _ => false

/-! ### The peers -/

/-- The method of call `k` returns. -/
def handlerReturn (T : Testbed n α) (k : ℕ) (reply : RaftReply) : Except Fault (Testbed n α) :=
  (T.net.turn k (.handlerReturn reply)).map fun net => { T with net := net }

/-- The method that a request calls, up to the end of its critical section: the new state, the
reply, and whether a snapshot has yet to be handed to the application. -/
def callMethod (rf : Raft n α) : RaftArgs n α → Option (Raft n α × RaftReply × Bool)
  | .requestVote args =>
    (rf.requestVote args).map fun (rf, reply) => (rf, .requestVote reply, false)
  | .appendEntries args =>
    (rf.appendEntries args).map fun (rf, reply) => (rf, .appendEntries reply, false)
  | .installSnapShot args =>
    (rf.installSnapShot args).map fun (rf, reply, installed) =>
      (rf, .installSnapShot reply, installed)

/-- The critical section of the handler of call `k`, at the receiver of its service. -/
def handle (T : Testbed n α) (k : ℕ) : Except Fault (Testbed n α) :=
  match T.net.calls[k]? with
  | none => .error .disabled
  | some c =>
    match c.handler, T.notices k with
    | .running _ service _, none =>
      (Cluster.orPanic (callMethod (T.rafts service.rcvr) c.req.args)).bind
        fun (rf, reply, installed) =>
          if installed then
            .ok { T.setRaft service.rcvr rf with
              notices := Function.update T.notices k (some reply) }
          else (T.setRaft service.rcvr rf).handlerReturn k reply
    | _, _ => .error .disabled

/-- The end of an `InstallSnapShot` handler that installed a snapshot. -/
def notify (T : Testbed n α) (k : ℕ) : Except Fault (Testbed n α) :=
  match T.net.calls[k]? with
  | none => .error .disabled
  | some c =>
    match c.handler, T.notices k, c.req.args with
    | .running _ service _, some reply, .installSnapShot args =>
      handlerReturn
        { T.setRaft service.rcvr
            ((T.rafts service.rcvr).notifyAppUseNewSnapShot args.snapshot) with
          notices := Function.update T.notices k none } k reply
    | _, _, _ => .error .disabled

/-- What the caller does with the reply of `server`. -/
def processReply (rf : Raft n α) (server : Fin n) :
    RaftArgs n α → RaftReply → Except Fault (Raft n α)
  | .requestVote _, .requestVote reply => .ok (rf.sendRequestVoteAndProcess reply)
  | .appendEntries args, .appendEntries reply =>
    Cluster.orPanic (rf.sendAppendEntriesAndProcess args server reply)
  | .installSnapShot args, .installSnapShot reply =>
    .ok (rf.sendSnapShotAndProcess args server reply)
  | _, _ => .error .disabled

/-- The goroutine of call `k` deals with the reply, at the instance that made the call. -/
def process (T : Testbed n α) (k : ℕ) : Except Fault (Testbed n α) :=
  match T.net.calls[k]? with
  | none => .error .disabled
  | some c =>
    match c.pc, T.processed k with
    | .returned (some reply), false =>
      (processReply (T.rafts c.req.endname.owner) c.req.endname.server c.req.args reply).map
        fun rf => { T.setRaft c.req.endname.owner rf with
          processed := Function.update T.processed k true }
    | _, _ => .error .disabled

/-- The instance `i` makes a call to each of the servers. -/
def sends (T : Testbed n α) (i : Instance n) (servers : List (Fin n)) (args : RaftArgs n α) :
    Testbed n α :=
  { T with net := { T.net with
      calls := T.net.calls ++ servers.map fun j => Rpc.fresh ⟨⟨i, j⟩, args.svcMeth, args⟩ } }

/-- What `checkConsistency` sends. -/
def requestArgs : Raft.Request n α → RaftArgs n α
  | .appendEntries args => .appendEntries args
  | .installSnapShot args => .installSnapShot args

/-- One event. An instance that was started goes on for ever, and so do its calls. -/
def step (T : Testbed n α) : TestbedEvent n α → Except Fault (Testbed n α)
  | .shutdownServer p =>
    match T.tester with
    | .idle => .ok { T with tester := .disconnecting p (T.endsOf p) }
    | _ => .error .disabled
  | .startServer p =>
    match T.tester with
    | .idle =>
      .ok { T with
        endnames := Function.update T.endnames p (some (T.epoch p))
        tester := .wiring p (List.finRange n) }
    | _ => .error .disabled
  | .goOn => T.goOn
  | .enable i j enabled =>
    match T.locked, T.endnames i with
    | false, some e => .ok { T with net := T.net.enable ⟨⟨i, e⟩, j⟩ enabled }
    | _, _ => .error .disabled
  | .reliable yes => .ok { T with net := { T.net with reliable := yes } }
  | .longReordering yes => .ok { T with net := { T.net with longReordering := yes } }
  | .turn k t =>
    match t with
    | .handlerReturn _ => .error .disabled
    | t => (T.net.turn k t).map fun net => { T with net := net }
  | .handle k => T.handle k
  | .notify k => T.notify k
  | .process k => T.process k
  | .broadCastVote i =>
    if T.made i then
      (Cluster.orPanic (T.rafts i).broadCastVote).map fun (rf, sent) =>
        sent.elim (T.setRaft i rf) fun args =>
          (T.setRaft i rf).sends i (Cluster.others i.server) (.requestVote args)
    else .error .disabled
  | .start i command =>
    if T.made i then .ok (T.setRaft i ((T.rafts i).start command).1) else .error .disabled
  | .checkConsistency i peer =>
    if T.made i && decide (i.server ≠ peer) then
      (Cluster.orPanic ((T.rafts i).checkConsistency peer)).map fun sent =>
        sent.elim T fun request => T.sends i [peer] (requestArgs request)
    else .error .disabled
  | .compact i cmdIndex snapshot =>
    if T.made i && Cluster.delivered (T.rafts i) cmdIndex then
      (Cluster.orPanic ((T.rafts i).compact cmdIndex snapshot)).map (T.setRaft i)
    else .error .disabled
  | .apply i =>
    if T.made i && decide ((T.rafts i).commitCh ≠ 0) then
      (Cluster.orPanic
        { T.rafts i with commitCh := (T.rafts i).commitCh - 1 }.applyLogEntryDaemon).map
          (T.setRaft i)
    else .error .disabled

/-- The discipline of the tests: a server is started when it is down, and no end of a server that
is down is enabled. -/
def Tended (T : Testbed n α) : TestbedEvent n α → Prop
  | .startServer p => T.up p = false
  | .enable i _ true => T.endnames i = some (T.epoch i)
  | _ => True

/-- A disciplined run of the test bed, the newest state first, whose steps meet the condition. -/
def Run (ok : Testbed n α → TestbedEvent n α → Prop) : List (Testbed n α) → Prop :=
  Trace (init n α) fun T e T' => ok T e ∧ T.Tended e ∧ T.step e = .ok T'

end Testbed

end RaftKVDB
