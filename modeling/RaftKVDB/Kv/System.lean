import RaftKVDB.Kv.Delivery
import RaftKVDB.Kv.Service
import RaftKVDB.Raft.Commit

/-!
# The whole system

The clerks, the key/value servers, and under each of them its Raft peer: what `Kv/Service` says of
an ideal log is here what the peers of `Raft/Cluster` do. A process has three kinds of goroutines
that meet at two locks and at `applyCh`. The handlers of Raft take `rf.mu`; the handlers of `Get`
and `PutAppend` take `kv.mu`, and `rf.mu` when they ask Raft; the apply daemon holds `rf.mu` while
it sends one command after the other; a handler of `InstallSnapShot` sends its snapshot when it has
given `rf.mu` back; and `enactDaemon` takes from `applyCh`, which has no buffer, one message at a
time, and deals with it under `kv.mu`.

Of the clerks and servers, which are a `Service`, the fields `log`, `started` and `consumed` and the
lengths in `history` are bookkeeping here: they record in which order commands were first dealt with
and how far each server is. No step looks at them.

## Main definitions

* `System.step` — one step of a goroutine, a message, a crash
* `System.Ok` — what a run must meet for the results below: no leader takes a false success for
  true, and no snapshot is overtaken on its way to the store
-/

namespace RaftKVDB

open Foundations

variable {n : ℕ}

/-! ### The state -/

/-- What `enactDaemon` has received. The index it goes up to is that of the command; with a snapshot
it is bookkeeping. -/
structure Mail where
  index : ℕ
  msg : ApplyMsg Op

/-- The processes and the network. -/
structure System (n : ℕ) where
  /-- The Raft peers and the calls between them. -/
  net : Cluster n Op
  /-- The clerks, their calls, and the key/value servers. -/
  app : Service n
  /-- The index and the end of the loop of each apply daemon that is awake. -/
  daemon : Fin n → Option (ℕ × ℕ)
  /-- What each `enactDaemon` has received and not dealt with. -/
  inbox : Fin n → Option Mail
  /-- The `CommandIndex` of the command that each server has dealt with last. -/
  current : Fin n → ℕ
  /-- The calls of `Compact` that have not been run yet. -/
  compactions : Fin n → List Notice

/-- What can happen next. -/
inductive SystemEvent (n : ℕ)
  | invoke (c : ℕ) (request : Request)
  | send (c : ℕ)
  | receive (c : ℕ)
  | giveUp (c : ℕ)
  | serve (k : ℕ)
  | turn (k : ℕ) (timeOut : Bool)
  | raft (e : Event n Op)
  | wake (p : Fin n)
  | advance (p : Fin n)
  | notify (k : ℕ)
  | deal (p : Fin n)
  | finishApply (p : Fin n) (compact : Bool)
  | compact (p : Fin n) (k : ℕ)
  | restart (p : Fin n)

namespace System

/-- Nothing has happened. -/
def init (n : ℕ) [NeZero n] : System n where
  net := Cluster.init n Op
  app := Service.init n
  daemon _ := none
  inbox _ := none
  current _ := 0
  compactions _ := []

/-! ### The handlers of Raft -/

/-- The peer whose `rf.mu` an event takes. -/
def locks (net : Cluster n Op) : Event n Op → Option (Fin n)
  | .broadCastVote p | .checkConsistency p _ => some p
  | .handle k => (net.calls[k]?).map Call.server
  | .process k => (net.calls[k]?).map Call.caller
  | _ => none

/-- Whether the handler of a call has still to send a snapshot to its own application. -/
def notifies (c : Call n Op) : Bool :=
  match c.body with
  | .notifying _ _ _ => true
  | _ => false

/-- What the peers do among themselves. A message may be lost; a handler that has a snapshot to send
is not one. -/
def amongPeers (net : Cluster n Op) : Event n Op → Bool
  | .broadCastVote _ | .checkConsistency _ _ | .handle _ | .process _ => true
  | .lose k => !(net.calls[k]?).any notifies
  | _ => false

/-- An event of the peers, which waits for `rf.mu`. -/
def raft (σ : System n) (e : Event n Op) : Except Fault (System n) :=
  if amongPeers σ.net e && (locks σ.net e).all fun p => (σ.daemon p).isNone then
    (σ.net.step e).map fun net => { σ with net := net }
  else .error .disabled

/-! ### The handlers of `Get` and `PutAppend` -/

/-- One turn of the handler of call `k`. `GetState` and `Start` take `rf.mu`. -/
def turn (σ : System n) (k : ℕ) (timeOut : Bool) : Except Fault (System n) :=
  match σ.app.calls[k]? with
  | none => .error .disabled
  | some call =>
    let rf := σ.net.peers call.server
    match call.pc with
    | some .getState =>
      if (σ.daemon call.server).isSome then .error .disabled
      else (σ.app.turn k (.raftState (decide (rf.state = .leader)))).map fun app =>
        { σ with app := app }
    | some .start =>
      if (σ.daemon call.server).isSome then .error .disabled
      else
        let (rf, index, _, isLeader) := rf.start (some call.args.operation)
        (σ.app.turn k (.raftStart (if isLeader then some index.toNat else none))).map fun app =>
          { σ with app := app, net := σ.net.setPeer call.server rf }
    | _ => (σ.app.turn k (if timeOut then .timeOut else .run)).map fun app => { σ with app := app }

/-! ### From the log to the store -/

/-- Whether `enactDaemon` is at `<-kv.applyCh`. -/
def ready (σ : System n) (p : Fin n) : Bool :=
  (σ.inbox p).isNone && (σ.app.servers p).sending.isNone

/-- `enactDaemon` receives a message. -/
def takeMail (σ : System n) (p : Fin n) (mail : Mail) : System n :=
  { σ with inbox := Function.update σ.inbox p (some mail) }

/-- The apply daemon gets a signal and `rf.mu`. -/
def wake (σ : System n) (p : Fin n) : Except Fault (System n) :=
  let rf := σ.net.peers p
  if (σ.daemon p).isSome ∨ rf.commitCh = 0 then .error .disabled
  else .ok { σ with
    net := σ.net.setPeer p { rf with commitCh := rf.commitCh - 1 }
    daemon := Function.update σ.daemon p (some (rf.lastApplied + 1, rf.commitIndex)) }

/-- One turn of the loop of the apply daemon: it ends, or jumps over what is in the snapshot, or
sends a command when `enactDaemon` is ready. -/
def advance (σ : System n) (p : Fin n) : Except Fault (System n) :=
  let rf := σ.net.peers p
  match σ.daemon p with
  | none => .error .disabled
  | some (i, last) =>
    if last < i then .ok { σ with daemon := Function.update σ.daemon p none }
    else if i ≤ rf.snapshotIndex then
      .ok { σ with daemon := Function.update σ.daemon p (some (rf.snapshotIndex + 1, last)) }
    else if !σ.ready p then .error .disabled
    else
      match goIndex rf.logs (rf.logIdxGlobal2Local i) with
      | none => .error .panic
      | some e =>
        let msg : ApplyMsg Op := ⟨i, e.command, true, []⟩
        .ok ({ σ with
          net := σ.net.setPeer p { rf with applyCh := rf.applyCh ++ [msg], lastApplied := i }
          daemon := Function.update σ.daemon p (some (i + 1, last)) }.takeMail p ⟨i, msg⟩)

/-- The handler of an `InstallSnapShot` sends the snapshot to `enactDaemon`, if there is one. -/
def notify (σ : System n) (k : ℕ) : Except Fault (System n) :=
  match σ.net.calls[k]? with
  | none => .error .disabled
  | some c =>
    match c.body with
    | .notifying args _ _ =>
      if args.snapshot = [] then (σ.net.step (.notify k)).map fun net => { σ with net := net }
      else if !σ.ready c.server then .error .disabled
      else (σ.net.step (.notify k)).map fun net =>
        { σ with net := net }.takeMail c.server
          ⟨args.lastIncludedIndex, ⟨0, none, false, args.snapshot⟩⟩
    | _ => .error .disabled

/-- The commands in the order in which they were first dealt with. -/
def record (log : List Op) (mail : Mail) : List Op :=
  match mail.msg.command with
  | some operation => if log.length < mail.index then log ++ [operation] else log
  | none => log

/-- `dealWithApplyMsg` up to the sending of the `DoneMsg`. -/
def deal (gob : Gob Kv) (σ : System n) (p : Fin n) : Except Fault (System n) :=
  match σ.inbox p with
  | none => .error .disabled
  | some mail =>
    ((σ.app.servers p).dealWithApplyMsg gob mail.msg).map fun kv =>
      { σ with
        app := { σ.app with log := record σ.app.log mail }.setServer p kv mail.index
        inbox := Function.update σ.inbox p none
        current := Function.update σ.current p mail.msg.commandIndex }

/-- The rest of `dealWithApplyMsg`. If `compact`, the raft state is large enough for a snapshot. -/
def finishApply (gob : Gob Kv) (σ : System n) (p : Fin n) (compact : Bool) :
    Except Fault (System n) :=
  (σ.app.finishApply p).map fun app =>
    { σ with
      app := app
      compactions := Function.update σ.compactions p (σ.compactions p ++
        if compact then [⟨σ.current p, gob.encode (app.servers p).kv⟩] else []) }

/-- A call of `Compact` gets `rf.mu`. -/
def compact (σ : System n) (p : Fin n) (k : ℕ) : Except Fault (System n) :=
  if (σ.daemon p).isSome then .error .disabled
  else
    match (σ.compactions p)[k]? with
    | none => .error .disabled
    | some call =>
      (Cluster.orPanic ((σ.net.peers p).compact call.lastIncludedIndex call.snapshot)).map fun rf =>
        { σ with
          net := σ.net.setPeer p rf
          compactions := Function.update σ.compactions p ((σ.compactions p).eraseIdx k) }

/-- A process crashes and is started again. The snapshot that was saved, if there is one, is the
first thing that `enactDaemon` receives. -/
def restart (σ : System n) (p : Fin n) : Except Fault (System n) :=
  (σ.net.step (.restart p)).map fun net =>
    { net := net
      app := σ.app.restart p
      daemon := Function.update σ.daemon p none
      inbox := Function.update σ.inbox p ((net.peers p).applyCh.head?.map fun msg =>
        ⟨(net.peers p).snapshotIndex, msg⟩)
      current := Function.update σ.current p 0
      compactions := Function.update σ.compactions p [] }

/-! ### Runs -/

/-- One event. -/
def step [NeZero n] (gob : Gob Kv) (σ : System n) : SystemEvent n → Except Fault (System n)
  | .invoke c request => (σ.app.invoke c request).map fun app => { σ with app := app }
  | .send c => (σ.app.send c).map fun app => { σ with app := app }
  | .receive c => (σ.app.receive c).map fun app => { σ with app := app }
  | .giveUp c => (σ.app.giveUp c).map fun app => { σ with app := app }
  | .serve k => (σ.app.serve k).map fun app => { σ with app := app }
  | .turn k timeOut => σ.turn k timeOut
  | .raft e => σ.raft e
  | .wake p => σ.wake p
  | .advance p => σ.advance p
  | .notify k => σ.notify k
  | .deal p => σ.deal gob p
  | .finishApply p compact => σ.finishApply gob p compact
  | .compact p k => σ.compact p k
  | .restart p => σ.restart p

/-- The snapshot that the handler of a call has still to send to the incarnation `epoch` of `p`. -/
def noticeOf (p : Fin n) (epoch : ℕ) (c : Call n Op) : Option Notice :=
  match c.body with
  | .notifying args _ serverEpoch =>
    if c.server = p ∧ serverEpoch = epoch then some ⟨args.lastIncludedIndex, args.snapshot⟩
    else none
  | _ => none

/-- The snapshots that handlers of `p` have installed and not sent yet. -/
def notices (σ : System n) (p : Fin n) : List Notice :=
  σ.net.calls.filterMap (noticeOf p (σ.net.epoch p))

/-- The condition on a step: a leader that processes a success finds its log to agree with the
request, the daemon sends a command only when no snapshot waits to be sent that goes further than
what was consumed, and a snapshot is sent only when nothing beyond it was consumed. -/
def Ok (σ : System n) : SystemEvent n → Prop
  | .raft e => Truthful σ.net e
  | .advance p => ∀ x ∈ σ.daemon p, x.1 ≤ x.2 → (σ.net.peers p).snapshotIndex < x.1 →
      ∀ notice ∈ σ.notices p, notice.lastIncludedIndex ≤ σ.app.consumed p
  | .notify k => ∀ c ∈ σ.net.calls[k]?, ∀ notice ∈ noticeOf c.server (σ.net.epoch c.server) c,
      σ.app.consumed c.server ≤ notice.lastIncludedIndex
  | _ => True

instance (σ : System n) (e : SystemEvent n) : Decidable (σ.Ok e) :=
  match e with
  | .raft e => inferInstanceAs (Decidable (Truthful σ.net e))
  | .advance p => inferInstanceAs (Decidable (∀ x ∈ σ.daemon p, x.1 ≤ x.2 →
      (σ.net.peers p).snapshotIndex < x.1 → ∀ notice ∈ σ.notices p,
        notice.lastIncludedIndex ≤ σ.app.consumed p))
  | .notify k => inferInstanceAs (Decidable (∀ c ∈ σ.net.calls[k]?,
      ∀ notice ∈ noticeOf c.server (σ.net.epoch c.server) c,
        σ.app.consumed c.server ≤ notice.lastIncludedIndex))
  | .invoke _ _ | .send _ | .receive _ | .giveUp _ | .serve _ | .turn _ _ | .wake _ | .deal _
  | .finishApply _ _ | .compact _ _ | .restart _ => .isTrue trivial

/-- A run of the system, newest state first, all of whose steps meet the condition. -/
def Run [NeZero n] (gob : Gob Kv) : List (System n) → Prop :=
  Trace (init n) fun σ e σ' => σ.Ok e ∧ σ.step gob e = .ok σ'

end System

end RaftKVDB
