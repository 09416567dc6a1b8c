import Mathlib.Algebra.GroupWithZero.Nat
import RaftKVDB.Foundations.Linearizability
import RaftKVDB.Foundations.Trace
import RaftKVDB.Kv.Server
import RaftKVDB.Kv.Sessions

/-!
# The key/value service

Any number of clerks and `n` servers over one log. Raft is ideal here: there is a log that grows,
by commands that were passed to `Start`, and each server is given the commands of it in order. A
stretch of them may be replaced by a snapshot of the state at its end, and a server that starts
again starts with an empty store, which a snapshot may replace at once. What `GetState` and `Start`
return is arbitrary, and so is the network: a call may be served late or never, a reply may come
late or never, and a clerk may give up on a call at any time and try another server.

A clerk does one operation at a time. Its operations are known by its `ClientID` and their `CmdID`.
-/

namespace RaftKVDB

open Foundations

variable {n : ℕ}

/-! ### Clerks and calls -/

/-- `Clerk`, the operation it is busy with and the call it waits for. -/
structure Clerk (n : ℕ) where
  leadId : Fin n
  nextSeq : ℕ
  current : Option Args
  waiting : Option ℕ

namespace Clerk

/-- `MakeClerk`. -/
def makeClerk (n : ℕ) [NeZero n] : Clerk n := ⟨0, 0, none, none⟩

/-- The clerk tries the next server. -/
def nextServer [NeZero n] (ck : Clerk n) : Clerk n :=
  { ck with leadId := Fin.ofNat n (ck.leadId + 1) }

end Clerk

/-- The command that a turn passes to a leader's `Start`. -/
def Args.starts (args : Args) : Pc → Turn → List Op
  | .start, .raftStart (some _) => [args.operation]
  | _, _ => []

/-- A call of `KVServer.Get` or `KVServer.PutAppend`. Its handler runs in one incarnation of the
server. -/
structure KvCall (n : ℕ) where
  args : Args
  server : Fin n
  epoch : ℕ
  pc : Option Pc

/-- An operation is known by `ClientID` and `CmdID`. -/
abbrev OpId := ℕ × ℕ

/-- What the clients see. -/
abbrev KvEvent := HistoryEvent OpId Request (Option String)

/-- What the clients saw, oldest first, with the length of the log at that time. -/
abbrev KvHistory := List (ℕ × KvEvent)

/-! ### The service -/

/-- The servers, the clerks, and what Raft has in common. -/
structure Service (n : ℕ) where
  /-- The commands that are agreed on. -/
  log : List Op
  /-- The commands that were passed to `Start`. -/
  started : List Op
  servers : Fin n → KVServer
  /-- How often a server was started again. -/
  epoch : Fin n → ℕ
  /-- How much of the log a server was given, or a snapshot of. -/
  consumed : Fin n → ℕ
  clerks : ℕ → Clerk n
  calls : List (KvCall n)
  history : KvHistory

/-- What can happen next. -/
inductive ServiceEvent (n : ℕ)
  | invoke (c : ℕ) (request : Request)
  | send (c : ℕ)
  | receive (c : ℕ)
  | giveUp (c : ℕ)
  | serve (k : ℕ)
  | turn (k : ℕ) (t : Turn)
  | apply (s : Fin n)
  | finishApply (s : Fin n)
  | install (s : Fin n) (j : ℕ)
  | restart (s : Fin n)
  | commit (operation : Op)

namespace Service

/-- Nothing has happened. -/
def init (n : ℕ) [NeZero n] : Service n where
  log := []
  started := []
  servers _ := KVServer.startKVServer
  epoch _ := 0
  consumed _ := 0
  clerks _ := Clerk.makeClerk n
  calls := []
  history := []

/-- The commands that a server knows of. -/
def known (σ : Service n) (s : Fin n) : List Op := σ.log.take (σ.consumed s)

/-- The clerk `c` becomes `ck`. -/
def setClerk (σ : Service n) (c : ℕ) (ck : Clerk n) : Service n :=
  { σ with clerks := Function.update σ.clerks c ck }

/-- The call `k` becomes `call`. -/
def setCall (σ : Service n) (k : ℕ) (call : KvCall n) : Service n :=
  { σ with calls := σ.calls.set k call }

/-- The clients see something. -/
def see (σ : Service n) (e : KvEvent) : Service n :=
  { σ with history := σ.history ++ [(σ.log.length, e)] }

/-- A server becomes `kv`, having been given the first `j` commands. -/
def setServer (σ : Service n) (s : Fin n) (kv : KVServer) (j : ℕ) : Service n :=
  { σ with
    servers := Function.update σ.servers s kv
    consumed := Function.update σ.consumed s j }

/-- `Clerk.Get`, `Clerk.Put` or `Clerk.Append` is called. -/
def invoke (σ : Service n) (c : ℕ) (request : Request) : Except Fault (Service n) :=
  let ck := σ.clerks c
  match ck.current with
  | some _ => .error .disabled
  | none =>
    .ok ((σ.setClerk c { ck with
        nextSeq := ck.nextSeq + 1, current := some ⟨request, c, ck.nextSeq⟩ }).see
      (.call (c, ck.nextSeq) request))

/-- A clerk calls the server that it takes for the leader. -/
def send (σ : Service n) (c : ℕ) : Except Fault (Service n) :=
  let ck := σ.clerks c
  match ck.current, ck.waiting with
  | some args, none =>
    .ok { σ.setClerk c { ck with waiting := some σ.calls.length } with
      calls := σ.calls ++ [⟨args, ck.leadId, 0, none⟩] }
  | _, _ => .error .disabled

/-- `Call` returns `true`, and the clerk looks at the reply. -/
def receive [NeZero n] (σ : Service n) (c : ℕ) : Except Fault (Service n) :=
  let ck := σ.clerks c
  match ck.current, ck.waiting.bind (σ.calls[·]?) with
  | some args, some call =>
    match call.pc with
    | some (.replied reply) =>
      match args.output reply with
      | some output =>
        .ok ((σ.setClerk c { ck with current := none, waiting := none }).see
          (.ret (c, args.cmdID) output))
      | none =>
        let ck := { ck with waiting := none }
        .ok (σ.setClerk c (if reply.wrongLeader then ck.nextServer else ck))
    | _ => .error .disabled
  | _, _ => .error .disabled

/-- `Call` returns `false`. -/
def giveUp [NeZero n] (σ : Service n) (c : ℕ) : Except Fault (Service n) :=
  let ck := σ.clerks c
  match ck.waiting with
  | some _ => .ok (σ.setClerk c { ck with waiting := none }.nextServer)
  | none => .error .disabled

/-- A call reaches its server. -/
def serve (σ : Service n) (k : ℕ) : Except Fault (Service n) :=
  match σ.calls[k]? with
  | some call =>
    if call.pc.isSome then .error .disabled
    else .ok (σ.setCall k { call with epoch := σ.epoch call.server, pc := some .getState })
  | none => .error .disabled

/-- One turn of a handler. -/
def turn (σ : Service n) (k : ℕ) (t : Turn) : Except Fault (Service n) :=
  match σ.calls[k]? with
  | some call =>
    match call.pc with
    | some pc =>
      if call.epoch ≠ σ.epoch call.server then .error .disabled
      else do
        let (kv, pc') ← (σ.servers call.server).turn call.args pc t
        return { (σ.setServer call.server kv (σ.consumed call.server)).setCall k
            { call with pc := some pc' } with
          started := σ.started ++ call.args.starts pc t }
    | none => .error .disabled
  | none => .error .disabled

/-- A server gets the next command on `applyCh`. -/
def apply (gob : Gob Kv) (σ : Service n) (s : Fin n) : Except Fault (Service n) :=
  match σ.log[σ.consumed s]? with
  | some operation => do
    let kv ← (σ.servers s).dealWithApplyMsg gob ⟨σ.consumed s + 1, some operation, true, []⟩
    return σ.setServer s kv (σ.consumed s + 1)
  | none => .error .disabled

/-- A server tells the handlers that a command is done. -/
def finishApply (σ : Service n) (s : Fin n) : Except Fault (Service n) := do
  let kv ← (σ.servers s).finishApplyMsg
  return σ.setServer s kv (σ.consumed s)

/-- A server gets a snapshot of the state after the first `j` commands on `applyCh`. -/
def install (gob : Gob Kv) (σ : Service n) (s : Fin n) (j : ℕ) : Except Fault (Service n) :=
  if σ.consumed s ≤ j ∧ j ≤ σ.log.length then do
    let kv ← (σ.servers s).dealWithApplyMsg gob
      ⟨0, none, false, gob.encode (Kv.after (σ.log.take j))⟩
    return σ.setServer s kv j
  else .error .disabled

/-- A server crashes and is started again. -/
def restart (σ : Service n) (s : Fin n) : Service n :=
  { σ.setServer s KVServer.startKVServer 0 with
    epoch := Function.update σ.epoch s (σ.epoch s + 1) }

/-- One more command is agreed on. -/
def commit (σ : Service n) (operation : Op) : Except Fault (Service n) :=
  if operation ∈ σ.started then .ok { σ with log := σ.log ++ [operation] } else .error .disabled

/-- One event. -/
def step [NeZero n] (gob : Gob Kv) (σ : Service n) : ServiceEvent n → Except Fault (Service n)
  | .invoke c request => σ.invoke c request
  | .send c => σ.send c
  | .receive c => σ.receive c
  | .giveUp c => σ.giveUp c
  | .serve k => σ.serve k
  | .turn k t => σ.turn k t
  | .apply s => σ.apply gob s
  | .finishApply s => σ.finishApply s
  | .install s j => σ.install gob s j
  | .restart s => .ok (σ.restart s)
  | .commit operation => σ.commit operation

/-- A run of the service, newest state first. -/
def Run [NeZero n] (gob : Gob Kv) : List (Service n) → Prop :=
  Trace (init n) fun σ e σ' => σ.step gob e = .ok σ'

end Service

end RaftKVDB
