import RaftKVDB.Foundations.Trace
import RaftKVDB.Raft.Rpc
import RaftKVDB.Raft.Peer

/-!
# A cluster of peers and the network between them

The peers run in one interleaving semantics. Everything that `rf.mu` protects is one step, so that
the steps are the critical sections of the code and a state is what is seen while no lock is held.

## Remote calls

Every request is made in a goroutine of its own, which waits for the reply and then processes it.
Such a call is a `Call`, and the network is the list of calls in progress. `handle` runs the handler
at the server and turns a call from *requested* into *answered*; `process` runs the processor at the
caller and ends it; `lose` ends it without, which is a lost request, a lost reply or a caller that
is gone. Nothing orders the calls, and no call is handled or processed twice.

An `InstallSnapShot` handler that installed a snapshot releases the lock, sends the snapshot to the
application and only then replies; in between its call is `notifying`.

## Crashes

`restart` is a crash followed by `Make` on the persister. It starts a new incarnation, counted by
`epoch`. A call made by an earlier incarnation can still be handled by its server, but nobody is
there to process the reply; a handler of an earlier incarnation never replies.

The apply daemon holds the lock during a whole wake-up, so `apply` sends all its messages in one
step. A crash in the middle of a wake-up sends fewer of them and loses the rest of what the step
did, which is less than `apply` followed by `restart`.

`commitCh` is the number of its signals here: no send blocks, and `apply` receives a signal and
takes the lock at once. `Raft/SignalCluster` has the 100 slots and the two steps, and its runs are
runs of this cluster.
-/

namespace RaftKVDB

open Foundations

/-- How far a remote call has come. -/
inductive Body (n : ℕ) (α : Type*)
  | requestVote (args : RequestVoteArgs n) (reply : Option RequestVoteReply)
  | appendEntries (args : AppendEntriesArgs n α) (reply : Option AppendEntriesReply)
  | installSnapShot (args : InstallSnapshotArgs n) (reply : Option InstallSnapshotReply)
  | notifying (args : InstallSnapshotArgs n) (reply : InstallSnapshotReply) (epoch : ℕ)

/-- The arguments and the reply of an answered `AppendEntries` call. -/
def Body.appendReply {n : ℕ} {α : Type*} : Body n α →
    Option (AppendEntriesArgs n α × AppendEntriesReply)
  | .appendEntries args (some reply) => some (args, reply)
  | _ => none

/-- A remote call in progress, made by the incarnation `epoch` of `caller`. -/
structure Call (n : ℕ) (α : Type*) where
  caller : Fin n
  epoch : ℕ
  server : Fin n
  body : Body n α

/-- The peers, how often each has been restarted, and the calls in progress. -/
structure Cluster (n : ℕ) (α : Type*) where
  peers : Fin n → Raft n α
  epoch : Fin n → ℕ
  calls : List (Call n α)

/-- What can happen next. A call is named by its position in the list. -/
inductive Event (n : ℕ) (α : Type*)
  | broadCastVote (p : Fin n)
  | start (p : Fin n) (command : Option α)
  | checkConsistency (p peer : Fin n)
  | compact (p : Fin n) (cmdIndex : ℕ) (snapshot : List UInt8)
  | apply (p : Fin n)
  | handle (k : ℕ)
  | notify (k : ℕ)
  | process (k : ℕ)
  | lose (k : ℕ)
  | restart (p : Fin n)

/-- Why an event has no next state: it cannot happen now, or the code panics. -/
inductive Fault
  | disabled
  | panic
  deriving DecidableEq, Repr

instance {β : Type*} (r : Except Fault β) : Decidable (r = .error .panic) :=
  match r with
  | .ok _ => .isFalse nofun
  | .error .disabled => .isFalse nofun
  | .error .panic => .isTrue rfl

namespace Cluster

variable {n : ℕ} {α : Type*}

/-- The result of code that may panic. -/
def orPanic {β : Type*} : Option β → Except Fault β
  | none => .error .panic
  | some b => .ok b

/-- All peers fresh, nothing in flight. -/
def init (n : ℕ) (α : Type*) : Cluster n α where
  peers p := Raft.make p makePersister
  epoch _ := 0
  calls := []

/-- One peer changed. -/
def setPeer (σ : Cluster n α) (p : Fin n) (rf : Raft n α) : Cluster n α :=
  { σ with peers := Function.update σ.peers p rf }

/-- A call of `p` to `server` begins. -/
def addCall (σ : Cluster n α) (p server : Fin n) (body : Body n α) : Cluster n α :=
  { σ with calls := σ.calls ++ [⟨p, σ.epoch p, server, body⟩] }

/-- The call at position `k` has come further. -/
def setBody (σ : Cluster n α) (k : ℕ) (c : Call n α) (body : Body n α) : Cluster n α :=
  { σ with calls := σ.calls.set k { c with body := body } }

/-- The call at position `k` is over. -/
def endCall (σ : Cluster n α) (k : ℕ) : Cluster n α := { σ with calls := σ.calls.eraseIdx k }

/-- Whether this incarnation of `p` has delivered the command at `cmdIndex`. -/
def delivered (rf : Raft n α) (cmdIndex : ℕ) : Bool :=
  rf.applyCh.any fun m => m.commandValid && decide (m.commandIndex = cmdIndex)

/-- The other peers, in the order `broadCastVote` goes through them. -/
def others (p : Fin n) : List (Fin n) := (List.finRange n).filter fun i => decide (i ≠ p)

/-- The handler at the server of call `c`, which is the one at position `k`. -/
def handle (σ : Cluster n α) (k : ℕ) (c : Call n α) : Except Fault (Cluster n α) :=
  match c.body with
  | .requestVote args none =>
    orPanic (((σ.peers c.server).requestVote args).map fun (rf, reply) =>
      (σ.setPeer c.server rf).setBody k c (.requestVote args (some reply)))
  | .appendEntries args none =>
    orPanic (((σ.peers c.server).appendEntries args).map fun (rf, reply) =>
      (σ.setPeer c.server rf).setBody k c (.appendEntries args (some reply)))
  | .installSnapShot args none =>
    orPanic (((σ.peers c.server).installSnapShot args).map fun (rf, reply, installed) =>
      (σ.setPeer c.server rf).setBody k c
        (if installed then .notifying args reply (σ.epoch c.server)
          else .installSnapShot args (some reply)))
  | _ => .error .disabled

/-- The end of an `InstallSnapShot` handler: the snapshot goes to the application, then the reply
to the caller. -/
def notify (σ : Cluster n α) (k : ℕ) (c : Call n α) : Except Fault (Cluster n α) :=
  match c.body with
  | .notifying args reply serverEpoch =>
    if σ.epoch c.server ≠ serverEpoch then .error .disabled
    else
      .ok ((σ.setPeer c.server
        ((σ.peers c.server).notifyAppUseNewSnapShot args.snapshot)).setBody k c
          (.installSnapShot args (some reply)))
  | _ => .error .disabled

/-- The processor at the caller of call `c`, which is the one at position `k`. -/
def process (σ : Cluster n α) (k : ℕ) (c : Call n α) : Except Fault (Cluster n α) :=
  if σ.epoch c.caller ≠ c.epoch then .error .disabled
  else
    match c.body with
    | .requestVote _ (some reply) =>
      .ok ((σ.setPeer c.caller ((σ.peers c.caller).sendRequestVoteAndProcess reply)).endCall k)
    | .appendEntries args (some reply) =>
      orPanic (((σ.peers c.caller).sendAppendEntriesAndProcess args c.server reply).map fun rf =>
        (σ.setPeer c.caller rf).endCall k)
    | .installSnapShot args (some reply) =>
      .ok ((σ.setPeer c.caller
        ((σ.peers c.caller).sendSnapShotAndProcess args c.server reply)).endCall k)
    | _ => .error .disabled

/-- What `broadCastVote` sends: a call to each of the other peers. -/
def sendVotes (σ : Cluster n α) (p : Fin n) (args : RequestVoteArgs n) : Cluster n α :=
  { σ with
    calls := σ.calls ++ (others p).map fun i => ⟨p, σ.epoch p, i, .requestVote args none⟩ }

/-- What `checkConsistency` sends. -/
def sendRequest (σ : Cluster n α) (p peer : Fin n) : Raft.Request n α → Cluster n α
  | .appendEntries args => σ.addCall p peer (.appendEntries args none)
  | .installSnapShot args => σ.addCall p peer (.installSnapShot args none)

/-- What happens to the call at position `k`. -/
def onCall (σ : Cluster n α) (k : ℕ) (f : Call n α → Except Fault (Cluster n α)) :
    Except Fault (Cluster n α) :=
  match σ.calls[k]? with
  | none => .error .disabled
  | some c => f c

/-- One event. -/
def step (σ : Cluster n α) : Event n α → Except Fault (Cluster n α)
  | .broadCastVote p =>
    orPanic ((σ.peers p).broadCastVote.map fun (rf, sent) =>
      sent.elim (σ.setPeer p rf) ((σ.setPeer p rf).sendVotes p))
  | .start p command => .ok (σ.setPeer p ((σ.peers p).start command).1)
  | .checkConsistency p peer =>
    if p = peer then .error .disabled
    else
      orPanic (((σ.peers p).checkConsistency peer).map fun sent =>
        sent.elim σ (σ.sendRequest p peer))
  | .compact p cmdIndex snapshot =>
    if delivered (σ.peers p) cmdIndex then
      orPanic (((σ.peers p).compact cmdIndex snapshot).map (σ.setPeer p))
    else .error .disabled
  | .apply p =>
    if (σ.peers p).commitCh = 0 then .error .disabled
    else
      orPanic ({ σ.peers p with commitCh := (σ.peers p).commitCh - 1 }.applyLogEntryDaemon.map
        (σ.setPeer p))
  | .handle k => σ.onCall k (σ.handle k)
  | .notify k => σ.onCall k (σ.notify k)
  | .process k => σ.onCall k (σ.process k)
  | .lose k => σ.onCall k fun _ => .ok (σ.endCall k)
  | .restart p =>
    .ok { σ.setPeer p (Raft.make p (σ.peers p).persister) with
          epoch := Function.update σ.epoch p (σ.epoch p + 1) }

/-- A step that meets the condition `ok`. -/
def Next (ok : Cluster n α → Event n α → Prop) (σ : Cluster n α) (e : Event n α)
    (σ' : Cluster n α) : Prop :=
  ok σ e ∧ σ.step e = .ok σ'

/-- The condition that every step meets. -/
def Always (_ : Cluster n α) (_ : Event n α) : Prop := True

/-- A run of the cluster, newest state first, all of whose steps meet the condition `ok`. -/
def Run (ok : Cluster n α → Event n α → Prop) : List (Cluster n α) → Prop :=
  Trace (init n α) (Next ok)

instance (σ : Cluster n α) (e : Event n α) : Decidable (Always σ e) := .isTrue trivial

/-! ### Replaying events -/

section Replay

variable (ok : Cluster n α → Event n α → Prop) [∀ σ e, Decidable (ok σ e)]

/-- One event of a replay: the newest state and those before it. An event that cannot happen or
does not meet the condition is skipped. -/
def replayStep (s : Cluster n α × List (Cluster n α)) (e : Event n α) :
    Cluster n α × List (Cluster n α) :=
  match s.1.step e with
  | .error _ => s
  | .ok σ' => if ok s.1 e then (σ', s.1 :: s.2) else s

/-- The run through a list of events. -/
def replay (es : List (Event n α)) : Cluster n α × List (Cluster n α) :=
  es.foldl (replayStep ok) (init n α, [])

theorem run_foldl_replayStep (es : List (Event n α)) (s : Cluster n α × List (Cluster n α))
    (h : Run ok (s.1 :: s.2)) : Run ok ((es.foldl (replayStep ok) s).1 ::
      (es.foldl (replayStep ok) s).2) ∧
      (s.1 :: s.2) <:+ ((es.foldl (replayStep ok) s).1 :: (es.foldl (replayStep ok) s).2) := by
  induction es generalizing s with
  | nil => exact ⟨h, List.suffix_rfl⟩
  | cons e es ih =>
    rw [List.foldl_cons, replayStep]
    split
    · exact ih s h
    next σ' hstep =>
    split
    · next hok =>
      obtain ⟨hrun, hsuf⟩ := ih (σ', s.1 :: s.2) (Trace.step h ⟨hok, hstep⟩)
      exact ⟨hrun, (List.suffix_cons _ _).trans hsuf⟩
    · exact ih s h

/-- A replay is a run. -/
theorem run_replay (es : List (Event n α)) : Run ok ((replay ok es).1 :: (replay ok es).2) :=
  (run_foldl_replayStep ok es (init n α, []) .start).1

/-- A replay goes through the states of the shorter replays. -/
theorem mem_replay_append (es es' : List (Event n α)) :
    (replay ok es).1 ∈ (replay ok (es ++ es')).1 :: (replay ok (es ++ es')).2 := by
  have hsuf := (run_foldl_replayStep ok es' _ (run_replay ok es)).2
  have happ : es'.foldl (replayStep ok) (replay ok es) = replay ok (es ++ es') :=
    List.foldl_append.symm
  rw [happ] at hsuf
  exact hsuf.subset List.mem_cons_self

end Replay

/-! ### What a step can do -/

variable {σ σ' : Cluster n α} {k : ℕ} {c : Call n α}

@[simp] theorem setPeer_calls (σ : Cluster n α) (p : Fin n) (rf : Raft n α) :
    (σ.setPeer p rf).calls = σ.calls := rfl

@[simp] theorem orPanic_eq_ok {β : Type*} {o : Option β} {b : β} :
    orPanic o = .ok b ↔ o = some b := by
  cases o <;> simp [orPanic]

@[simp] theorem orPanic_eq_panic {β : Type*} {o : Option β} :
    orPanic o = .error .panic ↔ o = none := by
  cases o <;> simp [orPanic]

theorem eq_ok_of_mem_toOption {β : Type*} {r : Except Fault β} {b : β} (h : b ∈ r.toOption) :
    r = .ok b := by
  cases r with
  | error => exact nomatch h
  | ok => exact congrArg _ (Option.some.inj h)

theorem onCall_eq_ok {f : Call n α → Except Fault (Cluster n α)} :
    σ.onCall k f = .ok σ' ↔ ∃ c, σ.calls[k]? = some c ∧ f c = .ok σ' := by
  rw [onCall]
  split <;> simp [*]

theorem handle_cases (h : σ.handle k c = .ok σ') :
    (∃ args rf reply, c.body = .requestVote args none ∧
      (σ.peers c.server).requestVote args = some (rf, reply) ∧
      σ' = (σ.setPeer c.server rf).setBody k c (.requestVote args (some reply))) ∨
    (∃ args rf reply, c.body = .appendEntries args none ∧
      (σ.peers c.server).appendEntries args = some (rf, reply) ∧
      σ' = (σ.setPeer c.server rf).setBody k c (.appendEntries args (some reply))) ∨
    (∃ args rf reply installed, c.body = .installSnapShot args none ∧
      (σ.peers c.server).installSnapShot args = some (rf, reply, installed) ∧
      σ' = (σ.setPeer c.server rf).setBody k c
        (if installed then .notifying args reply (σ.epoch c.server)
          else .installSnapShot args (some reply))) := by
  rw [handle] at h
  split at h
  · next args hb =>
    obtain ⟨⟨rf, reply⟩, hrun, heq⟩ := Option.map_eq_some_iff.mp (orPanic_eq_ok.mp h)
    exact .inl ⟨args, rf, reply, hb, hrun, heq.symm⟩
  · next args hb =>
    obtain ⟨⟨rf, reply⟩, hrun, heq⟩ := Option.map_eq_some_iff.mp (orPanic_eq_ok.mp h)
    exact .inr (.inl ⟨args, rf, reply, hb, hrun, heq.symm⟩)
  · next args hb =>
    obtain ⟨⟨rf, reply, installed⟩, hrun, heq⟩ :=
      Option.map_eq_some_iff.mp (orPanic_eq_ok.mp h)
    exact .inr (.inr ⟨args, rf, reply, installed, hb, hrun, heq.symm⟩)
  · exact nomatch h

theorem notify_cases (h : σ.notify k c = .ok σ') :
    ∃ args reply epoch, c.body = .notifying args reply epoch ∧ σ.epoch c.server = epoch ∧
      σ' = (σ.setPeer c.server
        ((σ.peers c.server).notifyAppUseNewSnapShot args.snapshot)).setBody k c
          (.installSnapShot args (some reply)) := by
  rw [notify] at h
  split at h
  · next args reply epoch hb =>
    split at h
    · exact nomatch h
    · next he => exact ⟨args, reply, epoch, hb, not_not.mp he, (Except.ok.inj h).symm⟩
  · exact nomatch h

theorem process_cases (h : σ.process k c = .ok σ') : σ.epoch c.caller = c.epoch ∧
    ((∃ args reply, c.body = .requestVote args (some reply) ∧
      σ' = (σ.setPeer c.caller
        ((σ.peers c.caller).sendRequestVoteAndProcess reply)).endCall k) ∨
    (∃ args reply rf, c.body = .appendEntries args (some reply) ∧
      (σ.peers c.caller).sendAppendEntriesAndProcess args c.server reply = some rf ∧
      σ' = (σ.setPeer c.caller rf).endCall k) ∨
    (∃ args reply, c.body = .installSnapShot args (some reply) ∧
      σ' = (σ.setPeer c.caller
        ((σ.peers c.caller).sendSnapShotAndProcess args c.server reply)).endCall k)) := by
  rw [process] at h
  split at h
  · exact nomatch h
  next he =>
  refine ⟨not_not.mp he, ?_⟩
  split at h
  · next args reply hb => exact .inl ⟨args, reply, hb, (Except.ok.inj h).symm⟩
  · next args reply hb =>
    obtain ⟨rf, hrun, heq⟩ := Option.map_eq_some_iff.mp (orPanic_eq_ok.mp h)
    exact .inr (.inl ⟨args, reply, rf, hb, hrun, heq.symm⟩)
  · next args reply hb => exact .inr (.inr ⟨args, reply, hb, (Except.ok.inj h).symm⟩)
  · exact nomatch h

/-! ### What a step does to one peer -/

/-- The functions of the code that an event runs at the peer `p`, with the state they leave. -/
inductive PeerStep (σ : Cluster n α) (p : Fin n) : Event n α → Raft n α → Prop
  | idle (e : Event n α) : PeerStep σ p e (σ.peers p)
  | broadCastVote {rf : Raft n α} {sent : Option (RequestVoteArgs n)} :
      (σ.peers p).broadCastVote = some (rf, sent) → PeerStep σ p (.broadCastVote p) rf
  | start (command : Option α) : PeerStep σ p (.start p command) ((σ.peers p).start command).1
  | compact {cmdIndex : ℕ} {snapshot : List UInt8} {rf : Raft n α} :
      (σ.peers p).compact cmdIndex snapshot = some rf →
      PeerStep σ p (.compact p cmdIndex snapshot) rf
  | apply {rf : Raft n α} :
      { σ.peers p with commitCh := (σ.peers p).commitCh - 1 }.applyLogEntryDaemon = some rf →
      PeerStep σ p (.apply p) rf
  | requestVote {k : ℕ} {args : RequestVoteArgs n} {rf : Raft n α} {reply : RequestVoteReply} :
      (σ.peers p).requestVote args = some (rf, reply) → PeerStep σ p (.handle k) rf
  | appendEntries {k : ℕ} {args : AppendEntriesArgs n α} {rf : Raft n α}
      {reply : AppendEntriesReply} :
      (σ.peers p).appendEntries args = some (rf, reply) → PeerStep σ p (.handle k) rf
  | installSnapShot {k : ℕ} {args : InstallSnapshotArgs n} {rf : Raft n α}
      {reply : InstallSnapshotReply} {installed : Bool} :
      (σ.peers p).installSnapShot args = some (rf, reply, installed) → PeerStep σ p (.handle k) rf
  | notify {k : ℕ} (snapshot : List UInt8) :
      PeerStep σ p (.notify k) ((σ.peers p).notifyAppUseNewSnapShot snapshot)
  | processVote {k : ℕ} (reply : RequestVoteReply) :
      PeerStep σ p (.process k) ((σ.peers p).sendRequestVoteAndProcess reply)
  | processAppend {k : ℕ} {c : Call n α} {args : AppendEntriesArgs n α}
      {reply : AppendEntriesReply} {rf : Raft n α} : σ.calls[k]? = some c → c.caller = p →
      c.body = .appendEntries args (some reply) →
      (σ.peers p).sendAppendEntriesAndProcess args c.server reply = some rf →
      PeerStep σ p (.process k) rf
  | processSnapShot {k : ℕ} {c : Call n α} {args : InstallSnapshotArgs n}
      {reply : InstallSnapshotReply} : σ.calls[k]? = some c → c.caller = p →
      c.body = .installSnapShot args (some reply) →
      PeerStep σ p (.process k) ((σ.peers p).sendSnapShotAndProcess args c.server reply)
  | restart : PeerStep σ p (.restart p) (Raft.make p (σ.peers p).persister)

/-- One peer changed: that peer has the new state, the others have what they had. -/
theorem PeerStep.update {e : Event n α} {q : Fin n} {rf : Raft n α} (h : PeerStep σ q e rf)
    (p : Fin n) : PeerStep σ p e (Function.update σ.peers q rf p) := by
  rcases eq_or_ne p q with rfl | hne
  · rwa [Function.update_self]
  · rw [Function.update_of_ne hne]
    exact .idle e

/-- **What a step does to each peer.** -/
theorem peerStep_of_step {e : Event n α} (hstep : σ.step e = .ok σ') (p : Fin n) :
    PeerStep σ p e (σ'.peers p) := by
  cases e with
  | broadCastVote q =>
    obtain ⟨⟨rf, sent⟩, hrun, rfl⟩ := Option.map_eq_some_iff.mp (orPanic_eq_ok.mp hstep)
    cases sent <;> exact (PeerStep.broadCastVote hrun).update p
  | start q command =>
    obtain rfl := Except.ok.inj hstep
    exact (PeerStep.start command).update p
  | checkConsistency q peer =>
    simp only [step] at hstep
    split at hstep
    · cases hstep
    obtain ⟨sent, -, rfl⟩ := Option.map_eq_some_iff.mp (orPanic_eq_ok.mp hstep)
    rcases sent with _ | _ | _ <;> exact .idle _
  | compact q cmdIndex snapshot =>
    simp only [step] at hstep
    split at hstep
    · obtain ⟨rf, hrun, rfl⟩ := Option.map_eq_some_iff.mp (orPanic_eq_ok.mp hstep)
      exact (PeerStep.compact hrun).update p
    · cases hstep
  | apply q =>
    simp only [step] at hstep
    split at hstep
    · cases hstep
    · obtain ⟨rf, hrun, rfl⟩ := Option.map_eq_some_iff.mp (orPanic_eq_ok.mp hstep)
      exact (PeerStep.apply hrun).update p
  | handle k =>
    obtain ⟨c, -, hrun⟩ := onCall_eq_ok.mp hstep
    rcases handle_cases hrun with ⟨args, rf, reply, -, hrpc, rfl⟩ |
      ⟨args, rf, reply, -, hrpc, rfl⟩ | ⟨args, rf, reply, installed, -, hrpc, rfl⟩
    · exact (PeerStep.requestVote hrpc).update p
    · exact (PeerStep.appendEntries hrpc).update p
    · exact (PeerStep.installSnapShot hrpc).update p
  | notify k =>
    obtain ⟨c, -, hrun⟩ := onCall_eq_ok.mp hstep
    obtain ⟨args, reply, epoch, -, -, rfl⟩ := notify_cases hrun
    exact (PeerStep.notify args.snapshot).update p
  | process k =>
    obtain ⟨c, hc, hrun⟩ := onCall_eq_ok.mp hstep
    obtain ⟨-, ⟨args, reply, hbody, rfl⟩ | ⟨args, reply, rf, hbody, hproc, rfl⟩ |
      ⟨args, reply, hbody, rfl⟩⟩ := process_cases hrun
    · exact (PeerStep.processVote reply).update p
    · exact (PeerStep.processAppend hc rfl hbody hproc).update p
    · exact (PeerStep.processSnapShot hc rfl hbody).update p
  | lose k =>
    obtain ⟨c, -, hrun⟩ := onCall_eq_ok.mp hstep
    obtain rfl := Except.ok.inj hrun
    exact .idle _
  | restart q =>
    obtain rfl := Except.ok.inj hstep
    exact PeerStep.restart.update p

end Cluster

end RaftKVDB
