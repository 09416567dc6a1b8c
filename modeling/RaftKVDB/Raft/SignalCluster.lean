import RaftKVDB.Foundations.Refinement
import RaftKVDB.Foundations.Rounds
import RaftKVDB.Raft.Commit
import RaftKVDB.Raft.CommitSignal

/-!
# A cluster with commit channels

In `Raft/Cluster` a signal on `commitCh` is sent in the step that commits, and `apply` receives one
and applies: the channel is a number there. Two things are missing. The channel has 100 slots, and
whoever has to wait for one keeps `rf.mu`. And the daemon receives before it takes `rf.mu`, so that
for a while a signal is not in the channel any more and nothing was done about it. In
`Raft/CommitSignal` there are both, for one peer. Here they are for a cluster.

A critical section that finds no slot has done everything but the signal and what comes after it.
Nobody sees that, as it has the lock, and a crash undoes it, as `AppendEntries` saves its state
after the signal and a leader that commits saves nothing. So the whole section is left to the step
in which it gets a slot; until then it is the event in `held`.

## Main results

* `SignalCluster.Run.refines` — a run with channels is a run of the cluster
* `SignalCluster.deadlocked_step` — a peer in the deadlock of `Raft/CommitSignal` stays there until
  it is restarted
-/

namespace RaftKVDB

open Foundations Cluster

variable {n : ℕ} {α : Type*}

/-! ### Which lock an event takes -/

namespace Event

/-- The call that an event is about. -/
def call : Event n α → Option ℕ
  | .handle k | .notify k | .process k | .lose k => some k
  | _ => none

/-- Where a call is after the event, which may have taken one out of the list. -/
def position (e : Event n α) (j : ℕ) : ℕ :=
  match e with
  | .process k | .lose k => if k < j then j - 1 else j
  | _ => j

/-- The critical section of a call that is at another position now. -/
def moved (f : ℕ → ℕ) : Event n α → Event n α
  | .handle k => .handle (f k)
  | .process k => .process (f k)
  | e => e

/-- The server that crashes. -/
def restarted : Event n α → Option (Fin n)
  | .restart p => some p
  | _ => none

theorem eq_restart {e : Event n α} {p : Fin n} (h : e.restarted = some p) : e = .restart p := by
  cases e with
  | restart q => exact congrArg _ (Option.some.inj h)
  | broadCastVote | start | checkConsistency | compact | apply | handle | notify | process | lose =>
    cases h

/-- The peer whose daemon comes to the receive. -/
def resumed : Event n α → Option (Fin n)
  | .restart p | .apply p => some p
  | _ => none

end Event

/-- The peer whose `rf.mu` an event takes. -/
def Cluster.locks (σ : Cluster n α) : Event n α → Option (Fin n)
  | .broadCastVote p | .start p _ | .checkConsistency p _ | .compact p _ _ | .apply p => some p
  | .handle k => σ.calls[k]?.map Call.server
  | .process k => σ.calls[k]?.map Call.caller
  | .notify _ | .lose _ | .restart _ => none

/-! ### The model -/

/-- The cluster `net`, in which `commitCh` counts a signal until the daemon has dealt with it.
`taken` says that the daemon of a peer has received a signal and is about to take `rf.mu`, and
`held` that a critical section has `rf.mu` and waits for a slot, and which. -/
structure SignalCluster (n : ℕ) (α : Type*) where
  net : Cluster n α
  taken : Fin n → Bool
  held : Fin n → Option (Event n α)

/-- What can happen next. -/
inductive SignalClusterEvent (n : ℕ) (α : Type*)
  | act (e : Event n α)
  | send (p : Fin n)
  | receive (p : Fin n)
  | lock (p : Fin n)

namespace SignalCluster

/-- All peers fresh, nothing in flight. -/
def init (n : ℕ) (α : Type*) : SignalCluster n α := ⟨.init n α, fun _ => false, fun _ => none⟩

/-- How many signals are in the channel. -/
def signals (s : SignalCluster n α) (p : Fin n) : ℕ :=
  (s.net.peers p).commitCh - (s.taken p).toNat

/-- A peer with its lock and its daemon. -/
def peer (s : SignalCluster n α) (p : Fin n) : SignalState n α where
  rf := { s.net.peers p with commitCh := s.signals p }
  mu := if (s.held p).isSome then .sending else .free
  daemon := if s.taken p then .locking else .receiving

/-- The lock that an event takes is free. The daemon takes its own steps. A call whose handler or
processor waits for a slot is not lost before that is over, which makes no difference to anybody. -/
def Free (s : SignalCluster n α) : Event n α → Prop
  | .apply _ => False
  | .lose k => ∀ q, (s.held q).bind Event.call ≠ some k
  | e => ∀ p ∈ s.net.locks e, s.held p = none

instance (s : SignalCluster n α) : DecidablePred s.Free
  | .apply _ => .isFalse id
  | .lose k => inferInstanceAs (Decidable (∀ q, (s.held q).bind Event.call ≠ some k))
  | .broadCastVote _ | .start _ _ | .checkConsistency _ _ | .compact _ _ _ | .handle _ | .notify _
  | .process _ | .restart _ => inferInstanceAs (Decidable (∀ p ∈ _, (s.held p) = none))

/-- Nobody waits for a slot at `p` any more. -/
def release (s : SignalCluster n α) (p : Fin n) : SignalCluster n α :=
  { s with held := Function.update s.held p none }

/-- The event has happened in the cluster. A crash ends the daemon and the critical section. -/
def went (s : SignalCluster n α) (e : Event n α) (net : Cluster n α) : SignalCluster n α where
  net := net
  taken q := s.taken q && decide (e.resumed ≠ some q)
  held q := if e.restarted = some q then none else (s.held q).map (Event.moved e.position)

/-- The critical section is over, or it waits for a slot. -/
def entered (s : SignalCluster n α) (e : Event n α) (net : Cluster n α) : SignalCluster n α :=
  match s.net.locks e with
  | none => s.went e net
  | some p =>
    if (s.net.peers p).commitCh < (net.peers p).commitCh ∧ commitChSlots ≤ s.signals p then
      { s with held := Function.update s.held p (some e) }
    else s.went e net

/-- One event. -/
def step (s : SignalCluster n α) : SignalClusterEvent n α → Except Fault (SignalCluster n α)
  | .act e => if s.Free e then (s.net.step e).map (s.entered e) else .error .disabled
  | .send p =>
    match s.held p with
    | none => .error .disabled
    | some e =>
      if s.signals p < commitChSlots then (s.net.step e).map ((s.release p).went e)
      else .error .disabled
  | .receive p =>
    if s.taken p = false ∧ 0 < s.signals p then
      .ok { s with taken := Function.update s.taken p true }
    else .error .disabled
  | .lock p =>
    if s.taken p = true ∧ s.held p = none then
      (s.net.step (.apply p)).map (s.went (.apply p))
    else .error .disabled

/-- If a critical section begins, it meets the condition. -/
def Begins (ok : Cluster n α → Event n α → Prop) (s : SignalCluster n α) :
    SignalClusterEvent n α → Prop
  | .act e => ok s.net e
  | .send _ | .receive _ | .lock _ => True

instance (ok : Cluster n α → Event n α → Prop) [∀ σ, DecidablePred (ok σ)]
    (s : SignalCluster n α) : DecidablePred (s.Begins ok)
  | .act e => inferInstanceAs (Decidable (ok s.net e))
  | .send _ | .receive _ | .lock _ => .isTrue trivial

/-- A step that meets the condition if it begins a critical section. -/
def Next (ok : Cluster n α → Event n α → Prop) (s : SignalCluster n α)
    (x : SignalClusterEvent n α) (s' : SignalCluster n α) : Prop :=
  s.Begins ok x ∧ s.step x = .ok s'

/-- A run, newest state first, all of whose critical sections meet the condition. -/
def Run (ok : Cluster n α → Event n α → Prop) : List (SignalCluster n α) → Prop :=
  Trace (init n α) (Next ok)

end SignalCluster

/-! ### What an event leaves alone -/

section Frame

variable {σ σ' : Cluster n α} {e : Event n α} {p : Fin n} {c : Call n α} {j : ℕ}

/-- A peer whose lock is not taken is what it was, but for what was sent to its application. -/
theorem Cluster.peers_of_step (hstep : σ.step e = .ok σ') (hlock : σ.locks e ≠ some p)
    (hcrash : e.restarted ≠ some p) : ∃ ch, σ'.peers p = { σ.peers p with applyCh := ch } := by
  have hother {q : Fin n} {rf : Raft n α} (hq : some q ≠ some p) :
      ∃ ch, Function.update σ.peers q rf p = { σ.peers p with applyCh := ch } :=
    ⟨_, Function.update_of_ne (fun h => hq (congrArg some h.symm)) _ _⟩
  cases e with
  | broadCastVote q =>
    obtain ⟨⟨rf, sent⟩, -, rfl⟩ := Option.map_eq_some_iff.mp (orPanic_eq_ok.mp hstep)
    cases sent <;> exact hother hlock
  | start q command =>
    obtain rfl := Except.ok.inj hstep
    exact hother hlock
  | checkConsistency q peer =>
    simp only [Cluster.step] at hstep
    split at hstep
    · cases hstep
    obtain ⟨sent, -, rfl⟩ := Option.map_eq_some_iff.mp (orPanic_eq_ok.mp hstep)
    rcases sent with _ | _ | _ <;> exact ⟨_, rfl⟩
  | compact q cmdIndex snapshot =>
    simp only [Cluster.step] at hstep
    split at hstep
    · obtain ⟨rf, -, rfl⟩ := Option.map_eq_some_iff.mp (orPanic_eq_ok.mp hstep)
      exact hother hlock
    · cases hstep
  | apply q =>
    simp only [Cluster.step] at hstep
    split at hstep
    · cases hstep
    · obtain ⟨rf, -, rfl⟩ := Option.map_eq_some_iff.mp (orPanic_eq_ok.mp hstep)
      exact hother hlock
  | handle k =>
    obtain ⟨c, hc, hrun⟩ := onCall_eq_ok.mp hstep
    have hserver : some c.server ≠ some p := by simpa [locks, hc] using hlock
    rcases handle_cases hrun with ⟨_, _, _, -, -, rfl⟩ | ⟨_, _, _, -, -, rfl⟩ |
      ⟨_, _, _, _, -, -, rfl⟩
    all_goals exact hother hserver
  | notify k =>
    obtain ⟨c, -, hrun⟩ := onCall_eq_ok.mp hstep
    obtain ⟨args, reply, epoch, -, -, rfl⟩ := notify_cases hrun
    rcases eq_or_ne p c.server with rfl | hne
    · simp only [Cluster.setPeer, Cluster.setBody, Function.update_self,
        Raft.notifyAppUseNewSnapShot]
      split <;> exact ⟨_, rfl⟩
    · exact hother fun h => hne (Option.some.inj h).symm
  | process k =>
    obtain ⟨c, hc, hrun⟩ := onCall_eq_ok.mp hstep
    have hcaller : some c.caller ≠ some p := by simpa [locks, hc] using hlock
    obtain ⟨-, ⟨_, _, -, rfl⟩ | ⟨_, _, _, -, -, rfl⟩ | ⟨_, _, -, rfl⟩⟩ := process_cases hrun
    all_goals exact hother hcaller
  | lose k =>
    obtain ⟨c, -, hrun⟩ := onCall_eq_ok.mp hstep
    obtain rfl := Except.ok.inj hrun
    exact ⟨_, rfl⟩
  | restart q =>
    obtain rfl := Except.ok.inj hstep
    exact hother hcrash

/-- A call that an event is not about stays as it is. -/
theorem Cluster.calls_of_step (hstep : σ.step e = .ok σ') (hc : σ.calls[j]? = some c)
    (hcall : e.call ≠ some j) : σ'.calls[e.position j]? = some c := by
  have happend (calls : List (Call n α)) : (σ.calls ++ calls)[j]? = some c := by
    rw [List.getElem?_append_left (List.getElem?_eq_some_iff.mp hc).1, hc]
  have hset {k : ℕ} (hne : some k ≠ some j) (c' : Call n α) :
      (σ.calls.set k c')[j]? = some c := by
    rw [List.getElem?_set_ne fun h => hne (congrArg some h), hc]
  have herase {k : ℕ} (hne : some k ≠ some j) :
      (σ.calls.eraseIdx k)[if k < j then j - 1 else j]? = some c := by
    have hkj : k ≠ j := fun h => hne (congrArg some h)
    rw [List.getElem?_eraseIdx]
    by_cases hlt : k < j
    · rw [if_pos hlt, if_neg (by omega), Nat.sub_add_cancel (by omega), hc]
    · rw [if_neg hlt, if_pos (by omega), hc]
  cases e with
  | broadCastVote q =>
    obtain ⟨⟨rf, sent⟩, -, rfl⟩ := Option.map_eq_some_iff.mp (orPanic_eq_ok.mp hstep)
    cases sent with
    | none => exact hc
    | some args => exact happend _
  | start q command =>
    obtain rfl := Except.ok.inj hstep
    exact hc
  | checkConsistency q peer =>
    simp only [Cluster.step] at hstep
    split at hstep
    · cases hstep
    obtain ⟨sent, -, rfl⟩ := Option.map_eq_some_iff.mp (orPanic_eq_ok.mp hstep)
    rcases sent with _ | _ | _
    · exact hc
    · exact happend _
    · exact happend _
  | compact q cmdIndex snapshot =>
    simp only [Cluster.step] at hstep
    split at hstep
    · obtain ⟨rf, -, rfl⟩ := Option.map_eq_some_iff.mp (orPanic_eq_ok.mp hstep)
      exact hc
    · cases hstep
  | apply q =>
    simp only [Cluster.step] at hstep
    split at hstep
    · cases hstep
    · obtain ⟨rf, -, rfl⟩ := Option.map_eq_some_iff.mp (orPanic_eq_ok.mp hstep)
      exact hc
  | handle k =>
    obtain ⟨c, -, hrun⟩ := onCall_eq_ok.mp hstep
    rcases handle_cases hrun with ⟨_, _, _, -, -, rfl⟩ | ⟨_, _, _, -, -, rfl⟩ |
      ⟨_, _, _, _, -, -, rfl⟩
    all_goals exact hset hcall _
  | notify k =>
    obtain ⟨c, -, hrun⟩ := onCall_eq_ok.mp hstep
    obtain ⟨args, reply, epoch, -, -, rfl⟩ := notify_cases hrun
    exact hset hcall _
  | process k =>
    obtain ⟨c, -, hrun⟩ := onCall_eq_ok.mp hstep
    obtain ⟨-, ⟨_, _, -, rfl⟩ | ⟨_, _, _, -, -, rfl⟩ | ⟨_, _, -, rfl⟩⟩ := process_cases hrun
    all_goals exact herase hcall
  | lose k =>
    obtain ⟨c, -, hrun⟩ := onCall_eq_ok.mp hstep
    obtain rfl := Except.ok.inj hrun
    exact herase hcall
  | restart q =>
    obtain rfl := Except.ok.inj hstep
    exact hc

theorem Cluster.epoch_of_step (hstep : σ.step e = .ok σ') (hcrash : e.restarted ≠ some p) :
    σ'.epoch p = σ.epoch p := by
  cases e with
  | broadCastVote q =>
    obtain ⟨⟨rf, sent⟩, -, rfl⟩ := Option.map_eq_some_iff.mp (orPanic_eq_ok.mp hstep)
    cases sent <;> rfl
  | start q command =>
    obtain rfl := Except.ok.inj hstep
    rfl
  | checkConsistency q peer =>
    simp only [Cluster.step] at hstep
    split at hstep
    · cases hstep
    obtain ⟨sent, -, rfl⟩ := Option.map_eq_some_iff.mp (orPanic_eq_ok.mp hstep)
    rcases sent with _ | _ | _ <;> rfl
  | compact q cmdIndex snapshot =>
    simp only [Cluster.step] at hstep
    split at hstep
    · obtain ⟨rf, -, rfl⟩ := Option.map_eq_some_iff.mp (orPanic_eq_ok.mp hstep)
      rfl
    · cases hstep
  | apply q =>
    simp only [Cluster.step] at hstep
    split at hstep
    · cases hstep
    · obtain ⟨rf, -, rfl⟩ := Option.map_eq_some_iff.mp (orPanic_eq_ok.mp hstep)
      rfl
  | handle k =>
    obtain ⟨c, -, hrun⟩ := onCall_eq_ok.mp hstep
    rcases handle_cases hrun with ⟨_, _, _, -, -, rfl⟩ | ⟨_, _, _, -, -, rfl⟩ |
      ⟨_, _, _, _, -, -, rfl⟩
    all_goals rfl
  | notify k =>
    obtain ⟨c, -, hrun⟩ := onCall_eq_ok.mp hstep
    obtain ⟨args, reply, epoch, -, -, rfl⟩ := notify_cases hrun
    rfl
  | process k =>
    obtain ⟨c, -, hrun⟩ := onCall_eq_ok.mp hstep
    obtain ⟨-, ⟨_, _, -, rfl⟩ | ⟨_, _, _, -, -, rfl⟩ | ⟨_, _, -, rfl⟩⟩ := process_cases hrun
    all_goals rfl
  | lose k =>
    obtain ⟨c, -, hrun⟩ := onCall_eq_ok.mp hstep
    obtain rfl := Except.ok.inj hrun
    rfl
  | restart q =>
    obtain rfl := Except.ok.inj hstep
    exact Function.update_of_ne (fun h => hcrash (congrArg some h.symm)) _ _

end Frame

/-! ### Who signals -/

namespace Raft

variable {rf rf' : Raft n α}

theorem Quiet.persistIf (h : rf.Quiet rf') (change : Bool) : rf.Quiet (rf'.persistIf change) :=
  ⟨by simpa using h.1, by simpa using h.2⟩

theorem quiet_followLeader (rf : Raft n α) (term : ℕ) : rf.Quiet (rf.followLeader term) :=
  ⟨by simp, by simp⟩

theorem quiet_requestVote {args : RequestVoteArgs n} {reply : RequestVoteReply}
    (h : rf.requestVote args = some (rf', reply)) : rf.Quiet rf' := by
  obtain ⟨v, s, c, hsee⟩ := seeTerm_eq rf args.term
  rcases requestVote_outcome h with rfl | ⟨change, rfl⟩ | rfl
  · exact ⟨rfl, rfl⟩
  · exact Quiet.persistIf ⟨by rw [hsee], by rw [hsee]⟩ change
  · exact Quiet.persistIf ⟨by simp [hsee], by simp [hsee]⟩ true

theorem quiet_installSnapShot {args : InstallSnapshotArgs n} {reply : InstallSnapshotReply}
    {installed : Bool} (h : rf.installSnapShot args = some (rf', reply, installed)) :
    rf.Quiet rf' := by
  have hfollow := quiet_followLeader rf args.term
  rcases installSnapShot_outcome h with ⟨-, rfl | ⟨change, rfl⟩⟩ | ⟨-, -, logs, rfl⟩
  · exact ⟨rfl, rfl⟩
  · exact hfollow.persistIf change
  · exact hfollow

theorem quiet_broadCastVote {sent : Option (RequestVoteArgs n)}
    (h : rf.broadCastVote = some (rf', sent)) : rf.Quiet rf' := by
  rw [broadCastVote] at h
  dsimp only at h
  repeat' split at h
  all_goals first | cases h; done | obtain ⟨rfl, -⟩ := Prod.mk.inj (Option.some.inj h)
  all_goals exact ⟨rfl, rfl⟩

theorem quiet_start (rf : Raft n α) (command : Option α) : rf.Quiet (rf.start command).1 := by
  rw [start]
  split <;> exact ⟨rfl, rfl⟩

theorem quiet_compact {cmdIndex : ℕ} {snapshot : List UInt8}
    (h : rf.compact cmdIndex snapshot = some rf') : rf.Quiet rf' := by
  rw [compact] at h
  dsimp only at h
  repeat' split at h
  all_goals first | cases h; done | obtain rfl := Option.some.inj h
  all_goals exact ⟨rfl, rfl⟩

theorem quiet_notifyAppUseNewSnapShot (rf : Raft n α) (snapshot : List UInt8) :
    rf.Quiet (rf.notifyAppUseNewSnapShot snapshot) := by
  rw [notifyAppUseNewSnapShot]
  split <;> exact ⟨rfl, rfl⟩

theorem quiet_sendRequestVoteAndProcess (rf : Raft n α) (reply : RequestVoteReply) :
    rf.Quiet (rf.sendRequestVoteAndProcess reply) := by
  rcases sendRequestVoteAndProcess_cases rf reply with heq | ⟨-, heq⟩ | ⟨-, -, -, heq | ⟨-, heq⟩⟩
  all_goals rw [heq]; exact ⟨rfl, rfl⟩

theorem quiet_sendSnapShotAndProcess (rf : Raft n α) (args : InstallSnapshotArgs n)
    (server : Fin n) (reply : InstallSnapshotReply) :
    rf.Quiet (rf.sendSnapShotAndProcess args server reply) := by
  rcases sendSnapShotAndProcess_cases rf args server reply with heq | ⟨-, heq⟩ | ⟨-, -, -, heq⟩
  all_goals rw [heq]; exact ⟨rfl, rfl⟩

end Raft

/-- **What a step does to the channel of a peer.** -/
theorem Cluster.PeerStep.commitCh {σ : Cluster n α} {p : Fin n} {e : Event n α} {rf : Raft n α}
    (h : PeerStep σ p e rf) : rf.commitCh = (σ.peers p).commitCh ∨
      rf.commitCh = (σ.peers p).commitCh + 1 ∧ (∃ k, e = .handle k ∨ e = .process k) ∨
      e = .apply p ∧ rf.commitCh = (σ.peers p).commitCh - 1 ∨
      e = .restart p ∧ rf.commitCh = 0 := by
  cases h with
  | idle => exact .inl rfl
  | broadCastVote hrun => exact .inl (Raft.quiet_broadCastVote hrun).2
  | start command => exact .inl (Raft.quiet_start _ command).2
  | compact hrun => exact .inl (Raft.quiet_compact hrun).2
  | apply hrun => exact .inr (.inr (.inl ⟨rfl, Raft.applyLoop_commitCh _ _ hrun⟩))
  | requestVote hrun => exact .inl (Raft.quiet_requestVote hrun).2
  | appendEntries hrun =>
    rcases Raft.appendEntries_signals hrun with ⟨-, hsame⟩ | ⟨-, hmore⟩
    · exact .inl hsame
    · exact .inr (.inl ⟨hmore, _, .inl rfl⟩)
  | installSnapShot hrun => exact .inl (Raft.quiet_installSnapShot hrun).2
  | notify snapshot => exact .inl (Raft.quiet_notifyAppUseNewSnapShot _ snapshot).2
  | processVote reply => exact .inl (Raft.quiet_sendRequestVoteAndProcess _ reply).2
  | processAppend _ _ _ hrun =>
    rcases Raft.sendAppendEntriesAndProcess_signals hrun with ⟨-, hsame⟩ | ⟨-, hmore⟩
    · exact .inl hsame
    · exact .inr (.inl ⟨hmore, _, .inr rfl⟩)
  | processSnapShot => exact .inl (Raft.quiet_sendSnapShotAndProcess _ _ _ _).2
  | restart => exact .inr (.inr (.inr ⟨rfl, (Raft.make_fields p _).2.2.2.2.2⟩))

/-! ### A critical section that waits -/

section Waiting

variable {σ σ' : Cluster n α} {e e' : Event n α} {p : Fin n}

/-- The critical section can be gone through at `p`: it is that of an `AppendEntries` handler, or of
the processor of a reply to it. -/
inductive Cluster.Waiting (σ : Cluster n α) (p : Fin n) : Event n α → Prop
  | handle {k : ℕ} {c : Call n α} {args : AppendEntriesArgs n α} (hc : σ.calls[k]? = some c)
      (hserver : c.server = p) (hbody : c.body = .appendEntries args none) : Waiting σ p (.handle k)
  | process {k : ℕ} {c : Call n α} {args : AppendEntriesArgs n α} {reply : AppendEntriesReply}
      {rf : Raft n α} (hc : σ.calls[k]? = some c) (hcaller : c.caller = p)
      (hepoch : σ.epoch p = c.epoch) (hbody : c.body = .appendEntries args (some reply))
      (hrun : (σ.peers p).sendAppendEntriesAndProcess args c.server reply = some rf) :
      Waiting σ p (.process k)

theorem Cluster.Waiting.locks_eq (h : σ.Waiting p e) : σ.locks e = some p := by
  cases h with
  | handle hc hserver => simp [locks, hc, hserver]
  | process hc hcaller => simp [locks, hc, hcaller]

theorem Cluster.Waiting.restarted_eq (h : σ.Waiting p e) : e.restarted = none := by
  cases h <;> rfl

/-- Nothing else has a signal to send. -/
theorem Cluster.waiting_of_lt (hstep : σ.step e = .ok σ') (hlock : σ.locks e = some p)
    (hlt : (σ.peers p).commitCh < (σ'.peers p).commitCh) : σ.Waiting p e := by
  obtain ⟨k, hk⟩ : ∃ k, e = .handle k ∨ e = .process k := by
    rcases (peerStep_of_step hstep p).commitCh with h | ⟨-, h⟩ | ⟨-, h⟩ | ⟨-, h⟩
    · omega
    · exact h
    · omega
    · omega
  have hquiet {rf : Raft n α} (hself : σ'.peers p = rf) (h : (σ.peers p).Quiet rf) : False := by
    rw [hself, h.2] at hlt
    exact Nat.lt_irrefl _ hlt
  rcases hk with rfl | rfl
  · obtain ⟨c, hc, hrun⟩ := onCall_eq_ok.mp hstep
    obtain rfl : c.server = p := by simpa [locks, hc] using hlock
    rcases handle_cases hrun with ⟨_, _, _, -, hrpc, rfl⟩ | ⟨args, _, _, hbody, -, -⟩ |
      ⟨_, _, _, _, -, hrpc, rfl⟩
    · exact (hquiet (Function.update_self ..) (Raft.quiet_requestVote hrpc)).elim
    · exact .handle hc rfl hbody
    · exact (hquiet (Function.update_self ..) (Raft.quiet_installSnapShot hrpc)).elim
  · obtain ⟨c, hc, hrun⟩ := onCall_eq_ok.mp hstep
    obtain rfl : c.caller = p := by simpa [locks, hc] using hlock
    obtain ⟨hepoch, ⟨_, reply, -, rfl⟩ | ⟨args, reply, rf, hbody, hproc, -⟩ |
      ⟨args, reply, -, rfl⟩⟩ := process_cases hrun
    · exact (hquiet (Function.update_self ..) (Raft.quiet_sendRequestVoteAndProcess _ reply)).elim
    · exact .process hc rfl hepoch hbody hproc
    · exact (hquiet (Function.update_self ..)
        (Raft.quiet_sendSnapShotAndProcess _ args c.server reply)).elim

/-- **The channel of a peer**: its daemon takes a signal or it is made anew, or there is one more
from a critical section, or it is as it was. -/
theorem Cluster.commitCh_of_step (hstep : σ.step e = .ok σ') (p : Fin n) :
    (e.resumed = some p → (σ'.peers p).commitCh ≤ (σ.peers p).commitCh - 1) ∧
    (e.resumed ≠ some p → (σ'.peers p).commitCh = (σ.peers p).commitCh ∨
      (σ'.peers p).commitCh = (σ.peers p).commitCh + 1 ∧ σ.Waiting p e) := by
  refine ⟨fun hresumed => ?_, fun hresumed => ?_⟩
  · cases e with
    | apply q =>
      obtain rfl : q = p := Option.some.inj hresumed
      simp only [Cluster.step] at hstep
      split at hstep
      · cases hstep
      obtain ⟨rf, hrun, rfl⟩ := Option.map_eq_some_iff.mp (orPanic_eq_ok.mp hstep)
      simpa [Cluster.setPeer] using (Raft.applyLoop_commitCh _ _ hrun).le
    | restart q =>
      obtain rfl : q = p := Option.some.inj hresumed
      obtain rfl := Except.ok.inj hstep
      simp [Cluster.setPeer, Raft.make_fields]
    | broadCastVote | start | checkConsistency | compact | handle | notify | process | lose =>
      cases hresumed
  · rcases (peerStep_of_step hstep p).commitCh with heq | ⟨hmore, -⟩ | ⟨rfl, -⟩ | ⟨rfl, -⟩
    · exact .inl heq
    · have hlock : σ.locks e = some p := by
        by_contra hlock
        have hcrash : e.restarted ≠ some p := by
          intro hcrash
          rw [Event.eq_restart hcrash] at hresumed
          exact hresumed rfl
        obtain ⟨ch, hpeer⟩ := peers_of_step hstep hlock hcrash
        rw [hpeer] at hmore
        exact Nat.ne_of_lt (Nat.lt_succ_self _) hmore
      exact .inr ⟨hmore, waiting_of_lt hstep hlock (by omega)⟩
    · exact absurd rfl hresumed
    · exact absurd rfl hresumed

/-- What is sent to the application makes no difference to the processor of a reply. -/
theorem Raft.sendAppendEntriesAndProcess_applyCh (rf : Raft n α) (ch : List (ApplyMsg α))
    (args : AppendEntriesArgs n α) (server : Fin n) (reply : AppendEntriesReply) :
    { rf with applyCh := ch }.sendAppendEntriesAndProcess args server reply =
      (rf.sendAppendEntriesAndProcess args server reply).map fun rf =>
        { rf with applyCh := ch } := by
  simp only [sendAppendEntriesAndProcess, logIdxGlobal2Local]
  split_ifs
  · rfl
  · rfl
  · split
    · rfl
    · split_ifs <;> rfl
  · rfl
  · rfl
  · rfl

/-- What an event must leave alone for a critical section to go on waiting at `p`. -/
structure Cluster.Spares (σ : Cluster n α) (p : Fin n) (e e' : Event n α) : Prop where
  lock : σ.locks e' ≠ some p
  crash : e'.restarted ≠ some p
  lose : ∀ k, e' = .lose k → e.call ≠ some k

/-- An event that needs another lock is not about the same call. -/
theorem Cluster.Waiting.call_ne (h : σ.Waiting p e) (hs : σ.Spares p e e')
    (hstep : σ.step e' = .ok σ') : e'.call ≠ e.call := by
  have hlocks := h.locks_eq
  intro heq
  cases h with
  | @handle k c args hc hserver hbody =>
    cases e' with
    | handle j =>
      obtain rfl : j = k := Option.some.inj heq
      exact hs.lock hlocks
    | notify j =>
      obtain rfl : j = k := Option.some.inj heq
      obtain ⟨c', hc', hrun⟩ := onCall_eq_ok.mp hstep
      obtain rfl := Option.some.inj (hc.symm.trans hc')
      obtain ⟨_, _, _, hb, -⟩ := notify_cases hrun
      cases hbody.symm.trans hb
    | process j =>
      obtain rfl : j = k := Option.some.inj heq
      obtain ⟨c', hc', hrun⟩ := onCall_eq_ok.mp hstep
      obtain rfl := Option.some.inj (hc.symm.trans hc')
      obtain ⟨-, ⟨_, _, hb, -⟩ | ⟨_, _, _, hb, -⟩ | ⟨_, _, hb, -⟩⟩ := process_cases hrun
      all_goals cases hbody.symm.trans hb
    | lose j => exact hs.lose j rfl heq.symm
    | broadCastVote | start | checkConsistency | compact | apply | restart => cases heq
  | @process k c args reply rf hc hcaller hepoch hbody hrun =>
    cases e' with
    | handle j =>
      obtain rfl : j = k := Option.some.inj heq
      obtain ⟨c', hc', hrun⟩ := onCall_eq_ok.mp hstep
      obtain rfl := Option.some.inj (hc.symm.trans hc')
      rcases handle_cases hrun with ⟨_, _, _, hb, -⟩ | ⟨_, _, _, hb, -⟩ | ⟨_, _, _, _, hb, -⟩
      all_goals cases hbody.symm.trans hb
    | notify j =>
      obtain rfl : j = k := Option.some.inj heq
      obtain ⟨c', hc', hrun⟩ := onCall_eq_ok.mp hstep
      obtain rfl := Option.some.inj (hc.symm.trans hc')
      obtain ⟨_, _, _, hb, -⟩ := notify_cases hrun
      cases hbody.symm.trans hb
    | process j =>
      obtain rfl : j = k := Option.some.inj heq
      exact hs.lock hlocks
    | lose j => exact hs.lose j rfl heq.symm
    | broadCastVote | start | checkConsistency | compact | apply | restart => cases heq

/-- **A critical section that waits can go on**, whatever happens elsewhere. -/
theorem Cluster.Waiting.keep (h : σ.Waiting p e) (hs : σ.Spares p e e')
    (hstep : σ.step e' = .ok σ') : σ'.Waiting p (e.moved e'.position) := by
  have hcall := h.call_ne hs hstep
  obtain ⟨ch, hpeer⟩ := peers_of_step hstep hs.lock hs.crash
  cases h with
  | handle hc hserver hbody => exact .handle (calls_of_step hstep hc hcall) hserver hbody
  | process hc hcaller hepoch hbody hrun =>
    have hrun' := Raft.sendAppendEntriesAndProcess_applyCh (σ.peers p) ch
    rw [← hpeer] at hrun'
    exact .process (calls_of_step hstep hc hcall) hcaller
      ((epoch_of_step hstep hs.crash).trans hepoch) hbody ((hrun' ..).trans (congrArg _ hrun))

/-- What a leader was told stays true while it waits. -/
theorem Cluster.Waiting.truthful (h : σ.Waiting p e) (hs : σ.Spares p e e')
    (hstep : σ.step e' = .ok σ') (htrue : Truthful σ e) :
    Truthful σ' (e.moved e'.position) := by
  have hcall := h.call_ne hs hstep
  obtain ⟨ch, hpeer⟩ := peers_of_step hstep hs.lock hs.crash
  cases h with
  | handle hc hserver hbody =>
    intro k hk
    cases hk
  | process hc hcaller hepoch hbody hrun =>
    intro k hk c' hc' x hx
    obtain rfl := Option.some.inj hk
    obtain rfl := Option.some.inj ((calls_of_step hstep hc hcall).symm.trans hc')
    have hconfirms := htrue _ rfl _ hc x hx
    rw [hcaller] at hconfirms ⊢
    rw [hpeer]
    exact hconfirms

end Waiting

/-! ### What a step does -/

namespace SignalCluster

variable {s s' : SignalCluster n α} {x : SignalClusterEvent n α} {e : Event n α} {p : Fin n}
  {net : Cluster n α}

/-- The steps, with what they need. -/
inductive Stepped (s : SignalCluster n α) : SignalClusterEvent n α → SignalCluster n α → Prop
  | act {e : Event n α} {net : Cluster n α} (hfree : s.Free e) (hrun : s.net.step e = .ok net)
      (hroom : ∀ p, s.net.locks e = some p → (s.net.peers p).commitCh < (net.peers p).commitCh →
        s.signals p < commitChSlots) : Stepped s (.act e) (s.went e net)
  | wait {e : Event n α} {net : Cluster n α} {p : Fin n} (hfree : s.Free e)
      (hrun : s.net.step e = .ok net) (hlock : s.net.locks e = some p)
      (hsignal : (s.net.peers p).commitCh < (net.peers p).commitCh)
      (hfull : commitChSlots ≤ s.signals p) :
      Stepped s (.act e) { s with held := Function.update s.held p (some e) }
  | send {p : Fin n} {e : Event n α} {net : Cluster n α} (hheld : s.held p = some e)
      (hroom : s.signals p < commitChSlots) (hrun : s.net.step e = .ok net) :
      Stepped s (.send p) ((s.release p).went e net)
  | receive {p : Fin n} (htaken : s.taken p = false) (hsignal : 0 < s.signals p) :
      Stepped s (.receive p) { s with taken := Function.update s.taken p true }
  | lock {p : Fin n} {net : Cluster n α} (htaken : s.taken p = true) (hheld : s.held p = none)
      (hrun : s.net.step (.apply p) = .ok net) : Stepped s (.lock p) (s.went (.apply p) net)

theorem stepped_of_step (h : s.step x = .ok s') : Stepped s x s' := by
  cases x with
  | act e =>
    rw [step] at h
    split at h
    next hfree =>
      obtain ⟨net, hrun, rfl⟩ := map_eq_ok.mp h
      rw [entered]
      split
      next hnone =>
        refine .act hfree hrun fun p hp => ?_
        cases hnone.symm.trans hp
      next p hlock =>
        split
        next hfull => exact .wait hfree hrun hlock hfull.1 hfull.2
        next hroom =>
          refine .act hfree hrun fun q hq hlt => ?_
          obtain rfl := Option.some.inj (hlock.symm.trans hq)
          exact Nat.lt_of_not_le fun hfull => hroom ⟨hlt, hfull⟩
    · cases h
  | send p =>
    rw [step] at h
    split at h
    · cases h
    next e hheld =>
    split at h
    next hroom =>
      obtain ⟨net, hrun, rfl⟩ := map_eq_ok.mp h
      exact .send hheld hroom hrun
    · cases h
  | receive p =>
    obtain ⟨⟨htaken, hsignal⟩, rfl⟩ := ite_ok_eq_ok.mp h
    exact .receive htaken hsignal
  | lock p =>
    rw [step] at h
    split at h
    next hlock =>
      obtain ⟨net, hrun, rfl⟩ := map_eq_ok.mp h
      exact .lock hlock.1 hlock.2 hrun
    · cases h

theorem step_of_stepped (h : Stepped s x s') : s.step x = .ok s' := by
  cases h with
  | act hfree hrun hroom =>
    rw [step, if_pos hfree, hrun]
    refine congrArg Except.ok ?_
    rw [entered]
    split
    · rfl
    next p hlock =>
    refine if_neg fun hfull => ?_
    exact Nat.not_le_of_lt (hroom p hlock hfull.1) hfull.2
  | wait hfree hrun hlock hsignal hfull =>
    rw [step, if_pos hfree, hrun]
    refine congrArg Except.ok ?_
    simp only [entered, hlock]
    exact if_pos ⟨hsignal, hfull⟩
  | send hheld hroom hrun =>
    simp only [step, hheld, if_pos hroom, hrun]
    rfl
  | receive htaken hsignal => exact if_pos ⟨htaken, hsignal⟩
  | lock htaken hheld hrun =>
    rw [step, if_pos ⟨htaken, hheld⟩, hrun]
    rfl

/-- An event that is free leaves those alone that wait. -/
theorem Free.spares {e₀ : Event n α} (h : s.Free e) (hheld : s.held p = some e₀)
    (hcrash : e.restarted ≠ some p) : s.net.Spares p e₀ e := by
  have hlock (hfree : ∀ q ∈ s.net.locks e, s.held q = none) : s.net.locks e ≠ some p := by
    intro hlock
    cases hheld.symm.trans (hfree p hlock)
  cases e with
  | apply q => exact h.elim
  | lose k =>
    refine ⟨fun hnone => ?_, hcrash, fun j hj hcall => ?_⟩
    · cases hnone
    · obtain rfl := Event.lose.inj hj
      exact h p (by rw [hheld]; exact hcall)
  | broadCastVote | start | checkConsistency | compact | handle | notify | process | restart =>
    exact ⟨hlock h, hcrash, fun j hj => by cases hj⟩

/-! ### What holds in every run -/

/-- What a critical section was asked for when it began still holds when it goes on after a wait,
and the daemon is asked for nothing. -/
structure Lasting (ok : Cluster n α → Event n α → Prop) : Prop where
  apply : ∀ σ p, ok σ (.apply p)
  keep : ∀ {σ σ' p e e'}, σ.Waiting p e → σ.Spares p e e' → σ.step e' = .ok σ' → ok σ e →
    ok σ' (e.moved e'.position)

theorem lasting_always : Lasting (α := α) (@Always n α) where
  apply _ _ := trivial
  keep _ _ _ _ := trivial

theorem lasting_truthful : Lasting (α := α) (@Truthful n α) where
  apply σ p k hk := by cases hk
  keep := Cluster.Waiting.truthful

/-- No channel is overfull, and a critical section that waits for a slot can go on. -/
structure Inv (ok : Cluster n α → Event n α → Prop) (s : SignalCluster n α) : Prop where
  room : ∀ p, s.signals p ≤ commitChSlots
  taken : ∀ p, s.taken p = true → 0 < (s.net.peers p).commitCh
  full : ∀ p e, s.held p = some e → commitChSlots ≤ (s.net.peers p).commitCh
  waiting : ∀ p e, s.held p = some e → s.net.Waiting p e
  asked : ∀ p e, s.held p = some e → ok s.net e

section Inv

variable {ok : Cluster n α → Event n α → Prop}

theorem inv_init : (init n α).Inv ok where
  room _ := Nat.zero_le _
  taken _ h := by cases h
  full _ _ h := by cases h
  waiting _ _ h := by cases h
  asked _ _ h := by cases h

theorem held_release {q : Fin n} (h : (s.release p).held q = some e) :
    q ≠ p ∧ s.held q = some e := by
  rcases eq_or_ne q p with rfl | hne
  · simp [release] at h
  · exact ⟨hne, by simpa [release, hne] using h⟩

theorem Inv.release (h : s.Inv ok) (p : Fin n) : (s.release p).Inv ok where
  room := h.room
  taken := h.taken
  full q e he := h.full q e (held_release he).2
  waiting q e he := h.waiting q e (held_release he).2
  asked q e he := h.asked q e (held_release he).2

theorem held_went {e₀ : Event n α} (h : (s.went e net).held p = some e₀) :
    e.restarted ≠ some p ∧ ∃ e₁, s.held p = some e₁ ∧ e₁.moved e.position = e₀ := by
  simp only [went] at h
  split at h
  · cases h
  next hcrash => exact ⟨hcrash, Option.map_eq_some_iff.mp h⟩

/-- **An event that spares those who wait**, and has a slot if it needs one. -/
theorem Inv.went (hlast : Lasting ok) (h : s.Inv ok) (hrun : s.net.step e = .ok net)
    (hspares : ∀ p e₀, s.held p = some e₀ → e.restarted ≠ some p → s.net.Spares p e₀ e)
    (hroom : ∀ p, s.net.locks e = some p → (s.net.peers p).commitCh < (net.peers p).commitCh →
      s.signals p < commitChSlots) : (s.went e net).Inv ok := by
  refine ⟨fun p => ?_, fun p hp => ?_, fun p e₀ he₀ => ?_, fun p e₀ he₀ => ?_,
    fun p e₀ he₀ => ?_⟩
  · have hold := h.room p
    have htaken := h.taken p
    have hone := Bool.toNat_le (s.taken p)
    obtain ⟨hresumed, hgoing⟩ := commitCh_of_step hrun p
    rw [signals] at hold ⊢
    by_cases hres : e.resumed = some p
    · have hless := hresumed hres
      simp only [SignalCluster.went, hres, ne_eq, not_true_eq_false, decide_false, Bool.and_false,
        Bool.toNat_false]
      omega
    · simp only [SignalCluster.went, ne_eq, hres, not_false_eq_true, decide_true, Bool.and_true]
      rcases hgoing hres with heq | ⟨hmore, hwaiting⟩
      · omega
      · have hslot := hroom p hwaiting.locks_eq (by omega)
        rw [signals] at hslot
        have hpos : (s.taken p).toNat ≤ (s.net.peers p).commitCh := by
          cases hp : s.taken p with
          | false => exact Nat.zero_le _
          | true => exact htaken hp
        omega
  · simp only [SignalCluster.went, Bool.and_eq_true, decide_eq_true_eq] at hp ⊢
    have hpos := h.taken p hp.1
    rcases (commitCh_of_step hrun p).2 hp.2 with heq | ⟨hmore, -⟩ <;> omega
  · obtain ⟨hcrash, e₁, he₁, rfl⟩ := held_went he₀
    obtain ⟨ch, hpeer⟩ := peers_of_step hrun (hspares p e₁ he₁ hcrash).lock hcrash
    simp only [SignalCluster.went, hpeer]
    exact h.full p e₁ he₁
  · obtain ⟨hcrash, e₁, he₁, rfl⟩ := held_went he₀
    exact (h.waiting p e₁ he₁).keep (hspares p e₁ he₁ hcrash) hrun
  · obtain ⟨hcrash, e₁, he₁, rfl⟩ := held_went he₀
    exact hlast.keep (h.waiting p e₁ he₁) (hspares p e₁ he₁ hcrash) hrun (h.asked p e₁ he₁)

/-- What waits at `p` leaves the others alone that wait. -/
theorem Inv.spares (h : s.Inv ok) (hheld : s.held p = some e) {q : Fin n} {e₀ : Event n α}
    (hne : q ≠ p) : s.net.Spares q e₀ e := by
  have hwaiting := h.waiting p e hheld
  refine ⟨fun hlock => hne ?_, ?_, fun k hk => ?_⟩
  · exact Option.some.inj (hlock.symm.trans hwaiting.locks_eq)
  · rw [hwaiting.restarted_eq]
    exact (Option.some_ne_none q).symm
  · subst hk
    cases hwaiting

theorem spares_apply {q : Fin n} {e₀ : Event n α} (hfree : s.held p = none)
    (hheld : s.held q = some e₀) : s.net.Spares q e₀ (.apply p) := by
  refine ⟨fun hlock => ?_, fun hcrash => ?_, fun k hk => ?_⟩
  · obtain rfl := Option.some.inj hlock
    cases hfree.symm.trans hheld
  · cases hcrash
  · cases hk

theorem signals_receive (q : Fin n) :
    { s with taken := Function.update s.taken p true }.signals q =
      if q = p then (s.net.peers p).commitCh - 1 else s.signals q := by
  rcases eq_or_ne q p with rfl | hne
  · simp [signals]
  · simp [signals, hne]

theorem Inv.step (hlast : Lasting ok) (h : s.Inv ok) (hok : s.Begins ok x)
    (hstep : Stepped s x s') : s'.Inv ok := by
  cases hstep with
  | act hfree hrun hroom =>
    exact h.went hlast hrun (fun _ _ hheld hcrash => hfree.spares hheld hcrash) hroom
  | @wait e net p hfree hrun hlock hsignal hfull =>
    have hheld {q : Fin n} {e₀ : Event n α} (he₀ : Function.update s.held p (some e) q = some e₀) :
        q = p ∧ e = e₀ ∨ s.held q = some e₀ := by
      rcases eq_or_ne q p with rfl | hne
      · exact .inl ⟨rfl, by simpa using he₀⟩
      · exact .inr (by simpa [hne] using he₀)
    refine ⟨h.room, h.taken, fun q e₀ he₀ => ?_, fun q e₀ he₀ => ?_, fun q e₀ he₀ => ?_⟩
    · rcases hheld he₀ with ⟨rfl, rfl⟩ | hold
      · exact hfull.trans (Nat.sub_le _ _)
      · exact h.full q e₀ hold
    · rcases hheld he₀ with ⟨rfl, rfl⟩ | hold
      · exact waiting_of_lt hrun hlock hsignal
      · exact h.waiting q e₀ hold
    · rcases hheld he₀ with ⟨rfl, rfl⟩ | hold
      · exact hok
      · exact h.asked q e₀ hold
  | @send p e net hheld hroom hrun =>
    refine (h.release p).went hlast hrun (fun q e₀ he₀ _ => ?_) fun q hq _ => ?_
    · exact h.spares hheld (held_release he₀).1
    · obtain rfl := Option.some.inj ((h.waiting p e hheld).locks_eq.symm.trans hq)
      exact hroom
  | @receive p htaken hsignal =>
    have hpos : 0 < (s.net.peers p).commitCh := hsignal.trans_le (Nat.sub_le _ _)
    refine ⟨fun q => ?_, fun q hq => ?_, h.full, h.waiting, h.asked⟩
    · have hp := h.room p
      rw [signals, htaken] at hp
      rw [signals_receive]
      split
      · exact (Nat.sub_le _ _).trans hp
      · exact h.room q
    · rcases eq_or_ne q p with rfl | hne
      · exact hpos
      · exact h.taken q (by simpa [hne] using hq)
  | @lock p net htaken hheld hrun =>
    refine h.went hlast hrun (fun q e₀ he₀ _ => spares_apply hheld he₀) fun q hq hlt => ?_
    obtain rfl := Option.some.inj hq
    have := (commitCh_of_step hrun p).1 rfl
    omega

theorem Run.inv {τ : List (SignalCluster n α)} (hlast : Lasting ok) (h : Run ok τ) :
    ∀ s ∈ τ, s.Inv ok :=
  Trace.invariant inv_init (fun _ _ _ hs hn => hs.step hlast hn.1 (stepped_of_step hn.2)) h

/-- **A run with channels is a run of the cluster**, in which a channel is a number and a signal is
received when it is dealt with. -/
theorem Run.refines (hlast : Lasting ok) {τ : List (SignalCluster n α)} (h : Run ok (s :: τ)) :
    ∃ τ', Cluster.Run ok (s.net :: τ') ∧
      Foundations.Follows SignalCluster.net (s :: τ) (s.net :: τ') := by
  refine Trace.refines (f := SignalCluster.net) (P := Inv ok) rfl inv_init
    (fun _ _ _ hs hn => hs.step hlast hn.1 (stepped_of_step hn.2)) ?_ h
  rintro s x s' hinv ⟨hok, hstep⟩
  cases stepped_of_step hstep with
  | act hfree hrun => exact .single trivial ⟨hok, hrun⟩
  | wait | receive => exact .refl _
  | send hheld _ hrun => exact .single trivial ⟨hinv.asked _ _ hheld, hrun⟩
  | lock _ _ hrun => exact .single trivial ⟨hlast.apply _ _, hrun⟩

theorem begins_always : s.Begins Always x := by
  cases x <;> trivial

theorem Run.always {τ : List (SignalCluster n α)} (h : Run ok τ) : Run Always τ :=
  Trace.mono h fun _ _ _ hn => ⟨begins_always, hn.2⟩

/-- The cluster of a state is that of a run of the cluster. -/
theorem Run.exists_net (hlast : Lasting ok) {τ : List (SignalCluster n α)} (h : Run ok τ)
    (hs : s ∈ τ) : ∃ τ', Cluster.Run ok (s.net :: τ') := by
  obtain ⟨front, τ₀, rfl⟩ := List.append_of_mem hs
  have hend : Run ok (s :: τ₀) := Trace.of_suffix h (List.suffix_append ..)
  obtain ⟨τ', hnet, -⟩ := hend.refines hlast
  exact ⟨τ', hnet⟩

end Inv

/-! ### The deadlock -/

theorem deadlocked_iff : (s.peer p).Deadlocked ↔
    (s.held p).isSome = true ∧ s.signals p = commitChSlots ∧ s.taken p = true := by
  simp only [SignalState.Deadlocked, peer]
  refine and_congr ?_ (and_congr Iff.rfl ?_)
  · split <;> simp_all
  · split <;> simp_all

theorem not_deadlocked (h : s.held p = none) : ¬ (s.peer p).Deadlocked := by
  rw [deadlocked_iff, h]
  exact fun hlocked => Bool.false_ne_true hlocked.1

/-- A peer whose lock is not taken waits as it did. -/
theorem went_of_ne (hrun : s.net.step e = .ok net) (hlock : s.net.locks e ≠ some p)
    (hcrash : e.restarted ≠ some p) : (s.went e net).signals p = s.signals p ∧
      (s.went e net).taken p = s.taken p ∧
      ((s.went e net).held p).isSome = (s.held p).isSome := by
  have hresumed : e.resumed ≠ some p := by
    cases e <;> first | exact hlock | exact hcrash
  obtain ⟨ch, hpeer⟩ := peers_of_step hrun hlock hcrash
  have htaken : (s.went e net).taken p = s.taken p := by simp [went, hresumed]
  refine ⟨?_, htaken, ?_⟩
  · rw [signals, signals, htaken, went, hpeer]
  · simp [went, hcrash]

/-- **A peer in the deadlock stays there** until it is restarted. -/
theorem deadlocked_step (hinv : s.Inv Always) (h : (s.peer p).Deadlocked)
    (hstep : s.step x = .ok s') (hcrash : x ≠ .act (.restart p)) : (s'.peer p).Deadlocked := by
  rw [deadlocked_iff] at h ⊢
  obtain ⟨hheld, hfull, htaken⟩ := h
  obtain ⟨e₀, he₀⟩ := Option.isSome_iff_exists.mp hheld
  have hkept {e : Event n α} {net : Cluster n α} (hrun : s.net.step e = .ok net)
      (hs : s.net.Spares p e₀ e) : ((s.went e net).held p).isSome = true ∧
        (s.went e net).signals p = commitChSlots ∧ (s.went e net).taken p = true := by
    obtain ⟨hsignals, htaken', hheld'⟩ := went_of_ne hrun hs.lock hs.crash
    exact ⟨hheld'.trans hheld, hsignals.trans hfull, htaken'.trans htaken⟩
  cases stepped_of_step hstep with
  | act hfree hrun =>
    refine hkept hrun (hfree.spares he₀ fun heq => hcrash ?_)
    rw [Event.eq_restart heq]
  | @wait e net q =>
    refine ⟨?_, hfull, htaken⟩
    rcases eq_or_ne p q with rfl | hne
    · simp
    · simpa [hne] using hheld
  | @send q e net hheld' hroom hrun =>
    rcases eq_or_ne p q with rfl | hne
    · exact absurd hfull hroom.ne
    obtain ⟨hheld₁, hrest⟩ := hkept hrun (hinv.spares hheld' hne)
    refine ⟨?_, hrest⟩
    simpa [went, release, hne] using hheld₁
  | @receive q htaken' =>
    rcases eq_or_ne p q with rfl | hne
    · cases htaken.symm.trans htaken'
    · exact ⟨hheld, by rw [signals_receive, if_neg hne, hfull], by simpa [hne] using htaken⟩
  | lock _ hfree hrun => exact hkept hrun (spares_apply hfree he₀)

end SignalCluster

end RaftKVDB
