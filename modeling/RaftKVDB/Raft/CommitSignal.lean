import RaftKVDB.Foundations.Rounds
import RaftKVDB.Raft.Cluster
import RaftKVDB.Raft.Positions

/-!
# The commit signal

A handler of `AppendEntries` and a processor of its replies send on `commitCh` while they hold
`rf.mu`; `applyLogEntryDaemon` receives from `commitCh` and then takes `rf.mu`. The channel has 100
slots. When they are full and the daemon, having received, waits for the lock, whoever holds the
lock to send once more waits for the daemon and the daemon waits for it.

In `Raft/Cluster` a critical section is one step. Here it is opened up: a goroutine takes the lock,
sends if it has something to signal, and releases the lock, and the daemon receives before it takes
the lock. `SignalState.enter` and what comes after it give the step of `Raft/Cluster` back.

## Main results

* `SignalState.step_deadlocked` — in the deadlock nothing can happen any more
* `SignalState.Clear.progress` — without it, whoever has the lock gets rid of it
* `commit_signal_no_deadlock` — it is not reached if the lock is not given away at a full channel
* `commit_signal_deadlocks` — it is reached if the daemon is slow
-/

namespace RaftKVDB

open Foundations

/-- Who has `rf.mu`: nobody, a goroutine that is about to send on `commitCh`, one that is about to
release the lock, or the daemon. -/
inductive MuHolder
  | free
  | sending
  | leaving
  | daemon
  deriving DecidableEq

/-- Where `applyLogEntryDaemon` is: at the receive, at the lock, or inside. -/
inductive DaemonPc
  | receiving
  | locking
  | working
  deriving DecidableEq

/-- A server, with `rf.commitCh` the number of signals in the channel. -/
structure SignalState (n : ℕ) (α : Type*) where
  rf : Raft n α
  mu : MuHolder
  daemon : DaemonPc

/-- What can happen. `other` is a critical section of any other function: it sends no signal. -/
inductive SignalEvent (n : ℕ) (α : Type*)
  | handle (args : AppendEntriesArgs n α)
  | process (args : AppendEntriesArgs n α) (server : Fin n) (reply : AppendEntriesReply)
  | other (rf : Raft n α)
  | send
  | unlock
  | receive
  | daemonLock
  | daemonUnlock

/-- `make(chan struct{}, 100)`. -/
def commitChSlots : ℕ := 100

variable {n : ℕ} {α : Type*}

namespace SignalState

/-- A server that was just made. -/
def init (me : Fin n) (persister : Persister n α) : SignalState n α :=
  ⟨Raft.make me persister, .free, .receiving⟩

/-- The lock is taken and everything is done but the signal, if there is one. `AppendEntries` saves
its state after the signal; nobody else on the server sees the difference, as the lock is held. -/
def enter (σ : SignalState n α) (rf : Raft n α) : SignalState n α :=
  { σ with
    rf := { rf with commitCh := σ.rf.commitCh }
    mu := if σ.rf.commitCh < rf.commitCh then .sending else .leaving }

/-- One event. -/
def step (σ : SignalState n α) : SignalEvent n α → Except Fault (SignalState n α)
  | .handle args =>
    if σ.mu = .free then
      Cluster.orPanic ((σ.rf.appendEntries args).map fun (rf, _) => σ.enter rf)
    else .error .disabled
  | .process args server reply =>
    if σ.mu = .free then
      Cluster.orPanic ((σ.rf.sendAppendEntriesAndProcess args server reply).map σ.enter)
    else .error .disabled
  | .other rf =>
    if σ.mu = .free ∧ rf.commitCh = σ.rf.commitCh then .ok { σ with rf := rf }
    else .error .disabled
  | .send =>
    if σ.mu = .sending ∧ σ.rf.commitCh < commitChSlots then
      .ok { σ with rf := { σ.rf with commitCh := σ.rf.commitCh + 1 }, mu := .leaving }
    else .error .disabled
  | .unlock => if σ.mu = .leaving then .ok { σ with mu := .free } else .error .disabled
  | .receive =>
    if σ.daemon = .receiving ∧ 0 < σ.rf.commitCh then
      .ok { σ with rf := { σ.rf with commitCh := σ.rf.commitCh - 1 }, daemon := .locking }
    else .error .disabled
  | .daemonLock =>
    if σ.daemon = .locking ∧ σ.mu = .free then
      Cluster.orPanic (σ.rf.applyLogEntryDaemon.map fun rf => ⟨rf, .daemon, .working⟩)
    else .error .disabled
  | .daemonUnlock =>
    if σ.mu = .daemon then .ok { σ with mu := .free, daemon := .receiving } else .error .disabled

/-- A run of the server, newest state first, all of whose steps meet the condition. -/
def Run (ok : SignalState n α → SignalEvent n α → Prop) (me : Fin n) (persister : Persister n α) :
    List (SignalState n α) → Prop :=
  Trace (init me persister) fun σ e σ' => ok σ e ∧ σ.step e = .ok σ'

/-- The holder of `rf.mu` is blocked on a full `commitCh`, and the daemon on `rf.mu`. -/
def Deadlocked (σ : SignalState n α) : Prop :=
  σ.mu = .sending ∧ σ.rf.commitCh = commitChSlots ∧ σ.daemon = .locking

instance (σ : SignalState n α) : Decidable σ.Deadlocked :=
  inferInstanceAs (Decidable (_ ∧ _ ∧ _))

/-- The event takes the lock with a commit index beyond the server's own, which it may follow. -/
def CarriesCommit (σ : SignalState n α) : SignalEvent n α → Prop
  | .handle args => σ.rf.commitIndex < args.leaderCommit
  | .process args _ _ => σ.rf.commitIndex < args.prevLogIndex + args.entries.length
  | _ => False

/-- The condition: while the daemon waits for the lock and the channel is full, the lock goes to
nobody who comes with a commit index beyond the server's own. -/
def Roomy (σ : SignalState n α) (e : SignalEvent n α) : Prop :=
  σ.CarriesCommit e → σ.daemon = .locking → σ.rf.commitCh < commitChSlots

instance (σ : SignalState n α) : DecidablePred σ.CarriesCommit
  | .handle args => inferInstanceAs (Decidable (σ.rf.commitIndex < args.leaderCommit))
  | .process args _ _ =>
    inferInstanceAs (Decidable (σ.rf.commitIndex < args.prevLogIndex + args.entries.length))
  | .other _ | .send | .unlock | .receive | .daemonLock | .daemonUnlock => .isFalse not_false

instance (σ : SignalState n α) (e : SignalEvent n α) : Decidable (σ.Roomy e) :=
  inferInstanceAs (Decidable (_ → _ → _))

end SignalState

/-! ### Who signals -/

namespace Raft

variable {rf rf' : Raft n α}

/-- Nothing new is committed, and there is no signal. -/
def Quiet (rf rf' : Raft n α) : Prop :=
  rf'.commitIndex = rf.commitIndex ∧ rf'.commitCh = rf.commitCh

/-- There is at most one signal, and none without a commit index beyond the own one. -/
def Signals (rf : Raft n α) (commit : ℕ) (rf' : Raft n α) : Prop :=
  rf.Quiet rf' ∨ rf.commitIndex < commit ∧ rf'.commitCh = rf.commitCh + 1

theorem followCommit_signals (rf : Raft n α) (c : ℕ) : rf.Signals c (rf.followCommit c) := by
  rw [followCommit]
  split
  · next hlt => exact .inr ⟨hlt, rfl⟩
  · exact .inl ⟨rfl, rfl⟩

theorem appendEntries_signals {args : AppendEntriesArgs n α} {reply : AppendEntriesReply}
    (h : rf.appendEntries args = some (rf', reply)) : rf.Signals args.leaderCommit rf' := by
  rcases appendEntries_outcome h with ⟨rfl, -⟩ | ⟨-, ⟨change, rfl⟩ | ⟨logs, change, rfl⟩⟩
  · exact .inl ⟨rfl, rfl⟩
  · exact .inl ⟨by simp, by simp⟩
  · have hs := followCommit_signals { rf.followLeader args.term with logs := logs }
      args.leaderCommit
    simpa [Signals, Quiet] using hs

theorem sendAppendEntriesAndProcess_signals {args : AppendEntriesArgs n α} {server : Fin n}
    {reply : AppendEntriesReply} (h : rf.sendAppendEntriesAndProcess args server reply = some rf') :
    rf.Signals (args.prevLogIndex + args.entries.length) rf' := by
  rw [sendAppendEntriesAndProcess] at h
  dsimp only at h
  repeat' split at h
  all_goals first | cases h; done | obtain rfl := Option.some.inj h
  all_goals first | exact .inl ⟨rfl, rfl⟩ | exact .inr ⟨by assumption, rfl⟩

/-- The daemon sends no signal itself. -/
theorem applyLoop_commitCh {last : ℕ} (fuel i : ℕ) {rf : Raft n α}
    (h : applyLoop last fuel i rf = some rf') : rf'.commitCh = rf.commitCh := by
  fun_induction applyLoop last fuel i rf with
  | case1 => rw [Option.some.inj h]
  | case2 => rw [Option.some.inj h]
  | case3 _ _ _ _ _ ih => exact ih h
  | case4 => cases h
  | case5 _ _ _ _ _ _ _ ih => exact ih h

end Raft

namespace SignalState

variable {σ σ' : SignalState n α} {rf : Raft n α}

theorem handle_eq_ok {args : AppendEntriesArgs n α} : σ.step (.handle args) = .ok σ' ↔
    σ.mu = .free ∧ ∃ rf reply, σ.rf.appendEntries args = some (rf, reply) ∧ σ.enter rf = σ' := by
  by_cases hmu : σ.mu = .free <;> simp [step, hmu]

theorem process_eq_ok {args : AppendEntriesArgs n α} {server : Fin n}
    {reply : AppendEntriesReply} : σ.step (.process args server reply) = .ok σ' ↔
    σ.mu = .free ∧ ∃ rf, σ.rf.sendAppendEntriesAndProcess args server reply = some rf ∧
      σ.enter rf = σ' := by
  by_cases hmu : σ.mu = .free <;> simp [step, hmu]

theorem daemonLock_eq_ok : σ.step .daemonLock = .ok σ' ↔
    (σ.daemon = .locking ∧ σ.mu = .free) ∧
      ∃ rf, σ.rf.applyLogEntryDaemon = some rf ∧ ⟨rf, .daemon, .working⟩ = σ' := by
  by_cases hmu : σ.daemon = .locking ∧ σ.mu = .free <;> simp [step, hmu]

/-! ### The critical sections -/

/-- **Left alone, a critical section is the function of the model.** From a free lock, and with room
for the signal, entering, signalling and leaving makes the state the one that the function
returns. -/
theorem enter_leave {commit : ℕ} (hmu : σ.mu = .free) (hsig : σ.rf.Signals commit rf)
    (hroom : σ.rf.commitCh < commitChSlots) :
    ∃ es : List (SignalEvent n α), es.foldlM step (σ.enter rf) = .ok { σ with rf := rf } := by
  obtain ⟨rf₀, mu, daemon⟩ := σ
  obtain rfl : mu = .free := hmu
  rcases hsig with ⟨-, hsame⟩ | ⟨-, hnext⟩
  · have henter : enter ⟨rf₀, .free, daemon⟩ rf = ⟨rf, .leaving, daemon⟩ := by
      rw [enter, if_neg (Nat.not_lt.mpr hsame.le), ← hsame]
    exact ⟨[.unlock], by rw [henter]; rfl⟩
  · have hlt : rf₀.commitCh < rf.commitCh := Nat.lt_of_lt_of_eq (Nat.lt_succ_self _) hnext.symm
    have hsend : (enter ⟨rf₀, .free, daemon⟩ rf).step .send = .ok ⟨rf, .leaving, daemon⟩ := by
      simp only [enter, step, if_pos hlt, true_and, if_pos hroom]
      rw [← hnext]
    exact ⟨[.send, .unlock], by rw [List.foldlM_cons, hsend]; rfl⟩

/-- The daemon's turn is the step of `Raft/Cluster`. -/
theorem daemon_turn (hmu : σ.mu = .free) (hd : σ.daemon = .receiving) (hpos : 0 < σ.rf.commitCh)
    (h : { σ.rf with commitCh := σ.rf.commitCh - 1 }.applyLogEntryDaemon = some rf) :
    [.receive, .daemonLock, .daemonUnlock].foldlM step σ = .ok { σ with rf := rf } := by
  obtain ⟨rf₀, mu, daemon⟩ := σ
  obtain rfl : mu = .free := hmu
  obtain rfl : daemon = .receiving := hd
  have hreceive : step ⟨rf₀, .free, .receiving⟩ .receive =
      .ok ⟨{ rf₀ with commitCh := rf₀.commitCh - 1 }, .free, .locking⟩ :=
    if_pos ⟨rfl, hpos⟩
  have hlock : step ⟨{ rf₀ with commitCh := rf₀.commitCh - 1 }, .free, .locking⟩ .daemonLock =
      .ok ⟨rf, .daemon, .working⟩ := by
    rw [step, if_pos ⟨rfl, rfl⟩]
    simp [h, Cluster.orPanic]
  simp only [List.foldlM, hreceive, hlock, bind, Except.bind]
  rfl

/-! ### The deadlock -/

/-- **Nothing moves any more.** -/
theorem step_deadlocked (h : σ.Deadlocked) (e : SignalEvent n α) :
    σ.step e = .error .disabled := by
  obtain ⟨hmu, hfull, hd⟩ := h
  cases e <;> simp [step, hmu, hfull, hd]

/-- What a run keeps: the channel is not overfull, the daemon works under the lock, and whoever is
about to send while the daemon waits for the lock has a slot. -/
structure Clear (σ : SignalState n α) : Prop where
  le : σ.rf.commitCh ≤ commitChSlots
  working : σ.daemon = .working → σ.mu = .daemon
  room : σ.mu = .sending → σ.daemon = .locking → σ.rf.commitCh < commitChSlots

/-- The lock is never held for good: its holder can go on, or the daemon makes room for it. -/
theorem Clear.progress (h : σ.Clear) (hmu : σ.mu ≠ .free) :
    ∃ e σ', σ.step e = .ok σ' := by
  cases hm : σ.mu with
  | free => exact absurd hm hmu
  | leaving => exact ⟨.unlock, _, if_pos hm⟩
  | daemon => exact ⟨.daemonUnlock, _, if_pos hm⟩
  | sending =>
    rcases h.le.lt_or_eq with hlt | hfull
    · exact ⟨.send, _, if_pos ⟨hm, hlt⟩⟩
    cases hd : σ.daemon with
    | receiving => exact ⟨.receive, _, if_pos ⟨hd, hfull ▸ Nat.succ_pos 99⟩⟩
    | locking => exact absurd hfull (h.room hm hd).ne
    | working => rw [h.working hd] at hm; cases hm

theorem clear_init (me : Fin n) (persister : Persister n α) : (init me persister).Clear := by
  obtain ⟨-, -, -, -, -, hch⟩ := Raft.make_fields me persister
  refine ⟨hch.trans_le (Nat.zero_le _), fun hd => ?_, fun hs => ?_⟩
  · cases hd
  · cases hs

theorem Clear.enter {commit : ℕ} (h : σ.Clear) (hmu : σ.mu = .free)
    (hsig : σ.rf.Signals commit rf)
    (hroom : σ.rf.commitIndex < commit → σ.daemon = .locking → σ.rf.commitCh < commitChSlots) :
    (σ.enter rf).Clear := by
  refine ⟨h.le, fun hd => ?_, fun hsend hd => ?_⟩
  · rw [h.working hd] at hmu
    cases hmu
  rcases hsig with ⟨-, hsame⟩ | ⟨hlt, -⟩
  · rw [SignalState.enter, if_neg (Nat.not_lt.mpr hsame.le)] at hsend
    cases hsend
  · exact hroom hlt hd

/-- Only the daemon can come to wait while somebody is about to send, and it makes room when it
does; only a handler or a processor can come to send while the daemon waits. -/
theorem Clear.step {e : SignalEvent n α} (h : σ.Clear) (hok : σ.Roomy e)
    (hstep : σ.step e = .ok σ') : σ'.Clear := by
  cases e with
  | handle args =>
    obtain ⟨hmu, rf, reply, hrun, rfl⟩ := handle_eq_ok.mp hstep
    exact h.enter hmu (Raft.appendEntries_signals hrun) hok
  | process args server reply =>
    obtain ⟨hmu, rf, hrun, rfl⟩ := process_eq_ok.mp hstep
    exact h.enter hmu (Raft.sendAppendEntriesAndProcess_signals hrun) hok
  | other rf =>
    obtain ⟨⟨hmu, hsame⟩, rfl⟩ := ite_ok_eq_ok.mp hstep
    refine ⟨hsame.trans_le h.le, h.working, fun hsend => ?_⟩
    cases hmu.symm.trans hsend
  | send =>
    obtain ⟨⟨hmu, hlt⟩, rfl⟩ := ite_ok_eq_ok.mp hstep
    refine ⟨hlt, fun hd => ?_, fun hsend => by cases hsend⟩
    cases hmu.symm.trans (h.working hd)
  | unlock =>
    obtain ⟨hmu, rfl⟩ := ite_ok_eq_ok.mp hstep
    refine ⟨h.le, fun hd => ?_, fun hsend => by cases hsend⟩
    cases hmu.symm.trans (h.working hd)
  | receive =>
    obtain ⟨⟨-, hpos⟩, rfl⟩ := ite_ok_eq_ok.mp hstep
    have hless : σ.rf.commitCh - 1 < commitChSlots :=
      (Nat.sub_one_lt_of_lt hpos).trans_le h.le
    refine ⟨hless.le, fun hd => ?_, fun _ _ => hless⟩
    cases hd
  | daemonLock =>
    obtain ⟨-, rf, hrun, rfl⟩ := daemonLock_eq_ok.mp hstep
    refine ⟨?_, fun _ => rfl, fun hsend => by cases hsend⟩
    exact (Raft.applyLoop_commitCh _ _ hrun).trans_le h.le
  | daemonUnlock =>
    obtain ⟨-, rfl⟩ := ite_ok_eq_ok.mp hstep
    refine ⟨h.le, fun hd => ?_, fun hsend => by cases hsend⟩
    cases hd

/-- The condition is no stronger than it must be: where it fails, a critical section that does
signal deadlocks. -/
theorem Clear.deadlocked_enter (h : σ.Clear) (hd : σ.daemon = .locking)
    (hfull : ¬ σ.rf.commitCh < commitChSlots) (hsig : σ.rf.commitCh < rf.commitCh) :
    (σ.enter rf).Deadlocked :=
  ⟨if_pos hsig, Nat.le_antisymm h.le (Nat.le_of_not_lt hfull), hd⟩

end SignalState

open SignalState

/-- **The commit signal does not deadlock** in any run in which, while the daemon waits for the lock
and the channel is full, the lock goes to nobody who comes with a new commit index. -/
theorem commit_signal_no_deadlock {me : Fin n} {persister : Persister n α}
    {τ : List (SignalState n α)} (h : SignalState.Run Roomy me persister τ) :
    ∀ σ ∈ τ, ¬ σ.Deadlocked := by
  have hclear : ∀ σ ∈ τ, σ.Clear := by
    refine Trace.invariant (clear_init me persister) (fun σ e σ' hσ hnext => ?_) h
    exact hσ.step hnext.1 hnext.2
  rintro σ hσ ⟨hsend, hfull, hd⟩
  exact ((hclear σ hσ).room hsend hd).ne hfull

/-- The `i`-th request of a leader of term `1` that sends every entry as soon as it has it and has
committed all before it. -/
def write (i : ℕ) : AppendEntriesArgs 3 ℕ := ⟨1, 1, i, min i 1, [⟨i + 1, 1, some i⟩], i⟩

/-- The request is handled, with its signal. -/
def written (i : ℕ) : List (SignalEvent 3 ℕ) := [.handle (write i), .send, .unlock]

/-- The daemon receives the first signal. Before it gets the lock, a hundred more requests are
handled; then comes the rest. -/
def slowDaemon (rest : List (SignalEvent 3 ℕ)) : List (SignalEvent 3 ℕ) :=
  [.handle (write 0), .unlock] ++ written 1 ++ [.receive] ++
    ((List.range 100).flatMap fun i => written (i + 2)) ++ rest

/-- If the daemon has the lock now, the channel can be full with a request about to send. -/
theorem commit_signal_no_deadlock_full : ∃ σ : SignalState 3 ℕ,
    (σ.mu = .sending ∧ σ.rf.commitCh = commitChSlots) ∧ ¬ σ.Deadlocked := by
  have hfull : ∃ σ ∈ ((slowDaemon [.daemonLock, .daemonUnlock, .handle (write 102)]).foldlM
      (stepIf Fault.disabled Roomy step) (init 0 makePersister)).toOption,
      σ.mu = .sending ∧ σ.rf.commitCh = commitChSlots := by
    decide +kernel
  obtain ⟨σ, hσ, hsend⟩ := hfull
  obtain ⟨τ, hrun⟩ := Trace.exists_of_stepIf (Cluster.eq_ok_of_mem_toOption hσ)
  exact ⟨σ, hsend, commit_signal_no_deadlock hrun σ List.mem_cons_self⟩

/-- **A slow daemon deadlocks.** It has received one signal and waits for the lock while a hundred
more fill the channel; the next request takes the lock and waits for a slot. -/
theorem commit_signal_deadlocks : ∃ (σ : SignalState 3 ℕ) (τ : List (SignalState 3 ℕ)),
    SignalState.Run (fun _ _ => True) 0 makePersister (σ :: τ) ∧ σ.Deadlocked := by
  have hfull : ∃ σ ∈ ((slowDaemon [.handle (write 102)]).foldlM step
      (init 0 makePersister)).toOption, σ.Deadlocked := by
    decide +kernel
  obtain ⟨σ, hσ, hdead⟩ := hfull
  obtain ⟨τ, hrun⟩ : ∃ τ, SignalState.Run (fun _ _ => True) 0 makePersister (σ :: τ) :=
    Trace.exists_of_foldlM (fun _ _ _ h => ⟨trivial, h⟩) _ .start
      (Cluster.eq_ok_of_mem_toOption hσ)
  exact ⟨σ, τ, hrun, hdead⟩

end RaftKVDB
