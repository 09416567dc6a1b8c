import RaftKVDB.Foundations.Reach
import RaftKVDB.Foundations.Rounds
import RaftKVDB.Raft.Cluster

/-!
# The election timer

`electionDaemon` waits for two things at once: for the election timer, on which it starts an
election, and for a signal on `resetTimerCh`, on which it stops the timer and starts it again. The
channel has no buffer, and whoever sends on it holds `rf.mu`. So if the daemon does not come back to
its `select`, a handler keeps the lock for good, and the peer is dead.

To stop a timer that has fired already one has to take what it has sent: `resetTimer` waits for that
when `Stop` says no. `Stop` also says no when the timer was stopped before. Only `Kill` does that,
and it leaves a peer whose daemon waits for ever at the next signal.

As in `Raft/CommitSignal` a critical section is opened up here: it takes the lock, sends if it has
to, and releases the lock.

## Main results

* `election_timer_serves` — before `Kill`, the daemon can always come back and take the signal, and
  it can always come to start the next election
* `reset_taken_iff` — in general the signal can be taken iff the timer was not killed under it
-/

namespace RaftKVDB

open Foundations

variable {n : ℕ} {α : Type*}

/-! ### Who resets the timer -/

/-- A stretch of code under `rf.mu`. In `other` is everything that does not touch the timer:
`GetState`, `Start`, `Compact`, `checkConsistency` and the apply daemon. -/
inductive CriticalSection (n : ℕ) (α : Type*)
  | requestVote (args : RequestVoteArgs n)
  | appendEntries (args : AppendEntriesArgs n α)
  | installSnapShot (args : InstallSnapshotArgs n)
  | sendRequestVoteAndProcess (reply : RequestVoteReply)
  | sendAppendEntriesAndProcess (args : AppendEntriesArgs n α) (server : Fin n)
      (reply : AppendEntriesReply)
  | sendSnapShotAndProcess (args : InstallSnapshotArgs n) (server : Fin n)
      (reply : InstallSnapshotReply)
  | other (rf : Raft n α)

/-- The state afterwards, and whether there is a signal on `resetTimerCh`: when a vote is granted,
when a leader is heard of, when the peer falls back, and when it wins an election. -/
def CriticalSection.run (rf : Raft n α) : CriticalSection n α → Option (Raft n α × Bool)
  | .requestVote args => (rf.requestVote args).map fun (rf', reply) => (rf', reply.voteGranted)
  | .appendEntries args => (rf.appendEntries args).map fun (rf', _) =>
      (rf', decide (rf.currentTerm ≤ args.term))
  | .installSnapShot args => (rf.installSnapShot args).map fun (rf', _, _) =>
      (rf', decide (rf.currentTerm ≤ args.term))
  | .sendRequestVoteAndProcess reply =>
      some (rf.sendRequestVoteAndProcess reply, decide (rf.state = .candidate ∧
        (rf.currentTerm < reply.term ∨ rf.currentTerm = reply.term ∧ reply.voteGranted = true ∧
          n / 2 < rf.voteCount + 1)))
  | .sendAppendEntriesAndProcess args server reply =>
      (rf.sendAppendEntriesAndProcess args server reply).map fun rf' =>
        (rf', decide (rf.state = .leader ∧ rf.currentTerm < reply.term))
  | .sendSnapShotAndProcess args server reply =>
      some (rf.sendSnapShotAndProcess args server reply,
        decide (rf.state = .leader ∧ rf.currentTerm < reply.term))
  | .other rf' => some (rf', false)

/-! ### The peer and its timer -/

/-- `rf.timer`: it runs, it has expired and the runtime is about to send on its channel, or it does
nothing. -/
inductive TimerState
  | running
  | expiring
  | stopped
  deriving DecidableEq

/-- Where `electionDaemon` is: at the `select`; in `resetTimer` at `Stop`, at the receive or at
`Reset`; or after the timer, about to start an election. -/
inductive ElectionPc
  | select
  | stop
  | drain
  | reset
  | campaign
  deriving DecidableEq

/-- Who has `rf.mu`: nobody, a goroutine that is about to send on `resetTimerCh`, or one that is
about to release the lock. -/
inductive ResetHolder
  | free
  | signalling
  | leaving
  deriving DecidableEq

/-- A peer and its election timer. -/
structure TimedPeer (n : ℕ) (α : Type*) where
  rf : Raft n α
  mu : ResetHolder
  timer : TimerState
  /-- Whether there is something in `rf.timer.C`, which has one slot. -/
  fired : Bool
  daemon : ElectionPc
  /-- How many elections have been started that have not got the lock yet. -/
  campaigns : ℕ

/-- What can happen. -/
inductive TimerEvent (n : ℕ) (α : Type*)
  | enter (s : CriticalSection n α)
  | broadCastVote
  | signal
  | unlock
  | expire
  | fire
  | timeout
  | daemon
  | kill

namespace TimedPeer

/-- A peer that was just made. Its timer expires at once. -/
def init (me : Fin n) (persister : Persister n α) : TimedPeer n α :=
  ⟨Raft.make me persister, .free, .running, false, .select, 0⟩

/-- The daemon on its way back to the `select`. -/
def daemonStep (σ : TimedPeer n α) : Except Fault (TimedPeer n α) :=
  match σ.daemon with
  | .select => .error .disabled
  | .stop =>
    if σ.timer = .running then .ok { σ with timer := .stopped, daemon := .reset }
    else .ok { σ with daemon := .drain }
  | .drain =>
    if σ.fired then .ok { σ with fired := false, daemon := .reset } else .error .disabled
  | .reset => .ok { σ with timer := .running, daemon := .select }
  | .campaign =>
    .ok { σ with campaigns := σ.campaigns + 1, timer := .running, daemon := .select }

/-- One event. -/
def step (σ : TimedPeer n α) : TimerEvent n α → Except Fault (TimedPeer n α)
  | .enter s =>
    if σ.mu = .free then
      Cluster.orPanic ((s.run σ.rf).map fun (rf, resets) =>
        { σ with rf := rf, mu := if resets then .signalling else .leaving })
    else .error .disabled
  | .broadCastVote =>
    if σ.mu = .free ∧ 0 < σ.campaigns then
      Cluster.orPanic (σ.rf.broadCastVote.map fun (rf, _) =>
        { σ with rf := rf, mu := .leaving, campaigns := σ.campaigns - 1 })
    else .error .disabled
  | .signal =>
    if σ.mu = .signalling ∧ σ.daemon = .select then .ok { σ with mu := .leaving, daemon := .stop }
    else .error .disabled
  | .unlock => if σ.mu = .leaving then .ok { σ with mu := .free } else .error .disabled
  | .expire =>
    if σ.timer = .running then .ok { σ with timer := .expiring } else .error .disabled
  | .fire =>
    if σ.timer = .expiring then .ok { σ with timer := .stopped, fired := true }
    else .error .disabled
  | .timeout =>
    if σ.daemon = .select ∧ σ.fired = true then
      .ok { σ with fired := false, daemon := .campaign }
    else .error .disabled
  | .daemon => σ.daemonStep
  | .kill =>
    .ok { σ with
      rf := { σ.rf with state := .follower }
      timer := if σ.timer = .running then .stopped else σ.timer }

/-- A run of the peer, newest state first, all of whose events meet the condition. -/
def Run (ok : TimerEvent n α → Prop) (me : Fin n) (persister : Persister n α) :
    List (TimedPeer n α) → Prop :=
  Trace (init me persister) fun σ e σ' => ok e ∧ σ.step e = .ok σ'

/-- Everything but `Kill`. -/
def NotKilled : TimerEvent n α → Prop
  | .kill => False
  | _ => True

instance : DecidablePred (NotKilled (n := n) (α := α))
  | .kill => .isFalse not_false
  | .enter _ | .broadCastVote | .signal | .unlock | .expire | .fire | .timeout | .daemon =>
    .isTrue trivial

/-- What the timer and the daemon do by themselves. -/
def Ticks : TimerEvent n α → Prop
  | .expire | .fire | .timeout | .daemon => True
  | _ => False

theorem Ticks.notKilled {e : TimerEvent n α} (h : Ticks e) : NotKilled e := by
  cases e <;> first | exact trivial | exact h

/-- The daemon has a signal to serve, and waits or will wait for a timer that was stopped. -/
def Hung (σ : TimedPeer n α) : Prop :=
  (σ.daemon = .stop ∨ σ.daemon = .drain) ∧ σ.timer = .stopped ∧ σ.fired = false

instance (σ : TimedPeer n α) : Decidable σ.Hung := inferInstanceAs (Decidable (_ ∧ _ ∧ _))

/-! ### The timer is never lost -/

variable {σ σ' : TimedPeer n α} {e : TimerEvent n α}

/-- What a run keeps, `Kill` or not: the timer has sent something only when it does nothing, and the
daemon starts it only when that was taken. -/
structure Tidy (σ : TimedPeer n α) : Prop where
  fired : σ.fired = true → σ.timer = .stopped
  drain : σ.daemon = .drain → σ.timer ≠ .running
  taken : σ.daemon = .reset ∨ σ.daemon = .campaign → σ.fired = false ∧ σ.timer = .stopped

/-- What a run without `Kill` keeps besides: a timer that does nothing has sent something, unless
the daemon is about to start it. -/
structure Ticking (σ : TimedPeer n α) : Prop extends Tidy σ where
  armed : σ.timer = .stopped → σ.fired = true ∨ σ.daemon = .reset ∨ σ.daemon = .campaign

/-- **The daemon's own steps.** -/
theorem daemonStep_cases (h : σ.daemonStep = .ok σ') :
    σ.daemon = .stop ∧ σ.timer = .running ∧ σ' = { σ with timer := .stopped, daemon := .reset } ∨
    σ.daemon = .stop ∧ σ.timer ≠ .running ∧ σ' = { σ with daemon := .drain } ∨
    σ.daemon = .drain ∧ σ.fired = true ∧ σ' = { σ with fired := false, daemon := .reset } ∨
    (σ.daemon = .reset ∨ σ.daemon = .campaign) ∧
      ∃ k, σ' = { σ with campaigns := k, timer := .running, daemon := .select } := by
  rw [daemonStep] at h
  split at h
  · cases h
  · next hd =>
    split at h
    · next hrun => exact .inl ⟨hd, hrun, (Except.ok.inj h).symm⟩
    · next hrun => exact .inr (.inl ⟨hd, hrun, (Except.ok.inj h).symm⟩)
  · next hd =>
    obtain ⟨hfired, rfl⟩ := ite_ok_eq_ok.mp h
    exact .inr (.inr (.inl ⟨hd, hfired, rfl⟩))
  · next hd => exact .inr (.inr (.inr ⟨.inl hd, _, (Except.ok.inj h).symm⟩))
  · next hd => exact .inr (.inr (.inr ⟨.inr hd, _, (Except.ok.inj h).symm⟩))

/-- Steps of the goroutines that take `rf.mu` leave the timer alone. -/
theorem step_enter (h : (∃ s, e = .enter s) ∨ e = .broadCastVote ∨ e = .unlock)
    (hstep : σ.step e = .ok σ') :
    σ'.timer = σ.timer ∧ σ'.fired = σ.fired ∧ σ'.daemon = σ.daemon ∧ σ.mu ≠ .signalling := by
  rcases h with ⟨s, rfl⟩ | rfl | rfl
  · rw [step] at hstep
    split at hstep
    · next hmu =>
      obtain ⟨x, -, rfl⟩ := Option.map_eq_some_iff.mp (Cluster.orPanic_eq_ok.mp hstep)
      exact ⟨rfl, rfl, rfl, by simp [hmu]⟩
    · cases hstep
  · rw [step] at hstep
    split at hstep
    · next hmu =>
      obtain ⟨x, -, rfl⟩ := Option.map_eq_some_iff.mp (Cluster.orPanic_eq_ok.mp hstep)
      exact ⟨rfl, rfl, rfl, by simp [hmu.1]⟩
    · cases hstep
  · obtain ⟨hmu, rfl⟩ := ite_ok_eq_ok.mp hstep
    exact ⟨rfl, rfl, rfl, by simp [hmu]⟩

theorem Tidy.step (h : σ.Tidy) (hstep : σ.step e = .ok σ') : σ'.Tidy := by
  obtain ⟨hfired, hdrain, htaken⟩ := h
  cases e with
  | enter s =>
    obtain ⟨ht, hf, hd, -⟩ := step_enter (.inl ⟨s, rfl⟩) hstep
    constructor <;> simpa only [ht, hf, hd]
  | broadCastVote =>
    obtain ⟨ht, hf, hd, -⟩ := step_enter (.inr (.inl rfl)) hstep
    constructor <;> simpa only [ht, hf, hd]
  | unlock =>
    obtain ⟨ht, hf, hd, -⟩ := step_enter (.inr (.inr rfl)) hstep
    constructor <;> simpa only [ht, hf, hd]
  | signal =>
    obtain ⟨-, rfl⟩ := ite_ok_eq_ok.mp hstep
    exact ⟨hfired, by simp, by simp⟩
  | expire =>
    obtain ⟨hrun, rfl⟩ := ite_ok_eq_ok.mp hstep
    refine ⟨fun hf => ?_, by simp, fun hd => ?_⟩
    · cases hrun.symm.trans (hfired hf)
    · cases hrun.symm.trans (htaken hd).2
  | fire =>
    obtain ⟨hexp, rfl⟩ := ite_ok_eq_ok.mp hstep
    refine ⟨fun _ => rfl, by simp, fun hd => ?_⟩
    cases hexp.symm.trans (htaken hd).2
  | timeout =>
    obtain ⟨⟨-, hf⟩, rfl⟩ := ite_ok_eq_ok.mp hstep
    exact ⟨by simp, by simp, fun _ => ⟨rfl, hfired hf⟩⟩
  | daemon =>
    rcases daemonStep_cases hstep with ⟨-, hrun, rfl⟩ | ⟨-, hrun, rfl⟩ | ⟨-, hf, rfl⟩ | ⟨hd, k, rfl⟩
    · refine ⟨fun _ => rfl, by simp, fun _ => ⟨?_, rfl⟩⟩
      by_contra hf
      cases hrun.symm.trans (hfired (by simpa using hf))
    · exact ⟨hfired, fun _ => hrun, by simp⟩
    · exact ⟨by simp, by simp, fun _ => ⟨rfl, hfired hf⟩⟩
    · exact ⟨by simp [(htaken hd).1], by simp, by simp⟩
  | kill =>
    obtain rfl := Except.ok.inj hstep
    refine ⟨fun hf => ?_, fun hd => ?_, fun hd => ⟨(htaken hd).1, ?_⟩⟩
    · simp [hfired hf]
    · simp [hdrain hd]
    · simp [(htaken hd).2]

theorem Ticking.step (h : σ.Ticking) (hkill : NotKilled e) (hstep : σ.step e = .ok σ') :
    σ'.Ticking := by
  refine ⟨h.toTidy.step hstep, fun hstop => ?_⟩
  have harmed := h.armed
  cases e with
  | enter s =>
    obtain ⟨ht, hf, hd, -⟩ := step_enter (.inl ⟨s, rfl⟩) hstep
    simpa only [hf, hd] using harmed (ht ▸ hstop)
  | broadCastVote =>
    obtain ⟨ht, hf, hd, -⟩ := step_enter (.inr (.inl rfl)) hstep
    simpa only [hf, hd] using harmed (ht ▸ hstop)
  | unlock =>
    obtain ⟨ht, hf, hd, -⟩ := step_enter (.inr (.inr rfl)) hstep
    simpa only [hf, hd] using harmed (ht ▸ hstop)
  | signal =>
    obtain ⟨⟨-, hd⟩, rfl⟩ := ite_ok_eq_ok.mp hstep
    simpa [hd] using harmed hstop
  | expire =>
    obtain ⟨-, rfl⟩ := ite_ok_eq_ok.mp hstep
    cases hstop
  | fire =>
    obtain ⟨-, rfl⟩ := ite_ok_eq_ok.mp hstep
    exact .inl rfl
  | timeout =>
    obtain ⟨-, rfl⟩ := ite_ok_eq_ok.mp hstep
    exact .inr (.inr rfl)
  | daemon =>
    rcases daemonStep_cases hstep with ⟨-, -, rfl⟩ | ⟨hd, -, rfl⟩ | ⟨-, -, rfl⟩ | ⟨-, k, rfl⟩
    · exact .inr (.inl rfl)
    · simpa [hd] using harmed hstop
    · exact .inr (.inl rfl)
    · cases hstop
  | kill => exact hkill.elim

theorem ticking_init (me : Fin n) (persister : Persister n α) : (init me persister).Ticking :=
  ⟨⟨by simp [init], by simp [init], by simp [init]⟩, by simp [init]⟩

theorem Ticking.not_hung (h : σ.Ticking) : ¬ σ.Hung := by
  rintro ⟨hd, hstop, hf⟩
  rcases h.armed hstop with hfired | hd' | hd'
  · cases hf.symm.trans hfired
  · simp [hd'] at hd
  · simp [hd'] at hd

/-! ### The way back to the `select` -/

/-- A step of the machine. -/
def Next (σ : TimedPeer n α) (e : TimerEvent n α) (σ' : TimedPeer n α) : Prop := σ.step e = .ok σ'

/-- The daemon comes to its `select`, and the goroutine with the lock is where it was. -/
def ComesBack (σ : TimedPeer n α) : Prop :=
  ∃ σ', Leads Next Ticks σ σ' ∧ σ'.daemon = .select ∧ σ'.mu = σ.mu ∧ σ.campaigns ≤ σ'.campaigns

theorem ComesBack.of_step (hstep : σ.step e = .ok σ') (he : Ticks e) (hmu : σ'.mu = σ.mu)
    (hc : σ.campaigns ≤ σ'.campaigns) (h : σ'.ComesBack) : σ.ComesBack := by
  obtain ⟨σ'', hlead, hd, hmu', hc'⟩ := h
  exact ⟨σ'', .head he hstep hlead, hd, hmu'.trans hmu, hc.trans hc'⟩

theorem comesBack_select (hd : σ.daemon = .select) : σ.ComesBack :=
  ⟨σ, .refl σ, hd, rfl, Nat.le_refl _⟩

theorem comesBack_reset (hd : σ.daemon = .reset) : σ.ComesBack := by
  have hstep : σ.step .daemon = .ok { σ with timer := .running, daemon := .select } := by
    simp only [step, daemonStep, hd]
  exact .of_step hstep trivial rfl (Nat.le_refl _) (comesBack_select rfl)

theorem comesBack_campaign (hd : σ.daemon = .campaign) : σ.ComesBack := by
  have hstep : σ.step .daemon =
      .ok { σ with campaigns := σ.campaigns + 1, timer := .running, daemon := .select } := by
    simp only [step, daemonStep, hd]
  exact .of_step hstep trivial rfl (Nat.le_succ _) (comesBack_select rfl)

theorem comesBack_drain (hd : σ.daemon = .drain) (hf : σ.fired = true) : σ.ComesBack := by
  have hstep : σ.step .daemon = .ok { σ with fired := false, daemon := .reset } := by
    simp only [step, daemonStep, hd, hf, if_true]
  exact .of_step hstep trivial rfl (Nat.le_refl _) (comesBack_reset rfl)

/-- What an expired timer sends is waited for. -/
theorem comesBack_expiring (hd : σ.daemon = .drain) (ht : σ.timer = .expiring) : σ.ComesBack :=
  .of_step (e := .fire) (if_pos ht) trivial rfl (Nat.le_refl _) (comesBack_drain hd rfl)

/-- **The daemon comes back**, unless it hangs. -/
theorem Tidy.comesBack (h : σ.Tidy) (hhung : ¬ σ.Hung) : σ.ComesBack := by
  -- It is the same whether the daemon has found out that the timer does not run or not.
  have hdrain : ∀ σ : TimedPeer n α, σ.daemon = .drain → σ.timer ≠ .running → ¬ σ.Hung →
      σ.ComesBack := by
    intro σ hd hrun hhung
    cases ht : σ.timer with
    | running => exact absurd ht hrun
    | expiring => exact comesBack_expiring hd ht
    | stopped =>
      refine comesBack_drain hd ?_
      by_contra hf
      exact hhung ⟨.inr hd, ht, by simpa using hf⟩
  cases hd : σ.daemon with
  | select => exact comesBack_select hd
  | reset => exact comesBack_reset hd
  | campaign => exact comesBack_campaign hd
  | drain => exact hdrain σ hd (h.drain hd) hhung
  | stop =>
    by_cases hrun : σ.timer = .running
    · have hstep : σ.step .daemon = .ok { σ with timer := .stopped, daemon := .reset } := by
        simp only [TimedPeer.step, daemonStep, hd, hrun, if_true]
      exact .of_step hstep trivial rfl (Nat.le_refl _) (comesBack_reset rfl)
    · have hstep : σ.step .daemon = .ok { σ with daemon := .drain } := by
        simp only [TimedPeer.step, daemonStep, hd, if_neg hrun]
      refine .of_step hstep trivial rfl (Nat.le_refl _) (hdrain _ rfl hrun fun hhung' => ?_)
      exact hhung ⟨.inl hd, hhung'.2⟩

/-- From the `select` the timer leads to the next election. -/
theorem Ticking.campaigns (h : σ.Ticking) (hd : σ.daemon = .select) :
    ∃ σ', Leads Next Ticks σ σ' ∧ σ.campaigns < σ'.campaigns := by
  have hfired : ∀ σ : TimedPeer n α, σ.daemon = .select → σ.fired = true →
      ∃ σ', Leads Next Ticks σ σ' ∧ σ.campaigns < σ'.campaigns := by
    intro σ hd hf
    exact ⟨_, .head (e := .timeout) trivial (if_pos ⟨hd, hf⟩)
      (.single (e := .daemon) trivial rfl), Nat.lt_succ_self _⟩
  have hexp : ∀ σ : TimedPeer n α, σ.daemon = .select → σ.timer = .expiring →
      ∃ σ', Leads Next Ticks σ σ' ∧ σ.campaigns < σ'.campaigns := by
    intro σ hd ht
    obtain ⟨σ', hlead, hlt⟩ := hfired { σ with timer := .stopped, fired := true } hd rfl
    exact ⟨σ', .head (e := .fire) trivial (if_pos ht) hlead, hlt⟩
  cases ht : σ.timer with
  | running =>
    obtain ⟨σ', hlead, hlt⟩ := hexp { σ with timer := .expiring } hd rfl
    exact ⟨σ', .head (e := .expire) trivial (if_pos ht) hlead, hlt⟩
  | expiring => exact hexp σ hd ht
  | stopped =>
    refine hfired σ hd ((h.armed ht).resolve_right ?_)
    simp [hd]

/-- Nothing helps a peer that hangs while a goroutine has the lock. -/
theorem Hung.step (h : σ.Hung) (hmu : σ.mu = .signalling) (hstep : σ.step e = .ok σ') :
    σ'.Hung ∧ σ'.mu = .signalling := by
  obtain ⟨hd, ht, hf⟩ := h
  cases e with
  | enter s => exact absurd hmu (step_enter (.inl ⟨s, rfl⟩) hstep).2.2.2
  | broadCastVote => exact absurd hmu (step_enter (.inr (.inl rfl)) hstep).2.2.2
  | unlock => exact absurd hmu (step_enter (.inr (.inr rfl)) hstep).2.2.2
  | signal =>
    obtain ⟨⟨-, hd'⟩, -⟩ := ite_ok_eq_ok.mp hstep
    simp [hd'] at hd
  | expire =>
    obtain ⟨ht', -⟩ := ite_ok_eq_ok.mp hstep
    cases ht.symm.trans ht'
  | fire =>
    obtain ⟨ht', -⟩ := ite_ok_eq_ok.mp hstep
    cases ht.symm.trans ht'
  | timeout =>
    obtain ⟨⟨hd', -⟩, -⟩ := ite_ok_eq_ok.mp hstep
    simp [hd'] at hd
  | daemon =>
    rcases daemonStep_cases hstep with ⟨-, hrun, -⟩ | ⟨-, -, rfl⟩ | ⟨-, hf', -⟩ | ⟨hd', -⟩
    · cases ht.symm.trans hrun
    · exact ⟨⟨.inr rfl, ht, hf⟩, hmu⟩
    · cases hf.symm.trans hf'
    · rcases hd' with hd' | hd' <;> simp [hd'] at hd
  | kill =>
    obtain rfl := Except.ok.inj hstep
    exact ⟨⟨hd, by simp [ht], hf⟩, hmu⟩

end TimedPeer

open TimedPeer

/-- **The timer serves.** In every state of a run without `Kill`, what the timer and the daemon do
by themselves can bring the daemon to take the signal of the goroutine that holds `rf.mu`, if there
is one, and can bring it to start another election. -/
theorem election_timer_serves {me : Fin n} {persister : Persister n α} {τ : List (TimedPeer n α)}
    (h : TimedPeer.Run NotKilled me persister τ) {σ : TimedPeer n α} (hσ : σ ∈ τ) :
    (σ.mu = .signalling → ∃ σ₁ σ₂, Leads Next Ticks σ σ₁ ∧ σ₁.step .signal = .ok σ₂) ∧
      ∃ σ', Leads Next Ticks σ σ' ∧ σ.campaigns < σ'.campaigns := by
  have hinv : ∀ σ ∈ τ, σ.Ticking :=
    Trace.invariant (ticking_init me persister) (fun _ _ _ hi hn => hi.step hn.1 hn.2) h
  have hticking := hinv σ hσ
  obtain ⟨σ₁, hlead, hd, hmu, hc⟩ := hticking.toTidy.comesBack hticking.not_hung
  refine ⟨fun hsig => ⟨σ₁, _, hlead, if_pos ⟨hmu.trans hsig, hd⟩⟩, ?_⟩
  have hticking₁ : σ₁.Ticking := by
    refine hlead.invariant (P := Ticking) (fun s e s' he hs hn => hs.step ?_ hn) hticking
    exact he.notKilled
  obtain ⟨σ₂, hlead', hlt⟩ := hticking₁.campaigns hd
  exact ⟨σ₂, hlead.trans hlead', hc.trans_lt hlt⟩

/-- A heartbeat of the leader of term 1. -/
def heartbeat : TimerEvent 3 ℕ := .enter (.appendEntries ⟨1, 1, 0, 0, [], 0⟩)

/-- The timer expires before the daemon has stopped it, and the next heartbeat has come. -/
theorem election_timer_serves_three : ∃ (τ : List (TimedPeer 3 ℕ)) (σ : TimedPeer 3 ℕ),
    TimedPeer.Run NotKilled 0 makePersister τ ∧ σ ∈ τ ∧ σ.mu = .signalling ∧
      ∃ σ₁ σ₂, Leads Next Ticks σ σ₁ ∧ σ₁.step .signal = .ok σ₂ := by
  have hwaits : ∃ σ ∈ ([heartbeat, .signal, .unlock, .expire, heartbeat].foldlM
      (stepIf Fault.disabled (fun _ => NotKilled) step) (init 0 makePersister)).toOption,
      σ.mu = .signalling := by
    decide +kernel
  obtain ⟨σ, hσ, hmu⟩ := hwaits
  obtain ⟨τ, hrun⟩ := Trace.exists_of_stepIf (Cluster.eq_ok_of_mem_toOption hσ)
  exact ⟨σ :: τ, σ, hrun, List.mem_cons_self, hmu,
    (election_timer_serves hrun List.mem_cons_self).1 hmu⟩

/-- **When the signal is taken.** In every run, `Kill` or not, a goroutine that holds `rf.mu` to
reset the timer can get on, whatever may happen, iff the peer does not hang. -/
theorem reset_taken_iff {me : Fin n} {persister : Persister n α} {τ : List (TimedPeer n α)}
    (h : TimedPeer.Run (fun _ => True) me persister τ) {σ : TimedPeer n α} (hσ : σ ∈ τ)
    (hmu : σ.mu = .signalling) :
    (∃ σ', Leads Next (fun _ => True) σ σ' ∧ σ'.mu ≠ .signalling) ↔ ¬ σ.Hung := by
  constructor
  · rintro ⟨σ', hlead, hmu'⟩ hhung
    refine hmu' (hlead.invariant (P := fun σ => σ.Hung ∧ σ.mu = .signalling) ?_ ⟨hhung, hmu⟩).2
    rintro s e s' - ⟨hs, hmus⟩ hn
    exact hs.step hmus hn
  · intro hhung
    have hinv : ∀ σ ∈ τ, σ.Tidy :=
      Trace.invariant (ticking_init me persister).toTidy (fun _ _ _ hi hn => hi.step hn.2) h
    obtain ⟨σ₁, hlead, hd, hmu₁, -⟩ := (hinv σ hσ).comesBack hhung
    refine ⟨_, (hlead.mono fun _ _ => trivial).trans (.single (e := .signal) trivial
      (if_pos ⟨hmu₁.trans hmu, hd⟩)), ?_⟩
    simp

/-- `Kill` comes before the daemon serves a heartbeat. The next one keeps the lock. -/
theorem reset_taken_iff_three : ∃ (τ : List (TimedPeer 3 ℕ)) (σ : TimedPeer 3 ℕ),
    TimedPeer.Run (fun _ => True) 0 makePersister τ ∧ σ ∈ τ ∧ σ.mu = .signalling ∧
      ¬ ∃ σ', Leads Next (fun _ => True) σ σ' ∧ σ'.mu ≠ .signalling := by
  have hkilled : ∃ σ ∈ ([heartbeat, .kill, .signal, .unlock, heartbeat].foldlM
      (stepIf Fault.disabled (fun _ _ => True) step) (init 0 makePersister)).toOption,
      σ.mu = .signalling ∧ σ.Hung := by
    decide +kernel
  obtain ⟨σ, hσ, hmu, hhung⟩ := hkilled
  obtain ⟨τ, hrun⟩ := Trace.exists_of_stepIf (Cluster.eq_ok_of_mem_toOption hσ)
  refine ⟨σ :: τ, σ, hrun, List.mem_cons_self, hmu, fun hget => ?_⟩
  exact (reset_taken_iff hrun List.mem_cons_self hmu).mp hget hhung

end RaftKVDB
