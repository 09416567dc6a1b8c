import RaftKVDB.Raft.SignalCluster
import RaftKVDB.Raft.Steady

/-!
# No wake-up is lost

`applyLogEntryDaemon` sleeps until there is a signal on `commitCh`, and on a signal applies all that
is committed by then. It may well be told twice of the same entry. The question is whether it is
told once of every entry: whether it can sleep, with nothing in the channel, while there is
something to apply. Between the receive and the lock it does not sleep any more, though the signal
is gone and nothing is applied yet; so this is about `SignalCluster`, where the two are apart.

## Main results

* `no_wakeUp_lost` — it cannot, in any run
-/

namespace RaftKVDB

open Foundations Cluster

variable {n : ℕ} {α : Type*}

namespace Raft

variable {rf rf' : Raft n α}

/-- If there is no signal, all that is committed is applied or in the snapshot. -/
def Woken (rf : Raft n α) : Prop :=
  rf.commitCh = 0 → rf.commitIndex ≤ max rf.lastApplied rf.snapshotIndex

theorem Woken.of_signals {c : ℕ} (h : rf.Woken) (hsig : rf.Signals c rf')
    (hla : rf'.lastApplied = rf.lastApplied) (hsnap : rf.snapshotIndex ≤ rf'.snapshotIndex) :
    rf'.Woken := by
  intro hnone
  rcases hsig with ⟨hci, hcc⟩ | ⟨-, hmore⟩
  · have := h (hcc ▸ hnone)
    omega
  · omega

theorem Woken.steady {c : ℕ} (h : rf.Woken) (hsig : rf.Signals c rf')
    (hs : rf.Steady rf') : rf'.Woken :=
  h.of_signals hsig hs.lastApplied hs.snapshotIndex.ge

theorem Woken.quiet (h : rf.Woken) (hq : rf.Quiet rf') (hs : rf.Steady rf') : rf'.Woken :=
  h.steady (c := 0) (.inl hq) hs

/-! ### What the daemon leaves to do -/

/-- The loop applies everything up to `last`, but for what is in the snapshot. -/
theorem applyLoop_done {last : ℕ} (fuel i : ℕ) {rf : Raft n α}
    (h : applyLoop last fuel i rf = some rf') (hfuel : last < i + fuel)
    (hi : i ≤ max rf.lastApplied rf.snapshotIndex + 1) :
    rf'.commitIndex = rf.commitIndex ∧ last ≤ max rf'.lastApplied rf'.snapshotIndex := by
  fun_induction applyLoop last fuel i rf with
  | case1 =>
    obtain rfl := Option.some.inj h
    exact ⟨rfl, by omega⟩
  | case2 =>
    obtain rfl := Option.some.inj h
    exact ⟨rfl, by omega⟩
  | case3 _ _ _ _ _ ih => exact ih h (by omega) (by omega)
  | case4 => cases h
  | case5 _ _ _ _ _ _ _ ih => exact ih h (by omega) (by simp only; omega)

theorem woken_applyLogEntryDaemon (h : rf.applyLogEntryDaemon = some rf') : rf'.Woken := by
  obtain ⟨hci, hdone⟩ := applyLoop_done _ _ h (by omega) (by omega)
  intro _
  rwa [hci]

end Raft

/-! ### Every run -/

/-- **What a step does to a peer that is woken in time.** -/
theorem Cluster.PeerStep.woken {σ : Cluster n α} {p : Fin n} {e : Event n α} {rf : Raft n α}
    (h : PeerStep σ p e rf) (hw : (σ.peers p).Woken) : rf.Woken := by
  cases h with
  | idle => exact hw
  | broadCastVote hrun =>
    exact hw.quiet (Raft.quiet_broadCastVote hrun) (Raft.steady_broadCastVote hrun)
  | start command => exact hw.quiet (Raft.quiet_start _ command) (Raft.steady_start _ command)
  | compact hrun =>
    have hquiet := Raft.quiet_compact hrun
    rcases Raft.compact_cases hrun with rfl | ⟨hlt, -, hsnap, hla, -⟩
    · exact hw
    · exact hw.of_signals (c := 0) (.inl hquiet) hla (hsnap ▸ hlt.le)
  | apply hrun => exact Raft.woken_applyLogEntryDaemon hrun
  | requestVote hrun =>
    exact hw.quiet (Raft.quiet_requestVote hrun) (Raft.steady_requestVote hrun)
  | appendEntries hrun =>
    exact hw.steady (Raft.appendEntries_signals hrun) (Raft.steady_appendEntries hrun)
  | installSnapShot hrun =>
    have hquiet := Raft.quiet_installSnapShot hrun
    rcases Raft.installSnapShot_cases hrun with ⟨-, hs⟩ | ⟨-, hlt, -, hsnap, hla, -⟩
    · exact hw.quiet hquiet hs
    · exact hw.of_signals (c := 0) (.inl hquiet) hla (hsnap ▸ hlt.le)
  | notify snapshot =>
    rw [Raft.notifyAppUseNewSnapShot]
    split <;> exact hw
  | processVote reply =>
    exact hw.quiet (Raft.quiet_sendRequestVoteAndProcess _ reply)
      (Raft.steady_sendRequestVoteAndProcess _ reply)
  | processAppend _ _ _ hrun =>
    exact hw.steady (Raft.sendAppendEntriesAndProcess_signals hrun)
      (Raft.steady_sendAppendEntriesAndProcess hrun)
  | @processSnapShot k c args reply _ _ _ =>
    exact hw.quiet (Raft.quiet_sendSnapShotAndProcess _ args c.server reply)
      (Raft.steady_sendSnapShotAndProcess _ args c.server reply)
  | restart =>
    intro _
    rw [(Raft.make_fields p (σ.peers p).persister).2.1]
    exact Nat.zero_le _

theorem Cluster.Run.woken {ok : Cluster n α → Event n α → Prop} {τ : List (Cluster n α)}
    (h : Run ok τ) : ∀ σ ∈ τ, ∀ p, (σ.peers p).Woken := by
  refine Trace.invariant (P := fun σ : Cluster n α => ∀ p, (σ.peers p).Woken) (fun p _ => ?_)
    (fun σ e σ' hσ hn p => (peerStep_of_step hn.2 p).woken (hσ p)) h
  exact Nat.zero_le _

/-- **No wake-up is lost.** In every state of every run, a peer that has committed entries it has
neither applied nor got in a snapshot, or has a critical section that is about to signal, has a
signal for its daemon in the channel, or the daemon has received one and is about to take the
lock. -/
theorem no_wakeUp_lost {ok : Cluster n α → Event n α → Prop} {τ : List (SignalCluster n α)}
    (h : SignalCluster.Run ok τ) {s : SignalCluster n α} (hs : s ∈ τ) {p : Fin n}
    (happly : max (s.net.peers p).lastApplied (s.net.peers p).snapshotIndex <
      (s.net.peers p).commitIndex ∨ (s.held p).isSome = true) :
    0 < s.signals p ∨ s.taken p = true := by
  have hrun : SignalCluster.Run Always τ := h.always
  have hsignal : 0 < (s.net.peers p).commitCh := by
    rcases happly with happly | hheld
    · obtain ⟨τ', hnet⟩ := hrun.exists_net SignalCluster.lasting_always hs
      by_contra hnone
      have := hnet.woken s.net List.mem_cons_self p (by omega)
      omega
    · obtain ⟨e, he⟩ := Option.isSome_iff_exists.mp hheld
      exact (Nat.succ_pos 99).trans_le ((hrun.inv SignalCluster.lasting_always s hs).full p e he)
  cases htaken : s.taken p with
  | true => exact .inr rfl
  | false => exact .inl (by rwa [SignalCluster.signals, htaken])

/-- Peer 0 is elected and commits a command with the help of peer 1. Its daemon receives the
signal. -/
def receiving : List (SignalClusterEvent 3 ℕ) :=
  [.act (.broadCastVote 0), .act (.handle 0), .act (.process 0), .act (.start 0 (some 7)),
    .act (.checkConsistency 0 1), .act (.handle 1), .act (.process 1), .receive 0]

/-- The command is not applied, and the channel is empty. -/
theorem no_wakeUp_lost_three : ∃ (τ : List (SignalCluster 3 ℕ)) (s : SignalCluster 3 ℕ),
    SignalCluster.Run Always τ ∧ s ∈ τ ∧ (s.net.peers 0).lastApplied = 0 ∧
      (s.net.peers 0).commitIndex = 1 ∧ s.signals 0 = 0 ∧ (0 < s.signals 0 ∨ s.taken 0 = true) := by
  have hend : ∃ s ∈ (receiving.foldlM SignalCluster.step (.init 3 ℕ)).toOption,
      (s.net.peers 0).lastApplied = 0 ∧ (s.net.peers 0).snapshotIndex = 0 ∧
        (s.net.peers 0).commitIndex = 1 ∧ s.signals 0 = 0 := by
    decide +kernel
  obtain ⟨s, hs, hla, hsnap, hci, hempty⟩ := hend
  obtain ⟨τ, hrun⟩ : ∃ τ, SignalCluster.Run Always (s :: τ) :=
    Trace.exists_of_foldlM (fun _ _ _ h => ⟨SignalCluster.begins_always, h⟩) _ .start
      (eq_ok_of_mem_toOption hs)
  exact ⟨_, s, hrun, List.mem_cons_self, hla, hci, hempty,
    no_wakeUp_lost hrun List.mem_cons_self (.inl (by omega))⟩

end RaftKVDB
