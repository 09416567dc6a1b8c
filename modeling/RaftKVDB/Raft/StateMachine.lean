import RaftKVDB.Raft.ApplyDaemon
import RaftKVDB.Raft.CommitRun

/-!
# What the peers deliver

What follows from the commit invariant for the state machines, for the leaders and for the code
itself, and a run in which a success misleads a leader and none of it holds.

## Main results

* `state_machine_safety` — no two peers deliver different commands at one index
* `commit_sound` — what a leader commits, a majority has held
* `log_index_safety` — no step indexes `Logs` out of range
-/

namespace RaftKVDB

open Foundations Cluster

variable {n : ℕ} {α : Type*}

/-! ### A success that the leader's log does not confirm -/

/-- Peer `0` of five leads term 1, and its heartbeat to peer `2` is delayed. Peer `1` leads term 2
and writes two entries: the first reaches peers `0` and `2` and is committed, the second reaches
only peer `2`, which delivers the first and compacts it. -/
def delayedHeartbeatEvents : List (Event 5 ℕ) :=
  [.broadCastVote 0, .handle 0, .handle 2, .handle 3, .process 3, .process 2, .lose 0, .lose 0,
    .checkConsistency 0 2,
    .broadCastVote 1, .handle 1, .handle 2, .handle 3, .process 3, .process 2, .lose 1, .lose 1,
    .start 1 (some 10), .checkConsistency 1 0, .checkConsistency 1 2, .handle 1, .handle 2,
    .process 2, .process 1,
    .start 1 (some 20), .checkConsistency 1 2, .handle 1, .lose 1, .apply 2, .compact 2 1 [1]]

/-- Peer `0` leads term 3 with one entry. The heartbeat of term 1 is rejected, which sets
`nextIndex[2]` to 1; the request from there is answered with 3, the index after the end of the log
of peer `2`; and the request from there, beyond the end of the leader's log, succeeds. -/
def falseSuccessEvents : List (Event 5 ℕ) :=
  delayedHeartbeatEvents ++
    [.broadCastVote 0, .handle 1, .handle 2, .handle 3, .handle 4, .process 4, .process 3, .lose 1,
      .lose 1,
      .handle 0, .process 0, .checkConsistency 0 2, .handle 0, .process 0,
      .checkConsistency 0 2, .handle 0]

/-- Before the leader sees that success it writes an entry of its own and replicates it to peer
`3`. -/
def falseCommitEvents : List (Event 5 ℕ) :=
  falseSuccessEvents ++
    [.start 0 (some 30), .checkConsistency 0 3, .handle 1, .process 1, .checkConsistency 0 3,
      .handle 1, .process 1]

/-- Peer `0` commits and delivers its entry. Peer `1` then leads term 4 and commits and delivers
another one at the same index. -/
def divergingEvents : List (Event 5 ℕ) :=
  falseCommitEvents ++
    [.process 0, .apply 0,
      .broadCastVote 1, .handle 1, .handle 3, .process 3, .process 1, .lose 0, .lose 0,
      .start 1 (some 40), .checkConsistency 1 2, .handle 0, .process 0, .checkConsistency 1 4,
      .handle 0, .process 0, .checkConsistency 1 4, .handle 0, .process 0, .apply 1]

/-! ### What the peers deliver -/

section Results

variable {σ σ' : Cluster n α} {τ : List (Cluster n α)} {p q : Fin n}

/-- **State machine safety.** Messages for the same index, sent by any two incarnations of any two
peers, carry the same command. -/
theorem state_machine_safety (h : Run Truthful τ) (hσ : σ ∈ τ) (hσ' : σ' ∈ τ) {m m' : ApplyMsg α}
    (hm : m ∈ (σ.peers p).applyCh) (hm' : m' ∈ (σ'.peers q).applyCh)
    (hv : m.commandValid = true) (hv' : m'.commandValid = true)
    (hidx : m.commandIndex = m'.commandIndex) : m.command = m'.command := by
  obtain ⟨a, ha, hpast⟩ := h.safeHistory
  have hmsg : ∀ {σ : Cluster n α} {p : Fin n} {m : ApplyMsg α}, σ ∈ τ →
      m ∈ (σ.peers p).applyCh → m.commandValid = true → CommittedMsg a m := by
    intro σ p m hσ hm hv
    obtain ⟨τ', b, -, hb, hext⟩ := hpast σ hσ
    exact (((hb.safe σ rfl).peer p).applied m hm hv).2.extends hext
  obtain ⟨hpos, t, k, e, hc, hk, he, hcmd⟩ := hmsg hσ hm hv
  obtain ⟨-, t', k', e', hc', hk', he', hcmd'⟩ := hmsg hσ' hm' hv'
  -- Both entries are at the index in a committed prefix, and those agree.
  have hinv : a.Inv := by
    obtain ⟨σ₀, τ₀, rfl⟩ := List.exists_cons_of_ne_nil (List.ne_nil_of_mem hσ)
    exact (ha.sim σ₀ rfl).inv
  have hpoint : a.CommitPoint t (a.tlog t) m.commandIndex :=
    .inr ⟨t, k, Nat.le_refl _, hc, hk, List.take_prefix _ _⟩
  have hpoint' : a.CommitPoint t' (a.tlog t') m.commandIndex :=
    .inr ⟨t', k', Nat.le_refl _, hc', hidx ▸ hk', List.take_prefix _ _⟩
  have hagree := hpoint.agree hinv hpoint'
  rw [← hidx, ← List.getElem?_take_of_lt (show m.commandIndex - 1 < m.commandIndex by omega),
    ← hagree, List.getElem?_take_of_lt (by omega), he] at he'
  rw [← hcmd, ← hcmd', Option.some.inj he']

/-- Peer `0` of three commits two entries and delivers them, and so does peer `1`. -/
def deliveryEvents : List (Event 3 ℕ) :=
  replicationEvents ++ [.process 1, .apply 0, .checkConsistency 0 1, .handle 1, .apply 1]

theorem state_machine_safety_three :
    ∃ m ∈ ((replay Truthful deliveryEvents).1.peers 0).applyCh,
      ∃ m' ∈ ((replay Truthful deliveryEvents).1.peers 1).applyCh,
        m.commandIndex = 2 ∧ m'.commandIndex = 2 ∧ m.command = m'.command := by
  have hsent : ∀ p : Fin 3, p ≠ 2 → ∃ m ∈ ((replay Truthful deliveryEvents).1.peers p).applyCh,
      m.commandValid = true ∧ m.commandIndex = 2 := by decide +kernel
  obtain ⟨m, hm, hv, hidx⟩ := hsent 0 (by decide)
  obtain ⟨m', hm', hv', hidx'⟩ := hsent 1 (by decide)
  exact ⟨m, hm, m', hm', hidx, hidx', state_machine_safety (run_replay Truthful deliveryEvents)
    List.mem_cons_self List.mem_cons_self hm hm' hv hv' (hidx.trans hidx'.symm)⟩

theorem state_machine_diverges : ∃ τ : List (Cluster 5 ℕ), Run Always τ ∧ ∃ σ ∈ τ,
    ∃ m ∈ (σ.peers 0).applyCh, ∃ m' ∈ (σ.peers 1).applyCh, m.commandValid = true ∧
      m'.commandValid = true ∧ m.commandIndex = m'.commandIndex ∧ m.command ≠ m'.command :=
  ⟨_, run_replay Always divergingEvents, _, List.mem_cons_self, by decide +kernel⟩

/-! ### What a leader commits -/

/-- What is on record was held at some moment, in the log or below the snapshot. -/
theorem History.held {a : Protocol n α} (ha : History τ a) {t i : ℕ} {e : LogEntry α}
    (hack : a.acked q t i) (hi : 0 < i) (he : (a.tlog t)[i - 1]? = some e) : ∃ σ ∈ τ,
      (σ.peers q).currentTerm = t ∧
        (i ≤ (σ.peers q).snapshotIndex ∨ (σ.peers q).Holds i e) := by
  obtain ⟨hle, σ, hσ, ht, G, hG, hpre⟩ := ha.past q t i hack
  refine ⟨σ, hσ, ht, ?_⟩
  rcases Nat.lt_or_ge (σ.peers q).snapshotIndex i with hlt | hge
  · refine .inr (hG.holds_iff.mpr ⟨hlt, ?_⟩)
    rw [← getElem?_of_isPrefix hpre (by rw [List.length_take]; omega),
      List.getElem?_take_of_lt (by omega), he]
  · exact .inl hge

/-- **Commit soundness.** When a leader of term `t` moves its commit index, a majority of the peers
have each, at some moment while in term `t`, held the leader's entry at that index or compacted
it. -/
theorem commit_sound (h : Run Truthful (σ :: τ)) {k : ℕ} (hok : Truthful σ (.process k))
    (hstep : σ.step (.process k) = .ok σ') (hs : (σ.peers p).state = .leader)
    (hne : (σ'.peers p).commitIndex ≠ (σ.peers p).commitIndex) :
    ∃ e, (σ'.peers p).Holds (σ'.peers p).commitIndex e ∧ e.term = (σ.peers p).currentTerm ∧
      Majority fun q => ∃ σ₀ ∈ σ :: τ, (σ₀.peers q).currentTerm = (σ.peers p).currentTerm ∧
        ((σ'.peers p).commitIndex ≤ (σ₀.peers q).snapshotIndex ∨
          (σ₀.peers q).Holds (σ'.peers p).commitIndex e) := by
  obtain ⟨a, ha, -⟩ := h.safeHistory
  have hsim := ha.sim σ rfl
  have hsafe := ha.safe σ rfl
  obtain ⟨c, hc, hrun⟩ := onCall_eq_ok.mp hstep
  -- Only the caller of the call changes its commit index.
  have hcaller : ∀ {rf : Raft n α}, σ' = (σ.setPeer c.caller rf).endCall k →
      p = c.caller ∧ rf.commitIndex ≠ (σ.peers p).commitIndex ∧ σ'.peers p = rf := by
    rintro rf rfl
    rcases eq_or_ne p c.caller with rfl | hpc
    · simpa [setPeer, endCall] using hne
    · simp [setPeer, endCall, hpc] at hne
  obtain ⟨-, ⟨args, reply, hbody, heq⟩ | ⟨args, reply, rf, hbody, hproc, heq⟩ |
    ⟨args, reply, hbody, heq⟩⟩ := process_cases hrun
  · obtain ⟨rfl, hci, -⟩ := hcaller heq
    rcases (σ.peers c.caller).sendRequestVoteAndProcess_cases reply with
      heq | ⟨-, heq⟩ | ⟨hcand, -⟩
    · exact absurd (by rw [heq]) hci
    · exact absurd (by rw [heq]; rfl) hci
    · exact nomatch hs.symm.trans hcand
  · obtain ⟨rfl, hci, hpeer⟩ := hcaller heq
    rw [hpeer]
    rcases Raft.sendAppendEntriesAndProcess_cases hproc with
      rfl | ⟨-, rfl⟩ | ⟨-, -, -, rfl⟩ | ⟨-, ht, hsuc, -, ci, cc, rfl, hcases⟩
    · exact absurd rfl hci
    · exact absurd rfl hci
    · exact absurd rfl hci
    have hlt : (σ.peers c.caller).commitIndex < ci := (hcases.resolve_left hci).1
    have hp := hsim.peer c.caller
    have hcon := hok k rfl c hc (args, reply) (by rw [hbody]; rfl)
    obtain ⟨hargs, hack, m, hbuilt⟩ := hsim.appendReply hc hbody hsuc
    obtain ⟨hsnap, hcom⟩ := ((hsafe.peer c.caller).success hsim.inv hp hbuilt hack hs
      (ht.symm.trans hargs) (hcon hsuc hs ht.symm) hcases).2 hlt
    obtain ⟨e, he, het⟩ := exists_entry_of_termAt hcom.1 hcom.2.1
    refine ⟨e, ?_, het, hcom.2.2.mono fun q hq => ha.toHistory.held hq hcom.1 he⟩
    have hrep : (σ.peers c.caller).Represents (a.tlog (σ.peers c.caller).currentTerm) :=
      (hp.leader hs).2 ▸ hp.log
    exact (hrep.holds_iff (i := ci)).mpr ⟨hsnap, he⟩
  · obtain ⟨rfl, hci, -⟩ := hcaller heq
    rcases (σ.peers c.caller).sendSnapShotAndProcess_cases args c.server reply with
      heq | ⟨-, heq⟩ | ⟨-, -, -, heq⟩
    · exact absurd (by rw [heq]) hci
    · exact absurd (by rw [heq]; rfl) hci
    · exact absurd (by rw [heq]) hci

theorem commit_sound_three :
    ∃ σ', (replay Truthful replicationEvents).1.step (.process 1) = .ok σ' ∧
      ((replay Truthful replicationEvents).1.peers 0).commitIndex = 0 ∧
      (σ'.peers 0).commitIndex = 2 ∧ ∃ e, (σ'.peers 0).Holds 2 e ∧
      Majority fun q => ∃ σ ∈
        (replay Truthful replicationEvents).1 :: (replay Truthful replicationEvents).2,
        2 ≤ (σ.peers q).snapshotIndex ∨ (σ.peers q).Holds 2 e := by
  have hcommit : ∃ σ' ∈ ((replay Truthful replicationEvents).1.step (.process 1)).toOption,
      (σ'.peers 0).commitIndex = 2 := by decide +kernel
  obtain ⟨σ', hmem, hci⟩ := hcommit
  have hzero : ((replay Truthful replicationEvents).1.peers 0).commitIndex = 0 := by
    decide +kernel
  have hstep := eq_ok_of_mem_toOption hmem
  have hsound := commit_sound (p := 0) (run_replay Truthful replicationEvents) (by decide +kernel)
    hstep (by decide +kernel) (by rw [hci, hzero]; decide)
  rw [hci] at hsound
  obtain ⟨e, he, -, hmaj⟩ := hsound
  refine ⟨σ', hstep, hzero, hci, e, he, hmaj.mono ?_⟩
  rintro q ⟨σ, hσ, -, hheld⟩
  exact ⟨σ, hσ, hheld⟩

theorem commit_unsound : ∃ (σ σ' : Cluster 5 ℕ) (τ : List (Cluster 5 ℕ)),
    Run Always (σ :: τ) ∧ σ.step (.process 0) = .ok σ' ∧ (σ.peers 0).state = .leader ∧
    (σ'.peers 0).commitIndex ≠ (σ.peers 0).commitIndex ∧
    ¬∃ e, (σ'.peers 0).Holds (σ'.peers 0).commitIndex e ∧ e.term = (σ.peers 0).currentTerm ∧
      Majority fun q => ∃ σ₀ ∈ σ' :: σ :: τ, (σ₀.peers q).currentTerm = (σ.peers 0).currentTerm ∧
        ((σ'.peers 0).commitIndex ≤ (σ₀.peers q).snapshotIndex ∨
          (σ₀.peers q).Holds (σ'.peers 0).commitIndex e) := by
  have hcommit : ∃ σ' ∈ ((replay Always falseCommitEvents).1.step (.process 0)).toOption,
      (σ'.peers 0).commitIndex ≠ ((replay Always falseCommitEvents).1.peers 0).commitIndex ∧
      ∀ q : Fin 5, q ∉ ({0, 3} : Finset (Fin 5)) →
        ∀ σ₀ ∈ σ' :: (replay Always falseCommitEvents).1 :: (replay Always falseCommitEvents).2,
        (σ₀.peers q).currentTerm = ((replay Always falseCommitEvents).1.peers 0).currentTerm →
        (σ₀.peers q).snapshotIndex < (σ'.peers 0).commitIndex ∧
          ((σ₀.peers q).entryAt (σ'.peers 0).commitIndex).map LogEntry.term ≠
            some ((replay Always falseCommitEvents).1.peers 0).currentTerm := by
    decide +kernel
  obtain ⟨σ', hstep, hne, honly⟩ := hcommit
  refine ⟨_, σ', _, run_replay Always falseCommitEvents, ?_, by decide +kernel, hne, ?_⟩
  · exact eq_ok_of_mem_toOption hstep
  · rintro ⟨e, -, het, hmaj⟩
    refine not_majority (A := {0, 3}) (fun q hq => ?_) (by decide) hmaj
    obtain ⟨σ₀, hσ₀, ht, hheld⟩ := hq
    by_contra hout
    obtain ⟨hsnap, hterm⟩ := honly q hout σ₀ hσ₀ ht
    rcases hheld with hle | ⟨-, he⟩
    · omega
    · rw [he, ← het] at hterm
      exact hterm rfl

/-! ### Indexing -/

theorem handle_ne_panic {a : Protocol n α} (hsim : Sim σ a) (k : ℕ) (c : Call n α) :
    σ.handle k c ≠ .error .panic := by
  have hrep := (hsim.peer c.server).log
  have hdur := hsim.persisted c.server
  rw [Cluster.handle]
  split
  · next args _ =>
    rw [ne_eq, orPanic_eq_panic, Option.map_eq_none_iff]
    rcases Nat.lt_or_ge args.term (σ.peers c.server).currentTerm with hlt | hle
    · simp [Raft.requestVote, hlt]
    · obtain ⟨_, _, _, heq, -⟩ := hrep.requestVote hdur args hle
      simp [heq]
  · next args _ =>
    rw [ne_eq, orPanic_eq_panic, Option.map_eq_none_iff]
    rcases Nat.lt_or_ge args.term (σ.peers c.server).currentTerm with hlt | hle
    · simp [Raft.appendEntries, hlt]
    · rcases hrep.appendEntries hdur args hle with ⟨_, _, heq, -⟩ | ⟨-, -, _, _, _, heq, -⟩ <;>
        simp [heq]
  · next args _ =>
    rw [ne_eq, orPanic_eq_panic, Option.map_eq_none_iff]
    rcases Nat.lt_or_ge args.term (σ.peers c.server).currentTerm with hlt | hle
    · simp [Raft.installSnapShot, hlt]
    · rcases hrep.installSnapShot hdur args hle with ⟨-, _, heq, -⟩ | ⟨-, -, _, _, heq, -⟩ <;>
        simp [heq]
  · simp

theorem process_ne_panic {a : Protocol n α} (hsim : Sim σ a) (hsafe : Safe σ a) {k : ℕ}
    {c : Call n α} (hc : σ.calls[k]? = some c) (hok : Truthful σ (.process k)) :
    σ.process k c ≠ .error .panic := by
  rw [Cluster.process]
  split
  · simp
  split
  · simp
  · next args reply hbody =>
    rw [ne_eq, orPanic_eq_panic, Option.map_eq_none_iff]
    refine Raft.sendAppendEntriesAndProcess_ne_none fun hs ht hsuc hlt => ?_
    have hp := hsim.peer c.caller
    have hcon := hok k rfl c hc (args, reply) (by rw [hbody]; rfl)
    obtain ⟨hargs, -, m, hbuilt⟩ := hsim.appendReply hc hbody hsuc
    -- The index is in the leader's log: it is the end of what the leader has confirmed.
    obtain ⟨hle, hge⟩ := hbuilt.confirmed hp hs (ht.symm.trans hargs)
      ((hsafe.peer c.caller).compacted hs) (hcon hsuc hs ht.symm)
    obtain ⟨e, he, -⟩ := hp.log.goIndex_eq (hge hlt) hle
    rw [Raft.entryAt, he]
    exact Option.some_ne_none e
  · simp
  · simp

/-- **Log index safety.** No step indexes or slices `Logs` out of range. -/
theorem log_index_safety (h : Run Truthful (σ :: τ)) {e : Event n α} (hok : Truthful σ e) :
    σ.step e ≠ .error .panic := by
  obtain ⟨a, ha, -⟩ := h.safeHistory
  have hsim := ha.sim σ rfl
  have hsafe := ha.safe σ rfl
  have honCall : ∀ {k : ℕ} {f : Call n α → Except Fault (Cluster n α)},
      (∀ c, σ.calls[k]? = some c → f c ≠ .error .panic) → σ.onCall k f ≠ .error .panic := by
    intro k f hf
    rw [onCall]
    split
    · simp
    · next c hc => exact hf c hc
  cases e with
  | broadCastVote p =>
    rw [Cluster.step, ne_eq, orPanic_eq_panic, Option.map_eq_none_iff]
    by_cases hs : (σ.peers p).state = .leader
    · simp [Raft.broadCastVote, hs]
    · obtain ⟨_, heq, -⟩ := (hsim.peer p).log.broadCastVote hs
      simp [heq]
  | start p command => simp [Cluster.step]
  | checkConsistency p peer =>
    rw [Cluster.step]
    split
    · simp
    rw [ne_eq, orPanic_eq_panic, Option.map_eq_none_iff]
    by_cases hs : (σ.peers p).state = .leader
    · rcases (hsim.peer p).log.checkConsistency hs peer with ⟨-, _, -, heq⟩ | ⟨-, _, -, heq⟩ <;>
        simp [heq]
    · simp [Raft.checkConsistency, hs]
  | compact p cmdIndex snapshot =>
    rw [Cluster.step]
    split
    · rw [ne_eq, orPanic_eq_panic, Option.map_eq_none_iff]
      rcases (hsim.peer p).log.compact cmdIndex snapshot with heq | ⟨-, -, _, _, heq, -⟩ <;>
        simp [heq]
    · simp
  | apply p =>
    rw [Cluster.step]
    split
    · simp
    -- The daemon goes up to the commit index, which is within the log.
    have hlog : ({ σ.peers p with commitCh := (σ.peers p).commitCh - 1 } : Raft n α).Represents
      (a.log p) := (hsim.peer p).log
    obtain ⟨msgs, la, heq, -⟩ := Raft.applyLogEntryDaemon_eq
      { σ.peers p with commitCh := (σ.peers p).commitCh - 1 }
      ((hsafe.peer p).commit.le_length.trans_eq hlog.lastIndex_eq.symm)
    rw [ne_eq, orPanic_eq_panic, Option.map_eq_none_iff, heq]
    exact Option.some_ne_none _
  | handle k => exact honCall fun c _ => handle_ne_panic hsim k c
  | notify k =>
    refine honCall fun c _ => ?_
    rw [Cluster.notify]
    split
    · split <;> simp
    · simp
  | process k => exact honCall fun c hc => process_ne_panic hsim hsafe hc hok
  | lose k => exact honCall fun c _ => by simp
  | restart p => simp [Cluster.step]

theorem log_index_safety_three :
    (replay Truthful replicationEvents).1.step (.process 1) ≠ .error .panic :=
  log_index_safety (run_replay Truthful replicationEvents) (by decide +kernel)

theorem log_index_panics : ∃ (σ : Cluster 5 ℕ) (τ : List (Cluster 5 ℕ)) (e : Event 5 ℕ),
    Run Always (σ :: τ) ∧ σ.step e = .error .panic :=
  ⟨_, _, .process 0, run_replay Always falseSuccessEvents, by decide +kernel⟩

end Results

end RaftKVDB
