import RaftKVDB.Raft.FullLogHandlers

/-!
# The actions of a peer and the full log

What a peer does with replies, and what it does on its own account: elections, requests, commands,
compaction, the wake-up of the apply daemon and a restart.

## Main results

* `Raft.sendAppendEntriesAndProcess_cases`, `sendRequestVoteAndProcess_cases` — replies
* `Raft.Represents.broadCastVote`, `checkConsistency`, `start`, `compact` — the peer's own actions
* `Raft.make_persisted` — restart
-/

namespace RaftKVDB

open Foundations

namespace Raft

variable {n : ℕ} {α : Type*} {rf : Raft n α} {G : List (LogEntry α)} {i t : ℕ}

/-! ### The reply processors -/

theorem sendRequestVoteAndProcess_cases (rf : Raft n α) (reply : RequestVoteReply) :
    rf.sendRequestVoteAndProcess reply = rf ∨
    (rf.currentTerm < reply.term ∧
      rf.sendRequestVoteAndProcess reply = (rf.adoptTerm reply.term).persistState) ∨
    (rf.state = .candidate ∧ reply.term = rf.currentTerm ∧ reply.voteGranted = true ∧
      (rf.sendRequestVoteAndProcess reply = { rf with voteCount := rf.voteCount + 1 } ∨
        n / 2 < rf.voteCount + 1 ∧ rf.sendRequestVoteAndProcess reply
          = ({ rf with voteCount := rf.voteCount + 1 } : Raft n α).becomeLeader)) := by
  rw [sendRequestVoteAndProcess]
  split
  · exact .inl rfl
  next hcur =>
  split
  · next hlt => exact .inr (.inl ⟨hlt, rfl⟩)
  next hge =>
  split
  · next hg =>
    have hst : rf.state = .candidate := by
      by_contra hne
      exact hcur (.inl hne)
    refine .inr (.inr ⟨hst, by omega, hg, ?_⟩)
    simp only
    split
    · next hmaj => exact .inr ⟨hmaj, rfl⟩
    · exact .inl rfl
  · exact .inl rfl

/-- A new leader knows its own log only. -/
theorem Represents.becomeLeader_matchIndex (h : rf.Represents G) (q : Fin n) :
    rf.becomeLeader.matchIndex q ≤ G.length ∧ (q ≠ rf.me → rf.becomeLeader.matchIndex q = 0) := by
  simp only [becomeLeader, Function.update_apply, h.lastIndex_eq]
  split
  · next heq => exact ⟨Nat.le_refl _, fun hne => absurd heq hne⟩
  · exact ⟨Nat.zero_le _, fun _ => rfl⟩

/-- A successful reply raises `matchIndex`, and with it possibly the commit index; one that is not
successful moves `nextIndex`. -/
theorem sendAppendEntriesAndProcess_cases {args : AppendEntriesArgs n α} {server : Fin n}
    {reply : AppendEntriesReply} {rf' : Raft n α}
    (h : rf.sendAppendEntriesAndProcess args server reply = some rf') :
    rf' = rf ∨
    (rf.currentTerm < reply.term ∧ rf' = (rf.adoptTerm reply.term).persistState) ∨
    (rf.state = .leader ∧ reply.term = rf.currentTerm ∧ reply.success = false ∧
      rf' = { rf with
        nextIndex := Function.update rf.nextIndex server (max 1 reply.conflictIndex) }) ∨
    (rf.state = .leader ∧ reply.term = rf.currentTerm ∧ reply.success = true ∧
      rf.matchIndex server < args.prevLogIndex + args.entries.length ∧ ∃ ci cc,
      rf' = { rf with
        matchIndex := Function.update rf.matchIndex server
          (args.prevLogIndex + args.entries.length)
        nextIndex := Function.update rf.nextIndex server
          (args.prevLogIndex + args.entries.length + 1)
        commitIndex := ci
        commitCh := cc } ∧
      (ci = rf.commitIndex ∨
        rf.commitIndex < ci ∧ ci = args.prevLogIndex + args.entries.length ∧
        (∃ e, goIndex rf.logs (rf.logIdxGlobal2Local ci) = some e ∧ e.term = rf.currentTerm) ∧
        n / 2 < (List.finRange n).countP fun i => decide (ci ≤ Function.update rf.matchIndex server
          (args.prevLogIndex + args.entries.length) i))) := by
  rw [sendAppendEntriesAndProcess] at h
  split at h
  · exact .inl (Option.some.inj h).symm
  next hcur =>
  split at h
  · next hlt => exact .inr (.inl ⟨hlt, (Option.some.inj h).symm⟩)
  next hge =>
  have hst : rf.state = .leader := by
    by_contra hne
    exact hcur (.inl hne)
  have hterm : reply.term = rf.currentTerm := by omega
  split at h
  · next hsuc =>
    simp only at h
    split at h
    · next hm =>
      refine .inr (.inr (.inr ⟨hst, hterm, hsuc, hm, ?_⟩))
      split at h
      · next hci =>
        split at h
        · exact nomatch h
        next e he =>
        split at h
        · next het =>
          split at h
          · next hmaj =>
            exact ⟨_, _, (Option.some.inj h).symm, .inr ⟨hci, rfl, ⟨e, he, het⟩, hmaj⟩⟩
          · exact ⟨_, _, (Option.some.inj h).symm, .inl rfl⟩
        · rw [if_neg (Nat.not_lt_zero _)] at h
          exact ⟨_, _, (Option.some.inj h).symm, .inl rfl⟩
      · exact ⟨_, _, (Option.some.inj h).symm, .inl rfl⟩
    · exact .inl (Option.some.inj h).symm
  · next hfail =>
    exact .inr (.inr (.inl ⟨hst, hterm, by simpa using hfail, (Option.some.inj h).symm⟩))

/-- The only index that processing a reply uses is that of a success beyond the commit index. -/
theorem sendAppendEntriesAndProcess_ne_none {args : AppendEntriesArgs n α} {server : Fin n}
    {reply : AppendEntriesReply}
    (h : rf.state = .leader → reply.term = rf.currentTerm → reply.success = true →
      rf.commitIndex < args.prevLogIndex + args.entries.length →
      rf.entryAt (args.prevLogIndex + args.entries.length) ≠ none) :
    rf.sendAppendEntriesAndProcess args server reply ≠ none := by
  rw [sendAppendEntriesAndProcess]
  split
  · simp
  next hcur =>
  split
  · simp
  next hge =>
  split
  · next hsuc =>
    simp only
    split
    · split
      · next hci =>
        have hst : rf.state = .leader := by
          by_contra hne
          exact hcur (.inl hne)
        have hent := h hst (by omega) hsuc hci
        split
        · next hnone => exact absurd hnone hent
        · split
          · split <;> simp
          · simp
      · simp
    · simp
  · simp

theorem sendSnapShotAndProcess_cases (rf : Raft n α) (args : InstallSnapshotArgs n)
    (server : Fin n) (reply : InstallSnapshotReply) :
    rf.sendSnapShotAndProcess args server reply = rf ∨
    (rf.currentTerm < reply.term ∧
      rf.sendSnapShotAndProcess args server reply = (rf.adoptTerm reply.term).persistState) ∨
    (rf.state = .leader ∧ reply.term = rf.currentTerm ∧
      rf.nextIndex server ≤ args.lastIncludedIndex ∧
      rf.sendSnapShotAndProcess args server reply = { rf with
        nextIndex := Function.update rf.nextIndex server (args.lastIncludedIndex + 1)
        matchIndex := Function.update rf.matchIndex server args.lastIncludedIndex }) := by
  rw [sendSnapShotAndProcess]
  split
  · exact .inl rfl
  next hcur =>
  split
  · next hlt => exact .inr (.inl ⟨hlt, rfl⟩)
  next hge =>
  split
  · next hni =>
    have hst : rf.state = .leader := by
      by_contra hne
      exact hcur (.inl hne)
    exact .inr (.inr ⟨hst, by omega, hni, rfl⟩)
  · exact .inl rfl

/-! ### The peer's own actions -/

/-- **`broadCastVote`** at a peer that is not the leader. -/
theorem Represents.broadCastVote (h : rf.Represents G) (hs : rf.state ≠ .leader) : ∃ st,
    rf.broadCastVote = some ({ rf with
      currentTerm := rf.currentTerm + 1
      state := .candidate
      votedFor := some rf.me
      voteCount := 1
      persister := ⟨st, rf.persister.snapshot⟩ },
      some ⟨rf.currentTerm + 1, rf.me, G.length, lastTerm G⟩) ∧
    ({ rf with
      currentTerm := rf.currentTerm + 1
      state := .candidate
      votedFor := some rf.me
      voteCount := 1
      persister := ⟨st, rf.persister.snapshot⟩ } : Raft n α).Persisted := by
  obtain ⟨e, he, ht⟩ := h.goIndex_last
  have hidx : ((rf.logs.length : ℤ) - 1 + rf.snapshotIndex).toNat = G.length := by
    have := h.local2Global_last
    simp only [logIdxLocal2Global] at this
    omega
  rw [Raft.broadCastVote, if_neg hs]
  simp only [he, ht, logIdxLocal2Global, hidx]
  exact ⟨_, rfl, rfl⟩

/-- **`checkConsistency`** at the leader. An index beyond the end of the log goes out with the term
of the last entry, and no entries follow it. -/
theorem Represents.checkConsistency (h : rf.Represents G) (hs : rf.state = .leader)
    (peer : Fin n) :
    (rf.nextIndex peer ≤ rf.snapshotIndex ∧ ∃ dt, termAt G rf.snapshotIndex = some dt ∧
      rf.checkConsistency peer = some (some (.installSnapShot
        ⟨rf.currentTerm, rf.me, rf.snapshotIndex, dt, rf.persister.snapshot⟩))) ∨
    (rf.snapshotIndex < rf.nextIndex peer ∧ ∃ pt,
      termAt G (min (rf.nextIndex peer - 1) G.length) = some pt ∧
      rf.checkConsistency peer = some (some (.appendEntries
        ⟨rf.currentTerm, rf.me, rf.nextIndex peer - 1, pt, G.drop (rf.nextIndex peer - 1),
          rf.commitIndex⟩))) := by
  have hlen := h.length_logs
  have hsle := h.snapshotIndex_le
  rw [Raft.checkConsistency, if_neg (not_not.mpr hs)]
  simp only
  split
  · next hlt =>
    obtain ⟨e, he, hte, -⟩ := h.goIndex_eq (Nat.le_refl _) hsle
    have hpos : rf.logIdxGlobal2Local (rf.snapshotIndex : ℤ) = 0 := by
      simp [logIdxGlobal2Local]
    rw [hpos] at he
    exact .inl ⟨by omega, e.term, hte, by rw [he]⟩
  · next hge =>
    have hpos : min (rf.logIdxGlobal2Local ((rf.nextIndex peer : ℤ) - 1)) ((rf.logs.length : ℤ) - 1)
        = rf.logIdxGlobal2Local ((min (rf.nextIndex peer - 1) G.length : ℕ) : ℤ) := by
      simp only [logIdxGlobal2Local]
      omega
    obtain ⟨e, he, hte, -⟩ := h.goIndex_eq (i := min (rf.nextIndex peer - 1) G.length)
      (by omega) (by omega)
    have hfrom := h.goFrom_eq (i := min (rf.nextIndex peer - 1) G.length) (by omega) (by omega)
    have hdrop :
        G.drop (min (rf.nextIndex peer - 1) G.length) = G.drop (rf.nextIndex peer - 1) := by
      rcases Nat.le_total (rf.nextIndex peer - 1) G.length with hle | hle
      · rw [Nat.min_eq_left hle]
      · rw [Nat.min_eq_right hle, List.drop_length, List.drop_eq_nil_of_le hle]
    have hprev : ((rf.nextIndex peer : ℤ) - 1).toNat = rf.nextIndex peer - 1 := by omega
    refine .inr ⟨by omega, e.term, hte, ?_⟩
    rw [hpos, he, hfrom, hdrop, hprev]

/-- **`Start`** at the leader: one more entry of the current term. -/
theorem Represents.start (h : rf.Represents G) (hs : rf.state = .leader) (command : Option α) :
    ∃ logs st ni, (rf.start command).1 = { rf with
        logs := logs
        nextIndex := ni
        matchIndex := Function.update rf.matchIndex rf.me (G.length + 1)
        persister := ⟨st, rf.persister.snapshot⟩ } ∧
      ({ rf with logs := logs, persister := ⟨st, rf.persister.snapshot⟩ } : Raft n α).Persisted ∧
      RepresentsFrom rf.snapshotIndex logs
        (G ++ [⟨G.length + 1, rf.currentTerm, command⟩]) := by
  have hlen := h.length_logs
  have hsle := h.snapshotIndex_le
  have hidx : rf.snapshotIndex + rf.logs.length = G.length + 1 := by omega
  have hrep := RepresentsFrom.append h [⟨G.length + 1, rf.currentTerm, command⟩]
  have hnew : ({ rf with
    logs := rf.logs ++ [⟨G.length + 1, rf.currentTerm, command⟩] } : Raft n α).Represents _ := hrep
  have hlast := hnew.lastIndex_eq
  rw [List.length_append, List.length_singleton] at hlast
  rw [Raft.start, if_pos hs]
  simp only [hidx, hlast]
  exact ⟨_, _, _, rfl, rfl, hrep⟩

/-- **`Compact`** leaves the full log alone. -/
theorem Represents.compact (h : rf.Represents G) (cmdIndex : ℕ) (snapshot : List UInt8) :
    rf.compact cmdIndex snapshot = some rf ∨
    rf.snapshotIndex < cmdIndex ∧ cmdIndex ≤ G.length ∧ ∃ logs st,
      rf.compact cmdIndex snapshot = some { rf with
        logs := logs, snapshotIndex := cmdIndex, persister := ⟨st, snapshot⟩ } ∧
      ({ rf with
        logs := logs, snapshotIndex := cmdIndex, persister := ⟨st, snapshot⟩
        } : Raft n α).Persisted ∧
      RepresentsFrom cmdIndex logs G := by
  have hlen := h.length_logs
  have hsle := h.snapshotIndex_le
  have hpos : rf.logIdxGlobal2Local cmdIndex = (cmdIndex : ℤ) - rf.snapshotIndex := rfl
  rw [Raft.compact]
  split
  · exact .inl rfl
  next hge =>
  simp only
  split
  · exact .inl rfl
  next hin =>
  obtain ⟨e, he, hte, -⟩ := h.goIndex_eq (i := cmdIndex) (by omega) (by omega)
  rw [he, h.goFrom_eq (i := cmdIndex) (by omega) (by omega)]
  exact .inr ⟨by omega, by omega, _, _, rfl, rfl, RepresentsFrom.compact (by omega) hte⟩

/-! ### The apply daemon -/

/-- The apply loop only sends messages: valid ones, in the range it goes through, each with the
command at its index. -/
theorem Represents.applyLoop_eq {last : ℕ} (fuel i : ℕ) {rf rf' : Raft n α} (h : rf.Represents G)
    (hrun : applyLoop last fuel i rf = some rf') : ∃ msgs la,
      rf' = { rf with applyCh := rf.applyCh ++ msgs, lastApplied := la } ∧
      ∀ m ∈ msgs, m.commandValid = true ∧ i ≤ m.commandIndex ∧ rf.snapshotIndex < m.commandIndex ∧
        m.commandIndex ≤ last ∧ ∃ e, G[m.commandIndex - 1]? = some e ∧ e.command = m.command := by
  induction fuel generalizing i rf with
  | zero =>
    obtain rfl := Option.some.inj hrun
    exact ⟨[], rf.lastApplied, by rw [List.append_nil], by simp⟩
  | succ fuel ih =>
    rw [applyLoop] at hrun
    split at hrun
    · obtain rfl := Option.some.inj hrun
      exact ⟨[], rf.lastApplied, by rw [List.append_nil], by simp⟩
    next hle =>
    split at hrun
    · next hsnap =>
      obtain ⟨msgs, la, heq, hmsgs⟩ := ih _ h hrun
      refine ⟨msgs, la, heq, fun m hm => ?_⟩
      obtain ⟨hv, hi, hs, hl, he⟩ := hmsgs m hm
      exact ⟨hv, by omega, hs, hl, he⟩
    next hsnap =>
    split at hrun
    · cases hrun
    next e he =>
    have hin : i ≤ G.length := by
      by_contra hgt
      have hlen := h.length_logs
      have hsle := h.snapshotIndex_le
      rw [goIndex, logIdxGlobal2Local] at he
      split at he
      · cases he
      · have := (List.getElem?_eq_some_iff.mp he).1
        omega
    obtain ⟨e', he', -, hent⟩ := h.goIndex_eq (i := i) (by omega) hin
    obtain rfl := Option.some.inj (he.symm.trans he')
    have hsent : ({ rf with
      applyCh := rf.applyCh ++ [⟨i, e.command, true, []⟩], lastApplied := i } : Raft n α).Represents
        G := h
    obtain ⟨msgs, la, heq, hmsgs⟩ := ih (i + 1) hsent hrun
    refine ⟨⟨i, e.command, true, []⟩ :: msgs, la, ?_, fun m hm => ?_⟩
    · rw [heq]
      simp only [List.append_assoc, List.singleton_append]
    · rcases List.mem_cons.mp hm with rfl | hm
      · exact ⟨rfl, Nat.le_refl _, by simpa using hsnap, by simpa using hle, e, hent (by omega),
          rfl⟩
      · obtain ⟨hv, hi, hs, hl, he⟩ := hmsgs m hm
        exact ⟨hv, by omega, hs, hl, he⟩

/-! ### Restart -/

/-- **`Make`** on what was persisted gives back the persistent fields and resets the others. -/
theorem make_persisted (h : rf.Persisted) : ∃ ch,
    make rf.me rf.persister =
      { me := rf.me
        persister := rf.persister
        currentTerm := rf.currentTerm
        votedFor := rf.votedFor
        logs := rf.logs
        snapshotIndex := rf.snapshotIndex
        commitIndex := 0
        lastApplied := 0
        nextIndex := fun _ => 1
        matchIndex := fun _ => 0
        state := .follower
        voteCount := 0
        commitCh := 0
        applyCh := ch } ∧
    ∀ m ∈ ch, m.commandValid = false := by
  have hnotify : ∀ (r : Raft n α) (s : List UInt8), ∃ ch,
      r.notifyAppUseNewSnapShot s = { r with applyCh := r.applyCh ++ ch } ∧
      ∀ m ∈ ch, m.commandValid = false := by
    intro r s
    rw [notifyAppUseNewSnapShot]
    split
    · exact ⟨[], by rw [List.append_nil], by simp⟩
    · exact ⟨_, rfl, by simp⟩
  unfold Persisted encodeState at h
  unfold make dePersistState
  rcases hst : rf.persister.raftstate with _ | st
  · rw [hst, Option.getD_none, RaftState.mk.injEq] at h
    obtain ⟨ht, hv, hs, hl⟩ := h
    simp only [hst]
    obtain ⟨ch, heq, hch⟩ := hnotify _ _
    rw [heq, ← ht, ← hv, ← hs, ← hl]
    exact ⟨_, rfl, hch⟩
  · rw [hst, Option.getD_some] at h
    simp only [hst]
    obtain ⟨ch, heq, hch⟩ := hnotify _ _
    rw [heq, h]
    exact ⟨_, rfl, hch⟩

end Raft

end RaftKVDB
