import RaftKVDB.Raft.FullLogHandlers

/-!
# The functions of a peer, by position

What the functions of a peer return for any state, in terms of the entries at given indices and of
positions of `Logs`. Nothing is assumed about the log but that the positions exist, so these
equations also hold in states that no run reaches.

## Main results

* `Raft.appendEntries_success`, `appendEntries_conflict` — the two outcomes of `AppendEntries`
* `Raft.installSnapShot_accept`, `installSnapShot_stale` — those of `InstallSnapShot`
* `Raft.requestVote_eq`, `broadCastVote_eq`, `start_eq` — the functions that look at the end only
-/

namespace RaftKVDB

open Foundations

namespace Raft

variable {n : ℕ} {α : Type*} {rf : Raft n α} {i k : ℕ} {e : LogEntry α}

/-! ### Positions -/

theorem entryAt_of_le (h : rf.snapshotIndex ≤ i) :
    rf.entryAt i = rf.logs[i - rf.snapshotIndex]? := by
  obtain ⟨k, rfl⟩ := Nat.exists_eq_add_of_le h
  rw [rf.entryAt_add, Nat.add_sub_cancel_left]

theorem logIdxGlobal2Local_of_le (h : rf.snapshotIndex ≤ i) :
    rf.logIdxGlobal2Local i = ((i - rf.snapshotIndex : ℕ) : ℤ) := by
  rw [logIdxGlobal2Local]
  omega

/-! ### Requests of a leader -/

/-- The success branch: the entries are spliced in after the position of the previous one, and the
commit index follows. -/
def accept (rf : Raft n α) (args : AppendEntriesArgs n α) : Raft n α :=
  { rf with
    logs := splice rf.logs (args.prevLogIndex - rf.snapshotIndex + 1) args.entries
    }.followCommit args.leaderCommit

/-- Whether the entries change the log. -/
def rewrites (rf : Raft n α) (args : AppendEntriesArgs n α) : Bool :=
  decide (matchLength (rf.logs.drop (args.prevLogIndex - rf.snapshotIndex + 1)) args.entries <
    args.entries.length)

theorem appendEntries_success (rf : Raft n α) {args : AppendEntriesArgs n α}
    (hterm : rf.currentTerm ≤ args.term) (hprev : rf.snapshotIndex ≤ args.prevLogIndex)
    (he : (rf.entryAt args.prevLogIndex).map LogEntry.term = some args.prevLogTerm) :
    rf.appendEntries args = some
      (((rf.followLeader args.term).accept args).persistIf
        (decide (rf.currentTerm < args.term) || (rf.followLeader args.term).rewrites args),
        ⟨args.term, true, 0⟩) := by
  obtain ⟨e, he, ht⟩ := Option.map_eq_some_iff.mp he
  rw [entryAt_of_le hprev] at he
  have hlt := (List.getElem?_eq_some_iff.mp he).1
  have hpos : (rf.followLeader args.term).logIdxGlobal2Local args.prevLogIndex =
      ((args.prevLogIndex - rf.snapshotIndex : ℕ) : ℤ) := by
    rw [logIdxGlobal2Local_of_le (by simpa using hprev), followLeader_snapshotIndex]
  rw [appendEntries, if_neg (by omega), accept, rewrites]
  simp only [hpos, followLeader_logs, followLeader_snapshotIndex, goIndex_natCast, he, ht]
  have hnext : (((args.prevLogIndex - rf.snapshotIndex : ℕ) : ℤ) + 1).toNat =
      args.prevLogIndex - rf.snapshotIndex + 1 := by omega
  rw [if_neg (by omega), if_neg (by omega), if_neg (by simp), hnext, splice]
  have hle := (matchLength_le (rf.logs.drop (args.prevLogIndex - rf.snapshotIndex + 1))
    args.entries).1
  rw [List.length_drop] at hle
  generalize matchLength (rf.logs.drop (args.prevLogIndex - rf.snapshotIndex + 1))
    args.entries = j at hle ⊢
  split
  · next hj =>
    have hkept : goTo rf.logs (((args.prevLogIndex - rf.snapshotIndex : ℕ) : ℤ) + 1 + j) =
        some (rf.logs.take (args.prevLogIndex - rf.snapshotIndex + 1 + j)) :=
      goTo_natCast rf.logs (i := args.prevLogIndex - rf.snapshotIndex + 1 + j) (by omega)
    simp [hj, hkept]
  · next hj =>
    obtain ⟨v, c, heq, -⟩ := followLeader_eq rf args.term
    simp [hj, heq]

/-- The other branches change nothing but the term, the vote and the role. -/
theorem appendEntries_conflict (rf : Raft n α) {args : AppendEntriesArgs n α}
    (hne : rf.logs ≠ []) (hterm : rf.currentTerm ≤ args.term)
    (hprev : rf.snapshotIndex ≤ args.prevLogIndex)
    (he : (rf.entryAt args.prevLogIndex).map LogEntry.term ≠ some args.prevLogTerm) :
    ∃ conflictIndex, rf.appendEntries args = some
      ((rf.followLeader args.term).persistIf (decide (rf.currentTerm < args.term)),
        ⟨args.term, false, conflictIndex⟩) := by
  have hpos : (rf.followLeader args.term).logIdxGlobal2Local args.prevLogIndex =
      ((args.prevLogIndex - rf.snapshotIndex : ℕ) : ℤ) := by
    rw [logIdxGlobal2Local_of_le (by simpa using hprev), followLeader_snapshotIndex]
  rw [entryAt_of_le hprev] at he
  rw [appendEntries, if_neg (by omega)]
  simp only [hpos, followLeader_logs, followLeader_snapshotIndex, goIndex_natCast,
    Int.toNat_natCast]
  rw [if_neg (by omega)]
  split
  · exact ⟨_, rfl⟩
  next hin =>
  have hlen := List.length_pos_iff.mpr hne
  have hlt : args.prevLogIndex - rf.snapshotIndex < rf.logs.length := by omega
  rw [List.getElem?_eq_getElem hlt] at he ⊢
  simp only
  rw [if_pos (by simpa using he)]
  obtain ⟨j, -, hj, -⟩ := conflictHead_spec rf.logs
    rf.logs[args.prevLogIndex - rf.snapshotIndex].term _ hlt.le
  rw [hj]
  exact ⟨_, rfl⟩

/-- A snapshot that is ahead of the peer replaces the log, up to what agrees with it. -/
theorem installSnapShot_accept (rf : Raft n α) {args : InstallSnapshotArgs n}
    (hterm : rf.currentTerm ≤ args.term)
    (hsnap : rf.snapshotIndex < args.lastIncludedIndex)
    (hcommit : rf.commitIndex < args.lastIncludedIndex) :
    rf.installSnapShot args = some
      ({ rf.followLeader args.term with
          logs := ⟨args.lastIncludedIndex, args.lastIncludedTerm, none⟩ ::
            if (rf.entryAt args.lastIncludedIndex).map LogEntry.term = some args.lastIncludedTerm
              then rf.logs.drop (args.lastIncludedIndex - rf.snapshotIndex + 1) else []
          snapshotIndex := args.lastIncludedIndex }.saveStateAndSnapshot args.snapshot,
        ⟨args.term⟩, true) := by
  have hpos : (rf.followLeader args.term).logIdxGlobal2Local args.lastIncludedIndex =
      ((args.lastIncludedIndex - rf.snapshotIndex : ℕ) : ℤ) := by
    rw [logIdxGlobal2Local_of_le (by simpa using hsnap.le), followLeader_snapshotIndex]
  rw [entryAt_of_le hsnap.le, installSnapShot, if_neg (by omega)]
  simp only [hpos, followLeader_logs, followLeader_snapshotIndex, followLeader_commitIndex,
    goIndex_natCast]
  rw [if_neg (by omega)]
  split
  · next hlt =>
    have hlt : args.lastIncludedIndex - rf.snapshotIndex < rf.logs.length := by omega
    have hfrom : goFrom rf.logs (((args.lastIncludedIndex - rf.snapshotIndex : ℕ) : ℤ) + 1) =
        some (rf.logs.drop (args.lastIncludedIndex - rf.snapshotIndex + 1)) :=
      goFrom_natCast rf.logs hlt
    rw [List.getElem?_eq_getElem hlt, hfrom]
    simp only [Option.map_some, Option.some.injEq]
    split <;> rfl
  · next hge =>
    rw [List.getElem?_eq_none (by omega)]
    rfl

/-- A snapshot that is not ahead of the peer changes nothing but the term, the vote and the role. -/
theorem installSnapShot_stale (rf : Raft n α) {args : InstallSnapshotArgs n}
    (hterm : rf.currentTerm ≤ args.term)
    (hold : args.lastIncludedIndex ≤ rf.snapshotIndex ∨ args.lastIncludedIndex ≤ rf.commitIndex) :
    rf.installSnapShot args = some
      ((rf.followLeader args.term).persistIf (decide (rf.currentTerm < args.term)),
        ⟨args.term⟩, false) := by
  rw [installSnapShot, if_neg (by omega)]
  simp only [followLeader_snapshotIndex, followLeader_commitIndex]
  rw [if_pos hold]

theorem accept_snapshotIndex (rf : Raft n α) (args : AppendEntriesArgs n α) :
    (rf.accept args).snapshotIndex = rf.snapshotIndex :=
  followCommit_snapshotIndex _ _

theorem accept_logs (rf : Raft n α) (args : AppendEntriesArgs n α) : (rf.accept args).logs =
    splice rf.logs (args.prevLogIndex - rf.snapshotIndex + 1) args.entries :=
  followCommit_logs _ _

/-! ### The end of the log -/

theorem goIndex_last_eq (hne : rf.logs ≠ []) :
    goIndex rf.logs ((rf.logs.length : ℤ) - 1) = rf.entryAt rf.lastIndex := by
  have := List.length_pos_iff.mpr hne
  rw [entryAt]
  congr 1
  simp only [lastIndex, logIdxLocal2Global, logIdxGlobal2Local]
  omega

theorem logIdxLocal2Global_last (hne : rf.logs ≠ []) :
    rf.logIdxLocal2Global ((rf.logs.length : ℤ) - 1) = rf.lastIndex := by
  have := List.length_pos_iff.mpr hne
  simp only [lastIndex, logIdxLocal2Global]
  omega

/-- The voter compares the candidate's log with the end of its own. -/
def upToDate (args : RequestVoteArgs n) (lastTerm lastIndex : ℕ) : Bool :=
  decide (lastTerm < args.lastLogTerm ∨ args.lastLogTerm = lastTerm ∧ lastIndex ≤ args.lastLogIndex)

/-- Whether the vote is still free for the candidate, and its log is up to date. -/
def grants (rf : Raft n α) (args : RequestVoteArgs n) (lastTerm lastIndex : ℕ) : Bool :=
  decide (rf.votedFor = none ∨ rf.votedFor = some args.candidateID) &&
    upToDate args lastTerm lastIndex

/-- `RequestVote` reads nothing of the log but its end. -/
theorem requestVote_eq (rf : Raft n α) (args : RequestVoteArgs n) {last : LogEntry α}
    (hne : rf.logs ≠ []) (hlast : rf.entryAt rf.lastIndex = some last)
    (hterm : rf.currentTerm ≤ args.term) :
    rf.requestVote args = some
      (({ rf.seeTerm args.term with
          votedFor := if (rf.seeTerm args.term).grants args last.term rf.lastIndex
            then some args.candidateID else (rf.seeTerm args.term).votedFor
          : Raft n α }).persistIf
        (decide (rf.currentTerm < args.term) ||
          (rf.seeTerm args.term).grants args last.term rf.lastIndex &&
            decide ((rf.seeTerm args.term).votedFor = none)),
        ⟨args.term, (rf.seeTerm args.term).grants args last.term rf.lastIndex⟩) := by
  obtain ⟨v, s, c, heq⟩ := seeTerm_eq rf args.term
  have hx : goIndex (rf.seeTerm args.term).logs (((rf.seeTerm args.term).logs.length : ℤ) - 1) =
      some last := by
    rw [heq]
    exact (goIndex_last_eq hne).trans hlast
  have hidx : (rf.seeTerm args.term).logIdxLocal2Global
      (((rf.seeTerm args.term).logs.length : ℤ) - 1) = rf.lastIndex := by
    rw [heq]
    exact logIdxLocal2Global_last hne
  rw [requestVote, if_neg (by omega)]
  simp only [hx, hidx, grants, upToDate, Int.ofNat_le]
  by_cases hfree : (rf.seeTerm args.term).votedFor = none ∨
      (rf.seeTerm args.term).votedFor = some args.candidateID
  · rw [if_pos hfree]
    split
    · next hup =>
      split
      · next hnone => simp [hnone, hup]
      · next hsome =>
        have hvoted := hfree.resolve_left hsome
        simp [← hvoted, hsome, hup]
    · next hup => simp [hup]
  · rw [if_neg hfree]
    simp [hfree]

/-- `broadCastVote` sends nothing of the log but its end. -/
theorem broadCastVote_eq (rf : Raft n α) {last : LogEntry α}
    (hne : rf.logs ≠ []) (hlast : rf.entryAt rf.lastIndex = some last) (hs : rf.state ≠ .leader) :
    rf.broadCastVote = some
      (({ rf with
          currentTerm := rf.currentTerm + 1
          state := .candidate
          votedFor := some rf.me
          voteCount := 1 } : Raft n α).persistIf true,
        some ⟨rf.currentTerm + 1, rf.me, rf.lastIndex, last.term⟩) := by
  have hidx := logIdxLocal2Global_last hne
  have hgo := (goIndex_last_eq hne).trans hlast
  rw [broadCastVote, if_neg hs]
  simp only [logIdxLocal2Global] at hidx ⊢
  simp only [hgo, hidx, Int.toNat_natCast]
  rfl

/-- A leader's `Start` appends one entry, at the next index. -/
theorem start_eq (rf : Raft n α) (hs : rf.state = .leader) (command : Option α) :
    rf.start command =
      (({ rf with
          logs := rf.logs ++ [⟨rf.snapshotIndex + rf.logs.length, rf.currentTerm, command⟩]
          nextIndex := Function.update rf.nextIndex rf.me (rf.snapshotIndex + rf.logs.length + 1)
          matchIndex := Function.update rf.matchIndex rf.me (rf.snapshotIndex + rf.logs.length)
          } : Raft n α).persistIf true,
        ((rf.snapshotIndex + rf.logs.length : ℕ) : ℤ), (rf.currentTerm : ℤ), true) := by
  have hidx : ({ rf with logs := rf.logs ++
      [⟨rf.snapshotIndex + rf.logs.length, rf.currentTerm, command⟩] } : Raft n α).lastIndex =
      rf.snapshotIndex + rf.logs.length := by
    simp only [lastIndex, logIdxLocal2Global, List.length_append, List.length_singleton]
    omega
  rw [start, if_pos hs]
  simp only [hidx]
  rfl

end Raft

end RaftKVDB
