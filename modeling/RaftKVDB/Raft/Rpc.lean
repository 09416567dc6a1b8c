import RaftKVDB.Raft.State

/-!
# The three RPC handlers

`RequestVote`, `AppendEntries` and `InstallSnapShot`, from `requestvote_rpc.go`,
`appendentries_rpc.go` and `installsnapshot_rpc.go`. Each runs under `rf.mu` from beginning to end,
so it is one function of the peer's state and the arguments; `none` is a panic.

`InstallSnapShot` releases the lock before it sends the snapshot to the application. Its last
component says whether it still has that to do.

## Main results

* `Raft.requestVote_outcome`, `appendEntries_outcome`, `installSnapShot_outcome` — what a handler
  can do to a peer, in any state; what it does to the log is in `Raft/FullLogHandlers`
-/

namespace RaftKVDB

namespace Raft

variable {n : ℕ} {α : Type*}

/-- The beginning of `RequestVote`, for a request that is not stale: a later term is adopted. -/
def seeTerm (rf : Raft n α) (term : ℕ) : Raft n α :=
  if rf.currentTerm < term then rf.adoptTerm term else rf

/-- `RequestVote`. -/
def requestVote (rf : Raft n α) (args : RequestVoteArgs n) :
    Option (Raft n α × RequestVoteReply) :=
  if args.term < rf.currentTerm then
    some (rf, ⟨rf.currentTerm, false⟩)
  else
    let change := decide (rf.currentTerm < args.term)
    let rf := rf.seeTerm args.term
    -- The second condition is necessary to avoid the loss of previous grant reply
    if rf.votedFor = none ∨ rf.votedFor = some args.candidateID then
      let idx : ℤ := rf.logs.length - 1
      match goIndex rf.logs idx with
      | none => none
      | some last =>
        if last.term < args.lastLogTerm ∨
            args.lastLogTerm = last.term ∧ rf.logIdxLocal2Global idx ≤ args.lastLogIndex then
          if rf.votedFor = none then
            some ({ rf with votedFor := some args.candidateID }.persistIf true, ⟨args.term, true⟩)
          else
            some (rf.persistIf change, ⟨args.term, true⟩)
        else
          some (rf.persistIf change, ⟨args.term, false⟩)
    else
      some (rf.persistIf change, ⟨args.term, false⟩)

/-- The beginning of `AppendEntries` and of `InstallSnapShot`, for a request that is not stale: a
later term is adopted, and in the same term a candidate loses the election. -/
def followLeader (rf : Raft n α) (term : ℕ) : Raft n α :=
  if rf.currentTerm < term then rf.adoptTerm term
  else if rf.state ≠ .follower then { rf with state := .follower }
  else rf

/-- The loop of the third conflict case: from position `i` down to the head of its run of entries
of term `t`. -/
def conflictHead (logs : List (LogEntry α)) (t : ℕ) : ℕ → Option ℕ
  | 0 => some 0
  | i + 1 =>
    match logs[i]? with
    | none => none
    | some e => if e.term ≠ t then some (i + 1) else conflictHead logs t i

/-- The loop of the success branch: how many of the new entries meet an entry of the same term, up
to the first that does not. -/
def matchLength : List (LogEntry α) → List (LogEntry α) → ℕ
  | x :: xs, y :: ys => if x.term ≠ y.term then 0 else matchLength xs ys + 1
  | _, _ => 0

/-- The end of the success branch: follow the leader's commit index, but not beyond the own log. -/
def followCommit (rf : Raft n α) (leaderCommit : ℕ) : Raft n α :=
  if rf.commitIndex < leaderCommit then
    { rf with commitIndex := min leaderCommit rf.lastIndex, commitCh := rf.commitCh + 1 }
  else rf

/-- `AppendEntries`. -/
def appendEntries (rf : Raft n α) (args : AppendEntriesArgs n α) :
    Option (Raft n α × AppendEntriesReply) :=
  if args.term < rf.currentTerm then
    some (rf, ⟨rf.currentTerm, false, 0⟩)
  else
    let change := decide (rf.currentTerm < args.term)
    let rf := rf.followLeader args.term
    let localLastIdx : ℤ := rf.logs.length - 1
    let localPrevIdx := rf.logIdxGlobal2Local args.prevLogIndex
    if args.prevLogIndex < rf.snapshotIndex then
      some (rf.persistIf change,
        ⟨args.term, false, (rf.logIdxLocal2Global localLastIdx + 1).toNat⟩)
    else if localLastIdx < localPrevIdx then
      some (rf.persistIf change,
        ⟨args.term, false, (rf.logIdxLocal2Global localLastIdx + 1).toNat⟩)
    else
      match goIndex rf.logs localPrevIdx with
      | none => none
      | some e =>
        if e.term ≠ args.prevLogTerm then
          -- find the head index whose term is the same as PrevLog's term
          match conflictHead rf.logs e.term localPrevIdx.toNat with
          | none => none
          | some i =>
            some (rf.persistIf change, ⟨args.term, false, (rf.logIdxLocal2Global i).toNat⟩)
        else
          let j := matchLength (rf.logs.drop (localPrevIdx + 1).toNat) args.entries
          if j < args.entries.length then
            match goTo rf.logs (localPrevIdx + 1 + j) with
            | none => none
            | some kept =>
              let rf := { rf with logs := kept ++ args.entries.drop j }
              some ((rf.followCommit args.leaderCommit).persistIf true, ⟨args.term, true, 0⟩)
          else
            some ((rf.followCommit args.leaderCommit).persistIf change, ⟨args.term, true, 0⟩)

/-- `InstallSnapShot`. -/
def installSnapShot (rf : Raft n α) (args : InstallSnapshotArgs n) :
    Option (Raft n α × InstallSnapshotReply × Bool) :=
  if args.term < rf.currentTerm then
    some (rf, ⟨rf.currentTerm⟩, false)
  else
    let change := decide (rf.currentTerm < args.term)
    let rf := rf.followLeader args.term
    if args.lastIncludedIndex ≤ rf.snapshotIndex ∨ args.lastIncludedIndex ≤ rf.commitIndex then
      some (rf.persistIf change, ⟨args.term⟩, false)
    else
      let argsLocalLastIncludeIndex := rf.logIdxGlobal2Local args.lastIncludedIndex
      let dummy : LogEntry α := ⟨args.lastIncludedIndex, args.lastIncludedTerm, none⟩
      let install (newLog : List (LogEntry α)) :=
        some ({ rf with logs := newLog, snapshotIndex := args.lastIncludedIndex
              }.saveStateAndSnapshot args.snapshot, (⟨args.term⟩ : InstallSnapshotReply), true)
      if argsLocalLastIncludeIndex < rf.logs.length then
        match goIndex rf.logs argsLocalLastIncludeIndex with
        | none => none
        | some e =>
          if e.term = args.lastIncludedTerm then
            match goFrom rf.logs (argsLocalLastIncludeIndex + 1) with
            | none => none
            | some rest => install (dummy :: rest)
          else install [dummy]
      else install [dummy]

/-! ### The parts of a handler -/

variable {rf rf' : Raft n α} {t : ℕ}

/-- A later term changes nothing but the term, the vote and the role. -/
theorem seeTerm_eq (rf : Raft n α) (term : ℕ) : ∃ v s c,
    rf.seeTerm term = { rf with
      currentTerm := max rf.currentTerm term, votedFor := v, state := s, voteCount := c } := by
  rw [seeTerm]
  split
  · next h => exact ⟨none, .follower, 0, by rw [Nat.max_eq_right h.le]; rfl⟩
  · next h =>
    exact ⟨rf.votedFor, rf.state, rf.voteCount, by rw [Nat.max_eq_left (Nat.le_of_not_lt h)]⟩

/-- A leader's request changes nothing but the term, the vote and the role. -/
theorem followLeader_eq (rf : Raft n α) (term : ℕ) : ∃ v c,
    rf.followLeader term = { rf with
      currentTerm := max rf.currentTerm term, votedFor := v, state := .follower, voteCount := c } ∧
    (rf.currentTerm < term ∧ v = none ∨ term ≤ rf.currentTerm ∧ v = rf.votedFor) := by
  rw [followLeader]
  split
  · next h => exact ⟨none, 0, by rw [Nat.max_eq_right h.le]; rfl, .inl ⟨h, rfl⟩⟩
  · next h =>
    have hle := Nat.le_of_not_lt h
    refine ⟨rf.votedFor, rf.voteCount, ?_, .inr ⟨hle, rfl⟩⟩
    rw [Nat.max_eq_left hle]
    split
    · rfl
    · next hs => rw [← not_not.mp hs]

@[simp] theorem followLeader_logs (rf : Raft n α) (t : ℕ) :
    (rf.followLeader t).logs = rf.logs := by
  obtain ⟨v, c, heq, -⟩ := followLeader_eq rf t
  rw [heq]

@[simp] theorem followLeader_snapshotIndex (rf : Raft n α) (t : ℕ) :
    (rf.followLeader t).snapshotIndex = rf.snapshotIndex := by
  obtain ⟨v, c, heq, -⟩ := followLeader_eq rf t
  rw [heq]

@[simp] theorem followLeader_commitIndex (rf : Raft n α) (t : ℕ) :
    (rf.followLeader t).commitIndex = rf.commitIndex := by
  obtain ⟨v, c, heq, -⟩ := followLeader_eq rf t
  rw [heq]

@[simp] theorem followLeader_commitCh (rf : Raft n α) (t : ℕ) :
    (rf.followLeader t).commitCh = rf.commitCh := by
  obtain ⟨v, c, heq, -⟩ := followLeader_eq rf t
  rw [heq]

/-- A leader's request makes a follower of its receiver. -/
@[simp] theorem followLeader_state (rf : Raft n α) (t : ℕ) :
    (rf.followLeader t).state = .follower := by
  obtain ⟨v, c, heq, -⟩ := followLeader_eq rf t
  rw [heq]

theorem followLeader_currentTerm (hle : rf.currentTerm ≤ t) :
    (rf.followLeader t).currentTerm = t := by
  obtain ⟨v, c, heq, -⟩ := followLeader_eq rf t
  rw [heq]
  exact Nat.max_eq_right hle

theorem seeTerm_currentTerm (hle : rf.currentTerm ≤ t) : (rf.seeTerm t).currentTerm = t := by
  obtain ⟨v, s, c, heq⟩ := seeTerm_eq rf t
  rw [heq]
  exact Nat.max_eq_right hle

@[simp] theorem followCommit_logs (rf : Raft n α) (c : ℕ) :
    (rf.followCommit c).logs = rf.logs := by
  rw [followCommit]
  split <;> rfl

@[simp] theorem followCommit_snapshotIndex (rf : Raft n α) (c : ℕ) :
    (rf.followCommit c).snapshotIndex = rf.snapshotIndex := by
  rw [followCommit]
  split <;> rfl

@[simp] theorem followCommit_state (rf : Raft n α) (c : ℕ) :
    (rf.followCommit c).state = rf.state := by
  rw [followCommit]
  split <;> rfl

/-! ### What a handler can do -/

/-- `RequestVote` leaves the peer as it was, or shows it a term, or has its vote. -/
theorem requestVote_outcome {args : RequestVoteArgs n} {reply : RequestVoteReply}
    (h : rf.requestVote args = some (rf', reply)) :
    rf' = rf ∨ (∃ change, rf' = (rf.seeTerm args.term).persistIf change) ∨
      rf' = { rf.seeTerm args.term with votedFor := some args.candidateID }.persistIf true := by
  rw [requestVote] at h
  dsimp only at h
  repeat' split at h
  all_goals first | cases h; done | obtain ⟨rfl, -⟩ := Prod.mk.inj (Option.some.inj h)
  · exact .inl rfl
  · exact .inr (.inr rfl)
  · exact .inr (.inl ⟨_, rfl⟩)
  · exact .inr (.inl ⟨_, rfl⟩)
  · exact .inr (.inl ⟨_, rfl⟩)

/-- `AppendEntries` refuses a stale request; else the peer follows the leader, and that is all, or
its log changes and its commit index follows. -/
theorem appendEntries_outcome {args : AppendEntriesArgs n α} {reply : AppendEntriesReply}
    (h : rf.appendEntries args = some (rf', reply)) :
    rf' = rf ∧ reply = ⟨rf.currentTerm, false, 0⟩ ∨ reply.term = args.term ∧
      ((∃ change, rf' = (rf.followLeader args.term).persistIf change) ∨
        ∃ logs change, rf' = ({ rf.followLeader args.term with
          logs := logs }.followCommit args.leaderCommit).persistIf change) := by
  rw [appendEntries] at h
  dsimp only at h
  repeat' split at h
  all_goals first | cases h; done | obtain ⟨rfl, rfl⟩ := Prod.mk.inj (Option.some.inj h)
  · exact .inl ⟨rfl, rfl⟩
  · exact .inr ⟨rfl, .inl ⟨_, rfl⟩⟩
  · exact .inr ⟨rfl, .inl ⟨_, rfl⟩⟩
  · exact .inr ⟨rfl, .inl ⟨_, rfl⟩⟩
  · exact .inr ⟨rfl, .inr ⟨_, _, rfl⟩⟩
  · exact .inr ⟨rfl, .inr ⟨_, _, rfl⟩⟩

/-- `InstallSnapShot` installs nothing, or a snapshot beyond the old one. -/
theorem installSnapShot_outcome {args : InstallSnapshotArgs n} {reply : InstallSnapshotReply}
    {installed : Bool} (h : rf.installSnapShot args = some (rf', reply, installed)) :
    installed = false ∧
      (rf' = rf ∨ ∃ change, rf' = (rf.followLeader args.term).persistIf change) ∨
    installed = true ∧ rf.snapshotIndex < args.lastIncludedIndex ∧ ∃ logs,
      rf' = { rf.followLeader args.term with
        logs := logs, snapshotIndex := args.lastIncludedIndex
        }.saveStateAndSnapshot args.snapshot := by
  rw [installSnapShot] at h
  simp only [followLeader_snapshotIndex] at h
  split at h
  · obtain ⟨rfl, hans⟩ := Prod.mk.inj (Option.some.inj h)
    exact .inl ⟨(Prod.mk.inj hans).2.symm, .inl rfl⟩
  split at h
  · obtain ⟨rfl, hans⟩ := Prod.mk.inj (Option.some.inj h)
    exact .inl ⟨(Prod.mk.inj hans).2.symm, .inr ⟨_, rfl⟩⟩
  next hnew =>
  have hlt := Nat.lt_of_not_le fun hle => hnew (.inl hle)
  -- Which entries are kept makes no difference here.
  repeat' split at h
  all_goals first | cases h; done | obtain ⟨rfl, hans⟩ := Prod.mk.inj (Option.some.inj h)
  · exact .inr ⟨(Prod.mk.inj hans).2.symm, hlt, _, rfl⟩
  · exact .inr ⟨(Prod.mk.inj hans).2.symm, hlt, _, rfl⟩
  · exact .inr ⟨(Prod.mk.inj hans).2.symm, hlt, _, rfl⟩

end Raft

end RaftKVDB
