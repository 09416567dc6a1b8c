import RaftKVDB.Raft.State

/-!
# What a peer does on its own

The functions of `raft.go` that run under `rf.mu` and are not RPC handlers: starting an election,
building requests, processing replies, `Start`, `Compact` and one wake-up of the apply daemon.

The processors are `sendRequestVoteAndProcess` and its two siblings from the moment their `Call`
has returned `true`; one that returned `false` does nothing. `none` is a panic.
-/

namespace RaftKVDB

namespace Raft

variable {n : ℕ} {α : Type*}

/-! ### Elections -/

/-- `broadCastVote`: the new state and the arguments sent to every other peer, or nothing sent when
the peer is the leader already. -/
def broadCastVote (rf : Raft n α) : Option (Raft n α × Option (RequestVoteArgs n)) :=
  if rf.state = .leader then some (rf, none)
  else
    let rf :=
      { rf with
        currentTerm := rf.currentTerm + 1
        state := .candidate
        votedFor := some rf.me
        voteCount := 1 }
    let localIdx : ℤ := rf.logs.length - 1
    match goIndex rf.logs localIdx with
    | none => none
    | some last =>
      some (rf.persistState,
        some ⟨rf.currentTerm, rf.me, (rf.logIdxLocal2Global localIdx).toNat, last.term⟩)

/-- Leader initialization in `sendRequestVoteAndProcess`. -/
def becomeLeader (rf : Raft n α) : Raft n α :=
  { rf with
    state := .leader
    nextIndex := fun _ => rf.lastIndex + 1
    matchIndex := Function.update (fun _ => 0) rf.me rf.lastIndex }

/-- `sendRequestVoteAndProcess`. -/
def sendRequestVoteAndProcess (rf : Raft n α) (reply : RequestVoteReply) : Raft n α :=
  if rf.state ≠ .candidate ∨ reply.term < rf.currentTerm then rf
  else if rf.currentTerm < reply.term then (rf.adoptTerm reply.term).persistState
  else if reply.voteGranted then
    let rf := { rf with voteCount := rf.voteCount + 1 }
    if n / 2 < rf.voteCount then rf.becomeLeader else rf
  else rf

/-! ### Replication -/

/-- The request that `checkConsistency` sends. -/
inductive Request (n : ℕ) (α : Type*)
  | appendEntries (args : AppendEntriesArgs n α)
  | installSnapShot (args : InstallSnapshotArgs n)

/-- `checkConsistency`: the request to `peer`, or nothing when this peer is not the leader. The
position of the previous entry is clamped to the end of the log, its index is not. -/
def checkConsistency (rf : Raft n α) (peer : Fin n) : Option (Option (Request n α)) :=
  if rf.state ≠ .leader then some none
  else
    let prevIdx : ℤ := rf.nextIndex peer - 1
    if prevIdx < rf.snapshotIndex then
      match goIndex rf.logs 0 with
      | none => none
      | some dummy =>
        some (some (.installSnapShot
          ⟨rf.currentTerm, rf.me, rf.snapshotIndex, dummy.term, rf.persister.snapshot⟩))
    else
      let localIdx := min (rf.logIdxGlobal2Local prevIdx) (rf.logs.length - 1)
      match goIndex rf.logs localIdx, goFrom rf.logs (localIdx + 1) with
      | some prev, some entries =>
        some (some (.appendEntries
          ⟨rf.currentTerm, rf.me, prevIdx.toNat, prev.term, entries, rf.commitIndex⟩))
      | _, _ => none

/-- `sendAppendEntriesAndProcess`. -/
def sendAppendEntriesAndProcess (rf : Raft n α) (args : AppendEntriesArgs n α) (server : Fin n)
    (reply : AppendEntriesReply) : Option (Raft n α) :=
  if rf.state ≠ .leader ∨ reply.term < rf.currentTerm then some rf
  else if rf.currentTerm < reply.term then some (rf.adoptTerm reply.term).persistState
  else if reply.success then
    let N := args.prevLogIndex + args.entries.length
    if rf.matchIndex server < N then
      let rf :=
        { rf with
          matchIndex := Function.update rf.matchIndex server N
          nextIndex := Function.update rf.nextIndex server (N + 1) }
      if rf.commitIndex < N then
        match goIndex rf.logs (rf.logIdxGlobal2Local N) with
        | none => none
        | some e =>
          let count :=
            if e.term = rf.currentTerm then
              (List.finRange n).countP fun i => decide (N ≤ rf.matchIndex i)
            else 0
          if n / 2 < count then some { rf with commitIndex := N, commitCh := rf.commitCh + 1 }
          else some rf
      else some rf
    else some rf
  else
    some { rf with nextIndex := Function.update rf.nextIndex server (max 1 reply.conflictIndex) }

/-- `sendSnapShotAndProcess`. -/
def sendSnapShotAndProcess (rf : Raft n α) (args : InstallSnapshotArgs n) (server : Fin n)
    (reply : InstallSnapshotReply) : Raft n α :=
  if rf.state ≠ .leader ∨ reply.term < rf.currentTerm then rf
  else if rf.currentTerm < reply.term then (rf.adoptTerm reply.term).persistState
  else if rf.nextIndex server ≤ args.lastIncludedIndex then
    { rf with
      nextIndex := Function.update rf.nextIndex server (args.lastIncludedIndex + 1)
      matchIndex := Function.update rf.matchIndex server args.lastIncludedIndex }
  else rf

/-! ### The application's side -/

/-- `Start`: the new state, then the index, the term and whether the peer is the leader. -/
def start (rf : Raft n α) (command : Option α) : Raft n α × ℤ × ℤ × Bool :=
  if rf.state = .leader then
    let log : LogEntry α := ⟨rf.snapshotIndex + rf.logs.length, rf.currentTerm, command⟩
    let rf := { rf with logs := rf.logs ++ [log] }
    let index : ℕ := rf.lastIndex
    let rf :=
      { rf with
        nextIndex := Function.update rf.nextIndex rf.me (index + 1)
        matchIndex := Function.update rf.matchIndex rf.me index }
    (rf.persistState, index, rf.currentTerm, true)
  else (rf, -1, -1, false)

/-- `Compact`. -/
def compact (rf : Raft n α) (cmdIndex : ℕ) (snapshot : List UInt8) : Option (Raft n α) :=
  if cmdIndex ≤ rf.snapshotIndex then some rf
  else
    let localLastIncludeIndex := rf.logIdxGlobal2Local cmdIndex
    if (rf.logs.length : ℤ) ≤ localLastIncludeIndex then some rf
    else
      match goIndex rf.logs localLastIncludeIndex, goFrom rf.logs (localLastIncludeIndex + 1) with
      | some e, some rest =>
        some ({ rf with logs := ⟨cmdIndex, e.term, none⟩ :: rest, snapshotIndex := cmdIndex
              }.saveStateAndSnapshot snapshot)
      | _, _ => none

/-- The loop of `applyLogEntryDaemon` from `i` to `last`, which jumps over what is in the snapshot.
Each round raises `i`, so `last + 1 - i` rounds are enough. -/
def applyLoop (last : ℕ) : ℕ → ℕ → Raft n α → Option (Raft n α)
  | 0, _, rf => some rf
  | fuel + 1, i, rf =>
    if last < i then some rf
    else if i ≤ rf.snapshotIndex then applyLoop last fuel (rf.snapshotIndex + 1) rf
    else
      match goIndex rf.logs (rf.logIdxGlobal2Local i) with
      | none => none
      | some e =>
        applyLoop last fuel (i + 1)
          { rf with applyCh := rf.applyCh ++ [⟨i, e.command, true, []⟩], lastApplied := i }

/-- One wake-up of `applyLogEntryDaemon`. It holds `rf.mu` from its first to its last message. -/
def applyLogEntryDaemon (rf : Raft n α) : Option (Raft n α) :=
  applyLoop rf.commitIndex (rf.commitIndex - rf.lastApplied) (rf.lastApplied + 1) rf

end Raft

end RaftKVDB
