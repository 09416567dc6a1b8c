import RaftKVDB.Foundations.TermLog
import Mathlib.Algebra.GroupWithZero.Nat
import Mathlib.Data.Fin.Basic

/-!
# The state of one Raft peer

The fields of `Raft`, its `Persister` and its channels, from `raft.go` and `persister.go`, for a
cluster of `n` peers and commands of an arbitrary type `α` (Go's `interface{}`; `nil` is `none`).

## Conventions

* Go's `int` is `ℕ` where the code only ever stores non-negative numbers in it, and `ℤ` for the
  local positions it computes by subtraction, which may be negative. `VotedFor = -1` is `none`.
* Indexing and slicing go through `goIndex`, `goFrom` and `goTo`, which return `none` where Go
  panics. A function whose result is `Option` therefore panics exactly when it returns `none`.
* `persister.raftstate` is kept decoded: `encodeState` is the quadruple that `gob` writes, so that
  the encoding round-trips by construction. `nil`, the state before the first save, is `none`.
* `applyCh` is the list of all messages that this incarnation has sent on the channel, and
  `commitCh` is the number of signals in its buffer. The election timer and `resetTimerCh` are left
  out: an election may start at any time.
-/

namespace RaftKVDB

open Foundations

-- The peers of a cluster of one, three or five are written as numerals.
instance neZeroOne : NeZero 1 := ⟨Nat.one_ne_zero⟩

instance neZeroThree : NeZero 3 := ⟨Nat.succ_ne_zero 2⟩

instance neZeroFive : NeZero 5 := ⟨Nat.succ_ne_zero 4⟩

/-- `FOLLOWER`, `CANDIDATE`, `LEADER`. -/
inductive Role
  | follower
  | candidate
  | leader
  deriving DecidableEq, Repr

/-- `LogEntry`. -/
structure LogEntry (α : Type*) where
  globalIndex : ℕ
  term : ℕ
  command : Option α
  deriving DecidableEq, Repr

instance {α : Type*} : HasTerm (LogEntry α) := ⟨LogEntry.term⟩

/-- `ApplyMsg`. -/
structure ApplyMsg (α : Type*) where
  commandIndex : ℕ
  command : Option α
  commandValid : Bool
  snapShot : List UInt8
  deriving DecidableEq, Repr

/-- What `encodeState` writes: `CurrentTerm`, `VotedFor`, `SnapshotIndex` and `Logs`. -/
structure RaftState (n : ℕ) (α : Type*) where
  currentTerm : ℕ
  votedFor : Option (Fin n)
  snapshotIndex : ℕ
  logs : List (LogEntry α)
  deriving DecidableEq, Repr

/-- `Persister`. -/
structure Persister (n : ℕ) (α : Type*) where
  raftstate : Option (RaftState n α)
  snapshot : List UInt8
  deriving DecidableEq, Repr

/-- `MakePersister`. -/
def makePersister {n : ℕ} {α : Type*} : Persister n α := ⟨none, []⟩

/-- `Raft`. -/
structure Raft (n : ℕ) (α : Type*) where
  me : Fin n
  persister : Persister n α
  currentTerm : ℕ
  votedFor : Option (Fin n)
  logs : List (LogEntry α)
  snapshotIndex : ℕ
  commitIndex : ℕ
  lastApplied : ℕ
  nextIndex : Fin n → ℕ
  matchIndex : Fin n → ℕ
  state : Role
  voteCount : ℕ
  commitCh : ℕ
  applyCh : List (ApplyMsg α)

/-! ### Arguments and replies -/

/-- `RequestVoteArgs`. -/
structure RequestVoteArgs (n : ℕ) where
  term : ℕ
  candidateID : Fin n
  lastLogIndex : ℕ
  lastLogTerm : ℕ
  deriving DecidableEq, Repr

/-- `RequestVoteReply`. -/
structure RequestVoteReply where
  term : ℕ
  voteGranted : Bool
  deriving DecidableEq, Repr

/-- `AppendEntriesArgs`. -/
structure AppendEntriesArgs (n : ℕ) (α : Type*) where
  term : ℕ
  leaderID : Fin n
  prevLogIndex : ℕ
  prevLogTerm : ℕ
  entries : List (LogEntry α)
  leaderCommit : ℕ
  deriving DecidableEq, Repr

/-- `AppendEntriesReply`. -/
structure AppendEntriesReply where
  term : ℕ
  success : Bool
  conflictIndex : ℕ
  deriving DecidableEq, Repr

/-- `InstallSnapshotArgs`. -/
structure InstallSnapshotArgs (n : ℕ) where
  term : ℕ
  leaderID : Fin n
  lastIncludedIndex : ℕ
  lastIncludedTerm : ℕ
  snapshot : List UInt8
  deriving DecidableEq, Repr

/-- `InstallSnapshotReply`. -/
structure InstallSnapshotReply where
  term : ℕ
  deriving DecidableEq, Repr

/-! ### Indexing as Go does it -/

section Slices

variable {β : Type*}

/-- `l[i]`: out of range is a panic. -/
def goIndex (l : List β) (i : ℤ) : Option β :=
  if i < 0 then none else l[i.toNat]?

/-- `l[i:]`: a bound that is negative or beyond the length is a panic. -/
def goFrom (l : List β) (i : ℤ) : Option (List β) :=
  if i < 0 ∨ (l.length : ℤ) < i then none else some (l.drop i.toNat)

/-- `l[:i]`: a bound that is negative or beyond the length is a panic. -/
def goTo (l : List β) (i : ℤ) : Option (List β) :=
  if i < 0 ∨ (l.length : ℤ) < i then none else some (l.take i.toNat)

theorem goIndex_natCast (l : List β) (i : ℕ) : goIndex l i = l[i]? := by
  simp [goIndex]

theorem goFrom_natCast (l : List β) {i : ℕ} (hi : i ≤ l.length) :
    goFrom l i = some (l.drop i) := by
  rw [goFrom, if_neg (by omega), Int.toNat_natCast]

theorem goTo_natCast (l : List β) {i : ℕ} (hi : i ≤ l.length) : goTo l i = some (l.take i) := by
  rw [goTo, if_neg (by omega), Int.toNat_natCast]

end Slices

namespace Raft

variable {n : ℕ} {α : Type*}

/-- `logIdxLocal2Global`. -/
def logIdxLocal2Global (rf : Raft n α) (localIdx : ℤ) : ℤ := localIdx + rf.snapshotIndex

/-- `logIdxGlobal2Local`. -/
def logIdxGlobal2Local (rf : Raft n α) (globalIdx : ℤ) : ℤ := globalIdx - rf.snapshotIndex

/-- The global index of the last entry, `logIdxLocal2Global(len(rf.Logs)-1)`. -/
def lastIndex (rf : Raft n α) : ℕ := (rf.logIdxLocal2Global (rf.logs.length - 1)).toNat

/-- `encodeState`. -/
def encodeState (rf : Raft n α) : RaftState n α :=
  ⟨rf.currentTerm, rf.votedFor, rf.snapshotIndex, rf.logs⟩

/-- `persistState`. -/
def persistState (rf : Raft n α) : Raft n α :=
  { rf with persister := { rf.persister with raftstate := some rf.encodeState } }

/-- `if change { rf.persistState() }`. -/
def persistIf (rf : Raft n α) (change : Bool) : Raft n α :=
  if change then rf.persistState else rf

@[simp] theorem persistIf_logs (rf : Raft n α) (change : Bool) :
    (rf.persistIf change).logs = rf.logs := by
  cases change <;> rfl

@[simp] theorem persistIf_snapshotIndex (rf : Raft n α) (change : Bool) :
    (rf.persistIf change).snapshotIndex = rf.snapshotIndex := by
  cases change <;> rfl

@[simp] theorem persistIf_state (rf : Raft n α) (change : Bool) :
    (rf.persistIf change).state = rf.state := by
  cases change <;> rfl

@[simp] theorem persistIf_commitIndex (rf : Raft n α) (change : Bool) :
    (rf.persistIf change).commitIndex = rf.commitIndex := by
  cases change <;> rfl

@[simp] theorem persistIf_commitCh (rf : Raft n α) (change : Bool) :
    (rf.persistIf change).commitCh = rf.commitCh := by
  cases change <;> rfl

/-- `rf.persister.SaveStateAndSnapshot(rf.encodeState(), snapshot)`. -/
def saveStateAndSnapshot (rf : Raft n α) (snapshot : List UInt8) : Raft n α :=
  { rf with persister := ⟨some rf.encodeState, snapshot⟩ }

/-- `decodeState` on what `ReadRaftState` returns: nothing saved leaves the state as it is. -/
def dePersistState (rf : Raft n α) : Raft n α :=
  match rf.persister.raftstate with
  | none => rf
  | some s =>
    { rf with
      currentTerm := s.currentTerm
      votedFor := s.votedFor
      snapshotIndex := s.snapshotIndex
      logs := s.logs }

/-- `goBackToFollower`. -/
def goBackToFollower (rf : Raft n α) : Raft n α := { rf with state := .follower, voteCount := 0 }

/-- The three assignments made wherever a later term is seen:
`rf.CurrentTerm = term; rf.VotedFor = -1; rf.goBackToFollower()`. -/
def adoptTerm (rf : Raft n α) (term : ℕ) : Raft n α :=
  { rf with currentTerm := term, votedFor := none }.goBackToFollower

/-- `notifyAppUseNewSnapShot`. -/
def notifyAppUseNewSnapShot (rf : Raft n α) (snapshot : List UInt8) : Raft n α :=
  if snapshot = [] then rf
  else { rf with applyCh := rf.applyCh ++ [⟨0, none, false, snapshot⟩] }

/-- `Make`: a fresh peer, then what the persister holds, then the saved snapshot to the
application. -/
def make (me : Fin n) (persister : Persister n α) : Raft n α :=
  let rf : Raft n α :=
    { me := me
      persister := persister
      currentTerm := 0
      votedFor := none
      snapshotIndex := 0
      -- first log index is 1, thus we need a dummy log with index 0
      logs := [⟨0, 0, none⟩]
      lastApplied := 0
      commitIndex := 0
      nextIndex := fun _ => 1
      matchIndex := fun _ => 0
      state := .follower
      voteCount := 0
      commitCh := 0
      applyCh := [] }
  let rf := rf.dePersistState
  rf.notifyAppUseNewSnapShot rf.persister.snapshot

/-- What `Make` builds from what was saved. -/
theorem make_fields (me : Fin n) (persister : Persister n α) :
    (make me persister).persister = persister ∧ (make me persister).commitIndex = 0 ∧
    (make me persister).lastApplied = 0 ∧
    (make me persister).snapshotIndex = persister.raftstate.elim 0 RaftState.snapshotIndex ∧
    (make me persister).applyCh =
      (if persister.snapshot = [] then [] else [⟨0, none, false, persister.snapshot⟩]) ∧
    (make me persister).commitCh = 0 := by
  obtain ⟨raftstate, snapshot⟩ := persister
  cases raftstate <;> by_cases hs : snapshot = [] <;>
    simp [make, dePersistState, notifyAppUseNewSnapShot, hs]

end Raft

end RaftKVDB
