import RaftKVDB.Raft.FullLogActions

/-!
# What the handlers leave alone

Most of what a peer does changes neither its snapshot nor what it has applied. `Raft.Steady` says
so, and the lemmas say which functions are steady and what the others do.

## Main results

* `Raft.Steady` — what is left alone
* `Raft.installSnapShot_cases`, `Raft.compact_cases` — the functions that move the snapshot
-/

namespace RaftKVDB

open Foundations

variable {n : ℕ}

namespace Raft

variable {α : Type*} {rf rf' rf'' : Raft n α}

/-- The snapshot index that was saved, `0` if nothing was. -/
def savedIndex (rf : Raft n α) : ℕ := rf.persister.raftstate.elim 0 RaftState.snapshotIndex

/-- The snapshot and what was applied are the same, and what is saved about the snapshot stays
right. -/
structure Steady (rf rf' : Raft n α) : Prop where
  me : rf'.me = rf.me
  snapshotIndex : rf'.snapshotIndex = rf.snapshotIndex
  lastApplied : rf'.lastApplied = rf.lastApplied
  snapshot : rf'.persister.snapshot = rf.persister.snapshot
  savedIndex : rf.savedIndex = rf.snapshotIndex → rf'.savedIndex = rf'.snapshotIndex

theorem Steady.refl (rf : Raft n α) : Steady rf rf := ⟨rfl, rfl, rfl, rfl, id⟩

theorem Steady.trans (h : Steady rf rf') (h' : Steady rf' rf'') : Steady rf rf'' where
  me := h'.me.trans h.me
  snapshotIndex := h'.snapshotIndex.trans h.snapshotIndex
  lastApplied := h'.lastApplied.trans h.lastApplied
  snapshot := h'.snapshot.trans h.snapshot
  savedIndex hs := h'.savedIndex (h.savedIndex hs)

theorem steady_persistState (rf : Raft n α) : Steady rf rf.persistState :=
  ⟨rfl, rfl, rfl, rfl, fun _ => rfl⟩

theorem Steady.persistIf (h : Steady rf rf') (change : Bool) :
    Steady rf (rf'.persistIf change) := by
  cases change with
  | false => exact h
  | true => exact h.trans (steady_persistState rf')

theorem steady_logs (rf : Raft n α) (logs : List (LogEntry α)) :
    Steady rf { rf with logs := logs } :=
  ⟨rfl, rfl, rfl, rfl, id⟩

theorem steady_adoptTerm (rf : Raft n α) (term : ℕ) : Steady rf (rf.adoptTerm term) :=
  ⟨rfl, rfl, rfl, rfl, id⟩

theorem steady_seeTerm (rf : Raft n α) (term : ℕ) : Steady rf (rf.seeTerm term) := by
  rw [seeTerm]
  split
  · exact steady_adoptTerm rf term
  · exact .refl rf

theorem steady_followLeader (rf : Raft n α) (term : ℕ) : Steady rf (rf.followLeader term) := by
  rw [followLeader]
  split
  · exact steady_adoptTerm rf term
  · split
    · exact ⟨rfl, rfl, rfl, rfl, id⟩
    · exact .refl rf

theorem steady_followCommit (rf : Raft n α) (leaderCommit : ℕ) :
    Steady rf (rf.followCommit leaderCommit) := by
  rw [followCommit]
  split
  · exact ⟨rfl, rfl, rfl, rfl, id⟩
  · exact .refl rf

theorem steady_requestVote {args : RequestVoteArgs n} {reply : RequestVoteReply}
    (h : rf.requestVote args = some (rf', reply)) : Steady rf rf' := by
  have hsee := steady_seeTerm rf args.term
  have hvote : Steady rf { rf.seeTerm args.term with votedFor := some args.candidateID } :=
    hsee.trans ⟨rfl, rfl, rfl, rfl, id⟩
  rcases requestVote_outcome h with rfl | ⟨change, rfl⟩ | rfl
  · exact .refl rf'
  · exact hsee.persistIf change
  · exact hvote.persistIf true

theorem steady_appendEntries {args : AppendEntriesArgs n α} {reply : AppendEntriesReply}
    (h : rf.appendEntries args = some (rf', reply)) : Steady rf rf' := by
  have hfol := steady_followLeader rf args.term
  rcases appendEntries_outcome h with ⟨rfl, -⟩ | ⟨-, ⟨change, rfl⟩ | ⟨logs, change, rfl⟩⟩
  · exact .refl rf'
  · exact hfol.persistIf change
  · exact ((hfol.trans (steady_logs _ logs)).trans (steady_followCommit _ _)).persistIf change

/-- A handler of `InstallSnapShot` that installs nothing changes nothing here; one that does moves
the snapshot beyond the old one and beyond the commit index. -/
theorem installSnapShot_cases {args : InstallSnapshotArgs n} {reply : InstallSnapshotReply}
    {installed : Bool} (h : rf.installSnapShot args = some (rf', reply, installed)) :
    installed = false ∧ Steady rf rf' ∨
    installed = true ∧ rf.snapshotIndex < args.lastIncludedIndex ∧ rf'.me = rf.me ∧
      rf'.snapshotIndex = args.lastIncludedIndex ∧ rf'.lastApplied = rf.lastApplied ∧
      rf'.persister.snapshot = args.snapshot ∧ rf'.savedIndex = args.lastIncludedIndex := by
  have hfol := steady_followLeader rf args.term
  rcases installSnapShot_outcome h with
    ⟨rfl, rfl | ⟨change, rfl⟩⟩ | ⟨rfl, hlt, logs, rfl⟩
  · exact .inl ⟨rfl, .refl rf'⟩
  · exact .inl ⟨rfl, hfol.persistIf change⟩
  · exact .inr ⟨rfl, hlt, hfol.me, rfl, hfol.lastApplied, rfl, rfl⟩

theorem steady_broadCastVote {sent : Option (RequestVoteArgs n)}
    (h : rf.broadCastVote = some (rf', sent)) : Steady rf rf' := by
  rw [broadCastVote] at h
  dsimp only at h
  repeat' split at h
  all_goals first | cases h; done | obtain ⟨rfl, -⟩ := Prod.mk.inj (Option.some.inj h)
  · exact .refl rf
  · exact ⟨rfl, rfl, rfl, rfl, fun _ => rfl⟩

theorem steady_sendRequestVoteAndProcess (rf : Raft n α) (reply : RequestVoteReply) :
    Steady rf (rf.sendRequestVoteAndProcess reply) := by
  rw [sendRequestVoteAndProcess]
  dsimp only
  repeat' split
  · exact .refl rf
  · exact (steady_adoptTerm rf _).trans (steady_persistState _)
  · exact ⟨rfl, rfl, rfl, rfl, id⟩
  · exact ⟨rfl, rfl, rfl, rfl, id⟩
  · exact .refl rf

theorem steady_sendAppendEntriesAndProcess {args : AppendEntriesArgs n α} {server : Fin n}
    {reply : AppendEntriesReply}
    (h : rf.sendAppendEntriesAndProcess args server reply = some rf') : Steady rf rf' := by
  rcases sendAppendEntriesAndProcess_cases h with
    rfl | ⟨-, rfl⟩ | ⟨-, -, -, rfl⟩ | ⟨-, -, -, -, ci, cc, rfl, -⟩
  · exact .refl rf'
  · exact (steady_adoptTerm rf _).trans (steady_persistState _)
  · exact ⟨rfl, rfl, rfl, rfl, id⟩
  · exact ⟨rfl, rfl, rfl, rfl, id⟩

theorem steady_sendSnapShotAndProcess (rf : Raft n α) (args : InstallSnapshotArgs n)
    (server : Fin n) (reply : InstallSnapshotReply) :
    Steady rf (rf.sendSnapShotAndProcess args server reply) := by
  rw [sendSnapShotAndProcess]
  repeat' split
  · exact .refl rf
  · exact (steady_adoptTerm rf _).trans (steady_persistState _)
  · exact ⟨rfl, rfl, rfl, rfl, id⟩
  · exact .refl rf

theorem steady_start (rf : Raft n α) (command : Option α) : Steady rf (rf.start command).1 := by
  rw [start]
  dsimp only
  split
  · exact ⟨rfl, rfl, rfl, rfl, fun _ => rfl⟩
  · exact .refl rf

/-- `Compact` does nothing, or moves the snapshot to `cmdIndex` and keeps what follows. -/
theorem compact_cases {cmdIndex : ℕ} {snapshot : List UInt8}
    (h : rf.compact cmdIndex snapshot = some rf') : rf' = rf ∨
    rf.snapshotIndex < cmdIndex ∧ rf'.me = rf.me ∧ rf'.snapshotIndex = cmdIndex ∧
      rf'.lastApplied = rf.lastApplied ∧ rf'.commitIndex = rf.commitIndex ∧
      rf'.persister.snapshot = snapshot ∧ rf'.savedIndex = cmdIndex ∧
      ∀ i, cmdIndex < i → rf'.entryAt i = rf.entryAt i := by
  rw [compact] at h
  dsimp only at h
  split at h
  · exact .inl (Option.some.inj h).symm
  next hlt =>
  split at h
  · exact .inl (Option.some.inj h).symm
  next hlen =>
  split at h
  · next e rest he hrest =>
    obtain rfl := Option.some.inj h
    refine .inr ⟨by omega, rfl, rfl, rfl, rfl, rfl, rfl, fun i hi => ?_⟩
    have hfrom : rest = rf.logs.drop (cmdIndex - rf.snapshotIndex + 1) := by
      have hpos : rf.logIdxGlobal2Local (cmdIndex : ℤ) + 1 =
          ((cmdIndex - rf.snapshotIndex + 1 : ℕ) : ℤ) := by
        simp only [logIdxGlobal2Local]
        omega
      simp only [logIdxGlobal2Local] at hlen
      rw [hpos, goFrom_natCast _ (by omega)] at hrest
      exact (Option.some.inj hrest).symm
    have hnew : ((i : ℤ) - cmdIndex) = ((i - cmdIndex : ℕ) : ℤ) := by omega
    have hold : ((i : ℤ) - rf.snapshotIndex) = ((i - rf.snapshotIndex : ℕ) : ℤ) := by omega
    simp only [entryAt, saveStateAndSnapshot, logIdxGlobal2Local, hnew, hold, goIndex_natCast,
      hfrom]
    obtain ⟨d, rfl⟩ : ∃ d, i = cmdIndex + 1 + d := ⟨i - (cmdIndex + 1), by omega⟩
    rw [show cmdIndex + 1 + d - cmdIndex = d + 1 by omega, List.getElem?_cons_succ,
      List.getElem?_drop]
    congr 1
    omega
  · cases h

end Raft

end RaftKVDB
