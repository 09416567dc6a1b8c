import RaftKVDB.Raft.Rpc
import RaftKVDB.Raft.Peer

/-!
# The log behind the snapshot

`Logs` starts with a dummy entry that stands for everything up to `SnapshotIndex`. The *full log* of
a peer is what `Logs` would be had nothing ever been compacted: a plain list whose entry `i` is at
position `i - 1`. `Raft.Represents` relates the two. The lemmas of this file say what is found at a
position, and those of `Raft/FullLogHandlers` and `Raft/FullLogActions` what each function of the
peer does to the full log. They are the only place where local positions are computed; above them,
`SnapshotIndex` is just a number.

## Main results

* `Raft.Represents.goIndex_eq`, `goFrom_eq` — what indexing and slicing give
* `Raft.WellFormed` — the shape of `Logs`
* `Raft.Represents.entryAt_eq` — the log above the snapshot is that of the full log
-/

namespace RaftKVDB

open Foundations

namespace Raft

variable {n : ℕ} {α : Type*} {rf : Raft n α} {G : List (LogEntry α)} {i t : ℕ}

/-- `logs` is what is left of the full log `G` after compaction up to `snap`: a dummy with the index
and the term of entry `snap`, then the entries after it. -/
def RepresentsFrom (snap : ℕ) (logs G : List (LogEntry α)) : Prop :=
  snap ≤ G.length ∧ ∃ d, logs = d :: G.drop snap ∧ termAt G snap = some d.term ∧
    d.globalIndex = snap

/-- `G` is a full log of the peer. -/
def Represents (rf : Raft n α) (G : List (LogEntry α)) : Prop :=
  RepresentsFrom rf.snapshotIndex rf.logs G

/-- The persister would give back the current state. -/
def Persisted (rf : Raft n α) : Prop :=
  rf.persister.raftstate.getD ⟨0, none, 0, [⟨0, 0, none⟩]⟩ = rf.encodeState

/-! ### Positions -/

theorem Represents.snapshotIndex_le (h : rf.Represents G) : rf.snapshotIndex ≤ G.length := h.1

theorem Represents.length_logs (h : rf.Represents G) :
    rf.logs.length = G.length - rf.snapshotIndex + 1 := by
  obtain ⟨-, d, hd, -⟩ := h
  rw [hd]
  simp

theorem Represents.lastIndex_eq (h : rf.Represents G) : rf.lastIndex = G.length := by
  have := h.length_logs
  have := h.snapshotIndex_le
  simp only [lastIndex, logIdxLocal2Global]
  omega

/-- Every index from the snapshot to the end of the log is at a position of `Logs`, which has the
term of the full log there, and the entry itself unless it is the dummy. -/
theorem Represents.goIndex_eq (h : rf.Represents G) (hi : rf.snapshotIndex ≤ i)
    (hi' : i ≤ G.length) : ∃ e, goIndex rf.logs (rf.logIdxGlobal2Local i) = some e ∧
      termAt G i = some e.term ∧ (rf.snapshotIndex < i → G[i - 1]? = some e) := by
  obtain ⟨-, d, hd, hdt, -⟩ := h
  obtain ⟨k, rfl⟩ := Nat.exists_eq_add_of_le hi
  have hpos : rf.logIdxGlobal2Local ((rf.snapshotIndex + k : ℕ) : ℤ) = (k : ℤ) := by
    simp only [logIdxGlobal2Local]
    omega
  rw [hpos, goIndex_natCast, hd]
  cases k with
  | zero => exact ⟨d, rfl, hdt, fun hlt => absurd hlt (by simp)⟩
  | succ k =>
    have hlt : rf.snapshotIndex + k < G.length := by omega
    refine ⟨G[rf.snapshotIndex + k], ?_, ?_, fun _ => ?_⟩
    · simp [hlt]
    · rw [show rf.snapshotIndex + (k + 1) = rf.snapshotIndex + k + 1 by omega, termAt_succ,
        List.getElem?_eq_getElem hlt]
      rfl
    · rw [show rf.snapshotIndex + (k + 1) - 1 = rf.snapshotIndex + k by omega,
        List.getElem?_eq_getElem hlt]

/-- The entry at a global index, the dummy included. -/
def entryAt (rf : Raft n α) (i : ℕ) : Option (LogEntry α) :=
  goIndex rf.logs (rf.logIdxGlobal2Local i)

/-- The log holds the entry `e` at index `i`. The dummy is not an entry. -/
def Holds (rf : Raft n α) (i : ℕ) (e : LogEntry α) : Prop :=
  rf.snapshotIndex < i ∧ rf.entryAt i = some e

/-- Positions of `Logs` are indices from the snapshot on. -/
theorem entryAt_add (rf : Raft n α) (k : ℕ) : rf.entryAt (rf.snapshotIndex + k) = rf.logs[k]? := by
  have hpos : rf.logIdxGlobal2Local ((rf.snapshotIndex + k : ℕ) : ℤ) = (k : ℤ) := by
    simp only [logIdxGlobal2Local]
    omega
  rw [entryAt, hpos, goIndex_natCast]

/-- Every index of the log above the snapshot has an entry. -/
theorem exists_entryAt (hi : rf.snapshotIndex < i)
    (hle : i ≤ rf.lastIndex) : ∃ e, rf.entryAt i = some e := by
  obtain ⟨k, rfl⟩ := Nat.exists_eq_add_of_le hi.le
  have hk : k < rf.logs.length := by
    simp only [lastIndex, logIdxLocal2Global] at hle
    omega
  exact ⟨rf.logs[k], by rw [rf.entryAt_add, List.getElem?_eq_getElem hk]⟩

/-- The shape of `Logs` on which all index arithmetic rests: a dummy entry at position `0`, entries
numbered from the snapshot on, terms that never decrease and never pass `CurrentTerm`. -/
structure WellFormed (rf : Raft n α) : Prop where
  logs_ne_nil : rf.logs ≠ []
  globalIndex : ∀ k e, rf.logs[k]? = some e → e.globalIndex = rf.snapshotIndex + k
  sorted : rf.logs.Pairwise fun e e' => e.term ≤ e'.term
  term_le : ∀ e ∈ rf.logs, e.term ≤ rf.currentTerm

/-- Above the snapshot, the log holds what the full log has. -/
theorem Represents.entryAt_eq (h : rf.Represents G) (hi : rf.snapshotIndex < i) :
    rf.entryAt i = G[i - 1]? := by
  rcases Nat.lt_or_ge G.length i with hlt | hle
  · have hlen := h.length_logs
    have hsle := h.snapshotIndex_le
    rw [List.getElem?_eq_none (by omega), entryAt, goIndex, logIdxGlobal2Local,
      if_neg (by omega), List.getElem?_eq_none (by omega)]
  · obtain ⟨e, he, -, hent⟩ := h.goIndex_eq hi.le hle
    rw [entryAt, he, hent hi]

theorem Represents.holds_iff (h : rf.Represents G) {e : LogEntry α} :
    rf.Holds i e ↔ rf.snapshotIndex < i ∧ G[i - 1]? = some e := by
  refine and_congr_right fun hi => ?_
  rw [h.entryAt_eq hi]

/-- The term at an index from the snapshot on, the dummy included. -/
theorem Represents.term_entryAt (h : rf.Represents G) (hi : rf.snapshotIndex ≤ i) :
    (rf.entryAt i).map LogEntry.term = termAt G i := by
  rcases Nat.lt_or_ge G.length i with hlt | hle
  · rw [h.entryAt_eq (by have := h.snapshotIndex_le; omega), List.getElem?_eq_none (by omega)]
    obtain ⟨k, rfl⟩ := Nat.exists_eq_succ_of_ne_zero (Nat.ne_zero_of_lt hlt)
    rw [termAt_succ, List.getElem?_eq_none (by omega)]
    rfl
  · obtain ⟨e, he, ht, -⟩ := h.goIndex_eq hi hle
    rw [entryAt, he, ht]
    rfl

/-- The entry at the last position, which elections compare. -/
theorem Represents.goIndex_last (h : rf.Represents G) :
    ∃ e, goIndex rf.logs ((rf.logs.length : ℤ) - 1) = some e ∧ e.term = lastTerm G := by
  obtain ⟨e, he, hte, -⟩ := h.goIndex_eq h.snapshotIndex_le (Nat.le_refl _)
  have hlen := h.length_logs
  have hle := h.snapshotIndex_le
  refine ⟨e, ?_, Option.some.inj (hte.symm.trans (termAt_length G))⟩
  rw [← he]
  congr 1
  simp only [logIdxGlobal2Local]
  omega

theorem Represents.local2Global_last (h : rf.Represents G) :
    rf.logIdxLocal2Global ((rf.logs.length : ℤ) - 1) = G.length := by
  have := h.length_logs
  have := h.snapshotIndex_le
  simp only [logIdxLocal2Global]
  omega

/-- The entries from an index on are a slice of `Logs`. -/
theorem Represents.goFrom_eq (h : rf.Represents G) (hi : rf.snapshotIndex ≤ i)
    (hi' : i ≤ G.length) :
    goFrom rf.logs (rf.logIdxGlobal2Local i + 1) = some (G.drop i) := by
  have hlen := h.length_logs
  obtain ⟨-, d, hd, -⟩ := h
  obtain ⟨k, rfl⟩ := Nat.exists_eq_add_of_le hi
  have hpos : rf.logIdxGlobal2Local ((rf.snapshotIndex + k : ℕ) : ℤ) + 1 = ((k + 1 : ℕ) : ℤ) := by
    simp only [logIdxGlobal2Local]
    omega
  rw [hpos, goFrom_natCast _ (by omega), hd, List.drop_succ_cons, List.drop_drop]

/-- A peer's full log is determined by its `Logs` and the logs of the terms that wrote it. -/
theorem Represents.unique {T : ℕ → List (LogEntry α)} {G' : List (LogEntry α)}
    (h : rf.Represents G) (h' : rf.Represents G') (hs : Sound T G) (hs' : Sound T G') :
    G = G' := by
  obtain ⟨hle, d, hd, hdt, -⟩ := h
  obtain ⟨hle', d', hd', hdt', -⟩ := h'
  obtain ⟨rfl, hdrop⟩ : d = d' ∧ G.drop rf.snapshotIndex = G'.drop rf.snapshotIndex := by
    simpa using hd.symm.trans hd'
  rw [← List.take_append_drop rf.snapshotIndex G, ← List.take_append_drop rf.snapshotIndex G',
    hdrop, hs.take_eq hs' hdt hdt']

/-- The length of a full log is determined by `Logs` alone. -/
theorem RepresentsFrom.length_eq {snap : ℕ} {logs G' : List (LogEntry α)}
    (h : RepresentsFrom snap logs G) (h' : RepresentsFrom snap logs G') :
    G.length = G'.length := by
  obtain ⟨hle, d, hd, -⟩ := h
  obtain ⟨hle', d', hd', -⟩ := h'
  have hlen := congrArg List.length (hd.symm.trans hd')
  simp only [List.length_cons, List.length_drop] at hlen
  omega

/-- Appending to both. -/
theorem RepresentsFrom.append {snap : ℕ} {logs : List (LogEntry α)}
    (h : RepresentsFrom snap logs G) (r : List (LogEntry α)) :
    RepresentsFrom snap (logs ++ r) (G ++ r) := by
  obtain ⟨hle, d, rfl, hdt, hdi⟩ := h
  refine ⟨by simp; omega, d, ?_, ?_, hdi⟩
  · rw [List.cons_append, List.drop_append_of_le_length hle]
  · rw [termAt_append_left hle, hdt]

/-- Truncating both. -/
theorem RepresentsFrom.take {snap : ℕ} {logs : List (LogEntry α)}
    (h : RepresentsFrom snap logs G) (hi : snap ≤ i) (hi' : i ≤ G.length) :
    RepresentsFrom snap (logs.take (i - snap + 1)) (G.take i) := by
  obtain ⟨hle, d, rfl, hdt, hdi⟩ := h
  refine ⟨by simp [hi, hi'], d, ?_, ?_, hdi⟩
  · rw [List.take_succ_cons, List.drop_take]
  · rw [termAt_take hi, hdt]

/-- Compacting further. -/
theorem RepresentsFrom.compact (hi : i ≤ G.length) (hti : termAt G i = some t) :
    RepresentsFrom i (⟨i, t, none⟩ :: G.drop i) G :=
  ⟨hi, _, rfl, hti, rfl⟩

/-- Nothing but the dummy is left. -/
theorem RepresentsFrom.dummy (hti : termAt G i = some t) :
    RepresentsFrom i [⟨i, t, none⟩] (G.take i) := by
  have hi := le_length_of_termAt hti
  refine ⟨by simp [hi], ⟨i, t, none⟩, by simp, ?_, rfl⟩
  rw [termAt_take (Nat.le_refl i), hti]

/-! ### Saving -/

@[simp] theorem persisted_persistState (rf : Raft n α) : rf.persistState.Persisted := rfl

@[simp] theorem persisted_saveStateAndSnapshot (rf : Raft n α) (s : List UInt8) :
    (rf.saveStateAndSnapshot s).Persisted := rfl

/-- Saving when something was changed leaves nothing unsaved. -/
theorem persisted_persistIf {change : Bool} (h : change = false → rf.Persisted) :
    (rf.persistIf change).Persisted := by
  cases change with
  | true => exact persisted_persistState rf
  | false => exact h rfl

theorem persistIf_eq (rf : Raft n α) (change : Bool) :
    ∃ st, rf.persistIf change = { rf with persister := ⟨st, rf.persister.snapshot⟩ } := by
  cases change with
  | true => exact ⟨_, rfl⟩
  | false => exact ⟨rf.persister.raftstate, rfl⟩

end Raft

end RaftKVDB
