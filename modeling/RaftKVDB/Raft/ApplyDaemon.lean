import RaftKVDB.Foundations.Trace
import RaftKVDB.Raft.FullLog

/-!
# The apply daemon

`applyLogEntryDaemon` goes from `lastApplied + 1` to `commitIndex` and sends one message an index,
jumping over what is in the snapshot. The handlers move all three numbers between its wake-ups, and
the jump does not touch `lastApplied`. What one wake-up sends is nevertheless an interval: the
indices after both `lastApplied` and `SnapshotIndex`, up to `commitIndex`.

## Main results

* `Raft.applyLogEntryDaemon_eq` — one wake-up sends an interval of indices
* `Raft.Daemon.step` — what one wake-up, or one change by the handlers, preserves
* `applyLogEntryDaemon_delivers` — over one incarnation: increasing, committed, complete
-/

namespace RaftKVDB

open Foundations

variable {n : ℕ} {α : Type*}

namespace Raft

/-! ### One wake-up -/

/-- The message of the daemon for an index. -/
def CommandAt (rf : Raft n α) (m : ApplyMsg α) : Prop :=
  m.commandValid = true ∧ ∃ e, rf.Holds m.commandIndex e ∧ m.command = e.command

/-- The loop sends the indices from `i` to `last` that are not in the snapshot. -/
theorem applyLoop_eq {last : ℕ} (fuel i : ℕ) (rf : Raft n α) (hfuel : last < i + fuel)
    (hlast : last ≤ rf.lastIndex) : ∃ msgs la,
      applyLoop last fuel i rf = some { rf with applyCh := rf.applyCh ++ msgs, lastApplied := la } ∧
      msgs.map ApplyMsg.commandIndex =
        List.range' (max i (rf.snapshotIndex + 1)) (last + 1 - max i (rf.snapshotIndex + 1)) ∧
      la = (if max i (rf.snapshotIndex + 1) ≤ last then last else rf.lastApplied) ∧
      ∀ m ∈ msgs, rf.CommandAt m := by
  induction fuel generalizing i rf with
  | zero =>
    refine ⟨[], rf.lastApplied, by simp [applyLoop], ?_, by rw [if_neg (by omega)], by simp⟩
    rw [show last + 1 - max i (rf.snapshotIndex + 1) = 0 by omega]
    rfl
  | succ fuel ih =>
    rw [applyLoop]
    split
    · next hlt =>
      refine ⟨[], rf.lastApplied, by simp, ?_, by rw [if_neg (by omega)], by simp⟩
      rw [show last + 1 - max i (rf.snapshotIndex + 1) = 0 by omega]
      rfl
    next hle =>
    split
    · next hsnap =>
      -- The jump: the interval that is left is the same one.
      have hmax : max (rf.snapshotIndex + 1) (rf.snapshotIndex + 1) =
          max i (rf.snapshotIndex + 1) := by omega
      rw [← hmax]
      exact ih _ rf (by omega) hlast
    next hsnap =>
    obtain ⟨e, he⟩ := exists_entryAt (Nat.lt_of_not_le hsnap)
      ((Nat.le_of_not_lt hle).trans hlast)
    rw [show goIndex rf.logs (rf.logIdxGlobal2Local i) = some e from he]
    set rf₁ : Raft n α :=
      { rf with applyCh := rf.applyCh ++ [⟨i, e.command, true, []⟩], lastApplied := i } with hrf₁
    have hlast₁ : last ≤ rf₁.lastIndex := hlast
    obtain ⟨msgs, la, heq, hidx, hla, hcmd⟩ := ih (i + 1) rf₁ (by omega) hlast₁
    have hlo : max i (rf.snapshotIndex + 1) = i := by omega
    have hlo₁ : max (i + 1) (rf₁.snapshotIndex + 1) = i + 1 := by
      rw [hrf₁]
      simp only
      omega
    rw [hlo₁] at hidx hla
    refine ⟨⟨i, e.command, true, []⟩ :: msgs, la, ?_, ?_, ?_, fun m hm => ?_⟩
    · refine heq.trans ?_
      rw [hrf₁]
      simp only [List.append_assoc, List.singleton_append]
    · rw [hlo, List.map_cons, hidx, show last + 1 - i = last + 1 - (i + 1) + 1 by omega,
        List.range'_succ]
    · rw [hlo, if_pos (by omega), hla]
      split
      · rfl
      · show i = last
        omega
    · rcases List.mem_cons.mp hm with rfl | hm
      · exact ⟨rfl, e, ⟨by show rf.snapshotIndex < i; omega, he⟩, rfl⟩
      · exact hcmd m hm

/-- **One wake-up** sends the committed indices after `lastApplied` that are not in the snapshot. -/
theorem applyLogEntryDaemon_eq (rf : Raft n α) (hle : rf.commitIndex ≤ rf.lastIndex) :
    ∃ msgs la, rf.applyLogEntryDaemon =
        some { rf with applyCh := rf.applyCh ++ msgs, lastApplied := la } ∧
      msgs.map ApplyMsg.commandIndex = List.range' (max (rf.lastApplied + 1) (rf.snapshotIndex + 1))
        (rf.commitIndex + 1 - max (rf.lastApplied + 1) (rf.snapshotIndex + 1)) ∧
      la = (if max (rf.lastApplied + 1) (rf.snapshotIndex + 1) ≤ rf.commitIndex
        then rf.commitIndex else rf.lastApplied) ∧
      ∀ m ∈ msgs, rf.CommandAt m :=
  applyLoop_eq _ _ rf (by omega) hle

/-! ### One incarnation -/

/-- What the handlers may do between two wake-ups: `commitIndex` does not go back and stays within
the log, `SnapshotIndex` does not go back, `lastApplied` is the daemon's own, and the only messages
are snapshots. The log may become any other. -/
structure Changes (rf rf' : Raft n α) : Prop where
  commitIndex_mono : rf.commitIndex ≤ rf'.commitIndex
  commitIndex_le : rf'.commitIndex ≤ rf'.lastIndex
  snapshotIndex_mono : rf.snapshotIndex ≤ rf'.snapshotIndex
  lastApplied_eq : rf'.lastApplied = rf.lastApplied
  applyCh_eq : ∃ msgs, rf'.applyCh = rf.applyCh ++ msgs ∧ ∀ m ∈ msgs, m.commandValid = false

/-- A turn of the daemon or of the handlers. -/
inductive Turn
  | wake
  | change

/-- What happens in a turn. -/
def Turn.Next (rf : Raft n α) : Turn → Raft n α → Prop
  | .wake, rf' => rf.applyLogEntryDaemon = some rf'
  | .change, rf' => rf.Changes rf'

/-- The daemon has sent the command at index `i`. -/
def Sent (rf : Raft n α) (i : ℕ) : Prop :=
  ∃ m ∈ rf.applyCh, m.commandValid = true ∧ m.commandIndex = i

/-- What is true of the messages of an incarnation at any moment. -/
structure Daemon (rf : Raft n α) : Prop where
  applied_le : rf.lastApplied ≤ rf.commitIndex
  commit_le : rf.commitIndex ≤ rf.lastIndex
  increasing : (rf.applyCh.filter (·.commandValid)).Pairwise fun m m' =>
    m.commandIndex < m'.commandIndex
  sent_le : ∀ m ∈ rf.applyCh, m.commandValid = true → m.commandIndex ≤ rf.lastApplied
  complete : ∀ i ≤ rf.lastApplied, rf.Sent i ∨ i ≤ rf.snapshotIndex

theorem make_daemon (me : Fin n) (persister : Persister n α) : (make me persister).Daemon := by
  obtain ⟨-, hcommit, happlied, -, hch, -⟩ := make_fields me persister
  have hmsgs : ∀ m ∈ (make me persister).applyCh, m.commandValid = false := by
    rw [hch]
    split <;> simp
  constructor
  · omega
  · omega
  · rw [List.filter_eq_nil_iff.mpr fun m hm => by simp [hmsgs m hm]]
    exact .nil
  · intro m hm hv
    rw [hmsgs m hm] at hv
    cases hv
  · intro i hi
    exact .inr (by omega)

theorem Sent.append {rf rf' : Raft n α} {i : ℕ} {msgs : List (ApplyMsg α)}
    (hch : rf'.applyCh = rf.applyCh ++ msgs) (h : rf.Sent i) : rf'.Sent i := by
  obtain ⟨m, hm, hv, hi⟩ := h
  exact ⟨m, hch ▸ List.mem_append_left _ hm, hv, hi⟩

/-- The handlers preserve what is true of the messages. -/
theorem Daemon.change {rf rf' : Raft n α} (h : rf.Daemon) (hc : rf.Changes rf') : rf'.Daemon := by
  obtain ⟨msgs, hch, hmsgs⟩ := hc.applyCh_eq
  have happlied := hc.lastApplied_eq
  constructor
  · have := h.applied_le
    have := hc.commitIndex_mono
    omega
  · exact hc.commitIndex_le
  · have hnil : msgs.filter (·.commandValid) = [] :=
      List.filter_eq_nil_iff.mpr fun m hm => by simp [hmsgs m hm]
    rw [hch, List.filter_append, hnil, List.append_nil]
    exact h.increasing
  · intro m hm hv
    rw [hch] at hm
    rcases List.mem_append.mp hm with hm | hm
    · exact happlied ▸ h.sent_le m hm hv
    · rw [hmsgs m hm] at hv
      cases hv
  · intro i hi
    rw [happlied] at hi
    rcases h.complete i hi with hsent | hsnap
    · exact .inl (hsent.append hch)
    · exact .inr (hsnap.trans hc.snapshotIndex_mono)

/-- A wake-up preserves what is true of the messages, and leaves nothing committed unsent. -/
theorem Daemon.wake {rf rf' : Raft n α} (h : rf.Daemon) (hrun : rf.applyLogEntryDaemon = some rf') :
    rf'.Daemon ∧ (∃ msgs, rf'.applyCh = rf.applyCh ++ msgs ∧ ∀ m ∈ msgs, rf.CommandAt m) ∧
      ∀ i ≤ rf'.commitIndex, rf'.Sent i ∨ i ≤ rf'.snapshotIndex := by
  obtain ⟨msgs, la, heq, hidx, hla, hcmd⟩ := rf.applyLogEntryDaemon_eq h.commit_le
  obtain rfl := Option.some.inj (heq.symm.trans hrun)
  have happlied := h.applied_le
  -- What was sent is the interval; everything before it was sent earlier or is in the snapshot.
  have hmem : ∀ i, i ∈ msgs.map ApplyMsg.commandIndex ↔
      rf.lastApplied < i ∧ rf.snapshotIndex < i ∧ i ≤ rf.commitIndex := by
    intro i
    rw [hidx, List.mem_range'_1]
    omega
  have hrange : ∀ m ∈ msgs, rf.lastApplied < m.commandIndex ∧ m.commandIndex ≤ la := by
    intro m hm
    have := (hmem _).mp (List.mem_map_of_mem hm)
    rw [if_pos (by omega)] at hla
    omega
  have hall : ∀ i ≤ rf.commitIndex, ({ rf with
      applyCh := rf.applyCh ++ msgs, lastApplied := la } : Raft n α).Sent i ∨
        i ≤ rf.snapshotIndex := by
    intro i hi
    rcases Nat.lt_or_ge rf.lastApplied i with hlt | hle
    · rcases Nat.lt_or_ge rf.snapshotIndex i with hlt' | hle
      · obtain ⟨m, hm, rfl⟩ := List.mem_map.mp ((hmem i).mpr ⟨hlt, hlt', hi⟩)
        exact .inl ⟨m, List.mem_append_right _ hm, (hcmd m hm).1, rfl⟩
      · exact .inr hle
    · rcases h.complete i hle with hsent | hsnap
      · exact .inl (hsent.append rfl)
      · exact .inr hsnap
  have hla_le : rf.lastApplied ≤ la ∧ la ≤ rf.commitIndex := by
    split at hla <;> omega
  refine ⟨⟨hla_le.2, h.commit_le, ?_, ?_, fun i hi => hall i (hi.trans hla_le.2)⟩,
    ⟨msgs, rfl, hcmd⟩, hall⟩
  · rw [List.filter_append, List.pairwise_append]
    refine ⟨h.increasing, ?_, fun m hm m' hm' => ?_⟩
    · rw [List.filter_eq_self.mpr fun m hm => (hcmd m hm).1]
      exact List.pairwise_map.mp (hidx ▸ List.pairwise_lt_range')
    · obtain ⟨hm, hv⟩ := List.mem_filter.mp hm
      have := h.sent_le m hm hv
      have := hrange m' (List.mem_filter.mp hm').1
      omega
  · intro m hm hv
    rcases List.mem_append.mp hm with hm | hm
    · exact (h.sent_le m hm hv).trans hla_le.1
    · exact (hrange m hm).2

/-- What one turn preserves. -/
theorem Daemon.step {rf rf' : Raft n α} {e : Turn} (h : rf.Daemon) (hn : e.Next rf rf') :
    rf'.Daemon := by
  cases e with
  | wake => exact (h.wake hn).1
  | change => exact h.change hn

end Raft

/-- **The daemon sends in order, what is committed, and all of it.** In every sequence of wake-ups
of the daemon and changes by the handlers since `Make`: no wake-up panics; the valid messages have
increasing indices that do not exceed `commitIndex`; those of a wake-up carry the commands then
stored at their indices; and after it every index up to `commitIndex` has been sent or is in the
snapshot. -/
theorem applyLogEntryDaemon_delivers {me : Fin n} {persister : Persister n α}
    {τ : List (Raft n α)} (h : Trace (Raft.make me persister) Raft.Turn.Next τ)
    {rf : Raft n α} (hrf : rf ∈ τ) :
    (rf.applyCh.filter (·.commandValid)).Pairwise (fun m m' => m.commandIndex < m'.commandIndex) ∧
    (∀ m ∈ rf.applyCh, m.commandValid = true → m.commandIndex ≤ rf.commitIndex) ∧
    ∃ rf', rf.applyLogEntryDaemon = some rf' ∧
      (∃ msgs, rf'.applyCh = rf.applyCh ++ msgs ∧ ∀ m ∈ msgs, m.commandValid = true ∧
        ∃ e, rf.Holds m.commandIndex e ∧ m.command = e.command) ∧
      ∀ i ≤ rf'.commitIndex, (∃ m ∈ rf'.applyCh, m.commandValid = true ∧ m.commandIndex = i) ∨
        i ≤ rf'.snapshotIndex := by
  have hinv : ∀ rf ∈ τ, rf.Daemon :=
    h.invariant (Raft.make_daemon me persister) fun _ _ _ hd hn => hd.step hn
  have hd := hinv rf hrf
  obtain ⟨msgs, la, heq, -⟩ := rf.applyLogEntryDaemon_eq hd.commit_le
  obtain ⟨-, hsent, hall⟩ := hd.wake heq
  exact ⟨hd.increasing, fun m hm hv => (hd.sent_le m hm hv).trans hd.applied_le,
    _, heq, hsent, hall⟩

/-- Two entries are committed after `Make`. -/
def twoCommitted : Raft 3 ℕ :=
  { Raft.make 0 makePersister with
    commitIndex := 2, logs := [⟨0, 0, none⟩, ⟨1, 1, some 7⟩, ⟨2, 1, some 8⟩] }

/-- The two entries are sent. -/
def twoSent : Raft 3 ℕ :=
  { twoCommitted with
    lastApplied := 2, applyCh := [⟨1, some 7, true, []⟩, ⟨2, some 8, true, []⟩] }

/-- A snapshot of three entries is installed, and one more is committed. -/
def snapshotInstalled : Raft 3 ℕ :=
  { twoSent with
    snapshotIndex := 3, commitIndex := 4, logs := [⟨3, 1, none⟩, ⟨4, 1, some 9⟩],
    applyCh := twoSent.applyCh ++ [⟨0, none, false, [1]⟩] }

theorem applyLogEntryDaemon_delivers_four :
    ((snapshotInstalled.applyLogEntryDaemon).map fun rf => rf.applyCh.map ApplyMsg.commandIndex) =
      some [1, 2, 0, 4] ∧
    ∃ rf', snapshotInstalled.applyLogEntryDaemon = some rf' ∧ ∀ i ≤ rf'.commitIndex,
      (∃ m ∈ rf'.applyCh, m.commandValid = true ∧ m.commandIndex = i) ∨ i ≤ rf'.snapshotIndex := by
  have h₁ : Raft.Turn.Next (Raft.make 0 makePersister) .change twoCommitted :=
    ⟨by decide, by decide, by decide, rfl, [], rfl, by simp⟩
  have h₂ : Raft.Turn.Next twoCommitted .wake twoSent := rfl
  have h₃ : Raft.Turn.Next twoSent .change snapshotInstalled :=
    ⟨by decide, by decide, by decide, rfl, _, rfl, by simp⟩
  obtain ⟨-, -, rf', hrun, -, hall⟩ := applyLogEntryDaemon_delivers
    (((Trace.start.step h₁).step h₂).step h₃) List.mem_cons_self
  exact ⟨rfl, rf', hrun, hall⟩

end RaftKVDB
