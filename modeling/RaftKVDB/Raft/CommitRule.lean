import RaftKVDB.Raft.Cluster
import RaftKVDB.Raft.FullLogActions

/-!
# The commit rule

A leader that learns that a peer holds everything up to `N` tests one index for commitment, `N`
itself. An index below `N` that the reply has just brought to a majority is not tested, so the rule
is weaker than taking the median of `matchIndex`: a reply that runs ahead of the others can leave
such an index behind. What the rule gives is exactly this: it agrees with the median at every reply
whose own index is held by a majority whenever the reply completes a majority for anything.

## Main results

* `Raft.caughtUp_iff` — one reply keeps up with the median just when its own index is decided
* `commit_rule_iff` — over every sequence of replies
* `commit_rule_skips` — a run in which a reply runs ahead
-/

namespace RaftKVDB

open Foundations

variable {n : ℕ} {α : Type*}

/-- A reply of `server` to an append request. -/
structure Ack (n : ℕ) (α : Type*) where
  server : Fin n
  args : AppendEntriesArgs n α
  reply : AppendEntriesReply

/-- The index that the reply is about, `args.PrevLogIndex+len(args.Entries)`. -/
def Ack.index (a : Ack n α) : ℕ := a.args.prevLogIndex + a.args.entries.length

namespace Raft

/-- The entry at an index is of the current term. -/
def OfTerm (rf : Raft n α) (N : ℕ) : Prop :=
  (rf.entryAt N).map LogEntry.term = some rf.currentTerm

instance (rf : Raft n α) (N : ℕ) : Decidable (rf.OfTerm N) :=
  inferInstanceAs (Decidable (_ = some _))

/-- How many peers are known to hold everything up to an index. -/
def holders (rf : Raft n α) (N : ℕ) : ℕ :=
  (List.finRange n).countP fun i => decide (N ≤ rf.matchIndex i)

/-- How many peers are known to hold everything up to an index, counting `server` in. -/
def holdersWith (rf : Raft n α) (server : Fin n) (N : ℕ) : ℕ :=
  (List.finRange n).countP fun i => decide (i = server ∨ N ≤ rf.matchIndex i)

/-- The commit index is what the median of `matchIndex` gives: at least every index of the current
term that more than half of the peers are known to hold. -/
def CaughtUp (rf : Raft n α) : Prop :=
  ∀ N, rf.OfTerm N → n / 2 < rf.holders N → N ≤ rf.commitIndex

/-- The reply is old, or its own index is of the current term and held by a majority whenever an
index of the current term up to there, not yet committed, is held by a majority. -/
def Decides (rf : Raft n α) (a : Ack n α) : Prop :=
  a.index ≤ rf.matchIndex a.server ∨
    ∀ N, rf.commitIndex < N → N ≤ a.index → rf.OfTerm N → n / 2 < rf.holdersWith a.server N →
      rf.OfTerm a.index ∧ n / 2 < rf.holdersWith a.server a.index

/-- `sendAppendEntriesAndProcess` on a reply. -/
def processAck (rf : Raft n α) (a : Ack n α) : Option (Raft n α) :=
  rf.sendAppendEntriesAndProcess a.args a.server a.reply

/-- `P` holds of the states before and after each of the replies, as far as they are processed. -/
def AtEach (P : Raft n α → Ack n α → Raft n α → Prop) : Raft n α → List (Ack n α) → Prop
  | _, [] => True
  | rf, a :: acks => ∀ rf', rf.processAck a = some rf' → P rf a rf' ∧ AtEach P rf' acks

variable {rf rf' : Raft n α} {a : Ack n α} {N : ℕ}

/-! ### One reply -/

/-- What a successful reply of the term does: nothing if it is old; else it is counted, and its
index is committed if it passes the test. -/
theorem processAck_cases (hs : rf.state = .leader) (hok : a.reply.success = true)
    (ht : a.reply.term = rf.currentTerm) (h : rf.processAck a = some rf') :
    rf'.state = .leader ∧ rf'.currentTerm = rf.currentTerm ∧
    rf'.logs = rf.logs ∧ rf'.snapshotIndex = rf.snapshotIndex ∧
    (a.index ≤ rf.matchIndex a.server ∧ rf' = rf ∨
      rf.matchIndex a.server < a.index ∧
      rf'.matchIndex = Function.update rf.matchIndex a.server a.index ∧
      rf'.commitIndex = if rf.commitIndex < a.index ∧ rf.OfTerm a.index ∧
        n / 2 < rf'.holders a.index then a.index else rf.commitIndex) := by
  rw [processAck, sendAppendEntriesAndProcess, if_neg (by simp [hs, ht]), if_neg ht.not_gt,
    if_pos hok] at h
  simp only at h
  split at h
  · next hlt =>
    have hlt : rf.matchIndex a.server < a.index := hlt
    split at h
    · next hci =>
      have hci : rf.commitIndex < a.index := hci
      split at h
      · cases h
      next e he =>
      have hterm : rf.OfTerm a.index ↔ e.term = rf.currentTerm := by
        rw [OfTerm, show rf.entryAt a.index = some e from he, Option.map_some, Option.some.injEq]
      by_cases het : e.term = rf.currentTerm
      · simp only [if_pos het] at h
        split at h
        · next hcount =>
          obtain rfl := Option.some.inj h
          exact ⟨hs, rfl, rfl, rfl, .inr ⟨hlt, rfl, (if_pos ⟨hci, hterm.mpr het, hcount⟩).symm⟩⟩
        · next hcount =>
          obtain rfl := Option.some.inj h
          exact ⟨hs, rfl, rfl, rfl, .inr ⟨hlt, rfl, (if_neg fun hall => hcount hall.2.2).symm⟩⟩
      · simp only [if_neg het] at h
        rw [if_neg (Nat.not_lt_zero _)] at h
        obtain rfl := Option.some.inj h
        exact ⟨hs, rfl, rfl, rfl, .inr ⟨hlt, rfl,
          (if_neg fun hall => het (hterm.mp hall.2.1)).symm⟩⟩
    · next hci =>
      obtain rfl := Option.some.inj h
      refine ⟨hs, rfl, rfl, rfl, .inr ⟨hlt, rfl, ?_⟩⟩
      exact (if_neg fun hall => hci hall.1).symm
  · next hge =>
    obtain rfl := Option.some.inj h
    exact ⟨hs, rfl, rfl, rfl, .inl ⟨Nat.le_of_not_lt hge, rfl⟩⟩

/-- Counting a reply in, for the indices that it is about. -/
theorem holders_of_le (hmatch : rf'.matchIndex = Function.update rf.matchIndex a.server a.index)
    (hN : N ≤ a.index) : rf'.holders N = rf.holdersWith a.server N := by
  refine List.countP_congr fun i _ => ?_
  rw [hmatch]
  rcases eq_or_ne i a.server with rfl | hne
  · simp [hN]
  · simp [hne]

/-- A reply makes no difference for the indices beyond the one that it is about. -/
theorem holders_of_lt (hmatch : rf'.matchIndex = Function.update rf.matchIndex a.server a.index)
    (hold : rf.matchIndex a.server < a.index) (hN : a.index < N) :
    rf'.holders N = rf.holders N := by
  refine List.countP_congr fun i _ => ?_
  rw [hmatch]
  rcases eq_or_ne i a.server with rfl | hne
  · simp only [Function.update_self, decide_eq_true_eq]
    omega
  · simp [hne]

theorem OfTerm.congr (hterm : rf'.currentTerm = rf.currentTerm) (hlogs : rf'.logs = rf.logs)
    (hsnap : rf'.snapshotIndex = rf.snapshotIndex) : rf'.OfTerm N ↔ rf.OfTerm N := by
  rw [OfTerm, OfTerm, entryAt, entryAt, logIdxGlobal2Local, logIdxGlobal2Local, hterm, hlogs, hsnap]

/-- **One reply** keeps the commit index at the median just when it decides its own index. -/
theorem caughtUp_iff (hs : rf.state = .leader) (hok : a.reply.success = true)
    (ht : a.reply.term = rf.currentTerm) (hcaught : rf.CaughtUp)
    (h : rf.processAck a = some rf') : rf'.CaughtUp ↔ rf.Decides a := by
  obtain ⟨-, hterm, hlogs, hsnap, ⟨hold, rfl⟩ | ⟨hnew, hmatch, hcommit⟩⟩ :=
    processAck_cases hs hok ht h
  · exact iff_of_true hcaught (.inl hold)
  have hof : ∀ N, rf'.OfTerm N ↔ rf.OfTerm N := fun N => OfTerm.congr hterm hlogs hsnap
  rw [holders_of_le hmatch (Nat.le_refl _)] at hcommit
  constructor
  · intro hcaught'
    refine .inr fun N hN hle hofN hmaj => ?_
    have hN' := hcaught' N ((hof N).mpr hofN) (by rwa [holders_of_le hmatch hle])
    -- The commit index has moved, so the test was passed.
    rw [hcommit] at hN'
    split at hN'
    · next htest => exact htest.2
    · omega
  · intro hdec N hofN hmaj
    rw [hof] at hofN
    have hdec := hdec.resolve_left (Nat.not_le_of_lt hnew)
    have hmono : rf.commitIndex ≤ rf'.commitIndex := by
      rw [hcommit]
      split
      · next htest => exact htest.1.le
      · exact Nat.le_refl _
    rcases Nat.lt_or_ge a.index N with hlt | hle
    · rw [holders_of_lt hmatch hnew hlt] at hmaj
      exact (hcaught N hofN hmaj).trans hmono
    · rcases Nat.lt_or_ge rf.commitIndex N with hlt | hge
      · rw [holders_of_le hmatch hle] at hmaj
        rw [hcommit, if_pos ⟨hlt.trans_le hle, hdec N hlt hle hofN hmaj⟩]
        exact hle
      · exact hge.trans hmono

/-- A new leader, which knows of nobody but itself, is caught up. -/
theorem caughtUp_of_fresh (hn : 2 ≤ n) (h : ∀ q, q ≠ rf.me → rf.matchIndex q = 0) :
    rf.CaughtUp := by
  intro N _ hmaj
  rcases Nat.eq_zero_or_pos N with rfl | hpos
  · exact Nat.zero_le _
  · have hle : rf.holders N ≤ 1 := by
      have hcount : rf.holders N ≤ (List.finRange n).countP fun i => decide (i = rf.me) := by
        refine List.countP_mono_left fun i _ hi => ?_
        by_contra hne
        have := h i (by simpa using hne)
        simp only [decide_eq_true_eq] at hi
        omega
      exact hcount.trans (List.nodup_iff_count.mp (List.nodup_finRange n) rf.me)
    omega

end Raft

/-- **The commit rule agrees with the median just where each reply decides its own index.** Let a
leader whose commit index is at least every index of its term that a majority is known to hold
process successful replies of its term. After each of them the commit index still is, if and only if
each of them, when it completes a majority for an index of the term that is not yet committed,
completes one for its own index as well. -/
theorem commit_rule_iff {rf : Raft n α} (hs : rf.state = .leader) (hcaught : rf.CaughtUp)
    (acks : List (Ack n α))
    (hok : ∀ a ∈ acks, a.reply.success = true ∧ a.reply.term = rf.currentTerm) :
    Raft.AtEach (fun _ _ rf' => rf'.CaughtUp) rf acks ↔
      Raft.AtEach (fun rf a _ => rf.Decides a) rf acks := by
  induction acks generalizing rf with
  | nil => exact Iff.rfl
  | cons a acks ih =>
    obtain ⟨hsucc, ht⟩ := hok a List.mem_cons_self
    refine forall_congr' fun rf' => forall_congr' fun hrun => ?_
    have hstep := Raft.caughtUp_iff hs hsucc ht hcaught hrun
    obtain ⟨hs', hterm, -⟩ := Raft.processAck_cases hs hsucc ht hrun
    have hok' : ∀ b ∈ acks, b.reply.success = true ∧ b.reply.term = rf'.currentTerm :=
      fun b hb => hterm ▸ hok b (List.mem_cons_of_mem _ hb)
    exact (and_congr_right fun hcaught' => ih hs' hcaught' hok').trans
      (and_congr_left fun _ => hstep)

/-- A new leader of five that has written two entries. -/
def freshLeader : Raft 5 ℕ :=
  { Raft.make 0 makePersister with
    state := .leader
    currentTerm := 1
    logs := [⟨0, 0, none⟩, ⟨1, 1, some 7⟩, ⟨2, 1, some 8⟩]
    matchIndex := Function.update (fun _ => 0) 0 2 }

/-- Two peers acknowledge the first entry. -/
def firstAcks : List (Ack 5 ℕ) :=
  [⟨1, ⟨1, 0, 0, 0, [⟨1, 1, some 7⟩], 0⟩, ⟨1, true, 0⟩⟩,
    ⟨2, ⟨1, 0, 0, 0, [⟨1, 1, some 7⟩], 0⟩, ⟨1, true, 0⟩⟩]

theorem commit_rule_iff_first :
    (firstAcks.foldlM Raft.processAck freshLeader).map Raft.commitIndex = some 1 ∧
    Raft.AtEach (fun _ _ rf' => rf'.CaughtUp) freshLeader firstAcks := by
  have hcaught : freshLeader.CaughtUp := by
    refine Raft.caughtUp_of_fresh (by decide) fun q hq => ?_
    exact Function.update_of_ne hq 2 fun _ => 0
  refine ⟨by decide, (commit_rule_iff rfl hcaught firstAcks (by decide)).mpr ?_⟩
  intro rf₁ h₁
  obtain rfl := Option.some.inj h₁
  refine ⟨.inr fun N hN hle hof hmaj => ?_, fun rf₂ h₂ => ?_⟩
  · obtain rfl : N = 1 := Nat.le_antisymm hle hN
    exact absurd hmaj (by decide)
  · obtain rfl := Option.some.inj h₂
    refine ⟨.inr fun N hN hle hof hmaj => ?_, trivial⟩
    obtain rfl : N = 1 := Nat.le_antisymm hle hN
    exact ⟨hof, hmaj⟩

open Cluster

/-- The leader of five sends its first entry to peer `1` and its first two to peer `2`, and
processes their replies in this order. -/
def aheadEvents : List (Event 5 ℕ) :=
  [.broadCastVote 0, .handle 0, .process 0, .handle 0, .process 0, .lose 0, .lose 0,
    .start 0 (some 7), .checkConsistency 0 1, .start 0 (some 8), .checkConsistency 0 2, .handle 0,
    .handle 1, .process 0, .process 0]

/-- The second reply runs ahead: it brings the first entry to a majority, is itself about the second
entry, which is not held by one, and nothing is committed. -/
theorem commit_rule_skips :
    Run Always ((replay Always aheadEvents).1 :: (replay Always aheadEvents).2) ∧
    ((replay Always aheadEvents).1.peers 0).state = .leader ∧
    ((replay Always aheadEvents).1.peers 0).OfTerm 1 ∧
    5 / 2 < ((replay Always aheadEvents).1.peers 0).holders 1 ∧
    ((replay Always aheadEvents).1.peers 0).commitIndex = 0 :=
  ⟨run_replay Always aheadEvents, by decide +kernel, by decide +kernel, by decide +kernel,
    by decide +kernel⟩

end RaftKVDB
