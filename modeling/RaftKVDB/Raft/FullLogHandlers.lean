import RaftKVDB.Raft.FullLog

/-!
# The handlers and the full log

What the three handlers do to the full log of a peer. Each lemma also says that the handler returns,
so together with those of `Raft/FullLogActions` they account for every index into `Logs` that can be
shown safe from the shape of the log alone.

## Main results

* `Raft.Represents.requestVote` — the log is not touched
* `Raft.Represents.appendEntries` — a conflict leaves the log, success splices in the new entries
* `Raft.Represents.installSnapShot` — the log is cut at the snapshot or emptied
-/

namespace RaftKVDB

open Foundations

namespace Raft

variable {n : ℕ} {α : Type*} {rf : Raft n α} {G : List (LogEntry α)} {i t : ℕ}

@[simp] theorem notifyAppUseNewSnapShot_logs (rf : Raft n α) (snapshot : List UInt8) :
    (rf.notifyAppUseNewSnapShot snapshot).logs = rf.logs := by
  rw [notifyAppUseNewSnapShot]
  split <;> rfl

@[simp] theorem notifyAppUseNewSnapShot_snapshotIndex (rf : Raft n α) (snapshot : List UInt8) :
    (rf.notifyAppUseNewSnapShot snapshot).snapshotIndex = rf.snapshotIndex := by
  rw [notifyAppUseNewSnapShot]
  split <;> rfl

@[simp] theorem notifyAppUseNewSnapShot_currentTerm (rf : Raft n α) (snapshot : List UInt8) :
    (rf.notifyAppUseNewSnapShot snapshot).currentTerm = rf.currentTerm := by
  rw [notifyAppUseNewSnapShot]
  split <;> rfl

/-- **`RequestVote`**, when it is not stale: the vote stays or is given to the candidate, and it is
granted only to a candidate whose log is up to date. -/
theorem Represents.requestVote (h : rf.Represents G) (hp : rf.Persisted)
    (args : RequestVoteArgs n) (hle : rf.currentTerm ≤ args.term) :
    ∃ v st granted,
      rf.requestVote args = some ({ rf.seeTerm args.term with
        votedFor := v, persister := ⟨st, rf.persister.snapshot⟩ }, ⟨args.term, granted⟩) ∧
      ({ rf.seeTerm args.term with
        votedFor := v, persister := ⟨st, rf.persister.snapshot⟩ } : Raft n α).Persisted ∧
      (v = (rf.seeTerm args.term).votedFor ∨
        (rf.seeTerm args.term).votedFor = none ∧ v = some args.candidateID) ∧
      (granted = true → v = some args.candidateID ∧ (lastTerm G < args.lastLogTerm ∨
        args.lastLogTerm = lastTerm G ∧ G.length ≤ args.lastLogIndex)) ∧
      (v ≠ (rf.seeTerm args.term).votedFor → granted = true) := by
  obtain ⟨v₁, s₁, c₁, heq⟩ := seeTerm_eq rf args.term
  have h₁ : (rf.seeTerm args.term).Represents G := by rw [heq]; exact h
  have hsnap : rf.persister.snapshot = (rf.seeTerm args.term).persister.snapshot := by rw [heq]
  -- Nothing is unsaved when no later term was adopted.
  have hp₁ : decide (rf.currentTerm < args.term) = false → (rf.seeTerm args.term).Persisted := by
    intro hd
    rw [seeTerm, if_neg (of_decide_eq_false hd)]
    exact hp
  obtain ⟨last, hlast, hterm⟩ := h₁.goIndex_last
  have hidx := h₁.local2Global_last
  have hkeep := persistIf_eq (rf.seeTerm args.term) (decide (rf.currentTerm < args.term))
  have hkeepP := persisted_persistIf hp₁
  obtain ⟨st, hst⟩ := hkeep
  rw [hsnap, Raft.requestVote, if_neg (by omega)]
  simp only [hlast, hidx, hterm]
  split
  · next hv =>
    split
    · next hup =>
      have hup' : lastTerm G < args.lastLogTerm ∨
          args.lastLogTerm = lastTerm G ∧ G.length ≤ args.lastLogIndex := by
        refine hup.imp id fun hu => ⟨hu.1, ?_⟩
        have := hu.2
        omega
      split
      · next hnone =>
        refine ⟨some args.candidateID, _, true, rfl, ?_, .inr ⟨hnone, rfl⟩, fun _ => ⟨rfl, hup'⟩,
          fun _ => rfl⟩
        exact persisted_persistState _
      · next hsome =>
        have hv' := hv.resolve_left hsome
        rw [hst] at hkeepP ⊢
        exact ⟨_, st, true, rfl, hkeepP, .inl rfl, fun _ => ⟨hv', hup'⟩, fun hne => absurd rfl hne⟩
    · rw [hst] at hkeepP ⊢
      exact ⟨_, st, false, rfl, hkeepP, .inl rfl, by simp, fun hne => absurd rfl hne⟩
  · rw [hst] at hkeepP ⊢
    exact ⟨_, st, false, rfl, hkeepP, .inl rfl, by simp, fun hne => absurd rfl hne⟩

/-- The head of a run of entries of term `t`: everything from there to `i` has term `t`, and what
comes before has not. -/
theorem conflictHead_spec (logs : List (LogEntry α)) (t : ℕ) :
    ∀ i, i ≤ logs.length → ∃ j ≤ i, conflictHead logs t i = some j ∧
      (∀ k, j ≤ k → k < i → ∃ e, logs[k]? = some e ∧ e.term = t) ∧
      (j = 0 ∨ ∃ e, logs[j - 1]? = some e ∧ e.term ≠ t) := by
  intro i
  induction i with
  | zero =>
    exact fun _ => ⟨0, Nat.le_refl 0, rfl, fun k _ hk => absurd hk (Nat.not_lt_zero k), .inl rfl⟩
  | succ i ih =>
    intro hi
    have he : logs[i]? = some logs[i] := List.getElem?_eq_getElem hi
    rw [conflictHead, he]
    by_cases ht : logs[i].term = t
    · obtain ⟨j, hj, hc, hrun, hhead⟩ := ih (Nat.le_of_succ_le hi)
      refine ⟨j, Nat.le_succ_of_le hj, by simpa [ht] using hc, fun k hk hk' => ?_, hhead⟩
      rcases Nat.lt_succ_iff_lt_or_eq.mp hk' with hlt | rfl
      · exact hrun k hk hlt
      · exact ⟨_, he, ht⟩
    · refine ⟨i + 1, Nat.le_refl _, by simp [ht], fun k hk hk' => absurd hk' (by omega),
        .inr ⟨_, he, ht⟩⟩

theorem matchLength_le (xs ys : List (LogEntry α)) :
    matchLength xs ys ≤ xs.length ∧ matchLength xs ys ≤ ys.length := by
  fun_induction matchLength xs ys with
  | case1 => simp
  | case2 x xs y ys hne ih => simpa using ih
  | case3 => simp

/-- The entries that were matched have equal terms. -/
theorem matchLength_terms (xs ys : List (LogEntry α)) {k : ℕ} (hk : k < matchLength xs ys) :
    xs[k]?.map LogEntry.term = ys[k]?.map LogEntry.term := by
  fun_induction matchLength xs ys generalizing k with
  | case1 => exact absurd hk (Nat.not_lt_zero k)
  | case2 x xs y ys heq ih =>
    cases k with
    | zero => simpa using heq
    | succ k => simpa using ih (Nat.lt_of_succ_lt_succ hk)
  | case3 => exact absurd hk (Nat.not_lt_zero k)

/-- The first entry that was not matched has another term, or nothing stands in its place. -/
theorem matchLength_stop (xs ys : List (LogEntry α)) (h : matchLength xs ys < ys.length) :
    xs[matchLength xs ys]?.map LogEntry.term ≠ ys[matchLength xs ys]?.map LogEntry.term := by
  fun_induction matchLength xs ys with
  | case1 x xs y ys hne => simpa using hne
  | case2 x xs y ys heq ih => simpa using ih (by simpa using h)
  | case3 xs ys hno =>
    obtain ⟨y, ys, rfl⟩ := List.exists_cons_of_length_pos h
    cases xs with
    | nil => simp
    | cons x xs => exact (hno x xs y ys rfl rfl).elim

/-- What a successful `AppendEntries` makes of the full log. -/
def splice (G : List (LogEntry α)) (prev : ℕ) (entries : List (LogEntry α)) : List (LogEntry α) :=
  if matchLength (G.drop prev) entries < entries.length then
    G.take (prev + matchLength (G.drop prev) entries) ++
      entries.drop (matchLength (G.drop prev) entries)
  else G

theorem splice_nil (G : List (LogEntry α)) (prev : ℕ) : splice G prev [] = G :=
  if_neg (Nat.not_lt_zero _)

/-- **The success branch copies.** When the log agrees with the sender's log `L` at `prev`, and the
entries are what `L` has between `prev` and `m`, the result has the first `m` entries of `L`: it is
the old log if that had them, and else nothing but them. -/
theorem splice_eq {T : ℕ → List (LogEntry α)} {G L : List (LogEntry α)} {prev m t : ℕ}
    (hG : Sound T G) (hL : Sound T L) (hm : m ≤ L.length) (hpm : prev ≤ m)
    (ht : termAt G prev = some t) (ht' : termAt L prev = some t) :
    L.take m <+: splice G prev ((L.take m).drop prev) ∧
    (splice G prev ((L.take m).drop prev) = G ∨
      ¬L.take m <+: G ∧ splice G prev ((L.take m).drop prev) = L.take m) := by
  have hlen : ((L.take m).drop prev).length = m - prev := by simp [hm]
  have hprev := le_length_of_termAt ht
  have hle := matchLength_le (G.drop prev) ((L.take m).drop prev)
  have hterms := @matchLength_terms _ (G.drop prev) ((L.take m).drop prev)
  have hstop := matchLength_stop (G.drop prev) ((L.take m).drop prev)
  rw [List.length_drop, hlen] at hle
  rw [hlen] at hstop
  rw [splice]
  rw [hlen]
  generalize matchLength (G.drop prev) ((L.take m).drop prev) = j at hle hterms hstop ⊢
  -- Both logs have the same term where the scan stopped, so they agree up to there.
  have hagree : G.take (prev + j) = L.take (prev + j) := by
    cases j with
    | zero => exact hG.take_eq hL ht ht'
    | succ j =>
      have hj := hterms (Nat.lt_succ_self j)
      rw [List.getElem?_drop, List.getElem?_drop, List.getElem?_take_of_lt (by omega)] at hj
      obtain ⟨u, hu⟩ := exists_termAt (l := G) (i := prev + j + 1) (by omega)
      have hu' : termAt L (prev + j + 1) = some u := hj.symm.trans hu
      exact hG.take_eq hL hu hu'
  split
  · next hlt =>
    have hcopy : G.take (prev + j) ++ ((L.take m).drop prev).drop j = L.take m := by
      rw [hagree, List.drop_drop, ← Nat.min_eq_left (by omega : prev + j ≤ m), ← List.take_take,
        Nat.min_eq_left (by omega : prev + j ≤ m), List.take_append_drop]
    rw [hcopy]
    refine ⟨List.prefix_rfl, .inr ⟨fun hpre => hstop hlt ?_, rfl⟩⟩
    rw [List.getElem?_drop, List.getElem?_drop, getElem?_of_isPrefix hpre (by simp; omega)]
  · next hge =>
    obtain rfl : m = prev + j := by omega
    exact ⟨hagree ▸ List.take_prefix _ _, .inl rfl⟩

/-- The positions from the one after `prev` on. -/
theorem Represents.drop_logs (h : rf.Represents G) (hi : rf.snapshotIndex ≤ i) :
    rf.logs.drop (rf.logIdxGlobal2Local i + 1).toNat = G.drop i := by
  obtain ⟨-, d, hd, -⟩ := h
  obtain ⟨k, rfl⟩ := Nat.exists_eq_add_of_le hi
  have hpos : (rf.logIdxGlobal2Local ((rf.snapshotIndex + k : ℕ) : ℤ) + 1).toNat = k + 1 := by
    simp only [logIdxGlobal2Local]
    omega
  rw [hpos, hd, List.drop_succ_cons, List.drop_drop]

/-- The truncated log of the success branch. -/
theorem Represents.goTo_eq (h : rf.Represents G) (hi : rf.snapshotIndex ≤ i) {j : ℕ}
    (hj : i + j ≤ G.length) : ∃ kept,
      goTo rf.logs (rf.logIdxGlobal2Local i + 1 + j) = some kept ∧
      RepresentsFrom rf.snapshotIndex kept (G.take (i + j)) := by
  have hlen := h.length_logs
  have hpos : rf.logIdxGlobal2Local i + 1 + j = ((i + j - rf.snapshotIndex + 1 : ℕ) : ℤ) := by
    simp only [logIdxGlobal2Local]
    omega
  refine ⟨_, by rw [hpos, goTo_natCast _ (by omega)], ?_⟩
  exact RepresentsFrom.take h (by omega) hj

/-- The commit index after a successful `AppendEntries` that left a log of length `len`. -/
def commitAfter (commitIndex leaderCommit len : ℕ) : ℕ :=
  if commitIndex < leaderCommit then min leaderCommit len else commitIndex

theorem Represents.followCommit_eq (h : rf.Represents G) (leaderCommit : ℕ) : ∃ cc,
    rf.followCommit leaderCommit = { rf with
      commitIndex := commitAfter rf.commitIndex leaderCommit G.length, commitCh := cc } := by
  unfold followCommit commitAfter
  split
  · exact ⟨_, by rw [h.lastIndex_eq]⟩
  · exact ⟨rf.commitCh, rfl⟩

/-- The entry at a position of `Logs` has the term of the full log there. -/
theorem Represents.termAt_of_logs (h : rf.Represents G) {k : ℕ} {e : LogEntry α}
    (he : rf.logs[k]? = some e) : termAt G (rf.snapshotIndex + k) = some e.term := by
  have hk := (List.getElem?_eq_some_iff.mp he).1
  have hlen := h.length_logs
  have hsle := h.snapshotIndex_le
  obtain ⟨e', he', ht', -⟩ := h.goIndex_eq (i := rf.snapshotIndex + k) (by omega) (by omega)
  have hpos : rf.logIdxGlobal2Local ((rf.snapshotIndex + k : ℕ) : ℤ) = (k : ℤ) := by
    simp only [logIdxGlobal2Local]
    omega
  rw [hpos, goIndex_natCast, he] at he'
  rw [ht', Option.some.inj he']

/-- The conflict index of the third case: the head of the run of term `t` that ends at `i`, or the
snapshot index if the run goes down to the dummy. -/
theorem Represents.conflictHead_eq (h : rf.Represents G) (hi : rf.snapshotIndex ≤ i)
    (ht : termAt G i = some t) :
    ∃ j ci : ℕ, conflictHead rf.logs t (rf.logIdxGlobal2Local i).toNat = some j ∧
      (rf.logIdxLocal2Global j).toNat = ci ∧ rf.snapshotIndex ≤ ci ∧ ci ≤ i ∧
      (∀ k, ci ≤ k → k ≤ i → termAt G k = some t) ∧
      (ci = rf.snapshotIndex ∨ termAt G (ci - 1) ≠ some t) := by
  have hi' := le_length_of_termAt ht
  have hlen := h.length_logs
  obtain ⟨d, rfl⟩ := Nat.exists_eq_add_of_le hi
  have hpos : (rf.logIdxGlobal2Local ((rf.snapshotIndex + d : ℕ) : ℤ)).toNat = d := by
    simp only [logIdxGlobal2Local]
    omega
  obtain ⟨j, hj, hc, hrun, hhead⟩ := conflictHead_spec rf.logs t d (by omega)
  refine ⟨j, rf.snapshotIndex + j, by rw [hpos, hc], ?_, by omega, by omega, fun k hk hk' => ?_, ?_⟩
  · simp only [logIdxLocal2Global]
    omega
  · obtain ⟨m, rfl⟩ := Nat.exists_eq_add_of_le (Nat.le_trans (Nat.le_add_right _ j) hk)
    rcases Nat.lt_or_ge m d with hlt | hge
    · obtain ⟨e, he, het⟩ := hrun m (by omega) hlt
      rw [h.termAt_of_logs he, het]
    · obtain rfl : m = d := by omega
      exact ht
  · rcases hhead with rfl | ⟨e, he, het⟩
    · exact .inl rfl
    · rcases Nat.eq_zero_or_pos j with rfl | hjpos
      · exact .inl rfl
      · right
        rw [show rf.snapshotIndex + j - 1 = rf.snapshotIndex + (j - 1) by omega,
          h.termAt_of_logs he]
        exact fun hc => het (Option.some.inj hc)

/-- The log that the success branch leaves. -/
theorem Represents.splice_logs (h : rf.Represents G) (hi : rf.snapshotIndex ≤ i)
    (hi' : i ≤ G.length) (entries : List (LogEntry α))
    (hj : matchLength (G.drop i) entries < entries.length) :
    ∃ kept, goTo rf.logs (rf.logIdxGlobal2Local i + 1 + matchLength (G.drop i) entries)
        = some kept ∧
      RepresentsFrom rf.snapshotIndex (kept ++ entries.drop (matchLength (G.drop i) entries))
        (splice G i entries) := by
  have hml := (matchLength_le (G.drop i) entries).1
  rw [List.length_drop] at hml
  obtain ⟨kept, hkept, hrep⟩ := h.goTo_eq hi (j := matchLength (G.drop i) entries) (by omega)
  refine ⟨kept, hkept, ?_⟩
  rw [splice, if_pos hj]
  exact hrep.append _

/-- What both handlers of a leader's calls start with: the peer follows the leader, which touches
neither its log nor what it has saved, and saves its state if the term is new. -/
theorem Represents.followLeader_eq (h : rf.Represents G) (hp : rf.Persisted) (t : ℕ) :
    ∃ rf₁ st, rf.followLeader t = rf₁ ∧ rf₁.Represents G ∧
      rf.persister.snapshot = rf₁.persister.snapshot ∧ rf.snapshotIndex = rf₁.snapshotIndex ∧
      rf.commitIndex = rf₁.commitIndex ∧
      (decide (rf.currentTerm < t) = false → rf₁.Persisted) ∧
      rf₁.persistIf (decide (rf.currentTerm < t)) =
        { rf₁ with persister := ⟨st, rf₁.persister.snapshot⟩ } ∧
      (rf₁.persistIf (decide (rf.currentTerm < t))).Persisted := by
  obtain ⟨v₁, c₁, heq, -⟩ := Raft.followLeader_eq rf t
  have hp₁ : decide (rf.currentTerm < t) = false → (rf.followLeader t).Persisted := by
    intro hd
    rw [followLeader, if_neg (of_decide_eq_false hd)]
    split <;> exact hp
  obtain ⟨st, hst⟩ := persistIf_eq (rf.followLeader t) (decide (rf.currentTerm < t))
  refine ⟨_, st, rfl, ?_, ?_, ?_, ?_, hp₁, hst, persisted_persistIf hp₁⟩
  · rw [heq]
    exact h
  · rw [heq]
  · rw [heq]
  · rw [heq]

/-- **`AppendEntries`**, when it is not stale. The three conflict cases answer with the index after
the end of the log, or with the head of a run of one term; success splices in the new entries. -/
theorem Represents.appendEntries (h : rf.Represents G) (hp : rf.Persisted)
    (args : AppendEntriesArgs n α) (hle : rf.currentTerm ≤ args.term) :
    (∃ st ci,
      rf.appendEntries args = some ({ rf.followLeader args.term with
        persister := ⟨st, rf.persister.snapshot⟩ }, ⟨args.term, false, ci⟩) ∧
      ({ rf.followLeader args.term with
        persister := ⟨st, rf.persister.snapshot⟩ } : Raft n α).Persisted ∧
      ((args.prevLogIndex < rf.snapshotIndex ∨ G.length < args.prevLogIndex) ∧
          ci = G.length + 1 ∨
        rf.snapshotIndex ≤ ci ∧ ci ≤ args.prevLogIndex ∧ ∃ t, t ≠ args.prevLogTerm ∧
          (∀ k, ci ≤ k → k ≤ args.prevLogIndex → termAt G k = some t) ∧
          (ci = rf.snapshotIndex ∨ termAt G (ci - 1) ≠ some t))) ∨
    (rf.snapshotIndex ≤ args.prevLogIndex ∧ termAt G args.prevLogIndex = some args.prevLogTerm ∧
      ∃ logs st cc,
      rf.appendEntries args = some ({ rf.followLeader args.term with
        logs := logs
        commitIndex := commitAfter rf.commitIndex args.leaderCommit
          (splice G args.prevLogIndex args.entries).length
        commitCh := cc
        persister := ⟨st, rf.persister.snapshot⟩ }, ⟨args.term, true, 0⟩) ∧
      ({ rf.followLeader args.term with
        logs := logs, persister := ⟨st, rf.persister.snapshot⟩ } : Raft n α).Persisted ∧
      RepresentsFrom rf.snapshotIndex logs (splice G args.prevLogIndex args.entries)) := by
  obtain ⟨rf₁, st, hrf₁, h₁, hsnap, hsi, hci, hp₁, hst, hkeepP⟩ := h.followLeader_eq hp args.term
  have hlen := h₁.length_logs
  have hsle := h₁.snapshotIndex_le
  have hend : (rf₁.logIdxLocal2Global ((rf₁.logs.length : ℤ) - 1) + 1).toNat = G.length + 1 := by
    rw [h₁.local2Global_last]
    omega
  have hpos : rf₁.logIdxGlobal2Local args.prevLogIndex
      = (args.prevLogIndex : ℤ) - rf₁.snapshotIndex := rfl
  rw [Raft.appendEntries, if_neg (by omega), hrf₁, hsnap, hsi, hci]
  simp only [hend]
  split
  · next hlt =>
    rw [hst] at hkeepP ⊢
    exact .inl ⟨st, _, rfl, hkeepP, .inl ⟨.inl hlt, rfl⟩⟩
  next hge =>
  split
  · next hlt =>
    rw [hst] at hkeepP ⊢
    exact .inl ⟨st, _, rfl, hkeepP, .inl ⟨.inr (by omega), rfl⟩⟩
  next hin =>
  have hge' : rf₁.snapshotIndex ≤ args.prevLogIndex := Nat.le_of_not_lt hge
  have hin' : args.prevLogIndex ≤ G.length := by omega
  obtain ⟨e, he, hte, -⟩ := h₁.goIndex_eq hge' hin'
  rw [he]
  simp only
  split
  · next hne =>
    obtain ⟨j, ci, hc, hconf, hsci, hcip, hrun, hhead⟩ := h₁.conflictHead_eq hge' hte
    rw [hc]
    simp only [hconf]
    rw [hst] at hkeepP ⊢
    exact .inl ⟨st, ci, rfl, hkeepP, .inr ⟨hsci, hcip, e.term, hne, hrun, hhead⟩⟩
  · next heqt =>
    refine .inr ⟨hge', by rw [hte, not_not.mp heqt], ?_⟩
    rw [h₁.drop_logs hge']
    split
    · next hj =>
      obtain ⟨kept, hkept, hrep⟩ := h₁.splice_logs hge' hin' args.entries hj
      simp only [hkept]
      generalize kept ++ args.entries.drop _ = logs at hrep ⊢
      have hnew : ({ rf₁ with logs := logs } : Raft n α).Represents _ := hrep
      obtain ⟨cc, hcc⟩ := hnew.followCommit_eq args.leaderCommit
      rw [hcc]
      exact ⟨logs, _, cc, rfl, rfl, hrep⟩
    · next hj =>
      have hG : splice G args.prevLogIndex args.entries = G := if_neg hj
      obtain ⟨cc, hcc⟩ := h₁.followCommit_eq args.leaderCommit
      rw [hcc, hG]
      generalize commitAfter rf₁.commitIndex args.leaderCommit G.length = ci
      have hkeep : (({ rf₁ with commitIndex := ci, commitCh := cc } : Raft n α).persistIf
          (decide (rf.currentTerm < args.term))).Persisted := persisted_persistIf hp₁
      obtain ⟨st', hst'⟩ := persistIf_eq { rf₁ with commitIndex := ci, commitCh := cc }
        (decide (rf.currentTerm < args.term))
      rw [hst'] at hkeep ⊢
      exact ⟨rf₁.logs, st', cc, rfl, hkeep, h₁⟩

/-- The full log after an accepted request. -/
theorem Represents.accepted {rf' : Raft n α} (h : rf.Represents G) (hp : rf.Persisted)
    {args : AppendEntriesArgs n α} {reply : AppendEntriesReply}
    (hrun : rf.appendEntries args = some (rf', reply)) (hsuc : reply.success = true) :
    termAt G args.prevLogIndex = some args.prevLogTerm ∧
      rf'.Represents (splice G args.prevLogIndex args.entries) := by
  rcases Nat.lt_or_ge args.term rf.currentTerm with hlt | hge
  · rw [Raft.appendEntries, if_pos hlt] at hrun
    obtain ⟨-, rfl⟩ := Prod.mk.inj (Option.some.inj hrun)
    cases hsuc
  rcases h.appendEntries hp args hge with
    ⟨st, ci, heq, -⟩ | ⟨-, ht, logs, st, cc, heq, -, hnew⟩
  · obtain ⟨-, rfl⟩ := Prod.mk.inj (Option.some.inj (heq.symm.trans hrun))
    cases hsuc
  · obtain ⟨rfl, -⟩ := Prod.mk.inj (Option.some.inj (heq.symm.trans hrun))
    obtain ⟨v, c, hfl, -⟩ := Raft.followLeader_eq rf args.term
    rw [hfl]
    exact ⟨ht, hnew⟩

/-- **`InstallSnapShot`**, when it is not stale. A snapshot that is not ahead of the own one or of
the commit index is ignored; else the log is cut at it, keeping what follows an entry that matches,
or is emptied. -/
theorem Represents.installSnapShot (h : rf.Represents G) (hp : rf.Persisted)
    (args : InstallSnapshotArgs n) (hle : rf.currentTerm ≤ args.term) :
    ((args.lastIncludedIndex ≤ rf.snapshotIndex ∨ args.lastIncludedIndex ≤ rf.commitIndex) ∧
      ∃ st, rf.installSnapShot args = some ({ rf.followLeader args.term with
        persister := ⟨st, rf.persister.snapshot⟩ }, ⟨args.term⟩, false) ∧
      ({ rf.followLeader args.term with
        persister := ⟨st, rf.persister.snapshot⟩ } : Raft n α).Persisted) ∨
    (rf.snapshotIndex < args.lastIncludedIndex ∧ rf.commitIndex < args.lastIncludedIndex ∧
      ∃ logs st, rf.installSnapShot args = some ({ rf.followLeader args.term with
        logs := logs
        snapshotIndex := args.lastIncludedIndex
        persister := ⟨st, args.snapshot⟩ }, ⟨args.term⟩, true) ∧
      ({ rf.followLeader args.term with
        logs := logs
        snapshotIndex := args.lastIncludedIndex
        persister := ⟨st, args.snapshot⟩ } : Raft n α).Persisted ∧
      (termAt G args.lastIncludedIndex = some args.lastIncludedTerm ∧
          RepresentsFrom args.lastIncludedIndex logs G ∨
        termAt G args.lastIncludedIndex ≠ some args.lastIncludedTerm ∧
          logs = [⟨args.lastIncludedIndex, args.lastIncludedTerm, none⟩])) := by
  obtain ⟨rf₁, st, hrf₁, h₁, hsnap, hsi, hci, hp₁, hst, hkeepP⟩ := h.followLeader_eq hp args.term
  have hlen := h₁.length_logs
  have hsle := h₁.snapshotIndex_le
  have hpos : rf₁.logIdxGlobal2Local args.lastIncludedIndex
      = (args.lastIncludedIndex : ℤ) - rf₁.snapshotIndex := rfl
  rw [Raft.installSnapShot, if_neg (by omega), hrf₁, hsnap, hsi, hci]
  simp only
  split
  · next hstale =>
    rw [hst] at hkeepP ⊢
    exact .inl ⟨hstale, st, rfl, hkeepP⟩
  next hnew =>
  have hge : rf₁.snapshotIndex < args.lastIncludedIndex := by omega
  refine .inr ⟨hge, by omega, ?_⟩
  split
  · next hin =>
    have hin' : args.lastIncludedIndex ≤ G.length := by omega
    obtain ⟨e, he, hte, -⟩ := h₁.goIndex_eq hge.le hin'
    rw [he, h₁.goFrom_eq hge.le hin']
    simp only
    split
    · next heqt =>
      have hterm : termAt G args.lastIncludedIndex = some args.lastIncludedTerm := by
        rw [hte, heqt]
      exact ⟨_, _, rfl, rfl, .inl ⟨hterm, RepresentsFrom.compact hin' hterm⟩⟩
    · next hne =>
      refine ⟨_, _, rfl, rfl, .inr ⟨?_, rfl⟩⟩
      rw [hte]
      exact fun hc => hne (Option.some.inj hc)
  · next hout =>
    refine ⟨_, _, rfl, rfl, .inr ⟨fun hc => ?_, rfl⟩⟩
    have := le_length_of_termAt hc
    omega

end Raft

end RaftKVDB
