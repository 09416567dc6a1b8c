import RaftKVDB.Raft.ApplyDaemon
import RaftKVDB.Raft.Durable
import RaftKVDB.Raft.Electable
import RaftKVDB.Raft.WakeUp

/-!
# The cluster can go on

From every reachable state in which no peer is deadlocked and no peer has made a snapshot, a cluster
of two or more can bring all its peers back together: it can elect a leader, give everybody the
leader's log with one more command in it, commit that and apply it everywhere. Whatever was lost and
whoever crashed before, and however far the logs and terms are apart, nothing has to be restarted
and nothing is in the way.

A peer in the deadlock of `Raft/CommitSignal` is no help until it is restarted. And with snapshots
this is not so: a leader may then look for the place where a follower's log agrees with its own for
ever (`Raft/Backup`).

The way there has four parts. The election is that of `Raft/Electable`. Then each follower is
brought to the leader's log, by rounds of `checkConsistency` in which `nextIndex` goes down until
the follower accepts. Each is told of the commit index by one more. Before a round the daemons deal
with all their signals, so that there are slots for new ones. They do so once more in the end, and
then all that is committed is applied (`Raft/WakeUp`).

## Main results

* `cluster_recovers` — from every reachable state without a deadlock and without snapshots
-/

namespace RaftKVDB

open Foundations Cluster

variable {n : ℕ} {α : Type*}

/-! ### The leader -/

/-- The leader `p` with the log `H`, whose last entry is of its own term. It has committed all of it
if it knows that a majority has all of it. -/
structure Commander (p : Fin n) (H : List (LogEntry α)) (rf : Raft n α) : Prop where
  state : rf.state = .leader
  log : rf.Represents H
  snapshot : rf.snapshotIndex = 0
  last : lastTerm H = rf.currentTerm
  next : ∀ q, 0 < rf.nextIndex q ∧ rf.nextIndex q ≤ H.length + 1
  match_le : ∀ q, rf.matchIndex q ≤ H.length
  own : rf.matchIndex p = H.length
  commit : n / 2 < (List.finRange n).countP (fun i => decide (H.length ≤ rf.matchIndex i)) →
    H.length ≤ rf.commitIndex

namespace Commander

variable {p q : Fin n} {H : List (LogEntry α)} {rf : Raft n α}

/-- A refusal moves `nextIndex`. -/
theorem refused (h : Commander p H rf) {ci : ℕ} (hci : ci ≤ H.length + 1) :
    Commander p H { rf with nextIndex := Function.update rf.nextIndex q (max 1 ci) } := by
  refine ⟨h.state, h.log, h.snapshot, h.last, fun x => ?_, h.match_le, h.own, h.commit⟩
  rcases eq_or_ne x q with rfl | hne
  · simp only [Function.update_self]
    omega
  · simpa only [Function.update_of_ne hne] using h.next x

/-- **A success.** It raises `matchIndex`, and the commit index if that makes a majority. -/
theorem accepted (h : Commander p H rf) (hne : q ≠ p) (args : AppendEntriesArgs n α)
    (hN : args.prevLogIndex + args.entries.length = H.length) : ∃ rf',
      rf.sendAppendEntriesAndProcess args q ⟨rf.currentTerm, true, 0⟩ = some rf' ∧
      Commander p H rf' ∧ rf'.currentTerm = rf.currentTerm ∧ rf'.matchIndex q = H.length ∧
      rf.commitIndex ≤ rf'.commitIndex ∧
      ∀ x, rf.matchIndex x = H.length → rf'.matchIndex x = H.length := by
  rw [Raft.sendAppendEntriesAndProcess, if_neg (by simp [h.state]), if_neg (Nat.lt_irrefl _),
    if_pos rfl]
  simp only [hN]
  by_cases hknown : rf.matchIndex q < H.length
  swap
  · have heq : rf.matchIndex q = H.length :=
      Nat.le_antisymm (h.match_le q) (Nat.le_of_not_lt hknown)
    exact ⟨rf, if_neg hknown, h, rfl, heq, Nat.le_refl _, fun _ hx => hx⟩
  rw [if_pos hknown]
  -- The entry at the end of the log is there and of the leader's term.
  obtain ⟨e, he, ht, -⟩ := h.log.goIndex_eq (i := H.length) (h.snapshot ▸ Nat.zero_le _)
    (Nat.le_refl _)
  have het : e.term = rf.currentTerm := by
    rw [termAt_length, h.last] at ht
    exact (Option.some.inj ht).symm
  have hkeep : ∀ x, rf.matchIndex x = H.length →
      Function.update rf.matchIndex q H.length x = H.length := by
    intro x hx
    rcases eq_or_ne x q with rfl | hxq
    · rw [Function.update_self]
    · rwa [Function.update_of_ne hxq]
  have hnew : ∀ ci cc, (n / 2 < (List.finRange n).countP (fun i => decide
      (H.length ≤ Function.update rf.matchIndex q H.length i)) → H.length ≤ ci) →
      Commander p H { rf with
        matchIndex := Function.update rf.matchIndex q H.length
        nextIndex := Function.update rf.nextIndex q (H.length + 1)
        commitIndex := ci
        commitCh := cc } := by
    intro ci cc hci
    refine ⟨h.state, h.log, h.snapshot, h.last, fun x => ?_, fun x => ?_, hkeep p h.own, hci⟩
    · rcases eq_or_ne x q with rfl | hxq
      · simp
      · simpa only [Function.update_of_ne hxq] using h.next x
    · rcases eq_or_ne x q with rfl | hxq
      · simp
      · simpa only [Function.update_of_ne hxq] using h.match_le x
  have hself := Function.update_self (f := rf.matchIndex) q H.length
  split
  · next hlt =>
    have hentry : goIndex rf.logs ((H.length : ℤ) - rf.snapshotIndex) = some e := he
    simp only [Raft.logIdxGlobal2Local, hentry, het, if_true]
    split
    · exact ⟨_, rfl, hnew _ _ fun _ => Nat.le_refl _, rfl, hself, hlt.le, hkeep⟩
    · next hfew =>
      exact ⟨_, rfl, hnew _ _ fun hmaj => absurd hmaj hfew, rfl, hself, Nat.le_refl _, hkeep⟩
  · next hge =>
    exact ⟨_, rfl, hnew _ _ fun _ => Nat.le_of_not_lt hge, rfl, hself, Nat.le_refl _, hkeep⟩

end Commander

/-! ### The daemons -/

variable {σ σ' : Cluster n α} {p q : Fin n} {H : List (LogEntry α)}

/-- The daemons have applied something since, and nothing else is different. -/
def Drained (σ σ' : Cluster n α) : Prop :=
  ∀ q, ∃ cc la ch, σ'.peers q =
    { σ.peers q with commitCh := cc, lastApplied := la, applyCh := ch }

theorem Drained.trans {σ'' : Cluster n α} (h : Drained σ σ') (h' : Drained σ' σ'') :
    Drained σ σ'' := by
  intro q
  obtain ⟨_, _, _, heq⟩ := h q
  obtain ⟨cc, la, ch, heq'⟩ := h' q
  exact ⟨cc, la, ch, by rw [heq', heq]⟩

/-- A commit index is within the log. -/
theorem commitIndex_le_lastIndex {τ : List (Cluster n α)} (h : Run Truthful (σ :: τ)) (q : Fin n) :
    (σ.peers q).commitIndex ≤ (σ.peers q).lastIndex := by
  obtain ⟨a, -, hsim, hsafe, -⟩ := h.safeMoments List.mem_cons_self
  rw [(hsim.peer q).log.lastIndex_eq]
  exact (hsafe.peer q).commit.le_length

/-- **A daemon can deal with all its signals.** -/
theorem exists_drained (hrun : ∃ τ, Run Truthful (σ :: τ)) (q : Fin n) :
    ∃ σ', σ.Comes σ' ∧ Drained σ σ' ∧ (σ'.peers q).commitCh = 0 ∧
      ∀ x, (σ.peers x).commitCh = 0 → (σ'.peers x).commitCh = 0 := by
  induction hk : (σ.peers q).commitCh generalizing σ with
  | zero => exact ⟨σ, .refl σ, fun _ => ⟨_, _, _, rfl⟩, hk, fun _ hx => hx⟩
  | succ k ih =>
    obtain ⟨τ, hτ⟩ := hrun
    obtain ⟨msgs, la, heq, -⟩ := Raft.applyLogEntryDaemon_eq
      { σ.peers q with commitCh := (σ.peers q).commitCh - 1 } (commitIndex_le_lastIndex hτ q)
    have hcomes : σ.Comes (σ.setPeer q { σ.peers q with
        commitCh := (σ.peers q).commitCh - 1
        applyCh := (σ.peers q).applyCh ++ msgs
        lastApplied := la }) := by
      refine comes_of_call (e := .apply q) trivial rfl ?_
      rw [Cluster.step, if_neg (by omega), heq]
      rfl
    obtain ⟨σ', hcomes', hdrained, hzero, hkeep⟩ := ih (hcomes.run ⟨τ, hτ⟩)
      (by simp [Cluster.setPeer, hk])
    refine ⟨σ', hcomes.trans hcomes', Drained.trans (fun x => ?_) hdrained, hzero,
      fun x hx => hkeep x ?_⟩
    · rcases eq_or_ne x q with rfl | hne
      · exact ⟨_, _, _, Function.update_self ..⟩
      · exact ⟨_, _, _, Function.update_of_ne hne ..⟩
    · rcases eq_or_ne x q with rfl | hne
      · rw [hk] at hx
        cases hx
      · simpa [Cluster.setPeer, hne] using hx

/-- **All of them can.** -/
theorem exists_allDrained (hrun : ∃ τ, Run Truthful (σ :: τ)) :
    ∃ σ', σ.Comes σ' ∧ Drained σ σ' ∧ ∀ q, (σ'.peers q).commitCh = 0 := by
  obtain ⟨σ', hcomes, ⟨-, hdrained⟩, hzero⟩ := Leads.forall_mem (S := Cluster n α)
    (A := Event.Proceeds) (K := fun σ' => (∃ τ, Run Truthful (σ' :: τ)) ∧ Drained σ σ')
    (P := fun q σ => (σ.peers q).commitCh = 0) (List.finRange n) (fun q _ σ₁ hσ₁ => by
      obtain ⟨σ₂, hcomes, hdrained, hzero, hkeep⟩ := exists_drained hσ₁.1 q
      exact ⟨σ₂, hcomes, ⟨hcomes.run hσ₁.1, hσ₁.2.trans hdrained⟩, hzero, hkeep⟩)
    ⟨hrun, fun _ => ⟨_, _, _, rfl⟩⟩
  exact ⟨σ', hcomes, hdrained, fun q => hzero q (List.mem_finRange q)⟩

/-! ### The followers -/

/-- The state of a run in which `p` leads with the log `H`, nobody is in a later term, and nobody
has a snapshot. -/
structure Commanding (p : Fin n) (H : List (LogEntry α)) (σ : Cluster n α) : Prop where
  run : ∃ τ, Run Truthful (σ :: τ)
  commander : Commander p H (σ.peers p)
  snapshot : ∀ q, (σ.peers q).snapshotIndex = 0
  term_le : ∀ q, (σ.peers q).currentTerm ≤ (σ.peers p).currentTerm

/-- The peer `q` has the leader's log, and the leader knows that. -/
def Synced (p : Fin n) (H : List (LogEntry α)) (q : Fin n) (σ : Cluster n α) : Prop :=
  (σ.peers p).matchIndex q = H.length ∧ ∃ K, (σ.peers q).Represents K ∧ H <+: K

/-- What a round with one follower leaves to the others. -/
structure Onwards (p : Fin n) (H : List (LogEntry α)) (σ σ' : Cluster n α) : Prop where
  comes : σ.Comes σ'
  commanding : Commanding p H σ'
  synced : ∀ x, Synced p H x σ → Synced p H x σ'
  commit_le : ∀ x, (σ.peers x).commitIndex ≤ (σ'.peers x).commitIndex

theorem Onwards.trans {σ'' : Cluster n α} (h : Onwards p H σ σ') (h' : Onwards p H σ' σ'') :
    Onwards p H σ σ'' where
  comes := h.comes.trans h'.comes
  commanding := h'.commanding
  synced x hx := h'.synced x (h.synced x hx)
  commit_le x := (h.commit_le x).trans (h'.commit_le x)

/-- The daemons make room. -/
theorem Commanding.drain (h : Commanding p H σ) : ∃ σ', Onwards p H σ σ' ∧
    (∀ q, (σ'.peers q).commitCh = 0) ∧ (σ'.peers p).nextIndex = (σ.peers p).nextIndex := by
  obtain ⟨σ', hcomes, hdrained, hzero⟩ := exists_allDrained h.run
  choose cc la ch hpeer using hdrained
  refine ⟨σ', ⟨hcomes, ⟨hcomes.run h.run, ?_, fun x => ?_, fun x => ?_⟩, fun x hx => ?_,
    fun x => ?_⟩, hzero, ?_⟩
  · have hc := h.commander
    rw [hpeer p]
    exact ⟨hc.state, hc.log, hc.snapshot, hc.last, hc.next, hc.match_le, hc.own, hc.commit⟩
  · rw [hpeer x]
    exact h.snapshot x
  · rw [hpeer x, hpeer p]
    exact h.term_le x
  · rw [Synced, hpeer x, hpeer p]
    exact hx
  · rw [hpeer x]
  · rw [hpeer p]

/-- After a round the leader is `rf'` and the follower `rf`. -/
theorem Commanding.onwards (h : Commanding p H σ) (hne : q ≠ p) {rf rf' : Raft n α}
    (hcomes : σ.Comes ((σ.setPeer q rf).setPeer p rf')) (hlead : Commander p H rf')
    (hterm : rf'.currentTerm = (σ.peers p).currentTerm)
    (hmatch : ∀ x, (σ.peers p).matchIndex x = H.length → rf'.matchIndex x = H.length)
    (hcommit : (σ.peers p).commitIndex ≤ rf'.commitIndex) (hsnap : rf.snapshotIndex = 0)
    (hfollow : rf.currentTerm = (σ.peers p).currentTerm)
    (hlog : (∃ K, (σ.peers q).Represents K ∧ H <+: K) → ∃ K, rf.Represents K ∧ H <+: K)
    (hcommit' : (σ.peers q).commitIndex ≤ rf.commitIndex) :
    Onwards p H σ ((σ.setPeer q rf).setPeer p rf') := by
  have hp : ((σ.setPeer q rf).setPeer p rf').peers p = rf' := Function.update_self ..
  have hq : ((σ.setPeer q rf).setPeer p rf').peers q = rf := by simp [Cluster.setPeer, hne]
  have hx : ∀ x, x ≠ p → x ≠ q → ((σ.setPeer q rf).setPeer p rf').peers x = σ.peers x := by
    intro x hxp hxq
    simp [Cluster.setPeer, hxp, hxq]
  have hcases : ∀ {P : Fin n → Prop}, P p → P q → (∀ x, x ≠ p → x ≠ q → P x) → ∀ x, P x := by
    intro P hPp hPq hPx x
    rcases eq_or_ne x p with rfl | hxp
    · exact hPp
    rcases eq_or_ne x q with rfl | hxq
    · exact hPq
    · exact hPx x hxp hxq
  refine ⟨hcomes, ⟨hcomes.run h.run, hp.symm ▸ hlead, ?_, ?_⟩, ?_, ?_⟩
  · refine hcases (hp.symm ▸ hlead.snapshot) (hq.symm ▸ hsnap) fun x hxp hxq => ?_
    rw [hx x hxp hxq]
    exact h.snapshot x
  · refine hcases (Nat.le_refl _) ?_ fun x hxp hxq => ?_
    · rw [hp, hq, hfollow, hterm]
    · rw [hp, hx x hxp hxq, hterm]
      exact h.term_le x
  · rintro x ⟨hmx, hKx⟩
    refine ⟨hp.symm ▸ hmatch x hmx, ?_⟩
    revert hKx
    refine hcases (P := fun x => (∃ K, (σ.peers x).Represents K ∧ H <+: K) →
      ∃ K, (((σ.setPeer q rf).setPeer p rf').peers x).Represents K ∧ H <+: K) ?_ ?_ ?_ x
    · intro _
      exact ⟨H, hp.symm ▸ hlead.log, List.prefix_rfl⟩
    · rw [hq]
      exact hlog
    · intro x hxp hxq
      rw [hx x hxp hxq]
      exact id
  · refine hcases (hp.symm ▸ hcommit) (hq.symm ▸ hcommit') fun x hxp hxq => ?_
    rw [hx x hxp hxq]

/-- Without a snapshot there is one full log. -/
theorem Raft.Represents.eq_of_zero {rf : Raft n α} {K K' : List (LogEntry α)}
    (h : rf.Represents K) (h' : rf.Represents K') (hs : rf.snapshotIndex = 0) : K = K' := by
  obtain ⟨-, d, hd, -⟩ := h
  obtain ⟨-, d', hd', -⟩ := h'
  rw [hs, List.drop_zero] at hd hd'
  exact (List.cons.inj (hd.symm.trans hd')).2

theorem Raft.Signals.commitCh_le {rf rf' : Raft n α} {c : ℕ} (h : rf.Signals c rf') :
    rf'.commitCh ≤ rf.commitCh + 1 := by
  rcases h with ⟨-, hsame⟩ | ⟨-, hmore⟩
  · exact hsame ▸ Nat.le_succ _
  · exact hmore.le

/-- A round sends a signal to the follower and one to the leader, at most. -/
theorem roomy_round (hzero : ∀ x, (σ.peers x).commitCh = 0) {rf rf' : Raft n α} {c c' : ℕ}
    (hfollow : (σ.peers q).Signals c rf) (hlead : (σ.peers p).Signals c' rf') :
    σ.Roomy ((σ.setPeer q rf).setPeer p rf') := by
  have hroom {x : Fin n} {rf : Raft n α} (hle : rf.commitCh ≤ (σ.peers x).commitCh + 1) :
      rf.commitCh ≤ max (σ.peers x).commitCh commitChSlots := by
    rw [hzero x] at hle
    exact le_max_of_le_right (hle.trans (Nat.succ_pos 99))
  intro x
  simp only [Cluster.setPeer]
  rcases eq_or_ne x p with rfl | hxp
  · rw [Function.update_self]
    exact hroom hlead.commitCh_le
  rw [Function.update_of_ne hxp]
  rcases eq_or_ne x q with rfl | hxq
  · rw [Function.update_self]
    exact hroom hfollow.commitCh_le
  · rw [Function.update_of_ne hxq]
    exact le_max_left _ _

/-- **A round.** The follower accepts and has the leader's log then, or `nextIndex` goes down. -/
theorem Commanding.round (h : Commanding p H σ) (hzero : ∀ x, (σ.peers x).commitCh = 0)
    (hne : q ≠ p) : ∃ σ', Onwards p H σ σ' ∧
    ((σ'.peers p).nextIndex q < (σ.peers p).nextIndex q ∨ Synced p H q σ' ∧
      min H.length (σ.peers p).commitIndex ≤ (σ'.peers q).commitIndex) := by
  obtain ⟨τ, hrun⟩ := h.run
  obtain ⟨a, -, ha, hsafe, -⟩ := hrun.safeMoments List.mem_cons_self
  have hc := h.commander
  have hl := hc.log
  have hr := (ha.peer q).log
  obtain rfl : a.log p = H := (ha.peer p).log.eq_of_zero hl hc.snapshot
  have hcommit_le : (σ.peers p).commitIndex ≤ (a.log p).length := (hsafe.peer p).commit.le_length
  obtain ⟨hpos, hnext⟩ := hc.next q
  have hsnap := h.snapshot q
  obtain ⟨hle, -⟩ | ⟨-, pt, hterm, hreq⟩ := hl.checkConsistency hc.state q
  · have := hc.snapshot
    omega
  generalize hprev : (σ.peers p).nextIndex q - 1 = prev at hterm hreq
  have hnextq : (σ.peers p).nextIndex q = prev + 1 := by omega
  have hprev_le : prev ≤ (a.log p).length := by omega
  rw [Nat.min_eq_left hprev_le] at hterm
  have hcur := Raft.followLeader_currentTerm (h.term_le q)
  have hstill : ((σ.peers q).followLeader (σ.peers p).currentTerm).snapshotIndex = 0 := by
    rw [Raft.followLeader_snapshotIndex, hsnap]
  obtain ⟨st, ci, hans, -, hcases⟩ | ⟨-, ht, logs, st, cc, hans, -, hrep⟩ :=
    hr.appendEntries (ha.persisted q) ⟨(σ.peers p).currentTerm, (σ.peers p).me, prev, pt,
      (a.log p).drop prev, (σ.peers p).commitIndex⟩ (h.term_le q)
  · have hdel := Cluster.deliver_appendEntries hne.symm hreq hans
    have hproc : (σ.peers p).sendAppendEntriesAndProcess ⟨(σ.peers p).currentTerm, (σ.peers p).me,
        prev, pt, (a.log p).drop prev, (σ.peers p).commitIndex⟩ q
        ⟨(σ.peers p).currentTerm, false, ci⟩ = some { σ.peers p with
          nextIndex := Function.update (σ.peers p).nextIndex q (max 1 ci) } := by
      simp [Raft.sendAppendEntriesAndProcess, hc.state]
    have hround := Cluster.round_appendEntries hne.symm hdel hproc
    have hroom := roomy_round hzero (Raft.appendEntries_signals hans)
      (Raft.sendAppendEntriesAndProcess_signals hproc)
    have hcomes := comes_round hround hroom fun σ₁ hσ₁ => by
      obtain rfl := Except.ok.inj (hdel.symm.trans hσ₁)
      exact truthful_answered hne.symm fun hsuc => by cases hsuc
    -- At the beginning of the log everybody agrees, so `prev` is not `0`.
    have hdown : ci ≤ prev ∧ 0 < prev := by
      rcases hcases with ⟨hout, rfl⟩ | ⟨-, hci, t, hdiff, hsame, -⟩
      · simp only at hout
        omega
      · refine ⟨hci, Nat.pos_of_ne_zero fun hzero => hdiff ?_⟩
        have hprevt := hsame prev hci (Nat.le_refl _)
        rw [hzero, termAt_zero] at hprevt hterm
        exact Option.some.inj (hprevt.symm.trans hterm)
    refine ⟨_, h.onwards hne hcomes (hc.refused (by omega)) rfl (fun _ hx => hx) (Nat.le_refl _)
      hstill hcur ?_ (by simp), .inl ?_⟩
    · rintro ⟨K, hK, hpre⟩
      exact ⟨K, by simpa [Raft.Represents] using hK, hpre⟩
    · simp only [Cluster.setPeer, Function.update_self]
      rw [hnextq]
      exact Nat.max_lt.mpr ⟨Nat.succ_lt_succ hdown.2, Nat.lt_succ_of_le hdown.1⟩
  · have hdel := Cluster.deliver_appendEntries hne.symm hreq hans
    obtain ⟨rf', hproc, hlead, hterm', hmatch, hcommit, hkeep⟩ := hc.accepted hne
      ⟨(σ.peers p).currentTerm, (σ.peers p).me, prev, pt, (a.log p).drop prev,
        (σ.peers p).commitIndex⟩ (by simp only [List.length_drop]; omega)
    have hround := Cluster.round_appendEntries hne.symm hdel hproc
    have hroom := roomy_round hzero (Raft.appendEntries_signals hans)
      (Raft.sendAppendEntriesAndProcess_signals hproc)
    have hcomes := comes_round hround hroom fun σ₁ hσ₁ => by
      obtain rfl := Except.ok.inj (hdel.symm.trans hσ₁)
      refine truthful_answered hne.symm fun _ _ _ => .inr ?_
      rw [hl.term_entryAt (by rw [hc.snapshot]; exact Nat.zero_le _), hterm]
    have hpre := prefix_splice (i := prev) (ha.inv.sound_log q) (ha.inv.sound_log p)
      (le_length_of_termAt ht)
      (by rw [ht, Nat.min_eq_left hprev_le, hterm])
    have hlen := hpre.length_le
    -- The leader's commit index is within its log, and so within that of the follower now.
    have hafter : ∀ c, c ≤ Raft.commitAfter c (σ.peers p).commitIndex
        (Raft.splice (a.log q) prev ((a.log p).drop prev)).length ∧
        (σ.peers p).commitIndex ≤ Raft.commitAfter c (σ.peers p).commitIndex
          (Raft.splice (a.log q) prev ((a.log p).drop prev)).length := by
      intro c
      rw [Raft.commitAfter]
      split <;> omega
    refine ⟨_, h.onwards hne hcomes hlead hterm' hkeep hcommit hstill hcur
      (fun _ => ⟨_, ?_, hpre⟩) (hafter _).1, .inr ⟨⟨?_, _, ?_, hpre⟩, ?_⟩⟩
    · simpa [Raft.Represents] using hrep
    · simpa [Cluster.setPeer] using hmatch
    · simpa [Cluster.setPeer, hne, Raft.Represents] using hrep
    · refine (Nat.min_le_right _ _).trans ?_
      simpa [Cluster.setPeer, hne] using (hafter _).2

/-- **A follower is brought to the leader's log**, and told of the commit index. -/
theorem Commanding.sync (h : Commanding p H σ) (hne : q ≠ p) : ∃ σ', Onwards p H σ σ' ∧
    Synced p H q σ' ∧ min H.length (σ.peers p).commitIndex ≤ (σ'.peers q).commitIndex := by
  induction hk : (σ.peers p).nextIndex q using Nat.strong_induction_on generalizing σ with
  | _ k ih =>
    obtain ⟨σ₀, hon₀, hzero, hnext⟩ := h.drain
    obtain ⟨σ₁, hon, hless | ⟨hsync, hcommit⟩⟩ := hon₀.commanding.round hzero hne
    · rw [hnext, hk] at hless
      obtain ⟨σ₂, hon', hsync, hcommit⟩ := ih _ hless hon.commanding rfl
      refine ⟨σ₂, hon₀.trans (hon.trans hon'), hsync, le_trans ?_ hcommit⟩
      exact min_le_min_left _ ((hon₀.trans hon).commit_le p)
    · exact ⟨σ₁, hon₀.trans hon, hsync, le_trans (min_le_min_left _ (hon₀.commit_le p)) hcommit⟩

/-! ### The command -/

/-- One peer is no majority of two or more. -/
theorem not_majority_one (hn : 2 ≤ n) {f : Fin n → ℕ} {N : ℕ} (hf : ∀ q, q ≠ p → f q < N) :
    ¬ n / 2 < (List.finRange n).countP fun i => decide (N ≤ f i) := by
  have hle : (List.finRange n).countP (fun i => decide (N ≤ f i)) ≤
      (List.finRange n).count p := by
    rw [List.count]
    refine List.countP_mono_left fun i _ hi => ?_
    by_contra hne
    have := hf i (by simpa using hne)
    simp only [decide_eq_true_eq] at hi
    omega
  rw [List.count_finRange] at hle
  omega

/-- **The leader takes a command.** -/
theorem NewLeader.command {rf : Raft n α} (h : NewLeader H p rf) (hn : 2 ≤ n)
    (hme : rf.me = p) (hrep : rf.Represents H) (hs : rf.snapshotIndex = 0) (command : α) :
    (rf.start (some command)).1.currentTerm = rf.currentTerm ∧
    Commander p (H ++ [⟨H.length + 1, rf.currentTerm, some command⟩])
      (rf.start (some command)).1 := by
  have hidx : rf.snapshotIndex + rf.logs.length = H.length + 1 := by
    rw [hrep.length_logs, hs]
    omega
  have hlen : (H ++ [(⟨H.length + 1, rf.currentTerm, some command⟩ : LogEntry α)]).length =
      H.length + 1 := by simp
  have hother : ∀ q, q ≠ p →
      Function.update (Function.update (fun _ => 0) p H.length) p (H.length + 1) q = 0 := by
    intro q hne
    simp [hne]
  have hnext : ∀ q, 0 < Function.update (fun _ => H.length + 1) p (H.length + 1 + 1) q ∧
      Function.update (fun _ => H.length + 1) p (H.length + 1 + 1) q ≤ H.length + 1 + 1 := by
    intro q
    rcases eq_or_ne q p with rfl | hne
    · simp
    · simp [hne]
  obtain ⟨logs, st, ni, hstart, -, hlog⟩ := hrep.start h.state (some command)
  have hnew : (rf.start (some command)).1.Represents
      (H ++ [⟨H.length + 1, rf.currentTerm, some command⟩]) := by
    rw [hstart]
    exact hlog
  have heq := congrArg Prod.fst (Raft.start_eq rf h.state (some command))
  rw [hidx, hme, h.nextIndex, h.matchIndex] at heq
  rw [heq] at hnew ⊢
  refine ⟨rfl, h.state, hnew, hs, ?_, fun q => ?_, fun q => ?_, ?_, fun hmaj => ?_⟩
  · have hlast := termAt_length (H ++ [⟨H.length + 1, rf.currentTerm, some command⟩])
    rw [hlen, termAt_append_right] at hlast
    exact (Option.some.inj hlast).symm
  · rw [hlen]
    exact hnext q
  · rw [hlen]
    rcases eq_or_ne q p with rfl | hne
    · exact (Function.update_self ..).le
    · exact (hother q hne).trans_le (Nat.zero_le _)
  · rw [hlen]
    exact Function.update_self ..
  · refine absurd hmaj (not_majority_one (p := p) hn fun q hne => ?_)
    rw [hlen]
    exact (hother q hne).trans_lt (Nat.succ_pos _)

theorem Elected.command {G : Fin n → List (LogEntry α)} {S : Fin n → ℕ} (h : Elected G S p σ)
    (hS : ∀ q, S q = 0) (hn : 2 ≤ n) (hrun : ∃ τ, Run Truthful (σ :: τ)) (command : α) :
    ∃ σ', σ.Comes σ' ∧
      Commanding p (G p ++ [⟨(G p).length + 1, (σ.peers p).currentTerm, some command⟩]) σ' := by
  obtain ⟨a, ha⟩ := h.sim
  have hsnap : ∀ q, (σ.peers q).snapshotIndex = 0 := fun q => (h.snapshot q).trans (hS q)
  obtain ⟨hterm, hlead⟩ := h.leader.command hn (ha.peer p).me (h.log p) (hsnap p) command
  have hcomes : σ.Comes (σ.setPeer p ((σ.peers p).start (some command)).1) :=
    comes_of_call (e := .start p (some command)) trivial rfl rfl
  refine ⟨_, hcomes, hcomes.run hrun, ?_, fun q => ?_, fun q => ?_⟩
  · simpa [Cluster.setPeer] using hlead
  · rcases eq_or_ne q p with rfl | hne
    · simpa [Cluster.setPeer] using hlead.snapshot
    · simpa [Cluster.setPeer, hne] using hsnap q
  · rcases eq_or_ne q p with rfl | hne
    · exact Nat.le_refl _
    · simpa [Cluster.setPeer, hne, hterm] using h.term_le q

/-! ### Everybody -/

theorem mem_others : q ∈ others p ↔ q ≠ p := by
  simp [others]

/-- **Everybody is brought to the leader's log**, and the leader commits it. -/
theorem Commanding.syncAll (hn : 2 ≤ n) (h : Commanding p H σ) : ∃ σ', σ.Comes σ' ∧
    Commanding p H σ' ∧ (∀ q, Synced p H q σ') ∧ H.length ≤ (σ'.peers p).commitIndex := by
  obtain ⟨σ', hcomes, hcmd, hsync⟩ := Leads.forall_mem (S := Cluster n α)
    (A := Event.Proceeds) (K := Commanding p H) (P := Synced p H) (others p) (fun q hq σ hσ => by
      obtain ⟨σ', hon, hq', -⟩ := hσ.sync (mem_others.mp hq)
      exact ⟨σ', hon.comes, hon.commanding, hq', hon.synced⟩) h
  have hall : ∀ q, Synced p H q σ' := by
    intro q
    rcases eq_or_ne q p with rfl | hne
    · exact ⟨hcmd.commander.own, H, hcmd.commander.log, List.prefix_rfl⟩
    · exact hsync q (mem_others.mpr hne)
  refine ⟨σ', hcomes, hcmd, hall, hcmd.commander.commit ?_⟩
  rw [List.countP_eq_length.mpr fun q _ => decide_eq_true (hall q).1.ge, List.length_finRange]
  omega

/-- **Everybody is told of the commit index.** -/
theorem Commanding.tellAll (h : Commanding p H σ) (hsync : ∀ q, Synced p H q σ)
    (hcommit : H.length ≤ (σ.peers p).commitIndex) : ∃ σ', σ.Comes σ' ∧ Commanding p H σ' ∧
      (∀ q, Synced p H q σ') ∧ ∀ q, H.length ≤ (σ'.peers q).commitIndex := by
  obtain ⟨σ', hcomes, ⟨hcmd, hsync', hcommit'⟩, htold⟩ := Leads.forall_mem (S := Cluster n α)
    (A := Event.Proceeds)
    (K := fun σ => Commanding p H σ ∧ (∀ q, Synced p H q σ) ∧ H.length ≤ (σ.peers p).commitIndex)
    (P := fun q σ => H.length ≤ (σ.peers q).commitIndex) (others p) (fun q hq σ hσ => by
      obtain ⟨hcmd, hsync, hcommit⟩ := hσ
      obtain ⟨σ', hon, -, htold⟩ := hcmd.sync (mem_others.mp hq)
      refine ⟨σ', hon.comes, ⟨hon.commanding, fun x => hon.synced x (hsync x),
        hcommit.trans (hon.commit_le p)⟩, ?_, fun x hx => hx.trans (hon.commit_le x)⟩
      rwa [Nat.min_eq_left hcommit] at htold) ⟨h, hsync, hcommit⟩
  refine ⟨σ', hcomes, hcmd, hsync', fun q => ?_⟩
  rcases eq_or_ne q p with rfl | hne
  · exact hcommit'
  · exact htold q (mem_others.mpr hne)

/-- **The cluster recovers unless a server is deadlocked.** From every state of every run of at
least two servers in which no server is in the deadlock of `rf.mu` and `commitCh` and no server has
compacted its log, the cluster can go on, with no message lost, no server restarted and no log
compacted, to a state in which every server has applied a new command at one and the same index. -/
theorem cluster_recovers {τ : List (SignalCluster n α)} (hn : 2 ≤ n)
    (h : SignalCluster.Run Truthful τ) {s : SignalCluster n α} (hs : s ∈ τ)
    (hfree : ∀ p, ¬ (s.peer p).Deadlocked) (hsnap : ∀ q, (s.net.peers q).snapshotIndex = 0)
    (command : α) : ∃ s' N t, s.Comes s' ∧
      ∀ q, (s'.net.peers q).Holds N ⟨N, t, some command⟩ ∧ N ≤ (s'.net.peers q).lastApplied := by
  obtain ⟨s₀, hcomes₀, hopen, hreleased⟩ := (h.unlocked hs hfree).exists_released
  have hrun := hcomes₀.exists_net h hs
  obtain ⟨G, p, σ₁, hcomes₁, helected⟩ := exists_elected hn hopen.sim
  obtain ⟨σ₂, hcomes₂, hcmd₂⟩ := helected.command
    (fun q => (hopen.snapshot q).trans (hsnap q)) hn (hcomes₁.run hrun) command
  obtain ⟨σ₃, hcomes₃, hcmd₃, hsync₃, hcommit⟩ := hcmd₂.syncAll hn
  obtain ⟨σ₄, hcomes₄, hcmd₄, hsync₄, htold⟩ := hcmd₃.tellAll hsync₃ hcommit
  obtain ⟨σ₅, hon₅, hzero, -⟩ := hcmd₄.drain
  have hcomes : s₀.net.Comes σ₅ :=
    hcomes₁.trans (hcomes₂.trans (hcomes₃.trans (hcomes₄.trans hon₅.comes)))
  obtain ⟨s', hcomes', -, rfl⟩ := SignalCluster.exists_comes hreleased hcomes
  refine ⟨s', (G p).length + 1, (σ₁.peers p).currentTerm, hcomes₀.trans hcomes', fun q => ?_⟩
  have hsnap' := hon₅.commanding.snapshot q
  refine ⟨?_, ?_⟩
  · obtain ⟨-, K, hK, rest, rfl⟩ := hon₅.synced q (hsync₄ q)
    rw [hK.holds_iff, hsnap']
    exact ⟨Nat.succ_pos _, by simp⟩
  · -- No signal is left, so all that is committed is applied.
    obtain ⟨τ', hrun'⟩ := hon₅.commanding.run
    have hwoken := hrun'.woken _ List.mem_cons_self q (hzero q)
    have hcommit' := (htold q).trans (hon₅.commit_le q)
    rw [List.length_append, List.length_singleton] at hcommit'
    omega

/-- Two leaders, of which one is out of date and has an uncommitted entry, and the third server has
crashed. -/
def splitLeaders : List (SignalClusterEvent 3 ℕ) :=
  twoLeaders.map .act ++ [.act (.start 0 (some 7)), .act (.restart 2)]

theorem cluster_recovers_three : ∃ (τ : List (SignalCluster 3 ℕ)) (s : SignalCluster 3 ℕ),
    SignalCluster.Run Truthful τ ∧ s ∈ τ ∧ (s.net.peers 0).state = .leader ∧
      (s.net.peers 1).state = .leader ∧ ∃ s' N t, s.Comes s' ∧
        ∀ q, (s'.net.peers q).Holds N ⟨N, t, some 8⟩ ∧ N ≤ (s'.net.peers q).lastApplied := by
  have hend : ∃ s ∈ (splitLeaders.foldlM (stepIf .disabled (SignalCluster.Begins Truthful)
      SignalCluster.step) (.init 3 ℕ)).toOption,
      (s.net.peers 0).state = .leader ∧ (s.net.peers 1).state = .leader ∧
        (∀ p, s.held p = none) ∧ ∀ q, (s.net.peers q).snapshotIndex = 0 := by
    decide +kernel
  obtain ⟨s, hs, hzero, hone, hheld, hsnap⟩ := hend
  obtain ⟨τ, hrun⟩ : ∃ τ, SignalCluster.Run Truthful (s :: τ) :=
    Trace.exists_of_stepIf (eq_ok_of_mem_toOption hs)
  exact ⟨_, s, hrun, List.mem_cons_self, hzero, hone, cluster_recovers (by decide) hrun
    List.mem_cons_self (fun p => SignalCluster.not_deadlocked (hheld p)) hsnap 8⟩

end RaftKVDB
