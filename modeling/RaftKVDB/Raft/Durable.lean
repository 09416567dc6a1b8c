import RaftKVDB.Foundations.Commitment
import RaftKVDB.Raft.Steady
import RaftKVDB.Raft.StateMachine

/-!
# What a server never takes back

A server forgets its role, its commit index and its counts when it crashes. What it may not forget
is what others rely on: the term it has seen, the vote it has given in it, the snapshot that stands
for the beginning of its log, and the entries it once took for committed. These are compared between
any two moments of a run, whatever crashes, elections and truncations lie between them.

## Main results

* `durable_state_monotone` — term and snapshot never go back, and a vote stands for its term
* `Sim.keeps`, `Cluster.Run.safeMoments` — how the committed part of a log is carried along a run
* `committed_never_lost` — an entry that a server took for committed stays in its log or its
  snapshot for good
-/

namespace RaftKVDB

open Foundations Cluster

variable {n : ℕ} {α : Type*} {τ : List (Cluster n α)} {σ σ' : Cluster n α} {p : Fin n}

/-! ### Term, vote and snapshot -/

/-- No step of a peer moves its snapshot back. -/
theorem Cluster.PeerStep.snapshotIndex_le {a : Protocol n α} {e : Event n α} {rf : Raft n α}
    (h : PeerStep σ p e rf) (hsim : Sim σ a) : (σ.peers p).snapshotIndex ≤ rf.snapshotIndex := by
  cases h with
  | idle => exact Nat.le_refl _
  | broadCastVote hrun => exact (Raft.steady_broadCastVote hrun).snapshotIndex.ge
  | start command => exact (Raft.steady_start _ command).snapshotIndex.ge
  | compact hrun =>
    rcases Raft.compact_cases hrun with rfl | ⟨hlt, -, hsnap, -⟩
    · exact Nat.le_refl _
    · exact hsnap ▸ hlt.le
  | apply hrun =>
    have hlog : ({ σ.peers p with commitCh := (σ.peers p).commitCh - 1 } : Raft n α).Represents
      (a.log p) := (hsim.peer p).log
    obtain ⟨msgs, la, rfl, -⟩ := hlog.applyLoop_eq _ _ hrun
    exact Nat.le_refl _
  | requestVote hrun => exact (Raft.steady_requestVote hrun).snapshotIndex.ge
  | appendEntries hrun => exact (Raft.steady_appendEntries hrun).snapshotIndex.ge
  | installSnapShot hrun =>
    rcases Raft.installSnapShot_cases hrun with ⟨-, hst⟩ | ⟨-, hlt, -, hsnap, -⟩
    · exact hst.snapshotIndex.ge
    · exact hsnap ▸ hlt.le
  | notify snapshot =>
    obtain ⟨ch, heq, -⟩ := notifyAppUseNewSnapShot_eq (σ.peers p) snapshot
    rw [heq]
  | processVote reply => exact (Raft.steady_sendRequestVoteAndProcess _ reply).snapshotIndex.ge
  | processAppend _ _ _ hrun =>
    exact (Raft.steady_sendAppendEntriesAndProcess hrun).snapshotIndex.ge
  | processSnapShot => exact (Raft.steady_sendSnapShotAndProcess _ _ _ _).snapshotIndex.ge
  | restart =>
    obtain ⟨ch, heq, -⟩ := Raft.make_persisted (hsim.persisted p)
    rw [(hsim.peer p).me] at heq
    rw [heq]

theorem snapshotIndex_pairwise (h : Run Always τ) (p : Fin n) :
    τ.Pairwise fun r s => (s.peers p).snapshotIndex ≤ (r.peers p).snapshotIndex := by
  refine Trace.pairwise (P := fun s => ∃ a, Sim s a) (Q := fun _ => True) ⟨_, sim_init⟩ ?_ ?_ ?_
    τ [] (by rwa [List.append_nil]) (fun _ _ => trivial)
  · rintro s e s' ⟨a, hsim⟩ hn
    obtain ⟨b, -, -, hsim'⟩ := hsim.step hn.2
    exact ⟨_, hsim'⟩
  · exact fun _ _ _ hle hle' => hle'.trans hle
  · rintro s e s' ⟨a, hsim⟩ hn - -
    exact (peerStep_of_step hn.2 p).snapshotIndex_le hsim

/-- **Durable state is monotone.** Between two moments of a run, crashes included, the term and the
snapshot index of a server do not go back, and while the term is the same a vote is not taken back
or changed. -/
theorem durable_state_monotone (h : Run Always (σ' :: τ)) (hσ : σ ∈ σ' :: τ) (p : Fin n) :
    (σ.peers p).currentTerm ≤ (σ'.peers p).currentTerm ∧
    (∀ c, (σ.peers p).currentTerm = (σ'.peers p).currentTerm → (σ.peers p).votedFor = some c →
      (σ'.peers p).votedFor = some c) ∧
    (σ.peers p).snapshotIndex ≤ (σ'.peers p).snapshotIndex := by
  obtain ⟨a, ha, hpast⟩ := h.history
  obtain ⟨τ', b, -, hb, hext⟩ := hpast σ hσ
  have hp := (hb.sim σ rfl).peer p
  have hp' := (ha.sim σ' rfl).peer p
  refine ⟨?_, fun c ht hc => ?_, ?_⟩
  · rw [hp.term, hp'.term]
    exact hext.term p
  · rw [hp'.vote, ← ht]
    exact hext.voted _ _ _ (hp.vote.symm.trans hc)
  · have hpair := snapshotIndex_pairwise h p
    rcases List.mem_cons.mp hσ with rfl | hmem
    · exact Nat.le_refl _
    · exact (List.pairwise_cons.mp hpair).1 σ hmem

/-- Peer `0` crashes after it has compacted. -/
theorem durable_state_monotone_three :
    ((replay Always compactionEvents).1.peers 0).votedFor = some 0 ∧
    ((replay Always (compactionEvents ++ [.restart 0])).1.peers 0).votedFor = some 0 ∧
    ((replay Always compactionEvents).1.peers 0).snapshotIndex ≤
      ((replay Always (compactionEvents ++ [.restart 0])).1.peers 0).snapshotIndex := by
  have hvote : ((replay Always compactionEvents).1.peers 0).votedFor = some 0 := by decide +kernel
  obtain ⟨-, hkept, hsnap⟩ := durable_state_monotone
    (run_replay Always (compactionEvents ++ [.restart 0]))
    (mem_replay_append Always compactionEvents [.restart 0]) 0
  exact ⟨hvote, hkept 0 (by decide +kernel) hvote, hsnap⟩

/-! ### What was taken for committed -/

/-- One step of a cluster, as actions of the protocol. -/
theorem Sim.keeps {a : Protocol n α} {e : Event n α} (h : Sim σ a) (hstep : σ.step e = .ok σ') :
    ∃ b, a.Keeps b ∧ Recorded b ∧ Sim σ' b := by
  obtain ⟨b, hs, -, hsim⟩ := h.step hstep
  exact ⟨b.observe, Repl.Steps.keeps (hs.tail .observe) h.inv,
    fun q m hm hpre => .inr ⟨rfl, hm, hpre⟩, hsim⟩

/-- A moment of a run that meets the condition and a later one: what was committed at the first is
still there. -/
theorem Cluster.Run.safeMoments (h : Run Truthful (σ' :: τ)) (hσ : σ ∈ σ' :: τ) :
    ∃ a b : Protocol n α, Sim σ' a ∧ Safe σ' a ∧ Sim σ b ∧ Safe σ b ∧ b.Keeps a := by
  have hinit : ∀ σ ∈ [Cluster.init n α].head?,
      Sim σ (Repl.empty : Protocol n α) ∧ Safe σ (Repl.empty : Protocol n α) := by
    intro σ hσ
    obtain rfl := Option.some.inj hσ
    exact ⟨sim_init, safe_init _⟩
  have hhist := Trace.history (R := fun τ a => ∀ σ ∈ τ.head?, Sim σ a ∧ Safe σ a)
    Repl.Keeps.refl (fun _ _ _ => Repl.Keeps.trans) hinit
    (fun s e s' τ a _ hR hn => by
      obtain ⟨hsim, hsafe⟩ := hR s rfl
      obtain ⟨b, hkeep, hnow, hsim'⟩ := hsim.keeps hn.2
      refine ⟨b, hkeep, fun σ₀ hσ₀ => ?_⟩
      obtain rfl := Option.some.inj hσ₀
      exact ⟨hsim', hsafe.step hsim hn.1 hn.2 hsim' hkeep.ext hnow⟩) h
  obtain ⟨a, ha, hpast⟩ := hhist
  obtain ⟨τ', b, -, hb, hkeep⟩ := hpast σ hσ
  exact ⟨a, b, (ha σ' rfl).1, (ha σ' rfl).2, (hb σ rfl).1, (hb σ rfl).2, hkeep⟩

/-- **Committed entries are never lost.** In a run whose steps meet the condition, an entry that a
server holds at an index up to its commit index is at that index of its log, or below its snapshot,
at every later moment: after any number of crashes, elections and truncations. -/
theorem committed_never_lost (h : Run Truthful (σ' :: τ)) (hσ : σ ∈ σ' :: τ) {i : ℕ}
    {e : LogEntry α} (hi : i ≤ (σ.peers p).commitIndex) (he : (σ.peers p).Holds i e) :
    i ≤ (σ'.peers p).snapshotIndex ∨ (σ'.peers p).Holds i e := by
  obtain ⟨a, b, hsim', -, hsim, hsafe, hkeep⟩ := h.safeMoments hσ
  have hp := hsim.peer p
  have hp' := hsim'.peer p
  obtain ⟨hsnap, hget⟩ := hp.log.holds_iff.mp he
  have hpoint := ((hsafe.peer p).commit).of_le hi
  rw [hp.term] at hpoint
  -- The two commit points are on one line.
  have hagree := (hpoint.extends hkeep.ext (Nat.le_refl _) List.prefix_rfl).agree hsim'.inv
    (hkeep.point p i hpoint)
  rcases Nat.lt_or_ge (σ'.peers p).snapshotIndex i with hlt | hge
  · refine .inr (hp'.log.holds_iff.mpr ⟨hlt, ?_⟩)
    rw [← List.getElem?_take_of_lt (show i - 1 < i by omega), ← hagree,
      List.getElem?_take_of_lt (by omega), hget]
  · exact .inl hge

/-- Peer `1` crashes after it has delivered both entries, and does not know its commit index any
more. -/
theorem committed_never_lost_three :
    ((replay Truthful deliveryEvents).1.peers 1).commitIndex = 2 ∧
    ((replay Truthful (deliveryEvents ++ [.restart 1])).1.peers 1).commitIndex = 0 ∧
    (2 ≤ ((replay Truthful (deliveryEvents ++ [.restart 1])).1.peers 1).snapshotIndex ∨
      ((replay Truthful (deliveryEvents ++ [.restart 1])).1.peers 1).Holds 2 ⟨2, 1, some 8⟩) := by
  have hcommit : ((replay Truthful deliveryEvents).1.peers 1).commitIndex = 2 := by decide +kernel
  exact ⟨hcommit, by decide +kernel, committed_never_lost
    (run_replay Truthful (deliveryEvents ++ [.restart 1]))
    (mem_replay_append Truthful deliveryEvents [.restart 1]) hcommit.ge
    ⟨by decide +kernel, by decide +kernel⟩⟩

end RaftKVDB
