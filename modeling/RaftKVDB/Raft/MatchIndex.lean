import RaftKVDB.Raft.Commit
import RaftKVDB.Raft.Compact
import RaftKVDB.Raft.SimulationRun

/-!
# What a leader knows of the others

`matchIndex[p]` is what a leader knows peer `p` to hold. The reply to an `AppendEntries` raises it
only to a larger index. The reply to a snapshot is checked against `nextIndex` instead, and a
delayed conflict moves `nextIndex` back, behind what is known to match; a delayed reply to a
snapshot then takes `matchIndex` back with it.

## Main results

* `Raft.Advances`, `PeerStep.advances` — what one step does to `matchIndex`
* `matchIndex_never_decreases` — over a whole term, if no snapshot reply falls between the two
* `matchIndex_decreases` — a run in which one does
-/

namespace RaftKVDB

open Foundations Cluster

variable {n : ℕ} {α : Type*}

namespace Raft

/-- While a leader stays the leader of a term, what it knows of the others does not shrink. -/
def Advances (rf rf' : Raft n α) : Prop :=
  rf.state = .leader → rf'.state = .leader → rf'.currentTerm = rf.currentTerm →
    ∀ q, rf.matchIndex q ≤ rf'.matchIndex q

/-- A leader does not count more entries for itself than it has. -/
def OwnMatch (rf : Raft n α) : Prop :=
  rf.state = .leader → rf.matchIndex rf.me ≤ rf.lastIndex

/-- A peer that is the leader after a step was it before, knows the same of the others and has not
lost entries. -/
def StillLeads (rf rf' : Raft n α) : Prop :=
  rf'.state = .leader → rf.state = .leader ∧ rf'.me = rf.me ∧ rf'.matchIndex = rf.matchIndex ∧
    rf.lastIndex ≤ rf'.lastIndex

variable {rf rf' : Raft n α}

theorem StillLeads.refl (rf : Raft n α) : StillLeads rf rf :=
  fun hs => ⟨hs, rfl, rfl, Nat.le_refl _⟩

theorem StillLeads.of_ne (h : rf'.state ≠ .leader) : StillLeads rf rf' := fun hs => absurd hs h

theorem StillLeads.advances (h : StillLeads rf rf') : Advances rf rf' := by
  intro _ hs _ q
  rw [(h hs).2.2.1]

theorem StillLeads.ownMatch (h : StillLeads rf rf') (hown : rf.OwnMatch) : rf'.OwnMatch := by
  intro hs'
  obtain ⟨hs, hme, hmatch, hlast⟩ := h hs'
  rw [hme, hmatch]
  exact (hown hs).trans hlast

/-! ### The handlers -/

theorem stillLeads_persistIf (h : StillLeads rf rf') (b : Bool) :
    StillLeads rf (rf'.persistIf b) := by
  cases b <;> exact h

theorem stillLeads_requestVote {args : RequestVoteArgs n} {reply : RequestVoteReply}
    (h : rf.requestVote args = some (rf', reply)) : StillLeads rf rf' := by
  have hsee : StillLeads rf (rf.seeTerm args.term) := by
    rw [seeTerm]
    split
    · exact .of_ne (by simp [adoptTerm, goBackToFollower])
    · exact .refl rf
  have hvote : StillLeads rf { rf.seeTerm args.term with votedFor := some args.candidateID } := hsee
  rcases requestVote_outcome h with rfl | ⟨change, rfl⟩ | rfl
  · exact .refl rf'
  · exact stillLeads_persistIf hsee change
  · exact stillLeads_persistIf hvote true

/-- A leader whose `AppendEntries` is accepted at another is not the leader any more. -/
theorem stillLeads_appendEntries {args : AppendEntriesArgs n α} {reply : AppendEntriesReply}
    (h : rf.appendEntries args = some (rf', reply)) : StillLeads rf rf' := by
  rcases appendEntries_outcome h with ⟨rfl, -⟩ | ⟨-, ⟨change, rfl⟩ | ⟨logs, change, rfl⟩⟩
  · exact .refl rf'
  · exact .of_ne (by simp)
  · exact .of_ne (by simp)

theorem stillLeads_installSnapShot {args : InstallSnapshotArgs n} {reply : InstallSnapshotReply}
    {installed : Bool} (h : rf.installSnapShot args = some (rf', reply, installed)) :
    StillLeads rf rf' := by
  rcases installSnapShot_outcome h with ⟨-, rfl | ⟨change, rfl⟩⟩ | ⟨-, -, logs, rfl⟩
  · exact .refl rf'
  · exact .of_ne (by simp)
  · exact .of_ne (by simp [saveStateAndSnapshot])

/-! ### The peer's own actions -/

theorem stillLeads_broadCastVote {sent : Option (RequestVoteArgs n)}
    (h : rf.broadCastVote = some (rf', sent)) : StillLeads rf rf' := by
  rw [broadCastVote] at h
  split at h
  · obtain ⟨rfl, -⟩ := Prod.mk.inj (Option.some.inj h)
    exact .refl rf
  · dsimp only at h
    split at h
    · cases h
    · obtain ⟨rfl, -⟩ := Prod.mk.inj (Option.some.inj h)
      exact .of_ne (by simp [persistState])

theorem stillLeads_compact {cmdIndex : ℕ} {snapshot : List UInt8}
    (h : rf.compact cmdIndex snapshot = some rf') : StillLeads rf rf' := by
  rcases compact_cases_cut h with rfl | ⟨e, hk, he, rfl⟩
  · exact .refl rf'
  · exact fun hs => ⟨hs, rfl, rfl, (cut_lastIndex hk he).ge⟩

theorem stillLeads_notify (rf : Raft n α) (snapshot : List UInt8) :
    StillLeads rf (rf.notifyAppUseNewSnapShot snapshot) := by
  rw [notifyAppUseNewSnapShot]
  split
  · exact .refl rf
  · exact fun hs => ⟨hs, rfl, rfl, Nat.le_refl _⟩

theorem stillLeads_make (me : Fin n) (persister : Persister n α) :
    StillLeads rf (make me persister) := by
  refine .of_ne ?_
  obtain ⟨raftstate, snapshot⟩ := persister
  cases raftstate <;> cases snapshot <;>
    simp [make, dePersistState, notifyAppUseNewSnapShot]

/-- `Start` counts the new entry for the leader itself. -/
theorem advances_start (hown : rf.OwnMatch) (command : Option α) :
    Advances rf (rf.start command).1 ∧ (rf.start command).1.OwnMatch := by
  by_cases hs : rf.state = .leader
  · have hlast := hown hs
    have hnew : ({ rf with logs := rf.logs ++
        [⟨rf.snapshotIndex + rf.logs.length, rf.currentTerm, command⟩] } : Raft n α).lastIndex =
        rf.snapshotIndex + rf.logs.length := by
      simp only [lastIndex, logIdxLocal2Global, List.length_append, List.length_singleton]
      omega
    have hle : rf.lastIndex ≤ rf.snapshotIndex + rf.logs.length := by
      simp only [lastIndex, logIdxLocal2Global]
      omega
    rw [rf.start_eq hs]
    refine ⟨fun _ _ _ q => ?_, fun _ => ?_⟩
    · rcases eq_or_ne q rf.me with rfl | hne
      · simpa [persistIf, persistState] using hlast.trans hle
      · simp [persistIf, persistState, hne]
    · show Function.update rf.matchIndex rf.me _ rf.me ≤ _
      rw [Function.update_self]
      exact hnew.ge
  · have hsame : (rf.start command).1 = rf := by
      rw [start, if_neg hs]
    rw [hsame]
    exact ⟨(StillLeads.refl rf).advances, hown⟩

/-! ### The reply processors -/

theorem stillLeads_adoptTerm (t : ℕ) : StillLeads rf (rf.adoptTerm t).persistState :=
  .of_ne (by simp [persistState, adoptTerm, goBackToFollower])

/-- A new leader counts its whole log for itself. -/
theorem advances_processVote (hown : rf.OwnMatch) (reply : RequestVoteReply) :
    Advances rf (rf.sendRequestVoteAndProcess reply) ∧
      (rf.sendRequestVoteAndProcess reply).OwnMatch := by
  rcases rf.sendRequestVoteAndProcess_cases reply with
    heq | ⟨-, heq⟩ | ⟨hs, -, -, heq | ⟨-, heq⟩⟩ <;> rw [heq]
  · exact ⟨(StillLeads.refl rf).advances, hown⟩
  · exact ⟨(stillLeads_adoptTerm _).advances, (stillLeads_adoptTerm _).ownMatch hown⟩
  · have hnot : StillLeads rf { rf with voteCount := rf.voteCount + 1 } := .of_ne (by simp [hs])
    exact ⟨hnot.advances, hnot.ownMatch hown⟩
  · refine ⟨fun hl => absurd (hl.symm.trans hs) (by simp), fun _ => ?_⟩
    exact (Function.update_self rf.me rf.lastIndex fun _ => 0).le

/-- What another peer is known to hold is raised to an index. -/
theorem advances_update {server : Fin n} {i : ℕ} (hown : rf.OwnMatch) (hserver : server ≠ rf.me)
    (hle : rf.matchIndex server ≤ i) (hme : rf'.me = rf.me) (hs : rf'.state = rf.state)
    (hlast : rf'.lastIndex = rf.lastIndex)
    (hmatch : rf'.matchIndex = Function.update rf.matchIndex server i) :
    Advances rf rf' ∧ rf'.OwnMatch := by
  refine ⟨fun _ _ _ q => ?_, fun hs' => ?_⟩
  · rw [hmatch]
    rcases eq_or_ne q server with rfl | hne
    · rwa [Function.update_self]
    · rw [Function.update_of_ne hne]
  · rw [hme, hmatch, hlast, Function.update_of_ne hserver.symm]
    exact hown (hs ▸ hs')

theorem advances_processAppend {args : AppendEntriesArgs n α} {server : Fin n}
    {reply : AppendEntriesReply} (hown : rf.OwnMatch) (hserver : server ≠ rf.me)
    (h : rf.sendAppendEntriesAndProcess args server reply = some rf') :
    Advances rf rf' ∧ rf'.OwnMatch := by
  rcases sendAppendEntriesAndProcess_cases h with
    rfl | ⟨-, rfl⟩ | ⟨hs, -, -, rfl⟩ | ⟨hs, -, -, hlt, ci, cc, rfl, -⟩
  · exact ⟨(StillLeads.refl rf').advances, hown⟩
  · exact ⟨(stillLeads_adoptTerm _).advances, (stillLeads_adoptTerm _).ownMatch hown⟩
  · exact ⟨fun _ _ _ _ => Nat.le_refl _, hown⟩
  · exact advances_update hown hserver hlt.le rfl rfl rfl rfl

theorem advances_processSnapShot {args : InstallSnapshotArgs n} {server : Fin n}
    {reply : InstallSnapshotReply} (hown : rf.OwnMatch) (hserver : server ≠ rf.me)
    (hok : rf.state = .leader → reply.term = rf.currentTerm →
      rf.nextIndex server ≤ args.lastIncludedIndex →
      rf.matchIndex server ≤ args.lastIncludedIndex) :
    Advances rf (rf.sendSnapShotAndProcess args server reply) ∧
      (rf.sendSnapShotAndProcess args server reply).OwnMatch := by
  rcases rf.sendSnapShotAndProcess_cases args server reply with
    heq | ⟨-, heq⟩ | ⟨hs, ht, hle, heq⟩ <;> rw [heq]
  · exact ⟨(StillLeads.refl rf).advances, hown⟩
  · exact ⟨(stillLeads_adoptTerm _).advances, (stillLeads_adoptTerm _).ownMatch hown⟩
  · exact advances_update hown hserver (hok hs ht hle) rfl rfl rfl rfl

/-! ### The condition -/

/-- What the leader that processes a reply to a snapshot may not be in: past the snapshot with
`matchIndex`, and before it with `nextIndex`. -/
def Between (rf : Raft n α) (server : Fin n) : Body n α → Prop
  | .installSnapShot args (some reply) => rf.state = .leader ∧ reply.term = rf.currentTerm ∧
      rf.nextIndex server ≤ args.lastIncludedIndex ∧ args.lastIncludedIndex < rf.matchIndex server
  | _ => False

instance (rf : Raft n α) (server : Fin n) : (body : Body n α) → Decidable (rf.Between server body)
  | .installSnapShot _ (some _) => inferInstanceAs (Decidable (_ ∧ _ ∧ _ ∧ _))
  | .installSnapShot _ none => .isFalse id
  | .requestVote _ _ => .isFalse id
  | .appendEntries _ _ => .isFalse id
  | .notifying _ _ _ => .isFalse id

end Raft

/-- No reply to a snapshot is processed whose index lies between `nextIndex` and `matchIndex` of
its server. -/
def SnapshotsAhead (σ : Cluster n α) (e : Event n α) : Prop :=
  ∀ k ∈ e.processed, ∀ c ∈ σ.calls[k]?, ¬(σ.peers c.caller).Between c.server c.body

instance (σ : Cluster n α) (e : Event n α) : Decidable (SnapshotsAhead σ e) :=
  inferInstanceAs (Decidable (∀ k ∈ e.processed, ∀ c ∈ σ.calls[k]?,
    ¬(σ.peers c.caller).Between c.server c.body))

/-- **One step** that meets the condition keeps what the leader knows. -/
theorem Cluster.PeerStep.advances {σ : Cluster n α} {a : Protocol n α} {p : Fin n} {e : Event n α}
    {rf : Raft n α} (hsim : Sim σ a) (hok : SnapshotsAhead σ e) (hown : (σ.peers p).OwnMatch)
    (h : PeerStep σ p e rf) : (σ.peers p).Advances rf ∧ rf.OwnMatch := by
  have hleads : (σ.peers p).StillLeads rf → (σ.peers p).Advances rf ∧ rf.OwnMatch :=
    fun hl => ⟨hl.advances, hl.ownMatch hown⟩
  have hme := (hsim.peer p).me
  cases h with
  | idle => exact hleads (.refl _)
  | broadCastVote hrun => exact hleads (Raft.stillLeads_broadCastVote hrun)
  | start command => exact Raft.advances_start hown command
  | compact hrun => exact hleads (Raft.stillLeads_compact hrun)
  | apply hrun =>
    have hlog : ({ σ.peers p with commitCh := (σ.peers p).commitCh - 1 } : Raft n α).Represents
      (a.log p) := (hsim.peer p).log
    obtain ⟨msgs, la, rfl, -⟩ := hlog.applyLoop_eq _ _ hrun
    exact hleads fun hs => ⟨hs, rfl, rfl, Nat.le_refl _⟩
  | requestVote hrun => exact hleads (Raft.stillLeads_requestVote hrun)
  | appendEntries hrun => exact hleads (Raft.stillLeads_appendEntries hrun)
  | installSnapShot hrun => exact hleads (Raft.stillLeads_installSnapShot hrun)
  | notify snapshot => exact hleads (Raft.stillLeads_notify _ snapshot)
  | processVote reply => exact Raft.advances_processVote hown reply
  | processAppend hc hcaller hbody hrun =>
    have hne := (hsim.call _ (List.mem_of_getElem? hc)).1
    refine Raft.advances_processAppend hown ?_ hrun
    rw [hme, ← hcaller]
    exact hne.symm
  | @processSnapShot k c args reply hc hcaller hbody =>
    have hne := (hsim.call _ (List.mem_of_getElem? hc)).1
    have hnot := hok k rfl c hc
    rw [hcaller, hbody] at hnot
    refine Raft.advances_processSnapShot hown ?_ fun hs ht hle => ?_
    · rw [hme, ← hcaller]
      exact hne.symm
    · exact Nat.le_of_not_lt fun hlt => hnot ⟨hs, ht, hle, hlt⟩
  | restart => exact hleads (Raft.stillLeads_make _ _)

/-- The invariant of a run: the protocol relation, and what leaders count for themselves. -/
def Counts (σ : Cluster n α) : Prop := (∃ a, Sim σ a) ∧ ∀ p, (σ.peers p).OwnMatch

theorem counts_init : Counts (init n α) := by
  refine ⟨⟨_, sim_init⟩, fun p hs => ?_⟩
  cases hs

theorem Counts.step {σ σ' : Cluster n α} {e : Event n α} (h : Counts σ)
    (hn : Next SnapshotsAhead σ e σ') : Counts σ' := by
  obtain ⟨⟨a, hsim⟩, hown⟩ := h
  obtain ⟨b, -, -, hsim'⟩ := hsim.step hn.2
  exact ⟨⟨_, hsim'⟩, fun p => ((peerStep_of_step hn.2 p).advances hsim hn.1 (hown p)).2⟩

/-- **`matchIndex` never goes back**, in a run in which no reply to a snapshot of the leader's term
is processed while its index lies between `nextIndex` and `matchIndex`: over any stretch of the run
in which a server is the leader of one term, what it knows of every peer only grows. -/
theorem matchIndex_never_decreases {τ₁ τ₂ : List (Cluster n α)} {p : Fin n} {t : ℕ}
    (h : Run SnapshotsAhead (τ₁ ++ τ₂))
    (hlead : ∀ σ ∈ τ₁, (σ.peers p).state = .leader ∧ (σ.peers p).currentTerm = t) :
    τ₁.Pairwise fun σ' σ => ∀ q, (σ.peers p).matchIndex q ≤ (σ'.peers p).matchIndex q := by
  refine Trace.pairwise counts_init (fun _ _ _ => Counts.step)
    (fun _ _ _ h₂ h₁ q => (h₁ q).trans (h₂ q)) ?_ τ₁ τ₂ h hlead
  intro σ e σ' hcounts hn hσ hσ'
  obtain ⟨⟨a, hsim⟩, hown⟩ := hcounts
  exact ((peerStep_of_step hn.2 p).advances hsim hn.1 (hown p)).1 hσ.1 hσ'.1
    (hσ'.2.trans hσ.2.symm)

/-- Peer `0` is elected, writes an entry and has it replicated to peer `1`. -/
def growthEvents : List (Event 3 ℕ) :=
  [.broadCastVote 0, .handle 0, .process 0, .start 0 (some 7), .checkConsistency 0 1, .handle 1]

theorem matchIndex_never_decreases_three : ∃ σ',
    Run SnapshotsAhead ([σ', (replay SnapshotsAhead growthEvents).1] ++
      (replay SnapshotsAhead growthEvents).2) ∧ (σ'.peers 0).matchIndex 1 = 1 ∧
    ∀ q, ((replay SnapshotsAhead growthEvents).1.peers 0).matchIndex q ≤
      (σ'.peers 0).matchIndex q := by
  have hstep : ∃ σ' ∈ ((replay SnapshotsAhead growthEvents).1.step (.process 1)).toOption,
      (∀ σ ∈ [σ', (replay SnapshotsAhead growthEvents).1],
        (σ.peers 0).state = .leader ∧ (σ.peers 0).currentTerm = 1) ∧
      SnapshotsAhead (replay SnapshotsAhead growthEvents).1 (.process 1) ∧
      (σ'.peers 0).matchIndex 1 = 1 := by
    decide +kernel
  obtain ⟨σ', hmem, hlead, hok, hmatch⟩ := hstep
  have hrun : Run SnapshotsAhead ([σ', (replay SnapshotsAhead growthEvents).1] ++
      (replay SnapshotsAhead growthEvents).2) :=
    (run_replay SnapshotsAhead growthEvents).step ⟨hok, eq_ok_of_mem_toOption hmem⟩
  exact ⟨σ', hrun, hmatch, (List.pairwise_cons.mp (matchIndex_never_decreases hrun hlead)).1 _
    List.mem_cons_self⟩

/-- The condition is no stronger than needed: a step that does not meet it takes `matchIndex` of a
leader back. -/
theorem lt_matchIndex_of_not_snapshotsAhead {σ σ' : Cluster n α} {e : Event n α}
    (hstep : σ.step e = .ok σ') (hnot : ¬SnapshotsAhead σ e) :
    ∃ p q, (σ.peers p).state = .leader ∧ (σ'.peers p).state = .leader ∧
      (σ'.peers p).currentTerm = (σ.peers p).currentTerm ∧
      (σ'.peers p).matchIndex q < (σ.peers p).matchIndex q := by
  simp only [SnapshotsAhead, not_forall, not_not] at hnot
  obtain ⟨k, hk, c, hc, hbetween⟩ := hnot
  cases e with
  | process j =>
    obtain rfl := Option.some.inj hk
    obtain ⟨c', hc', hrun⟩ := onCall_eq_ok.mp hstep
    obtain rfl := Option.some.inj (hc'.symm.trans hc)
    obtain ⟨-, ⟨args, reply, hbody, rfl⟩ | ⟨args, reply, rf, hbody, -, rfl⟩ |
      ⟨args, reply, hbody, rfl⟩⟩ := process_cases hrun
    · rw [hbody] at hbetween
      exact hbetween.elim
    · rw [hbody] at hbetween
      exact hbetween.elim
    · rw [hbody] at hbetween
      obtain ⟨hs, ht, hle, hlt⟩ := hbetween
      refine ⟨c'.caller, c'.server, hs, ?_⟩
      have hset : (σ.peers c'.caller).sendSnapShotAndProcess args c'.server reply =
          { σ.peers c'.caller with
            nextIndex := Function.update (σ.peers c'.caller).nextIndex c'.server
              (args.lastIncludedIndex + 1)
            matchIndex := Function.update (σ.peers c'.caller).matchIndex c'.server
              args.lastIncludedIndex } := by
        rw [Raft.sendSnapShotAndProcess, if_neg (by simp [hs, ht]), if_neg ht.not_gt, if_pos hle]
      rw [hset]
      simp [endCall, setPeer, hs, hlt]
  | _ => cases hk

/-- Peer `0` commits two entries, loses its leadership to an election of peer `1` and gets it back.
-/
def returnEvents : List (Event 3 ℕ) :=
  [.broadCastVote 0, .handle 0, .process 0, .lose 0, .start 0 (some 7), .start 0 (some 8),
    .checkConsistency 0 1, .handle 0, .process 0, .apply 0, .broadCastVote 1, .handle 0, .lose 0,
    .lose 0, .broadCastVote 0, .handle 0, .process 0, .lose 0]

/-- Peer `2` rejects two requests, of which one reply is late. The leader compacts, sends two
snapshots, of which one reply is late, and after the other brings peer `2` up to date. Then the late
rejection comes in. -/
def lateReplyEvents : List (Event 3 ℕ) :=
  returnEvents ++ [.checkConsistency 0 2, .checkConsistency 0 2, .handle 0, .handle 1, .process 0,
    .compact 0 1 [1], .checkConsistency 0 2, .checkConsistency 0 2, .handle 1, .notify 1, .handle 2,
    .process 2, .checkConsistency 0 2, .handle 2, .process 2, .process 0]

/-- Without the condition, `matchIndex` goes back: the late reply to the snapshot is processed. -/
theorem matchIndex_decreases : ∃ σ', Run Always
      (σ' :: (replay Always lateReplyEvents).1 :: (replay Always lateReplyEvents).2) ∧
    ((replay Always lateReplyEvents).1.peers 0).state = .leader ∧
    (σ'.peers 0).state = .leader ∧
    ((replay Always lateReplyEvents).1.peers 0).currentTerm = 3 ∧ (σ'.peers 0).currentTerm = 3 ∧
    ((replay Always lateReplyEvents).1.peers 0).matchIndex 2 = 2 ∧
    (σ'.peers 0).matchIndex 2 = 1 := by
  have hstep : ∃ σ' ∈ ((replay Always lateReplyEvents).1.step (.process 0)).toOption,
      ((replay Always lateReplyEvents).1.peers 0).state = .leader ∧
      (σ'.peers 0).state = .leader ∧
      ((replay Always lateReplyEvents).1.peers 0).currentTerm = 3 ∧
      (σ'.peers 0).currentTerm = 3 ∧
      ((replay Always lateReplyEvents).1.peers 0).matchIndex 2 = 2 ∧
      (σ'.peers 0).matchIndex 2 = 1 := by
    decide +kernel
  obtain ⟨σ', hmem, hstates⟩ := hstep
  exact ⟨σ', (run_replay Always lateReplyEvents).step
    ⟨trivial, eq_ok_of_mem_toOption hmem⟩, hstates⟩

end RaftKVDB
