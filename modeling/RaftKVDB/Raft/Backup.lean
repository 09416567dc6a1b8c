import RaftKVDB.Foundations.Rounds
import RaftKVDB.Raft.SimulationRun

/-!
# Backing up

A leader whose request does not match moves `nextIndex` by what the follower answers and tries
again. This file says when that comes to an end, if nothing else happens: the rounds of one leader
and one peer are `checkConsistency`, the handler at the peer and the processor at the leader.

Below the follower's snapshot the answer is the end of its log, so the leader goes up again. That is
where the search can go in circles: the scan for the head of a run of one term may stop on the dummy
entry, and then the next index is below the snapshot. The condition `CanBackUp` is exact.

## Main results

* `fast_backup` — the follower accepts after finitely many rounds iff `CanBackUp`
-/

namespace RaftKVDB

open Foundations

variable {n : ℕ} {α : Type*}

/-! ### Rounds -/

namespace Cluster

/-- Whether the handler of the call at position `k` has a snapshot to send to the application. -/
def notifying (σ : Cluster n α) (k : ℕ) : Bool :=
  match σ.calls[k]? with
  | some ⟨_, _, _, .notifying _ _ _⟩ => true
  | _ => false

/-- The first half of a round: `p` calls `peer`, and the handler there runs to its end. -/
def deliver (σ : Cluster n α) (p peer : Fin n) : Except Fault (Cluster n α) := do
  let k := σ.calls.length
  let σ ← σ.step (.checkConsistency p peer)
  let σ ← σ.step (.handle k)
  if σ.notifying k then σ.step (.notify k) else return σ

/-- A round: after the handler, `p` processes the reply. -/
def round (p peer : Fin n) (σ : Cluster n α) : Except Fault (Cluster n α) := do
  let σ' ← σ.deliver p peer
  σ'.step (.process σ.calls.length)

/-- The call at position `k` is an append request that was accepted. -/
def accepted (σ : Cluster n α) (k : ℕ) : Prop :=
  ∃ c ∈ σ.calls[k]?, ∃ x ∈ c.body.appendReply, x.2.success = true

/-- The next round delivers a request that `peer` accepts, and then it has all of the log of `p`
above its snapshot. -/
def CatchesUp (p peer : Fin n) (σ : Cluster n α) : Prop :=
  ∃ σ', σ.deliver p peer = .ok σ' ∧ σ'.accepted σ.calls.length ∧
    ∀ i e, (σ'.peers peer).snapshotIndex < i → (σ'.peers p).Holds i e → (σ'.peers peer).Holds i e

end Cluster

/-! ### The condition -/

namespace Raft

/-- The log of `r` has at `i` the term that the leader `l` would claim for `i`. -/
def Agrees (l r : Raft n α) (i : ℕ) : Prop :=
  l.snapshotIndex ≤ i ∧ r.snapshotIndex ≤ i ∧ i ≤ r.lastIndex ∧
    (r.entryAt i).map LogEntry.term = (l.entryAt (min i l.lastIndex)).map LogEntry.term

/-- No entry of the same term follows. -/
def RunEnd (r : Raft n α) (i : ℕ) : Prop :=
  i = r.lastIndex ∨ (r.entryAt (i + 1)).map LogEntry.term ≠ (r.entryAt i).map LogEntry.term

/-- When the leader `l` will find where the log of `server`, which is in the state `r`, agrees with
its own. If the follower's snapshot is the later one, it has to find the place where it looks now,
or at the end of a run of one term. Else its snapshot has to be installed or to agree. -/
def CanBackUp (l r : Raft n α) (server : Fin n) : Prop :=
  if l.snapshotIndex < r.snapshotIndex then
    l.Agrees r (l.nextIndex server - 1) ∨ ∃ i ≤ r.lastIndex, r.RunEnd i ∧ l.Agrees r i
  else
    r.snapshotIndex < l.snapshotIndex ∧ r.commitIndex < l.snapshotIndex ∨
      l.Agrees r l.snapshotIndex

instance (l r : Raft n α) (i : ℕ) : Decidable (l.Agrees r i) :=
  inferInstanceAs (Decidable (_ ∧ _ ∧ _ ∧ _))

instance (r : Raft n α) (i : ℕ) : Decidable (r.RunEnd i) :=
  inferInstanceAs (Decidable (_ ∨ _))

instance (l r : Raft n α) (server : Fin n) : Decidable (l.CanBackUp r server) :=
  inferInstanceAs (Decidable (if l.snapshotIndex < r.snapshotIndex then
    l.Agrees r (l.nextIndex server - 1) ∨ ∃ i ≤ r.lastIndex, r.RunEnd i ∧ l.Agrees r i
  else
    r.snapshotIndex < l.snapshotIndex ∧ r.commitIndex < l.snapshotIndex ∨
      l.Agrees r l.snapshotIndex))

variable {l r l' r' : Raft n α} {G H : List (LogEntry α)} {i : ℕ}

theorem agrees_iff (hl : l.Represents H) (hr : r.Represents G) : l.Agrees r i ↔
    l.snapshotIndex ≤ i ∧ r.snapshotIndex ≤ i ∧ i ≤ G.length ∧
      termAt G i = termAt H (min i H.length) := by
  have hsnap := hl.snapshotIndex_le
  rw [Agrees, hr.lastIndex_eq, hl.lastIndex_eq]
  refine and_congr_right fun hS => and_congr_right fun hs => and_congr_right fun _ => ?_
  rw [hr.term_entryAt hs, hl.term_entryAt (by omega)]

end Raft

/-! ### What a round does -/

namespace Cluster

variable {σ : Cluster n α} {p peer : Fin n} {rf rf' : Raft n α}

/-- The state after the handler: `peer` changed, and the call of `p` is answered. -/
def answered (σ : Cluster n α) (p peer : Fin n) (rf : Raft n α) (body : Body n α) : Cluster n α :=
  { σ.setPeer peer rf with calls := σ.calls ++ [⟨p, σ.epoch p, peer, body⟩] }

theorem deliver_appendEntries (hne : p ≠ peer) {args : AppendEntriesArgs n α}
    {reply : AppendEntriesReply}
    (hreq : (σ.peers p).checkConsistency peer = some (some (.appendEntries args)))
    (hrun : (σ.peers peer).appendEntries args = some (rf, reply)) :
    σ.deliver p peer = .ok (σ.answered p peer rf (.appendEntries args (some reply))) := by
  simp [deliver, step, hne, hreq, hrun, orPanic, sendRequest, addCall, onCall, handle, setBody,
    notifying, setPeer, answered, bind, Except.bind, pure, Except.pure]

theorem round_appendEntries (hne : p ≠ peer) {args : AppendEntriesArgs n α}
    {reply : AppendEntriesReply}
    (hdel : σ.deliver p peer = .ok (σ.answered p peer rf (.appendEntries args (some reply))))
    (hproc : (σ.peers p).sendAppendEntriesAndProcess args peer reply = some rf') :
    σ.round p peer = .ok ((σ.setPeer peer rf).setPeer p rf') := by
  simp [round, hdel, step, answered, onCall, process, hproc, hne, setPeer, endCall, orPanic, bind,
    Except.bind, List.eraseIdx_append_of_length_le]

theorem deliver_installSnapShot (hne : p ≠ peer) {args : InstallSnapshotArgs n}
    {reply : InstallSnapshotReply} {installed : Bool}
    (hreq : (σ.peers p).checkConsistency peer = some (some (.installSnapShot args)))
    (hrun : (σ.peers peer).installSnapShot args = some (rf, reply, installed)) :
    σ.deliver p peer = .ok (σ.answered p peer
      (if installed then rf.notifyAppUseNewSnapShot args.snapshot else rf)
      (.installSnapShot args (some reply))) := by
  cases installed <;>
    simp [deliver, step, hne, hreq, hrun, orPanic, sendRequest, addCall, onCall, handle, setBody,
      notify, notifying, setPeer, answered, bind, Except.bind, pure, Except.pure]

theorem round_installSnapShot (hne : p ≠ peer) {args : InstallSnapshotArgs n}
    {reply : InstallSnapshotReply}
    (hdel : σ.deliver p peer = .ok (σ.answered p peer rf (.installSnapShot args (some reply)))) :
    σ.round p peer = .ok ((σ.setPeer peer rf).setPeer p
      ((σ.peers p).sendSnapShotAndProcess args peer reply)) := by
  simp [round, hdel, step, answered, onCall, process, hne, setPeer, endCall, bind, Except.bind,
    List.eraseIdx_append_of_length_le]

theorem accepted_answered {args : AppendEntriesArgs n α} {reply : AppendEntriesReply} :
    (σ.answered p peer rf (.appendEntries args (some reply))).accepted σ.calls.length ↔
      reply.success = true := by
  simp [accepted, answered, Body.appendReply]

theorem not_accepted_installSnapShot {args : InstallSnapshotArgs n}
    {reply : InstallSnapshotReply} :
    ¬(σ.answered p peer rf (.installSnapShot args (some reply))).accepted σ.calls.length := by
  simp [accepted, answered, Body.appendReply]

end Cluster

/-- A leader and a peer that has not gone on to a later term. -/
structure Leading (σ : Cluster n α) (p peer : Fin n) : Prop where
  sim : ∃ a, Sim σ a
  leader : (σ.peers p).state = .leader
  ne : p ≠ peer
  term_le : (σ.peers peer).currentTerm ≤ (σ.peers p).currentTerm

/-- After a round the logs are as before, and the leader's next index is `q`. -/
structure Kept (σ σ' : Cluster n α) (p peer : Fin n) (q : ℕ) : Prop where
  logs : (σ'.peers p).logs = (σ.peers p).logs
  snapshotIndex : (σ'.peers p).snapshotIndex = (σ.peers p).snapshotIndex
  peerLogs : (σ'.peers peer).logs = (σ.peers peer).logs
  peerSnapshotIndex : (σ'.peers peer).snapshotIndex = (σ.peers peer).snapshotIndex
  peerCommitIndex : (σ'.peers peer).commitIndex = (σ.peers peer).commitIndex
  nextIndex : (σ'.peers p).nextIndex peer = q

section Round

variable {σ σ' : Cluster n α} {p peer : Fin n} {q i : ℕ}

theorem Kept.agrees_iff (h : Kept σ σ' p peer q) : (σ'.peers p).Agrees (σ'.peers peer) i ↔
    (σ.peers p).Agrees (σ.peers peer) i := by
  simp only [Raft.Agrees, Raft.entryAt, Raft.lastIndex, Raft.logIdxLocal2Global,
    Raft.logIdxGlobal2Local, h.logs, h.snapshotIndex, h.peerLogs, h.peerSnapshotIndex]

theorem Kept.runEnd_iff (h : Kept σ σ' p peer q) : (σ'.peers peer).RunEnd i ↔
    (σ.peers peer).RunEnd i := by
  simp only [Raft.RunEnd, Raft.entryAt, Raft.lastIndex, Raft.logIdxLocal2Global,
    Raft.logIdxGlobal2Local, h.peerLogs, h.peerSnapshotIndex]

theorem Kept.lastIndex_eq (h : Kept σ σ' p peer q) :
    (σ'.peers peer).lastIndex = (σ.peers peer).lastIndex := by
  simp only [Raft.lastIndex, Raft.logIdxLocal2Global, h.peerLogs, h.peerSnapshotIndex]

theorem exists_sim_step {e : Event n α} (h : ∃ a, Sim σ a) (hstep : σ.step e = .ok σ') :
    ∃ a, Sim σ' a := by
  obtain ⟨a, ha⟩ := h
  obtain ⟨b, -, -, hb⟩ := ha.step hstep
  exact ⟨_, hb⟩

theorem exists_sim_round (h : ∃ a, Sim σ a) (hround : σ.round p peer = .ok σ') :
    ∃ a, Sim σ' a := by
  obtain ⟨σ₃, hdel, hproc⟩ := bind_eq_ok.mp hround
  obtain ⟨σ₁, hreq, hdel⟩ := bind_eq_ok.mp hdel
  obtain ⟨σ₂, hhandle, hnotify⟩ := bind_eq_ok.mp hdel
  refine exists_sim_step ?_ hproc
  split at hnotify
  · exact exists_sim_step (exists_sim_step (exists_sim_step h hreq) hhandle) hnotify
  · obtain rfl := Except.ok.inj hnotify
    exact exists_sim_step (exists_sim_step h hreq) hhandle

/-- Two sound logs agree as far as a claim that holds goes. -/
theorem take_eq_of_claim {T : ℕ → List (LogEntry α)} {G H : List (LogEntry α)} (hG : Sound T G)
    (hH : Sound T H) (hi : i ≤ G.length) (hterm : termAt G i = termAt H (min i H.length)) :
    G.take (min i H.length) = H.take (min i H.length) := by
  obtain ⟨t, ht⟩ := exists_termAt hi
  have ht' : termAt H (min i H.length) = some t := hterm ▸ ht
  have hpre := hG i t ht
  have hpre' := hH _ t ht'
  have hlen : (G.take i).length = i := by simp [hi]
  have hlen' : (H.take (min i H.length)).length = min i H.length := by simp
  calc G.take (min i H.length)
      = (G.take i).take (min i H.length) := by
        rw [List.take_take, Nat.min_eq_left (Nat.min_le_left i _)]
    _ = (T t).take (min i H.length) := take_eq_of_isPrefix hpre (by omega)
    _ = (H.take (min i H.length)).take (min i H.length) :=
        (take_eq_of_isPrefix hpre' (by omega)).symm
    _ = H.take (min i H.length) := by rw [List.take_take, Nat.min_self]

/-- A log that accepts the leader's request has all of the leader's log then. -/
theorem prefix_splice {T : ℕ → List (LogEntry α)} {G H : List (LogEntry α)} (hG : Sound T G)
    (hH : Sound T H) (hi : i ≤ G.length) (hterm : termAt G i = termAt H (min i H.length)) :
    H <+: Raft.splice G i (H.drop i) := by
  rcases Nat.le_total i H.length with hle | hge
  · rw [Nat.min_eq_left hle] at hterm
    obtain ⟨t, ht⟩ := exists_termAt hi
    have hcopy := (Raft.splice_eq hG hH (Nat.le_refl _) hle ht (hterm ▸ ht)).1
    rwa [List.take_length] at hcopy
  · have htake := take_eq_of_claim hG hH hi hterm
    rw [Nat.min_eq_right hge, List.take_length] at htake
    rw [List.drop_eq_nil_of_le hge, Raft.splice_nil, ← htake]
    exact List.take_prefix _ _

/-- **A round with an append request.** Where the logs agree, the follower accepts. Elsewhere it
answers with the index after its log, or with the head of the run it has there. -/
theorem Leading.append (h : Leading σ p peer)
    (hnext : (σ.peers p).snapshotIndex < (σ.peers p).nextIndex peer) :
    (σ.peers p).Agrees (σ.peers peer) ((σ.peers p).nextIndex peer - 1) ∧ σ.CatchesUp p peer ∨
    ¬(σ.peers p).Agrees (σ.peers peer) ((σ.peers p).nextIndex peer - 1) ∧ ¬σ.CatchesUp p peer ∧
      ∃ σ' ci, σ.round p peer = .ok σ' ∧ Leading σ' p peer ∧ Kept σ σ' p peer (max 1 ci) ∧
        (((σ.peers p).nextIndex peer - 1 < (σ.peers peer).snapshotIndex ∨
            (σ.peers peer).lastIndex < (σ.peers p).nextIndex peer - 1) ∧
          ci = (σ.peers peer).lastIndex + 1 ∨
        (σ.peers peer).snapshotIndex ≤ ci ∧ ci ≤ (σ.peers p).nextIndex peer - 1 ∧
          (σ.peers p).nextIndex peer - 1 ≤ (σ.peers peer).lastIndex ∧ ∃ t,
          (∀ k, ci ≤ k → k ≤ (σ.peers p).nextIndex peer - 1 →
            ((σ.peers peer).entryAt k).map LogEntry.term = some t) ∧
          (ci = (σ.peers peer).snapshotIndex ∨
            ((σ.peers peer).entryAt (ci - 1)).map LogEntry.term ≠ some t)) := by
  obtain ⟨a, ha⟩ := h.sim
  have hl := (ha.peer p).log
  have hr := (ha.peer peer).log
  obtain ⟨hle, -⟩ | ⟨-, pt, hterm, hreq⟩ := hl.checkConsistency h.leader peer
  · omega
  generalize hprev : (σ.peers p).nextIndex peer - 1 = prev at hterm hreq ⊢
  have hgt : (σ.peers p).snapshotIndex ≤ prev := by omega
  have hcur := Raft.followLeader_currentTerm h.term_le
  rw [Raft.agrees_iff hl hr, hr.lastIndex_eq, hterm]
  obtain ⟨st, ci, hrun, -, hcases⟩ | ⟨hs, ht, logs, st, cc, hrun, -⟩ :=
    hr.appendEntries (ha.persisted peer) ⟨(σ.peers p).currentTerm, (σ.peers p).me, prev, pt,
      (a.log p).drop prev, (σ.peers p).commitIndex⟩ h.term_le
  · dsimp only at hcases
    have hdel := Cluster.deliver_appendEntries h.ne hreq hrun
    have hproc : (σ.peers p).sendAppendEntriesAndProcess ⟨(σ.peers p).currentTerm, (σ.peers p).me,
        prev, pt, (a.log p).drop prev, (σ.peers p).commitIndex⟩ peer
        ⟨(σ.peers p).currentTerm, false, ci⟩ = some { σ.peers p with
          nextIndex := Function.update (σ.peers p).nextIndex peer (max 1 ci) } := by
      simp [Raft.sendAppendEntriesAndProcess, h.leader]
    have hround := Cluster.round_appendEntries h.ne hdel hproc
    refine .inr ⟨?_, ?_, _, ci, hround, ⟨exists_sim_round h.sim hround, ?_, h.ne, ?_⟩, ?_, ?_⟩
    · rintro ⟨-, hs, hlen, heq⟩
      rcases hcases with ⟨hout, -⟩ | ⟨-, hci, t, hne, hrunof, -⟩
      · omega
      · exact hne (Option.some.inj ((hrunof prev hci (Nat.le_refl _)).symm.trans heq))
    · rintro ⟨σ', hdel', hacc, -⟩
      obtain rfl := Except.ok.inj (hdel.symm.trans hdel')
      cases Cluster.accepted_answered.mp hacc
    · simp [Cluster.setPeer, h.leader]
    · simp [Cluster.setPeer, h.ne.symm, hcur]
    · constructor <;> simp [Cluster.setPeer, h.ne.symm]
    · refine hcases.imp_right ?_
      rintro ⟨hsci, hci, t, -, hrunof, hhead⟩
      refine ⟨hsci, hci, le_length_of_termAt (hrunof prev hci (Nat.le_refl _)), t, ?_, ?_⟩
      · intro k hk hkp
        rw [hr.term_entryAt (by omega), hrunof k hk hkp]
      · by_cases heq : ci = (σ.peers peer).snapshotIndex
        · exact .inl heq
        · rw [hr.term_entryAt (by omega)]
          exact hhead
  · have hdel := Cluster.deliver_appendEntries h.ne hreq hrun
    have hpre := prefix_splice (ha.inv.sound_log peer) (ha.inv.sound_log p) (le_length_of_termAt ht)
      (ht.trans hterm.symm)
    refine .inl ⟨⟨hgt, hs, le_length_of_termAt ht, ht⟩, _, hdel, Cluster.accepted_answered.mpr rfl,
      ?_⟩
    intro i e hi he
    simp only [Cluster.answered, Cluster.setPeer, Function.update_self, Function.update_of_ne h.ne]
      at hi he ⊢
    have hrep' := (hr.accepted (ha.persisted peer) hrun rfl).2
    have hget := (hl.holds_iff.mp he).2
    refine hrep'.holds_iff.mpr ⟨hi, ?_⟩
    rw [← getElem?_of_isPrefix hpre (List.getElem?_eq_some_iff.mp hget).1, hget]

/-- **A round with a snapshot request** leaves the leader at its snapshot. The follower ignores the
snapshot, or installs it and agrees with the leader there. -/
theorem Leading.snapshot (h : Leading σ p peer)
    (hnext : (σ.peers p).nextIndex peer ≤ (σ.peers p).snapshotIndex) :
    ¬σ.CatchesUp p peer ∧ ∃ σ', σ.round p peer = .ok σ' ∧ Leading σ' p peer ∧
      (((σ.peers p).snapshotIndex ≤ (σ.peers peer).snapshotIndex ∨
          (σ.peers p).snapshotIndex ≤ (σ.peers peer).commitIndex) ∧
        Kept σ σ' p peer ((σ.peers p).snapshotIndex + 1) ∨
      (σ.peers peer).snapshotIndex < (σ.peers p).snapshotIndex ∧
        (σ.peers peer).commitIndex < (σ.peers p).snapshotIndex ∧
        (σ'.peers p).nextIndex peer = (σ'.peers p).snapshotIndex + 1 ∧
        (σ'.peers p).Agrees (σ'.peers peer) (σ'.peers p).snapshotIndex) := by
  obtain ⟨a, ha⟩ := h.sim
  have hl := (ha.peer p).log
  have hr := (ha.peer peer).log
  obtain ⟨-, dt, hterm, hreq⟩ | ⟨hgt, -⟩ := hl.checkConsistency h.leader peer
  swap
  · omega
  have hcur := Raft.followLeader_currentTerm h.term_le
  have hproc : (σ.peers p).sendSnapShotAndProcess ⟨(σ.peers p).currentTerm, (σ.peers p).me,
      (σ.peers p).snapshotIndex, dt, (σ.peers p).persister.snapshot⟩ peer
      ⟨(σ.peers p).currentTerm⟩ = { σ.peers p with
        nextIndex := Function.update (σ.peers p).nextIndex peer ((σ.peers p).snapshotIndex + 1)
        matchIndex := Function.update (σ.peers p).matchIndex peer (σ.peers p).snapshotIndex } := by
    simp [Raft.sendSnapShotAndProcess, h.leader, hnext]
  obtain ⟨hold, st, hrun, -⟩ | ⟨hs, hcf, logs, st, hrun, -, hcases⟩ :=
    hr.installSnapShot (ha.persisted peer) ⟨(σ.peers p).currentTerm, (σ.peers p).me,
      (σ.peers p).snapshotIndex, dt, (σ.peers p).persister.snapshot⟩ h.term_le
  · have hdel := Cluster.deliver_installSnapShot h.ne hreq hrun
    have hround := Cluster.round_installSnapShot h.ne hdel
    rw [hproc] at hround
    refine ⟨?_, _, hround, ⟨exists_sim_round h.sim hround, ?_, h.ne, ?_⟩, .inl ⟨hold, ?_⟩⟩
    · rintro ⟨σ', hdel', hacc, -⟩
      obtain rfl := Except.ok.inj (hdel.symm.trans hdel')
      exact Cluster.not_accepted_installSnapShot hacc
    · simp [Cluster.setPeer, h.leader]
    · simp [Cluster.setPeer, h.ne.symm, hcur]
    · constructor <;> simp [Cluster.setPeer, h.ne.symm]
  · have hdel := Cluster.deliver_installSnapShot h.ne hreq hrun
    have hround := Cluster.round_installSnapShot h.ne hdel
    rw [hproc] at hround
    -- The new log begins with an entry of the leader's term at the leader's snapshot index.
    have hnew : ∃ G, Raft.RepresentsFrom (σ.peers p).snapshotIndex logs G ∧
        termAt G (σ.peers p).snapshotIndex = some dt := by
      rcases hcases with ⟨ht, hrep⟩ | ⟨-, rfl⟩
      · exact ⟨_, hrep, ht⟩
      · refine ⟨_, Raft.RepresentsFrom.dummy hterm, ?_⟩
        rw [termAt_take (Nat.le_refl _), hterm]
    obtain ⟨G, hrep, hG⟩ := hnew
    refine ⟨?_, _, hround, ⟨exists_sim_round h.sim hround, ?_, h.ne, ?_⟩,
      .inr ⟨hs, hcf, ?_, ?_⟩⟩
    · rintro ⟨σ', hdel', hacc, -⟩
      obtain rfl := Except.ok.inj (hdel.symm.trans hdel')
      exact Cluster.not_accepted_installSnapShot hacc
    · simp [Cluster.setPeer, h.leader]
    · simp [Cluster.setPeer, h.ne.symm, hcur]
    · simp [Cluster.setPeer]
    · simp only [Cluster.setPeer, Function.update_self, Function.update_of_ne h.ne.symm]
      refine (Raft.agrees_iff hl (G := G) ?_).mpr ⟨Nat.le_refl _, ?_, le_length_of_termAt hG, ?_⟩
      · simpa [Raft.Represents] using hrep
      · simp
      · simp [hG, Nat.min_eq_left hl.snapshotIndex_le, hterm]

end Round

/-! ### What the search needs -/

section Needs

variable {σ σ' : Cluster n α} {p peer : Fin n} {q i : ℕ}

/-- After finitely many rounds the follower accepts and has all of the leader's log above its
snapshot. -/
def BacksUp (σ : Cluster n α) (p peer : Fin n) : Prop :=
  ∃ N σ', rounds (Cluster.round p peer) N σ = .ok σ' ∧ σ'.CatchesUp p peer

/-- Logs that agree somewhere agree at the leader's snapshot, if the follower still has it. -/
theorem Leading.agrees_snapshot (h : Leading σ p peer)
    (hle : (σ.peers peer).snapshotIndex ≤ (σ.peers p).snapshotIndex)
    (hag : (σ.peers p).Agrees (σ.peers peer) i) :
    (σ.peers p).Agrees (σ.peers peer) (σ.peers p).snapshotIndex := by
  obtain ⟨a, ha⟩ := h.sim
  have hl := (ha.peer p).log
  have hr := (ha.peer peer).log
  rw [Raft.agrees_iff hl hr] at hag ⊢
  obtain ⟨hS, -, hi, hterm⟩ := hag
  have htake := take_eq_of_claim (ha.inv.sound_log peer) (ha.inv.sound_log p) hi hterm
  have hsnap := hl.snapshotIndex_le
  refine ⟨Nat.le_refl _, hle, by omega, ?_⟩
  rw [Nat.min_eq_left hsnap]
  exact termAt_congr htake (by omega)

theorem Leading.canBackUp_of_agrees (h : Leading σ p peer)
    (hag : (σ.peers p).Agrees (σ.peers peer) ((σ.peers p).nextIndex peer - 1)) :
    (σ.peers p).CanBackUp (σ.peers peer) peer := by
  rw [Raft.CanBackUp]
  split
  · exact .inl hag
  · exact .inr (h.agrees_snapshot (by omega) hag)

/-- A round that keeps the logs brings the follower no closer. -/
theorem Kept.canBackUp (h : Kept σ σ' p peer q)
    (hq : (σ.peers p).snapshotIndex < (σ.peers peer).snapshotIndex →
      (σ.peers p).Agrees (σ.peers peer) (q - 1) → (σ.peers peer).RunEnd (q - 1))
    (hcan : (σ'.peers p).CanBackUp (σ'.peers peer) peer) :
    (σ.peers p).CanBackUp (σ.peers peer) peer := by
  simp only [Raft.CanBackUp, h.snapshotIndex, h.peerSnapshotIndex, h.peerCommitIndex, h.nextIndex,
    h.agrees_iff, h.runEnd_iff, h.lastIndex_eq] at hcan ⊢
  split at hcan
  · next hlt =>
    rw [if_pos hlt]
    rcases hcan with hag | hend
    · exact .inr ⟨q - 1, hag.2.2.1, hq hlt hag, hag⟩
    · exact .inr hend
  · next hge =>
    rw [if_neg hge]
    exact hcan

/-- **The condition is necessary.** -/
theorem Leading.canBackUp (h : Leading σ p peer) (hback : BacksUp σ p peer) :
    (σ.peers p).CanBackUp (σ.peers peer) peer := by
  refine of_exists_rounds (I := fun σ => Leading σ p peer)
    (Q := fun σ => (σ.peers p).CanBackUp (σ.peers peer) peer) ?_ ?_ h hback
  · intro σ σ' h hround
    rcases Nat.lt_or_ge (σ.peers p).snapshotIndex ((σ.peers p).nextIndex peer) with hlt | hle
    · obtain ⟨hag, -⟩ | ⟨-, -, σ₁, ci, hround₁, hlead, hkept, hci⟩ := h.append hlt
      · exact .inl (h.canBackUp_of_agrees hag)
      obtain rfl := Except.ok.inj (hround₁.symm.trans hround)
      refine .inr ⟨hlead, hkept.canBackUp fun hs hag => ?_⟩
      have hsnap := hag.2.1
      rcases hci with ⟨-, rfl⟩ | ⟨hsci, hci, -, t, hrun, hhead⟩
      · exact .inl (by omega)
      · have hone : max 1 ci = ci := by omega
        rw [hone] at hsnap ⊢
        right
        rw [Nat.sub_add_cancel (by omega), hrun ci (Nat.le_refl _) hci]
        exact (hhead.resolve_left (by omega)).symm
    · obtain ⟨-, σ₁, hround₁, hlead, ⟨-, hkept⟩ | ⟨hs, hcf, -⟩⟩ := h.snapshot hle
      · obtain rfl := Except.ok.inj (hround₁.symm.trans hround)
        refine .inr ⟨hlead, hkept.canBackUp fun hs hag => ?_⟩
        have hsnap := hag.2.1
        omega
      · left
        rw [Raft.CanBackUp]
        rw [if_neg (by omega)]
        exact .inl ⟨hs, hcf⟩
  · intro σ h hcatch
    rcases Nat.lt_or_ge (σ.peers p).snapshotIndex ((σ.peers p).nextIndex peer) with hlt | hle
    · obtain ⟨hag, -⟩ | ⟨-, hno, -⟩ := h.append hlt
      · exact h.canBackUp_of_agrees hag
      · exact absurd hcatch hno
    · exact absurd hcatch (h.snapshot hle).1

end Needs

/-! ### How the search ends -/

section Ends

variable {σ σ' : Cluster n α} {p peer : Fin n} {q i : ℕ}

theorem BacksUp.of_round (hround : σ.round p peer = .ok σ') (h : BacksUp σ' p peer) :
    BacksUp σ p peer :=
  exists_rounds_of_next hround h

theorem Leading.backsUp_of_agrees (h : Leading σ p peer)
    (hnext : (σ.peers p).snapshotIndex < (σ.peers p).nextIndex peer)
    (hag : (σ.peers p).Agrees (σ.peers peer) ((σ.peers p).nextIndex peer - 1)) :
    BacksUp σ p peer := by
  obtain ⟨-, hcatch⟩ | ⟨hno, -⟩ := h.append hnext
  · exact ⟨0, σ, rfl, hcatch⟩
  · exact absurd hag hno

/-- **When the leader's snapshot is not behind**, `nextIndex` goes down until the logs agree or the
snapshot is sent. -/
theorem Leading.backsUp_of_snapshot_le (h : Leading σ p peer)
    (hle : (σ.peers peer).snapshotIndex ≤ (σ.peers p).snapshotIndex)
    (hcan : (σ.peers peer).snapshotIndex < (σ.peers p).snapshotIndex ∧
        (σ.peers peer).commitIndex < (σ.peers p).snapshotIndex ∨
      (σ.peers p).Agrees (σ.peers peer) (σ.peers p).snapshotIndex) : BacksUp σ p peer := by
  induction hk : (σ.peers p).nextIndex peer using Nat.strong_induction_on generalizing σ with
  | _ k ih =>
  subst hk
  rcases Nat.lt_or_ge (σ.peers p).snapshotIndex ((σ.peers p).nextIndex peer) with hlt | hge
  · obtain ⟨hag, -⟩ | ⟨hno, -, σ', ci, hround, hlead, hkept, hci⟩ := h.append hlt
    · exact h.backsUp_of_agrees hlt hag
    refine .of_round hround (ih _ ?_ hlead ?_ ?_ hkept.nextIndex)
    · -- Only from index 0 would it not go down, and there all logs agree.
      have hpos : (σ.peers p).nextIndex peer ≠ 1 := by
        intro hone
        obtain ⟨a, ha⟩ := h.sim
        rw [hone, Raft.agrees_iff (ha.peer p).log (ha.peer peer).log] at hno
        exact hno ⟨by omega, by omega, Nat.zero_le _, by simp⟩
      omega
    · rwa [hkept.snapshotIndex, hkept.peerSnapshotIndex]
    · rwa [hkept.snapshotIndex, hkept.peerSnapshotIndex, hkept.peerCommitIndex, hkept.agrees_iff]
  · obtain ⟨-, σ', hround, hlead, ⟨hold, hkept⟩ | ⟨-, -, hnext, hag⟩⟩ := h.snapshot hge
    · have hag := hcan.resolve_left (by omega)
      refine .of_round hround (hlead.backsUp_of_agrees ?_ ?_)
      · rw [hkept.snapshotIndex, hkept.nextIndex]
        exact Nat.lt_succ_self _
      · rwa [hkept.nextIndex, hkept.agrees_iff]
    · refine .of_round hround (hlead.backsUp_of_agrees (by omega) ?_)
      rwa [hnext]

/-- The follower's snapshot is the later one, and the logs agree at `i`, the end of a run. -/
structure Target (σ : Cluster n α) (p peer : Fin n) (i : ℕ) : Prop extends Leading σ p peer where
  lt : (σ.peers p).snapshotIndex < (σ.peers peer).snapshotIndex
  runEnd : (σ.peers peer).RunEnd i
  agrees : (σ.peers p).Agrees (σ.peers peer) i

theorem Target.kept (h : Target σ p peer i) (hlead : Leading σ' p peer)
    (hkept : Kept σ σ' p peer q) : Target σ' p peer i where
  toLeading := hlead
  lt := by rw [hkept.snapshotIndex, hkept.peerSnapshotIndex]; exact h.lt
  runEnd := hkept.runEnd_iff.mpr h.runEnd
  agrees := hkept.agrees_iff.mpr h.agrees

/-- From above the target it is reached, or another place where the logs agree. -/
theorem Target.backsUp_of_lt (h : Target σ p peer i) (hi : i < (σ.peers p).nextIndex peer)
    (hm : (σ.peers p).nextIndex peer ≤ (σ.peers peer).lastIndex + 1) : BacksUp σ p peer := by
  induction hk : (σ.peers p).nextIndex peer using Nat.strong_induction_on generalizing σ with
  | _ k ih =>
  subst hk
  have hs := h.agrees.2.1
  have hlt := h.lt
  obtain ⟨hag, -⟩ | ⟨hno, -, σ', ci, hround, hlead, hkept, hci⟩ := h.append (by omega)
  · exact h.backsUp_of_agrees (by omega) hag
  rcases hci with ⟨hout, -⟩ | ⟨-, hci, hprev, t, hrun, -⟩
  · omega
  -- The target is the end of an earlier run, so the head of this one is above it.
  have hlow : i < ci := by
    by_contra hge
    have hne : i ≠ (σ.peers p).nextIndex peer - 1 := fun heq => hno (heq ▸ h.agrees)
    rcases h.runEnd with heq | hterm
    · omega
    · exact hterm ((hrun (i + 1) (by omega) (by omega)).trans
        (hrun i (by omega) (by omega)).symm)
  have hone : max 1 ci = ci := by omega
  rw [hone] at hkept
  refine .of_round hround (ih ci (by omega) (h.kept hlead hkept) ?_ ?_ hkept.nextIndex)
  · rwa [hkept.nextIndex]
  · rw [hkept.nextIndex, hkept.lastIndex_eq]
    omega

/-- From below the follower's snapshot, or from beyond its log, the leader goes to its end. -/
theorem Target.backsUp_of_out (h : Target σ p peer i)
    (hnext : (σ.peers p).snapshotIndex < (σ.peers p).nextIndex peer)
    (hout : (σ.peers p).nextIndex peer ≤ (σ.peers peer).snapshotIndex ∨
      (σ.peers peer).lastIndex + 1 < (σ.peers p).nextIndex peer) : BacksUp σ p peer := by
  have him := h.agrees.2.2.1
  obtain ⟨hag, -⟩ | ⟨-, -, σ', ci, hround, hlead, hkept, hci⟩ := h.append hnext
  · exact h.backsUp_of_agrees hnext hag
  rcases hci with ⟨-, rfl⟩ | ⟨hsci, hci, hprev, -⟩
  · refine .of_round hround ((h.kept hlead hkept).backsUp_of_lt ?_ ?_)
    · rw [hkept.nextIndex]
      omega
    · rw [hkept.nextIndex, hkept.lastIndex_eq]
      omega
  · omega

/-- From below the target the leader first goes down to the snapshot. -/
theorem Target.backsUp_of_le (h : Target σ p peer i)
    (hnext : (σ.peers p).snapshotIndex < (σ.peers p).nextIndex peer)
    (hi : (σ.peers p).nextIndex peer ≤ i) : BacksUp σ p peer := by
  induction hk : (σ.peers p).nextIndex peer using Nat.strong_induction_on generalizing σ with
  | _ k ih =>
  subst hk
  have hlt := h.lt
  have him := h.agrees.2.2.1
  rcases Nat.lt_or_ge (σ.peers peer).snapshotIndex ((σ.peers p).nextIndex peer) with hs | hs
  swap
  · exact h.backsUp_of_out hnext (.inl hs)
  obtain ⟨hag, -⟩ | ⟨-, -, σ', ci, hround, hlead, hkept, hci⟩ := h.append hnext
  · exact h.backsUp_of_agrees hnext hag
  rcases hci with ⟨hout, -⟩ | ⟨hsci, hci, -⟩
  · omega
  have hone : max 1 ci = ci := by omega
  rw [hone] at hkept
  refine .of_round hround (ih ci (by omega) (h.kept hlead hkept) ?_ ?_ hkept.nextIndex)
  · rw [hkept.snapshotIndex, hkept.nextIndex]
    omega
  · rw [hkept.nextIndex]
    omega

/-- **When the follower's snapshot is later**, the leader comes to the end of every run. -/
theorem Target.backsUp (h : Target σ p peer i) : BacksUp σ p peer := by
  have hlt := h.lt
  rcases Nat.lt_or_ge (σ.peers p).snapshotIndex ((σ.peers p).nextIndex peer) with hnext | hnext
  · rcases Nat.lt_or_ge i ((σ.peers p).nextIndex peer) with hi | hi
    · rcases Nat.lt_or_ge ((σ.peers peer).lastIndex + 1) ((σ.peers p).nextIndex peer) with hm | hm
      · exact h.backsUp_of_out hnext (.inr hm)
      · exact h.backsUp_of_lt hi hm
    · exact h.backsUp_of_le hnext hi
  · obtain ⟨-, σ', hround, hlead, ⟨-, hkept⟩ | ⟨hs, -⟩⟩ := h.snapshot hnext
    · refine .of_round hround ((h.kept hlead hkept).backsUp_of_out ?_ (.inl ?_))
      · rw [hkept.snapshotIndex, hkept.nextIndex]
        exact Nat.lt_succ_self _
      · rw [hkept.nextIndex, hkept.peerSnapshotIndex]
        exact hlt
    · omega

/-- **The condition is sufficient.** -/
theorem Leading.backsUp (h : Leading σ p peer)
    (hcan : (σ.peers p).CanBackUp (σ.peers peer) peer) : BacksUp σ p peer := by
  rw [Raft.CanBackUp] at hcan
  split at hcan
  · next hlt =>
    rcases hcan with hag | ⟨i, -, hend, hag⟩
    · have hs := hag.2.1
      exact h.backsUp_of_agrees (by omega) hag
    · exact Target.backsUp ⟨h, hlt, hend, hag⟩
  · next hge => exact h.backsUp_of_snapshot_le (by omega) hcan

end Ends

/-! ### The result -/

open Cluster

/-- **Fast back-up.** If nothing happens any more but the rounds of a leader with a peer that has
not gone on to a later term, the peer accepts after finitely many of them, and has all of the
leader's log above its snapshot, if and only if `CanBackUp`. -/
theorem fast_backup {σ : Cluster n α} {τ : List (Cluster n α)} {p peer : Fin n}
    (h : Run Always (σ :: τ)) (hs : (σ.peers p).state = .leader) (hne : p ≠ peer)
    (ht : (σ.peers peer).currentTerm ≤ (σ.peers p).currentTerm) :
    BacksUp σ p peer ↔ (σ.peers p).CanBackUp (σ.peers peer) peer := by
  obtain ⟨a, ha, -⟩ := h.history
  have hlead : Leading σ p peer := ⟨⟨a, ha.sim σ rfl⟩, hs, hne, ht⟩
  exact ⟨hlead.canBackUp, hlead.backsUp⟩

/-- Peer `0` of three leads term 1, commits one entry with peer `1` and compacts it, and writes a
second. Peer `1` leads term 2 and writes another second entry, crashes, and leads term 3. -/
def circlingEvents : List (Event 3 ℕ) :=
  [.broadCastVote 0, .handle 0, .process 0, .start 0 (some 7), .checkConsistency 0 1, .handle 1,
    .process 1, .apply 0, .compact 0 1 [1], .start 0 (some 8),
    .broadCastVote 1, .handle 2, .process 2, .start 1 (some 9), .restart 1,
    .broadCastVote 1, .handle 3, .process 3]

/-- There the next leader backs up peer `2`. -/
theorem fast_backup_three : BacksUp (replay Always circlingEvents).1 1 2 :=
  (fast_backup (run_replay Always circlingEvents) (by decide +kernel) (by decide)
    (by decide +kernel)).mpr (by decide +kernel)

/-- But not peer `0`, whose entry conflicts and has the term of the snapshot. -/
theorem backup_circles : ∃ (σ : Cluster 3 ℕ) (τ : List (Cluster 3 ℕ)), Run Always (σ :: τ) ∧
    (σ.peers 1).state = .leader ∧ (σ.peers 0).currentTerm ≤ (σ.peers 1).currentTerm ∧
    ¬BacksUp σ 1 0 := by
  have hrun := run_replay Always circlingEvents
  have hs : ((replay Always circlingEvents).1.peers 1).state = .leader := by decide +kernel
  have ht : ((replay Always circlingEvents).1.peers 0).currentTerm ≤
      ((replay Always circlingEvents).1.peers 1).currentTerm := by decide +kernel
  obtain ⟨a, ha, -⟩ := hrun.history
  refine ⟨_, _, hrun, hs, ht, fun hback => ?_⟩
  have hlead : Leading (replay Always circlingEvents).1 1 0 :=
    ⟨⟨a, ha.sim _ rfl⟩, hs, by decide, ht⟩
  exact absurd (hlead.canBackUp hback) (by decide +kernel)

end RaftKVDB
