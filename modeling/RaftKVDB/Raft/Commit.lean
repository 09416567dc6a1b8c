import RaftKVDB.Foundations.Commitment
import RaftKVDB.Raft.Safety

/-!
# What the peers commit

A leader commits an index once `matchIndex` says that a majority has it, and `matchIndex` is
computed from the request: `PrevLogIndex + len(Entries)`. That is right if the leader's log has, at
`PrevLogIndex`, the entry that the request claims. `checkConsistency` does not see to it: an index
beyond the end of the log goes out with the term of the last entry. So what holds here holds in the
runs in which a leader that processes a success finds its own log to agree with the request.

## The invariant

`Safe` is carried along the simulation of `Raft/Simulation`. It says of a peer that its commit index
and its snapshot index are commit points of its full log, and of a leader that its `matchIndex` is
backed by the history, for the entries of its own term; of a request, that the commit index in it
was the sender's. A snapshot request rejected as stale is still recorded in `matchIndex`, but the
leader has compacted its index, and what a leader has compacted it commits no more.

## Main results

* `Truthful` — the condition on a step
* `Safe` — the invariant
* `Safe.appendEntries`, `Safe.installSnapShot` — the handlers keep it
-/

namespace RaftKVDB

open Foundations Cluster

variable {n : ℕ} {α : Type*}

/-! ### The condition -/

/-- The call that an event processes. -/
def Event.processed : Event n α → Option ℕ
  | .process k => some k
  | _ => none

/-- If this peer is the leader that a successful reply is for, its log holds what the request
claimed about `PrevLogIndex`, unless that is compacted. -/
def Raft.Confirms (rf : Raft n α) (args : AppendEntriesArgs n α) (reply : AppendEntriesReply) :
    Prop :=
  reply.success = true → rf.state = .leader → rf.currentTerm = reply.term →
    args.prevLogIndex < rf.snapshotIndex ∨
      (rf.entryAt args.prevLogIndex).map LogEntry.term = some args.prevLogTerm

instance (rf : Raft n α) (args : AppendEntriesArgs n α) (reply : AppendEntriesReply) :
    Decidable (rf.Confirms args reply) :=
  inferInstanceAs (Decidable (_ → _ → _ → _ ∨ _))

/-- The condition on a step: a leader that processes a success finds its log to agree with the
request. -/
def Truthful (σ : Cluster n α) (e : Event n α) : Prop :=
  ∀ k ∈ e.processed, ∀ c ∈ σ.calls[k]?, ∀ x ∈ c.body.appendReply,
    (σ.peers c.caller).Confirms x.1 x.2

instance (σ : Cluster n α) (e : Event n α) : Decidable (Truthful σ e) :=
  inferInstanceAs (Decidable (∀ k ∈ e.processed, ∀ c ∈ σ.calls[k]?, ∀ x ∈ c.body.appendReply,
    (σ.peers c.caller).Confirms x.1 x.2))

/-! ### The invariant -/

/-- A message to the application carries a committed command. -/
def CommittedMsg (a : Protocol n α) (m : ApplyMsg α) : Prop :=
  0 < m.commandIndex ∧ ∃ t k e, a.Committed t k ∧ m.commandIndex ≤ k ∧
    (a.tlog t)[m.commandIndex - 1]? = some e ∧ e.command = m.command

/-- What a peer takes for committed is committed. -/
structure PeerSafe (a : Protocol n α) (p : Fin n) (rf : Raft n α) : Prop where
  commit : a.CommitPoint rf.currentTerm (a.log p) rf.commitIndex
  snapshot : a.CommitPoint rf.currentTerm (a.log p) rf.snapshotIndex
  applied : ∀ m ∈ rf.applyCh, m.commandValid = true →
    m.commandIndex ≤ rf.commitIndex ∧ CommittedMsg a m
  compacted : rf.state = .leader →
    rf.snapshotIndex ≤ max rf.commitIndex (a.base rf.currentTerm).length
  matched : rf.state = .leader → ∀ q j, j ≤ rf.matchIndex q →
    termAt (a.tlog rf.currentTerm) j = some rf.currentTerm →
    a.acked q rf.currentTerm j ∨ j ≤ rf.snapshotIndex
  matched_le : rf.state = .leader → ∀ q, rf.matchIndex q ≤ (a.log p).length

/-- The commit index in an append request is covered by a committed entry that the sender's log
had when it was built. -/
def CommitNote (a : Protocol n α) (args : AppendEntriesArgs n α) : Prop :=
  args.leaderCommit = 0 ∨ ∃ t k m, t ≤ args.term ∧ a.Committed t k ∧ args.leaderCommit ≤ k ∧
    k ≤ m ∧ BuiltFrom a args m

/-- A snapshot request of the peer `rf` is about a commit point, which `rf` has compacted. -/
def SnapSafe (a : Protocol n α) (rf : Raft n α) (args : InstallSnapshotArgs n) : Prop :=
  a.CommitPoint args.term (a.tlog args.term) args.lastIncludedIndex ∧
    args.lastIncludedIndex ≤ rf.snapshotIndex

/-- What a call of the peer `rf` says about commitment. -/
def BodySafe (a : Protocol n α) (rf : Raft n α) : Body n α → Prop
  | .requestVote _ _ => True
  | .appendEntries args _ => CommitNote a args
  | .installSnapShot args _ => SnapSafe a rf args
  | .notifying args _ _ => SnapSafe a rf args

/-- Nothing is taken for committed that is not. -/
structure Safe (σ : Cluster n α) (a : Protocol n α) : Prop where
  peer : ∀ p, PeerSafe a p (σ.peers p)
  call : ∀ c ∈ σ.calls, BodySafe a (σ.peers c.caller) c.body

/-! ### What a step keeps -/

section Keep

variable {σ σ' : Cluster n α} {a b : Protocol n α} {p q : Fin n} {rf rf' : Raft n α}

/-- A full log of a peer that is sound is its log in the protocol. -/
theorem Sim.log_eq (h : Sim σ a) {G : List (LogEntry α)} (hG : (σ.peers p).Represents G)
    (hs : Sound a.tlog G) : a.log p = G :=
  (h.peer p).log.unique hG (h.inv.sound_log p) hs

theorem CommittedMsg.extends {m : ApplyMsg α} (h : CommittedMsg a m) (hext : a.Extends b) :
    CommittedMsg b m := by
  obtain ⟨hpos, t, k, e, hc, hm, he, hcmd⟩ := h
  refine ⟨hpos, t, k, e, hc.extends hext, hm, ?_, hcmd⟩
  rw [← getElem?_of_isPrefix (hext.tlog t) (List.getElem?_eq_some_iff.mp he).1, he]

/-- Between `rf` and `rf'` the log and the view of commitment did not change; the term may be a
later one, and a leader is still the leader it was. -/
structure Quiet (rf rf' : Raft n α) : Prop where
  term : rf.currentTerm ≤ rf'.currentTerm
  logs : rf'.logs = rf.logs
  snapshot : rf'.snapshotIndex = rf.snapshotIndex
  commit : rf'.commitIndex = rf.commitIndex
  applied : ∀ m ∈ rf'.applyCh, m.commandValid = true → m ∈ rf.applyCh
  lead : rf'.state = .leader →
    rf.state = .leader ∧ rf'.currentTerm = rf.currentTerm ∧ rf'.matchIndex = rf.matchIndex

theorem Quiet.refl (rf : Raft n α) : Quiet rf rf :=
  ⟨Nat.le_refl _, rfl, rfl, rfl, fun _ h _ => h, fun h => ⟨h, rfl, rfl⟩⟩

theorem Quiet.represents (h : Quiet rf rf') {G : List (LogEntry α)} (hG : rf.Represents G) :
    rf'.Represents G := by
  rw [Raft.Represents]
  rw [h.snapshot, h.logs]
  exact hG

theorem PeerSafe.quiet (h : PeerSafe a p rf) (hp : PeerRel a p rf) (hp' : PeerRel b p rf')
    (hext : a.Extends b) (hlog : b.log p = a.log p) (hq : Quiet rf rf') : PeerSafe b p rf' := by
  refine ⟨?_, ?_, fun m hm hv => ?_, fun hs => ?_, fun hs r j hj ht => ?_, fun hs q => ?_⟩
  · rw [hq.commit, hlog]
    exact h.commit.extends hext hq.term List.prefix_rfl
  · rw [hq.snapshot, hlog]
    exact h.snapshot.extends hext hq.term List.prefix_rfl
  · obtain ⟨hmc, hmsg⟩ := h.applied m (hq.applied m hm hv) hv
    exact ⟨hq.commit ▸ hmc, hmsg.extends hext⟩
  · obtain ⟨hs, ht, -⟩ := hq.lead hs
    rw [hq.snapshot, hq.commit, ht, hext.base _ _ (hp.leader hs).1]
    exact h.compacted hs
  · -- A leader that has not written has the same log of its term.
    have htlog := (hp'.leader hs).2
    obtain ⟨hs, hterm, hmi⟩ := hq.lead hs
    rw [hterm, hlog, (hp.leader hs).2] at htlog
    rw [hterm, ← htlog] at ht
    rw [hmi] at hj
    rw [hterm, hq.snapshot]
    exact (h.matched hs r j hj ht).imp_left (hext.acked _ _ _)
  · obtain ⟨hs, -, hmi⟩ := hq.lead hs
    rw [hmi, hlog]
    exact h.matched_le hs q

/-- A peer that did not act. -/
theorem PeerSafe.frame (hsim : Sim σ a) (hsim' : Sim σ' b) (hext : a.Extends b)
    (hq : σ'.peers q = σ.peers q) (h : PeerSafe a q (σ.peers q)) : PeerSafe b q (σ'.peers q) := by
  have hlog : b.log q = a.log q :=
    hsim'.log_eq (hq ▸ (hsim.peer q).log) ((hsim.inv.sound_log q).mono hext.tlog)
  exact h.quiet (hsim.peer q) (hsim'.peer q) hext hlog (hq ▸ .refl _)

theorem SnapSafe.extends {args : InstallSnapshotArgs n} (h : SnapSafe a rf args)
    (hext : a.Extends b) (hle : rf.snapshotIndex ≤ rf'.snapshotIndex) : SnapSafe b rf' args :=
  ⟨h.1.extends hext (Nat.le_refl _) (hext.tlog _), h.2.trans hle⟩

theorem CommitNote.extends {args : AppendEntriesArgs n α} (h : CommitNote a args)
    (hl : a.leader args.term = some p) (hext : a.Extends b) : CommitNote b args := by
  refine h.imp_right ?_
  rintro ⟨t, k, m, ht, hc, hk, hkm, hb⟩
  exact ⟨t, k, m, ht, hc.extends hext, hk, hkm, hb.extends hl hext⟩

theorem BodySafe.extends {body : Body n α} (h : BodySafe a rf body) (hrel : BodyRel a p q body)
    (hext : a.Extends b) (hle : rf.snapshotIndex ≤ rf'.snapshotIndex) : BodySafe b rf' body := by
  cases body with
  | requestVote args reply => exact trivial
  | appendEntries args reply => exact CommitNote.extends h hrel.1.1 hext
  | installSnapShot args reply => exact SnapSafe.extends h hext hle
  | notifying args reply epoch => exact SnapSafe.extends h hext hle

/-- **One peer acts.** It is enough to look at that peer and at the calls that are new. -/
theorem Safe.act (h : Safe σ a) (hsim : Sim σ a) {epoch : Fin n → ℕ} {calls : List (Call n α)}
    (hsim' : Sim ⟨Function.update σ.peers p rf, epoch, calls⟩ b) (hext : a.Extends b)
    (hp : PeerSafe b p rf) (hle : (σ.peers p).snapshotIndex ≤ rf.snapshotIndex)
    (hcalls : ∀ c ∈ calls, c ∈ σ.calls ∨
      BodySafe b (Function.update σ.peers p rf c.caller) c.body) :
    Safe ⟨Function.update σ.peers p rf, epoch, calls⟩ b := by
  refine ⟨fun q => ?_, fun c hmem => ?_⟩
  · rcases eq_or_ne q p with rfl | hne
    · simpa using hp
    · exact PeerSafe.frame hsim hsim' hext (Function.update_of_ne hne _ _) (h.peer q)
  · rcases hcalls c hmem with hold | hnew
    · refine (h.call c hold).extends (hsim.call c hold).2 hext ?_
      rcases eq_or_ne c.caller p with heq | hne
      · simpa [heq] using hle
      · simp [hne]
    · exact hnew

/-- A peer that is not a leader after its step. -/
theorem PeerSafe.of_not_leader (h : PeerSafe a p rf) (hext : a.Extends b)
    (hs : rf'.state ≠ .leader) (hcommit : b.CommitPoint rf'.currentTerm (b.log p) rf'.commitIndex)
    (hsnap : b.CommitPoint rf'.currentTerm (b.log p) rf'.snapshotIndex)
    (hch : rf'.applyCh = rf.applyCh) (hle : rf.commitIndex ≤ rf'.commitIndex) :
    PeerSafe b p rf' where
  commit := hcommit
  snapshot := hsnap
  applied m hm hv := by
    obtain ⟨hmc, hmsg⟩ := h.applied m (hch ▸ hm) hv
    exact ⟨hmc.trans hle, hmsg.extends hext⟩
  compacted hl := absurd hl hs
  matched hl := absurd hl hs
  matched_le hl := absurd hl hs

theorem Sim.peer_update {epoch : Fin n → ℕ} {calls : List (Call n α)}
    (hsim' : Sim ⟨Function.update σ.peers p rf, epoch, calls⟩ b) : PeerRel b p rf := by
  simpa using hsim'.peer p

/-- The full log of the peer that acted, from what its `Logs` became. -/
theorem Sim.log_update {epoch : Fin n → ℕ} {calls : List (Call n α)}
    (hsim' : Sim ⟨Function.update σ.peers p rf, epoch, calls⟩ b) {G : List (LogEntry α)}
    (hrep : rf.Represents G) (hs : Sound a.tlog G) (hext : a.Extends b) : b.log p = G :=
  hsim'.log_eq (by simpa using hrep) (hs.mono hext.tlog)

/-- A quiet step. -/
theorem Safe.quiet (h : Safe σ a) (hsim : Sim σ a) {epoch : Fin n → ℕ} {calls : List (Call n α)}
    (hsim' : Sim ⟨Function.update σ.peers p rf, epoch, calls⟩ b) (hext : a.Extends b)
    (hq : Quiet (σ.peers p) rf)
    (hcalls : ∀ c ∈ calls, c ∈ σ.calls ∨
      BodySafe b (Function.update σ.peers p rf c.caller) c.body) :
    Safe ⟨Function.update σ.peers p rf, epoch, calls⟩ b := by
  have hp := hsim.peer p
  have hlog : b.log p = a.log p :=
    hsim'.log_update (hq.represents hp.log) (hsim.inv.sound_log p) hext
  exact h.act hsim hsim' hext ((h.peer p).quiet hp hsim'.peer_update hext hlog hq)
    hq.snapshot.ge hcalls

theorem quiet_adoptTerm {t : ℕ} (hlt : rf.currentTerm < t) : Quiet rf (rf.adoptTerm t) :=
  ⟨hlt.le, rfl, rfl, rfl, fun _ h _ => h, nofun⟩

theorem quiet_seeTerm (rf : Raft n α) (t : ℕ) : Quiet rf (rf.seeTerm t) := by
  rw [Raft.seeTerm]
  split
  · next hlt => exact quiet_adoptTerm hlt
  · exact .refl rf

theorem quiet_followLeader (rf : Raft n α) (t : ℕ) : Quiet rf (rf.followLeader t) := by
  rw [Raft.followLeader]
  split
  · next hlt => exact quiet_adoptTerm hlt
  · split
    · exact ⟨Nat.le_refl _, rfl, rfl, rfl, fun _ h _ => h, by simp⟩
    · exact .refl rf

end Keep

/-! ### The handlers -/

section Handlers

variable {σ : Cluster n α} {a b : Protocol n α} {p q : Fin n} {rf : Raft n α} {k : ℕ}
  {c : Call n α}

/-- The calls of a handler: the others, and the one that has come further. -/
theorem Safe.set_calls (h : Safe σ a) (hsim : Sim σ a) (hext : a.Extends b)
    (hc : σ.calls[k]? = some c) {body : Body n α}
    (hbody : BodySafe b (σ.peers c.caller) c.body →
      BodySafe b (σ.peers c.caller) body) :
    ∀ c' ∈ σ.calls.set k { c with body := body }, c' ∈ σ.calls ∨
      BodySafe b (Function.update σ.peers c.server rf c'.caller) c'.body := by
  intro c' hc'
  have hmem := List.mem_of_getElem? hc
  rcases List.mem_or_eq_of_mem_set hc' with hold | rfl
  · exact .inl hold
  · right
    rw [Function.update_of_ne (hsim.call c hmem).1]
    exact hbody ((h.call c hmem).extends (hsim.call c hmem).2 hext (Nat.le_refl _))

/-- **`RequestVote`** commits nothing. -/
theorem Safe.requestVote (h : Safe σ a) (hsim : Sim σ a) (hc : σ.calls[k]? = some c)
    {args : RequestVoteArgs n} {reply : RequestVoteReply}
    (hrun : (σ.peers c.server).requestVote args = some (rf, reply))
    (hsim' : Sim ((σ.setPeer c.server rf).setBody k c (.requestVote args (some reply))) b)
    (hext : a.Extends b) :
    Safe ((σ.setPeer c.server rf).setBody k c (.requestVote args (some reply))) b := by
  refine h.quiet hsim hsim' hext ?_ (h.set_calls hsim hext hc fun _ => trivial)
  rcases Nat.lt_or_ge args.term (σ.peers c.server).currentTerm with hlt | hge
  · rw [Raft.requestVote, if_pos hlt] at hrun
    obtain ⟨rfl, -⟩ := Prod.mk.inj (Option.some.inj hrun)
    exact .refl _
  · obtain ⟨v, st, granted, heq, -⟩ :=
      (hsim.peer c.server).log.requestVote (hsim.persisted _) args hge
    obtain ⟨rfl, -⟩ := Prod.mk.inj (Option.some.inj (heq.symm.trans hrun))
    obtain ⟨ht, hl, hs, hci, hch, hlead⟩ := quiet_seeTerm (σ.peers c.server) args.term
    exact ⟨ht, hl, hs, hci, hch, hlead⟩

/-- The commit index of an accepted request is a commit point of the new log. -/
theorem CommitNote.accepted {args : AppendEntriesArgs n α} (h : CommitNote a args)
    (hl : a.leader args.term = some p) (hinv : a.Inv)
    (ht : termAt (a.log q) args.prevLogIndex = some args.prevLogTerm) :
    a.CommitPoint args.term (Raft.splice (a.log q) args.prevLogIndex args.entries)
      args.leaderCommit := by
  rcases h with hzero | ⟨t, i, m, hta, hc, hle, him, hbuilt⟩
  · rw [hzero]
    exact .zero _ _ _
  refine .inr ⟨t, i, hta, hc, hle, (List.take_prefix_take_left hle).trans ?_⟩
  have hlen : ((a.tlog t).take i).length = i := by simp [hc.le_length]
  have hsent := hc.prefix_tlog hinv hta (Option.ne_none_iff_exists'.mpr ⟨p, hl⟩)
  obtain ⟨-, hm, htm, he⟩ := hbuilt
  rcases Nat.le_total args.prevLogIndex m with hpm | hmp
  · -- The new log has all that the sender had.
    rw [Nat.min_eq_left hpm] at htm
    have hcopy := (Raft.splice_eq (hinv.sound_log q) (hinv.sound_tlog args.term) hm hpm ht htm).1
    rw [← he] at hcopy
    refine List.IsPrefix.trans ?_ hcopy
    exact List.prefix_of_prefix_length_le hsent (List.take_prefix _ _) (by simp [hm, him, hlen])
  · -- The log is unchanged. It has at `prevLogIndex` a term that is not before `t`, and whoever
    -- wrote that term had the committed entry.
    rw [Nat.min_eq_right hmp] at htm
    have hnil : args.entries = [] := by
      rw [he]
      exact List.drop_eq_nil_of_le (by simp [hm, hmp])
    rw [hnil, Raft.splice_nil]
    have hti : termAt (a.tlog args.term) i = some t := by
      rw [← termAt_of_isPrefix hsent (by rw [hlen]), termAt_take (Nat.le_refl i), hc.2.1]
    have htu : t ≤ args.prevLogTerm := hinv.ordered_tlog args.term i m _ _ him hti htm
    have hpos := hc.1
    have hlead := hinv.leader_of_termAt (hinv.sound_log q) (by omega) ht
    have hwrote := hc.prefix_tlog hinv htu hlead
    have hprev := le_length_of_termAt ht
    refine List.IsPrefix.trans ?_ (List.take_prefix args.prevLogIndex (a.log q))
    exact List.prefix_of_prefix_length_le hwrote (hinv.sound_log q _ _ ht)
      (by rw [hlen, List.length_take]; omega)

/-- A commit point survives taking over a leader's log. -/
theorem TakesLog.commitPoint {t u i : ℕ} {G : List (LogEntry α)} (hG : TakesLog a q u G)
    (hinv : a.Inv) (h : a.CommitPoint t (a.log q) i) (htu : t ≤ u) (hl : a.leader u ≠ none) :
    a.CommitPoint u G i := by
  rcases hG with rfl | ⟨m, hnot, rfl⟩
  · exact h.extends (.refl a) htu List.prefix_rfl
  · exact h.replace hinv htu hl hnot

/-- A log that was kept or taken over is sound. -/
theorem TakesLog.sound {u : ℕ} {G : List (LogEntry α)} (hG : TakesLog a q u G) (hinv : a.Inv) :
    Sound a.tlog G := by
  rcases hG with rfl | ⟨m, -, rfl⟩
  · exact hinv.sound_log q
  · exact (hinv.sound_tlog u).of_isPrefix (List.take_prefix _ _)

/-- **`AppendEntries`** moves the commit index to that of the leader. -/
theorem Safe.appendEntries (h : Safe σ a) (hsim : Sim σ a) (hc : σ.calls[k]? = some c)
    {args : AppendEntriesArgs n α} {reply : AppendEntriesReply}
    (hbody : c.body = .appendEntries args none)
    (hrun : (σ.peers c.server).appendEntries args = some (rf, reply))
    (hsim' : Sim ((σ.setPeer c.server rf).setBody k c (.appendEntries args (some reply))) b)
    (hext : a.Extends b) :
    Safe ((σ.setPeer c.server rf).setBody k c (.appendEntries args (some reply))) b := by
  have hmem := List.mem_of_getElem? hc
  have hp := hsim.peer c.server
  have hcalls : ∀ c' ∈ σ.calls.set k { c with body := .appendEntries args (some reply) },
      c' ∈ σ.calls ∨ BodySafe b (Function.update σ.peers c.server rf c'.caller) c'.body :=
    h.set_calls hsim hext hc fun hold => by rwa [hbody] at hold
  rcases Nat.lt_or_ge args.term (σ.peers c.server).currentTerm with hlt | hge
  · rw [Raft.appendEntries, if_pos hlt] at hrun
    obtain ⟨rfl, -⟩ := Prod.mk.inj (Option.some.inj hrun)
    exact h.quiet hsim hsim' hext (.refl _) hcalls
  obtain ⟨ht, hlo, hs, hci, hch, -⟩ := quiet_followLeader (σ.peers c.server) args.term
  have hfol := Raft.followLeader_state (σ.peers c.server) args.term
  rcases hp.log.appendEntries (hsim.persisted _) args hge with
    ⟨st, ci, heq, -⟩ | ⟨-, hterm, logs, st, cc, heq, -, hrep⟩
  · obtain ⟨rfl, -⟩ := Prod.mk.inj (Option.some.inj (heq.symm.trans hrun))
    exact h.quiet hsim hsim' hext
      ⟨ht, hlo, hs, hci, hch, fun hl => by cases hfol.symm.trans hl⟩ hcalls
  have hnote := h.call c hmem
  have hrel := (hsim.call c hmem).2
  rw [hbody] at hnote hrel
  obtain ⟨⟨hl, m, hbuilt⟩, -⟩ := hrel
  have hl' := Option.ne_none_iff_exists'.mpr ⟨_, hl⟩
  have hcases : TakesLog a c.server args.term
      (Raft.splice (a.log c.server) args.prevLogIndex args.entries) :=
    (hbuilt.accepted hl hsim.inv hterm).1.imp_right fun hx => ⟨m, hx⟩
  obtain ⟨hrf, -⟩ := Prod.mk.inj (Option.some.inj (heq.symm.trans hrun))
  have hlog : b.log c.server = Raft.splice (a.log c.server) args.prevLogIndex args.entries := by
    refine hsim'.log_update ?_ (hcases.sound hsim.inv) hext
    rw [← hrf]
    rw [Raft.Represents]
    simp only [hs]
    exact hrep
  -- Old commit points and the new one, on the new log.
  have hcommit := hcases.commitPoint hsim.inv (h.peer c.server).commit hge hl'
  have hsnap := hcases.commitPoint hsim.inv (h.peer c.server).snapshot hge hl'
  have hnew := CommitNote.accepted hnote hl hsim.inv hterm
  have hterm' : rf.currentTerm = args.term := by rw [← hrf]; exact Raft.followLeader_currentTerm hge
  have hstate : rf.state ≠ .leader := by rw [← hrf]; simp
  have hsi : rf.snapshotIndex = (σ.peers c.server).snapshotIndex := by rw [← hrf]; exact hs
  have hcidx : rf.commitIndex = Raft.commitAfter (σ.peers c.server).commitIndex args.leaderCommit
      (Raft.splice (a.log c.server) args.prevLogIndex args.entries).length := by rw [← hrf]
  refine h.act hsim hsim' hext ?_ hsi.ge hcalls
  refine (h.peer c.server).of_not_leader hext hstate ?_ ?_ ?_ ?_
  · rw [hterm', hcidx, hlog]
    refine Repl.CommitPoint.extends ?_ hext (Nat.le_refl _) List.prefix_rfl
    rw [Raft.commitAfter]
    split
    · exact hnew.of_le (Nat.min_le_left _ _)
    · exact hcommit
  · rw [hterm', hsi, hlog]
    exact hsnap.extends hext (Nat.le_refl _) List.prefix_rfl
  · rw [← hrf]
    obtain ⟨v, x, hfl, -⟩ := Raft.followLeader_eq (σ.peers c.server) args.term
    rw [hfl]
  · rw [hcidx]
    rw [Raft.commitAfter]
    split
    · next hlt => exact Nat.le_min.mpr ⟨hlt.le, hcommit.le_length⟩
    · exact Nat.le_refl _

/-- **`InstallSnapShot`** compacts what is committed. -/
theorem Safe.installSnapShot (h : Safe σ a) (hsim : Sim σ a) (hc : σ.calls[k]? = some c)
    {args : InstallSnapshotArgs n} {reply : InstallSnapshotReply} {installed : Bool} {epoch : ℕ}
    (hbody : c.body = .installSnapShot args none)
    (hrun : (σ.peers c.server).installSnapShot args = some (rf, reply, installed))
    (hsim' : Sim ((σ.setPeer c.server rf).setBody k c
      (if installed then .notifying args reply epoch else .installSnapShot args (some reply))) b)
    (hext : a.Extends b) :
    Safe ((σ.setPeer c.server rf).setBody k c
      (if installed then .notifying args reply epoch
        else .installSnapShot args (some reply))) b := by
  have hmem := List.mem_of_getElem? hc
  have hp := hsim.peer c.server
  have hsafe := h.call c hmem
  have hreq := (hsim.call c hmem).2
  rw [hbody] at hsafe hreq
  have hreq : SnapRequest a c.caller args := hreq
  have hl := Option.ne_none_iff_exists'.mpr ⟨_, hreq.1⟩
  generalize hnext : (if installed then Body.notifying args reply epoch
    else .installSnapShot args (some reply) : Body n α) = body at hsim' ⊢
  have hcalls : ∀ c' ∈ σ.calls.set k { c with body := body }, c' ∈ σ.calls ∨
      BodySafe b (Function.update σ.peers c.server rf c'.caller) c'.body := by
    refine h.set_calls hsim hext hc fun hold => ?_
    rw [hbody] at hold
    rw [← hnext]
    split <;> exact hold
  rcases Nat.lt_or_ge args.term (σ.peers c.server).currentTerm with hlt | hge
  · rw [Raft.installSnapShot, if_pos hlt] at hrun
    obtain ⟨rfl, -⟩ := Prod.mk.inj (Option.some.inj hrun)
    exact h.quiet hsim hsim' hext (.refl _) hcalls
  obtain ⟨ht, hlo, hs, hci, hch, -⟩ := quiet_followLeader (σ.peers c.server) args.term
  have hfol := Raft.followLeader_state (σ.peers c.server) args.term
  have hterm := Raft.followLeader_currentTerm hge
  rcases hp.log.installSnapShot (hsim.persisted _) args hge with
    ⟨-, st, heq, -⟩ | ⟨hsi, -, logs, st, heq, -, hrep⟩
  · obtain ⟨rfl, -⟩ := Prod.mk.inj (Option.some.inj (heq.symm.trans hrun))
    exact h.quiet hsim hsim' hext
      ⟨ht, hlo, hs, hci, hch, fun hl => by cases hfol.symm.trans hl⟩ hcalls
  · obtain ⟨hrf, -⟩ := Prod.mk.inj (Option.some.inj (heq.symm.trans hrun))
    obtain ⟨G, hrepG, hG, hpre⟩ := hreq.installed hsim.inv hrep
    have hlog : b.log c.server = G :=
      hsim'.log_update (by rw [← hrf]; exact hrepG) (hG.sound hsim.inv) hext
    have hterm' : rf.currentTerm = args.term := by rw [← hrf]; exact hterm
    have hstate : rf.state ≠ .leader := by rw [← hrf]; simp
    have hci' : rf.commitIndex = (σ.peers c.server).commitIndex := by rw [← hrf]; exact hci
    have hsi' : rf.snapshotIndex = args.lastIncludedIndex := by rw [← hrf]
    refine h.act hsim hsim' hext ?_ (by omega) hcalls
    refine (h.peer c.server).of_not_leader hext hstate ?_ ?_ ?_ hci'.ge
    · rw [hterm', hci', hlog]
      exact (hG.commitPoint hsim.inv (h.peer c.server).commit hge hl).extends hext
        (Nat.le_refl _) List.prefix_rfl
    · -- The snapshot index is the commit point that the leader sent.
      rw [hterm', hsi', hlog]
      refine Repl.CommitPoint.extends ?_ hext (Nat.le_refl _) List.prefix_rfl
      rcases hsafe.1 with hzero | ⟨u, i, hu, hcom, hi, hin⟩
      · exact .inl hzero
      · refine .inr ⟨u, i, hu, hcom, hi, ?_⟩
        rw [((take_prefix_iff (hi.trans hcom.le_length)).mp hin).2]
        exact hpre
    · rw [← hrf]
      obtain ⟨v, x, hfl, -⟩ := Raft.followLeader_eq (σ.peers c.server) args.term
      rw [hfl]

end Handlers

end RaftKVDB
