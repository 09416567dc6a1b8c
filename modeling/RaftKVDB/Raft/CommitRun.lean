import RaftKVDB.Raft.Commit

/-!
# What a run commits

The reply processors and the peer's own actions keep `Safe`. The condition is needed in one place
only, where a leader processes a success.

## Main results

* `Safe.step` — every step that meets the condition keeps the invariant
-/

namespace RaftKVDB

open Foundations Cluster

variable {n : ℕ} {α : Type*}

/-! ### The reply processors -/

section Processors

variable {σ : Cluster n α} {a b : Protocol n α} {p : Fin n} {rf : Raft n α} {k : ℕ}
  {c : Call n α}

/-- A leader holds all of the log of its term. -/
theorem Recorded.leader (hnow : Recorded b) (hp : PeerRel b p rf) (hs : rf.state = .leader) {m : ℕ}
    (hm : m ≤ (b.tlog rf.currentTerm).length) : b.acked p rf.currentTerm m := by
  have := hnow p m
  rw [← hp.term, (hp.leader hs).2] at this
  exact this hm (List.take_prefix _ _)

theorem erase_calls {f : Call n α → Prop} :
    ∀ c ∈ σ.calls.eraseIdx k, c ∈ σ.calls ∨ f c :=
  fun _ hc => .inl (List.mem_of_mem_eraseIdx hc)

/-- **A vote comes in.** A new leader was elected with what it has compacted, and knows of nobody's
log but its own. -/
theorem Safe.sendRequestVoteAndProcess (h : Safe σ a) (hsim : Sim σ a) {reply : RequestVoteReply}
    (hsim' : Sim ((σ.setPeer p ((σ.peers p).sendRequestVoteAndProcess reply)).endCall k) b)
    (hext : a.Extends b) (hnow : Recorded b) :
    Safe ((σ.setPeer p ((σ.peers p).sendRequestVoteAndProcess reply)).endCall k) b := by
  rcases (σ.peers p).sendRequestVoteAndProcess_cases reply with
    heq | ⟨hlt, heq⟩ | ⟨hs, -, -, heq | ⟨-, heq⟩⟩
  · rw [heq] at hsim' ⊢
    exact h.quiet hsim hsim' hext (.refl _) erase_calls
  · rw [heq] at hsim' ⊢
    obtain ⟨ht, hl, hsn, hci, hch, hlead⟩ := quiet_adoptTerm hlt
    exact h.quiet hsim hsim' hext ⟨ht, hl, hsn, hci, hch, hlead⟩ erase_calls
  · rw [heq] at hsim' ⊢
    exact h.quiet hsim hsim' hext
      ⟨Nat.le_refl _, rfl, rfl, rfl, fun _ hm _ => hm, fun hl => nomatch hs.symm.trans hl⟩
      erase_calls
  · rw [heq] at hsim' ⊢
    have hp := hsim.peer p
    have hp' := hsim'.peer_update
    have hlog : b.log p = a.log p := hsim'.log_update hp.log (hsim.inv.sound_log p) hext
    obtain ⟨hlead, htlog⟩ := hp'.leader rfl
    obtain ⟨hvote, hvlog, -⟩ := hp.candidate hs
    -- The leader starts with the log it asked for votes with.
    have hbase : b.base (σ.peers p).currentTerm = a.log p := by
      have hv : a.voted (σ.peers p).currentTerm p = some p := hp.vote.symm.trans hvote
      rw [hvlog, ← hext.voteLog _ _ _ hv]
      exact (hsim'.inv.leader_base _ _ hlead).2
    have hsnap := (h.peer p).snapshot.le_length
    have hpos := Nat.zero_lt_of_lt (hsim'.inv.lastTerm_base_lt hlead)
    have hrep : ({ σ.peers p with voteCount := (σ.peers p).voteCount + 1 } : Raft n α).Represents
        (a.log p) := hp.log
    have hold : PeerSafe b p { σ.peers p with state := .follower } :=
      (h.peer p).quiet hp ⟨hp'.me, hp'.term, hp'.vote, hp'.log, nofun, nofun⟩ hext hlog
        ⟨Nat.le_refl _, rfl, rfl, rfl, fun _ hm _ => hm, nofun⟩
    refine h.act hsim hsim' hext ⟨hold.commit, hold.snapshot, hold.applied, fun _ => ?_,
      fun _ q j hj ht => .inl ?_, fun _ q => ?_⟩ (Nat.le_refl _) erase_calls
    · exact hsnap.trans (hbase ▸ Nat.le_max_right _ _)
    · rcases eq_or_ne q p with rfl | hne
      · exact hnow.leader hp' rfl (le_length_of_termAt ht)
      · have hme : q ≠ (σ.peers p).me := by rwa [hp.me]
        rw [(hrep.becomeLeader_matchIndex q).2 hme, Nat.le_zero] at hj
        rw [hj, termAt_zero] at ht
        exact absurd (Option.some.inj ht) hpos.ne
    · rw [hlog]
      exact (hrep.becomeLeader_matchIndex q).1

/-- The index that a confirmed success is about is in the leader's log, and above what the leader
has compacted and not committed. -/
theorem BuiltFrom.confirmed {args : AppendEntriesArgs n α} {m : ℕ} (hb : BuiltFrom a args m)
    (hp : PeerRel a p rf) (hs : rf.state = .leader) (ht : rf.currentTerm = args.term)
    (hsnap : rf.snapshotIndex ≤ max rf.commitIndex (a.base rf.currentTerm).length)
    (hcon : args.prevLogIndex < rf.snapshotIndex ∨
      (rf.entryAt args.prevLogIndex).map LogEntry.term = some args.prevLogTerm) :
    args.prevLogIndex + args.entries.length ≤ (a.log p).length ∧
      (rf.commitIndex < args.prevLogIndex + args.entries.length →
        rf.snapshotIndex ≤ args.prevLogIndex + args.entries.length) := by
  obtain ⟨hbm, hm, -, he⟩ := hb
  have hlog := (hp.leader hs).2
  have hsle := hp.log.snapshotIndex_le
  rw [ht] at hlog hsnap
  have hN : args.prevLogIndex + args.entries.length = max args.prevLogIndex m := by
    rw [he, List.length_drop, List.length_take, Nat.min_eq_left hm]
    omega
  have hprev : args.prevLogIndex ≤ (a.log p).length := by
    rcases hcon with hlt | hterm
    · omega
    · rcases Nat.lt_or_ge args.prevLogIndex rf.snapshotIndex with hlt | hge
      · omega
      · rw [hp.log.term_entryAt hge] at hterm
        exact le_length_of_termAt hterm
  rw [hN]
  rw [hlog] at hprev ⊢
  omega

/-- A request that has entries tells the truth about `prevLogIndex`. -/
theorem BuiltFrom.clamped {args : AppendEntriesArgs n α} {m : ℕ} (hb : BuiltFrom a args m) :
    args.entries = [] ∨
      termAt (a.tlog args.term) args.prevLogIndex = some args.prevLogTerm := by
  obtain ⟨-, hm, ht, he⟩ := hb
  rcases Nat.le_total args.prevLogIndex m with hpm | hmp
  · rw [Nat.min_eq_left hpm] at ht
    exact .inr ht
  · left
    rw [he]
    exact List.drop_eq_nil_of_le (by simp [hm, hmp])

/-- What a confirmed success is worth. -/
theorem AppendAck.confirmed {args : AppendEntriesArgs n α} {q : Fin n} (h : AppendAck a q args)
    (hinv : a.Inv) (hp : PeerRel a p rf) (hs : rf.state = .leader)
    (ht : rf.currentTerm = args.term)
    (hcon : args.prevLogIndex < rf.snapshotIndex ∨
      (rf.entryAt args.prevLogIndex).map LogEntry.term = some args.prevLogTerm)
    (hclamp : args.entries = [] ∨ termAt (a.tlog args.term) args.prevLogIndex
      = some args.prevLogTerm) :
    a.acked q args.term (args.prevLogIndex + args.entries.length) ∨
      args.prevLogIndex + args.entries.length ≤ rf.snapshotIndex := by
  refine h.imp_right ?_
  rintro ⟨hlt, hne⟩
  obtain ⟨hl, hlog⟩ := hp.leader hs
  rw [ht] at hl hlog
  -- A term at an index beyond the base is that of the leader, which the request did not claim.
  have hno : termAt (a.tlog args.term) args.prevLogIndex ≠ some args.prevLogTerm := by
    intro hterm
    have := hinv.written _ _ _ hl hlt (le_length_of_termAt hterm)
    exact hne (Option.some.inj (hterm.symm.trans this))
  rw [hclamp.resolve_right hno, List.length_nil, Nat.add_zero]
  rcases hcon with hlt | hterm
  · exact hlt.le
  · by_contra hgt
    rw [hp.log.term_entryAt (by omega), hlog] at hterm
    exact hno hterm

/-- Counting `matchIndex` finds a majority. -/
theorem committed_of_count {f : Fin n → ℕ} {t i : ℕ} (hpos : 0 < i)
    (hterm : termAt (a.tlog t) i = some t) (hf : ∀ q, i ≤ f q → a.acked q t i)
    (hcount : n / 2 < (List.finRange n).countP fun q => decide (i ≤ f q)) : a.Committed t i := by
  refine ⟨hpos, hterm, Majority.of_nodup (l := (List.finRange n).filter fun q => decide (i ≤ f q))
    ((List.nodup_finRange n).filter _) ?_ fun q hq => hf q ?_⟩
  · rwa [Fintype.card_fin, ← List.countP_eq_length_filter]
  · simpa using hq

/-- **A confirmed success** raises `matchIndex` by what the server has held, and the commit index by
what a majority has held. -/
theorem PeerSafe.success (h : PeerSafe a p rf) (hinv : a.Inv) (hp : PeerRel a p rf)
    {args : AppendEntriesArgs n α} {server : Fin n} {m ci : ℕ}
    (hb : BuiltFrom a args m) (hack : AppendAck a server args) (hs : rf.state = .leader)
    (ht : rf.currentTerm = args.term)
    (hcon : args.prevLogIndex < rf.snapshotIndex ∨
      (rf.entryAt args.prevLogIndex).map LogEntry.term = some args.prevLogTerm)
    (hci : ci = rf.commitIndex ∨
      rf.commitIndex < ci ∧ ci = args.prevLogIndex + args.entries.length ∧
      (∃ e, goIndex rf.logs (rf.logIdxGlobal2Local ci) = some e ∧ e.term = rf.currentTerm) ∧
      n / 2 < (List.finRange n).countP fun i => decide (ci ≤ Function.update rf.matchIndex server
        (args.prevLogIndex + args.entries.length) i)) :
    PeerSafe a p { rf with
      matchIndex := Function.update rf.matchIndex server (args.prevLogIndex + args.entries.length)
      commitIndex := ci } ∧
    (rf.commitIndex < ci → rf.snapshotIndex < ci ∧ a.Committed rf.currentTerm ci) := by
  obtain ⟨hlead, hlog⟩ := hp.leader hs
  obtain ⟨hNle, hNsnap⟩ := hb.confirmed hp hs ht (h.compacted hs) hcon
  have hworth := hack.confirmed hinv hp hs ht hcon hb.clamped
  generalize args.prevLogIndex + args.entries.length = N at *
  rw [← ht] at hworth
  have hmatched : ∀ q j, j ≤ Function.update rf.matchIndex server N q →
      termAt (a.tlog rf.currentTerm) j = some rf.currentTerm →
      a.acked q rf.currentTerm j ∨ j ≤ rf.snapshotIndex := by
    intro q j hj hterm
    rcases eq_or_ne q server with rfl | hne
    · rw [Function.update_self] at hj
      exact hworth.imp (fun hN => hinv.acked_mono _ _ _ _ hN hj) hj.trans
    · rw [Function.update_of_ne hne] at hj
      exact h.matched hs q j hj hterm
  -- An index of the current term that is not committed is not compacted.
  have hnew : rf.commitIndex < ci → rf.snapshotIndex < ci ∧ a.Committed rf.currentTerm ci := by
    intro hlt
    rcases hci with heq | ⟨-, rfl, ⟨e, he, het⟩, hcount⟩
    · omega
    have hterm : termAt (a.tlog rf.currentTerm) ci = some rf.currentTerm := by
      rw [← hlog, ← hp.log.term_entryAt (hNsnap hlt), Raft.entryAt, he, ← het]
      rfl
    have hbase := hinv.length_base_lt hlead hterm
    have hsnap : rf.snapshotIndex < ci := by
      have := h.compacted hs
      omega
    refine ⟨hsnap, committed_of_count (by omega) hterm (fun q hq => ?_) hcount⟩
    exact (hmatched q ci hq hterm).resolve_right (by omega)
  have hle : rf.commitIndex ≤ ci := by
    rcases hci with heq | ⟨hlt, -⟩ <;> omega
  refine ⟨⟨?_, h.snapshot, fun msg hm hv => ?_, fun _ => ?_, fun _ => hmatched, fun _ q => ?_⟩,
    hnew⟩
  · rcases Nat.eq_or_lt_of_le hle with heq | hlt
    · exact heq ▸ h.commit
    · refine .inr ⟨_, ci, Nat.le_refl _, (hnew hlt).2, Nat.le_refl _, ?_⟩
      rw [hlog]
      exact List.take_prefix _ _
  · exact ⟨(h.applied msg hm hv).1.trans hle, (h.applied msg hm hv).2⟩
  · have := h.compacted hs
    exact this.trans (max_le_max_right _ hle)
  · rcases eq_or_ne q server with rfl | hne
    · simpa using hNle
    · simpa [hne] using h.matched_le hs q

/-- What the success branch of `sendAppendEntriesAndProcess` has to go on. -/
theorem Sim.appendReply (hsim : Sim σ a) (hc : σ.calls[k]? = some c)
    {args : AppendEntriesArgs n α} {reply : AppendEntriesReply}
    (hbody : c.body = .appendEntries args (some reply)) (hsuc : reply.success = true) :
    reply.term = args.term ∧ AppendAck a c.server args ∧ ∃ m, BuiltFrom a args m := by
  have hrel := (hsim.call c (List.mem_of_getElem? hc)).2
  rw [hbody] at hrel
  obtain ⟨⟨-, hbuilt⟩, hreply⟩ := hrel
  obtain ⟨ht, hack⟩ := hreply reply rfl hsuc
  exact ⟨ht, hack, hbuilt⟩

/-- **A reply to `AppendEntries`**, confirmed by the leader's log. -/
theorem Safe.sendAppendEntriesAndProcess (h : Safe σ a) (hsim : Sim σ a)
    (hc : σ.calls[k]? = some c) {args : AppendEntriesArgs n α} {reply : AppendEntriesReply}
    (hbody : c.body = .appendEntries args (some reply))
    (hcon : (σ.peers c.caller).Confirms args reply)
    (hrun : (σ.peers c.caller).sendAppendEntriesAndProcess args c.server reply = some rf)
    (hsim' : Sim ((σ.setPeer c.caller rf).endCall k) b) (hext : a.Extends b) :
    Safe ((σ.setPeer c.caller rf).endCall k) b := by
  rcases Raft.sendAppendEntriesAndProcess_cases hrun with
    rfl | ⟨hlt, rfl⟩ | ⟨-, -, -, rfl⟩ | ⟨hs, ht, hsuc, -, ci, cc, rfl, hci⟩
  · exact h.quiet hsim hsim' hext (.refl _) erase_calls
  · obtain ⟨ht, hl, hsn, hci, hch, hlead⟩ := quiet_adoptTerm hlt
    exact h.quiet hsim hsim' hext ⟨ht, hl, hsn, hci, hch, hlead⟩ erase_calls
  · exact h.quiet hsim hsim' hext
      ⟨Nat.le_refl _, rfl, rfl, rfl, fun _ hm _ => hm, fun hs => ⟨hs, rfl, rfl⟩⟩ erase_calls
  · have hp := hsim.peer c.caller
    obtain ⟨hargs, hack, m, hbuilt⟩ := hsim.appendReply hc hbody hsuc
    have hnew := ((h.peer c.caller).success hsim.inv hp hbuilt hack hs (ht.symm.trans hargs)
      (hcon hsuc hs ht.symm) hci).1
    have hlog : b.log c.caller = a.log c.caller :=
      hsim'.log_update hp.log (hsim.inv.sound_log _) hext
    refine h.act hsim hsim' hext
      (hnew.quiet (hp.congr rfl rfl rfl rfl hp.log) hsim'.peer_update hext hlog ?_)
      (Nat.le_refl _) erase_calls
    exact ⟨Nat.le_refl _, rfl, rfl, rfl, fun _ hm _ => hm, fun hs => ⟨hs, rfl, rfl⟩⟩

/-- **A reply to `InstallSnapShot`.** Whatever it is worth, it is about an index that the leader has
compacted. -/
theorem Safe.sendSnapShotAndProcess (h : Safe σ a) (hsim : Sim σ a)
    (hc : σ.calls[k]? = some c) {args : InstallSnapshotArgs n} {reply : InstallSnapshotReply}
    (hbody : c.body = .installSnapShot args (some reply))
    (hsim' : Sim ((σ.setPeer c.caller
      ((σ.peers c.caller).sendSnapShotAndProcess args c.server reply)).endCall k) b)
    (hext : a.Extends b) :
    Safe ((σ.setPeer c.caller
      ((σ.peers c.caller).sendSnapShotAndProcess args c.server reply)).endCall k) b := by
  rcases (σ.peers c.caller).sendSnapShotAndProcess_cases args c.server reply with
    heq | ⟨hlt, heq⟩ | ⟨hs, ht, -, heq⟩
  · rw [heq] at hsim' ⊢
    exact h.quiet hsim hsim' hext (.refl _) erase_calls
  · rw [heq] at hsim' ⊢
    obtain ⟨ht, hl, hsn, hci, hch, hlead⟩ := quiet_adoptTerm hlt
    exact h.quiet hsim hsim' hext ⟨ht, hl, hsn, hci, hch, hlead⟩ erase_calls
  rw [heq] at hsim' ⊢
  have hmem := List.mem_of_getElem? hc
  have hp := hsim.peer c.caller
  have hpeer := h.peer c.caller
  have hsafe := h.call c hmem
  rw [hbody] at hsafe
  obtain ⟨-, hle⟩ := hsafe
  have hnew : PeerSafe a c.caller { σ.peers c.caller with
      nextIndex := Function.update (σ.peers c.caller).nextIndex c.server
        (args.lastIncludedIndex + 1)
      matchIndex := Function.update (σ.peers c.caller).matchIndex c.server
        args.lastIncludedIndex } := by
    refine ⟨hpeer.commit, hpeer.snapshot, hpeer.applied, hpeer.compacted, fun _ q j hj hterm => ?_,
      fun _ q => ?_⟩
    · rcases eq_or_ne q c.server with rfl | hne
      · simp only [Function.update_self] at hj
        exact .inr (hj.trans hle)
      · simp only [Function.update_of_ne hne] at hj
        exact hpeer.matched hs q j hj hterm
    · rcases eq_or_ne q c.server with rfl | hne
      · simpa using hle.trans hp.log.snapshotIndex_le
      · simpa [hne] using hpeer.matched_le hs q
  have hlog : b.log c.caller = a.log c.caller :=
    hsim'.log_update hp.log (hsim.inv.sound_log _) hext
  exact h.act hsim hsim' hext
    (hnew.quiet (hp.congr rfl rfl rfl rfl hp.log) hsim'.peer_update hext hlog (.refl _))
    (Nat.le_refl _) erase_calls

end Processors

/-! ### The peer's own actions -/

section Own

variable {σ : Cluster n α} {a b : Protocol n α} {p : Fin n} {rf : Raft n α}

/-- No peer acts. -/
theorem Safe.calls (h : Safe σ a) (hsim : Sim σ a) {epoch : Fin n → ℕ} {calls : List (Call n α)}
    (hsim' : Sim ⟨σ.peers, epoch, calls⟩ b) (hext : a.Extends b)
    (hcalls : ∀ c ∈ calls, c ∈ σ.calls ∨ BodySafe b (σ.peers c.caller) c.body) :
    Safe ⟨σ.peers, epoch, calls⟩ b := by
  refine ⟨fun q => PeerSafe.frame hsim hsim' hext rfl (h.peer q), fun c hc => ?_⟩
  rcases hcalls c hc with hold | hnew
  · exact (h.call c hold).extends (hsim.call c hold).2 hext (Nat.le_refl _)
  · exact hnew

theorem Safe.broadCastVote (h : Safe σ a) (hsim : Sim σ a) {sent : Option (RequestVoteArgs n)}
    (hrun : (σ.peers p).broadCastVote = some (rf, sent))
    (hsim' : Sim (sent.elim (σ.setPeer p rf) ((σ.setPeer p rf).sendVotes p)) b)
    (hext : a.Extends b) :
    Safe (sent.elim (σ.setPeer p rf) ((σ.setPeer p rf).sendVotes p)) b := by
  by_cases hlead : (σ.peers p).state = .leader
  · rw [Raft.broadCastVote, if_pos hlead] at hrun
    obtain ⟨rfl, rfl⟩ := Prod.mk.inj (Option.some.inj hrun)
    exact h.quiet hsim hsim' hext (.refl _) fun _ hc => .inl hc
  · obtain ⟨st, heq, -⟩ := (hsim.peer p).log.broadCastVote hlead
    obtain ⟨rfl, rfl⟩ := Prod.mk.inj (Option.some.inj (heq.symm.trans hrun))
    refine h.quiet hsim hsim' hext
      ⟨Nat.le_succ _, rfl, rfl, rfl, fun _ hm _ => hm, by simp⟩ fun c hc => ?_
    rcases List.mem_append.mp hc with hc | hc
    · exact .inl hc
    · obtain ⟨i, -, rfl⟩ := List.mem_map.mp hc
      exact .inr trivial

theorem Safe.start (h : Safe σ a) (hsim : Sim σ a) {command : Option α}
    (hsim' : Sim (σ.setPeer p ((σ.peers p).start command).1) b) (hext : a.Extends b)
    (hnow : Recorded b) : Safe (σ.setPeer p ((σ.peers p).start command).1) b := by
  have hp := hsim.peer p
  by_cases hlead : (σ.peers p).state = .leader
  swap
  · rw [Raft.start, if_neg hlead] at hsim' ⊢
    exact h.quiet hsim hsim' hext (.refl _) fun _ hc => .inl hc
  obtain ⟨logs, st, ni, heq, -, hrep⟩ := hp.log.start hlead command
  rw [heq] at hsim' ⊢
  have hp' := hsim'.peer_update
  obtain ⟨hl, hlog⟩ := hp.leader hlead
  obtain ⟨hl', hlog'⟩ := hp'.leader hlead
  have hpre : a.log p <+: b.log p := by
    rw [hlog, hlog']
    exact hext.tlog _
  have hlen : (b.log p).length = (a.log p).length + 1 := by
    rw [Raft.RepresentsFrom.length_eq hp'.log hrep, List.length_append, List.length_singleton]
  have hpeer := h.peer p
  refine h.act hsim hsim' hext ⟨hpeer.commit.extends hext (Nat.le_refl _) hpre,
    hpeer.snapshot.extends hext (Nat.le_refl _) hpre, fun m hm hv => ?_, fun _ => ?_,
    fun _ q j hj ht => ?_, fun _ q => ?_⟩ (Nat.le_refl _) fun _ hc => .inl hc
  · exact ⟨(hpeer.applied m hm hv).1, (hpeer.applied m hm hv).2.extends hext⟩
  · rw [hext.base _ _ hl]
    exact hpeer.compacted hlead
  · rcases eq_or_ne q p with rfl | hne
    · exact .inl (hnow.leader hp' hlead (le_length_of_termAt ht))
    · -- What the others have was written before.
      simp only [hp.me, Function.update_of_ne hne] at hj
      have hold : j ≤ (a.tlog (σ.peers p).currentTerm).length :=
        hlog ▸ hj.trans (hpeer.matched_le hlead q)
      rw [← termAt_of_isPrefix (hext.tlog _) hold] at ht
      exact (hpeer.matched hlead q j hj ht).imp_left (hext.acked _ _ _)
  · rw [hlen]
    rcases eq_or_ne q p with rfl | hne
    · simp [hp.me]
    · simpa [hp.me, hne] using (hpeer.matched_le hlead q).trans (Nat.le_succ _)

theorem Safe.addCall (h : Safe σ a) (hsim : Sim σ a) {server : Fin n} {body : Body n α}
    (hsim' : Sim (σ.addCall p server body) b) (hext : a.Extends b)
    (hbody : BodySafe b (σ.peers p) body) : Safe (σ.addCall p server body) b := by
  refine h.calls hsim hsim' hext fun c hc => ?_
  rcases List.mem_append.mp hc with hc | hc
  · exact .inl hc
  · obtain rfl := List.mem_singleton.mp hc
    exact .inr hbody

theorem Safe.checkConsistency (h : Safe σ a) (hsim : Sim σ a) {peer : Fin n}
    {sent : Option (Raft.Request n α)} (hrun : (σ.peers p).checkConsistency peer = some sent)
    (hsim' : Sim (sent.elim σ (σ.sendRequest p peer)) b) (hext : a.Extends b) :
    Safe (sent.elim σ (σ.sendRequest p peer)) b := by
  have hp := hsim.peer p
  have hpeer := h.peer p
  by_cases hlead : (σ.peers p).state = .leader
  swap
  · rw [Raft.checkConsistency, if_pos hlead] at hrun
    obtain rfl := Option.some.inj hrun
    exact h.calls hsim hsim' hext fun _ hc => .inl hc
  obtain ⟨hl, hlog⟩ := hp.leader hlead
  rcases hp.log.checkConsistency hlead peer with ⟨-, dt, hdt, heq⟩ | ⟨-, pt, hpt, heq⟩
  · obtain rfl := Option.some.inj (heq.symm.trans hrun)
    refine h.addCall hsim hsim' hext ⟨?_, Nat.le_refl _⟩
    have hsnap := hpeer.snapshot
    rw [hlog] at hsnap
    exact hsnap.extends hext (Nat.le_refl _) (hext.tlog _)
  · obtain rfl := Option.some.inj (heq.symm.trans hrun)
    refine h.addCall hsim hsim' hext (CommitNote.extends ?_ hl hext)
    rcases hpeer.commit with hzero | ⟨u, i, hu, hcom, hi, -⟩
    · exact .inl hzero
    · -- The whole log goes out, and it has all that was committed up to its term.
      have hin := hcom.prefix_tlog hsim.inv hu (Option.ne_none_iff_exists'.mpr ⟨p, hl⟩)
      have hlen := hin.length_le
      rw [List.length_take, Nat.min_eq_left hcom.le_length] at hlen
      rw [hlog] at hpt
      refine .inr ⟨u, i, (a.tlog (σ.peers p).currentTerm).length, hu, hcom, hi, hlen,
        (hsim.inv.base_prefix _ _ hl).length_le, Nat.le_refl _, hpt, ?_⟩
      rw [List.take_length, hlog]

/-- An index that was delivered may be compacted. -/
theorem Safe.compact (h : Safe σ a) (hsim : Sim σ a) {cmdIndex : ℕ} {snapshot : List UInt8}
    (hdel : delivered (σ.peers p) cmdIndex = true)
    (hrun : (σ.peers p).compact cmdIndex snapshot = some rf) (hsim' : Sim (σ.setPeer p rf) b)
    (hext : a.Extends b) : Safe (σ.setPeer p rf) b := by
  have hp := hsim.peer p
  have hpeer := h.peer p
  rcases hp.log.compact cmdIndex snapshot with heq | ⟨hlt, -, logs, st, heq, -, hrep⟩
  · obtain rfl := Option.some.inj (heq.symm.trans hrun)
    exact h.quiet hsim hsim' hext (.refl _) fun _ hc => .inl hc
  obtain rfl := Option.some.inj (heq.symm.trans hrun)
  have hle : cmdIndex ≤ (σ.peers p).commitIndex := by
    obtain ⟨m, hm, hval⟩ := List.any_eq_true.mp hdel
    simp only [Bool.and_eq_true, decide_eq_true_eq] at hval
    exact hval.2 ▸ (hpeer.applied m hm hval.1).1
  have hlog : b.log p = a.log p := hsim'.log_update hrep (hsim.inv.sound_log p) hext
  have hnew : PeerSafe a p { σ.peers p with
      logs := logs, snapshotIndex := cmdIndex, persister := ⟨st, snapshot⟩ } :=
    ⟨hpeer.commit, hpeer.commit.of_le hle, hpeer.applied, fun _ => le_max_of_le_left hle,
      fun hs q j hj ht => (hpeer.matched hs q j hj ht).imp_right fun hj => hj.trans hlt.le,
      hpeer.matched_le⟩
  exact h.act hsim hsim' hext
    (hnew.quiet (hp.congr rfl rfl rfl rfl hrep) hsim'.peer_update hext hlog (.refl _)) hlt.le
    fun _ hc => .inl hc

/-- What the apply daemon sends is committed. -/
theorem Safe.apply (h : Safe σ a) (hsim : Sim σ a) {cc : ℕ}
    (hrun : ({ σ.peers p with commitCh := cc } : Raft n α).applyLogEntryDaemon = some rf)
    (hsim' : Sim (σ.setPeer p rf) b) (hext : a.Extends b) : Safe (σ.setPeer p rf) b := by
  have hp := hsim.peer p
  have hpeer := h.peer p
  have hrep : ({ σ.peers p with commitCh := cc } : Raft n α).Represents (a.log p) := hp.log
  obtain ⟨msgs, la, rfl, hmsgs⟩ := hrep.applyLoop_eq _ _ hrun
  have hlog : b.log p = a.log p := hsim'.log_update hp.log (hsim.inv.sound_log p) hext
  have hnew : PeerSafe a p { σ.peers p with
      commitCh := cc, applyCh := (σ.peers p).applyCh ++ msgs, lastApplied := la } := by
    refine ⟨hpeer.commit, hpeer.snapshot, fun m hm hv => ?_, hpeer.compacted, hpeer.matched,
      hpeer.matched_le⟩
    rcases List.mem_append.mp hm with hm | hm
    · exact hpeer.applied m hm hv
    obtain ⟨-, -, hsnap, hlast, e, he, hcmd⟩ := hmsgs m hm
    have hle : m.commandIndex ≤ (σ.peers p).commitIndex := hlast
    have hpos : 0 < m.commandIndex := Nat.zero_lt_of_lt hsnap
    refine ⟨hle, hpos, ?_⟩
    rcases hpeer.commit with hzero | ⟨u, i, -, hcom, hi, hpre⟩
    · rw [hzero] at hle
      omega
    · refine ⟨u, i, e, hcom, hle.trans hi, ?_, hcmd⟩
      have hlen := hcom.le_length
      rw [← he, ← getElem?_of_isPrefix hpre (by rw [List.length_take]; omega),
        List.getElem?_take_of_lt (by omega)]
  exact h.act hsim hsim' hext
    (hnew.quiet (hp.congr rfl rfl rfl rfl hp.log) hsim'.peer_update hext hlog (.refl _))
    (Nat.le_refl _) fun _ hc => .inl hc

theorem Safe.notify (h : Safe σ a) (hsim : Sim σ a) {k : ℕ} {c : Call n α}
    (hc : σ.calls[k]? = some c) {args : InstallSnapshotArgs n} {reply : InstallSnapshotReply}
    {epoch : ℕ} (hbody : c.body = .notifying args reply epoch)
    (hsim' : Sim ((σ.setPeer c.server
      ((σ.peers c.server).notifyAppUseNewSnapShot args.snapshot)).setBody k c
        (.installSnapShot args (some reply))) b) (hext : a.Extends b) :
    Safe ((σ.setPeer c.server
      ((σ.peers c.server).notifyAppUseNewSnapShot args.snapshot)).setBody k c
        (.installSnapShot args (some reply))) b := by
  obtain ⟨ch, heq, hch⟩ := notifyAppUseNewSnapShot_eq (σ.peers c.server) args.snapshot
  rw [heq] at hsim' ⊢
  refine h.quiet hsim hsim' hext
    ⟨Nat.le_refl _, rfl, rfl, rfl, fun m hm hv => ?_, fun hs => ⟨hs, rfl, rfl⟩⟩
    (h.set_calls hsim hext hc fun hold => by rwa [hbody] at hold)
  rcases List.mem_append.mp hm with hm | hm
  · exact hm
  · exact nomatch hv.symm.trans (hch m hm)

theorem Safe.restart (h : Safe σ a) (hsim : Sim σ a) {epoch : Fin n → ℕ}
    (hsim' : Sim { σ.setPeer p (Raft.make p (σ.peers p).persister) with epoch := epoch } b)
    (hext : a.Extends b) :
    Safe { σ.setPeer p (Raft.make p (σ.peers p).persister) with epoch := epoch } b := by
  have hp := hsim.peer p
  obtain ⟨ch, heq, hch⟩ := Raft.make_persisted (hsim.persisted p)
  rw [hp.me] at heq
  rw [heq] at hsim' ⊢
  have hlog : b.log p = a.log p := hsim'.log_update hp.log (hsim.inv.sound_log p) hext
  refine h.act hsim hsim' hext ⟨.zero _ _ _, ?_, fun m hm hv => ?_, nofun, nofun, nofun⟩
    (Nat.le_refl _) fun _ hc => .inl hc
  · rw [hlog]
    exact (h.peer p).snapshot.extends hext (Nat.le_refl _) List.prefix_rfl
  · exact nomatch hv.symm.trans (hch m hm)

end Own

/-! ### Every step, every run -/

section Run

variable {σ σ' : Cluster n α} {a b : Protocol n α} {e : Event n α}

/-- **Every step that meets the condition** keeps the invariant. -/
theorem Safe.step (h : Safe σ a) (hsim : Sim σ a) (hok : Truthful σ e)
    (hstep : σ.step e = .ok σ') (hsim' : Sim σ' b) (hext : a.Extends b) (hnow : Recorded b) :
    Safe σ' b := by
  cases e with
  | broadCastVote p =>
    obtain ⟨⟨rf, sent⟩, hrun, rfl⟩ := Option.map_eq_some_iff.mp (orPanic_eq_ok.mp hstep)
    exact h.broadCastVote hsim hrun hsim' hext
  | start p command =>
    obtain rfl := Except.ok.inj hstep
    exact h.start hsim hsim' hext hnow
  | checkConsistency p peer =>
    simp only [Cluster.step] at hstep
    split at hstep
    · cases hstep
    obtain ⟨sent, hrun, rfl⟩ := Option.map_eq_some_iff.mp (orPanic_eq_ok.mp hstep)
    exact h.checkConsistency hsim hrun hsim' hext
  | compact p cmdIndex snapshot =>
    simp only [Cluster.step] at hstep
    split at hstep
    · next hdel =>
      obtain ⟨rf, hrun, rfl⟩ := Option.map_eq_some_iff.mp (orPanic_eq_ok.mp hstep)
      exact h.compact hsim hdel hrun hsim' hext
    · cases hstep
  | apply p =>
    simp only [Cluster.step] at hstep
    split at hstep
    · cases hstep
    · obtain ⟨rf, hrun, rfl⟩ := Option.map_eq_some_iff.mp (orPanic_eq_ok.mp hstep)
      exact h.apply hsim hrun hsim' hext
  | handle k =>
    obtain ⟨c, hc, hrun⟩ := onCall_eq_ok.mp hstep
    rcases handle_cases hrun with ⟨args, rf, reply, hbody, hrpc, rfl⟩ |
      ⟨args, rf, reply, hbody, hrpc, rfl⟩ | ⟨args, rf, reply, installed, hbody, hrpc, rfl⟩
    · exact h.requestVote hsim hc hrpc hsim' hext
    · exact h.appendEntries hsim hc hbody hrpc hsim' hext
    · exact h.installSnapShot hsim hc hbody hrpc hsim' hext
  | notify k =>
    obtain ⟨c, hc, hrun⟩ := onCall_eq_ok.mp hstep
    obtain ⟨args, reply, epoch, hbody, -, rfl⟩ := notify_cases hrun
    exact h.notify hsim hc hbody hsim' hext
  | process k =>
    obtain ⟨c, hc, hrun⟩ := onCall_eq_ok.mp hstep
    obtain ⟨-, ⟨args, reply, hbody, rfl⟩ | ⟨args, reply, rf, hbody, hproc, rfl⟩ |
      ⟨args, reply, hbody, rfl⟩⟩ := process_cases hrun
    · exact h.sendRequestVoteAndProcess hsim hsim' hext hnow
    · have hcon := hok k rfl c hc (args, reply) (by rw [hbody]; rfl)
      exact h.sendAppendEntriesAndProcess hsim hc hbody hcon hproc hsim' hext
    · exact h.sendSnapShotAndProcess hsim hc hbody hsim' hext
  | lose k =>
    obtain ⟨c, -, hrun⟩ := onCall_eq_ok.mp hstep
    obtain rfl := Except.ok.inj hrun
    exact h.calls hsim hsim' hext erase_calls
  | restart p =>
    obtain rfl := Except.ok.inj hstep
    exact h.restart hsim hsim' hext

theorem safe_init (a : Protocol n α) : Safe (Cluster.init n α) a where
  peer _ := ⟨.zero _ _ _, .zero _ _ _, nofun, nofun, nofun, nofun⟩
  call := nofun

/-- A history whose newest state takes nothing for committed that is not. -/
structure SafeHistory (τ : List (Cluster n α)) (a : Protocol n α) : Prop extends History τ a where
  safe : ∀ σ ∈ τ.head?, Safe σ a

/-- **Every run that meets the condition** has such a history, at each of its moments. -/
theorem Cluster.Run.safeHistory {τ : List (Cluster n α)} (h : Run Truthful τ) :
    ∃ a, SafeHistory τ a ∧
      ∀ σ ∈ τ, ∃ τ' b, (σ :: τ') <:+ τ ∧ SafeHistory (σ :: τ') b ∧ b.Extends a := by
  have hinit : SafeHistory [Cluster.init n α] (Repl.empty : Protocol n α).observe := by
    refine ⟨history_init, fun σ hσ => ?_⟩
    obtain rfl := Option.some.inj hσ
    exact safe_init _
  refine Trace.history Repl.Extends.refl (fun _ _ _ => Repl.Extends.trans) hinit
    (fun σ e σ' τ a _ hR hn => ?_) h
  obtain ⟨b, hext, hb⟩ := hR.toHistory.step hn.2
  refine ⟨b, hext, hb, fun σ₀ hσ₀ => ?_⟩
  obtain rfl := Option.some.inj hσ₀
  exact (hR.safe σ rfl).step (hR.sim σ rfl) hn.1 hn.2 (hb.sim _ rfl) hext hb.now

end Run

end RaftKVDB
