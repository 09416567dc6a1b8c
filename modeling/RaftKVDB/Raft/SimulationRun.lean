import RaftKVDB.Raft.SimulationHandlers

/-!
# Every run, in the protocol

The reply processors and the peer's own actions, and then every step of the cluster.

## Main results

* `Sim.step` — every step of the cluster is a sequence of protocol actions
* `Cluster.Run.history` — so every run is related, at each of its moments, to one growing history
-/

namespace RaftKVDB

open Foundations

variable {n : ℕ} {α : Type*}

/-! ### The reply processors -/

section Processors

variable {σ : Cluster n α} {a : Protocol n α} {p : Fin n} {rf : Raft n α} {k : ℕ} {c : Call n α}

/-- A reply of a later term. -/
theorem Sim.adoptTerm (h : Sim σ a) (p : Fin n) (k : ℕ) {t : ℕ}
    (hlt : (σ.peers p).currentTerm < t) :
    Follows a ((σ.setPeer p ((σ.peers p).adoptTerm t).persistState).endCall k) := by
  have hp := h.peer p
  have hs := bump_step hp hlt.le
  have h₁ := hp.adoptTerm h.inv hlt
  exact .of_sim hs rfl (h.finish k hs (Frame.bump a p t) (h₁.congr rfl rfl rfl rfl h₁.log)
    (Raft.persisted_persistState _) h.numbered (.of_ne nofun))

/-- A reply that changes nothing but volatile fields. -/
theorem Sim.volatile (h : Sim σ a) (k : ℕ) (hme : rf.me = (σ.peers p).me)
    (hper : rf.encodeState = (σ.peers p).encodeState)
    (hraft : rf.persister = (σ.peers p).persister) (hstate : rf.state = (σ.peers p).state)
    (hcount : rf.voteCount = (σ.peers p).voteCount) :
    Follows a ((σ.setPeer p rf).endCall k) := by
  obtain ⟨hterm, hvote, hsnap, hlogs⟩ := RaftState.mk.inj hper
  refine .of_sim .refl rfl (h.finish k .refl (Frame.refl a p)
    ((h.peer p).congr hme hterm hvote hstate ?_) ?_ h.numbered
    fun hs => ⟨hstate ▸ hs, hterm, hcount⟩)
  · rw [Raft.Represents]
    rw [hsnap, hlogs]
    exact (h.peer p).log
  · rw [Raft.Persisted]
    rw [hraft, hper]
    exact h.persisted p

/-- One more vote. The server whose reply was processed is no longer waited for. -/
theorem Sim.counted (h : Sim σ a) (hc : σ.calls[k]? = some c) {args : RequestVoteArgs n}
    {reply : RequestVoteReply} (hbody : c.body = .requestVote args (some reply))
    (hs : (σ.peers c.caller).state = .candidate)
    (ht : reply.term = (σ.peers c.caller).currentTerm) (hg : reply.voteGranted = true) :
    Counted a c.caller { σ.peers c.caller with voteCount := (σ.peers c.caller).voteCount + 1 }
      (σ.calls.eraseIdx k) := by
  have hcall := (h.call c (List.mem_of_getElem? hc)).2
  rw [hbody] at hcall
  obtain ⟨hterm, hvote⟩ := hcall.2 reply rfl hg
  rw [← hterm, ht] at hvote
  obtain ⟨counted, hnd, hlen, hv⟩ := h.count c.caller hs
  refine ⟨c.server :: counted, ?_, by simp [hlen], ?_⟩
  · obtain ⟨hk, rfl⟩ := List.getElem?_eq_some_iff.mp hc
    -- The target of the call moves from those waited for to those counted.
    have hperm := (List.getElem_cons_eraseIdx_perm hk).filterMap
      (voteTarget σ.calls[k].caller (σ.peers σ.calls[k].caller).currentTerm)
    have htarget : voteTarget σ.calls[k].caller (σ.peers σ.calls[k].caller).currentTerm σ.calls[k]
        = some σ.calls[k].server := by
      simp [voteTarget, hbody, ← hterm, ht]
    rw [List.filterMap_cons, htarget] at hperm
    refine List.Perm.nodup (List.Perm.cons _ ?_) hnd
    exact (hperm.symm.append_left counted).trans List.perm_middle
  · intro v hmem
    rcases List.mem_cons.mp hmem with rfl | hmem
    · exact hvote
    · exact hv v hmem

/-- The votes counted are votes for the candidate. -/
theorem Counted.majority {calls : List (Call n α)} (hc : Counted a p rf calls)
    (hown : a.voted rf.currentTerm p = some p) (hlt : n / 2 < rf.voteCount) :
    Majority fun v => a.voted rf.currentTerm v = some p := by
  obtain ⟨counted, hnd, hlen, hv⟩ := hc
  refine Majority.of_nodup (l := p :: counted) (List.nodup_append.mp hnd).1 ?_ fun v hmem => ?_
  · rw [Fintype.card_fin, List.length_cons]
    omega
  · rcases List.mem_cons.mp hmem with rfl | hmem
    · exact hown
    · exact hv v hmem

/-- Becoming the leader. -/
theorem PeerRel.becomeLeader (h : PeerRel a p rf) :
    PeerRel (a.elect p rf.currentTerm) p rf.becomeLeader where
  me := h.me
  term := h.term
  vote := h.vote
  log := h.log
  leader _ := by simp [Repl.elect, Raft.becomeLeader]
  candidate hc := nomatch hc

theorem AllNumbered.elect (h : AllNumbered a) (p : Fin n) (t : ℕ) :
    AllNumbered (a.elect p t) := by
  refine ⟨h.1, fun u => ?_⟩
  rcases eq_or_ne u t with rfl | hne
  · simpa [Repl.elect] using h.1 p
  · simpa [Repl.elect, hne] using h.2 u

/-- **A reply to `AppendEntries`** changes nothing but the term and volatile fields. -/
theorem Sim.sendAppendEntriesAndProcess (h : Sim σ a) (k : ℕ) {args : AppendEntriesArgs n α}
    {server : Fin n} {reply : AppendEntriesReply}
    (hrun : (σ.peers p).sendAppendEntriesAndProcess args server reply = some rf) :
    Follows a ((σ.setPeer p rf).endCall k) := by
  rcases Raft.sendAppendEntriesAndProcess_cases hrun with
    rfl | ⟨hlt, rfl⟩ | ⟨-, -, -, rfl⟩ | ⟨-, -, -, -, ci, cc, rfl, -⟩
  · exact h.volatile k rfl rfl rfl rfl rfl
  · exact h.adoptTerm p k hlt
  · exact h.volatile k rfl rfl rfl rfl rfl
  · exact h.volatile k rfl rfl rfl rfl rfl

/-- **A reply to `InstallSnapShot`** changes nothing but the term and volatile fields. -/
theorem Sim.sendSnapShotAndProcess (h : Sim σ a) (p : Fin n) (k : ℕ)
    (args : InstallSnapshotArgs n) (server : Fin n) (reply : InstallSnapshotReply) :
    Follows a ((σ.setPeer p ((σ.peers p).sendSnapShotAndProcess args server reply)).endCall k) := by
  rcases (σ.peers p).sendSnapShotAndProcess_cases args server reply with
    heq | ⟨hlt, heq⟩ | ⟨-, -, -, heq⟩
  · rw [heq]
    exact h.volatile k rfl rfl rfl rfl rfl
  · rw [heq]
    exact h.adoptTerm p k hlt
  · rw [heq]
    exact h.volatile k rfl rfl rfl rfl rfl

/-- **A vote comes in**: it is counted, or it makes the candidate the leader. -/
theorem Sim.sendRequestVoteAndProcess (h : Sim σ a) (hc : σ.calls[k]? = some c)
    {args : RequestVoteArgs n} {reply : RequestVoteReply}
    (hbody : c.body = .requestVote args (some reply)) :
    Follows a ((σ.setPeer c.caller
      ((σ.peers c.caller).sendRequestVoteAndProcess reply)).endCall k) := by
  rcases (σ.peers c.caller).sendRequestVoteAndProcess_cases reply with
    heq | ⟨hlt, heq⟩ | ⟨hs, ht, hg, hcases⟩
  · rw [heq]
    exact h.volatile k rfl rfl rfl rfl rfl
  · rw [heq]
    exact h.adoptTerm c.caller k hlt
  have hp := h.peer c.caller
  have hcounted := h.counted hc hbody hs ht hg
  have hcalls : ∀ b, a.Steps b → ∀ c' ∈ σ.calls.eraseIdx k,
      c'.caller ≠ c'.server ∧ BodyRel b c'.caller c'.server c'.body :=
    fun b hs c' hc' => h.call_extends hs c' (List.mem_of_mem_eraseIdx hc')
  have hsub : ∀ q t, q ≠ c.caller → ((σ.calls.eraseIdx k).filterMap (voteTarget q t)).Sublist
      (σ.calls.filterMap (voteTarget q t)) :=
    fun q t _ => (List.eraseIdx_sublist _ _).filterMap _
  rcases hcases with heq | ⟨hmaj, heq⟩
  · rw [heq]
    exact .of_sim .refl rfl (h.update .refl (Frame.refl a _) (hp.congr rfl rfl rfl rfl hp.log)
      (h.persisted c.caller) h.numbered (hcalls a .refl) hsub fun _ => hcounted)
  · rw [heq]
    obtain ⟨hvote, hlog, hnot⟩ := hp.candidate hs
    have hown : a.voted (σ.peers c.caller).currentTerm c.caller = some c.caller :=
      hp.vote.symm.trans hvote
    have hmajority := hcounted.majority hown hmaj
    -- Nobody else can have been elected, by the votes of the same term.
    have hnone : a.leader (σ.peers c.caller).currentTerm = none := by
      by_contra hne
      obtain ⟨l, hl⟩ := Option.ne_none_iff_exists'.mp hne
      exact hnot (h.inv.leader_unique hl hmajority ▸ hl)
    have hsteps : a.Steps (a.elect c.caller (σ.peers c.caller).currentTerm) :=
      .single (.elect hnone hown hlog hmajority)
    have hnew : PeerRel a c.caller
        { σ.peers c.caller with voteCount := (σ.peers c.caller).voteCount + 1 } :=
      hp.congr rfl rfl rfl rfl hp.log
    exact .of_sim hsteps rfl (h.update hsteps (Frame.elect hnone) hnew.becomeLeader
      (h.persisted c.caller) (h.numbered.elect _ _) (hcalls _ hsteps) hsub nofun)

end Processors

/-! ### The peer's own actions -/

section Own

variable {σ : Cluster n α} {a : Protocol n α} {p : Fin n} {rf : Raft n α}

/-- The calls of an election are about the other peers, and about nobody else's election. -/
theorem filterMap_voteTarget_others (p q : Fin n) (t epoch : ℕ) (args : RequestVoteArgs n) :
    ((Cluster.others p).map fun i => (⟨p, epoch, i, .requestVote args none⟩ : Call n α)).filterMap
      (voteTarget q t) = if p = q ∧ args.term = t then Cluster.others p else [] := by
  rw [List.filterMap_map]
  split <;> simp [voteTarget, Function.comp_def, *]

/-- No call is about an election that the candidate has not started. -/
theorem Sim.filterMap_voteTarget (h : Sim σ a) {t : ℕ} (hnone : a.voted t p = none) :
    σ.calls.filterMap (voteTarget p t) = [] := by
  refine List.filterMap_eq_nil_iff.mpr fun c hc => ?_
  have hcall := (h.call c hc).2
  rw [voteTarget]
  split
  · next args reply hb =>
    refine if_neg fun hargs => ?_
    rw [hb] at hcall
    have hv := hcall.1.2.1
    rw [hargs.1, hargs.2, hnone] at hv
    cases hv
  · rfl

theorem nodup_cons_others (p : Fin n) : (p :: Cluster.others p).Nodup :=
  List.nodup_cons.mpr ⟨by simp [Cluster.others], (List.nodup_finRange n).filter _⟩

/-- **An election starts**: a later term and a vote for oneself. -/
theorem Sim.broadCastVote (h : Sim σ a) {sent : Option (RequestVoteArgs n)}
    (hrun : (σ.peers p).broadCastVote = some (rf, sent)) :
    Follows a (sent.elim (σ.setPeer p rf) ((σ.setPeer p rf).sendVotes p)) := by
  have hp := h.peer p
  by_cases hlead : (σ.peers p).state = .leader
  · rw [Raft.broadCastVote, if_pos hlead] at hrun
    obtain ⟨rfl, rfl⟩ := Prod.mk.inj (Option.some.inj hrun)
    exact .of_sim .refl rfl
      (h.setPeer .refl (Frame.refl a p) hp (h.persisted p) h.numbered (.refl _))
  obtain ⟨st, heq, hper⟩ := hp.log.broadCastVote hlead
  obtain ⟨hrf, rfl⟩ := Prod.mk.inj (Option.some.inj (heq.symm.trans hrun))
  have hs₁ := bump_step hp (Nat.le_add_right (σ.peers p).currentTerm 1)
  have hfresh : a.voted ((σ.peers p).currentTerm + 1) p = none :=
    voted_eq_none h.inv (hp.term ▸ Nat.lt_succ_self _)
  have hlast : lastTerm (a.log p) < (σ.peers p).currentTerm + 1 := by
    have := h.inv.log_le p _ _ (termAt_length (a.log p))
    have := hp.term
    omega
  generalize hT : (σ.peers p).currentTerm + 1 = t at *
  have hs : a.Steps ((a.bump p t).vote p p t) :=
    hs₁.tail (.vote (by simp [Repl.bump]) hfresh (.inl ⟨rfl, hlast⟩))
  have hvoted : ((a.bump p t).vote p p t).voted t p = some p := by
    rw [Repl.update_voted, if_pos ⟨rfl, rfl⟩]
  have hvoteLog : ((a.bump p t).vote p p t).voteLog t p = a.log p := by
    rw [Repl.update_voteLog, if_pos ⟨rfl, rfl⟩]
    rfl
  subst hrf
  refine .of_sim hs rfl (h.update hs ((Frame.bump a p _).trans (Frame.vote _ p p _)) ?_ hper
    h.numbered (fun c hc => ?_) (fun q u hq => ?_) fun _ => ?_)
  · refine ⟨hp.me, by simp [Repl.vote, Repl.bump], by rw [hvoted, hp.me], hp.log, by simp,
      fun _ => ⟨by rw [hp.me], hvoteLog.symm, fun hl => ?_⟩⟩
    -- A leader of the new term would have voted in it already.
    cases hfresh.symm.trans (h.inv.leader_base _ _ hl).1
  · rcases List.mem_append.mp hc with hc | hc
    · exact h.call_extends hs c hc
    · obtain ⟨i, hi, rfl⟩ := List.mem_map.mp hc
      have hne : i ≠ p := by simpa [Cluster.others] using hi
      exact ⟨hne.symm, ⟨hp.me, hvoted, by rw [hvoteLog], by rw [hvoteLog]⟩, by simp⟩
  · rw [List.filterMap_append, filterMap_voteTarget_others, if_neg fun hpq => hq hpq.1.symm,
      List.append_nil]
    exact .refl _
  · refine ⟨[], ?_, rfl, by simp⟩
    rw [List.filterMap_append, filterMap_voteTarget_others, if_pos ⟨rfl, rfl⟩,
      Cluster.setPeer_calls, h.filterMap_voteTarget hfresh]
    exact nodup_cons_others p

theorem AllNumbered.append (h : AllNumbered a) {t : ℕ} {e : LogEntry α}
    (hlog : a.log p = a.tlog t) (he : e.globalIndex = (a.tlog t).length + 1) :
    AllNumbered (a.append p t e) := by
  refine ⟨fun q => ?_, fun u => ?_⟩
  · rcases eq_or_ne q p with rfl | hne
    · simpa [Repl.append, hlog] using (h.2 t).append he
    · simpa [Repl.append, hne] using h.1 q
  · rcases eq_or_ne u t with rfl | hne
    · simpa [Repl.append] using (h.2 u).append he
    · simpa [Repl.append, hne] using h.2 u

/-- **`Start`** at the leader writes an entry. -/
theorem Sim.start (h : Sim σ a) (p : Fin n) (command : Option α) :
    Follows a (σ.setPeer p ((σ.peers p).start command).1) := by
  have hp := h.peer p
  by_cases hlead : (σ.peers p).state = .leader
  · obtain ⟨logs, st, ni, heq, hper, hrep⟩ := hp.log.start hlead command
    obtain ⟨hl, hlog⟩ := hp.leader hlead
    have hs : a.Steps (a.append p (σ.peers p).currentTerm
        ⟨(a.log p).length + 1, (σ.peers p).currentTerm, command⟩) :=
      .single (.append hl hp.term.symm hlog rfl)
    rw [heq]
    refine .of_sim hs rfl (h.setPeer hs (Frame.append hl _)
      ⟨hp.me, hp.term, hp.vote, ?_, fun _ => ?_, ?_⟩ hper (h.numbered.append hlog (by rw [hlog]))
      (.of_ne fun hc => nomatch hlead.symm.trans hc))
    · simpa [Repl.append, Raft.Represents] using hrep
    · exact ⟨hl, by simp [Repl.append, hlog]⟩
    · exact fun hc => nomatch hlead.symm.trans hc
  · rw [Raft.start, if_neg hlead]
    exact .of_sim .refl rfl
      (h.setPeer .refl (Frame.refl a p) hp (h.persisted p) h.numbered (.refl _))

/-- A call begins that is not about a vote. -/
theorem Sim.addCall (h : Sim σ a) {server : Fin n} {body : Body n α} (hne : p ≠ server)
    (hbody : BodyRel a p server body)
    (htarget : ∀ q t, voteTarget q t (⟨p, σ.epoch p, server, body⟩ : Call n α) = none) :
    Sim (σ.addCall p server body) a := by
  refine ⟨h.inv, h.peer, h.persisted, fun c hc => ?_, fun q hq => ?_, h.numbered⟩
  · rcases List.mem_append.mp hc with hc | hc
    · exact h.call c hc
    · obtain rfl := List.mem_singleton.mp hc
      exact ⟨hne, hbody⟩
  · refine (h.count q hq).mono (.refl a) ?_
    rw [Cluster.addCall]
    rw [List.filterMap_append, List.filterMap_cons, htarget]
    simp

/-- **`checkConsistency`** sends a request that says no more than what the leader's log holds. -/
theorem Sim.checkConsistency (h : Sim σ a) {peer : Fin n} (hne : p ≠ peer)
    {sent : Option (Raft.Request n α)}
    (hrun : (σ.peers p).checkConsistency peer = some sent) :
    Sim (sent.elim σ (σ.sendRequest p peer)) a := by
  have hp := h.peer p
  by_cases hlead : (σ.peers p).state = .leader
  · obtain ⟨hl, hlog⟩ := hp.leader hlead
    have hbase := h.inv.base_prefix _ _ hl
    rcases hp.log.checkConsistency hlead peer with
      ⟨-, dt, hdt, heq⟩ | ⟨-, pt, hpt, heq⟩
    · obtain rfl := Option.some.inj (heq.symm.trans hrun)
      exact h.addCall hne ⟨hl, hlog ▸ hdt⟩ fun _ _ => rfl
    · obtain rfl := Option.some.inj (heq.symm.trans hrun)
      rw [hlog] at hpt
      refine h.addCall hne ⟨⟨hl, (a.tlog (σ.peers p).currentTerm).length, hbase.length_le,
        Nat.le_refl _, hpt, ?_⟩, nofun⟩ fun _ _ => rfl
      rw [List.take_length, hlog]
  · rw [Raft.checkConsistency, if_pos hlead] at hrun
    obtain rfl := Option.some.inj hrun
    exact h

/-- **`Compact`** is invisible. -/
theorem Sim.compact (h : Sim σ a) {cmdIndex : ℕ} {snapshot : List UInt8}
    (hrun : (σ.peers p).compact cmdIndex snapshot = some rf) : Sim (σ.setPeer p rf) a := by
  have hp := h.peer p
  rcases hp.log.compact cmdIndex snapshot with heq | ⟨-, -, logs, st, heq, hper, hrep⟩
  · obtain rfl := Option.some.inj (heq.symm.trans hrun)
    exact h.setPeer .refl (Frame.refl a p) hp (h.persisted p) h.numbered (.refl _)
  · obtain rfl := Option.some.inj (heq.symm.trans hrun)
    exact h.setPeer .refl (Frame.refl a p) (hp.congr rfl rfl rfl rfl hrep) hper h.numbered
      fun hs => ⟨hs, rfl, rfl⟩

/-- The apply daemon is invisible. -/
theorem Sim.apply (h : Sim σ a) {cc : ℕ}
    (hrun : ({ σ.peers p with commitCh := cc } : Raft n α).applyLogEntryDaemon = some rf) :
    Sim (σ.setPeer p rf) a := by
  have hp := h.peer p
  have hlog : ({ σ.peers p with commitCh := cc } : Raft n α).Represents (a.log p) := hp.log
  obtain ⟨msgs, la, rfl, -⟩ := hlog.applyLoop_eq _ _ hrun
  exact h.setPeer .refl (Frame.refl a p) (hp.congr rfl rfl rfl rfl hp.log) (h.persisted p)
    h.numbered fun hs => ⟨hs, rfl, rfl⟩

/-- A message to the application is invisible. -/
theorem notifyAppUseNewSnapShot_eq (rf : Raft n α) (snapshot : List UInt8) : ∃ ch,
    rf.notifyAppUseNewSnapShot snapshot = { rf with applyCh := rf.applyCh ++ ch } ∧
      ∀ m ∈ ch, m.commandValid = false := by
  rw [Raft.notifyAppUseNewSnapShot]
  split
  · exact ⟨[], by rw [List.append_nil], by simp⟩
  · exact ⟨_, rfl, by simp⟩

theorem Sim.notify (h : Sim σ a) {k : ℕ} {c : Call n α} (hc : σ.calls[k]? = some c)
    {args : InstallSnapshotArgs n} {reply : InstallSnapshotReply} {epoch : ℕ}
    (hbody : c.body = .notifying args reply epoch) :
    Sim ((σ.setPeer c.server ((σ.peers c.server).notifyAppUseNewSnapShot args.snapshot)).setBody
      k c (.installSnapShot args (some reply))) a := by
  have hp := h.peer c.server
  have hcall := (h.call c (List.mem_of_getElem? hc)).2
  rw [hbody] at hcall
  obtain ⟨ch, heq, -⟩ := notifyAppUseNewSnapShot_eq (σ.peers c.server) args.snapshot
  rw [heq]
  exact h.answer hc .refl (Frame.refl a _) (hp.congr rfl rfl rfl rfl hp.log) (h.persisted _)
    h.numbered hcall (fun q t => by simp [voteTarget, hbody]) fun hs => ⟨hs, rfl, rfl⟩

theorem Sim.endCall (h : Sim σ a) (k : ℕ) : Sim (σ.endCall k) a :=
  ⟨h.inv, h.peer, h.persisted, fun c hc => h.call c (List.mem_of_mem_eraseIdx hc),
    fun p hs => (h.count p hs).mono (.refl a) ((List.eraseIdx_sublist _ _).filterMap _),
    h.numbered⟩

/-- **A restart** makes a follower of the peer and is otherwise invisible. -/
theorem Sim.restart (h : Sim σ a) (p : Fin n) (epoch : Fin n → ℕ) :
    Sim { σ.setPeer p (Raft.make p (σ.peers p).persister) with epoch := epoch } a := by
  have hp := h.peer p
  obtain ⟨ch, heq, -⟩ := Raft.make_persisted (h.persisted p)
  rw [hp.me] at heq
  rw [heq]
  exact h.act .refl (Frame.refl a p)
    ⟨rfl, hp.term, hp.vote, hp.log, nofun, nofun⟩ (h.persisted p)
    h.numbered h.call (fun _ _ => .refl _) (.of_ne nofun)

end Own

/-! ### Every step, every run -/

/-- **Every step of the cluster** is a sequence of protocol actions. -/
theorem Sim.step {σ σ' : Cluster n α} {a : Protocol n α} (h : Sim σ a) {e : Event n α}
    (hstep : σ.step e = .ok σ') : Follows a σ' := by
  cases e with
  | broadCastVote p =>
    obtain ⟨⟨rf, sent⟩, hrun, rfl⟩ :=
      Option.map_eq_some_iff.mp (Cluster.orPanic_eq_ok.mp hstep)
    exact h.broadCastVote hrun
  | start p command =>
    obtain rfl := Except.ok.inj hstep
    exact h.start p command
  | checkConsistency p peer =>
    simp only [Cluster.step] at hstep
    split at hstep
    · cases hstep
    next hne =>
    obtain ⟨sent, hrun, rfl⟩ := Option.map_eq_some_iff.mp (Cluster.orPanic_eq_ok.mp hstep)
    exact .of_sim .refl rfl (h.checkConsistency hne hrun)
  | compact p cmdIndex snapshot =>
    simp only [Cluster.step] at hstep
    split at hstep
    · obtain ⟨rf, hrun, rfl⟩ := Option.map_eq_some_iff.mp (Cluster.orPanic_eq_ok.mp hstep)
      exact .of_sim .refl rfl (h.compact hrun)
    · cases hstep
  | apply p =>
    simp only [Cluster.step] at hstep
    split at hstep
    · cases hstep
    · obtain ⟨rf, hrun, rfl⟩ := Option.map_eq_some_iff.mp (Cluster.orPanic_eq_ok.mp hstep)
      exact .of_sim .refl rfl (h.apply hrun)
  | handle k =>
    obtain ⟨c, hc, hrun⟩ := Cluster.onCall_eq_ok.mp hstep
    rcases Cluster.handle_cases hrun with ⟨args, rf, reply, hbody, hrpc, rfl⟩ |
      ⟨args, rf, reply, hbody, hrpc, rfl⟩ | ⟨args, rf, reply, installed, hbody, hrpc, rfl⟩
    · exact h.requestVote hc hbody hrpc
    · exact h.appendEntries hc hbody hrpc
    · exact h.installSnapShot hc _ hbody hrpc
  | notify k =>
    obtain ⟨c, hc, hrun⟩ := Cluster.onCall_eq_ok.mp hstep
    obtain ⟨args, reply, epoch, hbody, -, rfl⟩ := Cluster.notify_cases hrun
    exact .of_sim .refl rfl (h.notify hc hbody)
  | process k =>
    obtain ⟨c, hc, hrun⟩ := Cluster.onCall_eq_ok.mp hstep
    obtain ⟨-, ⟨args, reply, hbody, rfl⟩ | ⟨args, reply, rf, hbody, hproc, rfl⟩ |
      ⟨args, reply, hbody, rfl⟩⟩ := Cluster.process_cases hrun
    · exact h.sendRequestVoteAndProcess hc hbody
    · exact h.sendAppendEntriesAndProcess k hproc
    · exact h.sendSnapShotAndProcess c.caller k args c.server reply
  | lose k =>
    obtain ⟨c, -, hrun⟩ := Cluster.onCall_eq_ok.mp hstep
    obtain rfl := Except.ok.inj hrun
    exact .of_sim .refl rfl (h.endCall k)
  | restart p =>
    obtain rfl := Except.ok.inj hstep
    exact .of_sim .refl rfl (h.restart p _)

theorem sim_init : Sim (Cluster.init n α) Repl.empty where
  inv := Repl.inv_empty
  peer _ := ⟨rfl, rfl, rfl, ⟨Nat.le_refl _, _, rfl, rfl, rfl⟩, nofun, nofun⟩
  persisted _ := rfl
  call := nofun
  count _ h := nomatch h
  numbered := ⟨fun _ => nofun, fun _ => nofun⟩

/-- What every peer holds now of the log of its term is on record. -/
def Recorded (a : Protocol n α) : Prop :=
  ∀ q m, m ≤ (a.tlog (a.term q)).length → (a.tlog (a.term q)).take m <+: a.log q →
    a.acked q (a.term q) m

/-- The protocol state of a run: related to the newest state of the cluster, knowing what every
peer holds now, and nothing about the past that did not happen. -/
structure History (τ : List (Cluster n α)) (a : Protocol n α) : Prop where
  sim : ∀ σ ∈ τ.head?, Sim σ a
  now : Recorded a
  past : ∀ q t m, a.acked q t m → m ≤ (a.tlog t).length ∧ ∃ σ ∈ τ,
    (σ.peers q).currentTerm = t ∧ ∃ G, (σ.peers q).Represents G ∧ (a.tlog t).take m <+: G

/-- A step of the cluster extends the history. -/
theorem History.step {σ σ' : Cluster n α} {τ : List (Cluster n α)} {a : Protocol n α}
    (h : History (σ :: τ) a) {e : Event n α} (hstep : σ.step e = .ok σ') :
    ∃ b, a.Extends b ∧ History (σ' :: σ :: τ) b := by
  have hsim : Sim σ a := h.sim σ rfl
  obtain ⟨b, hs, hacked, hsim'⟩ := hsim.step hstep
  obtain ⟨hinv, hext⟩ := hs.inv_extends hsim.inv
  refine ⟨b.observe, hext.trans (Repl.Step.observe.extends hinv), ?_, ?_, ?_⟩
  · intro σ₀ hσ₀
    obtain rfl := Option.some.inj hσ₀
    exact hsim'
  · exact fun q m hm hpre => .inr ⟨rfl, hm, hpre⟩
  · rintro q t m (hold | ⟨hterm, hm, hpre⟩)
    · rw [hacked] at hold
      obtain ⟨hm, σ₀, hσ₀, hterm, G, hG, hpre⟩ := h.past q t m hold
      refine ⟨hm.trans (hext.tlog t).length_le, σ₀, List.mem_cons_of_mem _ hσ₀, hterm, G, hG, ?_⟩
      rwa [show b.observe.tlog = b.tlog from rfl, ← take_eq_of_isPrefix (hext.tlog t) hm]
    · have hp := hsim'.peer q
      exact ⟨hm, σ', List.mem_cons_self, hp.term.trans hterm, _, hp.log, hpre⟩

theorem history_init : History [Cluster.init n α] (Repl.empty : Protocol n α).observe := by
  refine ⟨fun σ hσ => ?_, fun q m hm hpre => .inr ⟨rfl, hm, hpre⟩, ?_⟩
  · obtain rfl := Option.some.inj hσ
    exact sim_init.observe
  · rintro q t m (hold | ⟨hterm, hm, hpre⟩)
    · exact hold.elim
    · have hp := (sim_init (n := n) (α := α)).peer q
      exact ⟨hm, _, List.mem_singleton_self _, hp.term.trans hterm, _, hp.log, hpre⟩

/-- **Every run has a history**, and every moment of it had one that the last one extends. -/
theorem Cluster.Run.history {ok : Cluster n α → Event n α → Prop} {τ : List (Cluster n α)}
    (h : Cluster.Run ok τ) : ∃ a, History τ a ∧
      ∀ σ ∈ τ, ∃ τ' b, (σ :: τ') <:+ τ ∧ History (σ :: τ') b ∧ b.Extends a :=
  Trace.history Repl.Extends.refl (fun _ _ _ => Repl.Extends.trans) history_init
    (fun _ _ _ _ _ _ hR hn => hR.step hn.2) h

end RaftKVDB
