import RaftKVDB.Raft.Simulation

/-!
# The handlers, in the protocol

Granting a vote is a vote of the protocol, and taking over entries or a snapshot is taking over a
prefix of the leader's log. The answer carries what the protocol now has on record.

## Main results

* `Sim.requestVote`, `Sim.appendEntries`, `Sim.installSnapShot`
-/

namespace RaftKVDB

open Foundations

variable {n : ℕ} {α : Type*}

/-! ### The handlers -/

section Handlers

variable {σ : Cluster n α} {a : Protocol n α} {rf : Raft n α} {k : ℕ} {c : Call n α}

/-- A peer that has not voted in its term is neither its candidate nor its leader. -/
theorem PeerRel.follower_of_vote {p : Fin n} (h : PeerRel a p rf) (hinv : a.Inv)
    (hv : rf.votedFor = none) : rf.state = .follower := by
  rcases hs : rf.state with _ | _ | _
  · rfl
  · exact nomatch hv.symm.trans (h.candidate hs).1
  · have hlead := (hinv.leader_base _ _ (h.leader hs).1).1
    exact nomatch hv.symm.trans (h.vote.trans hlead)

/-- **`RequestVote`** is a vote, or nothing but a later term. -/
theorem Sim.requestVote (h : Sim σ a) (hc : σ.calls[k]? = some c) {args : RequestVoteArgs n}
    {reply : RequestVoteReply} (hbody : c.body = .requestVote args none)
    (hrun : (σ.peers c.server).requestVote args = some (rf, reply)) :
    Follows a ((σ.setPeer c.server rf).setBody k c (.requestVote args (some reply))) := by
  have hcall := (h.call c (List.mem_of_getElem? hc)).2
  rw [hbody] at hcall
  obtain ⟨hreq, -⟩ := hcall
  have hp := h.peer c.server
  have htarget : ∀ q t, voteTarget q t
      ({ c with body := .requestVote args (some reply) } : Call n α) = voteTarget q t c :=
    fun q t => by simp [voteTarget, hbody]
  rcases Nat.lt_or_ge args.term (σ.peers c.server).currentTerm with hlt | hge
  · rw [Raft.requestVote, if_pos hlt] at hrun
    obtain ⟨rfl, rfl⟩ := Prod.mk.inj (Option.some.inj hrun)
    refine .of_sim .refl rfl (h.answer hc .refl (Frame.refl a _) hp (h.persisted _) h.numbered
      ⟨hreq, fun r hr hg => ?_⟩ htarget (.refl _))
    obtain rfl := Option.some.inj hr
    cases hg
  obtain ⟨v, st, granted, heq, hper, hv, hgrant, hgrant'⟩ :=
    hp.log.requestVote (h.persisted _) args hge
  obtain ⟨rfl, rfl⟩ := Prod.mk.inj (Option.some.inj (heq.symm.trans hrun))
  have h₁ := hp.seeTerm h.inv hge
  have hs₁ := bump_step hp hge
  have hterm := Raft.seeTerm_currentTerm hge
  have hcand := sameCandidacy_seeTerm (σ.peers c.server) args.term
  obtain ⟨hinv₁, hext₁⟩ := hs₁.inv_extends h.inv
  by_cases hsame : v = ((σ.peers c.server).seeTerm args.term).votedFor
  · refine .of_sim hs₁ rfl (h.answer hc hs₁ (Frame.bump a _ _)
      (h₁.congr rfl rfl hsame rfl h₁.log) hper h.numbered
      ⟨hreq.extends hext₁, fun r hr hg => ?_⟩ htarget hcand)
    obtain rfl := Option.some.inj hr
    refine ⟨rfl, ?_⟩
    have hvote := h₁.vote
    rw [← hsame, (hgrant hg).1, hterm, hreq.1] at hvote
    exact hvote.symm
  · -- A vote that was not there before is granted, to a candidate with an up-to-date log.
    obtain ⟨hnone, rfl⟩ := hv.resolve_left hsame
    have hup := (hgrant (hgrant' hsame)).2
    have hfol := h₁.follower_of_vote hinv₁ hnone
    have hvote := h₁.vote
    rw [hnone, hterm] at hvote
    have hs₂ : a.Steps ((a.bump c.server args.term).vote c.server c.caller args.term) := by
      rw [hreq.2.2.1, hreq.2.2.2] at hup
      exact hs₁.tail (.vote (by simp [Repl.bump]) hvote.symm (.inr ⟨hreq.2.1, hup⟩))
    have hvoted : ((a.bump c.server args.term).vote c.server c.caller args.term).voted
        args.term c.server = some c.caller := by
      rw [Repl.update_voted, if_pos ⟨rfl, rfl⟩]
    refine .of_sim hs₂ rfl (h.answer hc hs₂ ((Frame.bump a _ _).trans (Frame.vote _ _ _ _)) ?_ hper
      h.numbered ⟨hreq.extends (hs₂.inv_extends h.inv).2, fun r hr _ => ?_⟩ htarget ?_)
    · refine ⟨h₁.me, h₁.term, ?_, h₁.log, fun hs => (by cases hfol.symm.trans hs),
        fun hs => (by cases hfol.symm.trans hs)⟩
      simp only [hterm]
      rw [hvoted, hreq.1]
    · obtain rfl := Option.some.inj hr
      exact ⟨rfl, hvoted⟩
    · exact .of_ne fun hs => by cases hfol.symm.trans hs

/-- What an append request does to the full log of a peer that accepts it. -/
theorem BuiltFrom.accepted {p q : Fin n} {args : AppendEntriesArgs n α} {m : ℕ}
    (hreq : BuiltFrom a args m) (hl : a.leader args.term = some p) (hinv : a.Inv)
    (ht : termAt (a.log q) args.prevLogIndex = some args.prevLogTerm) :
    (Raft.splice (a.log q) args.prevLogIndex args.entries = a.log q ∨
        ¬(a.tlog args.term).take m <+: a.log q ∧
        Raft.splice (a.log q) args.prevLogIndex args.entries = (a.tlog args.term).take m) ∧
      ((args.prevLogIndex + args.entries.length ≤ (a.tlog args.term).length ∧
          (a.tlog args.term).take (args.prevLogIndex + args.entries.length) <+:
            Raft.splice (a.log q) args.prevLogIndex args.entries) ∨
        (a.base args.term).length < args.prevLogIndex ∧ args.prevLogTerm ≠ args.term) := by
  obtain ⟨hbm, hm, htm, he⟩ := hreq
  rcases Nat.le_total args.prevLogIndex m with hpm | hmp
  · rw [Nat.min_eq_left hpm] at htm
    obtain ⟨hcopy, hcases⟩ := Raft.splice_eq (hinv.sound_log q) (hinv.sound_tlog args.term) hm hpm
      ht htm
    have hlen : args.prevLogIndex + ((a.tlog args.term).take m |>.drop args.prevLogIndex).length
        = m := by
      simp [hm, hpm]
    rw [he, hlen]
    exact ⟨hcases, .inl ⟨hm, hcopy⟩⟩
  · have hnil : args.entries = [] := by
      rw [he]
      exact List.drop_eq_nil_of_le (by simp [hm, hmp])
    rw [hnil, Raft.splice_nil, List.length_nil, Nat.add_zero]
    refine ⟨.inl rfl, ?_⟩
    -- The request has no entries; it is worth what the log of its term has at `prevLogIndex` now.
    by_cases hnow : termAt (a.tlog args.term) args.prevLogIndex = some args.prevLogTerm
    · refine .inl ⟨le_length_of_termAt hnow, ?_⟩
      rw [← (hinv.sound_log q).take_eq (hinv.sound_tlog _) ht hnow]
      exact List.take_prefix _ _
    · have hlt : m < args.prevLogIndex := by
        refine lt_of_le_of_ne hmp fun heq => hnow ?_
        rw [Nat.min_eq_right hmp] at htm
        rw [← heq, htm]
      refine .inr ⟨by omega, fun hterm => hnow ?_⟩
      have hpre := hinv.sound_log q _ _ ht
      rw [hterm] at hpre
      have hle := hpre.length_le
      rw [List.length_take, Nat.min_eq_left (le_length_of_termAt ht)] at hle
      rw [hterm]
      exact hinv.written _ _ _ hl (by omega) hle

/-- Taking over a prefix of a leader's log keeps the entries numbered. -/
theorem AllNumbered.replace {p : Fin n} (h : AllNumbered a) (t m : ℕ) :
    AllNumbered (a.replace p t m) := by
  refine ⟨fun q => ?_, h.2⟩
  rcases eq_or_ne q p with rfl | hne
  · simpa [Repl.replace] using (h.2 t).of_isPrefix (List.take_prefix _ _)
  · simpa [Repl.replace, hne] using h.1 q

/-- `G` is the log of `q`, or a prefix of the leader's log that it did not contain. -/
def TakesLog (a : Protocol n α) (q : Fin n) (t : ℕ) (G : List (LogEntry α)) : Prop :=
  G = a.log q ∨ ∃ m, ¬(a.tlog t).take m <+: a.log q ∧ G = (a.tlog t).take m

/-- A follower keeps its log or takes over a prefix of the leader's. -/
theorem PeerRel.takeLog {p : Fin n} {rf' : Raft n α} {t : ℕ} {G : List (LogEntry α)}
    (h : PeerRel a p rf) (hs : rf.state = .follower) (hlog : rf'.Represents G)
    (hme : rf'.me = rf.me) (hterm : rf'.currentTerm = rf.currentTerm)
    (hvote : rf'.votedFor = rf.votedFor) (hstate : rf'.state = rf.state)
    (hl : a.leader t ≠ none) (ht : a.term p = t) (hnum : AllNumbered a)
    (hG : TakesLog a p t G) :
    ∃ b, a.Steps b ∧ Frame a b p ∧ PeerRel b p rf' ∧ AllNumbered b ∧ b.acked = a.acked ∧
      b.base = a.base ∧ b.tlog = a.tlog ∧ b.term p = t ∧ b.log p = G := by
  rcases hG with rfl | ⟨m, hnot, rfl⟩
  · exact ⟨a, .refl, Frame.refl a p, h.congr hme hterm hvote hstate hlog, hnum, rfl, rfl, rfl, ht,
      rfl⟩
  · exact ⟨_, .single (.replace hl ht hnot), Frame.replace _ _ _ _,
      h.replace hs hme hterm hvote hstate hlog, hnum.replace _ _, rfl, rfl, rfl,
      ht, by simp [Repl.replace]⟩

/-- **`AppendEntries`** takes over a prefix of the leader's log, or changes nothing but the term. -/
theorem Sim.appendEntries (h : Sim σ a) (hc : σ.calls[k]? = some c)
    {args : AppendEntriesArgs n α} {reply : AppendEntriesReply}
    (hbody : c.body = .appendEntries args none)
    (hrun : (σ.peers c.server).appendEntries args = some (rf, reply)) :
    Follows a ((σ.setPeer c.server rf).setBody k c (.appendEntries args (some reply))) := by
  have hcall := (h.call c (List.mem_of_getElem? hc)).2
  rw [hbody] at hcall
  obtain ⟨hreq, -⟩ := hcall
  have hp := h.peer c.server
  have htarget : ∀ q t, voteTarget q t
      ({ c with body := .appendEntries args (some reply) } : Call n α) = voteTarget q t c :=
    fun q t => by simp [voteTarget, hbody]
  rcases Nat.lt_or_ge args.term (σ.peers c.server).currentTerm with hlt | hge
  · rw [Raft.appendEntries, if_pos hlt] at hrun
    obtain ⟨rfl, rfl⟩ := Prod.mk.inj (Option.some.inj hrun)
    refine .of_sim .refl rfl (h.answer hc .refl (Frame.refl a _) hp (h.persisted _) h.numbered
      ⟨hreq, fun r hr hg => ?_⟩ htarget (.refl _))
    obtain rfl := Option.some.inj hr
    cases hg
  have h₁ := hp.followLeader h.inv hge
  have hs₁ := bump_step hp hge
  have hterm := Raft.followLeader_currentTerm hge
  have hfol := Raft.followLeader_state (σ.peers c.server) args.term
  obtain ⟨hinv₁, hext₁⟩ := hs₁.inv_extends h.inv
  have hcand : ∀ rf' : Raft n α, rf'.state = ((σ.peers c.server).followLeader args.term).state →
      SameCandidacy (σ.peers c.server) rf' :=
    fun rf' hs => .of_ne fun hs' => by cases hfol.symm.trans (hs.symm.trans hs')
  rcases hp.log.appendEntries (h.persisted _) args hge with
    ⟨st, ci, heq, hper, -⟩ | ⟨hsnap, ht, logs, st, cc, heq, hper, hrep⟩
  · obtain ⟨rfl, rfl⟩ := Prod.mk.inj (Option.some.inj (heq.symm.trans hrun))
    refine .of_sim hs₁ rfl (h.answer hc hs₁ (Frame.bump a _ _)
      (h₁.congr rfl rfl rfl rfl h₁.log) hper h.numbered
      ⟨hreq.extends hext₁, fun r hr hg => ?_⟩ htarget (hcand _ rfl))
    obtain rfl := Option.some.inj hr
    cases hg
  · obtain ⟨hrf, rfl⟩ := Prod.mk.inj (Option.some.inj (heq.symm.trans hrun))
    have hlog : rf.Represents (Raft.splice (a.log c.server) args.prevLogIndex args.entries) := by
      obtain ⟨v, c', hfl, -⟩ := Raft.followLeader_eq (σ.peers c.server) args.term
      rw [← hrf, hfl]
      exact hrep
    subst hrf
    obtain ⟨hl, m, hbuilt⟩ := hreq
    obtain ⟨hcases, hack⟩ := hbuilt.accepted hl h.inv ht
    -- The log of the peer is what the splice gives, and this is recorded.
    obtain ⟨b, hs, hf, hpr, hnum, hacked, hbase, htlog, hbterm, hblog⟩ :=
      h₁.takeLog (t := args.term) hfol hlog rfl rfl rfl rfl
        (Option.ne_none_iff_exists'.mpr ⟨c.caller, hl⟩) (by simp [Repl.bump]) h.numbered
        (hcases.imp_right fun hcopy => ⟨m, hcopy⟩)
    have hsteps : a.Steps b := hs₁.trans hs
    have hseen : a.Steps b.observe := hsteps.tail .observe
    refine ⟨b, hsteps, hacked, h.answer hc hseen
      (((Frame.bump a _ _).trans hf).trans (Frame.observe _ _))
      ⟨hpr.me, hpr.term, hpr.vote, hpr.log, hpr.leader, hpr.candidate⟩ hper hnum
      ⟨AppendRequest.extends ⟨hl, m, hbuilt⟩ (hseen.inv_extends h.inv).2, fun r hr _ => ?_⟩
      htarget (hcand _ rfl)⟩
    obtain rfl := Option.some.inj hr
    refine ⟨rfl, hack.imp (fun hin => .inr ⟨hbterm, ?_, ?_⟩) fun hlt => ?_⟩
    · rw [htlog]
      exact hin.1
    · rw [htlog, hblog]
      exact hin.2
    · have : b.observe.base = a.base := hbase
      rwa [this]

/-- The full log after a snapshot was installed: the old one if it had the entry of the snapshot,
and else the leader's log up to there. -/
theorem SnapRequest.installed {p q : Fin n} {args : InstallSnapshotArgs n}
    {logs : List (LogEntry α)} (hreq : SnapRequest a p args) (hinv : a.Inv)
    (hrep : termAt (a.log q) args.lastIncludedIndex = some args.lastIncludedTerm ∧
        Raft.RepresentsFrom args.lastIncludedIndex logs (a.log q) ∨
      termAt (a.log q) args.lastIncludedIndex ≠ some args.lastIncludedTerm ∧
        logs = [⟨args.lastIncludedIndex, args.lastIncludedTerm, none⟩]) :
    ∃ G, Raft.RepresentsFrom args.lastIncludedIndex logs G ∧ TakesLog a q args.term G ∧
      (a.tlog args.term).take args.lastIncludedIndex <+: G := by
  have hle := le_length_of_termAt hreq.2
  rcases hrep with ⟨hterm, hrep⟩ | ⟨hne, rfl⟩
  · refine ⟨_, hrep, .inl rfl, ?_⟩
    rw [← (hinv.sound_log q).take_eq (hinv.sound_tlog _) hterm hreq.2]
    exact List.take_prefix _ _
  · refine ⟨_, Raft.RepresentsFrom.dummy hreq.2,
      .inr ⟨args.lastIncludedIndex, fun hpre => hne ?_, rfl⟩, List.prefix_rfl⟩
    rw [← hreq.2, ← termAt_of_isPrefix hpre (by simp [hle]), termAt_take (Nat.le_refl _)]

/-- **`InstallSnapShot`** takes over a prefix of the leader's log, or changes nothing but the term
and how much of the log is compacted. -/
theorem Sim.installSnapShot (h : Sim σ a) (hc : σ.calls[k]? = some c)
    {args : InstallSnapshotArgs n} {reply : InstallSnapshotReply} {installed : Bool} (epoch : ℕ)
    (hbody : c.body = .installSnapShot args none)
    (hrun : (σ.peers c.server).installSnapShot args = some (rf, reply, installed)) :
    Follows a ((σ.setPeer c.server rf).setBody k c
      (if installed then .notifying args reply epoch else .installSnapShot args (some reply))) := by
  have hcall := (h.call c (List.mem_of_getElem? hc)).2
  rw [hbody] at hcall
  have hreq : SnapRequest a c.caller args := hcall
  have hp := h.peer c.server
  generalize hnext : (if installed then Body.notifying args reply epoch
    else .installSnapShot args (some reply) : Body n α) = body
  have hrel : ∀ b, a.Extends b → BodyRel b c.caller c.server body := by
    intro b hext
    rw [← hnext]
    split <;> exact hreq.extends hext
  have htarget : ∀ q t, voteTarget q t ({ c with body := body } : Call n α) = voteTarget q t c := by
    intro q t
    rw [← hnext]
    split <;> simp [voteTarget, hbody]
  rcases Nat.lt_or_ge args.term (σ.peers c.server).currentTerm with hlt | hge
  · rw [Raft.installSnapShot, if_pos hlt] at hrun
    obtain ⟨rfl, -⟩ := Prod.mk.inj (Option.some.inj hrun)
    exact .of_sim .refl rfl (h.answer hc .refl (Frame.refl a _) hp (h.persisted _) h.numbered
      (hrel a (.refl a)) htarget (.refl _))
  have h₁ := hp.followLeader h.inv hge
  have hs₁ := bump_step hp hge
  have hfol := Raft.followLeader_state (σ.peers c.server) args.term
  have hext₁ := (hs₁.inv_extends h.inv).2
  have hcand : ∀ rf' : Raft n α, rf'.state = ((σ.peers c.server).followLeader args.term).state →
      SameCandidacy (σ.peers c.server) rf' :=
    fun rf' hs => .of_ne fun hs' => by cases hfol.symm.trans (hs.symm.trans hs')
  rcases hp.log.installSnapShot (h.persisted _) args hge with
    ⟨-, st, heq, hper⟩ | ⟨-, -, logs, st, heq, hper, hrep⟩
  · obtain ⟨rfl, -⟩ := Prod.mk.inj (Option.some.inj (heq.symm.trans hrun))
    exact .of_sim hs₁ rfl (h.answer hc hs₁ (Frame.bump a _ _) (h₁.congr rfl rfl rfl rfl h₁.log) hper
      h.numbered (hrel _ hext₁) htarget (hcand _ rfl))
  · obtain ⟨hrf, -⟩ := Prod.mk.inj (Option.some.inj (heq.symm.trans hrun))
    obtain ⟨G, hrepG, hG, -⟩ := hreq.installed h.inv hrep
    have hlog : rf.Represents G := by rw [← hrf]; exact hrepG
    subst hrf
    obtain ⟨b, hs, hf, hpr, hnum, hacked, -⟩ := h₁.takeLog (t := args.term) hfol hlog rfl rfl rfl
      rfl (Option.ne_none_iff_exists'.mpr ⟨c.caller, hreq.1⟩) (by simp [Repl.bump]) h.numbered hG
    have hsteps : a.Steps b := hs₁.trans hs
    exact .of_sim hsteps hacked (h.answer hc hsteps ((Frame.bump a _ _).trans hf) hpr hper hnum
      (hrel _ (hsteps.inv_extends h.inv).2) htarget (hcand _ rfl))

end Handlers

end RaftKVDB
