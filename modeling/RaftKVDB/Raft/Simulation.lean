import RaftKVDB.Foundations.Replication
import RaftKVDB.Foundations.Views
import RaftKVDB.Raft.Cluster
import RaftKVDB.Raft.FullLogActions

/-!
# The cluster refines leader-based replication

Every step of the cluster is a sequence of actions of `Foundations.Repl`, the protocol without
messages, on the full logs of the peers. Compaction, snapshots and restarts disappear: a peer's full
log is not changed by `Compact` or by a crash, and installing a snapshot is taking over a prefix of
the leader's log exactly as `AppendEntries` does.

## What a request in flight means

A call carries no more than the term it was made in and a length: an `AppendEntries` request of
term `t` was built when the leader's log was the first `m` entries of what it is now, and says so
about its entries and about the term at `min prevLogIndex m`. The minimum is where the request may
not tell the truth about `prevLogIndex` itself. Entries only go out when it does, so the logs never
suffer from it; what does is what the leader concludes from the reply, and `AppendAck` says exactly
what may be concluded.

## Main results

* `Sim` — the relation
* `Sim.update` — how it is kept when one peer acts
-/

namespace RaftKVDB

open Foundations

variable {n : ℕ} {α : Type*}

/-- The replication protocol over the peers of a cluster. -/
abbrev Protocol (n : ℕ) (α : Type*) := Repl (Fin n) (LogEntry α)

/-! ### The relation -/

/-- Entry `i` is numbered `i`. -/
def Numbered (l : List (LogEntry α)) : Prop := ∀ i e, l[i]? = some e → e.globalIndex = i + 1

theorem Numbered.of_isPrefix {l l' : List (LogEntry α)} (h : Numbered l') (hp : l <+: l') :
    Numbered l := by
  intro i e he
  rw [getElem?_of_isPrefix hp (List.getElem?_eq_some_iff.mp he).1] at he
  exact h i e he

theorem Numbered.append {l : List (LogEntry α)} (h : Numbered l) {e : LogEntry α}
    (he : e.globalIndex = l.length + 1) : Numbered (l ++ [e]) := by
  intro i e' hi
  rcases Nat.lt_or_ge i l.length with hlt | hge
  · rw [List.getElem?_append_left hlt] at hi
    exact h i e' hi
  · have hlen := (List.getElem?_eq_some_iff.mp hi).1
    rw [List.length_append, List.length_singleton] at hlen
    obtain rfl : i = l.length := by omega
    rw [List.getElem?_append_right (Nat.le_refl _), Nat.sub_self] at hi
    obtain rfl : e = e' := by simpa using hi
    exact he

/-- The entries of all logs are numbered. -/
def AllNumbered (a : Protocol n α) : Prop :=
  (∀ p, Numbered (a.log p)) ∧ ∀ t, Numbered (a.tlog t)

/-- What a peer has is what the protocol has for it. -/
structure PeerRel (a : Protocol n α) (p : Fin n) (rf : Raft n α) : Prop where
  me : rf.me = p
  term : rf.currentTerm = a.term p
  vote : rf.votedFor = a.voted rf.currentTerm p
  log : rf.Represents (a.log p)
  leader : rf.state = .leader →
    a.leader rf.currentTerm = some p ∧ a.log p = a.tlog rf.currentTerm
  candidate : rf.state = .candidate → rf.votedFor = some p ∧
    a.log p = a.voteLog rf.currentTerm p ∧ a.leader rf.currentTerm ≠ some p

/-- A vote request describes the log its sender voted for itself with. -/
def VoteRequest (a : Protocol n α) (p : Fin n) (args : RequestVoteArgs n) : Prop :=
  args.candidateID = p ∧ a.voted args.term p = some p ∧
    args.lastLogIndex = (a.voteLog args.term p).length ∧
    args.lastLogTerm = lastTerm (a.voteLog args.term p)

/-- An append request was built from the first `m` entries of the leader's log. -/
def BuiltFrom (a : Protocol n α) (args : AppendEntriesArgs n α) (m : ℕ) : Prop :=
  (a.base args.term).length ≤ m ∧ m ≤ (a.tlog args.term).length ∧
    termAt (a.tlog args.term) (min args.prevLogIndex m) = some args.prevLogTerm ∧
    args.entries = ((a.tlog args.term).take m).drop args.prevLogIndex

/-- An append request comes from the leader of its term. -/
def AppendRequest (a : Protocol n α) (p : Fin n) (args : AppendEntriesArgs n α) : Prop :=
  a.leader args.term = some p ∧ ∃ m, BuiltFrom a args m

/-- What a successful reply to an append request is worth: the server held the leader's log up to
the last entry of the request, or the request was about an index where the leader had nothing then
and has an entry of another term now. -/
def AppendAck (a : Protocol n α) (q : Fin n) (args : AppendEntriesArgs n α) : Prop :=
  a.acked q args.term (args.prevLogIndex + args.entries.length) ∨
    (a.base args.term).length < args.prevLogIndex ∧ args.prevLogTerm ≠ args.term

/-- A snapshot request names an entry of the leader's log. -/
def SnapRequest (a : Protocol n α) (p : Fin n) (args : InstallSnapshotArgs n) : Prop :=
  a.leader args.term = some p ∧
    termAt (a.tlog args.term) args.lastIncludedIndex = some args.lastIncludedTerm

/-- What a call in progress means. -/
def BodyRel (a : Protocol n α) (p q : Fin n) : Body n α → Prop
  | .requestVote args reply => VoteRequest a p args ∧
      ∀ r, reply = some r → r.voteGranted = true → r.term = args.term ∧
        a.voted args.term q = some p
  | .appendEntries args reply => AppendRequest a p args ∧
      ∀ r, reply = some r → r.success = true → r.term = args.term ∧ AppendAck a q args
  | .installSnapShot args _ => SnapRequest a p args
  | .notifying args _ _ => SnapRequest a p args

/-- The server that a vote call of candidate `p` in term `t` is about. -/
def voteTarget (p : Fin n) (t : ℕ) (c : Call n α) : Option (Fin n) :=
  match c.body with
  | .requestVote args _ => if c.caller = p ∧ args.term = t then some c.server else none
  | _ => none

/-- The votes that a candidate has counted are those of distinct peers, none of which it is still
waiting for. -/
def Counted (a : Protocol n α) (p : Fin n) (rf : Raft n α) (calls : List (Call n α)) : Prop :=
  ∃ counted : List (Fin n),
    (p :: counted ++ calls.filterMap (voteTarget p rf.currentTerm)).Nodup ∧
    rf.voteCount = counted.length + 1 ∧ ∀ v ∈ counted, a.voted rf.currentTerm v = some p

/-- The cluster is related to the protocol. -/
structure Sim (σ : Cluster n α) (a : Protocol n α) : Prop where
  inv : a.Inv
  peer : ∀ p, PeerRel a p (σ.peers p)
  persisted : ∀ p, (σ.peers p).Persisted
  call : ∀ c ∈ σ.calls, c.caller ≠ c.server ∧ BodyRel a c.caller c.server c.body
  count : ∀ p, (σ.peers p).state = .candidate → Counted a p (σ.peers p) σ.calls
  numbered : AllNumbered a

/-! ### What later states of the protocol keep -/

section Extends

variable {a b : Protocol n α} {p q : Fin n}

theorem termAt_extends (h : a.Extends b) {t i u : ℕ} (hi : termAt (a.tlog t) i = some u) :
    termAt (b.tlog t) i = some u := by
  rw [← termAt_of_isPrefix (h.tlog t) (le_length_of_termAt hi), hi]

theorem VoteRequest.extends {args : RequestVoteArgs n} (hr : VoteRequest a p args)
    (h : a.Extends b) : VoteRequest b p args := by
  obtain ⟨hc, hv, hi, ht⟩ := hr
  exact ⟨hc, h.voted _ _ _ hv, by rw [h.voteLog _ _ _ hv, hi], by rw [h.voteLog _ _ _ hv, ht]⟩

theorem BuiltFrom.extends {args : AppendEntriesArgs n α} {m : ℕ} (hr : BuiltFrom a args m)
    (hl : a.leader args.term = some p) (h : a.Extends b) : BuiltFrom b args m := by
  obtain ⟨hbm, hm, ht, he⟩ := hr
  refine ⟨by rw [h.base _ _ hl]; exact hbm, hm.trans (h.tlog _).length_le,
    termAt_extends h ht, ?_⟩
  rw [he, take_eq_of_isPrefix (h.tlog _) hm]

theorem AppendRequest.extends {args : AppendEntriesArgs n α} (hr : AppendRequest a p args)
    (h : a.Extends b) : AppendRequest b p args := by
  obtain ⟨hl, m, hm⟩ := hr
  exact ⟨h.leader _ _ hl, m, hm.extends hl h⟩

theorem SnapRequest.extends {args : InstallSnapshotArgs n} (hr : SnapRequest a p args)
    (h : a.Extends b) : SnapRequest b p args :=
  ⟨h.leader _ _ hr.1, termAt_extends h hr.2⟩

theorem BodyRel.extends {body : Body n α} (hb : BodyRel a p q body) (h : a.Extends b) :
    BodyRel b p q body := by
  cases body with
  | requestVote args reply =>
    refine ⟨hb.1.extends h, fun r hr hg => ?_⟩
    obtain ⟨ht, hv⟩ := hb.2 r hr hg
    exact ⟨ht, h.voted _ _ _ hv⟩
  | appendEntries args reply =>
    refine ⟨hb.1.extends h, fun r hr hs => ?_⟩
    obtain ⟨ht, hack⟩ := hb.2 r hr hs
    refine ⟨ht, hack.imp (h.acked _ _ _) fun hlt => ?_⟩
    rwa [h.base _ _ hb.1.1]
  | installSnapShot args reply => exact SnapRequest.extends hb h
  | notifying args reply epoch => exact SnapRequest.extends hb h

/-- Votes stay counted while calls come to an end. -/
theorem Counted.mono {rf : Raft n α} {calls calls' : List (Call n α)} (hc : Counted a p rf calls)
    (h : a.Extends b) (hsub : (calls'.filterMap (voteTarget p rf.currentTerm)).Sublist
      (calls.filterMap (voteTarget p rf.currentTerm))) : Counted b p rf calls' := by
  obtain ⟨counted, hnd, hlen, hv⟩ := hc
  exact ⟨counted, hnd.sublist (hsub.append_left _), hlen, fun v hm => h.voted _ _ _ (hv v hm)⟩

end Extends

/-! ### What an action of one peer leaves to the others -/

/-- Between `a` and `b` only peer `p` has acted. -/
structure Frame (a b : Protocol n α) (p : Fin n) : Prop where
  term : ∀ q, q ≠ p → b.term q = a.term q
  log : ∀ q, q ≠ p → b.log q = a.log q
  voted : ∀ t q, q ≠ p → b.voted t q = a.voted t q
  voteLog : ∀ t q, q ≠ p → b.voteLog t q = a.voteLog t q
  leader : ∀ t q, q ≠ p → (b.leader t = some q ↔ a.leader t = some q)
  tlog : ∀ t q, q ≠ p → a.leader t = some q → b.tlog t = a.tlog t

section Frame

variable {a b c : Protocol n α} {p q : Fin n} {t : ℕ}

theorem Frame.refl (a : Protocol n α) (p : Fin n) : Frame a a p where
  term _ _ := rfl
  log _ _ := rfl
  voted _ _ _ := rfl
  voteLog _ _ _ := rfl
  leader _ _ _ := Iff.rfl
  tlog _ _ _ _ := rfl

theorem Frame.trans (h : Frame a b p) (h' : Frame b c p) : Frame a c p where
  term q hq := (h'.term q hq).trans (h.term q hq)
  log q hq := (h'.log q hq).trans (h.log q hq)
  voted t q hq := (h'.voted t q hq).trans (h.voted t q hq)
  voteLog t q hq := (h'.voteLog t q hq).trans (h.voteLog t q hq)
  leader t q hq := (h'.leader t q hq).trans (h.leader t q hq)
  tlog t q hq hl := (h'.tlog t q hq ((h.leader t q hq).mpr hl)).trans (h.tlog t q hq hl)

theorem Frame.bump (a : Protocol n α) (p : Fin n) (t : ℕ) : Frame a (a.bump p t) p :=
  { Frame.refl a p with term := fun q hq => by simp [Repl.bump, hq] }

theorem Frame.vote (a : Protocol n α) (p c : Fin n) (t : ℕ) : Frame a (a.vote p c t) p :=
  { Frame.refl a p with
    voted := fun u q hq => by rw [Repl.update_voted, if_neg fun h => hq h.2]
    voteLog := fun u q hq => by rw [Repl.update_voteLog, if_neg fun h => hq h.2] }

theorem Frame.elect (hnone : a.leader t = none) : Frame a (a.elect p t) p where
  term _ _ := rfl
  log _ _ := rfl
  voted _ _ _ := rfl
  voteLog _ _ _ := rfl
  leader u q hq := by
    rcases eq_or_ne u t with rfl | hne
    · simp [Repl.elect, hnone, hq.symm]
    · simp [Repl.elect, hne]
  tlog u q _ hl := by
    have hne : u ≠ t := by
      rintro rfl
      cases hnone.symm.trans hl
    simp [Repl.elect, hne]

theorem Frame.append (hl : a.leader t = some p) (e : LogEntry α) :
    Frame a (a.append p t e) p where
  term _ _ := rfl
  log q hq := by simp [Repl.append, hq]
  voted _ _ _ := rfl
  voteLog _ _ _ := rfl
  leader _ _ _ := Iff.rfl
  tlog u q hq hu := by
    have hne : u ≠ t := by
      rintro rfl
      exact hq (Option.some.inj (hu.symm.trans hl))
    simp [Repl.append, hne]

theorem Frame.replace (a : Protocol n α) (p : Fin n) (t m : ℕ) : Frame a (a.replace p t m) p :=
  { Frame.refl a p with log := fun q hq => by simp [Repl.replace, hq] }

theorem Frame.observe (a : Protocol n α) (p : Fin n) : Frame a a.observe p :=
  { Frame.refl a p with }

theorem PeerRel.frame {rf : Raft n α} (h : PeerRel a q rf) (hf : Frame a b p) (hq : q ≠ p) :
    PeerRel b q rf where
  me := h.me
  term := by rw [hf.term q hq, h.term]
  vote := by rw [hf.voted _ q hq, h.vote]
  log := by rw [hf.log q hq]; exact h.log
  leader hs := by
    obtain ⟨hl, hlog⟩ := h.leader hs
    exact ⟨(hf.leader _ q hq).mpr hl, by rw [hf.log q hq, hf.tlog _ q hq hl, hlog]⟩
  candidate hs := by
    obtain ⟨hv, hlog, hl⟩ := h.candidate hs
    refine ⟨hv, by rw [hf.log q hq, hf.voteLog _ q hq, hlog], ?_⟩
    exact fun hc => hl ((hf.leader _ q hq).mp hc)

end Frame

/-- **One peer acts.** To relate the next states it is enough to look at the peer that acted and at
the calls. -/
theorem Sim.update {σ : Cluster n α} {a b : Protocol n α} (h : Sim σ a) {p : Fin n}
    {rf : Raft n α} {epoch : Fin n → ℕ} {calls : List (Call n α)} (hs : a.Steps b)
    (hf : Frame a b p) (hp : PeerRel b p rf) (hper : rf.Persisted)
    (hnum : AllNumbered b)
    (hcalls : ∀ c ∈ calls, c.caller ≠ c.server ∧ BodyRel b c.caller c.server c.body)
    (hsub : ∀ q t, q ≠ p → (calls.filterMap (voteTarget q t)).Sublist
      (σ.calls.filterMap (voteTarget q t)))
    (hown : rf.state = .candidate → Counted b p rf calls) :
    Sim ⟨Function.update σ.peers p rf, epoch, calls⟩ b := by
  obtain ⟨hinv, hext⟩ := hs.inv_extends h.inv
  refine ⟨hinv, fun q => ?_, fun q => ?_, hcalls, fun q hq => ?_, hnum⟩
  · rcases eq_or_ne q p with rfl | hne
    · simpa using hp
    · simpa [hne] using (h.peer q).frame hf hne
  · rcases eq_or_ne q p with rfl | hne
    · simpa using hper
    · simpa [hne] using h.persisted q
  · rcases eq_or_ne q p with rfl | hne
    · simp only [Function.update_self] at hq ⊢
      exact hown hq
    · simp only [Function.update_of_ne hne] at hq ⊢
      exact (h.count q hq).mono hext (hsub q _ hne)

/-- Recording what is held now keeps the relation. -/
theorem Sim.observe {σ : Cluster n α} {a : Protocol n α} (h : Sim σ a) : Sim σ a.observe := by
  have hext := (Repl.Step.observe (a := a)).extends h.inv
  exact ⟨h.inv.observe,
    fun p => ⟨(h.peer p).me, (h.peer p).term, (h.peer p).vote, (h.peer p).log, (h.peer p).leader,
      (h.peer p).candidate⟩,
    h.persisted, fun c hc => ⟨(h.call c hc).1, (h.call c hc).2.extends hext⟩,
    fun p hs => (h.count p hs).mono hext (.refl _), h.numbered⟩

/-- The protocol can follow the cluster to `σ`, recording only at the end what is held then. -/
def Follows (a : Protocol n α) (σ : Cluster n α) : Prop :=
  ∃ b, a.Steps b ∧ b.acked = a.acked ∧ Sim σ b.observe

theorem Follows.of_sim {σ : Cluster n α} {a b : Protocol n α} (hs : a.Steps b)
    (hacked : b.acked = a.acked) (h : Sim σ b) : Follows a σ :=
  ⟨b, hs, hacked, h.observe⟩

/-! ### The calls after a step -/

section Calls

variable {σ : Cluster n α} {a b : Protocol n α} {p : Fin n} {rf : Raft n α} {k : ℕ} {c : Call n α}

/-- What a candidate has counted depends on its term and its number of votes only. -/
theorem Counted.congr {rf' : Raft n α} {calls : List (Call n α)} (hc : Counted a p rf calls)
    (ht : rf'.currentTerm = rf.currentTerm) (hv : rf'.voteCount = rf.voteCount) :
    Counted a p rf' calls := by
  rw [Counted]
  rw [ht, hv]
  exact hc

/-- The peer still counts the votes it counted before. -/
def SameCandidacy (rf rf' : Raft n α) : Prop :=
  rf'.state = .candidate → rf.state = .candidate ∧ rf'.currentTerm = rf.currentTerm ∧
    rf'.voteCount = rf.voteCount

theorem SameCandidacy.refl (rf : Raft n α) : SameCandidacy rf rf := fun h => ⟨h, rfl, rfl⟩

theorem SameCandidacy.of_ne {rf rf' : Raft n α} (h : rf'.state ≠ .candidate) :
    SameCandidacy rf rf' := fun hc => absurd hc h

/-- A step of one peer that neither starts an election nor counts a vote. -/
theorem Sim.act (h : Sim σ a) {epoch : Fin n → ℕ} {calls : List (Call n α)} (hs : a.Steps b)
    (hf : Frame a b p) (hp : PeerRel b p rf) (hper : rf.Persisted)
    (hnum : AllNumbered b)
    (hcalls : ∀ c ∈ calls, c.caller ≠ c.server ∧ BodyRel b c.caller c.server c.body)
    (hsub : ∀ q t, (calls.filterMap (voteTarget q t)).Sublist
      (σ.calls.filterMap (voteTarget q t)))
    (hcand : SameCandidacy (σ.peers p) rf) :
    Sim ⟨Function.update σ.peers p rf, epoch, calls⟩ b := by
  refine h.update hs hf hp hper hnum hcalls (fun q t _ => hsub q t) fun hst => ?_
  obtain ⟨hst', ht, hv⟩ := hcand hst
  exact ((h.count p hst').mono (hs.inv_extends h.inv).2 (hsub p _)).congr ht hv

theorem Sim.call_extends (h : Sim σ a) (hs : a.Steps b) :
    ∀ c ∈ σ.calls, c.caller ≠ c.server ∧ BodyRel b c.caller c.server c.body :=
  fun c hc => ⟨(h.call c hc).1, (h.call c hc).2.extends (hs.inv_extends h.inv).2⟩

/-- A step of one peer that does not touch the calls. -/
theorem Sim.setPeer (h : Sim σ a) (hs : a.Steps b) (hf : Frame a b p) (hp : PeerRel b p rf)
    (hper : rf.Persisted) (hnum : AllNumbered b)
    (hcand : SameCandidacy (σ.peers p) rf) : Sim (σ.setPeer p rf) b :=
  h.act hs hf hp hper hnum (h.call_extends hs) (fun _ _ => List.Sublist.refl _) hcand

/-- A handler: the server of a call acts and the call has come further. -/
theorem Sim.answer (h : Sim σ a) (hc : σ.calls[k]? = some c) {body : Body n α} (hs : a.Steps b)
    (hf : Frame a b c.server) (hp : PeerRel b c.server rf) (hper : rf.Persisted)
    (hnum : AllNumbered b)
    (hbody : BodyRel b c.caller c.server body)
    (htarget : ∀ q t, voteTarget q t { c with body := body } = voteTarget q t c)
    (hcand : SameCandidacy (σ.peers c.server) rf) :
    Sim ((σ.setPeer c.server rf).setBody k c body) b := by
  refine h.act hs hf hp hper hnum (fun c' hc' => ?_) (fun q t => ?_) hcand
  · rcases List.mem_or_eq_of_mem_set hc' with hmem | rfl
    · exact h.call_extends hs c' hmem
    · exact ⟨(h.call c (List.mem_of_getElem? hc)).1, hbody⟩
  · have heq := filterMap_set_of_eq (htarget q t) hc
    exact heq ▸ List.Sublist.refl _

/-- The end of a call without a vote in it. -/
theorem Sim.finish (h : Sim σ a) (k : ℕ) (hs : a.Steps b) (hf : Frame a b p) (hp : PeerRel b p rf)
    (hper : rf.Persisted) (hnum : AllNumbered b)
    (hcand : SameCandidacy (σ.peers p) rf) : Sim ((σ.setPeer p rf).endCall k) b :=
  h.act hs hf hp hper hnum (fun c hc => h.call_extends hs c (List.mem_of_mem_eraseIdx hc))
    (fun _ _ => (List.eraseIdx_sublist _ _).filterMap _) hcand

end Calls

/-! ### One peer at a time -/

section Peer

variable {a b : Protocol n α} {p : Fin n} {rf rf' : Raft n α} {t : ℕ}

theorem voted_eq_none (h : a.Inv) (hlt : a.term p < t) : a.voted t p = none := by
  by_contra hne
  obtain ⟨c, hc⟩ := Option.ne_none_iff_exists'.mp hne
  have := h.voted_le t p c hc
  omega

theorem bump_self (a : Protocol n α) (p : Fin n) : a.bump p (a.term p) = a := by
  simp [Repl.bump]

/-- A later term is adopted. -/
theorem PeerRel.adoptTerm (h : PeerRel a p rf) (hinv : a.Inv) (hlt : rf.currentTerm < t) :
    PeerRel (a.bump p t) p (rf.adoptTerm t) where
  me := h.me
  term := by simp [Repl.bump, Raft.adoptTerm, Raft.goBackToFollower]
  vote := (voted_eq_none hinv (h.term ▸ hlt)).symm
  log := h.log
  leader hs := nomatch hs
  candidate hs := nomatch hs

/-- Nothing but volatile fields and the persister changed. -/
theorem PeerRel.congr (h : PeerRel a p rf) (hme : rf'.me = rf.me)
    (hterm : rf'.currentTerm = rf.currentTerm) (hvote : rf'.votedFor = rf.votedFor)
    (hstate : rf'.state = rf.state) (hlog : rf'.Represents (a.log p)) : PeerRel a p rf' where
  me := hme.trans h.me
  term := hterm.trans h.term
  vote := by rw [hvote, hterm, h.vote]
  log := hlog
  leader hs := by rw [hterm]; exact h.leader (hstate ▸ hs)
  candidate hs := by rw [hterm, hvote]; exact h.candidate (hstate ▸ hs)

theorem PeerRel.stepDown (h : PeerRel a p rf) : PeerRel a p { rf with state := .follower } where
  me := h.me
  term := h.term
  vote := h.vote
  log := h.log
  leader hs := nomatch hs
  candidate hs := nomatch hs

theorem PeerRel.seeTerm (h : PeerRel a p rf) (hinv : a.Inv) (hle : rf.currentTerm ≤ t) :
    PeerRel (a.bump p t) p (rf.seeTerm t) := by
  rw [Raft.seeTerm]
  split
  · next hlt => exact h.adoptTerm hinv hlt
  · next hge =>
    obtain rfl : rf.currentTerm = t := by omega
    rwa [h.term, bump_self]

theorem PeerRel.followLeader (h : PeerRel a p rf) (hinv : a.Inv) (hle : rf.currentTerm ≤ t) :
    PeerRel (a.bump p t) p (rf.followLeader t) := by
  rw [Raft.followLeader]
  split
  · next hlt => exact h.adoptTerm hinv hlt
  · next hge =>
    obtain rfl : rf.currentTerm = t := by omega
    have hself : a.bump p rf.currentTerm = a := by rw [h.term, bump_self]
    rw [hself]
    split
    · exact h.stepDown
    · exact h

/-- A follower takes over a log. -/
theorem PeerRel.replace (h : PeerRel a p rf) (hs : rf.state = .follower) {m : ℕ}
    (hme : rf'.me = rf.me) (hterm : rf'.currentTerm = rf.currentTerm)
    (hvote : rf'.votedFor = rf.votedFor) (hstate : rf'.state = rf.state)
    (hlog : rf'.Represents ((a.tlog t).take m)) : PeerRel (a.replace p t m) p rf' where
  me := hme.trans h.me
  term := hterm.trans h.term
  vote := by rw [hvote, hterm]; exact h.vote
  log := by simpa [Repl.replace] using hlog
  leader hl := nomatch hs.symm.trans (hstate.symm.trans hl)
  candidate hl := nomatch hs.symm.trans (hstate.symm.trans hl)

theorem bump_step (h : PeerRel a p rf) (hle : rf.currentTerm ≤ t) : a.Steps (a.bump p t) :=
  .single (.bump (h.term ▸ hle))

theorem sameCandidacy_seeTerm (rf : Raft n α) (t : ℕ) : SameCandidacy rf (rf.seeTerm t) := by
  rw [Raft.seeTerm]
  split
  · exact .of_ne fun hc => by cases hc
  · exact .refl rf

end Peer

end RaftKVDB
