import Mathlib.Data.Finset.Max
import Mathlib.Data.Prod.Lex
import RaftKVDB.Raft.Origin
import RaftKVDB.Raft.Proceeds

/-!
# A leader can be elected

Safety says what a cluster does not do. This file and `Raft/Recovers` say what it still can do, from
any state it may have got into in which no peer is in the deadlock of `Raft/CommitSignal`: here,
that it can elect a leader by timeouts and messages alone, whatever was lost before and however the
logs and terms differ. Nothing needs to be restarted.

The peer to be elected is one whose log is the most up to date. If it is a leader already, but of an
older term, it has to fall back first. Then it starts elections until its term is beyond everybody
else's, and everybody votes for it.

A cluster of one has no leader, ever: a peer looks at the count of its votes when a reply comes.

## Main results

* `election_possible` — from every reachable state of a cluster of two or more without a deadlock
* `single_server_never_leads` — and never in a cluster of one
-/

namespace RaftKVDB

open Foundations Cluster

variable {n : ℕ} {α : Type*}

/-- A reachable state, with the full logs of the peers and the ends of their snapshots. -/
structure Logs (G : Fin n → List (LogEntry α)) (S : Fin n → ℕ) (σ : Cluster n α) : Prop where
  sim : ∃ a, Sim σ a
  log : ∀ q, (σ.peers q).Represents (G q)
  snapshot : ∀ q, (σ.peers q).snapshotIndex = S q

variable {σ σ' : Cluster n α} {G : Fin n → List (LogEntry α)} {S : Fin n → ℕ} {p q : Fin n}
  {e : Event n α}

/-! ### Falling back and campaigning -/

/-- **A leader of an older term falls back** when it calls a peer of a later one. -/
theorem Logs.fallBack (h : Logs G S σ) (hs : (σ.peers p).state = .leader)
    (hlt : (σ.peers p).currentTerm < (σ.peers q).currentTerm) :
    ∃ σ', σ.Comes σ' ∧ Logs G S σ' ∧ (σ'.peers p).state ≠ .leader ∧
      (σ'.peers p).currentTerm = (σ.peers q).currentTerm ∧
      ∀ x, x ≠ p → σ'.peers x = σ.peers x := by
  have hne : p ≠ q := by
    rintro rfl
    omega
  -- The peer refuses, and its reply has the later term.
  obtain ⟨σ', hround, htrue, hp, hothers⟩ : ∃ σ', σ.round p q = .ok σ' ∧
      (∀ σ₁, σ.deliver p q = .ok σ₁ → Truthful σ₁ (.process σ.calls.length)) ∧
      σ'.peers p = ((σ.peers p).adoptTerm (σ.peers q).currentTerm).persistState ∧
      ∀ x, x ≠ p → σ'.peers x = σ.peers x := by
    obtain ⟨-, dt, -, hreq⟩ | ⟨-, pt, -, hreq⟩ := (h.log p).checkConsistency hs q
    · have hrun : (σ.peers q).installSnapShot ⟨(σ.peers p).currentTerm, (σ.peers p).me,
          (σ.peers p).snapshotIndex, dt, (σ.peers p).persister.snapshot⟩ =
          some (σ.peers q, ⟨(σ.peers q).currentTerm⟩, false) := by
        rw [Raft.installSnapShot, if_pos hlt]
      have hdel := Cluster.deliver_installSnapShot hne hreq hrun
      refine ⟨_, Cluster.round_installSnapShot hne hdel, fun σ₁ hσ₁ => ?_, ?_, fun x hx => ?_⟩
      · obtain rfl := Except.ok.inj (hdel.symm.trans hσ₁)
        simp [Truthful, Event.processed, Cluster.answered, Body.appendReply]
      · simp [Cluster.setPeer, Raft.sendSnapShotAndProcess, hs, hlt, Nat.not_lt.mpr hlt.le]
      · simp [Cluster.setPeer, hx]
    · have hrun : (σ.peers q).appendEntries ⟨(σ.peers p).currentTerm, (σ.peers p).me,
          (σ.peers p).nextIndex q - 1, pt, (G p).drop ((σ.peers p).nextIndex q - 1),
          (σ.peers p).commitIndex⟩ =
          some (σ.peers q, ⟨(σ.peers q).currentTerm, false, 0⟩) := by
        rw [Raft.appendEntries, if_pos hlt]
      have hdel := Cluster.deliver_appendEntries hne hreq hrun
      have hproc : (σ.peers p).sendAppendEntriesAndProcess ⟨(σ.peers p).currentTerm,
          (σ.peers p).me, (σ.peers p).nextIndex q - 1, pt,
          (G p).drop ((σ.peers p).nextIndex q - 1), (σ.peers p).commitIndex⟩ q
          ⟨(σ.peers q).currentTerm, false, 0⟩ =
          some ((σ.peers p).adoptTerm (σ.peers q).currentTerm).persistState := by
        simp [Raft.sendAppendEntriesAndProcess, hs, hlt, Nat.not_lt.mpr hlt.le]
      refine ⟨_, Cluster.round_appendEntries hne hdel hproc, fun σ₁ hσ₁ => ?_, ?_, fun x hx => ?_⟩
      · obtain rfl := Except.ok.inj (hdel.symm.trans hσ₁)
        exact truthful_answered hne fun hsuc => by cases hsuc
      · simp [Cluster.setPeer]
      · simp [Cluster.setPeer, hx]
  have hcomes : σ.Comes σ' := by
    refine comes_round hround (fun x => le_max_of_le_left ?_) htrue
    rcases eq_or_ne x p with rfl | hx
    · rw [hp]
      exact Nat.le_refl _
    · rw [hothers x hx]
  refine ⟨σ', hcomes, ⟨exists_sim_round h.sim hround, fun x => ?_, fun x => ?_⟩, ?_, ?_, hothers⟩
  · rcases eq_or_ne x p with rfl | hx
    · rw [hp]
      exact h.log x
    · rw [hothers x hx]
      exact h.log x
  · rcases eq_or_ne x p with rfl | hx
    · rw [hp]
      exact h.snapshot x
    · rw [hothers x hx]
      exact h.snapshot x
  · rw [hp]
    simp [Raft.adoptTerm, Raft.goBackToFollower, Raft.persistState]
  · rw [hp]
    rfl

/-- **An election is started**: `broadCastVote` at a peer that is not the leader. -/
theorem Logs.campaign (h : Logs G S σ) (hs : (σ.peers p).state ≠ .leader) : ∃ rf,
    σ.step (.broadCastVote p) = .ok ((σ.setPeer p rf).sendVotes p
      ⟨(σ.peers p).currentTerm + 1, p, (G p).length, lastTerm (G p)⟩) ∧
    Logs G S ((σ.setPeer p rf).sendVotes p
      ⟨(σ.peers p).currentTerm + 1, p, (G p).length, lastTerm (G p)⟩) ∧
    rf.me = p ∧ rf.Represents (G p) ∧ rf.currentTerm = (σ.peers p).currentTerm + 1 ∧
    rf.state = .candidate ∧ rf.voteCount = 1 := by
  obtain ⟨st, hrun, -⟩ := (h.log p).broadCastVote hs
  obtain ⟨a, ha⟩ := h.sim
  rw [(ha.peer p).me] at hrun
  have hstep : σ.step (.broadCastVote p) = .ok _ :=
    orPanic_eq_ok.mpr (Option.map_eq_some_iff.mpr ⟨_, hrun, rfl⟩)
  refine ⟨_, hstep, ⟨exists_sim_step h.sim hstep, fun x => ?_, fun x => ?_⟩, rfl, h.log p, rfl, rfl,
    rfl⟩
  · rcases eq_or_ne x p with rfl | hx
    · simp only [Cluster.setPeer, Cluster.sendVotes, Function.update_self]
      exact h.log x
    · simpa [Cluster.setPeer, Cluster.sendVotes, hx] using h.log x
  · rcases eq_or_ne x p with rfl | hx
    · simp only [Cluster.setPeer, Cluster.sendVotes, Function.update_self]
      exact h.snapshot x
    · simpa [Cluster.setPeer, Cluster.sendVotes, hx] using h.snapshot x

/-- A peer that is not the leader can come to a term as late as one likes. -/
theorem Logs.overtake (h : Logs G S σ) (hs : (σ.peers p).state ≠ .leader) (B : ℕ) :
    ∃ σ', σ.Comes σ' ∧ Logs G S σ' ∧ (σ'.peers p).state ≠ .leader ∧
      B < (σ'.peers p).currentTerm ∧ ∀ x, x ≠ p → σ'.peers x = σ.peers x := by
  induction hk : B + 1 - (σ.peers p).currentTerm generalizing σ with
  | zero => exact ⟨σ, .refl σ, h, hs, by omega, fun _ _ => rfl⟩
  | succ k ih =>
    obtain ⟨rf, hstep, hlogs, -, -, hterm, hstate, -⟩ := h.campaign hs
    obtain ⟨σ', hcomes, hlogs', hs', hB, hothers⟩ := ih hlogs
      (by simp [Cluster.setPeer, Cluster.sendVotes, hstate])
      (by simp only [Cluster.setPeer, Cluster.sendVotes, Function.update_self, hterm]; omega)
    refine ⟨σ', (comes_of_call (e := .broadCastVote p) trivial rfl hstep).trans hcomes,
      hlogs', hs', hB, fun x hx => ?_⟩
    rw [hothers x hx]
    simp [Cluster.setPeer, Cluster.sendVotes, hx]

/-! ### The poll -/

/-- A leader that was just elected: it takes everybody to have its log, and knows of nobody that
they do. -/
structure NewLeader (G : List (LogEntry α)) (p : Fin n) (rf : Raft n α) : Prop where
  state : rf.state = .leader
  nextIndex : rf.nextIndex = fun _ => G.length + 1
  matchIndex : rf.matchIndex = Function.update (fun _ => 0) p G.length

/-- The calls of a candidate to the peers that have not voted yet. -/
def voteCalls (σ : Cluster n α) (p : Fin n) (args : RequestVoteArgs n) (rest : List (Fin n)) :
    List (Call n α) :=
  rest.map fun i => ⟨p, σ.epoch p, i, .requestVote args none⟩

/-- The poll that `p` has started in `σ₀`, with the peers `rest` still to vote. -/
structure Polling (G : Fin n → List (LogEntry α)) (S : Fin n → ℕ) (σ₀ : Cluster n α) (p : Fin n)
    (args : RequestVoteArgs n) (rest : List (Fin n)) (σ : Cluster n α) : Prop
    extends Logs G S σ where
  epoch : σ.epoch = σ₀.epoch
  calls : σ.calls = σ₀.calls ++ voteCalls σ₀ p args rest
  voters : ∀ q ∈ rest, σ.peers q = σ₀.peers q
  me : (σ.peers p).me = p
  term : (σ.peers p).currentTerm = args.term
  term_le : ∀ q, (σ.peers q).currentTerm ≤ args.term
  count : NewLeader (G p) p (σ.peers p) ∨ (σ.peers p).state = .candidate ∧
    (σ.peers p).voteCount + rest.length = n ∧
    (rest.length + 1 = n ∨ (σ.peers p).voteCount ≤ n / 2)

/-- A vote is granted to a later term and a log that is up to date. -/
theorem Raft.Represents.requestVote_grants {rf : Raft n α} {H : List (LogEntry α)}
    (h : rf.Represents H) {args : RequestVoteArgs n} (hlt : rf.currentTerm < args.term)
    (hup : lastTerm H < args.lastLogTerm ∨
      args.lastLogTerm = lastTerm H ∧ H.length ≤ args.lastLogIndex) :
    ∃ rf', rf.requestVote args = some (rf', ⟨args.term, true⟩) ∧ rf'.Represents H ∧
      rf'.snapshotIndex = rf.snapshotIndex ∧ rf'.currentTerm = args.term := by
  obtain ⟨last, hlast, hterm⟩ := h.goIndex_last
  have hidx := h.local2Global_last
  refine ⟨{ rf.adoptTerm args.term with votedFor := some args.candidateID }.persistIf true,
    ?_, h, rfl, rfl⟩
  rw [Raft.requestVote, if_neg (by omega)]
  simp only [Raft.seeTerm, if_pos hlt]
  have hlogs : (rf.adoptTerm args.term).logs = rf.logs := rfl
  have hglob : ∀ i, (rf.adoptTerm args.term).logIdxLocal2Global i = rf.logIdxLocal2Global i :=
    fun _ => rfl
  have hvote : (rf.adoptTerm args.term).votedFor = none := rfl
  simp only [hvote, true_or, if_true, hlogs, hlast, hglob, hidx, hterm]
  rw [if_pos (by exact_mod_cast hup)]

/-- What a granted vote of the own term does to a candidate, and to a peer that is none any more. -/
theorem Raft.Represents.voteGranted {rf : Raft n α} {H : List (LogEntry α)}
    (h : rf.Represents H) (hme : rf.me = p) :
    (rf.sendRequestVoteAndProcess ⟨rf.currentTerm, true⟩).Represents H ∧
    (rf.sendRequestVoteAndProcess ⟨rf.currentTerm, true⟩).snapshotIndex = rf.snapshotIndex ∧
    (rf.sendRequestVoteAndProcess ⟨rf.currentTerm, true⟩).me = p ∧
    (rf.sendRequestVoteAndProcess ⟨rf.currentTerm, true⟩).currentTerm = rf.currentTerm ∧
    (rf.state ≠ .candidate ∧ rf.sendRequestVoteAndProcess ⟨rf.currentTerm, true⟩ = rf ∨
      rf.state = .candidate ∧
        (NewLeader H p (rf.sendRequestVoteAndProcess ⟨rf.currentTerm, true⟩) ∨
          (rf.sendRequestVoteAndProcess ⟨rf.currentTerm, true⟩).state = .candidate ∧
          (rf.sendRequestVoteAndProcess ⟨rf.currentTerm, true⟩).voteCount = rf.voteCount + 1 ∧
          rf.voteCount + 1 ≤ n / 2)) := by
  by_cases hs : rf.state = .candidate
  · simp only [Raft.sendRequestVoteAndProcess, hs, ne_eq, not_true_eq_false, false_or,
      Nat.lt_irrefl, if_false, if_true]
    split
    · refine ⟨h, rfl, hme, rfl, .inr ⟨trivial, .inl ⟨rfl, ?_, ?_⟩⟩⟩
      · simp only [Raft.becomeLeader]
        rw [← h.lastIndex_eq]
        rfl
      · simp only [Raft.becomeLeader]
        rw [← h.lastIndex_eq, hme]
        rfl
    · next hfew =>
      exact ⟨h, rfl, hme, rfl, .inr ⟨trivial, .inr ⟨rfl, rfl, Nat.le_of_not_lt hfew⟩⟩⟩
  · rw [Raft.sendRequestVoteAndProcess, if_pos (.inl hs)]
    exact ⟨h, rfl, hme, rfl, .inl ⟨hs, rfl⟩⟩

/-- The vote arrives at `q`, and its reply at `p`. -/
theorem comes_vote {σ₀ : Cluster n α} {args : RequestVoteArgs n} {rest : List (Fin n)}
    (hne : q ≠ p) (hepoch : σ.epoch = σ₀.epoch)
    (hcalls : σ.calls = σ₀.calls ++ voteCalls σ₀ p args (q :: rest)) {rf : Raft n α}
    {reply : RequestVoteReply} (hrun : (σ.peers q).requestVote args = some (rf, reply)) :
    ∃ σ', σ.Comes σ' ∧ (∀ a, Sim σ a → ∃ b, Sim σ' b) ∧ σ'.epoch = σ₀.epoch ∧
      σ'.calls = σ₀.calls ++ voteCalls σ₀ p args rest ∧
      σ'.peers = Function.update (Function.update σ.peers q rf) p
        ((σ.peers p).sendRequestVoteAndProcess reply) := by
  have hc : σ.calls[σ₀.calls.length]? =
      some ⟨p, σ₀.epoch p, q, .requestVote args none⟩ := by
    rw [hcalls, List.getElem?_append_right (Nat.le_refl _), Nat.sub_self]
    rfl
  have hhandle : σ.step (.handle σ₀.calls.length) = .ok ((σ.setPeer q rf).setBody σ₀.calls.length
      ⟨p, σ₀.epoch p, q, .requestVote args none⟩ (.requestVote args (some reply))) := by
    refine onCall_eq_ok.mpr ⟨_, hc, ?_⟩
    simp only [Cluster.handle, hrun, Option.map_some, orPanic]
  have hset : σ.calls.set σ₀.calls.length
      ⟨p, σ₀.epoch p, q, .requestVote args (some reply)⟩ = σ₀.calls ++
        ⟨p, σ₀.epoch p, q, .requestVote args (some reply)⟩ :: voteCalls σ₀ p args rest := by
    rw [hcalls, List.set_append_right _ _ (Nat.le_refl _), Nat.sub_self]
    rfl
  have hprocess : ((σ.setPeer q rf).setBody σ₀.calls.length
      ⟨p, σ₀.epoch p, q, .requestVote args none⟩ (.requestVote args (some reply))).step
      (.process σ₀.calls.length) = .ok ⟨Function.update (Function.update σ.peers q rf) p
        ((σ.peers p).sendRequestVoteAndProcess reply), σ.epoch,
        σ₀.calls ++ voteCalls σ₀ p args rest⟩ := by
    refine onCall_eq_ok.mpr ⟨⟨p, σ₀.epoch p, q, .requestVote args (some reply)⟩, ?_, ?_⟩
    · simp [Cluster.setBody, Cluster.setPeer, hset]
    · simp [Cluster.process, Cluster.setBody, Cluster.setPeer, Cluster.endCall, hset, hepoch,
        hne.symm, List.eraseIdx_append_of_length_le]
  have hfirst : σ.Comes _ := .of_step (e := .handle _) trivial (truthful_of_processed rfl) hhandle
    (roomy_of_step hhandle fun x hwaiting => by
      cases hwaiting with
      | handle hc' _ hbody =>
        obtain rfl := Option.some.inj (hc.symm.trans hc')
        cases hbody)
  have hsecond := Cluster.Comes.of_step (e := .process _) trivial (by
      simp [Truthful, Event.processed, Cluster.setBody, Cluster.setPeer, hset, Body.appendReply])
    hprocess (roomy_of_step hprocess fun x hwaiting => by
      cases hwaiting with
      | process hc' _ _ hbody =>
        simp only [Cluster.setBody, Cluster.setPeer, hset] at hc'
        obtain rfl := by simpa using hc'
        cases hbody)
  exact ⟨_, hfirst.trans hsecond, fun a ha => exists_sim_step (exists_sim_step ⟨a, ha⟩ hhandle)
    hprocess, hepoch, rfl, rfl⟩

/-- **One more vote.** -/
theorem Polling.vote {σ₀ : Cluster n α} {args : RequestVoteArgs n} {rest : List (Fin n)}
    (h : Polling G S σ₀ p args (q :: rest) σ) (hne : q ≠ p) (hq : q ∉ rest) (hp : p ∉ rest)
    (hlt : (σ₀.peers q).currentTerm < args.term)
    (hup : lastTerm (G q) < args.lastLogTerm ∨
      args.lastLogTerm = lastTerm (G q) ∧ (G q).length ≤ args.lastLogIndex) :
    ∃ σ', σ.Comes σ' ∧ Polling G S σ₀ p args rest σ' := by
  have hvoter := h.voters q (.head _)
  obtain ⟨rf, hrun, hrep, hsnap, hterm⟩ := (h.log q).requestVote_grants (hvoter ▸ hlt) hup
  obtain ⟨σ', hcomes, hsim, hepoch, hcalls, hpeers⟩ := comes_vote hne h.epoch h.calls hrun
  rw [← h.term] at hpeers
  obtain ⟨hrep', hsnap', hme, hterm', hcount⟩ := (h.log p).voteGranted h.me
  refine ⟨σ', hcomes, ⟨⟨?_, fun x => ?_, fun x => ?_⟩, hepoch, hcalls, fun x hx => ?_, ?_, ?_,
    fun x => ?_, ?_⟩⟩
  · obtain ⟨a, ha⟩ := h.sim
    exact hsim a ha
  · rw [hpeers]
    rcases eq_or_ne x p with rfl | hxp
    · rwa [Function.update_self]
    · rw [Function.update_of_ne hxp]
      rcases eq_or_ne x q with rfl | hxq
      · rwa [Function.update_self]
      · rw [Function.update_of_ne hxq]
        exact h.log x
  · rw [hpeers, ← h.snapshot x]
    rcases eq_or_ne x p with rfl | hxp
    · rwa [Function.update_self]
    · rw [Function.update_of_ne hxp]
      rcases eq_or_ne x q with rfl | hxq
      · rwa [Function.update_self]
      · rw [Function.update_of_ne hxq]
  · have hxp : x ≠ p := fun heq => hp (heq ▸ hx)
    have hxq : x ≠ q := fun heq => hq (heq ▸ hx)
    rw [hpeers, Function.update_of_ne hxp, Function.update_of_ne hxq]
    exact h.voters x (.tail _ hx)
  · rw [hpeers, Function.update_self, hme]
  · rw [hpeers, Function.update_self, hterm', h.term]
  · rw [hpeers]
    rcases eq_or_ne x p with rfl | hxp
    · rw [Function.update_self, hterm', h.term]
    · rw [Function.update_of_ne hxp]
      rcases eq_or_ne x q with rfl | hxq
      · rw [Function.update_self, hterm]
      · rw [Function.update_of_ne hxq]
        exact h.term_le x
  · rw [hpeers, Function.update_self]
    rcases hcount with ⟨hs, heq⟩ | ⟨hs, hnew | ⟨hs', hvotes, hfew⟩⟩
    · rw [heq]
      rcases h.count with hnew | ⟨hs', -⟩
      · exact .inl hnew
      · exact absurd hs' hs
    · exact .inl hnew
    · rcases h.count with hnew | ⟨-, hsum, -⟩
      · cases hnew.state.symm.trans hs
      · refine .inr ⟨hs', ?_, .inr (hvotes ▸ hfew)⟩
        rw [List.length_cons] at hsum
        omega

/-- Everybody votes. -/
theorem Polling.all {σ₀ : Cluster n α} {args : RequestVoteArgs n} {rest : List (Fin n)}
    (h : Polling G S σ₀ p args rest σ) (hnodup : rest.Nodup) (hp : p ∉ rest)
    (hlt : ∀ q ∈ rest, (σ₀.peers q).currentTerm < args.term)
    (hup : ∀ q, lastTerm (G q) < args.lastLogTerm ∨
      args.lastLogTerm = lastTerm (G q) ∧ (G q).length ≤ args.lastLogIndex) :
    ∃ σ', σ.Comes σ' ∧ Polling G S σ₀ p args [] σ' := by
  induction rest generalizing σ with
  | nil => exact ⟨σ, .refl σ, h⟩
  | cons q rest ih =>
    obtain ⟨hq, hnodup⟩ := List.nodup_cons.mp hnodup
    obtain ⟨hqp, hp⟩ := not_or.mp fun hor => hp (List.mem_cons.mpr hor)
    obtain ⟨σ₁, hcomes, hpoll⟩ := h.vote (Ne.symm hqp) hq hp (hlt q (.head _)) (hup q)
    obtain ⟨σ₂, hcomes', hpoll'⟩ := ih hpoll hnodup hp fun x hx => hlt x (.tail _ hx)
    exact ⟨σ₂, hcomes.trans hcomes', hpoll'⟩

theorem length_others (p : Fin n) : (others p).length + 1 = n := by
  have hall : (p :: others p).toFinset = Finset.univ := by
    ext q
    simp [others, em]
  have hcard := List.toFinset_card_of_nodup (nodup_cons_others p)
  rw [hall, Finset.card_univ, Fintype.card_fin, List.length_cons] at hcard
  exact hcard.symm

/-! ### The election -/

/-- The peer `p` leads, nobody is in a later term, and no log has changed since the election. -/
structure Elected (G : Fin n → List (LogEntry α)) (S : Fin n → ℕ) (p : Fin n) (σ : Cluster n α) :
    Prop extends Logs G S σ where
  leader : NewLeader (G p) p (σ.peers p)
  term_le : ∀ q, (σ.peers q).currentTerm ≤ (σ.peers p).currentTerm

theorem exists_upToDate [NeZero n] (G : Fin n → List (LogEntry α)) :
    ∃ p, ∀ q, UpToDate (G p) (G q) := by
  obtain ⟨p, -, hp⟩ := Finset.exists_max_image Finset.univ
    (fun q => toLex (lastTerm (G q), (G q).length)) Finset.univ_nonempty
  refine ⟨p, fun q => ?_⟩
  rcases Prod.Lex.le_iff.mp (hp q (Finset.mem_univ q)) with hlt | ⟨heq, hle⟩
  · exact .inl hlt
  · exact .inr ⟨heq.symm, hle⟩

/-- A peer that is not the leader wins, if its log is up to date. -/
theorem Logs.elect (hn : 2 ≤ n) (h : Logs G S σ) (hup : ∀ q, UpToDate (G p) (G q))
    (hs : (σ.peers p).state ≠ .leader) : ∃ σ', σ.Comes σ' ∧ Elected G S p σ' := by
  -- First its term goes beyond all others.
  obtain ⟨σ₀, hcomes₀, h₀, hs₀, hterm₀, hothers₀⟩ :=
    h.overtake hs (Finset.univ.sup fun q => (σ.peers q).currentTerm)
  have hbelow : ∀ q, (σ₀.peers q).currentTerm ≤ (σ₀.peers p).currentTerm := by
    intro q
    rcases eq_or_ne q p with rfl | hne
    · exact Nat.le_refl _
    · rw [hothers₀ q hne]
      exact (Finset.le_sup (f := fun q => (σ.peers q).currentTerm) (Finset.mem_univ q)).trans
        hterm₀.le
  -- Then it starts one more election.
  obtain ⟨rf, hstep, h₁, hme, -, hterm, hstate, hvotes⟩ := h₀.campaign hs₀
  have hlen := length_others p
  obtain ⟨hp, hnodup⟩ := List.nodup_cons.mp (nodup_cons_others p)
  have hpoll : Polling G S σ₀ p ⟨(σ₀.peers p).currentTerm + 1, p, (G p).length, lastTerm (G p)⟩
      (others p) ((σ₀.setPeer p rf).sendVotes p
        ⟨(σ₀.peers p).currentTerm + 1, p, (G p).length, lastTerm (G p)⟩) := by
    refine ⟨h₁, rfl, rfl, fun q hq => ?_, ?_, ?_, fun q => ?_, .inr ⟨?_, ?_, .inl hlen⟩⟩
    · exact Function.update_of_ne (fun heq : q = p => hp (heq ▸ hq)) ..
    · simpa [Cluster.setPeer, Cluster.sendVotes] using hme
    · simpa [Cluster.setPeer, Cluster.sendVotes] using hterm
    · rcases eq_or_ne q p with rfl | hne
      · simp [Cluster.setPeer, Cluster.sendVotes, hterm]
      · simpa [Cluster.setPeer, Cluster.sendVotes, hne] using (hbelow q).trans (Nat.le_succ _)
    · simpa [Cluster.setPeer, Cluster.sendVotes] using hstate
    · simp only [Cluster.setPeer, Cluster.sendVotes, Function.update_self, hvotes]
      omega
  obtain ⟨σ', hcomes', hdone⟩ := hpoll.all hnodup hp
    (fun q _ => Nat.lt_succ_of_le (hbelow q)) hup
  have hcampaign := comes_of_call (e := .broadCastVote p) trivial rfl hstep
  refine ⟨σ', hcomes₀.trans (hcampaign.trans hcomes'), hdone.toLogs, ?_, fun q => ?_⟩
  · rcases hdone.count with hnew | ⟨-, hsum, hfew⟩
    · exact hnew
    · rw [List.length_nil] at hsum hfew
      omega
  · rw [hdone.term]
    exact hdone.term_le q

/-- A leader can be made to fall back, if it is not alone. -/
theorem Logs.stepDown (hn : 2 ≤ n) (h : Logs G S σ) (p : Fin n) :
    ∃ σ', σ.Comes σ' ∧ Logs G S σ' ∧ (σ'.peers p).state ≠ .leader := by
  by_cases hs : (σ.peers p).state = .leader
  swap
  · exact ⟨σ, .refl σ, h, hs⟩
  obtain ⟨q, hne⟩ : ∃ q, q ≠ p := by
    have : Nontrivial (Fin n) := Fin.nontrivial_iff_two_le.mpr hn
    exact exists_ne p
  -- It is enough that another peer is not the leader.
  have hfree : ∀ σ : Cluster n α, Logs G S σ → (σ.peers p).state = .leader →
      (σ.peers q).state ≠ .leader →
      ∃ σ', σ.Comes σ' ∧ Logs G S σ' ∧ (σ'.peers p).state ≠ .leader := by
    intro σ h hs hq
    obtain ⟨σ₁, hcomes, h₁, -, hlt, hothers⟩ := h.overtake hq (σ.peers p).currentTerm
    rw [← hothers p hne.symm] at hs hlt
    obtain ⟨σ₂, hcomes', h₂, hs₂, -⟩ := h₁.fallBack hs hlt
    exact ⟨σ₂, hcomes.trans hcomes', h₂, hs₂⟩
  by_cases hq : (σ.peers q).state = .leader
  swap
  · exact hfree σ h hs hq
  rcases Nat.lt_trichotomy (σ.peers p).currentTerm (σ.peers q).currentTerm with hlt | heq | hgt
  · obtain ⟨σ₁, hcomes, h₁, hs₁, -⟩ := h.fallBack hs hlt
    exact ⟨σ₁, hcomes, h₁, hs₁⟩
  · obtain ⟨a, ha⟩ := h.sim
    have hp := ((ha.peer p).leader hs).1
    rw [heq] at hp
    exact absurd (Option.some.inj (hp.symm.trans ((ha.peer q).leader hq).1)).symm hne
  · obtain ⟨σ₁, hcomes, h₁, hq₁, -, hothers⟩ := h.fallBack hq hgt
    obtain ⟨σ₂, hcomes', h₂, hs₂⟩ := hfree σ₁ h₁ (by rw [hothers p hne.symm]; exact hs) hq₁
    exact ⟨σ₂, hcomes.trans hcomes', h₂, hs₂⟩

/-- **A peer with the most up-to-date log can be elected.** -/
theorem exists_elected (hn : 2 ≤ n) (h : ∃ a, Sim σ a) :
    ∃ G p σ', σ.Comes σ' ∧ Elected G (fun q => (σ.peers q).snapshotIndex) p σ' := by
  obtain ⟨a, ha⟩ := h
  have : NeZero n := ⟨by omega⟩
  obtain ⟨p, hup⟩ := exists_upToDate a.log
  have hlogs : Logs a.log (fun q => (σ.peers q).snapshotIndex) σ :=
    ⟨⟨a, ha⟩, fun q => (ha.peer q).log, fun _ => rfl⟩
  obtain ⟨σ₁, hcomes, h₁, hs₁⟩ := hlogs.stepDown hn p
  obtain ⟨σ₂, hcomes', h₂⟩ := h₁.elect hn hup hs₁
  exact ⟨a.log, p, σ₂, hcomes.trans hcomes', h₂⟩

/-! ### Every run -/

/-- **An election is possible unless a peer is deadlocked.** From every state of every run of two or
more peers in which no peer is in the deadlock of `rf.mu` and `commitCh`, timeouts and messages that
arrive can make some peer the leader of a term that nobody is beyond. -/
theorem election_possible (hn : 2 ≤ n) {ok : Cluster n α → Event n α → Prop}
    {τ : List (SignalCluster n α)} (h : SignalCluster.Run ok τ) {s : SignalCluster n α} (hs : s ∈ τ)
    (hfree : ∀ p, ¬ (s.peer p).Deadlocked) :
    ∃ p s', s.Comes s' ∧ (s'.net.peers p).state = .leader ∧
      ∀ q, (s'.net.peers q).currentTerm ≤ (s'.net.peers p).currentTerm := by
  obtain ⟨s₁, hcomes, hopen, hreleased⟩ := (h.unlocked hs hfree).exists_released
  obtain ⟨G, p, σ', hcomes', helected⟩ := exists_elected hn hopen.sim
  obtain ⟨s', hcomes'', -, rfl⟩ := SignalCluster.exists_comes hreleased hcomes'
  exact ⟨p, s', hcomes.trans hcomes'', helected.leader.state, helected.term_le⟩

/-- Peer 0 is elected, and then peer 1 without peer 0 hearing of it. -/
def twoLeaders : List (Event 3 ℕ) :=
  [.broadCastVote 0, .handle 0, .process 0, .broadCastVote 1, .handle 2, .process 2]

/-- Two peers take themselves for the leader. -/
theorem election_possible_three : ∃ (τ : List (SignalCluster 3 ℕ)) (s : SignalCluster 3 ℕ),
    SignalCluster.Run Always τ ∧ s ∈ τ ∧ (s.net.peers 0).state = .leader ∧
      (s.net.peers 1).state = .leader ∧ ∃ p s', s.Comes s' ∧ (s'.net.peers p).state = .leader ∧
        ∀ q, (s'.net.peers q).currentTerm ≤ (s'.net.peers p).currentTerm := by
  have hend : ∃ s ∈ ((twoLeaders.map .act).foldlM SignalCluster.step (.init 3 ℕ)).toOption,
      (s.net.peers 0).state = .leader ∧ (s.net.peers 1).state = .leader ∧
        ∀ p, s.held p = none := by
    decide +kernel
  obtain ⟨s, hs, hzero, hone, hheld⟩ := hend
  obtain ⟨τ, hrun⟩ : ∃ τ, SignalCluster.Run Always (s :: τ) :=
    Trace.exists_of_foldlM (fun _ _ _ h => ⟨SignalCluster.begins_always, h⟩) _ .start
      (eq_ok_of_mem_toOption hs)
  exact ⟨_, s, hrun, List.mem_cons_self, hzero, hone, election_possible (by decide) hrun
    List.mem_cons_self fun p => SignalCluster.not_deadlocked (hheld p)⟩

section Single

variable {σ σ' : Cluster 1 α} {e : Event 1 α}

/-- A peer that is alone sends nothing and leads nobody. -/
theorem alone_step (hsim : ∃ a, Sim σ a) (hcalls : σ.calls = [])
    (hs : ∀ p, (σ.peers p).state ≠ .leader) (hstep : σ.step e = .ok σ') :
    σ'.calls = [] ∧ ∀ p, (σ'.peers p).state ≠ .leader := by
  have hupdate : ∀ {q : Fin 1} {rf : Raft 1 α}, rf.state ≠ .leader → ∀ p,
      (Function.update σ.peers q rf p).state ≠ .leader := by
    intro q rf hrf p
    rwa [Subsingleton.elim p q, Function.update_self]
  have hnone : ∀ {k : ℕ} {f : Call 1 α → Except Fault (Cluster 1 α)}, σ.onCall k f ≠ .ok σ' := by
    intro k f hf
    obtain ⟨c, hc, -⟩ := onCall_eq_ok.mp hf
    rw [hcalls] at hc
    cases hc
  obtain ⟨a, ha⟩ := hsim
  cases e with
  | broadCastVote p =>
    obtain ⟨st, hrun, -⟩ := (ha.peer p).log.broadCastVote (hs p)
    simp only [Cluster.step, hrun, Option.map_some, orPanic] at hstep
    obtain rfl := Except.ok.inj hstep
    refine ⟨?_, hupdate (by simp)⟩
    simp [Cluster.sendVotes, hcalls, others, Subsingleton.elim _ p]
  | start p command =>
    obtain rfl := Except.ok.inj hstep
    refine ⟨hcalls, hupdate ?_⟩
    rw [Raft.start, if_neg (hs p)]
    exact hs p
  | checkConsistency p peer =>
    rw [Cluster.step, if_pos (Subsingleton.elim p peer)] at hstep
    cases hstep
  | compact p cmdIndex snapshot =>
    rw [Cluster.step] at hstep
    split at hstep
    · obtain ⟨rf, hrun, rfl⟩ := Option.map_eq_some_iff.mp (orPanic_eq_ok.mp hstep)
      refine ⟨hcalls, hupdate ?_⟩
      rcases (ha.peer p).log.compact cmdIndex snapshot with hsame | ⟨-, -, logs, st, hnew, -⟩
      · obtain rfl := Option.some.inj (hsame.symm.trans hrun)
        exact hs p
      · obtain rfl := Option.some.inj (hnew.symm.trans hrun)
        exact hs p
    · cases hstep
  | apply p =>
    rw [Cluster.step] at hstep
    split at hstep
    · cases hstep
    · obtain ⟨rf, hrun, rfl⟩ := Option.map_eq_some_iff.mp (orPanic_eq_ok.mp hstep)
      have hlog : ({ σ.peers p with commitCh := (σ.peers p).commitCh - 1 } : Raft 1 α).Represents
        (a.log p) := (ha.peer p).log
      obtain ⟨msgs, la, rfl, -⟩ := Raft.Represents.applyLoop_eq _ _ hlog hrun
      exact ⟨hcalls, hupdate (hs p)⟩
  | handle | notify | process | lose => exact absurd hstep hnone
  | restart p =>
    obtain rfl := Except.ok.inj hstep
    obtain ⟨ch, hmake⟩ := Raft.make_persisted (ha.persisted p)
    rw [(ha.peer p).me] at hmake
    exact ⟨hcalls, hupdate (by simp [hmake])⟩

end Single

/-- **A cluster of one has no leader**, in any state of any run: its only vote is its own, and it
counts votes only when a reply comes. -/
theorem single_server_never_leads {ok : Cluster 1 α → Event 1 α → Prop} {τ : List (Cluster 1 α)}
    (h : Run ok τ) {σ : Cluster 1 α} (hσ : σ ∈ τ) (p : Fin 1) : (σ.peers p).state ≠ .leader := by
  have hinv : ∀ σ ∈ τ, (∃ a, Sim σ a) ∧ σ.calls = [] ∧ ∀ p, (σ.peers p).state ≠ .leader := by
    refine Trace.invariant ⟨⟨_, sim_init⟩, rfl, fun p hp => by cases hp⟩ ?_ h
    rintro σ e σ' ⟨hsim, hcalls, hs⟩ ⟨-, hstep⟩
    exact ⟨exists_sim_step hsim hstep, alone_step hsim hcalls hs hstep⟩
  exact (hinv σ hσ).2.2 p

/-- Three elections in vain. -/
theorem single_server_never_leads_three : ∃ (τ : List (Cluster 1 ℕ)) (σ : Cluster 1 ℕ),
    Run Always τ ∧ σ ∈ τ ∧ (σ.peers 0).currentTerm = 3 ∧ (σ.peers 0).state ≠ .leader := by
  have hrun := run_replay Always [Event.broadCastVote (0 : Fin 1), .broadCastVote 0,
    (.broadCastVote 0 : Event 1 ℕ)]
  exact ⟨_, _, hrun, List.mem_cons_self, by decide +kernel,
    single_server_never_leads hrun List.mem_cons_self 0⟩

end RaftKVDB
