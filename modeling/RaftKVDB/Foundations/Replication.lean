import RaftKVDB.Foundations.Majority
import RaftKVDB.Foundations.TermLog
import Mathlib.Data.Set.Function
import Mathlib.Logic.Function.Basic
import Mathlib.Logic.Relation

/-!
# Leader-based log replication, without messages

The protocol underneath every leader-based replicated log, with the network removed. Members hold a
term and a log; in each term a member votes at most once, a candidate with a majority of votes
becomes the leader of the term, the leader appends, and the others take over prefixes of its log.

## Why there are no messages

A leader's log only grows while it leads, so whatever a delayed message carries is a prefix of
`tlog t`, the log of the leader of term `t` *now*. A message handler is then one of the six actions
below with a suitable prefix length, whatever the order in which messages arrive, and losing a
message is not taking the action. A crash with stable storage is no action at all.

`replace` is the only action that can shorten a log, and its guard says when it does: a member
takes over `(tlog t).take m` only if it does not already hold it. A member therefore never gives up
anything it has in common with the leader.

## History

`voted`, `voteLog`, `leader`, `quorum`, `base` and `tlog` are indexed by the term and never
forgotten; `acked f t n` records that at some moment of term `t` member `f` held the first `n`
entries of the leader's log. `Extends` collects what a later state still knows about an earlier
one.

## Main results

* `Repl.Inv` — the invariant, and `Repl.Step.inv`, its preservation
* `Repl.Inv.leader_unique` — the votes of two quorums of one term are for the same candidate
* `Repl.Inv.complete` — leader completeness: what a majority held in the term that wrote it is in
  the log of every later leader from its election on
-/

namespace Foundations

variable {S E : Type*} [HasTerm E]

/-- The state of the replication protocol: what the members have now, and the history by term. -/
structure Repl (S E : Type*) where
  /-- The current term of a member. -/
  term : S → ℕ
  /-- The log of a member. -/
  log : S → List E
  /-- The vote a member cast in a term. -/
  voted : ℕ → S → Option S
  /-- The log a member had when it voted in a term. -/
  voteLog : ℕ → S → List E
  /-- The leader elected in a term. -/
  leader : ℕ → Option S
  /-- The members whose votes elected the leader of a term. -/
  quorum : ℕ → S → Prop
  /-- The log of the leader of a term when it was elected. -/
  base : ℕ → List E
  /-- The log of the leader of a term, growing while it leads. -/
  tlog : ℕ → List E
  /-- At some moment of term `t` the member held the first `n` entries of the leader's log. -/
  acked : S → ℕ → ℕ → Prop

namespace Repl

/-- Nobody has voted and all logs are empty. -/
def empty : Repl S E where
  term _ := 0
  log _ := []
  voted _ _ := none
  voteLog _ _ := []
  leader _ := none
  quorum _ _ := False
  base _ := []
  tlog _ := []
  acked _ _ _ := False

variable [DecidableEq S]

/-! ### The actions -/

/-- A member moves to a later term. -/
def bump (a : Repl S E) (p : S) (t : ℕ) : Repl S E :=
  { a with term := Function.update a.term p t }

/-- A member votes for `c`, and its log at that moment is recorded. -/
def vote (a : Repl S E) (v c : S) (t : ℕ) : Repl S E :=
  { a with
    voted := Function.update a.voted t (Function.update (a.voted t) v (some c))
    voteLog := Function.update a.voteLog t (Function.update (a.voteLog t) v (a.log v)) }

/-- A candidate becomes the leader of term `t`; those who voted for it so far are its quorum. -/
def elect (a : Repl S E) (c : S) (t : ℕ) : Repl S E :=
  { a with
    leader := Function.update a.leader t (some c)
    quorum := Function.update a.quorum t (fun v => a.voted t v = some c)
    base := Function.update a.base t (a.log c)
    tlog := Function.update a.tlog t (a.log c) }

/-- The leader of term `t` writes an entry. -/
def append (a : Repl S E) (c : S) (t : ℕ) (e : E) : Repl S E :=
  { a with
    log := Function.update a.log c (a.log c ++ [e])
    tlog := Function.update a.tlog t (a.tlog t ++ [e]) }

/-- A member takes over the first `m` entries of the leader's log, and nothing else. -/
def replace (a : Repl S E) (f : S) (t m : ℕ) : Repl S E :=
  { a with log := Function.update a.log f ((a.tlog t).take m) }

/-- Record what every member holds of the log of its current term. -/
def observe (a : Repl S E) : Repl S E :=
  { a with
    acked := fun f t n =>
      a.acked f t n ∨ a.term f = t ∧ n ≤ (a.tlog t).length ∧ (a.tlog t).take n <+: a.log f }

/-- One action, with its guard. -/
inductive Step [Fintype S] : Repl S E → Repl S E → Prop
  | bump {a : Repl S E} {p : S} {t : ℕ} : a.term p ≤ t → Step a (a.bump p t)
  | vote {a : Repl S E} {v c : S} {t : ℕ} : a.term v = t → a.voted t v = none →
      (c = v ∧ lastTerm (a.log v) < t ∨
        a.voted t c = some c ∧ UpToDate (a.voteLog t c) (a.log v)) → Step a (a.vote v c t)
  | elect {a : Repl S E} {c : S} {t : ℕ} : a.leader t = none → a.voted t c = some c →
      a.log c = a.voteLog t c → Majority (fun v => a.voted t v = some c) → Step a (a.elect c t)
  | append {a : Repl S E} {c : S} {t : ℕ} {e : E} : a.leader t = some c → a.term c = t →
      a.log c = a.tlog t → termOf e = t → Step a (a.append c t e)
  | replace {a : Repl S E} {f : S} {t m : ℕ} : a.leader t ≠ none → a.term f = t →
      ¬(a.tlog t).take m <+: a.log f → Step a (a.replace f t m)
  | observe {a : Repl S E} : Step a a.observe

/-- Any number of actions. -/
def Steps [Fintype S] : Repl S E → Repl S E → Prop := Relation.ReflTransGen Step

/-! ### What a later state still knows -/

/-- `b` is a later state than `a`: elections, votes and acknowledgements stand, terms and the logs
of leaders only grew. -/
structure Extends (a b : Repl S E) : Prop where
  /-- Terms do not go back. -/
  term : ∀ p, a.term p ≤ b.term p
  /-- A vote stands. -/
  voted : ∀ t v c, a.voted t v = some c → b.voted t v = some c
  /-- The log a member voted with stands. -/
  voteLog : ∀ t v c, a.voted t v = some c → b.voteLog t v = a.voteLog t v
  /-- An election stands. -/
  leader : ∀ t c, a.leader t = some c → b.leader t = some c
  /-- The log of an elected leader at its election stands. -/
  base : ∀ t c, a.leader t = some c → b.base t = a.base t
  /-- Leaders only append. -/
  tlog : ∀ t, a.tlog t <+: b.tlog t
  /-- Acknowledgements stand. -/
  acked : ∀ f t n, a.acked f t n → b.acked f t n

omit [HasTerm E] [DecidableEq S] in
theorem Extends.refl (a : Repl S E) : Extends a a where
  term _ := Nat.le_refl _
  voted _ _ _ h := h
  voteLog _ _ _ _ := rfl
  leader _ _ h := h
  base _ _ _ := rfl
  tlog _ := List.prefix_rfl
  acked _ _ _ h := h

omit [HasTerm E] [DecidableEq S] in
theorem Extends.trans {a b c : Repl S E} (hab : Extends a b) (hbc : Extends b c) :
    Extends a c where
  term p := (hab.term p).trans (hbc.term p)
  voted t v x h := hbc.voted t v x (hab.voted t v x h)
  voteLog t v x h := (hbc.voteLog t v x (hab.voted t v x h)).trans (hab.voteLog t v x h)
  leader t x h := hbc.leader t x (hab.leader t x h)
  base t x h := (hbc.base t x (hab.leader t x h)).trans (hab.base t x h)
  tlog t := (hab.tlog t).trans (hbc.tlog t)
  acked f t n h := hbc.acked f t n (hab.acked f t n h)

/-! ### The invariant -/

section Inv

variable [Fintype S] {a b : Repl S E} {p f v c : S} {t u n m i : ℕ} {e : E}

/-- The invariant of the protocol. The clauses about `acked` are the induction behind leader
completeness: what a member once held of a leader's log it still holds, or a leader of a later term
that it has reached did not have it; likewise for the log it voted with, where that leader is of an
earlier term than the vote. -/
structure Inv (a : Repl S E) : Prop where
  voted_le : ∀ t v c, a.voted t v = some c → t ≤ a.term v
  unelected : ∀ t, a.leader t = none → a.tlog t = []
  leader_quorum : ∀ t c, a.leader t = some c → Majority (a.quorum t)
  quorum_voted : ∀ t c v, a.leader t = some c → a.quorum t v → a.voted t v = some c
  leader_base : ∀ t c, a.leader t = some c → a.voted t c = some c ∧ a.base t = a.voteLog t c
  candidate : ∀ t v c, a.voted t v = some c →
    c = v ∨ a.voted t c = some c ∧ UpToDate (a.voteLog t c) (a.voteLog t v)
  sound_log : ∀ p, Sound a.tlog (a.log p)
  sound_tlog : ∀ t, Sound a.tlog (a.tlog t)
  sound_vote : ∀ t v c, a.voted t v = some c → Sound a.tlog (a.voteLog t v)
  ordered_log : ∀ p, Ordered (a.log p)
  ordered_tlog : ∀ t, Ordered (a.tlog t)
  ordered_vote : ∀ t v c, a.voted t v = some c → Ordered (a.voteLog t v)
  log_le : ∀ p, TermsLe (a.log p) (a.term p)
  tlog_le : ∀ t, TermsLe (a.tlog t) t
  vote_lt : ∀ t v c, a.voted t v = some c → lastTerm (a.voteLog t v) < t
  base_prefix : ∀ t c, a.leader t = some c → a.base t <+: a.tlog t
  written : ∀ t c i, a.leader t = some c → (a.base t).length < i → i ≤ (a.tlog t).length →
    termAt (a.tlog t) i = some t
  acked_le : ∀ f t n, a.acked f t n → n ≤ (a.tlog t).length ∧ t ≤ a.term f
  acked_mono : ∀ f t n m, a.acked f t n → m ≤ n → a.acked f t m
  acked_log : ∀ f t n, a.acked f t n → (a.tlog t).take n <+: a.log f ∨
    ∃ u, t < u ∧ u ≤ a.term f ∧ a.leader u ≠ none ∧ ¬(a.tlog t).take n <+: a.base u
  acked_vote : ∀ f t n u c, a.acked f t n → a.voted u f = some c → t < u →
    (a.leader u = none ∨ a.quorum u f) → (a.tlog t).take n <+: a.voteLog u f ∨
    ∃ w, t < w ∧ w < u ∧ a.leader w ≠ none ∧ ¬(a.tlog t).take n <+: a.base w

omit [DecidableEq S] in
theorem inv_empty : Inv (empty : Repl S E) where
  voted_le _ _ _ h := nomatch h
  unelected _ _ := rfl
  leader_quorum _ _ h := nomatch h
  quorum_voted _ _ _ h := nomatch h
  leader_base _ _ h := nomatch h
  candidate _ _ _ h := nomatch h
  sound_log _ := sound_nil _
  sound_tlog _ := sound_nil _
  sound_vote _ _ _ h := nomatch h
  ordered_log _ := ordered_nil
  ordered_tlog _ := ordered_nil
  ordered_vote _ _ _ h := nomatch h
  log_le _ i u h := by
    have := le_length_of_termAt h
    obtain rfl : i = 0 := by simpa [empty] using this
    exact (Option.some.inj h).ge
  tlog_le t i u h := by
    have := le_length_of_termAt h
    obtain rfl : i = 0 := by simpa [empty] using this
    exact (Option.some.inj h) ▸ Nat.zero_le t
  vote_lt _ _ _ h := nomatch h
  base_prefix _ _ h := nomatch h
  written _ _ _ h := nomatch h
  acked_le _ _ _ h := h.elim
  acked_mono _ _ _ _ h _ := h
  acked_log _ _ _ h := h.elim
  acked_vote _ _ _ _ _ h := h.elim

omit [Fintype S] [HasTerm E] in
theorem update_voted (a : Repl S E) (v c : S) (t u : ℕ) (w : S) :
    (a.vote v c t).voted u w = if u = t ∧ w = v then some c else a.voted u w := by
  by_cases hu : u = t
  · subst hu
    by_cases hw : w = v <;> simp [vote, hw]
  · simp [vote, hu]

omit [Fintype S] [HasTerm E] in
theorem update_voteLog (a : Repl S E) (v c : S) (t u : ℕ) (w : S) :
    (a.vote v c t).voteLog u w = if u = t ∧ w = v then a.log v else a.voteLog u w := by
  by_cases hu : u = t
  · subst hu
    by_cases hw : w = v <;> simp [vote, hw]
  · simp [vote, hu]

omit [Fintype S] [HasTerm E] in
/-- What holds of the log of the voter and of every log on record holds of every log on record after
the vote. -/
theorem forall_voteLog_vote (P : ℕ → List E → Prop) (hnew : P t (a.log v))
    (hold : ∀ u w x, a.voted u w = some x → P u (a.voteLog u w)) (u : ℕ) (w x : S)
    (hw : (a.vote v c t).voted u w = some x) : P u ((a.vote v c t).voteLog u w) := by
  rw [update_voted] at hw
  rw [update_voteLog]
  split at hw <;> rename_i huw
  · rw [if_pos huw, huw.1]
    exact hnew
  · rw [if_neg huw]
    exact hold u w x hw

/-! #### Moving to a later term -/

theorem Inv.bump (h : Inv a) (hp : a.term p ≤ t) : Inv (a.bump p t) where
  __ := h
  voted_le u v c hv := by
    have hle := h.voted_le u v c hv
    rcases eq_or_ne v p with rfl | hne
    · simpa [Repl.bump] using hle.trans hp
    · simpa [Repl.bump, hne] using hle
  log_le q := by
    rcases eq_or_ne q p with rfl | hne
    · simpa [Repl.bump] using (h.log_le q).mono hp
    · simpa [Repl.bump, hne] using h.log_le q
  acked_le f u n hf := by
    obtain ⟨hn, hu⟩ := h.acked_le f u n hf
    refine ⟨hn, ?_⟩
    rcases eq_or_ne f p with rfl | hne
    · simpa [Repl.bump] using hu.trans hp
    · simpa [Repl.bump, hne] using hu
  acked_log f u n hf := by
    refine (h.acked_log f u n hf).imp id ?_
    rintro ⟨w, huw, hw, hlead, hnot⟩
    refine ⟨w, huw, ?_, hlead, hnot⟩
    rcases eq_or_ne f p with rfl | hne
    · simpa [Repl.bump] using hw.trans hp
    · simpa [Repl.bump, hne] using hw

/-! #### Voting -/

theorem Inv.vote (h : Inv a) (ht : a.term v = t) (hnone : a.voted t v = none)
    (hc : c = v ∧ lastTerm (a.log v) < t ∨
      a.voted t c = some c ∧ UpToDate (a.voteLog t c) (a.log v)) : Inv (a.vote v c t) := by
  -- A vote that is on record is not the one being cast.
  have hold : ∀ u w x, a.voted u w = some x → ¬(u = t ∧ w = v) := by
    rintro u w x hw ⟨rfl, rfl⟩
    rw [hnone] at hw
    exact nomatch hw
  have hkeep : ∀ u w x, a.voted u w = some x → (a.vote v c t).voted u w = some x :=
    fun u w x hw => by rw [update_voted, if_neg (hold u w x hw), hw]
  have hkeepLog : ∀ u w x, a.voted u w = some x →
      (a.vote v c t).voteLog u w = a.voteLog u w :=
    fun u w x hw => by rw [update_voteLog, if_neg (hold u w x hw)]
  have hlt : lastTerm (a.log v) < t := by
    rcases hc with ⟨-, hlt⟩ | ⟨hcc, hup⟩
    · exact hlt
    · exact hup.lastTerm_le.trans_lt (h.vote_lt t c c hcc)
  refine
    { h with
      voted_le := fun u w x hw => ?_, quorum_voted := fun u x w hl hq => ?_,
      leader_base := fun u x hl => ?_, candidate := fun u w x hw => ?_,
      sound_vote := forall_voteLog_vote (fun _ => Sound a.tlog) (h.sound_log v) h.sound_vote,
      ordered_vote := forall_voteLog_vote (fun _ => Ordered) (h.ordered_log v) h.ordered_vote,
      vote_lt := forall_voteLog_vote (fun u l => lastTerm l < u) hlt h.vote_lt,
      acked_vote := fun f s n u x hf hw hsu hq => ?_ }
  · rw [update_voted] at hw
    split at hw
    · rename_i huw
      obtain ⟨rfl, rfl⟩ := huw
      exact ht.ge
    · exact h.voted_le u w x hw
  · exact hkeep u w x (h.quorum_voted u x w hl hq)
  · obtain ⟨hx, hb⟩ := h.leader_base u x hl
    exact ⟨hkeep u x x hx, by rw [hkeepLog u x x hx]; exact hb⟩
  · rw [update_voted] at hw
    split at hw
    · rename_i huw
      obtain ⟨rfl, rfl⟩ := huw
      obtain rfl := Option.some.inj hw
      refine hc.imp (·.1) fun hcc => ⟨hkeep u c c hcc.1, ?_⟩
      rw [hkeepLog u c c hcc.1, update_voteLog, if_pos ⟨rfl, rfl⟩]
      exact hcc.2
    · rename_i huw
      refine (h.candidate u w x hw).imp id fun hx => ⟨hkeep u x x hx.1, ?_⟩
      rw [hkeepLog u x x hx.1, hkeepLog u w x hw]
      exact hx.2
  · rw [update_voted] at hw
    rw [update_voteLog]
    split at hw <;> rename_i huw
    · -- The vote cast now: no leader of this term is known, since its voters are on record.
      obtain ⟨rfl, rfl⟩ := huw
      rw [if_pos ⟨rfl, rfl⟩]
      have hnl : a.leader u = none := by
        rcases hq with hq | hq
        · exact hq
        · rcases hl : a.leader u with _ | y
          · rfl
          · exact absurd ⟨rfl, rfl⟩ (hold u f y (h.quorum_voted u y f hl hq))
      refine (h.acked_log f s n hf).imp id ?_
      rintro ⟨w, hsw, hw', hlead, hnot⟩
      refine ⟨w, hsw, lt_of_le_of_ne (ht ▸ hw') ?_, hlead, hnot⟩
      rintro rfl
      exact hlead hnl
    · rw [if_neg huw]
      exact h.acked_vote f s n u x hf hw hsu hq

/-! #### Being elected -/

omit [DecidableEq S] in
/-- What was acknowledged of a leader's log is the same list when that log has grown. -/
theorem Inv.take_acked (h : Inv a) (hf : a.acked f t n) {l : List E} (hl : a.tlog t <+: l) :
    l.take n = (a.tlog t).take n :=
  (take_eq_of_isPrefix hl (h.acked_le f t n hf).1).symm

omit [DecidableEq S] in
theorem Inv.tlog_prefix_elect (h : Inv a) (hnone : a.leader t = none) (u : ℕ) :
    a.tlog u <+: (a.elect c t).tlog u := by
  rcases eq_or_ne u t with rfl | hne
  · rw [h.unelected u hnone]
    exact List.nil_prefix
  · simp [Repl.elect, hne]

omit [DecidableEq S] in
theorem Inv.elect (h : Inv a) (hnone : a.leader t = none) (hvc : a.voted t c = some c)
    (hlog : a.log c = a.voteLog t c) (hmaj : Majority (fun v => a.voted t v = some c)) :
    Inv (a.elect c t) := by
  have hgrow := h.tlog_prefix_elect (c := c) hnone
  have hltc : lastTerm (a.log c) < t := hlog ▸ h.vote_lt t c c hvc
  -- The leader of any term but `t` is the one elected before.
  have hlead : ∀ u, u ≠ t → (a.elect c t).leader u = a.leader u := fun u hu => by
    simp [Repl.elect, hu]
  have hbase : ∀ u, u ≠ t → (a.elect c t).base u = a.base u := fun u hu => by
    simp [Repl.elect, hu]
  have hold : ∀ u, a.leader u ≠ none → u ≠ t := by
    rintro u hu rfl
    exact hu hnone
  refine
    { h with
      unelected := fun u hu => ?_, leader_quorum := fun u x hu => ?_,
      quorum_voted := fun u x v hu hv => ?_, leader_base := fun u x hu => ?_,
      sound_log := fun p => (h.sound_log p).mono hgrow, sound_tlog := fun u => ?_,
      sound_vote := fun u v x hv => (h.sound_vote u v x hv).mono hgrow,
      ordered_tlog := fun u => ?_, tlog_le := fun u => ?_, base_prefix := fun u x hu => ?_,
      written := fun u x i hu hi hi' => ?_, acked_le := fun f u n hf => ?_,
      acked_log := fun f u n hf => ?_, acked_vote := fun f s n u x hf hv hsu hq => ?_ }
  · have hne : u ≠ t := by rintro rfl; simp [Repl.elect] at hu
    rw [hlead u hne] at hu
    simpa [Repl.elect, hne] using h.unelected u hu
  · rcases eq_or_ne u t with rfl | hne
    · simpa [Repl.elect] using hmaj
    · rw [hlead u hne] at hu
      simpa [Repl.elect, hne] using h.leader_quorum u x hu
  · rcases eq_or_ne u t with rfl | hne
    · obtain rfl : c = x := by simpa [Repl.elect] using hu
      simpa [Repl.elect] using hv
    · rw [hlead u hne] at hu
      exact h.quorum_voted u x v hu (by simpa [Repl.elect, hne] using hv)
  · rcases eq_or_ne u t with rfl | hne
    · obtain rfl : c = x := by simpa [Repl.elect] using hu
      exact ⟨hvc, by simpa [Repl.elect] using hlog⟩
    · rw [hlead u hne] at hu
      rw [hbase u hne]
      exact h.leader_base u x hu
  · rcases eq_or_ne u t with rfl | hne
    · simpa [Repl.elect] using (h.sound_log c).mono hgrow
    · simpa [Repl.elect, hne] using (h.sound_tlog u).mono hgrow
  · rcases eq_or_ne u t with rfl | hne
    · simpa [Repl.elect] using h.ordered_log c
    · simpa [Repl.elect, hne] using h.ordered_tlog u
  · rcases eq_or_ne u t with rfl | hne
    · simpa [Repl.elect] using (h.ordered_log c).termsLe.mono hltc.le
    · simpa [Repl.elect, hne] using h.tlog_le u
  · rcases eq_or_ne u t with rfl | hne
    · simp [Repl.elect]
    · rw [hlead u hne] at hu
      simpa [Repl.elect, hne] using h.base_prefix u x hu
  · rcases eq_or_ne u t with rfl | hne
    · simp only [Repl.elect, Function.update_self] at hi hi'
      omega
    · rw [hlead u hne] at hu
      simp only [Repl.elect, Function.update_of_ne hne] at hi hi' ⊢
      exact h.written u x i hu hi hi'
  · obtain ⟨hn, hu⟩ := h.acked_le f u n hf
    exact ⟨hn.trans (hgrow u).length_le, hu⟩
  · rw [h.take_acked hf (hgrow u)]
    refine (h.acked_log f u n hf).imp id ?_
    rintro ⟨w, huw, hw, hl, hnot⟩
    refine ⟨w, huw, hw, by rwa [hlead w (hold w hl)], ?_⟩
    rwa [hbase w (hold w hl)]
  · rw [h.take_acked hf (hgrow s)]
    have hq' : a.leader u = none ∨ a.quorum u f := by
      rcases eq_or_ne u t with rfl | hne
      · exact .inl hnone
      · rw [hlead u hne] at hq
        simpa [Repl.elect, hne] using hq
    refine (h.acked_vote f s n u x hf hv hsu hq').imp id ?_
    rintro ⟨w, hsw, hwu, hl, hnot⟩
    refine ⟨w, hsw, hwu, by rwa [hlead w (hold w hl)], ?_⟩
    rwa [hbase w (hold w hl)]

/-! #### Appending -/

omit [Fintype S] [HasTerm E] in
theorem tlog_prefix_append (a : Repl S E) (c : S) (t : ℕ) (e : E) (u : ℕ) :
    a.tlog u <+: (a.append c t e).tlog u := by
  rcases eq_or_ne u t with rfl | hne
  · simp [Repl.append]
  · simp [Repl.append, hne]

omit [Fintype S] [HasTerm E] in
theorem log_prefix_append (a : Repl S E) (c : S) (t : ℕ) (e : E) (p : S) :
    a.log p <+: (a.append c t e).log p := by
  rcases eq_or_ne p c with rfl | hne
  · simp [Repl.append]
  · simp [Repl.append, hne]

theorem Inv.append (h : Inv a) (hl : a.leader t = some c) (htc : a.term c = t)
    (hlog : a.log c = a.tlog t) (he : termOf e = t) : Inv (a.append c t e) := by
  have hgrow := tlog_prefix_append a c t e
  have hown : a.tlog t ++ [e] <+: (a.append c t e).tlog (termOf e) := by
    simp [Repl.append, he]
  have hsound : Sound (a.append c t e).tlog (a.tlog t ++ [e]) :=
    ((h.sound_tlog t).mono hgrow).append hown
  have hord : Ordered (a.tlog t ++ [e]) := (h.ordered_tlog t).append (he ▸ h.tlog_le t)
  have hle : TermsLe (a.tlog t ++ [e]) t := (h.tlog_le t).append he.le
  refine
    { h with
      unelected := fun u hu => ?_, sound_log := fun p => ?_, sound_tlog := fun u => ?_,
      sound_vote := fun u v x hv => (h.sound_vote u v x hv).mono hgrow,
      ordered_log := fun p => ?_, ordered_tlog := fun u => ?_, log_le := fun p => ?_,
      tlog_le := fun u => ?_, base_prefix := fun u x hu => (h.base_prefix u x hu).trans (hgrow u),
      written := fun u x i hu hi hi' => ?_, acked_le := fun f u n hf => ?_,
      acked_log := fun f u n hf => ?_, acked_vote := fun f s n u x hf hv hsu hq => ?_ }
  · have hne : u ≠ t := by
      rintro rfl
      exact nomatch hl.symm.trans hu
    simpa [Repl.append, hne] using h.unelected u hu
  · rcases eq_or_ne p c with rfl | hne
    · simpa [Repl.append, hlog] using hsound
    · simpa [Repl.append, hne] using (h.sound_log p).mono hgrow
  · rcases eq_or_ne u t with rfl | hne
    · simpa [Repl.append] using hsound
    · simpa [Repl.append, hne] using (h.sound_tlog u).mono hgrow
  · rcases eq_or_ne p c with rfl | hne
    · simpa [Repl.append, hlog] using hord
    · simpa [Repl.append, hne] using h.ordered_log p
  · rcases eq_or_ne u t with rfl | hne
    · simpa [Repl.append] using hord
    · simpa [Repl.append, hne] using h.ordered_tlog u
  · rcases eq_or_ne p c with rfl | hne
    · simpa [Repl.append, hlog, htc] using hle
    · simpa [Repl.append, hne] using h.log_le p
  · rcases eq_or_ne u t with rfl | hne
    · simpa [Repl.append] using hle
    · simpa [Repl.append, hne] using h.tlog_le u
  · rcases eq_or_ne u t with rfl | hne
    · simp only [Repl.append, Function.update_self, List.length_append,
        List.length_singleton] at hi' ⊢
      rcases Nat.lt_or_ge (a.tlog u).length i with hlt | hge
      · obtain rfl : i = (a.tlog u).length + 1 := by omega
        rw [termAt_append_right, he]
      · rw [termAt_append_left hge]
        exact h.written u x i hu hi hge
    · simp only [Repl.append, Function.update_of_ne hne] at hi' ⊢
      exact h.written u x i hu hi hi'
  · obtain ⟨hn, hu⟩ := h.acked_le f u n hf
    exact ⟨hn.trans (hgrow u).length_le, hu⟩
  · rw [h.take_acked hf (hgrow u)]
    exact (h.acked_log f u n hf).imp (·.trans (log_prefix_append a c t e f)) id
  · rw [h.take_acked hf (hgrow s)]
    exact h.acked_vote f s n u x hf hv hsu hq

/-! #### Taking over a prefix of the leader's log -/

theorem Inv.replace (h : Inv a) (hl : a.leader t ≠ none) (htf : a.term f = t)
    (hnot : ¬(a.tlog t).take m <+: a.log f) : Inv (a.replace f t m) := by
  obtain ⟨c, hc⟩ := Option.ne_none_iff_exists'.mp hl
  refine
    { h with
      sound_log := fun p => ?_, ordered_log := fun p => ?_, log_le := fun p => ?_,
      acked_log := fun g u n hg => ?_ }
  · rcases eq_or_ne p f with rfl | hne
    · simpa [Repl.replace] using (h.sound_tlog t).of_isPrefix (List.take_prefix m _)
    · simpa [Repl.replace, hne] using h.sound_log p
  · rcases eq_or_ne p f with rfl | hne
    · simpa [Repl.replace] using (h.ordered_tlog t).of_isPrefix (List.take_prefix m _)
    · simpa [Repl.replace, hne] using h.ordered_log p
  · rcases eq_or_ne p f with rfl | hne
    · simpa [Repl.replace, htf] using (h.tlog_le t).of_isPrefix (List.take_prefix m _)
    · simpa [Repl.replace, hne] using h.log_le p
  · rcases eq_or_ne g f with rfl | hne
    · have hlog : (a.replace g t m).log g = (a.tlog t).take m := by simp [Repl.replace]
      rw [hlog]
      refine (h.acked_log g u n hg).elim (fun hheld => ?_) .inr
      -- What is held and is a prefix of the leader's log is not given up: a shorter prefix `m`
      -- would have been held already.
      have hkeep : (a.tlog u).take n <+: a.tlog t → (a.tlog u).take n <+: (a.tlog t).take m := by
        intro hpre
        refine List.prefix_take_iff.mpr ⟨hpre, Nat.le_of_not_lt fun hlt => hnot ?_⟩
        exact (List.prefix_of_prefix_length_le (List.take_prefix m _) hpre
          ((List.length_take_le _ _).trans hlt.le)).trans hheld
      by_cases hpre : (a.tlog u).take n <+: a.base t
      · exact .inl (hkeep (hpre.trans (h.base_prefix t c hc)))
      · rcases (h.acked_le g u n hg).2.eq_or_lt with heq | hlt
        · exact .inl (hkeep (by rw [heq, htf]; exact List.take_prefix _ _))
        · exact .inr ⟨t, htf ▸ hlt, htf.ge, hl, hpre⟩
    · have hlog : (a.replace f t m).log g = a.log g := by simp [Repl.replace, hne]
      rw [hlog]
      exact h.acked_log g u n hg

/-! #### Recording what is held -/

omit [DecidableEq S] in
theorem Inv.observe (h : Inv a) : Inv a.observe where
  __ := h
  acked_le f t n hf := by
    rcases hf with hf | ⟨ht, hn, -⟩
    · exact h.acked_le f t n hf
    · exact ⟨hn, ht.ge⟩
  acked_mono f t n m hf hm := by
    rcases hf with hf | ⟨ht, hn, hpre⟩
    · exact .inl (h.acked_mono f t n m hf hm)
    · exact .inr ⟨ht, hm.trans hn, (List.take_prefix_take_left hm).trans hpre⟩
  acked_log f t n hf := by
    rcases hf with hf | ⟨-, -, hpre⟩
    · exact h.acked_log f t n hf
    · exact .inl hpre
  acked_vote f t n u c hf hv htu hq := by
    rcases hf with hf | ⟨ht, -, -⟩
    · exact h.acked_vote f t n u c hf hv htu hq
    · have := h.voted_le u f c hv
      omega

/-- **Every action keeps the invariant.** -/
theorem Step.inv (hs : Step a b) (h : Inv a) : Inv b := by
  cases hs with
  | bump hp => exact h.bump hp
  | vote ht hnone hc => exact h.vote ht hnone hc
  | elect hnone hvc hlog hmaj => exact h.elect hnone hvc hlog hmaj
  | append hl htc hlog he => exact h.append hl htc hlog he
  | replace hl htf hnot => exact h.replace hl htf hnot
  | observe => exact h.observe

/-- Every action leads to a later state. -/
theorem Step.extends (hs : Step a b) (h : Inv a) : Extends a b := by
  cases hs with
  | @bump p t hp =>
    refine { Extends.refl a with term := fun q => ?_ }
    rcases eq_or_ne q p with rfl | hne
    · simpa [Repl.bump] using hp
    · simp [Repl.bump, hne]
  | @vote v c t ht hnone hc =>
    have hold : ∀ u w x, a.voted u w = some x → ¬(u = t ∧ w = v) := by
      rintro u w x hw ⟨rfl, rfl⟩
      rw [hnone] at hw
      exact nomatch hw
    exact
      { Extends.refl a with
        voted := fun u w x hw => by rw [update_voted, if_neg (hold u w x hw), hw]
        voteLog := fun u w x hw => by rw [update_voteLog, if_neg (hold u w x hw)] }
  | @elect c t hnone hvc hlog hmaj =>
    have hold : ∀ u x, a.leader u = some x → u ≠ t := by
      rintro u x hu rfl
      exact nomatch hnone.symm.trans hu
    exact
      { Extends.refl a with
        leader := fun u x hu => by simpa [Repl.elect, hold u x hu] using hu
        base := fun u x hu => by simp [Repl.elect, hold u x hu]
        tlog := h.tlog_prefix_elect hnone }
  | @append c t e hl htc hlog he =>
    exact { Extends.refl a with tlog := tlog_prefix_append a c t e }
  | replace hl htf hnot => exact { Extends.refl a with }
  | observe => exact { Extends.refl a with acked := fun f t n hf => .inl hf }

theorem Steps.inv_extends (hs : Steps a b) (h : Inv a) : Inv b ∧ Extends a b := by
  induction hs with
  | refl => exact ⟨h, Extends.refl a⟩
  | tail _ hstep ih => exact ⟨hstep.inv ih.1, ih.2.trans (hstep.extends ih.1)⟩

/-! ### Elections and completeness -/

omit [DecidableEq S] in
/-- **Election safety.** A majority of votes in a term that has a leader is for that leader. -/
theorem Inv.leader_unique (h : Inv a) (hl : a.leader t = some c)
    (hmaj : Majority (fun v => a.voted t v = some p)) : p = c := by
  obtain ⟨v, hq, hv⟩ := (h.leader_quorum t c hl).inter hmaj
  exact Option.some.inj (hv.symm.trans (h.quorum_voted t c v hl hq))

omit [DecidableEq S] in
theorem Inv.lastTerm_base_lt (h : Inv a) (hl : a.leader t = some c) : lastTerm (a.base t) < t := by
  obtain ⟨hv, hb⟩ := h.leader_base t c hl
  exact hb ▸ h.vote_lt t c c hv

omit [DecidableEq S] in
/-- An entry of term `t` was written after the election of the leader of `t`. -/
theorem Inv.length_base_lt (h : Inv a) (hl : a.leader t = some c)
    (hi : termAt (a.tlog t) i = some t) :
    (a.base t).length < i := by
  refine Nat.lt_of_not_le fun hle => ?_
  have hpre := h.base_prefix t c hl
  rw [← termAt_of_isPrefix hpre hle] at hi
  have := ((h.ordered_tlog t).of_isPrefix hpre).termsLe i t hi
  have := h.lastTerm_base_lt hl
  omega

omit [DecidableEq S] in
/-- An entry's term has a leader. -/
theorem Inv.leader_of_termAt (h : Inv a) {l : List E} (hs : Sound a.tlog l) (hi : 0 < i)
    (ht : termAt l i = some t) : a.leader t ≠ none := by
  intro hnone
  have hpre := hs i t ht
  rw [h.unelected t hnone, List.prefix_nil, List.take_eq_nil_iff] at hpre
  have hle := le_length_of_termAt ht
  rcases hpre with hz | hnil
  · omega
  · rw [hnil, List.length_nil] at hle
    omega

omit [DecidableEq S] in
/-- The voter that two majorities share passes on what it held: a log at least as up to date as one
that holds the first `n` entries of the log of `t`, the last of them of term `t`, holds them too,
provided all leaders between `t` and `u` do. -/
theorem Inv.upToDate_carries (h : Inv a) {l l' : List E} (hs : Sound a.tlog l) (ho : Ordered l')
    (hup : UpToDate l l') (hn : termAt (a.tlog t) n = some t) (ht : 0 < t)
    (hl' : (a.tlog t).take n <+: l')
    (hbetween : ∀ w, t < w → w ≤ lastTerm l → a.leader w ≠ none →
      (a.tlog t).take n <+: a.base w) : (a.tlog t).take n <+: l := by
  have hnle := le_length_of_termAt hn
  have hlen : ((a.tlog t).take n).length = n := by simp [hnle]
  have hl'n : termAt l' n = some t := by
    rw [← termAt_of_isPrefix hl' hlen.ge, termAt_take (Nat.le_refl n), hn]
  have htl' : t ≤ lastTerm l' := ho.termsLe n t hl'n
  have hwhole : l <+: a.tlog (lastTerm l) := by
    simpa using hs l.length _ (termAt_length l)
  rcases (htl'.trans hup.lastTerm_le).eq_or_lt with heq | hlt
  · -- Both logs end in term `t`, and `l` is no shorter.
    rcases hup with hgt | ⟨-, hle⟩
    · omega
    · refine List.prefix_of_prefix_length_le (List.take_prefix n _) (heq ▸ hwhole) ?_
      rw [hlen]
      exact (le_length_of_termAt hl'n).trans hle
  · -- `l` ends in an entry that a leader between wrote on top of what it was elected with.
    have hpos : 0 < l.length := by
      refine Nat.pos_of_ne_zero fun hz => ?_
      rw [List.length_eq_zero_iff.mp hz, lastTerm_nil] at hlt
      omega
    have hlead := h.leader_of_termAt hs hpos (termAt_length l)
    obtain ⟨d, hd⟩ := Option.ne_none_iff_exists'.mp hlead
    have hbase := hbetween (lastTerm l) hlt (Nat.le_refl _) hlead
    refine List.prefix_of_prefix_length_le (hbase.trans (h.base_prefix _ d hd)) hwhole ?_
    have hlong := h.length_base_lt hd
      ((termAt_of_isPrefix hwhole (Nat.le_refl _)).symm.trans (termAt_length l))
    exact hbase.length_le.trans hlong.le

omit [DecidableEq S] in
/-- **Leader completeness.** Entries that a majority held in the term that wrote the last of them
are in the log of every later leader, from its election on. -/
theorem Inv.complete (h : Inv a) (hn : termAt (a.tlog t) n = some t)
    (hmaj : Majority (fun f => a.acked f t n)) (hpos : 0 < t) :
    ∀ u, t < u → a.leader u ≠ none → (a.tlog t).take n <+: a.base u := by
  intro u
  induction u using Nat.strong_induction_on with
  | _ u ih =>
    intro htu hlead
    obtain ⟨c, hc⟩ := Option.ne_none_iff_exists'.mp hlead
    obtain ⟨v, hq, hack⟩ := (h.leader_quorum u c hc).inter hmaj
    have hv := h.quorum_voted u c v hc hq
    obtain ⟨hcc, hbase⟩ := h.leader_base u c hc
    have hvl : (a.tlog t).take n <+: a.voteLog u v := by
      rcases h.acked_vote v t n u c hack hv htu (.inr hq) with hpre | ⟨w, htw, hwu, hlw, hnot⟩
      · exact hpre
      · exact absurd (ih w hwu htw hlw) hnot
    rcases h.candidate u v c hv with rfl | ⟨-, hup⟩
    · rwa [hbase]
    · rw [hbase]
      refine h.upToDate_carries (h.sound_vote u c c hcc) (h.ordered_vote u v c hv) hup hn hpos hvl
        fun w htw hw hlw => ih w (hw.trans_lt (h.vote_lt u c c hcc)) htw hlw

omit [DecidableEq S] in
/-- While a member stays in a term it keeps what it acknowledged of that term's leader. -/
theorem Inv.acked_current (h : Inv a) (hf : a.acked f (a.term f) n) :
    (a.tlog (a.term f)).take n <+: a.log f := by
  rcases h.acked_log f _ n hf with hpre | ⟨u, hu, hu', -, -⟩
  · exact hpre
  · omega

end Inv

end Repl

end Foundations
