import RaftKVDB.Foundations.Replication

/-!
# What leader-based replication has committed

An entry is committed once a majority has held it, each member while in the term of the entry. By
completeness every later leader has it, so all committed prefixes lie on one line: any two agree
as far as both go (`CommitPoint.agree`).

A member does not know what is committed; it knows a *commit point*, a length up to which its log
is a prefix of something committed. `CommitPoint` is closed under everything that can happen to the
log of a member: it grows, the protocol goes on, or the log is replaced by a prefix of a leader's
log that it did not contain.
-/

namespace Foundations

namespace Repl

variable {S E : Type*} [Fintype S] [HasTerm E] {a b : Repl S E}
  {l l' : List E} {t u n i j m : ℕ}

/-- Entry `n` was written in term `t`, and a majority held it in term `t`. -/
def Committed (a : Repl S E) (t n : ℕ) : Prop :=
  0 < n ∧ termAt (a.tlog t) n = some t ∧ Majority fun f => a.acked f t n

theorem Committed.le_length (h : a.Committed t n) : n ≤ (a.tlog t).length :=
  le_length_of_termAt h.2.1

theorem Committed.extends (h : a.Committed t n) (hext : a.Extends b) : b.Committed t n := by
  refine ⟨h.1, ?_, h.2.2.mono fun f => hext.acked f t n⟩
  rw [← termAt_of_isPrefix (hext.tlog t) h.le_length, h.2.1]

theorem Committed.leader (hinv : a.Inv) (h : a.Committed t n) : a.leader t ≠ none :=
  hinv.leader_of_termAt (hinv.sound_tlog t) h.1 h.2.1

/-- Every leader from the term of a committed entry on has it. -/
theorem Committed.prefix_tlog (hinv : a.Inv) (h : a.Committed t n) (htu : t ≤ u)
    (hl : a.leader u ≠ none) : (a.tlog t).take n <+: a.tlog u := by
  rcases Nat.eq_or_lt_of_le htu with rfl | hlt
  · exact List.take_prefix _ _
  · obtain ⟨c, hc⟩ := Option.ne_none_iff_exists'.mp hl
    obtain ⟨d, hd⟩ := Option.ne_none_iff_exists'.mp (h.leader hinv)
    have hpos := Nat.zero_lt_of_lt (hinv.lastTerm_base_lt hd)
    exact (hinv.complete h.2.1 h.2.2 hpos u hlt hl).trans (hinv.base_prefix u c hc)

/-! ### Commit points -/

/-- The first `i` entries of `l` are committed, by an entry of a term up to `t`. -/
def CommitPoint (a : Repl S E) (t : ℕ) (l : List E) (i : ℕ) : Prop :=
  i = 0 ∨ ∃ u n, u ≤ t ∧ a.Committed u n ∧ i ≤ n ∧ (a.tlog u).take i <+: l

theorem CommitPoint.zero (a : Repl S E) (t : ℕ) (l : List E) : a.CommitPoint t l 0 := .inl rfl

theorem CommitPoint.le_length (h : a.CommitPoint t l i) : i ≤ l.length := by
  rcases h with rfl | ⟨u, n, -, hc, hin, hpre⟩
  · exact Nat.zero_le _
  · have hlen := hpre.length_le
    rwa [List.length_take, Nat.min_eq_left (hin.trans hc.le_length)] at hlen

theorem CommitPoint.of_le (h : a.CommitPoint t l i) (hj : j ≤ i) : a.CommitPoint t l j := by
  rcases h with rfl | ⟨u, n, hu, hc, hin, hpre⟩
  · exact .inl (Nat.le_zero.mp hj)
  · exact .inr ⟨u, n, hu, hc, hj.trans hin, (List.take_prefix_take_left hj).trans hpre⟩

/-- A longer log, in a later term of a later state, keeps its commit points. -/
theorem CommitPoint.extends (h : a.CommitPoint t l i) (hext : a.Extends b) (htu : t ≤ u)
    (hl : l <+: l') : b.CommitPoint u l' i := by
  rcases h with rfl | ⟨v, n, hv, hc, hin, hpre⟩
  · exact .inl rfl
  · refine .inr ⟨v, n, hv.trans htu, hc.extends hext, hin, ?_⟩
    rw [← take_eq_of_isPrefix (hext.tlog v) (hin.trans hc.le_length)]
    exact hpre.trans hl

/-- What is committed is in the log of every later leader. -/
theorem CommitPoint.prefix_tlog (hinv : a.Inv) (h : a.CommitPoint t l i) (htu : t ≤ u)
    (hl : a.leader u ≠ none) : l.take i <+: a.tlog u := by
  rcases h with rfl | ⟨v, n, hv, hc, hin, hpre⟩
  · simp
  · have hlen := hin.trans hc.le_length
    rw [← ((take_prefix_iff hlen).mp hpre).2]
    exact (List.take_prefix_take_left hin).trans (hc.prefix_tlog hinv (hv.trans htu) hl)

/-- **Commit points lie on one line.** -/
theorem CommitPoint.agree (hinv : a.Inv) (h : a.CommitPoint t l i) (h' : a.CommitPoint u l' i) :
    l.take i = l'.take i := by
  rcases h with rfl | ⟨v, n, hv, hc, hin, hpre⟩
  · simp
  rcases h' with rfl | ⟨w, m, hw, hd, him, hpre'⟩
  · simp
  have hlv := hin.trans hc.le_length
  have hlw := him.trans hd.le_length
  rw [← ((take_prefix_iff hlv).mp hpre).2, ← ((take_prefix_iff hlw).mp hpre').2]
  -- The later of the two leaders has what the earlier one committed.
  rcases Nat.le_total v w with hvw | hwv
  · have hle := hc.prefix_tlog hinv hvw (hd.leader hinv)
    exact ((take_prefix_iff hlv).mp ((List.take_prefix_take_left hin).trans hle)).2
  · have hle := hd.prefix_tlog hinv hwv (hc.leader hinv)
    exact ((take_prefix_iff hlw).mp ((List.take_prefix_take_left him).trans hle)).2.symm

/-- **There is such a line**: one list of which every committed prefix is a prefix. -/
theorem Inv.exists_line (hinv : a.Inv) :
    ∃ line, ∀ t l i, a.CommitPoint t l i → l.take i <+: line := by
  classical
  by_cases hlead : ∃ u, a.leader u ≠ none
  · -- The log of the last leader.
    have hbound : ∀ u, a.leader u ≠ none → u ≤ Finset.univ.sup a.term := by
      intro u hu
      obtain ⟨c, hc⟩ := Option.ne_none_iff_exists'.mp hu
      exact (hinv.voted_le u c c (hinv.leader_base u c hc).1).trans
        (Finset.le_sup (Finset.mem_univ c))
    obtain ⟨u, hu⟩ := hlead
    have hlast := Nat.findGreatest_spec (P := fun u => a.leader u ≠ none) (hbound u hu) hu
    set w := Nat.findGreatest (fun u => a.leader u ≠ none) (Finset.univ.sup a.term)
    refine ⟨a.tlog w, fun t l i h => ?_⟩
    rcases h with rfl | ⟨v, n, hv, hc, hin, hpre⟩
    · simp
    · have hpoint : a.CommitPoint v l i := .inr ⟨v, n, Nat.le_refl _, hc, hin, hpre⟩
      exact hpoint.prefix_tlog hinv
        (Nat.le_findGreatest (hbound v (hc.leader hinv)) (hc.leader hinv)) hlast
  · refine ⟨[], fun t l i h => ?_⟩
    rcases h with rfl | ⟨v, n, -, hc, -⟩
    · simp
    · exact absurd ⟨v, hc.leader hinv⟩ hlead

/-- Replacing a log by a prefix of a leader's log that it does not contain keeps its commit
points. -/
theorem CommitPoint.replace (hinv : a.Inv) (h : a.CommitPoint t l i) (htu : t ≤ u)
    (hl : a.leader u ≠ none) (hnot : ¬(a.tlog u).take m <+: l) :
    a.CommitPoint u ((a.tlog u).take m) i := by
  have hpre := h.prefix_tlog hinv htu hl
  have hi := h.le_length
  rcases h with rfl | ⟨v, n, hv, hc, hin, hpre'⟩
  · exact .inl rfl
  have htake := ((take_prefix_iff hi).mp hpre).2
  have him : i ≤ m := by
    by_contra hlt
    refine hnot ?_
    have : (a.tlog u).take m = (l.take i).take m := by
      rw [htake, List.take_take, Nat.min_eq_left (by omega)]
    rw [this]
    exact (List.take_prefix _ _).trans (List.take_prefix _ _)
  refine .inr ⟨v, n, hv.trans htu, hc, hin, ?_⟩
  rw [((take_prefix_iff (hin.trans hc.le_length)).mp hpre').2, htake]
  exact List.take_prefix_take_left him

/-! ### What a member keeps -/

/-- In `b` every member still has what it had in `a` and was committed. -/
structure Keeps (a b : Repl S E) : Prop where
  ext : a.Extends b
  point : ∀ p i, a.CommitPoint (a.term p) (a.log p) i → b.CommitPoint (b.term p) (b.log p) i

theorem Keeps.refl (a : Repl S E) : Keeps a a := ⟨.refl a, fun _ _ => id⟩

theorem Keeps.trans {c : Repl S E} (hab : Keeps a b) (hbc : Keeps b c) : Keeps a c :=
  ⟨hab.ext.trans hbc.ext, fun p i h => hbc.point p i (hab.point p i h)⟩

variable [DecidableEq S]

/-- Whatever happens to a log, the committed part of it stays. -/
theorem Step.keeps (hs : Step a b) (hinv : a.Inv) : Keeps a b := by
  have hext := hs.extends hinv
  refine ⟨hext, fun p i h => ?_⟩
  have hlonger : a.log p <+: b.log p → b.CommitPoint (b.term p) (b.log p) i :=
    h.extends hext (hext.term p)
  cases hs with
  | bump => exact hlonger List.prefix_rfl
  | vote => exact hlonger List.prefix_rfl
  | elect => exact hlonger List.prefix_rfl
  | append => exact hlonger (log_prefix_append _ _ _ _ p)
  | @replace f t m hl htf hnot =>
    subst htf
    by_cases hp : p = f
    · subst hp
      have hrep : a.CommitPoint (a.term p) ((a.tlog (a.term p)).take m) i :=
        h.replace hinv (Nat.le_refl _) hl hnot
      rw [show (a.replace p (a.term p) m).log p = (a.tlog (a.term p)).take m from
        Function.update_self ..]
      exact hrep
    · refine hlonger ?_
      rw [show (a.replace f (a.term f) m).log p = a.log p from Function.update_of_ne hp ..]
  | observe => exact hlonger List.prefix_rfl

/-- Any number of actions keeps the commit points. -/
theorem Steps.keeps (hs : Steps a b) (hinv : a.Inv) : Keeps a b := by
  induction hs with
  | refl => exact .refl a
  | tail hs hstep ih => exact ih.trans (hstep.keeps (Steps.inv_extends hs hinv).1)

end Repl

end Foundations
