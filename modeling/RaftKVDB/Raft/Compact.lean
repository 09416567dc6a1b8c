import RaftKVDB.Raft.Positions

/-!
# Compaction and the handlers

`Compact` runs in a goroutine of its own, so it may come before or after anything the peer does.
It never matters which: every handler asks for terms and positions that a cut at a committed index
leaves in place.

The functions are first described by what they do to positions of `Logs`; `cut` is what `Compact`
does there. A function commutes with `Compact` because it commutes with `cut` and because what it
writes to disk is what it leaves in memory.

## Main results

* `installSnapShot_eq_replicate_compact` — a snapshot is replication followed by compaction
* `compact_commutes` — `Compact` commutes with the handlers, with `Start` and with elections
* `foldlM_compact` — the latest of several compactions wins
-/

namespace RaftKVDB

open Foundations

namespace Raft

variable {n : ℕ} {α : Type*} {rf : Raft n α} {i k : ℕ} {e : LogEntry α}

/-! ### What `Compact` does -/

/-- What `Compact` does to the log when `e` is the entry at the index. -/
def cut (rf : Raft n α) (k : ℕ) (e : LogEntry α) : Raft n α :=
  { rf with
    logs := ⟨k, e.term, none⟩ :: rf.logs.drop (k - rf.snapshotIndex + 1)
    snapshotIndex := k }

theorem compact_eq_cut (snapshot : List UInt8) (hk : rf.snapshotIndex < k)
    (he : rf.entryAt k = some e) :
    rf.compact k snapshot = some ((rf.cut k e).saveStateAndSnapshot snapshot) := by
  rw [entryAt_of_le hk.le] at he
  have hlt := (List.getElem?_eq_some_iff.mp he).1
  have hpos := logIdxGlobal2Local_of_le hk.le
  have hfrom : goFrom rf.logs (((k - rf.snapshotIndex : ℕ) : ℤ) + 1) =
      some (rf.logs.drop (k - rf.snapshotIndex + 1)) := goFrom_natCast rf.logs hlt
  rw [compact, if_neg (by omega)]
  simp only [hpos, hfrom, goIndex_natCast, he]
  rw [if_neg (by omega), cut]

theorem compact_of_le (snapshot : List UInt8) (hk : k ≤ rf.snapshotIndex) :
    rf.compact k snapshot = some rf := by
  rw [compact, if_pos hk]

/-- `Compact` cuts or does nothing. -/
theorem compact_cases_cut {snapshot : List UInt8} {rf' : Raft n α}
    (h : rf.compact k snapshot = some rf') : rf' = rf ∨ ∃ e, rf.snapshotIndex < k ∧
      rf.entryAt k = some e ∧ rf' = (rf.cut k e).saveStateAndSnapshot snapshot := by
  rcases Nat.lt_or_ge rf.snapshotIndex k with hk | hk
  · cases he : rf.entryAt k with
    | some e =>
      rw [compact_eq_cut snapshot hk he] at h
      exact .inr ⟨e, hk, rfl, (Option.some.inj h).symm⟩
    | none =>
      rw [entryAt_of_le hk.le, List.getElem?_eq_none_iff] at he
      have hbeyond : (rf.logs.length : ℤ) ≤ rf.logIdxGlobal2Local k := by
        rw [logIdxGlobal2Local_of_le hk.le]
        omega
      rw [compact, if_neg (by omega)] at h
      simp only [if_pos hbeyond] at h
      exact .inl (Option.some.inj h).symm
  · rw [compact_of_le snapshot hk] at h
    exact .inl (Option.some.inj h).symm

/-! ### A snapshot is replication and compaction -/

/-- Log matching between what a peer holds and a full log: where both have an entry of the same term
at an index, the peer's entries up to there are those of the full log. -/
def Matches (rf : Raft n α) (L : List (LogEntry α)) : Prop :=
  ∀ i e, rf.Holds i e → termAt L i = some e.term →
    ∀ j, rf.snapshotIndex < j → j ≤ i → rf.entryAt j = L[j - 1]?

/-- The scan of the entries up to `k` finds no difference just when the term at `k` is right. -/
theorem Matches.scan_iff {L : List (LogEntry α)} {t : ℕ} (h : rf.Matches L)
    (hk : rf.snapshotIndex < k) (ht : termAt L k = some t) :
    (rf.entryAt k).map LogEntry.term = some t ↔
      ¬matchLength (rf.logs.drop 1) ((L.take k).drop rf.snapshotIndex) < k - rf.snapshotIndex := by
  have hkL := le_length_of_termAt ht
  have hlen : ((L.take k).drop rf.snapshotIndex).length = k - rf.snapshotIndex := by simp [hkL]
  -- What is compared at a place of the scan.
  have hold : ∀ j, (rf.logs.drop 1)[j]? = rf.entryAt (rf.snapshotIndex + j + 1) := by
    intro j
    rw [List.getElem?_drop, Nat.add_comm 1 j, Nat.add_assoc, rf.entryAt_add]
  have hnew : ∀ j, j < k - rf.snapshotIndex →
      ((L.take k).drop rf.snapshotIndex)[j]? = L[rf.snapshotIndex + j]? := by
    intro j hj
    rw [List.getElem?_drop, List.getElem?_take_of_lt (by omega)]
  constructor
  · intro hterm hlt
    obtain ⟨e, he, rfl⟩ := Option.map_eq_some_iff.mp hterm
    have hstop := matchLength_stop (rf.logs.drop 1) ((L.take k).drop rf.snapshotIndex)
      (by rw [hlen]; exact hlt)
    rw [hold, hnew _ hlt, h k e ⟨hk, he⟩ ht _ (by omega) (by omega)] at hstop
    exact hstop rfl
  · intro hge
    obtain ⟨k, rfl⟩ : ∃ m, k = m + 1 := ⟨k - 1, by omega⟩
    have hterms := matchLength_terms (rf.logs.drop 1) ((L.take (k + 1)).drop rf.snapshotIndex)
      (k := k - rf.snapshotIndex) (by omega)
    rw [hold, hnew _ (by omega), show rf.snapshotIndex + (k - rf.snapshotIndex) = k by omega]
      at hterms
    exact hterms.trans ht

/-- What is left of the log when the entries up to `k` are spliced in and then compacted. -/
theorem Matches.splice_cut {L : List (LogEntry α)} {t : ℕ} (h : rf.Matches L)
    (hne : rf.logs ≠ []) (hk : rf.snapshotIndex < k) (ht : termAt L k = some t) :
    (∃ e, (splice rf.logs 1 ((L.take k).drop rf.snapshotIndex))[k - rf.snapshotIndex]? = some e ∧
      e.term = t) ∧
    (splice rf.logs 1 ((L.take k).drop rf.snapshotIndex)).drop (k - rf.snapshotIndex + 1) =
      if (rf.entryAt k).map LogEntry.term = some t then rf.logs.drop (k - rf.snapshotIndex + 1)
      else [] := by
  have hkL := le_length_of_termAt ht
  have hlen : ((L.take k).drop rf.snapshotIndex).length = k - rf.snapshotIndex := by simp [hkL]
  have hiff := h.scan_iff hk ht
  have hle := (matchLength_le (rf.logs.drop 1) ((L.take k).drop rf.snapshotIndex)).1
  have hpos := List.length_pos_iff.mpr hne
  rw [List.length_drop] at hle
  rw [splice, hlen]
  generalize matchLength (rf.logs.drop 1) ((L.take k).drop rf.snapshotIndex) = j at hiff hle ⊢
  by_cases hj : j < k - rf.snapshotIndex
  · -- The log now ends at `k`, with the entry of the leader.
    rw [if_pos hj, if_neg fun he => hiff.mp he hj]
    have hkept : (rf.logs.take (1 + j)).length = 1 + j := by simp; omega
    constructor
    · obtain ⟨e, he, hte⟩ := exists_entry_of_termAt (by omega) ht
      refine ⟨e, ?_, hte⟩
      rw [List.getElem?_append_right (by omega), hkept, List.getElem?_drop, List.getElem?_drop,
        List.getElem?_take_of_lt (by omega), ← he]
      congr 1
      omega
    · refine List.drop_eq_nil_of_le ?_
      rw [List.length_append, hkept, List.length_drop, hlen]
      omega
  · have he := hiff.mpr hj
    rw [if_neg hj, if_pos he]
    rw [entryAt_of_le hk.le] at he
    exact ⟨Option.map_eq_some_iff.mp he, rfl⟩

end Raft

variable {n : ℕ} {α : Type*}

/-- **`InstallSnapShot` is replication followed by compaction.** A follower whose log matches the
leader's full log `L`, and agrees with it about the term of its snapshot, ends up with the same
`SnapshotIndex` and `Logs` whether it installs a snapshot that is ahead of it or accepts the entries
up to there by `AppendEntries` and then calls `Compact`. -/
theorem installSnapShot_eq_replicate_compact {f : Raft n α} {L : List (LogEntry α)} {d : LogEntry α}
    {snap : InstallSnapshotArgs n} {app : AppendEntriesArgs n α} (snapshot : List UInt8)
    (hmatch : f.Matches L) (hd : f.logs[0]? = some d)
    (hdt : termAt L f.snapshotIndex = some d.term)
    (hs : f.snapshotIndex < snap.lastIncludedIndex) (hc : f.commitIndex < snap.lastIncludedIndex)
    (hterm : termAt L snap.lastIncludedIndex = some snap.lastIncludedTerm)
    (hsnap : f.currentTerm ≤ snap.term) (happ : f.currentTerm ≤ app.term)
    (hprev : app.prevLogIndex = f.snapshotIndex)
    (hprevt : termAt L f.snapshotIndex = some app.prevLogTerm)
    (hent : app.entries = (L.take snap.lastIncludedIndex).drop f.snapshotIndex) :
    ∃ f₁ f₂ f₃ r₁ r₂, f.installSnapShot snap = some (f₁, r₁, true) ∧
      f.appendEntries app = some (f₂, r₂) ∧ r₂.success = true ∧
      f₂.compact snap.lastIncludedIndex snapshot = some f₃ ∧
      f₁.snapshotIndex = f₃.snapshotIndex ∧ f₁.logs = f₃.logs := by
  have hne : f.logs ≠ [] := by
    rintro hnil
    rw [hnil] at hd
    cases hd
  have hdummy : (f.entryAt app.prevLogIndex).map LogEntry.term = some app.prevLogTerm := by
    rw [hprev, Raft.entryAt_of_le (Nat.le_refl _), Nat.sub_self, hd, ← hprevt, hdt]
    rfl
  obtain ⟨⟨e, he, hte⟩, hrest⟩ := hmatch.splice_cut hne hs hterm
  have hsucc := f.appendEntries_success happ hprev.ge hdummy
  have hlogs : ((f.followLeader app.term).accept app).logs =
      Raft.splice f.logs 1 ((L.take snap.lastIncludedIndex).drop f.snapshotIndex) := by
    rw [Raft.accept_logs, Raft.followLeader_logs, Raft.followLeader_snapshotIndex, hprev, hent,
      Nat.sub_self]
  have hbase : ((f.followLeader app.term).accept app).snapshotIndex = f.snapshotIndex := by
    rw [Raft.accept_snapshotIndex, Raft.followLeader_snapshotIndex]
  refine ⟨_, _, _, _, _, f.installSnapShot_accept hsnap hs hc, hsucc, rfl,
    Raft.compact_eq_cut snapshot (e := e) ?_ ?_, rfl, ?_⟩
  · rw [Raft.persistIf_snapshotIndex, hbase]
    exact hs
  · rw [Raft.entryAt_of_le (by rw [Raft.persistIf_snapshotIndex, hbase]; exact hs.le),
      Raft.persistIf_snapshotIndex, Raft.persistIf_logs, hbase, hlogs, he]
  · simp only [Raft.saveStateAndSnapshot, Raft.cut, Raft.persistIf_snapshotIndex,
      Raft.persistIf_logs, hbase, hlogs, hrest, hte]

/-- A follower with an uncommitted entry of an old term. -/
def laggingFollower : Raft 3 ℕ :=
  { Raft.make 0 makePersister with logs := [⟨0, 0, none⟩, ⟨1, 1, some 7⟩, ⟨2, 1, some 8⟩] }

theorem installSnapShot_eq_replicate_compact_two :
    ∃ f₁ f₂ f₃ r₁ r₂,
      laggingFollower.installSnapShot ⟨2, 1, 2, 2, [1]⟩ = some (f₁, r₁, true) ∧
      laggingFollower.appendEntries ⟨2, 1, 0, 0, [⟨1, 1, some 7⟩, ⟨2, 2, some 9⟩], 0⟩ =
        some (f₂, r₂) ∧ r₂.success = true ∧ f₂.compact 2 [] = some f₃ ∧
      f₁.snapshotIndex = f₃.snapshotIndex ∧ f₁.logs = f₃.logs := by
  have hmatch : laggingFollower.Matches [⟨1, 1, some 7⟩, ⟨2, 2, some 9⟩] := by
    rintro i e ⟨hi, he⟩ ht j hj hji
    have hj : 0 < j := hj
    rw [Raft.entryAt_of_le hi.le] at he
    rcases i with _ | _ | _ | i
    · cases hi
    · obtain rfl : j = 1 := by omega
      rfl
    · -- The two logs have different terms here.
      obtain rfl := Option.some.inj he
      exact absurd ht (by decide)
    · cases he
  exact installSnapShot_eq_replicate_compact [] hmatch rfl rfl (by decide) (by decide) rfl
    (by decide) (by decide) rfl rfl rfl

namespace Raft

variable {rf : Raft n α} {i k : ℕ} {e : LogEntry α}

/-! ### What a cut leaves in place -/

section Cut

variable (hk : rf.snapshotIndex < k) (he : rf.entryAt k = some e)
include hk he

theorem lt_length_of_entryAt : k - rf.snapshotIndex < rf.logs.length := by
  rw [entryAt_of_le hk.le] at he
  exact (List.getElem?_eq_some_iff.mp he).1

theorem length_cut : (rf.cut k e).logs.length + k = rf.logs.length + rf.snapshotIndex := by
  have hlt := lt_length_of_entryAt hk he
  simp only [cut, List.length_cons, List.length_drop]
  omega

theorem cut_lastIndex : (rf.cut k e).lastIndex = rf.lastIndex := by
  have hlen := length_cut hk he
  have hsnap : (rf.cut k e).snapshotIndex = k := rfl
  simp only [lastIndex, logIdxLocal2Global]
  omega

omit he in
theorem cut_entryAt (hi : k < i) : (rf.cut k e).entryAt i = rf.entryAt i := by
  have hsnap : (rf.cut k e).snapshotIndex = k := rfl
  rw [entryAt_of_le (by omega), entryAt_of_le (by omega), hsnap, cut]
  obtain ⟨j, rfl⟩ := Nat.exists_eq_add_of_lt hi
  rw [show k + j + 1 - k = j + 1 by omega, List.getElem?_cons_succ, List.getElem?_drop]
  congr 1
  omega

omit he in
/-- The entries after an index are the same from the cut on. -/
theorem cut_drop (hi : k ≤ i) : (rf.cut k e).logs.drop (i - k + 1) =
    rf.logs.drop (i - rf.snapshotIndex + 1) := by
  rw [cut, List.drop_succ_cons, List.drop_drop]
  congr 1
  omega

/-- Terms from the cut on are the same, those at the cut included. -/
theorem cut_term (hi : k ≤ i) :
    ((rf.cut k e).entryAt i).map LogEntry.term = (rf.entryAt i).map LogEntry.term := by
  rcases hi.eq_or_lt with rfl | hlt
  · have hsnap : (rf.cut k e).snapshotIndex = k := rfl
    have hdummy : (rf.cut k e).entryAt k = some ⟨k, e.term, none⟩ := by
      rw [entryAt_of_le hsnap.le, hsnap, Nat.sub_self]
      rfl
    rw [hdummy, he]
    rfl
  · rw [cut_entryAt hk hlt]

end Cut

/-- Splicing after a cut is cutting after the splice. -/
theorem splice_cons_drop (d : LogEntry α) (l es : List (LogEntry α)) {m p : ℕ} (hmp : m ≤ p)
    (hp : p ≤ l.length) :
    splice (d :: l.drop m) (p - m + 1) es = d :: (splice l p es).drop m := by
  have hdrop : (d :: l.drop m).drop (p - m + 1) = l.drop p := by
    rw [List.drop_succ_cons, List.drop_drop, Nat.add_sub_of_le hmp]
  rw [splice, splice, hdrop]
  generalize matchLength (l.drop p) es = j
  split
  · rw [Nat.add_right_comm, List.take_succ_cons, List.cons_append, List.drop_append_of_le_length,
      List.drop_take, show p + j - m = p - m + j by omega]
    rw [List.length_take]
    omega
  · rfl

/-- Splicing leaves what comes before. -/
theorem splice_getElem? (l es : List (LogEntry α)) {p : ℕ} (hi : i < p) (hp : p ≤ l.length) :
    (splice l p es)[i]? = l[i]? := by
  rw [splice]
  split
  · rw [List.getElem?_append_left (by rw [List.length_take]; omega),
      List.getElem?_take_of_lt (by omega)]
  · rfl

/-! ### Commuting -/

/-- Whether `H` runs before or after `Compact`, it returns, the peer ends in the same state, and the
answers are related by `R`. -/
def Commutes {ρ : Type*} (rf : Raft n α) (k : ℕ) (snapshot : List UInt8)
    (H : Raft n α → Option (Raft n α × ρ)) (R : ρ → ρ → Prop) : Prop :=
  ∃ rf₁ rf₂ rf₃ r r', H rf = some (rf₁, r) ∧ rf₁.compact k snapshot = some rf₃ ∧
    rf.compact k snapshot = some rf₂ ∧ H rf₂ = some (rf₃, r') ∧ R r r'

/-- A function commutes with `Compact` when it commutes with the cut and saves what it changes. -/
theorem Commutes.of_cut {ρ : Type*} {H : Raft n α → Option (Raft n α × ρ)} {R : ρ → ρ → Prop}
    {snapshot : List UInt8} {y : Raft n α} {b : Bool} {r r' : ρ} (hk : rf.snapshotIndex < k)
    (he : rf.entryAt k = some e) (hsnap : y.snapshotIndex = rf.snapshotIndex)
    (hye : y.entryAt k = some e) (hsaved : b = false → y.encodeState = rf.encodeState)
    (hrun : H rf = some (y.persistIf b, r))
    (hcut : H ((rf.cut k e).saveStateAndSnapshot snapshot) = some
      (({ y.cut k e with persister := ⟨some (rf.cut k e).encodeState, snapshot⟩ } :
        Raft n α).persistIf b, r'))
    (hr : R r r') : Commutes rf k snapshot H R := by
  refine ⟨_, _, (y.cut k e).saveStateAndSnapshot snapshot, r, r', hrun, ?_,
    compact_eq_cut snapshot hk he, ?_, hr⟩
  · have hentry : (y.persistIf b).entryAt k = some e := by
      rw [entryAt_of_le (by omega)] at hye
      rw [entryAt_of_le (by rw [persistIf_snapshotIndex]; omega)]
      simpa using hye
    rw [compact_eq_cut snapshot (by rw [persistIf_snapshotIndex]; omega) hentry]
    cases b <;> rfl
  · rw [hcut]
    cases b with
    | true => rfl
    | false =>
      obtain ⟨hterm, hvote, hsnap, hlogs⟩ := RaftState.mk.inj (hsaved rfl)
      have hsame : (y.cut k e).encodeState = (rf.cut k e).encodeState := by
        simp only [cut, encodeState, hterm, hvote, hsnap, hlogs]
      rw [saveStateAndSnapshot, hsame]
      rfl

section Handlers

variable {snapshot : List UInt8} (hk : rf.snapshotIndex < k) (he : rf.entryAt k = some e)

theorem cut_logs_ne_nil : (rf.cut k e).logs ≠ [] := List.cons_ne_nil _ _

theorem seeTerm_cut (t : ℕ) : ((rf.cut k e).saveStateAndSnapshot snapshot).seeTerm t =
    { (rf.seeTerm t).cut k e with persister := ⟨some (rf.cut k e).encodeState, snapshot⟩ } := by
  have hterm : ((rf.cut k e).saveStateAndSnapshot snapshot).currentTerm = rf.currentTerm := rfl
  rw [seeTerm, seeTerm, hterm]
  split <;> rfl

theorem followLeader_cut (t : ℕ) : ((rf.cut k e).saveStateAndSnapshot snapshot).followLeader t =
    { (rf.followLeader t).cut k e with
      persister := ⟨some (rf.cut k e).encodeState, snapshot⟩ } := by
  have hterm : ((rf.cut k e).saveStateAndSnapshot snapshot).currentTerm = rf.currentTerm := rfl
  have hstate : ((rf.cut k e).saveStateAndSnapshot snapshot).state = rf.state := rfl
  rw [followLeader, followLeader, hterm, hstate]
  split
  · rfl
  · split <;> rfl

include hk he

theorem le_lastIndex_of_entryAt : k ≤ rf.lastIndex := by
  have hlt := lt_length_of_entryAt hk he
  simp only [lastIndex, logIdxLocal2Global]
  omega

/-- The end of the log keeps its index and its term. -/
theorem exists_last_cut : ∃ last last', rf.entryAt rf.lastIndex = some last ∧
    (rf.cut k e).entryAt rf.lastIndex = some last' ∧ last'.term = last.term := by
  have hle := le_lastIndex_of_entryAt hk he
  obtain ⟨last, hlast⟩ := exists_entryAt (hk.trans_le hle) (Nat.le_refl _)
  have hterm := cut_term hk he hle
  rw [hlast] at hterm
  obtain ⟨last', hlast', ht⟩ := Option.map_eq_some_iff.mp hterm
  exact ⟨last, last', hlast, hlast', ht⟩

theorem logs_ne_nil_of_entryAt : rf.logs ≠ [] :=
  List.ne_nil_of_length_pos (Nat.zero_lt_of_lt (lt_length_of_entryAt hk he))

theorem requestVote_commutes (args : RequestVoteArgs n) :
    Commutes rf k snapshot (·.requestVote args)
      fun r r' => r.term = r'.term ∧ r.voteGranted = r'.voteGranted := by
  by_cases hterm : args.term < rf.currentTerm
  · refine .of_cut (y := rf) (b := false) hk he rfl he (fun _ => rfl)
      (if_pos hterm) (if_pos hterm) ⟨rfl, rfl⟩
  obtain ⟨last, last', hlast, hlast', ht⟩ := exists_last_cut hk he
  have hcl : ((rf.cut k e).saveStateAndSnapshot snapshot).lastIndex = rf.lastIndex :=
    cut_lastIndex hk he
  have hrun := rf.requestVote_eq args (logs_ne_nil_of_entryAt hk he) hlast
    (Nat.le_of_not_lt hterm)
  have hcut := ((rf.cut k e).saveStateAndSnapshot snapshot).requestVote_eq args
    cut_logs_ne_nil (hcl ▸ hlast') (Nat.le_of_not_lt hterm)
  rw [hcl, ht, seeTerm_cut] at hcut
  obtain ⟨v, s, c, heq⟩ := seeTerm_eq rf args.term
  refine .of_cut hk he ?_ ?_ ?_ hrun hcut ⟨rfl, rfl⟩
  · rw [heq]
  · rw [heq]
    exact he
  · intro hb
    obtain ⟨hsame, hvote⟩ := Bool.or_eq_false_iff.mp hb
    have hx : rf.seeTerm args.term = rf := if_neg (of_decide_eq_false hsame)
    rw [hx] at hvote ⊢
    cases hg : rf.grants args last.term rf.lastIndex with
    | false => rfl
    | true =>
      -- The vote was given to this candidate before.
      rw [hg, Bool.true_and, decide_eq_false_iff_not] at hvote
      obtain ⟨hfree, -⟩ := Bool.and_eq_true_iff.mp hg
      have hvoted := (of_decide_eq_true hfree).resolve_left hvote
      simp [encodeState, hvoted]

theorem broadCastVote_commutes : Commutes rf k snapshot broadCastVote Eq := by
  by_cases hs : rf.state = .leader
  · exact .of_cut (y := rf) (b := false) hk he rfl he (fun _ => rfl) (if_pos hs) (if_pos hs) rfl
  obtain ⟨last, last', hlast, hlast', ht⟩ := exists_last_cut hk he
  have hcl : ((rf.cut k e).saveStateAndSnapshot snapshot).lastIndex = rf.lastIndex :=
    cut_lastIndex hk he
  have hrun := rf.broadCastVote_eq (logs_ne_nil_of_entryAt hk he) hlast hs
  have hcut := ((rf.cut k e).saveStateAndSnapshot snapshot).broadCastVote_eq
    cut_logs_ne_nil (hcl ▸ hlast') hs
  rw [hcl, ht] at hcut
  refine .of_cut hk he ?_ ?_ ?_ hrun hcut rfl
  · rfl
  · exact he
  · intro hb
    cases hb

theorem start_commutes (command : Option α) :
    Commutes rf k snapshot (fun rf => some (rf.start command)) Eq := by
  by_cases hs : rf.state = .leader
  · have hlt := lt_length_of_entryAt hk he
    have hlen : k + ((rf.cut k e).saveStateAndSnapshot snapshot).logs.length =
        rf.snapshotIndex + rf.logs.length := by
      have hcut := length_cut hk he
      have hsave : ((rf.cut k e).saveStateAndSnapshot snapshot).logs = (rf.cut k e).logs := rfl
      rw [hsave]
      omega
    have hcut := ((rf.cut k e).saveStateAndSnapshot snapshot).start_eq hs command
    have hsnap : ((rf.cut k e).saveStateAndSnapshot snapshot).snapshotIndex = k := rfl
    have hlogs : ∀ x, ((rf.cut k e).saveStateAndSnapshot snapshot).logs ++ [x] =
        ⟨k, e.term, none⟩ :: (rf.logs ++ [x]).drop (k - rf.snapshotIndex + 1) := by
      intro x
      rw [List.drop_append_of_le_length hlt]
      rfl
    rw [hsnap, hlen, hlogs] at hcut
    refine .of_cut hk he ?_ ?_ ?_ (congrArg some (rf.start_eq hs command)) (congrArg some hcut) rfl
    · rfl
    · rw [entryAt_of_le hk.le] at he
      rw [entryAt_of_le (by exact hk.le)]
      exact (List.getElem?_append_left hlt).trans he
    · intro hb
      cases hb
  · exact .of_cut (y := rf) (b := false) hk he rfl he (fun _ => rfl)
      (congrArg some (if_neg hs)) (congrArg some (if_neg hs)) rfl

omit hk in
theorem followCommit_cut (hk : rf.snapshotIndex < k) (p : Persister n α) (c : ℕ) :
    ({ rf.cut k e with persister := p } : Raft n α).followCommit c =
      { (rf.followCommit c).cut k e with persister := p } := by
  have hlast : ({ rf.cut k e with persister := p } : Raft n α).lastIndex = rf.lastIndex :=
    cut_lastIndex hk he
  have hcommit : ({ rf.cut k e with persister := p } : Raft n α).commitIndex = rf.commitIndex := rfl
  rw [followCommit, followCommit, hlast, hcommit]
  split <;> rfl

omit hk he in
theorem followLeader_entryAt (rf : Raft n α) (t : ℕ) (i : ℕ) :
    (rf.followLeader t).entryAt i = rf.entryAt i := by
  obtain ⟨v, c, heq, -⟩ := followLeader_eq rf t
  rw [heq]
  rfl

omit hk he in
theorem followLeader_encodeState {t : ℕ} (hb : decide (rf.currentTerm < t) = false) :
    (rf.followLeader t).encodeState = rf.encodeState := by
  rw [followLeader, if_neg (of_decide_eq_false hb)]
  split <;> rfl

omit hk he in
theorem accept_encodeState {args : AppendEntriesArgs n α} (hw : rf.rewrites args = false) :
    (rf.accept args).encodeState = rf.encodeState := by
  have hsplice : splice rf.logs (args.prevLogIndex - rf.snapshotIndex + 1) args.entries = rf.logs :=
    if_neg (of_decide_eq_false hw)
  rw [accept, hsplice, followCommit]
  split <;> rfl

omit he in
theorem rewrites_cut {args : AppendEntriesArgs n α} (hprev : k ≤ args.prevLogIndex)
    {p : Persister n α} :
    ({ rf.cut k e with persister := p } : Raft n α).rewrites args = rf.rewrites args := by
  rw [rewrites, rewrites, ← cut_drop hk (e := e) hprev]
  rfl

theorem accept_cut {args : AppendEntriesArgs n α} (hprev : k ≤ args.prevLogIndex)
    {last : LogEntry α} (hlast : rf.entryAt args.prevLogIndex = some last) {p : Persister n α} :
    ({ rf.cut k e with persister := p } : Raft n α).accept args =
      { (rf.accept args).cut k e with persister := p } := by
  have hlen := lt_length_of_entryAt (hk.trans_le hprev) hlast
  have hsplice : splice (rf.cut k e).logs (args.prevLogIndex - k + 1) args.entries =
      ⟨k, e.term, none⟩ :: (splice rf.logs (args.prevLogIndex - rf.snapshotIndex + 1)
        args.entries).drop (k - rf.snapshotIndex + 1) := by
    rw [← splice_cons_drop _ _ _ (by omega) hlen, cut]
    congr 1
    omega
  have hz : ({ rf with
      logs := splice rf.logs (args.prevLogIndex - rf.snapshotIndex + 1) args.entries
      } : Raft n α).entryAt k = some e := by
    have hpos : k - rf.snapshotIndex < args.prevLogIndex - rf.snapshotIndex + 1 := by omega
    rw [entryAt_of_le hk.le] at he
    rw [entryAt_of_le (by exact hk.le)]
    exact (splice_getElem? _ _ hpos hlen).trans he
  show ({ rf.cut k e with
    persister := p
    logs := splice (rf.cut k e).logs (args.prevLogIndex - k + 1) args.entries
    } : Raft n α).followCommit _ = _
  rw [hsplice]
  exact followCommit_cut hz (by exact hk) p _

theorem accept_entryAt {args : AppendEntriesArgs n α} (hprev : k ≤ args.prevLogIndex)
    {last : LogEntry α} (hlast : rf.entryAt args.prevLogIndex = some last) :
    (rf.accept args).entryAt k = some e := by
  have hlen := lt_length_of_entryAt (hk.trans_le hprev) hlast
  rw [entryAt_of_le hk.le] at he
  rw [entryAt_of_le (by rw [accept_snapshotIndex]; exact hk.le), accept_snapshotIndex, accept_logs,
    splice_getElem? _ _ (by omega) hlen, he]

theorem appendEntries_commutes {args : AppendEntriesArgs n α} (hprev : k ≤ args.prevLogIndex) :
    Commutes rf k snapshot (·.appendEntries args)
      fun r r' => r.term = r'.term ∧ r.success = r'.success := by
  by_cases hterm : args.term < rf.currentTerm
  · exact .of_cut (y := rf) (b := false) hk he rfl he (fun _ => rfl)
      (if_pos hterm) (if_pos hterm) ⟨rfl, rfl⟩
  have hle := Nat.le_of_not_lt hterm
  have hsame := cut_term hk he hprev
  have hfk : (rf.followLeader args.term).snapshotIndex < k := by
    rw [followLeader_snapshotIndex]
    exact hk
  have hfe : (rf.followLeader args.term).entryAt k = some e := by
    rw [followLeader_entryAt, he]
  by_cases hmatch : (rf.entryAt args.prevLogIndex).map LogEntry.term = some args.prevLogTerm
  · obtain ⟨last, hlast, -⟩ := Option.map_eq_some_iff.mp hmatch
    rw [← followLeader_entryAt rf args.term] at hlast
    have hrun := rf.appendEntries_success hle (hk.le.trans hprev) hmatch
    have hcut := ((rf.cut k e).saveStateAndSnapshot snapshot).appendEntries_success hle hprev
      (hsame.trans hmatch)
    rw [followLeader_cut, accept_cut hfk hfe hprev hlast, rewrites_cut hfk hprev] at hcut
    refine .of_cut hk he ?_ (accept_entryAt hfk hfe hprev hlast) ?_ hrun hcut ⟨rfl, rfl⟩
    · rw [accept_snapshotIndex, followLeader_snapshotIndex]
    · intro hb
      obtain ⟨hb, hw⟩ := Bool.or_eq_false_iff.mp hb
      rw [accept_encodeState hw, followLeader_encodeState hb]
  · obtain ⟨ci, hrun⟩ := rf.appendEntries_conflict (logs_ne_nil_of_entryAt hk he) hle
      (hk.le.trans hprev) hmatch
    obtain ⟨ci', hcut⟩ := ((rf.cut k e).saveStateAndSnapshot snapshot).appendEntries_conflict
      cut_logs_ne_nil hle hprev (fun h => hmatch (hsame.symm.trans h))
    rw [followLeader_cut] at hcut
    exact .of_cut hk he (followLeader_snapshotIndex _ _) hfe followLeader_encodeState hrun hcut
      ⟨rfl, rfl⟩

theorem installSnapShot_commutes (args : InstallSnapshotArgs n) (hc : k ≤ rf.commitIndex) :
    Commutes rf k snapshot (·.installSnapShot args) Eq := by
  by_cases hterm : args.term < rf.currentTerm
  · exact .of_cut (y := rf) (b := false) hk he rfl he (fun _ => rfl)
      (if_pos hterm) (if_pos hterm) rfl
  have hle := Nat.le_of_not_lt hterm
  by_cases hold : args.lastIncludedIndex ≤ rf.snapshotIndex ∨
      args.lastIncludedIndex ≤ rf.commitIndex
  · have hcut := ((rf.cut k e).saveStateAndSnapshot snapshot).installSnapShot_stale hle
      (hold.imp (fun h => h.trans hk.le) id)
    rw [followLeader_cut] at hcut
    refine .of_cut hk he (followLeader_snapshotIndex _ _) ?_ followLeader_encodeState
      (rf.installSnapShot_stale hle hold) hcut rfl
    rw [followLeader_entryAt, he]
  · -- The snapshot is ahead of the cut, which is stale afterwards and forgotten if it came before.
    obtain ⟨hsnap, hcommit⟩ := not_or.mp hold
    have hm : k < args.lastIncludedIndex := by omega
    have hrun := rf.installSnapShot_accept hle (Nat.lt_of_not_le hsnap) (Nat.lt_of_not_le hcommit)
    have hcut := ((rf.cut k e).saveStateAndSnapshot snapshot).installSnapShot_accept hle hm
      (Nat.lt_of_not_le hcommit)
    refine ⟨_, _, _, _, _, hrun, compact_of_le snapshot hm.le, compact_eq_cut snapshot hk he, ?_,
      rfl⟩
    have hentry : ((rf.cut k e).saveStateAndSnapshot snapshot).entryAt args.lastIncludedIndex =
        rf.entryAt args.lastIncludedIndex := cut_entryAt hk hm
    refine hcut.trans ?_
    rw [followLeader_cut, hentry, ← cut_drop hk (e := e) hm.le]
    rfl

end Handlers

/-! ### Several compactions -/

/-- A later cut makes an earlier one unseen. -/
theorem compact_compact {j : ℕ} (a b : List UInt8) (hij : i < j) (hj : j ≤ rf.lastIndex) :
    ∃ rf', rf.compact i a = some rf' ∧ rf'.lastIndex = rf.lastIndex ∧
      rf'.compact j b = rf.compact j b := by
  rcases Nat.lt_or_ge rf.snapshotIndex i with hi | hi
  · obtain ⟨e, he⟩ := exists_entryAt hi (hij.le.trans hj)
    obtain ⟨e', he'⟩ := exists_entryAt (hi.trans hij) hj
    refine ⟨_, compact_eq_cut a hi he, cut_lastIndex hi he, ?_⟩
    have hcut : ((rf.cut i e).saveStateAndSnapshot a).entryAt j = some e' :=
      (cut_entryAt hi hij).trans he'
    rw [compact_eq_cut b hij hcut, compact_eq_cut b (hi.trans hij) he']
    have hlater : rf.cut j e' = { rf with
        logs := ⟨j, e'.term, none⟩ :: (rf.cut i e).logs.drop (j - i + 1)
        snapshotIndex := j } := by
      rw [cut_drop hi hij.le, cut]
    rw [hlater]
    rfl
  · exact ⟨rf, compact_of_le a hi, rfl, rfl⟩

/-- Indices that are not beyond the snapshot are all stale. -/
theorem foldlM_compact_of_le (cs : List (ℕ × List UInt8)) (h : ∀ c ∈ cs, c.1 ≤ rf.snapshotIndex) :
    cs.foldlM (fun rf c => rf.compact c.1 c.2) rf = some rf := by
  induction cs with
  | nil => rfl
  | cons c cs ih =>
    rw [List.foldlM_cons, compact_of_le c.2 (h c List.mem_cons_self)]
    exact ih fun c' hc' => h c' (List.mem_cons_of_mem _ hc')

/-- **The latest compaction wins**, in whatever order they come. -/
theorem foldlM_compact (cs : List (ℕ × List UInt8)) {c : ℕ × List UInt8} (hc : c ∈ cs)
    (hmax : ∀ c' ∈ cs, c'.1 ≤ c.1) (hnd : (cs.map Prod.fst).Nodup)
    (hle : ∀ c' ∈ cs, c'.1 ≤ rf.lastIndex) :
    ∃ rf', cs.foldlM (fun rf c => rf.compact c.1 c.2) rf = some rf' ∧
      rf.compact c.1 c.2 = some rf' := by
  induction cs generalizing rf with
  | nil => cases hc
  | cons c₀ cs ih =>
    rw [List.foldlM_cons]
    rcases List.mem_cons.mp hc with rfl | hc
    · -- The rest is stale after the latest one.
      rcases Nat.lt_or_ge rf.snapshotIndex c.1 with hlt | hge
      · obtain ⟨e, he⟩ := exists_entryAt hlt (hle c List.mem_cons_self)
        rw [compact_eq_cut c.2 hlt he]
        exact ⟨_, foldlM_compact_of_le cs fun c' hc' => hmax c' (List.mem_cons_of_mem _ hc'), rfl⟩
      · rw [compact_of_le c.2 hge]
        exact ⟨rf, foldlM_compact_of_le cs fun c' hc' =>
          (hmax c' (List.mem_cons_of_mem _ hc')).trans hge, rfl⟩
    · obtain ⟨hnot, hnd⟩ := List.nodup_cons.mp (List.map_cons ▸ hnd)
      have hne : c₀.1 ≠ c.1 := by
        intro heq
        exact hnot (heq ▸ List.mem_map_of_mem hc)
      have hlt : c₀.1 < c.1 := lt_of_le_of_ne (hmax c₀ List.mem_cons_self) hne
      obtain ⟨rf₀, hrun, hlast, hsame⟩ :=
        compact_compact c₀.2 c.2 hlt (hle c (List.mem_cons_of_mem _ hc))
      rw [hrun, ← hsame]
      exact ih hc (fun c' hc' => hmax c' (List.mem_cons_of_mem _ hc')) hnd
        fun c' hc' => hlast ▸ hle c' (List.mem_cons_of_mem _ hc')

end Raft

/-- **`Compact` commutes with the protocol.** At a committed index above the snapshot, it may come
before or after `RequestVote`, an `AppendEntries` that starts at the cut or after it, `Start`, an
election or `InstallSnapShot`: everything returns, memory and disk end up the same, and so do the
answers. And of several compactions, in any order, the one with the largest index is all that is
left. -/
theorem compact_commutes (rf : Raft n α) :
    (∀ k snapshot, rf.snapshotIndex < k → k ≤ rf.commitIndex → rf.commitIndex ≤ rf.lastIndex →
      (∀ args, rf.Commutes k snapshot (·.requestVote args)
        fun r r' => r.term = r'.term ∧ r.voteGranted = r'.voteGranted) ∧
      (∀ args : AppendEntriesArgs n α, k ≤ args.prevLogIndex →
        rf.Commutes k snapshot (·.appendEntries args)
          fun r r' => r.term = r'.term ∧ r.success = r'.success) ∧
      (∀ command, rf.Commutes k snapshot (fun rf => some (rf.start command)) Eq) ∧
      rf.Commutes k snapshot Raft.broadCastVote Eq ∧
      ∀ args, rf.Commutes k snapshot (·.installSnapShot args) Eq) ∧
    ∀ (cs : List (ℕ × List UInt8)) (c : ℕ × List UInt8), (cs.map Prod.fst).Nodup →
      (∀ c' ∈ cs, c'.1 ≤ rf.lastIndex) → c ∈ cs → (∀ c' ∈ cs, c'.1 ≤ c.1) →
      ∃ rf', cs.foldlM (fun rf c => rf.compact c.1 c.2) rf = some rf' ∧
        rf.compact c.1 c.2 = some rf' := by
  refine ⟨fun k snapshot hk hc hl => ?_, fun cs c hnd hle hc hmax =>
    Raft.foldlM_compact cs hc hmax hnd hle⟩
  obtain ⟨e, he⟩ := Raft.exists_entryAt hk (hc.trans hl)
  exact ⟨Raft.requestVote_commutes hk he, fun _ => Raft.appendEntries_commutes hk he,
    Raft.start_commutes hk he, Raft.broadCastVote_commutes hk he,
    fun args => Raft.installSnapShot_commutes hk he args hc⟩

/-- A follower with three committed entries and a fourth. -/
def committedFollower : Raft 3 ℕ :=
  { Raft.make 0 makePersister with
    currentTerm := 2
    logs := [⟨0, 0, none⟩, ⟨1, 1, some 7⟩, ⟨2, 1, some 8⟩, ⟨3, 1, some 9⟩, ⟨4, 2, some 5⟩]
    commitIndex := 3 }

theorem compact_commutes_three :
    committedFollower.Commutes 2 [1] (·.appendEntries ⟨3, 1, 2, 1, [⟨3, 3, some 6⟩], 3⟩)
      (fun r r' => r.term = r'.term ∧ r.success = r'.success) ∧
    ∃ rf', [(2, [1]), (3, [2]), (1, [3])].foldlM (fun rf c => rf.compact c.1 c.2)
        committedFollower = some rf' ∧ committedFollower.compact 3 [2] = some rf' :=
  ⟨((compact_commutes committedFollower).1 2 [1] (by decide) (by decide) (by decide)).2.1 _
      (by decide),
    (compact_commutes committedFollower).2 _ (3, [2]) (by decide) (by decide) (by decide)
      (by decide)⟩

end RaftKVDB
