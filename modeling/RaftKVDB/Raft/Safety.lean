import RaftKVDB.Raft.SimulationRun

/-!
# What holds in every run

The safety properties of the protocol that need no assumption about the run. Each is read off the
history of the run that `Cluster.Run.history` provides: a fact about the protocol without messages,
carried back to `Logs` and `SnapshotIndex`.

## Main results

* `election_safety` — one leader per term
* `log_matching` — the same term at the same index means the same log up to there
* `leader_completeness` — later leaders have what a majority held
* `accepted_entries_durable` — an acknowledged entry stays for the rest of the term
* `make_recovers` — what is on disk is what is in memory
* `logs_wellFormed` — `Logs` is numbered, ordered and of terms that were reached
-/

namespace RaftKVDB

open Foundations Cluster

variable {n : ℕ} {α : Type*} {τ : List (Cluster n α)} {σ σ' : Cluster n α} {p q : Fin n}

/-! ### Elections -/

/-- The history of a run knows the leaders of all its moments. -/
theorem leader_of_mem {a b : Protocol n α} {τ' : List (Cluster n α)} (hb : History (σ :: τ') b)
    (hext : b.Extends a) (hs : (σ.peers p).state = .leader) :
    a.leader (σ.peers p).currentTerm = some p :=
  hext.leader _ _ (((hb.sim σ rfl).peer p).leader hs).1

/-- **Election safety.** Two servers that are ever leaders of the same term are the same. -/
theorem election_safety (h : Run Always τ) (hσ : σ ∈ τ) (hσ' : σ' ∈ τ)
    (hp : (σ.peers p).state = .leader) (hq : (σ'.peers q).state = .leader)
    (ht : (σ.peers p).currentTerm = (σ'.peers q).currentTerm) : p = q := by
  obtain ⟨a, -, hpast⟩ := h.history
  obtain ⟨τ₁, b, -, hb, hext⟩ := hpast σ hσ
  obtain ⟨τ₂, b', -, hb', hext'⟩ := hpast σ' hσ'
  have hlp := leader_of_mem hb hext hp
  have hlq := leader_of_mem hb' hext' hq
  rw [ht, hlq] at hlp
  exact (Option.some.inj hlp).symm

/-- Peer `0` of three asks for votes and gets that of peer `1`. -/
def electionEvents : List (Event 3 ℕ) := [.broadCastVote 0, .handle 0, .process 0]

theorem election_safety_three :
    ((replay Always electionEvents).1.peers 0).state = .leader ∧
    ∀ q, ((replay Always electionEvents).1.peers q).state = .leader →
      ((replay Always electionEvents).1.peers 0).currentTerm =
        ((replay Always electionEvents).1.peers q).currentTerm → 0 = q := by
  have hlead : ((replay Always electionEvents).1.peers 0).state = .leader := by decide +kernel
  exact ⟨hlead, fun q hq ht => election_safety (run_replay Always electionEvents)
    List.mem_cons_self List.mem_cons_self hlead hq ht⟩

/-! ### Log matching -/

/-- **Log matching with compaction.** Where two logs hold entries of the same term at the same
index, the entries are equal, and so is everything before them down to the later of the two
snapshots, at which the terms agree. -/
theorem log_matching (h : Run Always τ) (hσ : σ ∈ τ) {i : ℕ} {e e' : LogEntry α}
    (he : (σ.peers p).Holds i e) (he' : (σ.peers q).Holds i e') (ht : e.term = e'.term) :
    e.command = e'.command ∧
    (∀ j, max (σ.peers p).snapshotIndex (σ.peers q).snapshotIndex < j → j ≤ i →
      ∃ x y, (σ.peers p).Holds j x ∧ (σ.peers q).Holds j y ∧
        x.term = y.term ∧ x.command = y.command) ∧
    ∃ x y,
      (σ.peers p).entryAt (max (σ.peers p).snapshotIndex (σ.peers q).snapshotIndex) = some x ∧
      (σ.peers q).entryAt (max (σ.peers p).snapshotIndex (σ.peers q).snapshotIndex) = some y ∧
      x.term = y.term := by
  obtain ⟨a, -, hpast⟩ := h.history
  obtain ⟨τ', b, -, hb, -⟩ := hpast σ hσ
  have hsim := hb.sim σ rfl
  have hp := (hsim.peer p).log
  have hq := (hsim.peer q).log
  have hpi := he.1
  have hqi := he'.1
  have htp : termAt (b.log p) i = some e.term := by
    rw [← hp.term_entryAt hpi.le, he.2]
    rfl
  have htq : termAt (b.log q) i = some e.term := by
    rw [← hq.term_entryAt hqi.le, he'.2, ht]
    rfl
  -- The two full logs are the same up to `i`.
  have htake := (hsim.inv.sound_log p).take_eq (hsim.inv.sound_log q) htp htq
  have hentry : ∀ j, 0 < j → j ≤ i → (b.log p)[j - 1]? = (b.log q)[j - 1]? := by
    intro j hj hji
    rw [← List.getElem?_take_of_lt (show j - 1 < i by omega), htake,
      List.getElem?_take_of_lt (show j - 1 < i by omega)]
  have hlen := le_length_of_termAt htp
  refine ⟨?_, fun j hj hji => ?_, ?_⟩
  · have heq := hentry i (by omega) (Nat.le_refl i)
    rw [← hp.entryAt_eq hpi, ← hq.entryAt_eq hqi, he.2, he'.2] at heq
    rw [Option.some.inj heq]
  · obtain ⟨hjp, hjq⟩ := Nat.max_lt.mp hj
    have hget : (b.log p)[j - 1]? = some (b.log p)[j - 1] := List.getElem?_eq_getElem (by omega)
    refine ⟨_, _, hp.holds_iff.mpr ⟨hjp, hget⟩, hq.holds_iff.mpr ⟨hjq, ?_⟩, rfl, rfl⟩
    rw [← hentry j (by omega) hji, hget]
  · have hmi : max (σ.peers p).snapshotIndex (σ.peers q).snapshotIndex ≤ i := by omega
    have hxp := hp.term_entryAt (Nat.le_max_left _ (σ.peers q).snapshotIndex)
    have hxq := hq.term_entryAt (Nat.le_max_right (σ.peers p).snapshotIndex _)
    rw [← termAt_congr htake hmi] at hxq
    obtain ⟨t, hterm⟩ := exists_termAt (hmi.trans hlen)
    rw [hterm] at hxp hxq
    obtain ⟨x, hx, hxt⟩ := Option.map_eq_some_iff.mp hxp
    obtain ⟨y, hy, hyt⟩ := Option.map_eq_some_iff.mp hxq
    exact ⟨x, y, hx, hy, hxt.trans hyt.symm⟩

/-- The elected peer `0` writes two entries and replicates them to peer `1`. -/
def replicationEvents : List (Event 3 ℕ) :=
  electionEvents ++
    [.start 0 (some 7), .start 0 (some 8), .checkConsistency 0 1, .handle 1]

/-- Peer `0` commits and delivers the two entries, and compacts the first. -/
def compactionEvents : List (Event 3 ℕ) :=
  replicationEvents ++ [.process 1, .apply 0, .compact 0 1 [1]]

theorem log_matching_three :
    ((replay Always compactionEvents).1.peers 0).snapshotIndex = 1 ∧
    ((replay Always compactionEvents).1.peers 1).snapshotIndex = 0 ∧
    ∃ x y, ((replay Always compactionEvents).1.peers 0).entryAt 1 = some x ∧
      ((replay Always compactionEvents).1.peers 1).entryAt 1 = some y ∧ x.term = y.term := by
  have h₀ : ((replay Always compactionEvents).1.peers 0).Holds 2 ⟨2, 1, some 8⟩ :=
    ⟨by decide +kernel, by decide +kernel⟩
  have h₁ : ((replay Always compactionEvents).1.peers 1).Holds 2 ⟨2, 1, some 8⟩ :=
    ⟨by decide +kernel, by decide +kernel⟩
  have hs₀ : ((replay Always compactionEvents).1.peers 0).snapshotIndex = 1 := by decide +kernel
  have hs₁ : ((replay Always compactionEvents).1.peers 1).snapshotIndex = 0 := by decide +kernel
  have hmatch :=
    (log_matching (run_replay Always compactionEvents) List.mem_cons_self h₀ h₁ rfl).2.2
  rw [hs₀, hs₁] at hmatch
  exact ⟨hs₀, hs₁, hmatch⟩

/-! ### Leader completeness -/

/-- An entry of term `t` held at any moment is the one that the leader of `t` wrote. -/
theorem Holds.eq_tlog {a b : Protocol n α} {τ' : List (Cluster n α)} (hb : History (σ :: τ') b)
    (hext : b.Extends a) {i : ℕ} {e : LogEntry α} (he : (σ.peers q).Holds i e) :
    (b.log q).take i <+: a.tlog e.term ∧ (a.tlog e.term)[i - 1]? = some e := by
  have hsim := hb.sim σ rfl
  have hlog := (hsim.peer q).log
  obtain ⟨hi, hget⟩ := hlog.holds_iff.mp he
  have hterm : termAt (b.log q) i = some e.term := by
    rw [← hlog.term_entryAt hi.le, he.2]
    rfl
  have hpre := (hsim.inv.sound_log q i _ hterm).trans (hext.tlog _)
  refine ⟨hpre, ?_⟩
  rw [← getElem?_of_isPrefix hpre (by simp [le_length_of_termAt hterm]; omega),
    List.getElem?_take_of_lt (by omega), hget]

/-- What a peer held in its own term is recorded. -/
theorem acked_of_holds {a b : Protocol n α} {τ' : List (Cluster n α)} (hb : History (σ :: τ') b)
    (hext : b.Extends a) {i t : ℕ} {e : LogEntry α} (ht : (σ.peers q).currentTerm = t)
    (he : (σ.peers q).Holds i e) (het : e.term = t) : a.acked q t i := by
  have hsim := hb.sim σ rfl
  have hp := hsim.peer q
  obtain ⟨hi, hget⟩ := hp.log.holds_iff.mp he
  have hterm : termAt (b.log q) i = some t := by
    rw [← hp.log.term_entryAt hi.le, he.2, ← het]
    rfl
  have hpre := hsim.inv.sound_log q i _ hterm
  have hlen := le_length_of_termAt hterm
  have hbt : b.term q = t := hp.term.symm.trans ht
  have hile : i ≤ (b.tlog t).length := by simpa [hlen] using hpre.length_le
  refine hext.acked _ _ _ (hbt ▸ hb.now q i (hbt ▸ hile) ?_)
  rw [hbt, ← take_eq_of_isPrefix hpre (by simp [hlen]), List.take_take, Nat.min_self]
  exact List.take_prefix _ _

/-- **Leader completeness.** An entry of term `t` that a majority held, each while in term `t`, is
in the log or the snapshot of every leader of a later term; it is the only entry of term `t` that
anybody ever held at that index. -/
theorem leader_completeness (h : Run Always τ) {i t : ℕ}
    (hmaj : Majority fun q => ∃ σ ∈ τ, (σ.peers q).currentTerm = t ∧
      ∃ e, (σ.peers q).Holds i e ∧ e.term = t)
    (hσ : σ ∈ τ) (hs : (σ.peers p).state = .leader) (ht : t < (σ.peers p).currentTerm) :
    i ≤ (σ.peers p).snapshotIndex ∨ ∃ e, (σ.peers p).Holds i e ∧ e.term = t ∧
      ∀ σ' ∈ τ, ∀ q e', (σ'.peers q).Holds i e' → e'.term = t → e' = e := by
  obtain ⟨a, ha, hpast⟩ := h.history
  -- The majority is on record, and it is about the entry of `tlog t` at `i`.
  have hacked : Majority fun q => a.acked q t i := by
    refine hmaj.mono fun q => ?_
    rintro ⟨σ₀, hσ₀, hterm, e, he, het⟩
    obtain ⟨τ', b, -, hb, hext⟩ := hpast σ₀ hσ₀
    exact acked_of_holds hb hext hterm he het
  obtain ⟨v, ⟨σ₀, hσ₀, -, e, he, rfl⟩, -⟩ := hmaj.inter hmaj
  obtain ⟨τ₀, b₀, -, hb₀, hext₀⟩ := hpast σ₀ hσ₀
  obtain ⟨-, hentry⟩ := Holds.eq_tlog hb₀ hext₀ he
  have hunique : ∀ σ' ∈ τ, ∀ q e', (σ'.peers q).Holds i e' → e'.term = e.term → e' = e := by
    intro σ' hσ' q e' he' het
    obtain ⟨τ', b', -, hb', hext'⟩ := hpast σ' hσ'
    have hentry' := (Holds.eq_tlog hb' hext' he').2
    rw [het, hentry] at hentry'
    exact (Option.some.inj hentry').symm
  rcases Nat.lt_or_ge (σ.peers p).snapshotIndex i with hi | hi
  swap
  · exact .inl hi
  refine .inr ⟨e, ?_, rfl, hunique⟩
  obtain ⟨τ', b, -, hb, hext⟩ := hpast σ hσ
  have hsim := hb.sim σ rfl
  have hpr := hsim.peer p
  obtain ⟨hlead, hlog⟩ := hpr.leader hs
  obtain ⟨τ₁, ⟨σ₁, rfl⟩⟩ : ∃ τ₁ : List (Cluster n α), ∃ σ₁, τ = σ₁ :: τ₁ := by
    obtain ⟨σ₁, τ₁, rfl⟩ := List.exists_cons_of_ne_nil (List.ne_nil_of_mem hσ)
    exact ⟨τ₁, σ₁, rfl⟩
  have hinv := (ha.sim σ₁ rfl).inv
  have hit : termAt (a.tlog e.term) i = some e.term := by
    have := termAt_eq_some_of_getElem? hentry
    rwa [Nat.sub_add_cancel (by omega)] at this
  have htpos : 0 < e.term := by
    have hne := hinv.leader_of_termAt (hinv.sound_tlog e.term) (by omega : 0 < i) hit
    obtain ⟨c, hc⟩ := Option.ne_none_iff_exists'.mp hne
    exact Nat.zero_lt_of_lt (hinv.lastTerm_base_lt hc)
  have hlead' := hext.leader _ _ hlead
  have hbase := hinv.complete hit hacked htpos _ ht (by rw [hlead']; exact Option.some_ne_none _)
  rw [hext.base _ _ hlead] at hbase
  have hpre := hbase.trans (hsim.inv.base_prefix _ _ hlead)
  rw [hpr.log.holds_iff, hlog]
  refine ⟨hi, ?_⟩
  rw [← getElem?_of_isPrefix hpre (by simp [le_length_of_termAt hit]; omega),
    List.getElem?_take_of_lt (by omega), hentry]

/-- Or it commits them, and peer `1` becomes the leader of the next term. -/
def reelectionEvents : List (Event 3 ℕ) :=
  replicationEvents ++ [.process 1, .broadCastVote 1, .handle 1, .process 1]

theorem leader_completeness_three :
    ((replay Always reelectionEvents).1.peers 1).currentTerm = 2 ∧
    (2 ≤ ((replay Always reelectionEvents).1.peers 1).snapshotIndex ∨
      ∃ e, ((replay Always reelectionEvents).1.peers 1).Holds 2 e ∧ e.term = 1) := by
  -- Peers `0` and `1` held the second entry when it was replicated.
  have hmem : (replay Always replicationEvents).1 ∈
      (replay Always reelectionEvents).1 :: (replay Always reelectionEvents).2 :=
    mem_replay_append Always replicationEvents
      [.process 1, .broadCastVote 1, .handle 1, .process 1]
  have hheld : ∀ q ∈ ({0, 1} : Finset (Fin 3)),
      ((replay Always replicationEvents).1.peers q).currentTerm = 1 ∧
      0 = ((replay Always replicationEvents).1.peers q).snapshotIndex ∧
      ((replay Always replicationEvents).1.peers q).entryAt 2 = some ⟨2, 1, some 8⟩ := by
    decide +kernel
  have hmaj : Majority fun q => ∃ σ ∈ (replay Always reelectionEvents).1 ::
      (replay Always reelectionEvents).2, (σ.peers q).currentTerm = 1 ∧
      ∃ e, (σ.peers q).Holds 2 e ∧ e.term = 1 := by
    refine ⟨{0, 1}, by decide, fun q hq => ?_⟩
    obtain ⟨ht, hs, he⟩ := hheld q hq
    exact ⟨_, hmem, ht, _, ⟨by omega, he⟩, rfl⟩
  refine ⟨by decide +kernel, ?_⟩
  rcases leader_completeness (run_replay Always reelectionEvents) hmaj List.mem_cons_self
    (p := 1) (by decide +kernel) (by decide +kernel) with hsnap | ⟨e, he, het, -⟩
  · exact .inl hsnap
  · exact .inr ⟨e, he, het⟩

/-! ### Durability -/

/-- **Accepted entries are durable within the term.** Once a follower has answered an
`AppendEntries` of term `t` with success, it keeps each of its entries, in its log or in its
snapshot, in every later state in which its term is still `t`. -/
theorem accepted_entries_durable (h : Run Always (σ' :: τ)) (hσ : σ ∈ σ' :: τ) {c : Call n α}
    (hc : c ∈ σ.calls) {args : AppendEntriesArgs n α} {reply : AppendEntriesReply}
    (hbody : c.body = .appendEntries args (some reply)) (hsuc : reply.success = true)
    (ht : (σ'.peers c.server).currentTerm = args.term) {j : ℕ} {e : LogEntry α}
    (he : args.entries[j]? = some e) :
    args.prevLogIndex + 1 + j ≤ (σ'.peers c.server).snapshotIndex ∨
      (σ'.peers c.server).Holds (args.prevLogIndex + 1 + j) e := by
  obtain ⟨a, ha, hpast⟩ := h.history
  obtain ⟨τ', b, -, hb, hext⟩ := hpast σ hσ
  have hcall := ((hb.sim σ rfl).call c hc).2.extends hext
  rw [hbody] at hcall
  obtain ⟨⟨hlead, m, hbm, hm, hpt, hentries⟩, hreply⟩ := hcall
  obtain ⟨-, hack⟩ := hreply reply rfl hsuc
  have hsim := ha.sim σ' rfl
  have hp := hsim.peer c.server
  -- The request has an entry, so it was not clamped.
  rw [hentries, List.getElem?_drop] at he
  have hjm : args.prevLogIndex + j < m := by
    have := (List.getElem?_eq_some_iff.mp he).1
    rw [List.length_take] at this
    omega
  rw [List.getElem?_take_of_lt hjm] at he
  rw [Nat.min_eq_left (by omega)] at hpt
  have hlen : args.prevLogIndex + args.entries.length = m := by
    rw [hentries]
    simp [hm]
    omega
  have hacked : a.acked c.server args.term m := by
    rcases hack with hack | ⟨hlt, hne⟩
    · rwa [hlen] at hack
    · have := hsim.inv.written _ _ _ hlead hlt (le_length_of_termAt hpt)
      rw [hpt] at this
      exact absurd (Option.some.inj this) hne
  have hterm : a.term c.server = args.term := hp.term.symm.trans ht
  rw [← hterm] at hacked he
  have hpre := hsim.inv.acked_current hacked
  rcases Nat.lt_or_ge (σ'.peers c.server).snapshotIndex (args.prevLogIndex + 1 + j) with hi | hi
  · refine .inr (hp.log.holds_iff.mpr ⟨hi, ?_⟩)
    rw [show args.prevLogIndex + 1 + j - 1 = args.prevLogIndex + j by omega,
      ← getElem?_of_isPrefix hpre (by rw [List.length_take, hterm]; omega),
      List.getElem?_take_of_lt hjm, he]
  · exact .inl hi

theorem accepted_entries_durable_three : ∃ c ∈ (replay Always replicationEvents).1.calls,
    c.server = 1 ∧
    (2 ≤ ((replay Always compactionEvents).1.peers c.server).snapshotIndex ∨
      ((replay Always compactionEvents).1.peers c.server).Holds 2 ⟨2, 1, some 8⟩) := by
  have hmem : (replay Always replicationEvents).1 ∈
      (replay Always compactionEvents).1 :: (replay Always compactionEvents).2 :=
    mem_replay_append Always replicationEvents [.process 1, .apply 0, .compact 0 1 [1]]
  have hcall : (⟨0, 0, 1, .appendEntries ⟨1, 0, 0, 0, [⟨1, 1, some 7⟩, ⟨2, 1, some 8⟩], 0⟩
      (some ⟨1, true, 0⟩)⟩ : Call 3 ℕ) ∈ (replay Always replicationEvents).1.calls := by
    refine List.mem_of_getElem? (i := 1) ?_
    rfl
  exact ⟨_, hcall, rfl, accepted_entries_durable (run_replay Always compactionEvents) hmem hcall
    rfl rfl (by decide +kernel) (j := 1) rfl⟩

/-! ### What a crash leaves -/

/-- **The durable state is the volatile state.** While nobody is in a critical section, and so
before any reply leaves a server, `Make` on a server's persister would recover exactly its
`CurrentTerm`, `VotedFor`, `SnapshotIndex` and `Logs`. -/
theorem make_recovers (h : Run Always τ) (hσ : σ ∈ τ) (p : Fin n) :
    (Raft.make p (σ.peers p).persister).currentTerm = (σ.peers p).currentTerm ∧
    (Raft.make p (σ.peers p).persister).votedFor = (σ.peers p).votedFor ∧
    (Raft.make p (σ.peers p).persister).snapshotIndex = (σ.peers p).snapshotIndex ∧
    (Raft.make p (σ.peers p).persister).logs = (σ.peers p).logs := by
  obtain ⟨a, -, hpast⟩ := h.history
  obtain ⟨τ', b, -, hb, -⟩ := hpast σ hσ
  have hsim := hb.sim σ rfl
  obtain ⟨ch, heq, -⟩ := Raft.make_persisted (hsim.persisted p)
  rw [(hsim.peer p).me] at heq
  rw [heq]
  exact ⟨rfl, rfl, rfl, rfl⟩

theorem make_recovers_three :
    ((replay Always compactionEvents).1.peers 0).snapshotIndex = 1 ∧
    (Raft.make 0 ((replay Always compactionEvents).1.peers 0).persister).snapshotIndex = 1 ∧
    (Raft.make 0 ((replay Always compactionEvents).1.peers 0).persister).logs =
      ((replay Always compactionEvents).1.peers 0).logs := by
  have hsnap : ((replay Always compactionEvents).1.peers 0).snapshotIndex = 1 := by decide +kernel
  obtain ⟨-, -, hs, hl⟩ :=
    make_recovers (run_replay Always compactionEvents) List.mem_cons_self 0
  exact ⟨hsnap, hs.trans hsnap, hl⟩

/-! ### The shape of the log -/

/-- A compacted log has the shape that its full log has. -/
theorem Raft.Represents.wellFormed {rf : Raft n α} {G : List (LogEntry α)} (h : rf.Represents G)
    (hnum : Numbered G) (hord : Ordered G) (hle : TermsLe G rf.currentTerm) : rf.WellFormed := by
  have hterm : ∀ k e, rf.logs[k]? = some e → termAt G (rf.snapshotIndex + k) = some e.term := by
    intro k e hk
    rw [← h.term_entryAt (Nat.le_add_right _ k), rf.entryAt_add, hk]
    rfl
  constructor
  · obtain ⟨-, d, hd, -⟩ := h
    simp [hd]
  · intro k e hk
    cases k with
    | zero =>
      obtain ⟨-, d, hd, -, hdi⟩ := h
      rw [hd] at hk
      obtain rfl := Option.some.inj hk
      exact hdi
    | succ k =>
      rw [← rf.entryAt_add, h.entryAt_eq (by omega)] at hk
      exact hnum (rf.snapshotIndex + k) e hk
  · refine List.pairwise_iff_getElem.mpr fun i j hi hj hij => ?_
    exact hord _ _ _ _ (by omega) (hterm i _ (List.getElem?_eq_getElem hi))
      (hterm j _ (List.getElem?_eq_getElem hj))
  · intro e he
    obtain ⟨k, hk⟩ := List.mem_iff_getElem?.mp he
    exact hle _ _ (hterm k e hk)

/-- **Log representation.** In every state of every run, the log of every server starts with a dummy
entry, numbers its entries from `SnapshotIndex` on, and has terms that never decrease and never pass
`CurrentTerm`. -/
theorem logs_wellFormed (h : Run Always τ) (hσ : σ ∈ τ) (p : Fin n) : (σ.peers p).WellFormed := by
  obtain ⟨a, -, hpast⟩ := h.history
  obtain ⟨τ', b, -, hb, -⟩ := hpast σ hσ
  have hsim := hb.sim σ rfl
  have hp := hsim.peer p
  exact hp.log.wellFormed (hsim.numbered.1 p) (hsim.inv.ordered_log p)
    (hp.term ▸ hsim.inv.log_le p)

theorem logs_wellFormed_three :
    ((replay Always compactionEvents).1.peers 0).logs = [⟨1, 1, none⟩, ⟨2, 1, some 8⟩] ∧
    ((replay Always compactionEvents).1.peers 0).WellFormed :=
  ⟨by decide +kernel, logs_wellFormed (run_replay Always compactionEvents) List.mem_cons_self 0⟩

end RaftKVDB
