import RaftKVDB.Raft.Positions
import RaftKVDB.Raft.Requests

/-!
# Where entries come from

An entry is written once, by `Start` at the leader of its term. After that it is only copied: into
requests, from there into other logs, onto the disk and back, and at last, without its term, to the
application. So nothing is in a log, in a message or at an application that no client asked for, and
an index and a term name one call of `Start`.

## Main results

* `Cluster.Known.step` — what a step adds to the entries of a cluster
* `leader_append_only` — a leader only appends to its log
* `Wrote.increase` — accepted calls of `Start` in one term are at one server and get larger and
  larger indices
* `entry_from_one_start` — every entry was written by exactly one call of `Start`
* `delivered_from_start` — every command that is delivered was given to `Start`, which returned its
  index
-/

namespace RaftKVDB

open Foundations Cluster

variable {n : ℕ} {α : Type*} {P : LogEntry α → Prop}

/-! ### The entries of a peer -/

namespace Raft

variable {rf rf' : Raft n α}

/-- All entries of the peer are in `P`: those of its log, those it saved, and those whose commands
it handed to the application. The dummy is not an entry. -/
structure Known (P : LogEntry α → Prop) (rf : Raft n α) : Prop where
  logs : ∀ e ∈ rf.logs.tail, P e
  saved : ∀ s ∈ rf.persister.raftstate, ∀ e ∈ s.logs.tail, P e
  delivered : ∀ m ∈ rf.applyCh, m.commandValid = true →
    ∃ e, P e ∧ e.globalIndex = m.commandIndex ∧ e.command = m.command

theorem Known.mono {P' : LogEntry α → Prop} (h : rf.Known P) (hle : ∀ e, P e → P' e) :
    rf.Known P' where
  logs e he := hle e (h.logs e he)
  saved s hs e he := hle e (h.saved s hs e he)
  delivered m hm hv := by
    obtain ⟨e, he, hi, hc⟩ := h.delivered m hm hv
    exact ⟨e, hle e he, hi, hc⟩

theorem Known.persistState (h : rf.Known P) : rf.persistState.Known P where
  logs := h.logs
  saved s hs e he := by
    obtain rfl := Option.some.inj hs
    exact h.logs e he
  delivered := h.delivered

theorem Known.persistIf (h : rf.Known P) (change : Bool) : (rf.persistIf change).Known P := by
  cases change with
  | true => exact h.persistState
  | false => exact h

/-- A log with entries of `P` only. -/
theorem Known.set_logs (h : rf.Known P) {logs : List (LogEntry α)} {snap : ℕ}
    (hlogs : ∀ e ∈ logs.tail, P e) :
    { rf with logs := logs, snapshotIndex := snap }.Known P :=
  ⟨hlogs, h.saved, h.delivered⟩

theorem Known.seeTerm (h : rf.Known P) (t : ℕ) : (rf.seeTerm t).Known P := by
  obtain ⟨v, s, c, heq⟩ := seeTerm_eq rf t
  rw [heq]
  exact ⟨h.logs, h.saved, h.delivered⟩

theorem Known.followLeader (h : rf.Known P) (t : ℕ) : (rf.followLeader t).Known P := by
  obtain ⟨v, c, heq, -⟩ := followLeader_eq rf t
  rw [heq]
  exact ⟨h.logs, h.saved, h.delivered⟩

theorem Known.adoptTerm (h : rf.Known P) (t : ℕ) : (rf.adoptTerm t).persistState.Known P :=
  Known.persistState ⟨h.logs, h.saved, h.delivered⟩

theorem Known.followCommit (h : rf.Known P) (c : ℕ) : (rf.followCommit c).Known P := by
  rw [Raft.followCommit]
  split
  · exact ⟨h.logs, h.saved, h.delivered⟩
  · exact h

/-! ### What the functions of a peer do to its entries -/

theorem Known.requestVote (h : rf.Known P) {args : RequestVoteArgs n} {reply : RequestVoteReply}
    (hrun : rf.requestVote args = some (rf', reply)) : rf'.Known P := by
  rcases requestVote_outcome hrun with rfl | ⟨change, rfl⟩ | rfl
  · exact h
  · exact (h.seeTerm _).persistIf change
  · have hsee := h.seeTerm args.term
    exact Known.persistState ⟨hsee.logs, hsee.saved, hsee.delivered⟩

theorem mem_tail_take {l : List (LogEntry α)} {k : ℕ} {e : LogEntry α} (he : e ∈ (l.take k).tail) :
    e ∈ l.tail :=
  ((List.take_sublist k l).tail).mem he

/-- Slices that begin after the dummy. -/
theorem mem_tail_of_goFrom {l l' : List (LogEntry α)} {i : ℤ} {e : LogEntry α} (hi : 0 < i)
    (h : goFrom l i = some l') (he : e ∈ l') : e ∈ l.tail := by
  rw [goFrom] at h
  split at h
  · cases h
  obtain rfl := Option.some.inj h
  obtain ⟨k, hk⟩ := Nat.exists_eq_succ_of_ne_zero (show i.toNat ≠ 0 by omega)
  rw [hk, ← List.drop_tail] at he
  exact List.mem_of_mem_drop he

theorem mem_tail_append {l l' : List (LogEntry α)} {e : LogEntry α} (he : e ∈ (l ++ l').tail) :
    e ∈ l.tail ∨ e ∈ l' := by
  cases l with
  | nil => exact .inr (List.mem_of_mem_tail he)
  | cons d l => exact List.mem_append.mp he

/-- `AppendEntries` takes entries from the request. -/
theorem Known.appendEntries (h : rf.Known P) {args : AppendEntriesArgs n α}
    {reply : AppendEntriesReply} (hargs : ∀ e ∈ args.entries, P e)
    (hrun : rf.appendEntries args = some (rf', reply)) : rf'.Known P := by
  have hfol := h.followLeader args.term
  rw [Raft.appendEntries] at hrun
  dsimp only at hrun
  repeat' split at hrun
  all_goals first | cases hrun; done | obtain ⟨rfl, -⟩ := Prod.mk.inj (Option.some.inj hrun)
  · exact h
  · exact hfol.persistIf _
  · exact hfol.persistIf _
  · exact hfol.persistIf _
  · next kept hkept =>
    refine ((Known.set_logs hfol fun e he => ?_).followCommit _).persistState
    rcases mem_tail_append he with he | he
    · rw [goTo] at hkept
      split at hkept
      · cases hkept
      obtain rfl := Option.some.inj hkept
      exact hfol.logs e (mem_tail_take he)
    · exact hargs e (List.mem_of_mem_drop he)
  · exact (hfol.followCommit _).persistIf _

/-- `InstallSnapShot` takes no entries from the request: its dummy is not one. -/
theorem Known.installSnapShot (h : rf.Known P) {args : InstallSnapshotArgs n}
    {reply : InstallSnapshotReply} {installed : Bool}
    (hrun : rf.installSnapShot args = some (rf', reply, installed)) : rf'.Known P := by
  have hfol := h.followLeader args.term
  have hinstall : ∀ rest : List (LogEntry α), (∀ e ∈ rest, P e) →
      ({ rf.followLeader args.term with
        logs := ⟨args.lastIncludedIndex, args.lastIncludedTerm, none⟩ :: rest,
        snapshotIndex := args.lastIncludedIndex }.saveStateAndSnapshot args.snapshot).Known P := by
    intro rest hrest
    refine ⟨hrest, fun s hs => ?_, hfol.delivered⟩
    obtain rfl := Option.some.inj hs
    exact hrest
  rw [Raft.installSnapShot] at hrun
  dsimp only at hrun
  split at hrun
  · obtain ⟨rfl, -⟩ := Prod.mk.inj (Option.some.inj hrun)
    exact h
  split at hrun
  · obtain ⟨rfl, -⟩ := Prod.mk.inj (Option.some.inj hrun)
    exact hfol.persistIf _
  next hnew =>
  have hpos : 0 < (rf.followLeader args.term).logIdxGlobal2Local args.lastIncludedIndex + 1 := by
    have := Nat.lt_of_not_le fun hle => hnew (.inl hle)
    simp only [logIdxGlobal2Local]
    omega
  repeat' split at hrun
  all_goals first | cases hrun; done | obtain ⟨rfl, -⟩ := Prod.mk.inj (Option.some.inj hrun)
  · next rest hrest =>
    exact hinstall rest fun e he => hfol.logs e (mem_tail_of_goFrom hpos hrest he)
  · exact hinstall [] (by simp)
  · exact hinstall [] (by simp)

theorem Known.broadCastVote (h : rf.Known P) {sent : Option (RequestVoteArgs n)}
    (hrun : rf.broadCastVote = some (rf', sent)) : rf'.Known P := by
  rw [Raft.broadCastVote] at hrun
  dsimp only at hrun
  repeat' split at hrun
  all_goals first | cases hrun; done | obtain ⟨rfl, -⟩ := Prod.mk.inj (Option.some.inj hrun)
  · exact h
  · exact Known.persistState ⟨h.logs, h.saved, h.delivered⟩

theorem Known.sendRequestVoteAndProcess (h : rf.Known P) (reply : RequestVoteReply) :
    (rf.sendRequestVoteAndProcess reply).Known P := by
  rw [Raft.sendRequestVoteAndProcess]
  dsimp only
  repeat' split
  · exact h
  · exact h.adoptTerm _
  · exact ⟨h.logs, h.saved, h.delivered⟩
  · exact ⟨h.logs, h.saved, h.delivered⟩
  · exact h

theorem Known.sendAppendEntriesAndProcess (h : rf.Known P) {args : AppendEntriesArgs n α}
    {server : Fin n} {reply : AppendEntriesReply}
    (hrun : rf.sendAppendEntriesAndProcess args server reply = some rf') : rf'.Known P := by
  rcases sendAppendEntriesAndProcess_cases hrun with
    rfl | ⟨-, rfl⟩ | ⟨-, -, -, rfl⟩ | ⟨-, -, -, -, ci, cc, rfl, -⟩
  · exact h
  · exact h.adoptTerm _
  · exact ⟨h.logs, h.saved, h.delivered⟩
  · exact ⟨h.logs, h.saved, h.delivered⟩

theorem Known.sendSnapShotAndProcess (h : rf.Known P) (args : InstallSnapshotArgs n)
    (server : Fin n) (reply : InstallSnapshotReply) :
    (rf.sendSnapShotAndProcess args server reply).Known P := by
  rw [Raft.sendSnapShotAndProcess]
  repeat' split
  · exact h
  · exact h.adoptTerm _
  · exact ⟨h.logs, h.saved, h.delivered⟩
  · exact h

/-- `Start` writes the one new entry. -/
theorem Known.start (h : rf.Known P) (command : Option α)
    (hnew : rf.state = .leader →
      P ⟨rf.snapshotIndex + rf.logs.length, rf.currentTerm, command⟩) :
    (rf.start command).1.Known P := by
  rw [Raft.start]
  dsimp only
  split
  · next hs =>
    refine Known.persistState ⟨fun e he => ?_, h.saved, h.delivered⟩
    rcases mem_tail_append he with he | he
    · exact h.logs e he
    · obtain rfl := List.mem_singleton.mp he
      exact hnew hs
  · exact h

theorem Known.compact (h : rf.Known P) {cmdIndex : ℕ} {snapshot : List UInt8}
    (hrun : rf.compact cmdIndex snapshot = some rf') : rf'.Known P := by
  rw [Raft.compact] at hrun
  dsimp only at hrun
  split at hrun
  · obtain rfl := Option.some.inj hrun
    exact h
  next hlt =>
  split at hrun
  · obtain rfl := Option.some.inj hrun
    exact h
  split at hrun
  · next e rest _ hrest =>
    obtain rfl := Option.some.inj hrun
    have hpos : 0 < rf.logIdxGlobal2Local cmdIndex + 1 := by
      simp only [logIdxGlobal2Local]
      omega
    have hkeep : ∀ e ∈ rest, P e := fun e he => h.logs e (mem_tail_of_goFrom hpos hrest he)
    refine ⟨hkeep, fun s hs => ?_, h.delivered⟩
    obtain rfl := Option.some.inj hs
    exact hkeep
  · cases hrun

theorem Known.notify (h : rf.Known P) (snapshot : List UInt8) :
    (rf.notifyAppUseNewSnapShot snapshot).Known P := by
  rw [notifyAppUseNewSnapShot]
  split
  · exact h
  · refine ⟨h.logs, h.saved, fun m hm hv => ?_⟩
    rcases List.mem_append.mp hm with hm | hm
    · exact h.delivered m hm hv
    · obtain rfl := List.mem_singleton.mp hm
      cases hv

/-- The daemon hands over the commands of entries of the log. -/
theorem Known.applyLogEntryDaemon (h : rf.Known P) {G : List (LogEntry α)}
    (hlog : rf.Represents G) (hnum : Numbered G) (hrun : rf.applyLogEntryDaemon = some rf') :
    rf'.Known P := by
  obtain ⟨msgs, la, rfl, hmsgs⟩ := hlog.applyLoop_eq _ _ hrun
  refine ⟨h.logs, h.saved, fun m hm hv => ?_⟩
  rcases List.mem_append.mp hm with hm | hm
  · exact h.delivered m hm hv
  · obtain ⟨-, -, hsnap, -, e, he, hcmd⟩ := hmsgs m hm
    refine ⟨e, h.logs e ?_, ?_, hcmd⟩
    · obtain ⟨-, d, hd, -⟩ := hlog
      rw [hd, List.tail_cons]
      refine List.mem_of_getElem? (i := m.commandIndex - 1 - rf.snapshotIndex) ?_
      rw [List.getElem?_drop, ← he]
      congr 1
      omega
    · rw [hnum _ e he]
      omega

theorem Known.make (h : rf.Known P) (me : Fin n) : (make me rf.persister).Known P := by
  refine Known.notify ?_ _
  rw [dePersistState]
  split
  · exact ⟨by simp, h.saved, by simp⟩
  · next s hs => exact ⟨h.saved s hs, h.saved, by simp⟩

end Raft

/-! ### The entries of a cluster -/

namespace Cluster

variable {σ σ' : Cluster n α} {p : Fin n}

/-- All entries of the cluster are in `P`: those of the peers and those on their way. -/
structure Known (P : LogEntry α → Prop) (σ : Cluster n α) : Prop where
  peer : ∀ p, (σ.peers p).Known P
  sent : ∀ c ∈ σ.calls, ∀ args reply, c.body = .appendEntries args reply → ∀ e ∈ args.entries, P e

theorem Known.mono {P' : LogEntry α → Prop} (h : σ.Known P) (hle : ∀ e, P e → P' e) :
    σ.Known P' :=
  ⟨fun p => (h.peer p).mono hle, fun c hc args reply hb e he =>
    hle e (h.sent c hc args reply hb e he)⟩

theorem known_init (P : LogEntry α → Prop) : (init n α).Known P where
  peer _ := ⟨by simp [init, Raft.make, Raft.dePersistState, makePersister,
    Raft.notifyAppUseNewSnapShot], by simp [init, Raft.make, Raft.dePersistState, makePersister,
    Raft.notifyAppUseNewSnapShot], by simp [init, Raft.make, Raft.dePersistState, makePersister,
    Raft.notifyAppUseNewSnapShot]⟩
  sent _ hc := absurd hc (by simp [init])

/-- The entries of a request are those of the leader's log. -/
theorem entries_of_checkConsistency {rf : Raft n α} {peer : Fin n} {args : AppendEntriesArgs n α}
    (h : rf.checkConsistency peer = some (some (.appendEntries args))) {e : LogEntry α}
    (he : e ∈ args.entries) : e ∈ rf.logs.tail := by
  rw [Raft.checkConsistency] at h
  dsimp only at h
  repeat' split at h
  all_goals first | cases h; done | skip
  next prev entries hprev hfrom =>
  obtain rfl := Raft.Request.appendEntries.inj (Option.some.inj (Option.some.inj h))
  refine Raft.mem_tail_of_goFrom ?_ hfrom he
  rw [goIndex] at hprev
  split at hprev
  · cases hprev
  · omega

/-- What an event adds to the entries of the cluster: the entry that an accepted `Start` writes. -/
def Adds (σ : Cluster n α) (e : Event n α) (x : LogEntry α) : Prop :=
  ∃ p, e = .start p x.command ∧ ((σ.peers p).start x.command).2 =
    ((x.globalIndex : ℤ), (x.term : ℤ), true)

/-- What `Start` returns names the entry it writes. -/
theorem adds_start (hs : (σ.peers p).state = .leader) (command : Option α) :
    σ.Adds (.start p command) ⟨(σ.peers p).snapshotIndex + (σ.peers p).logs.length,
      (σ.peers p).currentTerm, command⟩ :=
  ⟨p, rfl, congrArg Prod.snd (Raft.start_eq _ hs command)⟩

theorem Known.update (h : σ.Known P) {rf : Raft n α} (hrf : rf.Known P) (q : Fin n) :
    (Function.update σ.peers p rf q).Known P := by
  rcases eq_or_ne q p with rfl | hne
  · rwa [Function.update_self]
  · rw [Function.update_of_ne hne]
    exact h.peer q

/-- The entries on their way come from the log of the sender. -/
theorem Known.sent_step {e : Event n α} (h : σ.Known P) (hstep : σ.step e = .ok σ') :
    ∀ c ∈ σ'.calls, ∀ args reply, c.body = .appendEntries args reply →
      ∀ x ∈ args.entries, P x := by
  intro c hc args reply hbody x hx
  rcases appendEntries_mem_step hstep hc hbody with hc | ⟨c', hc, -, -, hbody', -⟩ | ⟨-, hsent⟩
  · exact h.sent c hc args reply hbody x hx
  · exact h.sent c' hc args none hbody' x hx
  · exact (h.peer _).logs x (entries_of_checkConsistency hsent hx)

/-- Apart from the handlers, nothing takes entries from a message. -/
theorem PeerStep.known {a : Protocol n α} {e : Event n α} {rf : Raft n α} (hp : PeerStep σ p e rf)
    (h : σ.Known P) (hsim : Sim σ a) (hne : ∀ k, e ≠ .handle k) (hadds : ∀ x, σ.Adds e x → P x) :
    rf.Known P := by
  have hk := h.peer p
  cases hp with
  | idle => exact hk
  | broadCastVote hrun => exact hk.broadCastVote hrun
  | start command => exact hk.start command fun hs => hadds _ (adds_start hs command)
  | compact hrun => exact hk.compact hrun
  | apply hrun =>
    have hwoken : ({ σ.peers p with commitCh := (σ.peers p).commitCh - 1 } : Raft n α).Known P :=
      ⟨hk.logs, hk.saved, hk.delivered⟩
    exact hwoken.applyLogEntryDaemon (G := a.log p) (hsim.peer p).log (hsim.numbered.1 p) hrun
  | requestVote hrun => exact hk.requestVote hrun
  | @appendEntries k => exact absurd rfl (hne k)
  | installSnapShot hrun => exact hk.installSnapShot hrun
  | notify snapshot => exact hk.notify snapshot
  | processVote reply => exact hk.sendRequestVoteAndProcess reply
  | processAppend _ _ _ hrun => exact hk.sendAppendEntriesAndProcess hrun
  | processSnapShot => exact hk.sendSnapShotAndProcess _ _ _
  | restart => exact hk.make p

/-- **What a step adds to the entries of a cluster.** -/
theorem Known.step {a : Protocol n α} {e : Event n α} (h : σ.Known P) (hsim : Sim σ a)
    (hstep : σ.step e = .ok σ') (hadds : ∀ x, σ.Adds e x → P x) : σ'.Known P := by
  refine ⟨fun p => ?_, h.sent_step hstep⟩
  by_cases he : ∃ k, e = .handle k
  · obtain ⟨k, rfl⟩ := he
    obtain ⟨c, hk, hrun⟩ := onCall_eq_ok.mp hstep
    rcases handle_cases hrun with ⟨args, rf, reply, -, hrpc, rfl⟩ |
      ⟨args, rf, reply, hbody, hrpc, rfl⟩ | ⟨args, rf, reply, installed, -, hrpc, rfl⟩
    · exact h.update ((h.peer _).requestVote hrpc) p
    · have hargs := h.sent c (List.mem_of_getElem? hk) args none hbody
      exact h.update ((h.peer _).appendEntries hargs hrpc) p
    · exact h.update ((h.peer _).installSnapShot hrpc) p
  · exact (peerStep_of_step hstep p).known h hsim (fun k hk => he ⟨k, hk⟩) hadds

end Cluster

/-! ### The log of a leader -/

variable {τ : List (Cluster n α)} {σ σ' : Cluster n α} {p q : Fin n}

/-- A moment of a run and a later one. -/
theorem Cluster.Run.moments {ok : Cluster n α → Event n α → Prop} (h : Run ok (σ' :: τ))
    (hσ : σ ∈ σ' :: τ) : ∃ a b : Protocol n α, Sim σ' a ∧ Sim σ b ∧ b.Extends a := by
  obtain ⟨a, ha, hpast⟩ := h.history
  obtain ⟨τ', b, -, hb, hext⟩ := hpast σ hσ
  exact ⟨a, b, ha.sim σ' rfl, hb.sim σ rfl, hext⟩

/-- The log of the leader of a term at two moments. -/
theorem Cluster.Run.leader_log {ok : Cluster n α → Event n α → Prop} (h : Run ok (σ' :: τ))
    (hσ : σ ∈ σ' :: τ) (hs : (σ.peers p).state = .leader) (hs' : (σ'.peers q).state = .leader)
    (ht : (σ.peers p).currentTerm = (σ'.peers q).currentTerm) :
    p = q ∧ ∃ G G', (σ.peers p).Represents G ∧ (σ'.peers p).Represents G' ∧ G <+: G' := by
  obtain ⟨a, b, hsim', hsim, hext⟩ := h.moments hσ
  have hp := hsim.peer p
  have hlead := hext.leader _ _ (hp.leader hs).1
  rw [ht, ((hsim'.peer q).leader hs').1] at hlead
  obtain rfl := Option.some.inj hlead
  refine ⟨rfl, b.log q, a.log q, hp.log, (hsim'.peer q).log, ?_⟩
  rw [(hp.leader hs).2, ((hsim'.peer q).leader hs').2, ← ht]
  exact hext.tlog _

/-- **A leader only appends.** Between two moments of a run at which a server is the leader of the
same term, its log has not become shorter, and every entry it held it still holds or has
compacted. -/
theorem leader_append_only (h : Run Always (σ' :: τ)) (hσ : σ ∈ σ' :: τ)
    (hs : (σ.peers p).state = .leader) (hs' : (σ'.peers p).state = .leader)
    (ht : (σ.peers p).currentTerm = (σ'.peers p).currentTerm) :
    (σ.peers p).lastIndex ≤ (σ'.peers p).lastIndex ∧ ∀ i e, (σ.peers p).Holds i e →
      i ≤ (σ'.peers p).snapshotIndex ∨ (σ'.peers p).Holds i e := by
  obtain ⟨-, G, G', hG, hG', hpre⟩ := h.leader_log hσ hs hs' ht
  constructor
  · rw [hG.lastIndex_eq, hG'.lastIndex_eq]
    exact hpre.length_le
  · intro i e he
    obtain ⟨-, hget⟩ := hG.holds_iff.mp he
    rcases Nat.lt_or_ge (σ'.peers p).snapshotIndex i with hi | hi
    · refine .inr (hG'.holds_iff.mpr ⟨hi, ?_⟩)
      rw [← getElem?_of_isPrefix hpre (List.getElem?_eq_some_iff.mp hget).1, hget]
    · exact .inl hi

theorem leader_append_only_three :
    ((replay Always replicationEvents).1.peers 0).Holds 2 ⟨2, 1, some 8⟩ ∧
    (2 ≤ ((replay Always compactionEvents).1.peers 0).snapshotIndex ∨
      ((replay Always compactionEvents).1.peers 0).Holds 2 ⟨2, 1, some 8⟩) := by
  have hheld : ((replay Always replicationEvents).1.peers 0).Holds 2 ⟨2, 1, some 8⟩ :=
    ⟨by decide +kernel, by decide +kernel⟩
  exact ⟨hheld, (leader_append_only (run_replay Always compactionEvents)
    (mem_replay_append Always replicationEvents [.process 1, .apply 0, .compact 0 1 [1]])
    (by decide +kernel) (by decide +kernel) (by decide +kernel)).2 2 _ hheld⟩

/-! ### Calls of `Start` -/

/-- The last step of the run is a call of `Start` at `p` that returned the index and the term of
`e`. -/
def Wrote (p : Fin n) (e : LogEntry α) (τ : List (Cluster n α)) : Prop :=
  ∃ σ' σ τ', τ = σ' :: σ :: τ' ∧ σ.step (.start p e.command) = .ok σ' ∧
    ((σ.peers p).start e.command).2 = ((e.globalIndex : ℤ), (e.term : ℤ), true)

/-- What an accepted `Start` says about the server: it leads the term of the entry, and the entry
goes to the end of its log. -/
theorem Raft.Represents.start_accepted {rf : Raft n α} {G : List (LogEntry α)}
    {command : Option α} {i t : ℕ} (hlog : rf.Represents G)
    (h : (rf.start command).2 = ((i : ℤ), (t : ℤ), true)) :
    rf.state = .leader ∧ rf.currentTerm = t ∧ i = rf.lastIndex + 1 ∧
      (rf.start command).1.state = .leader ∧ (rf.start command).1.currentTerm = t ∧
      (rf.start command).1.lastIndex = i := by
  have hs : rf.state = .leader := by
    by_contra hs
    rw [Raft.start, if_neg hs] at h
    cases h
  have hlen := hlog.length_logs
  rw [Raft.start_eq rf hs] at h ⊢
  simp only [Prod.mk.injEq, Int.natCast_inj, and_true] at h
  obtain ⟨rfl, rfl⟩ := h
  simp only [Raft.persistIf, Raft.persistState, Raft.lastIndex, Raft.logIdxLocal2Global,
    List.length_append, List.length_singleton, if_true]
  exact ⟨hs, trivial, by omega, hs, trivial, by omega⟩

theorem Wrote.of_start {e : LogEntry α} (h : Wrote p e (σ' :: σ :: τ)) :
    ((σ.peers p).start e.command).2 = ((e.globalIndex : ℤ), (e.term : ℤ), true) ∧
      σ'.peers p = ((σ.peers p).start e.command).1 := by
  obtain ⟨σ₁, σ₀, τ', heq, hstep, hret⟩ := h
  simp only [List.cons.injEq] at heq
  obtain ⟨rfl, rfl, rfl⟩ := heq
  obtain rfl := Except.ok.inj hstep
  exact ⟨hret, Function.update_self ..⟩

/-- Accepted calls of `Start` in one term are at one server, and a later one gets a larger index. -/
theorem Wrote.increase (h : Run Always τ) {τ₁ τ₂ : List (Cluster n α)} (h₁ : τ₁ <:+ τ₂)
    (h₂ : τ₂ <:+ τ) (hne : τ₁ ≠ τ₂) {e e' : LogEntry α} (hw₁ : Wrote p e τ₁) (hw₂ : Wrote q e' τ₂)
    (ht : e.term = e'.term) : p = q ∧ e.globalIndex < e'.globalIndex := by
  obtain ⟨σ₁', σ₁, τ₁', rfl, -⟩ := id hw₁
  obtain ⟨σ₂', σ₂, τ₂', rfl, -⟩ := id hw₂
  obtain ⟨hret₁, hpeer₁⟩ := hw₁.of_start
  obtain ⟨hret₂, -⟩ := hw₂.of_start
  -- The first call was over before the second began.
  have hlater : σ₁' :: σ₁ :: τ₁' <:+ σ₂ :: τ₂' := (List.suffix_cons_iff.mp h₁).resolve_left hne
  have hrun₂ : Run Always (σ₂ :: τ₂') := h.of_suffix ((List.suffix_cons _ _).trans h₂)
  have hmem₁ : σ₁ ∈ σ₂ :: τ₂' := hlater.subset (by simp)
  obtain ⟨a, b, hsim₂, hsim₁, -⟩ := hrun₂.moments hmem₁
  obtain ⟨-, -, -, hs₁, ht₁, hlast₁⟩ := (hsim₁.peer p).log.start_accepted hret₁
  obtain ⟨hs₂, ht₂, hidx, -⟩ := (hsim₂.peer q).log.start_accepted hret₂
  rw [← hpeer₁] at hs₁ ht₁ hlast₁
  obtain ⟨rfl, G, G', hG, hG', hpre⟩ := hrun₂.leader_log (hlater.subset List.mem_cons_self) hs₁ hs₂
    (ht₁.trans (ht.trans ht₂.symm))
  rw [hG.lastIndex_eq] at hlast₁
  rw [hG'.lastIndex_eq] at hidx
  have := hpre.length_le
  exact ⟨rfl, by omega⟩

/-! ### Every entry was written once -/

/-- Everything that is an entry now was written by a call of `Start` of the run. -/
theorem known_run (h : Run Always τ) :
    ∀ σ ∈ τ.head?, σ.Known fun e => ∃ τ' q, τ' <:+ τ ∧ Wrote q e τ' := by
  induction h with
  | start =>
    intro σ hσ
    obtain rfl := Option.some.inj hσ
    exact known_init _
  | @step σ₀ σ₁ e τ hrun hn ih =>
    intro σ hσ
    obtain rfl := Option.some.inj hσ
    obtain ⟨a, ha, -⟩ := Cluster.Run.history hrun
    have hknown : σ₀.Known fun e => ∃ τ' q, τ' <:+ (σ₁ :: σ₀ :: τ) ∧ Wrote q e τ' := by
      refine (ih σ₀ rfl).mono ?_
      rintro x ⟨τ', q, hsuf, hw⟩
      exact ⟨τ', q, hsuf.trans (List.suffix_cons _ _), hw⟩
    refine hknown.step (ha.sim σ₀ rfl) hn.2 fun x hx => ?_
    obtain ⟨q, rfl, hret⟩ := hx
    exact ⟨_, q, List.suffix_rfl, _, _, _, rfl, hn.2, hret⟩

/-- At every moment of a run, whatever is known was written in the run. -/
theorem known_mem (h : Run Always τ) (hσ : σ ∈ τ) :
    σ.Known fun e => ∃ τ' q, τ' <:+ τ ∧ Wrote q e τ' := by
  obtain ⟨τ₁, τ₂, rfl⟩ := List.append_of_mem hσ
  have hsuf : σ :: τ₂ <:+ τ₁ ++ σ :: τ₂ := List.suffix_append _ _
  refine (known_run (h.of_suffix hsuf) σ rfl).mono ?_
  rintro x ⟨τ', q, hτ', hw⟩
  exact ⟨τ', q, hτ'.trans hsuf, hw⟩

/-- **Every entry was written by exactly one call of `Start`.** An entry that a server holds at an
index has that index as its `GlobalIndex`, and in the run there is one call of `Start` with its
command, and no other, that returned its index and its term. -/
theorem entry_from_one_start (h : Run Always τ) (hσ : σ ∈ τ) {i : ℕ} {e : LogEntry α}
    (he : (σ.peers p).Holds i e) :
    e.globalIndex = i ∧ ∃! τ', τ' <:+ τ ∧ ∃ q, Wrote q e τ' := by
  obtain ⟨hi, hget⟩ := id he
  obtain ⟨k, rfl⟩ := Nat.exists_eq_add_of_lt hi
  rw [Nat.add_assoc, Raft.entryAt_add] at hget
  have hmem : e ∈ (σ.peers p).logs.tail := by
    refine List.mem_of_getElem? (i := k) ?_
    rw [List.getElem?_tail, hget]
  obtain ⟨τ', q, hsuf, hw⟩ := ((known_mem h hσ).peer p).logs e hmem
  refine ⟨?_, τ', ⟨hsuf, q, hw⟩, ?_⟩
  · obtain ⟨a, -, hpast⟩ := h.history
    obtain ⟨_, b, -, hb, -⟩ := hpast σ hσ
    have hsim := hb.sim σ rfl
    rw [hsim.numbered.1 p _ e ((hsim.peer p).log.holds_iff.mp he).2]
    omega
  -- Of two such calls the later one would have a larger index.
  · rintro τ'' ⟨hsuf', q', hw'⟩
    by_contra hne
    rcases List.suffix_or_suffix_of_suffix hsuf hsuf' with hle | hle
    · exact Nat.lt_irrefl _ (Wrote.increase h hle hsuf' (Ne.symm hne) hw hw' rfl).2
    · exact Nat.lt_irrefl _ (Wrote.increase h hle hsuf hne hw' hw rfl).2

/-- An entry of the follower. -/
theorem entry_from_one_start_three :
    ((replay Always compactionEvents).1.peers 1).Holds 2 ⟨2, 1, some 8⟩ ∧
    ∃! τ', τ' <:+ (replay Always compactionEvents).1 :: (replay Always compactionEvents).2 ∧
      ∃ q, Wrote q ⟨2, 1, some 8⟩ τ' := by
  have hheld : ((replay Always compactionEvents).1.peers 1).Holds 2 ⟨2, 1, some 8⟩ :=
    ⟨by decide +kernel, by decide +kernel⟩
  exact ⟨hheld, (entry_from_one_start (run_replay Always compactionEvents) List.mem_cons_self
    hheld).2⟩

/-- **Every command that is delivered was given to `Start`.** A command that a server hands to its
application was given, earlier in the run, to a call of `Start` that returned the index at which it
is delivered. -/
theorem delivered_from_start (h : Run Always τ) (hσ : σ ∈ τ) {m : ApplyMsg α}
    (hm : m ∈ (σ.peers p).applyCh) (hv : m.commandValid = true) :
    ∃ t q τ', τ' <:+ τ ∧ Wrote q ⟨m.commandIndex, t, m.command⟩ τ' := by
  obtain ⟨⟨i, t, c⟩, ⟨τ', q, hsuf, hw⟩, rfl, rfl⟩ := ((known_mem h hσ).peer p).delivered m hm hv
  exact ⟨t, q, τ', hsuf, hw⟩

theorem delivered_from_start_three :
    (⟨1, some 7, true, []⟩ : ApplyMsg ℕ) ∈ ((replay Always compactionEvents).1.peers 0).applyCh ∧
    ∃ t q τ', τ' <:+ (replay Always compactionEvents).1 :: (replay Always compactionEvents).2 ∧
      Wrote q ⟨1, t, some 7⟩ τ' := by
  have hmem : (⟨1, some 7, true, []⟩ : ApplyMsg ℕ) ∈
      ((replay Always compactionEvents).1.peers 0).applyCh := by decide +kernel
  exact ⟨hmem, delivered_from_start (run_replay Always compactionEvents) List.mem_cons_self hmem
    rfl⟩

end RaftKVDB
