import RaftKVDB.Foundations.Trace
import RaftKVDB.Kv.Store
import RaftKVDB.Raft.Steady

/-!
# From the log to the store

One server: its Raft peer, the apply daemon, the handlers that have a snapshot to send, and the
`enactDaemon` of its `KVServer`, which takes what comes on `applyCh` in the order it comes. What
matters here is that order, so the wake-up of the apply daemon is taken apart into the turns of its
loop. It holds `rf.mu` all the while, but a handler of `InstallSnapShot` has released that lock when
it sends its snapshot, and may be overtaken.

`applyCh` has no buffer: a message is sent when it is received, and the next one is received when
that one has been dealt with. So sending a message and dealing with it are one step.

What the rest of the cluster promises is that there is a log, of which the entries up to
`commitIndex` are a part, and that a snapshot received is the state after the first
`LastIncludedIndex` commands of it.

## Main results

* `apply_in_order` — in the runs in which no snapshot is overtaken, the store is always the result
  of the commands up to the largest index consumed
-/

namespace RaftKVDB

open Foundations

variable {n : ℕ}

/-! ### The server -/

/-- What runs under `rf.mu`, besides the apply daemon and `Compact`. -/
inductive Handler (n : ℕ)
  | requestVote (args : RequestVoteArgs n)
  | appendEntries (args : AppendEntriesArgs n Op)
  | installSnapShot (args : InstallSnapshotArgs n)
  | broadCastVote
  | sendRequestVoteAndProcess (reply : RequestVoteReply)
  | sendAppendEntriesAndProcess (args : AppendEntriesArgs n Op) (server : Fin n)
      (reply : AppendEntriesReply)
  | sendSnapShotAndProcess (args : InstallSnapshotArgs n) (server : Fin n)
      (reply : InstallSnapshotReply)
  | start (operation : Op)

/-- A snapshot and the index it goes up to. -/
structure Notice where
  lastIncludedIndex : ℕ
  snapshot : List UInt8

/-- The peer after a handler, and the snapshot that the handler has still to send. -/
def Handler.run (rf : Raft n Op) : Handler n → Option (Raft n Op × Option Notice)
  | .requestVote args => (rf.requestVote args).map fun (rf, _) => (rf, none)
  | .appendEntries args => (rf.appendEntries args).map fun (rf, _) => (rf, none)
  | .installSnapShot args => (rf.installSnapShot args).map fun (rf, _, installed) =>
      (rf, if installed then some ⟨args.lastIncludedIndex, args.snapshot⟩ else none)
  | .broadCastVote => rf.broadCastVote.map fun (rf, _) => (rf, none)
  | .sendRequestVoteAndProcess reply => some (rf.sendRequestVoteAndProcess reply, none)
  | .sendAppendEntriesAndProcess args server reply =>
      (rf.sendAppendEntriesAndProcess args server reply).map fun rf => (rf, none)
  | .sendSnapShotAndProcess args server reply =>
      some (rf.sendSnapShotAndProcess args server reply, none)
  | .start operation => some ((rf.start (some operation)).1, none)

/-- One incarnation of a server after the other. -/
structure Server (n : ℕ) where
  rf : Raft n Op
  /-- The index and the end of the loop of the apply daemon, while it is awake. -/
  daemon : Option (ℕ × ℕ)
  /-- The snapshots that handlers have installed and not sent yet. -/
  notices : List Notice
  /-- The calls of `Compact` that have not been run yet. -/
  compactions : List Notice
  kv : Kv
  /-- The largest index of a command or a snapshot that this incarnation has consumed. -/
  consumed : ℕ

/-- What can happen next at a server. -/
inductive ServerEvent (n : ℕ)
  | handle (handler : Handler n)
  | wake
  | advance (compact : Bool)
  | notify (k : ℕ)
  | compact (k : ℕ)
  | restart

namespace Server

/-- `StartKVServer`: the snapshot that `Make` sends, if there is one, is consumed first. -/
def boot (gob : Gob Kv) (rf : Raft n Op) : Option (Server n) :=
  (rf.applyCh.foldlM (Kv.dealWithApplyMsg gob) Kv.empty).map fun kv =>
    { rf := rf, daemon := none, notices := [], compactions := [], kv := kv,
      consumed := if rf.applyCh = [] then 0 else rf.snapshotIndex }

/-- A server that has never run. -/
def init (me : Fin n) : Server n where
  rf := Raft.make me makePersister
  daemon := none
  notices := []
  compactions := []
  kv := Kv.empty
  consumed := 0

/-- One turn of the loop of the apply daemon. If `compact`, the raft state has become large enough
for a snapshot. -/
def advance (gob : Gob Kv) (σ : Server n) (compact : Bool) : Option (Server n) :=
  match σ.daemon with
  | none => none
  | some (i, last) =>
    if last < i then some { σ with daemon := none }
    else if i ≤ σ.rf.snapshotIndex then
      some { σ with daemon := some (σ.rf.snapshotIndex + 1, last) }
    else
      match goIndex σ.rf.logs (σ.rf.logIdxGlobal2Local i) with
      | none => none
      | some e =>
        let appliedMsg : ApplyMsg Op := ⟨i, e.command, true, []⟩
        (σ.kv.dealWithApplyMsg gob appliedMsg).map fun kv =>
          { rf := { σ.rf with applyCh := σ.rf.applyCh ++ [appliedMsg], lastApplied := i }
            daemon := some (i + 1, last)
            notices := σ.notices
            compactions := σ.compactions ++ if compact then [⟨i, gob.encode kv⟩] else []
            kv := kv
            consumed := max σ.consumed i }

/-- A handler sends its snapshot. -/
def notify (gob : Gob Kv) (σ : Server n) (k : ℕ) : Option (Server n) :=
  match σ.notices[k]? with
  | none => none
  | some notice =>
    if notice.snapshot = [] then some { σ with notices := σ.notices.eraseIdx k }
    else
      (σ.kv.dealWithApplyMsg gob ⟨0, none, false, notice.snapshot⟩).map fun kv =>
        { σ with
          rf := σ.rf.notifyAppUseNewSnapShot notice.snapshot
          notices := σ.notices.eraseIdx k
          kv := kv
          consumed := max σ.consumed notice.lastIncludedIndex }

/-- One event; `none` if it cannot happen or panics. What needs `rf.mu` waits for the daemon. -/
def step (gob : Gob Kv) (σ : Server n) : ServerEvent n → Option (Server n)
  | .handle handler =>
    if σ.daemon.isSome then none
    else (handler.run σ.rf).map fun (rf, notice) =>
      { σ with rf := rf, notices := σ.notices ++ notice.toList }
  | .wake =>
    if σ.daemon.isSome ∨ σ.rf.commitCh = 0 then none
    else some { σ with
      rf := { σ.rf with commitCh := σ.rf.commitCh - 1 }
      daemon := some (σ.rf.lastApplied + 1, σ.rf.commitIndex) }
  | .advance compact => σ.advance gob compact
  | .notify k => σ.notify gob k
  | .compact k =>
    if σ.daemon.isSome then none
    else
      match σ.compactions[k]? with
      | none => none
      | some call => (σ.rf.compact call.lastIncludedIndex call.snapshot).map fun rf =>
          { σ with rf := rf, compactions := σ.compactions.eraseIdx k }
  | .restart => boot gob (Raft.make σ.rf.me σ.rf.persister)

/-- **The turns are the daemon's.** When nothing comes in between, the turns of the loop do to the
peer what the loop does. -/
theorem exists_turns_of_applyLoop {gob : Gob Kv} {last : ℕ} (fuel : ℕ) (σ : Server n) {i : ℕ}
    (hdaemon : σ.daemon = some (i, last)) (hfuel : last + 1 - i ≤ fuel)
    (hcmd : ∀ i e, σ.rf.Holds i e → e.command ≠ none) {rf : Raft n Op}
    (hloop : Raft.applyLoop last fuel i σ.rf = some rf) :
    ∃ σ', Relation.ReflTransGen (fun σ σ' => σ.advance gob false = some σ') σ σ' ∧
      σ'.daemon = none ∧ σ'.rf = rf := by
  induction fuel generalizing σ i with
  | zero =>
    cases hloop
    refine ⟨{ σ with daemon := none }, .single ?_, rfl, rfl⟩
    rw [advance, hdaemon]
    exact if_pos (by omega)
  | succ fuel ih =>
    rw [Raft.applyLoop] at hloop
    split_ifs at hloop with hlast hsnap
    · cases hloop
      refine ⟨{ σ with daemon := none }, .single ?_, rfl, rfl⟩
      rw [advance, hdaemon]
      exact if_pos hlast
    · -- the loop jumps over what is in the snapshot
      have hadv : σ.advance gob false =
          some { σ with daemon := some (σ.rf.snapshotIndex + 1, last) } := by
        simp only [advance, hdaemon, if_neg hlast, if_pos hsnap]
      obtain ⟨σ', hturns, hend⟩ := ih { σ with daemon := some (σ.rf.snapshotIndex + 1, last) } rfl
        (by omega) hcmd hloop
      exact ⟨σ', .head hadv hturns, hend⟩
    · cases he : goIndex σ.rf.logs (σ.rf.logIdxGlobal2Local i) with
      | none =>
        rw [he] at hloop
        cases hloop
      | some e =>
        rw [he] at hloop
        obtain ⟨operation, hop⟩ := Option.ne_none_iff_exists'.mp (hcmd i e ⟨by omega, he⟩)
        obtain ⟨σ₁, hadv, hd, hrf⟩ : ∃ σ₁, σ.advance gob false = some σ₁ ∧
            σ₁.daemon = some (i + 1, last) ∧
            σ₁.rf = { σ.rf with
              applyCh := σ.rf.applyCh ++ [⟨i, e.command, true, []⟩], lastApplied := i } := by
          simp only [advance, hdaemon, if_neg hlast, if_neg hsnap, he, Kv.dealWithApplyMsg, hop,
            if_true, Option.map_some]
          exact ⟨_, rfl, rfl, rfl⟩
        obtain ⟨σ', hturns, hend⟩ := ih σ₁ hd (by omega) (by rw [hrf]; exact hcmd) (hrf ▸ hloop)
        exact ⟨σ', .head hadv hturns, hend⟩

/-- A wake-up, taken apart into its turns. -/
theorem exists_turns_of_wake {gob : Gob Kv} {σ σ₁ : Server n} (hwake : σ.step gob .wake = some σ₁)
    (hcmd : ∀ i e, σ₁.rf.Holds i e → e.command ≠ none) {rf : Raft n Op}
    (hrf : σ₁.rf.applyLogEntryDaemon = some rf) :
    ∃ σ', Relation.ReflTransGen (fun σ σ' => σ.advance gob false = some σ') σ₁ σ' ∧
      σ'.daemon = none ∧ σ'.rf = rf := by
  rw [step] at hwake
  split_ifs at hwake
  cases hwake
  exact exists_turns_of_applyLoop _ _ rfl (by omega) hcmd hrf

end Server

/-! ### Runs -/

/-- The entries up to the commit index, as far as they are not compacted, are those of the log. -/
def Agreed (log : List Op) (rf : Raft n Op) : Prop :=
  ∀ i, rf.snapshotIndex < i → i ≤ rf.commitIndex →
    ∃ operation e, log[i - 1]? = some operation ∧ rf.Holds i e ∧ e.command = some operation

/-- What the rest of the cluster promises: a snapshot received is the state at its index, and what a
handler takes for committed is. -/
def Server.Promised (gob : Gob Kv) (log : List Op) (σ : Server n) : ServerEvent n → Prop
  | .handle handler =>
    (∀ args, handler = .installSnapShot args →
      args.snapshot = gob.encode (Kv.after (log.take args.lastIncludedIndex))) ∧
    ∀ x ∈ handler.run σ.rf, Agreed log x.1
  | _ => True

/-- The condition on a step. The daemon sends a command only when no snapshot waits to be sent that
goes further than what was consumed, and a snapshot is sent only when nothing beyond it was
consumed. -/
def Server.InOrder (σ : Server n) : ServerEvent n → Prop
  | .advance _ => ∀ x ∈ σ.daemon, x.1 ≤ x.2 → σ.rf.snapshotIndex < x.1 →
      ∀ notice ∈ σ.notices, notice.lastIncludedIndex ≤ σ.consumed
  | .notify k => ∀ notice ∈ σ.notices[k]?, σ.consumed ≤ notice.lastIncludedIndex
  | _ => True

instance (σ : Server n) (e : ServerEvent n) : Decidable (σ.InOrder e) :=
  match e with
  | .advance _ => inferInstanceAs (Decidable (∀ x ∈ σ.daemon, x.1 ≤ x.2 →
      σ.rf.snapshotIndex < x.1 → ∀ notice ∈ σ.notices, notice.lastIncludedIndex ≤ σ.consumed))
  | .notify k => inferInstanceAs (Decidable (∀ notice ∈ σ.notices[k]?,
      σ.consumed ≤ notice.lastIncludedIndex))
  | .handle _ | .wake | .compact _ | .restart => .isTrue trivial

/-- The condition that every step meets. -/
def Server.Anyhow (_ : Server n) (_ : ServerEvent n) : Prop := True

/-- A run of the server, newest state first, over the log, all of whose steps meet the condition
`ok`. -/
def Server.Run (gob : Gob Kv) (log : List Op) (ok : Server n → ServerEvent n → Prop) (me : Fin n) :
    List (Server n) → Prop :=
  Trace (Server.init me) fun σ e σ' => σ.Promised gob log e ∧ ok σ e ∧ σ.step gob e = some σ'

/-- **What a handler does**: nothing to the snapshot and to what was applied, or it installs a
snapshot that goes further. -/
theorem Handler.run_cases {rf rf' : Raft n Op} {handler : Handler n} {notice : Option Notice}
    (h : handler.run rf = some (rf', notice)) : notice = none ∧ rf.Steady rf' ∨
    ∃ args, handler = .installSnapShot args ∧
      notice = some ⟨args.lastIncludedIndex, args.snapshot⟩ ∧
      rf.snapshotIndex < args.lastIncludedIndex ∧ rf'.me = rf.me ∧
      rf'.snapshotIndex = args.lastIncludedIndex ∧ rf'.lastApplied = rf.lastApplied ∧
      rf'.persister.snapshot = args.snapshot ∧ rf'.savedIndex = args.lastIncludedIndex := by
  cases handler with
  | requestVote args =>
    obtain ⟨x, hx, heq⟩ := Option.map_eq_some_iff.mp h
    obtain ⟨rfl, rfl⟩ := Prod.mk.inj heq
    exact .inl ⟨rfl, Raft.steady_requestVote hx⟩
  | appendEntries args =>
    obtain ⟨x, hx, heq⟩ := Option.map_eq_some_iff.mp h
    obtain ⟨rfl, rfl⟩ := Prod.mk.inj heq
    exact .inl ⟨rfl, Raft.steady_appendEntries hx⟩
  | installSnapShot args =>
    obtain ⟨⟨rf₁, reply, installed⟩, hx, heq⟩ := Option.map_eq_some_iff.mp h
    obtain ⟨rfl, rfl⟩ := Prod.mk.inj heq
    rcases Raft.installSnapShot_cases hx with ⟨rfl, hsteady⟩ | ⟨rfl, hnew⟩
    · exact .inl ⟨rfl, hsteady⟩
    · exact .inr ⟨args, rfl, rfl, hnew⟩
  | broadCastVote =>
    obtain ⟨x, hx, heq⟩ := Option.map_eq_some_iff.mp h
    obtain ⟨rfl, rfl⟩ := Prod.mk.inj heq
    exact .inl ⟨rfl, Raft.steady_broadCastVote hx⟩
  | sendRequestVoteAndProcess reply =>
    obtain ⟨rfl, rfl⟩ := Prod.mk.inj (Option.some.inj h)
    exact .inl ⟨rfl, Raft.steady_sendRequestVoteAndProcess rf reply⟩
  | sendAppendEntriesAndProcess args server reply =>
    obtain ⟨x, hx, heq⟩ := Option.map_eq_some_iff.mp h
    obtain ⟨rfl, rfl⟩ := Prod.mk.inj heq
    exact .inl ⟨rfl, Raft.steady_sendAppendEntriesAndProcess hx⟩
  | sendSnapShotAndProcess args server reply =>
    obtain ⟨rfl, rfl⟩ := Prod.mk.inj (Option.some.inj h)
    exact .inl ⟨rfl, Raft.steady_sendSnapShotAndProcess rf args server reply⟩
  | start operation =>
    obtain ⟨rfl, rfl⟩ := Prod.mk.inj (Option.some.inj h)
    exact .inl ⟨rfl, Raft.steady_start rf _⟩

/-! ### The invariant -/

section Invariant

variable (gob : Gob Kv) (log : List Op)

/-- The snapshot text is the state at the index. -/
def Snapshots (i : ℕ) (snapshot : List UInt8) : Prop :=
  snapshot = gob.encode (Kv.after (log.take i))

/-- What is saved is the state at the snapshot index, or nothing. -/
def Saved (rf : Raft n Op) : Prop :=
  rf.savedIndex = rf.snapshotIndex ∧ (rf.snapshotIndex = 0 ∧ rf.persister.snapshot = [] ∨
    Snapshots gob log rf.snapshotIndex rf.persister.snapshot)

/-- **The invariant** of the runs in which no snapshot is overtaken. -/
structure Server.Inv (σ : Server n) : Prop where
  kv : σ.kv = Kv.after (log.take σ.consumed)
  agreed : Agreed log σ.rf
  saved : Saved gob log σ.rf
  applied_le : σ.rf.lastApplied ≤ σ.consumed
  consumed_le : σ.consumed ≤ max σ.rf.lastApplied σ.rf.snapshotIndex
  /-- What is compacted was consumed, or is on its way. -/
  covered : σ.rf.snapshotIndex ≤ σ.consumed ∨
    ∃ notice ∈ σ.notices, notice.lastIncludedIndex = σ.rf.snapshotIndex
  notices : ∀ notice ∈ σ.notices, Snapshots gob log notice.lastIncludedIndex notice.snapshot ∧
    notice.lastIncludedIndex ≤ σ.rf.snapshotIndex
  compactions : ∀ call ∈ σ.compactions, Snapshots gob log call.lastIncludedIndex call.snapshot ∧
    call.lastIncludedIndex ≤ σ.consumed
  daemon : ∀ i last, σ.daemon = some (i, last) → σ.rf.lastApplied < i ∧
    i ≤ max σ.rf.lastApplied σ.rf.snapshotIndex + 1 ∧ last ≤ σ.rf.commitIndex

end Invariant

/-! ### What a step keeps -/

namespace Server

variable {gob : Gob Kv} {log : List Op} {σ σ' : Server n}

theorem Inv.handle (h : σ.Inv gob log) {handler : Handler n}
    (hprom : σ.Promised gob log (.handle handler))
    (hstep : σ.step gob (.handle handler) = some σ') : σ'.Inv gob log := by
  rw [step] at hstep
  split at hstep
  · exact nomatch hstep
  next hfree =>
  have hidle : σ.daemon = none := by simpa using hfree
  obtain ⟨⟨rf, notice⟩, hrun, rfl⟩ := Option.map_eq_some_iff.mp hstep
  have hagreed := hprom.2 _ hrun
  rcases Handler.run_cases hrun with ⟨rfl, hs⟩ |
    ⟨args, rfl, rfl, hlt, hme, hsi, hla, hsnap, hsaved⟩
  · obtain ⟨hsv, hsv'⟩ := h.saved
    refine ⟨h.kv, hagreed, ⟨hs.savedIndex hsv, ?_⟩, ?_, ?_, ?_, ?_, h.compactions, ?_⟩
    · rwa [hs.snapshotIndex, hs.snapshot]
    · rw [hs.lastApplied]
      exact h.applied_le
    · rw [hs.lastApplied, hs.snapshotIndex]
      exact h.consumed_le
    · simpa [hs.snapshotIndex] using h.covered
    · simpa [hs.snapshotIndex] using h.notices
    · intro i last hd
      exact nomatch hidle.symm.trans hd
  · -- The snapshot installed goes further than the old one, and is now on its way.
    have htext := hprom.1 args rfl
    refine ⟨h.kv, hagreed, ⟨by rw [hsaved, hsi], .inr ?_⟩, ?_, ?_, .inr ?_, ?_, h.compactions, ?_⟩
    · rw [hsi, hsnap]
      exact htext
    · rw [hla]
      exact h.applied_le
    · rw [hla, hsi]
      have := h.consumed_le
      dsimp only
      omega
    · exact ⟨⟨args.lastIncludedIndex, args.snapshot⟩, by simp, hsi.symm⟩
    · intro c hc
      rw [hsi]
      rcases List.mem_append.mp hc with hc | hc
      · exact ⟨(h.notices c hc).1, by have := (h.notices c hc).2; omega⟩
      · obtain rfl := List.mem_singleton.mp hc
        exact ⟨htext, Nat.le_refl _⟩
    · intro i last hd
      exact nomatch hidle.symm.trans hd

theorem Inv.wake (h : σ.Inv gob log) (hstep : σ.step gob .wake = some σ') : σ'.Inv gob log := by
  rw [step] at hstep
  split at hstep
  · exact nomatch hstep
  obtain rfl := Option.some.inj hstep
  refine ⟨h.kv, h.agreed, h.saved, h.applied_le, h.consumed_le, h.covered, h.notices,
    h.compactions, ?_⟩
  intro i last hd
  obtain ⟨rfl, rfl⟩ := Prod.mk.inj (Option.some.inj hd)
  exact ⟨Nat.lt_succ_self _, by dsimp only; omega, Nat.le_refl _⟩

/-- **A command is consumed** when all that comes before it has been. -/
theorem Inv.advance (h : σ.Inv gob log) {compact : Bool} (hord : σ.InOrder (.advance compact))
    (hstep : σ.advance gob compact = some σ') : σ'.Inv gob log := by
  rw [Server.advance] at hstep
  split at hstep
  · exact nomatch hstep
  next i last hd =>
  obtain ⟨hlow, hhigh, hlast⟩ := h.daemon i last hd
  split at hstep
  · obtain rfl := Option.some.inj hstep
    exact ⟨h.kv, h.agreed, h.saved, h.applied_le, h.consumed_le, h.covered, h.notices,
      h.compactions, nofun⟩
  next hend =>
  split at hstep
  · next hsnap =>
    obtain rfl := Option.some.inj hstep
    refine ⟨h.kv, h.agreed, h.saved, h.applied_le, h.consumed_le, h.covered, h.notices,
      h.compactions, ?_⟩
    intro j last' hd'
    obtain ⟨rfl, rfl⟩ := Prod.mk.inj (Option.some.inj hd')
    exact ⟨by dsimp only; omega, by dsimp only; omega, hlast⟩
  next hsnap =>
  -- Nothing further is on its way, so the snapshot has been consumed and `i` is the next index.
  have hsi : σ.rf.snapshotIndex ≤ σ.consumed := by
    rcases h.covered with hle | ⟨notice, hmem, heq⟩
    · exact hle
    · rw [← heq]
      exact hord (i, last) hd (by dsimp only; omega) (by dsimp only; omega) notice hmem
  have hnext : i = σ.consumed + 1 := by
    have := h.consumed_le
    have := h.applied_le
    omega
  obtain ⟨operation, e, hget, hholds, hcmd⟩ := h.agreed i (by omega) (by omega)
  have hentry : goIndex σ.rf.logs (σ.rf.logIdxGlobal2Local i) = some e := hholds.2
  rw [hentry] at hstep
  obtain ⟨kv, hdeal, rfl⟩ := Option.map_eq_some_iff.mp hstep
  have hlog : log[σ.consumed]? = some operation := by
    rw [hnext] at hget
    exact hget
  have hkv : kv = Kv.after (log.take i) := by
    rw [hnext, Kv.after_take_succ hlog, ← h.kv]
    simpa [Kv.dealWithApplyMsg, hcmd] using hdeal.symm
  have hmax : max σ.consumed i = i := by omega
  refine ⟨?_, h.agreed, h.saved, ?_, ?_, .inl ?_, h.notices, ?_, ?_⟩
  · rw [hmax]
    exact hkv
  · exact Nat.le_max_right _ _
  · rw [hmax]
    exact Nat.le_max_left _ _
  · exact hsi.trans (Nat.le_max_left _ _)
  · intro call hcall
    rcases List.mem_append.mp hcall with hcall | hcall
    · exact ⟨(h.compactions call hcall).1, le_max_of_le_left (h.compactions call hcall).2⟩
    · split at hcall
      · obtain rfl := List.mem_singleton.mp hcall
        exact ⟨by rw [Snapshots, hkv], Nat.le_max_right _ _⟩
      · exact nomatch hcall
  · intro j last' hd'
    obtain ⟨rfl, rfl⟩ := Prod.mk.inj (Option.some.inj hd')
    exact ⟨Nat.lt_succ_self _, by dsimp only; omega, hlast⟩

theorem mem_eraseIdx_or {β : Type*} {l : List β} {k : ℕ} {x : β} (h : x ∈ l) :
    x ∈ l.eraseIdx k ∨ l[k]? = some x := by
  obtain ⟨j, hj⟩ := List.mem_iff_getElem?.mp h
  rcases eq_or_ne j k with rfl | hne
  · exact .inr hj
  · refine .inl ?_
    rw [List.mem_eraseIdx_iff_getElem?]
    exact ⟨j, hne, hj⟩

/-- **A snapshot is consumed** when nothing beyond it has been. -/
theorem Inv.notify (h : σ.Inv gob log) {k : ℕ} (hord : σ.InOrder (.notify k))
    (hstep : σ.notify gob k = some σ') : σ'.Inv gob log := by
  rw [Server.notify] at hstep
  split at hstep
  · exact nomatch hstep
  next notice hget =>
  obtain ⟨htext, hle⟩ := h.notices notice (List.mem_of_getElem? hget)
  have hnew : σ.consumed ≤ notice.lastIncludedIndex := hord notice hget
  have hne : notice.snapshot ≠ [] := htext ▸ gob.encode_ne_nil _
  rw [if_neg hne] at hstep
  obtain ⟨kv, hdeal, rfl⟩ := Option.map_eq_some_iff.mp hstep
  have hkv : kv = Kv.after (log.take notice.lastIncludedIndex) := by
    have hdec : gob.decode notice.snapshot = kv := by simpa [Kv.dealWithApplyMsg] using hdeal
    rw [← hdec, htext, gob.decode_encode]
  have hmax : max σ.consumed notice.lastIncludedIndex = notice.lastIncludedIndex := by omega
  rw [Raft.notifyAppUseNewSnapShot, if_neg hne]
  refine ⟨?_, h.agreed, h.saved, le_max_of_le_left h.applied_le, ?_, ?_, ?_, ?_, h.daemon⟩
  · rw [hmax]
    exact hkv
  · rw [hmax]
    exact le_max_of_le_right hle
  · rcases h.covered with hcov | ⟨notice', hmem, heq⟩
    · exact .inl (le_max_of_le_left hcov)
    · rcases mem_eraseIdx_or (k := k) hmem with hmem | hget'
      · exact .inr ⟨notice', hmem, heq⟩
      · obtain rfl := Option.some.inj (hget.symm.trans hget')
        exact .inl (by rw [hmax, heq])
  · intro notice' hmem
    exact h.notices notice' (List.mem_of_mem_eraseIdx hmem)
  · intro call hcall
    exact ⟨(h.compactions call hcall).1, le_max_of_le_left (h.compactions call hcall).2⟩

/-- **`Compact`** moves the snapshot to an index that was consumed. -/
theorem Inv.compact (h : σ.Inv gob log) {k : ℕ} (hstep : σ.step gob (.compact k) = some σ') :
    σ'.Inv gob log := by
  rw [step] at hstep
  split at hstep
  · exact nomatch hstep
  next hfree =>
  have hidle : σ.daemon = none := by simpa using hfree
  split at hstep
  · exact nomatch hstep
  next call hget =>
  obtain ⟨htext, hle⟩ := h.compactions call (List.mem_of_getElem? hget)
  have hrest : ∀ c ∈ σ.compactions.eraseIdx k, Snapshots gob log c.lastIncludedIndex c.snapshot ∧
      c.lastIncludedIndex ≤ σ.consumed := fun c hc =>
    h.compactions c (List.mem_of_mem_eraseIdx hc)
  obtain ⟨rf, hrun, rfl⟩ := Option.map_eq_some_iff.mp hstep
  rcases Raft.compact_cases hrun with rfl | ⟨hlt, -, hsi, hla, hci, hsnap, hsaved, hentry⟩
  · exact ⟨h.kv, h.agreed, h.saved, h.applied_le, h.consumed_le, h.covered, h.notices, hrest,
      h.daemon⟩
  refine ⟨h.kv, ?_, ⟨by rw [hsaved, hsi], .inr ?_⟩, ?_, ?_, .inl ?_, ?_, hrest, ?_⟩
  · intro i hi hic
    rw [hsi] at hi
    obtain ⟨operation, e, hop, hholds, hcmd⟩ := h.agreed i (by omega) (hci ▸ hic)
    exact ⟨operation, e, hop, ⟨hsi ▸ hi, (hentry i hi).trans hholds.2⟩, hcmd⟩
  · rw [hsi, hsnap]
    exact htext
  · rw [hla]
    exact h.applied_le
  · rw [hla, hsi]
    have := h.consumed_le
    dsimp only
    omega
  · rw [hsi]
    exact hle
  · intro notice hmem
    rw [hsi]
    exact ⟨(h.notices notice hmem).1, ((h.notices notice hmem).2.trans hlt.le)⟩
  · intro i last hd
    exact nomatch hidle.symm.trans hd

/-- **A restart** begins with the snapshot that was saved. -/
theorem Inv.restart (h : σ.Inv gob log) (hstep : σ.step gob .restart = some σ') :
    σ'.Inv gob log := by
  rw [step, boot] at hstep
  obtain ⟨kv, hkv, rfl⟩ := Option.map_eq_some_iff.mp hstep
  obtain ⟨hpers, hci, hla, hsi, hch, -⟩ := Raft.make_fields σ.rf.me σ.rf.persister
  obtain ⟨hsaved, htext⟩ := h.saved
  have hindex : (Raft.make σ.rf.me σ.rf.persister).savedIndex = σ.rf.savedIndex := by
    rw [Raft.savedIndex, hpers]
    rfl
  have hsnap : (Raft.make σ.rf.me σ.rf.persister).snapshotIndex = σ.rf.snapshotIndex :=
    hsi.trans hsaved
  -- The state at the saved index is there at once: empty, or decoded.
  have hboot : kv = Kv.after (log.take (Raft.make σ.rf.me σ.rf.persister).snapshotIndex) ∧
      (if (Raft.make σ.rf.me σ.rf.persister).applyCh = [] then 0
        else (Raft.make σ.rf.me σ.rf.persister).snapshotIndex) =
          (Raft.make σ.rf.me σ.rf.persister).snapshotIndex := by
    rw [hch] at hkv ⊢
    rw [hsnap]
    rcases htext with ⟨hzero, hnil⟩ | htext
    · rw [hnil] at hkv ⊢
      rw [hzero]
      exact ⟨(Option.some.inj hkv).symm, rfl⟩
    · have hne : σ.rf.persister.snapshot ≠ [] := htext ▸ gob.encode_ne_nil _
      simp only [if_neg hne, List.cons_ne_nil, if_false, and_true] at hkv ⊢
      have hdec : gob.decode σ.rf.persister.snapshot = kv := by
        simpa [Kv.dealWithApplyMsg] using hkv
      rw [← hdec, htext, gob.decode_encode]
  refine ⟨?_, ?_, ⟨?_, ?_⟩, ?_, ?_, .inl ?_, nofun, nofun, nofun⟩
  · dsimp only
    rw [hboot.2]
    exact hboot.1
  · intro i _ hi
    rw [hci] at hi
    omega
  · rw [hindex, hsaved, hsnap]
  · rwa [hsnap, hpers]
  · rw [hla]
    exact Nat.zero_le _
  · dsimp only
    rw [hboot.2]
    exact Nat.le_max_right _ _
  · exact hboot.2.ge

theorem Inv.step (h : σ.Inv gob log) {e : ServerEvent n} (hprom : σ.Promised gob log e)
    (hord : σ.InOrder e) (hstep : σ.step gob e = some σ') : σ'.Inv gob log := by
  cases e with
  | handle handler => exact h.handle hprom hstep
  | wake => exact h.wake hstep
  | advance compact => exact h.advance hord hstep
  | notify k => exact h.notify hord hstep
  | compact k => exact h.compact hstep
  | restart => exact h.restart hstep

theorem inv_init (gob : Gob Kv) (log : List Op) (me : Fin n) : (init me).Inv gob log where
  kv := rfl
  agreed i hi hle := absurd hle (by simp [init, Raft.make_fields]; omega)
  saved := ⟨rfl, .inl ⟨rfl, rfl⟩⟩
  applied_le := Nat.le_refl _
  consumed_le := Nat.zero_le _
  covered := .inl (Nat.le_refl _)
  notices := nofun
  compactions := nofun
  daemon := nofun

end Server

/-! ### Two orders -/

/-- The state after an event that can happen. -/
def Server.next (gob : Gob Kv) (σ : Server n) (e : ServerEvent n) : Server n :=
  (σ.step gob e).getD σ

theorem Server.Run.next {gob : Gob Kv} {log : List Op} {ok : Server n → ServerEvent n → Prop}
    {me : Fin n} {σ : Server n} {τ : List (Server n)} (h : Server.Run gob log ok me (σ :: τ))
    {e : ServerEvent n} (hprom : σ.Promised gob log e) (hok : ok σ e)
    (hstep : (σ.step gob e).isSome = true) : Server.Run gob log ok me (σ.next gob e :: σ :: τ) := by
  refine Trace.step h ⟨hprom, hok, ?_⟩
  obtain ⟨σ', hσ'⟩ := Option.isSome_iff_exists.mp hstep
  rw [Server.next, hσ', Option.getD_some]

/-- A log of two commands. -/
def twoCommands : List Op := [⟨.put, "x", "1", 7, 0⟩, ⟨.append, "x", "2", 7, 1⟩]

/-- The leader, server 1 of three, sends a snapshot of the first command. -/
def twoSnapshot : Handler 3 :=
  .installSnapShot ⟨1, 1, 1, 1, (Gob.unary Kv).encode (Kv.after (twoCommands.take 1))⟩

/-- The leader sends the second command, and that it is committed. -/
def twoAppend : Handler 3 :=
  .appendEntries ⟨1, 1, 1, 1, [⟨2, 1, some ⟨.append, "x", "2", 7, 1⟩⟩], 2⟩

/-- Server 0 has handled the snapshot. -/
def twoInstalled : Server 3 := (Server.init 0).next (Gob.unary Kv) (.handle twoSnapshot)

theorem promised_twoSnapshot :
    (Server.init 0).Promised (Gob.unary Kv) twoCommands (.handle twoSnapshot) := by
  refine ⟨?_, fun x hx i _ hi => ?_⟩
  · rintro args ⟨⟩
    rfl
  · have hci : ∀ x ∈ twoSnapshot.run (Server.init (0 : Fin 3)).rf, x.1.commitIndex = 0 := by
      decide +kernel
    have := hci x hx
    omega

/-- The second command is as promised, before the snapshot is sent and after. -/
theorem promised_twoAppend {σ : Server 3}
    (h : ∀ x ∈ twoAppend.run σ.rf, x.1.snapshotIndex = 1 ∧ x.1.commitIndex = 2 ∧
      x.1.entryAt 2 = some ⟨2, 1, some ⟨.append, "x", "2", 7, 1⟩⟩) :
    σ.Promised (Gob.unary Kv) twoCommands (.handle twoAppend) := by
  refine ⟨nofun, fun x hx i hlt hle => ?_⟩
  obtain ⟨hsi, hci, hentry⟩ := h x hx
  obtain rfl : i = 2 := by omega
  exact ⟨_, _, rfl, ⟨hlt, hentry⟩, rfl⟩

theorem run_twoInstalled (ok : Server 3 → ServerEvent 3 → Prop) (hok : ∀ σ h, ok σ (.handle h)) :
    Server.Run (Gob.unary Kv) twoCommands ok 0 [twoInstalled, Server.init 0] :=
  Server.Run.next Trace.start promised_twoSnapshot (hok _ _) (by decide +kernel)

/-- **Commands and snapshots in order.** In every run in which no snapshot is overtaken, the store
is the result of the commands up to the largest index consumed. -/
theorem apply_in_order {gob : Gob Kv} {log : List Op} {me : Fin n} {τ : List (Server n)}
    (h : Server.Run gob log Server.InOrder me τ) {σ : Server n} (hσ : σ ∈ τ) :
    σ.kv = Kv.after (log.take σ.consumed) := by
  have hinv : ∀ σ ∈ τ, σ.Inv gob log :=
    Trace.invariant (Server.inv_init gob log me)
      (fun _ _ _ hi hn => hi.step hn.1 hn.2.1 hn.2.2) h
  exact (hinv σ hσ).kv

/-- The snapshot is sent, and then the second command. -/
theorem apply_in_order_two : ∃ τ : List (Server 3),
    Server.Run (Gob.unary Kv) twoCommands Server.InOrder 0 τ ∧
      ∃ σ ∈ τ, σ.consumed = 2 ∧ σ.kv = Kv.after twoCommands := by
  have h₁ := (run_twoInstalled Server.InOrder fun _ _ => trivial).next (e := .notify 0) trivial
    (by decide +kernel) (by decide +kernel)
  have h₂ := h₁.next (e := .handle twoAppend) (promised_twoAppend (by decide +kernel)) trivial
    (by decide +kernel)
  have h₃ := h₂.next (e := .wake) trivial trivial (by decide +kernel)
  have h₄ := h₃.next (e := .advance false) trivial (by decide +kernel) (by decide +kernel)
  have h₅ := h₄.next (e := .advance false) trivial (by decide +kernel) (by decide +kernel)
  have hkv := apply_in_order h₅ List.mem_cons_self
  exact ⟨_, h₅, _, List.mem_cons_self, by decide +kernel,
    hkv.trans (congrArg Kv.after (by decide +kernel))⟩

/-- The snapshot is overtaken by the second command. -/
theorem snapshot_overtaken : ∃ τ : List (Server 3),
    Server.Run (Gob.unary Kv) twoCommands Server.Anyhow 0 τ ∧
      ∃ σ ∈ τ, σ.kv ≠ Kv.after (twoCommands.take σ.consumed) := by
  have h₁ := (run_twoInstalled Server.Anyhow fun _ _ => trivial).next
    (e := .handle twoAppend) (promised_twoAppend (by decide +kernel)) trivial (by decide +kernel)
  have h₂ := h₁.next (e := .wake) trivial trivial (by decide +kernel)
  have h₃ := h₂.next (e := .advance false) trivial trivial (by decide +kernel)
  have h₄ := h₃.next (e := .advance false) trivial trivial (by decide +kernel)
  refine ⟨_, h₄, _, List.mem_cons_self, fun heq => ?_⟩
  exact absurd (congrArg (fun kv => kv.kvdb.lookup "x") heq) (by decide +kernel)

end RaftKVDB
