import RaftKVDB.Kv.ServiceRun
import RaftKVDB.Kv.System
import RaftKVDB.Raft.Durable
import RaftKVDB.Raft.Origin

/-!
# What Raft promises the servers

In the whole system the peers take the steps that they take in a cluster, with two differences. A
wake-up of the apply daemon is not one step but a step for each turn of its loop, and what `Start`,
`Compact` and a snapshot do to a peer is part of a step of the process. The invariants of
`Raft/Simulation` and `Raft/Commit` hold here as well, and with them there is one list of commands,
fixed for the whole run, of which every server has a part: whatever a server takes for committed, at
any moment, is in it.

## Main results

* `Sim.hand`, `Safe.hand` — a turn of the apply daemon
* `System.Tracks.step` — the peers of the system follow the protocol
* `System.Run.agreed` — there is one log
-/

namespace RaftKVDB

open Foundations Cluster

/-! ### A turn of the apply daemon -/

section Hand

variable {n : ℕ} {α : Type*} {σ : Cluster n α} {a : Protocol n α} {p : Fin n} {rf : Raft n α}

/-- The peer has handed `msgs` to its application. -/
def Raft.hand (rf : Raft n α) (commitCh lastApplied : ℕ) (msgs : List (ApplyMsg α)) : Raft n α :=
  { rf with commitCh := commitCh, applyCh := rf.applyCh ++ msgs, lastApplied := lastApplied }

theorem Sim.hand (h : Sim σ a) (p : Fin n) (cc la : ℕ) (msgs : List (ApplyMsg α)) :
    Sim (σ.setPeer p ((σ.peers p).hand cc la msgs)) a :=
  h.setPeer .refl (Frame.refl a p) ((h.peer p).congr rfl rfl rfl rfl (h.peer p).log)
    (h.persisted p) h.numbered fun hs => ⟨hs, rfl, rfl⟩

/-- What a peer holds up to its commit index is committed. -/
theorem PeerSafe.committedMsg (h : PeerSafe a p rf) (hlog : rf.Represents (a.log p)) {i : ℕ}
    {e : LogEntry α} (he : rf.Holds i e) (hi : i ≤ rf.commitIndex) :
    CommittedMsg a ⟨i, e.command, true, []⟩ := by
  obtain ⟨hsnap, hget⟩ := hlog.holds_iff.mp he
  refine ⟨Nat.zero_lt_of_lt hsnap, ?_⟩
  rcases h.commit with hzero | ⟨u, k, -, hcom, hk, hpre⟩
  · omega
  · refine ⟨u, k, e, hcom, hi.trans hk, ?_, rfl⟩
    have hlen := hcom.le_length
    dsimp only
    rw [← hget, ← getElem?_of_isPrefix hpre (by rw [List.length_take]; omega),
      List.getElem?_take_of_lt (by omega)]

theorem Safe.hand (h : Safe σ a) (hsim : Sim σ a) (cc la : ℕ) {msgs : List (ApplyMsg α)}
    (hmsgs : ∀ m ∈ msgs, m.commandIndex ≤ (σ.peers p).commitIndex ∧ CommittedMsg a m) :
    Safe (σ.setPeer p ((σ.peers p).hand cc la msgs)) a := by
  have hpeer := h.peer p
  refine h.act hsim (hsim.hand p cc la msgs) (.refl a)
    ⟨hpeer.commit, hpeer.snapshot, fun m hm hv => ?_, hpeer.compacted, hpeer.matched,
      hpeer.matched_le⟩ (Nat.le_refl _) fun _ hc => .inl hc
  rcases List.mem_append.mp hm with hm | hm
  · exact hpeer.applied m hm hv
  · exact hmsgs m hm

theorem Raft.Known.hand {P : LogEntry α → Prop} (h : rf.Known P) (cc la : ℕ)
    {msgs : List (ApplyMsg α)} (hmsgs : ∀ m ∈ msgs, ∃ e, P e ∧ e.globalIndex = m.commandIndex ∧
      e.command = m.command) : (rf.hand cc la msgs).Known P := by
  refine ⟨h.logs, h.saved, fun m hm hv => ?_⟩
  rcases List.mem_append.mp hm with hm | hm
  · exact h.delivered m hm hv
  · exact hmsgs m hm

end Hand

/-! ### What a peer carries along -/

namespace Raft

variable {n : ℕ} {α : Type*} {rf rf' rf'' : Raft n α}

/-- Within an incarnation, what was sent to the application stays sent; and `nextIndex` is never
`0`. -/
structure Carries (rf rf' : Raft n α) : Prop where
  applyCh : rf.applyCh <+: rf'.applyCh
  nextIndex : (∀ q, 0 < rf.nextIndex q) → ∀ q, 0 < rf'.nextIndex q

theorem Carries.refl (rf : Raft n α) : rf.Carries rf := ⟨List.prefix_rfl, id⟩

/-- Nothing of it changed. -/
theorem Carries.of_eq (hch : rf'.applyCh = rf.applyCh) (hnext : rf'.nextIndex = rf.nextIndex) :
    rf.Carries rf' :=
  ⟨hch ▸ List.prefix_rfl, fun h => hnext ▸ h⟩

theorem Carries.persistIf (h : rf.Carries rf') (change : Bool) :
    rf.Carries (rf'.persistIf change) := by
  cases change with
  | true => exact ⟨h.applyCh, h.nextIndex⟩
  | false => exact h

theorem carries_seeTerm (rf : Raft n α) (t : ℕ) : rf.Carries (rf.seeTerm t) := by
  obtain ⟨v, s, c, heq⟩ := seeTerm_eq rf t
  rw [heq]
  exact .of_eq rfl rfl

theorem carries_followLeader (rf : Raft n α) (t : ℕ) : rf.Carries (rf.followLeader t) := by
  obtain ⟨v, c, heq, -⟩ := followLeader_eq rf t
  rw [heq]
  exact .of_eq rfl rfl

theorem carries_requestVote {args : RequestVoteArgs n} {reply : RequestVoteReply}
    (h : rf.requestVote args = some (rf', reply)) : rf.Carries rf' := by
  have hsee := carries_seeTerm rf args.term
  rcases requestVote_outcome h with rfl | ⟨change, rfl⟩ | rfl
  · exact .refl rf'
  · exact hsee.persistIf change
  · exact ⟨hsee.applyCh, hsee.nextIndex⟩

theorem carries_appendEntries {args : AppendEntriesArgs n α} {reply : AppendEntriesReply}
    (h : rf.appendEntries args = some (rf', reply)) : rf.Carries rf' := by
  have hfol := carries_followLeader rf args.term
  rcases appendEntries_outcome h with ⟨rfl, -⟩ | ⟨-, ⟨change, rfl⟩ | ⟨logs, change, rfl⟩⟩
  · exact .refl rf'
  · exact hfol.persistIf change
  · refine Carries.persistIf ?_ change
    rw [followCommit]
    split
    · exact ⟨hfol.applyCh, hfol.nextIndex⟩
    · exact ⟨hfol.applyCh, hfol.nextIndex⟩

theorem carries_installSnapShot {args : InstallSnapshotArgs n} {reply : InstallSnapshotReply}
    {installed : Bool} (h : rf.installSnapShot args = some (rf', reply, installed)) :
    rf.Carries rf' := by
  have hfol := carries_followLeader rf args.term
  rcases installSnapShot_outcome h with
    ⟨-, rfl | ⟨change, rfl⟩⟩ | ⟨-, -, logs, rfl⟩
  · exact .refl rf'
  · exact hfol.persistIf change
  · exact ⟨hfol.applyCh, hfol.nextIndex⟩

theorem carries_broadCastVote {sent : Option (RequestVoteArgs n)}
    (h : rf.broadCastVote = some (rf', sent)) : rf.Carries rf' := by
  rw [broadCastVote] at h
  dsimp only at h
  repeat' split at h
  all_goals first | cases h; done | obtain ⟨rfl, -⟩ := Prod.mk.inj (Option.some.inj h)
  · exact .refl rf
  · exact .of_eq rfl rfl

theorem carries_sendRequestVoteAndProcess (rf : Raft n α) (reply : RequestVoteReply) :
    rf.Carries (rf.sendRequestVoteAndProcess reply) := by
  rw [sendRequestVoteAndProcess]
  dsimp only
  repeat' split
  · exact .refl rf
  · exact .of_eq rfl rfl
  · exact ⟨List.prefix_rfl, fun _ _ => Nat.succ_pos _⟩
  · exact .of_eq rfl rfl
  · exact .refl rf

/-- One `nextIndex` is set. -/
theorem pos_update {f : Fin n → ℕ} {p : Fin n} {i : ℕ} (h : ∀ q, 0 < f q) (hi : 0 < i) (q : Fin n) :
    0 < Function.update f p i q := by
  rcases eq_or_ne q p with rfl | hne
  · rwa [Function.update_self]
  · rw [Function.update_of_ne hne]
    exact h q

theorem carries_sendAppendEntriesAndProcess {args : AppendEntriesArgs n α} {server : Fin n}
    {reply : AppendEntriesReply}
    (h : rf.sendAppendEntriesAndProcess args server reply = some rf') : rf.Carries rf' := by
  rcases sendAppendEntriesAndProcess_cases h with
    rfl | ⟨-, rfl⟩ | ⟨-, -, -, rfl⟩ | ⟨-, -, -, -, ci, cc, rfl, -⟩
  · exact .refl rf'
  · exact .of_eq rfl rfl
  · exact ⟨List.prefix_rfl, fun hpos => pos_update hpos (by omega)⟩
  · exact ⟨List.prefix_rfl, fun hpos => pos_update hpos (by omega)⟩

theorem carries_sendSnapShotAndProcess (rf : Raft n α) (args : InstallSnapshotArgs n)
    (server : Fin n) (reply : InstallSnapshotReply) :
    rf.Carries (rf.sendSnapShotAndProcess args server reply) := by
  rw [sendSnapShotAndProcess]
  repeat' split
  · exact .refl rf
  · exact .of_eq rfl rfl
  · exact ⟨List.prefix_rfl, fun hpos => pos_update hpos (by omega)⟩
  · exact .refl rf

theorem carries_start (rf : Raft n α) (command : Option α) : rf.Carries (rf.start command).1 := by
  rw [start]
  dsimp only
  split
  · exact ⟨List.prefix_rfl, fun hpos => pos_update hpos (by omega)⟩
  · exact .refl rf

theorem carries_compact {cmdIndex : ℕ} {snapshot : List UInt8}
    (h : rf.compact cmdIndex snapshot = some rf') : rf.Carries rf' := by
  rw [compact] at h
  dsimp only at h
  repeat' split at h
  all_goals first | cases h; done | obtain rfl := Option.some.inj h
  · exact .refl rf
  · exact .refl rf
  · exact .of_eq rfl rfl

theorem carries_notify (rf : Raft n α) (snapshot : List UInt8) :
    rf.Carries (rf.notifyAppUseNewSnapShot snapshot) := by
  rw [notifyAppUseNewSnapShot]
  split
  · exact .refl rf
  · exact ⟨List.prefix_append _ _, id⟩

theorem nextIndex_make (me : Fin n) (persister : Persister n α) (q : Fin n) :
    0 < (make me persister).nextIndex q := by
  have hnotify : ∀ (r : Raft n α) (s : List UInt8),
      (r.notifyAppUseNewSnapShot s).nextIndex = r.nextIndex := by
    intro r s
    rw [notifyAppUseNewSnapShot]
    split <;> rfl
  rw [make, hnotify, dePersistState]
  split <;> exact Nat.one_pos

end Raft

/-- Every step of a peer but a restart carries it along. -/
theorem Cluster.PeerStep.carries {n : ℕ} {α : Type*} {σ : Cluster n α} {a : Protocol n α}
    {p : Fin n} {e : Event n α} {rf : Raft n α} (h : PeerStep σ p e rf) (hsim : Sim σ a)
    (hne : ∀ q, e ≠ .restart q) : (σ.peers p).Carries rf := by
  cases h with
  | idle => exact .refl _
  | broadCastVote hrun => exact Raft.carries_broadCastVote hrun
  | start command => exact Raft.carries_start _ command
  | compact hrun => exact Raft.carries_compact hrun
  | apply hrun =>
    have hlog : ({ σ.peers p with commitCh := (σ.peers p).commitCh - 1 } : Raft n α).Represents
      (a.log p) := (hsim.peer p).log
    obtain ⟨msgs, la, rfl, -⟩ := hlog.applyLoop_eq _ _ hrun
    exact ⟨List.prefix_append _ _, id⟩
  | requestVote hrun => exact Raft.carries_requestVote hrun
  | appendEntries hrun => exact Raft.carries_appendEntries hrun
  | installSnapShot hrun => exact Raft.carries_installSnapShot hrun
  | notify snapshot => exact Raft.carries_notify _ snapshot
  | processVote reply => exact Raft.carries_sendRequestVoteAndProcess _ reply
  | processAppend _ _ _ hrun => exact Raft.carries_sendAppendEntriesAndProcess hrun
  | processSnapShot => exact Raft.carries_sendSnapShotAndProcess _ _ _ _
  | restart => exact absurd rfl (hne p)

theorem delivered_of_carries {n : ℕ} {α : Type*} {rf rf' : Raft n α} (h : rf.Carries rf') {i : ℕ}
    (hdel : delivered rf i = true) : delivered rf' i = true := by
  obtain ⟨m, hm, hval⟩ := List.any_eq_true.mp hdel
  exact List.any_eq_true.mpr ⟨m, h.applyCh.subset hm, hval⟩

/-! ### What the clerks and the handlers of `Get` and `PutAppend` leave alone -/

/-- A turn of a handler does not touch the store or `sending`. -/
theorem KVServer.Turned.same {kv kv' : KVServer} {args : Args} {pc pc' : Pc} {t : Turn}
    (h : kv.Turned args pc t kv' pc') : kv'.kv = kv.kv ∧ kv'.sending = kv.sending := by
  cases h with
  | stub raftIdx =>
    rw [KVServer.stub]
    split <;> exact ⟨rfl, rfl⟩
  | _ => exact ⟨rfl, rfl⟩

namespace Service

variable {n : ℕ} {σ σ' : Service n} {c k : ℕ}

/-- Nothing was given to a server, and nobody began to send a `DoneMsg`. -/
structure Idle (σ σ' : Service n) : Prop where
  log : σ'.log = σ.log
  started : σ.started ⊆ σ'.started
  consumed : σ'.consumed = σ.consumed
  kv : ∀ s, (σ'.servers s).kv = (σ.servers s).kv
  sending : ∀ s, (σ'.servers s).sending.isSome = true → (σ.servers s).sending.isSome = true

/-- Only the clerks, their calls and what they saw changed. -/
theorem Idle.of_eq (hlog : σ'.log = σ.log) (hstarted : σ'.started = σ.started)
    (hconsumed : σ'.consumed = σ.consumed) (hservers : σ'.servers = σ.servers) : σ.Idle σ' where
  log := hlog
  started := hstarted ▸ List.Subset.refl _
  consumed := hconsumed
  kv s := by rw [hservers]
  sending s := by rw [hservers]; exact id

/-- One server changed, but not its store. -/
theorem Idle.setServer {s : Fin n} {kv : KVServer} (hkv : kv.kv = (σ.servers s).kv)
    (hsending : kv.sending.isSome = true → (σ.servers s).sending.isSome = true) :
    σ.Idle (σ.setServer s kv (σ.consumed s)) where
  log := rfl
  started := List.Subset.refl _
  consumed := Function.update_eq_self s σ.consumed
  kv s' := by
    rcases eq_or_ne s' s with rfl | hne
    · rw [servers_setServer_self, hkv]
    · rw [servers_setServer_of_ne hne]
  sending s' := by
    rcases eq_or_ne s' s with rfl | hne
    · rwa [servers_setServer_self]
    · rw [servers_setServer_of_ne hne]
      exact id

theorem idle_invoke {request : Request} (h : σ.invoke c request = .ok σ') : σ.Idle σ' := by
  rw [invoke] at h
  split at h
  · cases h
  · cases h
    exact .of_eq rfl rfl rfl rfl

theorem idle_send (h : σ.send c = .ok σ') : σ.Idle σ' := by
  rw [send] at h
  dsimp only at h
  split at h
  · cases h
    exact .of_eq rfl rfl rfl rfl
  · cases h

theorem idle_receive [NeZero n] (h : σ.receive c = .ok σ') : σ.Idle σ' := by
  rw [receive] at h
  dsimp only at h
  repeat' split at h
  all_goals cases h
  all_goals exact .of_eq rfl rfl rfl rfl

theorem idle_giveUp [NeZero n] (h : σ.giveUp c = .ok σ') : σ.Idle σ' := by
  rw [giveUp] at h
  split at h
  · cases h
    exact .of_eq rfl rfl rfl rfl
  · cases h

theorem idle_serve (h : σ.serve k = .ok σ') : σ.Idle σ' := by
  rw [serve] at h
  repeat' split at h
  all_goals cases h
  exact .of_eq rfl rfl rfl rfl

theorem turn_eq_ok {t : Turn} (h : σ.turn k t = .ok σ') : ∃ call pc kv pc',
    σ.calls[k]? = some call ∧ call.pc = some pc ∧ call.epoch = σ.epoch call.server ∧
    (σ.servers call.server).turn call.args pc t = .ok (kv, pc') ∧
    σ' = { (σ.setServer call.server kv (σ.consumed call.server)).setCall k
        { call with pc := some pc' } with started := σ.started ++ call.args.starts pc t } := by
  rw [turn] at h
  split at h
  · next call hk =>
    split at h
    · next pc hpc =>
      split_ifs at h with hepoch
      obtain ⟨⟨kv, pc'⟩, hturn, h⟩ := bind_eq_ok.mp h
      cases h
      exact ⟨call, pc, kv, pc', hk, hpc, not_not.mp hepoch, hturn, rfl⟩
    · cases h
  · cases h

theorem idle_turn {t : Turn} (h : σ.turn k t = .ok σ') : σ.Idle σ' := by
  obtain ⟨call, pc, kv, pc', -, -, -, hturn, rfl⟩ := turn_eq_ok h
  obtain ⟨hkv, hsending⟩ := (KVServer.turned hturn).same
  have hidle : σ.Idle (σ.setServer call.server kv (σ.consumed call.server)) :=
    .setServer hkv (hsending ▸ id)
  exact ⟨hidle.log, List.subset_append_left _ _, hidle.consumed, hidle.kv, hidle.sending⟩

theorem idle_finishApply {s : Fin n} (h : σ.finishApply s = .ok σ') : σ.Idle σ' ∧
    (σ.servers s).sending.isSome = true ∧ (σ'.servers s).sending = none := by
  obtain ⟨kv, hfin, h⟩ := bind_eq_ok.mp h
  cases h
  rw [KVServer.finishApplyMsg] at hfin
  split at hfin
  · cases hfin
  next ch doneMsg hs =>
  obtain ⟨done, -, hfin⟩ := bind_eq_ok.mp hfin
  cases hfin
  refine ⟨.setServer rfl (by simp), by rw [hs]; rfl, ?_⟩
  rw [servers_setServer_self]

end Service

/-! ### The peers follow the protocol -/

variable {n : ℕ} {net net' : Cluster n Op} {started : List Op} {a : Protocol n Op} {p : Fin n}

/-- The peers of a system: related to the protocol, with entries from clients only. -/
structure NetOk (net : Cluster n Op) (started : List Op) (a : Protocol n Op) : Prop where
  sim : Sim net a
  safe : Safe net a
  known : net.Known fun e => ∃ operation ∈ started, e.command = some operation
  next : ∀ p q, 0 < (net.peers p).nextIndex q

namespace NetOk

theorem mono {started' : List Op} (h : NetOk net started a) (hsub : started ⊆ started') :
    NetOk net started' a := by
  refine ⟨h.sim, h.safe, h.known.mono ?_, h.next⟩
  rintro e ⟨operation, hop, hcmd⟩
  exact ⟨operation, hsub hop, hcmd⟩

/-- A step of the cluster. -/
theorem step {e : Event n Op} (h : NetOk net started a) (hok : Truthful net e)
    (hstep : net.step e = .ok net')
    (hadds : ∀ x, net.Adds e x → ∃ operation ∈ started, x.command = some operation) :
    ∃ b, a.Keeps b ∧ NetOk net' started b := by
  obtain ⟨b, hkeep, hnow, hsim⟩ := h.sim.keeps hstep
  refine ⟨b, hkeep, hsim, h.safe.step h.sim hok hstep hsim hkeep.ext hnow,
    h.known.step h.sim hstep hadds, fun p => ?_⟩
  by_cases hre : ∃ q, e = .restart q
  · obtain ⟨q, rfl⟩ := hre
    obtain rfl := Except.ok.inj hstep
    rcases eq_or_ne p q with rfl | hne
    · simpa [setPeer] using Raft.nextIndex_make p (net.peers p).persister
    · simpa [setPeer, hne] using h.next p
  · exact ((peerStep_of_step hstep p).carries h.sim fun q hq => hre ⟨q, hq⟩).nextIndex (h.next p)

/-- A step of the cluster that is not a call of `Start`. -/
theorem step_of_ne {e : Event n Op} (h : NetOk net started a) (hok : Truthful net e)
    (hstep : net.step e = .ok net') (hne : ∀ p command, e ≠ .start p command) :
    ∃ b, a.Keeps b ∧ NetOk net' started b := by
  refine h.step hok hstep ?_
  rintro x ⟨p, he, -⟩
  exact absurd he (hne p _)

/-- The commands at a peer. -/
theorem command (h : NetOk net started a) {i : ℕ} {e : LogEntry Op} (he : (net.peers p).Holds i e) :
    ∃ operation ∈ started, e.command = some operation := by
  obtain ⟨hi, hget⟩ := he
  obtain ⟨k, rfl⟩ := Nat.exists_eq_add_of_lt hi
  rw [Nat.add_assoc, Raft.entryAt_add] at hget
  refine (h.known.peer p).logs e (List.mem_of_getElem? (i := k) ?_)
  rw [List.getElem?_tail, hget]

/-- A turn of the apply daemon. -/
theorem hand (h : NetOk net started a) (cc la : ℕ) {msgs : List (ApplyMsg Op)}
    (hmsgs : ∀ m ∈ msgs, ∃ e, (net.peers p).Holds m.commandIndex e ∧
      m = ⟨m.commandIndex, e.command, true, []⟩ ∧ m.commandIndex ≤ (net.peers p).commitIndex) :
    NetOk (net.setPeer p ((net.peers p).hand cc la msgs)) started a := by
  have hp := h.sim.peer p
  refine ⟨h.sim.hand p cc la msgs, h.safe.hand h.sim cc la fun m hm => ?_,
    ⟨h.known.update ((h.known.peer p).hand cc la fun m hm => ?_), h.known.sent⟩, fun q => ?_⟩
  · obtain ⟨e, he, hmsg, hle⟩ := hmsgs m hm
    exact ⟨hle, hmsg ▸ (h.safe.peer p).committedMsg hp.log he hle⟩
  · obtain ⟨e, he, hmsg, -⟩ := hmsgs m hm
    have hnum := h.sim.numbered.1 p _ e (hp.log.holds_iff.mp he).2
    have hpos := Nat.zero_lt_of_lt he.1
    refine ⟨e, h.command he, by omega, ?_⟩
    rw [hmsg]
  · rcases eq_or_ne q p with rfl | hne
    · simpa [setPeer, Raft.hand] using h.next q
    · simpa [setPeer, hne] using h.next q

/-- `Compact`, of an index that was delivered. -/
theorem compact (h : NetOk net started a) {i : ℕ} {snapshot : List UInt8} {rf : Raft n Op}
    (hdel : delivered (net.peers p) i = true) (hrun : (net.peers p).compact i snapshot = some rf) :
    NetOk (net.setPeer p rf) started a := by
  have hsim := h.sim.compact hrun
  refine ⟨hsim, h.safe.compact h.sim hdel hrun hsim (.refl a),
    ⟨h.known.update ((h.known.peer p).compact hrun), h.known.sent⟩, fun q => ?_⟩
  rcases eq_or_ne q p with rfl | hne
  · simpa [setPeer] using (Raft.carries_compact hrun).nextIndex (h.next q)
  · simpa [setPeer, hne] using h.next q

end NetOk

/-! ### What is under way in a process -/

namespace System

variable {σ σ' : System n}

/-- What the goroutines of a process rely on: the daemon goes up to the commit index at most, and
what `enactDaemon` and the calls of `Compact` are about was sent in this incarnation. -/
structure Pending (σ : System n) : Prop where
  daemon : ∀ p i last, σ.daemon p = some (i, last) → last ≤ (σ.net.peers p).commitIndex
  mail : ∀ p, ∀ mail ∈ σ.inbox p, mail.msg.commandValid = true →
    delivered (σ.net.peers p) mail.msg.commandIndex = true
  current : ∀ p, (σ.app.servers p).sending.isSome = true →
    delivered (σ.net.peers p) (σ.current p) = true
  compactions : ∀ p, ∀ call ∈ σ.compactions p,
    delivered (σ.net.peers p) call.lastIncludedIndex = true

/-- The peers went on. -/
theorem Pending.peers (h : σ.Pending) (hcarry : ∀ p, (σ.net.peers p).Carries (net'.peers p))
    (hcommit : ∀ p, (σ.daemon p).isSome = true →
      (net'.peers p).commitIndex = (σ.net.peers p).commitIndex) :
    Pending { σ with net := net' } where
  daemon p i last hd := by
    rw [hcommit p (by rw [hd]; rfl)]
    exact h.daemon p i last hd
  mail p mail hm hv := delivered_of_carries (hcarry p) (h.mail p mail hm hv)
  current p hs := delivered_of_carries (hcarry p) (h.current p hs)
  compactions p call hc := delivered_of_carries (hcarry p) (h.compactions p call hc)

/-- The clerks and the handlers went on. -/
theorem Pending.app (h : σ.Pending) {app : Service n} (hidle : σ.app.Idle app) :
    Pending { σ with app := app } :=
  ⟨h.daemon, h.mail, fun p hs => h.current p (hidle.sending p hs), h.compactions⟩

/-- The peers of the system follow the protocol. -/
structure Tracks (σ : System n) (a : Protocol n Op) : Prop where
  net : NetOk σ.net σ.app.started a
  pending : σ.Pending

theorem Tracks.app (h : σ.Tracks a) {app : Service n} (hidle : σ.app.Idle app) :
    Tracks { σ with app := app } a :=
  ⟨h.net.mono hidle.started, h.pending.app hidle⟩

/-! ### The steps -/

theorem raft_eq_ok {e : Event n Op} (h : σ.raft e = .ok σ') : amongPeers σ.net e = true ∧
    (∀ p, locks σ.net e = some p → σ.daemon p = none) ∧
    ∃ net, σ.net.step e = .ok net ∧ σ' = { σ with net := net } := by
  rw [raft] at h
  split at h
  · next hguard =>
    obtain ⟨net, hstep, rfl⟩ := map_eq_ok.mp h
    obtain ⟨hamong, hfree⟩ := Bool.and_eq_true_iff.mp hguard
    refine ⟨hamong, fun p hp => ?_, net, hstep, rfl⟩
    rw [hp, Option.all_some] at hfree
    exact Option.isNone_iff_eq_none.mp hfree
  · cases h

/-- Among the peers, only the one that takes its lock changes. -/
theorem peers_of_step {e : Event n Op} (hamong : amongPeers net e = true)
    (hstep : net.step e = .ok net') (hp : locks net e ≠ some p) : net'.peers p = net.peers p := by
  cases e with
  | broadCastVote q =>
    obtain ⟨⟨rf, sent⟩, -, rfl⟩ := Option.map_eq_some_iff.mp (orPanic_eq_ok.mp hstep)
    have hne : p ≠ q := fun heq => hp (by rw [heq]; rfl)
    cases sent <;> exact Function.update_of_ne hne ..
  | checkConsistency q peer =>
    simp only [Cluster.step] at hstep
    split at hstep
    · cases hstep
    obtain ⟨sent, -, rfl⟩ := Option.map_eq_some_iff.mp (orPanic_eq_ok.mp hstep)
    rcases sent with _ | _ | _ <;> rfl
  | handle k =>
    obtain ⟨c, hc, hrun⟩ := onCall_eq_ok.mp hstep
    have hne : p ≠ c.server := fun heq => hp (by rw [locks, hc, heq]; rfl)
    rcases handle_cases hrun with ⟨args, rf, reply, -, -, rfl⟩ |
      ⟨args, rf, reply, -, -, rfl⟩ | ⟨args, rf, reply, installed, -, -, rfl⟩ <;>
      exact Function.update_of_ne hne ..
  | process k =>
    obtain ⟨c, hc, hrun⟩ := onCall_eq_ok.mp hstep
    have hne : p ≠ c.caller := fun heq => hp (by rw [locks, hc, heq]; rfl)
    obtain ⟨-, ⟨args, reply, -, rfl⟩ | ⟨args, reply, rf, -, -, rfl⟩ |
      ⟨args, reply, -, rfl⟩⟩ := process_cases hrun <;>
      exact Function.update_of_ne hne ..
  | lose k =>
    obtain ⟨c, -, hrun⟩ := onCall_eq_ok.mp hstep
    obtain rfl := Except.ok.inj hrun
    rfl
  | start | compact | apply | notify | restart => cases hamong

/-- Nothing among the peers is a restart or a call of `Start`. -/
theorem ne_of_amongPeers {e : Event n Op} (hamong : amongPeers net e = true) :
    (∀ q, e ≠ .restart q) ∧ ∀ q command, e ≠ .start q command := by
  constructor
  · rintro q rfl
    cases hamong
  · rintro q command rfl
    cases hamong

theorem Tracks.raft {e : Event n Op} (h : σ.Tracks a) (hok : Truthful σ.net e)
    (hstep : σ.raft e = .ok σ') : ∃ b, a.Keeps b ∧ σ'.Tracks b := by
  obtain ⟨hamong, hfree, net, hrun, rfl⟩ := raft_eq_ok hstep
  obtain ⟨hre, hst⟩ := ne_of_amongPeers hamong
  obtain ⟨b, hkeep, hnet⟩ := h.net.step_of_ne hok hrun hst
  refine ⟨b, hkeep, hnet, h.pending.peers (fun p => ?_) fun p hp => ?_⟩
  · exact (peerStep_of_step hrun p).carries h.net.sim hre
  · rw [peers_of_step hamong hrun]
    intro hlock
    rw [hfree p hlock] at hp
    cases hp

/-- A turn of a handler of `Get` or `PutAppend` is one of the server, or a call of `Start`. -/
theorem turn_cases {k : ℕ} {timeOut : Bool} (h : σ.turn k timeOut = .ok σ') :
    (∃ t app, σ.app.turn k t = .ok app ∧ σ' = { σ with app := app }) ∨
    ∃ call rf index term isLeader app, σ.app.calls[k]? = some call ∧ call.pc = some .start ∧
      σ.daemon call.server = none ∧
      (σ.net.peers call.server).start (some call.args.operation) = (rf, index, term, isLeader) ∧
      σ.app.turn k (.raftStart (if isLeader then some index.toNat else none)) = .ok app ∧
      σ' = { σ with app := app, net := σ.net.setPeer call.server rf } := by
  rw [turn] at h
  split at h
  · cases h
  next call hk =>
  dsimp only at h
  split at h
  · split at h
    · cases h
    obtain ⟨app, happ, rfl⟩ := map_eq_ok.mp h
    exact .inl ⟨_, app, happ, rfl⟩
  · next hpc =>
    split at h
    · cases h
    next hfree =>
    obtain ⟨app, happ, rfl⟩ := map_eq_ok.mp h
    exact .inr ⟨call, _, _, _, _, app, hk, hpc, by simpa using hfree, rfl, happ, rfl⟩
  · obtain ⟨app, happ, rfl⟩ := map_eq_ok.mp h
    exact .inl ⟨_, app, happ, rfl⟩

/-- Only the processing of a reply is subject to the condition on the peers. -/
theorem truthful_of_processed {e : Event n Op} (h : e.processed = none) : Truthful net e := by
  intro k hk
  rw [h] at hk
  cases hk

theorem Tracks.turn {k : ℕ} {timeOut : Bool} (h : σ.Tracks a)
    (hstep : σ.turn k timeOut = .ok σ') : ∃ b, a.Keeps b ∧ σ'.Tracks b := by
  rcases turn_cases hstep with ⟨t, app, happ, rfl⟩ |
    ⟨call, rf, index, term, isLeader, app, hk, hpc, hfree, hret, happ, rfl⟩
  · exact ⟨a, .refl a, h.app (Service.idle_turn happ)⟩
  have hidle := Service.idle_turn happ
  obtain ⟨call', pc, kv, pc', hk', hpc', -, -, heq⟩ := Service.turn_eq_ok happ
  obtain rfl := Option.some.inj (hk.symm.trans hk')
  obtain rfl := Option.some.inj (hpc.symm.trans hpc')
  have hrun : σ.net.step (.start call.server (some call.args.operation)) =
      .ok (σ.net.setPeer call.server rf) := by
    rw [Cluster.step, hret]
  -- What `Start` writes is on record as started.
  obtain ⟨b, hkeep, hnet⟩ := (h.net.mono hidle.started).step (truthful_of_processed rfl) hrun (by
    rintro x ⟨q, he, hret'⟩
    obtain ⟨rfl, hcmd⟩ := Event.start.inj he
    rw [← hcmd, hret] at hret'
    obtain rfl : isLeader = true := (Prod.mk.inj (Prod.mk.inj hret').2).2
    refine ⟨call.args.operation, ?_, hcmd.symm⟩
    rw [heq]
    exact List.mem_append_right _ (List.mem_singleton_self _))
  refine ⟨b, hkeep, hnet, (h.pending.app hidle).peers (fun p => ?_) fun p hp => ?_⟩
  · exact (peerStep_of_step hrun p).carries h.net.sim (by simp)
  · have hne : p ≠ call.server := by
      rintro rfl
      rw [hfree] at hp
      cases hp
    rw [show (σ.net.setPeer call.server rf).peers p = σ.net.peers p from
      Function.update_of_ne hne ..]

/-! ### The steps on the way to the store -/

/-- One peer went on. -/
theorem Pending.setPeer (h : σ.Pending) {rf : Raft n Op} (hcarry : (σ.net.peers p).Carries rf)
    (hcommit : (σ.daemon p).isSome = true → rf.commitIndex = (σ.net.peers p).commitIndex) :
    Pending { σ with net := σ.net.setPeer p rf } := by
  refine h.peers (fun q => ?_) fun q hq => ?_
  · rcases eq_or_ne q p with rfl | hne
    · simpa [Cluster.setPeer] using hcarry
    · simpa [Cluster.setPeer, hne] using Raft.Carries.refl _
  · rcases eq_or_ne q p with rfl | hne
    · simpa [Cluster.setPeer] using hcommit hq
    · simp [Cluster.setPeer, hne]

theorem Pending.setDaemon (h : σ.Pending) {d : Option (ℕ × ℕ)}
    (hd : ∀ i last, d = some (i, last) → last ≤ (σ.net.peers p).commitIndex) :
    Pending { σ with daemon := Function.update σ.daemon p d } := by
  refine ⟨fun q i last hq => ?_, h.mail, h.current, h.compactions⟩
  rcases eq_or_ne q p with rfl | hne
  · exact hd i last (by simpa using hq)
  · exact h.daemon q i last (by simpa [hne] using hq)

theorem Pending.takeMail (h : σ.Pending) {mail : Mail}
    (hmail : mail.msg.commandValid = true →
      delivered (σ.net.peers p) mail.msg.commandIndex = true) : (σ.takeMail p mail).Pending := by
  refine ⟨h.daemon, fun q m hm => ?_, h.current, h.compactions⟩
  rcases eq_or_ne q p with rfl | hne
  · obtain rfl : mail = m := by simpa [System.takeMail] using hm
    exact hmail
  · exact h.mail q m (by simpa [System.takeMail, hne] using hm)

theorem hand_nil (rf : Raft n Op) (cc : ℕ) :
    { rf with commitCh := cc } = rf.hand cc rf.lastApplied [] := by
  rw [Raft.hand, List.append_nil]

theorem Tracks.wake (h : σ.Tracks a) (hstep : σ.wake p = .ok σ') : σ'.Tracks a := by
  rw [System.wake] at hstep
  split at hstep
  · cases hstep
  next hguard =>
  have hidle : σ.daemon p = none := by
    by_contra hne
    exact hguard (.inl (Option.isSome_iff_ne_none.mpr hne))
  obtain rfl := Except.ok.inj hstep
  constructor
  · simp only [hand_nil]
    exact h.net.hand _ _ (by simp)
  · have hpeer := h.pending.setPeer (p := p) (show (σ.net.peers p).Carries
      { σ.net.peers p with commitCh := (σ.net.peers p).commitCh - 1 } from .of_eq rfl rfl)
      fun _ => rfl
    refine Pending.setDaemon hpeer fun i last hd => ?_
    obtain ⟨-, rfl⟩ := Prod.mk.inj (Option.some.inj hd)
    simp [Cluster.setPeer]

/-- The three things that a turn of the daemon can do. -/
theorem advance_cases (h : σ.advance p = .ok σ') : ∃ i last, σ.daemon p = some (i, last) ∧
    (last < i ∧ σ' = { σ with daemon := Function.update σ.daemon p none } ∨
    i ≤ last ∧ i ≤ (σ.net.peers p).snapshotIndex ∧ σ' = { σ with
      daemon := Function.update σ.daemon p (some ((σ.net.peers p).snapshotIndex + 1, last)) } ∨
    i ≤ last ∧ σ.inbox p = none ∧ (σ.app.servers p).sending = none ∧
      ∃ e, (σ.net.peers p).Holds i e ∧
        σ' = { σ with
          net := σ.net.setPeer p ((σ.net.peers p).hand (σ.net.peers p).commitCh i
            [⟨i, e.command, true, []⟩])
          daemon := Function.update σ.daemon p (some (i + 1, last))
          }.takeMail p ⟨i, ⟨i, e.command, true, []⟩⟩) := by
  rw [advance] at h
  dsimp only at h
  split at h
  · cases h
  next i last hd =>
  refine ⟨i, last, hd, ?_⟩
  split at h
  · next hend => exact .inl ⟨hend, (Except.ok.inj h).symm⟩
  next hend =>
  split at h
  · next hsnap => exact .inr (.inl ⟨Nat.le_of_not_lt hend, hsnap, (Except.ok.inj h).symm⟩)
  next hsnap =>
  split at h
  · cases h
  next hready =>
  split at h
  · cases h
  next e he =>
  rw [Bool.not_eq_true', Bool.not_eq_false, ready, Bool.and_eq_true, Option.isNone_iff_eq_none,
    Option.isNone_iff_eq_none] at hready
  exact .inr (.inr ⟨Nat.le_of_not_lt hend, hready.1, hready.2, e,
    ⟨Nat.lt_of_not_le hsnap, he⟩, (Except.ok.inj h).symm⟩)

theorem Tracks.advance (h : σ.Tracks a) (hstep : σ.advance p = .ok σ') : σ'.Tracks a := by
  obtain ⟨i, last, hd, ⟨-, rfl⟩ | ⟨-, -, rfl⟩ | ⟨hle, -, -, e, he, rfl⟩⟩ := advance_cases hstep
  · exact ⟨h.net, h.pending.setDaemon (by simp)⟩
  · refine ⟨h.net, h.pending.setDaemon fun j last' hd' => ?_⟩
    obtain ⟨-, rfl⟩ := Prod.mk.inj (Option.some.inj hd')
    exact h.pending.daemon p i _ hd
  · have hlast := h.pending.daemon p i last hd
    constructor
    · refine h.net.hand _ _ fun m hm => ?_
      obtain rfl := List.mem_singleton.mp hm
      exact ⟨e, he, rfl, hle.trans hlast⟩
    · have hpeer := h.pending.setPeer (p := p) (show (σ.net.peers p).Carries
        ((σ.net.peers p).hand (σ.net.peers p).commitCh i [⟨i, e.command, true, []⟩])
        from ⟨List.prefix_append _ _, id⟩) fun _ => rfl
      refine Pending.takeMail (Pending.setDaemon hpeer fun j last' hd' => ?_) fun _ => ?_
      · obtain ⟨-, rfl⟩ := Prod.mk.inj (Option.some.inj hd')
        simpa [Cluster.setPeer, Raft.hand] using hlast
      · simp [Cluster.setPeer, Raft.hand, delivered]

/-- The handler of an `InstallSnapShot` has nothing to send, or sends its snapshot. -/
theorem notify_eq_ok {k : ℕ} (h : σ.notify k = .ok σ') : ∃ c args reply net,
    σ.net.calls[k]? = some c ∧ c.body = .notifying args reply (σ.net.epoch c.server) ∧
    σ.net.step (.notify k) = .ok net ∧
    (args.snapshot = [] ∧ σ' = { σ with net := net } ∨
      args.snapshot ≠ [] ∧ σ.inbox c.server = none ∧ (σ.app.servers c.server).sending = none ∧
      σ' = { σ with net := net }.takeMail c.server
        ⟨args.lastIncludedIndex, ⟨0, none, false, args.snapshot⟩⟩) := by
  rw [notify] at h
  split at h
  · cases h
  next c hc =>
  have hbody : ∀ {net}, σ.net.step (.notify k) = .ok net → ∀ {args reply epoch},
      c.body = .notifying args reply epoch →
        c.body = .notifying args reply (σ.net.epoch c.server) := by
    intro net hrun args reply epoch hb
    obtain ⟨c', hc', hnote⟩ := onCall_eq_ok.mp hrun
    obtain rfl := Option.some.inj (hc.symm.trans hc')
    obtain ⟨_, _, _, hb', hepoch, -⟩ := notify_cases hnote
    obtain ⟨-, -, rfl⟩ := Body.notifying.inj (hb'.symm.trans hb)
    rw [hepoch, hb]
  split at h
  · next args reply epoch hb =>
    split at h
    · next hnil =>
      obtain ⟨net, hrun, rfl⟩ := map_eq_ok.mp h
      exact ⟨c, args, reply, net, hc, hbody hrun hb, hrun, .inl ⟨hnil, rfl⟩⟩
    next hne =>
    split at h
    · cases h
    next hready =>
    obtain ⟨net, hrun, rfl⟩ := map_eq_ok.mp h
    rw [Bool.not_eq_true', Bool.not_eq_false, ready, Bool.and_eq_true, Option.isNone_iff_eq_none,
      Option.isNone_iff_eq_none] at hready
    exact ⟨c, args, reply, net, hc, hbody hrun hb, hrun,
      .inr ⟨hne, hready.1, hready.2, rfl⟩⟩
  · cases h

theorem Tracks.notify {k : ℕ} (h : σ.Tracks a) (hstep : σ.notify k = .ok σ') :
    ∃ b, a.Keeps b ∧ σ'.Tracks b := by
  obtain ⟨c, args, reply, net, hc, hbody, hrun, hcase⟩ := notify_eq_ok hstep
  obtain ⟨b, hkeep, hnet⟩ := h.net.step_of_ne (truthful_of_processed rfl) hrun (by simp)
  have hpending : Pending { σ with net := net } := by
    refine h.pending.peers
      (fun p => (peerStep_of_step hrun p).carries h.net.sim (by simp)) fun p _ => ?_
    -- The commit index is not touched.
    obtain ⟨c', hc', hnote⟩ := onCall_eq_ok.mp hrun
    obtain ⟨args', reply', epoch, -, -, rfl⟩ := notify_cases hnote
    rcases eq_or_ne p c'.server with rfl | hne
    · obtain ⟨ch, heq, -⟩ := notifyAppUseNewSnapShot_eq (σ.net.peers c'.server) args'.snapshot
      simp [Cluster.setPeer, Cluster.setBody, heq]
    · simp [Cluster.setPeer, Cluster.setBody, hne]
  rcases hcase with ⟨-, rfl⟩ | ⟨-, -, -, rfl⟩
  · exact ⟨b, hkeep, hnet, hpending⟩
  · exact ⟨b, hkeep, hnet, hpending.takeMail (by simp)⟩

end System

/-- What `dealWithApplyMsg` does before it sends the `DoneMsg`. -/
theorem KVServer.dealWithApplyMsg_eq_ok {gob : Gob Kv} {kv kv' : KVServer} {msg : ApplyMsg Op}
    (h : kv.dealWithApplyMsg gob msg = .ok kv') : kv.sending = none ∧
    kv.kv.dealWithApplyMsg gob msg = some kv'.kv ∧
    (kv'.sending.isSome = true → msg.commandValid = true) := by
  rw [KVServer.dealWithApplyMsg] at h
  split at h
  · cases h
  next hfree =>
  have hnone : kv.sending = none := by simpa using hfree
  split at h
  · cases h
  next store hstore =>
  split at h
  · next operation hop =>
    obtain rfl := Except.ok.inj h
    have hvalid : msg.commandValid = true := by
      by_contra hv
      rw [if_neg hv] at hop
      cases hop
    refine ⟨hnone, ?_, fun _ => hvalid⟩
    rw [hstore, KVServer.report, KVServer.stub]
    split <;> rfl
  · obtain rfl := Except.ok.inj h
    exact ⟨hnone, hstore, by simp [hnone]⟩

namespace System

variable {σ σ' : System n} {gob : Gob Kv}

theorem deal_eq_ok (h : σ.deal gob p = .ok σ') : ∃ mail kv, σ.inbox p = some mail ∧
    (σ.app.servers p).dealWithApplyMsg gob mail.msg = .ok kv ∧
    σ' = { σ with
      app := { σ.app with log := record σ.app.log mail }.setServer p kv mail.index
      inbox := Function.update σ.inbox p none
      current := Function.update σ.current p mail.msg.commandIndex } := by
  rw [deal] at h
  split at h
  · cases h
  next mail hmail =>
  obtain ⟨kv, hdeal, rfl⟩ := map_eq_ok.mp h
  exact ⟨mail, kv, hmail, hdeal, rfl⟩

theorem Tracks.deal (h : σ.Tracks a) (hstep : σ.deal gob p = .ok σ') : σ'.Tracks a := by
  obtain ⟨mail, kv, hmail, hdeal, rfl⟩ := deal_eq_ok hstep
  obtain ⟨-, -, hvalid⟩ := KVServer.dealWithApplyMsg_eq_ok hdeal
  refine ⟨h.net, h.pending.daemon, fun q m hm => ?_, fun q hs => ?_, h.pending.compactions⟩
  · rcases eq_or_ne q p with rfl | hne
    · simp at hm
    · exact h.pending.mail q m (by simpa [hne] using hm)
  · rcases eq_or_ne q p with rfl | hne
    · rw [Service.servers_setServer_self] at hs
      simpa using h.pending.mail q mail hmail (hvalid hs)
    · rw [Service.servers_setServer_of_ne hne] at hs
      simpa [hne] using h.pending.current q hs

theorem Tracks.finishApply {compact : Bool} (h : σ.Tracks a)
    (hstep : σ.finishApply gob p compact = .ok σ') : σ'.Tracks a := by
  obtain ⟨app, happ, rfl⟩ := map_eq_ok.mp hstep
  obtain ⟨hidle, hsending, -⟩ := Service.idle_finishApply happ
  have hpending := h.pending.app hidle
  refine ⟨h.net.mono hidle.started, hpending.daemon, hpending.mail, hpending.current,
    fun q call hcall => ?_⟩
  rcases eq_or_ne q p with rfl | hne
  · simp only [Function.update_self] at hcall
    rcases List.mem_append.mp hcall with hcall | hcall
    · exact h.pending.compactions q call hcall
    · cases compact with
      | false => cases hcall
      | true =>
        obtain rfl := List.mem_singleton.mp hcall
        exact h.pending.current q hsending
  · exact h.pending.compactions q call (by simpa [hne] using hcall)

theorem compact_eq_ok {k : ℕ} (h : σ.compact p k = .ok σ') : σ.daemon p = none ∧ ∃ call rf,
    (σ.compactions p)[k]? = some call ∧
    (σ.net.peers p).compact call.lastIncludedIndex call.snapshot = some rf ∧
    σ' = { σ with
      net := σ.net.setPeer p rf
      compactions := Function.update σ.compactions p ((σ.compactions p).eraseIdx k) } := by
  rw [compact] at h
  split at h
  · cases h
  next hfree =>
  split at h
  · cases h
  next call hk =>
  obtain ⟨rf, hrun, rfl⟩ := map_eq_ok.mp h
  exact ⟨by simpa using hfree, call, rf, hk, orPanic_eq_ok.mp hrun, rfl⟩

theorem Tracks.compact {k : ℕ} (h : σ.Tracks a) (hstep : σ.compact p k = .ok σ') :
    σ'.Tracks a := by
  obtain ⟨hfree, call, rf, hk, hrun, rfl⟩ := compact_eq_ok hstep
  have hdel := h.pending.compactions p call (List.mem_of_getElem? hk)
  have hpeer := h.pending.setPeer (Raft.carries_compact hrun) fun hs => by simp [hfree] at hs
  refine ⟨h.net.compact hdel hrun, hpeer.daemon, hpeer.mail, hpeer.current, fun q c hc => ?_⟩
  rcases eq_or_ne q p with rfl | hne
  · simp only [Function.update_self] at hc
    exact hpeer.compactions q c (List.mem_of_mem_eraseIdx hc)
  · exact hpeer.compactions q c (by simpa [hne] using hc)

theorem Tracks.restart (h : σ.Tracks a) (hstep : σ.restart p = .ok σ') :
    ∃ b, a.Keeps b ∧ σ'.Tracks b := by
  obtain ⟨net, hrun, rfl⟩ := map_eq_ok.mp hstep
  obtain ⟨b, hkeep, hnet⟩ := h.net.step_of_ne (truthful_of_processed rfl) hrun (by simp)
  refine ⟨b, hkeep, hnet, ?_⟩
  obtain rfl := Except.ok.inj hrun
  have hpeer : ∀ q, q ≠ p →
      (σ.net.setPeer p (Raft.make p (σ.net.peers p).persister)).peers q = σ.net.peers q :=
    fun q hne => Function.update_of_ne hne ..
  refine ⟨fun q i last hd => ?_, fun q m hm hv => ?_, fun q hs => ?_, fun q c hc => ?_⟩
  · rcases eq_or_ne q p with rfl | hne
    · simp at hd
    · simp only [hpeer q hne]
      exact h.pending.daemon q i last (by simpa [hne] using hd)
  · rcases eq_or_ne q p with rfl | hne
    · -- All that `Make` sends is a snapshot.
      obtain ⟨-, -, -, -, hch, -⟩ := Raft.make_fields q (σ.net.peers q).persister
      simp only [Cluster.setPeer, Function.update_self, hch] at hm
      split at hm
      · simp at hm
      · obtain rfl := Option.some.inj hm
        cases hv
    · simp only [hpeer q hne]
      exact h.pending.mail q m (by simpa [hne] using hm) hv
  · rcases eq_or_ne q p with rfl | hne
    · simp [Service.restart, Service.setServer, KVServer.startKVServer] at hs
    · simp only [hpeer q hne, Function.update_of_ne hne]
      exact h.pending.current q (by simpa [Service.restart, Service.setServer, hne] using hs)
  · rcases eq_or_ne q p with rfl | hne
    · simp at hc
    · simp only [hpeer q hne]
      exact h.pending.compactions q c (by simpa [hne] using hc)

/-! ### Every step, every run -/

/-- **Every step that meets the condition.** -/
theorem Tracks.step [NeZero n] {e : SystemEvent n} (h : σ.Tracks a) (hok : σ.Ok e)
    (hstep : σ.step gob e = .ok σ') : ∃ b, a.Keeps b ∧ σ'.Tracks b := by
  cases e with
  | invoke c request =>
    obtain ⟨app, happ, rfl⟩ := map_eq_ok.mp hstep
    exact ⟨a, .refl a, h.app (Service.idle_invoke happ)⟩
  | send c =>
    obtain ⟨app, happ, rfl⟩ := map_eq_ok.mp hstep
    exact ⟨a, .refl a, h.app (Service.idle_send happ)⟩
  | receive c =>
    obtain ⟨app, happ, rfl⟩ := map_eq_ok.mp hstep
    exact ⟨a, .refl a, h.app (Service.idle_receive happ)⟩
  | giveUp c =>
    obtain ⟨app, happ, rfl⟩ := map_eq_ok.mp hstep
    exact ⟨a, .refl a, h.app (Service.idle_giveUp happ)⟩
  | serve k =>
    obtain ⟨app, happ, rfl⟩ := map_eq_ok.mp hstep
    exact ⟨a, .refl a, h.app (Service.idle_serve happ)⟩
  | turn k timeOut => exact h.turn hstep
  | raft e => exact h.raft hok hstep
  | wake p => exact ⟨a, .refl a, h.wake hstep⟩
  | advance p => exact ⟨a, .refl a, h.advance hstep⟩
  | notify k => exact h.notify hstep
  | deal p => exact ⟨a, .refl a, h.deal hstep⟩
  | finishApply p compact => exact ⟨a, .refl a, h.finishApply hstep⟩
  | compact p k => exact ⟨a, .refl a, h.compact hstep⟩
  | restart p => exact h.restart hstep

theorem tracks_init [NeZero n] : (init n).Tracks Repl.empty where
  net := ⟨sim_init, safe_init _, known_init _, fun p q => Raft.nextIndex_make p makePersister q⟩
  pending := ⟨by simp [init], by simp [init], by simp [init, Service.init, KVServer.startKVServer],
    by simp [init]⟩

/-- The operation in an entry that has one. -/
def operationOf (e : LogEntry Op) : Op := e.command.getD ⟨.get, "", "", 0, 0⟩

/-- What a peer takes for committed is on the line. -/
theorem Tracks.agreed {b : Protocol n Op} (h : σ.Tracks b) (hkeep : b.Keeps a)
    {line : List (LogEntry Op)} (hline : ∀ t l i, a.CommitPoint t l i → l.take i <+: line) :
    Agreed (line.map operationOf) (σ.net.peers p) := by
  intro i hi hle
  have hp := h.net.sim.peer p
  have hpoint := ((h.net.safe.peer p).commit.of_le hle).extends hkeep.ext (Nat.le_refl _)
    List.prefix_rfl
  have hlen := hpoint.le_length
  have hget : (b.log p)[i - 1]? = some (b.log p)[i - 1] := List.getElem?_eq_getElem (by omega)
  have hholds := hp.log.holds_iff.mpr ⟨hi, hget⟩
  obtain ⟨operation, -, hcmd⟩ := h.net.command hholds
  refine ⟨operation, _, ?_, hholds, hcmd⟩
  rw [List.getElem?_map, ← getElem?_of_isPrefix (hline _ _ _ hpoint)
    (by rw [List.length_take]; omega), List.getElem?_take_of_lt (by omega), hget, Option.map_some,
    operationOf, hcmd, Option.getD_some]

/-- **There is one log.** In every run that meets the condition there is one list of commands such
that, at every moment, what any server takes for committed is a part of it. -/
theorem Run.agreed [NeZero n] {τ : List (System n)} (h : Run gob τ) :
    ∃ log : List Op, ∀ σ ∈ τ, (∃ a, σ.Tracks a) ∧ ∀ p, Agreed log (σ.net.peers p) := by
  have hinit : ∀ σ ∈ [init n].head?, Tracks σ (Repl.empty : Protocol n Op) := by
    intro σ hσ
    obtain rfl := Option.some.inj hσ
    exact tracks_init
  have hhist := Trace.history (R := fun τ a => ∀ σ ∈ τ.head?, Tracks σ a) Repl.Keeps.refl
    (fun _ _ _ => Repl.Keeps.trans) hinit
    (fun s e s' τ a _ hR hn => by
      obtain ⟨b, hkeep, hb⟩ := (hR s rfl).step hn.1 hn.2
      refine ⟨b, hkeep, fun σ₀ hσ₀ => ?_⟩
      obtain rfl := Option.some.inj hσ₀
      exact hb) h
  obtain ⟨a, ha, hpast⟩ := hhist
  have hinv : a.Inv := by
    cases h with
    | start => exact (ha _ rfl).net.sim.inv
    | step => exact (ha _ rfl).net.sim.inv
  obtain ⟨line, hline⟩ := hinv.exists_line
  refine ⟨line.map operationOf, fun σ hσ => ?_⟩
  obtain ⟨τ', b, -, hb, hkeep⟩ := hpast σ hσ
  exact ⟨⟨b, hb σ rfl⟩, fun p => (hb σ rfl).agreed hkeep hline⟩

end System

end RaftKVDB
