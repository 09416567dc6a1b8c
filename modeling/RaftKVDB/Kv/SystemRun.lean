import RaftKVDB.Kv.Linearizable
import RaftKVDB.Kv.SystemNet

/-!
# The whole system is linearizable

Three layers meet here. Raft promises one log (`System.Run.agreed`). Each process takes its store
along that log, by commands and by snapshots (`Server.Inv` of `Kv/Delivery`). And clerks and servers
over one log are linearizable (`Kv/Linearizable`). The invariant `System.Good` says how they fit: a
process of the system, seen from the store, is a server over the log; what is dealt with is given to
the service in the order of the log, and what is dealt with first is what is agreed on first.

## Main results

* `System.Good.step` — every step of the system is a step of its servers over the log, and a step or
  two of the service
* `system_linearizable` — in every run that meets the condition, what the clients see is
  linearizable
-/

namespace RaftKVDB

open Foundations Cluster

variable {n : ℕ} {gob : Gob Kv} {log : List Op}

/-! ### A process, seen from the store -/

namespace Server

variable {s : Server n}

/-- The peer went on, but not its snapshot. -/
theorem Inv.steady (h : s.Inv gob log) (hidle : s.daemon = none) {rf : Raft n Op}
    (hs : s.rf.Steady rf) (hagreed : Agreed log rf) : { s with rf := rf }.Inv gob log := by
  obtain ⟨hsaved, htext⟩ := h.saved
  refine ⟨h.kv, hagreed, ⟨hs.savedIndex hsaved, ?_⟩, ?_, ?_, ?_, ?_, h.compactions, ?_⟩
  · rwa [hs.snapshotIndex, hs.snapshot]
  · exact hs.lastApplied.le.trans h.applied_le
  · have := h.consumed_le
    simp only [hs.lastApplied, hs.snapshotIndex]
    exact this
  · simp only [hs.snapshotIndex]
    exact h.covered
  · simp only [hs.snapshotIndex]
    exact h.notices
  · intro i last hd
    cases hidle.symm.trans hd

/-- The same snapshots in another order, and other calls of `Compact`. -/
theorem Inv.lists (h : s.Inv gob log) {notices compactions : List Notice}
    (hnotices : ∀ x, x ∈ notices ↔ x ∈ s.notices)
    (hcompactions : ∀ call ∈ compactions,
      Snapshots gob log call.lastIncludedIndex call.snapshot ∧
        call.lastIncludedIndex ≤ s.consumed) :
    { s with notices := notices, compactions := compactions }.Inv gob log := by
  refine ⟨h.kv, h.agreed, h.saved, h.applied_le, h.consumed_le, ?_, fun x hx => ?_, hcompactions,
    h.daemon⟩
  · rcases h.covered with hle | ⟨x, hx, heq⟩
    · exact .inl hle
    · exact .inr ⟨x, (hnotices x).mpr hx, heq⟩
  · exact h.notices x ((hnotices x).mp hx)

/-- The index that the daemon sends next is the next one, if no snapshot is overtaken. -/
theorem Inv.next_index (h : s.Inv gob log) {i last : ℕ} (hd : s.daemon = some (i, last))
    (hsnap : s.rf.snapshotIndex < i)
    (hord : ∀ notice ∈ s.notices, notice.lastIncludedIndex ≤ s.consumed) : i = s.consumed + 1 := by
  have hle : s.rf.snapshotIndex ≤ s.consumed := by
    rcases h.covered with hle | ⟨notice, hmem, heq⟩
    · exact hle
    · exact heq ▸ hord notice hmem
  have := h.daemon i last hd
  have := h.consumed_le
  have := h.applied_le
  omega

end Server

namespace System

variable {σ σ' : System n} {p : Fin n}

/-- A process, seen from the store: what `enactDaemon` has received counts as consumed. -/
def view (gob : Gob Kv) (σ : System n) (p : Fin n) : Server n where
  rf := σ.net.peers p
  daemon := σ.daemon p
  notices := σ.notices p
  compactions := σ.compactions p
  kv := match σ.inbox p with
    | none => (σ.app.servers p).kv
    | some mail =>
      ((σ.app.servers p).kv.dealWithApplyMsg gob mail.msg).getD (σ.app.servers p).kv
  consumed := match σ.inbox p with
    | none => σ.app.consumed p
    | some mail => mail.index

/-- What `enactDaemon` has received is the next command, or a snapshot that goes at least as far as
what was consumed. -/
def MailOk (gob : Gob Kv) (log : List Op) (app : Service n) (p : Fin n) (mail : Mail) : Prop :=
  (∃ operation ∈ app.started, mail.msg = ⟨mail.index, some operation, true, []⟩ ∧
    mail.index = app.consumed p + 1 ∧ log[app.consumed p]? = some operation) ∨
  ∃ snapshot, mail.msg = ⟨0, none, false, snapshot⟩ ∧ Snapshots gob log mail.index snapshot ∧
    app.consumed p ≤ mail.index ∧ mail.index ≤ app.log.length

/-- The snapshot that a call carries. -/
def snapshotOf : Body n Op → Option (InstallSnapshotArgs n)
  | .installSnapShot args _ => some args
  | .notifying args _ _ => some args
  | _ => none

/-- **The invariant**, given the log. -/
structure Good (gob : Gob Kv) (log : List Op) (σ : System n) : Prop where
  service : σ.app.Inv
  on_log : σ.app.log <+: log
  server : ∀ p, (σ.view gob p).Inv gob log
  snapshot_le : ∀ p, (σ.net.peers p).snapshotIndex ≤ σ.app.log.length
  mail : ∀ p, ∀ mail ∈ σ.inbox p, MailOk gob log σ.app p mail
  sending : ∀ p, (σ.app.servers p).sending.isSome = true →
    σ.inbox p = none ∧ σ.current p = σ.app.consumed p
  compactions : ∀ p, ∀ call ∈ σ.compactions p, call.lastIncludedIndex ≤ σ.app.log.length
  calls : ∀ c ∈ σ.net.calls, ∀ args ∈ snapshotOf c.body,
    Snapshots gob log args.lastIncludedIndex args.snapshot ∧
      args.lastIncludedIndex ≤ σ.app.log.length
  epoch : ∀ c ∈ σ.net.calls, ∀ args reply serverEpoch, c.body = .notifying args reply serverEpoch →
    serverEpoch ≤ σ.net.epoch c.server

/-! ### The clerks and the handlers of `Get` and `PutAppend` -/

theorem view_app {app : Service n} (hidle : σ.app.Idle app) (p : Fin n) :
    view gob { σ with app := app } p = σ.view gob p := by
  simp only [view, notices, hidle.kv, hidle.consumed]

theorem MailOk.app {app app' : Service n} {mail : Mail} (h : MailOk gob log app p mail)
    (hidle : app.Idle app') : MailOk gob log app' p mail := by
  rw [MailOk, hidle.consumed, hidle.log]
  rcases h with ⟨operation, hop, hcase⟩ | hcase
  · exact .inl ⟨operation, hidle.started hop, hcase⟩
  · exact .inr hcase

theorem Good.app (h : σ.Good gob log) {app : Service n} (hidle : σ.app.Idle app)
    (hinv : app.Inv) : Good gob log { σ with app := app } where
  service := hinv
  on_log := hidle.log ▸ h.on_log
  server p := view_app hidle p ▸ h.server p
  snapshot_le p := hidle.log ▸ h.snapshot_le p
  mail p mail hm := (h.mail p mail hm).app hidle
  sending p hs := hidle.consumed ▸ h.sending p (hidle.sending p hs)
  compactions p call hc := hidle.log ▸ h.compactions p call hc
  calls c hc args ha := hidle.log ▸ h.calls c hc args ha
  epoch := h.epoch

/-- The end of `dealWithApplyMsg`, and the snapshot that it may take. -/
theorem Good.finishApply [NeZero n] {compact : Bool} (h : σ.Good gob log)
    (hstep : σ.finishApply gob p compact = .ok σ') : σ'.Good gob log := by
  obtain ⟨app, happ, rfl⟩ := map_eq_ok.mp hstep
  obtain ⟨hidle, hsending, -⟩ := Service.idle_finishApply happ
  have happ' := h.app hidle
    (h.service.step (show Service.step gob _ (.finishApply p) = .ok _ from happ))
  obtain ⟨hempty, hcurrent⟩ := h.sending p hsending
  have hview : (σ.view gob p).kv = (app.servers p).kv ∧ (σ.view gob p).consumed = σ.current p := by
    simp only [view, hempty, hidle.kv, hcurrent, and_self]
  have hadded : ∀ q, ∀ call ∈ Function.update σ.compactions p (σ.compactions p ++
        if compact then [⟨σ.current p, gob.encode (app.servers p).kv⟩] else []) q,
      call ∈ σ.compactions q ∨
        q = p ∧ call = ⟨σ.current p, gob.encode (app.servers p).kv⟩ := by
    intro q call hcall
    rcases eq_or_ne q p with rfl | hne
    · rw [Function.update_self] at hcall
      rcases List.mem_append.mp hcall with hcall | hcall
      · exact .inl hcall
      · cases compact with
        | false => cases hcall
        | true => exact .inr ⟨rfl, List.mem_singleton.mp hcall⟩
    · rw [Function.update_of_ne hne] at hcall
      exact .inl hcall
  refine ⟨happ'.service, happ'.on_log, fun q => ?_, happ'.snapshot_le, happ'.mail, happ'.sending,
    fun q call hcall => ?_, happ'.calls, happ'.epoch⟩
  · refine (happ'.server q).lists (fun _ => Iff.rfl) fun call hcall => ?_
    rcases hadded q call hcall with hcall | ⟨rfl, rfl⟩
    · exact (happ'.server q).compactions call hcall
    · have hkv := (h.server q).kv
      rw [hview.1, hview.2] at hkv
      rw [view_app hidle]
      exact ⟨congrArg gob.encode hkv, hview.2.ge⟩
  · rcases hadded q call hcall with hcall | ⟨rfl, rfl⟩
    · exact happ'.compactions q call hcall
    · rw [hcurrent, ← hidle.consumed]
      exact happ'.service.consumed_le q

/-! ### `dealWithApplyMsg` -/

/-- What is dealt with is given to the service: the next command, which is agreed on now if nobody
has dealt with it before, or a snapshot. -/
theorem MailOk.deal [NeZero n] {app : Service n} {mail : Mail} {kv : KVServer}
    (h : MailOk gob log app p mail) (hinv : app.Inv) (hlog : app.log <+: log)
    (hdeal : (app.servers p).dealWithApplyMsg gob mail.msg = .ok kv) :
    ({ app with log := record app.log mail }.setServer p kv mail.index).Inv ∧
      app.log <+: record app.log mail ∧ record app.log mail <+: log := by
  have hle := hinv.consumed_le p
  rcases h with ⟨operation, hop, hmsg, hidx, hget⟩ | ⟨snapshot, hmsg, htext, hlow, hhigh⟩
  · -- First the command is agreed on, if it is new.
    obtain ⟨hinv', hpre, hlog', hnext⟩ : ({ app with log := record app.log mail } : Service n).Inv ∧
        app.log <+: record app.log mail ∧ record app.log mail <+: log ∧
        (record app.log mail)[app.consumed p]? = some operation := by
      simp only [record, hmsg]
      split
      · next hnew =>
        have heq : app.consumed p = app.log.length := by omega
        refine ⟨?_, List.prefix_append _ _, ?_, ?_⟩
        · refine hinv.step (show Service.step gob _ (.commit operation) = .ok _ from ?_)
          rw [Service.step, Service.commit, if_pos hop]
        · obtain ⟨rest, rfl⟩ := hlog
          rw [heq, List.getElem?_append_right (Nat.le_refl _), Nat.sub_self] at hget
          obtain ⟨x, rest, rfl⟩ := List.exists_cons_of_ne_nil
            (show rest ≠ [] by rintro rfl; cases hget)
          obtain rfl := Option.some.inj hget
          exact ⟨rest, by simp⟩
        · rw [heq]
          simp
      · next hold =>
        refine ⟨hinv, List.prefix_rfl, hlog, ?_⟩
        rw [← hget, getElem?_of_isPrefix hlog (by omega)]
    refine ⟨?_, hpre, hlog'⟩
    -- Then it is applied.
    refine hinv'.step (show Service.step gob _ (.apply p) = .ok _ from ?_)
    rw [hmsg, hidx] at hdeal
    simp only [Service.step, Service.apply, hnext]
    exact bind_eq_ok.mpr ⟨kv, hdeal, by rw [hidx]; rfl⟩
  · have hrec : record app.log mail = app.log := by rw [record, hmsg]
    rw [hrec]
    refine ⟨?_, List.prefix_rfl, hlog⟩
    refine hinv.step (show Service.step gob _ (.install p mail.index) = .ok _ from ?_)
    rw [hmsg, htext] at hdeal
    rw [Service.step, Service.install, if_pos ⟨hlow, hhigh⟩, take_eq_of_isPrefix hlog hhigh]
    exact bind_eq_ok.mpr ⟨kv, hdeal, rfl⟩

theorem Good.deal [NeZero n] (h : σ.Good gob log) (hstep : σ.deal gob p = .ok σ') :
    σ'.Good gob log := by
  obtain ⟨mail, kv, hmail, hdeal, rfl⟩ := deal_eq_ok hstep
  obtain ⟨-, hstore, hvalid⟩ := KVServer.dealWithApplyMsg_eq_ok hdeal
  have hok := h.mail p mail hmail
  obtain ⟨hinv, hpre, hlog⟩ := hok.deal h.service h.on_log hdeal
  have hlen := hpre.length_le
  refine ⟨hinv, hlog, fun q => ?_, fun q => (h.snapshot_le q).trans hlen, fun q m hm => ?_,
    fun q hs => ?_, fun q call hcall => (h.compactions q call hcall).trans hlen,
    fun c hc args ha => ⟨(h.calls c hc args ha).1, (h.calls c hc args ha).2.trans hlen⟩, h.epoch⟩
  · -- Seen from the store, nothing has happened.
    have hview : view gob { σ with
        app := { σ.app with log := record σ.app.log mail }.setServer p kv mail.index
        inbox := Function.update σ.inbox p none
        current := Function.update σ.current p mail.msg.commandIndex } q = σ.view gob q := by
      rcases eq_or_ne q p with rfl | hne
      · simp [view, notices, Service.setServer, hmail, hstore]
      · simp [view, notices, Service.setServer, hne]
    exact hview ▸ h.server q
  · rcases eq_or_ne q p with rfl | hne
    · simp at hm
    · rcases h.mail q m (by simpa [hne] using hm) with ⟨operation, hop, hmsg, hidx, hget⟩ |
        ⟨snapshot, hmsg, htext, hlow, hhigh⟩
      · exact .inl ⟨operation, hop, hmsg, by simpa [Service.setServer, hne] using hidx,
          by simpa [Service.setServer, hne] using hget⟩
      · exact .inr ⟨snapshot, hmsg, htext, by simpa [Service.setServer, hne] using hlow,
          hhigh.trans hlen⟩
  · rcases eq_or_ne q p with rfl | hne
    · rw [Service.servers_setServer_self] at hs
      refine ⟨Function.update_self .., ?_⟩
      rcases hok with ⟨operation, -, hmsg, -⟩ | ⟨snapshot, hmsg, -⟩
      · simp [Service.setServer, hmsg]
      · have := hvalid hs
        rw [hmsg] at this
        cases this
    · rw [Service.servers_setServer_of_ne hne] at hs
      simpa [Service.setServer, hne] using h.sending q hs

/-! ### One peer goes on -/

theorem view_setPeer_self (rf : Raft n Op) :
    view gob { σ with net := σ.net.setPeer p rf } p = { σ.view gob p with rf := rf } := by
  simp [view, notices, Cluster.setPeer]

theorem view_setPeer_of_ne {q : Fin n} (rf : Raft n Op) (hne : q ≠ p) :
    view gob { σ with net := σ.net.setPeer p rf } q = σ.view gob q := by
  simp [view, notices, Cluster.setPeer, hne]

/-- A step of one process that leaves the calls between the peers alone. -/
theorem Good.process (h : σ.Good gob log) (hcalls : σ'.net.calls = σ.net.calls)
    (hepoch : σ'.net.epoch = σ.net.epoch) (happ : σ'.app = σ.app)
    (hview : ∀ q, q ≠ p → σ'.view gob q = σ.view gob q ∧ σ'.inbox q = σ.inbox q ∧
      σ'.current q = σ.current q)
    (hserver : (σ'.view gob p).Inv gob log)
    (hsnap : (σ'.net.peers p).snapshotIndex ≤ σ.app.log.length)
    (hmail : ∀ mail ∈ σ'.inbox p, MailOk gob log σ.app p mail)
    (hsending : (σ.app.servers p).sending.isSome = true →
      σ'.inbox p = none ∧ σ'.current p = σ.app.consumed p)
    (hcompactions : ∀ call ∈ σ'.compactions p, call.lastIncludedIndex ≤ σ.app.log.length) :
    σ'.Good gob log := by
  have hrf : ∀ q, q ≠ p → σ'.net.peers q = σ.net.peers q := fun q hne =>
    congrArg Server.rf (hview q hne).1
  have hcs : ∀ q, q ≠ p → σ'.compactions q = σ.compactions q := fun q hne =>
    congrArg Server.compactions (hview q hne).1
  refine ⟨happ ▸ h.service, happ ▸ h.on_log, fun q => ?_, fun q => ?_, fun q mail hm => ?_,
    fun q hs => ?_, fun q call hc => ?_, fun c hc => ?_, fun c hc => ?_⟩
  · rcases eq_or_ne q p with rfl | hne
    · exact hserver
    · exact (hview q hne).1 ▸ h.server q
  · rw [happ]
    rcases eq_or_ne q p with rfl | hne
    · exact hsnap
    · exact hrf q hne ▸ h.snapshot_le q
  · rw [happ]
    rcases eq_or_ne q p with rfl | hne
    · exact hmail mail hm
    · exact h.mail q mail ((hview q hne).2.1 ▸ hm)
  · rw [happ] at hs ⊢
    rcases eq_or_ne q p with rfl | hne
    · exact hsending hs
    · rw [(hview q hne).2.1, (hview q hne).2.2]
      exact h.sending q hs
  · rw [happ]
    rcases eq_or_ne q p with rfl | hne
    · exact hcompactions call hc
    · exact h.compactions q call (hcs q hne ▸ hc)
  · rw [happ]
    exact h.calls c (hcalls ▸ hc)
  · rw [hepoch]
    exact h.epoch c (hcalls ▸ hc)

/-- The peer goes on, but not its snapshot. -/
theorem Good.setPeer (h : σ.Good gob log) {rf : Raft n Op} (hidle : σ.daemon p = none)
    (hs : (σ.net.peers p).Steady rf) (hagreed : Agreed log rf) :
    Good gob log { σ with net := σ.net.setPeer p rf } := by
  refine h.process (p := p) rfl rfl rfl
    (fun q hne => ⟨view_setPeer_of_ne rf hne, rfl, rfl⟩) ?_ ?_ (h.mail p) (h.sending p)
    (h.compactions p)
  · rw [view_setPeer_self]
    exact (h.server p).steady hidle hs hagreed
  · simpa [Cluster.setPeer, hs.snapshotIndex] using h.snapshot_le p

theorem Good.turn [NeZero n] {k : ℕ} {timeOut : Bool} (h : σ.Good gob log)
    (hagreed : ∀ p, Agreed log (σ'.net.peers p)) (hstep : σ.turn k timeOut = .ok σ') :
    σ'.Good gob log := by
  rcases turn_cases hstep with ⟨t, app, happ, rfl⟩ |
    ⟨call, rf, index, term, isLeader, app, -, -, hfree, hret, happ, rfl⟩
  · exact h.app (Service.idle_turn happ)
      (h.service.step (show Service.step gob _ (.turn k t) = .ok _ from happ))
  · have hgood := h.app (Service.idle_turn happ)
      (h.service.step (show Service.step gob _ (.turn k _) = .ok _ from happ))
    have hsteady := Raft.steady_start (σ.net.peers call.server) (some call.args.operation)
    rw [hret] at hsteady
    refine hgood.setPeer (p := call.server) hfree hsteady ?_
    simpa [Cluster.setPeer] using hagreed call.server

theorem Good.wake (h : σ.Good gob log) (hstep : σ.wake p = .ok σ') : σ'.Good gob log := by
  rw [System.wake] at hstep
  split at hstep
  · cases hstep
  next hguard =>
  obtain rfl := Except.ok.inj hstep
  refine h.process (p := p) rfl rfl rfl (fun q hne => ⟨?_, rfl, rfl⟩) ?_ ?_ (h.mail p)
    (h.sending p) (h.compactions p)
  · simp [view, notices, Cluster.setPeer, hne]
  · refine (h.server p).wake ?_
    rw [Server.step]
    refine (if_neg hguard).trans ?_
    simp [view, notices, Cluster.setPeer]
  · simpa [Cluster.setPeer] using h.snapshot_le p

/-- A turn of the apply daemon in which it only counts. -/
theorem Good.count (h : σ.Good gob log) {d : Option (ℕ × ℕ)}
    (hord : (σ.view gob p).InOrder (.advance false))
    (hturn : (σ.view gob p).advance gob false = some { σ.view gob p with daemon := d }) :
    Good gob log { σ with daemon := Function.update σ.daemon p d } := by
  refine h.process (p := p) rfl rfl rfl (fun q hne => ⟨?_, rfl, rfl⟩) ?_ (h.snapshot_le p)
    (h.mail p) (h.sending p) (h.compactions p)
  · simp [view, notices, hne]
  · have hview : view gob { σ with daemon := Function.update σ.daemon p d } p =
        { σ.view gob p with daemon := d } := by
      simp [view, notices]
    exact hview ▸ (h.server p).advance hord hturn

/-- **A turn of the apply daemon.** -/
theorem Good.advance {a : Protocol n Op} (h : σ.Good gob log) (htracks : σ.Tracks a)
    (hok : σ.Ok (.advance p)) (hstep : σ.advance p = .ok σ') : σ'.Good gob log := by
  have hserver := h.server p
  obtain ⟨i, last, hd, ⟨hend, rfl⟩ | ⟨hle, hsnap, rfl⟩ | ⟨hle, hempty, hfree, e, he, rfl⟩⟩ :=
    advance_cases hstep
  · refine h.count ?_ ?_
    · intro x hx hle
      obtain rfl := Option.some.inj (hd.symm.trans hx)
      omega
    · simp only [Server.advance, view, hd, if_pos hend]
  · refine h.count ?_ ?_
    · intro x hx _ hlt
      obtain rfl := Option.some.inj (hd.symm.trans hx)
      exact absurd hsnap (Nat.not_le_of_lt hlt)
    · simp only [Server.advance, view, hd, if_neg (Nat.not_lt.mpr hle), if_pos hsnap]
  · -- The daemon sends a command, which is the next one.
    have hconsumed : (σ.view gob p).consumed = σ.app.consumed p := by simp [view, hempty]
    have hord : ∀ notice ∈ σ.notices p, notice.lastIncludedIndex ≤ σ.app.consumed p :=
      hok (i, last) hd hle he.1
    have hnext : i = σ.app.consumed p + 1 := by
      rw [← hconsumed] at hord ⊢
      exact hserver.next_index hd he.1 hord
    have hlast : i ≤ (σ.net.peers p).commitIndex := hle.trans (htracks.pending.daemon p i last hd)
    obtain ⟨operation, e', hget, he', hcmd⟩ := hserver.agreed i he.1 hlast
    obtain rfl := Option.some.inj (he.2.symm.trans he'.2)
    obtain ⟨operation', hstarted, hcmd'⟩ := htracks.net.command he
    obtain rfl := Option.some.inj (hcmd.symm.trans hcmd')
    refine h.process (p := p) rfl rfl rfl (fun q hne => ⟨?_, ?_, rfl⟩) ?_ ?_ (fun mail hm => ?_)
      (fun hs => ?_) (h.compactions p)
    · simp [view, notices, takeMail, Cluster.setPeer, hne]
    · simp [takeMail, hne]
    · refine hserver.advance (show Server.InOrder _ (.advance false) from ?_) ?_
      · intro x hx _ _
        rw [hconsumed]
        exact hord
      · have hentry : goIndex (σ.net.peers p).logs ((σ.net.peers p).logIdxGlobal2Local i) =
          some e := he.2
        simp only [Server.advance, view, hd, if_neg (Nat.not_lt.mpr hle),
          if_neg (Nat.not_le.mpr he.1), hentry, hempty, takeMail, Cluster.setPeer,
          Function.update_self, hcmd, Kv.dealWithApplyMsg, notices, Raft.hand]
        simp
        omega
    · simpa [takeMail, Cluster.setPeer, Raft.hand] using h.snapshot_le p
    · obtain rfl : _ = mail := by simpa [takeMail] using hm
      exact .inl ⟨operation, hstarted, by rw [hcmd], hnext, by rwa [hnext] at hget⟩
    · rw [hfree] at hs
      cases hs

/-- **`Compact`.** -/
theorem Good.compact {k : ℕ} (h : σ.Good gob log) (hstep : σ.compact p k = .ok σ') :
    σ'.Good gob log := by
  obtain ⟨hfree, call, rf, hk, hrun, rfl⟩ := compact_eq_ok hstep
  have hcall := h.compactions p call (List.mem_of_getElem? hk)
  refine h.process (p := p) rfl rfl rfl (fun q hne => ⟨?_, rfl, rfl⟩) ?_ ?_ (h.mail p)
    (h.sending p) fun c hc => ?_
  · simp [view, notices, Cluster.setPeer, hne]
  · refine (h.server p).compact (k := k) ?_
    simp only [Server.step, view, hfree, hk, hrun, notices, Cluster.setPeer, Function.update_self,
      Option.isSome_none, Bool.false_eq_true, if_false, Option.map_some]
  · rw [show (σ.net.setPeer p rf).peers p = rf from Function.update_self ..]
    rcases Raft.compact_cases hrun with rfl | ⟨-, -, hsnap, -⟩
    · exact h.snapshot_le p
    · exact hsnap ▸ hcall
  · simp only [Function.update_self] at hc
    exact h.compactions p c (List.mem_of_mem_eraseIdx hc)

/-- A handler of an older incarnation sends nothing to a new one. -/
theorem notices_restart (h : ∀ c ∈ σ.net.calls, ∀ args reply serverEpoch,
      c.body = .notifying args reply serverEpoch → serverEpoch ≤ σ.net.epoch c.server) :
    σ.net.calls.filterMap (noticeOf p (σ.net.epoch p + 1)) = [] := by
  refine List.filterMap_eq_nil_iff.mpr fun c hc => ?_
  rw [noticeOf]
  split
  · next args reply serverEpoch hbody =>
    refine if_neg fun hold => ?_
    have := h c hc args reply serverEpoch hbody
    rw [hold.1, hold.2] at this
    omega
  · rfl

/-- **A restart.** -/
theorem Good.restart [NeZero n] {a : Protocol n Op} (h : σ.Good gob log) (htracks : σ.Tracks a)
    (hstep : σ.restart p = .ok σ') : σ'.Good gob log := by
  obtain ⟨net, hrun, rfl⟩ := map_eq_ok.mp hstep
  obtain rfl := Except.ok.inj hrun
  have hme := (htracks.net.sim.peer p).me
  obtain ⟨hpers, -, -, hsi, hch, -⟩ := Raft.make_fields p (σ.net.peers p).persister
  obtain ⟨hsaved, htext⟩ := (h.server p).saved
  have hsnap : (Raft.make p (σ.net.peers p).persister).snapshotIndex =
      (σ.net.peers p).snapshotIndex := hsi.trans hsaved
  refine ⟨h.service.step (show Service.step gob _ (.restart p) = .ok _ from rfl), h.on_log,
    fun q => ?_, fun q => ?_,
    fun q mail hm => ?_, fun q hs => ?_, fun q call hc => ?_, h.calls,
    fun c hc args reply e hb => ?_⟩
  · rcases eq_or_ne q p with rfl | hne
    · refine (h.server q).restart ?_
      rw [Server.step, Server.boot, show (σ.view gob q).rf = σ.net.peers q from rfl, hme, hch]
      by_cases hnil : (σ.net.peers q).persister.snapshot = []
      · simp [view, notices, Cluster.setPeer, Service.restart, Service.setServer, hch, hnil,
          notices_restart h.epoch, KVServer.startKVServer]
      · simp [view, notices, Cluster.setPeer, Service.restart, Service.setServer, hch, hnil,
          notices_restart h.epoch, KVServer.startKVServer, Kv.dealWithApplyMsg]
    · convert h.server q using 1
      simp [view, notices, Cluster.setPeer, Service.restart, Service.setServer, hne]
  · change _ ≤ σ.app.log.length
    rcases eq_or_ne q p with rfl | hne
    · simpa [Cluster.setPeer, hsnap] using h.snapshot_le q
    · simpa [Cluster.setPeer, hne] using h.snapshot_le q
  · rcases eq_or_ne q p with rfl | hne
    · -- The snapshot that was saved is not empty, so it is that of the snapshot index.
      simp only [Cluster.setPeer, Function.update_self, hch, hsnap] at hm
      split at hm
      · simp at hm
      next hne =>
      obtain rfl := Option.some.inj hm
      rcases htext with ⟨-, hnil⟩ | htext
      · exact absurd hnil hne
      · exact .inr ⟨_, rfl, htext, by simp [Service.restart, Service.setServer], h.snapshot_le q⟩
    · rw [MailOk, show (σ.app.restart p).consumed q = σ.app.consumed q from
        Function.update_of_ne hne ..]
      exact h.mail q mail (by simpa [hne] using hm)
  · rcases eq_or_ne q p with rfl | hne
    · simp [Service.restart, Service.setServer, KVServer.startKVServer] at hs
    · simpa [Service.restart, Service.setServer, hne] using
        h.sending q (by simpa [Service.restart, Service.setServer, hne] using hs)
  · rcases eq_or_ne q p with rfl | hne
    · simp at hc
    · exact h.compactions q call (by simpa [hne] using hc)
  · refine (h.epoch c hc args reply e hb).trans ?_
    rcases eq_or_ne c.server p with heq | hne
    · simp [heq]
    · simp [hne]

/-! ### A snapshot on its way -/

/-- **A handler of `InstallSnapShot` sends its snapshot.** -/
theorem Good.notify {k : ℕ} (h : σ.Good gob log) (hok : σ.Ok (.notify k))
    (hstep : σ.notify k = .ok σ') : σ'.Good gob log := by
  obtain ⟨c, args, reply, net, hc, hbody, hrun, hcase⟩ := notify_eq_ok hstep
  have hmem := List.mem_of_getElem? hc
  obtain ⟨htext, hle⟩ := h.calls c hmem args (by rw [hbody]; rfl)
  have hne : args.snapshot ≠ [] := htext ▸ gob.encode_ne_nil _
  obtain ⟨-, hempty, hfree, rfl⟩ := hcase.resolve_left fun hnil => hne hnil.1
  obtain ⟨c', hc', hnote⟩ := onCall_eq_ok.mp hrun
  obtain rfl := Option.some.inj (hc.symm.trans hc')
  obtain ⟨args', reply', epoch, hbody', -, rfl⟩ := notify_cases hnote
  obtain ⟨rfl, rfl, -⟩ := Body.notifying.inj (hbody.symm.trans hbody')
  -- It is one of the snapshots that are waiting, and nothing beyond it was consumed.
  have hnotice : noticeOf c.server (σ.net.epoch c.server) c =
      some ⟨args.lastIncludedIndex, args.snapshot⟩ := by
    rw [noticeOf, hbody]
    exact if_pos ⟨rfl, rfl⟩
  have hconsumed : σ.app.consumed c.server ≤ args.lastIncludedIndex := hok c hc _ hnotice
  have hdone : ∀ q : Fin n, noticeOf q (σ.net.epoch q)
      ({ c with body := .installSnapShot args (some reply) } : Call n Op) = none := fun _ => rfl
  obtain ⟨j, hj, -, herase⟩ := exists_filterMap_set hc hnotice
    { c with body := .installSnapShot args (some reply) }
  replace herase := herase (hdone c.server)
  obtain ⟨ch, hnew, -⟩ := notifyAppUseNewSnapShot_eq (σ.net.peers c.server) args.snapshot
  have hcalls : ∀ x ∈ σ.net.calls.set k { c with body := .installSnapShot args (some reply) },
      x ∈ σ.net.calls ∨ x = { c with body := .installSnapShot args (some reply) } :=
    fun x hx => List.mem_or_eq_of_mem_set hx
  refine ⟨h.service, h.on_log, fun q => ?_, fun q => ?_, fun q mail hm => ?_, fun q hs => ?_,
    h.compactions, fun x hx args' ha => ?_, fun x hx args' reply' e hb => ?_⟩
  · rcases eq_or_ne q c.server with rfl | hq
    · refine (h.server c.server).notify (k := j) ?_ ?_
      · intro notice hget
        obtain rfl := Option.some.inj (hj.symm.trans hget)
        simpa [view, hempty] using hconsumed
      · have hget : (σ.view gob c.server).notices[j]? =
          some ⟨args.lastIncludedIndex, args.snapshot⟩ := hj
        simp only [Server.notify, hget, if_neg hne, Kv.dealWithApplyMsg]
        simp [view, notices, takeMail, Cluster.setPeer, Cluster.setBody, herase, hempty,
          Kv.dealWithApplyMsg, hconsumed]
    · have hsame := filterMap_set_of_eq (f := noticeOf q (σ.net.epoch q))
        (y := { c with body := .installSnapShot args (some reply) })
        (by rw [hdone, noticeOf, hbody]; exact (if_neg fun heq => hq heq.1.symm).symm) hc
      convert h.server q using 1
      simp [view, notices, takeMail, Cluster.setPeer, Cluster.setBody, hq, hsame]
  · rcases eq_or_ne q c.server with rfl | hq
    · simpa [takeMail, Cluster.setPeer, Cluster.setBody, hnew] using h.snapshot_le c.server
    · simpa [takeMail, Cluster.setPeer, Cluster.setBody, hq] using h.snapshot_le q
  · rcases eq_or_ne q c.server with rfl | hq
    · obtain rfl : _ = mail := by simpa [takeMail] using hm
      exact .inr ⟨_, rfl, htext, hconsumed, hle⟩
    · exact h.mail q mail (by simpa [takeMail, hq] using hm)
  · have hq : q ≠ c.server := by
      rintro rfl
      simp [takeMail, hfree] at hs
    simpa [takeMail, hq] using h.sending q hs
  · rcases hcalls x hx with hx | rfl
    · exact h.calls x hx args' ha
    · obtain rfl := Option.some.inj ha
      exact ⟨htext, hle⟩
  · rcases hcalls x hx with hx | rfl
    · exact h.epoch x hx args' reply' e hb
    · cases hb

/-! ### The peers among themselves -/

variable {net net' : Cluster n Op}

/-- The calls went on: no handler has a new snapshot to send, and a snapshot that a call carries was
carried before or comes from the disk of its sender. -/
structure CallsOk (net net' : Cluster n Op) : Prop where
  epoch : net'.epoch = net.epoch
  notices : ∀ q, net'.calls.filterMap (noticeOf q (net.epoch q)) =
    net.calls.filterMap (noticeOf q (net.epoch q))
  snapshot : ∀ c ∈ net'.calls, ∀ args ∈ snapshotOf c.body,
    (∃ c' ∈ net.calls, args ∈ snapshotOf c'.body) ∨
    ∃ p peer, (net.peers p).checkConsistency peer = some (some (.installSnapShot args))
  notifying : ∀ c ∈ net'.calls, notifies c = true → c ∈ net.calls

theorem noticeOf_eq_none {c : Call n Op} (h : notifies c = false) (q : Fin n) (epoch : ℕ) :
    noticeOf q epoch c = none := by
  rw [notifies] at h
  rw [noticeOf]
  split at h
  · cases h
  · rfl

/-- New calls. -/
theorem CallsOk.append {peers : Fin n → Raft n Op} {calls : List (Call n Op)}
    (hquiet : ∀ c ∈ calls, notifies c = false)
    (hsnap : ∀ c ∈ calls, ∀ args ∈ snapshotOf c.body,
      ∃ p peer, (net.peers p).checkConsistency peer = some (some (.installSnapShot args))) :
    CallsOk net ⟨peers, net.epoch, net.calls ++ calls⟩ := by
  refine ⟨rfl, fun q => ?_, fun c hc args ha => ?_, fun c hc hn => ?_⟩
  · have hnil : calls.filterMap (noticeOf q (net.epoch q)) = [] :=
      List.filterMap_eq_nil_iff.mpr fun c hc => noticeOf_eq_none (hquiet c hc) q _
    rw [List.filterMap_append, hnil, List.append_nil]
  · rcases List.mem_append.mp hc with hc | hc
    · exact .inl ⟨c, hc, ha⟩
    · exact .inr (hsnap c hc args ha)
  · rcases List.mem_append.mp hc with hc | hc
    · exact hc
    · rw [hquiet c hc] at hn
      cases hn

/-- A call came further. -/
theorem CallsOk.set {peers : Fin n → Raft n Op} {k : ℕ} {c : Call n Op} {body : Body n Op}
    (hc : net.calls[k]? = some c) (hquiet : notifies c = false)
    (hquiet' : notifies { c with body := body } = false)
    (hsnap : ∀ args ∈ snapshotOf body, args ∈ snapshotOf c.body) :
    CallsOk net ⟨peers, net.epoch, net.calls.set k { c with body := body }⟩ := by
  refine ⟨rfl, fun q => ?_, fun x hx args ha => ?_, fun x hx hn => ?_⟩
  · exact filterMap_set_of_eq (by rw [noticeOf_eq_none hquiet, noticeOf_eq_none hquiet']) hc
  · rcases List.mem_or_eq_of_mem_set hx with hx | rfl
    · exact .inl ⟨x, hx, ha⟩
    · exact .inl ⟨c, List.mem_of_getElem? hc, hsnap args ha⟩
  · rcases List.mem_or_eq_of_mem_set hx with hx | rfl
    · exact hx
    · rw [hquiet'] at hn
      cases hn

/-- A call is over. -/
theorem CallsOk.erase {peers : Fin n → Raft n Op} {k : ℕ} {c : Call n Op}
    (hc : net.calls[k]? = some c) (hquiet : notifies c = false) :
    CallsOk net ⟨peers, net.epoch, net.calls.eraseIdx k⟩ := by
  refine ⟨rfl, fun q => ?_, fun x hx args ha => .inl ⟨x, List.mem_of_mem_eraseIdx hx, ha⟩,
    fun x hx _ => List.mem_of_mem_eraseIdx hx⟩
  exact filterMap_eraseIdx_of_none hc (noticeOf_eq_none hquiet q _)

/-- **What the peers do among themselves**: they go on and their snapshots do not, or one of them
installs a snapshot. -/
theorem raft_cases {e : Event n Op} (hamong : amongPeers net e = true)
    (hstep : net.step e = .ok net') :
    CallsOk net net' ∧ (∀ p, (net.peers p).Steady (net'.peers p)) ∨
    ∃ k c args rf reply, net.calls[k]? = some c ∧ c.body = .installSnapShot args none ∧
      locks net e = some c.server ∧
      (net.peers c.server).installSnapShot args = some (rf, reply, true) ∧
      net' = (net.setPeer c.server rf).setBody k c
        (.notifying args reply (net.epoch c.server)) := by
  have hupdate : ∀ {q : Fin n} {rf : Raft n Op}, (net.peers q).Steady rf → ∀ p,
      (net.peers p).Steady (Function.update net.peers q rf p) := by
    intro q rf hs p
    rcases eq_or_ne p q with rfl | hne
    · rwa [Function.update_self]
    · rw [Function.update_of_ne hne]
      exact .refl _
  cases e with
  | broadCastVote q =>
    obtain ⟨⟨rf, sent⟩, hrun, rfl⟩ := Option.map_eq_some_iff.mp (orPanic_eq_ok.mp hstep)
    refine .inl ⟨?_, ?_⟩
    · cases sent with
      | none => exact ⟨rfl, fun _ => rfl, fun c hc args ha => .inl ⟨c, hc, ha⟩, fun _ hc _ => hc⟩
      | some vote =>
        refine CallsOk.append (fun c hc => ?_) fun c hc args ha => ?_
        · obtain ⟨i, -, rfl⟩ := List.mem_map.mp hc
          rfl
        · obtain ⟨i, -, rfl⟩ := List.mem_map.mp hc
          cases ha
    · cases sent <;> exact hupdate (Raft.steady_broadCastVote hrun)
  | checkConsistency q peer =>
    simp only [Cluster.step] at hstep
    split at hstep
    · cases hstep
    obtain ⟨sent, hrun, rfl⟩ := Option.map_eq_some_iff.mp (orPanic_eq_ok.mp hstep)
    refine .inl ⟨?_, ?_⟩
    · cases sent with
      | none => exact ⟨rfl, fun _ => rfl, fun c hc args ha => .inl ⟨c, hc, ha⟩, fun _ hc _ => hc⟩
      | some request =>
        cases request with
        | appendEntries args =>
          refine CallsOk.append (fun c hc => ?_) fun c hc args ha => ?_
          · obtain rfl := List.mem_singleton.mp hc
            rfl
          · obtain rfl := List.mem_singleton.mp hc
            cases ha
        | installSnapShot args =>
          refine CallsOk.append (fun c hc => ?_) fun c hc args' ha => ?_
          · obtain rfl := List.mem_singleton.mp hc
            rfl
          · obtain rfl := List.mem_singleton.mp hc
            obtain rfl := Option.some.inj ha
            exact ⟨q, peer, hrun⟩
    · rcases sent with _ | _ | _ <;> exact fun p => .refl _
  | handle k =>
    obtain ⟨c, hc, hrun⟩ := onCall_eq_ok.mp hstep
    rcases handle_cases hrun with ⟨args, rf, reply, hbody, hrpc, rfl⟩ |
      ⟨args, rf, reply, hbody, hrpc, rfl⟩ | ⟨args, rf, reply, installed, hbody, hrpc, rfl⟩
    · exact .inl ⟨CallsOk.set hc (by rw [notifies, hbody]) rfl (by rintro _ ⟨⟩),
        hupdate (Raft.steady_requestVote hrpc)⟩
    · exact .inl ⟨CallsOk.set hc (by rw [notifies, hbody]) rfl (by rintro _ ⟨⟩),
        hupdate (Raft.steady_appendEntries hrpc)⟩
    · cases installed with
      | true => exact .inr ⟨k, c, args, rf, reply, hc, hbody, by rw [locks, hc]; rfl, hrpc, rfl⟩
      | false =>
        refine .inl ⟨CallsOk.set hc (by rw [notifies, hbody]) rfl ?_, hupdate ?_⟩
        · intro args' ha
          rw [hbody]
          exact ha
        · rcases Raft.installSnapShot_cases hrpc with ⟨-, hs⟩ | ⟨hfalse, -⟩
          · exact hs
          · cases hfalse
  | process k =>
    obtain ⟨c, hc, hrun⟩ := onCall_eq_ok.mp hstep
    obtain ⟨-, ⟨args, reply, hbody, rfl⟩ | ⟨args, reply, rf, hbody, hproc, rfl⟩ |
      ⟨args, reply, hbody, rfl⟩⟩ := process_cases hrun
    · exact .inl ⟨CallsOk.erase hc (by rw [notifies, hbody]),
        hupdate (Raft.steady_sendRequestVoteAndProcess _ reply)⟩
    · exact .inl ⟨CallsOk.erase hc (by rw [notifies, hbody]),
        hupdate (Raft.steady_sendAppendEntriesAndProcess hproc)⟩
    · exact .inl ⟨CallsOk.erase hc (by rw [notifies, hbody]),
        hupdate (Raft.steady_sendSnapShotAndProcess _ _ _ reply)⟩
  | lose k =>
    obtain ⟨c, hc, hrun⟩ := onCall_eq_ok.mp hstep
    obtain rfl := Except.ok.inj hrun
    refine .inl ⟨CallsOk.erase hc ?_, fun p => .refl _⟩
    rw [amongPeers, hc, Option.any_some, Bool.not_eq_true'] at hamong
    exact hamong
  | start | compact | apply | notify | restart => cases hamong

/-- A leader sends a snapshot when the peer is behind its own, which is on its disk then. -/
theorem checkConsistency_installSnapShot {rf : Raft n Op} {peer : Fin n}
    {args : InstallSnapshotArgs n}
    (h : rf.checkConsistency peer = some (some (.installSnapShot args)))
    (hnext : 0 < rf.nextIndex peer) : 0 < rf.snapshotIndex ∧
    args.lastIncludedIndex = rf.snapshotIndex ∧ args.snapshot = rf.persister.snapshot := by
  rw [Raft.checkConsistency] at h
  split at h
  · cases h
  dsimp only at h
  split at h
  · next hbehind =>
    split at h
    · cases h
    · cases h
      exact ⟨by omega, rfl, rfl⟩
  · split at h
    · cases h
    · cases h

/-- The peers go on, and their snapshots do not. -/
theorem Good.peers {a : Protocol n Op} (h : σ.Good gob log) (htracks : σ.Tracks a)
    (hagreed : ∀ p, Agreed log (net.peers p)) (hcalls : CallsOk σ.net net)
    (hsteady : ∀ p, (σ.net.peers p).Steady (net.peers p))
    (hfree : ∀ p, net.peers p = σ.net.peers p ∨ σ.daemon p = none) :
    Good gob log { σ with net := net } := by
  refine ⟨h.service, h.on_log, fun q => ?_, fun q => ?_, h.mail, h.sending, h.compactions,
    fun c hc args ha => ?_, fun c hc args reply e hb => ?_⟩
  · have hview : view gob { σ with net := net } q = { σ.view gob q with rf := net.peers q } := by
      simp only [view, System.notices, hcalls.epoch, hcalls.notices]
    rw [hview]
    rcases hfree q with heq | hidle
    · rw [heq]
      exact h.server q
    · exact (h.server q).steady hidle (hsteady q) (hagreed q)
  · exact (hsteady q).snapshotIndex.le.trans (h.snapshot_le q)
  · rcases hcalls.snapshot c hc args ha with ⟨c', hc', ha'⟩ | ⟨p, peer, hsent⟩
    · exact h.calls c' hc' args ha'
    · obtain ⟨hpos, hidx, hsnap⟩ :=
        checkConsistency_installSnapShot hsent (htracks.net.next p peer)
      rw [hidx, hsnap]
      refine ⟨(h.server p).saved.2.resolve_left fun hzero => ?_, h.snapshot_le p⟩
      exact absurd hzero.1 (Nat.ne_of_gt hpos)
  · rw [show net.epoch = σ.net.epoch from hcalls.epoch]
    exact h.epoch c (hcalls.notifying c hc (by rw [notifies, hb])) args reply e hb

/-- A peer installs a snapshot. -/
theorem Good.install {k : ℕ} {c : Call n Op} {args : InstallSnapshotArgs n} {rf : Raft n Op}
    {reply : InstallSnapshotReply} (h : σ.Good gob log) (hfree : σ.daemon c.server = none)
    (hagreed : Agreed log rf) (hc : σ.net.calls[k]? = some c)
    (hbody : c.body = .installSnapShot args none)
    (hrun : (σ.net.peers c.server).installSnapShot args = some (rf, reply, true))
    (hnet : net = (σ.net.setPeer c.server rf).setBody k c
      (.notifying args reply (σ.net.epoch c.server))) :
    Good gob log { σ with net := net } := by
  subst hnet
  obtain ⟨htext, hle⟩ := h.calls c (List.mem_of_getElem? hc) args (by rw [hbody]; rfl)
  have hsnap : rf.snapshotIndex = args.lastIncludedIndex := by
    rcases Raft.installSnapShot_cases hrun with ⟨hfalse, -⟩ | ⟨-, -, -, hsnap, -⟩
    · cases hfalse
    · exact hsnap
  have hquiet : ∀ q epoch, noticeOf q epoch c = none :=
    noticeOf_eq_none (by rw [notifies, hbody])
  have hcalls : ∀ x ∈ σ.net.calls.set k
      { c with body := .notifying args reply (σ.net.epoch c.server) },
      x ∈ σ.net.calls ∨ x = { c with body := .notifying args reply (σ.net.epoch c.server) } :=
    fun x hx => List.mem_or_eq_of_mem_set hx
  refine ⟨h.service, h.on_log, fun q => ?_, fun q => ?_, h.mail, h.sending, h.compactions,
    fun x hx args' ha => ?_, fun x hx args' reply' e hb => ?_⟩
  · rcases eq_or_ne q c.server with rfl | hq
    · -- For the server it is a handler that leaves a snapshot to be sent.
      have hserver : { σ.view gob c.server with
          rf := rf
          notices := (σ.view gob c.server).notices ++
            [(⟨args.lastIncludedIndex, args.snapshot⟩ : Notice)] }.Inv gob log := by
        have hrun' : (Handler.installSnapShot args).run (σ.view gob c.server).rf =
            some (rf, some ⟨args.lastIncludedIndex, args.snapshot⟩) := by
          rw [Handler.run, show (σ.view gob c.server).rf = σ.net.peers c.server from rfl, hrun]
          rfl
        refine (h.server c.server).handle
          (show Server.Promised gob log _ (.handle (.installSnapShot args)) from ⟨?_, ?_⟩) ?_
        · intro args' heq
          obtain rfl := Handler.installSnapShot.inj heq
          exact htext
        · intro x hx
          obtain rfl := Option.some.inj (hrun'.symm.trans hx)
          exact hagreed
        · rw [Server.step, hrun']
          simp [view, hfree]
      have hnotice : noticeOf c.server (σ.net.epoch c.server)
          { c with body := .notifying args reply (σ.net.epoch c.server) } =
          some ⟨args.lastIncludedIndex, args.snapshot⟩ := if_pos ⟨rfl, rfl⟩
      have hlists : ∀ x, x ∈ (σ.net.calls.set k
          { c with body := .notifying args reply (σ.net.epoch c.server) }).filterMap
            (noticeOf c.server (σ.net.epoch c.server)) ↔
          x ∈ (view gob σ c.server).notices ++ [⟨args.lastIncludedIndex, args.snapshot⟩] := by
        intro x
        rw [mem_filterMap_set hc (hquiet _ _) hnotice, List.mem_append, List.mem_singleton]
        rfl
      convert hserver.lists hlists hserver.compactions using 1
      simp [view, System.notices, Cluster.setPeer, Cluster.setBody]
    · have hsame := filterMap_set_of_eq (f := noticeOf q (σ.net.epoch q))
        (y := { c with body := .notifying args reply (σ.net.epoch c.server) })
        (by rw [hquiet]; exact if_neg fun heq => hq heq.1.symm) hc
      convert h.server q using 1
      simp [view, System.notices, Cluster.setPeer, Cluster.setBody, hq, hsame]
  · rcases eq_or_ne q c.server with rfl | hq
    · simpa [Cluster.setPeer, Cluster.setBody, hsnap] using hle
    · simpa [Cluster.setPeer, Cluster.setBody, hq] using h.snapshot_le q
  · rcases hcalls x hx with hx | rfl
    · exact h.calls x hx args' ha
    · obtain rfl := Option.some.inj ha
      exact ⟨htext, hle⟩
  · rcases hcalls x hx with hx | rfl
    · exact h.epoch x hx args' reply' e hb
    · obtain ⟨-, -, rfl⟩ := Body.notifying.inj hb
      exact Nat.le_refl _

theorem Good.raft {e : Event n Op} {a : Protocol n Op} (h : σ.Good gob log)
    (htracks : σ.Tracks a) (hagreed : ∀ p, Agreed log (σ'.net.peers p))
    (hstep : σ.raft e = .ok σ') : σ'.Good gob log := by
  obtain ⟨hamong, hfree, net, hrun, rfl⟩ := raft_eq_ok hstep
  rcases raft_cases hamong hrun with ⟨hcalls, hsteady⟩ |
    ⟨k, c, args, rf, reply, hc, hbody, hlock, hinst, hnet⟩
  · refine h.peers htracks hagreed hcalls hsteady fun p => ?_
    by_cases hp : locks σ.net e = some p
    · exact .inr (hfree p hp)
    · exact .inl (peers_of_step hamong hrun hp)
  · refine h.install (hfree _ hlock) ?_ hc hbody hinst hnet
    simpa [hnet, Cluster.setPeer, Cluster.setBody] using hagreed c.server

/-! ### Every run -/

/-- **Every step.** -/
theorem Good.step [NeZero n] {e : SystemEvent n} {a : Protocol n Op} (h : σ.Good gob log)
    (htracks : σ.Tracks a) (hagreed : ∀ p, Agreed log (σ'.net.peers p)) (hok : σ.Ok e)
    (hstep : σ.step gob e = .ok σ') : σ'.Good gob log := by
  cases e with
  | invoke c request =>
    obtain ⟨app, happ, rfl⟩ := map_eq_ok.mp hstep
    exact h.app (Service.idle_invoke happ)
      (h.service.step (show Service.step gob _ (.invoke c request) = .ok _ from happ))
  | send c =>
    obtain ⟨app, happ, rfl⟩ := map_eq_ok.mp hstep
    exact h.app (Service.idle_send happ)
      (h.service.step (show Service.step gob _ (.send c) = .ok _ from happ))
  | receive c =>
    obtain ⟨app, happ, rfl⟩ := map_eq_ok.mp hstep
    exact h.app (Service.idle_receive happ)
      (h.service.step (show Service.step gob _ (.receive c) = .ok _ from happ))
  | giveUp c =>
    obtain ⟨app, happ, rfl⟩ := map_eq_ok.mp hstep
    exact h.app (Service.idle_giveUp happ)
      (h.service.step (show Service.step gob _ (.giveUp c) = .ok _ from happ))
  | serve k =>
    obtain ⟨app, happ, rfl⟩ := map_eq_ok.mp hstep
    exact h.app (Service.idle_serve happ)
      (h.service.step (show Service.step gob _ (.serve k) = .ok _ from happ))
  | turn k timeOut => exact h.turn hagreed hstep
  | raft e => exact h.raft htracks hagreed hstep
  | wake p => exact h.wake hstep
  | advance p => exact h.advance htracks hok hstep
  | notify k => exact h.notify hok hstep
  | deal p => exact h.deal hstep
  | finishApply p compact => exact h.finishApply hstep
  | compact p k => exact h.compact hstep
  | restart p => exact h.restart htracks hstep

theorem good_init [NeZero n] (gob : Gob Kv) (log : List Op) : (init n).Good gob log where
  service := Service.inv_init
  on_log := List.nil_prefix
  server p := Server.inv_init gob log p
  snapshot_le _ := Nat.le_refl _
  mail p mail hm := by simp [init] at hm
  sending p hs := by simp [init, Service.init, KVServer.startKVServer] at hs
  compactions p call hc := by simp [init] at hc
  calls c hc := by simp [init, Cluster.init] at hc
  epoch c hc := by simp [init, Cluster.init] at hc

/-- **The three layers fit** in every state of a run, for one log. -/
theorem Run.good [NeZero n] {τ : List (System n)} (h : Run gob τ) :
    ∃ log, ∀ σ ∈ τ, σ.Good gob log := by
  obtain ⟨log, hlog⟩ := h.agreed
  refine ⟨log, Trace.invariant (good_init gob log) ?_ (h.strengthen hlog)⟩
  rintro σ e σ' hgood ⟨⟨⟨a, htracks⟩, -⟩, ⟨-, hagreed⟩, hok, hstep⟩
  exact hgood.step htracks hagreed hok hstep

end System

/-- **The system is linearizable.** In every run of the clerks, the servers and the Raft peers in
which no leader takes a false success for true and no snapshot is overtaken on its way to the store,
what the clients have seen is linearizable. No two clerks have the same `ClientID`, and a clerk has
one operation at a time; the numbers that `nrand` draws and the goroutines that share a clerk are
not part of this system. -/
theorem system_linearizable [NeZero n] {τ : List (System n)} (h : System.Run gob τ)
    {σ : System n} (hσ : σ ∈ τ) : Linearizable mapSpec (σ.app.history.map Prod.snd) := by
  obtain ⟨log, hgood⟩ := h.good
  exact (hgood σ hσ).service.clients.linearizable

/-- Server 0 is elected and client 7 puts `x`. The server crashes, starts and is elected again, and
the client gets `x`, after the server has dealt with both commands. -/
def putCrashGet : List (SystemEvent 3) :=
  [.raft (.broadCastVote 0), .raft (.handle 0), .raft (.process 0), .invoke 7 (.put "x" "1"),
    .send 7, .serve 0, .turn 0 false, .turn 0 false, .turn 0 false, .turn 0 false,
    .raft (.checkConsistency 0 1), .raft (.handle 1), .raft (.process 1), .wake 0, .advance 0,
    .deal 0, .finishApply 0 false, .advance 0, .turn 0 false, .turn 0 false, .turn 0 false,
    .turn 0 false, .receive 7, .restart 0, .raft (.broadCastVote 0), .raft (.handle 1),
    .raft (.process 1), .invoke 7 (.get "x"), .send 7, .serve 1, .turn 1 false, .turn 1 false,
    .turn 1 false, .turn 1 false, .raft (.checkConsistency 0 1), .raft (.handle 2),
    .raft (.process 2), .wake 0, .advance 0, .deal 0, .finishApply 0 false, .advance 0, .deal 0,
    .finishApply 0 false, .turn 1 false, .turn 1 false, .turn 1 false, .turn 1 false, .receive 7]

theorem system_linearizable_three : ∃ τ : List (System 3), System.Run (Gob.unary Kv) τ ∧
    ∃ σ ∈ τ, σ.app.history.map Prod.snd = answeredHistory ∧
      Linearizable mapSpec (σ.app.history.map Prod.snd) := by
  have hseen : (putCrashGet.foldlM (stepIf .disabled System.Ok (System.step (Gob.unary Kv)))
      (System.init 3)).toOption.map (fun σ => σ.app.history.map Prod.snd) =
      some answeredHistory := by
    decide +kernel
  obtain ⟨σ, hσ, hhistory⟩ := Option.map_eq_some_iff.mp hseen
  obtain ⟨τ, hrun⟩ := Trace.exists_of_stepIf (Cluster.eq_ok_of_mem_toOption hσ)
  exact ⟨σ :: τ, hrun, σ, List.mem_cons_self, hhistory,
    system_linearizable hrun List.mem_cons_self⟩

end RaftKVDB
