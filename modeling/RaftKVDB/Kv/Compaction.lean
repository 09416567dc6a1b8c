import RaftKVDB.Kv.Delivery

/-!
# Compaction and restart

A server that never receives a snapshot from a leader: only its own `Compact` and its own crashes
come between the log and the store. `Compact` runs in goroutines of its own, at any time and in any
order after the deliveries that started them, and `Make` starts with `commitIndex` and `lastApplied`
at 0 over what the persister has.

## Main results

* `compaction_invisible` — after the delivery of index `i` the store is what the first `i` commands
  make of the empty one
-/

namespace RaftKVDB

open Foundations

variable {n : ℕ}

namespace Server

/-- No `InstallSnapShot` is received. -/
def NoInstall (_ : Server n) : ServerEvent n → Prop
  | .handle (.installSnapShot _) => False
  | _ => True

variable {gob : Gob Kv} {log : List Op} {σ σ' : Server n} {me : Fin n} {τ : List (Server n)}

/-- No handler has a snapshot to send. -/
theorem NoInstall.notices {e : ServerEvent n} (hno : σ.NoInstall e) (hnone : σ.notices = [])
    (hstep : σ.step gob e = some σ') : σ'.notices = [] := by
  cases e with
  | handle handler =>
    rw [step] at hstep
    split at hstep
    · cases hstep
    obtain ⟨⟨rf, notice⟩, hrun, rfl⟩ := Option.map_eq_some_iff.mp hstep
    rcases Handler.run_cases hrun with ⟨rfl, -⟩ | ⟨args, rfl, -⟩
    · simpa using hnone
    · exact hno.elim
  | wake =>
    rw [step] at hstep
    split at hstep
    · cases hstep
    · cases hstep
      exact hnone
  | advance compact =>
    rw [step, advance] at hstep
    split at hstep
    · cases hstep
    split at hstep
    · cases hstep
      exact hnone
    split at hstep
    · cases hstep
      exact hnone
    split at hstep
    · cases hstep
    obtain ⟨kv, -, rfl⟩ := Option.map_eq_some_iff.mp hstep
    exact hnone
  | notify k =>
    rw [step, notify, hnone] at hstep
    cases hstep
  | compact k =>
    rw [step] at hstep
    split at hstep
    · cases hstep
    split at hstep
    · cases hstep
    obtain ⟨rf, -, rfl⟩ := Option.map_eq_some_iff.mp hstep
    exact hnone
  | restart =>
    rw [step, boot] at hstep
    obtain ⟨kv, -, rfl⟩ := Option.map_eq_some_iff.mp hstep
    rfl

/-- Where no snapshot waits to be sent, none can be overtaken. -/
theorem inOrder_of_notices (hnone : σ.notices = []) (e : ServerEvent n) : σ.InOrder e := by
  cases e with
  | advance compact =>
    intro x _ _ _ notice hmem
    rw [hnone] at hmem
    exact nomatch hmem
  | notify k =>
    intro notice hmem
    rw [hnone] at hmem
    exact nomatch hmem
  | _ => trivial

/-- What holds in every run without `InstallSnapShot`. -/
theorem Run.inv_of_noInstall (h : Run gob log NoInstall me τ) :
    ∀ σ ∈ τ, σ.Inv gob log ∧ σ.notices = [] := by
  refine Trace.invariant (P := fun σ => σ.Inv gob log ∧ σ.notices = [])
    ⟨inv_init gob log me, rfl⟩ ?_ h
  rintro σ e σ' ⟨hinv, hnone⟩ ⟨hprom, hno, hstep⟩
  exact ⟨hinv.step hprom (inOrder_of_notices hnone e) hstep, hno.notices hnone hstep⟩

/-- What a turn of the apply daemon that sends a command is about. -/
theorem of_advance_sent {compact : Bool} (hstep : σ.advance gob compact = some σ') {i : ℕ}
    {command : Option Op}
    (hsent : σ'.rf.applyCh = σ.rf.applyCh ++ [⟨i, command, true, []⟩]) :
    ∃ last e, σ.daemon = some (i, last) ∧ i ≤ last ∧ σ.rf.snapshotIndex < i ∧
      σ.rf.entryAt i = some e ∧ e.command = command ∧ σ'.rf.lastApplied = i ∧
      σ'.rf.snapshotIndex = σ.rf.snapshotIndex := by
  rw [advance] at hstep
  split at hstep
  · cases hstep
  next j last hd =>
  split at hstep
  · cases hstep
    simp at hsent
  next hend =>
  split at hstep
  · cases hstep
    simp at hsent
  next hsnap =>
  split at hstep
  · cases hstep
  next e he =>
  obtain ⟨kv, -, rfl⟩ := Option.map_eq_some_iff.mp hstep
  obtain ⟨rfl, rfl⟩ : j = i ∧ e.command = command := by simpa using hsent
  exact ⟨last, e, hd, by omega, by omega, he, rfl, rfl, rfl⟩

/-- The daemon can send a command that is in the log. -/
theorem exists_advance_sent (compact : Bool) {i last : ℕ} {e : LogEntry Op} {operation : Op}
    (hd : σ.daemon = some (i, last)) (hle : i ≤ last) (hsnap : σ.rf.snapshotIndex < i)
    (he : σ.rf.entryAt i = some e) (hcmd : e.command = some operation) :
    ∃ σ', σ.step gob (.advance compact) = some σ' ∧
      σ'.rf.applyCh = σ.rf.applyCh ++ [⟨i, some operation, true, []⟩] := by
  have hentry : goIndex σ.rf.logs (σ.rf.logIdxGlobal2Local i) = some e := he
  simp only [step, advance, hd, if_neg (Nat.not_lt.mpr hle), if_neg (Nat.not_le.mpr hsnap), hentry,
    Kv.dealWithApplyMsg, hcmd, if_true, Option.map_some]
  exact ⟨_, rfl, rfl⟩

end Server

/-- **Compaction and restart are invisible to the store.** In every run of a server that receives
no `InstallSnapShot`, over any sequence of committed commands, when the apply daemon has delivered
index `i` then `Kvdb` and `DupMap` are what the first `i` commands make of the empty store. -/
theorem compaction_invisible {gob : Gob Kv} {log : List Op} {me : Fin n} {σ σ' : Server n}
    {τ : List (Server n)} (h : Server.Run gob log Server.NoInstall me (σ :: τ)) {compact : Bool}
    (hstep : σ.step gob (.advance compact) = some σ') {i : ℕ} {command : Option Op}
    (hsent : σ'.rf.applyCh = σ.rf.applyCh ++ [⟨i, command, true, []⟩]) :
    0 < i ∧ log[i - 1]? = command ∧ σ'.kv = Kv.after (log.take i) := by
  obtain ⟨hinv, hnone⟩ := h.inv_of_noInstall σ List.mem_cons_self
  have hinv' := hinv.step (e := .advance compact) trivial (Server.inOrder_of_notices hnone _) hstep
  obtain ⟨last, e, hd, hle, hsnap, he, hcmd, hla, hsi⟩ := Server.of_advance_sent hstep hsent
  obtain ⟨-, -, hlast⟩ := hinv.daemon i last hd
  obtain ⟨operation, e', hget, hholds, hcmd'⟩ := hinv.agreed i hsnap (hle.trans hlast)
  obtain rfl := Option.some.inj (he.symm.trans hholds.2)
  refine ⟨by omega, by rw [hget, ← hcmd', hcmd], ?_⟩
  -- What was consumed goes exactly to what was applied last.
  have hconsumed : σ'.consumed = i := by
    have := hinv'.applied_le
    have := hinv'.consumed_le
    omega
  rw [hinv'.kv, hconsumed]

/-- The leader, server 1 of three, sends the first command, and that it is committed. -/
def firstAppend : Handler 3 :=
  .appendEntries ⟨1, 1, 0, 0, [⟨1, 1, some ⟨.put, "x", "1", 7, 0⟩⟩], 1⟩

theorem promised_firstAppend :
    (Server.init 0).Promised (Gob.unary Kv) twoCommands (.handle firstAppend) := by
  refine ⟨nofun, fun x hx i hlt hle => ?_⟩
  have hrun : ∀ x ∈ firstAppend.run (Server.init (0 : Fin 3)).rf, x.1.commitIndex = 1 ∧
      x.1.entryAt 1 = some ⟨1, 1, some ⟨.put, "x", "1", 7, 0⟩⟩ := by decide +kernel
  obtain ⟨hci, hentry⟩ := hrun x hx
  obtain rfl : i = 1 := by omega
  exact ⟨_, _, rfl, ⟨hlt, hentry⟩, rfl⟩

/-- The first command is delivered and compacted, server 0 crashes, and the second command is
delivered after the restart. -/
theorem compaction_invisible_two : ∃ (σ σ' : Server 3) (τ : List (Server 3)),
    Server.Run (Gob.unary Kv) twoCommands Server.NoInstall 0 (σ :: τ) ∧
    σ.rf.snapshotIndex = 1 ∧ σ.step (Gob.unary Kv) (.advance false) = some σ' ∧
    σ'.kv = Kv.after twoCommands := by
  have h₁ : Server.Run (Gob.unary Kv) twoCommands Server.NoInstall 0
      [(Server.init 0).next (Gob.unary Kv) (.handle firstAppend), Server.init 0] :=
    Server.Run.next Trace.start promised_firstAppend trivial (by decide +kernel)
  have h₂ := h₁.next (e := .wake) trivial trivial (by decide +kernel)
  have h₃ := h₂.next (e := .advance true) trivial trivial (by decide +kernel)
  have h₄ := h₃.next (e := .advance false) trivial trivial (by decide +kernel)
  have h₅ := h₄.next (e := .compact 0) trivial trivial (by decide +kernel)
  have h₆ := h₅.next (e := .restart) trivial trivial (by decide +kernel)
  have h₇ := h₆.next (e := .handle twoAppend) (promised_twoAppend (by decide +kernel)) trivial
    (by decide +kernel)
  have h₈ := h₇.next (e := .wake) trivial trivial (by decide +kernel)
  have h₉ := h₈.next (e := .advance false) trivial trivial (by decide +kernel)
  have hsecond : ∀ {σ : Server 3} {τ : List (Server 3)},
      Server.Run (Gob.unary Kv) twoCommands Server.NoInstall 0 (σ :: τ) →
      σ.daemon = some (2, 2) ∧ σ.rf.snapshotIndex = 1 ∧
        σ.rf.entryAt 2 = some ⟨2, 1, some ⟨.append, "x", "2", 7, 1⟩⟩ →
      ∃ (σ σ' : Server 3) (τ : List (Server 3)),
        Server.Run (Gob.unary Kv) twoCommands Server.NoInstall 0 (σ :: τ) ∧
        σ.rf.snapshotIndex = 1 ∧ σ.step (Gob.unary Kv) (.advance false) = some σ' ∧
        σ'.kv = Kv.after twoCommands := by
    rintro σ τ h ⟨hd, hsnap, hentry⟩
    obtain ⟨σ', hstep, hsent⟩ := Server.exists_advance_sent false hd (Nat.le_refl 2) (by omega)
      hentry rfl
    exact ⟨σ, σ', τ, h, hsnap, hstep, (compaction_invisible h hstep hsent).2.2⟩
  exact hsecond h₉ (by decide +kernel)

end RaftKVDB
