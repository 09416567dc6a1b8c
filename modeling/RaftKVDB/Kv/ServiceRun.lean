import RaftKVDB.Kv.Clients

/-!
# What holds in every run of the service

Every server knows the commands it was given, every handler believes no more than its server knows,
and every reply is right at some point of the log.

What the servers do is apart from what the clerks do: `Service.Served` does not speak of the clerks.

## Main results

* `Service.Served` — what holds on the side of the servers
* `Service.Served.step` — what the servers do keeps it
* `Service.Inv` — the invariant
* `Service.Inv.step` — every event keeps it
-/

namespace RaftKVDB

open Foundations

variable {n : ℕ} {c : ℕ} {ck : Clerk n}

/-- Nothing that a call has to do with is lost, unless its server starts again. -/
structure Service.Le (σ σ' : Service n) : Prop where
  history : σ.history ⊆ σ'.history
  log : σ.log <+: σ'.log
  epoch : ∀ s, σ.epoch s ≤ σ'.epoch s
  live : ∀ s, σ'.epoch s = σ.epoch s →
    (σ.servers s).ClosedLe (σ'.servers s) ∧ σ.known s ⊆ σ'.known s

theorem Service.Le.of_same {σ σ' : Service n} (hhistory : σ'.history = σ.history)
    (hlog : σ'.log = σ.log) (hepoch : σ'.epoch = σ.epoch) (hservers : σ'.servers = σ.servers)
    (hconsumed : σ'.consumed = σ.consumed) : σ.Le σ' where
  history := hhistory ▸ List.Subset.refl _
  log := hlog ▸ List.prefix_rfl
  epoch _ := hepoch ▸ Nat.le_refl _
  live s _ := by
    rw [hservers, known, known, hconsumed, hlog]
    exact ⟨.refl _, List.Subset.refl _⟩

/-- A call is one of its clerk's, its handler knows what it may, and its reply is right. -/
structure KvCall.Sound (σ : Service n) (call : KvCall n) : Prop where
  called : Called σ.history (call.args.clientID, call.args.cmdID) call.args.request
  epoch_le : call.epoch ≤ σ.epoch call.server
  justified : call.epoch = σ.epoch call.server → ∀ pc, call.pc = some pc →
    pc.Justified (σ.servers call.server) (σ.known call.server) call.args
  answered : ∀ reply output, call.pc = some (.replied reply) →
    call.args.output reply = some output →
      ∃ k ≤ σ.log.length, Answered (σ.log.take k) call.args output

theorem KvCall.Sound.mono {σ σ' : Service n} {call : KvCall n} (h : call.Sound σ) (hle : σ.Le σ') :
    call.Sound σ' where
  called := h.called.mono hle.history
  epoch_le := h.epoch_le.trans (hle.epoch _)
  justified hepoch pc hpc := by
    have hsame : σ'.epoch call.server = σ.epoch call.server :=
      (hepoch ▸ h.epoch_le).antisymm (hle.epoch _)
    obtain ⟨hclosed, hsub⟩ := hle.live _ hsame
    exact (h.justified (hepoch.trans hsame) pc hpc).mono hclosed hsub
  answered reply output hpc hout := by
    obtain ⟨k, hk, hans⟩ := h.answered reply output hpc hout
    refine ⟨k, hk.trans hle.log.length_le, ?_⟩
    obtain ⟨rest, hrest⟩ := hle.log
    rwa [← hrest, List.take_append_of_le_length hk]

/-- A clerk waits for a call of the operation it is busy with. -/
def Clerk.Waits (ck : Clerk n) (calls : List (KvCall n)) : Prop :=
  ∀ k, ck.waiting = some k → ∃ call, calls[k]? = some call ∧ ck.current = some call.args

theorem Clerk.Waits.append {calls : List (KvCall n)} (h : ck.Waits calls) (call : KvCall n) :
    ck.Waits (calls ++ [call]) := by
  intro k hk
  obtain ⟨x, hx, hcur⟩ := h k hk
  exact ⟨x, by rwa [List.getElem?_append_left (List.getElem?_eq_some_iff.mp hx).1], hcur⟩

theorem Clerk.Waits.of_args {calls calls' : List (KvCall n)} (h : ck.Waits calls)
    (hargs : ∀ k : ℕ, (calls'[k]?).map KvCall.args = (calls[k]?).map KvCall.args) :
    ck.Waits calls' := by
  intro k hk
  obtain ⟨call, hcall, hcur⟩ := h k hk
  have hmap := hargs k
  rw [hcall, Option.map_some] at hmap
  obtain ⟨call', hcall', heq⟩ := Option.map_eq_some_iff.mp hmap
  exact ⟨call', hcall', heq ▸ hcur⟩

/-- **The side of the servers**: commands come from clients, in order, and every server and every
handler knows what it may. -/
structure Service.Served (σ : Service n) : Prop where
  orderly : Orderly σ.log
  started : ∀ operation ∈ σ.started,
    Called σ.history (operation.clientID, operation.cmdID) operation.request
  consumed_le : ∀ s, σ.consumed s ≤ σ.log.length
  knows : ∀ s, (σ.servers s).Knows (σ.known s)
  calls : ∀ call ∈ σ.calls, call.Sound σ

/-- What holds in every run. -/
structure Service.Inv (σ : Service n) : Prop where
  clients : Clients σ.log σ.clerks σ.history
  started : ∀ operation ∈ σ.started,
    Called σ.history (operation.clientID, operation.cmdID) operation.request
  waiting : ∀ c, (σ.clerks c).Waits σ.calls
  consumed_le : ∀ s, σ.consumed s ≤ σ.log.length
  knows : ∀ s, (σ.servers s).Knows (σ.known s)
  calls : ∀ call ∈ σ.calls, call.Sound σ

/-- The events of the servers. -/
def ServiceEvent.OfServer : ServiceEvent n → Prop
  | .invoke _ _ | .send _ | .receive _ | .giveUp _ => False
  | _ => True

namespace Service

variable {σ σ' : Service n} {s : Fin n} {k j : ℕ} {kv : KVServer} {call call' : KvCall n}

theorem servers_setServer_self : (σ.setServer s kv j).servers s = kv := Function.update_self ..

theorem servers_setServer_of_ne {s' : Fin n} (h : s' ≠ s) :
    (σ.setServer s kv j).servers s' = σ.servers s' := Function.update_of_ne h ..

theorem known_setServer_self : (σ.setServer s kv j).known s = σ.log.take j := by
  simp [known, setServer]

theorem known_setServer_of_ne {s' : Fin n} (h : s' ≠ s) :
    (σ.setServer s kv j).known s' = σ.known s' := by
  simp [known, setServer, Function.update_of_ne h]

theorem le_setServer (hj : σ.consumed s ≤ j) (hle : (σ.servers s).ClosedLe kv) :
    σ.Le (σ.setServer s kv j) where
  history := List.Subset.refl _
  log := List.prefix_rfl
  epoch _ := Nat.le_refl _
  live s' _ := by
    by_cases hs : s' = s
    · subst hs
      rw [servers_setServer_self, known_setServer_self]
      exact ⟨hle, List.take_subset_take_left _ hj⟩
    · rw [servers_setServer_of_ne hs, known_setServer_of_ne hs]
      exact ⟨.refl _, List.Subset.refl _⟩

theorem knows_setServer (h : ∀ s, (σ.servers s).Knows (σ.known s)) (hkv : kv.Knows (σ.log.take j))
    (s' : Fin n) : ((σ.setServer s kv j).servers s').Knows ((σ.setServer s kv j).known s') := by
  by_cases hs : s' = s
  · subst hs
    rwa [servers_setServer_self, known_setServer_self]
  · rw [servers_setServer_of_ne hs, known_setServer_of_ne hs]
    exact h s'

theorem eq_of_mem_starts {args : Args} {pc : Pc} {t : Turn} {operation : Op}
    (h : operation ∈ args.starts pc t) : operation = args.operation := by
  unfold Args.starts at h
  split at h
  · exact List.mem_singleton.mp h
  · cases h

/-! ### The side of the servers -/

theorem le_restart (s : Fin n) : σ.Le (σ.restart s) where
  history := List.Subset.refl _
  log := List.prefix_rfl
  epoch := (Function.forall_update_iff _ fun s' e => σ.epoch s' ≤ e).mpr
    ⟨Nat.le_succ _, fun _ _ => Nat.le_refl _⟩
  live s' hepoch := by
    have hs : s' ≠ s := by
      rintro rfl
      exact absurd ((Function.update_self ..).symm.trans hepoch) (Nat.succ_ne_self _)
    have hservers : (σ.restart s).servers s' = σ.servers s' := Function.update_of_ne hs ..
    have hknown : (σ.restart s).known s' = σ.known s' := by
      simp [known, Service.restart, Service.setServer, Function.update_of_ne hs]
    rw [hservers, hknown]
    exact ⟨.refl _, List.Subset.refl _⟩

theorem le_see (e : KvEvent) : σ.Le (σ.see e) where
  history := List.subset_append_left _ _
  log := List.prefix_rfl
  epoch _ := Nat.le_refl _
  live _ _ := ⟨.refl _, List.Subset.refl _⟩

namespace Served

theorem start (h : σ.Served) {commands : List Op}
    (hcalled : ∀ operation ∈ commands,
      Called σ.history (operation.clientID, operation.cmdID) operation.request) :
    Served { σ with started := σ.started ++ commands } where
  orderly := h.orderly
  started x hx := (List.mem_append.mp hx).elim (h.started x) (hcalled x)
  consumed_le := h.consumed_le
  knows := h.knows
  calls x hx := (h.calls x hx).mono (.of_same rfl rfl rfl rfl rfl)

theorem setCall (h : σ.Served) (hsound : call'.Sound σ) : (σ.setCall k call').Served where
  orderly := h.orderly
  started := h.started
  consumed_le := h.consumed_le
  knows := h.knows
  calls x hx := by
    rcases List.mem_or_eq_of_mem_set hx with hx | rfl
    · exact (h.calls x hx).mono (.of_same rfl rfl rfl rfl rfl)
    · exact hsound.mono (.of_same rfl rfl rfl rfl rfl)

/-- A server goes on. -/
theorem setServer (h : σ.Served) (hj : σ.consumed s ≤ j) (hlen : j ≤ σ.log.length)
    (hle : (σ.servers s).ClosedLe kv) (hknows : kv.Knows (σ.log.take j)) :
    (σ.setServer s kv j).Served where
  orderly := h.orderly
  started := h.started
  consumed_le := (Function.forall_update_iff _ fun _ j => j ≤ σ.log.length).mpr
    ⟨hlen, fun s' _ => h.consumed_le s'⟩
  knows := knows_setServer h.knows hknows
  calls x hx := (h.calls x hx).mono (le_setServer hj hle)

/-- What a clerk does is of no interest, except for what the clients see of it. -/
theorem setClerk (h : σ.Served) (c : ℕ) (ck : Clerk n) : (σ.setClerk c ck).Served where
  orderly := h.orderly
  started := h.started
  consumed_le := h.consumed_le
  knows := h.knows
  calls x hx := (h.calls x hx).mono (.of_same rfl rfl rfl rfl rfl)

theorem see (h : σ.Served) (e : KvEvent) : (σ.see e).Served where
  orderly := h.orderly
  started x hx := (h.started x hx).mono (List.subset_append_left _ _)
  consumed_le := h.consumed_le
  knows := h.knows
  calls x hx := (h.calls x hx).mono (le_see e)

/-- A new call. -/
theorem addCall (h : σ.Served) {args : Args}
    (hcalled : Called σ.history (args.clientID, args.cmdID) args.request) (s : Fin n) :
    Served { σ with calls := σ.calls ++ [⟨args, s, 0, none⟩] } where
  orderly := h.orderly
  started := h.started
  consumed_le := h.consumed_le
  knows := h.knows
  calls x hx := by
    rcases List.mem_append.mp hx with hx | hx
    · exact (h.calls x hx).mono (.of_same rfl rfl rfl rfl rfl)
    · obtain rfl := List.mem_singleton.mp hx
      exact ⟨hcalled, Nat.zero_le _, nofun, nofun⟩

theorem serve (h : σ.Served) (hstep : σ.serve k = .ok σ') : σ'.Served := by
  rw [Service.serve] at hstep
  split at hstep
  · rename_i call hk
    split_ifs at hstep
    cases hstep
    have hcall := h.calls call (List.mem_of_getElem? hk)
    refine h.setCall ⟨hcall.called, Nat.le_refl _, fun _ pc hpc => ?_, nofun⟩
    cases hpc
    trivial
  · cases hstep

theorem turn (h : σ.Served) {t : Turn} (hstep : σ.turn k t = .ok σ') : σ'.Served := by
  rw [Service.turn] at hstep
  split at hstep
  · rename_i call hk
    split at hstep
    · rename_i pc hpc
      split_ifs at hstep with hepoch
      · obtain ⟨⟨kv, pc'⟩, hturn, hstep⟩ := bind_eq_ok.mp hstep
        cases hstep
        have hcall := h.calls call (List.mem_of_getElem? hk)
        have hknows := h.knows call.server
        have hjust := hcall.justified (not_not.mp hepoch) pc hpc
        obtain ⟨hknows', hle, hjust'⟩ := hknows.turn (h.orderly.take _) hjust hturn
        have hserver := h.setServer (Nat.le_refl _) (h.consumed_le _) hle hknows'
        have hsound : KvCall.Sound (σ.setServer call.server kv (σ.consumed call.server))
            { call with pc := some pc' } := by
          refine ⟨hcall.called, hcall.epoch_le, ?_, ?_⟩
          · rintro - _ ⟨⟩
            rwa [servers_setServer_self, known_setServer_self]
          · rintro reply output ⟨⟩ hout
            exact ⟨_, h.consumed_le _, hknows.answered hjust hturn hout⟩
        refine (hserver.setCall hsound).start fun x hx => ?_
        obtain rfl := eq_of_mem_starts hx
        rw [Args.operation_clientID, Args.operation_cmdID, Args.operation_request]
        exact hcall.called
    · cases hstep
  · cases hstep

theorem apply (h : σ.Served) {gob : Gob Kv} (hstep : σ.apply gob s = .ok σ') : σ'.Served := by
  rw [Service.apply] at hstep
  split at hstep
  · rename_i operation hop
    obtain ⟨kv, hdeal, hstep⟩ := bind_eq_ok.mp hstep
    cases hstep
    obtain ⟨hknows, hle⟩ := (h.knows s).apply hdeal
    have hlt := (List.getElem?_eq_some_iff.mp hop).1
    refine h.setServer (Nat.le_succ _) hlt hle ?_
    rwa [List.take_add_one, hop]
  · cases hstep

theorem finishApply (h : σ.Served) (hstep : σ.finishApply s = .ok σ') : σ'.Served := by
  obtain ⟨kv, hfin, hstep⟩ := bind_eq_ok.mp hstep
  cases hstep
  obtain ⟨hknows, hle⟩ := (h.knows s).finishApplyMsg hfin
  exact h.setServer (Nat.le_refl _) (h.consumed_le s) hle hknows

theorem install (h : σ.Served) {gob : Gob Kv} (hstep : σ.install gob s j = .ok σ') :
    σ'.Served := by
  rw [Service.install] at hstep
  split_ifs at hstep with hj
  obtain ⟨kv, hdeal, hstep⟩ := bind_eq_ok.mp hstep
  cases hstep
  obtain ⟨hknows, hle⟩ := (h.knows s).install (List.take_subset_take_left _ hj.1) hdeal
  exact h.setServer hj.1 hj.2 hle hknows

theorem restart (h : σ.Served) (s : Fin n) : (σ.restart s).Served where
  orderly := h.orderly
  started := h.started
  consumed_le := (Function.forall_update_iff _ fun _ j => j ≤ σ.log.length).mpr
    ⟨Nat.zero_le _, fun s' _ => h.consumed_le s'⟩
  knows s' := knows_setServer h.knows KVServer.knows_startKVServer s'
  calls x hx := (h.calls x hx).mono (le_restart s)

theorem commit (h : σ.Served) {operation : Op}
    (hearlier : ∀ m < operation.cmdID, Occurs σ.log operation.clientID m)
    (hstep : σ.commit operation = .ok σ') : σ'.Served := by
  rw [Service.commit] at hstep
  split_ifs at hstep
  cases hstep
  have hknown : ∀ s, Service.known { σ with log := σ.log ++ [operation] } s = σ.known s := fun s =>
    List.take_append_of_le_length (h.consumed_le s)
  exact
    { orderly := h.orderly.append_singleton hearlier
      started := h.started
      consumed_le := fun s => (h.consumed_le s).trans (by simp)
      knows := fun s => (hknown s).symm ▸ h.knows s
      calls := fun x hx => (h.calls x hx).mono
        ⟨List.Subset.refl _, List.prefix_append _ _, fun _ => Nat.le_refl _, fun s _ =>
          ⟨.refl _, (hknown s).symm ▸ List.Subset.refl _⟩⟩ }

/-- **What the servers do** keeps it, if commands of a client are agreed on in order. -/
theorem step [NeZero n] (h : σ.Served) {gob : Gob Kv} {e : ServiceEvent n} (he : e.OfServer)
    (hcommit : ∀ operation, e = .commit operation →
      ∀ m < operation.cmdID, Occurs σ.log operation.clientID m)
    (hstep : σ.step gob e = .ok σ') : σ'.Served := by
  cases e with
  | invoke | send | receive | giveUp => exact he.elim
  | serve k => exact h.serve hstep
  | turn k t => exact h.turn hstep
  | apply s => exact h.apply hstep
  | finishApply s => exact h.finishApply hstep
  | install s j => exact h.install hstep
  | restart s =>
    cases hstep
    exact h.restart s
  | commit operation => exact h.commit (hcommit operation rfl) hstep

end Served

/-! ### The clerks -/

/-- What the servers leave alone. -/
structure SameClients (σ σ' : Service n) : Prop where
  clerks : σ'.clerks = σ.clerks
  history : σ'.history = σ.history
  args : ∀ k : ℕ, (σ'.calls[k]?).map KvCall.args = (σ.calls[k]?).map KvCall.args

theorem args_set {calls : List (KvCall n)} (hk : calls[k]? = some call)
    (hargs : call'.args = call.args) (i : ℕ) :
    ((calls.set k call')[i]?).map KvCall.args = (calls[i]?).map KvCall.args := by
  rcases eq_or_ne k i with rfl | hne
  · rw [List.getElem?_set_self (List.getElem?_eq_some_iff.mp hk).1, hk, Option.map_some, hargs,
      Option.map_some]
  · rw [List.getElem?_set_ne hne]

/-- The servers do nothing to the clerks, and to the log only when a command is agreed on. -/
theorem sameClients_of_step [NeZero n] {gob : Gob Kv} {e : ServiceEvent n} (he : e.OfServer)
    (hstep : σ.step gob e = .ok σ') :
    σ.SameClients σ' ∧ ((∀ operation, e ≠ .commit operation) → σ'.log = σ.log) := by
  cases e with
  | invoke | send | receive | giveUp => exact he.elim
  | serve k =>
    rw [Service.step, Service.serve] at hstep
    split at hstep
    · next call hk =>
      split_ifs at hstep
      cases hstep
      exact ⟨⟨rfl, rfl, args_set hk rfl⟩, fun _ => rfl⟩
    · cases hstep
  | turn k t =>
    rw [Service.step, Service.turn] at hstep
    split at hstep
    · next call hk =>
      split at hstep
      · split_ifs at hstep
        obtain ⟨⟨kv, pc⟩, -, hstep⟩ := bind_eq_ok.mp hstep
        cases hstep
        exact ⟨⟨rfl, rfl, args_set hk rfl⟩, fun _ => rfl⟩
      · cases hstep
    · cases hstep
  | apply s =>
    rw [Service.step, Service.apply] at hstep
    split at hstep
    · obtain ⟨kv, -, hstep⟩ := bind_eq_ok.mp hstep
      cases hstep
      exact ⟨⟨rfl, rfl, fun _ => rfl⟩, fun _ => rfl⟩
    · cases hstep
  | finishApply s =>
    obtain ⟨kv, -, hstep⟩ := bind_eq_ok.mp hstep
    cases hstep
    exact ⟨⟨rfl, rfl, fun _ => rfl⟩, fun _ => rfl⟩
  | install s j =>
    rw [Service.step, Service.install] at hstep
    split_ifs at hstep
    obtain ⟨kv, -, hstep⟩ := bind_eq_ok.mp hstep
    cases hstep
    exact ⟨⟨rfl, rfl, fun _ => rfl⟩, fun _ => rfl⟩
  | restart s =>
    cases hstep
    exact ⟨⟨rfl, rfl, fun _ => rfl⟩, fun _ => rfl⟩
  | commit operation =>
    rw [Service.step, Service.commit] at hstep
    split_ifs at hstep
    cases hstep
    exact ⟨⟨rfl, rfl, fun _ => rfl⟩, fun hne => absurd rfl (hne operation)⟩

theorem inv_init [NeZero n] : (init n).Inv where
  clients := .init
  started := nofun
  waiting := nofun
  consumed_le _ := Nat.zero_le _
  knows _ := KVServer.knows_startKVServer
  calls := nofun

namespace Inv

theorem served (h : σ.Inv) : σ.Served :=
  ⟨h.clients.orderly, h.started, h.consumed_le, h.knows, h.calls⟩

theorem of_served (h : σ.Served) (hclients : Clients σ.log σ.clerks σ.history)
    (hwaiting : ∀ c, (σ.clerks c).Waits σ.calls) : σ.Inv :=
  ⟨hclients, h.started, hwaiting, h.consumed_le, h.knows, h.calls⟩

theorem setClerk (h : σ.Inv) (hck : ck.Sound σ.log σ.history c)
    (hwait : ck.Waits σ.calls) : (σ.setClerk c ck).Inv := by
  refine of_served (h.served.setClerk c ck) (h.clients.setClerk hck) ?_
  exact (Function.forall_update_iff _ fun _ ck => Clerk.Waits ck σ.calls).mpr
    ⟨hwait, fun c' _ => h.waiting c'⟩

/-- The clients see something of a clerk that waits for nothing. -/
theorem see (h : σ.Inv) {e : KvEvent} (hwait : ck.waiting = none)
    (hclients : Clients σ.log (Function.update σ.clerks c ck) (σ.see e).history) :
    ((σ.setClerk c ck).see e).Inv := by
  refine of_served ((h.served.setClerk c ck).see e) hclients ?_
  exact (Function.forall_update_iff _ fun _ ck => Clerk.Waits ck σ.calls).mpr
    ⟨fun _ hk => absurd (hwait.symm.trans hk) nofun, fun c' _ => h.waiting c'⟩

theorem invoke (h : σ.Inv) {request : Request} (hstep : σ.invoke c request = .ok σ') : σ'.Inv := by
  unfold Service.invoke at hstep
  dsimp only at hstep
  split at hstep
  · cases hstep
  · rename_i hidle
    cases hstep
    refine h.see ?_ (h.clients.invoke hidle rfl rfl)
    -- an idle clerk waits for nothing
    cases hwait : (σ.clerks c).waiting with
    | none => rfl
    | some k =>
      obtain ⟨call, -, hcur⟩ := h.waiting c k hwait
      exact absurd (hidle.symm.trans hcur) nofun

theorem send (h : σ.Inv) (hstep : σ.send c = .ok σ') : σ'.Inv := by
  rw [Service.send] at hstep
  dsimp only at hstep
  split at hstep
  · rename_i args hcur hwait
    cases hstep
    have hck := h.clients.clerk c
    obtain ⟨rfl, -, hcalled, -⟩ := hck.current args hcur
    refine of_served ((h.served.setClerk _ _).addCall hcalled _)
      (h.clients.setClerk ⟨hck.call_lt, hck.current, hck.finished⟩) ?_
    exact (Function.forall_update_iff _ fun _ ck => Clerk.Waits ck _).mpr
      ⟨fun k hk => ⟨_, by cases hk; exact List.getElem?_concat_length, hcur⟩,
        fun c' _ => (h.waiting c').append _⟩
  · cases hstep

theorem receive [NeZero n] (h : σ.Inv) (hstep : σ.receive c = .ok σ') : σ'.Inv := by
  rw [Service.receive] at hstep
  dsimp only at hstep
  split at hstep
  · rename_i args call hcur hcall
    split at hstep
    · rename_i reply hpc
      have hck := h.clients.clerk c
      split at hstep
      · rename_i output hout
        cases hstep
        obtain ⟨k, hwait, hk⟩ := Option.bind_eq_some_iff.mp hcall
        obtain ⟨call', hk', hcur'⟩ := h.waiting c k hwait
        cases hk.symm.trans hk'
        cases hcur.symm.trans hcur'
        have hsound := h.calls call (List.mem_of_getElem? hk)
        obtain ⟨j, hj, hans⟩ := hsound.answered reply output hpc hout
        exact h.see rfl (h.clients.ret hcur hj hans rfl rfl)
      · cases hstep
        split_ifs
        · exact h.setClerk ⟨hck.call_lt, hck.current, hck.finished⟩ nofun
        · exact h.setClerk ⟨hck.call_lt, hck.current, hck.finished⟩ nofun
    · cases hstep
  · cases hstep

theorem giveUp [NeZero n] (h : σ.Inv) (hstep : σ.giveUp c = .ok σ') : σ'.Inv := by
  unfold Service.giveUp at hstep
  dsimp only at hstep
  split at hstep
  · cases hstep
    have hck := h.clients.clerk c
    exact h.setClerk ⟨hck.call_lt, hck.current, hck.finished⟩ nofun
  · cases hstep

theorem commit (h : σ.Inv) {operation : Op} (hstep : σ.commit operation = .ok σ') : σ'.Inv := by
  have hstep' := hstep
  rw [Service.commit] at hstep
  split_ifs at hstep with hop
  cases hstep
  have hclients := h.clients.commit (h.started operation hop)
  refine of_served (h.served.commit (fun m hm => ?_) hstep') hclients h.waiting
  have hlast : (σ.log ++ [operation])[σ.log.length]? = some operation :=
    List.getElem?_concat_length
  have hocc := hclients.orderly _ _ hlast m hm
  rwa [List.take_left] at hocc

/-- What else the servers do. -/
theorem ofServer [NeZero n] (h : σ.Inv) {gob : Gob Kv} {e : ServiceEvent n} (he : e.OfServer)
    (hne : ∀ operation, e ≠ .commit operation) (hstep : σ.step gob e = .ok σ') : σ'.Inv := by
  obtain ⟨hsame, hlog⟩ := sameClients_of_step he hstep
  refine of_served (h.served.step he (fun x hx => absurd hx (hne x)) hstep) ?_ fun c => ?_
  · rw [hlog hne, hsame.clerks, hsame.history]
    exact h.clients
  · rw [hsame.clerks]
    exact (h.waiting c).of_args hsame.args

/-- **One event** keeps all of it. -/
theorem step [NeZero n] (h : σ.Inv) {gob : Gob Kv} {e : ServiceEvent n}
    (hstep : σ.step gob e = .ok σ') : σ'.Inv := by
  cases e with
  | invoke c request => exact h.invoke hstep
  | send c => exact h.send hstep
  | receive c => exact h.receive hstep
  | giveUp c => exact h.giveUp hstep
  | commit operation => exact h.commit hstep
  | serve | turn | apply | finishApply | install | restart =>
    refine h.ofServer ?_ ?_ hstep
    · trivial
    · nofun

end Inv

end Service

end RaftKVDB
