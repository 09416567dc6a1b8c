import RaftKVDB.Foundations.Trace
import RaftKVDB.Kv.Server

/-!
# The channels of `applyStub`

One `KVServer` and any number of goroutines in `enterOperation`, while `dealWithApplyMsg` gets one
command after the other. Nothing is assumed of `Start`: it may give the same index to two operations
that are both waiting, as it does when the server loses its leadership, has its log cut, and leads
again. The two then share a channel. `dealWithApplyMsg` gets indices in increasing order, which is
what the apply daemon sees to.

## Main results

* `Waiters.Run.returned_delivered` — an operation that `enterOperation` says is done was delivered
  at its index
-/

namespace RaftKVDB

open Foundations

/-- A goroutine in `enterOperation`: the arguments that its operation was made of, where it is, and
the index that `Start` returned. -/
structure Waiter where
  args : Args
  pc : Pc
  raftIdx : Option ℕ
  deriving DecidableEq, Repr

/-- A server, the goroutines in `enterOperation`, and what was delivered. -/
structure Waiters where
  server : KVServer
  waiters : List Waiter
  /-- The commands that `dealWithApplyMsg` got, with their indices. -/
  delivered : List (ℕ × Op)
  /-- The largest index of these. -/
  consumed : ℕ

/-- What can happen next. -/
inductive WaitersEvent
  | enter (args : Args)
  | turn (k : ℕ) (t : Turn)
  | apply (commandIndex : ℕ) (operation : Op)
  | install (snapshot : List UInt8)
  | finishApply

/-- The index that `Start` returns in a turn. -/
def Turn.index : Turn → Option ℕ
  | .raftStart raftIdx => raftIdx
  | _ => none

/-- A command with these numbers was delivered at the index. -/
def DeliveredAt (delivered : List (ℕ × Op)) (index clientID cmdID : ℕ) : Prop :=
  ∃ operation, (index, operation) ∈ delivered ∧ operation.clientID = clientID ∧
    operation.cmdID = cmdID

namespace Waiters

/-- Nobody is waiting. -/
def init : Waiters := ⟨KVServer.startKVServer, [], [], 0⟩

/-- One turn of a goroutine. -/
def turn (σ : Waiters) (k : ℕ) (t : Turn) : Except Fault Waiters :=
  match σ.waiters[k]? with
  | none => .error .disabled
  | some w => do
    let (kv, pc) ← σ.server.turn w.args w.pc t
    return { σ with
      server := kv
      waiters := σ.waiters.set k { w with pc := pc, raftIdx := t.index <|> w.raftIdx } }

/-- A command comes on `applyCh`. -/
def apply (gob : Gob Kv) (σ : Waiters) (commandIndex : ℕ) (operation : Op) :
    Except Fault Waiters :=
  if σ.consumed < commandIndex then do
    let kv ← σ.server.dealWithApplyMsg gob ⟨commandIndex, some operation, true, []⟩
    return { σ with
      server := kv
      delivered := σ.delivered ++ [(commandIndex, operation)]
      consumed := commandIndex }
  else .error .disabled

/-- One event. -/
def step (gob : Gob Kv) (σ : Waiters) : WaitersEvent → Except Fault Waiters
  | .enter args => .ok { σ with waiters := σ.waiters ++ [⟨args, .start, none⟩] }
  | .turn k t => σ.turn k t
  | .apply commandIndex operation => σ.apply gob commandIndex operation
  | .install snapshot => do
    let kv ← σ.server.dealWithApplyMsg gob ⟨0, none, false, snapshot⟩
    return { σ with server := kv }
  | .finishApply => do
    let kv ← σ.server.finishApplyMsg
    return { σ with server := kv }

/-- A run, newest state first, all of whose steps meet the condition `ok`. -/
def Run (gob : Gob Kv) (ok : Waiters → WaitersEvent → Prop) : List Waiters → Prop :=
  Trace init fun σ e σ' => ok σ e ∧ σ.step gob e = .ok σ'

end Waiters

/-! ### Channels and what they were made for -/

namespace KVServer

variable {kv : KVServer} {raftIdx doneCh ch : ℕ}

theorem channel_setChannel (hlt : doneCh < kv.channels.length) (x : DoneCh) (ch : ℕ) :
    (kv.setChannel doneCh x).channel ch = if ch = doneCh then x else kv.channel ch := by
  rw [channel, setChannel, List.getD_eq_getElem?_getD, channel, List.getD_eq_getElem?_getD]
  split_ifs with heq
  · rw [heq, List.getElem?_set_self hlt, Option.getD_some]
  · rw [List.getElem?_set_ne (Ne.symm heq)]

theorem length_setChannel (x : DoneCh) :
    (kv.setChannel doneCh x).channels.length = kv.channels.length :=
  List.length_set

/-- The channel of an index is the one in the map, or a new one. -/
theorem stub_cases (kv : KVServer) (raftIdx : ℕ) :
    (∃ ch, kv.applyStub raftIdx = some ch ∧ kv.stub raftIdx = (kv, ch)) ∨
    kv.applyStub raftIdx = none ∧ kv.stub raftIdx =
      ({ kv with
          applyStub := Function.update kv.applyStub raftIdx (some kv.channels.length)
          channels := kv.channels ++ [DoneCh.make] }, kv.channels.length) := by
  rw [stub]
  split
  · next ch hch => exact .inl ⟨ch, hch, rfl⟩
  · next hnone => exact .inr ⟨hnone, rfl⟩

/-- A new channel is like one that does not exist. -/
theorem channel_stub (kv : KVServer) (raftIdx ch : ℕ) :
    (kv.stub raftIdx).1.channel ch = kv.channel ch := by
  rcases kv.stub_cases raftIdx with ⟨d, -, heq⟩ | ⟨-, heq⟩
  · rw [heq]
  · rw [heq, channel, channel, List.getD_eq_getElem?_getD, List.getD_eq_getElem?_getD]
    rcases Nat.lt_trichotomy ch kv.channels.length with hlt | rfl | hgt
    · rw [List.getElem?_append_left hlt]
    · rw [List.getElem?_concat_length, List.getElem?_eq_none (Nat.le_refl _)]
      rfl
    · rw [List.getElem?_eq_none (by simp; omega), List.getElem?_eq_none hgt.le]

theorem length_le_stub (kv : KVServer) (raftIdx : ℕ) :
    kv.channels.length ≤ (kv.stub raftIdx).1.channels.length := by
  rcases kv.stub_cases raftIdx with ⟨d, -, heq⟩ | ⟨-, heq⟩ <;> simp [heq]

@[simp] theorem sending_stub (kv : KVServer) (raftIdx : ℕ) :
    (kv.stub raftIdx).1.sending = kv.sending := by
  rcases kv.stub_cases raftIdx with ⟨d, -, heq⟩ | ⟨-, heq⟩ <;> rw [heq]

/-- Every channel in the map was made for its index, which `home` tells. -/
def Homed (kv : KVServer) (home : ℕ → ℕ) : Prop :=
  ∀ raftIdx ch, kv.applyStub raftIdx = some ch → ch < kv.channels.length ∧ home ch = raftIdx

/-- The index that a new channel is made for is noted. -/
theorem Homed.stub {home : ℕ → ℕ} (h : kv.Homed home) (raftIdx : ℕ) : ∃ home',
    (kv.stub raftIdx).1.Homed home' ∧ (∀ ch < kv.channels.length, home' ch = home ch) ∧
    (kv.stub raftIdx).1.applyStub raftIdx = some (kv.stub raftIdx).2 := by
  rcases kv.stub_cases raftIdx with ⟨d, hd, heq⟩ | ⟨hnone, heq⟩
  · rw [heq]
    exact ⟨home, h, fun _ _ => rfl, hd⟩
  · rw [heq]
    refine ⟨Function.update home kv.channels.length raftIdx, fun i ch hch => ?_, fun ch hlt => ?_,
      Function.update_self ..⟩
    · dsimp only at hch
      rw [List.length_append, List.length_singleton]
      rcases eq_or_ne i raftIdx with rfl | hne
      · rw [Function.update_self] at hch
        obtain rfl := Option.some.inj hch
        exact ⟨Nat.lt_succ_self _, Function.update_self ..⟩
      · rw [Function.update_of_ne hne] at hch
        obtain ⟨hlt, hhome⟩ := h i ch hch
        exact ⟨by omega, by rw [Function.update_of_ne hlt.ne, hhome]⟩
    · exact Function.update_of_ne hlt.ne ..

theorem homed_setChannel {home : ℕ → ℕ} (h : kv.Homed home) (x : DoneCh) :
    (kv.setChannel doneCh x).Homed home := by
  intro i ch hch
  rw [length_setChannel]
  exact h i ch hch

end KVServer

/-! ### What comes through the channels -/

section Inv

variable {kv kv' : KVServer} {delivered delivered' : List (ℕ × Op)} {home home' : ℕ → ℕ}
  {w : Waiter} {σ σ' : Waiters} {gob : Gob Kv}

theorem DeliveredAt.mono {index c m : ℕ} (h : DeliveredAt delivered index c m)
    (hsub : delivered ⊆ delivered') : DeliveredAt delivered' index c m := by
  obtain ⟨operation, hmem, hid⟩ := h
  exact ⟨operation, hsub hmem, hid⟩

/-- What a goroutine knows of its channel and its index. A closed channel can make it believe
anything. -/
def Waiter.Sound (kv : KVServer) (delivered : List (ℕ × Op)) (home : ℕ → ℕ) (w : Waiter) : Prop :=
  match w.pc with
  | .getState | .seenCmd _ => False
  | .start | .replied _ => True
  | .stub raftIdx => w.raftIdx = some raftIdx
  | .select raftIdx ch => w.raftIdx = some raftIdx ∧ ch < kv.channels.length ∧ home ch = raftIdx
  | .putBack ch doneMsg => ch < kv.channels.length ∧ ((kv.channel ch).closed = true ∨
      DeliveredAt delivered (home ch) doneMsg.clientID doneMsg.cmdID)
  | .close raftIdx ch => w.raftIdx = some raftIdx ∧ ch < kv.channels.length ∧ home ch = raftIdx ∧
      ((kv.channel ch).closed = true ∨
        DeliveredAt delivered raftIdx w.args.clientID w.args.cmdID)
  | .delete raftIdx => w.raftIdx = some raftIdx ∧
      DeliveredAt delivered raftIdx w.args.clientID w.args.cmdID
  | .answer _ opDone => opDone = true → ∃ raftIdx, w.raftIdx = some raftIdx ∧
      DeliveredAt delivered raftIdx w.args.clientID w.args.cmdID

/-- What was known of the channels is still so. -/
structure KVServer.Grows (kv kv' : KVServer) (home home' : ℕ → ℕ) : Prop where
  length : kv.channels.length ≤ kv'.channels.length
  closed : kv.ClosedLe kv'
  home : ∀ ch < kv.channels.length, home' ch = home ch

theorem KVServer.Grows.refl (kv : KVServer) (home : ℕ → ℕ) : kv.Grows kv home home :=
  ⟨Nat.le_refl _, .refl kv, fun _ _ => rfl⟩

theorem KVServer.Grows.setChannel {doneCh : ℕ} {x : DoneCh}
    (h : (kv.channel doneCh).closed = true → x.closed = true) :
    kv.Grows (kv.setChannel doneCh x) home home :=
  ⟨(length_setChannel x).ge, .setChannel doneCh h, fun _ _ => rfl⟩

theorem Waiter.Sound.mono (h : w.Sound kv delivered home) (hkv : kv.Grows kv' home home')
    (hsub : delivered ⊆ delivered') : w.Sound kv' delivered' home' := by
  obtain ⟨args, pc, raftIdx⟩ := w
  cases pc with
  | getState => exact h
  | seenCmd => exact h
  | start => trivial
  | replied => trivial
  | stub => exact h
  | select idx ch =>
    obtain ⟨hidx, hlt, hhome⟩ := h
    exact ⟨hidx, hlt.trans_le hkv.length, (hkv.home ch hlt).trans hhome⟩
  | putBack ch doneMsg =>
    obtain ⟨hlt, hmsg⟩ := h
    refine ⟨hlt.trans_le hkv.length, hmsg.imp (hkv.closed ch) fun hd => ?_⟩
    rw [hkv.home ch hlt]
    exact hd.mono hsub
  | close idx ch =>
    obtain ⟨hidx, hlt, hhome, hmsg⟩ := h
    exact ⟨hidx, hlt.trans_le hkv.length, (hkv.home ch hlt).trans hhome,
      hmsg.imp (hkv.closed ch) (·.mono hsub)⟩
  | delete idx => exact ⟨h.1, h.2.mono hsub⟩
  | answer isLeader opDone =>
    intro hdone
    obtain ⟨idx, hidx, hd⟩ := h hdone
    exact ⟨idx, hidx, hd.mono hsub⟩

/-- The server's side: the messages of a channel were delivered at the index it was made for. -/
structure KVServer.Carries (kv : KVServer) (delivered : List (ℕ × Op)) (home : ℕ → ℕ) : Prop where
  homed : kv.Homed home
  buffer : ∀ ch < kv.channels.length, ∀ doneMsg ∈ (kv.channel ch).buffer,
    DeliveredAt delivered (home ch) doneMsg.clientID doneMsg.cmdID
  sending : ∀ ch doneMsg, kv.sending = some (ch, doneMsg) → ch < kv.channels.length ∧
    DeliveredAt delivered (home ch) doneMsg.clientID doneMsg.cmdID

theorem KVServer.Carries.setChannel (h : kv.Carries delivered home) {doneCh : ℕ}
    (hlt : doneCh < kv.channels.length) {x : DoneCh}
    (hx : ∀ doneMsg ∈ x.buffer,
      DeliveredAt delivered (home doneCh) doneMsg.clientID doneMsg.cmdID) :
    (kv.setChannel doneCh x).Carries delivered home where
  homed := homed_setChannel h.homed x
  buffer ch hch doneMsg hmsg := by
    rw [length_setChannel] at hch
    rw [channel_setChannel hlt] at hmsg
    split_ifs at hmsg with heq
    · exact heq ▸ hx doneMsg hmsg
    · exact h.buffer ch hch doneMsg hmsg
  sending ch doneMsg hs := by
    rw [length_setChannel]
    exact h.sending ch doneMsg hs

theorem KVServer.Carries.stub (h : kv.Carries delivered home) (raftIdx : ℕ) : ∃ home',
    (kv.stub raftIdx).1.Carries delivered home' ∧ kv.Grows (kv.stub raftIdx).1 home home' ∧
    (kv.stub raftIdx).2 < (kv.stub raftIdx).1.channels.length ∧
    home' (kv.stub raftIdx).2 = raftIdx := by
  obtain ⟨home', hhomed, hsame, hstub⟩ := h.homed.stub raftIdx
  have hgrows : kv.Grows (kv.stub raftIdx).1 home home' :=
    ⟨kv.length_le_stub raftIdx, .stub kv raftIdx, hsame⟩
  obtain ⟨hlt, hhome⟩ := hhomed _ _ hstub
  refine ⟨home', ⟨hhomed, fun ch _ doneMsg hmsg => ?_, fun ch doneMsg hs => ?_⟩, hgrows, hlt, hhome⟩
  · rw [channel_stub] at hmsg
    rcases Nat.lt_or_ge ch kv.channels.length with hch | hch
    · rw [hsame ch hch]
      exact h.buffer ch hch doneMsg hmsg
    · rw [channel, List.getD_eq_getElem?_getD, List.getElem?_eq_none hch] at hmsg
      cases hmsg
  · rw [sending_stub] at hs
    obtain ⟨hch, hd⟩ := h.sending ch doneMsg hs
    rw [hsame ch hch]
    exact ⟨hch.trans_le hgrows.length, hd⟩

/-- **A turn of a goroutine** leaves it with what it may believe. -/
theorem KVServer.Carries.turned (h : kv.Carries delivered home) (hw : w.Sound kv delivered home)
    {t : Turn} {pc' : Pc} (ht : kv.Turned w.args w.pc t kv' pc') : ∃ home',
    kv'.Carries delivered home' ∧ kv.Grows kv' home home' ∧
    Waiter.Sound kv' delivered home' { w with pc := pc', raftIdx := t.index <|> w.raftIdx } := by
  obtain ⟨args, pc, raftIdx⟩ := w
  cases ht with
  | getState => exact hw.elim
  | seenCmd => exact hw.elim
  | refused => exact ⟨home, h, .refl kv home, nofun⟩
  | started idx => exact ⟨home, h, .refl kv home, rfl⟩
  | stub idx hfree =>
    obtain ⟨home', hcarries, hgrows, hlt, hhome⟩ := h.stub idx
    exact ⟨home', hcarries, hgrows, hw, hlt, hhome⟩
  | matched idx ch doneMsg hmsg hid =>
    obtain ⟨hidx, hlt, hhome⟩ := hw
    have hgrows : kv.Grows (kv.setChannel ch (kv.channel ch).drain) home home := .setChannel id
    refine ⟨home, h.setChannel hlt nofun, hgrows, hidx, hgrows.length.trans_lt' hlt, hhome, ?_⟩
    refine hmsg.symm.imp (hgrows.closed ch) fun hmem => ?_
    have hdone := h.buffer ch hlt doneMsg hmem
    rwa [hid.1, hid.2, hhome] at hdone
  | mismatched idx ch doneMsg hmsg =>
    obtain ⟨hidx, hlt, hhome⟩ := hw
    have hgrows : kv.Grows (kv.setChannel ch (kv.channel ch).drain) home home := .setChannel id
    exact ⟨home, h.setChannel hlt nofun, hgrows, hgrows.length.trans_lt' hlt,
      hmsg.symm.imp (hgrows.closed ch) (h.buffer ch hlt doneMsg)⟩
  | timedOut => exact ⟨home, h, .refl kv home, nofun⟩
  | putBack ch doneMsg hopen =>
    obtain ⟨hlt, hmsg⟩ := hw
    have hdone := hmsg.resolve_left (Bool.eq_false_iff.mp hopen)
    exact ⟨home, h.setChannel hlt fun _ hx => Option.mem_some.mp hx ▸ hdone, .setChannel id, nofun⟩
  | close idx ch hopen =>
    obtain ⟨hidx, hlt, -, hmsg⟩ := hw
    exact ⟨home, h.setChannel hlt (h.buffer ch hlt), .setChannel fun _ => rfl, hidx,
      hmsg.resolve_left (Bool.eq_false_iff.mp hopen)⟩
  | delete idx =>
    refine ⟨home, ⟨fun i ch hch => ?_, h.buffer, h.sending⟩,
      ⟨Nat.le_refl _, .of_channels rfl, fun _ _ => rfl⟩, fun _ => ⟨idx, hw⟩⟩
    dsimp only at hch
    rw [Function.update_apply] at hch
    split_ifs at hch
    exact h.homed i ch hch
  | answer => exact ⟨home, h, .refl kv home, trivial⟩

theorem KVServer.Carries.report (h : kv.Carries delivered home) {index : ℕ} {operation : Op}
    (hmem : (index, operation) ∈ delivered) : ∃ home',
    (kv.report index operation).Carries delivered home' ∧
      kv.Grows (kv.report index operation) home home' := by
  obtain ⟨home', hcarries, hgrows, hlt, hhome⟩ := h.stub index
  have hempty : ∀ x ∈ (DoneCh.drain ((kv.stub index).1.channel (kv.stub index).2)).buffer,
      DeliveredAt delivered (home' (kv.stub index).2) x.clientID x.cmdID := nofun
  have hset := hcarries.setChannel hlt hempty
  refine ⟨home', ⟨hset.homed, hset.buffer, fun ch doneMsg hs => ?_⟩,
    hgrows.length.trans (length_setChannel _).ge, .report kv index operation, hgrows.home⟩
  obtain ⟨rfl, rfl⟩ := Prod.mk.inj (Option.some.inj hs)
  refine ⟨hlt.trans_le (length_setChannel _).ge, ?_⟩
  rw [hhome]
  exact ⟨operation, hmem, rfl, rfl⟩

/-- **`dealWithApplyMsg`** is about to put a message into the channel of its index. -/
theorem KVServer.Carries.apply (h : kv.Carries delivered home) {index : ℕ} {operation : Op}
    (hdeal : kv.dealWithApplyMsg gob ⟨index, some operation, true, []⟩ = .ok kv') : ∃ home',
    kv'.Carries (delivered ++ [(index, operation)]) home' ∧ kv.Grows kv' home home' := by
  rw [dealWithApplyMsg] at hdeal
  split at hdeal
  · cases hdeal
  cases hdeal
  have hmore : KVServer.Carries { kv with kv := kv.kv.enact operation }
      (delivered ++ [(index, operation)]) home := by
    refine ⟨h.homed, fun ch hch doneMsg hmsg => ?_, fun ch doneMsg hs => ?_⟩
    · exact (h.buffer ch hch doneMsg hmsg).mono (List.subset_append_left _ _)
    · obtain ⟨hch, hd⟩ := h.sending ch doneMsg hs
      exact ⟨hch, hd.mono (List.subset_append_left _ _)⟩
  obtain ⟨home', hcarries, hgrows⟩ := hmore.report
    (List.mem_append_right delivered (List.mem_singleton_self (index, operation)))
  exact ⟨home', hcarries, hgrows.length, hgrows.closed, hgrows.home⟩

theorem KVServer.Carries.finishApplyMsg (h : kv.Carries delivered home)
    (hfin : kv.finishApplyMsg = .ok kv') :
    kv'.Carries delivered home ∧ kv.Grows kv' home home := by
  rw [KVServer.finishApplyMsg] at hfin
  split at hfin
  · cases hfin
  next ch doneMsg hs =>
  obtain ⟨done, hsend, hfin⟩ := bind_eq_ok.mp hfin
  obtain ⟨-, rfl⟩ := DoneCh.send_eq_ok hsend
  cases hfin
  obtain ⟨hlt, hdone⟩ := h.sending ch doneMsg hs
  have hset := h.setChannel hlt (x := { kv.channel ch with buffer := some doneMsg })
    fun _ hx => Option.mem_some.mp hx ▸ hdone
  have hgrows : kv.Grows (kv.setChannel ch { kv.channel ch with buffer := some doneMsg }) home
    home := .setChannel id
  exact ⟨⟨hset.homed, hset.buffer, by simp⟩, hgrows.length, hgrows.closed, hgrows.home⟩

/-- What holds in every run. -/
structure Waiters.Inv (σ : Waiters) (home : ℕ → ℕ) : Prop where
  carries : σ.server.Carries σ.delivered home
  sound : ∀ w ∈ σ.waiters, w.Sound σ.server σ.delivered home
  le_consumed : ∀ x ∈ σ.delivered, x.1 ≤ σ.consumed

theorem Waiters.inv_init : Waiters.init.Inv fun _ => 0 where
  carries := ⟨nofun, nofun, nofun⟩
  sound := nofun
  le_consumed := nofun

/-- **Every step keeps it**, for the channels that were made and those that are made. -/
theorem Waiters.Inv.step (h : σ.Inv home) {e : WaitersEvent} (hstep : σ.step gob e = .ok σ') :
    ∃ home', σ'.Inv home' ∧ σ.server.Grows σ'.server home home' := by
  cases e with
  | enter args =>
    cases hstep
    refine ⟨home, ⟨h.carries, fun w hw => ?_, h.le_consumed⟩, .refl _ _⟩
    rcases List.mem_append.mp hw with hw | hw
    · exact h.sound w hw
    · obtain rfl := List.mem_singleton.mp hw
      trivial
  | turn k t =>
    rw [Waiters.step, Waiters.turn] at hstep
    split at hstep
    · cases hstep
    next w hk =>
    obtain ⟨⟨kv, pc⟩, hturn, hstep⟩ := bind_eq_ok.mp hstep
    cases hstep
    obtain ⟨home', hcarries, hgrows, hsound⟩ := h.carries.turned
      (h.sound w (List.mem_of_getElem? hk)) (KVServer.turned hturn)
    refine ⟨home', ⟨hcarries, fun w' hw' => ?_, h.le_consumed⟩, hgrows⟩
    rcases List.mem_or_eq_of_mem_set hw' with hw' | rfl
    · exact (h.sound w' hw').mono hgrows (List.Subset.refl _)
    · exact hsound
  | apply index operation =>
    rw [Waiters.step, Waiters.apply] at hstep
    split_ifs at hstep with hlt
    obtain ⟨kv, hdeal, hstep⟩ := bind_eq_ok.mp hstep
    cases hstep
    obtain ⟨home', hcarries, hgrows⟩ := h.carries.apply hdeal
    refine ⟨home', ⟨hcarries, fun w hw => (h.sound w hw).mono hgrows (by simp), fun x hx => ?_⟩,
      hgrows⟩
    rcases List.mem_append.mp hx with hx | hx
    · exact (h.le_consumed x hx).trans hlt.le
    · obtain rfl := List.mem_singleton.mp hx
      exact Nat.le_refl _
  | install snapshot =>
    obtain ⟨kv, hdeal, hstep⟩ := bind_eq_ok.mp hstep
    cases hstep
    rw [KVServer.dealWithApplyMsg] at hdeal
    split at hdeal
    · cases hdeal
    cases hdeal
    have hgrows : σ.server.Grows { σ.server with kv := gob.decode snapshot } home home :=
      ⟨Nat.le_refl _, .of_channels rfl, fun _ _ => rfl⟩
    exact ⟨home, ⟨⟨h.carries.homed, h.carries.buffer, h.carries.sending⟩,
      fun w hw => (h.sound w hw).mono hgrows (List.Subset.refl _), h.le_consumed⟩, hgrows⟩
  | finishApply =>
    obtain ⟨kv, hfin, hstep⟩ := bind_eq_ok.mp hstep
    cases hstep
    obtain ⟨hcarries, hgrows⟩ := h.carries.finishApplyMsg hfin
    exact ⟨home, ⟨hcarries, fun w hw => (h.sound w hw).mono hgrows (List.Subset.refl _),
      h.le_consumed⟩, hgrows⟩

theorem Waiters.Run.exists_inv {ok : Waiters → WaitersEvent → Prop} {τ : List Waiters}
    (h : Waiters.Run gob ok τ) : ∀ σ ∈ τ, ∃ home, σ.Inv home := by
  refine Trace.invariant (P := fun σ => ∃ home, Waiters.Inv σ home) ⟨_, Waiters.inv_init⟩ ?_ h
  rintro σ e σ' ⟨home, hinv⟩ ⟨-, hstep⟩
  obtain ⟨home', hinv', -⟩ := hinv.step hstep
  exact ⟨home', hinv'⟩

/-- **An operation that is said to be done was delivered** at the index that `Start` returned. -/
theorem Waiters.Run.returned_delivered {ok : Waiters → WaitersEvent → Prop} {τ : List Waiters}
    (h : Waiters.Run gob ok τ) (hσ : σ ∈ τ) (hw : w ∈ σ.waiters) {isLeader : Bool}
    (hpc : w.pc = .answer isLeader true) : ∃ raftIdx, w.raftIdx = some raftIdx ∧
      DeliveredAt σ.delivered raftIdx w.args.clientID w.args.cmdID := by
  obtain ⟨home, hinv⟩ := h.exists_inv σ hσ
  have hsound := hinv.sound w hw
  rw [Waiter.Sound, hpc] at hsound
  exact hsound rfl

end Inv

end RaftKVDB
