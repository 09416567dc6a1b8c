import RaftKVDB.Kv.Waiters

/-!
# Channels that are shared

A channel of `applyStub` is closed by the operation that finds itself done, and outside of `kv.mu`.
Another operation that waits on the same channel then receives what a closed channel gives, which is
not a message for it, and puts it back into the closed channel.

## Main results

* `waiters_safe` — no closed channel is used in the runs in which channels are not shared at the
  wrong moment
* `waiters_unsafe` — one is used in a run in which two operations wait at the same index
-/

namespace RaftKVDB

open Foundations

/-- The goroutine is about to use the channel. -/
def Pc.Holds (ch : ℕ) : Pc → Prop
  | .select _ doneCh => doneCh = ch
  | .putBack doneCh _ => doneCh = ch
  | .close _ doneCh => doneCh = ch
  | _ => False

/-- The goroutine has taken a message from the channel, and is about to put it back or to close the
channel. -/
def Pc.Takes (ch : ℕ) : Pc → Prop
  | .putBack doneCh _ => doneCh = ch
  | .close _ doneCh => doneCh = ch
  | _ => False

instance (ch : ℕ) : DecidablePred (Pc.Holds ch)
  | .select _ doneCh | .putBack doneCh _ | .close _ doneCh =>
    inferInstanceAs (Decidable (doneCh = ch))
  | .getState | .seenCmd _ | .start | .stub _ | .delete _ | .answer _ _ | .replied _ => .isFalse id

theorem Pc.Takes.holds {ch : ℕ} {pc : Pc} (h : pc.Takes ch) : pc.Holds ch := by
  cases pc <;> first | exact h | exact h.elim

/-- What a goroutine that is about to look up its index, or to close its channel, must not run
into: a channel in the map that is closed, and another goroutine that holds the channel. -/
def Waiters.Free (σ : Waiters) (k : ℕ) : Pc → Prop
  | .stub raftIdx => ∀ ch ∈ σ.server.applyStub raftIdx, (σ.server.channel ch).closed = false
  | .close _ ch => ∀ other ∈ σ.waiters.eraseIdx k, ¬other.pc.Holds ch
  | _ => True

/-- Two goroutines do not share a channel at the wrong moment. -/
def Waiters.Apart (σ : Waiters) : WaitersEvent → Prop
  | .turn k _ => ∀ w ∈ σ.waiters[k]?, σ.Free k w.pc
  | _ => True

instance (σ : Waiters) (k : ℕ) : DecidablePred (σ.Free k)
  | .stub raftIdx => inferInstanceAs (Decidable (∀ ch ∈ σ.server.applyStub raftIdx, _))
  | .close _ ch => inferInstanceAs (Decidable (∀ other ∈ σ.waiters.eraseIdx k, ¬other.pc.Holds ch))
  | .getState | .seenCmd _ | .start | .select _ _ | .putBack _ _ | .delete _ | .answer _ _
  | .replied _ => .isTrue trivial

instance (σ : Waiters) : DecidablePred σ.Apart
  | .turn k _ => inferInstanceAs (Decidable (∀ w ∈ σ.waiters[k]?, σ.Free k w.pc))
  | .enter _ | .apply _ _ | .install _ | .finishApply => .isTrue trivial

/-- What holds if channels are not shared at the wrong moment. -/
structure Waiters.Quiet (σ : Waiters) : Prop where
  unheld : ∀ w ∈ σ.waiters, ∀ ch, w.pc.Holds ch → (σ.server.channel ch).closed = false
  stubbed : ∀ raftIdx ch, σ.server.applyStub raftIdx = some ch →
    (σ.server.channel ch).closed = true → raftIdx ≤ σ.consumed
  sending : ∀ ch doneMsg, σ.server.sending = some (ch, doneMsg) →
    (σ.server.channel ch).closed = false ∧ (σ.server.channel ch).buffer = none ∧
      ∀ w ∈ σ.waiters, ¬w.pc.Takes ch

section Quiet

variable {kv : KVServer} {σ σ' : Waiters} {gob : Gob Kv} {home : ℕ → ℕ} {w : Waiter}

theorem Waiters.quiet_init : Waiters.init.Quiet where
  unheld := nofun
  stubbed := nofun
  sending := nofun

/-- The others, after a turn. -/
theorem mem_eraseIdx_of_mem_set {α : Type} {l : List α} {k : ℕ} {x y : α} (h : y ∈ l.set k x) :
    y ∈ l.eraseIdx k ∨ y = x := by
  obtain ⟨j, hj, hy⟩ := List.mem_iff_getElem.mp h
  rw [List.length_set] at hj
  rcases eq_or_ne k j with rfl | hne
  · rw [List.getElem_set_self] at hy
    exact .inr hy.symm
  · rw [List.getElem_set_ne hne] at hy
    exact .inl (List.mem_eraseIdx_iff_getElem.mpr ⟨j, hj, hne.symm, hy⟩)

/-- A goroutine that took something from an open channel, took what was delivered. -/
theorem Waiter.Sound.delivered {delivered : List (ℕ × Op)} (h : w.Sound kv delivered home) {ch : ℕ}
    (htakes : w.pc.Takes ch) (hopen : (kv.channel ch).closed = false) :
    ch < kv.channels.length ∧ ∃ x ∈ delivered, x.1 = home ch := by
  obtain ⟨args, pc, raftIdx⟩ := w
  cases pc with
  | putBack doneCh doneMsg =>
    obtain rfl : doneCh = ch := htakes
    obtain ⟨hlt, hmsg⟩ := h
    obtain ⟨operation, hmem, -⟩ := hmsg.resolve_left (Bool.eq_false_iff.mp hopen)
    exact ⟨hlt, _, hmem, rfl⟩
  | close idx doneCh =>
    obtain rfl : doneCh = ch := htakes
    obtain ⟨-, hlt, hhome, hmsg⟩ := h
    obtain ⟨operation, hmem, -⟩ := hmsg.resolve_left (Bool.eq_false_iff.mp hopen)
    exact ⟨hlt, _, hmem, hhome.symm⟩
  | _ => exact htakes.elim

/-- The channel of an index is open, unless it is in the map and closed. -/
theorem KVServer.closed_stub {raftIdx : ℕ}
    (h : ∀ ch ∈ kv.applyStub raftIdx, (kv.channel ch).closed = false) :
    (kv.channel (kv.stub raftIdx).2).closed = false := by
  rcases kv.stub_cases raftIdx with ⟨d, hd, heq⟩ | ⟨-, heq⟩
  · rw [heq]
    exact h d hd
  · rw [heq, channel, List.getD_eq_getElem?_getD, List.getElem?_eq_none (Nat.le_refl _)]
    rfl

/-- A channel of the map was there before, or is the one that was looked up. -/
theorem KVServer.applyStub_stub {raftIdx i ch : ℕ}
    (h : (kv.stub raftIdx).1.applyStub i = some ch) :
    kv.applyStub i = some ch ∨ i = raftIdx ∧ ch = (kv.stub raftIdx).2 := by
  rcases kv.stub_cases raftIdx with ⟨d, -, heq⟩ | ⟨-, heq⟩
  · rw [heq] at h
    exact .inl h
  · rw [heq] at h ⊢
    dsimp only at h
    rw [Function.update_apply] at h
    split_ifs at h with hi
    · exact .inr ⟨hi, (Option.some.inj h).symm⟩
    · exact .inl h

/-- A turn that closes no channel. -/
theorem Waiters.Quiet.move (h : σ.Quiet) {kv' : KVServer} {w' : Waiter} (k : ℕ)
    (hclosed : ∀ ch, (kv'.channel ch).closed = (σ.server.channel ch).closed)
    (hstub : ∀ i ch, kv'.applyStub i = some ch → (kv'.channel ch).closed = true → i ≤ σ.consumed)
    (hholds : ∀ ch, w'.pc.Holds ch → (σ.server.channel ch).closed = false)
    (hsending : ∀ ch doneMsg, kv'.sending = some (ch, doneMsg) →
      σ.server.sending = some (ch, doneMsg) ∧ (kv'.channel ch).buffer = none ∧ ¬w'.pc.Takes ch) :
    Waiters.Quiet { σ with server := kv', waiters := σ.waiters.set k w' } where
  unheld x hx ch hch := by
    rw [hclosed]
    rcases List.mem_or_eq_of_mem_set hx with hx | rfl
    · exact h.unheld x hx ch hch
    · exact hholds ch hch
  stubbed := hstub
  sending ch doneMsg hs := by
    obtain ⟨hold, hbuffer, htakes⟩ := hsending ch doneMsg hs
    obtain ⟨hopen, -, hothers⟩ := h.sending ch doneMsg hold
    refine ⟨(hclosed ch).trans hopen, hbuffer, fun x hx => ?_⟩
    rcases List.mem_or_eq_of_mem_set hx with hx | rfl
    · exact hothers x hx
    · exact htakes

/-- Of a channel on which `dealWithApplyMsg` is about to send nothing can be received. -/
theorem Waiters.Quiet.ne_sending (h : σ.Quiet) {doneCh ch : ℕ} {doneMsg msg : DoneMsg}
    (hmsg : msg ∈ (σ.server.channel doneCh).buffer ∨ (σ.server.channel doneCh).closed = true)
    (hs : σ.server.sending = some (ch, doneMsg)) : ch ≠ doneCh := by
  rintro rfl
  obtain ⟨hopen, hbuffer, -⟩ := h.sending ch doneMsg hs
  rcases hmsg with hmem | hclosed
  · rw [hbuffer] at hmem
    exact nomatch hmem
  · exact Bool.eq_false_iff.mp hopen hclosed

/-- A turn that receives. -/
theorem Waiters.Quiet.receive (h : σ.Quiet) (hw : w ∈ σ.waiters) {doneCh raftIdx : ℕ}
    {msg : DoneMsg} (hpc : w.pc = .select raftIdx doneCh) (hlt : doneCh < σ.server.channels.length)
    (hmsg : msg ∈ (σ.server.channel doneCh).buffer ∨ (σ.server.channel doneCh).closed = true)
    {w' : Waiter} (hw' : ∀ ch, w'.pc.Holds ch → ch = doneCh) (k : ℕ) :
    Waiters.Quiet { σ with
      server := σ.server.setChannel doneCh (σ.server.channel doneCh).drain
      waiters := σ.waiters.set k w' } := by
  have hclosed : ∀ ch, ((σ.server.setChannel doneCh (σ.server.channel doneCh).drain).channel
      ch).closed = (σ.server.channel ch).closed := by
    intro ch
    rw [KVServer.channel_setChannel hlt]
    split_ifs with heq
    · rw [heq]
      rfl
    · rfl
  refine h.move k hclosed (fun i ch hi hch => ?_) (fun ch hch => ?_) fun ch doneMsg hs => ?_
  · exact h.stubbed i ch hi ((hclosed ch).symm.trans hch)
  · rw [hw' ch hch]
    refine h.unheld w hw doneCh ?_
    rw [hpc]
    exact rfl
  · have hne := h.ne_sending hmsg hs
    rw [KVServer.channel_setChannel hlt, if_neg hne]
    exact ⟨hs, (h.sending ch doneMsg hs).2.1, fun htakes => hne (hw' ch htakes.holds)⟩

/-- A turn that closes a channel which no other goroutine holds. -/
theorem Waiters.Quiet.close (h : σ.Quiet) (hinv : σ.Inv home) (hw : w ∈ σ.waiters)
    {raftIdx doneCh k : ℕ} (hpc : w.pc = .close raftIdx doneCh)
    (hok : ∀ other ∈ σ.waiters.eraseIdx k, ¬other.pc.Holds doneCh) {w' : Waiter}
    (hw' : ∀ ch, ¬w'.pc.Holds ch) :
    Waiters.Quiet { σ with
      server := σ.server.setChannel doneCh { σ.server.channel doneCh with closed := true }
      waiters := σ.waiters.set k w' } := by
  have htakes : w.pc.Takes doneCh := by
    rw [hpc]
    exact rfl
  obtain ⟨hlt, x, hx, hhome⟩ :=
    (hinv.sound w hw).delivered htakes (h.unheld w hw doneCh htakes.holds)
  refine ⟨fun v hv ch hch => ?_, fun i ch hi hch => ?_, fun ch doneMsg hs => ?_⟩
  · rcases mem_eraseIdx_of_mem_set hv with hother | rfl
    · have hne : ch ≠ doneCh := by
        rintro rfl
        exact hok v hother hch
      rw [KVServer.channel_setChannel hlt, if_neg hne]
      exact h.unheld v (List.mem_of_mem_eraseIdx hother) ch hch
    · exact absurd hch (hw' ch)
  · rcases eq_or_ne ch doneCh with rfl | hne
    · rw [← (hinv.carries.homed i ch hi).2, ← hhome]
      exact hinv.le_consumed x hx
    · rw [KVServer.channel_setChannel hlt, if_neg hne] at hch
      exact h.stubbed i ch hi hch
  · obtain ⟨hopen, hbuffer, hothers⟩ := h.sending ch doneMsg hs
    have hne : ch ≠ doneCh := by
      rintro rfl
      exact hothers w hw htakes
    rw [KVServer.channel_setChannel hlt, if_neg hne]
    refine ⟨hopen, hbuffer, fun v hv => ?_⟩
    rcases List.mem_or_eq_of_mem_set hv with hv | rfl
    · exact hothers v hv
    · exact fun hv => hw' ch hv.holds

/-- **A turn of a goroutine** that shares no channel at the wrong moment. -/
theorem Waiters.Quiet.turned (h : σ.Quiet) (hinv : σ.Inv home) {k : ℕ} {t : Turn}
    (hk : σ.waiters[k]? = some w) (hok : σ.Apart (.turn k t)) {kv' : KVServer} {pc' : Pc}
    (ht : σ.server.Turned w.args w.pc t kv' pc') (raftIdx' : Option ℕ) :
    Waiters.Quiet { σ with
      server := kv'
      waiters := σ.waiters.set k { w with pc := pc', raftIdx := raftIdx' } } := by
  have hw : w ∈ σ.waiters := List.mem_of_getElem? hk
  have hsound := hinv.sound w hw
  have hapart := hok w hk
  have hstay : ∀ {pc'' : Pc}, (∀ ch, ¬pc''.Holds ch) → Waiters.Quiet { σ with
      waiters := σ.waiters.set k { w with pc := pc'', raftIdx := raftIdx' } } := fun hpc =>
    h.move k (fun _ => rfl) h.stubbed (fun ch hch => absurd hch (hpc ch)) fun ch doneMsg hs =>
      ⟨hs, (h.sending ch doneMsg hs).2.1, fun htakes => hpc ch htakes.holds⟩
  obtain ⟨args, pc, raftIdx⟩ := w
  cases ht with
  | getState => exact hstay fun _ => id
  | seenCmd => exact hsound.elim
  | refused => exact hstay fun _ => id
  | started => exact hstay fun _ => id
  | stub idx hfree =>
    have hopen := KVServer.closed_stub hapart
    refine h.move k (fun ch => by rw [KVServer.channel_stub]) (fun i ch hi hch => ?_)
      (fun ch hch => ?_) fun ch doneMsg hs => ?_
    · rw [KVServer.channel_stub] at hch
      rcases KVServer.applyStub_stub hi with hi | ⟨-, rfl⟩
      · exact h.stubbed i ch hi hch
      · exact absurd hch (Bool.eq_false_iff.mp hopen)
    · obtain rfl : (σ.server.stub idx).2 = ch := hch
      exact hopen
    · rw [KVServer.sending_stub, hfree] at hs
      exact nomatch hs
  | matched idx ch doneMsg hmsg =>
    refine h.receive hw rfl hsound.2.1 hmsg ?_ k
    exact fun _ => Eq.symm
  | mismatched idx ch doneMsg hmsg =>
    refine h.receive hw rfl hsound.2.1 hmsg ?_ k
    exact fun _ => Eq.symm
  | timedOut => exact hstay fun _ => id
  | putBack ch doneMsg hopen =>
    have hclosed : ∀ i, ((σ.server.setChannel ch
        { σ.server.channel ch with buffer := some doneMsg }).channel i).closed =
          (σ.server.channel i).closed := by
      intro i
      rw [KVServer.channel_setChannel hsound.1]
      split_ifs with heq
      · rw [heq]
      · rfl
    refine h.move k hclosed (fun i c hi hc => ?_) nofun fun c msg hs => ?_
    · exact h.stubbed i c hi ((hclosed c).symm.trans hc)
    · obtain ⟨-, hbuffer, hothers⟩ := h.sending c msg hs
      have hne : c ≠ ch := fun heq => hothers _ hw heq.symm
      rw [KVServer.channel_setChannel hsound.1, if_neg hne]
      exact ⟨hs, hbuffer, nofun⟩
  | close idx ch hopen => exact h.close hinv hw rfl hapart fun _ => id
  | delete idx =>
    refine h.move k (fun _ => rfl) (fun i ch hi hch => ?_) nofun fun ch doneMsg hs =>
      ⟨hs, (h.sending ch doneMsg hs).2.1, nofun⟩
    dsimp only at hi
    rw [Function.update_apply] at hi
    split_ifs at hi
    exact h.stubbed i ch hi hch
  | answer => exact hstay fun _ => id

/-- Another store changes nothing. -/
theorem Waiters.Inv.withStore (h : σ.Inv home) (store : Kv) :
    Waiters.Inv { σ with server := { σ.server with kv := store } } home where
  carries := ⟨h.carries.homed, h.carries.buffer, h.carries.sending⟩
  sound w hw := (h.sound w hw).mono ⟨Nat.le_refl _, .of_channels rfl, fun _ _ => rfl⟩
    (List.Subset.refl _)
  le_consumed := h.le_consumed

theorem Waiters.Quiet.withStore (h : σ.Quiet) (store : Kv) :
    Waiters.Quiet { σ with server := { σ.server with kv := store } } :=
  ⟨h.unheld, h.stubbed, h.sending⟩

/-- **`dealWithApplyMsg`** is about to send on a channel that is open and empty, and that nobody
has taken anything from, since its index is larger than all before. -/
theorem Waiters.Quiet.report (h : σ.Quiet) (hinv : σ.Inv home) {index : ℕ} (operation : Op)
    (hlt : σ.consumed < index) (delivered : List (ℕ × Op)) :
    Waiters.Quiet { σ with
      server := σ.server.report index operation
      delivered := delivered
      consumed := index } := by
  obtain ⟨home', hcarries, hgrows, hlen, hhome⟩ := hinv.carries.stub index
  have hopen : (σ.server.channel (σ.server.stub index).2).closed = false := by
    refine KVServer.closed_stub fun ch hch => ?_
    by_contra hclosed
    exact hlt.not_ge (h.stubbed index ch hch (Bool.not_eq_false _ ▸ hclosed))
  have hchannel : ∀ ch, (σ.server.report index operation).channel ch =
      if ch = (σ.server.stub index).2 then (σ.server.channel (σ.server.stub index).2).drain
      else σ.server.channel ch := by
    intro ch
    rw [← KVServer.channel_stub σ.server index, ← KVServer.channel_stub σ.server index]
    exact KVServer.channel_setChannel hlen _ ch
  have hclosed : ∀ ch, ((σ.server.report index operation).channel ch).closed =
      (σ.server.channel ch).closed := by
    intro ch
    rw [hchannel]
    split_ifs with heq
    · rw [heq]
      rfl
    · rfl
  refine ⟨fun w hw ch hch => ?_, fun i ch hi hch => ?_, fun ch doneMsg hs => ?_⟩
  · rw [hclosed]
    exact h.unheld w hw ch hch
  · rw [hclosed] at hch
    rcases KVServer.applyStub_stub hi with hi | ⟨rfl, -⟩
    · exact (h.stubbed i ch hi hch).trans hlt.le
    · exact Nat.le_refl _
  · obtain ⟨rfl, -⟩ := Prod.mk.inj (Option.some.inj hs)
    refine ⟨(hclosed _).trans hopen, ?_, fun w hw htakes => ?_⟩
    · rw [hchannel, if_pos rfl]
      rfl
    · obtain ⟨hch, x, hx, hxhome⟩ := (hinv.sound w hw).delivered htakes hopen
      rw [← hgrows.home _ hch, hhome] at hxhome
      exact hlt.not_ge (hxhome ▸ hinv.le_consumed x hx)

/-- **Every step keeps it** in which no channel is shared at the wrong moment. -/
theorem Waiters.Quiet.step (h : σ.Quiet) (hinv : σ.Inv home) {e : WaitersEvent} (hok : σ.Apart e)
    (hstep : σ.step gob e = .ok σ') : σ'.Quiet := by
  cases e with
  | enter args =>
    cases hstep
    refine ⟨fun w hw ch hch => ?_, h.stubbed, fun ch doneMsg hs => ?_⟩
    · rcases List.mem_append.mp hw with hw | hw
      · exact h.unheld w hw ch hch
      · obtain rfl := List.mem_singleton.mp hw
        exact hch.elim
    · obtain ⟨hopen, hbuffer, hothers⟩ := h.sending ch doneMsg hs
      refine ⟨hopen, hbuffer, fun w hw => ?_⟩
      rcases List.mem_append.mp hw with hw | hw
      · exact hothers w hw
      · obtain rfl := List.mem_singleton.mp hw
        exact id
  | turn k t =>
    rw [Waiters.step, Waiters.turn] at hstep
    split at hstep
    · cases hstep
    next w hk =>
    obtain ⟨⟨kv, pc⟩, hturn, hstep⟩ := bind_eq_ok.mp hstep
    cases hstep
    exact h.turned hinv hk hok (KVServer.turned hturn) _
  | apply index operation =>
    rw [Waiters.step, Waiters.apply] at hstep
    split_ifs at hstep with hlt
    obtain ⟨kv, hdeal, hstep⟩ := bind_eq_ok.mp hstep
    cases hstep
    rw [KVServer.dealWithApplyMsg] at hdeal
    split at hdeal
    · cases hdeal
    cases hdeal
    exact (h.withStore (σ.server.kv.enact operation)).report (hinv.withStore _) operation hlt _
  | install snapshot =>
    obtain ⟨kv, hdeal, hstep⟩ := bind_eq_ok.mp hstep
    cases hstep
    rw [KVServer.dealWithApplyMsg] at hdeal
    split at hdeal
    · cases hdeal
    cases hdeal
    exact h.withStore _
  | finishApply =>
    obtain ⟨kv, hfin, hstep⟩ := bind_eq_ok.mp hstep
    cases hstep
    rw [KVServer.finishApplyMsg] at hfin
    split at hfin
    · cases hfin
    next ch doneMsg hs =>
    obtain ⟨done, hsend, hfin⟩ := bind_eq_ok.mp hfin
    obtain ⟨-, rfl⟩ := DoneCh.send_eq_ok hsend
    cases hfin
    have hlt := (hinv.carries.sending ch doneMsg hs).1
    have hclosed : ∀ i, (KVServer.channel { σ.server.setChannel ch
        { σ.server.channel ch with buffer := some doneMsg } with sending := none } i).closed =
          (σ.server.channel i).closed := by
      intro i
      refine (congrArg DoneCh.closed (KVServer.channel_setChannel hlt _ i)).trans ?_
      split_ifs with heq
      · rw [heq]
      · rfl
    refine ⟨fun w hw i hi => ?_, fun idx i hidx hi => ?_, by simp⟩
    · exact (hclosed i).trans (h.unheld w hw i hi)
    · exact h.stubbed idx i hidx ((hclosed i).symm.trans hi)

/-- A goroutine panics only if the channel that it puts back into, or closes, is closed. -/
theorem KVServer.turn_ne_panic {args : Args} {pc : Pc}
    (h : ∀ ch, pc.Takes ch → (kv.channel ch).closed = false) (t : Turn) :
    kv.turn args pc t ≠ .error .panic := by
  have hlock : ∀ x : KVServer × Pc, kv.withLock x ≠ .error .panic := by
    intro x
    rw [withLock]
    split_ifs <;> simp
  rw [turn.eq_def]
  split
  · simp
  · exact hlock _
  · simp
  · simp
  · exact hlock _
  · next ch =>
    rw [DoneCh.receive]
    split
    · simp
    · split_ifs <;> simp
  · simp
  · next ch doneMsg =>
    rw [DoneCh.send, if_neg (Bool.eq_false_iff.mp (h ch rfl))]
    split_ifs <;> simp
  · next raftIdx ch =>
    rw [DoneCh.close, if_neg (Bool.eq_false_iff.mp (h ch rfl))]
    simp
  · exact hlock _
  · dsimp only
    split_ifs
    · exact hlock _
    · simp
  · simp

/-- Where no channel in use is closed, no step panics. -/
theorem Waiters.Quiet.step_ne_panic (h : σ.Quiet) (e : WaitersEvent) :
    σ.step gob e ≠ .error .panic := by
  have hdeal : ∀ msg : ApplyMsg Op, σ.server.kv.dealWithApplyMsg gob msg ≠ none →
      σ.server.dealWithApplyMsg gob msg ≠ .error .panic := by
    intro msg hmsg
    rw [KVServer.dealWithApplyMsg]
    split
    · simp
    · split
      · next hnone => exact absurd hnone hmsg
      · split <;> simp
  intro hpanic
  cases e with
  | enter args => cases hpanic
  | turn k t =>
    rw [Waiters.step, Waiters.turn] at hpanic
    split at hpanic
    · cases hpanic
    next w hk =>
    rcases bind_eq_error.mp hpanic with hturn | ⟨b, -, hb⟩
    · refine KVServer.turn_ne_panic (fun ch htakes => ?_) t hturn
      exact h.unheld w (List.mem_of_getElem? hk) ch htakes.holds
    · cases hb
  | apply index operation =>
    rw [Waiters.step, Waiters.apply] at hpanic
    split_ifs at hpanic
    · rcases bind_eq_error.mp hpanic with hpanic | ⟨b, -, hb⟩
      · refine hdeal _ ?_ hpanic
        exact Option.some_ne_none _
      · cases hb
    · cases hpanic
  | install snapshot =>
    rcases bind_eq_error.mp hpanic with hpanic | ⟨b, -, hb⟩
    · refine hdeal _ ?_ hpanic
      exact Option.some_ne_none _
    · cases hb
  | finishApply =>
    rcases bind_eq_error.mp hpanic with hpanic | ⟨b, -, hb⟩
    · rw [KVServer.finishApplyMsg] at hpanic
      split at hpanic
      · cases hpanic
      next ch doneMsg hs =>
      rcases bind_eq_error.mp hpanic with hsend | ⟨b, -, hb⟩
      · rw [DoneCh.send, if_neg (Bool.eq_false_iff.mp (h.sending ch doneMsg hs).1)] at hsend
        split_ifs at hsend
        cases hsend
      · cases hb
    · cases hb

theorem Waiters.Run.quiet {τ : List Waiters} (h : Waiters.Run gob Waiters.Apart τ) :
    ∀ σ ∈ τ, σ.Quiet := by
  have hboth : ∀ σ ∈ τ, (∃ home, Waiters.Inv σ home) ∧ σ.Quiet := by
    refine Trace.invariant (P := fun σ => (∃ home, Waiters.Inv σ home) ∧ σ.Quiet)
      ⟨⟨_, Waiters.inv_init⟩, Waiters.quiet_init⟩ ?_ h
    rintro σ e σ' ⟨⟨home, hinv⟩, hquiet⟩ ⟨hok, hstep⟩
    obtain ⟨home', hinv', -⟩ := hinv.step hstep
    exact ⟨⟨home', hinv'⟩, hquiet.step hinv hok hstep⟩
  exact fun σ hσ => (hboth σ hσ).2

end Quiet

/-- **The channels of `applyStub` are used safely** in every run in which no goroutine closes a
channel that another one holds, or looks up a closed one: the next step, whatever it is, does not
send on or close a closed channel. And an operation that is said to be done was delivered at its
index, which does not need the condition. -/
theorem waiters_safe (gob : Gob Kv) :
    (∀ σ τ, Waiters.Run gob Waiters.Apart (σ :: τ) →
      ∀ e : WaitersEvent, σ.step gob e ≠ .error .panic) ∧
    ∀ σ τ, Waiters.Run gob (fun _ _ => True) (σ :: τ) →
      ∀ w ∈ σ.waiters, ∀ isLeader, w.pc = .answer isLeader true →
        ∃ raftIdx, w.raftIdx = some raftIdx ∧
          DeliveredAt σ.delivered raftIdx w.args.clientID w.args.cmdID := by
  refine ⟨fun σ τ h e => ?_, fun σ τ h w hw isLeader hpc => ?_⟩
  · exact (h.quiet σ List.mem_cons_self).step_ne_panic e
  · exact h.returned_delivered List.mem_cons_self hw hpc

/-- Two operations are started at index 2, the second after the log was cut back, and wait at one
channel. The second is delivered there. The goroutine of the first was there first: it receives the
message, which is not its own, and puts it back for the other. -/
def putBackAndDone : List WaitersEvent :=
  [.enter ⟨.put "x" "1", 7, 0⟩, .turn 0 (.raftStart (some 2)), .turn 0 .run,
    .enter ⟨.put "x" "2", 8, 0⟩, .turn 1 (.raftStart (some 2)), .turn 1 .run,
    .apply 1 ⟨.put, "x", "3", 9, 0⟩, .finishApply, .apply 2 ⟨.put, "x", "2", 8, 0⟩, .finishApply,
    .turn 0 .run, .turn 0 .run, .turn 1 .run, .turn 1 .run, .turn 1 .run]

theorem waiters_safe_two : ∃ σ τ, Waiters.Run (Gob.unary Kv) Waiters.Apart (σ :: τ) ∧
    Waiters.Run (Gob.unary Kv) (fun _ _ => True) (σ :: τ) ∧
    σ.waiters = [⟨⟨.put "x" "1", 7, 0⟩, .answer true false, some 2⟩,
      ⟨⟨.put "x" "2", 8, 0⟩, .answer true true, some 2⟩] ∧
    σ.step (Gob.unary Kv) (.turn 0 .run) ≠ .error .panic ∧ DeliveredAt σ.delivered 2 8 0 := by
  have hend : (putBackAndDone.foldlM (stepIf .disabled Waiters.Apart (Waiters.step (Gob.unary Kv)))
      Waiters.init).toOption.map Waiters.waiters =
        some [⟨⟨.put "x" "1", 7, 0⟩, .answer true false, some 2⟩,
          ⟨⟨.put "x" "2", 8, 0⟩, .answer true true, some 2⟩] := by
    decide +kernel
  obtain ⟨σ, hσ, hwaiters⟩ := Option.map_eq_some_iff.mp hend
  obtain ⟨τ, hrun⟩ := Trace.exists_of_stepIf (Cluster.eq_ok_of_mem_toOption hσ)
  have hall : Waiters.Run (Gob.unary Kv) (fun _ _ => True) (σ :: τ) :=
    hrun.mono fun _ _ _ h => ⟨trivial, h.2⟩
  have hmem : ⟨⟨.put "x" "2", 8, 0⟩, .answer true true, some 2⟩ ∈ σ.waiters :=
    hwaiters ▸ .tail _ (.head _)
  obtain ⟨hpanic, hdone⟩ := waiters_safe (Gob.unary Kv)
  obtain ⟨raftIdx, hidx, hdelivered⟩ := hdone σ τ hall _ hmem true rfl
  obtain rfl := Option.some.inj hidx
  exact ⟨σ, τ, hrun, hall, hwaiters, hpanic σ τ hrun _, hdelivered⟩

/-- Two operations are started at index 2, the second after the log was cut back, and get the same
channel. The goroutine of the second is there first. Its operation is delivered, it finds that done,
and closes the channel. The other one receives from the closed channel what looks like the message
of another command, and puts it back. -/
def sharedChannel : List WaitersEvent :=
  [.enter ⟨.put "x" "1", 7, 0⟩, .turn 0 (.raftStart (some 2)),
    .enter ⟨.put "x" "2", 8, 0⟩, .turn 1 (.raftStart (some 2)), .turn 1 .run, .turn 0 .run,
    .apply 1 ⟨.put, "x", "3", 9, 0⟩, .finishApply, .apply 2 ⟨.put, "x", "2", 8, 0⟩, .finishApply,
    .turn 1 .run, .turn 1 .run, .turn 0 .run]

/-- The first goroutine sends on a closed channel. -/
theorem waiters_unsafe : ∃ σ τ, Waiters.Run (Gob.unary Kv) (fun _ _ => True) (σ :: τ) ∧
    (σ.server.channel 0).closed = true ∧
    ⟨⟨.put "x" "1", 7, 0⟩, .putBack 0 ⟨0, 0⟩, some 2⟩ ∈ σ.waiters ∧
    σ.step (Gob.unary Kv) (.turn 0 .run) = .error .panic := by
  have hend : (sharedChannel.foldlM
      (stepIf .disabled (fun _ _ => True) (Waiters.step (Gob.unary Kv)))
      Waiters.init).toOption.map (fun σ => ((σ.server.channel 0).closed, σ.waiters,
        (σ.step (Gob.unary Kv) (.turn 0 .run)).map fun _ => ())) =
        some (true, [⟨⟨.put "x" "1", 7, 0⟩, .putBack 0 ⟨0, 0⟩, some 2⟩,
          ⟨⟨.put "x" "2", 8, 0⟩, .delete 2, some 2⟩], .error .panic) := by
    decide +kernel
  obtain ⟨σ, hσ, hlast⟩ := Option.map_eq_some_iff.mp hend
  obtain ⟨τ, hrun⟩ := Trace.exists_of_stepIf (Cluster.eq_ok_of_mem_toOption hσ)
  obtain ⟨hclosed, hlast⟩ := Prod.mk.inj hlast
  obtain ⟨hwaiters, hlast⟩ := Prod.mk.inj hlast
  refine ⟨σ, τ, hrun, hclosed, hwaiters ▸ List.mem_cons_self, ?_⟩
  cases hstep : σ.step (Gob.unary Kv) (.turn 0 .run) with
  | ok => rw [hstep] at hlast; cases hlast
  | error fault => rw [hstep] at hlast; exact congrArg _ (Except.error.inj hlast)

end RaftKVDB
