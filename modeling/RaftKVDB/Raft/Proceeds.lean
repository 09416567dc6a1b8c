import RaftKVDB.Foundations.Reach
import RaftKVDB.Raft.Backup
import RaftKVDB.Raft.SignalCluster
import RaftKVDB.Raft.StateMachine
import RaftKVDB.Raft.Steady

/-!
# Going on without anything going wrong

`Raft/Electable` and `Raft/Recovers` say what a cluster can still do from a state it has got into,
if from then on no message is lost, nobody crashes and nobody compacts its log. The continuation
they promise is one of the cluster with its channels, `SignalCluster.Comes`.

It is easier to say what happens in the cluster alone, where an event is one step and the daemon
receives when it applies. There a continuation has to have a slot for every signal it sends
(`Cluster.Comes`), and if nobody waits for a slot at the beginning, nobody has to wait later. So
first those who wait get their slot. That is possible in all but one case: a channel is full, and
the daemon that would make a slot waits for the lock of the one who waits for the slot.

## Main results

* `SignalCluster.Unlocked.exists_released` — if no peer is in that deadlock, whoever waits can be
  let through
* `SignalCluster.exists_comes` — then the cluster with its channels can do what the cluster can
-/

namespace RaftKVDB

open Foundations Cluster

variable {n : ℕ} {α : Type*}

/-! ### The cluster -/

/-- Time passes, messages arrive and are answered: nothing is lost, nobody crashes and nobody
compacts its log. -/
def Event.Proceeds : Event n α → Prop
  | .lose _ | .restart _ | .compact _ _ _ => False
  | _ => True

section Cluster

variable {σ σ' σ'' : Cluster n α} {e : Event n α} {p q : Fin n}

/-- No channel comes to have more signals than slots. -/
def Cluster.Roomy (σ σ' : Cluster n α) : Prop :=
  ∀ q, (σ'.peers q).commitCh ≤ max (σ.peers q).commitCh commitChSlots

/-- A cluster can come from one state to the other without anything going wrong, and with a slot
for every signal. -/
def Cluster.Comes (σ σ' : Cluster n α) : Prop :=
  Leads (fun σ e σ' => Next Truthful σ e σ' ∧ σ.Roomy σ') Event.Proceeds σ σ'

theorem Cluster.Comes.of_step (he : e.Proceeds) (hok : Truthful σ e) (hstep : σ.step e = .ok σ')
    (hroom : σ.Roomy σ') : σ.Comes σ' :=
  .single he ⟨⟨hok, hstep⟩, hroom⟩

theorem Cluster.Comes.run (h : σ.Comes σ') (hrun : ∃ τ, Run Truthful (σ :: τ)) :
    ∃ τ, Run Truthful (σ' :: τ) := by
  obtain ⟨τ, hτ⟩ := hrun
  obtain ⟨τ', hτ', -⟩ := Leads.trace (Leads.imp h fun _ _ _ hn => hn.1) hτ
  exact ⟨τ', hτ'⟩

/-- Only the processing of a reply is asked for anything. -/
theorem truthful_of_processed (h : e.processed = none) : Truthful σ e := by
  intro k hk
  rw [h] at hk
  cases hk

/-- Only a critical section that may wait needs a slot. -/
theorem roomy_of_step (hstep : σ.step e = .ok σ') (h : ∀ p, ¬ σ.Waiting p e) : σ.Roomy σ' := by
  intro q
  obtain ⟨hresumed, hgoing⟩ := commitCh_of_step hstep q
  refine le_max_of_le_left ?_
  by_cases hres : e.resumed = some q
  · exact (hresumed hres).trans (Nat.sub_le _ _)
  · rcases hgoing hres with heq | ⟨-, hwaiting⟩
    · exact heq.le
    · exact (h q hwaiting).elim

/-- An event that is about no call can always happen. -/
theorem comes_of_call (he : e.Proceeds) (hcall : e.call = none) (hstep : σ.step e = .ok σ') :
    σ.Comes σ' := by
  refine .of_step he (truthful_of_processed ?_) hstep (roomy_of_step hstep fun p hwaiting => ?_)
  · cases e with
    | process k => cases hcall
    | broadCastVote | start | checkConsistency | compact | apply | handle | notify | lose
    | restart => rfl
  · cases hwaiting <;> cases hcall

/-- A channel has as many signals as before, or more, if no daemon comes to the receive. -/
theorem commitCh_le_of_step (hstep : σ.step e = .ok σ') (h : e.resumed = none) (q : Fin n) :
    (σ.peers q).commitCh ≤ (σ'.peers q).commitCh := by
  rcases (commitCh_of_step hstep q).2 (by simp [h]) with heq | ⟨hmore, -⟩
  · exact heq.ge
  · exact hmore ▸ Nat.le_succ _

/-- There is room at each step if there is room for all. -/
theorem Cluster.Roomy.between {σ₁ σ₂ : Cluster n α} (h : σ.Roomy σ')
    (hbefore : ∀ q, (σ.peers q).commitCh ≤ (σ₁.peers q).commitCh)
    (hafter : ∀ q, (σ₂.peers q).commitCh ≤ (σ'.peers q).commitCh) : σ₁.Roomy σ₂ :=
  fun q => (hafter q).trans ((h q).trans (max_le_max_right _ (hbefore q)))

/-- A round is a few steps without anything going wrong, if there is room for its signals and the
leader may believe the reply. -/
theorem comes_round (hround : σ.round p q = .ok σ') (hroom : σ.Roomy σ')
    (htrue : ∀ σ₁, σ.deliver p q = .ok σ₁ → Truthful σ₁ (.process σ.calls.length)) :
    σ.Comes σ' := by
  obtain ⟨σ₃, hdel, hproc⟩ := bind_eq_ok.mp hround
  have htrue₃ := htrue σ₃ hdel
  obtain ⟨σ₁, hreq, hdel⟩ := bind_eq_ok.mp hdel
  obtain ⟨σ₂, hhandle, hnotify⟩ := bind_eq_ok.mp hdel
  have hle₁ := commitCh_le_of_step hreq rfl
  have hle₂ := commitCh_le_of_step hhandle rfl
  have hle₄ := commitCh_le_of_step hproc rfl
  have hfirst : σ.Comes σ₁ := comes_of_call (e := .checkConsistency p q) trivial rfl hreq
  -- The handler and the processor have room, as no daemon is in between.
  have hrest : (∀ q, (σ₂.peers q).commitCh ≤ (σ₃.peers q).commitCh) → σ₂.Comes σ₃ →
      σ.Comes σ' := by
    intro hle₃ hmiddle
    have hsecond : σ₁.Comes σ₂ := .of_step (e := .handle _) trivial (truthful_of_processed rfl)
      hhandle (hroom.between hle₁ fun q => (hle₃ q).trans (hle₄ q))
    have hlast : σ₃.Comes σ' := .of_step (e := .process _) trivial htrue₃ hproc
      (hroom.between (fun q => (hle₁ q).trans ((hle₂ q).trans (hle₃ q))) fun _ => Nat.le_refl _)
    exact hfirst.trans (hsecond.trans (hmiddle.trans hlast))
  split at hnotify
  · refine hrest (commitCh_le_of_step hnotify rfl) (.of_step (e := .notify _) trivial
      (truthful_of_processed rfl) hnotify (roomy_of_step hnotify fun _ hwaiting => ?_))
    cases hwaiting
  · obtain rfl := Except.ok.inj hnotify
    exact hrest (fun _ => Nat.le_refl _) (.refl _)

/-- The leader may believe a reply that its log confirms. -/
theorem truthful_answered (hne : p ≠ q) {rf : Raft n α} {args : AppendEntriesArgs n α}
    {reply : AppendEntriesReply} (hok : (σ.peers p).Confirms args reply) :
    Truthful (σ.answered p q rf (.appendEntries args (some reply)))
      (.process σ.calls.length) := by
  intro k hk c hc x hx
  obtain rfl := Option.some.inj hk
  simp only [Cluster.answered, Cluster.setPeer, List.getElem?_concat_length, Option.mem_some_iff]
    at hc
  obtain rfl := hc
  obtain rfl := Option.some.inj hx
  simpa [Cluster.answered, Cluster.setPeer, hne] using hok

theorem Cluster.Run.exists_sim {ok : Cluster n α → Event n α → Prop} {τ : List (Cluster n α)}
    (h : Run ok τ) : ∀ σ ∈ τ, ∃ a, Sim σ a :=
  Trace.invariant (P := fun σ => ∃ a, Sim σ a) ⟨_, sim_init⟩
    (fun _ _ _ hs hn => exists_sim_step hs hn.2) h

/-- A critical section that waits can be gone through, and leaves the snapshot alone. -/
theorem Cluster.Waiting.exists_step (h : σ.Waiting p e) (hsim : ∃ a, Sim σ a) :
    ∃ σ', σ.step e = .ok σ' ∧ (σ'.peers p).snapshotIndex = (σ.peers p).snapshotIndex := by
  obtain ⟨a, ha⟩ := hsim
  cases h with
  | @handle k c args hc hserver hbody =>
    have hsome := handle_ne_panic ha k c
    simp only [Cluster.handle, hbody, ne_eq, orPanic_eq_panic, Option.map_eq_none_iff] at hsome
    obtain ⟨⟨rf, reply⟩, hrun⟩ := Option.ne_none_iff_exists'.mp hsome
    refine ⟨(σ.setPeer c.server rf).setBody k c (.appendEntries args (some reply)),
      onCall_eq_ok.mpr ⟨c, hc, ?_⟩, ?_⟩
    · simp only [Cluster.handle, hbody, hrun, Option.map_some, orPanic]
    · subst hserver
      simpa [Cluster.setPeer, Cluster.setBody] using (Raft.steady_appendEntries hrun).snapshotIndex
  | @process k c args reply rf hc hcaller hepoch hbody hrun =>
    subst hcaller
    refine ⟨(σ.setPeer c.caller rf).endCall k, onCall_eq_ok.mpr ⟨c, hc, ?_⟩, ?_⟩
    · simp [Cluster.process, hepoch, hbody, hrun, orPanic]
    · simpa [Cluster.setPeer, Cluster.endCall] using
        (Raft.steady_sendAppendEntriesAndProcess hrun).snapshotIndex

end Cluster

/-! ### The channels -/

/-- As in the cluster. -/
def SignalClusterEvent.Proceeds : SignalClusterEvent n α → Prop
  | .act e => e.Proceeds
  | .send _ | .receive _ | .lock _ => True

namespace SignalCluster

variable {s s' : SignalCluster n α} {σ σ' : Cluster n α} {e : Event n α} {p q : Fin n}

/-- A cluster with its channels can come from one state to the other without anything going
wrong. -/
def Comes (s s' : SignalCluster n α) : Prop :=
  Leads (Next Truthful) SignalClusterEvent.Proceeds s s'

theorem Comes.exists_net (hcomes : s.Comes s') {τ : List (SignalCluster n α)}
    (h : Run Truthful τ) (hs : s ∈ τ) : ∃ τ', Cluster.Run Truthful (s'.net :: τ') := by
  obtain ⟨front, τ₀, rfl⟩ := List.append_of_mem hs
  obtain ⟨τ', hrun, -⟩ := Leads.trace hcomes (Trace.of_suffix h (List.suffix_append ..))
  exact Run.exists_net lasting_truthful hrun List.mem_cons_self

/-- A step of a lock, a channel or a daemon is asked for nothing. -/
theorem comes_of_stepped {x : SignalClusterEvent n α} (hx : ∀ e, x ≠ .act e)
    (h : Stepped s x s') : s.Comes s' := by
  cases x with
  | act e => exact absurd rfl (hx e)
  | send p => exact .single (e := .send p) trivial ⟨trivial, step_of_stepped h⟩
  | receive p => exact .single (e := .receive p) trivial ⟨trivial, step_of_stepped h⟩
  | lock p => exact .single (e := .lock p) trivial ⟨trivial, step_of_stepped h⟩

/-- Nobody waits for a slot. -/
def Released (s : SignalCluster n α) : Prop := ∀ p, s.held p = none

theorem Released.free (h : s.Released) (happly : ∀ p, e ≠ .apply p) : s.Free e := by
  cases e with
  | apply p => exact absurd rfl (happly p)
  | lose k =>
    intro q
    simp [h q]
  | broadCastVote | start | checkConsistency | compact | handle | notify | process | restart =>
    exact fun p _ => h p

theorem Released.went (h : s.Released) (net : Cluster n α) : (s.went e net).Released := by
  intro p
  simp [SignalCluster.went, h p]

/-- A step with a slot for its signals. The daemon receives, if it has not yet, and locks. -/
theorem Released.comes (h : s.Released) (he : e.Proceeds) (hok : Truthful s.net e)
    (hstep : s.net.step e = .ok σ') (hroom : s.net.Roomy σ') :
    ∃ s', s.Comes s' ∧ s'.Released ∧ s'.net = σ' := by
  by_cases happly : ∃ p, e = .apply p
  · obtain ⟨p, rfl⟩ := happly
    cases htaken : s.taken p with
    | true => exact ⟨_, comes_of_stepped (by simp) (.lock htaken (h p) hstep), h.went _, rfl⟩
    | false =>
      have hsignal : 0 < s.signals p := by
        rw [signals, htaken]
        refine Nat.pos_of_ne_zero fun hnone : (s.net.peers p).commitCh = 0 => ?_
        rw [Cluster.step, if_pos hnone] at hstep
        cases hstep
      have hreceive := comes_of_stepped (by simp) (.receive htaken hsignal)
      have hlock := comes_of_stepped (s := { s with taken := Function.update s.taken p true })
        (by simp) (.lock (Function.update_self ..) (h p) hstep)
      exact ⟨_, hreceive.trans hlock, Released.went h σ', rfl⟩
  · refine ⟨s.went e σ', .single (e := .act e) he ⟨hok, step_of_stepped (.act ?_ hstep ?_)⟩,
      h.went _, rfl⟩
    · exact h.free fun p hp => happly ⟨p, hp⟩
    · intro p _ hlt
      have := hroom p
      rw [signals]
      omega

/-- **The cluster with its channels can do what the cluster can**, if nobody waits for a slot. -/
theorem exists_comes (h : s.Released) (hcomes : s.net.Comes σ') :
    ∃ s', s.Comes s' ∧ s'.Released ∧ s'.net = σ' :=
  Leads.lift (f := SignalCluster.net) (K := Released) hcomes
    (fun _ _ _ hK he hn => hK.comes he hn.1.1 hn.1.2 hn.2) h

/-! ### Letting those who wait through -/

/-- No peer is in the deadlock, and the snapshots end at `S`. -/
structure Unlocked (S : Fin n → ℕ) (s : SignalCluster n α) : Prop where
  inv : s.Inv Always
  sim : ∃ a, Sim s.net a
  free : ∀ p, ¬ (s.peer p).Deadlocked
  snapshot : ∀ p, (s.net.peers p).snapshotIndex = S p

theorem Run.unlocked {ok : Cluster n α → Event n α → Prop} {τ : List (SignalCluster n α)}
    (h : Run ok τ) (hs : s ∈ τ) (hfree : ∀ p, ¬ (s.peer p).Deadlocked) :
    Unlocked (fun p => (s.net.peers p).snapshotIndex) s := by
  obtain ⟨τ', hnet⟩ := h.always.exists_net lasting_always hs
  have hsim := hnet.exists_sim s.net List.mem_cons_self
  exact ⟨h.always.inv lasting_always s hs, hsim, hfree, fun _ => rfl⟩

variable {S : Fin n → ℕ}

/-- The daemon receives. -/
theorem Unlocked.receive (h : Unlocked S s) (htaken : s.taken p = false)
    (hsignal : 0 < s.signals p) :
    Unlocked S { s with taken := Function.update s.taken p true } where
  inv := h.inv.step lasting_always begins_always (.receive htaken hsignal)
  sim := h.sim
  snapshot := h.snapshot
  free q := by
    have hfree := h.free q
    rw [deadlocked_iff] at hfree ⊢
    rw [signals_receive]
    rcases eq_or_ne q p with rfl | hne
    · have hroom := h.inv.room q
      rw [signals, htaken] at hroom hsignal
      simp only [Bool.toNat_false, Nat.sub_zero] at hroom hsignal
      rintro ⟨-, hfull, -⟩
      rw [if_pos rfl] at hfull
      omega
    · simpa [hne] using hfree

/-- The one who waits gets a slot. -/
theorem Unlocked.send (h : Unlocked S s) (hheld : s.held p = some e)
    (hroom : s.signals p < commitChSlots) : ∃ s', s.Comes s' ∧ Unlocked S s' ∧ s'.held p = none ∧
      ∀ q, s.held q = none → s'.held q = none := by
  have hwaiting := h.inv.waiting p e hheld
  obtain ⟨net, hrun, hsnap⟩ := hwaiting.exists_step h.sim
  have hstepped : Stepped s (.send p) ((s.release p).went e net) := .send hheld hroom hrun
  have hgone : ((s.release p).went e net).held p = none := by
    simp [SignalCluster.went, release]
  have hspares {q : Fin n} (hne : q ≠ p) : s.net.Spares q e e := h.inv.spares hheld hne
  refine ⟨_, comes_of_stepped (by simp) hstepped,
    ⟨h.inv.step lasting_always begins_always hstepped, exists_sim_step h.sim hrun,
      fun q => ?_, fun q => ?_⟩, hgone, fun q hq => ?_⟩
  · rcases eq_or_ne q p with rfl | hne
    · exact not_deadlocked hgone
    · obtain ⟨hsignals, htaken, hsome⟩ :=
        went_of_ne (s := s.release p) hrun (hspares hne).lock (hspares hne).crash
      have hfree := h.free q
      rw [deadlocked_iff] at hfree ⊢
      rw [hsignals, htaken, hsome]
      simpa [release, signals, hne] using hfree
  · rcases eq_or_ne q p with rfl | hne
    · exact hsnap.trans (h.snapshot q)
    · obtain ⟨ch, hpeer⟩ := peers_of_step hrun (hspares hne).lock (hspares hne).crash
      have hsame : (net.peers q).snapshotIndex = (s.net.peers q).snapshotIndex := by rw [hpeer]
      exact hsame.trans (h.snapshot q)
  · rcases eq_or_ne q p with rfl | hne
    · exact hgone
    · simp [SignalCluster.went, release, hne, hq]

/-- A peer that is not in the deadlock can be let through. -/
theorem Unlocked.pass (h : Unlocked S s) (p : Fin n) : ∃ s', s.Comes s' ∧ Unlocked S s' ∧
    s'.held p = none ∧ ∀ q, s.held q = none → s'.held q = none := by
  cases hheld : s.held p with
  | none => exact ⟨s, .refl s, h, hheld, fun _ hq => hq⟩
  | some e =>
    by_cases hroom : s.signals p < commitChSlots
    · exact h.send hheld hroom
    -- The channel is full, so the daemon has not received.
    have hfull : s.signals p = commitChSlots :=
      Nat.le_antisymm (h.inv.room p) (Nat.le_of_not_lt hroom)
    have htaken : s.taken p = false := by
      refine Bool.eq_false_iff.mpr fun htaken => h.free p (deadlocked_iff.mpr ?_)
      exact ⟨by rw [hheld]; rfl, hfull, htaken⟩
    have hsignal : 0 < s.signals p := hfull ▸ Nat.succ_pos _
    have hfull' : (s.net.peers p).commitCh = commitChSlots := by
      rw [signals, htaken] at hfull
      exact hfull
    obtain ⟨s', hcomes, hrest⟩ := (h.receive htaken hsignal).send hheld (by
      rw [signals_receive, if_pos rfl, hfull']
      exact Nat.pred_lt (Nat.succ_ne_zero _))
    exact ⟨s', (comes_of_stepped (by simp) (.receive htaken hsignal)).trans hcomes, hrest⟩

/-- **Whoever waits can be let through**, if no peer is in the deadlock. -/
theorem Unlocked.exists_released (h : Unlocked S s) :
    ∃ s', s.Comes s' ∧ Unlocked S s' ∧ s'.Released := by
  obtain ⟨s', hcomes, hK, hP⟩ := Leads.forall_mem (S := SignalCluster n α)
    (A := SignalClusterEvent.Proceeds) (K := Unlocked S) (P := fun p s => s.held p = none)
    (List.finRange n) (fun p _ _ hs => hs.pass p) h
  exact ⟨s', hcomes, hK, fun p => hP p (List.mem_finRange p)⟩

end SignalCluster

end RaftKVDB
