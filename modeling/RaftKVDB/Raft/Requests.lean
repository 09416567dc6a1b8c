import RaftKVDB.Raft.StateMachine

/-!
# What requests and replies are worth

A leader learns about its followers from the replies to its requests, and about its own past from
nothing else: a request carries what the log was when it was built, and a reply may come back when
the sender has long been the leader of another term.

## Main results

* `append_request_truthful_iff` — a request says of `PrevLogIndex` what is in the leader's log if
  and only if `nextIndex` is not beyond the end of it
* `follower_commit_agrees` — what a follower commits is what the sender had, for all that the two
  hold
* `old_reply_ignored_iff` — when the reply to a request of an earlier term changes nothing
-/

namespace RaftKVDB

open Foundations Cluster

variable {n : ℕ} {α : Type*} {τ : List (Cluster n α)} {σ σ' : Cluster n α} {p q : Fin n}

/-! ### Where a call comes from -/

/-- An `AppendEntries` call was there before the step, or has just been answered, or was built in
the state before the step. -/
def Originates (σ : Cluster n α) (c : Call n α) (args : AppendEntriesArgs n α)
    (reply : Option AppendEntriesReply) : Prop :=
  c ∈ σ.calls ∨
  (∃ c' ∈ σ.calls, c'.caller = c.caller ∧ c'.server = c.server ∧
    c'.body = .appendEntries args none ∧ ∃ rf r, reply = some r ∧
      (σ.peers c.server).appendEntries args = some (rf, r)) ∨
  reply = none ∧
    (σ.peers c.caller).checkConsistency c.server = some (some (.appendEntries args))

section Originates

variable {c c' : Call n α} {args : AppendEntriesArgs n α} {reply : Option AppendEntriesReply}
  {k : ℕ}

theorem mem_calls_of_mem_set {body : Body n α} (hk : σ.calls[k]? = some c')
    (hmem : c ∈ σ.calls.set k { c' with body := body }) :
    c ∈ σ.calls ∨ c' ∈ σ.calls ∧ c = { c' with body := body } := by
  rcases List.mem_or_eq_of_mem_set hmem with hmem | rfl
  · exact .inl hmem
  · exact .inr ⟨List.mem_of_getElem? hk, rfl⟩

theorem Originates.of_handle (hk : σ.calls[k]? = some c') (hrun : σ.handle k c' = .ok σ')
    (hc : c ∈ σ'.calls) (hbody : c.body = .appendEntries args reply) :
    Originates σ c args reply := by
  rcases handle_cases hrun with ⟨args', rf, r, hb, hrpc, rfl⟩ |
    ⟨args', rf, r, hb, hrpc, rfl⟩ | ⟨args', rf, r, installed, hb, hrpc, rfl⟩
  · rcases mem_calls_of_mem_set hk hc with hc | ⟨-, rfl⟩
    · exact .inl hc
    · cases hbody
  · rcases mem_calls_of_mem_set hk hc with hc | ⟨hmem, rfl⟩
    · exact .inl hc
    · obtain ⟨rfl, rfl⟩ := Body.appendEntries.inj hbody
      exact .inr (.inl ⟨c', hmem, rfl, rfl, hb, rf, r, rfl, hrpc⟩)
  · rcases mem_calls_of_mem_set hk hc with hc | ⟨-, rfl⟩
    · exact .inl hc
    · cases installed <;> cases hbody

theorem Originates.of_checkConsistency {peer : Fin n}
    (hstep : σ.step (.checkConsistency p peer) = .ok σ') (hc : c ∈ σ'.calls)
    (hbody : c.body = .appendEntries args reply) : Originates σ c args reply := by
  rw [Cluster.step] at hstep
  split at hstep
  · cases hstep
  obtain ⟨sent, hrun, rfl⟩ := Option.map_eq_some_iff.mp (orPanic_eq_ok.mp hstep)
  cases sent with
  | none => exact .inl hc
  | some request =>
    cases request with
    | appendEntries args' =>
      rcases List.mem_append.mp hc with hc | hc
      · exact .inl hc
      · obtain rfl := List.mem_singleton.mp hc
        obtain ⟨rfl, rfl⟩ := Body.appendEntries.inj hbody
        exact .inr (.inr ⟨rfl, hrun⟩)
    | installSnapShot args' =>
      rcases List.mem_append.mp hc with hc | hc
      · exact .inl hc
      · obtain rfl := List.mem_singleton.mp hc
        cases hbody

theorem appendEntries_mem_step {e : Event n α} (hstep : σ.step e = .ok σ') (hc : c ∈ σ'.calls)
    (hbody : c.body = .appendEntries args reply) : Originates σ c args reply := by
  cases e with
  | broadCastVote p =>
    obtain ⟨⟨rf, sent⟩, -, rfl⟩ := Option.map_eq_some_iff.mp (orPanic_eq_ok.mp hstep)
    cases sent with
    | none => exact .inl hc
    | some vote =>
      rcases List.mem_append.mp hc with hc | hc
      · exact .inl hc
      · obtain ⟨i, -, rfl⟩ := List.mem_map.mp hc
        cases hbody
  | start p command =>
    obtain rfl := Except.ok.inj hstep
    exact .inl hc
  | checkConsistency p peer => exact .of_checkConsistency hstep hc hbody
  | compact p cmdIndex snapshot =>
    rw [Cluster.step] at hstep
    split at hstep
    · obtain ⟨rf, -, rfl⟩ := Option.map_eq_some_iff.mp (orPanic_eq_ok.mp hstep)
      exact .inl hc
    · cases hstep
  | apply p =>
    rw [Cluster.step] at hstep
    split at hstep
    · cases hstep
    · obtain ⟨rf, -, rfl⟩ := Option.map_eq_some_iff.mp (orPanic_eq_ok.mp hstep)
      exact .inl hc
  | handle k =>
    obtain ⟨c', hk, hrun⟩ := onCall_eq_ok.mp hstep
    exact .of_handle hk hrun hc hbody
  | notify k =>
    obtain ⟨c', hk, hrun⟩ := onCall_eq_ok.mp hstep
    obtain ⟨args', r, epoch, -, -, rfl⟩ := notify_cases hrun
    rcases mem_calls_of_mem_set hk hc with hc | ⟨-, rfl⟩
    · exact .inl hc
    · cases hbody
  | process k =>
    obtain ⟨c', hk, hrun⟩ := onCall_eq_ok.mp hstep
    obtain ⟨-, ⟨_, _, -, rfl⟩ | ⟨_, _, _, -, -, rfl⟩ | ⟨_, _, -, rfl⟩⟩ := process_cases hrun <;>
      exact .inl (List.mem_of_mem_eraseIdx hc)
  | lose k =>
    obtain ⟨c', hk, hrun⟩ := onCall_eq_ok.mp hstep
    obtain rfl := Except.ok.inj hrun
    exact .inl (List.mem_of_mem_eraseIdx hc)
  | restart p =>
    obtain rfl := Except.ok.inj hstep
    exact .inl hc

end Originates

/-! ### Requests -/

namespace Raft

deriving instance DecidableEq for Request

end Raft

/-- The request tells of the log what is in it: the entry at `PrevLogIndex`, be it the dummy, has
the term `PrevLogTerm`, and `Entries` are all the entries after it. -/
def Raft.Tells (rf : Raft n α) (args : AppendEntriesArgs n α) : Prop :=
  (rf.entryAt args.prevLogIndex).map LogEntry.term = some args.prevLogTerm ∧
    ∀ j, args.entries[j]? = rf.entryAt (args.prevLogIndex + 1 + j)

theorem state_of_checkConsistency {rf : Raft n α} {peer : Fin n} {request : Raft.Request n α}
    (hsent : rf.checkConsistency peer = some (some request)) : rf.state = .leader := by
  by_contra hs
  rw [Raft.checkConsistency, if_pos hs] at hsent
  cases hsent

/-- A request by the full log of the leader that builds it. -/
theorem Raft.Represents.request {rf : Raft n α} {G : List (LogEntry α)} (hrep : rf.Represents G)
    {peer : Fin n} {args : AppendEntriesArgs n α}
    (hsent : rf.checkConsistency peer = some (some (.appendEntries args))) :
    rf.snapshotIndex ≤ args.prevLogIndex ∧ args.prevLogIndex + 1 = rf.nextIndex peer ∧
    args.term = rf.currentTerm ∧ args.entries = G.drop args.prevLogIndex ∧
    termAt G (min args.prevLogIndex G.length) = some args.prevLogTerm := by
  rcases hrep.checkConsistency (state_of_checkConsistency hsent) peer with
    ⟨-, dt, -, heq⟩ | ⟨hlt, pt, hpt, heq⟩
  · exact nomatch heq.symm.trans hsent
  · cases heq.symm.trans hsent
    exact ⟨by dsimp only; omega, by dsimp only; omega, rfl, rfl, hpt⟩

/-- **When a request tells the truth.** In every reachable state the `AppendEntries` request that a
leader builds for a peer tells of the leader's log what is in it if and only if `nextIndex` of that
peer is at most the index after the end of the log. -/
theorem append_request_truthful_iff (h : Run Always τ) (hσ : σ ∈ τ) {peer : Fin n}
    {args : AppendEntriesArgs n α}
    (hsent : (σ.peers p).checkConsistency peer = some (some (.appendEntries args))) :
    (σ.peers p).Tells args ↔ (σ.peers p).nextIndex peer ≤ (σ.peers p).lastIndex + 1 := by
  obtain ⟨a, -, hpast⟩ := h.history
  obtain ⟨τ', b, -, hb, -⟩ := hpast σ hσ
  have hrep := ((hb.sim σ rfl).peer p).log
  obtain ⟨hsnap, hnext, -, hentries, hterm⟩ := hrep.request hsent
  rw [Raft.Tells, hrep.term_entryAt hsnap, hrep.lastIndex_eq, ← hnext]
  constructor
  · rintro ⟨ht, -⟩
    exact Nat.succ_le_succ (le_length_of_termAt ht)
  · intro hle
    refine ⟨?_, fun j => ?_⟩
    · rwa [Nat.min_eq_left (by omega)] at hterm
    · rw [hentries, List.getElem?_drop, hrep.entryAt_eq (by omega)]
      congr 1
      omega

theorem append_request_truthful_three :
    ∃ args, ((replay Always electionEvents).1.peers 0).checkConsistency 1 =
        some (some (.appendEntries args)) ∧
      ((replay Always electionEvents).1.peers 0).Tells args := by
  have hsent : ((replay Always electionEvents).1.peers 0).checkConsistency 1 =
      some (some (.appendEntries ⟨1, 0, 0, 0, [], 0⟩)) := rfl
  exact ⟨_, hsent, (append_request_truthful_iff (run_replay Always electionEvents)
    List.mem_cons_self hsent).mpr (by decide +kernel)⟩

/-- Leader `0` is about to ask peer `2` again: its log ends at index 1 and `nextIndex[2]` is 3. -/
def beyondEndEvents : List (Event 5 ℕ) := falseSuccessEvents.dropLast.dropLast

theorem append_request_untruthful : ∃ τ : List (Cluster 5 ℕ), Run Always τ ∧ ∃ σ ∈ τ, ∃ args,
    (σ.peers 0).state = .leader ∧
    (σ.peers 0).checkConsistency 2 = some (some (.appendEntries args)) ∧
    ¬(σ.peers 0).Tells args := by
  refine ⟨_, run_replay Always beyondEndEvents, _, List.mem_cons_self, ⟨3, 0, 2, 2, [], 0⟩,
    by decide +kernel, by decide +kernel, fun htells => ?_⟩
  have hnone : ((replay Always beyondEndEvents).1.peers 0).entryAt 2 = none := by decide +kernel
  have hterm := htells.1
  rw [hnone] at hterm
  exact nomatch hterm

/-! ### What a follower commits -/

/-- Every request in flight was built in some state of the run. -/
theorem exists_checkConsistency (h : Run Always τ) : ∀ σ ∈ τ, ∀ c ∈ σ.calls, ∀ args reply,
    c.body = .appendEntries args reply → ∃ σ₀ ∈ τ,
      (σ₀.peers c.caller).checkConsistency c.server = some (some (.appendEntries args)) := by
  induction h with
  | start =>
    intro σ hσ c hc
    obtain rfl := List.mem_singleton.mp hσ
    exact nomatch hc
  | @step σ₁ σ₂ e τ _ hn ih =>
    have hold : ∀ σ ∈ σ₁ :: τ, ∀ c ∈ σ.calls, ∀ args reply, c.body = .appendEntries args reply →
        ∃ σ₀ ∈ σ₂ :: σ₁ :: τ,
          (σ₀.peers c.caller).checkConsistency c.server = some (some (.appendEntries args)) := by
      intro σ hσ c hc args reply hbody
      obtain ⟨σ₀, hσ₀, hbuilt⟩ := ih σ hσ c hc args reply hbody
      exact ⟨σ₀, List.mem_cons_of_mem _ hσ₀, hbuilt⟩
    intro σ hσ c hc args reply hbody
    rcases List.mem_cons.mp hσ with rfl | hσ
    swap
    · exact hold σ hσ c hc args reply hbody
    rcases appendEntries_mem_step hn.2 hc hbody with
      hc | ⟨c', hc', hcaller, hserver, hbody', -⟩ | ⟨-, hbuilt⟩
    · exact hold σ₁ List.mem_cons_self c hc args reply hbody
    · rw [← hcaller, ← hserver]
      exact hold σ₁ List.mem_cons_self c' hc' args none hbody'
    · exact ⟨σ₁, List.mem_cons_of_mem _ List.mem_cons_self, hbuilt⟩

/-- A peer that accepts a request has, as far as its log goes, what the sender had when it built the
request. That is so even if the request was about an index beyond the end of the sender's log: then
both logs have entries of the term `PrevLogTerm` at their ends. -/
theorem BuiltFrom.agrees {a : Protocol n α} {args : AppendEntriesArgs n α} {m : ℕ}
    (hreq : BuiltFrom a args m) (hinv : a.Inv)
    (ht : termAt (a.log q) args.prevLogIndex = some args.prevLogTerm) {i : ℕ} (hi : i < m) :
    (Raft.splice (a.log q) args.prevLogIndex args.entries)[i]? = (a.tlog args.term)[i]? := by
  obtain ⟨-, hm, htm, he⟩ := hreq
  rcases Nat.le_total args.prevLogIndex m with hpm | hmp
  · rw [Nat.min_eq_left hpm] at htm
    obtain ⟨hcopy, -⟩ := Raft.splice_eq (hinv.sound_log q) (hinv.sound_tlog args.term) hm hpm ht htm
    rw [he, ← getElem?_of_isPrefix hcopy (by rw [List.length_take]; omega),
      List.getElem?_take_of_lt hi]
  · have hnil : args.entries = [] := by
      rw [he]
      exact List.drop_eq_nil_of_le (by simp [hm, hmp])
    rw [Nat.min_eq_right hmp] at htm
    rw [hnil, Raft.splice_nil]
    have hq := hinv.sound_log q _ _ ht
    have hp := hinv.sound_tlog args.term _ _ htm
    have hle := le_length_of_termAt ht
    rw [← List.getElem?_take_of_lt (show i < args.prevLogIndex by omega),
      getElem?_of_isPrefix hq (by rw [List.length_take]; omega),
      ← getElem?_of_isPrefix hp (by rw [List.length_take]; omega), List.getElem?_take_of_lt hi]

/-- **A follower's commit agrees with the sender.** When a follower accepts a request in flight,
every entry up to its new commit index that is both in its log and in the sender's log as it was
when the request was built, is the same in both. -/
theorem follower_commit_agrees (h : Run Always (σ :: τ)) {c : Call n α} (hc : c ∈ σ.calls)
    {args : AppendEntriesArgs n α} (hbody : c.body = .appendEntries args none) {rf : Raft n α}
    {reply : AppendEntriesReply}
    (hrun : (σ.peers c.server).appendEntries args = some (rf, reply))
    (hsuc : reply.success = true) :
    (∃ σ₀ ∈ σ :: τ,
      (σ₀.peers c.caller).checkConsistency c.server = some (some (.appendEntries args))) ∧
    ∀ σ₀ ∈ σ :: τ,
      (σ₀.peers c.caller).checkConsistency c.server = some (some (.appendEntries args)) →
      ∀ i ≤ rf.commitIndex, ∀ e e', rf.Holds i e → (σ₀.peers c.caller).Holds i e' →
        e.term = e'.term ∧ e.command = e'.command := by
  refine ⟨exists_checkConsistency h σ List.mem_cons_self c hc args none hbody, ?_⟩
  intro σ₀ hσ₀ hsent i _ e e' he he'
  obtain ⟨a, ha, hpast⟩ := h.history
  obtain ⟨τ₀, b, -, hb, hext⟩ := hpast σ₀ hσ₀
  have hsim := ha.sim σ rfl
  -- The sender's log was that of its term, which has only grown since.
  have hp := (hb.sim σ₀ rfl).peer c.caller
  obtain ⟨hlead, hlog⟩ := hp.leader (state_of_checkConsistency hsent)
  obtain ⟨-, -, hterm, hentries, hprev⟩ := hp.log.request hsent
  rw [← hterm] at hlead hlog
  rw [hlog] at hentries hprev
  have hbuilt : BuiltFrom b args (b.tlog args.term).length := by
    refine ⟨((hb.sim σ₀ rfl).inv.base_prefix _ _ hlead).length_le, Nat.le_refl _, hprev, ?_⟩
    rw [List.take_length, hentries]
  obtain ⟨hi', hget'⟩ := hp.log.holds_iff.mp he'
  rw [hlog] at hget'
  have hlt := (List.getElem?_eq_some_iff.mp hget').1
  rw [getElem?_of_isPrefix (hext.tlog _) hlt] at hget'
  -- The follower's log is the same up to there.
  obtain ⟨ht, hrep⟩ := (hsim.peer c.server).log.accepted (hsim.persisted _) hrun hsuc
  obtain ⟨hi, hget⟩ := hrep.holds_iff.mp he
  have hagree := (hbuilt.extends hlead hext).agrees hsim.inv ht hlt
  rw [hget, hget'] at hagree
  obtain rfl := Option.some.inj hagree
  exact ⟨rfl, rfl⟩

/-- Leader `0` of three has committed two entries. -/
def committedEvents : List (Event 3 ℕ) := replicationEvents ++ [.process 1]

/-- Leader `0` of three has committed two entries and tells peer `1`. -/
def commitNewsEvents : List (Event 3 ℕ) := committedEvents ++ [.checkConsistency 0 1]

theorem follower_commit_agrees_three :
    ∃ x ∈ ((replay Always commitNewsEvents).1.peers 1).appendEntries ⟨1, 0, 2, 1, [], 2⟩,
      x.1.commitIndex = 2 ∧ ∃ e e', x.1.Holds 2 e ∧
        ((replay Always committedEvents).1.peers 0).Holds 2 e' ∧ e.command = e'.command := by
  have hrun : ∃ x ∈ ((replay Always commitNewsEvents).1.peers 1).appendEntries ⟨1, 0, 2, 1, [], 2⟩,
      x.2.success = true ∧ x.1.commitIndex = 2 ∧ x.1.snapshotIndex = 0 ∧
        x.1.entryAt 2 = some ⟨2, 1, some 8⟩ := by decide +kernel
  obtain ⟨x, hx, hsuc, hci, hsnap, hentry⟩ := hrun
  have he : x.1.Holds 2 ⟨2, 1, some 8⟩ := ⟨by omega, hentry⟩
  have he' : ((replay Always committedEvents).1.peers 0).Holds 2 ⟨2, 1, some 8⟩ :=
    ⟨by decide +kernel, by decide +kernel⟩
  have hcall : (⟨0, 0, 1, .appendEntries ⟨1, 0, 2, 1, [], 2⟩ none⟩ : Call 3 ℕ) ∈
      (replay Always commitNewsEvents).1.calls := List.mem_of_getElem? (i := 1) rfl
  have hagree := (follower_commit_agrees (run_replay Always commitNewsEvents) hcall rfl hx hsuc).2
    _ (mem_replay_append Always committedEvents [.checkConsistency 0 1]) (by decide +kernel) 2
    (by omega) _ _ he he'
  exact ⟨x, hx, hci, _, _, he, he', hagree.2⟩

/-! ### Replies to requests of an earlier term -/

/-- The term in which a leader made a call. -/
def Body.leaderTerm : Body n α → Option ℕ
  | .requestVote _ _ => none
  | .appendEntries args _ => some args.term
  | .installSnapShot args _ => some args.term
  | .notifying args _ _ => some args.term

/-- `AppendEntries` answers with the term of the request, or rejects the request as stale: then with
its own term and without a conflict index. -/
theorem appendEntries_reply {rf rf' : Raft n α} {args : AppendEntriesArgs n α}
    {reply : AppendEntriesReply} (hrun : rf.appendEntries args = some (rf', reply)) :
    reply.term = args.term ∨ reply = ⟨rf.currentTerm, false, 0⟩ := by
  rcases Raft.appendEntries_outcome hrun with ⟨-, hreply⟩ | ⟨hterm, -⟩
  · exact .inr hreply
  · exact .inl hterm

/-- A reply that is not of the term of its request is a rejection without a conflict index. -/
theorem stale_reply (h : Run Always τ) (hσ : σ ∈ τ) : ∀ c ∈ σ.calls, ∀ args reply,
    c.body = .appendEntries args (some reply) →
      reply.term = args.term ∨ reply.success = false ∧ reply.conflictIndex = 0 := by
  refine Trace.invariant (P := fun σ => ∀ c ∈ σ.calls, ∀ args reply,
    c.body = .appendEntries args (some reply) →
      reply.term = args.term ∨ reply.success = false ∧ reply.conflictIndex = 0) nofun ?_ h σ hσ
  intro σ e σ' ih hn c hc args reply hbody
  rcases appendEntries_mem_step hn.2 hc hbody with
    hc | ⟨-, -, -, -, -, rf, r, heq, hrun⟩ | ⟨hnone, -⟩
  · exact ih c hc args reply hbody
  · obtain rfl := Option.some.inj heq
    rcases appendEntries_reply hrun with hterm | rfl
    · exact .inl hterm
    · exact .inr ⟨rfl, rfl⟩
  · exact nomatch hnone

namespace Raft

/-- What a leader knows of the others, what it has committed and its log are the same. -/
def SameProgress (rf rf' : Raft n α) : Prop :=
  rf'.nextIndex = rf.nextIndex ∧ rf'.matchIndex = rf.matchIndex ∧
    rf'.commitIndex = rf.commitIndex ∧ rf'.logs = rf.logs

/-- The condition on a reply and the leader that processes it: the reply is not of the leader's
term, or what it would set `nextIndex` to is nothing new. -/
def Ignores (rf : Raft n α) (server : Fin n) : Body n α → Prop
  | .appendEntries _ (some reply) => reply.term ≠ rf.currentTerm ∨ rf.nextIndex server = 1
  | .installSnapShot args (some reply) =>
    reply.term ≠ rf.currentTerm ∨ args.lastIncludedIndex < rf.nextIndex server
  | _ => True

variable {rf rf' : Raft n α} {server : Fin n}

theorem sameProgress_adoptTerm (rf : Raft n α) (t : ℕ) :
    rf.SameProgress (rf.adoptTerm t).persistState := ⟨rfl, rfl, rfl, rfl⟩

/-- The rejection of a stale request sets `nextIndex` to 1. -/
theorem sameProgress_rejection {args : AppendEntriesArgs n α} {reply : AppendEntriesReply}
    (hs : rf.state = .leader) (hfail : reply.term = rf.currentTerm →
      reply.success = false ∧ reply.conflictIndex = 0)
    (hproc : rf.sendAppendEntriesAndProcess args server reply = some rf') :
    rf.SameProgress rf' ↔ reply.term ≠ rf.currentTerm ∨ rf.nextIndex server = 1 := by
  rw [sendAppendEntriesAndProcess] at hproc
  rcases Nat.lt_trichotomy reply.term rf.currentTerm with hlt | heq | hgt
  · rw [if_pos (.inr hlt)] at hproc
    cases hproc
    exact iff_of_true ⟨rfl, rfl, rfl, rfl⟩ (.inl hlt.ne)
  · obtain ⟨hsuc, hconf⟩ := hfail heq
    rw [if_neg (by simp [hs, heq]), if_neg heq.not_gt, hsuc, hconf] at hproc
    cases hproc
    simp only [SameProgress, and_true, heq, ne_eq, not_true_eq_false, false_or]
    rw [Nat.max_eq_left (Nat.zero_le 1), Function.update_eq_self_iff, eq_comm]
  · rw [if_neg (by simp [hs, hgt.le]), if_pos hgt] at hproc
    cases hproc
    exact iff_of_true (rf.sameProgress_adoptTerm _) (.inl hgt.ne')

/-- The reply to a snapshot is taken for its installation. -/
theorem sameProgress_snapshot {args : InstallSnapshotArgs n} {reply : InstallSnapshotReply}
    (hs : rf.state = .leader) :
    rf.SameProgress (rf.sendSnapShotAndProcess args server reply) ↔
      reply.term ≠ rf.currentTerm ∨ args.lastIncludedIndex < rf.nextIndex server := by
  rw [sendSnapShotAndProcess]
  rcases Nat.lt_trichotomy reply.term rf.currentTerm with hlt | heq | hgt
  · rw [if_pos (.inr hlt)]
    exact iff_of_true ⟨rfl, rfl, rfl, rfl⟩ (.inl hlt.ne)
  · rw [if_neg (by simp [hs, heq]), if_neg heq.not_gt]
    split
    · next hle =>
      refine iff_of_false ?_ (by simp [heq, hle])
      rintro ⟨hnext, -⟩
      have := Function.update_eq_self_iff.mp hnext
      omega
    · next hgt => exact iff_of_true ⟨rfl, rfl, rfl, rfl⟩ (.inr (Nat.lt_of_not_le hgt))
  · rw [if_neg (by simp [hs, hgt.le]), if_pos hgt]
    exact iff_of_true (rf.sameProgress_adoptTerm _) (.inl hgt.ne')

end Raft

/-- **When an old reply is ignored.** In every reachable state, processing the reply to a request
that the leader sent in an earlier term leaves `nextIndex`, `matchIndex`, `commitIndex` and `Logs`
as they are if and only if the reply does not carry the leader's term, or would not move
`nextIndex`. -/
theorem old_reply_ignored_iff (h : Run Always (σ :: τ)) {k : ℕ} {c : Call n α}
    (hc : σ.calls[k]? = some c) {t : ℕ} (hterm : c.body.leaderTerm = some t)
    (hs : (σ.peers c.caller).state = .leader) (ht : t < (σ.peers c.caller).currentTerm)
    (hstep : σ.step (.process k) = .ok σ') :
    (σ.peers c.caller).SameProgress (σ'.peers c.caller) ↔
      (σ.peers c.caller).Ignores c.server c.body := by
  have hself : ∀ rf : Raft n α, ((σ.setPeer c.caller rf).endCall k).peers c.caller = rf :=
    fun rf => Function.update_self ..
  obtain ⟨c', hc', hrun⟩ := onCall_eq_ok.mp hstep
  obtain rfl := Option.some.inj (hc.symm.trans hc')
  obtain ⟨-, ⟨args, reply, hbody, rfl⟩ | ⟨args, reply, rf, hbody, hproc, rfl⟩ |
    ⟨args, reply, hbody, rfl⟩⟩ := process_cases hrun
  · rw [hbody] at hterm
    exact nomatch hterm
  · rw [hself, hbody]
    refine Raft.sameProgress_rejection hs (fun heq => ?_) hproc
    rw [hbody] at hterm
    obtain rfl : args.term = t := Option.some.inj hterm
    -- A reply with the leader's term is not one with the term of the request.
    refine (stale_reply h List.mem_cons_self c (List.mem_of_getElem? hc) args reply
      hbody).resolve_left ?_
    omega
  · rw [hself, hbody]
    exact Raft.sameProgress_snapshot hs

/-- Leader `0` of three, in term 1, sends a snapshot to peer `2`, which is delayed; peer `2` makes
it a follower of term 2, and it leads again in term 3. -/
def deposedEvents : List (Event 3 ℕ) :=
  compactionEvents ++
    [.checkConsistency 0 2, .broadCastVote 2, .broadCastVote 2, .handle 4, .broadCastVote 0,
      .handle 6, .handle 7, .process 6]

/-- Peer `2` rejects the snapshot. -/
def staleSnapshotEvents : List (Event 3 ℕ) := deposedEvents ++ [.handle 1]

theorem old_reply_ignored_three :
    ∃ σ', (replay Always staleSnapshotEvents).1.step (.process 1) = .ok σ' ∧
      ((replay Always staleSnapshotEvents).1.peers 0).SameProgress (σ'.peers 0) := by
  have hstep : ((replay Always staleSnapshotEvents).1.step (.process 1)).toOption.isSome = true :=
    by decide +kernel
  obtain ⟨σ', hmem⟩ := Option.isSome_iff_exists.mp hstep
  have hcall : (replay Always staleSnapshotEvents).1.calls[1]? =
      some ⟨0, 0, 2, .installSnapShot ⟨1, 0, 1, 1, [1]⟩ (some ⟨3⟩)⟩ := rfl
  have hok := eq_ok_of_mem_toOption hmem
  exact ⟨σ', hok, (old_reply_ignored_iff (run_replay Always staleSnapshotEvents) hcall rfl
    (by decide +kernel) (by decide +kernel) hok).mpr (.inr (by decide +kernel))⟩

/-- Peer `2` first rejects a request of term 3, since its log is empty, and then the snapshot. -/
def staleInstalledEvents : List (Event 3 ℕ) :=
  deposedEvents ++ [.checkConsistency 0 2, .handle 7, .process 7, .handle 1]

theorem old_reply_recorded : ∃ (σ σ' : Cluster 3 ℕ) (τ : List (Cluster 3 ℕ)) (c : Call 3 ℕ),
    Run Always (σ :: τ) ∧ σ.calls[1]? = some c ∧ c.caller = 0 ∧ c.server = 2 ∧
    c.body.leaderTerm = some 1 ∧ (σ.peers 0).state = .leader ∧ (σ.peers 0).currentTerm = 3 ∧
    σ.step (.process 1) = .ok σ' ∧ (σ'.peers 2).lastIndex = 0 ∧ (σ.peers 0).matchIndex 2 = 0 ∧
    (σ'.peers 0).matchIndex 2 = 1 := by
  have hstep : ∃ σ' ∈ ((replay Always staleInstalledEvents).1.step (.process 1)).toOption,
      (σ'.peers 2).lastIndex = 0 ∧ (σ'.peers 0).matchIndex 2 = 1 := by decide +kernel
  have hcall : ∃ c ∈ (replay Always staleInstalledEvents).1.calls[1]?,
      c.caller = 0 ∧ c.server = 2 ∧ c.body.leaderTerm = some 1 := by decide +kernel
  obtain ⟨σ', hmem, hlast, hmatch⟩ := hstep
  obtain ⟨c, hc, hcaller, hserver, hterm⟩ := hcall
  exact ⟨_, σ', _, c, run_replay Always staleInstalledEvents, hc, hcaller, hserver, hterm,
    by decide +kernel, by decide +kernel, eq_ok_of_mem_toOption hmem, hlast, by decide +kernel,
    hmatch⟩

end RaftKVDB
