import RaftKVDB.Labrpc.Network

/-!
# A remote call returns

`Call` is guaranteed to return, says the comment at the head of labrpc, except if the handler on the
server side does not. And the goroutine that `ProcessReq` leaves behind, when it stops waiting for a
handler, is there to let the handler's goroutine terminate.

Both are about several goroutines and the tester at once. What holds them together is how the two
sides of a call stand to each other (`Rpc.Sound`): as long as the handler's goroutine is alive,
either `ProcessReq` waits for it or somebody drains the channel.

## Main results

* `call_progress` — `Call` returns
* `handler_not_stranded` — no handler is left at its send
-/

namespace RaftKVDB

namespace Labrpc

open Foundations Network

variable {E N S O A R : Type*}
variable {rn rn' : Network E N S O A R} {c c' : Rpc E N S O A R} {e : NetEvent E N S O A R}
variable {t : Turn R} {k : ℕ} {τ : List (Network E N S O A R)}

/-! ### The two sides of a call -/

/-- The server object at which the goroutine of the handler is, as long as it is alive. -/
def Handler.server : Handler S O R → Option S
  | .none | .exited => Option.none
  | .spawned s | .dispatched s _ _ | .running s _ _ | .finished s _ => some s

/-- The two sides of a call: before the handler is started, while `ProcessReq` waits for it, when
it has got the reply, and when it has given up. -/
def Rpc.Sound (c : Rpc E N S O A R) : Prop :=
  match c.pc with
  | .sending | .received | .routed _ => c.handler = .none ∧ c.draining = false
  | .waiting route => c.handler.server = some route.server ∧ c.draining = false
  | .checking _ (some _) | .answering _ _ | .replying (some _) | .delayed (some _)
  | .returned (some _) => c.handler = .exited ∧ c.draining = false
  | .checking _ none | .replying none | .delayed none | .returned none =>
    c.draining = c.handler.server.isSome

/-- The handler goes on. -/
theorem Rpc.Sound.handler {s : S} {handler : Handler S O R} (h : c.Sound)
    (hs : c.handler.server = some s) (hs' : handler.server = some s) :
    Rpc.Sound { c with handler := handler } := by
  obtain ⟨req, pc, handler₀, draining⟩ := c
  cases pc with
  | sending | received | routed => simp_all [Rpc.Sound, Handler.server]
  | waiting route => simp_all [Rpc.Sound]
  | answering => simp_all [Rpc.Sound, Handler.server]
  | checking _ reply | replying reply | delayed reply | returned reply =>
    cases reply with
    | none => simp_all [Rpc.Sound]
    | some reply => simp_all [Rpc.Sound, Handler.server]

variable [DecidableEq S]

/-- **A turn keeps the two sides together.** -/
theorem Rpc.Sound.turned (h : c.Sound) (hturn : Turned rn c t c') : c'.Sound := by
  cases hturn with
  | dispatch hhandler => exact h.handler (by rw [hhandler]; rfl) rfl
  | callMethod hhandler => exact h.handler (by rw [hhandler]; rfl) rfl
  | handlerReturn reply hhandler => exact h.handler (by rw [hhandler]; rfl) rfl
  | goOn hpc => exact h
  | drain hhandler hdraining =>
    obtain ⟨req, pc, handler₀, draining⟩ := c
    cases pc with
    | sending | received | routed | waiting | answering => simp_all [Rpc.Sound]
    | checking _ reply | replying reply | delayed reply | returned reply =>
      cases reply with
      | none => simp [Rpc.Sound, Handler.server]
      | some reply => simp_all [Rpc.Sound]
  | fail hpc hdead =>
    cases ‹Option R› with
    | none => simp_all [Rpc.Sound]
    | some reply => simp_all [Rpc.Sound, Handler.server]
  | reply hpc =>
    rcases hpc with hpc | hpc
    · cases ‹Option R› with
      | none => simp_all [Rpc.Sound]
      | some reply => simp_all [Rpc.Sound]
    · cases ‹Option R› with
      | none => simp_all [Rpc.Sound]
      | some reply => simp_all [Rpc.Sound]
  | abandon hpc | accept hpc | found hpc | lost hpc | dropRequest hpc | execute hpc | receive hpc
  | giveUp hpc | pass hpc | dropReply hpc | delayReply hpc | sendReply hpc =>
    simp_all [Rpc.Sound, Handler.server]

/-! ### A call returns -/

/-- How far it is to the return of `Call`. -/
def Pc.rank : Pc N S R → ℕ
  | .sending => 7
  | .received => 6
  | .routed _ => 5
  | .waiting _ => 4
  | .checking _ _ => 3
  | .answering _ _ => 2
  | .replying _ | .delayed _ => 1
  | .returned _ => 0

/-- How far it is to the end of the handler's goroutine. -/
def Handler.rank : Handler S O R → ℕ
  | .none => 5
  | .spawned _ => 4
  | .dispatched _ _ _ => 3
  | .running _ _ _ => 2
  | .finished _ _ => 1
  | .exited => 0

/-- How many turns a call can take. -/
def Rpc.rank (c : Rpc E N S O A R) : ℕ := c.pc.rank + c.handler.rank

/-- Every turn brings a call on, except for a look at a server that is alive. -/
theorem Rpc.Sound.rank_turned (h : c.Sound) (hturn : Turned rn c t c') :
    c' = c ∨ c'.rank < c.rank := by
  cases hturn with
  | goOn => exact .inl rfl
  | dispatch hhandler | callMethod hhandler | drain hhandler =>
    exact .inr (by simp [Rpc.rank, hhandler, Handler.rank])
  | handlerReturn reply hhandler => exact .inr (by simp [Rpc.rank, hhandler, Handler.rank])
  | receive hpc hhandler =>
    exact .inr (by simp [Rpc.rank, hpc, hhandler, Pc.rank, Handler.rank])
  | execute hpc =>
    obtain ⟨hhandler, -⟩ : c.handler = .none ∧ c.draining = false := by
      simpa only [Rpc.Sound, hpc] using h
    exact .inr (by simp [Rpc.rank, hpc, hhandler, Pc.rank, Handler.rank])
  | reply hpc =>
    rcases hpc with hpc | hpc
    · exact .inr (by simp [Rpc.rank, hpc, Pc.rank])
    · exact .inr (by simp [Rpc.rank, hpc, Pc.rank])
  | abandon hpc | accept hpc | found hpc | lost hpc | dropRequest hpc
  | giveUp hpc | pass hpc | fail hpc | dropReply hpc | delayReply hpc | sendReply hpc =>
    exact .inr (by simp [Rpc.rank, hpc, Pc.rank])

/-- A call can take a turn that brings it on, and that is not the method's. -/
def Network.Moves (rn : Network E N S O A R) (c : Rpc E N S O A R) : Prop :=
  ∃ t c', (∀ reply, t ≠ .handlerReturn reply) ∧ rn.rpcTurn c t = .ok c' ∧ c'.rank < c.rank

/-- The call waits for its method, which runs at a server that is there. -/
def Network.AwaitsMethod (rn : Network E N S O A R) (c : Rpc E N S O A R) : Prop :=
  ∃ route service methname, c.pc = .waiting route ∧
    c.handler = .running route.server service methname ∧
    rn.isServerDead c.req.endname route.servername route.server = false

theorem Network.Moves.of_turned (hturn : Turned rn c t c') (ht : ∀ reply, t ≠ .handlerReturn reply)
    (hrank : c'.rank < c.rank) : rn.Moves c :=
  ⟨t, c', ht, rpcTurn_of_turned hturn, hrank⟩

/-- While `ProcessReq` waits, the handler goes on, or the look at the server ends the waiting. -/
theorem Rpc.Sound.progress_waiting {route : Route N S} (h : c.Sound) (hpc : c.pc = .waiting route) :
    (∃ t, rn.rpcTurn c t = .error .panic) ∨ rn.Moves c ∨ rn.AwaitsMethod c := by
  obtain ⟨hserver, -⟩ : c.handler.server = some route.server ∧ c.draining = false := by
    simpa only [Rpc.Sound, hpc] using h
  cases hhandler : c.handler with
  | none | exited =>
    rw [hhandler] at hserver
    cases hserver
  | spawned server =>
    rcases rn.dispatch_cases server c.req.svcMeth with ⟨service, methname, hok⟩ | hpanic
    · exact .inr (.inl (.of_turned (.dispatch hhandler hok) (by simp)
        (by simp [Rpc.rank, hhandler, Handler.rank])))
    · exact .inl ⟨.dispatch, by simp [rpcTurn, hhandler, hpanic, Except.map]⟩
  | dispatched server service methname =>
    by_cases hmethod : methname ∈ service.methods
    · exact .inr (.inl (.of_turned (.callMethod hhandler hmethod) (by simp)
        (by simp [Rpc.rank, hhandler, Handler.rank])))
    · exact .inl ⟨.callMethod, by simp [rpcTurn, hhandler, hmethod]⟩
  | running server service methname =>
    obtain rfl : server = route.server := by
      rw [hhandler] at hserver
      exact Option.some.inj hserver
    cases hdead : rn.isServerDead c.req.endname route.servername route.server with
    | true =>
      exact .inr (.inl (.of_turned (.giveUp hpc hdead) (by simp)
        (by simp [Rpc.rank, hpc, Pc.rank])))
    | false => exact .inr (.inr ⟨route, service, methname, hpc, hhandler, hdead⟩)
  | finished server reply =>
    exact .inr (.inl (.of_turned (.receive hpc hhandler) (by simp)
      (by simp [Rpc.rank, hpc, hhandler, Pc.rank, Handler.rank])))

/-- **A call that has not returned can go on**, unless it waits for its method. -/
theorem Rpc.Sound.progress (h : c.Sound) (hheard : rn.listening = true ∨ rn.done = true) :
    (∃ reply, c.pc = .returned reply) ∨ (∃ t, rn.rpcTurn c t = .error .panic) ∨ rn.Moves c ∨
      rn.AwaitsMethod c := by
  cases hpc : c.pc with
  | sending =>
    refine .inr (.inr (.inl ?_))
    rcases hheard with hlistening | hdone
    · exact .of_turned (.accept hpc hlistening) (by simp) (by simp [Rpc.rank, hpc, Pc.rank])
    · exact .of_turned (.abandon hpc hdone) (by simp) (by simp [Rpc.rank, hpc, Pc.rank])
  | received =>
    refine .inr (.inr (.inl ?_))
    rcases rn.route_cases c.req.endname with
      ⟨servername, server, henabled, hconn, hserver, -⟩ | ⟨hnone, -⟩
    · exact .of_turned (.found hpc henabled hconn hserver) (by simp)
        (by simp [Rpc.rank, hpc, Pc.rank])
    · exact .of_turned (.lost hpc hnone) (by simp) (by simp [Rpc.rank, hpc, Pc.rank])
  | routed route =>
    obtain ⟨hhandler, -⟩ : c.handler = .none ∧ c.draining = false := by
      simpa only [Rpc.Sound, hpc] using h
    exact .inr (.inr (.inl (.of_turned (.execute hpc) (by simp)
      (by simp [Rpc.rank, hpc, hhandler, Pc.rank, Handler.rank]))))
  | waiting route => exact .inr (h.progress_waiting hpc)
  | checking route reply =>
    refine .inr (.inr (.inl ?_))
    by_cases hfail : reply = none ∨
        rn.isServerDead c.req.endname route.servername route.server = true
    · exact .of_turned (.fail hpc hfail) (by simp) (by simp [Rpc.rank, hpc, Pc.rank])
    · obtain ⟨hsome, halive⟩ := not_or.mp hfail
      obtain ⟨reply, rfl⟩ := Option.ne_none_iff_exists'.mp hsome
      exact .of_turned (.pass hpc (Bool.eq_false_of_not_eq_true halive)) (by simp)
        (by simp [Rpc.rank, hpc, Pc.rank])
  | answering route reply =>
    exact .inr (.inr (.inl (.of_turned (.sendReply hpc) (by simp)
      (by simp [Rpc.rank, hpc, Pc.rank]))))
  | replying reply =>
    exact .inr (.inr (.inl (.of_turned (.reply (.inl hpc)) (by simp)
      (by simp [Rpc.rank, hpc, Pc.rank]))))
  | delayed reply =>
    exact .inr (.inr (.inl (.of_turned (.reply (.inr hpc)) (by simp)
      (by simp [Rpc.rank, hpc, Pc.rank]))))
  | returned reply => exact .inl ⟨reply, rfl⟩

section Runs

variable [DecidableEq E] [DecidableEq N]

theorem Network.Run.sound (h : Run τ) : ∀ rn ∈ τ, ∀ (k : ℕ) c, rn.calls[k]? = some c → c.Sound :=
  h.forall_calls (fun _ => ⟨rfl, rfl⟩) fun _ _ _ _ hc hturn => hc.turned hturn

/-- Whoever waits at the `select` of `Call` is heard: the network listens, or it is cleaned up. -/
theorem Network.Run.heard (h : Run τ) :
    ∀ rn ∈ τ, rn.listening = true ∨ rn.done = true := by
  refine Trace.invariant (P := fun rn : Network E N S O A R =>
    rn.listening = true ∨ rn.done = true) (.inl rfl) (fun rn e rn' hrn hstep => ?_) h
  rcases step_cases hstep with ⟨k, t, c, c', rfl, -, -, rfl⟩ | ⟨req, rfl⟩ | haside
  · cases t with
    | dispatch =>
      simp only [counted]
      split
      · exact hrn
      · exact hrn
    | _ => exact hrn
  · exact hrn
  · rcases haside.listening with heq | ⟨-, hdone⟩
    · rw [heq]
      exact hrn.imp_right haside.done
    · exact .inr hdone

/-- **`Call` returns.** In every state of every run, whatever is lost, deleted, switched off or
cleaned up: no step of anybody takes a call back, and a call that has not returned can take a turn
that brings it on, unless its method has not returned and the server is still there. (A request for
a service or method that is not there ends the program.) A call has at most twelve such turns. -/
theorem call_progress (h : Run τ) (hrn : rn ∈ τ) (hc : rn.calls[k]? = some c) :
    c.rank ≤ 12 ∧
    (∀ e rn' c', rn.step e = .ok rn' → rn'.calls[k]? = some c' → c' = c ∨ c'.rank < c.rank) ∧
    ((∃ reply, c.pc = .returned reply) ∨ (∃ t, rn.rpcTurn c t = .error .panic) ∨ rn.Moves c ∨
      rn.AwaitsMethod c) := by
  have hsound := h.sound rn hrn k c hc
  refine ⟨?_, fun e rn' c' hstep hc' => ?_, hsound.progress (h.heard rn hrn)⟩
  · have hpc : c.pc.rank ≤ 7 := by cases c.pc <;> simp [Pc.rank]
    have hhandler : c.handler.rank ≤ 5 := by cases c.handler <;> simp [Handler.rank]
    rw [Rpc.rank]
    omega
  · obtain ⟨d, hd, hmoved⟩ := exists_call_of_step hstep hc
    obtain rfl := Option.some.inj (hd.symm.trans hc')
    rcases hmoved with rfl | ⟨t, -, hturn⟩
    · exact .inl rfl
    · exact hsound.rank_turned hturn

/-- An end, a server with one service, and a call to its method, which runs. -/
def oneCall : List (NetEvent ℕ ℕ ℕ ℕ ℕ ℕ) :=
  [.makeEnd 0, .addService 5 ⟨"Raft", 7, ["RequestVote"]⟩, .addServer 1 5, .connect 0 1,
    .enable 0 true, .call 0 "Raft.RequestVote" 3, .turn 0 .accept, .turn 0 .readEndnameInfo,
    .turn 0 .execute, .turn 0 .dispatch, .turn 0 .callMethod]

/-- The server is deleted. -/
def deletedCall : List (NetEvent ℕ ℕ ℕ ℕ ℕ ℕ) := oneCall ++ [.deleteServer 1]

/-- The server is deleted while the method runs. -/
theorem call_progress_deleted : ∃ (τ : List (Network ℕ ℕ ℕ ℕ ℕ ℕ)) (rn : Network ℕ ℕ ℕ ℕ ℕ ℕ)
    (c : Rpc ℕ ℕ ℕ ℕ ℕ ℕ), Run τ ∧ rn ∈ τ ∧ rn.calls[0]? = some c ∧
      c.handler = .running 5 ⟨"Raft", 7, ["RequestVote"]⟩ "RequestVote" ∧ rn.servers 1 = none ∧
      ((∃ reply, c.pc = .returned reply) ∨ (∃ t, rn.rpcTurn c t = .error .panic) ∨ rn.Moves c ∨
        rn.AwaitsMethod c) := by
  have hend : ∃ rn ∈ (deletedCall.foldlM step makeNetwork).toOption,
      ∃ c ∈ rn.calls[0]?, c.handler = .running 5 ⟨"Raft", 7, ["RequestVote"]⟩ "RequestVote" ∧
        rn.servers 1 = none := by
    decide +kernel
  obtain ⟨rn, hrn, c, hc, hhandler, hnone⟩ := hend
  obtain ⟨τ, hrun⟩ := Trace.exists_of_foldlM (fun _ _ _ => id) _ .start
    (Cluster.eq_ok_of_mem_toOption hrn)
  exact ⟨_, rn, c, hrun, List.mem_cons_self, hc, hhandler, hnone,
    (call_progress hrun List.mem_cons_self hc).2.2⟩

/-- **No handler is left behind.** A handler whose method has returned, whether or not anybody is
still interested, finds somebody who takes its reply: `ProcessReq`, or the goroutine that
`ProcessReq` left for it. -/
theorem handler_not_stranded {server : S} {reply : R} (h : Run τ) (hrn : rn ∈ τ)
    (hc : rn.calls[k]? = some c) (hhandler : c.handler = .finished server reply) :
    ∃ t rn' c', (t = .receive ∨ t = .drain) ∧ rn.step (.turn k t) = .ok rn' ∧
      rn'.calls[k]? = some c' ∧ c'.handler = .exited := by
  have hlt : k < rn.calls.length := (List.getElem?_eq_some_iff.mp hc).1
  have htake : ∀ t c', Turned rn c t c' → rn.step (.turn k t) =
      .ok { rn.counted k c t with calls := rn.calls.set k c' } := by
    intro t c' hturn
    simp [step, turn, hc, rpcTurn_of_turned hturn, Except.map]
  by_cases hdraining : c.draining = true
  · exact ⟨.drain, _, _, .inr rfl, htake _ _ (.drain hhandler hdraining),
      List.getElem?_set_self hlt, rfl⟩
  · have hsound := h.sound rn hrn k c hc
    obtain ⟨route, hpc⟩ : ∃ route, c.pc = .waiting route := by
      cases hpc : c.pc with
      | waiting route => exact ⟨route, rfl⟩
      | sending | received | routed | answering =>
        simp_all [Rpc.Sound]
      | checking _ reply | replying reply | delayed reply | returned reply =>
        cases reply with
        | none => simp_all [Rpc.Sound, Handler.server]
        | some reply => simp_all [Rpc.Sound]
    exact ⟨.receive, _, _, .inl rfl, htake _ _ (.receive hpc hhandler),
      List.getElem?_set_self hlt, rfl⟩

/-- `ProcessReq` gives up before the method returns. -/
def strandedCall : List (NetEvent ℕ ℕ ℕ ℕ ℕ ℕ) :=
  deletedCall ++ [.turn 0 .timeOut, .turn 0 .check, .turn 0 .reply, .turn 0 (.handlerReturn 9)]

/-- `ProcessReq` has given up before the method returned. -/
theorem handler_not_stranded_deleted : ∃ (τ : List (Network ℕ ℕ ℕ ℕ ℕ ℕ))
    (rn : Network ℕ ℕ ℕ ℕ ℕ ℕ) (c : Rpc ℕ ℕ ℕ ℕ ℕ ℕ), Run τ ∧ rn ∈ τ ∧ rn.calls[0]? = some c ∧
      c.pc = .returned none ∧ c.handler = .finished 5 9 ∧
      ∃ t rn' c', (t = .receive ∨ t = .drain) ∧ rn.step (.turn 0 t) = .ok rn' ∧
        rn'.calls[0]? = some c' ∧ c'.handler = .exited := by
  have hend : ∃ rn ∈ (strandedCall.foldlM step makeNetwork).toOption,
      ∃ c ∈ rn.calls[0]?, c.pc = .returned none ∧ c.handler = .finished 5 9 := by
    decide +kernel
  obtain ⟨rn, hrn, c, hc, hpc, hhandler⟩ := hend
  obtain ⟨τ, hrun⟩ := Trace.exists_of_foldlM (fun _ _ _ => id) _ .start
    (Cluster.eq_ok_of_mem_toOption hrn)
  exact ⟨_, rn, c, hrun, List.mem_cons_self, hc, hpc, hhandler,
    handler_not_stranded hrun List.mem_cons_self hc hhandler⟩

end Runs

end Labrpc

end RaftKVDB
