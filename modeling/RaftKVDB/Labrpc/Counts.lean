import Mathlib.Algebra.BigOperators.Group.Finset.Piecewise
import Mathlib.Algebra.Order.BigOperators.Group.Finset
import RaftKVDB.Labrpc.Calls

/-!
# The statistics of labrpc

The network counts the requests it takes and every server counts those that it gets. The tests judge
the traffic of Raft by both, `GetTotalCount` and `GetCount`.

## Main results

* `rpc_counts` — nothing is counted twice
-/

namespace RaftKVDB

namespace Labrpc

open Foundations Network

variable {E N S O A R : Type*}
variable {rn rn' : Network E N S O A R} {c c' : Rpc E N S O A R} {e : NetEvent E N S O A R}
variable {t : Turn R} {k : ℕ} {τ : List (Network E N S O A R)}

/-- The call is past the `select` of `Call`. -/
def Rpc.left (c : Rpc E N S O A R) : Bool :=
  match c.pc with
  | .sending => false
  | _ => true

/-- The network has certainly taken the request: a call that returned false without a handler may
have been given up at the `select`. -/
def Rpc.taken (c : Rpc E N S O A R) : Bool :=
  match c.pc with
  | .sending => false
  | .returned none => c.handler.rank < 5
  | _ => true

/-- `Call` has returned true. -/
def Rpc.succeeded (c : Rpc E N S O A R) : Bool :=
  match c.pc with
  | .returned (some _) => true
  | _ => false

/-- A server has got the request. -/
def Rpc.arrived (c : Rpc E N S O A R) : Bool :=
  match c.handler with
  | .none | .spawned _ => false
  | _ => true

theorem Rpc.Sound.taken_of_arrived (h : c.Sound) (harrived : c.arrived = true) :
    c.taken = true := by
  obtain ⟨req, pc, handler, draining⟩ := c
  cases handler with
  | none | spawned => simp [Rpc.arrived] at harrived
  | dispatched | running | finished | exited =>
    cases pc with
    | returned reply => cases reply <;> simp [Rpc.taken, Handler.rank]
    | _ => simp_all [Rpc.taken, Rpc.Sound]

/-- What the counts count: the network all of the `total` requests that it has taken, and the
servers together no more than arrived. -/
structure Network.Tallied (total : ℕ) (rn : Network E N S O A R) : Prop where
  count_eq : rn.count = Int32.ofNat total
  taken_le : rn.calls.countP Rpc.taken ≤ total
  total_le : total ≤ rn.calls.countP Rpc.left
  counts_le : ∀ servers : Finset S, ∑ s ∈ servers, rn.counts s ≤ rn.calls.countP Rpc.arrived

/-- One call changed, one changes the number of calls of a kind. -/
theorem countP_set_of_getElem? {l : List (Rpc E N S O A R)} (p : Rpc E N S O A R → Bool)
    (hc : l[k]? = some c) :
    (l.set k c').countP p + (p c).toNat = l.countP p + (p c').toNat := by
  obtain ⟨hlt, hget⟩ := List.getElem?_eq_some_iff.mp hc
  have hpos : p c = true → 0 < l.countP p := fun hp =>
    List.countP_pos_iff.mpr ⟨c, List.mem_of_getElem? hc, hp⟩
  rw [List.countP_set hlt, hget]
  cases hp : p c with
  | false => cases p c' <;> simp
  | true =>
    have := hpos hp
    cases p c' <;> simp <;> omega

/-- The call at `k` comes to count for `c'`, with new totals. -/
theorem Network.Tallied.set {total total' : ℕ} {counts : S → ℕ} {executed : List ℕ}
    (h : rn.Tallied total) (hc : rn.calls[k]? = some c)
    (htaken : total + c'.taken.toNat ≤ total' + c.taken.toNat)
    (hleft : total' + c.left.toNat ≤ total + c'.left.toNat)
    (harrived : ∀ servers : Finset S, ∑ s ∈ servers, counts s + c.arrived.toNat ≤
      ∑ s ∈ servers, rn.counts s + c'.arrived.toNat) :
    Network.Tallied total' { rn with
      count := Int32.ofNat total', counts := counts, executed := executed,
      calls := rn.calls.set k c' } := by
  have hset (p : Rpc E N S O A R → Bool) : (rn.calls.set k c').countP p + (p c).toNat =
      rn.calls.countP p + (p c').toNat := countP_set_of_getElem? p hc
  refine ⟨rfl, ?_, ?_, fun servers => ?_⟩
  · have := hset Rpc.taken
    have := h.taken_le
    dsimp only
    omega
  · have := hset Rpc.left
    have := h.total_le
    dsimp only
    omega
  · have := hset Rpc.arrived
    have := h.counts_le servers
    have := harrived servers
    dsimp only
    omega

/-- A turn that the network does not count. -/
theorem Network.Tallied.keep {total : ℕ} {counts : S → ℕ} {executed : List ℕ}
    (h : rn.Tallied total) (hc : rn.calls[k]? = some c)
    (htaken : c'.taken.toNat ≤ c.taken.toNat) (hleft : c.left.toNat ≤ c'.left.toNat)
    (harrived : ∀ servers : Finset S, ∑ s ∈ servers, counts s + c.arrived.toNat ≤
      ∑ s ∈ servers, rn.counts s + c'.arrived.toNat) :
    ∃ total', Network.Tallied total' { rn with
      counts := counts, executed := executed, calls := rn.calls.set k c' } := by
  refine ⟨total, ?_⟩
  rw [h.count_eq]
  exact h.set hc (Nat.add_le_add_left htaken _) (Nat.add_le_add_left hleft _) harrived

/-- A turn that nobody counts. -/
theorem Network.Tallied.idle {total : ℕ} {executed : List ℕ} (h : rn.Tallied total)
    (hc : rn.calls[k]? = some c) (htaken : c'.taken.toNat ≤ c.taken.toNat)
    (hleft : c.left.toNat ≤ c'.left.toNat) (harrived : c.arrived.toNat ≤ c'.arrived.toNat) :
    ∃ total', Network.Tallied total' { rn with
      executed := executed, calls := rn.calls.set k c' } :=
  h.keep hc htaken hleft fun _ => Nat.add_le_add_left harrived _

variable [DecidableEq S]

/-- **A turn and the counts.** -/
theorem Network.Tallied.turn {total : ℕ} (h : rn.Tallied total) (hsound : c.Sound)
    (hc : rn.calls[k]? = some c) (hturn : Turned rn c t c') :
    ∃ total', Network.Tallied total' { rn.counted k c t with calls := rn.calls.set k c' } := by
  cases hturn with
  | accept hpc =>
    have hcount : rn.count + 1 = Int32.ofNat (total + 1) := by
      rw [Int32.ofNat_add, ← h.count_eq]
      rfl
    refine ⟨total + 1, ?_⟩
    simp only [counted, hcount]
    exact h.set hc (by simp [Rpc.taken, hpc]) (by simp [Rpc.left, hpc]) fun _ => Nat.le_refl _
  | @dispatch server service methname hhandler hservice =>
    have hcounts : rn.counted k c .dispatch =
        { rn with counts := Function.update rn.counts server (rn.counts server + 1) } := by
      simp only [counted, hhandler]
    rw [hcounts]
    refine h.keep hc (by simp [Rpc.taken, hhandler, Handler.rank]) (by simp [Rpc.left])
      fun servers => ?_
    have hone : ∀ s, Function.update rn.counts server (rn.counts server + 1) s =
        rn.counts s + if s = server then 1 else 0 := by
      intro s
      rcases eq_or_ne s server with rfl | hne
      · simp
      · simp [hne]
    simp only [hone, Finset.sum_add_distrib, Finset.sum_ite_eq', Rpc.arrived, hhandler]
    split <;> simp
  | abandon hpc =>
    obtain ⟨hhandler, -⟩ : c.handler = .none ∧ c.draining = false := by
      simpa only [Rpc.Sound, hpc] using hsound
    exact h.idle hc (by simp [Rpc.taken, hpc, hhandler, Handler.rank]) (by simp [Rpc.left, hpc])
      (by simp [Rpc.arrived])
  | execute hpc =>
    obtain ⟨hhandler, -⟩ : c.handler = .none ∧ c.draining = false := by
      simpa only [Rpc.Sound, hpc] using hsound
    exact h.idle hc (by simp [Rpc.taken, hpc]) (by simp [Rpc.left, hpc])
      (by simp [Rpc.arrived, hhandler])
  | callMethod hhandler | drain hhandler =>
    exact h.idle hc (by simp [Rpc.taken, hhandler, Handler.rank]) (by simp [Rpc.left])
      (by simp [Rpc.arrived, hhandler])
  | handlerReturn reply hhandler =>
    exact h.idle hc (by simp [Rpc.taken, hhandler, Handler.rank]) (by simp [Rpc.left])
      (by simp [Rpc.arrived, hhandler])
  | receive hpc hhandler =>
    exact h.idle hc (by simp [Rpc.taken, hpc]) (by simp [Rpc.left, hpc])
      (by simp [Rpc.arrived, hhandler])
  | goOn => exact h.idle hc (Nat.le_refl _) (Nat.le_refl _) (Nat.le_refl _)
  | reply hpc =>
    exact h.idle hc (by rcases hpc with hpc | hpc <;> simp [Rpc.taken, hpc, Bool.toNat_le])
      (by simp [Rpc.left, Bool.toNat_le]) (by simp [Rpc.arrived])
  | found hpc | lost hpc | dropRequest hpc | giveUp hpc | pass hpc | fail hpc | dropReply hpc
  | delayReply hpc | sendReply hpc =>
    exact h.idle hc (by simp [Rpc.taken, hpc]) (by simp [Rpc.left, hpc]) (by simp [Rpc.arrived])

variable [DecidableEq E] [DecidableEq N]

theorem Network.Run.tallied (h : Run τ) : ∀ rn ∈ τ, ∃ total, rn.Tallied total := by
  refine Trace.invariant (P := fun rn => ∃ total, Network.Tallied total rn)
    ⟨0, rfl, Nat.le_refl _, Nat.le_refl _, fun _ => by simp [makeNetwork]⟩
    (fun rn e rn' htallied hstep => ?_) (Trace.strengthen h h.sound)
  obtain ⟨total, htallied⟩ := htallied
  obtain ⟨hsound, -, hstep⟩ := hstep
  rcases step_cases hstep with ⟨k, t, c, c', rfl, hc, hturn, rfl⟩ | ⟨req, rfl⟩ | haside
  · exact htallied.turn (hsound k c hc) hc hturn
  · refine ⟨total, htallied.count_eq, ?_, ?_, fun servers => ?_⟩
    · simpa [Rpc.taken, Rpc.fresh] using htallied.taken_le
    · simpa [Rpc.left, Rpc.fresh] using htallied.total_le
    · simpa [Rpc.arrived, Rpc.fresh] using htallied.counts_le servers
  · refine ⟨total, haside.count.trans htallied.count_eq, ?_, ?_, ?_⟩
    · rw [haside.calls]
      exact htallied.taken_le
    · rw [haside.calls]
      exact htallied.total_le
    · rw [haside.calls, haside.counts]
      exact htallied.counts_le

/-- **What the statistics count.** In every state of every run in which fewer than `2 ^ 31` calls
were made, so that the `int32` has not wrapped around, the counts of any number of server objects
together (`GetCount`) are at most the count of the network (`GetTotalCount`), which is at most the
number of calls that were made: nothing is counted twice, neither at one server nor at two. And the
network counts every call that returned true. -/
theorem rpc_counts (h : Run τ) (hrn : rn ∈ τ) (hfew : rn.calls.length < 2 ^ 31)
    (servers : Finset S) :
    ((∑ s ∈ servers, rn.counts s : ℕ) : ℤ) ≤ rn.getTotalCount ∧
    rn.getTotalCount ≤ rn.calls.length ∧
    (rn.calls.countP Rpc.succeeded : ℤ) ≤ rn.getTotalCount := by
  obtain ⟨total, htallied⟩ := h.tallied rn hrn
  have hsound := h.sound rn hrn
  have hle : total ≤ rn.calls.length := htallied.total_le.trans List.countP_le_length
  have htotal : rn.getTotalCount = total := by
    rw [getTotalCount, htallied.count_eq, Int32.toInt_ofNat_of_lt (hle.trans_lt hfew)]
  rw [htotal]
  refine ⟨?_, Int.ofNat_le.mpr hle, ?_⟩
  · refine Int.ofNat_le.mpr ((htallied.counts_le servers).trans ?_)
    refine (List.countP_mono_left fun c hmem harrived => ?_).trans htallied.taken_le
    obtain ⟨k, hc⟩ := List.getElem?_of_mem hmem
    exact (hsound k c hc).taken_of_arrived harrived
  · refine Int.ofNat_le.mpr (.trans (List.countP_mono_left fun c hmem hreturned => ?_)
      htallied.taken_le)
    rw [Rpc.succeeded] at hreturned
    rw [Rpc.taken]
    split at hreturned
    next hpc => rw [hpc]
    · cases hreturned

theorem rpc_counts_one : ∃ (τ : List (Network ℕ ℕ ℕ ℕ ℕ ℕ)) (rn : Network ℕ ℕ ℕ ℕ ℕ ℕ),
    Run τ ∧ rn ∈ τ ∧ rn.counts 5 = 1 ∧ rn.calls.length = 1 ∧
      ((∑ s ∈ {5, 6}, rn.counts s : ℕ) : ℤ) ≤ rn.getTotalCount ∧
      rn.getTotalCount ≤ rn.calls.length ∧
      (rn.calls.countP Rpc.succeeded : ℤ) ≤ rn.getTotalCount := by
  have hend : ∃ rn ∈ (oneCall.foldlM step makeNetwork).toOption,
      rn.counts 5 = 1 ∧ rn.calls.length = 1 := by
    decide +kernel
  obtain ⟨rn, hrn, hcounts, hone⟩ := hend
  obtain ⟨τ, hrun⟩ := Trace.exists_of_foldlM (fun _ _ _ => id) _ .start
    (Cluster.eq_ok_of_mem_toOption hrn)
  exact ⟨_, rn, hrun, List.mem_cons_self, hcounts, hone,
    rpc_counts hrun List.mem_cons_self (by omega) {5, 6}⟩

end Labrpc

end RaftKVDB
