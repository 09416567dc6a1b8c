import RaftKVDB.Kv.Store

/-!
# Retries

A client may have the same command put in the log many times, and `DupMap` is there to perform it
once. It remembers one number for each client, so what it can tell apart depends on the order in
which the commands of a client first come into the log: `Orderly` says that they come in the order
of their numbers.

## Main results

* `Kv.isNew_after_iff` — the server takes a command for a new one if and only if every command of
  its client in the log has a smaller number
* `Orderly.seenCmd_iff` — in an orderly log `seenCmd` tells whether a command is in it
* `Orderly.exists_isNew` — in an orderly log the first occurrence of a command is performed
-/

namespace RaftKVDB

/-- The command with these numbers is in the log. -/
def Occurs (log : List Op) (clientID cmdID : ℕ) : Prop :=
  ∃ operation ∈ log, operation.clientID = clientID ∧ operation.cmdID = cmdID

instance (log : List Op) (clientID cmdID : ℕ) : Decidable (Occurs log clientID cmdID) :=
  inferInstanceAs (Decidable (∃ operation ∈ log, _))

/-- A command comes into the log after all that its client numbered before it. -/
def Orderly (log : List Op) : Prop :=
  ∀ p operation, log[p]? = some operation →
    ∀ m < operation.cmdID, Occurs (log.take p) operation.clientID m

variable {log log' : List Op} {operation operation' : Op} {c m p q j k : ℕ}

theorem getElem?_append_singleton :
    (log ++ [operation])[p]? = some operation' ↔
      log[p]? = some operation' ∨ p = log.length ∧ operation' = operation := by
  rw [List.getElem?_append]
  split_ifs with hp
  · exact ⟨.inl, fun h => h.resolve_right fun h => hp.ne h.1⟩
  · rw [List.getElem?_singleton, List.getElem?_eq_none (not_lt.mp hp)]
    split_ifs with h0 <;> grind

theorem Occurs.of_subset (h : Occurs log c m) (hsub : log ⊆ log') : Occurs log' c m := by
  obtain ⟨operation, hmem, hid⟩ := h
  exact ⟨operation, hsub hmem, hid⟩

theorem Occurs.of_take (h : Occurs (log.take k) c m) : Occurs log c m :=
  h.of_subset (List.take_subset k log)

theorem occurs_take_iff : Occurs (log.take k) c m ↔
    ∃ p < k, ∃ operation, log[p]? = some operation ∧
      operation.clientID = c ∧ operation.cmdID = m := by
  constructor
  · rintro ⟨operation, hmem, hid⟩
    obtain ⟨p, hp⟩ := List.mem_iff_getElem?.mp hmem
    rw [List.getElem?_take] at hp
    split at hp
    · exact ⟨p, ‹p < k›, operation, hp, hid⟩
    · cases hp
  · rintro ⟨p, hp, operation, hop, hid⟩
    refine ⟨operation, List.mem_iff_getElem?.mpr ⟨p, ?_⟩, hid⟩
    rw [List.getElem?_take, if_pos hp, hop]

namespace Kv

theorem seenCmd_eq_not_isNew (kv : Kv) (operation : Op) :
    kv.seenCmd operation.clientID operation.cmdID = !kv.isNew operation := by
  unfold seenCmd isNew
  cases kv.dupMap.lookup operation.clientID with
  | none => rfl
  | some lastCmd => grind

/-- After a command that was new, a command is new if it is newer than that one. -/
theorem isNew_enact_of_isNew {kv : Kv} (h : kv.isNew operation = true) :
    (kv.enact operation).isNew operation' =
      if operation'.clientID = operation.clientID then decide (operation.cmdID < operation'.cmdID)
      else kv.isNew operation' := by
  rw [enact, if_pos h, isNew]
  split_ifs with hc
  · rw [hc, Finmap.lookup_insert]
  · rw [Finmap.lookup_insert_of_ne _ hc, isNew]

/-- **What `DupMap` knows.** A command is new if and only if every command of its client in the log
has a smaller number. -/
theorem isNew_after_iff (log : List Op) (operation : Op) :
    (after log).isNew operation = true ↔
      ∀ x ∈ log, x.clientID = operation.clientID → x.cmdID < operation.cmdID := by
  induction log using List.reverseRecOn generalizing operation with
  | nil => simp [isNew, after, empty]
  | append_singleton log x ih =>
    rw [after_append_singleton]
    simp only [List.forall_mem_append, List.forall_mem_singleton, ← ih operation]
    cases hx : (after log).isNew x with
    | true =>
      rw [isNew_enact_of_isNew hx]
      split_ifs with hc
      · -- the number that is remembered now is larger than all before it
        rw [decide_eq_true_iff, ih operation]
        refine ⟨fun hlt => ⟨fun y hy hyc => ?_, fun _ => hlt⟩, fun h => h.2 hc.symm⟩
        exact ((ih x).mp hx y hy (hyc.trans hc)).trans hlt
      · exact ⟨fun h => ⟨h, fun heq => absurd heq.symm hc⟩, fun h => h.1⟩
    | false =>
      rw [enact, if_neg (by simp [hx])]
      refine ⟨fun h => ⟨h, fun hc => ?_⟩, fun h => h.1⟩
      -- `x` was not new, so a command before it has a number as large
      have hnot : ¬∀ y ∈ log, y.clientID = x.clientID → y.cmdID < x.cmdID := by
        rw [← ih x, hx]
        simp
      push Not at hnot
      obtain ⟨y, hy, hyc, hle⟩ := hnot
      exact hle.trans_lt ((ih operation).mp h y hy (hyc.trans hc))

theorem seenCmd_after_iff (log : List Op) (c m : ℕ) :
    (after log).seenCmd c m = true ↔ ∃ x ∈ log, x.clientID = c ∧ m ≤ x.cmdID := by
  have h := isNew_after_iff log ⟨.get, "", "", c, m⟩
  rw [show (after log).seenCmd c m = !(after log).isNew ⟨.get, "", "", c, m⟩ from
    seenCmd_eq_not_isNew _ ⟨.get, "", "", c, m⟩, Bool.not_eq_true', ← Bool.not_eq_true, h]
  push Not
  rfl

/-- A command that is performed was not in the log before. -/
theorem le_of_isNew (hnew : (after (log.take p)).isNew operation = true)
    (hq : log[q]? = some operation') (hc : operation'.clientID = operation.clientID)
    (hm : operation'.cmdID = operation.cmdID) : p ≤ q := by
  by_contra hlt
  have hmem : operation' ∈ log.take p :=
    List.mem_iff_getElem?.mpr ⟨q, by rw [List.getElem?_take, if_pos (by omega), hq]⟩
  have := (isNew_after_iff _ _).mp hnew operation' hmem hc
  omega

end Kv

namespace Orderly

theorem of_append (h : Orderly (log ++ log')) : Orderly log := by
  intro p x hx m hm
  have hlt : p < log.length := (List.getElem?_eq_some_iff.mp hx).1
  have := h p x (by rw [List.getElem?_append_left hlt, hx]) m hm
  rwa [List.take_append_of_le_length hlt.le] at this

theorem append_singleton (h : Orderly log)
    (hop : ∀ m < operation.cmdID, Occurs log operation.clientID m) :
    Orderly (log ++ [operation]) := by
  intro p x hx m hm
  rcases getElem?_append_singleton.mp hx with hx | ⟨rfl, rfl⟩
  · rw [List.take_append_of_le_length (List.getElem?_eq_some_iff.mp hx).1.le]
    exact h p x hx m hm
  · rw [List.take_left]
    exact hop m hm

theorem take (h : Orderly log) (k : ℕ) : Orderly (log.take k) := by
  rw [← List.take_append_drop k log] at h
  exact h.of_append

/-- **`seenCmd`** tells whether a command is in the log. -/
theorem seenCmd_iff (h : Orderly log) (c m : ℕ) :
    (Kv.after log).seenCmd c m = true ↔ Occurs log c m := by
  rw [Kv.seenCmd_after_iff]
  constructor
  · rintro ⟨x, hx, rfl, hle⟩
    rcases hle.eq_or_lt with heq | hlt
    · exact ⟨x, hx, rfl, heq.symm⟩
    · obtain ⟨p, hp⟩ := List.mem_iff_getElem?.mp hx
      exact (h p x hp m hlt).of_take
  · rintro ⟨x, hx, hc, hm⟩
    exact ⟨x, hx, hc, hm.ge⟩

/-- **A command in the log is performed**, where it occurs first. -/
theorem exists_isNew (h : Orderly log) (hocc : Occurs (log.take k) c m) :
    ∃ p < k, ∃ operation, log[p]? = some operation ∧ operation.clientID = c ∧
      operation.cmdID = m ∧ (Kv.after (log.take p)).isNew operation = true := by
  classical
  have hex : ∃ p, p < k ∧ ∃ operation, log[p]? = some operation ∧
      operation.clientID = c ∧ operation.cmdID = m := by
    obtain ⟨p, hp, hop⟩ := occurs_take_iff.mp hocc
    exact ⟨p, hp, hop⟩
  obtain ⟨hlt, operation, hop, hc, hm⟩ := Nat.find_spec hex
  refine ⟨Nat.find hex, hlt, operation, hop, hc, hm, ?_⟩
  rw [Kv.isNew_after_iff]
  intro x hx hxc
  by_contra hle
  rw [not_lt] at hle
  -- an occurrence before the first one: of `x` itself, or of what comes before `x`
  have hbefore : Occurs (log.take (Nat.find hex)) c m := by
    rcases hle.eq_or_lt with heq | hlt'
    · exact ⟨x, hx, hxc.trans hc, heq.symm.trans hm⟩
    · obtain ⟨r, hr⟩ := List.mem_iff_getElem?.mp hx
      have := (h.take _ r x hr operation.cmdID hlt').of_take
      rwa [hxc, hc, hm] at this
  obtain ⟨r, hr, hrop⟩ := occurs_take_iff.mp hbefore
  exact Nat.find_min hex hr ⟨hr.trans hlt, hrop⟩

end Orderly

end RaftKVDB
