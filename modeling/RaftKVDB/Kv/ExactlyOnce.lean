import RaftKVDB.Kv.Sessions

/-!
# Exactly once

What `dealWithApplyMsg` makes of a sequence of commands with retries in it, compared with a store
that performs everything it is given and is given every command once. `firsts` keeps the first
occurrence of every command; a `Clerk` used by one caller makes a log in which the first occurrences
of its commands are numbered 0, 1, 2 and so on, which is `Sequential`.

Between any two commands the state may go through a snapshot.

## Main results

* `Sequential.orderly` — commands that are first seen in sequence come in order
* `Orderly.kvdb_after` — the store is the one without retries
* `exactly_once` — both, through `dealWithApplyMsg` and snapshots
-/

namespace RaftKVDB

/-! ### First occurrences -/

/-- The commands of a log whose numbers are neither in `before` nor earlier in the log. -/
def firstsAfter (before : List Op) : List Op → List Op
  | [] => []
  | operation :: log =>
    if Occurs before operation.clientID operation.cmdID then
      firstsAfter (before ++ [operation]) log
    else operation :: firstsAfter (before ++ [operation]) log

/-- The first occurrence of every command. -/
def firsts (log : List Op) : List Op := firstsAfter [] log

/-- The numbers of the commands of a client, in the order in which they first occur. -/
def firstIDs (log : List Op) (clientID : ℕ) : List ℕ :=
  ((firsts log).filter fun operation => operation.clientID = clientID).map Op.cmdID

/-- Every client's first occurrences are numbered 0, 1, 2 and so on. -/
def Sequential (log : List Op) : Prop :=
  ∀ c, firstIDs log c = List.range (firstIDs log c).length

variable {log : List Op} {operation : Op} {c m : ℕ}

theorem firstsAfter_append_singleton (before log : List Op) (operation : Op) :
    firstsAfter before (log ++ [operation]) = firstsAfter before log ++
      if Occurs (before ++ log) operation.clientID operation.cmdID then [] else [operation] := by
  induction log generalizing before with
  | nil => simp [firstsAfter]
  | cons x log ih =>
    simp only [List.cons_append, firstsAfter, ih, List.append_assoc, List.nil_append]
    split <;> simp

theorem firsts_append_singleton (log : List Op) (operation : Op) :
    firsts (log ++ [operation]) = firsts log ++
      if Occurs log operation.clientID operation.cmdID then [] else [operation] :=
  firstsAfter_append_singleton [] log operation

theorem occurs_append_singleton :
    Occurs (log ++ [operation]) c m ↔
      Occurs log c m ∨ operation.clientID = c ∧ operation.cmdID = m := by
  simp [Occurs, or_and_right, exists_or]

/-- What is in the log occurs there for a first time. -/
theorem mem_firstIDs : m ∈ firstIDs log c ↔ Occurs log c m := by
  induction log using List.reverseRecOn with
  | nil => simp [firstIDs, firsts, firstsAfter, Occurs]
  | append_singleton log x ih =>
    have hnew : m ∈ firstIDs (log ++ [x]) c ↔ m ∈ firstIDs log c ∨
        ¬Occurs log x.clientID x.cmdID ∧ x.clientID = c ∧ x.cmdID = m := by
      rw [firstIDs, firsts_append_singleton, List.filter_append, List.map_append, List.mem_append]
      refine or_congr Iff.rfl ?_
      split_ifs with hocc
      · simp [hocc]
      · simp [hocc]
    rw [hnew, ih, occurs_append_singleton]
    constructor
    · rintro (hocc | ⟨-, hx⟩)
      · exact .inl hocc
      · exact .inr hx
    · rintro (hocc | ⟨rfl, rfl⟩)
      · exact .inl hocc
      · by_cases hocc : Occurs log x.clientID x.cmdID
        · exact .inl hocc
        · exact .inr ⟨hocc, rfl, rfl⟩

/-- A beginning of a sequential log is sequential. -/
theorem Sequential.of_append_singleton (h : Sequential (log ++ [operation])) : Sequential log := by
  intro c
  have hpre : firstIDs log c <+: List.range (firstIDs (log ++ [operation]) c).length := by
    rw [← h c, firstIDs, firstIDs, firsts_append_singleton, List.filter_append, List.map_append]
    exact List.prefix_append _ _
  have hle : (firstIDs log c).length ≤ (firstIDs (log ++ [operation]) c).length := by
    simpa using hpre.length_le
  calc firstIDs log c
      = (List.range (firstIDs (log ++ [operation]) c).length).take (firstIDs log c).length :=
        List.prefix_iff_eq_take.mp hpre
    _ = List.range (firstIDs log c).length := by rw [List.take_range, Nat.min_eq_left hle]

/-- **In sequence means in order**: where a command occurs, all smaller ones of its client have
occurred. -/
theorem Sequential.orderly (h : Sequential log) : Orderly log := by
  induction log using List.reverseRecOn with
  | nil => exact nofun
  | append_singleton log x ih =>
    have hord := ih h.of_append_singleton
    refine hord.append_singleton fun m hm => ?_
    by_cases hocc : Occurs log x.clientID x.cmdID
    · -- a retry: the first occurrence was in order
      obtain ⟨y, hy, hc, hid⟩ := hocc
      obtain ⟨p, hp⟩ := List.mem_iff_getElem?.mp hy
      have := (hord p y hp m (hid ▸ hm)).of_take
      rwa [hc] at this
    · -- the next number, which all numbers before it precede
      have hids : firstIDs (log ++ [x]) x.clientID = firstIDs log x.clientID ++ [x.cmdID] := by
        rw [firstIDs, firsts_append_singleton, if_neg hocc, List.filter_append, List.map_append]
        simp [firstIDs]
      have hseq := h x.clientID
      rw [hids, List.length_append, List.length_singleton, List.range_succ] at hseq
      obtain ⟨hold, hlast⟩ := List.append_inj' hseq rfl
      have hid : x.cmdID = (firstIDs log x.clientID).length := by simpa using hlast
      rw [← mem_firstIDs, hold]
      exact List.mem_range.mpr (hid ▸ hm)

/-! ### The store without retries -/

/-- A store that performs everything it is given. -/
def performAll (log : List Op) : Finmap fun _ : String => String := log.foldl Kv.perform ∅

/-- In an orderly log the server performs a command if and only if it is not in the log yet. -/
theorem Orderly.isNew_iff (h : Orderly log) (operation : Op) :
    (Kv.after log).isNew operation = true ↔ ¬Occurs log operation.clientID operation.cmdID := by
  rw [← h.seenCmd_iff, Kv.seenCmd_eq_not_isNew]
  simp

/-- **Retries make no difference** to the store. -/
theorem Orderly.kvdb_after (h : Orderly log) : (Kv.after log).kvdb = performAll (firsts log) := by
  induction log using List.reverseRecOn with
  | nil => rfl
  | append_singleton log x ih =>
    have hord := h.of_append
    rw [Kv.after_append_singleton, firsts_append_singleton, Kv.enact]
    by_cases hocc : Occurs log x.clientID x.cmdID
    · rw [if_neg (mt (hord.isNew_iff x).mp (not_not.mpr hocc)), if_pos hocc, List.append_nil,
        ih hord]
    · rw [if_pos ((hord.isNew_iff x).mpr hocc), if_neg hocc, performAll, List.foldl_append]
      exact congrArg (Kv.perform · x) (ih hord)

/-! ### Deliveries -/

/-- What comes to `dealWithApplyMsg`: a command at an index, or the state itself, which was encoded
to a snapshot and is restored from it. -/
inductive Delivery
  | command (commandIndex : ℕ) (operation : Op)
  | restore
  deriving DecidableEq, Repr

/-- The command that is delivered. -/
def Delivery.delivered : Delivery → Option Op
  | .command _ operation => some operation
  | .restore => none

/-- `dealWithApplyMsg` on a delivery. -/
def Kv.deliver (gob : Gob Kv) (kv : Kv) : Delivery → Option Kv
  | .command commandIndex operation =>
    kv.dealWithApplyMsg gob ⟨commandIndex, some operation, true, []⟩
  | .restore => kv.dealWithApplyMsg gob ⟨0, none, false, gob.encode kv⟩

/-- The commands among the deliveries, in order. -/
def commandsOf (deliveries : List Delivery) : List Op := deliveries.filterMap Delivery.delivered

theorem commandsOf_append (ds ds' : List Delivery) :
    commandsOf (ds ++ ds') = commandsOf ds ++ commandsOf ds' :=
  List.filterMap_append

/-- Snapshots make no difference. -/
theorem foldlM_deliver (gob : Gob Kv) (deliveries : List Delivery) :
    deliveries.foldlM (Kv.deliver gob) Kv.empty = some (Kv.after (commandsOf deliveries)) := by
  induction deliveries using List.reverseRecOn with
  | nil => rfl
  | append_singleton deliveries d ih =>
    rw [List.foldlM_append, ih, commandsOf_append]
    cases d with
    | command commandIndex operation =>
      rw [show commandsOf [.command commandIndex operation] = [operation] from rfl,
        Kv.after_append_singleton]
      rfl
    | restore =>
      rw [show commandsOf [.restore] = [] from rfl, List.append_nil]
      simp [Kv.deliver, Kv.dealWithApplyMsg, gob.decode_encode]

/-- **Exactly once.** However often and however late commands are delivered again, and wherever the
state is saved and restored in between: `Kvdb` is what the first occurrences make of the empty
store, one after the other, and `seenCmd` tells after every prefix which commands are in it. -/
theorem exactly_once (gob : Gob Kv) {deliveries : List Delivery}
    (h : Sequential (commandsOf deliveries)) :
    (∃ kv, deliveries.foldlM (Kv.deliver gob) Kv.empty = some kv ∧
      kv.kvdb = performAll (firsts (commandsOf deliveries))) ∧
    ∀ k, ∃ kv, (deliveries.take k).foldlM (Kv.deliver gob) Kv.empty = some kv ∧
      ∀ c m, kv.seenCmd c m = true ↔ Occurs (commandsOf (deliveries.take k)) c m := by
  refine ⟨⟨_, foldlM_deliver gob _, h.orderly.kvdb_after⟩, fun k => ⟨_, foldlM_deliver gob _, ?_⟩⟩
  have hord := h.orderly
  rw [← List.take_append_drop k deliveries, commandsOf_append] at hord
  exact hord.of_append.seenCmd_iff

/-- Two clients; the first command is retried after the second, and a snapshot comes between. -/
def retriedDeliveries : List Delivery :=
  [.command 1 ⟨.put, "x", "1", 7, 0⟩, .command 2 ⟨.append, "x", "2", 7, 1⟩, .restore,
    .command 3 ⟨.append, "x", "3", 8, 0⟩, .command 4 ⟨.put, "x", "1", 7, 0⟩]

theorem exactly_once_retried :
    ∃ kv, retriedDeliveries.foldlM (Kv.deliver (Gob.unary Kv)) Kv.empty = some kv ∧
      kv.kvdb.lookup "x" = some "123" := by
  have hfirsts : firsts (commandsOf retriedDeliveries) = [⟨.put, "x", "1", 7, 0⟩,
      ⟨.append, "x", "2", 7, 1⟩, ⟨.append, "x", "3", 8, 0⟩] := by decide +kernel
  have hseq : Sequential (commandsOf retriedDeliveries) := by
    intro c
    rw [firstIDs, hfirsts]
    by_cases h₇ : c = 7
    · subst h₇
      rfl
    · by_cases h₈ : c = 8
      · subst h₈
        rfl
      · simp [Ne.symm h₇, Ne.symm h₈]
  obtain ⟨kv, hkv, hdb⟩ := (exactly_once (Gob.unary Kv) hseq).1
  refine ⟨kv, hkv, ?_⟩
  rw [hdb]
  decide +kernel

end RaftKVDB
