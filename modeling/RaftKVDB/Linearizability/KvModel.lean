import RaftKVDB.Foundations.Linearizability
import RaftKVDB.Linearizability.Exploration

/-!
# The model of a key/value store

`KvModel` is the model of the value of one key, and its `Partition` splits a history by key. What
the store is meant to be is `storeModel`, one store of all keys. The split is exact: a history is
linearizable for the store if and only if what concerns each key is linearizable for the value of
the key.

## Main results

* `mem_partition` — the parts are the operations of each key
* `storeModel_linearizable_iff` — checking key by key loses nothing and adds nothing
-/

namespace RaftKVDB

open Foundations

/-- `KvInput`. -/
structure KvInput where
  op : UInt8
  key : String
  value : String
  deriving DecidableEq, Repr

/-- `KvOutput`. -/
structure KvOutput where
  value : String
  deriving DecidableEq, Repr

/-- The order in which `range` goes through a map, which may be any. -/
structure RangeOrder (K V : Type) where
  order : List (K × V) → List (K × V)
  perm : ∀ m, (order m).Perm m

/-- `m[key] = append(m[key], v)`. -/
def appendAt {K V : Type} [DecidableEq K] (key : K) (v : V) : List (K × List V) → List (K × List V)
  | [] => [(key, [v])]
  | (k, vs) :: m => if k = key then (k, vs ++ [v]) :: m else (k, vs) :: appendAt key v m

/-- `KvModel`. -/
def kvModel (range : RangeOrder String (List (Operation KvInput KvOutput))) :
    Model KvInput KvOutput String where
  partition history :=
    let m := history.foldl (fun m v => appendAt v.input.key v m) []
    (range.order m).map Prod.snd
  init := ""
  step st inp out :=
    if inp.op = 0 then (decide (out.value = st), st)
    else if inp.op = 1 then (true, inp.value)
    else (true, st ++ inp.value)
  equal state1 state2 := decide (state1 = state2)

/-- The store that is meant: every key has a string, empty at first, and operations get it, put it
and append to it. -/
noncomputable def storeModel : Model KvInput KvOutput (String → String) where
  partition history := [history]
  init := fun _ => ""
  step store inp out :=
    if inp.op = 0 then (decide (out.value = store inp.key), store)
    else if inp.op = 1 then (true, Function.update store inp.key inp.value)
    else (true, Function.update store inp.key (store inp.key ++ inp.value))
  equal store1 store2 := open Classical in decide (store1 = store2)

/-- The operations of a key. -/
def ofKey (k : String) (history : List (Operation KvInput KvOutput)) :
    List (Operation KvInput KvOutput) :=
  history.filter fun op => decide (op.input.key = k)

variable {range : RangeOrder String (List (Operation KvInput KvOutput))}
  {history : List (Operation KvInput KvOutput)} {k : String}

/-! ### The parts of a history -/

section AppendAt

variable {K V : Type} [DecidableEq K] {keys : List K} {key : K} (f : K → List V) (v : V)

theorem appendAt_of_notMem (hkey : key ∉ keys) :
    appendAt key v (keys.map fun k => (k, f k)) = (keys.map fun k => (k, f k)) ++ [(key, [v])] := by
  induction keys with
  | nil => rfl
  | cons k keys ih =>
    obtain ⟨hne, hkey⟩ := not_or.mp (mt List.mem_cons.mpr hkey)
    rw [List.map_cons, appendAt, if_neg (Ne.symm hne), ih hkey, List.cons_append]

theorem appendAt_of_mem (hnodup : keys.Nodup) (hkey : key ∈ keys) :
    appendAt key v (keys.map fun k => (k, f k)) =
      keys.map fun k => (k, if k = key then f k ++ [v] else f k) := by
  induction keys with
  | nil => cases hkey
  | cons k keys ih =>
    obtain ⟨hk, hnodup⟩ := List.nodup_cons.mp hnodup
    rw [List.map_cons, List.map_cons, appendAt]
    by_cases heq : k = key
    · rw [if_pos heq, if_pos heq]
      refine congrArg _ (List.map_congr_left fun j hj => ?_)
      rw [if_neg fun hj' : j = key => hk (heq ▸ hj' ▸ hj)]
    · rw [if_neg heq, if_neg heq, ih hnodup ((List.mem_cons.mp hkey).resolve_left (Ne.symm heq))]

end AppendAt

theorem ofKey_concat (op : Operation KvInput KvOutput) : ofKey k (history ++ [op]) =
    if k = op.input.key then ofKey k history ++ [op] else ofKey k history := by
  rw [ofKey, List.filter_append, ← ofKey]
  split
  · next heq => rw [List.filter_cons_of_pos (by simp [heq]), List.filter_nil]
  · next hne => rw [List.filter_cons_of_neg (by simpa using Ne.symm hne), List.filter_nil,
      List.append_nil]

/-- The map that `Partition` makes: a key of the history has the operations of the key. -/
theorem foldl_appendAt (history : List (Operation KvInput KvOutput)) :
    ∃ keys : List String, keys.Nodup ∧ (∀ k, k ∈ keys ↔ ∃ op ∈ history, op.input.key = k) ∧
      history.foldl (fun m v => appendAt v.input.key v m) [] =
        keys.map fun k => (k, ofKey k history) := by
  induction history using List.reverseRecOn with
  | nil => exact ⟨[], List.nodup_nil, by simp, rfl⟩
  | append_singleton history op ih =>
    obtain ⟨keys, hnodup, hkeys, hfold⟩ := ih
    have hmore : ∀ k, (∃ op' ∈ history ++ [op], op'.input.key = k) ↔
        k ∈ keys ∨ op.input.key = k := by
      simp [hkeys, or_and_right, exists_or]
    rw [List.foldl_append, List.foldl_cons, List.foldl_nil, hfold]
    by_cases hkey : op.input.key ∈ keys
    · refine ⟨keys, hnodup, fun k => ?_, ?_⟩
      · have hold : op.input.key = k → k ∈ keys := fun heq => heq ▸ hkey
        rw [hmore, or_iff_left_of_imp hold]
      · rw [appendAt_of_mem _ _ hnodup hkey]
        simp only [ofKey_concat]
    · refine ⟨keys ++ [op.input.key], ?_, fun k => ?_, ?_⟩
      · exact hnodup.append (List.nodup_singleton _) (List.disjoint_singleton.mpr hkey)
      · rw [hmore, List.mem_append, List.mem_singleton, eq_comm]
      · have hnone : ofKey op.input.key history = [] := by
          refine List.filter_eq_nil_iff.mpr fun op' hop' heq => hkey ?_
          exact (hkeys _).mpr ⟨op', hop', of_decide_eq_true heq⟩
        rw [appendAt_of_notMem _ _ hkey, List.map_append, List.map_singleton, ofKey_concat,
          if_pos rfl, hnone, List.nil_append]
        refine congrArg (· ++ _) (List.map_congr_left fun k hk => ?_)
        rw [ofKey_concat, if_neg fun heq : k = op.input.key => hkey (heq ▸ hk)]

theorem mem_partition {part : List (Operation KvInput KvOutput)} :
    part ∈ (kvModel range).partition history ↔
      ∃ op ∈ history, part = ofKey op.input.key history := by
  obtain ⟨keys, -, hkeys, hfold⟩ := foldl_appendAt history
  have hmap : part ∈ (kvModel range).partition history ↔
      part ∈ (keys.map fun k => (k, ofKey k history)).map Prod.snd := by
    rw [← hfold]
    exact ((range.perm _).map Prod.snd).mem_iff
  rw [hmap, List.map_map, List.mem_map]
  constructor
  · rintro ⟨k, hk, rfl⟩
    obtain ⟨op, hop, rfl⟩ := (hkeys k).mp hk
    exact ⟨op, hop, rfl⟩
  · rintro ⟨op, hop, rfl⟩
    exact ⟨op.input.key, (hkeys _).mpr ⟨op, hop, rfl⟩, rfl⟩

theorem WellTimed.ofKey (ht : WellTimed history) (k : String) : WellTimed (ofKey k history) := by
  have hsub : (RaftKVDB.ofKey k history).Sublist history := List.filter_sublist
  exact ⟨fun op hop => ht.lt op (hsub.subset hop), ht.nodup.sublist (hsub.flatMap _)⟩

/-! ### Key by key -/

variable (range)

/-- An operation concerns its key only. -/
theorem storeModel_step (store : String → String) (inp : KvInput) (out : KvOutput) :
    storeModel.step store inp out = (((kvModel range).step (store inp.key) inp out).1,
      Function.update store inp.key ((kvModel range).step (store inp.key) inp out).2) := by
  simp only [storeModel, kvModel]
  split
  · simp
  · split <;> rfl

theorem storeModel_accepts_iff (store : String → String)
    (ops : List (Operation KvInput KvOutput)) :
    storeModel.Accepts store ops ↔ ∀ k, (kvModel range).Accepts (store k) (ofKey k ops) := by
  induction ops generalizing store with
  | nil => exact ⟨fun _ _ => trivial, fun _ => trivial⟩
  | cons op ops ih =>
    have hkey : ofKey op.input.key (op :: ops) = op :: ofKey op.input.key ops :=
      List.filter_cons_of_pos (by simp)
    have hne : ∀ k, k ≠ op.input.key → ofKey k (op :: ops) = ofKey k ops :=
      fun k hk => List.filter_cons_of_neg (by simpa using hk.symm)
    rw [Model.Accepts, ih, storeModel_step range]
    dsimp only
    constructor
    · rintro ⟨hok, hall⟩ k
      by_cases hk : k = op.input.key
      · have hk' := hall k
        rw [hk, Function.update_self] at hk'
        rw [hk, hkey]
        exact ⟨hok, hk'⟩
      · have hk' := hall k
        rw [Function.update_of_ne hk] at hk'
        rwa [hne k hk]
    · intro hall
      have hop := hall op.input.key
      rw [hkey] at hop
      refine ⟨hop.1, fun k => ?_⟩
      by_cases hk : k = op.input.key
      · rw [hk, Function.update_self]
        exact hop.2
      · have hk' := hall k
        rw [hne k hk] at hk'
        rwa [Function.update_of_ne hk]

/-- **Linearizability is local**: a history is linearizable for the store if and only if the
operations of every key are linearizable for its value. -/
theorem storeModel_linearizable_iff (ht : WellTimed history) :
    storeModel.Linearizable history ↔ ∀ k, (kvModel range).Linearizable (ofKey k history) := by
  constructor
  · rintro ⟨order, hperm, hpair, haccepts⟩ k
    exact ⟨ofKey k order, hperm.filter _, hpair.filter _,
      (storeModel_accepts_iff range _ order).mp haccepts k⟩
  · intro hall
    choose order hperm hpair haccepts using hall
    obtain ⟨keys, hnodup, hkeys, -⟩ := foldl_appendAt history
    have hmem : ∀ k, ∀ op ∈ order k, op ∈ history ∧ op.input.key = k := by
      intro k op hop
      simpa using List.mem_filter.mp ((hperm k).subset hop)
    obtain ⟨l, hl, hlkeys, hfilter⟩ := exists_merge Operation.call Operation.ret
      (fun op : Operation KvInput KvOutput => op.input.key) hnodup
      (fun k _ op hop => (hmem k op hop).2)
      (fun k _ op hop => (ht.lt op (hmem k op hop).1).le) (fun k _ => hpair k)
    have hof : ∀ k, ofKey k l = order k := by
      intro k
      by_cases hk : k ∈ keys
      · exact hfilter k hk
      · have hl : ofKey k l = [] := by
          refine List.filter_eq_nil_iff.mpr fun op hop heq => hk ?_
          exact of_decide_eq_true heq ▸ hlkeys op hop
        have horder : order k = [] := by
          refine List.eq_nil_iff_forall_not_mem.mpr fun op hop => hk ?_
          exact (hkeys k).mpr ⟨op, hmem k op hop⟩
        rw [hl, horder]
    refine ⟨l, perm_of_forall_filter (fun op => op.input.key) fun k => ?_, hl, ?_⟩
    · exact (List.Perm.of_eq (hof k)).trans (hperm k)
    · refine (storeModel_accepts_iff range _ l).mpr fun k => ?_
      rw [hof]
      exact haccepts k

end RaftKVDB
