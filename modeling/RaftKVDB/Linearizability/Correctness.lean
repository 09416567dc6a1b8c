import RaftKVDB.Linearizability.Exploration

/-!
# `checkSingle` is right

The loop of `checkSingle` goes along with the search through the configurations, turn by turn: the
list of nodes holds the entries of the operations that are not in the order, the calls before
`entry` have been tried, and what is on `calls` takes the list back to what it was, one operation at
a time.

## Main results

* `Checker.Sim` — what the variables of the loop have to do with the search
* `Checker.Sim.next` — one turn of the loop
* `checkSingle_halts` — the loop ends, with the right result
-/

namespace RaftKVDB

open Foundations

variable {I O S : Type} {history : List (Operation I O)} {model : Model I O S} {h h' : Heap I O}
  {b : Bitset} {i : ℕ} {op : Operation I O}

/-! ### Where the entries are -/

/-- The address of an entry of a history. -/
def addrOf (history : List (Operation I O)) (e : Entry I O) : ℕ := addr (makeEntries history) e

/-- The addresses of the entries that remain. -/
def addrs (history : List (Operation I O)) (b : Bitset) : List ℕ :=
  (remaining history b).map (addrOf history)

theorem map_addrOf (history : List (Operation I O)) : (makeEntries history).map (addrOf history) =
    (List.range (makeEntries history).length).reverse := map_addr nodup_keys

theorem addrOf_lt {e : Entry I O} (he : e ∈ makeEntries history) :
    addrOf history e < (makeEntries history).length := by
  have hmem := List.mem_map_of_mem (f := addrOf history) he
  rwa [map_addrOf, List.mem_reverse, List.mem_range] at hmem

theorem addrOf_inj {e e' : Entry I O} (he : e ∈ makeEntries history)
    (he' : e' ∈ makeEntries history) (heq : addrOf history e = addrOf history e') : e = e' := by
  refine List.inj_on_of_nodup_map ?_ he he' heq
  rw [map_addrOf]
  exact List.nodup_reverse.mpr List.nodup_range

/-- The head of the list is a new node. -/
theorem nodup_addrs (history : List (Operation I O)) (b : Bitset) :
    ((makeEntries history).length :: addrs history b).Nodup := by
  have hsub : (addrs history b).Sublist (List.range (makeEntries history).length).reverse := by
    rw [← map_addrOf]
    exact List.filter_sublist.map _
  refine List.nodup_cons.mpr ⟨fun hmem => ?_, ?_⟩
  · have hlt := hsub.subset hmem
    rw [List.mem_reverse, List.mem_range] at hlt
    exact Nat.lt_irrefl _ hlt
  · exact (List.nodup_reverse.mpr List.nodup_range).sublist hsub

/-- The nodes say what the entries say, and a call is linked to its return. -/
structure Placed (history : List (Operation I O)) (h : Heap I O) : Prop where
  call : ∀ (i : ℕ) (op : Operation I O), history[i]? = some op →
    h.data (addrOf history (op.callEntry i)) =
      (some (.input op.input), some (addrOf history (op.returnEntry i)), i)
  ret : ∀ (i : ℕ) (op : Operation I O), history[i]? = some op →
    h.data (addrOf history (op.returnEntry i)) = (some (.output op.output), none, i)

theorem Placed.of_same (hp : Placed history h) (hsame : h.Same h') : Placed history h' where
  call i op hop := hsame.data ▸ hp.call i op hop
  ret i op hop := hsame.data ▸ hp.ret i op hop

/-- A return comes after its call, in what remains. -/
theorem WellTimed.return_after (ht : WellTimed history) (hop : history[i]? = some op)
    {l₁ l₂ : List (Entry I O)} (hsplit : remaining history b = l₁ ++ op.callEntry i :: l₂) :
    op.returnEntry i ∈ l₂ := by
  have hcall : op.callEntry i ∈ remaining history b := by
    rw [hsplit]
    exact List.mem_append_right _ List.mem_cons_self
  have hmem : op.returnEntry i ∈ remaining history b := by
    rw [remaining, List.mem_filter] at hcall ⊢
    exact ⟨returnEntry_mem hop, hcall.2⟩
  have hsorted := ht.sorted_remaining b
  rw [hsplit] at hmem hsorted
  rcases List.mem_append.mp hmem with hbefore | hafter
  · have hlt := (List.pairwise_append.mp hsorted).2.2 _ hbefore _ List.mem_cons_self
    exact absurd (ht.lt op (List.mem_of_getElem? hop)) hlt.asymm
  · exact (List.mem_cons.mp hafter).resolve_left fun heq => by cases congrArg Entry.kind heq

theorem remaining_newBitset (history : List (Operation I O)) (n : ℕ) :
    remaining history (Bitset.newBitset n) = makeEntries history := by
  refine List.filter_eq_self.mpr fun e _ => ?_
  rw [Bitset.has_newBitset]
  rfl

theorem placed_makeLinkedEntries (ht : WellTimed history) :
    Placed history (makeLinkedEntries (makeEntries history)).heap := by
  have hdata := (makeLinkedEntries_spec (makeEntries history)).data
  refine ⟨fun i op hop => ?_, fun i op hop => ?_⟩
  · obtain ⟨l₁, l₂, hsplit⟩ := List.append_of_mem (callEntry_mem hop)
    have hkeys : ((makeEntries history).map Entry.key).Nodup := nodup_keys
    have hret : op.returnEntry i ∈ l₂ :=
      ht.return_after (b := Bitset.newBitset 0) hop ((remaining_newBitset history 0).trans hsplit)
    have haddr : address l₂ .returnEntry i = some (addrOf history (op.returnEntry i)) := by
      rw [addrOf, ← address_eq_addr hkeys (returnEntry_mem hop), hsplit,
        ← List.singleton_append, ← List.append_assoc]
      rw [hsplit, ← List.singleton_append, ← List.append_assoc] at hkeys
      exact (address_append hkeys hret).symm
    rw [hdata, addrOf, hsplit, nodeData_addr (hsplit ▸ hkeys)]
    simp only [Operation.callEntry]
    rw [haddr]
  · obtain ⟨l₁, l₂, hsplit⟩ := List.append_of_mem (returnEntry_mem hop)
    rw [hdata, addrOf, hsplit, nodeData_addr (hsplit ▸ nodup_keys)]
    rfl

/-! ### The list of nodes -/

/-- The nodes of the entries that remain are linked, after the head. -/
def Threaded (history : List (Operation I O)) (h : Heap I O) (b : Bitset) : Prop :=
  h.links.Linked ((makeEntries history).length :: addrs history b)

theorem Threaded.next_head (hl : Threaded history h b) :
    (h.node (makeEntries history).length).next = (addrs history b).head? :=
  Links.Linked.next_first hl

theorem Threaded.next_eq (hl : Threaded history h b) {l₁ l₂ : List (Entry I O)} {e : Entry I O}
    (hsplit : remaining history b = l₁ ++ e :: l₂) :
    (h.node (addrOf history e)).next = (l₂.map (addrOf history)).head? := by
  rw [Threaded, addrs, hsplit, List.map_append, List.map_cons, ← List.cons_append] at hl
  exact hl.next_eq

/-- The two entries of an operation. -/
theorem id_eq_iff (hop : history[i]? = some op) {e : Entry I O} (he : e ∈ makeEntries history) :
    e.id = i ↔ addrOf history e = addrOf history (op.callEntry i) ∨
      addrOf history e = addrOf history (op.returnEntry i) := by
  constructor
  · rintro rfl
    obtain ⟨j, op', hop', rfl | rfl⟩ := mem_makeEntries.mp he
    · rw [Option.some.inj (hop'.symm.trans hop)]
      exact .inl rfl
    · rw [Option.some.inj (hop'.symm.trans hop)]
      exact .inr rfl
  · rintro (heq | heq)
    · rw [addrOf_inj he (callEntry_mem hop) heq]
      rfl
    · rw [addrOf_inj he (returnEntry_mem hop) heq]
      rfl

/-- The entries of one more operation are not there any more. -/
theorem Fits.addrs_insert (hfits : Fits history b) (hop : history[i]? = some op) :
    addrs history (b.insert i) = ((addrs history b).erase (addrOf history (op.callEntry i))).erase
      (addrOf history (op.returnEntry i)) := by
  have hnodup := (List.nodup_cons.mp (nodup_addrs history b)).2
  rw [(hnodup.erase _).erase_eq_filter, hnodup.erase_eq_filter, addrs, addrs, List.filter_map,
    List.filter_map, remaining, remaining, List.filter_filter, List.filter_filter]
  congr 1
  refine List.filter_congr fun e he => ?_
  rw [hfits.has_insert hop, decide_eq_decide.mpr (id_eq_iff hop he), Bool.decide_or, Bool.not_or,
    Bool.not_or, Bool.and_comm (!decide (addrOf history e = addrOf history (op.callEntry i)))]
  rfl

/-- **An operation is put in the order**: its two nodes are taken out, and `unlift` puts them
back. -/
theorem Threaded.lift (ht : WellTimed history) (hl : Threaded history h b) (hp : Placed history h)
    (hfits : Fits history b) (hop : history[i]? = some op) (hb : b.has i = false) :
    ∃ h', h.lift (addrOf history (op.callEntry i)) = .ok h' ∧ Threaded history h' (b.insert i) ∧
      Placed history h' ∧ h'.unlift (addrOf history (op.callEntry i)) = .ok h := by
  have hcall : op.callEntry i ∈ remaining history b := mem_remaining.mpr ⟨i, op, hop, hb, .inl rfl⟩
  have hret : op.returnEntry i ∈ remaining history b :=
    mem_remaining.mpr ⟨i, op, hop, hb, .inr rfl⟩
  have hne : addrOf history (op.returnEntry i) ≠ addrOf history (op.callEntry i) := fun heq =>
    nomatch congrArg Entry.kind (addrOf_inj (returnEntry_mem hop) (callEntry_mem hop) heq)
  have hmatch : (h.node (addrOf history (op.callEntry i))).matching =
      some (addrOf history (op.returnEntry i)) :=
    congrArg (fun d : Option (Value I O) × Option ℕ × ℕ => d.2.1) (hp.call i op hop)
  have hlast : (h.node (addrOf history (op.callEntry i))).next ≠ none := by
    obtain ⟨l₁, l₂, hsplit⟩ := List.append_of_mem hcall
    rw [hl.next_eq hsplit]
    cases l₂ with
    | nil => exact nomatch ht.return_after hop hsplit
    | cons x l₂ => nofun
  obtain ⟨h', hlift, hlinked, hsame, hunlift⟩ := Heap.lift_spec hl (nodup_addrs history b)
    (List.mem_map_of_mem hcall) (List.mem_map_of_mem hret) hne hmatch hlast
  refine ⟨h', hlift, ?_, hp.of_same hsame, hunlift⟩
  rwa [Threaded, hfits.addrs_insert hop]

/-! ### The loop and the search -/

/-- Where `entry` is: the calls before it have been tried, and those from it on up to the first
return are left to try. -/
def Cursor (history : List (Operation I O)) (b : Bitset) (entry : Option ℕ) (todo : List ℕ) :
    Prop :=
  ∃ before after, remaining history b = before ++ after ∧ (∀ e ∈ before, e.isCall = true) ∧
    entry = (after.map (addrOf history)).head? ∧ todo = (after.takeWhile Entry.isCall).map Entry.id

/-- What is on `calls`: for every operation that was put in the order, the list as it was before,
and where `entry` was. -/
inductive Frames (history : List (Operation I O)) :
    Heap I O → Bitset → List (CallsEntry S) → List ((Bitset × S) × List ℕ) → Prop
  | nil {h : Heap I O} {b : Bitset} : Frames history h b [] []
  | cons {h h' : Heap I O} {b : Bitset} {i : ℕ} {op : Operation I O} {s : S}
      {before after : List (Entry I O)} {calls : List (CallsEntry S)}
      {stack : List ((Bitset × S) × List ℕ)} (hop : history[i]? = some op) (hb : b.has i = false)
      (hl : Threaded history h b) (hp : Placed history h)
      (hunlift : h'.unlift (addrOf history (op.callEntry i)) = .ok h)
      (hsplit : remaining history b = before ++ op.callEntry i :: after)
      (hbefore : ∀ e ∈ before, e.isCall = true) (hframes : Frames history h b calls stack) :
    Frames history h' (b.insert i) (⟨addrOf history (op.callEntry i), s⟩ :: calls)
      (((b, s), (after.takeWhile Entry.isCall).map Entry.id) :: stack)

/-- What the variables of the loop have to do with the search. -/
structure Checker.Sim (history : List (Operation I O)) (model : Model I O S) (c : Checker I O S)
    (a : Search (Bitset × S) ℕ) : Prop where
  current : a.current = (c.linearized, c.state)
  fits : Fits history c.linearized
  head : c.headEntry = (makeEntries history).length
  placed : Placed history c.heap
  threaded : Threaded history c.heap c.linearized
  cursor : Cursor history c.linearized c.entry a.todo
  frames : Frames history c.heap c.linearized c.calls a.stack
  seen : ∀ b s, cacheContains model c.cache ⟨b, s⟩ = true ↔ (b, s) ∈ a.seen

/-- One more configuration is remembered. -/
theorem cacheContains_update (hequal : ∀ s s', model.equal s s' = true ↔ s = s') (cache : Cache S)
    (b b' : Bitset) (s s' : S) :
    cacheContains model (Function.update cache b.hash (cache b.hash ++ [⟨b, s⟩])) ⟨b', s'⟩ = true ↔
      (b', s') = (b, s) ∨ cacheContains model cache ⟨b', s'⟩ = true := by
  have hnew : (b'.equals b && model.equal s' s) = true ↔ (b', s') = (b, s) := by
    rw [Bool.and_eq_true, Bitset.equals_iff, hequal, Prod.mk.injEq]
  rw [cacheContains, cacheContains, Function.update_apply]
  split_ifs with hhash
  · dsimp only at hhash
    rw [List.any_append, Bool.or_eq_true, List.any_cons, List.any_nil, Bool.or_false, hnew, or_comm]
    dsimp only
    rw [hhash]
  · refine (or_iff_right fun heq => hhash ?_).symm
    rw [(Prod.mk.inj heq).1]

/-- The entry at which the loop is, when entries remain. -/
theorem Cursor.exists_entry {entry : Option ℕ} {todo : List ℕ}
    (hcursor : Cursor history b entry todo) (hne : remaining history b ≠ []) : ∃ before e after,
    remaining history b = before ++ e :: after ∧ (∀ x ∈ before, x.isCall = true) ∧
      entry = some (addrOf history e) ∧
      todo = if e.isCall then e.id :: (after.takeWhile Entry.isCall).map Entry.id else [] := by
  obtain ⟨before, after, hsplit, hbefore, rfl, rfl⟩ := hcursor
  cases after with
  | nil =>
    -- the return of an operation that remains would be a call
    obtain ⟨e, he⟩ := List.exists_mem_of_ne_nil _ hne
    obtain ⟨i, op, hop, hb, -⟩ := mem_remaining.mp he
    have hret : op.returnEntry i ∈ remaining history b :=
      mem_remaining.mpr ⟨i, op, hop, hb, .inr rfl⟩
    rw [hsplit, List.append_nil] at hret
    exact nomatch hbefore _ hret
  | cons e after =>
    refine ⟨before, e, after, hsplit, hbefore, rfl, ?_⟩
    rw [List.takeWhile_cons]
    split_ifs <;> rfl

/-- The next entry, after a call that was tried. -/
theorem Threaded.cursor_next (hl : Threaded history h b) {before after : List (Entry I O)}
    {e : Entry I O} (hsplit : remaining history b = before ++ e :: after)
    (hbefore : ∀ x ∈ before, x.isCall = true) (he : e.isCall = true) :
    Cursor history b (h.node (addrOf history e)).next
      ((after.takeWhile Entry.isCall).map Entry.id) := by
  refine ⟨before ++ [e], after, ?_, fun x hx => ?_, hl.next_eq hsplit, rfl⟩
  · rw [hsplit, List.append_assoc, List.singleton_append]
  · rcases List.mem_append.mp hx with hx | hx
    · exact hbefore x hx
    · rwa [List.mem_singleton.mp hx]

namespace Checker

variable {c : Checker I O S} {a : Search (Bitset × S) ℕ} {before after : List (Entry I O)}

/-- What a turn of the loop has to come to when the search comes to something. -/
def Follows (history : List (Operation I O)) (model : Model I O S)
    (r : Except Fault (Bool ⊕ Checker I O S)) : Bool ⊕ Search (Bitset × S) ℕ → Prop
  | .inl result => r = .ok (.inl result)
  | .inr a => ∃ c, r = .ok (.inr c) ∧ Sim history model c a

namespace Sim

/-- A call is passed over. -/
theorem skip (hsim : Sim history model c a) {e : Entry I O}
    (hsplit : remaining history c.linearized = before ++ e :: after)
    (hbefore : ∀ x ∈ before, x.isCall = true) (he : e.isCall = true) :
    Sim history model (c.skip (addrOf history e))
      { a with todo := (after.takeWhile Entry.isCall).map Entry.id } :=
  { hsim with cursor := hsim.threaded.cursor_next hsplit hbefore he }

/-- An operation is put in the order. -/
theorem push (ht : WellTimed history) (hequal : ∀ s s', model.equal s s' = true ↔ s = s')
    (hsim : Sim history model c a) (hop : history[i]? = some op)
    (hsplit : remaining history c.linearized = before ++ op.callEntry i :: after)
    (hbefore : ∀ x ∈ before, x.isCall = true) (s : S) : ∃ c',
    c.push (addrOf history (op.callEntry i)) ⟨c.linearized.insert i, s⟩ = .ok c' ∧
      Sim history model c' ⟨(c.linearized.insert i, s),
        (model.problem history).ways (c.linearized.insert i, s),
        (a.current, (after.takeWhile Entry.isCall).map Entry.id) :: a.stack,
        (c.linearized.insert i, s) :: a.seen⟩ := by
  have hb : c.linearized.has i = false := by
    have hmem : op.callEntry i ∈ remaining history c.linearized := by
      rw [hsplit]
      exact List.mem_append_right _ List.mem_cons_self
    rw [remaining, List.mem_filter, Bool.not_eq_true'] at hmem
    exact hmem.2
  have hid : (c.heap.node (addrOf history (op.callEntry i))).id = i :=
    congrArg (fun d : Option (Value I O) × Option ℕ × ℕ => d.2.2) (hsim.placed.call i op hop)
  have hset := Bitset.set_eq (hsim.fits i (List.getElem?_eq_some_iff.mp hop).1)
  obtain ⟨h', hlift, hthreaded, hplaced, hunlift⟩ :=
    hsim.threaded.lift ht hsim.placed hsim.fits hop hb
  refine ⟨_, by rw [Checker.push, hid, hset, hlift]; rfl, ?_⟩
  refine ⟨rfl, hsim.fits.insert i, hsim.head, hplaced, hthreaded, ?_, ?_, fun b' s' => ?_⟩
  · refine ⟨[], _, rfl, by simp, ?_, rfl⟩
    dsimp only
    rw [hsim.head]
    exact hthreaded.next_head
  · rw [hsim.current]
    exact .cons hop hb hsim.threaded hsim.placed hunlift hsplit hbefore hsim.frames
  · rw [cacheContains_update hequal, List.mem_cons, hsim.seen]

/-- **A call is tried.** -/
theorem tryCall [DecidableEq S] (ht : WellTimed history)
    (hequal : ∀ s s', model.equal s s' = true ↔ s = s') (hsim : Sim history model c a)
    (hgoal : (model.problem history).goal a.current = false) (hop : history[i]? = some op)
    (hsplit : remaining history c.linearized = before ++ op.callEntry i :: after)
    (hbefore : ∀ x ∈ before, x.isCall = true)
    (htodo : a.todo = i :: (after.takeWhile Entry.isCall).map Entry.id) :
    Follows history model
      (return .inr (← c.tryCall model (addrOf history (op.callEntry i))
        (addrOf history (op.returnEntry i)))) ((model.problem history).next a) := by
  have hcall := hsim.placed.call i op hop
  have hret := hsim.placed.ret i op hop
  simp only [Heap.data, Prod.mk.injEq] at hcall hret
  have hset := Bitset.set_eq (hsim.fits i (List.getElem?_eq_some_iff.mp hop).1)
  have hfollow : (model.problem history).follow a.current i =
      if (model.step c.state op.input op.output).1 then
        some (c.linearized.insert i, (model.step c.state op.input op.output).2) else none := by
    rw [hsim.current, Model.problem]
    simp only [hop, Option.bind_some]
  rw [Problem.next, if_neg (by simp [hgoal]), htodo]
  dsimp only
  rw [hfollow, Checker.tryCall, hcall.1, hret.1, hcall.2.2, hset]
  dsimp only
  cases hok : (model.step c.state op.input op.output).1 with
  | false => exact ⟨_, rfl, hsim.skip hsplit hbefore rfl⟩
  | true =>
    by_cases hseen : (c.linearized.insert i, (model.step c.state op.input op.output).2) ∈ a.seen
    · have hcontains := (hsim.seen _ _).mpr hseen
      simp only [if_true, if_pos hseen, bind, Except.bind, hcontains]
      exact ⟨_, rfl, hsim.skip hsplit hbefore rfl⟩
    · have hcontains : cacheContains model c.cache
          ⟨c.linearized.insert i, (model.step c.state op.input op.output).2⟩ = false :=
        Bool.eq_false_iff.mpr fun hc => hseen ((hsim.seen _ _).mp hc)
      obtain ⟨c', hpush, hsim'⟩ := hsim.push ht hequal hop hsplit hbefore
        (model.step c.state op.input op.output).2
      simp only [if_true, if_neg hseen, bind, Except.bind, hcontains, Bool.not_false, hpush]
      exact ⟨c', rfl, hsim'⟩

/-- **The loop goes back**, to what the variables were before the last operation was put in the
order. -/
theorem backtrack [DecidableEq S] (hsim : Sim history model c a)
    (hgoal : (model.problem history).goal a.current = false) (htodo : a.todo = []) :
    Follows history model c.backtrack ((model.problem history).next a) := by
  rw [Problem.next, if_neg (by simp [hgoal]), htodo]
  dsimp only
  have hfits := hsim.fits
  have hframes := hsim.frames
  rw [Checker.backtrack]
  generalize hcalls : c.calls = calls at hframes
  generalize hstack : a.stack = stack at hframes
  generalize hlin : c.linearized = lin at hframes hfits
  cases hframes with
  | nil => exact rfl
  | @cons h' _ b i op s before after calls stack hop hb hl hp hunlift hsplit hbefore hframes =>
    have hlt : i / 64 < b.words.length := by
      have hlen := hfits i (List.getElem?_eq_some_iff.mp hop).1
      rwa [Bitset.length_insert] at hlen
    have hid : (c.heap.node (addrOf history (op.callEntry i))).id = i :=
      congrArg (fun d : Option (Value I O) × Option ℕ × ℕ => d.2.2) (hsim.placed.call i op hop)
    dsimp only
    rw [hid, Bitset.clear_insert hlt hb, hunlift]
    refine ⟨_, rfl, rfl, fun j hj => ?_, hsim.head, hp, hl, ?_, hframes, hsim.seen⟩
    · exact (hfits j hj).trans_eq Bitset.length_insert
    · exact hl.cursor_next hsplit hbefore rfl

/-- **One turn of the loop** is one step of the search. -/
theorem next [DecidableEq S] (ht : WellTimed history)
    (hequal : ∀ s s', model.equal s s' = true ↔ s = s') (hsim : Sim history model c a) :
    Follows history model (c.next model false) ((model.problem history).next a) := by
  have hhead : (c.heap.node c.headEntry).next = (addrs history c.linearized).head? := by
    rw [hsim.head]
    exact hsim.threaded.next_head
  rw [Checker.next, hhead]
  cases hgoal : (model.problem history).goal a.current with
  | true =>
    have hempty : remaining history c.linearized = [] := by
      rw [hsim.current] at hgoal
      exact List.isEmpty_iff.mp hgoal
    rw [addrs, hempty, Problem.next, if_pos hgoal]
    exact rfl
  | false =>
    have hne : remaining history c.linearized ≠ [] := by
      intro hempty
      rw [hsim.current] at hgoal
      exact absurd (List.isEmpty_iff.mpr hempty) (Bool.eq_false_iff.mp hgoal)
    obtain ⟨before, e, after, hsplit, hbefore, hentry, htodo⟩ := hsim.cursor.exists_entry hne
    obtain ⟨r, hr⟩ : ∃ r, (addrs history c.linearized).head? = some r := by
      rw [addrs, hsplit]
      cases before with
      | nil => exact ⟨_, rfl⟩
      | cons x before => exact ⟨_, rfl⟩
    have hmem : e ∈ remaining history c.linearized := by
      rw [hsplit]
      exact List.mem_append_right _ List.mem_cons_self
    rw [hr, hentry]
    obtain ⟨i, op, hop, hb, rfl | rfl⟩ := mem_remaining.mp hmem
    · have hmatch : (c.heap.node (addrOf history (op.callEntry i))).matching =
          some (addrOf history (op.returnEntry i)) :=
        congrArg (fun d : Option (Value I O) × Option ℕ × ℕ => d.2.1) (hsim.placed.call i op hop)
      simp only [Bool.false_eq_true, if_false, Heap.deref, bind, Except.bind, hmatch]
      exact hsim.tryCall ht hequal hgoal hop hsplit hbefore htodo
    · have hmatch : (c.heap.node (addrOf history (op.returnEntry i))).matching = none :=
        congrArg (fun d : Option (Value I O) × Option ℕ × ℕ => d.2.1) (hsim.placed.ret i op hop)
      simp only [Bool.false_eq_true, if_false, Heap.deref, bind, Except.bind, hmatch]
      exact hsim.backtrack hgoal htodo

end Sim

end Checker

/-! ### The whole loop -/

/-- `length` counts the nodes of a list. -/
theorem Heap.length_eq {l : List ℕ} (hl : h.links.Linked l) {fuel : ℕ} (hfuel : l.length ≤ fuel) :
    h.length fuel l.head? = some l.length := by
  induction l generalizing fuel with
  | nil => cases fuel <;> rfl
  | cons x l ih =>
    cases fuel with
    | zero => exact absurd hfuel (by simp)
    | succ fuel =>
      have hnext : (h.node x).next = l.head? := hl.next_first
      rw [List.head?_cons, Heap.length, hnext, ih hl.tail (Nat.le_of_succ_le_succ hfuel),
        Option.map_some, List.length_cons]

/-- The variables at the start of the loop. -/
def Checker.startOn (model : Model I O S) (history : List (Operation I O)) : Checker I O S :=
  let l := makeLinkedEntries (makeEntries history)
  Checker.start model l.heap l.root (makeEntries history).length

theorem Checker.sim_start (ht : WellTimed history) :
    Sim history model (startOn model history)
      ((model.problem history).start (Bitset.newBitset history.length, model.init)) := by
  have hspec := makeLinkedEntries_spec (makeEntries history)
  have hremaining := remaining_newBitset history history.length
  have haddrs : addrs history (Bitset.newBitset history.length) =
      (List.range (makeEntries history).length).reverse := by
    rw [addrs, hremaining, map_addrOf]
  have hlin : (startOn model history).linearized = Bitset.newBitset history.length := by
    refine congrArg Bitset.newBitset ?_
    rw [length_makeEntries]
    omega
  have hfresh : (makeLinkedEntries (makeEntries history)).heap.fresh ∉
      (List.range (makeEntries history).length).reverse := by
    rw [hspec.fresh, List.mem_reverse, List.mem_range]
    exact Nat.lt_irrefl _
  obtain ⟨hlinked, -⟩ := Heap.insertBefore_new hspec.linked
    (List.nodup_reverse.mpr List.nodup_range) hspec.first hfresh none none (2 ^ 64 - 1)
  have hdata : ∀ e ∈ makeEntries history, (startOn model history).heap.data (addrOf history e) =
      (makeLinkedEntries (makeEntries history)).heap.data (addrOf history e) := by
    intro e he
    refine (congrFun (Heap.data_insertBefore _ _) _).trans ?_
    rw [Heap.data_new, Function.update_of_ne]
    rw [hspec.fresh]
    exact (addrOf_lt he).ne
  refine ⟨?_, ?_, hspec.fresh, ?_, ?_, ?_, .nil, fun _ _ => ?_⟩
  · rw [hlin]
    rfl
  · rw [hlin]
    exact fits_newBitset
  · have hplaced := placed_makeLinkedEntries ht
    refine ⟨fun i op hop => ?_, fun i op hop => ?_⟩
    · exact (hdata _ (callEntry_mem hop)).trans (hplaced.call i op hop)
    · exact (hdata _ (returnEntry_mem hop)).trans (hplaced.ret i op hop)
  · rw [Threaded, hlin, haddrs, ← hspec.fresh]
    rw [← hspec.root, ← hspec.fresh] at hlinked
    exact hlinked
  · rw [hlin]
    refine ⟨[], makeEntries history, hremaining, nofun, ?_, ?_⟩
    · rw [map_addrOf]
      exact hspec.root
    · exact congrArg (fun l => (l.takeWhile Entry.isCall).map Entry.id) hremaining
  · exact ⟨nofun, nofun⟩

/-- **The loop ends, with the right result.** -/
theorem checkSingle_halts (hequal : ∀ s s', model.equal s s' = true ↔ s = s')
    (ht : WellTimed history) : ∃ N b,
    HaltsIn (fun c r => Checker.next model false c = .ok r) N (Checker.startOn model history) b ∧
      (b = true ↔ model.Linearizable history) := by
  classical
  obtain ⟨N, b, hhalts, hb⟩ := (model.problem history).halts
    (model.finite_reachable ht (c := (Bitset.newBitset history.length, model.init)) fits_newBitset)
  refine ⟨N, b, hhalts.simulate (R := fun a c => Checker.Sim history model c a) ?_ ?_
    (Checker.sim_start ht), hb.trans (model.reachable_goal_iff ht).symm⟩
  · intro a c result hsim hnext
    have hfollows := hsim.next ht hequal
    rw [hnext] at hfollows
    exact hfollows
  · intro a c a' hsim hnext
    have hfollows := hsim.next ht hequal
    rw [hnext] at hfollows
    exact hfollows

theorem checkLoop_eq {c : Checker I O S} {result : Bool} {N : ℕ}
    (hhalts : HaltsIn (fun c r => Checker.next model false c = .ok r) N c result) {fuel : ℕ}
    (hfuel : N ≤ fuel) : checkLoop model fuel c = .ok (some result) := by
  induction hhalts generalizing fuel with
  | now hnext =>
    obtain ⟨fuel, rfl⟩ := Nat.exists_eq_add_of_le' hfuel
    rw [checkLoop, hnext]
    rfl
  | later hnext _ ih =>
    obtain ⟨fuel, rfl⟩ := Nat.exists_eq_add_of_le' (Nat.le_of_add_left_le hfuel)
    rw [checkLoop, hnext]
    exact ih (by omega)

/-- **The linearizability checker is sound and complete** on one partition: for every model whose
`Equal` is equality, and every history in which operations are called before they return and all
times are distinct, `checkSingle` returns, and it returns `true` if and only if the history is
linearizable. -/
theorem checkSingle_correct (model : Model I O S)
    (hequal : ∀ s s', model.equal s s' = true ↔ s = s') (history : List (Operation I O))
    (ht : WellTimed history) : ∃ result,
    (∃ enough, ∀ fuel ≥ enough,
      checkSingle model fuel (makeLinkedEntries (makeEntries history)).heap
        (makeLinkedEntries (makeEntries history)).root = .ok (some result)) ∧
      (result = true ↔ model.Linearizable history) := by
  obtain ⟨N, result, hhalts, hresult⟩ := checkSingle_halts hequal ht
  refine ⟨result, ⟨N + (makeEntries history).length, fun fuel hfuel => ?_⟩, hresult⟩
  have hspec := makeLinkedEntries_spec (makeEntries history)
  have hlength : (makeLinkedEntries (makeEntries history)).heap.length fuel
      (makeLinkedEntries (makeEntries history)).root = some (makeEntries history).length := by
    rw [hspec.root, Heap.length_eq hspec.linked, List.length_reverse, List.length_range]
    rw [List.length_reverse, List.length_range]
    omega
  rw [checkSingle, hlength]
  exact checkLoop_eq hhalts (by omega)

/-- A register that is written, or read. -/
def registerModel : Model (Option ℕ) ℕ ℕ where
  partition history := [history]
  init := 0
  step state input output :=
    match input with
    | some value => (true, value)
    | none => (decide (output = state), state)
  equal state1 state2 := decide (state1 = state2)

/-- The register is written while it is read, and read again. -/
def overlapping : List (Operation (Option ℕ) ℕ) :=
  [⟨some 1, 0, 0, 4⟩, ⟨none, 1, 1, 2⟩, ⟨none, 3, 1, 5⟩]

theorem checkSingle_correct_register : WellTimed overlapping ∧ ∃ result,
    (∃ enough, ∀ fuel ≥ enough,
      checkSingle registerModel fuel (makeLinkedEntries (makeEntries overlapping)).heap
        (makeLinkedEntries (makeEntries overlapping)).root = .ok (some result)) ∧
      (result = true ↔ registerModel.Linearizable overlapping) := by
  have ht : WellTimed overlapping := ⟨by decide, by decide⟩
  exact ⟨ht, checkSingle_correct registerModel (fun s s' => decide_eq_true_iff) overlapping ht⟩

example : checkSingle registerModel 20 (makeLinkedEntries (makeEntries overlapping)).heap
    (makeLinkedEntries (makeEntries overlapping)).root = .ok (some true) := by
  decide +kernel

/-- What was written is read, and then what was there before. -/
def readBackwards : List (Operation (Option ℕ) ℕ) :=
  [⟨some 1, 0, 0, 5⟩, ⟨none, 1, 1, 2⟩, ⟨none, 3, 0, 4⟩]

example : checkSingle registerModel 20 (makeLinkedEntries (makeEntries readBackwards)).heap
    (makeLinkedEntries (makeEntries readBackwards)).root = .ok (some false) := by
  decide +kernel

end RaftKVDB
