import Mathlib.Data.List.Sort
import RaftKVDB.Foundations.LinkedList
import RaftKVDB.Foundations.Rounds
import RaftKVDB.Raft.Cluster

/-!
# Histories as linked lists

The checker works on the calls and the returns of a history, in the order of their times, as a
doubly linked list of nodes: a call is linked to its return, and the two are taken out of the list
when the operation is put in the order. Nodes are kept in a memory here, and pointers are their
numbers. What would dereference `nil` panics.

## Main results

* `Heap.lift_spec` — `lift` takes the two nodes out, and `unlift` undoes it
* `makeLinkedEntries_spec` — the nodes are linked in the order of the entries
-/

namespace RaftKVDB

open Foundations

/-! ### Histories and models -/

/-- `Operation`. -/
structure Operation (I O : Type) where
  input : I
  call : ℤ
  output : O
  ret : ℤ
  deriving DecidableEq, Repr

/-- `Model`, for histories of operations; `fillDefault` has filled in what was `nil`. -/
structure Model (I O S : Type) where
  partition : List (Operation I O) → List (List (Operation I O))
  init : S
  step : S → I → O → Bool × S
  equal : S → S → Bool

/-- `entryKind`. -/
inductive EntryKind
  | callEntry
  | returnEntry
  deriving DecidableEq, Repr

/-- What the `value` of an entry can be. -/
inductive Value (I O : Type)
  | input (input : I)
  | output (output : O)
  deriving DecidableEq, Repr

/-- `entry`. -/
structure Entry (I O : Type) where
  kind : EntryKind
  value : Value I O
  id : ℕ
  time : ℤ
  deriving DecidableEq, Repr

variable {I O : Type}

/-- The entry of the call of an operation. -/
def Operation.callEntry (operation : Operation I O) (id : ℕ) : Entry I O :=
  ⟨.callEntry, .input operation.input, id, operation.call⟩

/-- The entry of the return of an operation. -/
def Operation.returnEntry (operation : Operation I O) (id : ℕ) : Entry I O :=
  ⟨.returnEntry, .output operation.output, id, operation.ret⟩

/-- The loop of `makeEntries`. -/
def entriesFrom : ℕ → List (Operation I O) → List (Entry I O)
  | _, [] => []
  | id, elem :: history =>
    elem.callEntry id :: elem.returnEntry id :: entriesFrom (id + 1) history

/-- `makeEntries`. Times are distinct, so it does not matter which sort it is. -/
def makeEntries (history : List (Operation I O)) : List (Entry I O) :=
  (entriesFrom 0 history).insertionSort fun a b => a.time ≤ b.time

/-! ### Nodes -/

/-- `node`. -/
structure Node (I O : Type) where
  value : Option (Value I O)
  matching : Option ℕ
  id : ℕ
  next : Option ℕ
  prev : Option ℕ

/-- The memory of nodes: the node at an address, and the address of the next new node. -/
structure Heap (I O : Type) where
  node : ℕ → Node I O
  fresh : ℕ

namespace Heap

/-- Nothing is allocated. -/
def empty : Heap I O := ⟨fun _ => ⟨none, none, 0, none, none⟩, 0⟩

/-- `&node{value, match, id}`, at `h.fresh`. -/
def new (h : Heap I O) (value : Option (Value I O)) (matching : Option ℕ) (id : ℕ) : Heap I O where
  node := Function.update h.node h.fresh ⟨value, matching, id, none, none⟩
  fresh := h.fresh + 1

/-- `a.next = b`. -/
def setNext (h : Heap I O) (a : ℕ) (b : Option ℕ) : Heap I O :=
  { h with node := Function.update h.node a { h.node a with next := b } }

/-- `a.prev = b`. -/
def setPrev (h : Heap I O) (a : ℕ) (b : Option ℕ) : Heap I O :=
  { h with node := Function.update h.node a { h.node a with prev := b } }

/-- `insertBefore`. -/
def insertBefore (h : Heap I O) (n : ℕ) (mark : Option ℕ) : Heap I O :=
  match mark with
  | none => h
  | some mark =>
    let beforeMark := (h.node mark).prev
    let h := (h.setPrev mark (some n)).setNext n (some mark)
    match beforeMark with
    | none => h
    | some beforeMark => (h.setPrev n (some beforeMark)).setNext beforeMark (some n)

/-- `length`, of a list that may have no end. -/
def length (h : Heap I O) : ℕ → Option ℕ → Option ℕ
  | _, none => some 0
  | 0, some _ => none
  | fuel + 1, some n => (h.length fuel (h.node n).next).map (· + 1)

/-- A pointer that has to be dereferenced. -/
def deref (a : Option ℕ) : Except Fault ℕ :=
  match a with
  | some a => .ok a
  | none => .error .panic

/-- `lift`. -/
def lift (h : Heap I O) (entry : ℕ) : Except Fault (Heap I O) := do
  let prev ← deref (h.node entry).prev
  let h := h.setNext prev (h.node entry).next
  let next ← deref (h.node entry).next
  let h := h.setPrev next (h.node entry).prev
  let matching ← deref (h.node entry).matching
  let prev ← deref (h.node matching).prev
  let h := h.setNext prev (h.node matching).next
  match (h.node matching).next with
  | some next => return h.setPrev next (h.node matching).prev
  | none => return h

/-- `unlift`. -/
def unlift (h : Heap I O) (entry : ℕ) : Except Fault (Heap I O) := do
  let matching ← deref (h.node entry).matching
  let prev ← deref (h.node matching).prev
  let h := h.setNext prev (some matching)
  let h := match (h.node matching).next with
    | some next => h.setPrev next (some matching)
    | none => h
  let prev ← deref (h.node entry).prev
  let h := h.setNext prev (some entry)
  let next ← deref (h.node entry).next
  return h.setPrev next (some entry)

end Heap

/-- The variables of the loop of `makeLinkedEntries`. -/
structure LinkedEntries (I O : Type) where
  heap : Heap I O
  root : Option ℕ
  matching : ℕ → Option ℕ

/-- The body of the loop of `makeLinkedEntries`. -/
def linkEntry (elem : Entry I O) (b : LinkedEntries I O) : LinkedEntries I O :=
  let entry := b.heap.fresh
  match elem.kind with
  | .returnEntry =>
    { heap := (b.heap.new (some elem.value) none elem.id).insertBefore entry b.root
      root := some entry
      matching := Function.update b.matching elem.id (some entry) }
  | .callEntry =>
    { heap := (b.heap.new (some elem.value) (b.matching elem.id) elem.id).insertBefore entry b.root
      root := some entry
      matching := b.matching }

/-- `makeLinkedEntries`, from the last entry to the first: the nodes, and the root. -/
def makeLinkedEntries (entries : List (Entry I O)) : LinkedEntries I O :=
  entries.foldr linkEntry ⟨.empty, none, fun _ => none⟩

/-! ### Taking out and putting back -/

namespace Heap

variable {h h' : Heap I O} {a e m x : ℕ} {l : List ℕ}

/-- The links of the nodes. -/
def links (h : Heap I O) : Links ℕ := ⟨fun a => (h.node a).next, fun a => (h.node a).prev⟩

/-- The rest of a node, which does not change. -/
def data (h : Heap I O) (a : ℕ) : Option (Value I O) × Option ℕ × ℕ :=
  ((h.node a).value, (h.node a).matching, (h.node a).id)

theorem ext_links (hlinks : h.links = h'.links) (hdata : h.data = h'.data)
    (hfresh : h.fresh = h'.fresh) : h = h' := by
  obtain ⟨node, fresh⟩ := h
  obtain ⟨node', fresh'⟩ := h'
  obtain rfl : fresh = fresh' := hfresh
  congr
  funext a
  have hnext := congrFun (congrArg Links.next hlinks) a
  have hprev := congrFun (congrArg Links.prev hlinks) a
  have hrest := congrFun hdata a
  simp only [data, Prod.mk.injEq] at hrest
  obtain ⟨hvalue, hmatching, hid⟩ := hrest
  simp only [links] at hnext hprev
  cases hn : node a
  cases hn' : node' a
  simp_all

@[simp] theorem links_setNext (b : Option ℕ) :
    (h.setNext a b).links = h.links.setNext (some a) b := by
  ext1
  · funext x
    simp only [links, setNext, Links.next_setNext, Option.some.injEq, Function.update_apply,
      @eq_comm _ a x]
    split_ifs <;> rfl
  · funext x
    simp only [links, setNext, Links.prev_setNext, Function.update_apply]
    split_ifs with hx <;> simp [hx]

@[simp] theorem links_setPrev (b : Option ℕ) :
    (h.setPrev a b).links = h.links.setPrev (some a) b := by
  ext1
  · funext x
    simp only [links, setPrev, Links.next_setPrev, Function.update_apply]
    split_ifs with hx <;> simp [hx]
  · funext x
    simp only [links, setPrev, Links.prev_setPrev, Option.some.injEq, Function.update_apply,
      @eq_comm _ a x]
    split_ifs <;> rfl

@[simp] theorem data_setNext (b : Option ℕ) : (h.setNext a b).data = h.data := by
  funext x
  simp only [data, setNext, Function.update_apply]
  split_ifs with hx <;> simp [hx]

@[simp] theorem data_setPrev (b : Option ℕ) : (h.setPrev a b).data = h.data := by
  funext x
  simp only [data, setPrev, Function.update_apply]
  split_ifs with hx <;> simp [hx]

theorem next_setNext (b : Option ℕ) :
    ((h.setNext a b).node x).next = if some a = some x then b else (h.node x).next :=
  (congrArg (fun L : Links ℕ => L.next x) (links_setNext b)).trans (Links.next_setNext ..)

theorem prev_setNext (b : Option ℕ) : ((h.setNext a b).node x).prev = (h.node x).prev :=
  (congrArg (fun L : Links ℕ => L.prev x) (links_setNext b)).trans (Links.prev_setNext ..)

theorem matching_of_data (hdata : h'.data = h.data) : (h'.node a).matching = (h.node a).matching :=
  congrArg (fun d : Option (Value I O) × Option ℕ × ℕ => d.2.1) (congrFun hdata a)

/-- What `lift` does to the node of a return. -/
def unlink (h : Heap I O) (a : ℕ) : Except Fault (Heap I O) := do
  let prev ← deref (h.node a).prev
  let h := h.setNext prev (h.node a).next
  match (h.node a).next with
  | some next => return h.setPrev next (h.node a).prev
  | none => return h

/-- What `unlift` does to the node of a return. -/
def relink (h : Heap I O) (a : ℕ) : Except Fault (Heap I O) := do
  let prev ← deref (h.node a).prev
  let h := h.setNext prev (some a)
  match (h.node a).next with
  | some next => return h.setPrev next (some a)
  | none => return h

/-- What does not change. -/
structure Same (h h' : Heap I O) : Prop where
  data : h'.data = h.data
  fresh : h'.fresh = h.fresh

theorem unlink_spec {p : ℕ} (hprev : (h.node a).prev = some p) (hne : p ≠ a) :
    ∃ h', h.unlink a = .ok h' ∧ h'.links = h.links.unlink a ∧ h.Same h' := by
  have hpa : some p ≠ some a := fun heq => hne (Option.some.inj heq)
  have hlinks : h.links.unlink a =
      (h.links.setNext (some p) (h.node a).next).setPrev (h.node a).next (some p) := by
    rw [Links.unlink, ← hprev]
    rfl
  simp only [unlink, hprev, deref, bind, Except.bind, pure, Except.pure, next_setNext, prev_setNext,
    if_neg hpa]
  rw [hlinks, ← links_setNext]
  cases (h.node a).next with
  | none => exact ⟨_, rfl, rfl, data_setNext _, rfl⟩
  | some q => exact ⟨_, rfl, links_setPrev _, (data_setPrev _).trans (data_setNext _), rfl⟩

theorem relink_spec {p : ℕ} (hprev : (h.node a).prev = some p) (hne : p ≠ a) :
    ∃ h', h.relink a = .ok h' ∧ h'.links = h.links.relink a ∧ h.Same h' := by
  have hpa : some p ≠ some a := fun heq => hne (Option.some.inj heq)
  have hlinks : h.links.relink a =
      (h.links.setNext (some p) (some a)).setPrev (h.node a).next (some a) := by
    rw [Links.relink, ← hprev]
    rfl
  simp only [relink, hprev, deref, bind, Except.bind, pure, Except.pure, next_setNext, if_neg hpa]
  rw [hlinks, ← links_setNext]
  cases (h.node a).next with
  | none => exact ⟨_, rfl, rfl, data_setNext _, rfl⟩
  | some q => exact ⟨_, rfl, links_setPrev _, (data_setPrev _).trans (data_setNext _), rfl⟩

/-- `lift` takes out the call, of which it knows that there is a next node, and then the return. -/
theorem lift_eq {p q : ℕ} (hprev : (h.node e).prev = some p) (hne : p ≠ e)
    (hnext : (h.node e).next = some q) (hmatch : (h.node e).matching = some m) :
    ∃ h', h.lift e = h'.unlink m ∧ h'.links = h.links.unlink e ∧ h.Same h' := by
  have hpe : some p ≠ some e := fun heq => hne (Option.some.inj heq)
  have hdata : ((h.setNext p (some q)).setPrev q (some p)).data = h.data := by
    rw [data_setPrev, data_setNext]
  refine ⟨(h.setNext p (some q)).setPrev q (some p), ?_, ?_, hdata, rfl⟩
  · simp only [lift, unlink, hprev, hnext, deref, bind, Except.bind, next_setNext, prev_setNext,
      if_neg hpe, matching_of_data hdata, hmatch]
  · rw [links_setPrev, links_setNext, Links.unlink, ← hprev, ← hnext]
    rfl

/-- `unlift` puts back the return, and then the call. -/
theorem unlift_eq {p q : ℕ} (hmatch : (h.node e).matching = some m) (hrelink : h.relink m = .ok h')
    (hprev : (h'.node e).prev = some p) (hne : p ≠ e) (hnext : (h'.node e).next = some q) :
    ∃ h'', h.unlift e = .ok h'' ∧ h''.links = h'.links.relink e ∧ h'.Same h'' := by
  have hpe : some p ≠ some e := fun heq => hne (Option.some.inj heq)
  have hrest : h.unlift e = h.relink m >>= fun h => do
      let prev ← deref (h.node e).prev
      let h := h.setNext prev (some e)
      let next ← deref (h.node e).next
      return h.setPrev next (some e) := by
    simp only [unlift, relink, hmatch, deref, bind, Except.bind]
    cases (h.node m).prev with
    | none => rfl
    | some p =>
      dsimp only
      cases ((h.setNext p (some m)).node m).next <;> rfl
  refine ⟨(h'.setNext p (some e)).setPrev q (some e), ?_, ?_, ?_, rfl⟩
  · rw [hrest, hrelink]
    simp only [bind, Except.bind, hprev, hnext, deref, next_setNext, if_neg hpe]
    rfl
  · rw [links_setPrev, links_setNext, Links.relink, ← hprev, ← hnext]
    rfl
  · rw [data_setPrev, data_setNext]

/-- **`lift`** takes a call and its return out of the list, and **`unlift`** puts them back. -/
theorem lift_spec (hl : h.links.Linked (x :: l)) (hnodup : (x :: l).Nodup) (he : e ∈ l)
    (hm : m ∈ l) (hem : m ≠ e) (hmatch : (h.node e).matching = some m)
    (hlast : (h.node e).next ≠ none) :
    ∃ h', h.lift e = .ok h' ∧ h'.links.Linked (x :: (l.erase e).erase m) ∧ h.Same h' ∧
      h'.unlift e = .ok h := by
  obtain ⟨⟨p, -, hpe, hprev, -⟩, hafter⟩ := hl.around hnodup he
  obtain ⟨q, hnext⟩ := Option.ne_none_iff_exists'.mp hlast
  obtain ⟨h₁, hlift, hlinks₁, hsame₁⟩ := lift_eq hprev hpe hnext hmatch
  have hl₁ : h₁.links.Linked (x :: l.erase e) := hlinks₁ ▸ hl.unlink hnodup he
  have hnodup₁ : (x :: l.erase e).Nodup := hnodup.sublist (List.erase_sublist.cons_cons x)
  have hm₁ : m ∈ l.erase e := (List.mem_erase_of_ne hem).mpr hm
  obtain ⟨⟨p', -, hpm, hprev', -⟩, hafter'⟩ := hl₁.around hnodup₁ hm₁
  obtain ⟨h₂, hunlink, hlinks₂, hsame₂⟩ := unlink_spec hprev' hpm
  refine ⟨h₂, hlift.trans hunlink, hlinks₂ ▸ hl₁.unlink hnodup₁ hm₁,
    ⟨hsame₂.data.trans hsame₁.data, hsame₂.fresh.trans hsame₁.fresh⟩, ?_⟩
  -- back the same way: first the return, then the call
  have hprev₂ : (h₂.node m).prev = some p' := by
    refine (congrArg (fun L : Links ℕ => L.prev m) hlinks₂).trans ?_
    rw [Links.prev_unlink, if_neg fun hself => (hafter' m hself).2.1 rfl, hprev']
  obtain ⟨h₃, hrelink, hlinks₃, hsame₃⟩ := relink_spec hprev₂ hpm
  rw [hlinks₂, hl₁.relink_unlink hnodup₁ hm₁, hlinks₁] at hlinks₃
  have hprev₃ : (h₃.node e).prev = some p := by
    refine (congrArg (fun L : Links ℕ => L.prev e) hlinks₃).trans ?_
    rw [Links.prev_unlink, if_neg fun hself => (hafter e hself).2.1 rfl, hprev]
  have hnext₃ : (h₃.node e).next = some q := by
    refine (congrArg (fun L : Links ℕ => L.next e) hlinks₃).trans ?_
    rw [Links.next_unlink, hprev, if_neg fun hself => hpe (Option.some.inj hself)]
    exact hnext
  have hmatch₂ : (h₂.node e).matching = some m := by
    rw [matching_of_data hsame₂.data, matching_of_data hsame₁.data, hmatch]
  obtain ⟨h₄, hunlift, hlinks₄, hsame₄⟩ := unlift_eq hmatch₂ hrelink hprev₃ hpe hnext₃
  rw [hlinks₃, hl.relink_unlink hnodup he] at hlinks₄
  rw [hunlift, ext_links hlinks₄]
  · rw [hsame₄.data, hsame₃.data, hsame₂.data, hsame₁.data]
  · rw [hsame₄.fresh, hsame₃.fresh, hsame₂.fresh, hsame₁.fresh]

/-! ### Building the list -/

@[simp] theorem data_insertBefore (n : ℕ) (mark : Option ℕ) :
    (h.insertBefore n mark).data = h.data := by
  rw [insertBefore.eq_def]
  split
  · rfl
  · dsimp only
    split <;> simp only [data_setNext, data_setPrev]

@[simp] theorem fresh_insertBefore (n : ℕ) (mark : Option ℕ) :
    (h.insertBefore n mark).fresh = h.fresh := by
  rw [insertBefore.eq_def]
  split
  · rfl
  · dsimp only
    split <;> rfl

/-- A new node is put before the first one. -/
theorem insertBefore_spec (hl : h.links.Linked l) (hnodup : l.Nodup)
    (hprev : ∀ r ∈ l.head?, (h.node r).prev = none) (ha : a ∉ l) (hnext : (h.node a).next = none)
    (hnew : (h.node a).prev = none) :
    (h.insertBefore a l.head?).links.Linked (a :: l) ∧
      ((h.insertBefore a l.head?).node a).prev = none := by
  cases l with
  | nil => exact ⟨hnext, hnew⟩
  | cons r l =>
    have hra : r ≠ a := fun heq => ha (heq ▸ List.mem_cons_self)
    have hlinks : (h.insertBefore a (some r)).links =
        (h.links.setPrev (some r) (some a)).setNext (some a) (some r) := by
      rw [insertBefore.eq_def]
      dsimp only
      rw [hprev r rfl]
      simp only [links_setNext, links_setPrev]
    rw [List.head?_cons]
    refine ⟨⟨?_, ?_, ?_⟩, ?_⟩
    · rw [hlinks, Links.next_setNext, if_pos rfl]
    · rw [hlinks, Links.prev_setNext, Links.prev_setPrev, if_pos rfl]
    · refine hl.congr (fun y hy => ?_) fun y hy => ?_
      · rw [hlinks, Links.next_setNext, if_neg, Links.next_setPrev]
        rintro ⟨⟩
        exact ha hy
      · rw [hlinks, Links.prev_setNext, Links.prev_setPrev, if_neg]
        rintro ⟨⟩
        exact (List.nodup_cons.mp hnodup).1 hy
    · refine (congrArg (fun L : Links ℕ => L.prev a) hlinks).trans ?_
      rw [Links.prev_setNext, Links.prev_setPrev, if_neg fun heq => hra (Option.some.inj heq)]
      exact hnew

theorem data_new (value : Option (Value I O)) (matching : Option ℕ) (id : ℕ) :
    (h.new value matching id).data = Function.update h.data h.fresh (value, matching, id) := by
  funext x
  simp only [data, new, Function.update_apply]
  split_ifs <;> rfl

/-- A new node, before the first one of a list. -/
theorem insertBefore_new (hl : h.links.Linked l) (hnodup : l.Nodup)
    (hprev : ∀ r ∈ l.head?, (h.node r).prev = none) (hfresh : h.fresh ∉ l)
    (value : Option (Value I O)) (matching : Option ℕ) (id : ℕ) :
    ((h.new value matching id).insertBefore h.fresh l.head?).links.Linked (h.fresh :: l) ∧
      (((h.new value matching id).insertBefore h.fresh l.head?).node h.fresh).prev = none := by
  have hold : ∀ y ∈ l, (h.new value matching id).node y = h.node y := by
    intro y hy
    refine Function.update_of_ne ?_ ..
    rintro rfl
    exact hfresh hy
  have hself : (h.new value matching id).node h.fresh = ⟨value, matching, id, none, none⟩ :=
    Function.update_self ..
  refine insertBefore_spec (hl.congr (fun y hy => ?_) fun y hy => ?_) hnodup (fun r hr => ?_) hfresh
    (by rw [hself]) (by rw [hself])
  · exact congrArg Node.next (hold y hy)
  · exact congrArg Node.prev (hold y (List.mem_of_mem_tail hy))
  · rw [hold r (List.mem_of_mem_head? hr)]
    exact hprev r hr

end Heap

/-- The address that `makeLinkedEntries` gives to an entry. -/
def address : List (Entry I O) → EntryKind → ℕ → Option ℕ
  | [], _, _ => none
  | elem :: entries, kind, id =>
    if elem.kind = kind ∧ elem.id = id then some entries.length else address entries kind id

/-- What `makeLinkedEntries` writes to the nodes. -/
def nodeData : List (Entry I O) → ℕ → Option (Value I O) × Option ℕ × ℕ
  | [] => fun _ => (none, none, 0)
  | elem :: entries => Function.update (nodeData entries) entries.length
      (some elem.value, match elem.kind with
        | .returnEntry => none
        | .callEntry => address entries .returnEntry elem.id, elem.id)

/-- What the variables of the loop are when it has come to `entries`. -/
structure LinkedEntries.Spec (entries : List (Entry I O)) (b : LinkedEntries I O) : Prop where
  fresh : b.heap.fresh = entries.length
  root : b.root = (List.range entries.length).reverse.head?
  matching : b.matching = address entries .returnEntry
  data : b.heap.data = nodeData entries
  linked : b.heap.links.Linked (List.range entries.length).reverse
  first : ∀ r ∈ (List.range entries.length).reverse.head?, (b.heap.node r).prev = none

/-- One more node, whatever kind of entry it is for. -/
theorem LinkedEntries.Spec.cons {entries : List (Entry I O)} {b : LinkedEntries I O}
    (h : b.Spec entries) (elem : Entry I O) {m : Option ℕ} {matching : ℕ → Option ℕ}
    (hm : m = match elem.kind with
      | .returnEntry => none
      | .callEntry => address entries .returnEntry elem.id)
    (hmatching : matching = address (elem :: entries) .returnEntry) :
    LinkedEntries.Spec (elem :: entries)
      ⟨(b.heap.new (some elem.value) m elem.id).insertBefore b.heap.fresh b.root,
        some b.heap.fresh, matching⟩ := by
  have hrange : (List.range (elem :: entries).length).reverse =
      entries.length :: (List.range entries.length).reverse := by
    rw [List.length_cons, List.range_succ, List.reverse_append, List.reverse_singleton,
      List.singleton_append]
  have hfresh : b.heap.fresh ∉ (List.range entries.length).reverse := by
    rw [h.fresh, List.mem_reverse, List.mem_range]
    exact Nat.lt_irrefl _
  obtain ⟨hlinked, hprev⟩ := Heap.insertBefore_new h.linked
    (List.nodup_reverse.mpr List.nodup_range) h.first hfresh (some elem.value) m elem.id
  rw [← h.root] at hlinked hprev
  refine ⟨?_, ?_, hmatching, ?_, ?_, ?_⟩
  · rw [Heap.fresh_insertBefore]
    exact congrArg (· + 1) h.fresh
  · rw [hrange, List.head?_cons, h.fresh]
  · rw [Heap.data_insertBefore, Heap.data_new, h.data, h.fresh, hm, nodeData]
  · rw [hrange]
    rwa [h.fresh] at hlinked ⊢
  · intro r hr
    rw [hrange, List.head?_cons, ← h.fresh] at hr
    rwa [← Option.mem_some.mp hr]

theorem LinkedEntries.Spec.link {entries : List (Entry I O)} {b : LinkedEntries I O}
    (h : b.Spec entries) (elem : Entry I O) : (linkEntry elem b).Spec (elem :: entries) := by
  rw [linkEntry.eq_def]
  cases hkind : elem.kind with
  | returnEntry =>
    refine h.cons elem (by rw [hkind]) ?_
    funext id
    rw [Function.update_apply, h.matching, address, hkind]
    simp only [true_and, @eq_comm _ id, h.fresh]
  | callEntry =>
    refine h.cons elem (by rw [hkind, h.matching]) ?_
    funext id
    rw [h.matching, address, hkind, if_neg (fun hc => nomatch hc.1)]

/-- **`makeLinkedEntries`** links the nodes in the order of the entries. -/
theorem makeLinkedEntries_spec (entries : List (Entry I O)) :
    (makeLinkedEntries entries).Spec entries := by
  induction entries with
  | nil => exact ⟨rfl, rfl, rfl, rfl, trivial, nofun⟩
  | cons elem entries ih => exact ih.link elem

/-! ### Addresses -/

/-- Entries are told apart by what they are and by their operation. -/
def Entry.key (e : Entry I O) : EntryKind × ℕ := (e.kind, e.id)

/-- The address of an entry. -/
def addr (entries : List (Entry I O)) (e : Entry I O) : ℕ :=
  (address entries e.kind e.id).getD 0

variable {entries l₁ l₂ : List (Entry I O)} {e : Entry I O}

theorem address_append (hkeys : ((l₁ ++ l₂).map Entry.key).Nodup) (he : e ∈ l₂) :
    address (l₁ ++ l₂) e.kind e.id = address l₂ e.kind e.id := by
  induction l₁ with
  | nil => rfl
  | cons x l₁ ih =>
    rw [List.cons_append, List.map_cons, List.nodup_cons] at hkeys
    have hne : ¬(x.kind = e.kind ∧ x.id = e.id) := by
      rintro ⟨hkind, hid⟩
      refine hkeys.1 (List.mem_map.mpr ⟨e, List.mem_append_right _ he, ?_⟩)
      rw [Entry.key, Entry.key, hkind, hid]
    rw [List.cons_append, address, if_neg hne, ih hkeys.2]

theorem address_split (hkeys : ((l₁ ++ e :: l₂).map Entry.key).Nodup) :
    address (l₁ ++ e :: l₂) e.kind e.id = some l₂.length := by
  rw [address_append hkeys List.mem_cons_self, address, if_pos ⟨rfl, rfl⟩]

theorem addr_split (hkeys : ((l₁ ++ e :: l₂).map Entry.key).Nodup) :
    addr (l₁ ++ e :: l₂) e = l₂.length := by
  rw [addr, address_split hkeys, Option.getD_some]

theorem address_eq_addr (hkeys : (entries.map Entry.key).Nodup) (he : e ∈ entries) :
    address entries e.kind e.id = some (addr entries e) := by
  obtain ⟨l₁, l₂, rfl⟩ := List.append_of_mem he
  rw [addr, address_split hkeys, Option.getD_some]

theorem map_addr (hkeys : (entries.map Entry.key).Nodup) :
    entries.map (addr entries) = (List.range entries.length).reverse := by
  induction entries with
  | nil => rfl
  | cons e l ih =>
    have htail : l.map (addr (e :: l)) = l.map (addr l) := by
      refine List.map_congr_left fun x hx => ?_
      rw [addr, ← List.singleton_append, address_append hkeys hx, addr]
    have hself : addr ([] ++ e :: l) e = l.length := addr_split hkeys
    rw [List.nil_append] at hself
    rw [List.map_cons, hself, htail, ih (List.nodup_cons.mp hkeys).2, List.length_cons,
      List.range_succ, List.reverse_append, List.reverse_singleton, List.singleton_append]

theorem nodeData_addr (hkeys : ((l₁ ++ e :: l₂).map Entry.key).Nodup) :
    nodeData (l₁ ++ e :: l₂) (addr (l₁ ++ e :: l₂) e) =
      (some e.value, match e.kind with
        | .returnEntry => none
        | .callEntry => address l₂ .returnEntry e.id, e.id) := by
  rw [addr_split hkeys]
  clear hkeys
  induction l₁ with
  | nil => exact Function.update_self ..
  | cons x l₁ ih =>
    rw [List.cons_append, nodeData, Function.update_of_ne, ih]
    rw [List.length_append, List.length_cons]
    omega

end RaftKVDB
