import Mathlib.Algebra.Group.Nat.Defs
import RaftKVDB.Linearizability.Bitset
import RaftKVDB.Linearizability.Entries

/-!
# The search for an order

`checkSingle` looks for an order of the operations of a history which the model accepts. It tries to
put next an operation that was called before any of the others returned, takes its nodes out of the
list, and goes back when it comes to a return. It remembers the sets of operations and the states
that it has come to.

One turn of its loop is `Checker.next`. What `Step` is given comes out of the list of nodes, where
it may be anything, and a `Step` that is given something else than it expects panics.
-/

namespace RaftKVDB

open Foundations

variable {I O S : Type}

/-- `cacheEntry`. -/
structure CacheEntry (S : Type) where
  linearized : Bitset
  state : S

/-- `callsEntry`. -/
structure CallsEntry (S : Type) where
  entry : ℕ
  state : S

/-- `map[uint64][]cacheEntry`. -/
abbrev Cache (S : Type) := UInt64 → List (CacheEntry S)

/-- `cacheContains`. -/
def cacheContains (model : Model I O S) (cache : Cache S) (entry : CacheEntry S) : Bool :=
  (cache entry.linearized.hash).any fun elem =>
    entry.linearized.equals elem.linearized && model.equal entry.state elem.state

/-- The variables of the loop of `checkSingle`; the top of `calls` comes first. -/
structure Checker (I O S : Type) where
  heap : Heap I O
  headEntry : ℕ
  entry : Option ℕ
  linearized : Bitset
  cache : Cache S
  calls : List (CallsEntry S)
  state : S

namespace Checker

/-- The variables at the start of the loop, for a list of a length. -/
def start (model : Model I O S) (heap : Heap I O) (subhistory : Option ℕ) (length : ℕ) :
    Checker I O S where
  heap := (heap.new none none (2 ^ 64 - 1)).insertBefore heap.fresh subhistory
  headEntry := heap.fresh
  entry := subhistory
  linearized := Bitset.newBitset (length / 2)
  cache _ := []
  calls := []
  state := model.init

/-- `entry = entry.next`. -/
def skip (c : Checker I O S) (entry : ℕ) : Checker I O S :=
  { c with entry := (c.heap.node entry).next }

/-- The new configuration is remembered, and the operation is put in the order. -/
def push (c : Checker I O S) (entry : ℕ) (newCacheEntry : CacheEntry S) :
    Except Fault (Checker I O S) := do
  let hash := newCacheEntry.linearized.hash
  let linearized ← c.linearized.set (c.heap.node entry).id
  let heap ← c.heap.lift entry
  return { c with
    cache := Function.update c.cache hash (c.cache hash ++ [newCacheEntry])
    calls := ⟨entry, c.state⟩ :: c.calls
    state := newCacheEntry.state
    linearized := linearized
    heap := heap
    entry := (heap.node c.headEntry).next }

/-- The branch of a call. -/
def tryCall (model : Model I O S) (c : Checker I O S) (entry matching : ℕ) :
    Except Fault (Checker I O S) :=
  match (c.heap.node entry).value, (c.heap.node matching).value with
  | some (.input input), some (.output output) =>
    let (ok, newState) := model.step c.state input output
    if ok then do
      let newLinearized ← c.linearized.set (c.heap.node entry).id
      let newCacheEntry := ⟨newLinearized, newState⟩
      if !cacheContains model c.cache newCacheEntry then c.push entry newCacheEntry
      else return c.skip entry
    else .ok (c.skip entry)
  | _, _ => .error .panic

/-- The branch of a return. -/
def backtrack (c : Checker I O S) : Except Fault (Bool ⊕ Checker I O S) :=
  match c.calls with
  | [] => .ok (.inl false)
  | callsTop :: calls => do
    let linearized ← c.linearized.clear (c.heap.node callsTop.entry).id
    let heap ← c.heap.unlift callsTop.entry
    return .inr { c with
      state := callsTop.state
      linearized := linearized
      calls := calls
      heap := heap
      entry := (heap.node callsTop.entry).next }

/-- One turn of the loop: the result of `checkSingle`, or what the variables are after it. -/
def next (model : Model I O S) (kill : Bool) (c : Checker I O S) :
    Except Fault (Bool ⊕ Checker I O S) :=
  match (c.heap.node c.headEntry).next with
  | none => .ok (.inl true)
  | some _ =>
    if kill then .ok (.inl false)
    else do
      let entry ← Heap.deref c.entry
      match (c.heap.node entry).matching with
      | some matching => return .inr (← c.tryCall model entry matching)
      | none => c.backtrack

end Checker

/-- The loop of `checkSingle`, as long as nobody sets `kill`. -/
def checkLoop (model : Model I O S) : ℕ → Checker I O S → Except Fault (Option Bool)
  | 0, _ => .ok none
  | fuel + 1, c => do
    match ← c.next model false with
    | .inl result => return some result
    | .inr c => checkLoop model fuel c

/-- `checkSingle`, as long as nobody sets `kill`. -/
def checkSingle (model : Model I O S) (fuel : ℕ) (heap : Heap I O) (subhistory : Option ℕ) :
    Except Fault (Option Bool) :=
  match heap.length fuel subhistory with
  | some length => checkLoop model fuel (Checker.start model heap subhistory length)
  | none => .ok none

end RaftKVDB
