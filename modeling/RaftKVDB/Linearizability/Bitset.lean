import RaftKVDB.Raft.Cluster

/-!
# Bit sets

The sets of operations that the checker keeps, as slices of `uint64`.

## Main results

* `Bitset.has_insert` — what `set` adds
* `Bitset.clear_insert` — `clear` undoes `set`
-/

namespace RaftKVDB

/-- `bitset`. -/
structure Bitset where
  words : List UInt64
  deriving DecidableEq, Repr

namespace Bitset

/-- `newBitset`. -/
def newBitset (bits : ℕ) : Bitset :=
  ⟨List.replicate (bits / 64 + if bits % 64 ≠ 0 then 1 else 0) 0⟩

/-- `1 << minor`. -/
def mask (minor : ℕ) : UInt64 := 1 <<< UInt64.ofNat minor

/-- Change the word of an element. -/
def atWord (b : Bitset) (pos : ℕ) (f : UInt64 → UInt64) : Except Fault Bitset :=
  match b.words[pos / 64]? with
  | some word => .ok ⟨b.words.set (pos / 64) (f word)⟩
  | none => .error .panic

/-- `set`. -/
def set (b : Bitset) (pos : ℕ) : Except Fault Bitset := b.atWord pos (· ||| mask (pos % 64))

/-- `clear`. -/
def clear (b : Bitset) (pos : ℕ) : Except Fault Bitset := b.atWord pos (· &&& ~~~mask (pos % 64))

/-- The loop of `popcnt`, for one word. -/
def popcntWord (v : UInt64) : UInt64 :=
  let v : UInt64 :=
    (v &&& (0x5555555555555555 : UInt64)) + ((v &&& (0xAAAAAAAAAAAAAAAA : UInt64)) >>> 1)
  let v : UInt64 :=
    (v &&& (0x3333333333333333 : UInt64)) + ((v &&& (0xCCCCCCCCCCCCCCCC : UInt64)) >>> 2)
  let v : UInt64 :=
    (v &&& (0x0F0F0F0F0F0F0F0F : UInt64)) + ((v &&& (0xF0F0F0F0F0F0F0F0 : UInt64)) >>> 4)
  let v : UInt64 := v * 0x0101010101010101
  (v >>> 56) &&& 0xFF

/-- `popcnt`. -/
def popcnt (b : Bitset) : UInt64 := b.words.foldl (fun total v => total + popcntWord v) 0

/-- `hash`. -/
def hash (b : Bitset) : UInt64 := b.words.foldl (fun hash v => hash ^^^ v) b.popcnt

/-- `equals`. -/
def equals (b b2 : Bitset) : Bool :=
  b.words.length == b2.words.length && (b.words.zip b2.words).all fun v => v.1 == v.2

/-! ### Elements -/

/-- The element is in the set. -/
def has (b : Bitset) (pos : ℕ) : Bool := (b.words.getD (pos / 64) 0).toBitVec.getLsbD (pos % 64)

/-- What `set` comes to if the element is in range. -/
def insert (b : Bitset) (pos : ℕ) : Bitset :=
  ⟨b.words.set (pos / 64) (b.words.getD (pos / 64) 0 ||| mask (pos % 64))⟩

variable {b b2 : Bitset} {pos i : ℕ}

theorem getLsbD_mask {minor k : ℕ} (hminor : minor < 64) (hk : k < 64) :
    (mask minor).toBitVec.getLsbD k = decide (k = minor) := by
  simp only [mask, UInt64.toBitVec_shiftLeft, UInt64.toBitVec_ofNat', UInt64.toBitVec_one,
    BitVec.getLsbD_shiftLeft', BitVec.getLsbD_one, BitVec.toNat_umod, BitVec.toNat_ofNat]
  grind

theorem set_eq (h : pos / 64 < b.words.length) : b.set pos = .ok (b.insert pos) := by
  rw [set, atWord, List.getElem?_eq_getElem h, insert, List.getD_eq_getElem?_getD,
    List.getElem?_eq_getElem h, Option.getD_some]

@[simp] theorem length_insert : (b.insert pos).words.length = b.words.length := List.length_set

theorem has_insert (h : pos / 64 < b.words.length) (i : ℕ) :
    (b.insert pos).has i = (decide (i = pos) || b.has i) := by
  rw [has, insert, has, List.getD_eq_getElem?_getD, List.getD_eq_getElem?_getD]
  by_cases hword : i / 64 = pos / 64
  · rw [hword, List.getElem?_set_self h, Option.getD_some, UInt64.toBitVec_or, BitVec.getLsbD_or,
      getLsbD_mask (Nat.mod_lt _ (by decide)) (Nat.mod_lt _ (by decide)), Bool.or_comm]
    congr 1
    exact decide_eq_decide.mpr (by omega)
  · rw [List.getElem?_set_ne (Ne.symm hword), decide_eq_false (by rintro rfl; exact hword rfl),
      Bool.false_or, List.getD_eq_getElem?_getD]

theorem and_not_mask {w : UInt64} {minor : ℕ} (hminor : minor < 64)
    (hnew : w.toBitVec.getLsbD minor = false) : (w ||| mask minor) &&& ~~~mask minor = w := by
  refine UInt64.toBitVec_inj.mp (BitVec.eq_of_getLsbD_eq fun k hk => ?_)
  rw [UInt64.toBitVec_and, UInt64.toBitVec_or, UInt64.toBitVec_not, BitVec.getLsbD_and,
    BitVec.getLsbD_or, BitVec.getLsbD_not, getLsbD_mask hminor hk, decide_eq_true hk]
  by_cases heq : k = minor
  · rw [heq, hnew, decide_eq_true rfl, Bool.or_true, Bool.not_true, Bool.and_false, Bool.and_false]
  · rw [decide_eq_false heq, Bool.or_false, Bool.not_false, Bool.and_true, Bool.and_true]

/-- **`clear` undoes `set`.** -/
theorem clear_insert (h : pos / 64 < b.words.length) (hnew : b.has pos = false) :
    (b.insert pos).clear pos = .ok b := by
  rw [clear, atWord, insert, List.getElem?_set_self h]
  dsimp only
  rw [List.set_set, and_not_mask (Nat.mod_lt _ (by decide)) hnew, List.getD_eq_getElem?_getD,
    List.getElem?_eq_getElem h, Option.getD_some, List.set_getElem_self]

theorem equals_iff : b.equals b2 = true ↔ b = b2 := by
  obtain ⟨l⟩ := b
  obtain ⟨l'⟩ := b2
  rw [mk.injEq, equals, Bool.and_eq_true, beq_iff_eq]
  induction l generalizing l' with
  | nil => cases l' <;> simp
  | cons w l ih => cases l' with
    | nil => simp
    | cons w' l' =>
      simp only [List.length_cons, List.zip_cons_cons, List.all_cons, Nat.succ_inj, List.cons.injEq,
        Bool.and_eq_true, beq_iff_eq, ← ih]
      exact and_left_comm

theorem has_newBitset (bits : ℕ) : (newBitset bits).has pos = false := by
  rw [has, newBitset, List.getD_eq_getElem?_getD, List.getElem?_replicate]
  split_ifs <;> exact BitVec.getLsbD_zero

theorem lt_length_newBitset {bits : ℕ} (h : pos < bits) :
    pos / 64 < (newBitset bits).words.length := by
  rw [newBitset, List.length_replicate]
  split_ifs <;> omega

end Bitset

end RaftKVDB
