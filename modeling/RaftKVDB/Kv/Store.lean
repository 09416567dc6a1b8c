import Mathlib.Data.Finmap
import Mathlib.Logic.Equiv.Multiset
import RaftKVDB.Raft.State

/-!
# The store

What the key/value servers replicate: `Kvdb`, and `DupMap`, which remembers for each client the
highest command that was applied. `Kv.enact` is what `dealWithApplyMsg` does to the two when a
command arrives, `Kv.after` the result of the commands of a log in order.

Go's maps are finite maps, and two of them are equal when they have the same entries. The numbers of
clients and commands are natural numbers; the source's are `uint64`, and a client would have to make
`2^64` calls for its `nextSeq` to come round.

A snapshot is the two maps as `gob` encodes them. `Gob` is what is assumed of such a codec: that it
gives back what it was given, and never an empty text.
-/

namespace RaftKVDB

/-- `CmdType`. -/
inductive CmdType
  | get
  | put
  | append
  deriving DecidableEq, Repr

/-- `Op`. -/
structure Op where
  cmdType : CmdType
  key : String
  val : String
  clientID : ℕ
  cmdID : ℕ
  deriving DecidableEq, Repr

/-- `Kvdb` and `DupMap` of a `KVServer`. -/
@[ext]
structure Kv where
  kvdb : Finmap fun _ : String => String
  dupMap : Finmap fun _ : ℕ => ℕ
  deriving DecidableEq

namespace Kv

/-- Both maps as `StartKVServer` makes them. -/
def empty : Kv := ⟨∅, ∅⟩

/-- `seenCmd`. -/
def seenCmd (kv : Kv) (clientID cmdID : ℕ) : Bool :=
  match kv.dupMap.lookup clientID with
  | none => false
  | some lastCmd => decide (cmdID ≤ lastCmd)

/-- What a command does to `Kvdb`. Appending to a key that is not there makes it. -/
def perform (kvdb : Finmap fun _ : String => String) (operation : Op) :
    Finmap fun _ : String => String :=
  match operation.cmdType with
  | .put => kvdb.insert operation.key operation.val
  | .append => kvdb.insert operation.key ((kvdb.lookup operation.key).getD "" ++ operation.val)
  | .get => kvdb

/-- Whether a command is newer than what its client has had performed. -/
def isNew (kv : Kv) (operation : Op) : Bool :=
  match kv.dupMap.lookup operation.clientID with
  | none => true
  | some recordedCmdID => decide (recordedCmdID < operation.cmdID)

/-- What `dealWithApplyMsg` does with a command. -/
def enact (kv : Kv) (operation : Op) : Kv :=
  if kv.isNew operation then
    ⟨perform kv.kvdb operation, kv.dupMap.insert operation.clientID operation.cmdID⟩
  else kv

/-- The result of the commands of `log`, in order. -/
def after (log : List Op) : Kv := log.foldl enact empty

theorem after_append_singleton (log : List Op) (operation : Op) :
    after (log ++ [operation]) = (after log).enact operation := by
  simp [after]

theorem after_take_succ {log : List Op} {k : ℕ} {operation : Op} (h : log[k]? = some operation) :
    after (log.take (k + 1)) = (after (log.take k)).enact operation := by
  rw [List.take_add_one, h, Option.toList_some, after_append_singleton]

end Kv

/-! ### Snapshots -/

/-- A codec for snapshots of the state `S`. -/
structure Gob (S : Type) where
  encode : S → List UInt8
  decode : List UInt8 → S
  decode_encode : ∀ s, decode (encode s) = s
  encode_ne_nil : ∀ s, encode s ≠ []

/-- `dealWithApplyMsg`, as far as `Kvdb` and `DupMap` go. A command that is `nil` is a panic. -/
def Kv.dealWithApplyMsg (gob : Gob Kv) (kv : Kv) (appliedMsg : ApplyMsg Op) : Option Kv :=
  if appliedMsg.commandValid then appliedMsg.command.map kv.enact
  else some (gob.decode appliedMsg.snapShot)

/-- There are such codecs wherever the states can be numbered: the number in unary. -/
def Gob.unary (S : Type) [Encodable S] [Inhabited S] : Gob S where
  encode s := 0 :: List.replicate (Encodable.encode s) 0
  decode text := (Encodable.decode (text.length - 1)).getD default
  decode_encode s := by simp
  encode_ne_nil s := by simp

instance encodableChar : Encodable Char := .ofLeftInverse Char.toNat Char.ofNat Char.ofNat_toNat

instance encodableString : Encodable String :=
  .ofLeftInverse String.toList String.ofList fun _ => String.ofList_toList

instance encodableFinmap {K V : Type} [DecidableEq K] [Encodable K] [Encodable V] :
    Encodable (Finmap fun _ : K => V) :=
  .ofLeftInjection Finmap.entries
    (fun m => if h : m.keys.Nodup then some ⟨m, Multiset.nodup_keys.mp h⟩ else none)
    fun f => dif_pos f.nodupKeys.nodup_keys

instance : Encodable Kv :=
  .ofLeftInverse (fun kv => (kv.kvdb, kv.dupMap)) (fun m => ⟨m.1, m.2⟩) fun _ => rfl

instance : Inhabited Kv := ⟨Kv.empty⟩

end RaftKVDB
