import RaftKVDB.Foundations.Rounds
import RaftKVDB.Kv.Sessions
import RaftKVDB.Raft.Cluster

/-!
# The key/value server

A `KVServer` between the clients' requests and the log: the handlers `Get` and `PutAppend` with
`enterOperation`, and `dealWithApplyMsg`. All of them are goroutines, so each is taken apart where
another may come in between: where `kv.mu` is taken, where a channel is used, and where Raft is
asked. What Raft answers is not determined here.

The channels of `applyStub` outlive their entry in the map, so they are numbered in the order they
are made and the map holds their numbers. `dealWithApplyMsg` sends on such a channel with `kv.mu`
held, and may have to wait there.

## Main results

* `KVServer.Knows.turn` — no handler takes an operation for done that its server was not given
* `KVServer.Knows.answered` — a reply is right after the commands that its server was given
-/

namespace RaftKVDB

open Foundations

/-! ### Channels -/

/-- `DoneMsg`. -/
structure DoneMsg where
  clientID : ℕ
  cmdID : ℕ
  deriving DecidableEq, Repr

/-- A `chan DoneMsg` with room for one message. -/
structure DoneCh where
  buffer : Option DoneMsg
  closed : Bool
  deriving DecidableEq, Repr

namespace DoneCh

/-- `make(chan DoneMsg, 1)`. -/
def make : DoneCh := ⟨none, false⟩

/-- `<-ch`. A closed channel that is empty gives the zero message. -/
def receive (ch : DoneCh) : Except Fault (DoneMsg × DoneCh) :=
  match ch.buffer with
  | some doneMsg => .ok (doneMsg, { ch with buffer := none })
  | none => if ch.closed then .ok (⟨0, 0⟩, ch) else .error .disabled

/-- `ch <- doneMsg`. -/
def send (ch : DoneCh) (doneMsg : DoneMsg) : Except Fault DoneCh :=
  if ch.closed then .error .panic
  else if ch.buffer.isSome then .error .disabled
  else .ok { ch with buffer := some doneMsg }

/-- `close(ch)`. -/
def close (ch : DoneCh) : Except Fault DoneCh :=
  if ch.closed then .error .panic else .ok { ch with closed := true }

/-- `select { case <-ch: default: }`. -/
def drain (ch : DoneCh) : DoneCh := { ch with buffer := none }

variable {ch ch' : DoneCh} {doneMsg : DoneMsg}

theorem receive_eq_ok (h : ch.receive = .ok (doneMsg, ch')) :
    ch' = ch.drain ∧ (doneMsg ∈ ch.buffer ∨ ch.closed = true) := by
  rw [receive] at h
  split at h
  · rename_i hbuf
    cases h
    exact ⟨rfl, .inl hbuf⟩
  · rename_i hbuf
    split_ifs at h with hclosed
    cases h
    exact ⟨by rw [drain, ← hbuf], .inr hclosed⟩

theorem send_eq_ok (h : ch.send doneMsg = .ok ch') :
    ch.closed = false ∧ ch' = { ch with buffer := some doneMsg } := by
  rw [send] at h
  split_ifs at h with hclosed
  cases h
  exact ⟨Bool.eq_false_iff.mpr hclosed, rfl⟩

theorem close_eq_ok (h : ch.close = .ok ch') :
    ch.closed = false ∧ ch' = { ch with closed := true } := by
  rw [close] at h
  split_ifs at h with hclosed
  cases h
  exact ⟨Bool.eq_false_iff.mpr hclosed, rfl⟩

end DoneCh

/-! ### Requests -/

/-- What a client asks for. -/
inductive Request
  | get (key : String)
  | put (key value : String)
  | append (key value : String)
  deriving DecidableEq, Repr

/-- `GetArgs` or `PutAppendArgs`. -/
structure Args where
  request : Request
  clientID : ℕ
  cmdID : ℕ
  deriving DecidableEq, Repr

/-- The `Op` that the handler makes of its arguments. -/
def Args.operation (args : Args) : Op :=
  match args.request with
  | .get key => ⟨.get, key, "", args.clientID, args.cmdID⟩
  | .put key value => ⟨.put, key, value, args.clientID, args.cmdID⟩
  | .append key value => ⟨.append, key, value, args.clientID, args.cmdID⟩

/-- `Err`. -/
inductive Err
  | ok
  | errNoKey
  | errFail
  deriving DecidableEq, Repr

/-- `GetReply` or `PutAppendReply`; the latter has no value. -/
structure Reply where
  wrongLeader : Bool
  err : Err
  value : String
  deriving DecidableEq, Repr

/-- What `Clerk.Get` or `Clerk.PutAppend` returns when it gets a reply, unless it tries again.
`PutAppend` returns nothing. -/
def Args.output (args : Args) (reply : Reply) : Option (Option String) :=
  match args.request, reply.err with
  | .get _, .ok => some (some reply.value)
  | .get _, .errNoKey => some (some "")
  | .get _, .errFail => none
  | _, .ok => some none
  | _, _ => none

/-- Where a handler is: what it does next. Only a leader gets to `start` and from there to
`delete`. -/
inductive Pc
  | getState
  | seenCmd (isLeader : Bool)
  | start
  | stub (raftIdx : ℕ)
  | select (raftIdx doneCh : ℕ)
  | putBack (doneCh : ℕ) (doneMsg : DoneMsg)
  | close (raftIdx doneCh : ℕ)
  | delete (raftIdx : ℕ)
  | answer (isLeader opDone : Bool)
  | replied (reply : Reply)
  deriving DecidableEq, Repr

/-- What is not up to the handler: what `GetState` and `Start` return, and that `time.After` comes
first. -/
inductive Turn
  | run
  | raftState (isLeader : Bool)
  | raftStart (raftIdx : Option ℕ)
  | timeOut
  deriving DecidableEq, Repr

/-! ### The server -/

/-- `KVServer`. -/
structure KVServer where
  kv : Kv
  applyStub : ℕ → Option ℕ
  channels : List DoneCh
  /-- The channel and the message with which `dealWithApplyMsg` waits, holding `kv.mu`. -/
  sending : Option (ℕ × DoneMsg)

namespace KVServer

/-- `StartKVServer`. -/
def startKVServer : KVServer := ⟨Kv.empty, fun _ => none, [], none⟩

/-- What is done with `kv.mu` held by somebody else than `dealWithApplyMsg`. -/
def withLock {β : Type} (kv : KVServer) (b : β) : Except Fault β :=
  if kv.sending.isSome then .error .disabled else .ok b

/-- The channel of an index, made if there is none. -/
def stub (kv : KVServer) (raftIdx : ℕ) : KVServer × ℕ :=
  match kv.applyStub raftIdx with
  | some doneCh => (kv, doneCh)
  | none =>
    ({ kv with
        applyStub := Function.update kv.applyStub raftIdx (some kv.channels.length)
        channels := kv.channels ++ [DoneCh.make] }, kv.channels.length)

/-- The channel with a number. -/
def channel (kv : KVServer) (doneCh : ℕ) : DoneCh := kv.channels.getD doneCh DoneCh.make

/-- Put a channel in the place of another. -/
def setChannel (kv : KVServer) (doneCh : ℕ) (ch : DoneCh) : KVServer :=
  { kv with channels := kv.channels.set doneCh ch }

/-- A command has been performed: its channel is emptied, and a `DoneMsg` is about to be sent. -/
def report (kv : KVServer) (commandIndex : ℕ) (operation : Op) : KVServer :=
  let ch := (kv.stub commandIndex).2
  let kv := (kv.stub commandIndex).1
  { kv.setChannel ch (kv.channel ch).drain with
    sending := some (ch, ⟨operation.clientID, operation.cmdID⟩) }

/-- `dealWithApplyMsg` up to the sending of the `DoneMsg`. -/
def dealWithApplyMsg (gob : Gob Kv) (kv : KVServer) (appliedMsg : ApplyMsg Op) :
    Except Fault KVServer :=
  if kv.sending.isSome then .error .disabled
  else
    match kv.kv.dealWithApplyMsg gob appliedMsg with
    | none => .error .panic
    | some store =>
      match if appliedMsg.commandValid then appliedMsg.command else none with
      | some operation => .ok ({ kv with kv := store }.report appliedMsg.commandIndex operation)
      | none => .ok { kv with kv := store }

/-- The rest of `dealWithApplyMsg`: the `DoneMsg` is sent and `kv.mu` released. -/
def finishApplyMsg (kv : KVServer) : Except Fault KVServer :=
  match kv.sending with
  | none => .error .disabled
  | some (ch, doneMsg) => do
    let done ← (kv.channel ch).send doneMsg
    return { kv.setChannel ch done with sending := none }

/-- The reply of `Get` or `PutAppend`, once it is known whether the operation is done. -/
def reply (kv : KVServer) (args : Args) (isLeader opDone : Bool) : Reply :=
  if opDone then
    match args.request with
    | .get key =>
      match kv.kv.kvdb.lookup key with
      | some val => ⟨!isLeader, .ok, val⟩
      | none => ⟨!isLeader, .errNoKey, ""⟩
    | _ => ⟨!isLeader, .ok, ""⟩
  else ⟨!isLeader, .errFail, ""⟩

/-- Whether the handler takes `kv.mu` for its reply: `Get` does, to read a value. -/
def readsStore (args : Args) (opDone : Bool) : Bool :=
  match args.request with
  | .get _ => opDone
  | _ => false

/-- One turn of a handler of `Get` or `PutAppend`, `enterOperation` included. -/
def turn (kv : KVServer) (args : Args) : Pc → Turn → Except Fault (KVServer × Pc)
  | .getState, .raftState isLeader => .ok (kv, .seenCmd isLeader)
  | .seenCmd isLeader, .run =>
    let opDone := kv.kv.seenCmd args.clientID args.cmdID
    kv.withLock (kv, if !opDone && isLeader then .start else .answer isLeader opDone)
  | .start, .raftStart none => .ok (kv, .answer true false)
  | .start, .raftStart (some raftIdx) => .ok (kv, .stub raftIdx)
  | .stub raftIdx, .run =>
    let (kv', doneCh) := kv.stub raftIdx
    kv.withLock (kv', .select raftIdx doneCh)
  | .select raftIdx doneCh, .run => do
    let (doneMsg, ch) ← (kv.channel doneCh).receive
    return (kv.setChannel doneCh ch,
      if doneMsg.clientID = args.clientID ∧ doneMsg.cmdID = args.cmdID then .close raftIdx doneCh
      else .putBack doneCh doneMsg)
  | .select _ _, .timeOut => .ok (kv, .answer true false)
  | .putBack doneCh doneMsg, .run => do
    let ch ← (kv.channel doneCh).send doneMsg
    return (kv.setChannel doneCh ch, .answer true false)
  | .close raftIdx doneCh, .run => do
    let ch ← (kv.channel doneCh).close
    return (kv.setChannel doneCh ch, .delete raftIdx)
  | .delete raftIdx, .run =>
    kv.withLock ({ kv with applyStub := Function.update kv.applyStub raftIdx none },
      .answer true true)
  | .answer isLeader opDone, .run =>
    let replied := (kv, Pc.replied (kv.reply args isLeader opDone))
    if readsStore args opDone then kv.withLock replied else .ok replied
  | _, _ => .error .disabled

end KVServer

/-! ### What a server knows -/

/-- What an operation returns in a state of the store. -/
def Request.result (kv : Kv) : Request → Option String
  | .get key => some ((kv.kvdb.lookup key).getD "")
  | _ => none

/-- The output of an operation is right after the commands `known`, of which it is one. -/
def Answered (known : List Op) (args : Args) (output : Option String) : Prop :=
  Occurs known args.clientID args.cmdID ∧ output = args.request.result (Kv.after known)

/-- What a handler has learned about the commands `known`. A channel that is closed can also make it
believe things, but not get away with them. -/
def Pc.Justified (kv : KVServer) (known : List Op) (args : Args) : Pc → Prop
  | .putBack doneCh doneMsg =>
    (kv.channel doneCh).closed = true ∨ Occurs known doneMsg.clientID doneMsg.cmdID
  | .close _ doneCh =>
    (kv.channel doneCh).closed = true ∨ Occurs known args.clientID args.cmdID
  | .delete _ => Occurs known args.clientID args.cmdID
  | .answer _ opDone => opDone = true → Occurs known args.clientID args.cmdID
  | _ => True

namespace KVServer

/-- The store is what the commands `known` make, and only they are reported as done. -/
structure Knows (kv : KVServer) (known : List Op) : Prop where
  store : kv.kv = Kv.after known
  buffer : ∀ ch ∈ kv.channels, ∀ doneMsg ∈ ch.buffer, Occurs known doneMsg.clientID doneMsg.cmdID
  sending : ∀ x ∈ kv.sending, Occurs known x.2.clientID x.2.cmdID

/-- The channels that were closed still are. -/
def ClosedLe (kv kv' : KVServer) : Prop :=
  ∀ doneCh, (kv.channel doneCh).closed = true → (kv'.channel doneCh).closed = true

variable {kv kv' : KVServer} {known known' : List Op} {args : Args} {pc pc' : Pc} {t : Turn}
  {doneCh raftIdx : ℕ} {ch : DoneCh} {reply : Reply}

theorem withLock_eq_ok {β : Type} {b b' : β} (h : kv.withLock b = .ok b') : b = b' := by
  rw [withLock] at h
  split at h
  · cases h
  · exact Except.ok.inj h

theorem sending_of_withLock {β : Type} {b b' : β} (h : kv.withLock b = .ok b') :
    kv.sending = none := by
  rw [withLock] at h
  split at h
  · cases h
  · next hfree => simpa using hfree

/-- What a turn of a handler can do. -/
inductive Turned (kv : KVServer) (args : Args) : Pc → Turn → KVServer → Pc → Prop
  | getState (isLeader : Bool) :
    Turned kv args .getState (.raftState isLeader) kv (.seenCmd isLeader)
  | seenCmd (isLeader : Bool) : Turned kv args (.seenCmd isLeader) .run kv
      (if !kv.kv.seenCmd args.clientID args.cmdID && isLeader then .start
        else .answer isLeader (kv.kv.seenCmd args.clientID args.cmdID))
  | refused : Turned kv args .start (.raftStart none) kv (.answer true false)
  | started (raftIdx : ℕ) : Turned kv args .start (.raftStart (some raftIdx)) kv (.stub raftIdx)
  | stub (raftIdx : ℕ) (hfree : kv.sending = none) :
    Turned kv args (.stub raftIdx) .run (kv.stub raftIdx).1 (.select raftIdx (kv.stub raftIdx).2)
  | matched (raftIdx doneCh : ℕ) (doneMsg : DoneMsg)
      (hmsg : doneMsg ∈ (kv.channel doneCh).buffer ∨ (kv.channel doneCh).closed = true)
      (hid : doneMsg.clientID = args.clientID ∧ doneMsg.cmdID = args.cmdID) :
    Turned kv args (.select raftIdx doneCh) .run
      (kv.setChannel doneCh (kv.channel doneCh).drain) (.close raftIdx doneCh)
  | mismatched (raftIdx doneCh : ℕ) (doneMsg : DoneMsg)
      (hmsg : doneMsg ∈ (kv.channel doneCh).buffer ∨ (kv.channel doneCh).closed = true) :
    Turned kv args (.select raftIdx doneCh) .run
      (kv.setChannel doneCh (kv.channel doneCh).drain) (.putBack doneCh doneMsg)
  | timedOut (raftIdx doneCh : ℕ) :
    Turned kv args (.select raftIdx doneCh) .timeOut kv (.answer true false)
  | putBack (doneCh : ℕ) (doneMsg : DoneMsg) (hopen : (kv.channel doneCh).closed = false) :
    Turned kv args (.putBack doneCh doneMsg) .run
      (kv.setChannel doneCh { kv.channel doneCh with buffer := some doneMsg }) (.answer true false)
  | close (raftIdx doneCh : ℕ) (hopen : (kv.channel doneCh).closed = false) :
    Turned kv args (.close raftIdx doneCh) .run
      (kv.setChannel doneCh { kv.channel doneCh with closed := true }) (.delete raftIdx)
  | delete (raftIdx : ℕ) :
    Turned kv args (.delete raftIdx) .run
      { kv with applyStub := Function.update kv.applyStub raftIdx none } (.answer true true)
  | answer (isLeader opDone : Bool) :
    Turned kv args (.answer isLeader opDone) .run kv (.replied (kv.reply args isLeader opDone))

theorem turned (h : kv.turn args pc t = .ok (kv', pc')) : kv.Turned args pc t kv' pc' := by
  rw [turn.eq_def] at h
  split at h
  · cases h
    exact .getState _
  · cases withLock_eq_ok h
    exact .seenCmd _
  · cases h
    exact .refused
  · cases h
    exact .started _
  · have hfree := sending_of_withLock h
    cases withLock_eq_ok h
    exact .stub _ hfree
  · obtain ⟨⟨doneMsg, ch⟩, hrecv, h⟩ := bind_eq_ok.mp h
    obtain ⟨rfl, hmsg⟩ := DoneCh.receive_eq_ok hrecv
    cases h
    split
    · next hid => exact .matched _ _ doneMsg hmsg hid
    · exact .mismatched _ _ doneMsg hmsg
  · cases h
    exact .timedOut _ _
  · obtain ⟨ch, hsend, h⟩ := bind_eq_ok.mp h
    obtain ⟨hopen, rfl⟩ := DoneCh.send_eq_ok hsend
    cases h
    exact .putBack _ _ hopen
  · obtain ⟨ch, hclose, h⟩ := bind_eq_ok.mp h
    obtain ⟨hopen, rfl⟩ := DoneCh.close_eq_ok hclose
    cases h
    exact .close _ _ hopen
  · cases withLock_eq_ok h
    exact .delete _
  · dsimp only at h
    split_ifs at h
    · cases withLock_eq_ok h
      exact .answer _ _
    · cases h
      exact .answer _ _
  · cases h

/-- A clerk returns what the operation returns in the server's store, if it is done. -/
theorem output_reply (kv : KVServer) (args : Args) (isLeader opDone : Bool) :
    args.output (kv.reply args isLeader opDone) =
      if opDone then some (args.request.result kv.kv) else none := by
  obtain ⟨request, c, m⟩ := args
  rw [reply]
  cases opDone with
  | false => cases request <;> rfl
  | true =>
    cases request with
    | get key => cases hval : kv.kv.kvdb.lookup key <;> simp [Args.output, Request.result, hval]
    | _ => rfl

/-- A handler replies in its last turn. -/
theorem replied_of_turn (h : kv.turn args pc t = .ok (kv', .replied reply)) :
    ∃ isLeader opDone, pc = .answer isLeader opDone ∧ reply = kv.reply args isLeader opDone := by
  generalize heq : Pc.replied reply = pc' at h
  cases turned h with
  | answer isLeader opDone => exact ⟨isLeader, opDone, rfl, Pc.replied.inj heq⟩
  | seenCmd => split at heq <;> cases heq
  | _ => cases heq

theorem knows_startKVServer : startKVServer.Knows [] := ⟨rfl, nofun, nofun⟩

theorem ClosedLe.refl (kv : KVServer) : kv.ClosedLe kv := fun _ => id

theorem ClosedLe.of_channels (h : kv'.channels = kv.channels) : kv.ClosedLe kv' := by
  intro doneCh hclosed
  rwa [channel, h]

theorem ClosedLe.setChannel (doneCh : ℕ)
    (h : (kv.channel doneCh).closed = true → ch.closed = true) :
    kv.ClosedLe (kv.setChannel doneCh ch) := by
  intro d hd
  rw [channel, KVServer.setChannel, List.getD_eq_getElem?_getD, List.getElem?_set]
  split_ifs with heq hlt
  · exact h (heq ▸ hd)
  · -- the channel does not exist, so it was not closed
    rw [channel, List.getD_eq_getElem?_getD, List.getElem?_eq_none (by omega)] at hd
    cases hd
  · rwa [channel, List.getD_eq_getElem?_getD] at hd

theorem ClosedLe.stub (kv : KVServer) (raftIdx : ℕ) : kv.ClosedLe (kv.stub raftIdx).1 := by
  intro d hd
  rw [KVServer.stub]
  split
  · exact hd
  · rw [channel, List.getD_eq_getElem?_getD] at hd ⊢
    dsimp only
    rw [List.getElem?_append]
    split_ifs with hlt
    · exact hd
    · rw [List.getElem?_eq_none (by omega)] at hd
      cases hd

theorem ClosedLe.report (kv : KVServer) (index : ℕ) (operation : Op) :
    kv.ClosedLe (kv.report index operation) := by
  intro d hd
  have hset : (kv.stub index).1.ClosedLe ((kv.stub index).1.setChannel (kv.stub index).2
      ((kv.stub index).1.channel (kv.stub index).2).drain) := .setChannel _ id
  exact hset d (ClosedLe.stub kv index d hd)

namespace Knows

theorem of_buffer (h : kv.Knows known) {doneMsg : DoneMsg}
    (hmsg : doneMsg ∈ (kv.channel doneCh).buffer) :
    Occurs known doneMsg.clientID doneMsg.cmdID := by
  rw [channel, List.getD_eq_getElem?_getD] at hmsg
  cases hch : kv.channels[doneCh]? with
  | none =>
    rw [hch] at hmsg
    cases hmsg
  | some ch =>
    rw [hch] at hmsg
    exact h.buffer ch (List.mem_of_getElem? hch) doneMsg hmsg

theorem setChannel (h : kv.Knows known) (doneCh : ℕ)
    (hch : ∀ doneMsg ∈ ch.buffer, Occurs known doneMsg.clientID doneMsg.cmdID) :
    (kv.setChannel doneCh ch).Knows known where
  store := h.store
  sending := h.sending
  buffer x hx := by
    rcases List.mem_or_eq_of_mem_set hx with hx | rfl
    · exact h.buffer x hx
    · exact hch

theorem stub (h : kv.Knows known) (raftIdx : ℕ) : (kv.stub raftIdx).1.Knows known := by
  rw [KVServer.stub]
  split
  · exact h
  · refine ⟨h.store, fun x hx => ?_, h.sending⟩
    rcases List.mem_append.mp hx with hx | hx
    · exact h.buffer x hx
    · obtain rfl := List.mem_singleton.mp hx
      exact nofun

/-- **A turn of a handler** leaves the handler with what it may believe. -/
theorem turn (h : kv.Knows known) (hord : Orderly known) (hpc : pc.Justified kv known args)
    (hturn : kv.turn args pc t = .ok (kv', pc')) :
    kv'.Knows known ∧ kv.ClosedLe kv' ∧ pc'.Justified kv' known args := by
  cases turned hturn with
  | getState => exact ⟨h, .refl kv, trivial⟩
  | seenCmd isLeader =>
    refine ⟨h, .refl kv, ?_⟩
    split_ifs
    · trivial
    · intro hseen
      rwa [h.store, hord.seenCmd_iff] at hseen
  | refused => exact ⟨h, .refl kv, nofun⟩
  | started => exact ⟨h, .refl kv, trivial⟩
  | stub raftIdx => exact ⟨h.stub raftIdx, .stub kv raftIdx, trivial⟩
  | matched raftIdx doneCh doneMsg hmsg hid =>
    have hle : kv.ClosedLe (kv.setChannel doneCh (kv.channel doneCh).drain) := .setChannel doneCh id
    refine ⟨h.setChannel _ nofun, hle, ?_⟩
    have hknown := hmsg.symm.imp (hle _) h.of_buffer
    rwa [hid.1, hid.2] at hknown
  | mismatched raftIdx doneCh doneMsg hmsg =>
    have hle : kv.ClosedLe (kv.setChannel doneCh (kv.channel doneCh).drain) := .setChannel doneCh id
    exact ⟨h.setChannel _ nofun, hle, hmsg.symm.imp (hle _) h.of_buffer⟩
  | timedOut => exact ⟨h, .refl kv, nofun⟩
  | putBack doneCh doneMsg hopen =>
    have hknown := hpc.resolve_left (Bool.eq_false_iff.mp hopen)
    exact ⟨h.setChannel _ fun _ hx => Option.mem_some.mp hx ▸ hknown, .setChannel _ id, nofun⟩
  | close raftIdx doneCh hopen =>
    exact ⟨h.setChannel _ fun _ => h.of_buffer, .setChannel _ fun _ => rfl,
      hpc.resolve_left (Bool.eq_false_iff.mp hopen)⟩
  | delete => exact ⟨⟨h.store, h.buffer, h.sending⟩, .of_channels rfl, fun _ => hpc⟩
  | answer => exact ⟨h, .refl kv, trivial⟩

/-- **A reply is right** after the commands that the server knows. -/
theorem answered (h : kv.Knows known) (hpc : pc.Justified kv known args)
    (hturn : kv.turn args pc t = .ok (kv', .replied reply)) {output : Option String}
    (hout : args.output reply = some output) : Answered known args output := by
  obtain ⟨isLeader, opDone, rfl, hreply⟩ := replied_of_turn hturn
  rw [hreply, output_reply] at hout
  split_ifs at hout with hdone
  cases hout
  exact ⟨hpc hdone, by rw [h.store]⟩

theorem report (h : kv.Knows known) {index : ℕ} {operation : Op} (hop : operation ∈ known) :
    (kv.report index operation).Knows known := by
  have hstub := h.stub index
  have hempty : ∀ x ∈ (DoneCh.drain ((kv.stub index).1.channel (kv.stub index).2)).buffer,
      Occurs known x.clientID x.cmdID := nofun
  have hset := hstub.setChannel (kv.stub index).2 hempty
  refine ⟨hset.store, hset.buffer, fun x hx => ?_⟩
  obtain rfl := Option.mem_some.mp hx
  exact ⟨operation, hop, rfl, rfl⟩

/-- The server learns of one more command. -/
theorem apply (h : kv.Knows known) {gob : Gob Kv} {index : ℕ} {operation : Op}
    (hdeal : kv.dealWithApplyMsg gob ⟨index, some operation, true, []⟩ = .ok kv') :
    kv'.Knows (known ++ [operation]) ∧ kv.ClosedLe kv' := by
  by_cases hlock : kv.sending.isSome = true
  · rw [dealWithApplyMsg, if_pos hlock] at hdeal
    cases hdeal
  · rw [dealWithApplyMsg, if_neg hlock] at hdeal
    cases hdeal
    refine ⟨report ⟨?_, fun ch hch x hx => ?_, fun x hx => ?_⟩ (by simp), ?_⟩
    · rw [Kv.after_append_singleton, ← h.store]
    · exact (h.buffer ch hch x hx).of_subset (List.subset_append_left _ _)
    · exact (h.sending x hx).of_subset (List.subset_append_left _ _)
    · exact .report { kv with kv := kv.kv.enact operation } index operation

/-- The server gets a snapshot. -/
theorem install (h : kv.Knows known) {gob : Gob Kv} (hsub : known ⊆ known')
    (hdeal : kv.dealWithApplyMsg gob ⟨0, none, false, gob.encode (Kv.after known')⟩ = .ok kv') :
    kv'.Knows known' ∧ kv.ClosedLe kv' := by
  by_cases hlock : kv.sending.isSome = true
  · rw [dealWithApplyMsg, if_pos hlock] at hdeal
    cases hdeal
  · rw [dealWithApplyMsg, if_neg hlock] at hdeal
    cases hdeal
    refine ⟨⟨gob.decode_encode _, fun ch hch x hx => ?_, fun x hx => ?_⟩, .of_channels rfl⟩
    · exact (h.buffer ch hch x hx).of_subset hsub
    · exact (h.sending x hx).of_subset hsub

theorem finishApplyMsg (h : kv.Knows known) (hfin : kv.finishApplyMsg = .ok kv') :
    kv'.Knows known ∧ kv.ClosedLe kv' := by
  rw [KVServer.finishApplyMsg] at hfin
  split at hfin
  · cases hfin
  · rename_i ch doneMsg hsending
    obtain ⟨done, hsend, hfin⟩ := bind_eq_ok.mp hfin
    obtain ⟨-, rfl⟩ := DoneCh.send_eq_ok hsend
    cases hfin
    have hknown := h.sending _ hsending
    have hbuf : ∀ x ∈ ({ kv.channel ch with buffer := some doneMsg } : DoneCh).buffer,
        Occurs known x.clientID x.cmdID := fun _ hx => Option.mem_some.mp hx ▸ hknown
    have hset := h.setChannel ch hbuf
    exact ⟨⟨hset.store, hset.buffer, nofun⟩, .setChannel _ id⟩

end Knows

end KVServer

theorem Pc.Justified.mono {kv kv' : KVServer} {known known' : List Op} {args : Args} {pc : Pc}
    (h : pc.Justified kv known args) (hle : kv.ClosedLe kv')
    (hsub : known ⊆ known') : pc.Justified kv' known' args := by
  cases pc with
  | putBack doneCh doneMsg => exact h.imp (hle _) (·.of_subset hsub)
  | close raftIdx doneCh => exact h.imp (hle _) (·.of_subset hsub)
  | delete raftIdx => exact Occurs.of_subset h hsub
  | answer isLeader opDone => exact fun hdone => (h hdone).of_subset hsub
  | _ => trivial

end RaftKVDB
