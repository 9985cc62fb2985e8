import ValProofs.Face
import ValProofs.Lib.EventQueue
import ValProofs.Lib.Scan

/-!
The Pending Forwarding Table together with the two things it lives on: the
entry objects, which the table and the timer callbacks share through
`shared_ptr`, and the scheduler that holds the callbacks.

An entry object is an address into `heap`. The table is a list of addresses,
and a callback captures an address, so an object that has left the table can
still be reached by a callback that was not cancelled. That no such callback
exists is a theorem about runs, not a feature of the model.

`log` is a ghost: it records the calls of `sendValPacket`.
-/

namespace ValProofs.Pft

open Lib

inductive EntryState
  | waitingForwarding
  | waitingImplicitAck
  deriving DecidableEq, Repr

def forwardingTries : ℤ := -1

def maxImplicitAckTries : ℤ := 3

structure Entry where
  valPkt : ValPacket
  state : EntryState
  tries : ℤ
  faceId : ℕ
  /-- `m_timerId`; a default-constructed `EventId` is `none`. -/
  timerId : Option ℕ
  deriving Repr

namespace Entry

/-- The constructor of an entry. -/
def make (valPkt : ValPacket) (faceId : ℕ) : Entry where
  valPkt := valPkt
  state := .waitingForwarding
  tries := forwardingTries
  faceId := faceId
  timerId := none

/-- In milliseconds. -/
def getDefaultImpAckTimerDuration (entry : Entry) : ℕ :=
  if entry.valPkt.isData then 40 else 70

def changeStateToWaintingImpAck (entry : Entry) : Entry :=
  if entry.state = .waitingForwarding then
    { entry with state := .waitingImplicitAck, tries := maxImplicitAckTries }
  else entry

def oneLessTry (entry : Entry) : Entry :=
  if entry.tries > 0 then { entry with tries := entry.tries - 1 } else entry

def setTimer (entry : Entry) (timerId : ℕ) : Entry :=
  { entry with timerId := some timerId }

@[simp] theorem valPkt_changeState (entry : Entry) :
    entry.changeStateToWaintingImpAck.valPkt = entry.valPkt := by
  unfold changeStateToWaintingImpAck; split <;> rfl

@[simp] theorem timerId_changeState (entry : Entry) :
    entry.changeStateToWaintingImpAck.timerId = entry.timerId := by
  unfold changeStateToWaintingImpAck; split <;> rfl

@[simp] theorem valPkt_oneLessTry (entry : Entry) : entry.oneLessTry.valPkt = entry.valPkt := by
  unfold oneLessTry; split <;> rfl

theorem changeState_of_waitingForwarding {entry : Entry} (h : entry.state = .waitingForwarding) :
    entry.changeStateToWaintingImpAck =
      { entry with state := .waitingImplicitAck, tries := maxImplicitAckTries } := by
  rw [changeStateToWaintingImpAck, if_pos h]

theorem changeState_of_waitingImplicitAck {entry : Entry}
    (h : entry.state = .waitingImplicitAck) : entry.changeStateToWaintingImpAck = entry := by
  rw [changeStateToWaintingImpAck, if_neg (by rw [h]; decide)]

end Entry

inductive CallbackKind
  | forwarding
  | impAck
  deriving DecidableEq, Repr

/-- A scheduled `forwardingTimerCallback` or `impAckTimerCallback` with what
its closure captures. -/
structure Callback where
  kind : CallbackKind
  entry : ℕ
  outFaceId : ℕ
  /-- The delay it was scheduled with, in nanoseconds. -/
  duration : ℕ
  deriving DecidableEq, Repr

inductive Action
  | transmit (entry : ℕ) (valPkt : ValPacket) (outFaceId : ℕ)
  /-- `outFace` was null when it was used. -/
  | nullFace (outFaceId : ℕ)
  deriving DecidableEq, Repr

structure Pending where
  heap : ℕ → Entry
  nextPtr : ℕ
  table : List ℕ
  nItens : ℕ
  queue : EventQueue Callback
  log : List Action

namespace Pending

def empty : Pending where
  heap _ := Entry.make ⟨⟨"", "", "", "", 0⟩, .notSet⟩ 0
  nextPtr := 0
  table := []
  nItens := 0
  queue := EventQueue.empty
  log := []

def modify (s : Pending) (p : ℕ) (f : Entry → Entry) : Pending :=
  { s with heap := Function.update s.heap p (f (s.heap p)) }

/-- The entry matches the packet. -/
def isMatch (s : Pending) (valPkt : ValPacket) (p : ℕ) : Bool :=
  valPkt.sameNdnPacket (s.heap p).valPkt

def findMatch (s : Pending) (valPkt : ValPacket) : Option ℕ :=
  s.table.find? (s.isMatch valPkt)

/-- The new entry's address and `true`, or the address of the entry that was
found and `false`. -/
def addEntry (s : Pending) (entry : Entry) : Pending × Bool × ℕ :=
  match s.findMatch entry.valPkt with
  | none =>
      ({ s with
          heap := Function.update s.heap s.nextPtr entry
          nextPtr := s.nextPtr + 1
          table := s.table ++ [s.nextPtr]
          nItens := s.nItens + 1 }, true, s.nextPtr)
  | some p => (s, false, p)

/-- After an `erase` the loop sets `it = end()` and the `for` advances it once
more. `std::list` is circular, so the scan goes on at `begin()`, and the loop
ends when a whole pass has found nothing. -/
def removeEntry (s : Pending) (valPkt : ValPacket) : Pending × Bool :=
  let rest := eraseRestart (s.isMatch valPkt) s.table.length s.table
  ({ s with table := rest, nItens := s.nItens - (s.table.length - rest.length) },
    s.table.any (s.isMatch valPkt))

/-- The nonces of the list that an Interest entry carries, once per
occurrence in the list. -/
def noncesOf (s : Pending) (nonceList : List Nonce) (p : ℕ) : List Nonce :=
  match (s.heap p).valPkt.payload with
  | .interest i => nonceList.filter fun nonce => i.nonce == nonce
  | _ => []

/-- The loop of `findMatchByNonceList`, which stops as soon as as many entries
as nonces have been found. -/
def findMatchLoop (s : Pending) (nonceList : List Nonce) : List ℕ → List ℕ → List ℕ
  | [], res => res
  | p :: rest, res =>
      let res' := res ++ (s.noncesOf nonceList p).map fun _ => p
      if res'.length = nonceList.length then res' else findMatchLoop s nonceList rest res'

def findMatchByNonceList (s : Pending) (nonceList : List Nonce) : List ℕ :=
  findMatchLoop s nonceList s.table []

def removeEntriesByMatchList (s : Pending) (entries : List ℕ) : Pending :=
  entries.foldl (fun s p => (s.removeEntry (s.heap p).valPkt).1) s

/-- `scheduler::cancel` of an entry's timer. -/
def cancel (s : Pending) (timerId : Option ℕ) : Pending :=
  match timerId with
  | none => s
  | some id => { s with queue := s.queue.cancel id }

/-- `setTimer(schedule(...))` on the entry the callback captures. -/
def arm (s : Pending) (callback : Callback) : Pending :=
  { s with queue := s.queue.schedule callback }.modify callback.entry
    fun entry => entry.setTimer s.queue.nextId

def registerOutgoingValPacket (s : Pending) (outFaceId : ℕ) (valPkt : ValPacket)
    (duration : ℕ) : Pending × Option ℕ :=
  match s.addEntry (Entry.make valPkt outFaceId) with
  | (s', true, p) => (s'.arm ⟨.forwarding, p, outFaceId, duration⟩, some p)
  | (s', false, _) => (s', none)

/-- Implicit acknowledgements of the entry have the next lower hop count; for
Data a copy with the same hop count serves too. The subtraction is done in
`int`. -/
def isImplicitAck (entry : Entry) (valP : ValPacket) : Bool :=
  decide (((entry.valPkt.hopC.toNat : ℤ) - 1) = valP.hopC.toNat) ||
    (entry.valPkt.isData && entry.valPkt.hopC == valP.hopC)

/-- The second component is `false` when the packet is to be dropped. -/
def preProcessingValPacket (s : Pending) (valP : ValPacket) : Pending × Bool :=
  match s.findMatch valP with
  | none => (s, true)
  | some p =>
      let entry := s.heap p
      match entry.state with
      | .waitingForwarding =>
          if entry.valPkt.hopC == valP.hopC then
            let s' := (s.cancel entry.timerId).modify p Entry.changeStateToWaintingImpAck
            if entry.valPkt.isData then ((s'.removeEntry valP).1, false) else (s', false)
          else (s, false)
      | .waitingImplicitAck =>
          if isImplicitAck entry valP then
            let s' := s.cancel entry.timerId
            if entry.valPkt.isData then ((s'.removeEntry valP).1, false) else (s', false)
          else (s, false)

/-- The part of `reveiceData` that takes the answered Interests out of the
table. -/
def cancelPendingInterests (s : Pending) (nonceList : List Nonce) : Pending :=
  let pendingInterests := s.findMatchByNonceList nonceList
  (pendingInterests.foldl (fun s p => s.cancel (s.heap p).timerId) s).removeEntriesByMatchList
    pendingInterests

/-- "Data Last hop does not receive ImpACK". -/
def isLastHop (valPkt : ValPacket) : Bool := valPkt.isData && decide (valPkt.hopC ≤ 2)

/-- A call of `sendValPacket` with the packet of the entry. -/
def transmit (s : Pending) (p outFaceId : ℕ) : Pending :=
  { s with log := s.log ++ [.transmit p (s.heap p).valPkt outFaceId] }

def forwardingTimerCallback (faces : FaceTable) (s : Pending) (p outFaceId : ℕ) : Pending :=
  if (s.heap p).state = .waitingForwarding then
    match faces.get outFaceId with
    | none => { s with log := s.log ++ [.nullFace outFaceId] }
    | some outFace =>
        if outFace.isValNetFace then
          let s := (s.transmit p outFaceId).modify p Entry.changeStateToWaintingImpAck
          let s := s.arm ⟨.impAck, p, outFaceId,
            (s.heap p).getDefaultImpAckTimerDuration * 1000000⟩
          if isLastHop (s.heap p).valPkt then
            ((s.cancel (s.heap p).timerId).removeEntry (s.heap p).valPkt).1
          else s
        else s
  else s

def impAckTimerCallback (faces : FaceTable) (s : Pending) (p outFaceId : ℕ) : Pending :=
  if (s.heap p).state = .waitingImplicitAck then
    match faces.get outFaceId with
    | none => { s with log := s.log ++ [.nullFace outFaceId] }
    | some outFace =>
        if outFace.isValNetFace then
          let s := (s.transmit p outFaceId).modify p Entry.oneLessTry
          if (s.heap p).tries > 0 then
            s.arm ⟨.impAck, p, outFaceId,
              (s.heap p).getDefaultImpAckTimerDuration * 1000000⟩
          else (s.removeEntry (s.heap p).valPkt).1
        else s
  else s

/-- The scheduler takes the event out of its queue and runs the callback. -/
def fire (faces : FaceTable) (s : Pending) (id : ℕ) : Pending :=
  match s.queue.callback? id with
  | none => s
  | some callback =>
      let s := { s with queue := s.queue.cancel id }
      match callback.kind with
      | .forwarding => forwardingTimerCallback faces s callback.entry callback.outFaceId
      | .impAck => impAckTimerCallback faces s callback.entry callback.outFaceId

end Pending

end ValProofs.Pft
