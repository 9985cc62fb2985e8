import ValProofs.Val.Machine

/-!
VAL without the congestion marks. `unmark` takes the mark off every Data that a
VAL holds: in the entry objects, among the transmissions and in the record of
the strategy's calls. None of these marks is ever read again, so everything VAL
does commutes with `unmark`. The exception is the Data that `reveiceData` is
called with, whose mark says which of its branches is taken.
-/

namespace ValProofs

open List Function

def Data.unmark (data : Data) : Data := { data with congestionMark := none }

@[simp] theorem Data.getCongestionMark_unmark (data : Data) :
    data.unmark.getCongestionMark = 0 := rfl

def Payload.unmark : Payload → Payload
  | .notSet => .notSet
  | .interest i => .interest i
  | .data d => .data d.unmark

namespace ValPacket

def unmark (valPkt : ValPacket) : ValPacket := { valPkt with payload := valPkt.payload.unmark }

@[simp] theorem hopC_unmark (valPkt : ValPacket) : valPkt.unmark.hopC = valPkt.hopC := rfl

@[simp] theorem isData_unmark (valPkt : ValPacket) : valPkt.unmark.isData = valPkt.isData := by
  rw [isData, isData, unmark]
  cases valPkt.payload <;> rfl

@[simp] theorem sameNdnPacket_unmark (lhs rhs : ValPacket) :
    lhs.unmark.sameNdnPacket rhs.unmark = lhs.sameNdnPacket rhs := by
  rw [sameNdnPacket, sameNdnPacket, unmark, unmark]
  cases lhs.payload <;> cases rhs.payload <;> rfl

end ValPacket

open ValPacket

/-! ### The PFT -/

namespace Pft

open Lib

def Entry.unmark (entry : Entry) : Entry := { entry with valPkt := entry.valPkt.unmark }

variable (entry : Entry)

@[simp] theorem Entry.valPkt_unmark : entry.unmark.valPkt = entry.valPkt.unmark := rfl

@[simp] theorem Entry.state_unmark : entry.unmark.state = entry.state := rfl

@[simp] theorem Entry.tries_unmark : entry.unmark.tries = entry.tries := rfl

@[simp] theorem Entry.timerId_unmark : entry.unmark.timerId = entry.timerId := rfl

@[simp] theorem Entry.unmark_changeState :
    entry.unmark.changeStateToWaintingImpAck = entry.changeStateToWaintingImpAck.unmark := by
  rw [changeStateToWaintingImpAck, changeStateToWaintingImpAck]
  split <;> split <;> first | rfl | contradiction

@[simp] theorem Entry.unmark_oneLessTry : entry.unmark.oneLessTry = entry.oneLessTry.unmark := by
  rw [oneLessTry, oneLessTry]
  split <;> split <;> first | rfl | contradiction

@[simp] theorem Entry.getDefaultImpAckTimerDuration_unmark :
    entry.unmark.getDefaultImpAckTimerDuration = entry.getDefaultImpAckTimerDuration := by
  rw [getDefaultImpAckTimerDuration, getDefaultImpAckTimerDuration, unmark, isData_unmark]

def Action.unmark : Action → Action
  | .transmit entry valPkt outFaceId => .transmit entry valPkt.unmark outFaceId
  | .nullFace outFaceId => .nullFace outFaceId

namespace Pending

def unmark (s : Pending) : Pending :=
  { s with
    heap := fun p => (s.heap p).unmark
    log := s.log.map Action.unmark }

variable (s : Pending)

@[simp] theorem heap_unmark (p : ℕ) : s.unmark.heap p = (s.heap p).unmark := rfl

theorem unmark_update (heap : ℕ → Entry) (p : ℕ) (entry : Entry) :
    (fun q => (update heap p entry q).unmark) =
      update (fun q => (heap q).unmark) p entry.unmark := by
  funext q
  by_cases hq : q = p
  · subst hq
    rw [update_self, update_self]
  · rw [update_of_ne hq, update_of_ne hq]

theorem unmark_modify (p : ℕ) {f : Entry → Entry}
    (hf : ∀ entry : Entry, f entry.unmark = (f entry).unmark) :
    s.unmark.modify p f = (s.modify p f).unmark := by
  rw [modify, modify, unmark, unmark, unmark_update, ← hf]

variable (valPkt : ValPacket)

@[simp] theorem isMatch_unmark (p : ℕ) : s.unmark.isMatch valPkt.unmark p = s.isMatch valPkt p :=
  sameNdnPacket_unmark ..

theorem isMatch_unmark_eq : s.unmark.isMatch valPkt.unmark = s.isMatch valPkt :=
  funext (s.isMatch_unmark valPkt)

@[simp] theorem findMatch_unmark : s.unmark.findMatch valPkt.unmark = s.findMatch valPkt := by
  rw [findMatch, findMatch, isMatch_unmark_eq]
  rfl

theorem unmark_addEntry (entry : Entry) :
    s.unmark.addEntry entry.unmark =
      ((s.addEntry entry).1.unmark, (s.addEntry entry).2) := by
  rw [addEntry, addEntry, show entry.unmark.valPkt = entry.valPkt.unmark from rfl, findMatch_unmark]
  cases s.findMatch entry.valPkt with
  | none =>
    simp only [unmark, unmark_update]
  | some p => rfl

theorem unmark_removeEntry :
    s.unmark.removeEntry valPkt.unmark =
      ((s.removeEntry valPkt).1.unmark, (s.removeEntry valPkt).2) := by
  rw [removeEntry, removeEntry, isMatch_unmark_eq]
  rfl

theorem unmark_cancel (timerId : Option ℕ) :
    s.unmark.cancel timerId = (s.cancel timerId).unmark := by
  cases timerId <;> rfl

theorem unmark_arm (callback : Callback) : s.unmark.arm callback = (s.arm callback).unmark :=
  unmark_modify { s with queue := s.queue.schedule callback } callback.entry fun _ => rfl

theorem unmark_registerOutgoingValPacket (outFaceId : ℕ) (valPkt : ValPacket) (duration : ℕ) :
    s.unmark.registerOutgoingValPacket outFaceId valPkt.unmark duration =
      ((s.registerOutgoingValPacket outFaceId valPkt duration).1.unmark,
        (s.registerOutgoingValPacket outFaceId valPkt duration).2) := by
  have hadd := s.unmark_addEntry (Entry.make valPkt outFaceId)
  rw [registerOutgoingValPacket, registerOutgoingValPacket,
    show Entry.make valPkt.unmark outFaceId = (Entry.make valPkt outFaceId).unmark from rfl, hadd]
  cases s.addEntry (Entry.make valPkt outFaceId) with
  | mk s' rest =>
    obtain ⟨isNew, p⟩ := rest
    cases isNew with
    | true => simp only [unmark_arm]
    | false => rfl

variable (nonceList : List Nonce)

theorem noncesOf_unmark (p : ℕ) : s.unmark.noncesOf nonceList p = s.noncesOf nonceList p := by
  rw [noncesOf, noncesOf, heap_unmark, Entry.unmark, ValPacket.unmark]
  cases (s.heap p).valPkt.payload <;> rfl

theorem findMatchLoop_unmark (table res : List ℕ) :
    s.unmark.findMatchLoop nonceList table res = s.findMatchLoop nonceList table res := by
  induction table generalizing res with
  | nil => rfl
  | cons p rest ih => rw [findMatchLoop, findMatchLoop, noncesOf_unmark, ih]

theorem unmark_removeEntriesByMatchList (entries : List ℕ) :
    s.unmark.removeEntriesByMatchList entries = (s.removeEntriesByMatchList entries).unmark := by
  rw [removeEntriesByMatchList, removeEntriesByMatchList]
  induction entries generalizing s with
  | nil => rfl
  | cons p entries ih =>
    rw [foldl_cons, foldl_cons, ← ih]
    exact congrArg (foldl _ · entries)
      (congrArg Prod.fst (s.unmark_removeEntry (s.heap p).valPkt))

theorem unmark_cancelPendingInterests :
    s.unmark.cancelPendingInterests nonceList = (s.cancelPendingInterests nonceList).unmark := by
  have hcancel : ∀ (entries : List ℕ) (s : Pending),
      entries.foldl (fun s p => s.cancel (s.heap p).timerId) s.unmark =
        (entries.foldl (fun s p => s.cancel (s.heap p).timerId) s).unmark := by
    intro entries
    induction entries with
    | nil => exact fun _ => rfl
    | cons p entries ih =>
      intro s
      rw [foldl_cons, foldl_cons, ← ih]
      exact congrArg (foldl _ · entries) (s.unmark_cancel (s.heap p).timerId)
  rw [cancelPendingInterests, cancelPendingInterests, findMatchByNonceList,
    findMatchByNonceList, findMatchLoop_unmark]
  rw [hcancel, unmark_removeEntriesByMatchList]
  rfl

theorem isImplicitAck_unmark (entry : Entry) (valP : ValPacket) :
    isImplicitAck entry.unmark valP.unmark = isImplicitAck entry valP := by
  rw [isImplicitAck, isImplicitAck, Entry.unmark, isData_unmark]
  rfl

theorem unmark_preProcessingValPacket (valP : ValPacket) :
    s.unmark.preProcessingValPacket valP.unmark =
      ((s.preProcessingValPacket valP).1.unmark, (s.preProcessingValPacket valP).2) := by
  rw [preProcessingValPacket, preProcessingValPacket, findMatch_unmark]
  cases s.findMatch valP with
  | none => rfl
  | some p =>
    simp only [heap_unmark, Entry.state_unmark, Entry.valPkt_unmark, Entry.timerId_unmark,
      hopC_unmark, isData_unmark, isImplicitAck_unmark, unmark_cancel,
      unmark_modify _ _ Entry.unmark_changeState, unmark_removeEntry]
    cases (s.heap p).state with
    | waitingForwarding | waitingImplicitAck =>
      dsimp only
      split
      · split <;> rfl
      · rfl

theorem unmark_transmit (p outFaceId : ℕ) :
    s.unmark.transmit p outFaceId = (s.transmit p outFaceId).unmark := by
  rw [transmit, transmit, unmark, unmark]
  simp only [map_append]
  rfl

theorem unmark_forwardingTimerCallback (faces : FaceTable) (s : Pending) (p outFaceId : ℕ) :
    forwardingTimerCallback faces s.unmark p outFaceId =
      (forwardingTimerCallback faces s p outFaceId).unmark := by
  rw [forwardingTimerCallback, forwardingTimerCallback]
  simp only [heap_unmark, Entry.state_unmark, unmark_transmit,
    unmark_modify _ _ Entry.unmark_changeState, unmark_arm, unmark_cancel, unmark_removeEntry,
    Entry.getDefaultImpAckTimerDuration_unmark, Entry.valPkt_unmark, Entry.timerId_unmark,
    isLastHop, hopC_unmark, isData_unmark]
  split
  · split
    · simp only [unmark, map_append]
      rfl
    · split
      · exact (apply_ite unmark _ _ _).symm
      · rfl
  · rfl

theorem unmark_impAckTimerCallback (faces : FaceTable) (s : Pending) (p outFaceId : ℕ) :
    impAckTimerCallback faces s.unmark p outFaceId =
      (impAckTimerCallback faces s p outFaceId).unmark := by
  rw [impAckTimerCallback, impAckTimerCallback]
  simp only [heap_unmark, Entry.state_unmark, Entry.tries_unmark, unmark_transmit,
    unmark_modify _ _ Entry.unmark_oneLessTry, unmark_arm, unmark_removeEntry,
    Entry.getDefaultImpAckTimerDuration_unmark, Entry.valPkt_unmark]
  split
  · split
    · simp only [unmark, map_append]
      rfl
    · split
      · exact (apply_ite unmark _ _ _).symm
      · rfl
  · rfl

theorem unmark_fire (faces : FaceTable) (s : Pending) (id : ℕ) :
    s.unmark.fire faces id = (s.fire faces id).unmark := by
  rw [fire, fire, show s.unmark.queue = s.queue from rfl]
  cases s.queue.callback? id with
  | none => rfl
  | some callback =>
    dsimp only
    cases callback.kind with
    | forwarding =>
      exact unmark_forwardingTimerCallback faces { s with queue := s.queue.cancel id } _ _
    | impAck => exact unmark_impAckTimerCallback faces { s with queue := s.queue.cancel id } _ _

end Pending

end Pft

/-! ### The forwarder -/

def Outgoing.unmark (out : Outgoing) : Outgoing := { out with valPkt := out.valPkt.unmark }

def StrategyCall.unmark : StrategyCall → StrategyCall
  | .ifntHit ifntEntry interest => .ifntHit ifntEntry interest
  | .ifntMiss interest => .ifntMiss interest
  | .dfntHit dfntEntry ifntEntries data => .dfntHit dfntEntry ifntEntries data.unmark
  | .dfntMiss data ifntEntries isProducer => .dfntMiss data.unmark ifntEntries isProducer

def Call.unmark (call : Call) : Call :=
  { call with call := call.call.unmark, sent := call.sent.map Outgoing.unmark }

namespace ValForwarder

def unmark (v : ValForwarder) : ValForwarder :=
  { v with
    pending := v.pending.unmark
    calls := v.calls.map Call.unmark }

theorem unmark_register (s : Pft.Pending) (sent : Option Outgoing) :
    register s.unmark (sent.map Outgoing.unmark) =
      ((register s sent).1.unmark, (register s sent).2) := by
  cases sent with
  | none => rfl
  | some out => exact s.unmark_registerOutgoingValPacket out.outFaceId out.valPkt out.duration

theorem unmark_sendValPacket (v : ValForwarder) (call : StrategyCall) (sent : Option Outgoing) :
    v.unmark.sendValPacket call.unmark (sent.map Outgoing.unmark) =
      (v.sendValPacket call sent).unmark := by
  have hregister := unmark_register v.pending sent
  rw [sendValPacket, sendValPacket, show v.unmark.pending = v.pending.unmark from rfl, hregister]
  simp only [unmark, map_append]
  rfl

variable (g : Geometry)

/-- What the strategy sends does not depend on what VAL holds already. -/
theorem unmark_sentBy (v : ValForwarder) (inGeoface : ℕ) (call : StrategyCall) :
    v.unmark.sentBy g inGeoface call.unmark = (v.sentBy g inGeoface call).map Outgoing.unmark := by
  cases call with
  | ifntHit ifntEntry interest =>
    show v.doAfterIfntHit g inGeoface ifntEntry interest = _
    rw [sentBy]
    cases hout : v.doAfterIfntHit g inGeoface ifntEntry interest with
    | none => rfl
    | some out =>
      have hpayload := (doAfterIfntHit_eq_some hout).2.2.1
      rw [Option.map_some, Outgoing.unmark, ValPacket.unmark, hpayload, Payload.unmark, ← hpayload]
  | ifntMiss interest => rfl
  | dfntHit dfntEntry ifntEntries data =>
    simp only [sentBy, StrategyCall.unmark, doAfterDfntHit]
    split
    · rfl
    · rw [apply_ite (Option.map Outgoing.unmark)]
      rfl
  | dfntMiss data ifntEntries isProducer => rfl

theorem unmark_strategy (v : ValForwarder) (inGeoface : ℕ) (call : StrategyCall) :
    v.unmark.strategy g inGeoface call.unmark = (v.strategy g inGeoface call).unmark := by
  rw [strategy, strategy, unmark_sentBy, unmark_sendValPacket]

theorem unmark_reveiceInterest (v : ValForwarder) (inGeoface : ℕ) (interest : Interest) :
    v.unmark.reveiceInterest g inGeoface interest =
      (v.reveiceInterest g inGeoface interest).unmark := by
  rw [reveiceInterest_eq, reveiceInterest_eq, ← unmark_strategy,
    show v.unmark.ifnt = v.ifnt from rfl]
  cases Ifnt.findMatchByNonce v.ifnt interest.nonce <;> rfl

theorem unmark_makeGeoFace (v : ValForwarder) (area : String) :
    v.unmark.makeGeoFace area = ((v.makeGeoFace area).1.unmark, (v.makeGeoFace area).2) := by
  rw [makeGeoFace, makeGeoFace, show v.unmark.f2a = v.f2a from rfl]
  cases F2a.findByGeoArea v.f2a area <;> rfl

theorem unmark_makeGeoFaceFromValHeader (v : ValForwarder) (valH : ValHeader) :
    v.unmark.makeGeoFaceFromValHeader valH =
      ((v.makeGeoFaceFromValHeader valH).1.unmark, (v.makeGeoFaceFromValHeader valH).2) := by
  rw [makeGeoFaceFromValHeader, makeGeoFaceFromValHeader]
  simp only [unmark_makeGeoFace]

def ToNfd.unmark : ToNfd → ToNfd
  | .interest geoface i => .interest geoface i
  | .data geoface d => .data geoface d.unmark

theorem unmark_toForwarder (v : ValForwarder) (geoface : ℕ) (packet : ToNfd) :
    v.unmark.toForwarder geoface packet.unmark =
      (v.toForwarder geoface packet).map ToNfd.unmark := by
  rw [toForwarder, toForwarder, show v.unmark.faces = v.faces from rfl]
  cases v.faces.get geoface with
  | none => rfl
  | some face =>
    dsimp only
    rw [apply_ite (Option.map ToNfd.unmark)]
    rfl

theorem unmark_processInterestFromNetwork (v : ValForwarder) (face : ℕ) (valH : ValHeader)
    (interest : Interest) :
    v.unmark.processInterestFromNetwork face valH interest =
      ((v.processInterestFromNetwork face valH interest).1.unmark,
        (v.processInterestFromNetwork face valH interest).2.map ToNfd.unmark) := by
  rw [processInterestFromNetwork, processInterestFromNetwork, show v.unmark.ifnt = v.ifnt from rfl]
  cases Ifnt.addEntry v.ifnt (Ifnt.Entry.make valH interest face) with
  | mk ifnt isNew =>
    cases isNew with
    | false => rfl
    | true =>
      have hmade := unmark_makeGeoFaceFromValHeader { v with ifnt := ifnt } valH
      rw [show ({ v with ifnt := ifnt } : ValForwarder).unmark =
        { v.unmark with ifnt := ifnt } from rfl] at hmade
      simp only [hmade]
      rw [← unmark_toForwarder]
      rfl

theorem unmark_processDataFromNetwork (v : ValForwarder) (face : ℕ) (valH : ValHeader)
    (data : Data) :
    v.unmark.processDataFromNetwork face valH data.unmark =
      ((v.processDataFromNetwork face valH data).1.unmark,
        (v.processDataFromNetwork face valH data).2.map ToNfd.unmark) := by
  have hmade := unmark_makeGeoFaceFromValHeader
    { v with dfnt := Dfnt.addEntry v.dfnt (Dfnt.Entry.make valH data face) } valH
  rw [processDataFromNetwork, processDataFromNetwork, show ({ v.unmark with
      dfnt := Dfnt.addEntry v.unmark.dfnt (Dfnt.Entry.make valH data.unmark face) } :
    ValForwarder) = ({ v with dfnt := Dfnt.addEntry v.dfnt (Dfnt.Entry.make valH data face) } :
      ValForwarder).unmark from rfl, hmade]
  dsimp only
  rw [← unmark_toForwarder]
  rfl

theorem unmark_onReceivedValPacket (v : ValForwarder) (face : ℕ) (valP : ValPacket) :
    v.unmark.onReceivedValPacket face valP.unmark =
      ((v.onReceivedValPacket face valP).1.unmark,
        (v.onReceivedValPacket face valP).2.map ToNfd.unmark) := by
  have hpre := v.pending.unmark_preProcessingValPacket valP
  rw [onReceivedValPacket, onReceivedValPacket, show v.unmark.pending = v.pending.unmark from rfl,
    hpre]
  cases v.pending.preProcessingValPacket valP with
  | mk pending passed =>
    cases passed with
    | false => rfl
    | true =>
      rw [ValPacket.unmark]
      cases valP.payload with
      | notSet => rfl
      | interest interest =>
        exact unmark_processInterestFromNetwork { v with pending := pending } _ _ _
      | data data => exact unmark_processDataFromNetwork { v with pending := pending } _ _ _

/-! ### Control Data -/

/-- The two branches of `reveiceData` that a mark leads to. -/
inductive Control
  | clean
  | discard
  deriving DecidableEq, Repr

/-- The control branch that `reveiceData` takes, if any. The mark 500 matters only
when the Data would be relayed. -/
def controlBranch (v : ValForwarder) (data : Data) (isProducer : Bool) : Option Control :=
  if data.getCongestionMark = 501 then some .clean
  else if data.getCongestionMark = 500 ∧ (Dfnt.findMatch v.dfnt data.signature).isSome ∧
      isProducer = false then some .discard
  else none

variable {v : ValForwarder} {data : Data} {isProducer : Bool}

theorem controlBranch_eq_clean :
    v.controlBranch data isProducer = some .clean ↔ data.getCongestionMark = 501 := by
  rw [controlBranch]
  split
  · simpa
  · split <;> simpa

theorem controlBranch_eq_discard :
    v.controlBranch data isProducer = some .discard ↔
      data.getCongestionMark = 500 ∧ (Dfnt.findMatch v.dfnt data.signature).isSome ∧
        isProducer = false := by
  rw [controlBranch]
  split
  · rename_i hmark
    simp [hmark]
  · split
    · rename_i hdiscard
      simp [hdiscard]
    · rename_i hdiscard
      exact ⟨fun h => (nomatch h), fun h => absurd h hdiscard⟩

/-- Marked 501, the Data only has its entry taken out of the DFNT. -/
theorem unmark_reveiceData_of_clean (h : v.controlBranch data isProducer = some .clean)
    (inGeoface : ℕ) (nonceList : Option (List Nonce)) :
    (v.reveiceData g inGeoface data nonceList isProducer).unmark =
      { v.unmark with
        dfnt := Dfnt.removeEntryBySignature v.unmark.dfnt data.unmark.signature } := by
  rw [reveiceData_control g v inGeoface (controlBranch_eq_clean.mp h)]
  rfl

/-- Marked 500, it has everything cleaned up that belongs to it. -/
theorem unmark_reveiceData_of_discard (h : v.controlBranch data isProducer = some .discard)
    (inGeoface : ℕ) (nonceList : Option (List Nonce)) :
    (v.reveiceData g inGeoface data nonceList isProducer).unmark =
      { v.unmark.clean data.unmark (nonceList.getD []) with
        pending := v.unmark.pending.cancelPendingInterests (nonceList.getD []) } := by
  obtain ⟨hmark, hsome, rfl⟩ := controlBranch_eq_discard.mp h
  obtain ⟨entry, hfind⟩ := Option.isSome_iff_exists.mp hsome
  rw [reveiceData_eq, if_neg (by rw [hmark]; decide)]
  simp only [hfind, if_pos hmark]
  rw [show v.unmark.pending = v.pending.unmark from rfl, Pft.Pending.unmark_cancelPendingInterests]
  rfl

/-- Otherwise the mark is of no importance. -/
theorem unmark_reveiceData_of_none (h : v.controlBranch data isProducer = none) (inGeoface : ℕ)
    (nonceList : Option (List Nonce)) :
    (v.reveiceData g inGeoface data nonceList isProducer).unmark =
      v.unmark.reveiceData g inGeoface data.unmark nonceList isProducer := by
  have hclean : data.getCongestionMark ≠ 501 := fun hmark => by
    rw [controlBranch_eq_clean.mpr hmark] at h
    cases h
  have hunmark : data.unmark.getCongestionMark ≠ 501 := by
    rw [Data.getCongestionMark_unmark]
    decide
  rw [reveiceData_eq, reveiceData_eq, if_neg hclean, if_neg hunmark,
    show v.unmark.dfnt = v.dfnt from rfl, show data.unmark.signature = data.signature from rfl]
  cases hfind : Dfnt.findMatch v.dfnt data.signature with
  | none => exact (unmark_strategy g _ inGeoface (.dfntMiss data _ isProducer)).symm
  | some dfntEntry =>
    cases isProducer with
    | true => exact (unmark_strategy g _ inGeoface (.dfntMiss data _ true)).symm
    | false =>
      have hdiscard : data.getCongestionMark ≠ 500 := fun hmark => by
        rw [controlBranch_eq_discard.mpr ⟨hmark, by rw [hfind]; rfl, rfl⟩] at h
        cases h
      have hunmark' : data.unmark.getCongestionMark ≠ 500 := by
        rw [Data.getCongestionMark_unmark]
        decide
      simp only [if_neg hdiscard, if_neg hunmark']
      rw [show v.unmark.pending = v.pending.unmark from rfl,
        Pft.Pending.unmark_cancelPendingInterests]
      exact (unmark_strategy g { v.clean data (nonceList.getD []) with
        pending := v.pending.cancelPendingInterests (nonceList.getD []) } inGeoface
        (.dfntHit dfntEntry _ data)).symm

/-- What `reveiceData` does to VAL is the same, up to marks, for two Data that lead
to the same branch. -/
theorem unmark_reveiceData {v' : ValForwarder} {data' : Data} (hv : v'.unmark = v.unmark)
    (hdata : data'.unmark = data.unmark)
    (hbranch : v'.controlBranch data' isProducer = v.controlBranch data isProducer) (inGeoface : ℕ)
    (nonceList : Option (List Nonce)) :
    (v'.reveiceData g inGeoface data' nonceList isProducer).unmark =
      (v.reveiceData g inGeoface data nonceList isProducer).unmark := by
  cases h : v.controlBranch data isProducer with
  | none =>
    rw [unmark_reveiceData_of_none g h, unmark_reveiceData_of_none g (hbranch.trans h), hv, hdata]
  | some control =>
    cases control with
    | clean =>
      rw [unmark_reveiceData_of_clean g h, unmark_reveiceData_of_clean g (hbranch.trans h),
        hv, hdata]
    | discard =>
      rw [unmark_reveiceData_of_discard g h,
        unmark_reveiceData_of_discard g (hbranch.trans h), hv, hdata]

end ValForwarder

end ValProofs
