import ValProofs.Val.Machine

/-!
Network faces that go away again. `FaceTable::remove` tells VAL about it before
the face is taken out, and all that VAL does then is to take the face off its
list. The tables, the pending packets and the timers keep its identifier.

Two places use a face without asking whether there is one: a timer looks its
out-face up in the face table, and `getValNetFaceId` reads the first element of
the list of network faces.
-/

namespace ValProofs

open Lib Pft List EventQueue

namespace FaceTable

/-- `m_faces.erase`; an identifier is not given out again. -/
def remove (table : FaceTable) (id : ℕ) : FaceTable where
  faces := table.faces.filter fun e => e.1 ≠ id
  lastFaceId := table.lastFaceId
  fresh e he := table.fresh e (List.mem_filter.mp he).1

theorem get_remove_self (table : FaceTable) (id : ℕ) : (table.remove id).get id = none := by
  rw [get, remove, Option.map_eq_none_iff, find?_eq_none]
  intro e he
  have hne := (mem_filter.mp he).2
  simpa using hne

theorem get_remove_of_ne {id id' : ℕ} (table : FaceTable) (hne : id' ≠ id) :
    (table.remove id).get id' = table.get id' := by
  rw [get, get, remove]
  dsimp only
  induction table.faces with
  | nil => rfl
  | cons e faces ih =>
    by_cases hid : e.1 = id
    · rw [filter_cons_of_neg (by simpa using hid), ih,
        find?_cons_of_neg (by simpa [hid] using hne.symm)]
    · rw [filter_cons_of_pos (by simpa using hid), find?_cons, find?_cons]
      cases decide (e.1 = id') with
      | true => rfl
      | false => exact ih

theorem get_of_get_remove {table : FaceTable} {id id' : ℕ} {face : Face}
    (h : (table.remove id).get id' = some face) : table.get id' = some face := by
  by_cases hid : id' = id
  · rw [hid, get_remove_self] at h
    cases h
  · rwa [get_remove_of_ne table hid] at h

theorem GeofacesMade.remove {table : FaceTable} (h : table.GeofacesMade) (id : ℕ) :
    (table.remove id).GeofacesMade :=
  fun id' face hget hgeo => h id' face (get_of_get_remove hget) hgeo

end FaceTable

/-- The call reads the first network face. -/
def StrategyCall.readsNetworkFaces : StrategyCall → Bool
  | .ifntHit _ _ => false
  | .ifntMiss _ => true
  | .dfntHit _ _ _ => false
  | .dfntMiss _ _ _ => true

namespace Pft

/-- The state of the entry in which the callback does something. -/
def CallbackKind.tests : CallbackKind → EntryState
  | .forwarding => .waitingForwarding
  | .impAck => .waitingImplicitAck

namespace Pending

@[simp] theorem log_arm (s : Pending) (callback : Callback) : (s.arm callback).log = s.log := rfl

@[simp] theorem log_removeEntry (s : Pending) (valPkt : ValPacket) :
    (s.removeEntry valPkt).1.log = s.log := rfl

/-- What a callback that does something writes into the log: it sends through the
face, if that is a `ValNetFace`, or finds that there is none. -/
def attempt (faces : FaceTable) (s : Pending) (p outFaceId : ℕ) : List Action :=
  match faces.get outFaceId with
  | none => [.nullFace outFaceId]
  | some outFace =>
      if outFace.isValNetFace then [.transmit p (s.heap p).valPkt outFaceId] else []

theorem nullFace_mem_attempt {faces : FaceTable} {s : Pending} {p outFaceId faceId : ℕ} :
    Action.nullFace faceId ∈ s.attempt faces p outFaceId ↔
      faces.get outFaceId = none ∧ faceId = outFaceId := by
  rw [attempt]
  cases faces.get outFaceId with
  | none => simp
  | some outFace => cases outFace.isValNetFace <;> simp

theorem log_forwardingTimerCallback (faces : FaceTable) (s : Pending) (p outFaceId : ℕ) :
    (forwardingTimerCallback faces s p outFaceId).log = s.log ++
      if (s.heap p).state = .waitingForwarding then s.attempt faces p outFaceId else [] := by
  rw [forwardingTimerCallback, attempt]
  split
  · cases faces.get outFaceId with
    | none => rfl
    | some outFace =>
      dsimp only
      split
      · split
        · rw [log_removeEntry, log_cancel, log_arm, log_modify, transmit]
        · rw [log_arm, log_modify, transmit]
      · rw [append_nil]
  · rw [append_nil]

theorem log_impAckTimerCallback (faces : FaceTable) (s : Pending) (p outFaceId : ℕ) :
    (impAckTimerCallback faces s p outFaceId).log = s.log ++
      if (s.heap p).state = .waitingImplicitAck then s.attempt faces p outFaceId else [] := by
  rw [impAckTimerCallback, attempt]
  split
  · cases faces.get outFaceId with
    | none => rfl
    | some outFace =>
      dsimp only
      split
      · split
        · rw [log_arm, log_modify, transmit]
        · rw [log_removeEntry, log_modify, transmit]
      · rw [append_nil]
  · rw [append_nil]

theorem log_fire {faces : FaceTable} {s : Pending} {id : ℕ} {callback : Callback}
    (hpend : s.queue.Pending id callback) :
    (s.fire faces id).log = s.log ++
      if (s.heap callback.entry).state = callback.kind.tests then
        s.attempt faces callback.entry callback.outFaceId
      else [] := by
  rw [fire, callback?_eq_some.mpr hpend]
  dsimp only
  cases callback.kind with
  | forwarding => exact log_forwardingTimerCallback faces { s with queue := s.queue.cancel id } ..
  | impAck => exact log_impAckTimerCallback faces { s with queue := s.queue.cancel id } ..

theorem log_register (s : Pending) (out : Option Outgoing) :
    (ValForwarder.register s out).1.log = s.log := by
  cases out with
  | none => rfl
  | some out =>
    rw [ValForwarder.register, registerOutgoingValPacket, addEntry]
    cases s.findMatch (Entry.make out.valPkt out.outFaceId).valPkt <;> rfl

theorem log_cancelPendingInterests (s : Pending) (nonceList : List Nonce) :
    (s.cancelPendingInterests nonceList).log = s.log := by
  have hcancel : ∀ (ps : List ℕ) (t : Pending),
      (ps.foldl (fun t p => t.cancel (t.heap p).timerId) t).log = t.log := by
    intro ps
    induction ps with
    | nil => exact fun _ => rfl
    | cons p ps ih => exact fun t => (ih _).trans (log_cancel t _)
  have hremove : ∀ (ps : List ℕ) (t : Pending),
      (t.removeEntriesByMatchList ps).log = t.log := by
    intro ps
    induction ps with
    | nil => exact fun _ => rfl
    | cons p ps ih => exact fun t => (ih _).trans (log_removeEntry t _)
  rw [cancelPendingInterests, hremove, hcancel]

end Pending

end Pft

open Pending

namespace ValForwarder

/-- The first occurrence is erased. -/
def removeFromNetworkFaceList (v : ValForwarder) (faceId : ℕ) : ValForwarder :=
  { v with networkFaces := v.networkFaces.erase faceId }

def cleanupOnFaceRemoval (v : ValForwarder) (faceId : ℕ) : ValForwarder :=
  v.removeFromNetworkFaceList faceId

/-- `FaceTable::remove`, with what it makes VAL do. -/
def removeFace (v : ValForwarder) (faceId : ℕ) : ValForwarder :=
  let v :=
    if v.faces.has Face.isValNetFace faceId then v.cleanupOnFaceRemoval faceId else v
  { v with faces := v.faces.remove faceId }

@[simp] theorem faces_removeFace (v : ValForwarder) (faceId : ℕ) :
    (v.removeFace faceId).faces = v.faces.remove faceId := by
  rw [removeFace]
  split <;> rfl

@[simp] theorem f2a_removeFace (v : ValForwarder) (faceId : ℕ) :
    (v.removeFace faceId).f2a = v.f2a := by
  rw [removeFace]
  split <;> rfl

/-! ### Runs with removals -/

inductive Churn
  | event (e : Event)
  | removeFace (faceId : ℕ)

/-- A run starts with the constructor, so that there may be no network face yet. -/
def churn (g : Geometry) : System ValForwarder Churn where
  init v := ∃ faces mobility, v = construct faces mobility
  guard v
    | .event e => v.guard e
    | .removeFace faceId => (v.faces.get faceId).isSome
  next v
    | .event e => v.next g e
    | .removeFace faceId => v.removeFace faceId

/-- The step uses a null `Face*`, or reads the first element of an empty list of
network faces. -/
def Crashes (g : Geometry) (v : ValForwarder) (e : Churn) : Prop :=
  (∃ faceId, Action.nullFace faceId ∈
      ((churn g).next v e).pending.log.drop v.pending.log.length) ∨
    v.networkFaces = [] ∧
      ∃ call ∈ ((churn g).next v e).calls.drop v.calls.length, call.call.readsNetworkFaces = true

/-- The face of a timer that fires is still there, unless its entry has left the
state that the timer is for, and there is a network face when NFD hands down a
packet that VAL does not relay. -/
def Served (v : ValForwarder) : Churn → Prop
  | .event (.fire id) => ∀ callback, v.pending.queue.Pending id callback →
      (v.pending.heap callback.entry).state = callback.kind.tests →
      (v.faces.get callback.outFaceId).isSome
  | .event (.interestFromNfd _ interest) =>
      Ifnt.findMatchByNonce v.ifnt interest.nonce = none → v.networkFaces ≠ []
  | .event (.dataFromNfd _ data _ isProducer) =>
      data.getCongestionMark ≠ 501 →
      Dfnt.findMatch v.dfnt data.signature = none ∨ isProducer = true → v.networkFaces ≠ []
  | _ => True

/-! ### What a step adds -/

/-- A step that does nothing with faces. -/
theorem not_crashes_of_same {g : Geometry} {v : ValForwarder} {e : Churn}
    (hlog : ((churn g).next v e).pending.log = v.pending.log)
    (hcalls : ((churn g).next v e).calls = v.calls) : ¬ v.Crashes g e := by
  rw [Crashes, hlog, hcalls, drop_length, drop_length]
  rintro (⟨faceId, hmem⟩ | ⟨-, call, hmem, -⟩)
  · cases hmem
  · cases hmem

/-- A step that calls the strategy once. -/
theorem crashes_of_call {g : Geometry} {v : ValForwarder} {e : Churn} {call : Call}
    (hlog : ((churn g).next v e).pending.log = v.pending.log)
    (hcalls : ((churn g).next v e).calls = v.calls ++ [call]) :
    v.Crashes g e ↔ v.networkFaces = [] ∧ call.call.readsNetworkFaces = true := by
  rw [Crashes, hlog, hcalls, drop_length, drop_left]
  simp

theorem crashes_interestFromNfd (g : Geometry) (v : ValForwarder) (inGeoface : ℕ)
    (interest : Interest) :
    v.Crashes g (.event (.interestFromNfd inGeoface interest)) ↔
      v.networkFaces = [] ∧ Ifnt.findMatchByNonce v.ifnt interest.nonce = none := by
  have hnext := reveiceInterest_eq g v inGeoface interest
  change (churn g).next v (.event (.interestFromNfd inGeoface interest)) = _ at hnext
  rw [crashes_of_call (by rw [hnext]; exact Pending.log_register ..) (by rw [hnext]; rfl)]
  cases Ifnt.findMatchByNonce v.ifnt interest.nonce <;> simp [StrategyCall.readsNetworkFaces]

theorem crashes_dataFromNfd (g : Geometry) (v : ValForwarder) (inGeoface : ℕ) (data : Data)
    (nonceList : Option (List Nonce)) (isProducer : Bool) :
    v.Crashes g (.event (.dataFromNfd inGeoface data nonceList isProducer)) ↔
      v.networkFaces = [] ∧ data.getCongestionMark ≠ 501 ∧
        (Dfnt.findMatch v.dfnt data.signature = none ∨ isProducer = true) := by
  have hdel := delivered g v inGeoface data nonceList isProducer
  generalize hnext : v.reveiceData g inGeoface data nonceList isProducer = v' at hdel
  change (churn g).next v (.event (.dataFromNfd inGeoface data nonceList isProducer)) = v' at hnext
  cases hdel with
  | control hmark =>
    have hnot := not_crashes_of_same (g := g) (v := v)
      (e := .event (.dataFromNfd inGeoface data nonceList isProducer)) (by rw [hnext])
      (by rw [hnext])
    exact iff_of_false hnot fun h => h.2.1 hmark
  | cleaned dfntEntry hmark hfind hrelay =>
    have hnot := not_crashes_of_same (g := g) (v := v)
      (e := .event (.dataFromNfd inGeoface data nonceList isProducer))
      (by rw [hnext]; exact log_cancelPendingInterests ..) (by rw [hnext]; rfl)
    refine iff_of_false hnot fun h => ?_
    simp [hfind, hrelay] at h
  | relayed dfntEntry hmark hmark' hfind hrelay =>
    rw [crashes_of_call (by
      rw [hnext]
      exact (Pending.log_register ..).trans (log_cancelPendingInterests ..))
      (by rw [hnext]; rfl)]
    simp [StrategyCall.readsNetworkFaces, hfind, hrelay]
  | originated hmark horigin =>
    rw [crashes_of_call (by rw [hnext]; exact Pending.log_register ..) (by rw [hnext]; rfl)]
    simp [StrategyCall.readsNetworkFaces, hmark, horigin]

theorem crashes_fire (g : Geometry) (v : ValForwarder) (id : ℕ) :
    v.Crashes g (.event (.fire id)) ↔
      ∃ callback, v.pending.queue.Pending id callback ∧
        (v.pending.heap callback.entry).state = callback.kind.tests ∧
        v.faces.get callback.outFaceId = none := by
  have hcalls : ((churn g).next v (.event (.fire id))).calls = v.calls := rfl
  have hlog : ((churn g).next v (.event (.fire id))).pending.log =
      (v.pending.fire v.faces id).log := rfl
  cases hfind : v.pending.queue.callback? id with
  | none =>
    have hsame : v.pending.fire v.faces id = v.pending := by rw [Pending.fire, hfind]
    refine iff_of_false (not_crashes_of_same (by rw [hlog, hsame]) hcalls) ?_
    rintro ⟨callback, hpend, -⟩
    rw [callback?_eq_some.mpr hpend] at hfind
    cases hfind
  | some callback =>
    have hpend := callback?_eq_some.mp hfind
    rw [Crashes, hcalls, hlog, log_fire hpend, drop_length, drop_left]
    constructor
    · rintro (⟨faceId, hmem⟩ | ⟨-, call, hmem, -⟩)
      · split at hmem
        · rename_i hstate
          exact ⟨callback, hpend, hstate, (nullFace_mem_attempt.mp hmem).1⟩
        · cases hmem
      · cases hmem
    · rintro ⟨callback', hpend', hstate, hnone⟩
      obtain rfl := hpend'.unique hpend
      rw [if_pos hstate]
      exact .inl ⟨_, nullFace_mem_attempt.mpr ⟨hnone, rfl⟩⟩

/-- **The step lemma.** -/
theorem not_crashes_iff_served (g : Geometry) (v : ValForwarder) (e : Churn) :
    ¬ v.Crashes g e ↔ v.Served e := by
  cases e with
  | removeFace faceId =>
    refine iff_of_true (not_crashes_of_same ?_ ?_) trivial
    · change (v.removeFace faceId).pending.log = _
      rw [removeFace]
      split <;> rfl
    · change (v.removeFace faceId).calls = _
      rw [removeFace]
      split <;> rfl
  | event e =>
    cases e with
    | receive face valP =>
      refine iff_of_true (not_crashes_of_same ?_ (calls_onReceivedValPacket ..)) trivial
      have hrec := received v face valP
      change (v.onReceivedValPacket face valP).1.pending.log = _
      generalize (v.onReceivedValPacket face valP).1 = v' at hrec
      cases hrec with
      | dropped => exact (preProcessing_quiet ..).2
      | interest | again | data | invalid => rfl
    | interestFromNfd inGeoface interest =>
      rw [crashes_interestFromNfd, Served]
      tauto
    | dataFromNfd inGeoface data nonceList isProducer =>
      rw [crashes_dataFromNfd, Served]
      tauto
    | fire id =>
      rw [crashes_fire, Served]
      simp only [not_exists, not_and, ← Option.isSome_iff_ne_none]
    | addFace face | move mobility => exact iff_of_true (not_crashes_of_same rfl rfl) trivial

/-- A run does without crashes exactly if, at each of its steps, the timer that
fires has its face or there is a network face for what NFD hands down. -/
theorem churn_crash_free_iff (g : Geometry) (v : ValForwarder) (es : List Churn) :
    (∀ before e after, es = before ++ e :: after →
        ¬ (before.foldl (churn g).next v).Crashes g e) ↔
      ∀ before e after, es = before ++ e :: after →
        (before.foldl (churn g).next v).Served e := by
  simp only [not_crashes_iff_served]

/-- The network face goes while an Interest waits to be sent through it. -/
def removedTooEarly : List Churn :=
  [.event (.addFace netFace), .event (.interestFromNfd 256 sampleInterest), .removeFace 257]

theorem removal_crashes :
    ∃ v, (churn flatGeometry).Reachable v ∧
      ((churn flatGeometry).guard v (.event (.fire 0)) ∧
        v.Crashes flatGeometry (.event (.fire 0))) ∧
      (churn flatGeometry).guard v (.event (.interestFromNfd 256 sampleInterest)) ∧
        v.Crashes flatGeometry (.event (.interestFromNfd 256 sampleInterest)) := by
  have hstart : (churn flatGeometry).Reachable (construct .empty ⟨"0:0:0", "A1", 10000⟩) :=
    .of_init ⟨_, _, rfl⟩
  have henabled : (churn flatGeometry).Enabled (construct .empty ⟨"0:0:0", "A1", 10000⟩)
      removedTooEarly := by
    refine .cons trivial (.cons trivial (.cons ?_ (.nil _)))
    exact (rfl : Option.isSome (some netFace) = true)
  refine ⟨_, hstart.foldl henabled, ⟨?_, ?_⟩, trivial, ?_⟩
  · exact ⟨⟨.forwarding, 0, 257, 0⟩, List.mem_singleton.mpr rfl⟩
  · exact (crashes_fire ..).mpr ⟨⟨.forwarding, 0, 257, 0⟩, List.mem_singleton.mpr rfl, rfl, rfl⟩
  · exact (crashes_interestFromNfd ..).mpr ⟨rfl, rfl⟩

end ValForwarder

end ValProofs
