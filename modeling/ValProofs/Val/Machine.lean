import ValProofs.Pft.Transmission
import ValProofs.Val.Forwarder

/-!
`ValForwarder` as a machine that reacts to events, under an NFD that may hand
down any Interest and any Data at any time.

The forwarder cannot work before it has a `ValNetFace`: only then does it get
the mobility model, and `getValNetFaceId` reads the first network face. A run
starts when the first such face has been added, and none is removed.
-/

namespace ValProofs

open Lib Pft FaceTable.Extends Pending FaceTable Dfnt List

namespace ValForwarder

inductive Event
  | receive (face : ℕ) (valP : ValPacket)
  | interestFromNfd (inGeoface : ℕ) (interest : Interest)
  | dataFromNfd (inGeoface : ℕ) (data : Data) (nonceList : Option (List Nonce))
      (isProducer : Bool)
  | fire (id : ℕ)
  | addFace (face : Face)
  | move (mobility : Mobility)

def next (g : Geometry) (v : ValForwarder) : Event → ValForwarder
  | .receive face valP => (v.onReceivedValPacket face valP).1
  | .interestFromNfd inGeoface interest => v.reveiceInterest g inGeoface interest
  | .dataFromNfd inGeoface data nonceList isProducer =>
      v.reveiceData g inGeoface data nonceList isProducer
  | .fire id => v.fire id
  | .addFace face => v.addFace face
  | .move mobility => { v with mobility := mobility }

/-- Packets come in on a network face, the null list only with the mark 501,
and the scheduler only runs what is pending. -/
def guard (v : ValForwarder) : Event → Prop
  | .receive face _ => face ∈ v.networkFaces
  | .dataFromNfd _ data nonceList _ => nonceList = none → data.getCongestionMark = 501
  | .fire id => ∃ callback, v.pending.queue.Pending id callback
  | _ => True

def Init (v : ValForwarder) : Prop :=
  ∃ faces mobility face, face.isValNetFace = true ∧
    v = (construct faces mobility).addFace face

def machine (g : Geometry) : System ValForwarder Event where
  init := Init
  guard := guard
  next := next g

/-! ### What a handler leaves alone -/

/-- The effects on the PFT of one event, one after the other. -/
inductive Changes (faces : FaceTable) : Pending → Pending → Prop
  | nil (s : Pending) : Changes faces s s
  | cons {s s' s'' : Pending} : Pending.Change faces s s' → Changes faces s' s'' →
      Changes faces s s''

variable {s : Pending}

theorem Changes.single {faces : FaceTable} {s' : Pending} (h : Change faces s s') :
    Changes faces s s' :=
  .cons h (.nil _)

/-- An invariant of the effects is one of an event. -/
theorem Changes.invariant {faces : FaceTable} {s' : Pending} {I : Pending → Prop}
    (h : Changes faces s s') (hcoh : Coherent faces s) (hI : I s)
    (hstep : ∀ t t', Coherent faces t → Change faces t t' → I t → I t') :
    Coherent faces s' ∧ I s' := by
  induction h with
  | nil => exact ⟨hcoh, hI⟩
  | cons hchange _ ih => exact ih (hcoh.change hchange) (hstep _ _ hcoh hchange hI)

theorem makeGeoFace_frame (v : ValForwarder) (area : String) :
    ∃ faces f2a, (v.makeGeoFace area).1 = { v with faces := faces, f2a := f2a } ∧
      faces.Extends v.faces := by
  unfold makeGeoFace
  cases F2a.findByGeoArea v.f2a area with
  | some entry => exact ⟨v.faces, v.f2a, rfl, refl _⟩
  | none => exact ⟨_, _, rfl, extends_add _ _⟩

/-- Making geofaces touches the face table and the map of areas only. -/
theorem makeGeoFaceFromValHeader_frame (v : ValForwarder) (valH : ValHeader) :
    ∃ faces f2a, (v.makeGeoFaceFromValHeader valH).1 = { v with faces := faces, f2a := f2a } ∧
      faces.Extends v.faces := by
  obtain ⟨faces, f2a, heq, hext⟩ := makeGeoFace_frame v valH.sa
  obtain ⟨faces', f2a', heq', hext'⟩ :=
    makeGeoFace_frame { v with faces := faces, f2a := f2a } valH.da
  refine ⟨faces', f2a', ?_, hext.trans hext'⟩
  simp only [makeGeoFaceFromValHeader, heq, heq']

variable {v : ValForwarder}

theorem allFaces_makeGeoFace {P : Face → Prop} (h : v.faces.All P) (hP : P makeGeoface)
    (area : String) : (v.makeGeoFace area).1.faces.All P := by
  unfold makeGeoFace
  cases F2a.findByGeoArea v.f2a area with
  | some entry => exact h
  | none => exact h.add hP

theorem makeGeoFaceFromValHeader_remote (h : v.faces.GeofacesRemote) (valH : ValHeader) :
    (v.makeGeoFaceFromValHeader valH).1.faces.GeofacesRemote :=
  allFaces_makeGeoFace (allFaces_makeGeoFace h (fun _ => rfl) valH.sa) (fun _ => rfl) valH.da

/-! ### What a reception does -/

/-- The state after a reception. Only a packet that passed the preprocessing
reaches the tables, and the PFT is then as before. -/
inductive Received (v : ValForwarder) (face : ℕ) (valP : ValPacket) : ValForwarder → Prop
  | dropped (hpre : (v.pending.preProcessingValPacket valP).2 = false) :
      Received v face valP
        { v with pending := (v.pending.preProcessingValPacket valP).1 }
  | interest (i : Interest) (faces : FaceTable) (f2a : List F2a.Entry)
      (hpre : v.pending.findMatch valP = none) (hpay : valP.payload = .interest i)
      (hnew : Ifnt.Entry.make valP.valHeader i face ∉ v.ifnt) (hext : faces.Extends v.faces) :
      Received v face valP
        { v with
          ifnt := v.ifnt ++ [Ifnt.Entry.make valP.valHeader i face]
          faces := faces
          f2a := f2a }
  | again (i : Interest) (hpre : v.pending.findMatch valP = none)
      (hpay : valP.payload = .interest i)
      (hold : Ifnt.Entry.make valP.valHeader i face ∈ v.ifnt) : Received v face valP v
  | data (d : Data) (faces : FaceTable) (f2a : List F2a.Entry)
      (hpre : v.pending.findMatch valP = none) (hpay : valP.payload = .data d)
      (hext : faces.Extends v.faces) :
      Received v face valP
        { v with
          dfnt := Dfnt.Entry.make valP.valHeader d face :: v.dfnt
          faces := faces
          f2a := f2a }
  | invalid (hpay : valP.payload = .notSet) :
      Received v face valP { v with invalidIN := v.invalidIN + 1 }

theorem received (v : ValForwarder) (face : ℕ) (valP : ValPacket) :
    Received v face valP (v.onReceivedValPacket face valP).1 := by
  cases hpre : (v.pending.preProcessingValPacket valP).2 with
  | false =>
    have heq : v.pending.preProcessingValPacket valP =
        ((v.pending.preProcessingValPacket valP).1, false) := by rw [← hpre]
    rw [onReceivedValPacket, heq]
    exact .dropped hpre
  | true =>
    have hfind := preProcessing_true hpre
    rw [onReceivedValPacket, preProcessing_none hfind]
    cases hpay : valP.payload with
    | notSet => exact .invalid hpay
    | interest i =>
      simp only [processInterestFromNetwork, Ifnt.addEntry]
      by_cases hold : Ifnt.Entry.make valP.valHeader i face ∈ v.ifnt
      · rw [if_pos hold]
        exact .again i hfind hpay hold
      · rw [if_neg hold]
        obtain ⟨faces, f2a, heq, hext⟩ := makeGeoFaceFromValHeader_frame
          { v with ifnt := v.ifnt ++ [Ifnt.Entry.make valP.valHeader i face] }
          valP.valHeader
        simp only [heq]
        exact .interest i faces f2a hfind hpay hold hext
    | data d =>
      obtain ⟨faces, f2a, heq, hext⟩ := makeGeoFaceFromValHeader_frame
        { v with dfnt := Dfnt.Entry.make valP.valHeader d face :: v.dfnt } valP.valHeader
      simp only [processDataFromNetwork, Dfnt.addEntry, heq]
      exact .data d faces f2a hfind hpay hext

variable {geoface : ℕ}

theorem toForwarder_eq_some {packet packet' : ToNfd}
    (h : v.toForwarder geoface packet = some packet') :
    packet' = packet ∧ v.faces.IsGeo geoface := by
  unfold toForwarder at h
  cases hget : v.faces.get geoface with
  | none => simp [hget] at h
  | some face =>
    cases hgeo : face.isGeoFace with
    | false => simp [hget, hgeo] at h
    | true =>
      simp only [hget, hgeo, if_true, Option.some.injEq] at h
      exact ⟨h.symm, face, hget, hgeo⟩

/-- Nothing is taken out of the face table or the IFNT. -/
theorem onReceivedValPacket_grows (v : ValForwarder) (face : ℕ) (valP : ValPacket) :
    (v.onReceivedValPacket face valP).1.faces.Extends v.faces ∧
      v.ifnt ⊆ (v.onReceivedValPacket face valP).1.ifnt := by
  have hrec := received v face valP
  generalize (v.onReceivedValPacket face valP).1 = v' at hrec
  cases hrec with
  | dropped => exact ⟨.refl _, Subset.refl _⟩
  | interest i faces f2a _ _ _ hext => exact ⟨hext, subset_append_left _ _⟩
  | again => exact ⟨.refl _, Subset.refl _⟩
  | data d faces f2a _ _ hext => exact ⟨hext, Subset.refl _⟩
  | invalid => exact ⟨.refl _, Subset.refl _⟩

theorem calls_onReceivedValPacket (v : ValForwarder) (face : ℕ) (valP : ValPacket) :
    (v.onReceivedValPacket face valP).1.calls = v.calls := by
  have hrec := received v face valP
  generalize (v.onReceivedValPacket face valP).1 = v' at hrec
  cases hrec <;> rfl

variable {v' : ValForwarder} {face : ℕ} {valP : ValPacket}

/-- What reaches NFD has passed the preprocessing, which leaves the PFT alone. -/
theorem toNfd_processed {packet : ToNfd}
    (h : v.onReceivedValPacket face valP = (v', some packet)) :
    (∃ i, valP.payload = .interest i ∧
        v.processInterestFromNetwork face valP.valHeader i = (v', some packet)) ∨
      ∃ d, valP.payload = .data d ∧
        v.processDataFromNetwork face valP.valHeader d = (v', some packet) := by
  rw [onReceivedValPacket] at h
  split at h
  · cases h
  · rename_i pending hpre
    have hnone := preProcessing_true (s := v.pending) (by rw [hpre])
    rw [preProcessing_none hnone] at hpre
    cases hpre
    cases hpay : valP.payload with
    | notSet => simp [hpay] at h
    | interest i => exact .inl ⟨i, rfl, by simpa [hpay] using h⟩
    | data d => exact .inr ⟨d, rfl, by simpa [hpay] using h⟩

/-- An Interest that reaches NFD comes through a geoface, is new in the IFNT, and
has the face of its destination if it names one. -/
theorem toNfd_interest_eq {interest : Interest}
    (h : v.onReceivedValPacket face valP = (v', some (.interest geoface interest))) :
    ∃ i, valP.payload = .interest i ∧
      let made := { v with ifnt := v.ifnt ++ [Ifnt.Entry.make valP.valHeader i face]
        }.makeGeoFaceFromValHeader valP.valHeader
      v' = made.1 ∧ v'.faces.IsGeo geoface ∧
        interest = if valP.valHeader.da ≠ "0" then { i with nextHopFaceId := some made.2.2 }
          else i := by
  rcases toNfd_processed h with ⟨i, hpay, hin⟩ | ⟨d, hpay, hin⟩
  · refine ⟨i, hpay, ?_⟩
    rw [processInterestFromNetwork, Ifnt.addEntry] at hin
    split at hin
    · cases hin
    · rename_i hadd
      split at hadd
      · cases hadd
      · cases hadd
        simp only [Prod.mk.injEq] at hin
        obtain ⟨rfl, hto⟩ := hin
        obtain ⟨hpacket, hgeo⟩ := toForwarder_eq_some hto
        cases hpacket
        exact ⟨rfl, hgeo, rfl⟩
  · simp only [processDataFromNetwork, Prod.mk.injEq] at hin
    cases (toForwarder_eq_some hin.2).1

theorem toNfd_interest {interest : Interest}
    (h : v.onReceivedValPacket face valP = (v', some (.interest geoface interest))) :
    v'.faces.IsGeo geoface ∧
      (∃ i nextHop, valP.payload = .interest i ∧
        interest = { i with nextHopFaceId := nextHop }) ∧
      ∃ entry ∈ v'.ifnt, entry.nonce = interest.nonce := by
  obtain ⟨i, hpay, rfl, hgeo, rfl⟩ := toNfd_interest_eq h
  obtain ⟨faces, f2a, heq, -⟩ := makeGeoFaceFromValHeader_frame
    { v with ifnt := v.ifnt ++ [Ifnt.Entry.make valP.valHeader i face] } valP.valHeader
  refine ⟨hgeo, ⟨i, ?_⟩, Ifnt.Entry.make valP.valHeader i face, ?_, ?_⟩
  · split
    · exact ⟨_, hpay, rfl⟩
    · exact ⟨i.nextHopFaceId, hpay, rfl⟩
  · rw [heq]
    exact mem_append_right _ (mem_singleton.mpr rfl)
  · split <;> rfl

variable {data : Data}

/-- A Data that reaches NFD comes through a geoface, and its entry in the DFNT is
the first one. -/
theorem toNfd_data (h : v.onReceivedValPacket face valP = (v', some (.data geoface data))) :
    v'.faces.IsGeo geoface ∧ valP.payload = .data data ∧
      v' = ({ v with dfnt := Dfnt.Entry.make valP.valHeader data face :: v.dfnt
              }.makeGeoFaceFromValHeader valP.valHeader).1 := by
  rcases toNfd_processed h with ⟨i, hpay, hin⟩ | ⟨d, hpay, hin⟩
  · rw [processInterestFromNetwork] at hin
    split at hin
    · cases hin
    · simp only [Prod.mk.injEq] at hin
      cases (toForwarder_eq_some hin.2).1
  · simp only [processDataFromNetwork, Prod.mk.injEq] at hin
    obtain ⟨rfl, hto⟩ := hin
    obtain ⟨hpacket, hgeo⟩ := toForwarder_eq_some hto
    cases hpacket
    exact ⟨hgeo, hpay, rfl⟩

theorem toNfd_dfnt (h : v.onReceivedValPacket face valP = (v', some (.data geoface data))) :
    v'.dfnt = Dfnt.Entry.make valP.valHeader data face :: v.dfnt := by
  obtain ⟨faces, f2a, hframe, -⟩ := makeGeoFaceFromValHeader_frame
    { v with dfnt := Dfnt.Entry.make valP.valHeader data face :: v.dfnt } valP.valHeader
  rw [(toNfd_data h).2.2, hframe]

/-! ### What NFD's deliveries do -/

/-- What the strategy sends when it is called. -/
def sentBy (g : Geometry) (v : ValForwarder) (inGeoface : ℕ) : StrategyCall → Option Outgoing
  | .ifntHit ifntEntry interest => v.doAfterIfntHit g inGeoface ifntEntry interest
  | .ifntMiss interest => some (v.doAfterIfntMiss inGeoface interest)
  | .dfntHit dfntEntry ifntEntries data => v.doAfterDfntHit g dfntEntry ifntEntries data
  | .dfntMiss data ifntEntries isProducer =>
      some (v.doAfterDfntMiss g inGeoface data ifntEntries isProducer)

/-- The four calls of the strategy in one. -/
def strategy (g : Geometry) (v : ValForwarder) (inGeoface : ℕ) (call : StrategyCall) :
    ValForwarder :=
  v.sendValPacket call (v.sentBy g inGeoface call)

theorem reveiceInterest_eq (g : Geometry) (v : ValForwarder) (inGeoface : ℕ) (interest : Interest) :
    v.reveiceInterest g inGeoface interest =
      v.strategy g inGeoface
        (match Ifnt.findMatchByNonce v.ifnt interest.nonce with
          | some ifntEntry => .ifntHit ifntEntry interest
          | none => .ifntMiss interest) := by
  unfold reveiceInterest
  cases Ifnt.findMatchByNonce v.ifnt interest.nonce <;> rfl

/-- The tables after the entries that belong to a Data have been taken out. -/
def clean (v : ValForwarder) (data : Data) (nonceList : List Nonce) : ValForwarder :=
  { v with
    ifnt := Ifnt.removeEntriesByNonceList v.ifnt nonceList
    dfnt := Dfnt.removeEntryBySignature v.dfnt data.signature }

/-- `reveiceData` with the removal from the DFNT, which all its branches have in
common, done first. -/
theorem reveiceData_eq (g : Geometry) (v : ValForwarder) (inGeoface : ℕ) (data : Data)
    (nonceList : Option (List Nonce)) (isProducer : Bool) :
    v.reveiceData g inGeoface data nonceList isProducer =
      if data.getCongestionMark = 501 then
        { v with dfnt := removeEntryBySignature v.dfnt data.signature }
      else
        let nonces := nonceList.getD []
        let ifntEntries := Ifnt.findMatchByNonceList v.ifnt nonces
        match findMatch v.dfnt data.signature, isProducer with
        | some dfntEntry, false =>
          let v := { v.clean data nonces with
            pending := v.pending.cancelPendingInterests nonces }
          if data.getCongestionMark = 500 then v
          else v.afterDfntHit g dfntEntry ifntEntries data
        | _, _ => (v.clean data nonces).afterDfntMiss g inGeoface data ifntEntries isProducer := by
  unfold reveiceData clean
  split
  · cases hfind : findMatch v.dfnt data.signature with
    | none => simp [removeEntryBySignature_of_findMatch hfind]
    | some entry => simp [removeEntry_of_findMatch hfind]
  · cases hfind : findMatch v.dfnt data.signature with
    | none => simp [removeEntryBySignature_of_findMatch hfind, hfind]
    | some entry =>
      cases isProducer with
      | false => simp [hfind, removeEntry_of_findMatch hfind]
      | true =>
        simp only [hfind, ← removeEntry_of_findMatch hfind]
        rfl

/-- Control Data only takes its entry out of the DFNT. -/
theorem reveiceData_control (g : Geometry) (v : ValForwarder) (inGeoface : ℕ)
    (hmark : data.getCongestionMark = 501) (nonceList : Option (List Nonce)) (isProducer : Bool) :
    v.reveiceData g inGeoface data nonceList isProducer =
      { v with dfnt := removeEntryBySignature v.dfnt data.signature } := by
  rw [reveiceData_eq, if_pos hmark]

/-- The state after `reveiceData`. -/
inductive Delivered (g : Geometry) (v : ValForwarder) (inGeoface : ℕ) (data : Data)
    (nonceList : Option (List Nonce)) (isProducer : Bool) : ValForwarder → Prop
  | control (hmark : data.getCongestionMark = 501) :
      Delivered g v inGeoface data nonceList isProducer
        { v with dfnt := Dfnt.removeEntryBySignature v.dfnt data.signature }
  | cleaned (dfntEntry : Dfnt.Entry) (hmark : data.getCongestionMark = 500)
      (hfind : Dfnt.findMatch v.dfnt data.signature = some dfntEntry)
      (hrelay : isProducer = false) :
      Delivered g v inGeoface data nonceList isProducer
        { v.clean data (nonceList.getD []) with
          pending := v.pending.cancelPendingInterests (nonceList.getD []) }
  | relayed (dfntEntry : Dfnt.Entry) (hmark : data.getCongestionMark ≠ 501)
      (hmark' : data.getCongestionMark ≠ 500)
      (hfind : Dfnt.findMatch v.dfnt data.signature = some dfntEntry)
      (hrelay : isProducer = false) :
      Delivered g v inGeoface data nonceList isProducer
        (strategy g
          { v.clean data (nonceList.getD []) with
            pending := v.pending.cancelPendingInterests (nonceList.getD []) }
          inGeoface
          (.dfntHit dfntEntry (Ifnt.findMatchByNonceList v.ifnt (nonceList.getD [])) data))
  | originated (hmark : data.getCongestionMark ≠ 501)
      (horigin : Dfnt.findMatch v.dfnt data.signature = none ∨ isProducer = true) :
      Delivered g v inGeoface data nonceList isProducer
        (strategy g (v.clean data (nonceList.getD [])) inGeoface
          (.dfntMiss data (Ifnt.findMatchByNonceList v.ifnt (nonceList.getD [])) isProducer))

theorem delivered (g : Geometry) (v : ValForwarder) (inGeoface : ℕ) (data : Data)
    (nonceList : Option (List Nonce)) (isProducer : Bool) :
    Delivered g v inGeoface data nonceList isProducer
      (v.reveiceData g inGeoface data nonceList isProducer) := by
  rw [reveiceData_eq]
  by_cases hmark : data.getCongestionMark = 501
  · rw [if_pos hmark]
    exact .control hmark
  · rw [if_neg hmark]
    cases hfind : findMatch v.dfnt data.signature with
    | none => exact .originated hmark (.inl hfind)
    | some dfntEntry =>
      cases isProducer with
      | true => exact .originated hmark (.inr rfl)
      | false =>
        by_cases hmark' : data.getCongestionMark = 500
        · simp only [if_pos hmark']
          exact .cleaned dfntEntry hmark' hfind rfl
        · simp only [if_neg hmark']
          exact .relayed dfntEntry hmark hmark' hfind rfl

@[simp] theorem faces_reveiceData (g : Geometry) (v : ValForwarder) (inGeoface : ℕ) (data : Data)
    (nonceList : Option (List Nonce)) (isProducer : Bool) :
    (v.reveiceData g inGeoface data nonceList isProducer).faces = v.faces := by
  have hdel := delivered g v inGeoface data nonceList isProducer
  generalize v.reveiceData g inGeoface data nonceList isProducer = v' at hdel
  cases hdel <;> rfl

@[simp] theorem faces_reveiceInterest (g : Geometry) (v : ValForwarder) (inGeoface : ℕ)
    (interest : Interest) : (v.reveiceInterest g inGeoface interest).faces = v.faces := by
  rw [reveiceInterest_eq]
  rfl

theorem f2a_reveiceInterest (g : Geometry) (v : ValForwarder) (inGeoface : ℕ)
    (interest : Interest) : (v.reveiceInterest g inGeoface interest).f2a = v.f2a := by
  rw [reveiceInterest_eq]
  rfl

theorem f2a_reveiceData (g : Geometry) (v : ValForwarder) (inGeoface : ℕ) (data : Data)
    (nonceList : Option (List Nonce)) (isProducer : Bool) :
    (v.reveiceData g inGeoface data nonceList isProducer).f2a = v.f2a := by
  have hdel := delivered g v inGeoface data nonceList isProducer
  generalize v.reveiceData g inGeoface data nonceList isProducer = v' at hdel
  cases hdel <;> rfl

theorem ifnt_reveiceData (g : Geometry) (v : ValForwarder) (inGeoface : ℕ) (data : Data)
    (nonceList : Option (List Nonce)) (isProducer : Bool) :
    (v.reveiceData g inGeoface data nonceList isProducer).ifnt =
      if data.getCongestionMark = 501 then v.ifnt
      else Ifnt.removeEntriesByNonceList v.ifnt (nonceList.getD []) := by
  have hdel := delivered g v inGeoface data nonceList isProducer
  generalize v.reveiceData g inGeoface data nonceList isProducer = v' at hdel
  cases hdel with
  | control hmark => rw [if_pos hmark]
  | cleaned _ hmark => rw [if_neg (by rw [hmark]; decide)]; rfl
  | relayed _ hmark | originated hmark => rw [if_neg hmark]; rfl

/-! ### The network faces -/

/-- Whatever the forwarder can be asked to send goes out on a network face. -/
structure Sound (v : ValForwarder) : Prop where
  coherent : Pending.Coherent v.faces v.pending
  nonempty : v.networkFaces ≠ []
  valNet : ∀ id ∈ v.networkFaces, v.faces.IsValNet id
  ifnt : ∀ entry ∈ v.ifnt, entry.faceId ∈ v.networkFaces
  dfnt : ∀ entry ∈ v.dfnt, entry.faceId ∈ v.networkFaces

/-- The entry a call relays was received on a network face. -/
def relays (v : ValForwarder) : StrategyCall → Prop
  | .ifntHit ifntEntry _ => ifntEntry.faceId ∈ v.networkFaces
  | .dfntHit dfntEntry _ _ => dfntEntry.faceId ∈ v.networkFaces
  | _ => True

theorem getValNetFaceId_mem (h : v.networkFaces ≠ []) : v.getValNetFaceId ∈ v.networkFaces := by
  unfold getValNetFaceId
  cases hfaces : v.networkFaces with
  | nil => exact absurd hfaces h
  | cons id ids => simp

variable {g : Geometry} {inGeoface : ℕ} {call : StrategyCall}

/-- The strategy sends Interests and Data, on network faces. -/
theorem sentBy_some {out : Outgoing} (hnonempty : v.networkFaces ≠ []) (hrelay : v.relays call)
    (h : v.sentBy g inGeoface call = some out) :
    out.outFaceId ∈ v.networkFaces ∧ out.valPkt.payload ≠ .notSet := by
  cases call with
  | ifntHit ifntEntry interest =>
    obtain ⟨-, hface, hpay, -⟩ := doAfterIfntHit_eq_some h
    exact ⟨hface ▸ hrelay, by simp [hpay]⟩
  | ifntMiss interest =>
    cases h
    exact ⟨getValNetFaceId_mem hnonempty, by simp [doAfterIfntMiss]⟩
  | dfntHit dfntEntry ifntEntries data =>
    obtain ⟨-, hface, hpay, -⟩ := doAfterDfntHit_eq_some h
    exact ⟨hface ▸ hrelay, by simp [hpay]⟩
  | dfntMiss data ifntEntries isProducer =>
    cases h
    exact ⟨getValNetFaceId_mem hnonempty, by simp [doAfterDfntMiss]⟩

/-- A registration is one effect on the PFT. -/
theorem change_sentBy (g : Geometry) (inGeoface : ℕ) (hnonempty : v.networkFaces ≠ [])
    (hvalNet : ∀ id ∈ v.networkFaces, v.faces.IsValNet id) (hrelay : v.relays call) (s : Pending) :
    Change v.faces s (register s (v.sentBy g inGeoface call)).1 := by
  cases hsent : v.sentBy g inGeoface call with
  | none => exact .same
  | some out =>
    obtain ⟨hface, hset⟩ := sentBy_some hnonempty hrelay hsent
    exact change_register (hvalNet _ hface) hset _

/-! ### Every event at once -/

/-- The forwarder's faces are kept by whatever leaves these fields alone. -/
theorem Sound.of_fields (h : Sound v) (hcoh : Coherent v'.faces v'.pending)
    (hnet : v'.networkFaces = v.networkFaces) (hext : v'.faces.Extends v.faces)
    (hifnt : v'.ifnt ⊆ v.ifnt) (hdfnt : v'.dfnt ⊆ v.dfnt) : Sound v' where
  coherent := hcoh
  nonempty := hnet ▸ h.nonempty
  valNet id hid := (h.valNet id (hnet ▸ hid)).extends hext
  ifnt entry hentry := hnet ▸ h.ifnt entry (hifnt hentry)
  dfnt entry hentry := hnet ▸ h.dfnt entry (hdfnt hentry)

theorem Sound.changes_received (h : Sound v) (hface : face ∈ v.networkFaces)
    (hrec : Received v face valP v') :
    Changes v.faces v.pending v'.pending ∧ v'.faces.Extends v.faces ∧ Sound v' := by
  cases hrec with
  | dropped hpre =>
    have hchange := h.coherent.change_preProcessing valP
    exact ⟨.single hchange, refl _, h.of_fields (h.coherent.change hchange) rfl (refl _)
        (fun _ he => he) (fun _ he => he)⟩
  | interest i faces f2a _ _ _ hext =>
    refine ⟨.nil _, hext, h.coherent.extends hext, h.nonempty,
      fun id hid => (h.valNet id hid).extends hext, ?_, h.dfnt⟩
    intro entry hentry
    rcases mem_append.mp hentry with hentry | hentry
    · exact h.ifnt entry hentry
    · rw [mem_singleton.mp hentry]
      exact hface
  | again => exact ⟨.nil _, refl _, h⟩
  | data d faces f2a _ _ hext =>
    refine ⟨.nil _, hext, h.coherent.extends hext, h.nonempty,
      fun id hid => (h.valNet id hid).extends hext, h.ifnt, ?_⟩
    intro entry hentry
    rcases mem_cons.mp hentry with rfl | hentry
    · exact hface
    · exact h.dfnt entry hentry
  | invalid => exact ⟨.nil _, refl _, h.of_fields h.coherent rfl
      (refl _) (fun _ he => he) (fun _ he => he)⟩

theorem Sound.strategy (h : Sound v) (g : Geometry) (inGeoface : ℕ) (hrelay : v.relays call) :
    Change v.faces v.pending (v.strategy g inGeoface call).pending ∧
      Sound (v.strategy g inGeoface call) := by
  have hchange := change_sentBy g inGeoface h.nonempty h.valNet hrelay v.pending
  exact ⟨hchange, h.of_fields (h.coherent.change hchange) rfl (refl _)
    (fun _ he => he) (fun _ he => he)⟩

theorem Sound.clean (h : Sound v) (data : Data) (nonceList : List Nonce) :
    Sound (v.clean data nonceList) :=
  h.of_fields h.coherent rfl (refl _)
    (Ifnt.removeEntriesByNonceList_subset _ _) (removeEntryBySignature_subset _ _)

theorem Sound.changes_delivered (h : Sound v) {nonceList : Option (List Nonce)} {isProducer : Bool}
    (hdel : Delivered g v inGeoface data nonceList isProducer v') :
    Changes v.faces v.pending v'.pending ∧ v'.faces = v.faces ∧ Sound v' := by
  have hcancel := h.coherent.change_cancelPendingInterests (nonceList.getD [])
  have hcleaned : Sound { v.clean data (nonceList.getD []) with
      pending := v.pending.cancelPendingInterests (nonceList.getD []) } :=
    (h.clean data (nonceList.getD [])).of_fields (h.coherent.change hcancel) rfl
      (refl _) (fun _ he => he) (fun _ he => he)
  cases hdel with
  | control =>
    exact ⟨.nil _, rfl, h.of_fields h.coherent rfl (refl _)
      (fun _ he => he) (removeEntryBySignature_subset _ _)⟩
  | cleaned => exact ⟨.single hcancel, rfl, hcleaned⟩
  | relayed dfntEntry _ _ hfind _ =>
    have hrelay : relays { v.clean data (nonceList.getD []) with
          pending := v.pending.cancelPendingInterests (nonceList.getD []) }
        (.dfntHit dfntEntry (Ifnt.findMatchByNonceList v.ifnt (nonceList.getD [])) data) :=
      h.dfnt _ (findMatch_eq_some hfind).1
    obtain ⟨hchange, hsound⟩ := hcleaned.strategy g inGeoface hrelay
    exact ⟨.cons hcancel (.single hchange), rfl, hsound⟩
  | originated =>
    have hrelay : (v.clean data (nonceList.getD [])).relays (.dfntMiss data
        (Ifnt.findMatchByNonceList v.ifnt (nonceList.getD [])) isProducer) := trivial
    obtain ⟨hchange, hsound⟩ := (h.clean data (nonceList.getD [])).strategy g inGeoface hrelay
    exact ⟨.single hchange, rfl, hsound⟩

theorem mem_networkFaces_addFace {face : Face} {id : ℕ} :
    id ∈ (v.addFace face).networkFaces ↔
      id ∈ v.networkFaces ∨ (face.isValNetFace = true ∧ id = v.faces.lastFaceId + 1) := by
  unfold addFace
  cases hval : face.isValNetFace <;> simp

theorem Sound.addFace (h : Sound v) (face : Face) : Sound (v.addFace face) where
  coherent := h.coherent.extends (extends_add v.faces face)
  nonempty := by
    obtain ⟨id, hid⟩ := exists_mem_of_ne_nil _ h.nonempty
    exact ne_nil_of_mem (mem_networkFaces_addFace.mpr (.inl hid))
  valNet id hid := by
    rcases mem_networkFaces_addFace.mp hid with hid | ⟨hval, rfl⟩
    · exact (h.valNet id hid).extends (extends_add v.faces face)
    · exact ⟨face, get_add_self v.faces face, hval⟩
  ifnt entry hentry := mem_networkFaces_addFace.mpr (.inl (h.ifnt entry hentry))
  dfnt entry hentry := mem_networkFaces_addFace.mpr (.inl (h.dfnt entry hentry))

/-- **The step lemma.** The effects of an event on the PFT; the face table only
grows. -/
theorem Sound.changes (h : Sound v) {e : Event} (hguard : v.guard e) :
    Changes v.faces v.pending (v.next g e).pending ∧
      (v.next g e).faces.Extends v.faces ∧ Sound (v.next g e) := by
  cases e with
  | receive face valP => exact h.changes_received hguard (received v face valP)
  | interestFromNfd inGeoface interest =>
    rw [next, reveiceInterest_eq]
    have hrelay : v.relays (match Ifnt.findMatchByNonce v.ifnt interest.nonce with
        | some ifntEntry => .ifntHit ifntEntry interest
        | none => .ifntMiss interest) := by
      cases hfind : Ifnt.findMatchByNonce v.ifnt interest.nonce with
      | none => trivial
      | some ifntEntry => exact h.ifnt _ (Ifnt.findMatchByNonce_eq_some hfind).1
    obtain ⟨hchange, hsound⟩ := h.strategy g inGeoface hrelay
    exact ⟨.single hchange, refl _, hsound⟩
  | dataFromNfd inGeoface data nonceList isProducer =>
    obtain ⟨hchanges, hfaces, hsound⟩ :=
      h.changes_delivered (delivered g v inGeoface data nonceList isProducer)
    exact ⟨hchanges, fun id face hget => by rw [next, hfaces]; exact hget, hsound⟩
  | fire id =>
    obtain ⟨callback, hpend⟩ := hguard
    have hchange : Change v.faces v.pending (v.pending.fire v.faces id) :=
      .fired id callback _ hpend (h.coherent.fired_fire hpend)
    exact ⟨.single hchange, refl _, h.of_fields
      (h.coherent.change hchange) rfl (refl _)
      (fun _ he => he) (fun _ he => he)⟩
  | addFace face => exact ⟨.nil _, extends_add v.faces face, h.addFace face⟩
  | move mobility => exact ⟨.nil _, refl _, h.of_fields h.coherent rfl
      (refl _) (fun _ he => he) (fun _ he => he)⟩

/-- An event calls the strategy at most once, at its end, and sends only if it
is a timer. -/
inductive Stepped (g : Geometry) (v : ValForwarder) (e : Event) : ValForwarder → Prop
  | quiet (v' : ValForwarder) (hcalls : v'.calls = v.calls)
      (hptr : v'.pending.nextPtr = v.pending.nextPtr) (hlog : v'.pending.log = v.pending.log) :
      Stepped g v e v'
  | called (u : ValForwarder) (inGeoface : ℕ) (call : StrategyCall)
      (hchanges : Changes v.faces v.pending u.pending) (hcalls : u.calls = v.calls)
      (hptr : u.pending.nextPtr = v.pending.nextPtr) (hlog : u.pending.log = v.pending.log) :
      Stepped g v e (u.strategy g inGeoface call)
  | fired (v' : ValForwarder) (id : ℕ) (callback : Callback) (he : e = .fire id)
      (hpend : v.pending.queue.Pending id callback)
      (hfired : Pending.Fired v.pending id callback v'.pending) (hcalls : v'.calls = v.calls) :
      Stepped g v e v'

theorem Received.stepped (hrec : Received v face valP v') (g : Geometry) (e : Event) :
    Stepped g v e v' := by
  cases hrec with
  | dropped =>
    exact .quiet _ rfl (preProcessing_quiet _ _).1 (preProcessing_quiet _ _).2
  | interest | again | data | invalid => exact .quiet _ rfl rfl rfl

theorem Sound.stepped_delivered (h : Sound v) {nonceList : Option (List Nonce)} {isProducer : Bool}
    (hdel : Delivered g v inGeoface data nonceList isProducer v') (e : Event) :
    Stepped g v e v' := by
  obtain ⟨hdrop, hlog⟩ := h.coherent.dropped_cancelPendingInterests (nonceList.getD [])
  have hchange := h.coherent.change_cancelPendingInterests (nonceList.getD [])
  cases hdel with
  | control => exact .quiet _ rfl rfl rfl
  | cleaned => exact .quiet _ rfl hdrop.nextPtr hlog
  | relayed => exact .called _ inGeoface _ (.single hchange) rfl hdrop.nextPtr hlog
  | originated => exact .called _ inGeoface _ (.nil _) rfl rfl rfl

theorem Sound.stepped (h : Sound v) (g : Geometry) {e : Event} (hguard : v.guard e) :
    Stepped g v e (v.next g e) := by
  cases e with
  | receive face valP => exact (received v face valP).stepped g _
  | interestFromNfd inGeoface interest =>
    rw [next, reveiceInterest_eq]
    exact .called v inGeoface _ (.nil _) rfl rfl rfl
  | dataFromNfd inGeoface data nonceList isProducer =>
    exact h.stepped_delivered (delivered g v inGeoface data nonceList isProducer) _
  | fire id =>
    obtain ⟨callback, hpend⟩ := hguard
    exact .fired _ id callback rfl hpend (h.coherent.fired_fire hpend) rfl
  | addFace face | move mobility => exact .quiet _ rfl rfl rfl

/-- A registration creates an object with the packet, or does nothing. -/
theorem register_cases (s : Pending) (sent : Option Outgoing) :
    (register s sent = (s, none)) ∨ ∃ out, sent = some out ∧ s.findMatch out.valPkt = none ∧
      register s sent = (s.enter out.valPkt out.outFaceId out.duration, some s.nextPtr) := by
  cases sent with
  | none => exact .inl rfl
  | some out =>
    rw [register, registerOutgoingValPacket_eq]
    cases hfind : s.findMatch out.valPkt with
    | none => exact .inr ⟨out, rfl, hfind, rfl⟩
    | some p => exact .inl rfl

theorem register_created {sent : Option Outgoing} {p : ℕ} (h : (register s sent).2 = some p) :
    p = s.nextPtr := by
  rcases register_cases s sent with heq | ⟨out, -, -, heq⟩
  · rw [heq] at h
    cases h
  · rw [heq] at h
    exact (Option.some.inj h).symm

theorem log_register (s : Pending) (sent : Option Outgoing) : (register s sent).1.log = s.log := by
  rcases register_cases s sent with heq | ⟨out, _, _, heq⟩
  · rw [heq]
  · rw [heq]
    rfl

theorem Init.sound (h : Init v) : Sound v := by
  obtain ⟨faces, mobility, face, hval, rfl⟩ := h
  refine ⟨coherent_empty _, ?_, ?_, ?_, ?_⟩
  · exact ne_nil_of_mem (mem_networkFaces_addFace.mpr (.inr ⟨hval, rfl⟩))
  · intro id hid
    rcases mem_networkFaces_addFace.mp hid with hid | ⟨hval, rfl⟩
    · cases hid
    · exact ⟨face, get_add_self _ face, hval⟩
  · intro entry hentry
    cases hentry
  · intro entry hentry
    cases hentry

theorem sound_of_reachable (h : (machine g).Reachable v) : Sound v :=
  h.invariant (fun _ hinit => hinit.sound) fun _ _ hsound hguard => (hsound.changes hguard).2.2

/-- The face table only grows along a run. -/
theorem Sound.extends_run (h : Sound v) {es : List Event} (hrun : (machine g).Run v es v') :
    v'.faces.Extends v.faces := by
  have hboth : Sound v' ∧ v'.faces.Extends v.faces := by
    refine hrun.invariant (I := fun u => Sound u ∧ u.faces.Extends v.faces) ?_ ⟨h, .refl _⟩
    rintro u e ⟨hsound, hext⟩ hguard
    obtain ⟨-, hext', hsound'⟩ := hsound.changes hguard
    exact ⟨hsound', hext.trans hext'⟩
  exact hboth.2

/-! ### A forwarder to try things on -/

/-- All places are the same. -/
def flatGeometry : Geometry where
  getDistanceToArea _ _ := 0
  getDistanceToPoint _ _ := 0
  getMultiPointDist _ _ := 0
  calcFwdTimer _ _ _ _ delay := delay
  calcInvertedFwdTimer _ _ _ _ delay := delay
  pastTheEnd := (0, "0")

def netFace : Face where
  localUri := "netdev://"
  isLocal := false
  isPointToPoint := false
  isValNetFace := true
  isGeoFace := false

/-- Just constructed; the flood face is 256 and the network face 257. -/
def fresh : ValForwarder :=
  (construct .empty ⟨"0:0:0", "A1", 10000⟩).addFace netFace

theorem fresh_reachable (g : Geometry) : (machine g).Reachable fresh :=
  .of_init ⟨_, _, netFace, rfl, rfl⟩

def sampleInterest : Interest where
  name := ["a", "1"]
  nonce := 7
  selectors := ⟨false, []⟩
  interestLifetime := 2000
  forwardingHint := []
  nextHopFaceId := none

def sampleData : Data where
  name := ["a", "1"]
  signature := ⟨⟨-1, none, []⟩, ⟨23, [7]⟩⟩
  freshnessPeriod := 0
  content := []
  congestionMark := none

/-- A local application has asked for `/a/1`. -/
def asked : ValForwarder :=
  fresh.next flatGeometry (.interestFromNfd 256 sampleInterest)

theorem asked_reachable : (machine flatGeometry).Reachable asked := by
  have hguard : (machine flatGeometry).guard fresh (.interestFromNfd 256 sampleInterest) := trivial
  exact (fresh_reachable flatGeometry).next hguard

end ValForwarder

end ValProofs
