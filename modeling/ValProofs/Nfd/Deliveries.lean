import Mathlib.Algebra.Order.BigOperators.Group.List
import ValProofs.Nfd.Effects
import ValProofs.Nfd.Routes
import ValProofs.Val.Marks

/-!
All calls of `reveiceData` that one event leads to, each with the place in NFD
that makes it. Two of the four places are there to have VAL clean up, and set the
mark that says so. The other two hand over Data to be sent, with whatever mark it
has: the one it came with from the network, the one it was cached with, or the
one that was set a moment before for an application.
-/

namespace ValProofs

open ValForwarder List Option

/-- Where in NFD `reveiceData` is called. -/
inductive Site
  /-- `onDataUnsolicited`, with the mark 501. -/
  | unsolicited
  /-- `afterReceiveData` at an application face, with the mark 500. -/
  | cleaning
  /-- `afterReceiveData` at a geoface. -/
  | strategy
  /-- `afterContentStoreHit`. -/
  | contentStore
  deriving DecidableEq, Repr

structure Delivery where
  site : Site
  faceId : ℕ
  data : Data
  nonceList : Option (List Nonce)
  isProducer : Bool
  deriving DecidableEq, Repr

open Delivery

namespace Delivery

def deliver (g : Geometry) (v : ValForwarder) (d : Delivery) : ValForwarder :=
  v.reveiceData g d.faceId d.data d.nonceList d.isProducer

/-- The control branch it leads to, if any. -/
def control (v : ValForwarder) (d : Delivery) : Option ValForwarder.Control :=
  v.controlBranch d.data d.isProducer

end Delivery

/-- Whenever one of the deliveries takes a control branch, it is one of the two
notifications. -/
def ControlLocal (g : Geometry) : ValForwarder → List Delivery → Prop
  | _, [] => True
  | v, d :: ds =>
      (d.control v ≠ none → d.site = .unsolicited ∨ d.site = .cleaning) ∧
        ControlLocal g (d.deliver g v) ds

theorem controlLocal_of_forall (g : Geometry) {ds : List Delivery}
    (h : ∀ d ∈ ds, ∀ v, d.control v = none) (v : ValForwarder) : ControlLocal g v ds := by
  induction ds generalizing v with
  | nil => trivial
  | cons d ds ih =>
    refine ⟨fun hcontrol => absurd (h d mem_cons_self v) hcontrol, ?_⟩
    exact ih (fun d hd => h d (mem_cons_of_mem _ hd)) _

/-- The notices for a Data, with the Data as it is at the time. -/
def Notice.deliveries : Data → List Notice → List Delivery
  | _, [] => []
  | data, notice :: rest =>
      ⟨if notice.isClean then .cleaning else .strategy, notice.faceId, notice.mark data,
          some notice.nonceList, notice.isProducer⟩ ::
        deliveries (notice.mark data) rest

theorem Notice.foldl_deliveries (g : Geometry) (notices : List Notice) (v : ValForwarder)
    (data : Data) :
    (deliveries data notices).foldl (deliver g) v =
      (notices.foldl (notify g) (v, data)).1 := by
  induction notices generalizing v data with
  | nil => rfl
  | cons notice notices ih => exact ih _ _

namespace Node

variable {τ : Type}

/-! ### The deliveries of an event -/

/-- In `onIncomingData`. -/
def dataDeliveries (P : Platform τ) (node : Node τ) (inFace : ℕ) (data : Data) :
    List Delivery :=
  if node.isNonLocal inFace && underLocalhost data.name then []
  else
    match node.findAllDataMatches P data with
    | [] =>
        if node.isNonLocal inFace && node.isGeoFace inFace then
          [⟨.unsolicited, inFace, data.setCongestionMark 501, none,
            node.isProducerOf data.name⟩]
        else []
    | _ => Notice.deliveries data (node.notices P inFace data)

/-- In `onIncomingInterest`. -/
def hitDeliveries (P : Platform τ) (node : Node τ) (inFace : ℕ) (interest : Interest) :
    List Delivery :=
  match node.contentStoreHit P inFace interest with
  | none => []
  | some (entry, data) =>
      if node.isGeoFace inFace then
        ((node.hitReplies entry).filter fun outFace =>
          !(node.isNonLocal outFace && underLocalhost data.name)).map fun outFace =>
            ⟨.contentStore, outFace, data, some entry.getNonceList, false⟩
      else []

/-- The VAL that gets the first one, and all of them. -/
def deliveries (P : Platform τ) (node : Node τ) : Event → ValForwarder × List Delivery
  | .receive face valP =>
      match node.val.onReceivedValPacket face valP with
      | (v, none) => (v, [])
      | (v, some (.interest geoface i)) =>
          (v, ({ node with val := v } : Node τ).hitDeliveries P geoface i)
      | (v, some (.data geoface d)) =>
          (v, ({ node with val := v } : Node τ).dataDeliveries P geoface d)
  | .incomingInterest face i => (node.val, node.hitDeliveries P face i)
  | .incomingData face d => (node.val, node.dataDeliveries P face d)
  | _ => (node.val, [])

/-- VAL gets what is listed, when a Data comes in. -/
theorem val_onIncomingData_eq (P : Platform τ) (g : Geometry) (node : Node τ) (inFace : ℕ)
    (data : Data) :
    (node.onIncomingData P g inFace data).val =
      (node.dataDeliveries P inFace data).foldl (deliver g) node.val := by
  cases hscope : node.isNonLocal inFace && underLocalhost data.name with
  | true =>
    rw [onIncomingData, dataDeliveries, hscope]
    rfl
  | false =>
    cases hids : node.findAllDataMatches P data with
    | cons id ids =>
      rw [val_of_matches g hscope (by rw [hids]; exact cons_ne_nil _ _), dataDeliveries,
        hscope, hids]
      exact (Notice.foldl_deliveries ..).symm
    | nil =>
      rw [onIncomingData, dataDeliveries, hscope, hids]
      simp only [if_neg Bool.false_ne_true]
      cases hlocal : node.isNonLocal inFace with
      | false =>
        rw [onDataUnsolicited, hlocal]
        rfl
      | true =>
        cases hgeo : node.isGeoFace inFace with
        | false =>
          rw [onDataUnsolicited, hlocal, hgeo]
          rfl
        | true => exact (onDataUnsolicited_geoface P g hlocal hgeo data).2.2

variable {node : Node τ}

theorem val_sendDataToVal (g : Geometry) {outFace : ℕ} (hgeo : node.isGeoFace outFace = true)
    (id : ℕ) (data : Data) (nonceList : Option (List Nonce)) (isProducer : Bool) :
    (node.sendDataToVal g id data outFace nonceList isProducer).val =
      if node.isNonLocal outFace && underLocalhost data.name then node.val
      else node.val.reveiceData g outFace data nonceList isProducer := by
  have hgeo' : (node.modifyPit id fun entry => entry.deleteInRecord outFace).isGeoFace
      outFace = true := hgeo
  rw [sendDataToVal, onOutgoingData, hgeo']
  exact apply_ite val _ _ _

/-- And when an Interest hits the content store. -/
theorem val_of_contentStoreHit {P : Platform τ} (g : Geometry) {inFace : ℕ} {interest : Interest}
    {entry : Pit.Entry} {data : Data}
    (h : node.contentStoreHit P inFace interest = some (entry, data)) :
    (node.onIncomingInterest P g inFace interest).val =
      (node.hitDeliveries P inFace interest).foldl (deliver g) node.val := by
  obtain ⟨reached, hfib, hval, heq⟩ := onIncomingInterest_of_hit g h
  have hgeo : reached.isGeoFace = node.isGeoFace := by
    funext faceId
    rw [isGeoFace, hval, isGeoFace]
  have hlocal : reached.isNonLocal = node.isNonLocal := by
    funext faceId
    rw [isNonLocal, hval, isNonLocal]
  rw [heq, hitDeliveries, h]
  dsimp only
  cases hin : node.isGeoFace inFace with
  | false =>
    obtain ⟨new, -, hsend⟩ := sendData_eq g reached (hgeo ▸ hin) entry.id data
    rw [afterContentStoreHit, hgeo, hin, if_neg Bool.false_ne_true, hsend]
    exact hval
  | true =>
    rw [afterContentStoreHit, hgeo, hin, if_pos rfl, if_pos rfl, hitReplies, ← hval,
      show node.lookupFib = reached.lookupFib from by
        funext i
        rw [lookupFib, lookupFib, hfib]]
    cases hfind : (reached.lookupFib entry.interest).nextHops.find? fun nextHop =>
        node.isGeoFace nextHop.faceId with
    | none => rfl
    | some nextHop =>
      have hout : reached.isGeoFace nextHop.faceId = true := by
        rw [hgeo]
        simpa using find?_some hfind
      dsimp only [map_some, toList_some]
      rw [val_sendDataToVal g hout, hlocal]
      cases hblocked : node.isNonLocal nextHop.faceId && underLocalhost data.name with
      | true => rw [filter_cons_of_neg (by rw [hblocked]; decide)]; rfl
      | false => rw [filter_cons_of_pos (by rw [hblocked]; rfl)]; rfl

/-- A packet comes in, from the network or from an application. -/
def Event.isPacket : Event → Bool
  | .receive .. => true
  | .incomingInterest .. => true
  | .incomingData .. => true
  | _ => false

/-- Interests that go on lead to no delivery. -/
theorem val_hitDeliveries (P : Platform τ) (g : Geometry) (node : Node τ) (inFace : ℕ)
    (interest : Interest) :
    (node.onIncomingInterest P g inFace interest).val =
        (node.hitDeliveries P inFace interest).foldl (deliver g) node.val ∨
      node.hitDeliveries P inFace interest = [] ∧
        ∃ geoface i, (node.onIncomingInterest P g inFace interest).val =
          node.val.reveiceInterest g geoface i := by
  cases hhit : node.contentStoreHit P inFace interest with
  | some found => exact .inl (val_of_contentStoreHit g hhit)
  | none =>
    have hnil : node.hitDeliveries P inFace interest = [] := by
      rw [hitDeliveries, hhit]
    rw [hnil]
    rcases onIncomingInterest_cases P g node inFace interest with
      ⟨-, -, hval⟩ | ⟨reached, -, hval, ⟨_, _, hhit', -⟩ | ⟨_, _, -, -, heq⟩⟩
    · exact .inl hval
    · rw [hhit] at hhit'
      cases hhit'
    · rw [heq, ← hval]
      exact (onContentStoreMiss_spec ..).1.imp_right fun hsent => ⟨rfl, hsent⟩

/-- The deliveries are all that VAL is told when a packet comes in, apart from an
Interest that is to be sent on. -/
theorem val_next (P : Platform τ) (g : Geometry) (node : Node τ) {e : Event}
    (he : e.isPacket = true) :
    (node.next P g e).val =
        (node.deliveries P e).2.foldl (deliver g) (node.deliveries P e).1 ∨
      (node.deliveries P e).2 = [] ∧
        ∃ geoface i, (node.next P g e).val =
          (node.deliveries P e).1.reveiceInterest g geoface i := by
  cases e with
  | receive face valP =>
    rw [next, onReceivedValPacket, deliveries]
    cases node.val.onReceivedValPacket face valP with
    | mk v packet =>
      cases packet with
      | none => exact .inl rfl
      | some packet =>
        cases packet with
        | interest geoface i =>
          exact val_hitDeliveries P g { node with val := v } geoface i
        | data geoface d =>
          exact .inl (val_onIncomingData_eq P g { node with val := v } geoface d)
  | incomingInterest face interest => exact val_hitDeliveries P g node face interest
  | incomingData face data => exact .inl (val_onIncomingData_eq P g node face data)
  | _ => cases he

/-- One Data that comes in is for the application and for area `A2`. -/
theorem val_next_heardData :
    let e := Event.receive 257 heardData
    let ds := consumingRelay.deliveries samplePlatform e
    ds.2.length = 2 ∧ (consumingRelay.next samplePlatform flatGeometry e).val =
      ds.2.foldl (deliver flatGeometry) ds.1 := by
  refine ⟨by decide, ?_⟩
  rcases val_next samplePlatform flatGeometry consumingRelay (e := .receive 257 heardData) rfl
    with hval | ⟨hnil, -⟩
  · exact hval
  · exact absurd hnil (by decide)

end Node

/-! ### When control stays local -/

/-- It does not look like control Data. -/
def Data.IsOrdinary (data : Data) : Prop :=
  data.getCongestionMark ≠ 500 ∧ data.getCongestionMark ≠ 501

theorem ValForwarder.controlBranch_of_isOrdinary {data : Data} (h : data.IsOrdinary)
    (v : ValForwarder) (isProducer : Bool) : v.controlBranch data isProducer = none := by
  rw [controlBranch, if_neg h.2, if_neg fun hdiscard => h.1 hdiscard.1]

namespace Notice

theorem controlLocal_of_isClean (g : Geometry) {notices : List Notice}
    (h : ∀ notice ∈ notices, notice.isClean = true) (v : ValForwarder) (data : Data) :
    ControlLocal g v (deliveries data notices) := by
  induction notices generalizing v data with
  | nil => trivial
  | cons notice notices ih =>
    refine ⟨fun _ => .inr ?_, ih (fun n hn => h n (mem_cons_of_mem _ hn)) _ _⟩
    exact if_pos (h notice mem_cons_self)

/-- Without a notice for an application the Data keeps its mark. -/
theorem controlLocal_of_not_isClean (g : Geometry) {notices : List Notice} {data : Data}
    (h : ∀ notice ∈ notices, notice.isClean = false ∧
      ∀ v : ValForwarder, v.controlBranch data notice.isProducer = none) (v : ValForwarder) :
    ControlLocal g v (deliveries data notices) := by
  induction notices generalizing v with
  | nil => trivial
  | cons notice notices ih =>
    obtain ⟨hclean, hnone⟩ := h notice mem_cons_self
    have hmark : notice.mark data = data := mark_of_not_isClean hclean data
    rw [deliveries, hmark]
    refine ⟨fun hcontrol => absurd (hnone v) hcontrol, ?_⟩
    exact ih (fun n hn => h n (mem_cons_of_mem _ hn)) _

/-- The first notice takes the only entry of the Data out of the DFNT, and without
it the mark 500 means nothing. -/
theorem controlLocal_of_single (g : Geometry) (notices : List Notice) {v : ValForwarder}
    {data : Data} (hmark : data.getCongestionMark ≠ 501)
    (hordinary : data.IsOrdinary ∨ ∀ entry ∈ v.dfnt, entry.sig ≠ data.signature)
    (hsingle : ∀ entry ∈ Dfnt.removeEntryBySignature v.dfnt data.signature,
      entry.sig ≠ data.signature) : ControlLocal g v (deliveries data notices) := by
  induction notices generalizing v data with
  | nil => trivial
  | cons notice notices ih =>
    have hmark' : (notice.mark data).getCongestionMark ≠ 501 := by
      rw [mark]
      split
      · rw [Data.getCongestionMark_set]
        decide
      · exact hmark
    have hdfnt := dfnt_notify g (v, data) notice
    refine ⟨fun hcontrol => ?_, ih hmark' (.inr ?_) ?_⟩
    · cases hclean : notice.isClean with
      | true => exact .inr rfl
      | false =>
        refine absurd ?_ hcontrol
        show v.controlBranch (notice.mark data) notice.isProducer = none
        rw [mark_of_not_isClean hclean]
        rcases hordinary with hordinary | hnone
        · exact controlBranch_of_isOrdinary hordinary v _
        · rw [controlBranch, if_neg hmark]
          refine if_neg fun hdiscard => ?_
          obtain ⟨entry, hfind⟩ := isSome_iff_exists.mp hdiscard.2.1
          obtain ⟨hmem, hsig⟩ := Dfnt.findMatch_eq_some hfind
          exact hnone entry hmem hsig
    · show ∀ entry ∈ (notify g (v, data) notice).1.dfnt, _
      rw [hdfnt, signature_mark]
      exact hsingle
    · show ∀ entry ∈ Dfnt.removeEntryBySignature (notify g (v, data) notice).1.dfnt _, _
      rw [hdfnt, signature_mark]
      exact fun entry hentry => hsingle entry (Dfnt.removeEntryBySignature_subset _ _ hentry)

end Notice

namespace Node

variable {τ : Type} {inFace : ℕ} {notice : Notice}

/-- A notice that is not for an application is for a geoface that waits. -/
theorem exists_geoface_of_not_isClean {faces : FaceTable} {name : Name} {sentToGeoFace : Bool}
    {entry : Pit.Entry} {downstreams : List ℕ}
    (h : notice ∈ noticesFrom faces name inFace sentToGeoFace entry downstreams)
    (hclean : notice.isClean = false) :
    ∃ downstream ∈ downstreams, faces.has Face.isGeoFace downstream = true := by
  obtain ⟨downstream, hmem, _, _, -, -, hnotice⟩ := exists_noticeFor h
  have heq := (noticeFor_eq_some hnotice).2.2.1
  rw [hclean] at heq
  exact ⟨downstream, hmem, by simpa using heq⟩

variable {P : Platform τ} {node : Node τ} {data : Data}

theorem isClean_of_geoReplies (hzero : node.geoReplies P data = 0)
    (h : notice ∈ node.notices P inFace data) : notice.isClean = true := by
  obtain ⟨id, hid, entry, hget, hmem⟩ := mem_notices h
  by_contra hclean
  obtain ⟨downstream, hdown, hgeo⟩ :=
    exists_geoface_of_not_isClean hmem (Bool.eq_false_iff.mpr hclean)
  obtain ⟨entry', hentry', hmatch, rfl⟩ := mem_findAllDataMatches.mp hid
  obtain rfl : entry' = entry :=
    some.inj ((Pit.Table.get_eq_some.mpr ⟨hentry', rfl⟩).symm.trans hget)
  have hterm : 1 ∈ (node.matching P data).map fun entry =>
      if (entry.pendingDownstreams node.now).any (node.val.faces.has Face.isGeoFace) then 1
      else 0 := by
    refine mem_map.mpr ⟨entry', mem_filter.mpr ⟨hentry', hmatch⟩, if_pos ?_⟩
    exact any_eq_true.mpr ⟨downstream, (P.perm_setOrder _).mem_iff.mp hdown, hgeo⟩
  have hpos : 1 ≤ node.geoReplies P data := le_sum_of_mem hterm
  omega

theorem not_isClean_of_appReplies (hzero : node.appReplies P data = 0)
    (h : notice ∈ node.notices P inFace data) : notice.isClean = false := by
  by_contra hclean
  rw [Bool.not_eq_false] at hclean
  have hin : node.isGeoFace inFace = true := by
    obtain ⟨id, -, entry, -, hmem⟩ := mem_notices h
    exact isGeoFace_of_isClean hmem hclean
  have hcount := countP_isClean_notices (P := P) hin data
  rw [hzero, countP_eq_zero] at hcount
  exact hcount notice h hclean

/-- What keeps control local at one event, said of the state before it: of received
Data, that no geoface waits for it, or that it is not marked itself and no
application waits for it whose notice leaves the mark on it, unless the DFNT has
no older entry for it; of received Interests, that the content store does not
answer them with marked Data; and of the Data of an application, that it is not
marked 501. -/
def Unmarked (P : Platform τ) (node : Node τ) : Event → Prop
  | .receive _ valP =>
      match valP.payload with
      | .notSet => True
      | .interest i =>
          ∀ nextHop data, (P.contentStoreLookup node.store
            (withoutHint P { i with nextHopFaceId := nextHop })).2 = some data →
              data.IsOrdinary
      | .data data =>
          node.geoReplies P data = 0 ∨
            data.IsOrdinary ∧
              (node.appReplies P data = 0 ∨
                ∀ entry ∈ node.val.dfnt, entry.sig ≠ data.signature)
  | .incomingData _ data =>
      node.geoReplies P data = 0 ∨ data.getCongestionMark ≠ 501
  | _ => True

/-- Only the notices of a satisfied PIT entry are of interest. -/
theorem controlLocal_dataDeliveries {g : Geometry} (node : Node τ)
    (h : ControlLocal g node.val (Notice.deliveries data (node.notices P inFace data))) :
    ControlLocal g node.val (node.dataDeliveries P inFace data) := by
  rw [dataDeliveries]
  split
  · trivial
  · split
    · split
      · exact ⟨fun _ => .inl rfl, trivial⟩
      · trivial
    · exact h

theorem controlLocal_received (hknown : node.FacesKnown) (h : node.geoReplies P data = 0 ∨
      data.IsOrdinary ∧ (node.appReplies P data = 0 ∨
        ∀ entry ∈ node.val.dfnt, entry.sig ≠ data.signature)) {v : ValForwarder}
    (hext : v.faces.Extends node.val.faces) {new : Dfnt.Entry} (hsig : new.sig = data.signature)
    (hdfnt : v.dfnt = new :: node.val.dfnt) (g : Geometry) (geoface : ℕ) :
    ControlLocal g v (({ node with val := v } : Node τ).dataDeliveries P geoface data) := by
  obtain ⟨happ, hgeo⟩ := hknown.replies (P := P) hext data
  refine controlLocal_dataDeliveries { node with val := v } ?_
  rcases h with hzero | ⟨hordinary, hzero | hnone⟩
  · refine Notice.controlLocal_of_isClean g (fun notice hnotice => ?_) v data
    exact isClean_of_geoReplies (hgeo.trans hzero) hnotice
  · refine Notice.controlLocal_of_not_isClean g (fun notice hnotice => ?_) v
    exact ⟨not_isClean_of_appReplies (happ.trans hzero) hnotice,
      fun v => controlBranch_of_isOrdinary hordinary v _⟩
  · refine Notice.controlLocal_of_single g _ hordinary.2 (.inl hordinary) ?_
    rw [hdfnt, Dfnt.removeEntryBySignature, eraseP_cons_of_pos (by simpa using hsig)]
    exact hnone

/-- A hit is a hit of the content store. -/
theorem lookup_of_contentStoreHit {interest : Interest} {entry : Pit.Entry}
    (h : node.contentStoreHit P inFace interest = some (entry, data)) :
    (P.contentStoreLookup node.store (withoutHint P interest)).2 = some data := by
  rw [contentStoreHit] at h
  split at h
  · cases h
  · split at h
    · cases h
    · dsimp only at h
      split at h
      · cases h
      · split at h
        · obtain ⟨data', hlookup, heq⟩ := map_eq_some_iff.mp h
          cases heq
          exact hlookup
        · cases h

theorem controlLocal_hitDeliveries (node : Node τ) {interest : Interest}
    (h : ∀ data, (P.contentStoreLookup node.store (withoutHint P interest)).2 = some data →
      data.IsOrdinary) (g : Geometry) (inFace : ℕ) :
    ControlLocal g node.val (node.hitDeliveries P inFace interest) := by
  rw [hitDeliveries]
  split
  · trivial
  · rename_i entry data hhit
    have hordinary := h data (lookup_of_contentStoreHit hhit)
    split
    · refine controlLocal_of_forall g (fun d hd v => ?_) node.val
      obtain ⟨outFace, -, rfl⟩ := mem_map.mp hd
      exact controlBranch_of_isOrdinary hordinary v false
    · trivial

/-- **The step lemma.** -/
theorem Unmarked.controlLocal (hknown : node.FacesKnown) {e : Event} (hguard : node.guard e)
    (h : node.Unmarked P e) (g : Geometry) :
    ControlLocal g (node.deliveries P e).1 (node.deliveries P e).2 := by
  cases e with
  | receive face valP =>
    rw [Unmarked] at h
    rw [deliveries]
    have hext := (node.val.onReceivedValPacket_grows face valP).1
    cases hrec : node.val.onReceivedValPacket face valP with
    | mk v packet =>
      rw [hrec] at hext
      cases packet with
      | none => trivial
      | some packet =>
        cases packet with
        | interest geoface interest =>
          obtain ⟨-, ⟨i, nextHop, hpay, rfl⟩, -⟩ := toNfd_interest hrec
          rw [hpay] at h
          exact controlLocal_hitDeliveries { node with val := v }
            (fun data => h nextHop data) g geoface
        | data geoface data =>
          rw [(toNfd_data hrec).2.1] at h
          refine controlLocal_received hknown h hext ?_ (toNfd_dfnt hrec) g geoface
          rfl
  | incomingInterest face interest =>
    have hface := OwnFace.isGeoFace hguard
    rw [deliveries, hitDeliveries, hface]
    split <;> trivial
  | incomingData face data =>
    have hface := OwnFace.isGeoFace hguard
    refine controlLocal_dataDeliveries node ?_
    rcases h with hzero | hmark
    · refine Notice.controlLocal_of_isClean g (fun notice hnotice => ?_) node.val data
      exact isClean_of_geoReplies hzero hnotice
    · refine Notice.controlLocal_of_not_isClean g (fun notice hnotice => ⟨?_, fun v => ?_⟩)
        node.val
      · by_contra hclean
        obtain ⟨id, -, entry, -, hmem⟩ := mem_notices hnotice
        have hin := isGeoFace_of_isClean hmem (Bool.not_eq_false _ ▸ hclean)
        rw [isGeoFace, hin] at hface
        cases hface
      · rw [isProducer_notices hnotice, hface, controlBranch, if_neg hmark]
        refine if_neg fun hdiscard => ?_
        cases hdiscard.2.2
  | _ => trivial

end Node

end ValProofs
