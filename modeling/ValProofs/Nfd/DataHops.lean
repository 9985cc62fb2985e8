import ValProofs.Nfd.Machine
import ValProofs.Val.Hops

/-!
The hop count of Data that a node passes on. VAL takes a Data for one it relays
as long as it finds an entry for it in the DFNT, and each notice takes one such
entry out. The reception of the Data puts in one. So a second notice for the
same reception finds none, unless an earlier copy of the Data has left an
entry, and VAL sends the Data off as if this node were its origin, with a hop
count that has nothing to do with the one it came with.
-/

namespace ValProofs

open Lib Pft Dfnt.Entry FaceTable ValForwarder List

/-! ### What a few notices do -/

/-- The Data with this hop count is relayed, at most once, and not sent off
anew. -/
structure HopsKept (h : UInt8) (calls : List Call) : Prop where
  decremented : ∀ call ∈ calls, ∀ out, call.sent = some out → out.valPkt.hopC = h - 1
  once : calls.countP (fun call => call.sent.isSome) ≤ 1
  relayed : ∀ call ∈ calls, ∀ data ifntEntries isProducer,
    call.call ≠ .dfntMiss data ifntEntries isProducer

theorem HopsKept.nil (h : UInt8) : HopsKept h [] where
  decremented _ hcall := nomatch hcall
  once := Nat.zero_le 1
  relayed _ hcall := nomatch hcall

namespace Notice

/-- Calls are only added. -/
theorem calls_notify (g : Geometry) (s : ValForwarder × Data) (notice : Notice) :
    ∃ new, (notify g s notice).1.calls = s.1.calls ++ new := by
  have hdel := delivered_notify g s notice
  generalize (notify g s notice).1 = v' at hdel ⊢
  cases hdel with
  | control | cleaned => exact ⟨[], (append_nil _).symm⟩
  | relayed | originated => exact ⟨_, rfl⟩

theorem calls_foldl_notify (g : Geometry) (notices : List Notice) (s : ValForwarder × Data) :
    ∃ new, (notices.foldl (notify g) s).1.calls = s.1.calls ++ new := by
  induction notices generalizing s with
  | nil => exact ⟨[], (append_nil _).symm⟩
  | cons notice notices ih =>
    obtain ⟨new, hnew⟩ := calls_notify g s notice
    obtain ⟨new', hnew'⟩ := ih (notify g s notice)
    exact ⟨new ++ new', by rw [foldl_cons, hnew', hnew, append_assoc]⟩

variable {s : ValForwarder × Data}

/-- One notice for a Data whose entry in the DFNT is there. -/
theorem hopsKept_notify (g : Geometry) {dfntEntry : Dfnt.Entry}
    (hfind : Dfnt.findMatch s.1.dfnt s.2.signature = some dfntEntry) {notice : Notice}
    (hrelay : notice.isProducer = false) :
    ∃ new, (notify g s notice).1.calls = s.1.calls ++ new ∧
      HopsKept (dfntEntry.hopC + 1) new := by
  have hsub : dfntEntry.hopC + 1 - 1 = dfntEntry.hopC := by
    rw [UInt8.add_sub_cancel]
  have hdel := delivered_notify g s notice
  generalize (notify g s notice).1 = v' at hdel ⊢
  cases hdel with
  | control | cleaned => exact ⟨[], (append_nil _).symm, .nil _⟩
  | originated _ horigin =>
    rw [signature_mark, hfind, hrelay] at horigin
    rcases horigin with h | h <;> cases h
  | relayed found _ _ hfound =>
    rw [signature_mark, hfind] at hfound
    cases hfound
    refine ⟨_, rfl, ?_, ?_, ?_⟩
    · intro call hcall out hout
      rw [mem_singleton.mp hcall] at hout
      rw [hsub]
      exact (doAfterDfntHit_eq_some hout).2.2.2
    · exact countP_le_length
    · intro call hcall data ifntEntries isProducer
      rw [mem_singleton.mp hcall]
      exact fun h => nomatch h

variable {notices : List Notice}

/-- Data with the mark 501 is not passed on before an application is served. -/
theorem calls_foldl_control (g : Geometry) (hmark : s.2.getCongestionMark = 501)
    (hclean : notices.countP isClean = 0) : (notices.foldl (notify g) s).1.calls = s.1.calls := by
  induction notices generalizing s with
  | nil => rfl
  | cons notice notices ih =>
    rw [countP_eq_zero] at hclean
    have hnotice : notice.mark s.2 = s.2 :=
      mark_of_not_isClean (Bool.eq_false_iff.mpr (hclean notice mem_cons_self)) s.2
    have hcalls : (notify g s notice).1.calls = s.1.calls := by
      rw [notify, hnotice, reveiceData_control _ _ _ hmark]
    have hmark' : (notify g s notice).2.getCongestionMark = 501 := by
      rw [notify, hnotice, hmark]
    rw [foldl_cons, ih hmark' (countP_eq_zero.mpr fun n hn =>
      hclean n (mem_cons_of_mem _ hn)), hcalls]

/-- VAL has taken itself for the origin of a Data. -/
def Originates (v : ValForwarder) : Prop :=
  ∃ call ∈ v.calls, ∃ data ifntEntries isProducer,
    call.call = .dfntMiss data ifntEntries isProducer

/-- Without an entry the Data is sent off anew. -/
theorem originated_notify (g : Geometry) (hnone : Dfnt.findMatch s.1.dfnt s.2.signature = none)
    {notice : Notice} (hmark : (notice.mark s.2).getCongestionMark ≠ 501) :
    Originates (notify g s notice).1 := by
  have hdel := delivered_notify g s notice
  generalize (notify g s notice).1 = v' at hdel ⊢
  cases hdel with
  | control hcontrol => exact absurd hcontrol hmark
  | cleaned _ _ hfind | relayed _ _ _ hfind =>
    rw [signature_mark, hnone] at hfind
    cases hfind
  | originated => exact ⟨_, mem_append_right _ (mem_singleton.mpr rfl), _, _, _, rfl⟩

/-- And so it is however many notices come first, unless all of them are control
Data. -/
theorem originated_foldl_notify (g : Geometry)
    (hnone : Dfnt.findMatch s.1.dfnt s.2.signature = none) (hne : notices ≠ [])
    (hmark : s.2.getCongestionMark ≠ 501 ∨ 0 < notices.countP isClean) :
    Originates (notices.foldl (notify g) s).1 := by
  induction notices generalizing s with
  | nil => exact absurd rfl hne
  | cons notice notices ih =>
    rw [foldl_cons]
    by_cases hcontrol : (notice.mark s.2).getCongestionMark = 501
    · have hclean : notice.isClean = false := by
        cases hclean : notice.isClean with
        | false => rfl
        | true =>
          rw [getCongestionMark_mark hclean] at hcontrol
          exact absurd hcontrol (by decide)
      have hsame := mark_of_not_isClean hclean s.2
      rw [hsame] at hcontrol
      have hlater : 0 < notices.countP isClean := by
        rcases hmark with hmark | hmark
        · exact absurd hcontrol hmark
        · rwa [countP_cons_of_neg (by simp [hclean])] at hmark
      refine ih ?_ (fun hnil => ?_) (.inr hlater)
      · rw [dfnt_notify, notify, hsame, Dfnt.removeEntryBySignature_of_findMatch hnone]
        exact hnone
      · rw [hnil] at hlater
        exact absurd hlater (by decide)
    · obtain ⟨call, hcall, hmiss⟩ := originated_notify g hnone hcontrol
      obtain ⟨new, hnew⟩ := calls_foldl_notify g notices (notify g s notice)
      exact ⟨call, hnew ▸ mem_append_left new hcall, hmiss⟩

/-- Two notices for one entry in the DFNT. -/
theorem originated_of_two (g : Geometry) {dfntEntry : Dfnt.Entry} (hdfnt : s.1.dfnt = [dfntEntry])
    (hsig : dfntEntry.sig = s.2.signature) (htwo : 1 < notices.length)
    (hmark : s.2.getCongestionMark ≠ 501 ∨ 0 < notices.countP isClean) :
    Originates (notices.foldl (notify g) s).1 := by
  cases notices with
  | nil => exact absurd htwo (by decide)
  | cons notice notices =>
    rw [foldl_cons]
    apply originated_foldl_notify
    · rw [dfnt_notify, hdfnt]
      simp [Dfnt.removeEntryBySignature, hsig, Dfnt.findMatch]
    · rintro rfl
      exact Nat.lt_irrefl 1 htwo
    · cases hclean : notice.isClean with
      | true =>
        left
        show (notice.mark s.2).getCongestionMark ≠ 501
        rw [getCongestionMark_mark hclean]
        decide
      | false =>
        rw [countP_cons_of_neg (by simp [hclean])] at hmark
        show (notice.mark s.2).getCongestionMark ≠ 501 ∨ _
        rwa [mark_of_not_isClean hclean]

end Notice

namespace Node

variable {τ : Type}

/-! ### A Data from the network -/

/-- The reception calls the strategy only through notices. -/
theorem calls_onReceivedValPacket_data (P : Platform τ) (g : Geometry) (node : Node τ) (face : ℕ)
    (valH : ValHeader) (data : Data) :
    (node.onReceivedValPacket P g face ⟨valH, .data data⟩).val.calls = node.val.calls ∨
      ∃ v geoface, node.val.onReceivedValPacket face ⟨valH, .data data⟩ =
          (v, some (.data geoface data)) ∧
        (({ node with val := v } : Node τ).isNonLocal geoface &&
          underLocalhost data.name) = false ∧
        (node.onReceivedValPacket P g face ⟨valH, .data data⟩).val =
          ((({ node with val := v } : Node τ).notices P geoface data).foldl (Notice.notify g)
            (v, data)).1 := by
  have hcalls := calls_onReceivedValPacket node.val face ⟨valH, .data data⟩
  rw [onReceivedValPacket]
  cases hrec : node.val.onReceivedValPacket face ⟨valH, .data data⟩ with
  | mk v packet =>
    rw [hrec] at hcalls
    cases packet with
    | none => exact .inl hcalls
    | some packet =>
      cases packet with
      | interest geoface interest =>
        obtain ⟨-, ⟨i, nextHop, hpay, -⟩, -⟩ := toNfd_interest hrec
        cases hpay
      | data geoface received =>
        cases (toNfd_data hrec).2.1
        have hhandled := handled P g { node with val := v } geoface data
        rw [handOver]
        generalize ({ node with val := v } : Node τ).onIncomingData P g geoface data =
          node' at hhandled
        cases hhandled with
        | dropped _ _ _ hval => exact .inl (by rw [hval]; exact hcalls)
        | unsolicited _ isProducer _ _ hval =>
          left
          rw [hval, reveiceData_control _ _ _ (data.getCongestionMark_set _)]
          exact hcalls
        | satisfied hscope _ _ hval => exact .inr ⟨v, geoface, rfl, hscope, hval⟩

/-- Calls of the strategy that `v'` has recorded since `v`. -/
def newCalls (v v' : ValForwarder) : List Call := v'.calls.drop v.calls.length

theorem newCalls_eq {v v' : ValForwarder} {new : List Call} (h : v'.calls = v.calls ++ new) :
    newCalls v v' = new := by
  rw [newCalls, h, drop_left]

/-- Nobody but one geoface or one application waits for the Data, or it is
control Data and only geofaces do. -/
theorem hopsKept_of_replies {P : Platform τ} (g : Geometry) (node : Node τ) {data : Data}
    (hknown : node.FacesKnown) (hremote : node.val.faces.GeofacesRemote)
    (hwait : underLocalhost data.name = true ∨
      node.appReplies P data + node.geoReplies P data ≤ 1 ∨
      data.getCongestionMark = 501 ∧ node.appReplies P data = 0)
    (face : ℕ) (valH : ValHeader) :
    HopsKept valH.hopC (newCalls node.val
      (node.onReceivedValPacket P g face ⟨valH, .data data⟩).val) := by
  rcases calls_onReceivedValPacket_data P g node face valH data with
    hcalls | ⟨v, geoface, hrec, hscope, hval⟩
  · rw [newCalls_eq (hcalls.trans (append_nil _).symm)]
    exact .nil _
  obtain ⟨hgeo, -, hv⟩ := toNfd_data hrec
  have hmade := makeGeoFaceFromValHeader_remote
    (v := { node.val with dfnt := make valH data face :: node.val.dfnt })
    hremote valH
  obtain ⟨faces, f2a, hframe, hext⟩ := makeGeoFaceFromValHeader_frame
    { node.val with dfnt := make valH data face :: node.val.dfnt } valH
  rw [← hv] at hmade
  rw [hframe] at hv
  have hcalls : v.calls = node.val.calls := by rw [hv]
  have hext' : v.faces.Extends node.val.faces := by
    rw [hv]
    exact hext
  -- A Data under `/localhost` does not get this far.
  have hlocalhost : underLocalhost data.name = false := by
    obtain ⟨f, hget, hisGeo⟩ := hgeo
    have hnonlocal : ({ node with val := v } : Node τ).isNonLocal geoface = true := by
      rw [isNonLocal, has, hget, Option.any_some, hmade _ _ hget hisGeo]
      rfl
    rwa [hnonlocal, Bool.true_and] at hscope
  have hin : ({ node with val := v } : Node τ).isGeoFace geoface = true := isGeo_iff_has.mp hgeo
  obtain ⟨happ, hgeos⟩ := hknown.replies hext' (P := P) data
  have hlength := length_notices hin (P := P) hlocalhost
  have hclean := countP_isClean_notices hin (P := P) data
  rw [happ, hgeos] at hlength
  rw [happ] at hclean
  rw [hval]
  rcases hwait with hwait | hwait | ⟨hmark, hwait⟩
  · rw [hlocalhost] at hwait
    cases hwait
  · cases hnotices : ({ node with val := v } : Node τ).notices P geoface data with
    | nil =>
      rw [foldl_nil, newCalls_eq (hcalls.trans (append_nil _).symm)]
      exact .nil _
    | cons notice rest =>
      rw [hnotices, length_cons] at hlength
      have hrest : rest = [] := eq_nil_of_length_eq_zero (by omega)
      subst hrest
      have hproducer : notice.isProducer = false := by
        rw [isProducer_notices (hnotices ▸ mem_singleton.mpr rfl), hin]
        rfl
      have hfind : Dfnt.findMatch v.dfnt data.signature =
          some (make valH data face) := by
        rw [hv]
        simp [Dfnt.findMatch, make]
      obtain ⟨new, hnew, hkept⟩ := Notice.hopsKept_notify g (s := (v, data)) hfind hproducer
      rw [foldl_cons, foldl_nil, newCalls_eq (hcalls ▸ hnew)]
      have hhop : (make valH data face).hopC + 1 = valH.hopC := UInt8.sub_add_cancel _ _
      rwa [hhop] at hkept
  · rw [newCalls_eq ((Notice.calls_foldl_control g hmark (hclean.trans hwait)).trans
      (hcalls.trans (append_nil _).symm))]
    exact .nil _

/-- The idle VAL makes a geoface for the area that the Data comes from. -/
theorem idle_onReceivedValPacket {faces : FaceTable} (hids : faces.lastFaceId + 1 < 2 ^ 32)
    (face : ℕ) (hopC : UInt8) (data : Data) :
    (idle faces).onReceivedValPacket face ⟨⟨"A", "A", "", "", hopC⟩, .data data⟩ =
      ({ idle faces with
          dfnt := [make ⟨"A", "A", "", "", hopC⟩ data face]
          faces := faces.add makeGeoface
          f2a := [⟨faces.lastFaceId + 1, "A"⟩] },
        some (.data (faces.lastFaceId + 1) data)) := by
  have hmod : (faces.lastFaceId + 1) % 4294967296 = faces.lastFaceId + 1 := Nat.mod_eq_of_lt hids
  have hpre : (idle faces).pending.preProcessingValPacket
      ⟨⟨"A", "A", "", "", hopC⟩, .data data⟩ = ((idle faces).pending, true) := rfl
  rw [ValForwarder.onReceivedValPacket, hpre]
  simp [ValForwarder.processDataFromNetwork, makeGeoFaceFromValHeader, makeGeoFace, idle,
    Dfnt.addEntry, F2a.findByGeoArea, F2a.addEntry, hmod, toForwarder, makeGeoface]

/-- With two replies to make, it takes itself for the origin of the Data. -/
theorem idle_originates {P : Platform τ} (g : Geometry) {node : Node τ} {data : Data}
    (hknown : node.FacesKnown) (hids : node.val.faces.lastFaceId + 1 < 2 ^ 32)
    (hlocalhost : underLocalhost data.name = false)
    (htwo : 1 < node.appReplies P data + node.geoReplies P data)
    (hmark : data.getCongestionMark ≠ 501 ∨ 0 < node.appReplies P data) (face : ℕ) (hopC : UInt8) :
    Notice.Originates (({ node with val := idle node.val.faces } : Node τ).onReceivedValPacket P g
      face ⟨⟨"A", "A", "", "", hopC⟩, .data data⟩).val := by
  rw [onReceivedValPacket, idle_onReceivedValPacket hids, handOver]
  -- What VAL has become when it hands the Data over.
  generalize hv : ({ idle node.val.faces with
    dfnt := [make ⟨"A", "A", "", "", hopC⟩ data face]
    faces := node.val.faces.add makeGeoface
    f2a := [⟨node.val.faces.lastFaceId + 1, "A"⟩] } : ValForwarder) = v
  have hext : v.faces.Extends node.val.faces := by
    rw [← hv]
    exact extends_add _ _
  have hgeo : v.faces.IsGeo (node.val.faces.lastFaceId + 1) := by
    rw [← hv]
    exact ⟨makeGeoface, get_add_self _ _, rfl⟩
  have hin : ({ node with val := v } : Node τ).isGeoFace (node.val.faces.lastFaceId + 1) =
      true := isGeo_iff_has.mp hgeo
  obtain ⟨happ, hgeos⟩ := hknown.replies hext (P := P) data
  have hlength := length_notices hin (P := P) hlocalhost
  have hclean := countP_isClean_notices hin (P := P) data
  rw [happ, hgeos] at hlength
  rw [happ] at hclean
  have hnone : ({ node with val := v } : Node τ).findAllDataMatches P data ≠ [] := by
    intro hnone
    rw [notices, hnone, flatMap_nil, length_nil] at hlength
    omega
  cases handled P g { node with val := v } (node.val.faces.lastFaceId + 1) data with
  | dropped hwhy =>
    rcases hwhy with hscope | hnil
    · rw [hlocalhost, Bool.and_false] at hscope
      cases hscope
    · exact absurd hnil hnone
  | unsolicited hnil => exact absurd hnil hnone
  | satisfied _ _ _ hval =>
    rw [hval]
    refine Notice.originated_of_two g (s := (v, data)) (congrArg dfnt hv.symm) rfl
      ?_ ?_
    · rw [hlength]
      exact htwo
    · rw [hclean]
      exact hmark

/-- A node relays a Data from the network with one hop less, once and never as its
origin, whatever its VAL has seen before, exactly when there is at most one
reply to make, counting each waiting application and each PIT entry with a
waiting geoface. Control Data, which geofaces do not get, and Data that NFD drops
for its name make no difference. -/
theorem relayed_data_hops_iff (P : Platform τ) (node : Node τ) (data : Data)
    (hknown : node.FacesKnown) (hremote : node.val.faces.GeofacesRemote)
    (hids : node.val.faces.lastFaceId + 1 < 2 ^ 32) :
    (∀ (g : Geometry) (v : ValForwarder) (face : ℕ) (valH : ValHeader),
        v.faces = node.val.faces → 1 ≤ valH.hopC → valH.hopC ≤ 10 →
        HopsKept valH.hopC (newCalls v
          (({ node with val := v } : Node τ).onReceivedValPacket P g face
            ⟨valH, .data data⟩).val)) ↔
      underLocalhost data.name = true ∨
        node.appReplies P data + node.geoReplies P data ≤ 1 ∨
        data.getCongestionMark = 501 ∧ node.appReplies P data = 0 := by
  constructor
  · intro hall
    by_contra hwait
    simp only [not_or, not_and, Nat.not_le, Bool.not_eq_true] at hwait
    obtain ⟨hlocalhost, htwo, hmark⟩ := hwait
    have hkept := hall ValForwarder.flatGeometry (idle node.val.faces) 0
      ⟨"A", "A", "", "", 5⟩ rfl (by decide) (by decide)
    have hmark' : data.getCongestionMark ≠ 501 ∨ 0 < node.appReplies P data := by
      by_cases hcontrol : data.getCongestionMark = 501
      · exact .inr (Nat.pos_of_ne_zero (hmark hcontrol))
      · exact .inl hcontrol
    obtain ⟨call, hcall, d, entries, isProducer, hmiss⟩ :=
      idle_originates ValForwarder.flatGeometry hknown hids hlocalhost htwo hmark' 0 5
    exact hkept.relayed call hcall d entries isProducer hmiss
  · intro hwait g v face valH hfaces _ _
    have hsame : ({ node with val := v } : Node τ).appReplies P data = node.appReplies P data ∧
        ({ node with val := v } : Node τ).geoReplies P data = node.geoReplies P data := by
      simp only [appReplies, geoReplies, hfaces]
      exact ⟨rfl, rfl⟩
    refine hopsKept_of_replies g { node with val := v } ?_ ?_ ?_ face valH
    · simpa [FacesKnown, hfaces] using hknown
    · simpa [hfaces] using hremote
    · rwa [hsame.1, hsame.2]

/-- Only area `A2` waits for the Data, with geoface 258. -/
def waitingRelay : Node Unit :=
  freshNode.next samplePlatform ValForwarder.flatGeometry (.receive 257 heardInterest)

theorem waitingRelay_faces :
    waitingRelay.FacesKnown ∧ waitingRelay.val.faces.GeofacesRemote ∧
      waitingRelay.val.faces.lastFaceId + 1 < 2 ^ 32 := by
  have hempty : empty.GeofacesRemote := fun _ _ h => nomatch h
  have hfaces : (((empty.add makeGeoface).add
      netFace).add makeGeoface).GeofacesRemote :=
    ((hempty.add fun _ => rfl).add fun _ => rfl).add fun _ => rfl
  refine ⟨?_, hfaces, by decide⟩
  unfold FacesKnown
  decide

/-- The vehicle that sends `heardData` is farther from those who wait than the node. -/
def fartherOff : Geometry :=
  { flatGeometry with getMultiPointDist := fun pos _ => if pos = "9:0:0" then 300 else 100 }

/-- Data with hop count 5 is sent on with 4, and whatever comes is sent on as it is to be. -/
theorem relayed_data_hops_waitingRelay :
    (newCalls waitingRelay.val (waitingRelay.onReceivedValPacket samplePlatform
        fartherOff 257 heardData).val).map (fun call => call.sent.map (·.valPkt.hopC)) =
      [some 4] ∧
    ∀ (g : Geometry) (v : ValForwarder) (face : ℕ) (valH : ValHeader),
      v.faces = waitingRelay.val.faces → 1 ≤ valH.hopC → valH.hopC ≤ 10 →
      HopsKept valH.hopC (newCalls v
        (({ waitingRelay with val := v } : Node Unit).onReceivedValPacket samplePlatform g face
          ⟨valH, .data ValForwarder.sampleData⟩).val) := by
  obtain ⟨hknown, hremote, hids⟩ := waitingRelay_faces
  exact ⟨by decide, (relayed_data_hops_iff samplePlatform waitingRelay ValForwarder.sampleData
    hknown hremote hids).mpr (.inr (.inl (by decide)))⟩

/-- The node has also heard its own Interest, from two vehicles. -/
def echoed : Node Unit :=
  { consumingRelay with
    val :=
      { consumingRelay.val with
        ifnt := consumingRelay.val.ifnt ++
          [⟨"0", "A1", 7, "7:0:0", 3, "/a", 257⟩, ⟨"0", "A1", 7, "8:0:0", 3, "/a", 257⟩] } }

/-- The Data comes with hop count 5, and the node sends it off with 7. -/
theorem echoed_hopC :
    ∃ call ∈ newCalls echoed.val (echoed.onReceivedValPacket samplePlatform
        flatGeometry 257 heardData).val,
      ∃ out, call.sent = some out ∧ out.valPkt.hopC = 7 := by
  have hany : ((newCalls echoed.val (echoed.onReceivedValPacket samplePlatform
      flatGeometry 257 heardData).val).any fun call =>
        call.sent.any fun out => out.valPkt.hopC == 7) = true := by decide
  obtain ⟨call, hcall, hsent⟩ := any_eq_true.mp hany
  cases hout : call.sent with
  | none => simp [hout] at hsent
  | some out => exact ⟨call, hcall, out, hout, by simpa [hout] using hsent⟩

theorem relayed_data_hops_not_kept :
    ¬ ∀ (P : Platform Unit) (g : Geometry) (node : Node Unit) (face : ℕ) (valP : ValPacket),
        valP.isData = true → 1 ≤ valP.hopC → valP.hopC ≤ 10 →
        HopsKept valP.hopC (newCalls node.val (node.onReceivedValPacket P g face valP).val) := by
  intro hall
  have hkept := hall samplePlatform ValForwarder.flatGeometry echoed 257 heardData rfl
    (by decide) (by decide)
  obtain ⟨call, hcall, out, hsent, hhop⟩ := echoed_hopC
  have hfour := hkept.decremented call hcall out hsent
  rw [hhop] at hfour
  exact absurd hfour (by decide)

end Node

end ValProofs
