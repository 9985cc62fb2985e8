import Mathlib.Data.Finset.Basic
import ValProofs.Nfd.Reply
import ValProofs.Val.Cleanup

/-!
The order in which the downstreams of a PIT entry are served. They are kept in a
`std::set` of pointers, so the order is that of their addresses.

Serving an application takes the nonces of all in-records that are still there
out of the IFNT, one entry for each nonce. If another downstream is served
first, its nonce is gone from the list by then. So two downstreams, one of them
an application, never leave the same IFNT behind in both orders when it has
enough entries for each nonce. Geofaces alone may come in any order: only the
first one counts.
-/

namespace ValProofs

open Lib Pft Notice ValForwarder List Ifnt FaceTable Option

namespace Notice

theorem copies_notify (g : Geometry) (s : ValForwarder × Data) (notice : Notice) (nonce : Nonce) :
    copies (notify g s notice).1.ifnt nonce =
      copies s.1.ifnt nonce -
        if (notice.mark s.2).getCongestionMark = 501 then 0 else notice.nonceList.count nonce := by
  rw [ifnt_notify]
  split
  · rfl
  · exact copies_removeEntriesByNonceList _ _ _

/-- A notice takes one entry for a nonce at most. -/
theorem copies_le_notify (g : Geometry) (s : ValForwarder × Data) {notice : Notice}
    (hnodup : notice.nonceList.Nodup) (nonce : Nonce) :
    copies s.1.ifnt nonce ≤ copies (notify g s notice).1.ifnt nonce + 1 := by
  have hone := nodup_iff_count_le_one.mp hnodup nonce
  rw [copies_notify]
  split <;> omega

/-- Notices that do not name the nonce leave its entries alone. -/
theorem copies_foldl_notify {nonce : Nonce} (g : Geometry) {notices : List Notice}
    (hnot : ∀ notice ∈ notices, nonce ∉ notice.nonceList) (s : ValForwarder × Data) :
    copies (notices.foldl (notify g) s).1.ifnt nonce = copies s.1.ifnt nonce := by
  induction notices generalizing s with
  | nil => rfl
  | cons notice notices ih =>
    obtain ⟨hnotice, hrest⟩ := forall_mem_cons.mp hnot
    rw [foldl_cons, ih hrest, copies_notify, count_eq_zero.mpr hnotice, ite_self, Nat.sub_zero]

/-- With one entry for each notice there is always somebody to reply to. -/
theorem hasRecipient_of_copies (g : Geometry) {notices : List Notice} {s : ValForwarder × Data}
    (hnonces : ∀ notice ∈ notices, notice.nonceList.Nodup ∧
      ∃ nonce ∈ notice.nonceList, notices.length ≤ copies s.1.ifnt nonce)
    (hcalls : ∀ call ∈ s.1.calls, HasRecipient call.call) :
    ∀ call ∈ (notices.foldl (notify g) s).1.calls, HasRecipient call.call := by
  induction notices generalizing s with
  | nil => exact hcalls
  | cons notice notices ih =>
    obtain ⟨⟨hnodup, nonce, hmem, hcopies⟩, hrest⟩ := forall_mem_cons.mp hnonces
    rw [length_cons] at hcopies
    apply ih
    · intro later hlater
      obtain ⟨hnodup', nonce', hmem', hcopies'⟩ := hrest later hlater
      have hone := copies_le_notify g s hnodup nonce'
      rw [length_cons] at hcopies'
      exact ⟨hnodup', nonce', hmem', by omega⟩
    · obtain ⟨entry, hentry, rfl⟩ :=
        copies_pos.mp (Nat.lt_of_lt_of_le (Nat.succ_pos _) hcopies)
      exact hasRecipient_reveiceData g notice.faceId (notice.mark s.2)
        notice.isProducer ⟨entry, hentry, hmem⟩ hcalls

end Notice

namespace Node

variable {τ : Type}

/-! ### An application and another downstream -/

section Swap

variable (faces : FaceTable) (name : Name) (inFace : ℕ) {entry : Pit.Entry} {ra rd : Pit.InRecord}

/-- Whether a downstream leads to a notice does not depend on the nonces. -/
theorem noticeFor_nonceList (sentToGeoFace : Bool) (nonceList : List Nonce) (downstream : ℕ) :
    noticeFor faces name inFace sentToGeoFace nonceList downstream =
      (noticeFor faces name inFace sentToGeoFace [] downstream).map fun notice =>
        { notice with nonceList := nonceList } := by
  simp only [noticeFor]
  split
  · split <;> rfl
  · split <;> rfl

variable {faces inFace} in
theorem noticeFor_app (hin : faces.has Face.isGeoFace inFace = true) {downstream : ℕ}
    (happ : isApp faces downstream = true) (sentToGeoFace : Bool) (nonceList : List Nonce) :
    noticeFor faces name inFace sentToGeoFace nonceList downstream =
      some ⟨inFace, nonceList, false, true⟩ := by
  rw [isApp, Bool.and_eq_true, Bool.not_eq_true'] at happ
  rw [noticeFor, happ.1, hin, happ.2]
  rfl

variable {faces name inFace} in
theorem not_mem_noticesFrom {sentToGeoFace : Bool} {nonce : Nonce} {downstreams : List ℕ}
    (hnot : nonce ∉ entry.nonceList) :
    ∀ notice ∈ noticesFrom faces name inFace sentToGeoFace entry downstreams,
      nonce ∉ notice.nonceList :=
  fun _ hnotice hmem => hnot ((nonceList_noticesFrom hnotice).subset hmem)

/-- The application comes first: both notices take an entry. -/
theorem copies_app_first (g : Geometry) (hwf : entry.WellFormed)
    (hin : faces.has Face.isGeoFace inFace = true) (hrd : rd ∈ entry.inRecords)
    (hne : rd.faceId ≠ ra.faceId) (happ : isApp faces ra.faceId = true) (rest : List ℕ)
    (s : ValForwarder × Data) :
    copies ((noticesFrom faces name inFace false entry
        (ra.faceId :: rd.faceId :: rest)).foldl (notify g) s).1.ifnt rd.lastNonce =
      copies s.1.ifnt rd.lastNonce -
        if (noticeFor faces name inFace false [] rd.faceId).isSome then 2 else 1 := by
  have hgeo : faces.has Face.isGeoFace ra.faceId = false := by
    rw [isApp, Bool.and_eq_true, Bool.not_eq_true'] at happ
    exact happ.1
  have hwf' := hwf.deleteInRecord ra.faceId
  have hrd' := hwf.mem_deleteInRecord.mpr ⟨hrd, hne⟩
  -- The application's notice, which leaves the mark 500 on the Data.
  have hfirst : copies (notify g s ⟨inFace, entry.nonceList, false, true⟩).1.ifnt
      rd.lastNonce = copies s.1.ifnt rd.lastNonce - 1 := by
    rw [copies_notify, if_neg (by rw [getCongestionMark_mark rfl]; decide),
      count_eq_one_of_mem hwf.nodup (hwf.listed rd hrd)]
  have hmark : (notify g s ⟨inFace, entry.nonceList, false, true⟩).2.getCongestionMark =
      500 := rfl
  rw [noticesFrom, noticesFrom, noticeFor_app name hin happ, noticeFor_nonceList, hgeo]
  simp only [toList_some, singleton_append, foldl_cons, foldl_append, Bool.or_false]
  generalize notify g s ⟨inFace, entry.nonceList, false, true⟩ = s' at hfirst hmark
  rw [copies_foldl_notify g (not_mem_noticesFrom (hwf'.lastNonce_not_mem hrd'))]
  cases hnotice : noticeFor faces name inFace false [] rd.faceId with
  | none => exact hfirst
  | some notice =>
    have hsecond : copies (notify g s' { notice with
        nonceList := (entry.deleteInRecord ra.faceId).nonceList }).1.ifnt rd.lastNonce =
        copies s'.1.ifnt rd.lastNonce - 1 := by
      rw [copies_notify, if_neg, count_eq_one_of_mem hwf'.nodup (hwf'.listed rd hrd')]
      cases notice.isClean with
      | true => rw [getCongestionMark_mark rfl]; decide
      | false => rw [mark_of_not_isClean rfl, hmark]; decide
    rw [map_some, toList_some, foldl_cons, foldl_nil, hsecond, hfirst,
      isSome_some, if_pos rfl, Nat.sub_sub]

/-- The other one comes first, and takes its nonce along. -/
theorem copies_app_second (g : Geometry) (hwf : entry.WellFormed) (hrd : rd ∈ entry.inRecords)
    (rest : List ℕ) (s : ValForwarder × Data) :
    copies s.1.ifnt rd.lastNonce ≤
      copies ((noticesFrom faces name inFace false entry (rd.faceId :: rest)).foldl
        (notify g) s).1.ifnt rd.lastNonce +
      if (noticeFor faces name inFace false [] rd.faceId).isSome then 1 else 0 := by
  rw [noticesFrom, noticeFor_nonceList, foldl_append,
    copies_foldl_notify g (not_mem_noticesFrom (hwf.lastNonce_not_mem hrd))]
  cases hnotice : noticeFor faces name inFace false [] rd.faceId with
  | none => exact Nat.le_refl _
  | some notice => exact copies_le_notify g s hwf.nodup rd.lastNonce

end Swap

end Node

/-! ### What is compared -/

/-- Hop count and destination area of the packets in the PFT. -/
def Pft.Pending.registrations (s : Pending) : List (UInt8 × String) :=
  s.table.map fun p => ((s.heap p).valPkt.hopC, (s.heap p).valPkt.valHeader.da)

/-- Packets that agree in these are registered alike. -/
theorem Pft.Pending.registrations_register (s : Pending) (outFaceId duration : ℕ)
    {valPkt valPkt' : ValPacket} (hpay : valPkt'.payload = valPkt.payload)
    (hhop : valPkt'.hopC = valPkt.hopC) (hda : valPkt'.valHeader.da = valPkt.valHeader.da) :
    (s.registerOutgoingValPacket outFaceId valPkt' duration).1.registrations =
      (s.registerOutgoingValPacket outFaceId valPkt duration).1.registrations := by
  have hmatch : s.isMatch valPkt' = s.isMatch valPkt := by
    funext p
    simp only [isMatch, ValPacket.sameNdnPacket, hpay]
  have hfind : s.findMatch valPkt' = s.findMatch valPkt := by
    rw [findMatch, hmatch, findMatch]
  simp only [registerOutgoingValPacket, addEntry, Entry.make, hfind]
  cases s.findMatch valPkt with
  | some p => rfl
  | none =>
    refine map_congr_left fun p _ => ?_
    by_cases hp : p = s.nextPtr
    · subst hp
      simp [arm, modify, Entry.setTimer, hhop, hda]
    · simp [arm, modify, hp]

/-- What is left of VAL when only these fields are looked at. -/
structure Outcome where
  ifnt : List Ifnt.Entry
  dfnt : List Dfnt.Entry
  registrations : List (UInt8 × String)
  /-- The application faces that the Data has gone out on. -/
  receivers : Finset ℕ
  deriving DecidableEq

/-- The geoface only decides on the source area in the header. -/
theorem ValForwarder.reveiceData_geoface (g : Geometry) (v : ValForwarder) (geoface geoface' : ℕ)
    (data : Data) (nonceList : Option (List Nonce)) (isProducer : Bool) :
    let v₁ := v.reveiceData g geoface data nonceList isProducer
    let v₂ := v.reveiceData g geoface' data nonceList isProducer
    v₁.ifnt = v₂.ifnt ∧ v₁.dfnt = v₂.dfnt ∧
      v₁.pending.registrations = v₂.pending.registrations ∧
      ((∀ call ∈ v₁.calls, HasRecipient call.call) ↔
        ∀ call ∈ v₂.calls, HasRecipient call.call) := by
  have hmiss : ∀ (u : ValForwarder) (ifntEntries : List Ifnt.Entry),
      let u₁ := u.afterDfntMiss g geoface data ifntEntries isProducer
      let u₂ := u.afterDfntMiss g geoface' data ifntEntries isProducer
      u₁.ifnt = u₂.ifnt ∧ u₁.dfnt = u₂.dfnt ∧
        u₁.pending.registrations = u₂.pending.registrations ∧
        ((∀ call ∈ u₁.calls, HasRecipient call.call) ↔
          ∀ call ∈ u₂.calls, HasRecipient call.call) := by
    intro u ifntEntries
    refine ⟨rfl, rfl, Pending.registrations_register _ _ _ rfl rfl rfl, ?_⟩
    simp only [afterDfntMiss, sendValPacket, forall_mem_append, forall_mem_singleton]
  simp only [reveiceData_eq]
  split
  · exact ⟨rfl, rfl, rfl, .rfl⟩
  · split
    · exact ⟨rfl, rfl, rfl, .rfl⟩
    · exact hmiss _ _

namespace Node

variable {τ : Type}

/-- What the loop over the downstreams leaves behind. -/
def outcome (node node' : Node τ) : Outcome where
  ifnt := node'.val.ifnt
  dfnt := node'.val.dfnt
  registrations := node'.val.pending.registrations
  receivers := (((node'.sent.drop node.sent.length).filterMap Sent.dataFace?).filter
    node.isAppFace).toFinset

/-- The loop with the downstreams in this order. The source's behaviour is undefined
when VAL makes a reply for nobody. -/
def servedIn (g : Geometry) (node : Node τ) (id inFace : ℕ) (data : Data) (order : List ℕ) :
    Option Outcome :=
  let node' := (node.afterReceiveData g (fun _ => order) id inFace data).1
  if ∀ call ∈ node'.val.calls, ValForwarder.HasRecipient call.call then
    some (node.outcome node')
  else none

variable {node : Node τ} {id : ℕ} {entry : Pit.Entry}

theorem servedIn_eq (g : Geometry) (hget : node.pit.get id = some entry) (inFace : ℕ) (data : Data)
    (order : List ℕ) :
    let told := (noticesFrom node.val.faces data.name inFace false entry order).foldl
      (notify g) (node.val, data)
    node.servedIn g id inFace data order =
      if ∀ call ∈ told.1.calls, HasRecipient call.call then
        some
          { ifnt := told.1.ifnt
            dfnt := told.1.dfnt
            registrations := told.1.pending.registrations
            receivers := ((order.filter (receives node.val.faces data.name)).filter
              node.isAppFace).toFinset }
      else none := by
  obtain ⟨new, fib, hnew, hafter⟩ := afterReceiveData_eq g (fun _ => order) hget inFace data
  rw [servedIn, hafter]
  simp only [outcome, drop_left, hnew, noticesAt, hget]

variable {order : List ℕ}

/-- Geofaces only: the first one gets the Data. -/
theorem noticesFrom_geofaces {faces : FaceTable} (hremote : faces.GeofacesRemote) {name : Name}
    {inFace : ℕ} {downstream : ℕ} {rest : List ℕ}
    (hgeo : ∀ faceId ∈ downstream :: rest, faces.has Face.isGeoFace faceId = true) :
    noticesFrom faces name inFace false entry (downstream :: rest) =
      if underLocalhost name then []
      else [⟨downstream, entry.nonceList, !faces.has Face.isGeoFace inFace, false⟩] := by
  have hrest : ∀ (downstreams : List ℕ) (entry : Pit.Entry),
      (∀ faceId ∈ downstreams, faces.has Face.isGeoFace faceId = true) →
      noticesFrom faces name inFace true entry downstreams = [] := by
    intro downstreams
    induction downstreams with
    | nil => intros; rfl
    | cons faceId downstreams ih =>
      intro entry hall
      obtain ⟨hfirst, hall⟩ := forall_mem_cons.mp hall
      rw [noticesFrom, noticeFor, if_pos hfirst, Bool.true_or, if_pos rfl, Bool.true_or, ih _ hall]
      rfl
  obtain ⟨hfirst, hall⟩ := forall_mem_cons.mp hgeo
  have hnonlocal : faces.has (fun face => !face.isLocal) downstream = true := by
    obtain ⟨face, hget, hisGeo⟩ := isGeo_iff_has.mpr hfirst
    rw [has, hget, any_some, hremote downstream face hget hisGeo]
    rfl
  rw [noticesFrom, noticeFor, if_pos hfirst, hnonlocal, hfirst, Bool.or_true, hrest _ _ hall,
    append_nil, Bool.false_or, Bool.true_and]
  split <;> rfl

/-- At most one notice for each downstream. -/
theorem length_noticesFrom (faces : FaceTable) (name : Name) (inFace : ℕ) (sentToGeoFace : Bool)
    (entry : Pit.Entry) (downstreams : List ℕ) :
    (noticesFrom faces name inFace sentToGeoFace entry downstreams).length ≤
      downstreams.length := by
  induction downstreams generalizing sentToGeoFace entry with
  | nil => exact Nat.le_refl 0
  | cons downstream downstreams ih =>
    have hrest := ih (sentToGeoFace || faces.has Face.isGeoFace downstream)
      (entry.deleteInRecord downstream)
    have hfirst : (noticeFor faces name inFace sentToGeoFace entry.nonceList
        downstream).toList.length ≤ 1 := length_toList_le
    rw [noticesFrom, length_append, length_cons]
    omega

/-- Enough entries for each nonce that may be looked up. -/
theorem servedIn_of_copies (g : Geometry) (hget : node.pit.get id = some entry)
    (hwf : entry.WellFormed) (inFace : ℕ) (data : Data)
    (hperm : order.Perm (entry.pendingDownstreams node.now))
    (hcopies : ∀ nonce ∈ entry.nonceList, order.length ≤ copies node.val.ifnt nonce)
    (hcalls : node.val.calls = []) :
    ∃ outcome, node.servedIn g id inFace data order = some outcome ∧ outcome.ifnt =
      ((noticesFrom node.val.faces data.name inFace false entry order).foldl
        (notify g) (node.val, data)).1.ifnt := by
  have hrecords : ∀ faceId ∈ order, ∃ r ∈ entry.inRecords, r.faceId = faceId := by
    intro faceId hface
    obtain ⟨r, hr, -, hid⟩ := Pit.Entry.mem_pendingDownstreams.mp (hperm.mem_iff.mp hface)
    exact ⟨r, hr, hid⟩
  have hnonces : ∀ notice ∈ noticesFrom node.val.faces data.name inFace false entry order,
      notice.nonceList.Nodup ∧ ∃ nonce ∈ notice.nonceList,
        (noticesFrom node.val.faces data.name inFace false entry order).length ≤
          copies node.val.ifnt nonce := by
    intro notice hnotice
    have hsub := nonceList_noticesFrom hnotice
    obtain ⟨r, -, -, -, hnonce⟩ := exists_lastNonce_noticesFrom hwf
      (hperm.nodup_iff.mpr (nodup_dedup _)) hrecords hnotice
    exact ⟨hsub.nodup hwf.nodup, r.lastNonce, hnonce,
      (length_noticesFrom _ _ _ _ _ _).trans (hcopies _ (hsub.subset hnonce))⟩
  have hreply := hasRecipient_of_copies g (s := (node.val, data)) hnonces
    (by rw [hcalls]; exact fun _ h => nomatch h)
  exact ⟨_, (servedIn_eq g hget inFace data order).trans (if_pos hreply), rfl⟩

/-- An application and another downstream, served one after the other. -/
theorem servedIn_swap_ne (g : Geometry) (node : Node τ) (hget : node.pit.get id = some entry)
    (hwf : entry.WellFormed) {inFace : ℕ} (hin : node.isGeoFace inFace = true)
    {ra rd : Pit.InRecord} (hrd : rd ∈ entry.inRecords) (hne : rd.faceId ≠ ra.faceId)
    (happ : isApp node.val.faces ra.faceId = true) {rest : List ℕ} (data : Data)
    (hperm : (ra.faceId :: rd.faceId :: rest).Perm (entry.pendingDownstreams node.now))
    (hcopies : ∀ nonce ∈ entry.nonceList,
      rest.length + 2 ≤ copies node.val.ifnt nonce) (hcalls : node.val.calls = []) :
    node.servedIn g id inFace data (ra.faceId :: rd.faceId :: rest) ≠
      node.servedIn g id inFace data (rd.faceId :: ra.faceId :: rest) := by
  obtain ⟨outcome, hserved, hifnt⟩ := servedIn_of_copies g hget hwf inFace data hperm hcopies
    hcalls
  obtain ⟨outcome', hserved', hifnt'⟩ := servedIn_of_copies g hget hwf inFace data
    ((Perm.swap _ _ _).trans hperm) hcopies hcalls
  have hfirst := copies_app_first node.val.faces data.name inFace g hwf hin hrd hne happ rest
    (node.val, data)
  have hsecond := copies_app_second node.val.faces data.name inFace g hwf hrd
    (ra.faceId :: rest) (node.val, data)
  have htwo := hcopies rd.lastNonce (hwf.listed rd hrd)
  rw [← hifnt] at hfirst
  rw [← hifnt'] at hsecond
  rw [hserved, hserved']
  intro heq
  rw [← some.inj heq, hfirst] at hsecond
  dsimp only at hsecond
  split at hsecond <;> omega

/-- Serving geofaces in another order. -/
theorem servedIn_geofaces (g : Geometry) (node : Node τ) (hget : node.pit.get id = some entry)
    (hremote : node.val.faces.GeofacesRemote) (inFace : ℕ) (data : Data) {order' : List ℕ}
    (hperm : order.Perm order') (hgeo : ∀ faceId ∈ order, node.isGeoFace faceId = true) :
    node.servedIn g id inFace data order = node.servedIn g id inFace data order' := by
  cases order with
  | nil => rw [nil_perm.mp hperm]
  | cons downstream rest =>
    cases order' with
    | nil => cases hperm.length_eq
    | cons downstream' rest' =>
      have hgeo' : ∀ faceId ∈ downstream' :: rest', node.isGeoFace faceId = true :=
        fun faceId hface => hgeo faceId (hperm.mem_iff.mpr hface)
      have hsame := toFinset_eq_of_perm _ _
        ((hperm.filter (receives node.val.faces data.name)).filter node.isAppFace)
      simp only [servedIn_eq g hget, noticesFrom_geofaces hremote hgeo,
        noticesFrom_geofaces hremote hgeo', hsame]
      split
      · rfl
      · obtain ⟨hifnt, hdfnt, hpft, hcalls⟩ := reveiceData_geoface g node.val
          downstream downstream' data (some entry.nonceList)
          (!node.val.faces.has Face.isGeoFace inFace)
        simp only [foldl_cons, foldl_nil, notify, mark_of_not_isClean, hifnt, hdfnt, hpft, hcalls]

/-- An IFNT with this many entries for each of the nonces. -/
def ifntWith (count : ℕ) (nonces : List Nonce) : List Ifnt.Entry :=
  nonces.flatMap fun nonce => (List.range count).map fun faceId =>
    ⟨"A", "A", nonce, "", 1, "", faceId⟩

theorem le_copies_ifntWith {nonce : Nonce} {nonces : List Nonce} (hmem : nonce ∈ nonces)
    (count : ℕ) : count ≤ copies (ifntWith count nonces) nonce := by
  have hsub : ((range count).map fun faceId =>
      (⟨"A", "A", nonce, "", 1, "", faceId⟩ : Ifnt.Entry)).Sublist (ifntWith count nonces) :=
    sublist_flatten_of_mem (mem_map_of_mem hmem)
  calc count = copies ((range count).map fun faceId =>
        ⟨"A", "A", nonce, "", 1, "", faceId⟩) nonce := by
        simp [copies, countP_map, Function.comp_def]
    _ ≤ copies (ifntWith count nonces) nonce := hsub.countP_le

/-- The order in which the downstreams of a PIT entry are served makes no
difference, whatever VAL has in its tables, exactly when no application is among
them or there is only one. -/
theorem order_independent_iff (node : Node τ) (id inFace : ℕ) (data : Data)
    (entry : Pit.Entry) (hget : node.pit.get id = some entry) (hwf : entry.WellFormed)
    (hin : node.isGeoFace inFace = true) (hremote : node.val.faces.GeofacesRemote)
    (hkind : ∀ faceId ∈ entry.pendingDownstreams node.now,
      node.isGeoFace faceId = true ∨ isApp node.val.faces faceId = true) :
    (∀ (g : Geometry) (v : ValForwarder) (order order' : List ℕ), v.faces = node.val.faces →
        order.Perm (entry.pendingDownstreams node.now) →
        order'.Perm (entry.pendingDownstreams node.now) →
        ({ node with val := v } : Node τ).servedIn g id inFace data order =
          ({ node with val := v } : Node τ).servedIn g id inFace data order') ↔
      (∀ faceId ∈ entry.pendingDownstreams node.now, isApp node.val.faces faceId = false) ∨
        (entry.pendingDownstreams node.now).length ≤ 1 := by
  have hnodup : (entry.pendingDownstreams node.now).Nodup := List.nodup_dedup _
  constructor
  · intro hall
    by_contra hcond
    simp only [not_or, not_forall, Nat.not_le, Bool.not_eq_false] at hcond
    obtain ⟨⟨app, happ, hisApp⟩, htwo⟩ := hcond
    -- Another downstream, and the rest.
    obtain ⟨other, hother⟩ : ∃ other, other ∈ (entry.pendingDownstreams node.now).erase app := by
      refine List.exists_mem_of_length_pos ?_
      rw [List.length_erase_of_mem happ]
      omega
    obtain ⟨hne, hmem⟩ := hnodup.mem_erase_iff.mp hother
    obtain ⟨ra, hra, -, rfl⟩ := Pit.Entry.mem_pendingDownstreams.mp happ
    obtain ⟨rd, hrd, -, rfl⟩ := Pit.Entry.mem_pendingDownstreams.mp hmem
    have hperm := (List.perm_cons_erase happ).trans
      ((List.perm_cons_erase hother).cons ra.faceId)
    generalize ((entry.pendingDownstreams node.now).erase ra.faceId).erase rd.faceId = rest
      at hperm
    exact servedIn_swap_ne ValForwarder.flatGeometry
      { node with
        val := { idle node.val.faces with
          ifnt := ifntWith (rest.length + 2) entry.nonceList } }
      hget hwf hin hrd hne hisApp data hperm.symm
      (fun nonce hnonce => le_copies_ifntWith hnonce _) rfl
      (hall _ _ _ _ rfl hperm.symm ((List.Perm.swap _ _ _).trans hperm.symm))
  · rintro (hnone | hone) g v order order' hfaces hperm hperm'
    · refine servedIn_geofaces g { node with val := v } hget ?_ inFace data
        (hperm.trans hperm'.symm) ?_
      · simpa only [hfaces] using hremote
      · intro faceId hface
        have hface' := hperm.mem_iff.mp hface
        rcases hkind faceId hface' with hgeo | happ
        · simpa only [isGeoFace, hfaces] using hgeo
        · rw [hnone faceId hface'] at happ
          cases happ
    · have heq : order = order' := by
        cases hds : entry.pendingDownstreams node.now with
        | nil =>
            rw [hds] at hperm hperm'
            rw [List.perm_nil.mp hperm, List.perm_nil.mp hperm']
        | cons faceId rest =>
            rw [hds, List.length_cons] at hone
            have hrest : rest = [] := List.eq_nil_of_length_eq_zero (by omega)
            rw [hds, hrest] at hperm hperm'
            rw [List.perm_singleton.mp hperm, List.perm_singleton.mp hperm']
      rw [heq]

/-- Two areas have asked for `/a/1` and have got the geofaces 258 and 259. -/
def relay : Node Unit :=
  [.receive 257 heardInterest,
    .receive 257
      { valHeader := { heardInterest.valHeader with sa := "A4" }
        payload := .interest { ValForwarder.sampleInterest with nonce := 9 } }].foldl
    (next samplePlatform ValForwarder.flatGeometry) freshNode

/-- The entry for `/a/1`. -/
def asksFor (node : Node Unit) : Pit.Entry :=
  (node.pit.get 0).getD (Pit.Entry.make 0 ValForwarder.sampleInterest)

theorem relay_faces :
    relay.pit.get 0 = some (asksFor relay) ∧ (asksFor relay).WellFormed ∧
      relay.isGeoFace 256 = true ∧ relay.val.faces.GeofacesRemote ∧
      ∀ faceId ∈ (asksFor relay).pendingDownstreams relay.now,
        relay.isGeoFace faceId = true := by
  have hempty : empty.GeofacesRemote := fun _ _ h => nomatch h
  have hfaces : ((((empty.add makeGeoface).add
      netFace).add makeGeoface).add makeGeoface).GeofacesRemote :=
    (((hempty.add fun _ => rfl).add fun _ => rfl).add fun _ => rfl).add fun _ => rfl
  refine ⟨rfl, ⟨?_, ?_, ?_, ?_⟩, rfl, hfaces, ?_⟩ <;> decide

theorem order_independent_relay :
    ((asksFor relay).pendingDownstreams relay.now).length = 2 ∧
    ∀ (g : Geometry) (v : ValForwarder) (order order' : List ℕ), v.faces = relay.val.faces →
      order.Perm ((asksFor relay).pendingDownstreams relay.now) →
      order'.Perm ((asksFor relay).pendingDownstreams relay.now) →
      ({ relay with val := v } : Node Unit).servedIn g 0 256 ValForwarder.sampleData order =
        ({ relay with val := v } : Node Unit).servedIn g 0 256 ValForwarder.sampleData
          order' := by
  obtain ⟨hget, hwf, hin, hremote, hgeo⟩ := relay_faces
  exact ⟨by decide, (order_independent_iff relay 0 256 ValForwarder.sampleData (asksFor relay)
    hget hwf hin hremote fun faceId hface => .inl (hgeo faceId hface)).mpr (.inl (by decide))⟩

/-- The consuming relay, when VAL hands over a Data from area `A3`. It has also heard
the Interest of area `A2` from a second vehicle, and its own from two. -/
def answered : Node Unit :=
  { consumingRelay with
    val :=
      (({ consumingRelay.val with
          ifnt := consumingRelay.val.ifnt ++
            [⟨"0", "A2", 8, "6:0:0", 3, "/a", 257⟩, ⟨"0", "A1", 7, "7:0:0", 3, "/a", 257⟩,
              ⟨"0", "A1", 7, "8:0:0", 3, "/a", 257⟩] } : ValForwarder).onReceivedValPacket 257
        heardData).1 }

/-- The Data has come from far away. -/
def farReply : Geometry :=
  { ValForwarder.flatGeometry with
    getMultiPointDist := fun pos _ => if pos = "9:0:0" then 300 else 100 }

/-- If the geoface comes first, the Data is relayed with hop count 4, one less than it
came with. If the application comes first, it is sent off anew with hop count 7. -/
theorem answered_registrations :
    (answered.servedIn farReply 0 260 sampleData [259, 258]).map
        Outcome.registrations = some [(4, "A2")] ∧
      (answered.servedIn farReply 0 260 sampleData [258, 259]).map
        Outcome.registrations = some [(7, "A2")] := by
  decide

theorem downstream_order_matters :
    ¬ ∀ (g : Geometry) (node : Node Unit) (id inFace : ℕ) (data : Data) (entry : Pit.Entry)
        (order order' : List ℕ), node.pit.get id = some entry → entry.WellFormed →
        node.isGeoFace inFace = true →
        order.Perm (entry.pendingDownstreams node.now) →
        order'.Perm (entry.pendingDownstreams node.now) →
        node.servedIn g id inFace data order = node.servedIn g id inFace data order' := by
  intro hall
  have hwf : (asksFor answered).WellFormed := by
    refine ⟨?_, ?_, ?_, ?_⟩ <;> decide
  have heq := hall farReply answered 0 260 ValForwarder.sampleData (asksFor answered) [259, 258]
    [258, 259] rfl hwf rfl (.refl _) (.swap _ _ _)
  have hregs := congrArg (Option.map Outcome.registrations) heq
  rw [answered_registrations.1, answered_registrations.2] at hregs
  exact absurd hregs (by decide)

end Node

end ValProofs
