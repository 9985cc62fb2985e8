import ValProofs.Nfd.Forwarder
import ValProofs.Val.Machine

/-!
What `afterReceiveData` tells VAL. The loop over the pending downstreams mixes
three things: it deletes in-records, it hands Data to applications, and now and
then it calls `reveiceData`. The calls are singled out here as a list of
notices, which can be read off the PIT entry before the loop starts. What the
whole reception of a Data does to VAL is then to process the notices of all
matching PIT entries, one after the other.
-/

namespace ValProofs

open Pit.Entry Pit.Table List ValForwarder

/-- One call of `reveiceData`. -/
structure Notice where
  faceId : ℕ
  nonceList : List Nonce
  isProducer : Bool
  /-- It is made after an application has been served, with the mark 500. -/
  isClean : Bool
  deriving DecidableEq, Repr

namespace Notice

def mark (notice : Notice) (data : Data) : Data :=
  if notice.isClean then data.setCongestionMark 500 else data

/-- VAL gets the notice. The mark stays on the Data. -/
def notify (g : Geometry) (s : ValForwarder × Data) (notice : Notice) : ValForwarder × Data :=
  (s.1.reveiceData g notice.faceId (notice.mark s.2) (some notice.nonceList) notice.isProducer,
    notice.mark s.2)

@[simp] theorem name_mark (notice : Notice) (data : Data) :
    (notice.mark data).name = data.name := by
  unfold mark; split <;> rfl

@[simp] theorem signature_mark (notice : Notice) (data : Data) :
    (notice.mark data).signature = data.signature := by
  unfold mark; split <;> rfl

theorem getCongestionMark_mark {notice : Notice} (h : notice.isClean = true) (data : Data) :
    (notice.mark data).getCongestionMark = 500 := by
  rw [mark, if_pos h, Data.getCongestionMark_set]

theorem mark_of_not_isClean {notice : Notice} (h : notice.isClean = false) (data : Data) :
    notice.mark data = data := by
  rw [mark, h, if_neg Bool.false_ne_true]

end Notice

open Notice

theorem Notice.faces_foldl_notify (g : Geometry) (notices : List Notice) (s : ValForwarder × Data) :
    (notices.foldl (notify g) s).1.faces = s.1.faces ∧
      (notices.foldl (notify g) s).2.name = s.2.name := by
  induction notices generalizing s with
  | nil => exact ⟨rfl, rfl⟩
  | cons notice notices ih =>
    rw [foldl_cons]
    obtain ⟨hfaces, hname⟩ := ih (notify g s notice)
    exact ⟨hfaces.trans (faces_reveiceData ..), hname.trans (notice.name_mark s.2)⟩

namespace Notice

theorem delivered_notify (g : Geometry) (s : ValForwarder × Data) (notice : Notice) :
    Delivered g s.1 notice.faceId (notice.mark s.2) (some notice.nonceList)
      notice.isProducer (notify g s notice).1 :=
  delivered ..

theorem ifnt_notify (g : Geometry) (s : ValForwarder × Data) (notice : Notice) :
    (notify g s notice).1.ifnt =
      if (notice.mark s.2).getCongestionMark = 501 then s.1.ifnt
      else Ifnt.removeEntriesByNonceList s.1.ifnt notice.nonceList :=
  ifnt_reveiceData ..

/-- Each notice takes one entry for the Data out of the DFNT. -/
theorem dfnt_notify (g : Geometry) (s : ValForwarder × Data) (notice : Notice) :
    (notify g s notice).1.dfnt = Dfnt.removeEntryBySignature s.1.dfnt s.2.signature := by
  have hdel := delivered_notify g s notice
  generalize (notify g s notice).1 = v' at hdel ⊢
  rw [← signature_mark notice]
  cases hdel <;> rfl

end Notice

/-- The face that Data has gone out on. -/
def Sent.dataFace? : Sent → Option ℕ
  | .data faceId _ => some faceId
  | _ => none

namespace Node

variable {τ : Type}

/-! ### The notices of a PIT entry -/

section Notices

variable (faces : FaceTable) (name : Name) (inFace : ℕ)

/-- The notice for one downstream, if it leads to one. -/
def noticeFor (sentToGeoFace : Bool) (nonceList : List Nonce) (downstream : ℕ) :
    Option Notice :=
  if faces.has Face.isGeoFace downstream then
    if sentToGeoFace ||
        faces.has (fun face => !face.isLocal) downstream && underLocalhost name then none
    else some ⟨downstream, nonceList, !faces.has Face.isGeoFace inFace, false⟩
  else if faces.has Face.isGeoFace inFace && faces.has Face.isAppFace downstream then
    some ⟨inFace, nonceList, false, true⟩
  else none

/-- The Data goes out on the face of the downstream. -/
def receives (downstream : ℕ) : Bool :=
  !faces.has Face.isGeoFace downstream &&
    !(faces.has (fun face => !face.isLocal) downstream && underLocalhost name)

def noticesFrom : Bool → Pit.Entry → List ℕ → List Notice
  | _, _, [] => []
  | sentToGeoFace, entry, downstream :: rest =>
      (noticeFor faces name inFace sentToGeoFace entry.nonceList downstream).toList ++
        noticesFrom (sentToGeoFace || faces.has Face.isGeoFace downstream)
          (entry.deleteInRecord downstream) rest

end Notices

/-- The notices that a Data leads to at one PIT entry. -/
def noticesAt (order : List ℕ → List ℕ) (node : Node τ) (inFace : ℕ) (data : Data) (id : ℕ) :
    List Notice :=
  match node.pit.get id with
  | none => []
  | some entry =>
      noticesFrom node.val.faces data.name inFace false entry
        (order (entry.pendingDownstreams node.now))

/-! ### How many notices there are -/

section Count

variable {faces : FaceTable} {name : Name} {inFace : ℕ}

/-- An application waits on the face. -/
def isApp (faces : FaceTable) (downstream : ℕ) : Bool :=
  !faces.has Face.isGeoFace downstream && faces.has Face.isAppFace downstream

/-- Every application leads to a notice with the mark. -/
theorem countP_isClean_noticesFrom (hin : faces.has Face.isGeoFace inFace = true)
    (sentToGeoFace : Bool) (entry : Pit.Entry) (downstreams : List ℕ) :
    (noticesFrom faces name inFace sentToGeoFace entry downstreams).countP isClean =
      downstreams.countP (isApp faces) := by
  induction downstreams generalizing sentToGeoFace entry with
  | nil => rfl
  | cons downstream downstreams ih =>
    rw [noticesFrom, countP_append, ih, countP_cons, Nat.add_comm]
    congr 1
    cases hgeo : faces.has Face.isGeoFace downstream with
    | true =>
      simp only [noticeFor, isApp, hgeo, if_true]
      split <;> simp
    | false =>
      cases happ : faces.has Face.isAppFace downstream <;>
        simp [noticeFor, isApp, hgeo, hin, happ]

/-- The geofaces lead to one notice, whatever their number. -/
theorem countP_not_isClean_noticesFrom (hscope : underLocalhost name = false) (sentToGeoFace : Bool)
    (entry : Pit.Entry) (downstreams : List ℕ) :
    (noticesFrom faces name inFace sentToGeoFace entry downstreams).countP
        (fun notice => !notice.isClean) =
      if !sentToGeoFace && downstreams.any (faces.has Face.isGeoFace) then 1 else 0 := by
  induction downstreams generalizing sentToGeoFace entry with
  | nil => cases sentToGeoFace <;> rfl
  | cons downstream downstreams ih =>
    rw [noticesFrom, countP_append, ih, any_cons]
    cases hgeo : faces.has Face.isGeoFace downstream with
    | true => cases sentToGeoFace <;> simp [noticeFor, hgeo, hscope]
    | false =>
      have hnone : (noticeFor faces name inFace sentToGeoFace entry.nonceList
          downstream).toList.countP (fun notice => !notice.isClean) = 0 := by
        simp only [noticeFor, hgeo, if_neg Bool.false_ne_true]
        split <;> rfl
      rw [hnone, Nat.zero_add, Bool.or_false, Bool.false_or]

variable {sentToGeoFace : Bool} {notice : Notice}

theorem noticeFor_eq_some {nonceList : List Nonce} {downstream : ℕ}
    (h : noticeFor faces name inFace sentToGeoFace nonceList downstream = some notice) :
    notice.nonceList = nonceList ∧ notice.isProducer = !faces.has Face.isGeoFace inFace ∧
      notice.isClean = !faces.has Face.isGeoFace downstream ∧
      (notice.isClean = true → faces.has Face.isGeoFace inFace = true) := by
  rw [noticeFor] at h
  split at h
  · rename_i hgeo
    split at h
    · cases h
    · cases h
      exact ⟨rfl, rfl, by rw [hgeo]; rfl, fun h => nomatch h⟩
  · rename_i hgeo
    split at h
    · rename_i happ
      cases h
      rw [Bool.and_eq_true] at happ
      exact ⟨rfl, by rw [happ.1]; rfl, by rw [Bool.eq_false_iff.mpr hgeo]; rfl, fun _ => happ.1⟩
    · cases h

variable {entry : Pit.Entry} {downstreams : List ℕ}

variable (h : notice ∈ noticesFrom faces name inFace sentToGeoFace entry downstreams)
include h

/-- A notice is that for one of the downstreams, with the nonces that are left then. -/
theorem exists_noticeFor :
    ∃ downstream ∈ downstreams, ∃ sent nonceList, (sentToGeoFace = true → sent = true) ∧
      nonceList.Sublist entry.nonceList ∧
      noticeFor faces name inFace sent nonceList downstream = some notice := by
  induction downstreams generalizing sentToGeoFace entry with
  | nil => cases h
  | cons downstream downstreams ih =>
    rcases mem_append.mp h with h | h
    · exact ⟨downstream, mem_cons_self, sentToGeoFace, _, id, .refl _, Option.mem_toList.mp h⟩
    · obtain ⟨other, hmem, sent, nonceList, hsent, hsub, hnotice⟩ := ih h
      exact ⟨other, mem_cons_of_mem _ hmem, sent, nonceList,
        fun htrue => hsent (by rw [htrue, Bool.true_or]),
        hsub.trans (entry.nonceList_deleteInRecord downstream), hnotice⟩

theorem isProducer_noticesFrom : notice.isProducer = !faces.has Face.isGeoFace inFace := by
  obtain ⟨_, -, _, _, -, -, hnotice⟩ := exists_noticeFor h
  exact (noticeFor_eq_some hnotice).2.1

/-- Applications are told apart only when the Data comes through a geoface. -/
theorem isGeoFace_of_isClean
    (hclean : notice.isClean = true) : faces.has Face.isGeoFace inFace = true := by
  obtain ⟨_, -, _, _, -, -, hnotice⟩ := exists_noticeFor h
  exact (noticeFor_eq_some hnotice).2.2.2 hclean

/-- A notice lists nonces of the entry. -/
theorem nonceList_noticesFrom : notice.nonceList.Sublist entry.nonceList := by
  obtain ⟨_, -, _, _, -, hsub, hnotice⟩ := exists_noticeFor h
  rwa [(noticeFor_eq_some hnotice).1]

end Count

/-! ### The loop -/

theorem sendData_eq (g : Geometry) (node : Node τ) {outFace : ℕ}
    (hgeo : node.isGeoFace outFace = false) (id : ℕ) (data : Data) :
    ∃ new, new.filterMap Sent.dataFace? = [outFace].filter (receives node.val.faces data.name) ∧
      node.sendData g id data outFace =
        { node with
          pit := node.pit.modify id fun entry => entry.deleteInRecord outFace
          sent := node.sent ++ new } := by
  have hgeo' : (node.modifyPit id fun entry => entry.deleteInRecord outFace).isGeoFace
      outFace = false := hgeo
  have hhas : node.val.faces.has Face.isGeoFace outFace = false := hgeo
  rw [sendData, hgeo, if_neg Bool.false_ne_true, onOutgoingData]
  split
  · rename_i hblocked
    have hblocked' : (node.val.faces.has (fun face => !face.isLocal) outFace &&
        underLocalhost data.name) = true := hblocked
    refine ⟨[], ?_, by rw [append_nil]; rfl⟩
    simp [receives, hblocked']
  · rename_i hblocked
    have hblocked' : (node.val.faces.has (fun face => !face.isLocal) outFace &&
        underLocalhost data.name) = false := Bool.eq_false_iff.mpr hblocked
    rw [hgeo', if_neg Bool.false_ne_true]
    refine ⟨[.data outFace data], ?_, rfl⟩
    simp [receives, hblocked', hhas, Sent.dataFace?]

variable {id : ℕ} {entry : Pit.Entry}

/-- One turn of the loop deletes an in-record and gives VAL its notice. -/
theorem sendDownstream_eq (g : Geometry) (inFace : ℕ) {s : Downstream τ}
    (hget : s.node.pit.get id = some entry) (downstream : ℕ) :
    ∃ new, new.filterMap Sent.dataFace? =
        [downstream].filter (receives s.node.val.faces s.data.name) ∧
      let told := (noticeFor s.node.val.faces s.data.name inFace s.sentToGeoFace
        entry.nonceList downstream).toList.foldl (notify g) (s.node.val, s.data)
      sendDownstream g id inFace (!s.node.isGeoFace inFace) s downstream =
        { node :=
            { s.node with
              val := told.1
              pit := s.node.pit.modify id fun entry => entry.deleteInRecord downstream
              sent := s.node.sent ++ new }
          data := told.2
          sentToGeoFace := s.sentToGeoFace || s.node.isGeoFace downstream } := by
  cases hgeo : s.node.val.faces.has Face.isGeoFace downstream with
  | true =>
    refine ⟨[], by simp [receives, hgeo], ?_⟩
    cases hsent : s.sentToGeoFace with
    | true => simp [sendDownstream, hget, noticeFor, isGeoFace, hgeo, hsent, modifyPit]
    | false =>
      cases hblocked : s.node.val.faces.has (fun face => !face.isLocal) downstream &&
          underLocalhost s.data.name with
      | true =>
        simp [sendDownstream, hget, noticeFor, isGeoFace, isNonLocal, hgeo, hsent,
          hblocked, sendDataToVal, onOutgoingData, modifyPit]
      | false =>
        simp [sendDownstream, hget, noticeFor, isGeoFace, isNonLocal, hgeo, hsent, hblocked,
          sendDataToVal, onOutgoingData, modifyPit, notify, mark, getNonceList]
  | false =>
    obtain ⟨new, hnew, hsend⟩ := sendData_eq g s.node hgeo id s.data
    refine ⟨new, hnew, ?_⟩
    cases hin : s.node.val.faces.has Face.isGeoFace inFace with
    | false =>
      simp [sendDownstream, hget, noticeFor, isGeoFace, hgeo, hin, hsend]
    | true =>
      cases happ : s.node.val.faces.has Face.isAppFace downstream with
      | false =>
        simp [sendDownstream, hget, noticeFor, isGeoFace, isAppFace, hgeo, hin, happ, hsend]
      | true =>
        simp [sendDownstream, hget, noticeFor, isGeoFace, isAppFace, hgeo, hin, happ,
          hsend, faceSendDataToVal, notify, mark, getNonceList]

/-- The whole loop. -/
theorem foldl_sendDownstream (g : Geometry) (inFace : ℕ) (downstreams : List ℕ) {s : Downstream τ}
    (hget : s.node.pit.get id = some entry) :
    ∃ new sentToGeoFace, new.filterMap Sent.dataFace? =
        downstreams.filter (receives s.node.val.faces s.data.name) ∧
      let told := (noticesFrom s.node.val.faces s.data.name inFace s.sentToGeoFace entry
        downstreams).foldl (notify g) (s.node.val, s.data)
      downstreams.foldl (sendDownstream g id inFace (!s.node.isGeoFace inFace)) s =
        { node :=
            { s.node with
              val := told.1
              pit := s.node.pit.modify id fun entry =>
                downstreams.foldl deleteInRecord entry
              sent := s.node.sent ++ new }
          data := told.2
          sentToGeoFace := sentToGeoFace } := by
  induction downstreams generalizing s entry with
  | nil =>
    refine ⟨[], s.sentToGeoFace, rfl, ?_⟩
    have hpit : s.node.pit.modify id (fun entry => entry) = s.node.pit := by
      ext1
      · simp only [Pit.Table.modify, withId_of_eq rfl, ite_self, map_id']
      · rfl
    simp [noticesFrom, hpit]
  | cons downstream downstreams ih =>
    obtain ⟨new, hnew, hstep⟩ := sendDownstream_eq g inFace hget downstream
    generalize htold : (noticeFor s.node.val.faces s.data.name inFace s.sentToGeoFace
      entry.nonceList downstream).toList.foldl (notify g) (s.node.val, s.data) = told
      at hstep
    have hframe := faces_foldl_notify g (noticeFor s.node.val.faces s.data.name inFace
      s.sentToGeoFace entry.nonceList downstream).toList (s.node.val, s.data)
    rw [htold] at hframe
    obtain ⟨hfaces, hname⟩ := hframe
    rw [foldl_cons, hstep]
    -- The entry the next turn works on is the old one without this in-record.
    have hget' : (s.node.pit.modify id fun entry => entry.deleteInRecord downstream).get id =
        some (entry.deleteInRecord downstream) := by
      rw [get_modify_self hget, withId_of_eq (entry.id_deleteInRecord downstream)]
    obtain ⟨new', sentToGeoFace, hnew', hloop⟩ := ih (s :=
      { node :=
          { s.node with
            val := told.1
            pit := s.node.pit.modify id fun entry => entry.deleteInRecord downstream
            sent := s.node.sent ++ new }
        data := told.2
        sentToGeoFace := s.sentToGeoFace || s.node.isGeoFace downstream }) hget'
    simp only [isGeoFace, hfaces, hname] at hnew' hloop ⊢
    refine ⟨new ++ new', sentToGeoFace, ?_, ?_⟩
    · rw [filterMap_append, hnew, hnew', ← filter_append]
      rfl
    · rw [hloop, noticesFrom, foldl_append, htold, append_assoc]
      rw [modify_modify _ _ _ fun entry => entry.id_deleteInRecord downstream]
      rfl

variable {node : Node τ}

/-- A Data at one PIT entry: VAL gets the notices, the Data goes out, and the
in-records of the downstreams go. -/
theorem afterReceiveData_eq (g : Geometry) (order : List ℕ → List ℕ)
    (hget : node.pit.get id = some entry) (inFace : ℕ) (data : Data) :
    ∃ new fib, new.filterMap Sent.dataFace? =
        (order (entry.pendingDownstreams node.now)).filter
          (receives node.val.faces data.name) ∧
      let told := (node.noticesAt order inFace data id).foldl (notify g)
        (node.val, data)
      node.afterReceiveData g order id inFace data =
        ({ node with
            val := told.1
            pit := node.pit.modify id fun e =>
              (order (entry.pendingDownstreams node.now)).foldl deleteInRecord e
            fib := fib
            sent := node.sent ++ new }, told.2) := by
  have hroute : ∃ fib, (if node.isGeoFace inFace then node.addRoute data.name.getPrefix1 inFace 1
      else node) = { node with fib := fib } := by
    split
    · exact ⟨_, rfl⟩
    · exact ⟨node.fib, rfl⟩
  obtain ⟨fib, hroute⟩ := hroute
  obtain ⟨new, sentToGeoFace, hnew, hloop⟩ := foldl_sendDownstream g inFace
    (order (entry.pendingDownstreams node.now))
    (s := ⟨{ node with fib := fib }, data, false⟩) hget
  refine ⟨new, fib, hnew, ?_⟩
  simp only [afterReceiveData, noticesAt, hget, hroute]
  exact congrArg (fun s => (s.node, s.data)) hloop

/-! ### All matching entries -/

theorem noticesFrom_congr (faces : FaceTable) (name : Name) (inFace : ℕ) {entry' : Pit.Entry}
    (h : entry.SameRecords entry') (sentToGeoFace : Bool) (downstreams : List ℕ) :
    noticesFrom faces name inFace sentToGeoFace entry' downstreams =
      noticesFrom faces name inFace sentToGeoFace entry downstreams := by
  induction downstreams generalizing entry entry' sentToGeoFace with
  | nil => rfl
  | cons downstream downstreams ih =>
    rw [noticesFrom, noticesFrom, h.nonceList, ih (h.deleteInRecord downstream)]

/-- Some nonces are added to the list, which do not depend on the node. -/
theorem insertDeadNonceList_eq (P : Platform τ) (entry : Pit.Entry) (upstream : Option ℕ) :
    ∃ records : List Pit.OutRecord, ∀ node : Node τ,
      node.insertDeadNonceList P entry upstream =
        { node with
          store := records.foldl (fun store r =>
            P.deadNonceListAdd store entry.interest.name r.lastNonce) node.store } := by
  unfold insertDeadNonceList
  dsimp only
  generalize (if entry.isSatisfied then entry.interest.selectors.mustBeFresh &&
    decide (entry.dataFreshnessPeriod < P.deadNonceListLifetime) else true) = needDnl
  cases needDnl with
  | true => exact ⟨_, fun _ => rfl⟩
  | false => exact ⟨[], fun _ => rfl⟩

/-- What `satisfy` does with VAL and the Data, and with the PIT entry. -/
theorem satisfy_eq (P : Platform τ) (g : Geometry) (inFace : ℕ) (data : Data)
    (hget : node.pit.get id = some entry) :
    let told := (node.noticesAt P.setOrder inFace data id).foldl (notify g)
      (node.val, data)
    let s := satisfy P g inFace (node, data) id
    s.1.val = told.1 ∧ s.2 = told.2 ∧ s.1.now = node.now ∧
      Alters (serve P.setOrder node.now) [id] node.pit s.1.pit := by
  have htimer := alters_modify_of_same
    (f := fun e => { e with expiryTimer := some (node.now + Pit.nanoseconds 0) })
    (fun _ => ⟨rfl, rfl⟩) id node.pit
  obtain ⟨timed, htimed, hsame⟩ := htimer.self id mem_cons_self entry hget
  have hget' : (node.setExpiryTimer id 0).pit.get id = some timed := htimed
  have hnotices : (node.setExpiryTimer id 0).noticesAt P.setOrder inFace data id =
      node.noticesAt P.setOrder inFace data id := by
    simp only [noticesAt, hget', hget]
    rw [noticesFrom_congr _ _ _ hsame, hsame.pendingDownstreams]
    rfl
  obtain ⟨new, fib, -, hafter⟩ :=
    afterReceiveData_eq g P.setOrder hget' inFace data
  rw [hnotices, hsame.pendingDownstreams] at hafter
  have hserved := htimer.trans (alters_modify
    (fun e => (P.setOrder (entry.pendingDownstreams node.now)).foldl
      deleteInRecord e) id _) fun _ _ h => h.foldl_deleteInRecord _
  have hmarked := hserved.trans (alters_modify_of_same
    (f := fun e => { e with
      isSatisfied := true
      dataFreshnessPeriod := ((node.noticesAt P.setOrder inFace data id).foldl
        (notify g) (node.val, data)).2.freshnessPeriod })
    (fun _ => ⟨rfl, rfl⟩) id _) fun _ _ h => h
  have hout := hmarked.trans (alters_modify_of_same
    (f := fun e => e.deleteOutRecord inFace) (fun _ => ⟨rfl, rfl⟩) id _) fun _ _ h => h
  have hdone : Alters (serve P.setOrder node.now) [id] node.pit _ :=
    hout.congr fun id' hid e he => by
      obtain rfl := mem_singleton.mp hid
      obtain rfl := Option.some.inj (he.symm.trans hget)
      exact .refl _
  simp only [satisfy, hafter]
  split
  · exact ⟨rfl, rfl, rfl, hdone⟩
  · rename_i satisfied _
    obtain ⟨records, hstore⟩ := insertDeadNonceList_eq P satisfied (some inFace)
    rw [hstore]
    exact ⟨rfl, rfl, rfl, hdone⟩

variable {inFace : ℕ} {data : Data}

/-- The notices at an entry are read off the entry, the faces and the clock. -/
theorem noticesAt_congr {order : List ℕ → List ℕ} {node' : Node τ} {data' : Data}
    (hpit : node'.pit.get id = node.pit.get id) (hnow : node'.now = node.now)
    (hfaces : node'.val.faces = node.val.faces) (hname : data'.name = data.name) :
    node'.noticesAt order inFace data' id = node.noticesAt order inFace data id := by
  simp only [noticesAt, hpit, hnow, hfaces, hname]

/-- All entries that the Data satisfies, one after the other. -/
theorem foldl_satisfy (P : Platform τ) (g : Geometry) (inFace : ℕ) {ids : List ℕ} (node : Node τ)
    (data : Data) (hids : ids.Nodup) (hfound : ∀ id ∈ ids, ∃ entry, node.pit.get id = some entry) :
    let told := (ids.flatMap (node.noticesAt P.setOrder inFace data)).foldl (notify g)
      (node.val, data)
    let s := ids.foldl (satisfy P g inFace) (node, data)
    s.1.val = told.1 ∧ s.1.now = node.now ∧
      Alters (serve P.setOrder node.now) ids node.pit s.1.pit := by
  induction ids generalizing node data with
  | nil => exact ⟨rfl, rfl, fun _ h => h, fun _ _ => rfl, fun _ h => (nomatch h)⟩
  | cons id ids ih =>
    obtain ⟨hid, hids⟩ := nodup_cons.mp hids
    obtain ⟨entry, hget⟩ := hfound id mem_cons_self
    obtain ⟨hval, hdata, hnow, halters⟩ := satisfy_eq P g inFace data hget
    have hframe := faces_foldl_notify g (node.noticesAt P.setOrder inFace data id)
      (node.val, data)
    rw [← hval, ← hdata] at hframe
    -- The other entries are not touched, so they lead to the notices they had led to.
    have hother : ∀ id' ∈ ids, (satisfy P g inFace (node, data) id).1.pit.get id' =
        node.pit.get id' := fun id' hid' =>
      halters.other id' (mem_singleton.not.mpr fun heq => hid (heq ▸ hid'))
    have hnotices : ids.flatMap ((satisfy P g inFace (node, data) id).1.noticesAt P.setOrder
        inFace (satisfy P g inFace (node, data) id).2) =
        ids.flatMap (node.noticesAt P.setOrder inFace data) :=
      flatMap_congr fun id' hid' => noticesAt_congr (hother id' hid') hnow hframe.1 hframe.2
    obtain ⟨hval', hnow', halters'⟩ := ih (satisfy P g inFace (node, data) id).1
      (satisfy P g inFace (node, data) id).2 hids
      fun id' hid' => by
        rw [hother id' hid']
        exact hfound id' (mem_cons_of_mem _ hid')
    rw [hnow] at hnow' halters'
    refine ⟨?_, hnow', halters.cons halters' hid⟩
    rw [foldl_cons, hval', hnotices, flatMap_cons, foldl_append, hval, hdata]

variable {P : Platform τ}

theorem mem_findAllDataMatches :
    id ∈ node.findAllDataMatches P data ↔
      ∃ entry ∈ node.pit.entries, P.matchesData entry.interest data = true ∧ entry.id = id := by
  rw [findAllDataMatches, (P.perm_matchOrder _).mem_iff, mem_map]
  simp only [mem_filter, and_assoc]

theorem nodup_findAllDataMatches (P : Platform τ) (node : Node τ) (data : Data) :
    (node.findAllDataMatches P data).Nodup :=
  (P.perm_matchOrder _).nodup_iff.mpr (node.pit.nodup.sublist (filter_sublist.map _))

/-- All notices of a Data, in the order VAL gets them. -/
def notices (P : Platform τ) (node : Node τ) (inFace : ℕ) (data : Data) : List Notice :=
  (node.findAllDataMatches P data).flatMap (node.noticesAt P.setOrder inFace data)

/-- The state after `onIncomingData`. -/
inductive Handled (P : Platform τ) (g : Geometry) (node : Node τ) (inFace : ℕ) (data : Data)
    (node' : Node τ) : Prop
  | dropped (hwhy : (node.isNonLocal inFace && underLocalhost data.name) = true ∨
        node.findAllDataMatches P data = [])
      (hpit : node'.pit = node.pit) (hnow : node'.now = node.now)
      (hval : node'.val = node.val)
  | unsolicited (hnone : node.findAllDataMatches P data = []) (isProducer : Bool)
      (hpit : node'.pit = node.pit) (hnow : node'.now = node.now)
      (hval : node'.val = node.val.reveiceData g inFace (data.setCongestionMark 501) none
        isProducer)
  | satisfied (hscope : (node.isNonLocal inFace && underLocalhost data.name) = false)
      (hpit : Pit.Table.Alters (Pit.Entry.serve P.setOrder node.now)
        (node.findAllDataMatches P data) node.pit node'.pit)
      (hnow : node'.now = node.now)
      (hval : node'.val =
        ((node.notices P inFace data).foldl (Notice.notify g) (node.val, data)).1)

/-- An application has announced the name. -/
def isProducerOf (node : Node τ) (name : Name) : Bool :=
  (Fib.findLongestPrefixMatch node.fib name).nextHops.any
    fun nextHop => node.isAppFace nextHop.faceId

/-- Data that nobody has asked for has VAL clean up. -/
theorem onDataUnsolicited_geoface (P : Platform τ) (g : Geometry)
    (hlocal : node.isNonLocal inFace = true) (hgeo : node.isGeoFace inFace = true) (data : Data) :
    (node.onDataUnsolicited P g inFace data).pit = node.pit ∧
      (node.onDataUnsolicited P g inFace data).now = node.now ∧
      (node.onDataUnsolicited P g inFace data).val =
        node.val.reveiceData g inFace (data.setCongestionMark 501) none
          (node.isProducerOf data.name) := by
  have hgeo' : ∀ fib, ({ node with fib := fib } : Node τ).isGeoFace inFace = true := fun _ => hgeo
  rw [onDataUnsolicited, hlocal, hgeo, isProducerOf]
  simp only [Bool.not_true, if_neg Bool.false_ne_true, if_true, faceSendDataToVal]
  generalize ((Fib.findLongestPrefixMatch node.fib data.name).nextHops.any
    fun nextHop => node.isAppFace nextHop.faceId) = isProducer
  cases isProducer with
  | true =>
    simp only [if_true, hgeo, and_self]
  | false =>
    simp only [if_neg Bool.false_ne_true, addRoute, hgeo', if_true, and_self]

theorem handled_onDataUnsolicited (g : Geometry) (inFace : ℕ)
    (hnone : node.findAllDataMatches P data = []) :
    Handled P g node inFace data (node.onDataUnsolicited P g inFace data) := by
  cases hlocal : node.isNonLocal inFace with
  | false =>
    rw [onDataUnsolicited, hlocal]
    exact .dropped (.inr hnone) rfl rfl rfl
  | true =>
    cases hgeo : node.isGeoFace inFace with
    | false =>
      rw [onDataUnsolicited, hlocal, hgeo]
      exact .dropped (.inr hnone) rfl rfl rfl
    | true =>
      obtain ⟨hpit, hnow, hval⟩ := onDataUnsolicited_geoface P g hlocal hgeo data
      exact .unsolicited hnone _ hpit hnow hval

theorem handled (P : Platform τ) (g : Geometry) (node : Node τ) (inFace : ℕ) (data : Data) :
    Handled P g node inFace data (node.onIncomingData P g inFace data) := by
  unfold onIncomingData
  cases hscope : node.isNonLocal inFace && underLocalhost data.name with
  | true => exact .dropped (.inl hscope) rfl rfl rfl
  | false =>
    rw [if_neg Bool.false_ne_true]
    cases hids : node.findAllDataMatches P data with
    | nil => exact handled_onDataUnsolicited g inFace hids
    | cons id ids =>
      have hfound : ∀ id ∈ node.findAllDataMatches P data,
          ∃ entry, node.pit.get id = some entry := by
        intro id hid
        obtain ⟨entry, hentry, -, rfl⟩ := mem_findAllDataMatches.mp hid
        exact ⟨entry, get_eq_some.mpr ⟨hentry, rfl⟩⟩
      obtain ⟨hval, hnow, halters⟩ := foldl_satisfy P g inFace
        { node with store := P.contentStoreAdd node.store data } data
        (nodup_findAllDataMatches P node data) hfound
      rw [hids] at hval hnow halters
      refine .satisfied hscope ?_ hnow ?_
      · rw [hids]
        exact halters
      · rw [notices, hids]
        exact hval

/-- VAL gets all the notices when the Data matches a PIT entry. -/
theorem val_of_matches (g : Geometry)
    (hscope : (node.isNonLocal inFace && underLocalhost data.name) = false)
    (hids : node.findAllDataMatches P data ≠ []) :
    (node.onIncomingData P g inFace data).val =
      ((node.notices P inFace data).foldl (notify g) (node.val, data)).1 := by
  cases handled P g node inFace data with
  | dropped hwhy =>
    rcases hwhy with hwhy | hwhy
    · rw [hscope] at hwhy
      cases hwhy
    · exact absurd hwhy hids
  | unsolicited hnone => exact absurd hnone hids
  | satisfied _ _ _ hval => exact hval

/-! ### Who waits for a Data -/

/-- The PIT entries that the Data satisfies. -/
def matching (P : Platform τ) (node : Node τ) (data : Data) : List Pit.Entry :=
  node.pit.entries.filter fun entry => P.matchesData entry.interest data

/-- How many times an application waits for the Data. -/
def appReplies (P : Platform τ) (node : Node τ) (data : Data) : ℕ :=
  ((node.matching P data).map fun entry =>
    (entry.pendingDownstreams node.now).countP (isApp node.val.faces)).sum

/-- How many PIT entries have a geoface that waits for the Data. -/
def geoReplies (P : Platform τ) (node : Node τ) (data : Data) : ℕ :=
  ((node.matching P data).map fun entry =>
    if (entry.pendingDownstreams node.now).any (node.val.faces.has Face.isGeoFace) then 1
    else 0).sum

/-- The faces of the in-records are in the face table. -/
def FacesKnown (node : Node τ) : Prop :=
  ∀ entry ∈ node.pit.entries, ∀ r ∈ entry.inRecords, (node.val.faces.get r.faceId).isSome

theorem FacesKnown.pendingDownstreams (h : node.FacesKnown) (hentry : entry ∈ node.pit.entries)
    {faceId : ℕ} (hface : faceId ∈ entry.pendingDownstreams node.now) :
    (node.val.faces.get faceId).isSome := by
  obtain ⟨r, hr, -, rfl⟩ := mem_pendingDownstreams.mp hface
  exact h entry hentry r hr

/-- Notices are counted entry by entry. -/
theorem countP_notices {p : Notice → Bool} {f : Pit.Entry → ℕ} (hentry : ∀ entry : Pit.Entry,
      (noticesFrom node.val.faces data.name inFace false entry
        (P.setOrder (entry.pendingDownstreams node.now))).countP p = f entry) :
    (node.notices P inFace data).countP p = ((node.matching P data).map f).sum := by
  rw [notices, countP_flatMap, findAllDataMatches, ((P.perm_matchOrder _).map _).sum_eq, map_map]
  refine congrArg sum (map_congr_left fun entry hmem => ?_)
  have hget : node.pit.get entry.id = some entry := get_eq_some.mpr ⟨(mem_filter.mp hmem).1, rfl⟩
  rw [← hentry entry, Function.comp_apply, Function.comp_apply, noticesAt, hget]

theorem countP_isClean_notices (hin : node.isGeoFace inFace = true) (data : Data) :
    (node.notices P inFace data).countP isClean = node.appReplies P data := by
  refine countP_notices fun entry => ?_
  rw [countP_isClean_noticesFrom hin, (P.perm_setOrder _).countP_eq]

theorem countP_not_isClean_notices (inFace : ℕ) (hscope : underLocalhost data.name = false) :
    (node.notices P inFace data).countP (fun notice => !notice.isClean) =
      node.geoReplies P data := by
  refine countP_notices fun entry => ?_
  rw [countP_not_isClean_noticesFrom hscope, Bool.not_false, Bool.true_and,
    (P.perm_setOrder _).any_eq]

/-- Faces that VAL makes do not change who waits. -/
theorem FacesKnown.replies (hknown : node.FacesKnown) {v : ValForwarder}
    (hext : v.faces.Extends node.val.faces) (data : Data) :
    ({ node with val := v } : Node τ).appReplies P data = node.appReplies P data ∧
      ({ node with val := v } : Node τ).geoReplies P data = node.geoReplies P data := by
  have hmem : ∀ entry ∈ node.matching P data, entry ∈ node.pit.entries :=
    fun entry hentry => (mem_filter.mp hentry).1
  constructor
  · refine congrArg sum (map_congr_left fun entry hentry => ?_)
    refine countP_congr fun faceId hface => ?_
    have hsome := hknown.pendingDownstreams (hmem entry hentry) hface
    rw [isApp, isApp, hext.has hsome, hext.has hsome]
  · refine congrArg sum (map_congr_left fun entry hentry => ?_)
    have hany : (entry.pendingDownstreams node.now).any (v.faces.has Face.isGeoFace) =
        (entry.pendingDownstreams node.now).any (node.val.faces.has Face.isGeoFace) := by
      rw [Bool.eq_iff_iff, any_eq_true, any_eq_true]
      refine exists_congr fun faceId => and_congr_right fun hface => ?_
      rw [hext.has (hknown.pendingDownstreams (hmem entry hentry) hface)]
    dsimp only
    rw [hany]

theorem mem_notices {notice : Notice} (h : notice ∈ node.notices P inFace data) :
    ∃ id ∈ node.findAllDataMatches P data, ∃ entry, node.pit.get id = some entry ∧
      notice ∈ noticesFrom node.val.faces data.name inFace false entry
        (P.setOrder (entry.pendingDownstreams node.now)) := by
  obtain ⟨id, hid, h⟩ := mem_flatMap.mp h
  rw [noticesAt] at h
  split at h
  · cases h
  · rename_i entry hget
    exact ⟨id, hid, entry, hget, h⟩

theorem isProducer_notices {notice : Notice} (h : notice ∈ node.notices P inFace data) :
    notice.isProducer = !node.isGeoFace inFace := by
  obtain ⟨id, -, entry, -, h⟩ := mem_notices h
  exact isProducer_noticesFrom h

/-- All notices. -/
theorem length_notices (hin : node.isGeoFace inFace = true)
    (hscope : underLocalhost data.name = false) :
    (node.notices P inFace data).length =
      node.appReplies P data + node.geoReplies P data := by
  rw [length_eq_countP_add_countP isClean, countP_isClean_notices hin,
    ← countP_not_isClean_notices inFace hscope]
  simp

end Node

end ValProofs
