import ValProofs.Nfd.Effects
import ValProofs.Val.Areas

/-!
The DFNT is meant as a scratch table: a Data from the network is entered, goes
through NFD, and on the way back VAL is told to take its entry out again. How
often it is told depends on who waits for the Data. The entry on top is the new
one, so the first call takes it out; a second one takes an older entry with the
same signature, and if there is no call at all the new entry stays.
-/

namespace ValProofs

open Lib ValForwarder List FaceTable

theorem Notice.dfnt_foldl_notify (g : Geometry) (notices : List Notice) (s : ValForwarder × Data) :
    (notices.foldl (notify g) s).1.dfnt =
      (eraseP fun entry => entry.sig == s.2.signature)^[notices.length] s.1.dfnt := by
  induction notices generalizing s with
  | nil => rfl
  | cons notice notices ih =>
    rw [foldl_cons, ih, dfnt_notify, length_cons, Function.iterate_succ_apply]
    rw [show (notify g s notice).2.signature = s.2.signature from notice.signature_mark s.2]
    rfl

namespace Node

variable {τ : Type}

/-- The call of `ValForwarder::processDataFromNetwork`, from its start to its
return. -/
def processDataFromNetwork (P : Platform τ) (g : Geometry) (node : Node τ) (face : ℕ)
    (valH : ValHeader) (data : Data) : Node τ :=
  node.handOver P g (node.val.processDataFromNetwork face valH data)

/-- A Data comes to it unless the preprocessing has dropped it. -/
theorem onReceivedValPacket_data (P : Platform τ) (g : Geometry) (node : Node τ) (face : ℕ)
    {valP : ValPacket} (hpre : node.val.pending.findMatch valP = none) {data : Data}
    (hpay : valP.payload = .data data) :
    node.onReceivedValPacket P g face valP =
      node.processDataFromNetwork P g face valP.valHeader data := by
  rw [onReceivedValPacket, ValForwarder.onReceivedValPacket,
    Pft.Pending.preProcessing_none hpre, processDataFromNetwork]
  simp only [hpay]

/-! ### What NFD makes of the Data -/

variable {P : Platform τ} {node : Node τ}

theorem findAllDataMatches_eq_nil_iff {data : Data} :
    node.findAllDataMatches P data = [] ↔ node.matching P data = [] := by
  rw [findAllDataMatches, ← map_eq_nil_iff (f := Pit.Entry.id) (l := node.matching P data)]
  exact ⟨fun hnil => ((P.perm_matchOrder _).symm.trans (.of_eq hnil)).eq_nil,
    fun hnil => ((P.perm_matchOrder _).trans (.of_eq hnil)).eq_nil⟩

/-- How many times an entry for the Data is taken out. -/
def removals (P : Platform τ) (node : Node τ) (data : Data) : ℕ :=
  if underLocalhost data.name then 0
  else if node.findAllDataMatches P data = [] then 1
  else node.appReplies P data + node.geoReplies P data

/-- Faces that VAL makes do not change it. -/
theorem removals_of_extends (h : node.FacesKnown) {v : ValForwarder}
    (hext : v.faces.Extends node.val.faces) (data : Data) :
    ({ node with val := v } : Node τ).removals P data = node.removals P data := by
  obtain ⟨happ, hgeo⟩ := h.replies (P := P) hext data
  rw [removals, removals, happ, hgeo]
  rfl

/-- What happens to VAL when Data comes in through a geoface. -/
theorem val_onIncomingData (P : Platform τ) (g : Geometry) {inFace : ℕ}
    (hface : node.val.faces.get inFace = some makeGeoface) (data : Data) :
    (node.onIncomingData P g inFace data).val =
      if underLocalhost data.name then node.val
      else if node.findAllDataMatches P data = [] then
        node.val.reveiceData g inFace (data.setCongestionMark 501) none
          (node.isProducerOf data.name)
      else ((node.notices P inFace data).foldl (Notice.notify g) (node.val, data)).1 := by
  have hlocal : node.isNonLocal inFace = true := by
    rw [isNonLocal, has, hface]
    rfl
  have hgeo : node.isGeoFace inFace = true := by
    rw [isGeoFace, has, hface]
    rfl
  cases hscope : underLocalhost data.name with
  | true =>
    rw [onIncomingData, hlocal, hscope]
    rfl
  | false =>
    rw [if_neg Bool.false_ne_true]
    by_cases hids : node.findAllDataMatches P data = []
    · rw [if_pos hids, onIncomingData, hlocal, hscope, hids]
      exact (onDataUnsolicited_geoface P g hlocal hgeo data).2.2
    · rw [if_neg hids]
      exact val_of_matches g (by rw [hlocal, hscope]; rfl) hids

/-- The DFNT after a Data that came in through a geoface. -/
theorem dfnt_onIncomingData (P : Platform τ) (g : Geometry) {inFace : ℕ}
    (hface : node.val.faces.get inFace = some makeGeoface) (data : Data) :
    (node.onIncomingData P g inFace data).val.dfnt =
      (eraseP fun entry => entry.sig == data.signature)^[node.removals P data]
        node.val.dfnt := by
  have hgeo : node.isGeoFace inFace = true := by
    rw [isGeoFace, has, hface]
    rfl
  rw [val_onIncomingData P g hface, removals]
  split
  · rfl
  · rename_i hscope
    split
    · rw [reveiceData_control _ _ _ (Data.getCongestionMark_set ..)]
      rfl
    · rw [Notice.dfnt_foldl_notify, length_notices hgeo (Bool.eq_false_iff.mpr hscope)]

/-! ### The table after the call -/

/-- The new entry is put in front, and then entries for the Data are taken out. -/
theorem dfnt_processDataFromNetwork {g : Geometry} (h : (system P g).Reachable node)
    (hids : node.val.faces.lastFaceId + 2 < 2 ^ 32) (face : ℕ) (valH : ValHeader) (data : Data) :
    (node.processDataFromNetwork P g face valH data).val.dfnt =
      (eraseP fun entry => entry.sig == data.signature)^[node.removals P data]
        (Dfnt.Entry.make valH data face :: node.val.dfnt) := by
  have hareas : ∃ seen, areas.Reachable
      ({ node.val with dfnt := Dfnt.Entry.make valH data face :: node.val.dfnt }, seen) := by
    obtain ⟨seen, hseen⟩ := exists_areas_reachable (val_reachable h)
    exact ⟨seen, areas_other hseen rfl rfl⟩
  obtain ⟨seen, hareas⟩ := hareas
  have hface := get_source hareas hids valH
  obtain ⟨faces, f2a, hmade, hext⟩ := makeGeoFaceFromValHeader_frame
    { node.val with dfnt := Dfnt.Entry.make valH data face :: node.val.dfnt } valH
  have hdone : node.processDataFromNetwork P g face valH data =
      ({ node with val := { node.val with
          dfnt := Dfnt.Entry.make valH data face :: node.val.dfnt, faces := faces, f2a := f2a } } :
        Node τ).onIncomingData P g (makeGeoFaceFromValHeader
          { node.val with dfnt := Dfnt.Entry.make valH data face :: node.val.dfnt } valH).2.1
          data := by
    rw [processDataFromNetwork, ValForwarder.processDataFromNetwork]
    simp only [Dfnt.addEntry, toForwarder, hface]
    rw [hmade]
    rfl
  rw [hmade] at hface
  rw [hdone, dfnt_onIncomingData P g hface, removals_of_extends (facesKnown_of_reachable h) hext]

/-- A Data that VAL receives leaves the DFNT as it was if and only if NFD does not
drop it for its name and either no PIT entry matches it, or one notice is sent
for it, or several are and no older entry has its signature. -/
theorem dfnt_restored_iff {P : Platform τ} {g : Geometry} {node : Node τ}
    (h : (system P g).Reachable node) (hids : node.val.faces.lastFaceId + 2 < 2 ^ 32) (face : ℕ)
    (valH : ValHeader) (data : Data) :
    (node.processDataFromNetwork P g face valH data).val.dfnt = node.val.dfnt ↔
      underLocalhost data.name = false ∧
        (node.matching P data = [] ∨
          node.appReplies P data + node.geoReplies P data = 1 ∨
          1 ≤ node.appReplies P data + node.geoReplies P data ∧
            ∀ entry ∈ node.val.dfnt, entry.sig ≠ data.signature) := by
  rw [dfnt_processDataFromNetwork h hids, iterate_eraseP_cons_eq_iff (by simp [Dfnt.Entry.make]),
    removals]
  cases underLocalhost data.name with
  | true => simp
  | false =>
      rw [← findAllDataMatches_eq_nil_iff]
      by_cases hmatches : node.findAllDataMatches P data = []
      · simp [hmatches]
      · simp [hmatches]

theorem dfnt_restored_iff_consumingRelay :
    (system samplePlatform ValForwarder.flatGeometry).Reachable consumingRelay ∧
      consumingRelay.val.faces.lastFaceId + 2 < 2 ^ 32 ∧
      consumingRelay.appReplies samplePlatform ValForwarder.sampleData +
        consumingRelay.geoReplies samplePlatform ValForwarder.sampleData = 2 ∧
      (consumingRelay.processDataFromNetwork samplePlatform ValForwarder.flatGeometry 257
        heardData.valHeader ValForwarder.sampleData).val.dfnt = consumingRelay.val.dfnt := by
  refine ⟨consumingRelay_reachable, by decide, rfl, ?_⟩
  refine (dfnt_restored_iff consumingRelay_reachable (by decide) _ _ _).mpr ?_
  exact ⟨rfl, .inr (.inr ⟨by decide, fun entry hentry => nomatch hentry⟩)⟩

/-- The relay has got its Data. The PIT entry is to be finalized at once, but it
is still there. -/
def answeredRelay : Node Unit :=
  consumingRelay.next samplePlatform ValForwarder.flatGeometry (.receive 257 heardData)

theorem answeredRelay_reachable : (system samplePlatform flatGeometry).Reachable answeredRelay := by
  have hguard : (system samplePlatform flatGeometry).guard consumingRelay
      (.receive 257 heardData) := mem_singleton.mpr rfl
  exact consumingRelay_reachable.next hguard

/-- NFD drops Data under `/localhost` that comes from the network, without a notice.
There is none either when the relay hears the Data again, from another vehicle,
while nobody waits for it any longer. -/
theorem stale_entry_stays :
    ((system samplePlatform ValForwarder.flatGeometry).Reachable freshNode ∧
      freshNode.val.dfnt = [] ∧
      (freshNode.processDataFromNetwork samplePlatform ValForwarder.flatGeometry 257
        ⟨"A3", "A2", "7:0:0", "/localhost", 5⟩
        { ValForwarder.sampleData with name := ["localhost", "x"] }).val.dfnt =
          [⟨"A3", "A2", ValForwarder.sampleData.signature, "7:0:0", 4, "/localhost", 257⟩]) ∧
    (system samplePlatform ValForwarder.flatGeometry).Reachable answeredRelay ∧
      answeredRelay.val.dfnt = [] ∧
      (answeredRelay.processDataFromNetwork samplePlatform ValForwarder.flatGeometry 257
        ⟨"A3", "A2", "7:0:0", "/a", 5⟩ ValForwarder.sampleData).val.dfnt =
          [⟨"A3", "A2", ValForwarder.sampleData.signature, "7:0:0", 4, "/a", 257⟩] :=
  ⟨⟨.of_init ⟨_, _, (), ValForwarder.netFace, rfl, rfl, rfl⟩, rfl, rfl⟩,
    answeredRelay_reachable, rfl, rfl⟩

end Node

end ValProofs
