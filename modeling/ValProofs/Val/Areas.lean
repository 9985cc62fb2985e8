import ValProofs.Lib.Keyed
import ValProofs.Val.Machine

/-!
Geofaces stand for areas. The F2A maps the one to the other, and every received
header adds what is missing for its source and its destination: a geoface is
made, gets the next identifier of the face table, and is entered with the area.

The identifier is kept in a `uint32_t` on the way, so all of this is only right
as long as the face table has not given out more than 2^32 identifiers.
-/

namespace ValProofs

open Lib FaceTable List

namespace ValForwarder

/-! ### A table that can be read both ways -/

/-- No area and no face occurs twice in the F2A, and its faces are geofaces as VAL
makes them. -/
structure Mapped (v : ValForwarder) : Prop where
  areas : (v.f2a.map F2a.Entry.geoArea).Nodup
  faceIds : (v.f2a.map F2a.Entry.faceId).Nodup
  geofaces : ∀ entry ∈ v.f2a, v.faces.get entry.faceId = some makeGeoface

variable {v : ValForwarder} {entry : F2a.Entry}

theorem Mapped.le_lastFaceId (h : Mapped v) (hmem : entry ∈ v.f2a) :
    entry.faceId ≤ v.faces.lastFaceId :=
  FaceTable.le_lastFaceId (h.geofaces entry hmem)

/-- The face of an entry leads to its area. -/
theorem Mapped.getGeoArea_eq (h : Mapped v) {faceId : ℕ} {area : String}
    (hmem : ⟨faceId, area⟩ ∈ v.f2a) : v.getGeoArea faceId = area := by
  have hfind : F2a.findByFaceId v.f2a faceId = some ⟨faceId, area⟩ :=
    find?_key_of_mem h.faceIds hmem
  rw [getGeoArea, hfind]

theorem Mapped.faceId_iff_geoArea (h : Mapped v) {entry' : F2a.Entry} (hmem : entry ∈ v.f2a)
    (hmem' : entry' ∈ v.f2a) : entry.geoArea = entry'.geoArea ↔ entry.faceId = entry'.faceId := by
  constructor
  · intro heq
    rw [inj_on_of_nodup_map h.areas hmem hmem' heq]
  · intro heq
    rw [inj_on_of_nodup_map h.faceIds hmem hmem' heq]

/-- Only the face table and the F2A matter, and the face table may grow. -/
theorem Mapped.of_f2a {v' : ValForwarder} (h : Mapped v) (hf2a : v'.f2a = v.f2a)
    (hext : v'.faces.Extends v.faces) : Mapped v' where
  areas := hf2a ▸ h.areas
  faceIds := hf2a ▸ h.faceIds
  geofaces entry hentry := hext _ _ (h.geofaces entry (hf2a ▸ hentry))

/-! ### Making geofaces -/

theorem findByGeoArea_eq_some {table : List F2a.Entry} {area : String}
    (h : F2a.findByGeoArea table area = some entry) : ⟨entry.faceId, area⟩ ∈ table := by
  have harea : entry.geoArea = area := by simpa using find?_some h
  exact harea ▸ mem_of_find?_eq_some h

theorem lastFaceId_le_makeGeoFace (v : ValForwarder) (area : String) :
    v.faces.lastFaceId ≤ (v.makeGeoFace area).1.faces.lastFaceId := by
  rw [makeGeoFace]
  cases F2a.findByGeoArea v.f2a area with
  | some entry => exact Nat.le_refl _
  | none => exact Nat.le_succ _

theorem lastFaceId_makeGeoFace_le (v : ValForwarder) (area : String) :
    (v.makeGeoFace area).1.faces.lastFaceId ≤ v.faces.lastFaceId + 1 := by
  rw [makeGeoFace]
  cases F2a.findByGeoArea v.f2a area with
  | some entry => exact Nat.le_succ _
  | none => exact Nat.le_refl _

/-- The area has an entry now, with the face that is returned, and the other
entries are still there. -/
theorem Mapped.makeGeoFace (h : Mapped v) (area : String)
    (hid : (v.makeGeoFace area).1.faces.lastFaceId < 2 ^ 32) :
    Mapped (v.makeGeoFace area).1 ∧ v.f2a ⊆ (v.makeGeoFace area).1.f2a ∧
      ⟨(v.makeGeoFace area).2, area⟩ ∈ (v.makeGeoFace area).1.f2a := by
  rw [ValForwarder.makeGeoFace] at hid ⊢
  cases hfind : F2a.findByGeoArea v.f2a area with
  | some entry =>
    simp only [hfind] at hid ⊢
    have hmem := findByGeoArea_eq_some hfind
    have hlt := Nat.lt_of_le_of_lt (h.le_lastFaceId hmem) hid
    rw [Nat.mod_eq_of_lt hlt]
    exact ⟨h, Subset.refl _, hmem⟩
  | none =>
    simp only [hfind, lastFaceId_add] at hid ⊢
    rw [Nat.mod_eq_of_lt hid]
    have hfresh : v.faces.lastFaceId + 1 ∉ v.f2a.map F2a.Entry.faceId := by
      intro hmem
      obtain ⟨entry, hentry, heq⟩ := mem_map.mp hmem
      have := h.le_lastFaceId hentry
      omega
    have hunseen : area ∉ v.f2a.map F2a.Entry.geoArea := by
      intro hmem
      obtain ⟨entry, hentry, heq⟩ := mem_map.mp hmem
      exact find?_eq_none.mp hfind entry hentry (beq_iff_eq.mpr heq)
    have hnew : F2a.addEntry v.f2a ⟨v.faces.lastFaceId + 1, area⟩ =
        v.f2a ++ [⟨v.faces.lastFaceId + 1, area⟩] :=
      if_neg fun hmem => hunseen (mem_map_of_mem hmem)
    simp only [hnew]
    refine ⟨⟨?_, ?_, ?_⟩, subset_append_left _ _, by simp⟩
    · rw [map_append]
      exact Nodup.append h.areas (nodup_singleton _) (by simpa using hunseen)
    · rw [map_append]
      exact Nodup.append h.faceIds (nodup_singleton _) (by simpa using hfresh)
    · intro entry hentry
      rcases mem_append.mp hentry with hentry | hentry
      · exact extends_add _ _ _ _ (h.geofaces entry hentry)
      · rw [mem_singleton.mp hentry]
        exact get_add_self _ _

/-- Both areas of a header have entries, with the faces that are returned. When
they are the same area, the second search finds what the first has made. -/
theorem Mapped.makeGeoFaceFromValHeader (h : Mapped v) (valH : ValHeader)
    (hid : (v.makeGeoFaceFromValHeader valH).1.faces.lastFaceId < 2 ^ 32) :
    let made := v.makeGeoFaceFromValHeader valH
    Mapped made.1 ∧ v.f2a ⊆ made.1.f2a ∧ ⟨made.2.1, valH.sa⟩ ∈ made.1.f2a ∧
      ⟨made.2.2, valH.da⟩ ∈ made.1.f2a := by
  intro made
  have hid' := Nat.lt_of_le_of_lt
    (lastFaceId_le_makeGeoFace (v.makeGeoFace valH.sa).1 valH.da) hid
  obtain ⟨hsa, hsub, hmem⟩ := h.makeGeoFace valH.sa hid'
  obtain ⟨hda, hsub', hmem'⟩ := hsa.makeGeoFace valH.da hid
  exact ⟨hda, Subset.trans hsub hsub', hsub' hmem, hmem'⟩

/-! ### All headers of a run -/

/-- What can happen to the face table and the F2A: a header comes in, or another
face is added to the node. Everything else that changes a forwarder leaves the
two alone. -/
inductive AreaEvent
  | header (valH : ValHeader)
  | addFace (face : Face)
  | other (v : ValForwarder)

/-- A forwarder next to the areas it has seen, each with the face identifier that
was returned for it. It begins with the flood area. -/
def areas : System (ValForwarder × List (String × ℕ)) AreaEvent where
  init s := ∃ faces mobility, s = (construct faces mobility, [("0", faces.lastFaceId + 1)])
  guard s
    | .other v => v.faces = s.1.faces ∧ v.f2a = s.1.f2a
    | _ => True
  next s
    | .header valH =>
        let (v, faceIdSA, faceIdDA) := s.1.makeGeoFaceFromValHeader valH
        (v, s.2 ++ [(valH.sa, faceIdSA), (valH.da, faceIdDA)])
    | .addFace face => (s.1.addFace face, s.2)
    | .other v => (v, s.2)

/-- Every identifier that was returned for an area is in the F2A. -/
structure Tracked (s : ValForwarder × List (String × ℕ)) : Prop where
  mapped : Mapped s.1
  seen : ∀ r ∈ s.2, ⟨r.2, r.1⟩ ∈ s.1.f2a

theorem tracked_construct (faces : FaceTable) (mobility : Mobility) :
    Tracked (construct faces mobility, [("0", faces.lastFaceId + 1)]) where
  mapped := by
    refine ⟨nodup_singleton _, nodup_singleton _, fun entry hentry => ?_⟩
    rw [mem_singleton.mp hentry]
    exact get_add_self _ _
  seen r hr := by
    rw [mem_singleton.mp hr]
    exact mem_singleton.mpr rfl

theorem lastFaceId_le_areas (s : ValForwarder × List (String × ℕ)) {e : AreaEvent}
    (hguard : areas.guard s e) : s.1.faces.lastFaceId ≤ (areas.next s e).1.faces.lastFaceId := by
  cases e with
  | header valH =>
    exact (lastFaceId_le_makeGeoFace _ _).trans (lastFaceId_le_makeGeoFace _ _)
  | addFace face => exact Nat.le_succ _
  | other v => exact (congrArg lastFaceId hguard.1).ge

variable {s : ValForwarder × List (String × ℕ)}

theorem Tracked.next (h : Tracked s) {e : AreaEvent} (hguard : areas.guard s e)
    (hid : (areas.next s e).1.faces.lastFaceId < 2 ^ 32) : Tracked (areas.next s e) := by
  cases e with
  | header valH =>
    obtain ⟨hmapped, hsub, hsa, hda⟩ := h.mapped.makeGeoFaceFromValHeader valH hid
    refine ⟨hmapped, fun r hr => ?_⟩
    rcases mem_append.mp hr with hr | hr
    · exact hsub (h.seen r hr)
    · rcases mem_pair.mp hr with rfl | rfl
      · exact hsa
      · exact hda
  | addFace face => exact ⟨h.mapped.of_f2a rfl (extends_add _ _), h.seen⟩
  | other v =>
    obtain ⟨hfaces, hf2a⟩ := hguard
    refine ⟨h.mapped.of_f2a hf2a fun id face hget => ?_, fun r hr => ?_⟩
    · show v.faces.get id = some face
      rw [hfaces, hget]
    · show _ ∈ v.f2a
      rw [hf2a]
      exact h.seen r hr

theorem tracked_of_reachable (h : areas.Reachable s) (hid : s.1.faces.lastFaceId < 2 ^ 32) :
    Tracked s := by
  refine h.invariant (I := fun s => s.1.faces.lastFaceId < 2 ^ 32 → Tracked s) ?_ ?_ hid
  · rintro s ⟨faces, mobility, rfl⟩ _
    exact tracked_construct faces mobility
  · intro s e ih hguard hid'
    exact (ih (Nat.lt_of_le_of_lt (lastFaceId_le_areas s hguard) hid')).next hguard hid'

/-! ### The forwarder's own runs -/

/-- A reception makes the geofaces of one header at most. -/
theorem onReceivedValPacket_areas (v : ValForwarder) (face : ℕ) (valP : ValPacket) :
    ∃ u : ValForwarder, u.faces = v.faces ∧ u.f2a = v.f2a ∧
      ((v.onReceivedValPacket face valP).1 = u ∨
        (v.onReceivedValPacket face valP).1 = (u.makeGeoFaceFromValHeader valP.valHeader).1) := by
  rw [onReceivedValPacket]
  split
  · refine ⟨_, ?_, ?_, .inl rfl⟩ <;> rfl
  · split
    · rw [processInterestFromNetwork]
      split
      · refine ⟨_, ?_, ?_, .inl rfl⟩ <;> rfl
      · refine ⟨_, ?_, ?_, .inr rfl⟩ <;> rfl
    · refine ⟨_, ?_, ?_, .inr rfl⟩ <;> rfl
    · refine ⟨_, ?_, ?_, .inl rfl⟩ <;> rfl

/-- What `makeGeoFace` keeps is kept by a reception, if it is about the face table
and the F2A alone. -/
theorem receive_keeps {I : ValForwarder → Prop}
    (hmake : ∀ u area, I u → I (u.makeGeoFace area).1)
    (hframe : ∀ u u' : ValForwarder, u'.faces = u.faces → u'.f2a = u.f2a → I u → I u') (h : I v)
    (face : ℕ) (valP : ValPacket) : I (v.onReceivedValPacket face valP).1 := by
  obtain ⟨u, hfaces, hf2a, heq | heq⟩ := onReceivedValPacket_areas v face valP
  · exact heq ▸ hframe v u hfaces hf2a h
  · exact heq ▸ hmake _ _ (hmake _ _ (hframe v u hfaces hf2a h))

theorem allFaces_receive {P : Face → Prop} (h : v.faces.All P) (hP : P makeGeoface) (face : ℕ)
    (valP : ValPacket) : (v.onReceivedValPacket face valP).1.faces.All P :=
  receive_keeps (I := fun u => u.faces.All P) (fun _ area hu => allFaces_makeGeoFace hu hP area)
    (fun _ _ hfaces _ hu => hfaces ▸ hu) h face valP

variable {seen : List (String × ℕ)}

theorem areas_addFace (h : areas.Reachable (v, seen)) (face : Face) :
    areas.Reachable (v.addFace face, seen) := by
  have hguard : areas.guard (v, seen) (.addFace face) := trivial
  exact h.next hguard

theorem areas_other {u : ValForwarder} (h : areas.Reachable (v, seen)) (hfaces : u.faces = v.faces)
    (hf2a : u.f2a = v.f2a) : areas.Reachable (u, seen) := by
  have hguard : areas.guard (v, seen) (.other u) := ⟨hfaces, hf2a⟩
  exact h.next hguard

theorem areas_receive (h : areas.Reachable (v, seen)) (face : ℕ) (valP : ValPacket) :
    ∃ seen', areas.Reachable ((v.onReceivedValPacket face valP).1, seen') := by
  obtain ⟨u, hfaces, hf2a, heq | heq⟩ := onReceivedValPacket_areas v face valP
  · rw [heq]
    exact ⟨seen, areas_other h hfaces hf2a⟩
  · have hguard : areas.guard (u, seen) (.header valP.valHeader) := trivial
    rw [heq]
    exact ⟨_, (areas_other h hfaces hf2a).next hguard⟩

/-- Every state of the forwarder is one that a sequence of headers and faces
leads to. -/
theorem exists_areas_reachable {g : Geometry} (h : (machine g).Reachable v) :
    ∃ seen, areas.Reachable (v, seen) := by
  refine h.invariant (I := fun v => ∃ seen, areas.Reachable (v, seen)) ?_ ?_
  · rintro v ⟨faces, mobility, face, -, rfl⟩
    have hinit : areas.Reachable (construct faces mobility, [("0", faces.lastFaceId + 1)]) :=
      .of_init ⟨faces, mobility, rfl⟩
    exact ⟨_, areas_addFace hinit face⟩
  · rintro v e ⟨seen, hseen⟩ -
    show ∃ seen, areas.Reachable (v.next g e, seen)
    cases e with
    | receive face valP => exact areas_receive hseen face valP
    | interestFromNfd inGeoface interest =>
      rw [next, reveiceInterest_eq]
      exact ⟨seen, areas_other hseen rfl rfl⟩
    | dataFromNfd inGeoface data nonceList isProducer =>
      exact ⟨seen, areas_other hseen (faces_reveiceData g v inGeoface data nonceList isProducer)
        (f2a_reveiceData g v inGeoface data nonceList isProducer)⟩
    | fire id => exact ⟨seen, areas_other hseen rfl rfl⟩
    | addFace face => exact ⟨seen, areas_addFace hseen face⟩
    | move mobility => exact ⟨seen, areas_other hseen rfl rfl⟩

/-- The source of a header has a geoface that VAL has made. -/
theorem get_source (h : areas.Reachable (v, seen)) (hids : v.faces.lastFaceId + 2 < 2 ^ 32)
    (valH : ValHeader) :
    (v.makeGeoFaceFromValHeader valH).1.faces.get (v.makeGeoFaceFromValHeader valH).2.1 =
      some makeGeoface := by
  have hle : (v.makeGeoFaceFromValHeader valH).1.faces.lastFaceId ≤ v.faces.lastFaceId + 2 :=
    (lastFaceId_makeGeoFace_le _ _).trans (Nat.succ_le_succ (lastFaceId_makeGeoFace_le _ _))
  have hmade : (v.makeGeoFaceFromValHeader valH).1.faces.lastFaceId < 2 ^ 32 :=
    Nat.lt_of_le_of_lt hle hids
  have hnow : v.faces.lastFaceId < 2 ^ 32 := by omega
  obtain ⟨hmapped, -, hsource, -⟩ :=
    (tracked_of_reachable h hnow).mapped.makeGeoFaceFromValHeader valH hmade
  exact hmapped.geofaces _ hsource

/-- Geofaces and areas are in bijection: no area and no face is twice in the F2A,
each area seen so far has one entry, the two faces that are returned for a
header lead back to its areas, and two areas were given the same face if and
only if they are the same. -/
theorem geofaces_bijective {s : ValForwarder × List (String × ℕ)} (h : areas.Reachable s)
    (hid : s.1.faces.lastFaceId < 2 ^ 32) :
    ((s.1.f2a.map F2a.Entry.geoArea).Nodup ∧ (s.1.f2a.map F2a.Entry.faceId).Nodup) ∧
      (∀ r ∈ s.2, ∃! entry, entry ∈ s.1.f2a ∧ entry.geoArea = r.1) ∧
      (∀ valH, let made := s.1.makeGeoFaceFromValHeader valH
        made.1.faces.lastFaceId < 2 ^ 32 →
          made.1.getGeoArea made.2.1 = valH.sa ∧ made.1.getGeoArea made.2.2 = valH.da) ∧
      ∀ r ∈ s.2, ∀ r' ∈ s.2, r.1 = r'.1 ↔ r.2 = r'.2 := by
  obtain ⟨hmapped, hseen⟩ := tracked_of_reachable h hid
  refine ⟨⟨hmapped.areas, hmapped.faceIds⟩, ?_, ?_, ?_⟩
  · intro r hr
    refine ⟨⟨r.2, r.1⟩, ⟨hseen r hr, rfl⟩, ?_⟩
    rintro entry ⟨hentry, harea⟩
    exact List.inj_on_of_nodup_map hmapped.areas hentry (hseen r hr) harea
  · intro valH made hmade
    obtain ⟨hmapped', -, hsa, hda⟩ := hmapped.makeGeoFaceFromValHeader valH hmade
    exact ⟨hmapped'.getGeoArea_eq hsa, hmapped'.getGeoArea_eq hda⟩
  · intro r hr r' hr'
    exact hmapped.faceId_iff_geoArea (hseen r hr) (hseen r' hr')

/-- The forwarder after a header from A2 to the flood area, a second face, and a
header that stays in A2. -/
def afterTwoHeaders : ValForwarder × List (String × ℕ) :=
  [.header ⟨"A2", "0", "1:0:0", "/a", 9⟩, .addFace netFace,
    .header ⟨"A2", "A2", "2:0:0", "/a", 8⟩].foldl areas.next
      (construct .empty ⟨"0:0:0", "A1", 10000⟩, [("0", 256)])

theorem afterTwoHeaders_reachable : areas.Reachable afterTwoHeaders := by
  refine System.Reachable.foldl (.of_init ⟨_, _, rfl⟩) ?_
  exact .cons trivial (.cons trivial (.cons trivial (.nil _)))

theorem geofaces_bijective_afterTwoHeaders :
    areas.Reachable afterTwoHeaders ∧ afterTwoHeaders.1.faces.lastFaceId < 2 ^ 32 ∧
      afterTwoHeaders.2 = [("0", 256), ("A2", 257), ("0", 256), ("A2", 257), ("A2", 257)] ∧
      ∀ r ∈ afterTwoHeaders.2, ∀ r' ∈ afterTwoHeaders.2, r.1 = r'.1 ↔ r.2 = r'.2 :=
  ⟨afterTwoHeaders_reachable, by decide, by decide,
    (geofaces_bijective afterTwoHeaders_reachable (by decide)).2.2.2⟩

end ValForwarder

end ValProofs
