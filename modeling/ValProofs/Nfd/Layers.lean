import ValProofs.Nfd.Learning

/-!
NFD above, VAL below, and one face table for both. NFD is not connected to
`ValNetFace`s, so nothing reaches it from there; that it does not send anything
there either is an invariant of the records in the PIT and of the F2A, from which
the next hops of Interests are taken.

VAL keeps the identifiers of geofaces in 32 bits. The invariant holds as long as
an identifier that is cut off does not become that of a `ValNetFace`.
-/

namespace ValProofs

open Lib FaceTable List Option

/-- A `ValNetFace` is neither the face of an application nor a geoface. -/
def Face.Proper (face : Face) : Prop :=
  face.isValNetFace = true → face.isAppFace = false ∧ face.isGeoFace = false

/-- The link service of the face is a `ValLinkService` or a `ValDummyLinkService`:
its `doSendInterest`, `doSendData` and `doSendNack` fail an assertion. -/
def Face.neverSends (face : Face) : Bool := face.isValNetFace || face.isGeoFace

namespace FaceTable

def Proper : FaceTable → Prop := All Face.Proper

variable {table : FaceTable} {face : Face}

/-- The identifier belongs to a face that is not a `ValNetFace`. -/
def IsUpper (table : FaceTable) (id : ℕ) : Prop :=
  ∃ face, table.get id = some face ∧ face.isValNetFace = false

variable {id : ℕ}

theorem IsUpper.extends {table' : FaceTable} (h : table.IsUpper id) (hext : table'.Extends table) :
    table'.IsUpper id := by
  obtain ⟨face, hget, hval⟩ := h
  exact ⟨face, hext id face hget, hval⟩

theorem isUpper_of_has {p : Face → Bool} (h : table.has p id = true)
    (hval : ∀ face, table.get id = some face → p face = true →
      face.isValNetFace = false) : table.IsUpper id := by
  obtain ⟨face, hget, hp⟩ := (any_eq_true _ _).mp h
  exact ⟨face, hget, hval face hget hp⟩

theorem isUpper_of_isSome (h : (table.get id).isSome) (hval : ¬ table.IsValNet id) :
    table.IsUpper id := by
  obtain ⟨face, hget⟩ := isSome_iff_exists.mp h
  refine ⟨face, hget, ?_⟩
  rw [← Bool.not_eq_true]
  exact fun htrue => hval ⟨face, hget, htrue⟩

/-- Identifiers that have been given out keep what they have, or have nothing. -/
theorem get_add_of_le (h : id ≤ table.lastFaceId) : (table.add face).get id = table.get id := by
  have hne : table.lastFaceId + 1 ≠ id := by omega
  simp [get, add, find?_append, hne]

theorem isValNet_add_of_le (h : id ≤ table.lastFaceId) :
    (table.add face).IsValNet id ↔ table.IsValNet id := by
  rw [IsValNet, IsValNet, get_add_of_le h]

theorem isValNet_add_makeGeoface (table : FaceTable) (id : ℕ) :
    (table.add makeGeoface).IsValNet id ↔ table.IsValNet id := by
  constructor
  · rintro ⟨face, hget, hval⟩
    rcases get_add hget with hold | rfl
    · exact ⟨face, hold, hval⟩
    · cases hval
  · exact fun h => h.extends (extends_add _ _)

end FaceTable

namespace ValForwarder

/-- No identifier that an Interest can get as its next hop is that of a
`ValNetFace`, now or later. -/
def Clear (v : ValForwarder) : Prop :=
  ∀ entry ∈ v.f2a, entry.geoArea ≠ "0" →
    entry.faceId ≤ v.faces.lastFaceId ∧ ¬ v.faces.IsValNet entry.faceId

theorem isValNet_makeGeoFace (v : ValForwarder) (area : String) (id : ℕ) :
    (v.makeGeoFace area).1.faces.IsValNet id ↔ v.faces.IsValNet id := by
  rw [makeGeoFace]
  cases F2a.findByGeoArea v.f2a area with
  | some entry => exact Iff.rfl
  | none => exact isValNet_add_makeGeoface v.faces id

variable {v : ValForwarder}

theorem Clear.makeGeoFace (h : v.Clear) (area : String)
    (hnext : ¬ v.faces.IsValNet ((v.faces.lastFaceId + 1) % 2 ^ 32)) :
    (v.makeGeoFace area).1.Clear := by
  cases hfind : F2a.findByGeoArea v.f2a area with
  | some entry =>
    rw [ValForwarder.makeGeoFace, hfind]
    exact h
  | none =>
    rw [makeGeoFace_of_none hfind]
    intro entry hentry hflood
    dsimp only
    rw [isValNet_add_makeGeoface]
    rcases mem_append.mp hentry with hentry | hentry
    · obtain ⟨hle, hval⟩ := h entry hentry hflood
      exact ⟨Nat.le_succ_of_le hle, hval⟩
    · rw [mem_singleton.mp hentry]
      exact ⟨Nat.mod_le _ _, hnext⟩

theorem Clear.of_f2a {v' : ValForwarder} (h : v.Clear) (hfaces : v'.faces = v.faces)
    (hf2a : v'.f2a = v.f2a) : v'.Clear := by
  rw [Clear, hfaces, hf2a]
  exact h

theorem Clear.addFace (h : v.Clear) (face : Face) : (v.addFace face).Clear := by
  intro entry hentry hflood
  obtain ⟨hle, hval⟩ := h entry hentry hflood
  exact ⟨Nat.le_succ_of_le hle, fun hnet => hval ((isValNet_add_of_le hle).mp hnet)⟩

/-- Neither of the two identifiers that are given out next is cut off to that of a
`ValNetFace`. -/
def Unwrapped (v : ValForwarder) : Prop :=
  ¬ v.faces.IsValNet ((v.faces.lastFaceId + 1) % 2 ^ 32) ∧
    ¬ v.faces.IsValNet ((v.faces.lastFaceId + 2) % 2 ^ 32)

theorem Clear.receive (h : v.Clear) (hnext : v.Unwrapped) (face : ℕ) (valP : ValPacket) :
    (v.onReceivedValPacket face valP).1.Clear := by
  obtain ⟨u, hfaces, hf2a, heq | heq⟩ := onReceivedValPacket_areas v face valP
  · rw [heq]
    exact h.of_f2a hfaces hf2a
  · rw [heq]
    rw [Unwrapped, ← hfaces] at hnext
    refine ((h.of_f2a hfaces hf2a).makeGeoFace valP.valHeader.sa hnext.1).makeGeoFace _ ?_
    rw [isValNet_makeGeoFace]
    have hle := lastFaceId_le_makeGeoFace u valP.valHeader.sa
    have hle' := lastFaceId_makeGeoFace_le u valP.valHeader.sa
    rcases Nat.lt_or_ge u.faces.lastFaceId (u.makeGeoFace valP.valHeader.sa).1.faces.lastFaceId
      with hlt | hge
    · rw [Nat.le_antisymm hle' hlt]
      exact hnext.2
    · rw [Nat.le_antisymm hge hle]
      exact hnext.1

/-- Without a destination the Interest is passed on as it is. -/
theorem toNfd_undirected {v' : ValForwarder} {face geoface : ℕ} {valP : ValPacket}
    {interest : Interest}
    (h : v.onReceivedValPacket face valP = (v', some (.interest geoface interest)))
    (hda : valP.valHeader.da = "0") : valP.payload = .interest interest := by
  obtain ⟨i, hpay, -, -, rfl⟩ := toNfd_interest_eq h
  rw [if_neg (not_not_intro hda), hpay]

end ValForwarder

open ValForwarder

namespace Node

variable {τ : Type}

/-- Nothing that NFD has recorded or sent has to do with `ValNetFace`s, and nothing
has been sent through a geoface. -/
structure Separate (node : Node τ) : Prop where
  inRecords : ∀ faceId, node.pit.HasInRecord faceId → node.val.faces.IsUpper faceId
  outRecords : ∀ faceId, node.pit.HasOutRecord faceId → node.val.faces.IsUpper faceId
  sent : ∀ s ∈ node.sent, ∃ face, node.val.faces.get s.faceId = some face ∧
    face.neverSends = false

/-- What the invariant rests on. -/
structure Layers (node : Node τ) : Prop extends Separate node where
  proper : node.val.faces.Proper
  narrowed : node.val.Narrowed
  clear : node.val.Clear

/-- The events of a node in which the layers are kept apart: nothing comes to NFD
from a `ValNetFace`, and no Interest comes with a next hop. -/
def Layered (node : Node τ) : Event → Prop
  | .receive _ valP => ∀ interest, valP.payload = .interest interest →
      interest.nextHopFaceId = none
  | .incomingInterest face interest =>
      node.isValNetFace face = false ∧ interest.nextHopFaceId = none
  | .incomingData face _ => node.isValNetFace face = false
  | .incomingNack face _ => node.isValNetFace face = false
  | .addFace face => face.Proper
  | _ => True

def layered (P : Platform τ) (g : Geometry) : System (Node τ) Event where
  init node := ∃ faces mobility store face, faces.Proper ∧ face.Proper ∧
    face.isValNetFace = true ∧
    node = { construct faces mobility store with
      val := (construct faces mobility store).val.addFace face }
  guard node e := node.guard e ∧ node.Layered e
  next := next P g

/-- The condition concerns receptions, which make geofaces. -/
def Unwrapped (node : Node τ) : Event → Prop
  | .receive _ _ => node.val.Unwrapped
  | _ => True

variable {node : Node τ} {e : Event}

/-- VAL's part of the step. -/
theorem Layers.arrived (h : node.Layers) (hguard : node.Layered e) (hcond : node.Unwrapped e) :
    (node.arrived e).val.faces.Proper ∧
      (node.arrived e).val.Narrowed ∧ (node.arrived e).val.Clear := by
  cases e with
  | receive face valP =>
    have hgeo : makeGeoface.Proper := fun hval => absurd hval (by decide)
    exact ⟨allFaces_receive h.proper hgeo face valP, h.narrowed.receive face valP,
      h.clear.receive hcond face valP⟩
  | addFace face => exact ⟨h.proper.add hguard, h.narrowed, h.clear.addFace face⟩
  | _ => exact ⟨h.proper, h.narrowed, h.clear⟩

variable {interest : Interest}

theorem MayForward.isUpper {faceId : ℕ} (h : node.MayForward interest faceId)
    (hproper : node.val.faces.Proper)
    (hclear : ∀ id, interest.nextHopFaceId = some id → ¬ node.val.faces.IsValNet id) :
    node.val.faces.IsUpper faceId := by
  rcases h with happ | ⟨hval, hgeo⟩ | ⟨htag, hsome⟩
  · refine isUpper_of_has happ fun face hget hface => ?_
    rw [← Bool.not_eq_true]
    intro hval
    rw [(hproper _ _ hget hval).1] at hface
    cases hface
  · refine isUpper_of_has hgeo fun face hget _ => ?_
    rwa [isValNetFace, has, hget] at hval
  · exact isUpper_of_isSome hsome (hclear faceId htag)

variable {table : FaceTable}

theorem isUpper_of_isGeo (h : table.Proper) {id : ℕ} (hgeo : table.IsGeo id) :
    table.IsUpper id := by
  obtain ⟨face, hget, hface⟩ := hgeo
  refine ⟨face, hget, ?_⟩
  rw [← Bool.not_eq_true]
  intro hval
  rw [(h _ _ hget hval).2] at hface
  cases hface

/-- An Interest comes from above, or its next hop is not a `ValNetFace`. -/
theorem Layers.brought (h : node.Layers) (hguard : node.guard e) (hlayered : node.Layered e)
    (hcond : node.Unwrapped e) {face : ℕ} (hbrought : node.brought e = some (face, interest)) :
    (node.arrived e).val.faces.IsUpper face ∧
      ∀ id, interest.nextHopFaceId = some id → ¬ (node.arrived e).val.faces.IsValNet id := by
  obtain ⟨hproper, hnarrowed, hclear⟩ := h.arrived hlayered hcond
  cases e with
  | receive f valP =>
    have hrec := eq_of_brought_receive hbrought
    refine ⟨isUpper_of_isGeo hproper (toNfd_interest hrec).1, fun id htag => ?_⟩
    by_cases hda : valP.valHeader.da = "0"
    · rw [hlayered interest (toNfd_undirected hrec hda)] at htag
      cases htag
    · obtain ⟨dest, hfind, htag'⟩ := toNfd_nextHop hrec hda
      have harea : dest.geoArea = valP.valHeader.da := by simpa using find?_some hfind
      have hmem := mem_of_find?_eq_some hfind
      obtain rfl := some.inj (htag'.symm.trans htag)
      rw [Nat.mod_eq_of_lt (hnarrowed dest hmem (harea ▸ hda))]
      exact (hclear dest hmem (harea ▸ hda)).2
  | incomingInterest f i =>
    cases hbrought
    obtain ⟨⟨own, hget, -⟩, hval, htag⟩ := And.intro hguard hlayered
    refine ⟨⟨own, hget, ?_⟩, fun id hid => ?_⟩
    · rwa [isValNetFace, has, hget] at hval
    · rw [htag] at hid
      cases hid
  | _ => cases hbrought

/-- **The step lemma.** -/
theorem Layers.next {P : Platform τ} {g : Geometry} (h : node.Layers) (hguard : node.guard e)
    (hlayered : node.Layered e) (hcond : node.Unwrapped e) : (node.next P g e).Layers := by
  obtain ⟨hproper, hnarrowed, hclear⟩ := h.arrived hlayered hcond
  have hext := node.extends_arrived e
  have hacted : Acted (node.arrived e).val.faces.IsUpper (node.arrived e).val.faces.IsUpper
      (node.arrived e).val.faces.IsUpper (node.arrived e) (node.next P g e) := by
    refine acted_next P g node e (fun face interest hbrought => ?_) fun faceId hrecord =>
      (h.inRecords faceId hrecord).extends hext
    obtain ⟨hupper, htag⟩ := h.brought hguard hlayered hcond hbrought
    exact ⟨hupper, hupper, fun faceId hmay =>
      ⟨hmay.isUpper hproper htag, hmay.isUpper hproper htag⟩⟩
  have hpit := hacted.pit
  rw [pit_arrived] at hpit
  refine ⟨⟨fun faceId hrecord => ?_, fun faceId hrecord => ?_, fun s hs => ?_⟩, ?_, ?_, ?_⟩
  · rw [hacted.faces]
    rcases hpit.hasInRecord hrecord with hold | hnew
    · exact (h.inRecords faceId hold).extends hext
    · exact hnew
  · rw [hacted.faces]
    rcases hpit.hasOutRecord hrecord with hold | hnew
    · exact (h.outRecords faceId hold).extends hext
    · exact hnew
  · rw [hacted.faces]
    rcases hacted.sent s hs with hold | ⟨hgeo, face, hget, hval⟩
    · rw [sent_arrived] at hold
      obtain ⟨face, hget, hnever⟩ := h.sent s hold
      exact ⟨face, hext _ _ hget, hnever⟩
    · refine ⟨face, hget, ?_⟩
      rw [isGeoFace, has, hget, any_some] at hgeo
      rw [Face.neverSends, hval, hgeo]
      rfl
  · rw [hacted.faces]
    exact hproper
  · exact hnarrowed.of_f2a hacted.f2a
  · exact hclear.of_f2a hacted.faces hacted.f2a

/-- NFD and VAL are kept apart in every run in which no identifier is cut off to
that of a `ValNetFace`. -/
theorem separate_of_unwrapped {P : Platform τ} {g : Geometry} {node : Node τ}
    (h : ((layered P g).restrict Unwrapped).Reachable node) : node.Separate := by
  have hlayers : node.Layers := by
    refine h.invariant ?_ ?_
    · rintro node ⟨faces, mobility, store, face, hfaces, hface, hval, rfl⟩
      refine ⟨⟨?_, ?_, ?_⟩, ?_, ?_, ?_⟩
      · rintro faceId ⟨entry, hentry, -⟩
        cases hentry
      · rintro faceId ⟨entry, hentry, -⟩
        cases hentry
      · intro s hs
        cases hs
      · exact (hfaces.add fun hgeo => absurd hgeo (by decide)).add hface
      · intro entry hentry hflood
        rw [List.mem_singleton.mp hentry] at hflood
        exact absurd rfl hflood
      · intro entry hentry hflood
        rw [List.mem_singleton.mp hentry] at hflood
        exact absurd rfl hflood
    · rintro node e hlayers ⟨⟨hguard, hlayered⟩, hcond⟩
      exact hlayers.next hguard hlayered hcond
  exact hlayers.toSeparate

theorem separate_consumingRelay : consumingRelay.Separate := by
  have hstart : ((layered samplePlatform ValForwarder.flatGeometry).restrict Unwrapped).Reachable
      freshNode := by
    refine .of_init ⟨.empty, _, (), ValForwarder.netFace, fun id f hget => ?_, ?_, rfl, rfl⟩
    · cases hget
    · exact fun _ => ⟨by decide, rfl⟩
  refine separate_of_unwrapped (hstart.foldl (.cons ?_ (.cons ?_ (.cons ?_ (.nil _)))))
  · exact ⟨⟨rfl, fun hval => absurd hval (by decide)⟩, trivial⟩
  · exact ⟨⟨⟨makeAppFace, rfl, rfl⟩, rfl, rfl⟩, trivial⟩
  · refine ⟨⟨List.mem_singleton.mpr rfl, fun interest hpay => ?_⟩, ?_, ?_⟩
    · cases hpay
      rfl
    · rintro ⟨face, hget, -⟩
      cases hget
    · rintro ⟨face, hget, -⟩
      cases hget

/-! ### After 2 ^ 32 faces -/

/-- The faces of a node to which applications have been added. -/
def manyApps : ℕ → FaceTable
  | 0 => freshNode.val.faces
  | n + 1 => (manyApps n).add makeAppFace

def crowded (n : ℕ) : Node Unit :=
  { freshNode with val := { ValForwarder.fresh with faces := manyApps n } }

theorem crowded_reachable (n : ℕ) :
    (layered samplePlatform flatGeometry).Reachable (crowded n) := by
  induction n with
  | zero =>
    refine .of_init ⟨.empty, _, (), netFace, fun id f hget => ?_, ?_, rfl, rfl⟩
    · cases hget
    · exact fun _ => ⟨by decide, rfl⟩
  | succ n ih =>
    have hguard : (layered samplePlatform flatGeometry).guard (crowded n)
        (.addFace makeAppFace) := ⟨rfl, fun hval => absurd hval (by decide)⟩
    exact ih.next hguard

theorem lastFaceId_manyApps (n : ℕ) : (manyApps n).lastFaceId = 257 + n := by
  induction n with
  | zero => rfl
  | succ n ih => rw [manyApps, lastFaceId_add, ih, Nat.add_assoc]

theorem extends_manyApps (n : ℕ) : (manyApps n).Extends freshNode.val.faces := by
  induction n with
  | zero => exact .refl _
  | succ n ih => exact ih.trans (extends_add _ _)

/-- The next two geofaces get the identifiers 2 ^ 32 + 256 and 2 ^ 32 + 257, which
VAL takes for 256 and 257. -/
theorem makeGeoFaceFromValHeader_crowded (hlast : table.lastFaceId = 2 ^ 32 + 255)
    (ifnt : List Ifnt.Entry) :
    ({ ValForwarder.fresh with ifnt := ifnt, faces := table } :
        ValForwarder).makeGeoFaceFromValHeader directed.valHeader =
      ({ ValForwarder.fresh with
          ifnt := ifnt
          faces := (table.add makeGeoface).add makeGeoface
          f2a := [⟨256, "0"⟩, ⟨256, "A2"⟩, ⟨257, "A3"⟩] }, 256, 257) := by
  have hsa : (table.lastFaceId + 1) % 2 ^ 32 = 256 := by omega
  have hda : ((table.add makeGeoface).lastFaceId + 1) % 2 ^ 32 = 257 := by
    rw [lastFaceId_add]
    omega
  have hfirst : ({ ValForwarder.fresh with ifnt := ifnt, faces := table } :
      ValForwarder).makeGeoFace "A2" =
      ({ ValForwarder.fresh with
          ifnt := ifnt
          faces := table.add makeGeoface
          f2a := [⟨256, "0"⟩, ⟨256, "A2"⟩] }, 256) := by
    rw [makeGeoFace_of_none rfl, hsa]
    rfl
  have hsecond : ({ ValForwarder.fresh with
      ifnt := ifnt
      faces := table.add makeGeoface
      f2a := [⟨256, "0"⟩, ⟨256, "A2"⟩] } : ValForwarder).makeGeoFace "A3" =
      ({ ValForwarder.fresh with
          ifnt := ifnt
          faces := (table.add makeGeoface).add makeGeoface
          f2a := [⟨256, "0"⟩, ⟨256, "A2"⟩, ⟨257, "A3"⟩] }, 257) := by
    rw [makeGeoFace_of_none rfl, hda]
    rfl
  simp only [makeGeoFaceFromValHeader, directed, hfirst, hsecond]

/-- The Interest with the `ValNetFace` as its next hop. -/
def misled : Interest :=
  { ValForwarder.sampleInterest with nonce := 8, nextHopFaceId := some 257 }

theorem onReceivedValPacket_crowded (hlast : table.lastFaceId = 2 ^ 32 + 255)
    (hflood : table.get 256 = some makeGeoface) :
    ∃ v : ValForwarder, v.faces = (table.add makeGeoface).add makeGeoface ∧
      ({ ValForwarder.fresh with faces := table } : ValForwarder).onReceivedValPacket 257 directed =
        (v, some (.interest 256 misled)) := by
  have hget : ((table.add makeGeoface).add makeGeoface).get 256 = some makeGeoface :=
    get_add_of_get (get_add_of_get hflood)
  have hpre : ({ ValForwarder.fresh with faces := table } :
      ValForwarder).pending.preProcessingValPacket directed =
    (fresh.pending, true) := rfl
  have hadd : ∀ entry : Ifnt.Entry, Ifnt.addEntry fresh.ifnt entry =
    ([entry], true) := fun _ => rfl
  have hmade := makeGeoFaceFromValHeader_crowded hlast
    [Ifnt.Entry.make directed.valHeader { sampleInterest with nonce := 8 } 257]
  rw [ValForwarder.onReceivedValPacket, hpre]
  dsimp only [directed] at hmade ⊢
  simp only [processInterestFromNetwork, hadd, hmade, toForwarder, hget]
  exact ⟨_, rfl, rfl⟩

theorem contentStoreMiss_misled {node : Node Unit} (hpit : node.pit = .empty) :
    node.contentStoreMiss samplePlatform 256 misled = some (.make 0 misled, true) := by
  have hinsert : Pit.Table.empty.insert misled =
    ((Pit.Table.empty.insert misled).1, .make 0 misled, true) := rfl
  have hhint : withoutHint samplePlatform misled = misled := rfl
  have hlocal : underLocalhost misled.name = false := rfl
  rw [contentStoreMiss, hpit, hhint, hinsert, hlocal, Bool.and_false]
  simp only [hasDuplicateNonce_make]
  rfl

theorem mem_sent_onOutgoingInterest {outFace id : ℕ} (g : Geometry)
    (hgeo : node.isGeoFace outFace = false) :
    .interest outFace interest ∈ (node.onOutgoingInterest g id outFace interest).sent := by
  have hgeo' : ¬ (node.modifyPit id fun entry =>
    entry.insertOrUpdateOutRecord node.now outFace interest).isGeoFace outFace = true :=
    ne_true_of_eq_false hgeo
  rw [onOutgoingInterest, if_neg hgeo']
  exact mem_append_right _ (mem_singleton.mpr rfl)

/-- NFD sends it there. -/
theorem sent_crowded {n : ℕ} (hn : 257 + n = 2 ^ 32 + 255) :
    ∃ s ∈ ((crowded n).next samplePlatform flatGeometry (.receive 257 directed)).sent,
      s.faceId = 257 := by
  have hext := extends_manyApps n
  have hflood : (manyApps n).get 256 = some makeGeoface := hext _ _ rfl
  have hnet : (manyApps n).get 257 = some netFace := hext _ _ rfl
  obtain ⟨v, hfaces, hrec⟩ := onReceivedValPacket_crowded ((lastFaceId_manyApps n).trans hn) hflood
  have hflood' : v.faces.get 256 = some makeGeoface := by
    rw [hfaces]
    exact get_add_of_get (get_add_of_get hflood)
  have hnet' : v.faces.get 257 = some netFace := by
    rw [hfaces]
    exact get_add_of_get (get_add_of_get hnet)
  have hmiss : ({ crowded n with val := v } : Node Unit).contentStoreMiss samplePlatform 256
      misled = some (.make 0 misled, true) := contentStoreMiss_misled rfl
  obtain ⟨reached, hfib, hval, heq⟩ := onIncomingInterest_of_miss flatGeometry hmiss
  have hnext : (crowded n).next samplePlatform flatGeometry (.receive 257 directed) =
      reached.onContentStoreMiss flatGeometry 0 256 true misled := by
    have hrec' : (crowded n).val.onReceivedValPacket 257 directed =
      (v, some (.interest 256 misled)) := hrec
    rw [next, onReceivedValPacket, hrec', handOver]
    exact heq
  have hleads : Fib.findLongestPrefixMatch reached.fib misled.name = ⟨[], [⟨256, 1⟩]⟩ := by
    rw [hfib]
    rfl
  have hrelay : ∀ nextHop ∈ (Fib.findLongestPrefixMatch reached.fib misled.name).nextHops,
      reached.isAppFace nextHop.faceId = false := by
    intro nextHop hmem
    rw [hleads] at hmem
    rw [mem_singleton.mp hmem, isAppFace, hval]
    exact has_of_get hflood' _
  have htag : misled.nextHopFaceId = some 257 := rfl
  have hgeo : reached.isGeoFace 256 = true := by
    rw [isGeoFace, hval]
    exact has_of_get hflood' _
  have happ : reached.isAppFace 256 = false := by
    rw [isAppFace, hval]
    exact has_of_get hflood' _
  have hsome : (reached.val.faces.get 257).isSome := by
    rw [hval]
    exact congrArg isSome hnet'
  obtain ⟨timed, hval', -, -, hsent⟩ := onContentStoreMiss_of_relay
    (g := flatGeometry) 0 true htag hsome hgeo happ hrelay
  have hnot : timed.isGeoFace 257 = false := by
    rw [isGeoFace, hval', hval]
    exact has_of_get hnet' _
  have hhas : (Fib.findLongestPrefixMatch reached.fib misled.name).hasNextHops = true := by
    rw [hleads]
    rfl
  rw [if_pos hhas] at hsent
  refine ⟨.interest 257 misled, ?_, rfl⟩
  rw [hnext, hsent]
  exact mem_sent_onOutgoingInterest _ hnot

theorem isValNetFace_crowded (n : ℕ) (e : Event) :
    ((crowded n).next samplePlatform flatGeometry e).isValNetFace 257 = true := by
  have hnet : (manyApps n).get 257 = some netFace := extends_manyApps n _ _ rfl
  rw [isValNetFace, (acted_next_any _ _ _ _).faces]
  exact has_of_get ((crowded n).extends_arrived e _ _ hnet) _

theorem receive_guard_crowded (n : ℕ) :
    (layered samplePlatform flatGeometry).guard (crowded n)
      (.receive 257 directed) := by
  refine ⟨mem_singleton.mpr rfl, fun interest hpay => ?_⟩
  cases hpay
  rfl

theorem valNetFace_used :
    ∃ node, (layered samplePlatform ValForwarder.flatGeometry).Reachable node ∧
      ∃ s ∈ node.sent, node.isValNetFace s.faceId = true := by
  obtain ⟨n, hn⟩ : ∃ n, 257 + n = 2 ^ 32 + 255 := ⟨2 ^ 32 - 2, by omega⟩
  obtain ⟨s, hs, hface⟩ := sent_crowded hn
  refine ⟨_, (crowded_reachable n).next (receive_guard_crowded n), s, hs, ?_⟩
  rw [hface]
  exact isValNetFace_crowded n _

end Node

end ValProofs
