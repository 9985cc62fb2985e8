import ValProofs.Link.Header
import ValProofs.Val.Grid

/-!
What is read of a destination area that came over the network.

The octets of the `DA` go from the decoder into the IFNT, and when NFD hands the
Interest back, `doAfterIfntHit` has the distance to that area computed. Nobody
looks at the length of the string before `getPositionFromArea` reads its first two
characters.
-/

namespace ValProofs

open ValDistancesStrategy (getPositionFromArea)

/-! ### Strings from the wire -/

namespace Link

/-- The string with these octets. -/
def text (octets : List UInt8) : String :=
  String.ofList (octets.map fun octet => Char.ofNat octet.toNat)

/-- The header as `ValForwarder` gets it. -/
def ValHeader.text (header : ValHeader) : ValProofs.ValHeader where
  sa := Link.text header.sa
  da := Link.text header.da
  phPos := Link.text header.phPos
  rn := Link.text header.rn
  hopC := header.hopC

theorem text_injective : Function.Injective text := by
  intro octets octets' h
  refine List.map_injective_iff.mpr (fun a b hab => ?_) (String.ofList_injective h)
  have hcodes := congrArg Char.toNat hab
  rw [ValDistancesStrategy.toNat_ofNat _ a.toNat_lt,
    ValDistancesStrategy.toNat_ofNat _ b.toNat_lt] at hcodes
  exact UInt8.toNat_inj.mp hcodes

end Link

/-- The distances of the strategy, where `distance` parses a position and computes
how far it is from a point. -/
def Geometry.gridded (g : Geometry) (distance : String → Vector3D → UInt32) : Geometry :=
  { g with
    getDistanceToArea := fun pointA area =>
      ((getPositionFromArea area).map (distance pointA)).getD 0 }

namespace ValForwarder

/-! ### The strategy with its reads -/

/-- None if the computation reads outside the area's string. -/
def getDistanceToArea? (distance : String → Vector3D → UInt32) (pointA area : String) :
    Option UInt32 :=
  (getPositionFromArea area).map (distance pointA)

/-- `doAfterIfntHit`, none if it reads outside the string of the `DA`. -/
def doAfterIfntHit? (distance : String → Vector3D → UInt32) (g : Geometry) (v : ValForwarder)
    (faceId : ℕ) (ifntEntry : Ifnt.Entry) (interest : Interest) : Option (Option Outgoing) :=
  if ifntEntry.hopC = 0 then some none
  else if ifntEntry.da ≠ "0" ∧ ifntEntry.da ≠ v.mobility.area then do
    let preHopDist ← getDistanceToArea? distance ifntEntry.phPos ifntEntry.da
    let myDist ← getDistanceToArea? distance v.mobility.pos ifntEntry.da
    if myDist < preHopDist then
      return some (v.relayed ifntEntry ifntEntry.da interest
        (g.calcFwdTimer myDist ifntEntry.hopC true false v.mobility.delay))
    else return none
  else
    let dist := g.getDistanceToPoint ifntEntry.phPos v.mobility.pos
    some (some (v.relayed ifntEntry (v.getGeoArea faceId) interest
      (g.calcInvertedFwdTimer dist 0 false false v.mobility.delay)))

/-- `reveiceInterest`, none if it reads outside the string of the `DA`. -/
def reveiceInterest? (distance : String → Vector3D → UInt32) (g : Geometry) (v : ValForwarder)
    (inGeoface : ℕ) (interest : Interest) : Option ValForwarder :=
  match Ifnt.findMatchByNonce v.ifnt interest.nonce with
  | some ifntEntry =>
      (v.doAfterIfntHit? distance g inGeoface ifntEntry interest).map
        (v.sendValPacket (.ifntHit ifntEntry interest))
  | none => some (v.afterIfntMiss inGeoface interest)

section Reads

variable {distance : String → Vector3D → UInt32} {g : Geometry} {v : ValForwarder}
  {faceId : ℕ} {ifntEntry : Ifnt.Entry} {interest : Interest}

/-- The middle of an area is computed from its first two characters. -/
theorem getPositionFromArea_isSome_iff {area : String} :
    (getPositionFromArea area).isSome ↔ 2 ≤ area.toList.length := by
  unfold getPositionFromArea
  match area.toList with
  | [] => simp
  | [_] => simp
  | _ :: _ :: _ => simp

/-- Without a read outside the string it is the strategy of the forwarder. -/
theorem doAfterIfntHit?_eq_some {sent : Option Outgoing}
    (h : v.doAfterIfntHit? distance g faceId ifntEntry interest = some sent) :
    v.doAfterIfntHit (g.gridded distance) faceId ifntEntry interest = sent := by
  unfold doAfterIfntHit? at h
  unfold doAfterIfntHit
  split at h
  · rename_i hhop
    rw [if_pos hhop]
    exact Option.some.inj h
  · rename_i hhop
    rw [if_neg hhop]
    split at h
    · rename_i hknown
      rw [if_pos hknown]
      cases hposition : getPositionFromArea ifntEntry.da with
      | none => simp [getDistanceToArea?, hposition] at h
      | some position =>
        simp only [getDistanceToArea?, hposition, Option.map_some, Option.bind_eq_bind,
          Option.bind_some, Option.pure_def] at h
        simp only [Geometry.gridded, hposition, Option.map_some, Option.getD_some]
        split at h
        · rename_i hless
          rw [if_pos hless]
          exact Option.some.inj h
        · rename_i hless
          rw [if_neg hless]
          exact Option.some.inj h
    · rename_i hknown
      rw [if_neg hknown]
      exact Option.some.inj h

/-- And so is what comes of it. -/
theorem reveiceInterest?_eq_some {v' : ValForwarder}
    (h : v.reveiceInterest? distance g faceId interest = some v') :
    v.reveiceInterest (g.gridded distance) faceId interest = v' := by
  unfold reveiceInterest? at h
  unfold reveiceInterest
  cases hfind : Ifnt.findMatchByNonce v.ifnt interest.nonce with
  | none =>
    rw [hfind] at h
    exact Option.some.inj h
  | some ifntEntry =>
    rw [hfind] at h
    obtain ⟨sent, hsent, rfl⟩ := Option.map_eq_some_iff.mp h
    dsimp only
    rw [afterIfntHit, doAfterIfntHit?_eq_some hsent]

theorem doAfterIfntHit?_isSome_iff :
    (v.doAfterIfntHit? distance g faceId ifntEntry interest).isSome ↔
      ifntEntry.hopC = 0 ∨ ifntEntry.da = "0" ∨ ifntEntry.da = v.mobility.area ∨
        2 ≤ ifntEntry.da.toList.length := by
  rw [← getPositionFromArea_isSome_iff, doAfterIfntHit?]
  by_cases hhop : ifntEntry.hopC = 0
  · rw [if_pos hhop]
    exact iff_of_true rfl (.inl hhop)
  rw [if_neg hhop, or_iff_right hhop]
  by_cases hknown : ifntEntry.da ≠ "0" ∧ ifntEntry.da ≠ v.mobility.area
  · rw [if_pos hknown, or_iff_right hknown.1, or_iff_right hknown.2]
    cases hposition : getPositionFromArea ifntEntry.da with
    | none => simp [getDistanceToArea?, hposition]
    | some position =>
      simp only [getDistanceToArea?, hposition, Option.map_some, Option.bind_eq_bind,
        Option.bind_some, Option.pure_def]
      split <;> simp
  · rw [if_neg hknown]
    refine iff_of_true rfl ?_
    by_cases hzero : ifntEntry.da = "0"
    · exact .inl hzero
    · exact .inr (.inl (not_not.mp fun harea => hknown ⟨hzero, harea⟩))

end Reads

/-- **Destination areas from the wire.** The hit of an Interest that came with the
header is handled without a read outside the `DA` exactly if the Interest is not
relayed any more, or goes everywhere, or is in its area already, or the `DA` has at
least two octets. -/
theorem reveiceInterest_reads_inside_iff (distance : String → Vector3D → UInt32) (g : Geometry)
    (header : Link.ValHeader) (interest : Interest) (face : ℕ) {v : ValForwarder}
    (inGeoface : ℕ) {pending : Interest}
    (hfound : Ifnt.findMatchByNonce v.ifnt pending.nonce =
      some (Ifnt.Entry.make header.text interest face)) :
    (v.reveiceInterest? distance g inGeoface pending).isSome ↔
      header.hopC = 1 ∨ header.da = [48] ∨ Link.text header.da = v.mobility.area ∨
        2 ≤ header.da.length := by
  have hhop : header.hopC - 1 = 0 ↔ header.hopC = 1 := by
    constructor
    · intro h
      rw [← UInt8.sub_add_cancel header.hopC 1, h, UInt8.zero_add]
    · intro h
      rw [h, UInt8.sub_self]
  have hzero : Link.text header.da = "0" ↔ header.da = [48] :=
    Link.text_injective.eq_iff (b := [48])
  have hlength : (Link.text header.da).toList.length = header.da.length := by
    rw [Link.text, String.toList_ofList, List.length_map]
  rw [reveiceInterest?, hfound]
  dsimp only
  rw [Option.isSome_map, doAfterIfntHit?_isSome_iff]
  simp only [Ifnt.Entry.make, Link.ValHeader.text]
  rw [hhop, hzero, hlength]

/-- A header whose `DA` has the octets. -/
def headerTo (da : List UInt8) : Link.ValHeader := ⟨[65, 50], da, [], [], 5⟩

/-- A node that has received an Interest with the `DA`. -/
def receivedWith (da : List UInt8) : ValForwarder :=
  (fresh.onReceivedValPacket 257 ⟨(headerTo da).text, .interest sampleInterest⟩).1

/-- The area `A3` has two characters. -/
theorem reveiceInterest_reads_inside_iff_two :
    ((receivedWith [65, 51]).reveiceInterest? (fun _ _ => 0) flatGeometry 258
      sampleInterest).isSome :=
  (reveiceInterest_reads_inside_iff (fun _ _ => 0) flatGeometry (headerTo [65, 51]) sampleInterest
    257 258 (by decide +kernel)).mpr (.inr (.inr (.inr (by decide))))

/-- The area `A`, and an area without a character. -/
theorem short_area_read_outside :
    (receivedWith [65]).reveiceInterest? (fun _ _ => 0) flatGeometry 258 sampleInterest = none ∧
      (receivedWith []).reveiceInterest? (fun _ _ => 0) flatGeometry 258 sampleInterest = none := by
  constructor <;> rfl

end ValForwarder

end ValProofs
