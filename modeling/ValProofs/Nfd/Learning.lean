import ValProofs.Nfd.Removal
import ValProofs.Nfd.Routes
import ValProofs.Val.Areas

/-!
What a relay learns about the destination of an Interest. An Interest that names
its destination area gets to NFD with the geoface of that area as its next hop.
`onContentStoreMiss` makes a route of it, but only if the longest prefix match
has no next hops at all; the flood face is a next hop for every name.
-/

namespace ValProofs

open Lib List

namespace ValForwarder

/-- All identifiers but the one of the flood face have gone through a `uint32_t`. -/
def Narrowed (v : ValForwarder) : Prop :=
  ∀ entry ∈ v.f2a, entry.geoArea ≠ "0" → entry.faceId < 2 ^ 32

variable {v : ValForwarder}

/-- An area without a geoface gets the next one. -/
theorem makeGeoFace_of_none {area : String} (h : F2a.findByGeoArea v.f2a area = none) :
    v.makeGeoFace area =
      ({ v with
          faces := v.faces.add makeGeoface
          f2a := v.f2a ++ [⟨(v.faces.lastFaceId + 1) % 2 ^ 32, area⟩] },
        (v.faces.lastFaceId + 1) % 2 ^ 32) := by
  have hnew : ∀ faceId, ⟨faceId, area⟩ ∉ v.f2a := fun faceId hmem => by
    simpa using find?_eq_none.mp h _ hmem
  rw [makeGeoFace, h]
  dsimp only
  rw [FaceTable.lastFaceId_add, F2a.addEntry, if_neg (hnew _)]

/-- The area has an entry then, and its identifier is returned. -/
theorem findByGeoArea_makeGeoFace (v : ValForwarder) (area : String) :
    ∃ entry, F2a.findByGeoArea (v.makeGeoFace area).1.f2a area = some entry ∧
      (v.makeGeoFace area).2 = entry.faceId % 2 ^ 32 := by
  cases hfind : F2a.findByGeoArea v.f2a area with
  | some entry =>
    rw [makeGeoFace, hfind]
    exact ⟨entry, hfind, rfl⟩
  | none =>
    rw [makeGeoFace_of_none hfind]
    refine ⟨⟨(v.faces.lastFaceId + 1) % 2 ^ 32, area⟩, ?_, (Nat.mod_mod _ _).symm⟩
    rw [F2a.findByGeoArea] at hfind ⊢
    rw [find?_append, hfind]
    simp

theorem Narrowed.makeGeoFace (h : v.Narrowed) (area : String) :
    (v.makeGeoFace area).1.Narrowed := by
  cases hfind : F2a.findByGeoArea v.f2a area with
  | some entry =>
    rw [ValForwarder.makeGeoFace, hfind]
    exact h
  | none =>
    rw [makeGeoFace_of_none hfind]
    intro entry hentry hflood
    rcases mem_append.mp hentry with hentry | hentry
    · exact h entry hentry hflood
    · rw [mem_singleton.mp hentry]
      exact Nat.mod_lt _ (by decide)

variable {v' : ValForwarder}

theorem Narrowed.of_f2a (h : v.Narrowed) (hf2a : v'.f2a = v.f2a) : v'.Narrowed := by
  rw [Narrowed, hf2a]
  exact h

theorem Narrowed.receive (h : v.Narrowed) (face : ℕ) (valP : ValPacket) :
    (v.onReceivedValPacket face valP).1.Narrowed :=
  receive_keeps (I := Narrowed) (fun _ area hu => hu.makeGeoFace area)
    (fun _ _ _ hf2a hu => hu.of_f2a hf2a) h face valP

/-- An Interest that names its destination gets to NFD with the identifier that
the F2A has for it. -/
theorem toNfd_nextHop {face geoface : ℕ} {valP : ValPacket} {interest : Interest}
    (h : v.onReceivedValPacket face valP = (v', some (.interest geoface interest)))
    (hda : valP.valHeader.da ≠ "0") :
    ∃ dest, F2a.findByGeoArea v'.f2a valP.valHeader.da = some dest ∧
      interest.nextHopFaceId = some (dest.faceId % 2 ^ 32) := by
  obtain ⟨i, -, rfl, -, rfl⟩ := toNfd_interest_eq h
  rw [if_pos hda]
  obtain ⟨dest, hfind, hid⟩ := findByGeoArea_makeGeoFace _ valP.valHeader.da
  exact ⟨dest, hfind, congrArg some hid⟩

end ValForwarder

namespace Node

variable {τ : Type} {P : Platform τ} {g : Geometry} {node : Node τ}

theorem Narrowed.next (h : node.val.Narrowed) (e : Event) : (node.next P g e).val.Narrowed := by
  have harrived : (node.arrived e).val.Narrowed := by
    cases e with
    | receive face valP => exact h.receive face valP
    | _ => exact h
  exact harrived.of_f2a (acted_next_any P g node e).f2a

theorem GeofacesMade.next (h : node.val.faces.GeofacesMade) {e : Event} (hguard : node.guard e) :
    (node.next P g e).val.faces.GeofacesMade := by
  rw [(acted_next_any P g node e).faces]
  cases e with
  | receive face valP => exact ValForwarder.allFaces_receive h (fun _ => rfl) face valP
  | addFace face =>
    have hface : face.isGeoFace = false := hguard
    refine h.add fun hgeo => ?_
    rw [hface] at hgeo
    cases hgeo
  | _ => exact h

/-- What holds of VAL's tables in every run. -/
structure Made (v : ValForwarder) : Prop where
  narrowed : v.Narrowed
  geofaces : v.faces.GeofacesMade

theorem made_of_churn (h : (churn P g).Reachable node) : Made node.val := by
  refine h.invariant (I := fun node => Made node.val) ?_ ?_
  · rintro node ⟨faces, mobility, store, face, hfaces, -, hface, rfl⟩
    constructor
    · intro entry hentry hflood
      rw [mem_singleton.mp hentry] at hflood
      exact absurd rfl hflood
    · have hnone : faces.GeofacesMade := fun id f hget hgeo => by
        rw [hfaces id f hget] at hgeo
        cases hgeo
      refine (hnone.add fun _ => rfl).add fun hgeo => ?_
      rw [hface] at hgeo
      cases hgeo
  · rintro node (e | faceId | ⟨name, faceId⟩) hmade hguard
    · exact ⟨Narrowed.next hmade.narrowed e, GeofacesMade.next hmade.geofaces hguard⟩
    · change Made (node.removeFace faceId).val
      rw [val_removeFace]
      refine ⟨hmade.narrowed.of_f2a (node.val.f2a_removeFace faceId), ?_⟩
      rw [ValForwarder.faces_removeFace]
      exact hmade.geofaces.remove faceId
    · change Made (node.removeRoute name faceId).val
      rw [removeRoute]
      split <;> exact hmade

/-! ### An Interest that is not in the content store -/

variable {inFace : ℕ} {interest : Interest}

theorem onIncomingInterest_of_miss (g : Geometry) {entry : Pit.Entry} {isNew : Bool}
    (h : node.contentStoreMiss P inFace interest = some (entry, isNew)) :
    ∃ reached : Node τ, reached.fib = node.fib ∧ reached.val = node.val ∧
      node.onIncomingInterest P g inFace interest =
        reached.onContentStoreMiss g entry.id inFace isNew (withoutHint P interest) := by
  rcases onIncomingInterest_cases P g node inFace interest with
    ⟨-, hmiss, -⟩ | ⟨reached, hfib, hval, ⟨_, _, -, hmiss, -⟩ | ⟨entry', isNew', -, hmiss, heq⟩⟩
  · rw [h] at hmiss
    cases hmiss
  · rw [h] at hmiss
    cases hmiss
  · rw [h] at hmiss
    cases hmiss
    exact ⟨reached, hfib, hval, heq⟩

/-- Without an application among the next hops the Interest keeps its next hop,
which becomes a route if there is no next hop at all. -/
theorem chooseNextHop_of_relay (id : ℕ) (isNew : Bool) (nextHopFaceId : ℕ)
    (hgeo : node.isGeoFace inFace = true)
    (hrelay : ∀ nextHop ∈ (Fib.findLongestPrefixMatch node.fib interest.name).nextHops,
      node.isAppFace nextHop.faceId = false) :
    node.chooseNextHop id inFace isNew nextHopFaceId interest =
      (if (Fib.findLongestPrefixMatch node.fib interest.name).hasNextHops then node
        else node.addRoute interest.name.getPrefix1 nextHopFaceId 1, nextHopFaceId, interest) := by
  have hnone : ((Fib.findLongestPrefixMatch node.fib interest.name).nextHops.find? fun nextHop =>
      node.isAppFace nextHop.faceId) = none :=
    find?_eq_none.mpr fun nextHop hmem => by simp [hrelay nextHop hmem]
  rw [chooseNextHop, if_pos hgeo, hnone]
  dsimp only
  split <;> rfl

theorem name_withoutHint (P : Platform τ) (interest : Interest) :
    (withoutHint P interest).name = interest.name := by
  rw [withoutHint]
  split <;> rfl

theorem nextHopFaceId_withoutHint (P : Platform τ) (interest : Interest) :
    (withoutHint P interest).nextHopFaceId = interest.nextHopFaceId := by
  rw [withoutHint]
  split <;> rfl

/-- A relay sends an Interest that has a next hop there. -/
theorem onContentStoreMiss_of_relay {nextHopFaceId : ℕ} (id : ℕ) (isNew : Bool)
    (htag : interest.nextHopFaceId = some nextHopFaceId)
    (hsome : (node.val.faces.get nextHopFaceId).isSome) (hgeo : node.isGeoFace inFace = true)
    (happ : node.isAppFace inFace = false)
    (hrelay : ∀ nextHop ∈ (Fib.findLongestPrefixMatch node.fib interest.name).nextHops,
      node.isAppFace nextHop.faceId = false) :
    ∃ timed : Node τ, timed.val = node.val ∧ timed.fib = node.fib ∧ timed.sent = node.sent ∧
      node.onContentStoreMiss g id inFace isNew interest =
        (if (Fib.findLongestPrefixMatch node.fib interest.name).hasNextHops then timed
          else timed.addRoute interest.name.getPrefix1 nextHopFaceId 1).onOutgoingInterest g id
            nextHopFaceId interest := by
  rw [onContentStoreMiss]
  generalize hrecorded : (node.modifyPit id fun entry =>
    entry.insertOrUpdateInRecord node.now inFace interest) = recorded
  dsimp only
  generalize htimed : recorded.setExpiryTimer id
    ((((recorded.pit.get id).map Pit.Entry.lastExpiry).getD 0 - recorded.now) / 1000000) = timed
  have hval : timed.val = node.val := by rw [← htimed, ← hrecorded]; rfl
  have hfib : timed.fib = node.fib := by rw [← htimed, ← hrecorded]; rfl
  refine ⟨timed, hval, hfib, by rw [← htimed, ← hrecorded]; rfl, ?_⟩
  rw [isGeoFace, ← hval] at hgeo
  simp only [isAppFace, ← hval] at happ hrelay
  rw [← hfib] at hrelay ⊢
  rw [htag, hval]
  dsimp only
  rw [Option.isNone_eq_false_iff.mpr hsome, if_neg Bool.false_ne_true,
    chooseNextHop_of_relay id isNew nextHopFaceId hgeo hrelay]
  dsimp only
  rw [if_neg]
  split <;> simp [isAppFace, addRoute, happ]

/-- Without the face nothing is sent. -/
theorem fib_onContentStoreMiss_of_none {nextHopFaceId : ℕ} (id : ℕ) (isNew : Bool)
    (htag : interest.nextHopFaceId = some nextHopFaceId)
    (hnone : node.val.faces.get nextHopFaceId = none) :
    (node.onContentStoreMiss g id inFace isNew interest).fib = node.fib := by
  rw [onContentStoreMiss, htag]
  dsimp only
  rw [if_pos]
  · rfl
  · exact Option.isNone_iff_eq_none.mpr hnone

/-- An Interest for another area teaches a relay the way there only if nothing is
known about the name, not even that it can be flooded. -/
theorem learns_destination_iff {P : Platform τ} {g : Geometry} {node : Node τ}
    (h : (churn P g).Reachable node) {face geoface : ℕ} {valP : ValPacket} {v : ValForwarder}
    {interest : Interest} {entry : Pit.Entry} {isNew : Bool} {dest : F2a.Entry}
    (hrec : node.val.onReceivedValPacket face valP = (v, some (.interest geoface interest)))
    (hda : valP.valHeader.da ≠ "0")
    (hdest : F2a.findByGeoArea v.f2a valP.valHeader.da = some dest)
    (hmiss : ({ node with val := v } : Node τ).contentStoreMiss P geoface interest =
      some (entry, isNew))
    (hrelay : ∀ nextHop ∈ (Fib.findLongestPrefixMatch node.fib interest.name).nextHops,
      ({ node with val := v } : Node τ).isAppFace nextHop.faceId = false) :
    Fib.HasRoute (node.next P g (.receive face valP)).fib interest.name.getPrefix1 dest.faceId ↔
      Fib.HasRoute node.fib interest.name.getPrefix1 dest.faceId ∨
        ((v.faces.get dest.faceId).isSome ∧
          (Fib.findLongestPrefixMatch node.fib interest.name).hasNextHops = false) := by
  have hmade := made_of_churn h
  have hv : (node.val.onReceivedValPacket face valP).1 = v := by rw [hrec]
  -- The next hop of the Interest is the face in the F2A.
  have hid : dest.faceId % 2 ^ 32 = dest.faceId := by
    have hnarrowed := hmade.narrowed.receive face valP
    rw [hv] at hnarrowed
    have harea : dest.geoArea = valP.valHeader.da := by simpa using List.find?_some hdest
    exact Nat.mod_eq_of_lt (hnarrowed dest (List.mem_of_find?_eq_some hdest) (harea ▸ hda))
  obtain ⟨dest', hfind, htag⟩ := ValForwarder.toNfd_nextHop hrec hda
  obtain rfl := Option.some.inj (hfind.symm.trans hdest)
  rw [hid] at htag
  -- It comes from a geoface, which is not one of an application.
  obtain ⟨f, hget, hgeo⟩ := (ValForwarder.toNfd_interest hrec).1
  have hgeofaces := ValForwarder.allFaces_receive hmade.geofaces (fun _ => rfl) face valP
  rw [hv] at hgeofaces
  obtain rfl := hgeofaces geoface f hget hgeo
  obtain ⟨reached, hfib, hval, heq⟩ := onIncomingInterest_of_miss g hmiss
  have hnext : node.next P g (.receive face valP) = reached.onContentStoreMiss g entry.id geoface
      isNew (withoutHint P interest) := by
    rw [← heq, next, onReceivedValPacket, hrec, handOver]
  have hname := name_withoutHint P interest
  have hleads : (Fib.findLongestPrefixMatch reached.fib (withoutHint P interest).name) =
      Fib.findLongestPrefixMatch node.fib interest.name := by rw [hfib, hname]
  have htag' := (nextHopFaceId_withoutHint P interest).trans htag
  have hgeo' : reached.isGeoFace geoface = true := by
    rw [isGeoFace, hval]
    exact FaceTable.has_of_get hget _
  have happ' : reached.isAppFace geoface = false := by
    rw [isAppFace, hval]
    exact FaceTable.has_of_get hget _
  rw [hnext]
  cases hface : v.faces.get dest'.faceId with
  | none =>
      rw [fib_onContentStoreMiss_of_none entry.id isNew htag' (hval ▸ hface), hfib]
      simp
  | some f =>
      have hrelay' : ∀ nextHop ∈ (Fib.findLongestPrefixMatch reached.fib
          (withoutHint P interest).name).nextHops, reached.isAppFace nextHop.faceId = false := by
        rw [hleads]
        simp only [isAppFace, hval]
        exact hrelay
      obtain ⟨timed, -, hfib', -, hmissed⟩ := onContentStoreMiss_of_relay (g := g) entry.id isNew
        htag' (by rw [hval, hface]; rfl) hgeo' happ' hrelay'
      rw [hmissed, fib_onOutgoingInterest, hleads, hname]
      cases (Fib.findLongestPrefixMatch node.fib interest.name).hasNextHops with
      | true =>
          rw [if_pos rfl, hfib', hfib]
          simp
      | false =>
          rw [if_neg Bool.false_ne_true, addRoute, hfib', hfib, Fib.hasRoute_addRoute]
          simp

/-- The Interest `/a/1` of a vehicle in `A2`, for area `A3`. -/
def directed : ValPacket where
  valHeader := ⟨"A2", "A3", "5:0:0", "/a", 9⟩
  payload := .interest { ValForwarder.sampleInterest with nonce := 8 }

/-- The flood face is not a default route any more. -/
def unflooded : Node Unit := freshNode.removeRoute [] 256

theorem unflooded_reachable (P : Platform Unit) (g : Geometry) :
    (churn P g).Reachable unflooded := by
  have hguard : (churn P g).guard freshNode (.removeRoute [] 256) := trivial
  exact (freshNode_started P g).next hguard

theorem learns_destination_unflooded :
    Fib.HasRoute (unflooded.next samplePlatform ValForwarder.flatGeometry
      (.receive 257 directed)).fib ["a"] 259 := by
  have hrec : unflooded.val.onReceivedValPacket 257 directed =
    ((unflooded.val.onReceivedValPacket 257 directed).1, some (.interest 258
      { ValForwarder.sampleInterest with nonce := 8, nextHopFaceId := some 259 })) := rfl
  have hdest : F2a.findByGeoArea (unflooded.val.onReceivedValPacket 257 directed).1.f2a "A3" =
    some ⟨259, "A3"⟩ := rfl
  exact (learns_destination_iff (unflooded_reachable _ _) hrec (by decide) hdest rfl
    fun nextHop hmem => absurd hmem List.not_mem_nil).mpr (.inr ⟨rfl, rfl⟩)

theorem directed_teaches_nothing :
    (churn samplePlatform ValForwarder.flatGeometry).Reachable freshNode ∧
      ∃ v interest entry isNew dest,
        freshNode.val.onReceivedValPacket 257 directed = (v, some (.interest 258 interest)) ∧
        directed.valHeader.da ≠ "0" ∧
        F2a.findByGeoArea v.f2a directed.valHeader.da = some dest ∧
        ({ freshNode with val := v } : Node Unit).contentStoreMiss samplePlatform 258 interest =
          some (entry, isNew) ∧
        (∀ nextHop ∈ (Fib.findLongestPrefixMatch freshNode.fib interest.name).nextHops,
          ({ freshNode with val := v } : Node Unit).isAppFace nextHop.faceId = false) ∧
        ¬ Fib.HasRoute (freshNode.next samplePlatform ValForwarder.flatGeometry
          (.receive 257 directed)).fib interest.name.getPrefix1 dest.faceId := by
  refine ⟨freshNode_started _ _, _, _, _, _, ⟨259, "A3"⟩, rfl, by decide, rfl, rfl, ?_, ?_⟩
  · intro nextHop hmem
    rw [List.mem_singleton.mp hmem]
    rfl
  · rintro ⟨entry, hentry, hname, -⟩
    rw [List.mem_singleton.mp hentry] at hname
    cases hname

end Node

end ValProofs
