import ValProofs.Val.Hops

/-!
The hop count of a reply. An Interest starts with `maxHops` and loses one at
each relay, so the hop count in an IFNT entry tells how far the Interest has
come, and the reply is given one hop more than the longest of these journeys.
The forwarding callback of another node, many hops later, takes a hop count of
at most two to mean that nobody will send the Data further.
-/

namespace ValProofs.ValForwarder

open Lib Pft List Prod

/-! ### Journeys of Interests -/

/-- `Travelled k valPkt`: an Interest that has been sent `k` times, by a
consumer's node and then by relays, was last sent as `valPkt`. -/
inductive Travelled : ℕ → ValPacket → Prop
  | origin (v : ValForwarder) (faceId : ℕ) (interest : Interest) :
      Travelled 1 (v.doAfterIfntMiss faceId interest).valPkt
  | relay {k : ℕ} {valPkt : ValPacket} (g : Geometry) (v : ValForwarder) (face faceId : ℕ)
      (i interest : Interest) (out : Outgoing) (hprev : Travelled k valPkt)
      (hpay : valPkt.payload = .interest i) (hnonce : interest.nonce = i.nonce)
      (hrelay : v.doAfterIfntHit g faceId (Ifnt.Entry.make valPkt.valHeader i face) interest =
        some out) : Travelled (k + 1) out.valPkt

/-- The reception of the `k`-th transmission made the entry. -/
def MadeAfter (k : ℕ) (entry : Ifnt.Entry) : Prop :=
  ∃ valPkt i face, Travelled k valPkt ∧ valPkt.payload = .interest i ∧
    entry = Ifnt.Entry.make valPkt.valHeader i face

theorem Travelled.hopC {k : ℕ} {valPkt : ValPacket} (h : Travelled k valPkt) :
    1 ≤ k ∧ k ≤ 9 ∧ valPkt.hopC.toNat = 10 - k := by
  induction h with
  | origin v faceId interest => exact ⟨Nat.le_refl 1, by omega, rfl⟩
  | @relay k valPkt g v face faceId i interest out _ _ _ hrelay ih =>
    obtain ⟨hpos, hle, hhop⟩ := ih
    obtain ⟨hne, -, -, hout, -⟩ := doAfterIfntHit_eq_some hrelay
    have hprev : valPkt.hopC ≠ 0 := ne_zero_of_toNat_pos (by omega)
    have hsub : out.valPkt.hopC.toNat = valPkt.hopC.toNat - 1 := by
      rw [hout]
      exact toNat_sub_one hprev
    -- The relay has checked that the count it sends is not zero.
    have hsent : 0 < out.valPkt.hopC.toNat := toNat_pos (hout ▸ hne)
    omega

theorem MadeAfter.hopC {k : ℕ} {entry : Ifnt.Entry} (h : MadeAfter k entry) :
    1 ≤ k ∧ k ≤ 9 ∧ entry.hopC.toNat = 9 - k := by
  obtain ⟨valPkt, i, face, htravelled, _, rfl⟩ := h
  obtain ⟨hpos, hle, hhop⟩ := htravelled.hopC
  have hne : valPkt.hopC ≠ 0 := ne_zero_of_toNat_pos (by omega)
  have hsub : (Ifnt.Entry.make valPkt.valHeader i face).hopC.toNat = valPkt.hopC.toNat - 1 :=
    toNat_sub_one hne
  omega

/-! ### The reply -/

/-- The longest of the journeys. -/
def longest (journeys : List (ℕ × Ifnt.Entry)) : ℕ := (journeys.map Prod.fst).max?.getD 0

variable {journeys : List (ℕ × Ifnt.Entry)}

theorem longest_spec (h : journeys ≠ []) :
    (∃ journey ∈ journeys, journey.1 = longest journeys) ∧
      ∀ journey ∈ journeys, journey.1 ≤ longest journeys := by
  obtain ⟨top, htop⟩ : ∃ top, (journeys.map fst).max? = some top :=
    Option.isSome_iff_exists.mp (isSome_max?_of_mem
      (mem_map_of_mem (head_mem h)))
  obtain ⟨hmem, hle⟩ := max?_eq_some_iff.mp htop
  rw [longest, htop, Option.getD_some]
  exact ⟨mem_map.mp hmem, fun journey hj => hle _ (mem_map_of_mem hj)⟩

/-- The entry that `getLongestJorney` finds is one with the longest journey. -/
theorem getLongestJorney_of_madeAfter (pastTheEnd : UInt8 × String) (hne : journeys ≠ [])
    (hmade : ∀ journey ∈ journeys, MadeAfter journey.1 journey.2) :
    ∃ journey ∈ journeys, journey.1 = longest journeys ∧
      getLongestJorney pastTheEnd (journeys.map snd) =
        (journey.2.hopC, journey.2.sa) := by
  have hne' : journeys.map snd ≠ [] := by simpa using hne
  obtain ⟨hmin, entry, hentry, hfound⟩ := getLongestJorney_spec pastTheEnd hne'
  obtain ⟨journey, hmem, rfl⟩ := mem_map.mp hentry
  refine ⟨journey, hmem, ?_, hfound⟩
  obtain ⟨⟨top, htop, hlongest⟩, hall⟩ := longest_spec hne
  -- The longest journey has left the smallest hop count.
  have hle : journey.2.hopC.toNat ≤ top.2.hopC.toNat := by
    have := hmin top.2 (mem_map_of_mem htop)
    rwa [hfound, UInt8.le_iff_toNat_le] at this
  obtain ⟨-, hle9, hhop⟩ := (hmade journey hmem).hopC
  obtain ⟨-, htop9, hhop'⟩ := (hmade top htop).hopC
  have := hall journey hmem
  omega

theorem doAfterDfntMiss_spec (g : Geometry) (v : ValForwarder) (faceId : ℕ) (data : Data)
    (isProducer : Bool) (hne : journeys ≠ [])
    (hmade : ∀ journey ∈ journeys, MadeAfter journey.1 journey.2) :
    (v.doAfterDfntMiss g faceId data (journeys.map snd) isProducer).valPkt.hopC.toNat =
        1 + longest journeys ∧
      ∃ journey ∈ journeys, journey.1 = longest journeys ∧
        (v.doAfterDfntMiss g faceId data (journeys.map snd)
          isProducer).valPkt.valHeader.da = journey.2.sa := by
  obtain ⟨journey, hmem, hlongest, hfound⟩ :=
    getLongestJorney_of_madeAfter g.pastTheEnd hne hmade
  obtain ⟨hpos, hle, hhop⟩ := (hmade journey hmem).hopC
  refine ⟨?_, journey, hmem, hlongest, ?_⟩
  · have hout : (v.doAfterDfntMiss g faceId data (journeys.map snd)
        isProducer).valPkt.hopC = maxHops - journey.2.hopC + 1 := by
      simp only [doAfterDfntMiss, ValPacket.hopC, hfound]
    rw [hout, toNat_maxHops_sub (by omega)]
    omega
  · simp only [doAfterDfntMiss, hfound]

/-! ### The way back -/

/-- `Returned first j valPkt`: the Data that was originated as `first` was sent
as `valPkt` in its `j`-th transmission, by relays that took it from the
transmission before. -/
inductive Returned (first : ValPacket) : ℕ → ValPacket → Prop
  | origin : Returned first 1 first
  | relay {j : ℕ} {valPkt : ValPacket} (g : Geometry) (v : ValForwarder) (face : ℕ)
      (ifntEntries : List Ifnt.Entry) (d data : Data) (out : Outgoing)
      (hprev : Returned first j valPkt) (hpay : valPkt.payload = .data d)
      (hsig : data.signature = d.signature)
      (hrelay : v.doAfterDfntHit g (Dfnt.Entry.make valPkt.valHeader d face) ifntEntries data =
        some out) : Returned first (j + 1) out.valPkt

/-- As long as hops are left, each transmission takes one. -/
theorem Returned.hopC {first valPkt : ValPacket} {j : ℕ} (h : Returned first j valPkt)
    (hj : j ≤ first.hopC.toNat) :
    1 ≤ j ∧ valPkt.hopC.toNat = first.hopC.toNat + 1 - j ∧
      valPkt.isData = first.isData := by
  induction h with
  | origin => exact ⟨Nat.le_refl 1, by omega, rfl⟩
  | @relay j valPkt g v face ifntEntries d data out _ hpay _ hrelay ih =>
    obtain ⟨hpos, hhop, hdata⟩ := ih (by omega)
    obtain ⟨-, -, hpayload, hout⟩ := doAfterDfntHit_eq_some hrelay
    have hne : valPkt.hopC ≠ 0 := ne_zero_of_toNat_pos (by omega)
    have hsub : out.valPkt.hopC.toNat = valPkt.hopC.toNat - 1 := by
      rw [hout]
      exact toNat_sub_one hne
    refine ⟨by omega, by omega, ?_⟩
    rw [← hdata]
    simp [ValPacket.isData, hpay, hpayload]

/-- A forwarding callback drops its entry at once exactly when it takes the hop
to be the last. -/
theorem fire_forwarding_iff {faces : FaceTable} {s : Pending} (h : Pending.Coherent faces s)
    {id : ℕ} {callback : Callback} (hpend : s.queue.Pending id callback)
    (hkind : callback.kind = .forwarding) :
    (callback.entry ∉ (s.fire faces id).table ↔
        Pending.isLastHop (s.heap callback.entry).valPkt = true) ∧
      (¬ (s.fire faces id).HasTimer callback.entry ↔
        Pending.isLastHop (s.heap callback.entry).valPkt = true) := by
  have armed := h.timer id callback hpend
  have hstate := armed.kind.mp hkind
  have hfired := h.fired_fire hpend
  generalize s.fire faces id = s' at hfired
  cases hfired with
  | resent entry duration hresent =>
    have hlast : Pending.isLastHop (s.heap callback.entry).valPkt = false := by
      cases hresent with
      | forwarded _ hlast _ => exact hlast
      | retried hold _ _ => rw [hstate] at hold; cases hold
    have htimer : (s.resend id callback entry duration).HasTimer callback.entry :=
      (h.hasTimer_resend hpend).mpr ⟨id, callback, hpend, rfl⟩
    simp [hlast, Pending.table_resend, armed.mem, htimer]
  | finished _ hended hdrop _ =>
    have hlast : Pending.isLastHop (s.heap callback.entry).valPkt = true := by
      cases hended with
      | lastHop _ hlast => exact hlast
      | exhausted hold _ => rw [hstate] at hold; cases hold
    simp [hlast, hdrop.mem_table, hdrop.hasTimer]

/-- The reply has one hop more than the longest journey, and goes back towards
an area from which that journey came. On the way back no relay within that
distance finds its hops used up, and a forwarding callback takes a transmission
for the last exactly when it is the one that many hops away. -/
theorem reply_covers_longest_journey (g : Geometry) (v : ValForwarder) (faceId : ℕ)
    (data : Data) (isProducer : Bool) (journeys : List (ℕ × Ifnt.Entry))
    (hne : journeys ≠ []) (hmade : ∀ journey ∈ journeys, MadeAfter journey.1 journey.2) :
    let reply := (v.doAfterDfntMiss g faceId data (journeys.map Prod.snd) isProducer).valPkt
    (reply.hopC.toNat = 1 + longest journeys ∧
      ∃ journey ∈ journeys, journey.1 = longest journeys ∧
        reply.valHeader.da = journey.2.sa) ∧
    ∀ j valPkt, Returned reply j valPkt → j ≤ longest journeys →
      (∀ d face, (Dfnt.Entry.make valPkt.valHeader d face).hopC ≠ 0) ∧
      (valPkt.hopC ≤ 2 ↔ j = longest journeys) ∧
      ∀ faces (s : Pending) id callback, Pending.Coherent faces s →
        s.queue.Pending id callback → callback.kind = .forwarding →
        (s.heap callback.entry).valPkt = valPkt →
        (callback.entry ∉ (s.fire faces id).table ↔ j = longest journeys) ∧
          (¬ (s.fire faces id).HasTimer callback.entry ↔ j = longest journeys) := by
  intro reply
  obtain ⟨hbudget, hdest⟩ : reply.hopC.toNat = 1 + longest journeys ∧ _ :=
    doAfterDfntMiss_spec g v faceId data isProducer hne hmade
  refine ⟨⟨hbudget, hdest⟩, fun j valPkt hreturned hj => ?_⟩
  obtain ⟨hpos, hhop, hdata⟩ := hreturned.hopC (by omega)
  have hhop' : valPkt.hopC.toNat = longest journeys + 2 - j := by omega
  have hsub := toNat_sub_one (ne_zero_of_toNat_pos (h := valPkt.hopC) (by omega))
  have hrule : valPkt.hopC ≤ 2 ↔ j = longest journeys := by
    rw [UInt8.le_iff_toNat_le]
    show valPkt.hopC.toNat ≤ 2 ↔ _
    omega
  refine ⟨fun d face hz => ?_, hrule, ?_⟩
  · have hzero : (valPkt.hopC - 1).toNat = 0 := congrArg UInt8.toNat hz
    omega
  · intro faces s id callback hcoh hpend hkind hpkt
    have hlast : Pending.isLastHop valPkt = true ↔ j = longest journeys := by
      rw [Pending.isLastHop, hdata, ← hrule]
      simp [reply, doAfterDfntMiss, ValPacket.isData]
    have hfire := fire_forwarding_iff hcoh hpend hkind
    rwa [hpkt, hlast] at hfire

/-- The producer's node is far away from the others. -/
def farGeometry : Geometry :=
  { flatGeometry with
    getMultiPointDist := fun pos _ => if pos = "900:0:0" then 300 else 100 }

def farNode : ValForwarder := { fresh with mobility := ⟨"900:0:0", "A2", 10000⟩ }

def firstHop : ValPacket := (fresh.doAfterIfntMiss 256 sampleInterest).valPkt

/-- A relay of `firstHop` in the exploration phase. -/
def secondHop : ValPacket :=
  { firstHop with valHeader := { firstHop.valHeader with hopC := 8 } }

theorem travelled_secondHop : Travelled 2 secondHop :=
  .relay flatGeometry fresh 257 256 sampleInterest sampleInterest
    ⟨257, secondHop, 10000⟩ (.origin fresh 256 sampleInterest) rfl rfl rfl

/-- The producer has heard the consumer's node and the relay. -/
def sampleJourneys : List (ℕ × Ifnt.Entry) :=
  [(1, Ifnt.Entry.make firstHop.valHeader sampleInterest 257),
    (2, Ifnt.Entry.make secondHop.valHeader sampleInterest 257)]

def sampleReply : ValPacket :=
  (farNode.doAfterDfntMiss farGeometry 256 sampleData (sampleJourneys.map Prod.snd)
    true).valPkt

/-- The relay's node hears the reply and sends it on. -/
def relayedReply : ValPacket :=
  { sampleReply with valHeader := { sampleReply.valHeader with phPos := "0:0:0", hopC := 2 } }

theorem returned_relayedReply : Returned sampleReply 2 relayedReply :=
  .relay farGeometry fresh 257 (sampleJourneys.map snd) sampleData sampleData
    ⟨257, relayedReply, 10000⟩ .origin rfl rfl rfl

/-- Two transmissions there and two back. -/
theorem reply_covers_sampleJourneys :
    sampleJourneys ≠ [] ∧
      (∀ journey ∈ sampleJourneys, MadeAfter journey.1 journey.2) ∧
      sampleReply.hopC.toNat = 1 + 2 ∧ Returned sampleReply 2 relayedReply ∧
      2 = longest sampleJourneys := by
  have hne : sampleJourneys ≠ [] := List.cons_ne_nil _ _
  have hmade : ∀ journey ∈ sampleJourneys, MadeAfter journey.1 journey.2 := by
    intro journey hjourney
    simp only [sampleJourneys, List.mem_cons, List.not_mem_nil, or_false] at hjourney
    rcases hjourney with rfl | rfl
    · exact ⟨firstHop, sampleInterest, 257, .origin fresh 256 sampleInterest, rfl, rfl⟩
    · exact ⟨secondHop, sampleInterest, 257, travelled_secondHop, rfl, rfl⟩
  obtain ⟨⟨hbudget, -⟩, hback⟩ := reply_covers_longest_journey farGeometry farNode 256
    sampleData true sampleJourneys hne hmade
  exact ⟨hne, hmade, hbudget, returned_relayedReply,
    (hback 2 relayedReply returned_relayedReply (by decide)).2.1.mp (by decide)⟩

end ValProofs.ValForwarder
