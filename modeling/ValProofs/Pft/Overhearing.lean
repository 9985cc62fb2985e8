import ValProofs.App.Producer
import ValProofs.Pft.Change

/-!
Which entries an overheard packet can touch.

What is heard is taken for the broadcast of a node in a better position, or for an implicit
acknowledgement, so it should be the packet of the entry. But `findMatch` compares the nonces of
Interests and the signatures of Data, and no names. A Producer signs all its Data alike: each of
them is taken for any other one.
-/

namespace ValProofs.Pft

open Lib

namespace Pending

/-- The same network packet: Interests with the same name and nonce, or Data with the same
name. -/
def SamePacket (a b : ValPacket) : Prop :=
  match a.payload, b.payload with
  | .interest i, .interest j => i.name = j.name ∧ i.nonce = j.nonce
  | .data d, .data e => d.name = e.name
  | _, _ => False

/-- A reception drops the packet, and changes, removes or cancels an entry, only for the same
packet. -/
structure OnlySame (s : Pending) (valP : ValPacket) : Prop where
  dropped : (s.preProcessingValPacket valP).2 = false →
    ∃ p ∈ s.table, SamePacket (s.heap p).valPkt valP
  changed : ∀ p, (s.preProcessingValPacket valP).1.heap p ≠ s.heap p →
    p ∈ s.table ∧ SamePacket (s.heap p).valPkt valP
  removed : ∀ p ∈ s.table, p ∉ (s.preProcessingValPacket valP).1.table →
    SamePacket (s.heap p).valPkt valP
  cancelled : ∀ id callback, s.queue.Pending id callback →
    ¬ (s.preProcessingValPacket valP).1.queue.Pending id callback →
    ∃ p ∈ s.table, (s.heap p).timerId = some id ∧ SamePacket (s.heap p).valPkt valP

/-- The two have the same name if their nonces, or their signatures, are the same. -/
def NameAgrees : Payload → Payload → Prop
  | .interest i, .interest j => i.nonce = j.nonce → i.name = j.name
  | .data d, .data e => d.signature = e.signature → d.name = e.name
  | _, _ => True

theorem mem_removeEntry {s : Pending} {valP : ValPacket} {p : ℕ} (hp : p ∈ s.table)
    (hmatch : ¬ s.isMatch valP p) : p ∈ (s.removeEntry valP).1.table := by
  show p ∈ eraseRestart (s.isMatch valP) s.table.length s.table
  rw [eraseRestart_eq_filter _ _ _ (Nat.le_refl _)]
  exact List.mem_filter.mpr ⟨hp, by simpa using hmatch⟩

/-- What the preprocessing of a packet that matches `p` leaves alone. -/
theorem preProcessing_frame {s : Pending} {valP : ValPacket} {p : ℕ}
    (hfind : s.findMatch valP = some p) :
    (∀ q, q ≠ p → (s.preProcessingValPacket valP).1.heap q = s.heap q) ∧
    (∀ q ∈ s.table, ¬ s.isMatch valP q → q ∈ (s.preProcessingValPacket valP).1.table) ∧
    (∀ id callback, s.queue.Pending id callback → (s.heap p).timerId ≠ some id →
      (s.preProcessingValPacket valP).1.queue.Pending id callback) := by
  rw [preProcessingValPacket_eq, hfind]
  dsimp only
  have hheap : ∀ q, q ≠ p → (s.silence p).heap q = s.heap q := fun q hq => by
    simp [silence, hq]
  have hqueue : ∀ id callback, s.queue.Pending id callback → (s.heap p).timerId ≠ some id →
      (s.silence p).queue.Pending id callback := fun id callback hpend ht => by
    simp [silence, hpend, ht]
  have htable : (s.silence p).table = s.table := by simp [silence]
  split
  · split
    · refine ⟨hheap, fun q hq hmatch => ?_, hqueue⟩
      exact mem_removeEntry (htable ▸ hq) (by rwa [isMatch_silence])
    · exact ⟨hheap, fun q hq _ => htable ▸ hq, hqueue⟩
  · exact ⟨fun _ _ => rfl, fun q hq _ => hq, fun id callback hpend _ => hpend⟩

theorem onlySame_of_isMatch {s : Pending} {valP : ValPacket}
    (h : ∀ p ∈ s.table, s.isMatch valP p → SamePacket (s.heap p).valPkt valP) :
    OnlySame s valP := by
  cases hfind : s.findMatch valP with
  | none =>
    constructor <;> rw [preProcessing_none hfind]
    · exact fun hfalse => nomatch hfalse
    · exact fun p hne => absurd rfl hne
    · exact fun p hp hgone => absurd hp hgone
    · exact fun id callback hpend hgone => absurd hpend hgone
  | some p =>
    obtain ⟨hp, hmatch⟩ := mem_of_findMatch hfind
    obtain ⟨hheap, htable, hqueue⟩ := preProcessing_frame hfind
    refine ⟨fun _ => ⟨p, hp, h p hp hmatch⟩, fun q hq => ?_, fun q hq hgone => ?_,
      fun id callback hpend hgone => ⟨p, hp, ?_, h p hp hmatch⟩⟩
    · have hqp : q = p := by
        by_contra hne
        exact hq (hheap q hne)
      rw [hqp]
      exact ⟨hp, h p hp hmatch⟩
    · refine h q hq ?_
      by_contra hne
      exact hgone (htable q hq hne)
    · by_contra hne
      exact hgone (hqueue id callback hpend hne)

variable {s : Pending} {p : ℕ} {valP : ValPacket}

theorem NoMatch.findMatch_eq (h : s.NoMatch s.table) (hp : p ∈ s.table)
    (hmatch : s.isMatch valP p) : s.findMatch valP = some p := by
  obtain ⟨q, hfind⟩ := Option.isSome_iff_exists.mp (List.find?_isSome.mpr ⟨p, hp, hmatch⟩)
  obtain ⟨hq, hmatch'⟩ := mem_of_findMatch hfind
  rw [h.isMatch_unique hp hq hmatch hmatch']
  exact hfind

/-- An entry goes when a Data that matches it is heard with its own hop count. -/
theorem not_mem_preProcessing (hfind : s.findMatch valP = some p)
    (hdata : (s.heap p).valPkt.isData = true) (hhopC : (s.heap p).valPkt.hopC = valP.hopC) :
    p ∉ (s.preProcessingValPacket valP).1.table := by
  have hcancels : cancels (s.heap p) valP = true := by
    rw [cancels]
    split
    · simpa using hhopC
    · simp [isImplicitAck, hdata, hhopC]
  rw [preProcessingValPacket_eq, hfind]
  simp only [hcancels, hdata, if_true]
  show p ∉ eraseRestart ((s.silence p).isMatch valP) (s.silence p).table.length (s.silence p).table
  rw [eraseRestart_eq_filter _ _ _ (Nat.le_refl _), List.mem_filter, isMatch_silence,
    (mem_of_findMatch hfind).2]
  simp

theorem samePacket_of_nameAgrees (h : NameAgrees (s.heap p).valPkt.payload valP.payload)
    (hmatch : s.isMatch valP p) : SamePacket (s.heap p).valPkt valP := by
  rw [isMatch, ValPacket.sameNdnPacket_comm] at hmatch
  cases hentry : (s.heap p).valPkt.payload <;> cases hvalP : valP.payload <;>
    simp_all [SamePacket, NameAgrees, ValPacket.sameNdnPacket]

/-- What a match shows of the names, if only the same packet has an effect. -/
theorem nameAgrees_of_onlySame (hmatches : s.NoMatch s.table) {payload : Payload}
    (h : ∀ valHeader, OnlySame s ⟨valHeader, payload⟩) (hp : p ∈ s.table) :
    NameAgrees (s.heap p).valPkt.payload payload := by
  have honly := h (s.heap p).valPkt.valHeader
  cases hentry : (s.heap p).valPkt.payload with
  | notSet => trivial
  | interest i =>
    cases payload with
    | notSet | data e => trivial
    | interest j =>
      intro hnonce
      -- The packet is dropped, and no other entry has the nonce.
      have hmatch : s.isMatch ⟨(s.heap p).valPkt.valHeader, .interest j⟩ p :=
        (ValPacket.sameNdnPacket_interest rfl).mpr ⟨i, hentry, hnonce.symm⟩
      have hfind := hmatches.findMatch_eq hp hmatch
      obtain ⟨q, hq, hsame⟩ := honly.dropped (by rw [preProcessingValPacket_eq, hfind])
      cases hother : (s.heap q).valPkt.payload with
      | notSet | data e => simp [SamePacket, hother] at hsame
      | interest k =>
        simp only [SamePacket, hother] at hsame
        have hmatch' : s.isMatch ⟨(s.heap p).valPkt.valHeader, .interest j⟩ q :=
          (ValPacket.sameNdnPacket_interest rfl).mpr ⟨k, hother, hsame.2.symm⟩
        obtain rfl := hmatches.isMatch_unique hp hq hmatch hmatch'
        cases hentry.symm.trans hother
        exact hsame.1
  | data d =>
    cases payload with
    | notSet | interest j => trivial
    | data e =>
      intro hsignature
      -- With the hop count of the entry the entry is removed.
      have hmatch : s.isMatch ⟨(s.heap p).valPkt.valHeader, .data e⟩ p :=
        (ValPacket.sameNdnPacket_data rfl).mpr ⟨d, hentry, hsignature.symm⟩
      have hsame := honly.removed p hp (not_mem_preProcessing (hmatches.findMatch_eq hp hmatch)
        (by rw [ValPacket.isData, hentry]) rfl)
      simpa [SamePacket, hentry] using hsame

/-- A network packet affects only entries with the same packet, whatever header it is heard with,
exactly if every entry with its nonce or its signature has its name. Two Data of Producers match
exactly if the applications have the same attributes `KeyLocator` and `Signature`, whatever the
Data are called. -/
theorem only_same_iff_names_agree (hmatches : s.NoMatch s.table) (payload : Payload) :
    ((∀ valHeader, OnlySame s ⟨valHeader, payload⟩) ↔
      ∀ p ∈ s.table, NameAgrees (s.heap p).valPkt.payload payload) ∧
    (∀ (a b : Producer) (i j : Interest) (d e : Data) (h h' : ValHeader),
      a.onInterest i = some d → b.onInterest j = some e →
      (ValPacket.sameNdnPacket ⟨h, .data d⟩ ⟨h', .data e⟩ ↔
        a.keyLocator = b.keyLocator ∧ a.signature = b.signature)) := by
  refine ⟨⟨fun h p hp => nameAgrees_of_onlySame hmatches h hp, fun h valHeader => ?_⟩, ?_⟩
  · exact onlySame_of_isMatch fun p hp hmatch => samePacket_of_nameAgrees (h p hp) hmatch
  · intro a b i j d e h h' hd he
    rw [← Producer.dataSignature_eq_iff, ← (Producer.onInterest_eq_some hd).2,
      ← (Producer.onInterest_eq_some he).2]
    simp [ValPacket.sameNdnPacket]

/-- An application with default attributes. -/
def sampleProducer : Producer where
  active := true
  virtualPayloadSize := 2
  freshness := 0
  signature := 0
  keyLocator := []

def sampleRequest (component : String) : Interest where
  name := ["a", component]
  nonce := 7
  selectors := ⟨false, []⟩
  interestLifetime := 2000
  forwardingHint := []
  nextHopFaceId := none

/-- Its answer. -/
def sampleData (component : String) : Data where
  name := ["a", component]
  signature := sampleProducer.dataSignature
  freshnessPeriod := 0
  content := [0, 0]
  congestionMark := none

def samplePacket (component : String) : ValPacket where
  valHeader := ⟨"A1", "B2", "0:0:0", "/a", 3⟩
  payload := .data (sampleData component)

/-- A forwarder that waits to forward `/a/1`. -/
def waitingForA1 : Pending := (empty.registerOutgoingValPacket 257 (samplePacket "1") 0).1

/-- Hearing `/a/2` makes it drop `/a/2` and give up `/a/1`. -/
theorem overhearing_mixes_names :
    sampleProducer.onInterest (sampleRequest "1") = some (sampleData "1") ∧
      sampleProducer.onInterest (sampleRequest "2") = some (sampleData "2") ∧
      (sampleData "1").name ≠ (sampleData "2").name ∧
      waitingForA1.table = [0] ∧ (waitingForA1.heap 0).valPkt = samplePacket "1" ∧
      (waitingForA1.preProcessingValPacket (samplePacket "2")).2 = false ∧
      (waitingForA1.preProcessingValPacket (samplePacket "2")).1.table = [] := by
  decide

/-- The forwarder waits for `/a/1`, so hearing `/a/1` affects the same packet only, and hearing
`/a/2` does not. -/
theorem only_same_iff_names_agree_waiting :
    waitingForA1.NoMatch waitingForA1.table ∧
      (∀ valHeader, OnlySame waitingForA1 ⟨valHeader, .data (sampleData "1")⟩) ∧
      ¬ ∀ valHeader, OnlySame waitingForA1 ⟨valHeader, .data (sampleData "2")⟩ := by
  have hmatches : waitingForA1.NoMatch waitingForA1.table := List.pairwise_singleton _ 0
  refine ⟨hmatches, (only_same_iff_names_agree hmatches _).1.mpr ?_,
    mt (only_same_iff_names_agree hmatches _).1.mp ?_⟩
  · exact List.forall_mem_singleton.mpr fun _ => rfl
  · intro h
    exact absurd (h 0 (List.mem_singleton_self 0) rfl) (by decide)

end Pending

end ValProofs.Pft
