import ValProofs.Val.Machine

/-!
Hop counts at one node. An entry of the IFNT or DFNT keeps the hop count of the
packet less one, in eight bits, and a relay sends that number on unless it is
zero. The subtraction is only a subtraction when the packet's hop count is not
zero, and nothing checks that the header says so.
-/

namespace ValProofs

open Lib Pft List

/-! ### Eight-bit arithmetic -/

variable {h : UInt8}

theorem ne_zero_of_toNat_pos (hpos : 0 < h.toNat) : h ≠ 0 := by
  rintro rfl
  exact absurd hpos (by decide)

theorem toNat_pos (hne : h ≠ 0) : 0 < h.toNat :=
  Nat.pos_of_ne_zero fun hz => hne (UInt8.toNat_inj.mp hz)

theorem toNat_sub_one (hne : h ≠ 0) : (h - 1).toNat = h.toNat - 1 := by
  have hone : (1 : UInt8) ≤ h := UInt8.le_iff_toNat_le.mpr (toNat_pos hne)
  rw [UInt8.toNat_sub_of_le _ _ hone]
  rfl

theorem toNat_maxHops_sub {m : UInt8} (h : m.toNat ≤ 9) :
    (maxHops - m + 1).toNat = 10 - m.toNat := by
  have hle : m ≤ 9 := UInt8.le_iff_toNat_le.mpr h
  have hsub : (maxHops - m).toNat = 9 - m.toNat := by
    show ((9 : UInt8) - m).toNat = 9 - m.toNat
    rw [UInt8.toNat_sub_of_le _ _ hle]
    rfl
  rw [UInt8.toNat_add, hsub]
  show (9 - m.toNat + 1) % 256 = 10 - m.toNat
  omega

namespace ValForwarder

/-! ### The smallest hop count -/

/-- The loop of `getLongestJorney` ends with an entry it has seen, or with what
it began with, and nothing it has seen is smaller. -/
theorem foldl_longestJorney (entries : List Ifnt.Entry) (best : UInt8 × String) :
    let found := entries.foldl
      (fun best entry => if best.1 > entry.hopC then (entry.hopC, entry.sa) else best) best
    (found.1 ≤ best.1 ∧ ∀ entry ∈ entries, found.1 ≤ entry.hopC) ∧
      (found = best ∨ ∃ entry ∈ entries, found = (entry.hopC, entry.sa)) := by
  induction entries generalizing best with
  | nil => exact ⟨⟨UInt8.le_refl _, fun _ h => nomatch h⟩, .inl rfl⟩
  | cons entry entries ih =>
    rw [foldl_cons]
    by_cases hlt : best.1 > entry.hopC
    · rw [if_pos hlt]
      obtain ⟨⟨hbest, hall⟩, hfound⟩ := ih (entry.hopC, entry.sa)
      refine ⟨⟨UInt8.le_trans hbest (UInt8.le_of_lt hlt),
        forall_mem_cons.mpr ⟨hbest, hall⟩⟩, .inr ?_⟩
      rcases hfound with hfound | ⟨e, he, hfound⟩
      · exact ⟨entry, mem_cons_self, hfound⟩
      · exact ⟨e, mem_cons_of_mem _ he, hfound⟩
    · rw [if_neg hlt]
      obtain ⟨⟨hbest, hall⟩, hfound⟩ := ih best
      refine ⟨⟨hbest, forall_mem_cons.mpr
        ⟨UInt8.le_trans hbest (UInt8.not_lt.mp hlt), hall⟩⟩, ?_⟩
      rcases hfound with hfound | ⟨e, he, hfound⟩
      · exact .inl hfound
      · exact .inr ⟨e, mem_cons_of_mem _ he, hfound⟩

/-- The smallest hop count of a non-empty list and the source it belongs to. -/
theorem getLongestJorney_spec (pastTheEnd : UInt8 × String) {entries : List Ifnt.Entry}
    (hne : entries ≠ []) :
    (∀ entry ∈ entries, (getLongestJorney pastTheEnd entries).1 ≤ entry.hopC) ∧
      ∃ entry ∈ entries, getLongestJorney pastTheEnd entries = (entry.hopC, entry.sa) := by
  cases entries with
  | nil => exact absurd rfl hne
  | cons entry entries =>
    obtain ⟨hle, hfound⟩ := foldl_longestJorney entries (entry.hopC, entry.sa)
    refine ⟨forall_mem_cons.mpr hle, ?_⟩
    rcases hfound with hfound | ⟨e, he, hfound⟩
    · exact ⟨entry, mem_cons_self, hfound⟩
    · exact ⟨e, mem_cons_of_mem _ he, hfound⟩

/-! ### What the events other than receptions do -/

def Event.isReception : Event → Bool
  | .receive _ _ => true
  | _ => false

/-- The entries a call of the strategy gets are in the tables and belong to the
packet. -/
def Drawn (v : ValForwarder) : StrategyCall → Prop
  | .ifntHit ifntEntry interest => ifntEntry ∈ v.ifnt ∧ ifntEntry.nonce = interest.nonce
  | .ifntMiss _ => True
  | .dfntHit dfntEntry ifntEntries data =>
      (dfntEntry ∈ v.dfnt ∧ dfntEntry.sig = data.signature) ∧ ifntEntries ⊆ v.ifnt
  | .dfntMiss _ ifntEntries _ => ifntEntries ⊆ v.ifnt

/-- The state after an event that is not a reception: entries are only taken
out of the tables, and the strategy is called at most once, at the end. -/
inductive Handed (g : Geometry) (v : ValForwarder) : ValForwarder → Prop
  | quiet (v' : ValForwarder) (hifnt : v'.ifnt ⊆ v.ifnt) (hdfnt : v'.dfnt ⊆ v.dfnt)
      (hcalls : v'.calls = v.calls) : Handed g v v'
  | called (u : ValForwarder) (inGeoface : ℕ) (call : StrategyCall) (hdrawn : v.Drawn call)
      (hifnt : u.ifnt ⊆ v.ifnt) (hdfnt : u.dfnt ⊆ v.dfnt) (hcalls : u.calls = v.calls)
      (hptr : u.pending.nextPtr = v.pending.nextPtr) :
      Handed g v (u.strategy g inGeoface call)

theorem drawn_findMatchByNonce (v : ValForwarder) (interest : Interest) :
    v.Drawn (match Ifnt.findMatchByNonce v.ifnt interest.nonce with
      | some ifntEntry => .ifntHit ifntEntry interest
      | none => .ifntMiss interest) := by
  cases hfind : Ifnt.findMatchByNonce v.ifnt interest.nonce with
  | none => trivial
  | some ifntEntry => exact Ifnt.findMatchByNonce_eq_some hfind

variable {g : Geometry} {v v' : ValForwarder}

theorem handed_delivered {inGeoface : ℕ} {data : Data} {nonceList : Option (List Nonce)}
    {isProducer : Bool} (h : Delivered g v inGeoface data nonceList isProducer v') :
    Handed g v v' := by
  have hsub : Ifnt.findMatchByNonceList v.ifnt (nonceList.getD []) ⊆ v.ifnt :=
    fun entry hentry => (Ifnt.mem_findMatchByNonceList hentry).1
  have hifnt := Ifnt.removeEntriesByNonceList_subset v.ifnt (nonceList.getD [])
  have hdfnt := Dfnt.removeEntryBySignature_subset v.dfnt data.signature
  cases h with
  | control => exact .quiet _ (Subset.refl _) hdfnt rfl
  | cleaned => exact .quiet _ hifnt hdfnt rfl
  | relayed dfntEntry _ _ hfind _ =>
    exact .called _ inGeoface _ ⟨Dfnt.findMatch_eq_some hfind, hsub⟩ hifnt hdfnt rfl
      (Pending.nextPtr_cancelPendingInterests _ _)
  | originated => exact .called _ inGeoface _ hsub hifnt hdfnt rfl rfl

theorem handed (g : Geometry) (v : ValForwarder) {e : Event} (he : e.isReception = false) :
    Handed g v (v.next g e) := by
  have hsame : ∀ v' : ValForwarder, v'.ifnt = v.ifnt → v'.dfnt = v.dfnt →
      v'.calls = v.calls → Handed g v v' := fun v' hifnt hdfnt hcalls =>
    .quiet v' (hifnt ▸ Subset.refl _) (hdfnt ▸ Subset.refl _) hcalls
  cases e with
  | receive face valP => cases he
  | interestFromNfd inGeoface interest =>
    rw [next, reveiceInterest_eq]
    exact .called v inGeoface _ (drawn_findMatchByNonce v interest) (Subset.refl _)
      (Subset.refl _) rfl rfl
  | dataFromNfd inGeoface data nonceList isProducer =>
    exact handed_delivered (delivered g v inGeoface data nonceList isProducer)
  | fire id | addFace face | move mobility => exact hsame _ rfl rfl rfl

theorem Handed.calls_subset (h : Handed g v v') : v.calls ⊆ v'.calls := by
  cases h with
  | quiet _ _ _ hcalls => exact hcalls ▸ Subset.refl _
  | called u inGeoface call _ _ _ hcalls _ =>
    rw [← hcalls]
    exact subset_append_left _ _

theorem Handed.ifnt_subset (h : Handed g v v') : v'.ifnt ⊆ v.ifnt := by
  cases h with
  | quiet _ hifnt _ _ | called _ _ _ _ hifnt _ _ _ => exact hifnt

/-- A reply has somebody to go to. Without an entry, `getLongestJorney` reads
past the end and `getMultiPointDist` divides by zero. -/
def HasRecipient : StrategyCall → Prop
  | .dfntHit _ ifntEntries _ => ifntEntries ≠ []
  | .dfntMiss _ ifntEntries _ => ifntEntries ≠ []
  | _ => True

instance : DecidablePred HasRecipient
  | .ifntHit .. => inferInstanceAs (Decidable True)
  | .ifntMiss .. => inferInstanceAs (Decidable True)
  | .dfntHit _ ifntEntries _ => inferInstanceAs (Decidable (ifntEntries ≠ []))
  | .dfntMiss _ ifntEntries _ => inferInstanceAs (Decidable (ifntEntries ≠ []))

/-! ### A relayed packet -/

/-- The nonce or signature of the packet is in none of the tables. -/
def Unseen (v : ValForwarder) (valP : ValPacket) : Prop :=
  v.pending.findMatch valP = none ∧
    (∀ i, valP.payload = .interest i → ∀ entry ∈ v.ifnt, entry.nonce ≠ i.nonce) ∧
    ∀ d, valP.payload = .data d → ∀ entry ∈ v.dfnt, entry.sig ≠ d.signature

/-- The state after a reception and what happens before the next one: what NFD
hands down while it handles the packet, and later events. -/
def handle (g : Geometry) (v : ValForwarder) (face : ℕ) (valP : ValPacket)
    (events : List Event) : ValForwarder :=
  events.foldl (next g) (v.onReceivedValPacket face valP).1

/-- The call is on the relay path and for the packet. -/
def IsRelayOf (valP : ValPacket) : StrategyCall → Prop
  | .ifntHit _ interest => ∃ i, valP.payload = .interest i ∧ interest.nonce = i.nonce
  | .dfntHit _ _ data => ∃ d, valP.payload = .data d ∧ data.signature = d.signature
  | _ => False

/-- The call relays the packet, and `out` is what it registers. -/
def Relays (valP : ValPacket) (call : Call) (out : Outgoing) : Prop :=
  IsRelayOf valP call.call ∧ call.sent = some out ∧ call.created ≠ none

/-- While the packet is handled, all entries for it have its hop count less
one, and so have the relays. -/
structure Decremented (valP : ValPacket) (old : List Call) (v : ValForwarder) : Prop where
  ifnt : ∀ i, valP.payload = .interest i → ∀ entry ∈ v.ifnt, entry.nonce = i.nonce →
    entry.hopC = valP.hopC - 1
  dfnt : ∀ d, valP.payload = .data d → ∀ entry ∈ v.dfnt, entry.sig = d.signature →
    entry.hopC = valP.hopC - 1
  calls : ∃ new, v.calls = old ++ new ∧ ∀ call ∈ new, ∀ out, Relays valP call out →
    out.valPkt.hopC = valP.hopC - 1 ∧ valP.hopC - 1 ≠ 0

variable {valP : ValPacket}

theorem decremented_received (hunseen : v.Unseen valP) (face : ℕ) :
    Decremented valP v.calls (v.onReceivedValPacket face valP).1 := by
  obtain ⟨-, hifnt, hdfnt⟩ := hunseen
  have hifnt' : ∀ i, valP.payload = .interest i → ∀ entry ∈ v.ifnt, entry.nonce = i.nonce →
      entry.hopC = valP.hopC - 1 :=
    fun i hpay entry hentry hnonce => absurd hnonce (hifnt i hpay entry hentry)
  have hdfnt' : ∀ d, valP.payload = .data d → ∀ entry ∈ v.dfnt, entry.sig = d.signature →
      entry.hopC = valP.hopC - 1 :=
    fun d hpay entry hentry hsig => absurd hsig (hdfnt d hpay entry hentry)
  have hnone : ∃ new, v.calls = v.calls ++ new ∧ ∀ call ∈ new, ∀ out, Relays valP call out →
      out.valPkt.hopC = valP.hopC - 1 ∧ valP.hopC - 1 ≠ 0 :=
    ⟨[], (append_nil _).symm, fun _ h => nomatch h⟩
  have hrec := received v face valP
  generalize (v.onReceivedValPacket face valP).1 = v' at hrec
  cases hrec with
  | dropped => exact ⟨hifnt', hdfnt', hnone⟩
  | interest j faces f2a _ hpay =>
    refine ⟨fun i hi entry hentry hnonce => ?_, hdfnt', hnone⟩
    rcases mem_append.mp hentry with hentry | hentry
    · exact hifnt' i hi entry hentry hnonce
    · rw [mem_singleton.mp hentry]
      rfl
  | again => exact ⟨hifnt', hdfnt', hnone⟩
  | data e faces f2a _ hpay =>
    refine ⟨hifnt', fun d hd entry hentry hsig => ?_, hnone⟩
    rcases mem_cons.mp hentry with rfl | hentry
    · rfl
    · exact hdfnt' d hd entry hentry hsig
  | invalid => exact ⟨hifnt', hdfnt', hnone⟩

/-- A relay sends the hop count of the entry it found. -/
theorem Decremented.sentBy {old : List Call} {u : ValForwarder} (h : Decremented valP old v)
    {inGeoface : ℕ} {call : StrategyCall} (hdrawn : v.Drawn call) (hrelay : IsRelayOf valP call)
    {out : Outgoing} (hsent : u.sentBy g inGeoface call = some out) :
    out.valPkt.hopC = valP.hopC - 1 ∧ valP.hopC - 1 ≠ 0 := by
  cases call with
  | ifntHit ifntEntry interest =>
    obtain ⟨hmem, hnonce⟩ := hdrawn
    obtain ⟨i, hpay, hi⟩ := hrelay
    obtain ⟨hne, -, -, hhop, -⟩ := doAfterIfntHit_eq_some hsent
    have hentry := h.ifnt i hpay ifntEntry hmem (hnonce.trans hi)
    exact ⟨hhop.trans hentry, hentry ▸ hne⟩
  | dfntHit dfntEntry ifntEntries data =>
    obtain ⟨⟨hmem, hsig⟩, -⟩ := hdrawn
    obtain ⟨d, hpay, hd⟩ := hrelay
    obtain ⟨hne, -, -, hhop⟩ := doAfterDfntHit_eq_some hsent
    have hentry := h.dfnt d hpay dfntEntry hmem (hsig.trans hd)
    exact ⟨hhop.trans hentry, hentry ▸ hne⟩
  | ifntMiss interest | dfntMiss data ifntEntries isProducer => exact hrelay.elim

theorem Decremented.next {old : List Call} (h : Decremented valP old v) {e : Event}
    (he : e.isReception = false) : Decremented valP old (v.next g e) := by
  have hhanded := handed g v he
  generalize v.next g e = v' at hhanded
  obtain ⟨new, hnew, hall⟩ := h.calls
  cases hhanded with
  | quiet _ hifnt hdfnt hcalls =>
    exact ⟨fun i hpay entry hentry => h.ifnt i hpay entry (hifnt hentry),
      fun d hpay entry hentry => h.dfnt d hpay entry (hdfnt hentry),
      new, hcalls.trans hnew, hall⟩
  | called u inGeoface call hdrawn hifnt hdfnt hcalls _ =>
    refine ⟨fun i hpay entry hentry => h.ifnt i hpay entry (hifnt hentry),
      fun d hpay entry hentry => h.dfnt d hpay entry (hdfnt hentry),
      new ++ [⟨call, u.sentBy g inGeoface call,
        (register u.pending (u.sentBy g inGeoface call)).2⟩], ?_, ?_⟩
    · rw [← append_assoc, ← hnew, ← hcalls]
      rfl
    · intro c hc out hout
      rcases mem_append.mp hc with hc | hc
      · exact hall c hc out hout
      · rw [mem_singleton.mp hc] at hout
        exact h.sentBy hdrawn hout.1 hout.2.1

/-- Everything up to the next reception. -/
theorem decremented_handle (g : Geometry) (hunseen : v.Unseen valP) (face : ℕ) {events : List Event}
    (hother : ∀ e ∈ events, e.isReception = false) :
    Decremented valP v.calls (v.handle g face valP events) := by
  unfold handle
  have hstart := decremented_received hunseen face
  generalize (v.onReceivedValPacket face valP).1 = u at hstart
  induction events generalizing u with
  | nil => exact hstart
  | cons e events ih =>
    obtain ⟨he, hrest⟩ := forall_mem_cons.mp hother
    exact ih hrest _ (hstart.next he)

/-- An Interest with hop count zero, for the area the node is in. -/
def zeroHops : ValPacket where
  valHeader := ⟨"A2", "A1", "5:0:0", "/a", 0⟩
  payload := .interest sampleInterest

/-- The subtraction wraps: the node relays the packet with hop count 255. -/
theorem zeroHops_relayed :
    fresh.Unseen zeroHops ∧
      ∃ call ∈ (fresh.handle flatGeometry 257 zeroHops
          [.interestFromNfd 259 sampleInterest]).calls,
        ∃ out, Relays zeroHops call out ∧ out.valPkt.hopC = 255 := by
  refine ⟨⟨rfl, fun _ _ _ h => (nomatch h), fun _ _ _ h => (nomatch h)⟩, ?_⟩
  refine ⟨_, mem_cons_self, _, ⟨⟨sampleInterest, rfl, rfl⟩, rfl, ?_⟩, ?_⟩
  · decide
  · rfl

/-- So a relay does not always send a smaller hop count than it received. -/
theorem relay_not_decrementing :
    ¬ ∀ (g : Geometry) (v : ValForwarder) (face : ℕ) (valP : ValPacket)
        (events : List Event), v.Unseen valP →
        (∀ e ∈ events, e.isReception = false) →
        ∀ call ∈ (v.handle g face valP events).calls.drop v.calls.length,
          ∀ out, Relays valP call out → out.valPkt.hopC < valP.hopC := by
  intro hall
  obtain ⟨hunseen, call, hcall, out, hrelays, hhop⟩ := zeroHops_relayed
  have hlt := hall flatGeometry fresh 257 zeroHops _ hunseen (by simp [Event.isReception]) call
    hcall out hrelays
  rw [hhop] at hlt
  exact absurd hlt (by decide)

/-- A relay sends a packet with fewer hops than it came with, and none that came
with less than two, exactly when the packet does not come with hop count zero. -/
theorem relay_decrements_iff (h : UInt8) :
    (∀ (g : Geometry) (v : ValForwarder) (face : ℕ) (valP : ValPacket)
        (events : List Event), valP.hopC = h → v.Unseen valP →
        (∀ e ∈ events, e.isReception = false) →
        ∀ call ∈ (v.handle g face valP events).calls.drop v.calls.length,
          ∀ out, Relays valP call out → out.valPkt.hopC < h ∧ 1 < h) ↔
      h ≠ 0 := by
  constructor
  · rintro hall rfl
    obtain ⟨call, hcall, out, hrelays, hhop⟩ := zeroHops_relayed.2
    have hlt := (hall flatGeometry fresh 257 zeroHops _ rfl zeroHops_relayed.1
      (by simp [Event.isReception]) call hcall out hrelays).1
    exact absurd hlt (UInt8.not_lt.mpr UInt8.zero_le)
  · rintro hne g v face valP events rfl hunseen hother call hcall out hrelays
    obtain ⟨new, hnew, hall⟩ := (decremented_handle g hunseen face hother).calls
    rw [hnew, List.drop_left] at hcall
    obtain ⟨hhop, hpos⟩ := hall call hcall out hrelays
    have hsub := toNat_sub_one hne
    have hzero := toNat_pos hne
    have hone := toNat_pos hpos
    constructor
    · rw [hhop, UInt8.lt_iff_toNat_lt]
      omega
    · rw [UInt8.lt_iff_toNat_lt]
      show 1 < valP.hopC.toNat
      omega

end ValForwarder

end ValProofs
