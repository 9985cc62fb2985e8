import Mathlib.Data.Set.Insert
import ValProofs.Nfd.Machine
import ValProofs.Val.Timers

/-!
Where the packets of a node come from.

A node changes the next hop and the forwarding hint of an Interest and the mark
of a Data, and nothing else of either. If all that comes in is in a set, so is
what is cached, what VAL is given to send, and what leaves through other faces.
-/

namespace ValProofs

open ValForwarder List

/-- The packet without what nodes change on it. -/
def Payload.core : Payload → Payload
  | .notSet => .notSet
  | .interest i => .interest { i with forwardingHint := [], nextHopFaceId := none }
  | .data d => .data { d with congestionMark := none }

/-- What the strategy is called with. -/
def StrategyCall.payload : StrategyCall → Payload
  | .ifntHit _ i => .interest i
  | .ifntMiss i => .interest i
  | .dfntHit _ _ d => .data d
  | .dfntMiss d _ _ => .data d

def Sent.payload : Sent → Payload
  | .interest _ i => .interest i
  | .data _ d => .data d
  | .nack _ i => .interest i

/-- The content store answers with what has been added to it. -/
structure Platform.Caches {τ : Type} (P : Platform τ) (contents : τ → Set Data) : Prop where
  found : ∀ store i d, (P.contentStoreLookup store i).2 = some d → d ∈ contents store
  lookup : ∀ store i, contents (P.contentStoreLookup store i).1 ⊆ contents store
  add : ∀ store d, contents (P.contentStoreAdd store d) ⊆ insert d (contents store)
  deadNonce : ∀ store name nonce,
    contents (P.deadNonceListAdd store name nonce) ⊆ contents store

theorem payload_sentBy {g : Geometry} {v : ValForwarder} {inGeoface : ℕ}
    {call : StrategyCall} {out : Outgoing} (h : v.sentBy g inGeoface call = some out) :
    out.valPkt.payload = call.payload := by
  cases call with
  | ifntHit => exact (doAfterIfntHit_eq_some h).2.2.1
  | dfntHit => exact (doAfterDfntHit_eq_some h).2.2.1
  | ifntMiss | dfntMiss =>
    cases h
    rfl

namespace Node

variable {τ : Type} {K : Set Payload} {C : τ → Set Data}

/-- What the node could still send, and all it has sent, is in the set. -/
structure Knows (K : Set Payload) (C : τ → Set Data) (node : Node τ) : Prop where
  calls : ∀ call ∈ node.val.calls, ∀ out, call.sent = some out → out.valPkt.payload.core ∈ K
  store : ∀ d ∈ C node.store, (Payload.data d).core ∈ K
  sent : ∀ s ∈ node.sent, s.payload.core ∈ K

namespace Knows

variable {node : Node τ} (h : Knows K C node)

include h

theorem mono {K' : Set Payload} (hK : K ⊆ K') : Knows K' C node where
  calls call hcall out hout := hK (h.calls call hcall out hout)
  store d hd := hK (h.store d hd)
  sent s hs := hK (h.sent s hs)

/-- A packet on the air is one that the strategy was called with. -/
theorem transmitted (htraced : node.val.Traced) {p outFaceId : ℕ} {valP : ValPacket}
    (hlog : .transmit p valP outFaceId ∈ node.val.pending.log) : valP.payload.core ∈ K := by
  obtain ⟨hlt, rfl⟩ := htraced.accounted.log p valP outFaceId hlog
  obtain ⟨call, hcall, hcreated⟩ := htraced.complete p hlt
  obtain ⟨-, out, hout, hpkt⟩ := htraced.created call hcall p hcreated
  rw [hpkt]
  exact h.calls call hcall out hout

/-! ### What VAL and the other faces are given -/

theorem frame {pit : Pit.Table} {fib : List Fib.Entry} {now : ℕ} :
    Knows K C { node with pit := pit, fib := fib, now := now } :=
  ⟨h.calls, h.store, h.sent⟩

theorem of_calls {v : ValForwarder} (hcalls : v.calls = node.val.calls) :
    Knows K C { node with val := v } :=
  ⟨fun call hcall => h.calls call (hcalls ▸ hcall), h.store, h.sent⟩

theorem append {s : Sent} (hs : s.payload.core ∈ K) :
    Knows K C { node with sent := node.sent ++ [s] } where
  calls := h.calls
  store := h.store
  sent s' hs' := by
    rcases mem_append.mp hs' with hold | hnew
    · exact h.sent s' hold
    · exact mem_singleton.mp hnew ▸ hs

theorem strategy (g : Geometry) {v : ValForwarder} (hcalls : v.calls = node.val.calls)
    (inGeoface : ℕ) {call : StrategyCall} (hcall : call.payload.core ∈ K) :
    Knows K C { node with val := v.strategy g inGeoface call } where
  calls c hc out hout := by
    rcases mem_append.mp hc with hold | hnew
    · exact h.calls c (hcalls ▸ hold) out hout
    · obtain rfl := mem_singleton.mp hnew
      rw [payload_sentBy hout]
      exact hcall
  store := h.store
  sent := h.sent

/-! ### Data -/

section Data

variable {data : Data} (hd : (Payload.data data).core ∈ K) (g : Geometry)

include hd

theorem reveiceData (inGeoface : ℕ) (nonceList : Option (List Nonce)) (isProducer : Bool) :
    Knows K C { node with val := node.val.reveiceData g inGeoface data nonceList isProducer } := by
  have hdel := delivered g node.val inGeoface data nonceList isProducer
  generalize node.val.reveiceData g inGeoface data nonceList isProducer = v at hdel
  cases hdel with
  | control | cleaned => exact h.of_calls rfl
  | relayed => exact h.strategy (v := { node.val.clean data _ with pending := _ }) g rfl _ hd
  | originated => exact h.strategy (v := node.val.clean data _) g rfl _ hd

theorem sendDataToVal (id outFace : ℕ) (nonceList : Option (List Nonce)) (isProducer : Bool) :
    Knows K C (node.sendDataToVal g id data outFace nonceList isProducer) := by
  have hdelete : Knows K C (node.modifyPit id fun entry => entry.deleteInRecord outFace) := h.frame
  rw [Node.sendDataToVal, onOutgoingData]
  split
  · exact hdelete
  · split
    · exact hdelete.reveiceData hd g outFace nonceList isProducer
    · exact hdelete.append hd

theorem sendData (id outFace : ℕ) : Knows K C (node.sendData g id data outFace) := by
  rw [Node.sendData]
  split
  · exact h
  · exact h.sendDataToVal hd g id outFace none false

theorem faceSendDataToVal (faceId : ℕ) (nonceList : Option (List Nonce)) (isProducer : Bool) :
    Knows K C (node.faceSendDataToVal g faceId data nonceList isProducer) := by
  rw [Node.faceSendDataToVal]
  split
  · exact h.reveiceData hd g faceId nonceList isProducer
  · exact h

theorem afterContentStoreHit (entry : Pit.Entry) (inFace : ℕ) :
    Knows K C (node.afterContentStoreHit g entry inFace data) := by
  rw [Node.afterContentStoreHit]
  split
  · split
    · exact h
    · exact h.sendDataToVal hd g entry.id _ _ _
  · exact h.sendData hd g entry.id inFace

theorem afterReceiveData (order : List ℕ → List ℕ) (id inFace : ℕ) :
    Knows K C (node.afterReceiveData g order id inFace data).1 ∧
      (Payload.data (node.afterReceiveData g order id inFace data).2).core ∈ K := by
  rw [Node.afterReceiveData]
  split
  · exact ⟨h, hd⟩
  · refine foldlRecOn (motive := fun s : Downstream τ => Knows K C s.node ∧
      (Payload.data s.data).core ∈ K) _ _ ⟨?_, hd⟩ fun s hs downstream _ => ?_
    · split
      · exact h.frame
      · exact h
    · have hsend := hs.1.sendData hs.2 g id downstream
      rw [sendDownstream]
      split
      · exact hs
      · split
        · exact ⟨hs.1.sendDataToVal hs.2 g id downstream _ _, hs.2⟩
        · split
          · dsimp only
            split
            · have hmark : (Payload.data (s.data.setCongestionMark 500)).core ∈ K := hs.2
              exact ⟨hsend.faceSendDataToVal hmark g _ _ _, hs.2⟩
            · exact ⟨hsend, hs.2⟩
          · exact ⟨hs.1.frame, hs.2⟩

variable {P : Platform τ} (hP : P.Caches C)

include hP

omit hd in
theorem insertDeadNonceList (entry : Pit.Entry) (upstream : Option ℕ) :
    Knows K C (node.insertDeadNonceList P entry upstream) := by
  obtain ⟨records, heq⟩ := insertDeadNonceList_eq P entry upstream
  rw [heq]
  refine ⟨h.calls, ?_, h.sent⟩
  exact foldlRecOn (motive := fun store => ∀ d ∈ C store, (Payload.data d).core ∈ K)
    records _ h.store fun store hstore _ _ d hd => hstore d (hP.deadNonce _ _ _ hd)

theorem satisfy (inFace id : ℕ) :
    Knows K C (satisfy P g inFace (node, data) id).1 ∧
      (Payload.data (satisfy P g inFace (node, data) id).2).core ∈ K := by
  have htimed : Knows K C (node.setExpiryTimer id 0) := h.frame
  obtain ⟨hafter, hmarked⟩ := htimed.afterReceiveData hd g P.setOrder id inFace
  rw [Node.satisfy]
  generalize (node.setExpiryTimer id 0).afterReceiveData g P.setOrder id inFace data = after
    at hafter hmarked
  refine ⟨?_, hmarked⟩
  dsimp only
  split
  · exact hafter.frame
  · rename_i entry _
    refine Knows.frame (Knows.insertDeadNonceList ?_ hP entry (some inFace))
    exact hafter.frame

theorem contentStoreAdd : Knows K C { node with store := P.contentStoreAdd node.store data } where
  calls := h.calls
  store d hmem := by
    rcases hP.add node.store data hmem with rfl | hold
    · exact hd
    · exact h.store d hold
  sent := h.sent

theorem onIncomingData (inFace : ℕ) : Knows K C (node.onIncomingData P g inFace data) := by
  rw [Node.onIncomingData]
  split
  · exact h
  · split
    · rw [onDataUnsolicited]
      split
      · exact h
      · split
        · have hmark : (Payload.data (data.setCongestionMark 501)).core ∈ K := hd
          generalize (Fib.findLongestPrefixMatch node.fib data.name).nextHops.any _ = isProducer
          cases isProducer with
          | true => exact h.faceSendDataToVal hmark g inFace none true
          | false =>
            have hroute : Knows K C (node.addRoute data.name.getPrefix1 inFace 1) := h.frame
            exact (hroute.faceSendDataToVal hmark g inFace none false).contentStoreAdd hmark hP
        · exact h.contentStoreAdd hd hP
    · refine (foldlRecOn (motive := fun s : Node τ × Data => Knows K C s.1 ∧
        (Payload.data s.2).core ∈ K) _ _ ⟨h.contentStoreAdd hd hP, hd⟩ fun s hs id _ => ?_).1
      exact hs.1.satisfy hs.2 g hP inFace id

end Data

/-! ### Interests -/

section Interests

variable {i : Interest} (hi : (Payload.interest i).core ∈ K) (g : Geometry)

include hi

theorem onOutgoingInterest (id outFace : ℕ) :
    Knows K C (node.onOutgoingInterest g id outFace i) := by
  have hout : Knows K C (node.modifyPit id fun entry =>
    entry.insertOrUpdateOutRecord node.now outFace i) := h.frame
  rw [Node.onOutgoingInterest]
  split
  · rw [reveiceInterest_eq]
    refine hout.strategy g rfl outFace ?_
    split <;> exact hi
  · exact hout.append hi

theorem chooseNextHop (id inFace : ℕ) (isNew : Bool) (nextHopFaceId : ℕ) :
    Knows K C (node.chooseNextHop id inFace isNew nextHopFaceId i).1 ∧
      (Payload.interest (node.chooseNextHop id inFace isNew nextHopFaceId i).2.2).core ∈ K := by
  rw [Node.chooseNextHop]
  dsimp only
  split
  · split
    · split
      · refine ⟨?_, hi⟩
        split
        · exact h.frame
        · exact h
      · exact ⟨h, hi⟩
    · exact ⟨h.frame, hi⟩
  · exact ⟨h, hi⟩

theorem onContentStoreMiss (id inFace : ℕ) (isNew : Bool) :
    Knows K C (node.onContentStoreMiss g id inFace isNew i) := by
  rw [Node.onContentStoreMiss]
  generalize hrec : (node.modifyPit id fun entry =>
    entry.insertOrUpdateInRecord node.now inFace i) = recorded
  generalize htimer : recorded.setExpiryTimer id _ = timed
  have htimed : Knows K C timed := by
    rw [← htimer, ← hrec]
    exact h.frame
  split
  · rename_i nextHopFaceId _
    split
    · exact htimed
    · have hchosen := htimed.chooseNextHop hi id inFace isNew nextHopFaceId
      generalize timed.chooseNextHop id inFace isNew nextHopFaceId i = chosen at hchosen
      obtain ⟨hnode, hcore⟩ := hchosen
      refine Knows.onOutgoingInterest ?_ hcore g id chosen.2.1
      split
      · exact hnode.frame
      · exact hnode
  · rw [afterReceiveInterest]
    split
    · exact htimed.frame
    · exact htimed.onOutgoingInterest hi g id _

theorem onInterestLoop (inFace : ℕ) : Knows K C (node.onInterestLoop inFace i) := by
  rw [Node.onInterestLoop]
  split
  · exact h.append hi
  · exact h

theorem onIncomingInterest {P : Platform τ} (hP : P.Caches C) (inFace : ℕ) :
    Knows K C (node.onIncomingInterest P g inFace i) := by
  rw [Node.onIncomingInterest]
  split
  · exact h
  · split
    · exact h.onInterestLoop hi inFace
    · have hi' : (Payload.interest (withoutHint P i)).core ∈ K := by
        rw [withoutHint]
        split <;> exact hi
      generalize withoutHint P i = i at hi'
      rw [enterInterest]
      generalize node.pit.insert i = inserted
      obtain ⟨pit, entry, isNew⟩ := inserted
      have hinsert : Knows K C { node with pit := pit } := h.frame
      dsimp only
      split
      · exact hinsert.onInterestLoop hi' inFace
      · split
        · have hfound := hP.found node.store i
          have hlookup := hP.lookup node.store i
          generalize P.contentStoreLookup node.store i = found at hfound hlookup
          obtain ⟨store, answer⟩ := found
          have hstore : Knows K C { node with pit := pit, store := store } :=
            ⟨h.calls, fun d hd => h.store d (hlookup hd), h.sent⟩
          cases answer with
          | none => exact hstore.onContentStoreMiss hi' g entry.id inFace isNew
          | some d =>
            refine Knows.afterContentStoreHit ?_ (h.store d (hfound d rfl)) g entry inFace
            exact hstore.frame
        · exact hinsert.onContentStoreMiss hi' g entry.id inFace isNew

end Interests

end Knows

/-! ### Events -/

/-- What the event brings in from the node's own faces. -/
def Event.handed : Event → Option Payload
  | .incomingInterest _ interest => some (.interest interest)
  | .incomingData _ data => some (.data data)
  | _ => none

/-- An event makes nothing up. -/
theorem Knows.next {node : Node τ} (h : Knows K C node) {P : Platform τ} (hP : P.Caches C)
    (g : Geometry) {e : Event} (hhanded : ∀ p, e.handed = some p → p.core ∈ K)
    (hheard : ∀ face valP, e = .receive face valP → valP.payload.core ∈ K) :
    Knows K C (node.next P g e) := by
  cases e with
  | receive face valP =>
    have hK := hheard face valP rfl
    have hcalls := node.val.calls_onReceivedValPacket face valP
    rw [Node.next, onReceivedValPacket]
    cases hrec : node.val.onReceivedValPacket face valP with
    | mk v packet =>
      rw [hrec] at hcalls
      have hnode := h.of_calls hcalls
      cases packet with
      | none => exact hnode
      | some packet =>
        cases packet with
        | interest geoface interest =>
          obtain ⟨-, ⟨i, nextHop, hpay, rfl⟩, -⟩ := toNfd_interest hrec
          rw [hpay] at hK
          exact hnode.onIncomingInterest (i := { i with nextHopFaceId := nextHop }) hK g hP geoface
        | data geoface data =>
          rw [(toNfd_data hrec).2.1] at hK
          exact hnode.onIncomingData hK g hP geoface
  | incomingInterest face interest => exact h.onIncomingInterest (hhanded _ rfl) g hP face
  | incomingData face data => exact h.onIncomingData (hhanded _ rfl) g hP face
  | incomingNack face interest =>
    rw [Node.next, onIncomingNack]
    dsimp only
    (repeat' split) <;> exact h.frame
  | interestFinalize id =>
    rw [Node.next, onInterestFinalize]
    split
    · exact h
    · exact (h.insertDeadNonceList hP _ none).frame
  | elapse | addRoute => exact h.frame
  | fire | addFace | move => exact h.of_calls rfl

end Node

end ValProofs
