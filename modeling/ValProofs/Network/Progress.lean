import Mathlib.Data.List.Chain
import ValProofs.Network.Model

/-!
Interests whose destination is known come closer to it with every relay.

A relay compares its own distance to the destination with the distance of the
position in the header it has received. That position is where the previous
relay was when it decided, and the destination is the one that relay was given,
so along a chain of relays the distances that were used form a decreasing
sequence of naturals.

Where a node was when it decided is recorded next to the network, for each
object of the PFT.
-/

namespace ValProofs

open Lib Pft Function List EventQueue

namespace ValForwarder

/-- A relay towards a known destination is closer to it than the previous hop,
and says in the header where it is and where the packet goes. -/
theorem doAfterIfntHit_known {g : Geometry} {v : ValForwarder} {faceId : ℕ} {ifntEntry : Ifnt.Entry}
    {interest : Interest} {out : Outgoing} (hknown : ifntEntry.da ≠ "0")
    (houtside : v.mobility.area ≠ ifntEntry.da)
    (h : v.doAfterIfntHit g faceId ifntEntry interest = some out) :
    g.getDistanceToArea v.mobility.pos ifntEntry.da <
        g.getDistanceToArea ifntEntry.phPos ifntEntry.da ∧
      out.valPkt.valHeader.phPos = v.mobility.pos ∧
      out.valPkt.valHeader.da = ifntEntry.da := by
  simp only [doAfterIfntHit, hknown, houtside.symm, ne_eq, not_false_eq_true, and_self,
    if_true] at h
  split at h
  · cases h
  · split at h
    · rename_i hlt
      cases h
      exact ⟨hlt, rfl, rfl⟩
    · cases h

/-- A new call that relays an Interest is made by `reveiceInterest`, for an entry
of the IFNT, and what it creates is the next object. -/
theorem relays_next {g : Geometry} {v : ValForwarder} {e : Event} (he : e.isReception = false)
    {call : Call} (hcall : call ∈ (v.next g e).calls) {entry : Ifnt.Entry} {interest : Interest}
    (hhit : call.call = .ifntHit entry interest) :
    call ∈ v.calls ∨
      entry ∈ v.ifnt ∧ (∃ inGeoface, call.sent = v.doAfterIfntHit g inGeoface entry interest) ∧
        ∀ p, call.created = some p →
          p = v.pending.nextPtr ∧ Network.relayedEntry (v.next g e) p = some entry := by
  cases e with
  | receive face valP => cases he
  | interestFromNfd inGeoface i =>
    rw [next, reveiceInterest_eq] at hcall ⊢
    cases hfind : Ifnt.findMatchByNonce v.ifnt i.nonce with
    | none =>
      simp only [hfind] at hcall
      rcases mem_append.mp hcall with hold | hnew
      · exact .inl hold
      · rw [mem_singleton.mp hnew] at hhit
        cases hhit
    | some found =>
      simp only [hfind] at hcall ⊢
      rcases mem_append.mp hcall with hold | hnew
      · exact .inl hold
      · obtain rfl := mem_singleton.mp hnew
        cases hhit
        refine .inr ⟨(Ifnt.findMatchByNonce_eq_some hfind).1, ⟨inGeoface, rfl⟩, ?_⟩
        intro p hcreated
        exact ⟨register_created hcreated, Network.relayedEntry_strategy hcreated⟩
  | dataFromNfd inGeoface data nonceList isProducer =>
    have hdel := delivered g v inGeoface data nonceList isProducer
    rw [next] at hcall
    generalize v.reveiceData g inGeoface data nonceList isProducer = v' at hdel hcall
    cases hdel with
    | control | cleaned => exact .inl hcall
    | relayed | originated =>
      rcases mem_append.mp hcall with hold | hnew
      · exact .inl hold
      · rw [mem_singleton.mp hnew] at hhit
        cases hhit
  | fire id | addFace face | move mobility => exact .inl hcall

end ValForwarder

open ValForwarder

namespace Network

variable {ι : Type}

/-! ### Where a relay was -/

/-- A network with, for each object of each node, what the mobility model said
when the object was created. -/
abbrev Located (ι : Type) := Network ι × (ι → ℕ → Mobility)

/-- The object of the transmission says in its header what the entry says. -/
def Names (net : Network ι) (k : ι) (q : ℕ) (entry : Ifnt.Entry) : Prop :=
  q < (net.nodes k).pending.nextPtr ∧
    ((net.nodes k).pending.heap q).valPkt.valHeader.phPos = entry.phPos ∧
    ((net.nodes k).pending.heap q).valPkt.valHeader.da = entry.da

variable {net : Network ι}

theorem Names.grows {net' : Network ι} {k : ι} {q : ℕ} {entry : Ifnt.Entry}
    (h : net.Names k q entry) (hgrows : Grows net net') : net'.Names k q entry := by
  obtain ⟨hlt, hphPos, hda⟩ := h
  obtain ⟨hlt', hpkt⟩ := hgrows k q hlt
  exact ⟨hlt', hpkt ▸ hphPos, hpkt ▸ hda⟩

/-- What a call that relays says about itself: it was made outside the
destination, closer to it than the previous hop, and the header tells both. -/
def Approaches (dist : String → String → UInt32) (mobility : Mobility) (entry : Ifnt.Entry)
    (header : ValHeader) : Prop :=
  entry.da ≠ "0" → mobility.area ≠ entry.da →
    dist mobility.pos entry.da < dist entry.phPos entry.da ∧
      header.phPos = mobility.pos ∧ header.da = entry.da

/-- What holds of a node `v` of the network, given its ghosts. -/
structure HeadingAt (net : Network ι) (dist : String → String → UInt32) (v : ValForwarder)
    (source : Ifnt.Entry → Option (ι × ℕ)) (predecessor : ℕ → Option (ι × ℕ))
    (located : ℕ → Mobility) : Prop where
  ifnt : ∀ entry ∈ v.ifnt, ∀ k q, source entry = some (k, q) → net.Names k q entry
  relays : ∀ call ∈ v.calls, ∀ entry i p, call.call = .ifntHit entry i →
    call.created = some p →
      (∀ k q, predecessor p = some (k, q) → net.Names k q entry) ∧
        ∀ out, call.sent = some out → Approaches dist (located p) entry out.valPkt.valHeader

def Heading (dist : String → String → UInt32) (s : Located ι) : Prop :=
  ∀ node, s.1.HeadingAt dist (s.1.nodes node) (s.1.source node) (s.1.predecessor node) (s.2 node)

variable {v : ValForwarder} {source : Ifnt.Entry → Option (ι × ℕ)}
  {predecessor : ℕ → Option (ι × ℕ)}

theorem HeadingAt.grows {net' : Network ι} {dist : String → String → UInt32}
    {located : ℕ → Mobility} (h : net.HeadingAt dist v source predecessor located)
    (hgrows : Grows net net') :
    net'.HeadingAt dist v source predecessor located where
  ifnt entry hentry k q hsource := (h.ifnt entry hentry k q hsource).grows hgrows
  relays call hcall entry i p hhit hcreated := by
    obtain ⟨hlinked, happroaches⟩ := h.relays call hcall entry i p hhit hcreated
    exact ⟨fun k q hpred => (hlinked k q hpred).grows hgrows, happroaches⟩

/-- A new entry says what the packet that was heard says. -/
theorem HeadingAt.received {dist : String → String → UInt32} {v' : ValForwarder}
    {located : ℕ → Mobility} (h : net.HeadingAt dist v source predecessor located) {face : ℕ}
    {sender : ι} {p : ℕ} {valP : ValPacket} (htraced : (net.nodes sender).Traced)
    (hsent : net.Sent sender p valP) (hrec : Received v face valP v') :
    net.HeadingAt dist v' (fun entry => if entry ∈ v'.ifnt ∧ entry ∉ v.ifnt then
      some (sender, p) else source entry) predecessor located := by
  have hold : ∀ entry ∈ v.ifnt, ∀ k q,
      (if entry ∈ v'.ifnt ∧ entry ∉ v.ifnt then some (sender, p) else source entry) =
        some (k, q) → net.Names k q entry := by
    intro entry hentry k q hsource
    rw [if_neg fun hnew => hnew.2 hentry] at hsource
    exact h.ifnt entry hentry k q hsource
  cases hrec with
  | dropped => exact ⟨hold, h.relays⟩
  | interest i faces f2a _ _ hnew _ =>
    refine ⟨fun entry hentry k q hsource => ?_, h.relays⟩
    rcases mem_append.mp hentry with hentry' | hentry'
    · exact hold entry hentry' k q hsource
    · obtain rfl := mem_singleton.mp hentry'
      rw [if_pos ⟨hentry, hnew⟩] at hsource
      cases hsource
      obtain ⟨outFaceId, hlog⟩ := hsent
      obtain ⟨hlt, rfl⟩ := htraced.accounted.log p valP outFaceId hlog
      exact ⟨hlt, rfl, rfl⟩
  | again | data | invalid => exact ⟨hold, h.relays⟩

/-- A new relay is located where the node is. -/
theorem HeadingAt.act {g : Geometry} {located : ℕ → Mobility}
    (h : net.HeadingAt g.getDistanceToArea v source predecessor located) (htraced : v.Traced)
    {e : ValForwarder.Event} (he : e.isReception = false) :
    net.HeadingAt g.getDistanceToArea (v.next g e) source
      (fun p => if p < v.pending.nextPtr then predecessor p
        else (relayedEntry (v.next g e) p).bind source)
      (fun p => if p < v.pending.nextPtr then located p else v.mobility) where
  ifnt entry hentry := h.ifnt entry ((handed g v he).ifnt_subset hentry)
  relays call hcall entry i p hhit hcreated := by
    rcases relays_next he hcall hhit with hold | ⟨hentry, ⟨inGeoface, hsent⟩, hnew⟩
    · simp only [if_pos (htraced.created call hold p hcreated).1]
      exact h.relays call hold entry i p hhit hcreated
    · obtain ⟨rfl, hrelayed⟩ := hnew p hcreated
      simp only [lt_irrefl, if_false, hrelayed, Option.bind_some]
      refine ⟨fun k q hsource => h.ifnt entry hentry k q hsource, fun out hout => ?_⟩
      intro hknown houtside
      exact doAfterIfntHit_known hknown houtside (hsent.symm.trans hout)

/-! ### Runs -/

section Runs

variable [DecidableEq ι]

/-- The network's runs, with the places recorded. -/
def located (g : ι → Geometry) : System (Located ι) (Event ι) where
  init s := Init s.1
  guard s e := s.1.guard e
  next s e :=
    (s.1.next g e,
      match e with
      | .hear .. => s.2
      | .act node _ => Function.update s.2 node fun p =>
          if p < (s.1.nodes node).pending.nextPtr then s.2 node p
          else (s.1.nodes node).mobility)

variable {g : ι → Geometry} {s : Located ι}

theorem reachable_of_located (h : (located g).Reachable s) : (system g).Reachable s.1 := by
  refine h.simulate (N := system g) (fun s : Located ι => s.1) ?_ ?_
  · exact fun _ hinit => hinit
  · exact fun s e hguard => ⟨_, .single (M := system g) (s := s.1) (e := e) hguard⟩

/-- **The step lemma.** -/
theorem Heading.next {dist : String → String → UInt32}
    (hdist : ∀ node, (g node).getDistanceToArea = dist) (hreach : (system g).Reachable s.1)
    (h : Heading dist s) {e : Event ι} (hguard : s.1.guard e) :
    Heading dist ((located g).next s e) := by
  have htraced : ∀ node, (s.1.nodes node).Traced := fun node =>
    ValForwarder.traced_of_reachable (reachable_node hreach node)
  have hgrows := grows_next hreach hguard
  intro node
  cases e with
  | hear n face sender p valP =>
    show (s.1.next g (.hear n face sender p valP)).HeadingAt dist
      (update s.1.nodes n _ node) (update s.1.source n _ node)
      (s.1.predecessor node) (s.2 node)
    by_cases hnode : node = n
    · subst hnode
      have hnext := (h node).received (htraced sender) hguard.1
        (ValForwarder.received (s.1.nodes node) face valP)
      rw [update_self, update_self]
      exact hnext.grows hgrows
    · rw [update_of_ne hnode, update_of_ne hnode]
      exact (h node).grows hgrows
  | act n e =>
    show (s.1.next g (.act n e)).HeadingAt dist (update s.1.nodes n _ node)
      (s.1.source node) (update s.1.predecessor n _ node)
      (update s.2 n _ node)
    by_cases hnode : node = n
    · subst hnode
      have hnext := HeadingAt.act (g := g node) (hdist node ▸ h node) (htraced node) hguard.1
      rw [update_self, update_self, update_self]
      exact hdist node ▸ hnext.grows hgrows
    · rw [update_of_ne hnode, update_of_ne hnode, update_of_ne hnode]
      exact (h node).grows hgrows

theorem heading_of_reachable {dist : String → String → UInt32}
    (hdist : ∀ node, (g node).getDistanceToArea = dist) (h : (located g).Reachable s) :
    Heading dist s := by
  refine h.induction ?_ ?_
  · intro s hinit node
    obtain ⟨faces, mobility, face, -, hnode⟩ := hinit.1 node
    rw [hnode]
    constructor <;> intro _ hmem <;> cases hmem
  · exact fun t e hreach ih hguard => ih.next hdist (reachable_of_located hreach) hguard

end Runs

/-! ### Chains of relays -/

/-- A relay: the node, the object it has created and the entry it has used. -/
structure Hop (ι : Type) where
  node : ι
  object : ℕ
  entry : Ifnt.Entry

/-- The strategy was called for the entry and has created the object. -/
def Relayed (s : Located ι) (hop : Hop ι) : Prop :=
  ∃ call ∈ (s.1.nodes hop.node).calls, ∃ interest,
    call.call = .ifntHit hop.entry interest ∧ call.created = some hop.object

/-- The node was not inside the destination area when it decided. -/
def OutsideArea (s : Located ι) (hop : Hop ι) : Prop :=
  (s.2 hop.node hop.object).area ≠ hop.entry.da

/-- The entry that `hop` has used was made when a transmission of `prev` was
received. -/
def Follows (s : Located ι) (prev hop : Hop ι) : Prop :=
  s.1.predecessor hop.node hop.object = some (prev.node, prev.object)

/-- The truncated distance to the destination at the relay's decision. -/
def myDist (dist : String → String → UInt32) (s : Located ι) (hop : Hop ι) : ℕ :=
  (dist (s.2 hop.node hop.object).pos hop.entry.da).toNat

variable {s : Located ι} {dist : String → String → UInt32}

/-- What a relay that knows its destination has put into its object. -/
theorem Heading.approaches (h : Heading dist s) (htraced : ∀ node, (s.1.nodes node).Traced)
    {hop : Hop ι} (hrelayed : Relayed s hop) (hknown : hop.entry.da ≠ "0")
    (houtside : OutsideArea s hop) :
    let header := ((s.1.nodes hop.node).pending.heap hop.object).valPkt.valHeader
    dist (s.2 hop.node hop.object).pos hop.entry.da < dist hop.entry.phPos hop.entry.da ∧
      header.phPos = (s.2 hop.node hop.object).pos ∧ header.da = hop.entry.da := by
  obtain ⟨call, hcall, interest, hhit, hcreated⟩ := hrelayed
  obtain ⟨-, out, hsent, hpkt⟩ := (htraced hop.node).created call hcall _ hcreated
  have happroaches :=
    ((h hop.node).relays call hcall hop.entry interest _ hhit hcreated).2 out hsent
  rw [hpkt]
  exact happroaches hknown houtside

/-- One relay after the other: the destination is the same, the distance
smaller. -/
theorem Heading.follows (h : Heading dist s) (htraced : ∀ node, (s.1.nodes node).Traced)
    {prev hop : Hop ι} (hprev : Relayed s prev) (hknown : prev.entry.da ≠ "0")
    (houtside : OutsideArea s prev) (hrelayed : Relayed s hop) (houtside' : OutsideArea s hop)
    (hfollows : Follows s prev hop) :
    hop.entry.da = prev.entry.da ∧ myDist dist s hop < myDist dist s prev := by
  obtain ⟨-, hphPos, hda⟩ := h.approaches htraced hprev hknown houtside
  obtain ⟨call, hcall, interest, hhit, hcreated⟩ := id hrelayed
  obtain ⟨-, hphPos', hda'⟩ :=
    ((h hop.node).relays call hcall hop.entry interest _ hhit hcreated).1 _ _ hfollows
  have heq : hop.entry.da = prev.entry.da := hda'.symm.trans hda
  have hlt := (h.approaches htraced hrelayed (heq ▸ hknown) houtside').1
  refine ⟨heq, UInt32.lt_iff_toNat_lt.mp ?_⟩
  rw [← hphPos', hphPos] at hlt
  rwa [heq] at hlt ⊢

/-- A strictly decreasing list of naturals. -/
theorem length_le_of_isChain_gt {a : ℕ} {l : List ℕ} (h : (a :: l).IsChain (· > ·)) :
    l.length ≤ a := by
  induction l generalizing a with
  | nil => exact Nat.zero_le a
  | cons b l ih =>
    rw [isChain_cons_cons] at h
    have := ih h.2
    have := h.1
    simp only [length_cons]
    omega

/-- Along a chain the destination is carried and the distances decrease. -/
theorem Heading.chain (h : Heading dist s) (htraced : ∀ node, (s.1.nodes node).Traced)
    {first : Hop ι} {rest : List (Hop ι)} (hchain : (first :: rest).IsChain (Follows s))
    (hrelays : ∀ hop ∈ first :: rest, Relayed s hop ∧ OutsideArea s hop)
    (hknown : first.entry.da ≠ "0") :
    (∀ hop ∈ first :: rest, hop.entry.da = first.entry.da) ∧
      ((first :: rest).map (myDist dist s)).IsChain (· > ·) := by
  induction rest generalizing first with
  | nil => exact ⟨fun hop hhop => by rw [mem_singleton.mp hhop], isChain_singleton _⟩
  | cons hop rest ih =>
    rw [isChain_cons_cons] at hchain
    obtain ⟨⟨hrelayed, houtside⟩, hrest⟩ := forall_mem_cons.mp hrelays
    obtain ⟨hrelayed', houtside'⟩ := hrest hop mem_cons_self
    obtain ⟨hda, hlt⟩ := h.follows htraced hrelayed hknown houtside hrelayed' houtside' hchain.1
    obtain ⟨hsame, hdecreasing⟩ := ih hchain.2 hrest (hda ▸ hknown)
    refine ⟨forall_mem_cons.mpr ⟨rfl, fun hop' hhop' => ?_⟩, ?_⟩
    · exact (hsame hop' hhop').trans hda
    · rw [map_cons, map_cons, isChain_cons_cons]
      exact ⟨hlt, hdecreasing⟩

/-- Known-destination forwarding is loop-free. In a chain of relays none of which
is inside the destination, the destination is carried unchanged, also in what
the relays send, every relay decides with a smaller distance than the one
before, and so the chain has at most one more relay than the first distance. -/
theorem known_destination_loop_free [DecidableEq ι] {g : ι → Geometry}
    (hdist : ∀ node, (g node).getDistanceToArea = dist) (hreach : (located g).Reachable s)
    {first : Hop ι} {rest : List (Hop ι)} (hchain : (first :: rest).IsChain (Follows s))
    (hrelays : ∀ hop ∈ first :: rest, Relayed s hop ∧ OutsideArea s hop)
    (hknown : first.entry.da ≠ "0") :
    (∀ hop ∈ first :: rest, hop.entry.da = first.entry.da ∧
        ∀ valP, s.1.Sent hop.node hop.object valP → valP.valHeader.da = first.entry.da) ∧
      (first :: rest).IsChain (fun prev hop => myDist dist s hop < myDist dist s prev) ∧
      (first :: rest).length ≤ myDist dist s first + 1 := by
  have htraced : ∀ node, (s.1.nodes node).Traced := fun node =>
    ValForwarder.traced_of_reachable (reachable_node (reachable_of_located hreach) node)
  have hheading := heading_of_reachable hdist hreach
  obtain ⟨hsame, hdecreasing⟩ := hheading.chain htraced hchain hrelays hknown
  refine ⟨fun hop hhop => ⟨hsame hop hhop, fun valP hsent => ?_⟩, ?_, ?_⟩
  · obtain ⟨hrelayed, houtside⟩ := hrelays hop hhop
    obtain ⟨outFaceId, hlog⟩ := hsent
    obtain ⟨-, rfl⟩ := (htraced hop.node).accounted.log _ valP outFaceId hlog
    have hda := (hheading.approaches htraced hrelayed (hsame hop hhop ▸ hknown) houtside).2.2
    exact hda.trans (hsame hop hhop)
  · exact (List.isChain_map _).mp hdecreasing
  · have hlen := length_le_of_isChain_gt hdecreasing
    rw [List.length_map] at hlen
    simp only [List.length_cons]
    omega

/-! ### Two relays on the way to A9 -/

/-- The distance to A9 from the three places that matter. -/
def roadGeometry : Geometry where
  __ := ValForwarder.flatGeometry
  getDistanceToArea pos _ := if pos = "0:0:0" then 30 else if pos = "1:0:0" then 20 else 10

/-- Four nodes; the last one is in A9. -/
def road (node : Fin 4) : ValForwarder :=
  (ValForwarder.construct .empty
    ⟨["0:0:0", "1:0:0", "2:0:0", "9:0:0"].getD node "", ["A0", "A1", "A2", "A9"].getD node "",
      10000⟩).addFace ValForwarder.netFace

def roadInterest : Interest := { ValForwarder.sampleInterest with nonce := 8 }

/-- Node 0 learns of A9 from an Interest that comes from there. It then asks in
A9 for something; nodes 1 and 2 relay. -/
def roadRun : List (Event (Fin 4)) :=
  [.act 3 (.interestFromNfd 256 ValForwarder.sampleInterest),
    .act 3 (.fire 0),
    .hear 0 257 3 0 ⟨⟨"A9", "0", "9:0:0", "/a", 9⟩, .interest ValForwarder.sampleInterest⟩,
    .act 0 (.interestFromNfd 258 roadInterest),
    .act 0 (.fire 0),
    .hear 1 257 0 0 ⟨⟨"A0", "A9", "0:0:0", "/a", 9⟩, .interest roadInterest⟩,
    .act 1 (.interestFromNfd 259 roadInterest),
    .act 1 (.fire 0),
    .hear 2 257 1 0 ⟨⟨"A0", "A9", "1:0:0", "/a", 8⟩, .interest roadInterest⟩,
    .act 2 (.interestFromNfd 259 roadInterest)]

def afterRoad : Located (Fin 4) :=
  roadRun.foldl (located fun _ => roadGeometry).next
    (⟨road, fun _ _ => none, fun _ _ => none⟩, fun _ _ => ⟨"", "", 0⟩)

theorem afterRoad_reachable : (located fun _ : Fin 4 => roadGeometry).Reachable afterRoad := by
  have hinit : (located fun _ : Fin 4 => roadGeometry).Reachable
      (⟨road, fun _ _ => none, fun _ _ => none⟩, fun _ _ => ⟨"", "", 0⟩) :=
    .of_init ⟨fun _ => ⟨_, _, netFace, rfl, rfl⟩, fun _ _ => rfl, fun _ _ => rfl⟩
  refine hinit.foldl (.cons ?_ (.cons ?_ (.cons ?_ (.cons ?_ (.cons ?_ (.cons ?_ (.cons ?_
    (.cons ?_ (.cons ?_ (.cons ?_ (.nil _)))))))))))
  · exact And.intro rfl trivial
  · exact And.intro rfl ⟨⟨.forwarding, 0, 257, 0⟩, callback?_eq_some.mp rfl⟩
  · exact And.intro ⟨257, mem_singleton.mpr rfl⟩ (mem_singleton.mpr rfl)
  · exact And.intro rfl trivial
  · exact And.intro rfl ⟨⟨.forwarding, 0, 257, 0⟩, callback?_eq_some.mp rfl⟩
  · exact And.intro ⟨257, mem_singleton.mpr rfl⟩ (mem_singleton.mpr rfl)
  · exact And.intro rfl trivial
  · exact And.intro rfl ⟨⟨.forwarding, 0, 257, 10000⟩, callback?_eq_some.mp rfl⟩
  · exact And.intro ⟨257, mem_singleton.mpr rfl⟩ (mem_singleton.mpr rfl)
  · exact And.intro rfl trivial

/-- The relay at node 1, with the entry for what node 0 has sent. -/
def hopOne : Hop (Fin 4) where
  node := 1
  object := 0
  entry := ⟨"A9", "A0", 8, "0:0:0", 8, "/a", 257⟩

/-- The relay at node 2, with the entry for what node 1 has sent. -/
def hopTwo : Hop (Fin 4) where
  node := 2
  object := 0
  entry := ⟨"A9", "A0", 8, "1:0:0", 7, "/a", 257⟩

theorem known_destination_loop_free_afterRoad :
    (located fun _ : Fin 4 => roadGeometry).Reachable afterRoad ∧
      [hopOne, hopTwo].IsChain (Follows afterRoad) ∧
      (∀ hop ∈ [hopOne, hopTwo], Relayed afterRoad hop ∧ OutsideArea afterRoad hop) ∧
      [hopOne, hopTwo].IsChain (fun prev hop =>
        myDist roadGeometry.getDistanceToArea afterRoad hop <
          myDist roadGeometry.getDistanceToArea afterRoad prev) := by
  have hchain : [hopOne, hopTwo].IsChain (Follows afterRoad) := List.isChain_pair.mpr rfl
  have hrelays : ∀ hop ∈ [hopOne, hopTwo], Relayed afterRoad hop ∧ OutsideArea afterRoad hop := by
    refine List.forall_mem_cons.mpr ⟨⟨⟨_, List.mem_cons_self, _, rfl, rfl⟩, ?_⟩,
      List.forall_mem_singleton.mpr ⟨⟨_, List.mem_cons_self, _, rfl, rfl⟩, ?_⟩⟩
    · show "A1" ≠ "A9"
      decide
    · show "A2" ≠ "A9"
      decide
  exact ⟨afterRoad_reachable, hchain, hrelays,
    (known_destination_loop_free (fun _ => rfl) afterRoad_reachable hchain hrelays
      (by decide)).2.1⟩

end Network

end ValProofs
