import Mathlib.Logic.Function.Basic
import ValProofs.Lib.Scan
import ValProofs.Utils.Topology.AnnotatedReader

/-!
`AnnotatedTopologyReader::ApplySettings`: the settings of the links.

One `PointToPointHelper` installs all the links, and each of them sets on it the attributes that it
has. What is set stays set, so a link without an attribute gets it from the last link before that
had one. The error model is made anew for each link.
-/

namespace ValProofs

open Lib AnnotatedTopology List Function Option

/-- `ObjectFactory`: a type, and for each attribute the value that was set last. -/
structure ObjectFactory where
  typeId : List Char
  attributes : List Char → Option (List Char)

def ObjectFactory.new (typeId : List Char) : ObjectFactory := ⟨typeId, fun _ => none⟩

def ObjectFactory.setTypeId (factory : ObjectFactory) (typeId : List Char) : ObjectFactory :=
  { factory with typeId := typeId }

def ObjectFactory.set (factory : ObjectFactory) (attr value : List Char) : ObjectFactory :=
  { factory with attributes := Function.update factory.attributes attr (some value) }

/-- What is not in the repository: the tokens of a text with a separator, of which the first is
used even if there is none, when `SetQueue` throws, and what the attributes that are set, and the
defaults otherwise, mean when a link is installed; those of a queue are of its type. -/
structure Ns3 (Rate Delay Value ErrorModel : Type) where
  tokens : Char → List Char → List Char × List (List Char)
  queueType : List Char
  setQueueThrows : List Char → Bool
  rate : Option (List Char) → Rate
  delay : Option (List Char) → Delay
  queueAttribute : List Char → List Char → Option (List Char) → Value
  errorModel : Option ObjectFactory → ErrorModel

/-- The factories of a helper, as far as they are set. -/
structure PointToPointHelper where
  queueFactory : ObjectFactory
  dataRate : Option (List Char)
  delay : Option (List Char)

/-- What a link is installed with. A queue has a type, and a value for each attribute. -/
structure LinkSettings (Rate Delay Value ErrorModel : Type) where
  rate : Rate
  delay : Delay
  queueType : List Char
  queue : List Char → Value
  errorModel : ErrorModel

namespace Ns3

variable {Rate Delay Value ErrorModel : Type} (N : Ns3 Rate Delay Value ErrorModel)

def newHelper : PointToPointHelper := ⟨.new N.queueType, none, none⟩

/-- A token of the form attribute, `=`, value. -/
def assignment (token : List Char) : Option (List Char × List Char) :=
  match N.tokens '=' token with
  | (_, []) => none
  | (attr, value :: _) => some (attr, value)

/-- Tokens of another form are passed over. -/
def setToken (factory : ObjectFactory) (token : List Char) : ObjectFactory :=
  (N.assignment token).elim factory fun (attr, value) => factory.set attr value

/-- The queue of a link with `MaxPackets`. -/
def setQueue (factory : ObjectFactory) (maxPackets : List Char) : ObjectFactory :=
  if N.setQueueThrows (maxPackets ++ ['p']) then
    let (queueType, attrs) := N.tokens ',' maxPackets
    attrs.foldl N.setToken (factory.setTypeId queueType)
  else
    (factory.setTypeId "ns3::DropTailQueue<Packet>".toList).set "MaxSize".toList
      (maxPackets ++ ['p'])

/-- The attributes of a link are set on the helper. -/
def configure (p2p : PointToPointHelper) (link : Link) : PointToPointHelper where
  queueFactory := link.maxPackets.elim p2p.queueFactory (N.setQueue p2p.queueFactory)
  dataRate := link.dataRate.or p2p.dataRate
  delay := link.delay.or p2p.delay

/-- The factory of the error model of a link with `LossRate`. -/
def lossFactory (lossRate : List Char) : ObjectFactory :=
  let (modelType, attrs) := N.tokens ',' lossRate
  attrs.foldl N.setToken (.new modelType)

/-- A link is installed, and its error model is set. -/
def install (p2p : PointToPointHelper) (link : Link) :
    LinkSettings Rate Delay Value ErrorModel where
  rate := N.rate p2p.dataRate
  delay := N.delay p2p.delay
  queueType := p2p.queueFactory.typeId
  queue attr :=
    N.queueAttribute p2p.queueFactory.typeId attr (p2p.queueFactory.attributes attr)
  errorModel := N.errorModel (link.lossRate.map N.lossFactory)

/-- The loop over the links. -/
def applySettings (links : List Link) : List (LinkSettings Rate Delay Value ErrorModel) :=
  outputs N.configure N.install N.newHelper links

/-- The settings that a link has by itself. -/
def alone (link : Link) : LinkSettings Rate Delay Value ErrorModel :=
  N.install (N.configure N.newHelper link) link

/-! ### What a `MaxPackets` says -/

/-- The type of queue that a `MaxPackets` asks for. -/
def typeOf (maxPackets : List Char) : List Char :=
  if N.setQueueThrows (maxPackets ++ ['p']) then (N.tokens ',' maxPackets).1
  else "ns3::DropTailQueue<Packet>".toList

/-- The attributes of the queue that a `MaxPackets` gives a value. -/
def attributesOf (maxPackets : List Char) : List (List Char × List Char) :=
  if N.setQueueThrows (maxPackets ++ ['p']) then
    (N.tokens ',' maxPackets).2.filterMap N.assignment
  else [("MaxSize".toList, maxPackets ++ ['p'])]

variable {N}

theorem set_eq (factory : ObjectFactory) (attr value : List Char) :
    factory.set attr value =
      ⟨factory.typeId, fun a => ([(attr, value)].lookup a).or (factory.attributes a)⟩ := by
  rw [ObjectFactory.set]
  congr 1
  funext a
  by_cases hattr : a = attr
  · rw [hattr, update_self, lookup_cons_self, some_or]
  · rw [update_of_ne hattr, lookup_cons, beq_false_of_ne hattr]
    rfl

theorem foldl_setToken (tokens : List (List Char)) (factory : ObjectFactory) :
    tokens.foldl N.setToken factory =
      ⟨factory.typeId, fun attr =>
        ((tokens.filterMap N.assignment).reverse.lookup attr).or (factory.attributes attr)⟩ := by
  induction tokens using reverseRecOn with
  | nil => rfl
  | append_singleton tokens token ih =>
    rw [foldl_append, ih, foldl_cons, foldl_nil, setToken, filterMap_append, reverse_append]
    cases htoken : N.assignment token with
    | none => simp [htoken]
    | some pair =>
      simp only [filterMap_cons_some htoken, filterMap_nil, lookup_append, Option.or_assoc]
      exact set_eq _ pair.1 pair.2

/-- `MaxPackets` sets the type, and the attributes that it gives a value. -/
theorem setQueue_eq (factory : ObjectFactory) (maxPackets : List Char) :
    N.setQueue factory maxPackets =
      ⟨N.typeOf maxPackets, fun attr =>
        ((N.attributesOf maxPackets).reverse.lookup attr).or (factory.attributes attr)⟩ := by
  rw [setQueue, typeOf, attributesOf]
  split
  · exact foldl_setToken _ _
  · exact set_eq _ _ _

variable (N)

/-! ### The helper after some links -/

/-- The value that the links have given an attribute of the queue last. -/
def lastValue (links : List Link) (attr : List Char) : Option (List Char) :=
  ((links.filterMap Link.maxPackets).flatMap N.attributesOf).reverse.lookup attr

/-- The type of queue that the links have asked for last, or the default one. -/
def lastType (links : List Link) : List Char :=
  ((links.filterMap Link.maxPackets).getLast?.map N.typeOf).getD N.queueType

theorem lastValue_append (links : List Link) (link : Link) :
    N.lastValue (links ++ [link]) = fun attr =>
      ((link.maxPackets.elim [] N.attributesOf).reverse.lookup attr).or
        (N.lastValue links attr) := by
  funext attr
  cases hmax : link.maxPackets <;> simp [lastValue, hmax, lookup_append]

theorem foldl_configure (links : List Link) :
    links.foldl N.configure N.newHelper =
      ⟨⟨N.lastType links, N.lastValue links⟩, (links.filterMap Link.dataRate).getLast?,
        (links.filterMap Link.delay).getLast?⟩ := by
  induction links using reverseRecOn with
  | nil => rfl
  | append_singleton links link ih =>
    rw [foldl_append, ih]
    simp only [foldl_cons, foldl_nil, configure, filterMap_append, getLast?_append]
    congr 1
    · cases hmax : link.maxPackets with
      | none => simp [hmax, lastType, lastValue_append]
      | some maxPackets => simp [hmax, lastType, lastValue_append, setQueue_eq]
    · cases hrate : link.dataRate <;> simp [hrate]
    · cases hdelay : link.delay <;> simp [hdelay]

/-- A link to which the links before it make no difference: what it does not set has the value
that was set last before it, if any, and that means the same as the default. -/
structure Unaffected (before : List Link) (link : Link) : Prop where
  rate : link.dataRate = none → N.rate (before.filterMap Link.dataRate).getLast? = N.rate none
  delay : link.delay = none → N.delay (before.filterMap Link.delay).getLast? = N.delay none
  queueType : link.maxPackets = none → N.lastType before = N.queueType
  queue : link.maxPackets = none → ∀ attr,
    N.queueAttribute N.queueType attr (N.lastValue before attr) =
      N.queueAttribute N.queueType attr none
  maxPackets : ∀ maxPackets ∈ link.maxPackets,
    ∀ attr ∉ (N.attributesOf maxPackets).map Prod.fst,
      N.queueAttribute (N.typeOf maxPackets) attr (N.lastValue before attr) =
        N.queueAttribute (N.typeOf maxPackets) attr none

/-- An attribute that is set by the link itself has the value that the link gives it. -/
theorem queueAttribute_eq_iff (attrs : List (List Char × List Char)) (typeId attr : List Char)
    (value : Option (List Char)) :
    N.queueAttribute typeId attr ((attrs.reverse.lookup attr).or value) =
        N.queueAttribute typeId attr ((attrs.reverse.lookup attr).or none) ↔
      (attr ∉ attrs.map Prod.fst → N.queueAttribute typeId attr value =
        N.queueAttribute typeId attr none) := by
  have hiff : attrs.reverse.lookup attr = none ↔ attr ∉ attrs.map Prod.fst := by
    simp only [lookup_eq_none_iff, mem_reverse, bne_iff_ne, List.mem_map, not_exists, not_and]
    exact forall₂_congr fun _ _ => ne_comm
  rw [← hiff]
  cases attrs.reverse.lookup attr <;> simp

theorem install_eq_alone_iff (before : List Link) (link : Link) :
    N.install (N.configure (before.foldl N.configure N.newHelper) link) link = N.alone link ↔
      N.Unaffected before link := by
  rw [foldl_configure, alone, install, install, LinkSettings.mk.injEq]
  simp only [configure, newHelper, and_true]
  constructor
  · rintro ⟨hrate, hdelay, htype, hqueue⟩
    refine ⟨fun hnone => ?_, fun hnone => ?_, fun hnone => ?_, fun hnone attr => ?_,
      fun maxPackets hsome attr => ?_⟩
    · rwa [hnone] at hrate
    · rwa [hnone] at hdelay
    · rwa [hnone] at htype
    · rw [hnone] at htype hqueue
      have hattr := congrFun hqueue attr
      rwa [show N.lastType before = _ from htype] at hattr
    · rw [mem_def.mp hsome] at hqueue
      have hattr := congrFun hqueue attr
      simp only [elim_some, setQueue_eq] at hattr
      exact (N.queueAttribute_eq_iff ..).mp hattr
  · rintro ⟨hrate, hdelay, htype, hqueue, hmax⟩
    refine ⟨?_, ?_, ?_⟩
    · cases h : link.dataRate with
      | none => exact hrate h
      | some dataRate => rfl
    · cases h : link.delay with
      | none => exact hdelay h
      | some delay => rfl
    · cases h : link.maxPackets with
      | none =>
        refine ⟨htype h, funext fun attr => ?_⟩
        show N.queueAttribute (N.lastType before) attr _ = _
        rw [htype h]
        exact hqueue h attr
      | some maxPackets =>
        simp only [elim_some, setQueue_eq, true_and]
        exact funext fun attr => (N.queueAttribute_eq_iff ..).mpr (hmax maxPackets h attr)

/-- Each link has the settings that it has by itself exactly if the attributes that links before
it have left on the helper make no difference to it. -/
theorem applySettings_eq_map_iff (links : List Link) :
    N.applySettings links = links.map N.alone ↔
      ∀ before link after, links = before ++ link :: after → N.Unaffected before link := by
  rw [applySettings, outputs_eq_map_iff]
  exact forall_congr' fun before => forall_congr' fun link => forall_congr' fun after =>
    imp_congr_right fun _ => N.install_eq_alone_iff before link

/-! ### Complete links -/

/-- A link with a rate, a delay and a number of packets. -/
structure Complete (link : Link) : Prop where
  dataRate : link.dataRate ≠ none
  delay : link.delay ≠ none
  maxPackets : ∃ maxPackets, link.maxPackets = some maxPackets ∧
    N.setQueueThrows (maxPackets ++ ['p']) = false

theorem attributesOf_number {maxPackets : List Char}
    (h : N.setQueueThrows (maxPackets ++ ['p']) = false) :
    N.attributesOf maxPackets = [("MaxSize".toList, maxPackets ++ ['p'])] := by
  rw [attributesOf, h, if_neg Bool.false_ne_true]

/-- Numbers of packets set nothing but `MaxSize`. -/
theorem lastValue_of_complete {links : List Link} (h : ∀ link ∈ links, N.Complete link)
    {attr : List Char} (hattr : attr ≠ "MaxSize".toList) : N.lastValue links attr = none := by
  induction links using reverseRecOn with
  | nil => rfl
  | append_singleton links link ih =>
    obtain ⟨hlinks, hlink⟩ := forall_mem_append.mp h
    obtain ⟨maxPackets, hmax, hnumber⟩ := (hlink link (mem_singleton_self _)).maxPackets
    rw [lastValue_append, hmax, elim_some, attributesOf_number N hnumber]
    dsimp only
    rw [ih hlinks, reverse_singleton, lookup_cons, beq_false_of_ne hattr]
    rfl

/-- Links with a rate, a delay and a number of packets are configured independently. -/
theorem applySettings_of_complete {links : List Link} (h : ∀ link ∈ links, N.Complete link) :
    N.applySettings links = links.map N.alone := by
  rw [applySettings, outputs_eq_map_iff]
  rintro before link after rfl
  obtain ⟨hbefore, hrest⟩ := forall_mem_append.mp h
  have hlink := hrest link mem_cons_self
  obtain ⟨maxPackets, hmax, hnumber⟩ := hlink.maxPackets
  have hsome : link.maxPackets ≠ none := by simp [hmax]
  refine (N.install_eq_alone_iff before link).mpr ⟨fun hnone => absurd hnone hlink.dataRate,
    fun hnone => absurd hnone hlink.delay, fun hnone => absurd hnone hsome,
    fun hnone => absurd hnone hsome, fun maxPackets' hmax' attr hattr => ?_⟩
  obtain rfl : maxPackets = maxPackets' := some.inj (hmax.symm.trans hmax')
  rw [attributesOf_number N hnumber] at hattr
  rw [N.lastValue_of_complete hbefore (by simpa using hattr)]

/-- The texts themselves, for links without lists of attributes. -/
def texts : Ns3 (Option (List Char)) (Option (List Char)) (Option (List Char))
    (Option (List Char)) where
  tokens _ text := (text, [])
  queueType := "ns3::DropTailQueue<Packet>".toList
  setQueueThrows _ := false
  rate := id
  delay := id
  queueAttribute _ _ := id
  errorModel := Option.map ObjectFactory.typeId

/-- A link with a delay. -/
def slow : Link where
  fromName := "A".toList
  toName := "B".toList
  dataRate := some "1Mbps".toList
  ospf := some "1".toList
  delay := some "100ms".toList
  maxPackets := none
  lossRate := none

/-- A link without one. -/
def plain : Link where
  fromName := "B".toList
  toName := "C".toList
  dataRate := some "1Mbps".toList
  ospf := some "1".toList
  delay := none
  maxPackets := none
  lossRate := none

/-- A link without a delay gets that of the link before it, and not if it is the first. -/
theorem applySettings_delay :
    (texts.applySettings [slow, plain]).map LinkSettings.delay =
        [some "100ms".toList, some "100ms".toList] ∧
      (texts.applySettings [plain, slow]).map LinkSettings.delay =
        [none, some "100ms".toList] ∧
      texts.applySettings [slow, plain] ≠ [slow, plain].map texts.alone := by
  refine ⟨by decide, by decide, fun h => ?_⟩
  exact absurd (congrArg (map LinkSettings.delay) h) (by decide)

theorem applySettings_of_complete_slow :
    let links := [{ slow with maxPackets := some ['2'] }, { slow with maxPackets := some ['3'] }]
    texts.applySettings links = links.map texts.alone :=
  texts.applySettings_of_complete (forall_mem_cons.mpr
    ⟨⟨nofun, nofun, _, rfl, rfl⟩, forall_mem_singleton.mpr ⟨nofun, nofun, _, rfl, rfl⟩⟩)

end Ns3

end ValProofs
