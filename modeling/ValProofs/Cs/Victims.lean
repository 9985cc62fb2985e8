import ValProofs.Cs.Cache

/-!
What is evicted to make room: the entry that has not been used for the longest time, that has
been there for the longest time, or that has been looked up the least.

These are statements about the past, which the code does not keep. The state has a ledger next
to the content store, in which every `Add` and every `Lookup` is noted. The container of the
policy is in the order that the ledger gives. For the frequency this is the order of the
numbers in the hooks, and these stay at `2 ^ 53` once they have got there.
-/

namespace ValProofs

open Lib Function TrieWithPolicy.Store Container List Option

namespace Cache

/-- The names in the order of their uses. -/
structure Ledger where
  clock : ℕ
  /-- When the name was last added or looked up. -/
  used : Name → ℕ
  /-- When the name was last added. -/
  added : Name → ℕ
  /-- How often the name has been looked up since it was added. -/
  lookups : Name → ℕ

namespace Ledger

def add (ledger : Ledger) (name : Name) : Ledger where
  clock := ledger.clock + 1
  used := Function.update ledger.used name (ledger.clock + 1)
  added := Function.update ledger.added name (ledger.clock + 1)
  lookups := Function.update ledger.lookups name 0

def lookup (ledger : Ledger) (name : Name) : Ledger where
  clock := ledger.clock + 1
  used := Function.update ledger.used name (ledger.clock + 1)
  added := ledger.added
  lookups := Function.update ledger.lookups name (ledger.lookups name + 1)

end Ledger

/-- A content store whose uses are noted. -/
structure Observed where
  cache : Cache
  ledger : Ledger

namespace Observed

inductive Use
  | add (data : Data) (draw : Draw)
  | lookup (gt : ComponentOrder) (name : Name) (exclude : Exclude)

def next (h : Hashing String Data) (s : Observed) : Use → Observed
  | .add data draw =>
      ⟨(s.cache.add h draw data).1,
        if (s.cache.add h draw data).2 then s.ledger.add data.name else s.ledger⟩
  | .lookup gt name exclude =>
      ⟨(s.cache.lookup gt name exclude).1,
        match s.cache.trie.policyLookup gt name exclude with
        | some (some node) => s.ledger.lookup node
        | _ => s.ledger⟩

/-- The policy is not called with a null pointer. -/
def guard (s : Observed) : Use → Prop
  | .add _ _ => True
  | .lookup gt name exclude => s.cache.trie.policyLookup gt name exclude ≠ some none

def start (policy : Policy) (maxSize : UInt32) : Observed where
  cache := (construct [policy]).setMaxSize maxSize
  ledger := ⟨0, fun _ => 0, fun _ => 0, fun _ => 0⟩

/-- A content store with one policy and a limit that stays. -/
def machine (h : Hashing String Data) (policy : Policy) (maxSize : UInt32) :
    System Observed Use where
  init s := s = start policy maxSize
  guard := guard
  next := next h

end Observed

/-- The order in which the policy keeps the entries. -/
def Ledger.InOrder (ledger : Ledger) (items : List (Name × ℕ)) : Policy → Prop
  | .lru => (items.Pairwise fun a b => ledger.used a.1 < ledger.used b.1) ∧
      ∀ name, ledger.used name ≤ ledger.clock
  | .fifo => (items.Pairwise fun a b => ledger.added a.1 < ledger.added b.1) ∧
      ∀ name, ledger.added name ≤ ledger.clock
  | .lfu => ∀ entry ∈ items, entry.2 = min (ledger.lookups entry.1) (2 ^ 53)
  | _ => True

/-- The entry that is to be evicted. Frequencies are told apart up to `2 ^ 53`. -/
def Ledger.Rightful (ledger : Ledger) (entries : Set Name) (victim : Name) : Policy → Prop
  | .lru => ∀ other ∈ entries, other ≠ victim → ledger.used victim < ledger.used other
  | .fifo => ∀ other ∈ entries, other ≠ victim → ledger.added victim < ledger.added other
  | .lfu => ∀ other ∈ entries,
      min (ledger.lookups victim) (2 ^ 53) ≤ min (ledger.lookups other) (2 ^ 53)
  | _ => True

/-- The policies whose victims are rightful. -/
def Ranks (policy : Policy) : Prop := policy = .lru ∨ policy = .fifo ∨ policy = .lfu

theorem Ranks.replaces {policy : Policy} (h : Ranks policy) : policy.replaces = true := by
  rcases h with rfl | rfl | rfl <;> rfl

/-! ### The order of a container -/

/-- What is used now is used after everything else. -/
theorem pairwise_append_latest {stamp : Name → ℕ} {clock : ℕ} {items : List (Name × ℕ)}
    (hitems : items.Pairwise fun a b => stamp a.1 < stamp b.1) (hclock : ∀ name, stamp name ≤ clock)
    {item : Name} (hout : item ∉ items.map Prod.fst) (hook : ℕ) :
    ((items ++ [(item, hook)]).Pairwise fun a b =>
        update stamp item (clock + 1) a.1 <
          update stamp item (clock + 1) b.1) ∧
      ∀ name, update stamp item (clock + 1) name ≤ clock + 1 := by
  have hother : ∀ a ∈ items, update stamp item (clock + 1) a.1 = stamp a.1 := by
    intro a ha
    have hne : a.1 ≠ item := fun heq => hout (heq ▸ mem_map_of_mem ha)
    exact update_of_ne hne _ _
  refine ⟨pairwise_append.mpr ⟨?_, pairwise_singleton _ _, ?_⟩, fun name => ?_⟩
  · refine hitems.imp_of_mem fun ha hb hlt => ?_
    rw [hother _ ha, hother _ hb]
    exact hlt
  · intro a ha b hb
    obtain rfl := mem_singleton.mp hb
    rw [hother a ha, update_self]
    exact Nat.lt_succ_of_le (hclock a.1)
  · rw [update_apply]
    split
    · exact le_rfl
    · exact (hclock name).trans (Nat.le_succ clock)

namespace Ledger.InOrder

variable {ledger : Ledger} {policy : Policy}

theorem sublist {items items' : List (Name × ℕ)} (h : ledger.InOrder items policy)
    (hsub : items'.Sublist items) : ledger.InOrder items' policy := by
  cases policy with
  | lru | fifo => exact ⟨h.1.sublist hsub, h.2⟩
  | lfu => exact fun entry hentry => h entry (hsub.subset hentry)
  | random | freshness | probability => trivial

variable {c : Container}

/-- A new entry goes to its place. -/
theorem push (hpolicy : Ranks c.policy) (h : ledger.InOrder c.items c.policy)
    (payload : NameMap String Data) (draw : Draw) {item : Name} (hout : item ∉ c.names) :
    (ledger.add item).InOrder (c.push payload draw item).items c.policy := by
  rw [Container.push, if_pos (Container.governs_of_replaces hpolicy.replaces payload item),
    Container.place]
  rcases hpolicy with hc | hc | hc
  · rw [hc] at h ⊢
    exact pairwise_append_latest h.1 h.2 hout _
  · rw [hc] at h ⊢
    exact pairwise_append_latest h.1 h.2 hout _
  · rw [hc] at h ⊢
    intro entry hentry
    rcases (mem_orderedInsert _).mp hentry with rfl | hentry
    · simp [Ledger.add, Policy.hook]
    · have hne : entry.1 ≠ item := fun heq => hout (heq ▸ mem_map_of_mem hentry)
      have hsame : (ledger.add item).lookups entry.1 = ledger.lookups entry.1 :=
        update_of_ne hne _ _
      rw [h entry hentry, hsame]

/-- And so does an entry that is looked up. -/
theorem lookup (hpolicy : Ranks c.policy) (h : ledger.InOrder c.items c.policy)
    (hnodup : c.names.Nodup) {item : Name} (hitem : item ∈ c.names) :
    (ledger.lookup item).InOrder (c.lookup item).items c.policy := by
  have hfound : ∃ entry, (c.items.find? fun entry => entry.1 = item) = some entry := by
    obtain ⟨entry, hentry, rfl⟩ := mem_map.mp hitem
    exact ⟨entry, (find?_key_eq_some_iff hnodup).mpr ⟨hentry, rfl⟩⟩
  obtain ⟨entry, hfind⟩ := hfound
  obtain ⟨hentry, rfl⟩ := (find?_key_eq_some_iff hnodup).mp hfind
  have hout : entry.1 ∉ (eraseKey Prod.fst entry.1 c.items).map Prod.fst := by
    rw [mem_map_eraseKey hnodup]
    exact fun hmem => hmem.2 rfl
  rw [Container.lookup, hfind]
  rcases hpolicy with hc | hc | hc
  · rw [hc] at h ⊢
    dsimp only
    rw [Container.place, Container.takeOut, hc]
    exact pairwise_append_latest (h.1.sublist eraseKey_sublist) h.2 hout entry.2
  · rw [hc] at h ⊢
    exact ⟨h.1, fun name => (h.2 name).trans (Nat.le_succ _)⟩
  · rw [hc] at h ⊢
    dsimp only
    intro other hother
    rw [Container.place, Container.takeOut, hc] at hother
    rcases (mem_orderedInsert _).mp hother with rfl | hother
    · have hlookups : (ledger.lookup entry.1).lookups entry.1 = ledger.lookups entry.1 + 1 :=
        update_self _ _ _
      rw [hlookups, h entry hentry]
      exact addOne_min _
    · obtain ⟨hother, hne⟩ := (mem_eraseKey hnodup).mp hother
      have hsame : (ledger.lookup entry.1).lookups other.1 = ledger.lookups other.1 :=
        update_of_ne hne _ _
      rw [h other hother, hsame]

/-- The first of the container is the one to be evicted. -/
theorem rightful {m : NameMap String Data} (hpolicy : Ranks c.policy)
    (h : ledger.InOrder c.items c.policy) (hholds : c.Holds m) {first : Name × ℕ}
    {rest : List (Name × ℕ)} (hitems : c.items = first :: rest) :
    ledger.Rightful { node | (m node).isSome } first.1 c.policy := by
  have hentry : ∀ other, (m other).isSome → ∃ entry ∈ c.items, entry.1 = other := by
    intro other hother
    exact mem_map.mp ((hholds.mem_names other).mpr
      ⟨hother, Container.governs_of_replaces hpolicy.replaces m other⟩)
  have hrest : ∀ other, (m other).isSome → other ≠ first.1 → ∃ entry ∈ rest, entry.1 = other := by
    intro other hother hne
    obtain ⟨entry, hmem, rfl⟩ := hentry other hother
    rw [hitems] at hmem
    rcases mem_cons.mp hmem with rfl | hmem
    · exact absurd rfl hne
    · exact ⟨entry, hmem, rfl⟩
  have hsorted := hholds.sorted
  rcases hpolicy with hc | hc | hc
  · rw [hc, hitems] at h
    rw [hc]
    intro other hother hne
    obtain ⟨entry, hmem, rfl⟩ := hrest other hother hne
    exact (pairwise_cons.mp h.1).1 entry hmem
  · rw [hc, hitems] at h
    rw [hc]
    intro other hother hne
    obtain ⟨entry, hmem, rfl⟩ := hrest other hother hne
    exact (pairwise_cons.mp h.1).1 entry hmem
  · rw [hc] at h hsorted ⊢
    intro other hother
    by_cases hne : other = first.1
    · rw [hne]
    · obtain ⟨entry, hmem, rfl⟩ := hrest other hother hne
      have hle := hsorted rfl
      rw [hitems] at hle h
      rw [← h first mem_cons_self, ← h entry (mem_cons_of_mem first hmem)]
      exact (pairwise_cons.mp hle).1 entry hmem

end Ledger.InOrder

/-! ### Whole runs -/

/-- The container is in order, and within the limit. -/
structure Kept (h : Hashing String Data) (policy : Policy) (maxSize : ℕ) (s : Observed) :
    Prop where
  coherent : Coherent h [policy] s.cache
  maxSize_eq : ∀ c ∈ s.cache.policies, c.maxSize = maxSize
  length_le : ∀ c ∈ s.cache.policies, c.items.length ≤ maxSize
  inOrder : ∀ c ∈ s.cache.policies, s.ledger.InOrder c.items policy

section

variable {h : Hashing String Data} {policy : Policy} {maxSize : ℕ} {s : Observed}

/-- What is left of the container after the eviction. -/
def evicted (cache : Cache) (data : Data) (value : Container) : Container :=
  value.victim.toList.foldl
    (Container.erase (Function.update cache.trie.payload data.name (some data))) value

variable {value : Container}

/-- These policies refuse nothing: a new Data gets in. -/
theorem told_ranks {cache : Cache} (hpolicy : Ranks value.policy)
    (hvalue : cache.policies = [value]) (draw : Draw) (data : Data) :
    cache.told draw data =
      ([(evicted cache data value).push
          (update cache.trie.payload data.name (some data)) draw data.name],
        ⟨value.victim.toList, true⟩) := by
  have hrefuses : value.refuses draw = false := by
    rw [refuses]
    rcases hpolicy with hc | hc | hc <;> rw [hc]
  rw [told_single hvalue, hrefuses]
  rfl

theorem Kept.add (hs : Kept h policy maxSize s) (hpolicy : Ranks policy) (hmax : 1 ≤ maxSize)
    (data : Data) (draw : Draw) : Kept h policy maxSize (s.next h (.add data draw)) := by
  obtain ⟨value, hvalue, rfl⟩ := hs.coherent.single
  have hmem : value ∈ s.cache.policies := hvalue ▸ mem_singleton_self value
  have hcoherent := hs.coherent.add draw data
  cases hold : s.cache.trie.payload data.name with
  | some old =>
    have hadd := hs.coherent.add_of_cached draw (isSome_of_eq_some hold)
    rw [hadd] at hcoherent
    rw [Observed.next, hadd]
    exact ⟨hcoherent, hs.maxSize_eq, hs.length_le, hs.inOrder⟩
  | none =>
    have hadd := hs.coherent.add_of_new draw hold
    rw [told_ranks hpolicy hvalue] at hadd
    rw [hadd] at hcoherent
    rw [Observed.next, hadd]
    have hrest : (evicted s.cache data value).policy = value.policy := policy_foldl_erase _
    refine ⟨hcoherent, fun c hc => ?_, fun c hc => ?_, fun c hc => ?_⟩ <;>
      obtain rfl := mem_singleton.mp hc
    · rw [maxSize_push, evicted, maxSize_foldl_erase]
      exact hs.maxSize_eq value hmem
    · have hlength := hs.length_le value hmem
      rw [length_push (hrest ▸ hpolicy.replaces), evicted, length_evicted hpolicy.replaces]
      cases hfull : value.full with
      | true =>
        obtain ⟨first, rest, hitems, -⟩ := victim_of_full hpolicy.replaces hfull
        rw [hitems] at hlength ⊢
        exact hlength
      | false =>
        have hroom := full_eq_false_iff.mp hfull
        rw [hs.maxSize_eq value hmem] at hroom
        simp only [Bool.false_eq_true, if_false]
        omega
    · have hsub : (evicted s.cache data value).items.Sublist value.items :=
        foldl_erase_sublist _
      have hout : data.name ∉ (evicted s.cache data value).names := by
        intro hname
        have hin := ((hs.coherent.holds value hmem).mem_names data.name).mp
          ((hsub.map Prod.fst).subset hname)
        rw [hold] at hin
        cases hin.1
      rw [← hrest]
      refine Ledger.InOrder.push (hrest ▸ hpolicy) ?_ _ draw hout
      rw [hrest]
      exact (hs.inOrder value hmem).sublist hsub

theorem Kept.lookup (hs : Kept h policy maxSize s) (hpolicy : Ranks policy) {gt : ComponentOrder}
    {name : Name} {exclude : Exclude} (hguard : s.guard (.lookup gt name exclude)) :
    Kept h policy maxSize (s.next h (.lookup gt name exclude)) := by
  obtain ⟨value, hvalue, rfl⟩ := hs.coherent.single
  have hmem : value ∈ s.cache.policies := hvalue ▸ mem_singleton_self value
  have hcoherent := hs.coherent.next
    (show s.cache.guard (.lookup gt name exclude) from fun hnull => absurd hnull hguard)
  rw [Cache.next] at hcoherent
  rw [Observed.next]
  have hlookup : (s.cache.lookup gt name exclude).1 = ⟨s.cache.trie, _⟩ := rfl
  rw [hlookup] at hcoherent ⊢
  cases hnode : s.cache.trie.policyLookup gt name exclude with
  | none =>
    exact ⟨hs.coherent, hs.maxSize_eq, hs.length_le, hs.inOrder⟩
  | some found =>
    cases found with
    | none => exact absurd hnode hguard
    | some node =>
      rw [hnode] at hcoherent
      dsimp only at hcoherent ⊢
      rw [hvalue] at hcoherent ⊢
      have hholds := hs.coherent.holds value hmem
      have hitem := (hholds.mem_names node).mpr
        ⟨hs.coherent.filed.payload_policyLookup hnode,
          Container.governs_of_replaces hpolicy.replaces _ node⟩
      refine ⟨hcoherent, fun c hc => ?_, fun c hc => ?_, fun c hc => ?_⟩ <;>
        obtain rfl := mem_singleton.mp hc
      · rw [maxSize_lookup]
        exact hs.maxSize_eq value hmem
      · rw [length_lookup]
        exact hs.length_le value hmem
      · exact (hs.inOrder value hmem).lookup hpolicy hholds.nodup hitem

theorem kept_of_reachable {limit : UInt32} (hpolicy : Ranks policy) (hlimit : 1 ≤ limit)
    (hs : (Observed.machine h policy limit).Reachable s) : Kept h policy limit.toNat s := by
  refine hs.invariant (I := Kept h policy limit.toNat) ?_ ?_
  · rintro _ rfl
    refine ⟨coherent_of_reachable ((System.Reachable.of_init rfl).next
      (e := Op.setMaxSize limit) trivial), fun c hc => ?_, fun c hc => ?_, fun c hc => ?_⟩ <;>
      obtain rfl := mem_singleton.mp hc
    · rfl
    · exact Nat.zero_le _
    · rcases hpolicy with rfl | rfl | rfl
      · exact ⟨Pairwise.nil, fun name => le_rfl⟩
      · exact ⟨Pairwise.nil, fun name => le_rfl⟩
      · exact fun entry hentry => absurd hentry not_mem_nil
  · intro s use hs hguard
    cases use with
    | add data draw => exact hs.add hpolicy (UInt32.le_iff_toNat_le.mp hlimit) data draw
    | lookup gt name exclude => exact hs.lookup hpolicy hguard

/-- The entries after a new Data has been added. -/
theorem Kept.payload_add (hs : Kept h policy maxSize s) (hpolicy : Ranks policy)
    (hvalue : s.cache.policies = [value]) {data : Data}
    (hnew : s.cache.trie.payload data.name = none) (draw : Draw) (node : Name) :
    (s.cache.add h draw data).1.trie.payload node =
      if value.victim = some node then none
      else if node = data.name then some data else s.cache.trie.payload node := by
  have hranks : Ranks value.policy := by
    obtain ⟨value', hvalue', rfl⟩ := hs.coherent.single
    obtain rfl : value' = value := singleton_inj.mp (hvalue'.symm.trans hvalue)
    exact hpolicy
  rw [hs.coherent.payload_add_of_new draw hnew, told_ranks hranks hvalue, NameMap.insertWith, hnew]
  simp only [isNone_none, if_true, NameMap.foldl_erase_apply, NameMap.insert, hnew,
    update_apply, mem_toList]

/-- What is evicted is in the container, so it is not the new Data. -/
theorem Kept.payload_victim (hs : Kept h policy maxSize s) (hvalue : s.cache.policies = [value])
    {victim : Name} (hvictim : value.victim = some victim) : (s.cache.trie.payload victim).isSome :=
  (((hs.coherent.holds value (hvalue ▸ mem_singleton_self value)).mem_names victim).mp
    (victim_mem hvictim)).1

theorem Kept.diff_entries (hs : Kept h policy maxSize s) (hpolicy : Ranks policy)
    (hvalue : s.cache.policies = [value]) {data : Data}
    (hnew : s.cache.trie.payload data.name = none) (draw : Draw) :
    s.cache.entries \ (s.cache.add h draw data).1.entries =
      { node | value.victim = some node } := by
  ext node
  have hpayload := hs.payload_add hpolicy hvalue hnew draw node
  rw [Set.mem_sdiff, Set.mem_ofPred_eq, entries, entries, Set.mem_ofPred_eq, Set.mem_ofPred_eq,
    hpayload]
  constructor
  · rintro ⟨hin, hout⟩
    by_contra hvictim
    rw [if_neg hvictim] at hout
    split at hout
    · exact hout rfl
    · exact hout hin
  · intro hvictim
    rw [if_pos hvictim]
    exact ⟨hs.payload_victim hvalue hvictim, by simp⟩

/-- **The policies keep the right entries**: all entries are in the container, the limit is
kept, and what is lost when a Data is added is one entry, the rightful one. -/
theorem replacement_rightful {limit : UInt32} (hpolicy : Ranks policy) (hlimit : 1 ≤ limit)
    (hs : (Observed.machine h policy limit).Reachable s) :
    (∃ c, s.cache.policies = [c] ∧ c.names.Nodup ∧
        ∀ node, node ∈ c.names ↔ node ∈ s.cache.entries) ∧
      ∀ data draw, (s.cache.add h draw data).1.getSize ≤ limit.toNat ∧
        data.name ∈ (s.cache.add h draw data).1.entries ∧
        ((s.cache.add h draw data).2 = true →
          (s.cache.add h draw data).1.trie.payload data.name = some data) ∧
        ∀ victim ∈ s.cache.entries \ (s.cache.add h draw data).1.entries,
          s.cache.entries \ (s.cache.add h draw data).1.entries = {victim} ∧
            s.ledger.Rightful s.cache.entries victim policy := by
  have hkept := kept_of_reachable hpolicy hlimit hs
  obtain ⟨value, hvalue, rfl⟩ := hkept.coherent.single
  have hmem : value ∈ s.cache.policies := hvalue ▸ List.mem_singleton_self value
  have hholds := hkept.coherent.holds value hmem
  refine ⟨⟨value, hvalue, hholds.nodup, fun node => ?_⟩, fun data draw => ⟨?_, ?_⟩⟩
  · rw [hholds.mem_names, Container.governs_of_replaces hpolicy.replaces]
    exact and_iff_left rfl
  · have hafter := hkept.add hpolicy (UInt32.le_iff_toNat_le.mp hlimit) data draw
    obtain ⟨after, hpolicies, -⟩ := hafter.coherent.single
    have hlength := hafter.length_le after (hpolicies ▸ List.mem_singleton_self after)
    have hsize : (s.cache.add h draw data).1.policies = [after] := hpolicies
    rw [getSize, hsize]
    exact hlength
  · cases hold : s.cache.trie.payload data.name with
    | some old =>
        have hcached := Option.isSome_of_eq_some hold
        have hsame := hkept.coherent.payload_add_of_cached draw hcached
        have hok : (s.cache.add h draw data).2 = false := by
          rw [hkept.coherent.add_of_cached draw hcached]
        rw [entries, entries, hsame, hok, Set.sdiff_self]
        exact ⟨hcached, fun hok => absurd hok Bool.false_ne_true,
          fun victim hvictim => absurd hvictim (Set.notMem_empty victim)⟩
    | none =>
        have hself := hkept.payload_add hpolicy hvalue hold draw data.name
        have hname : value.victim ≠ some data.name := by
          intro hvictim
          have hsome := hkept.payload_victim hvalue hvictim
          rw [hold] at hsome
          cases hsome
        rw [if_neg hname, if_pos rfl] at hself
        refine ⟨Option.isSome_of_eq_some hself, fun _ => hself, ?_⟩
        rw [hkept.diff_entries hpolicy hvalue hold draw]
        intro victim hvictim
        have hfull : value.full = true := by
          by_contra hfull
          rw [Set.mem_ofPred_eq,
            Container.victim_of_not_full (Bool.eq_false_iff.mpr hfull)] at hvictim
          cases hvictim
        obtain ⟨first, rest, hitems, hfirst⟩ := Container.victim_of_full hpolicy.replaces hfull
        rw [Set.mem_ofPred_eq, hfirst] at hvictim
        obtain rfl : first.1 = victim := Option.some.inj hvictim
        refine ⟨?_, (hkept.inOrder value hmem).rightful hpolicy hholds hitems⟩
        ext node
        rw [Set.mem_ofPred_eq, Set.mem_singleton_iff, hfirst, Option.some.injEq, eq_comm]

end

/-- `/a` and `/b` fill a content store with the policy LFU. -/
def filledObserved : Observed :=
  [Observed.Use.add (ContentStore.sampleData ["a"]) sampleDraw,
    Observed.Use.add (ContentStore.sampleData ["b"]) sampleDraw].foldl
      (Observed.next TrieWithPolicy.Store.lastHashing) (Observed.start .lfu 2)

theorem filledObserved_reachable : (Observed.machine lastHashing .lfu 2).Reachable filledObserved :=
  System.Reachable.foldl (.of_init rfl) (.cons trivial (.cons trivial (.nil _)))

/-- `/a` is evicted for `/c`. -/
theorem replacement_rightful_filled :
    filledObserved.ledger.Rightful filledObserved.cache.entries ["a"] .lfu :=
  (((replacement_rightful (.inr (.inr rfl)) (by decide) filledObserved_reachable).2
    (ContentStore.sampleData ["c"]) sampleDraw).2.2.2 ["a"] ⟨by decide, by decide⟩).2

/-! ### A frequency that is not counted any more -/

/-- `/a` and `/b` have been looked up so often. -/
structure Counted (s : Observed) (c : Container) (a b : ℕ) : Prop where
  reachable : (Observed.machine TrieWithPolicy.Store.lastHashing .lfu 2).Reachable s
  trie : s.cache.trie = filledObserved.cache.trie
  policies : s.cache.policies = [c]
  lookups_a : s.ledger.lookups ["a"] = a
  lookups_b : s.ledger.lookups ["b"] = b

/-- An Interest for a name. -/
def lookupOf (name : Name) : Observed.Use := .lookup (fun _ _ => false) name ⟨[]⟩

theorem Ledger.lookups_lookup (ledger : Ledger) (name other : Name) :
    (ledger.lookup name).lookups other = ledger.lookups other + if other = name then 1 else 0 := by
  rw [Ledger.lookup]
  dsimp only
  rw [update_apply]
  split
  · rename_i hother
    rw [hother]
  · rfl

theorem Counted.lookup {s : Observed} {c : Container} {a b : ℕ} (hs : Counted s c a b)
    (name : Name)
    (hname : filledObserved.cache.trie.policyLookup (fun _ _ => false) name ⟨[]⟩ =
      some (some name)) :
    Counted (s.next lastHashing (lookupOf name)) (c.lookup name)
      (a + if ["a"] = name then 1 else 0) (b + if ["b"] = name then 1 else 0) := by
  rw [← hs.trie] at hname
  have hledger : (s.next lastHashing (lookupOf name)).ledger =
      s.ledger.lookup name := by
    rw [lookupOf, Observed.next]
    dsimp only
    rw [hname]
  have hpolicies : (s.next lastHashing (lookupOf name)).cache.policies =
      [c.lookup name] := by
    rw [lookupOf, Observed.next, Cache.lookup]
    dsimp only
    rw [hname, hs.policies]
    rfl
  refine ⟨hs.reachable.next (e := lookupOf name) ?_, hs.trie, hpolicies, ?_, ?_⟩
  · show s.cache.trie.policyLookup _ name _ ≠ some none
    rw [hname]
    simp
  · rw [hledger, Ledger.lookups_lookup, hs.lookups_a]
  · rw [hledger, Ledger.lookups_lookup, hs.lookups_b]

theorem lookup_last (k : ℕ) :
    Container.lookup ⟨.lfu, 2, [(["b"], 0), (["a"], k)]⟩ ["a"] =
      ⟨.lfu, 2, [(["b"], 0), (["a"], addOne k)]⟩ := by
  simp [Container.lookup, Container.takeOut, Container.place, Policy.multiset, eraseKey]

theorem lookup_first (k l : ℕ) :
    Container.lookup ⟨.lfu, 2, [(["b"], k), (["a"], l)]⟩ ["b"] =
      ⟨.lfu, 2, if addOne k < l then [(["b"], addOne k), (["a"], l)]
        else [(["a"], l), (["b"], addOne k)]⟩ := by
  simp [Container.lookup, Container.takeOut, Container.place, Policy.multiset, eraseKey]

/-- As long as `/b` is not looked up, `/a` is behind it. -/
theorem exists_counted_a (n : ℕ) :
    ∃ s, Counted s ⟨.lfu, 2, [(["b"], 0), (["a"], min (n + 1) (2 ^ 53))]⟩ (n + 1) 0 := by
  induction n with
  | zero =>
    have hstart : Counted filledObserved ⟨.lfu, 2, [(["a"], 0), (["b"], 0)]⟩ 0 0 :=
      ⟨filledObserved_reachable, rfl, by decide, by decide, by decide⟩
    exact ⟨_, hstart.lookup ["a"] (by decide)⟩
  | succ n ih =>
    obtain ⟨s, hs⟩ := ih
    have hnext := hs.lookup ["a"] (by decide)
    rw [lookup_last, addOne_min] at hnext
    exact ⟨_, hnext⟩

/-- `/b` stays before `/a` until it has been looked up as often as can be counted. -/
theorem exists_counted_b {n : ℕ} (hn : n < 2 ^ 53) :
    ∃ s, Counted s ⟨.lfu, 2, [(["b"], n), (["a"], 2 ^ 53)]⟩ (2 ^ 53 + 1) n := by
  induction n with
  | zero =>
    obtain ⟨s, hs⟩ := exists_counted_a (2 ^ 53)
    rw [min_eq_right (Nat.le_succ _)] at hs
    exact ⟨s, hs⟩
  | succ n ih =>
    obtain ⟨s, hs⟩ := ih (by omega)
    have hnext := hs.lookup ["b"] (by decide)
    rw [lookup_first, addOne_of_lt (by omega), if_pos hn] at hnext
    exact ⟨_, hnext⟩

/-- `/a` has been looked up more often than `/b`, and is evicted for `/c`. -/
theorem lfu_victim_more_frequent :
    ∃ s : Observed, (Observed.machine TrieWithPolicy.Store.lastHashing .lfu 2).Reachable s ∧
      ["a"] ∈ s.cache.entries \ (s.cache.add TrieWithPolicy.Store.lastHashing sampleDraw
        (ContentStore.sampleData ["c"])).1.entries ∧
      ["b"] ∈ s.cache.entries ∧ s.ledger.lookups ["b"] < s.ledger.lookups ["a"] := by
  obtain ⟨s, hs⟩ := exists_counted_b (n := 2 ^ 53 - 1) (by decide)
  have hnext := hs.lookup ["b"] (by decide)
  have hone : addOne (2 ^ 53 - 1) = 2 ^ 53 := by decide
  rw [lookup_first, hone, if_neg (lt_irrefl _)] at hnext
  generalize s.next TrieWithPolicy.Store.lastHashing (lookupOf ["b"]) = s' at hnext
  have hkept := kept_of_reachable (.inr (.inr rfl)) (by decide) hnext.reachable
  have hnew : s'.cache.trie.payload (ContentStore.sampleData ["c"]).name = none := by
    rw [hnext.trie]
    decide
  refine ⟨s', hnext.reachable, ?_, ?_, ?_⟩
  · rw [hkept.diff_entries (.inr (.inr rfl)) hnext.policies hnew]
    decide
  · show (s'.cache.trie.payload ["b"]).isSome
    rw [hnext.trie]
    decide
  · rw [hnext.lookups_a, hnext.lookups_b]
    decide

end Cache

end ValProofs
