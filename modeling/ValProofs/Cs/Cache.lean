import ValProofs.Cs.Policies

/-!
The content stores with their policies: the trie and the containers together.

Whatever is done to a content store, each container has the entries that its policy governs,
and nothing else. So how many entries there are can be read off a container, and what becomes
of them when a Data is added can be read off the answers of the policies.

An `Add` evicts one entry at most. The limit is therefore kept, but not restored when it has
been lowered. And what has been evicted for a Data is lost if a policy that is asked later
refuses the Data, which happens where the probability is asked last.
-/

namespace ValProofs

open Lib TrieWithPolicy Policies ContentStore List Function

/-- The trie and the containers of the policies, in the order in which they are asked. -/
structure Cache where
  trie : ContentStore
  policies : List Container

namespace Cache

/-- `Add(data)`. The policies are told of a node that is new. -/
def add (h : Hashing String Data) (draw : Draw) (cache : Cache) (data : Data) : Cache × Bool :=
  match cache.trie.insert h data.name data with
  | (trie, node, true) =>
      let (policies, verdict) := Policies.insert trie.payload draw node [] cache.policies
      let (trie, ok) := cache.trie.add h verdict data
      (⟨trie, policies⟩, ok)
  | (_, _, false) =>
      let (trie, ok) := cache.trie.add h ⟨[], true⟩ data
      (⟨trie, cache.policies⟩, ok)

/-- `Lookup(interest)`: a policy that is told of a node may move it. -/
def lookup (gt : ComponentOrder) (cache : Cache) (name : Name) (exclude : Exclude) :
    Cache × Option Data :=
  let policies :=
    match cache.trie.policyLookup gt name exclude with
    | some (some node) => cache.policies.map (·.lookup node)
    | _ => cache.policies
  (⟨cache.trie, policies⟩, cache.trie.lookup gt name exclude)

/-- `SetMaxSize(maxSize)`. -/
def setMaxSize (cache : Cache) (maxSize : UInt32) : Cache :=
  ⟨cache.trie, cache.policies.map fun c => { c with maxSize := maxSize.toNat }⟩

/-- `erase(node)`. -/
def erase (cache : Cache) (node : Name) : Cache :=
  ⟨TrieWithPolicy.eraseNode cache.trie (some node),
    cache.policies.map (·.erase cache.trie.payload node)⟩

/-- A content store that is made; the limit of a policy is 100 then. -/
def construct (policies : List Policy) : Cache :=
  ⟨Trie.construct "" 1 1, policies.map fun policy => ⟨policy, 100, []⟩⟩

inductive Op
  | add (data : Data) (draw : Draw)
  | lookup (gt : ComponentOrder) (name : Name) (exclude : Exclude)
  | setMaxSize (maxSize : UInt32)
  /-- An entry has expired. -/
  | erase (node : Name)

def next (h : Hashing String Data) (cache : Cache) : Op → Cache
  | .add data draw => (cache.add h draw data).1
  | .lookup gt name exclude => (cache.lookup gt name exclude).1
  | .setMaxSize maxSize => cache.setMaxSize maxSize
  | .erase node => cache.erase node

/-- What a policy does with a null pointer that it reads is not defined. Only entries are
erased. -/
def guard (cache : Cache) : Op → Prop
  | .lookup gt name exclude => cache.trie.policyLookup gt name exclude = some none →
      ∀ c ∈ cache.policies, c.policy.reads = false
  | .erase node => (cache.trie.payload node).isSome
  | _ => True

def machine (h : Hashing String Data) (policies : List Policy) : System Cache Op where
  init cache := cache = construct policies
  guard := guard
  next := next h

/-! ### The containers and the trie -/

/-- The trie is one of a content store, and the containers have what is in it. -/
structure Coherent (h : Hashing String Data) (policies : List Policy) (cache : Cache) : Prop where
  reachable : (ContentStore.machine h).Reachable cache.trie
  policies : cache.policies.map Container.policy = policies
  holds : ∀ c ∈ cache.policies, c.Holds cache.trie.payload

section

variable {h : Hashing String Data} {policies : List Policy} {cache : Cache}

theorem Coherent.filed (hcache : Coherent h policies cache) : cache.trie.Filed :=
  filed_of_reachable hcache.reachable

/-- What the policies make of a Data that is new. -/
def told (draw : Draw) (cache : Cache) (data : Data) : List Container × Verdict String :=
  Policies.insert (Function.update cache.trie.payload data.name (some data)) draw data.name []
    cache.policies

variable {data : Data}

section

variable (hcache : Coherent h policies cache)
include hcache

/-- A name that is there already: nothing happens. -/
theorem Coherent.add_of_cached (draw : Draw) (hcached : (cache.trie.payload data.name).isSome) :
    cache.add h draw data = (⟨(cache.trie.add h ⟨[], true⟩ data).1, cache.policies⟩, false) := by
  obtain ⟨-, -, hreturn, -⟩ := hcache.filed.sound.insert h data.name data
  have hok := snd_add hcache.filed.sound h ⟨[], true⟩ data
  rw [Option.isNone_eq_false_iff.mpr hcached] at hreturn hok
  rw [add]
  generalize cache.trie.insert h data.name data = result at hreturn ⊢
  obtain ⟨trie, node, isNew⟩ := result
  obtain ⟨rfl, rfl⟩ := Prod.mk.inj hreturn
  exact congrArg (Prod.mk _) hok

theorem Coherent.payload_add_of_cached (draw : Draw)
    (hcached : (cache.trie.payload data.name).isSome) :
    (cache.add h draw data).1.trie.payload = cache.trie.payload := by
  obtain ⟨old, hold⟩ := Option.isSome_iff_exists.mp hcached
  rw [hcache.add_of_cached draw hcached]
  dsimp only
  rw [fst_add, (insert_spec hcache.filed.sound h
    (Verdict.allowed_nil true _) data.name data).2, NameMap.insertWith, hold]
  rfl

section

variable (draw : Draw) (hnew : cache.trie.payload data.name = none)
include hnew

/-- A new name: the policies decide. -/
theorem Coherent.add_of_new :
    cache.add h draw data =
      (⟨(cache.trie.add h (cache.told draw data).2 data).1, (cache.told draw data).1⟩,
        (cache.told draw data).2.ok) := by
  obtain ⟨-, -, hreturn, hpayload⟩ := hcache.filed.sound.insert h data.name data
  have hok := snd_add hcache.filed.sound h (cache.told draw data).2 data
  rw [hnew] at hreturn hok
  rw [hnew, Option.isNone_none, if_pos rfl] at hpayload
  rw [told] at hok ⊢
  rw [add]
  generalize cache.trie.insert h data.name data = result at hreturn hpayload ⊢
  obtain ⟨trie, node, isNew⟩ := result
  obtain ⟨rfl, rfl⟩ := Prod.mk.inj hreturn
  rw [← hpayload] at hok ⊢
  exact congrArg (Prod.mk _) hok

/-- The policies evict entries, and have what is left. -/
theorem Coherent.told_spec :
    (∀ c ∈ (cache.told draw data).1,
        c.Holds (NameMap.insertWith (cache.told draw data).2 cache.trie.payload data.name data)) ∧
      (cache.told draw data).2.Allowed cache.trie.payload := by
  obtain ⟨hholds, hnodup, herased⟩ := insert_spec draw hnew rfl hcache.holds []
    (fun name hname => absurd hname not_mem_nil)
  refine ⟨fun c hc => ?_, hnodup, fun name hname => (herased name hname).1⟩
  rw [NameMap.insertWith, hnew, NameMap.insert, hnew]
  exact hholds c hc

theorem Coherent.payload_add_of_new :
    (cache.add h draw data).1.trie.payload =
      NameMap.insertWith (cache.told draw data).2 cache.trie.payload data.name data := by
  rw [hcache.add_of_new draw hnew]
  dsimp only
  rw [fst_add, (insert_spec hcache.filed.sound h
    (hcache.told_spec draw hnew).2 data.name data).2]

theorem Coherent.payload_add_self :
    (cache.add h draw data).1.trie.payload data.name =
      if (cache.add h draw data).2 then some data else none := by
  rw [hcache.payload_add_of_new draw hnew, hcache.add_of_new draw hnew,
    NameMap.insertWith_of_new (hcache.told_spec draw hnew).2 hnew, update_self]

end

variable {draw : Draw}

/-- The other entries are evicted, or stay as they are. -/
theorem Coherent.payload_add_of_ne {node : Name} (hne : node ≠ data.name)
    (hsome : ((cache.add h draw data).1.trie.payload node).isSome) :
    (cache.add h draw data).1.trie.payload node = cache.trie.payload node := by
  cases hold : cache.trie.payload data.name with
  | some old => rw [hcache.payload_add_of_cached draw (Option.isSome_of_eq_some hold)]
  | none =>
    rw [hcache.payload_add_of_new draw hold, NameMap.insertWith, hold, Option.isNone_none,
      if_pos rfl, NameMap.foldl_erase_apply] at hsome ⊢
    split at hsome
    · cases hsome
    · rename_i hkeeps
      rw [if_neg hkeeps]
      split
      · rw [NameMap.insert, hold, Option.isNone_none, if_pos rfl, update_of_ne hne]
      · rfl

theorem Coherent.add (draw : Draw) (data : Data) :
    Coherent h policies (cache.add h draw data).1 := by
  cases hold : cache.trie.payload data.name with
  | some old =>
    have hcached := Option.isSome_of_eq_some hold
    have hpayload := hcache.payload_add_of_cached draw hcached
    rw [hcache.add_of_cached draw hcached] at hpayload ⊢
    refine ⟨hcache.reachable.next (e := ContentStore.Op.add data ⟨[], true⟩)
      (Verdict.allowed_nil true _), hcache.policies, ?_⟩
    rw [hpayload]
    exact hcache.holds
  | none =>
    have hpayload := hcache.payload_add_of_new draw hold
    obtain ⟨hholds, hallowed⟩ := hcache.told_spec draw hold
    rw [hcache.add_of_new draw hold] at hpayload ⊢
    refine ⟨hcache.reachable.next (e := ContentStore.Op.add data (cache.told draw data).2)
      hallowed, ?_, ?_⟩
    · rw [told, map_policy_insert]
      exact hcache.policies
    · rw [hpayload]
      exact hholds

theorem Coherent.erase {node : Name}
    (hnode : (cache.trie.payload node).isSome) : Coherent h policies (cache.erase node) := by
  obtain ⟨-, hpayload⟩ :=
    eraseNode_spec hcache.filed.sound (Trie.get?_isSome_of_payload hnode)
  refine ⟨hcache.reachable.next (e := ContentStore.Op.erase node) hnode, ?_, ?_⟩
  · rw [← hcache.policies, Cache.erase, map_map]
    exact map_congr_left fun c _ => Container.policy_erase node
  · intro c hc
    obtain ⟨old, hold, rfl⟩ := mem_map.mp hc
    show (old.erase cache.trie.payload node).Holds
      (eraseNode cache.trie (some node)).payload
    rw [hpayload]
    exact (hcache.holds old hold).erase (fun _ _ => rfl) node

theorem Coherent.next {op : Op} (hguard : cache.guard op) :
    Coherent h policies (cache.next h op) := by
  cases op with
  | add data draw => exact hcache.add draw data
  | erase node => exact hcache.erase hguard
  | setMaxSize maxSize =>
    refine ⟨hcache.reachable, ?_, ?_⟩
    · rw [← hcache.policies, Cache.next, setMaxSize, map_map]
      rfl
    · intro c hc
      obtain ⟨old, hold, rfl⟩ := mem_map.mp hc
      exact ⟨(hcache.holds old hold).nodup, (hcache.holds old hold).mem_names,
        (hcache.holds old hold).sorted⟩
  | lookup gt name exclude =>
    show Coherent h policies (cache.lookup gt name exclude).1
    rw [lookup]
    dsimp only
    split
    · rename_i node _
      refine ⟨hcache.reachable, ?_, ?_⟩
      · rw [← hcache.policies, map_map]
        exact map_congr_left fun c _ => Container.policy_lookup node
      · intro c hc
        obtain ⟨old, hold, rfl⟩ := mem_map.mp hc
        exact (hcache.holds old hold).lookup node
    · exact hcache

end

/-- **The containers have what is in the trie**, whatever is done to the content store. -/
theorem coherent_of_reachable (hcache : (machine h policies).Reachable cache) :
    Coherent h policies cache := by
  refine hcache.invariant (I := Coherent h policies) ?_ fun _ _ hcache hguard => hcache.next hguard
  rintro _ rfl
  refine ⟨.of_init rfl, ?_, ?_⟩
  · rw [construct, map_map]
    exact map_id policies
  · intro c hc
    obtain ⟨policy, -, rfl⟩ := mem_map.mp hc
    refine ⟨nodup_nil, fun node => ?_, fun _ => Pairwise.nil⟩
    show node ∈ [] ↔ ((Trie.construct "" 1 1 : ContentStore).payload node).isSome ∧ _
    rw [Trie.payload_construct]
    simp

/-! ### The limit -/

/-- The names of the entries. -/
def entries (cache : Cache) : Set Name := { node | (cache.trie.payload node).isSome }

instance (cache : Cache) : DecidablePred (· ∈ cache.entries) := fun node =>
  inferInstanceAs (Decidable ((cache.trie.payload node).isSome = true))

/-- `GetMaxSize()`: of the first policy of the combination, which is asked last. -/
def getMaxSize (cache : Cache) : ℕ := cache.policies.getLast?.elim 0 Container.maxSize

/-- `GetSize()`. -/
def getSize (cache : Cache) : ℕ := cache.policies.getLast?.elim 0 fun c => c.items.length

variable {policy : Policy}

/-- A content store with one policy. -/
theorem Coherent.single (hcache : Coherent h [policy] cache) :
    ∃ value, cache.policies = [value] ∧ value.policy = policy := by
  obtain ⟨value, rest, hpolicies, hvalue, hrest⟩ := map_eq_cons_iff.mp hcache.policies
  rw [map_eq_nil_iff] at hrest
  exact ⟨value, hrest ▸ hpolicies, hvalue⟩

theorem Coherent.pair {first second : Policy} (hcache : Coherent h [first, second] cache) :
    ∃ value super, cache.policies = [value, super] ∧ value.policy = first ∧
      super.policy = second := by
  obtain ⟨value, rest, hpolicies, hvalue, hrest⟩ := map_eq_cons_iff.mp hcache.policies
  obtain ⟨super, rest, rfl, hsuper, hnil⟩ := map_eq_cons_iff.mp hrest
  rw [map_eq_nil_iff] at hnil
  exact ⟨value, super, hnil ▸ hpolicies, hvalue, hsuper⟩

theorem Coherent.ncard_entries (hcache : Coherent h [policy] cache)
    (hpolicy : policy.replaces = true) : cache.entries.ncard = cache.getSize := by
  obtain ⟨value, hvalue, rfl⟩ := hcache.single
  have hncard := (hcache.holds value (hvalue ▸ mem_singleton_self value)).ncard hpolicy
  rw [entries, hncard, getSize, hvalue]
  rfl

/-- What a single policy makes of a Data that is new. -/
theorem told_single {value : Container} (hvalue : cache.policies = [value]) (draw : Draw)
    (data : Data) :
    cache.told draw data =
      if value.refuses draw then ([value], ⟨[], false⟩)
      else
        ([(value.victim.toList.foldl (Container.erase
            (update cache.trie.payload data.name (some data))) value).push
              (update cache.trie.payload data.name (some data)) draw data.name],
          ⟨value.victim.toList, true⟩) := by
  rw [told, hvalue, insert_singleton]

/-- What an `Add` makes of the only container. -/
theorem Coherent.add_single (hcache : Coherent h [policy] cache) (hpolicy : policy.replaces = true)
    {value : Container} (hvalue : cache.policies = [value]) (draw : Draw) (data : Data) :
    ∃ after, (cache.add h draw data).1.policies = [after] ∧ after.maxSize = value.maxSize ∧
      (after.items.length = value.items.length ∨
        value.full = false ∧ after.items.length = value.items.length + 1) := by
  obtain rfl : value.policy = policy := by
    have hmap := hcache.policies
    rw [hvalue] at hmap
    exact (cons.inj hmap).1
  cases hold : cache.trie.payload data.name with
  | some old =>
    rw [hcache.add_of_cached draw (Option.isSome_of_eq_some hold)]
    exact ⟨value, hvalue, rfl, .inl rfl⟩
  | none =>
    rw [hcache.add_of_new draw hold, told_single hvalue]
    split
    · exact ⟨value, rfl, rfl, .inl rfl⟩
    · refine ⟨_, rfl, ?_, ?_⟩
      · rw [Container.maxSize_push, Container.maxSize_foldl_erase]
      · rw [Container.length_push (by rw [Container.policy_foldl_erase, hpolicy]),
          Container.length_evicted hpolicy]
        cases hfull : value.full with
        | false => exact .inr ⟨rfl, rfl⟩
        | true =>
          obtain ⟨first, rest, hitems, -⟩ := Container.victim_of_full hpolicy hfull
          left
          rw [hitems]
          rfl

/-- **The limit**: it is kept by an `Add` exactly if there were not more entries before. -/
theorem size_le_maxSize_iff {policy : Policy} (hcache : (machine h [policy]).Reachable cache)
    (hpolicy : policy.replaces = true) (draw : Draw) (data : Data) :
    (0 < (cache.add h draw data).1.getMaxSize →
        (cache.add h draw data).1.entries.ncard ≤ (cache.add h draw data).1.getMaxSize) ↔
      cache.getMaxSize = 0 ∨ cache.entries.ncard ≤ cache.getMaxSize := by
  have hcoherent := coherent_of_reachable hcache
  obtain ⟨value, hvalue, rfl⟩ := hcoherent.single
  obtain ⟨after, hafter, hmax, hlength⟩ := hcoherent.add_single hpolicy hvalue draw data
  rw [hcoherent.ncard_entries hpolicy, (hcoherent.add draw data).ncard_entries hpolicy,
    getMaxSize, getMaxSize, getSize, getSize, hafter, hvalue]
  simp only [List.getLast?_singleton, Option.elim_some, hmax]
  rcases hlength with hlength | ⟨hfull, hlength⟩
  · rw [hlength]
    omega
  · rw [hlength]
    have hroom := Container.full_eq_false_iff.mp hfull
    omega

/-- Time 0, the random order 0, and the probability is for it. -/
def sampleDraw : Draw := ⟨0, 0, true⟩

/-- `/a` and `/b` are cached when the limit is lowered to one. -/
def loweredCache : Cache :=
  [Op.add (ContentStore.sampleData ["a"]) sampleDraw,
    Op.add (ContentStore.sampleData ["b"]) sampleDraw, Op.setMaxSize 1].foldl
      (next TrieWithPolicy.Store.lastHashing) (construct [.lru])

theorem loweredCache_reachable : (machine Store.lastHashing [.lru]).Reachable loweredCache :=
  System.Reachable.foldl (.of_init rfl)
    (.cons trivial (.cons trivial (.cons trivial (.nil _))))

/-- With a limit of two, which is reached, `/c` is added. -/
theorem size_le_maxSize_iff_full :
    ((loweredCache.setMaxSize 2).add TrieWithPolicy.Store.lastHashing sampleDraw
        (ContentStore.sampleData ["c"])).1.entries.ncard ≤
      ((loweredCache.setMaxSize 2).add TrieWithPolicy.Store.lastHashing sampleDraw
        (ContentStore.sampleData ["c"])).1.getMaxSize := by
  have hguard : (machine Store.lastHashing [.lru]).guard loweredCache (.setMaxSize 2) := trivial
  have hfull := loweredCache_reachable.next hguard
  refine (size_le_maxSize_iff hfull rfl sampleDraw _).mpr (.inr ?_) (by decide)
  rw [(coherent_of_reachable hfull).ncard_entries rfl]
  decide

/-- After `/c` is added there are two entries, with a limit of one. -/
theorem size_exceeds_lowered_maxSize :
    (machine TrieWithPolicy.Store.lastHashing [.lru]).Reachable loweredCache ∧
      Policy.replaces .lru = true ∧
      ¬ (0 < (loweredCache.add TrieWithPolicy.Store.lastHashing sampleDraw
            (ContentStore.sampleData ["c"])).1.getMaxSize →
          (loweredCache.add TrieWithPolicy.Store.lastHashing sampleDraw
              (ContentStore.sampleData ["c"])).1.entries.ncard ≤
            (loweredCache.add TrieWithPolicy.Store.lastHashing sampleDraw
              (ContentStore.sampleData ["c"])).1.getMaxSize) := by
  refine ⟨loweredCache_reachable, rfl, ?_⟩
  rw [((coherent_of_reachable loweredCache_reachable).add sampleDraw
    (ContentStore.sampleData ["c"])).ncard_entries rfl]
  decide

/-! ### Data that are refused -/

/-- The policies of the content stores of the repository, in the order in which they are
asked. -/
inductive Combination : List Policy → Prop
  /-- `ContentStoreImpl<Policy>`. -/
  | single {policy : Policy} : policy.replaces = true → Combination [policy]
  /-- `ContentStoreWithFreshness<Policy>`. -/
  | withFreshness {policy : Policy} : policy.replaces = true → Combination [.freshness, policy]
  /-- `ContentStoreWithProbability<Policy>`. -/
  | withProbability {policy : Policy} :
      policy.replaces = true → Combination [policy, .probability]

/-- Containers with the same members. -/
def SameMembers (before after : List Container) : Prop :=
  List.Forall₂ (fun c c' => ∀ node, node ∈ c'.names ↔ node ∈ c.names) before after

theorem sameMembers_of_holds {m : NameMap String Data} {before after : List Container}
    (hpolicies : before.map Container.policy = after.map Container.policy)
    (hbefore : ∀ c ∈ before, c.Holds m) (hafter : ∀ c ∈ after, c.Holds m) :
    SameMembers before after := by
  induction before generalizing after with
  | nil =>
    obtain rfl := map_eq_nil_iff.mp hpolicies.symm
    exact .nil
  | cons c before ih =>
    cases after with
    | nil => cases hpolicies
    | cons c' after =>
      obtain ⟨hpolicy, hrest⟩ := cons.inj hpolicies
      refine .cons (fun node => ?_) (ih hrest
        (fun d hd => hbefore d (mem_cons_of_mem c hd))
        fun d hd => hafter d (mem_cons_of_mem c' hd))
      rw [(hafter c' mem_cons_self).mem_names, (hbefore c mem_cons_self).mem_names, hpolicy]

/-- For a Data that is refused, the entries stay if none has been evicted for it. -/
theorem Coherent.payload_add_iff (hcache : Coherent h policies cache)
    (hnew : cache.trie.payload data.name = none) (hfalse : (cache.add h draw data).2 = false) :
    (cache.add h draw data).1.trie.payload = cache.trie.payload ↔
      (cache.told draw data).2.erased = [] := by
  obtain ⟨-, hallowed⟩ := hcache.told_spec draw hnew
  rw [hcache.payload_add_of_new draw hnew, NameMap.insertWith, hnew]
  rw [hcache.add_of_new draw hnew] at hfalse
  dsimp only at hfalse
  rw [hfalse]
  simp only [Option.isNone_none, if_true, Bool.false_eq_true, if_false]
  cases herased : (cache.told draw data).2.erased with
  | nil => simp
  | cons victim rest =>
    refine iff_of_false (fun hsame => ?_) (by simp)
    have hgone := congrFun hsame victim
    rw [NameMap.foldl_erase_apply, if_pos mem_cons_self] at hgone
    have hcached := hallowed.cached victim (by rw [herased]; exact mem_cons_self)
    rw [← hgone] at hcached
    cases hcached

/-- The policy has evicted an entry for the Data before the probability refuses it. -/
def EvictsBeforeRefusal (draw : Draw) (cache : Cache) (data : Data) : Prop :=
  cache.trie.payload data.name = none ∧
    ∃ value probability, cache.policies = [value, probability] ∧
      probability.policy = .probability ∧ value.refuses draw = false ∧ value.full = true

theorem Coherent.erased_eq_nil_iff (hcache : Coherent h policies cache)
    (hpolicies : Combination policies) (hnew : cache.trie.payload data.name = none)
    (hok : (cache.told draw data).2.ok = false) :
    (cache.told draw data).2.erased = [] ↔ ¬ EvictsBeforeRefusal draw cache data := by
  rw [told] at hok ⊢
  cases hpolicies with
  | @single policy hpolicy =>
    obtain ⟨value, hvalue, -⟩ := hcache.single
    rw [hvalue] at hok ⊢
    refine iff_of_true (erased_insert_singleton hok) ?_
    rintro ⟨-, value', probability, hpair, -⟩
    rw [hvalue] at hpair
    cases hpair
  | @withFreshness policy hpolicy =>
    obtain ⟨value, super, hpair, hvalue, rfl⟩ := hcache.pair
    have hrefuses : value.refuses draw = false := by rw [Container.refuses, hvalue]
    have hvictim : value.victim = none := by rw [Container.victim, hvalue]
    rw [hpair, verdict_insert_pair, hrefuses, hvictim] at hok ⊢
    refine iff_of_true (erased_insert_singleton hok) ?_
    rintro ⟨-, value', probability, hpair', hprobability, -⟩
    rw [hpair] at hpair'
    cases hpair'
    rw [hprobability] at hpolicy
    cases hpolicy
  | @withProbability policy hpolicy =>
    obtain ⟨value, super, hpair, rfl, hsuper⟩ := hcache.pair
    rw [hpair, verdict_insert_pair] at hok ⊢
    have hiff : EvictsBeforeRefusal draw cache data ↔
        value.refuses draw = false ∧ value.full = true := by
      refine ⟨?_, fun hevicts => ⟨hnew, value, super, hpair, hsuper, hevicts⟩⟩
      rintro ⟨-, value', probability, hpair', -, hevicts⟩
      rw [hpair] at hpair'
      cases hpair'
      exact hevicts
    rw [hiff]
    cases hrefuses : value.refuses draw with
    | true => simp
    | false =>
      rw [hrefuses] at hok
      simp only [Bool.false_eq_true, if_false, true_and] at hok ⊢
      rw [erased_insert_singleton hok, append_nil]
      cases hfull : value.full with
      | false => simp [Container.victim_of_not_full hfull]
      | true =>
        obtain ⟨first, rest, -, hvictim⟩ := Container.victim_of_full hpolicy hfull
        simp [hvictim]

/-- **Data that are refused** leave everything as it is, except where an entry has been
evicted for them before. -/
theorem add_refused_frame_iff (hcache : (machine h policies).Reachable cache)
    (hpolicies : Combination policies) {draw : Draw} {data : Data}
    (hfalse : (cache.add h draw data).2 = false) :
    ((cache.add h draw data).1.trie.payload = cache.trie.payload ∧
        SameMembers cache.policies (cache.add h draw data).1.policies) ↔
      ¬ EvictsBeforeRefusal draw cache data := by
  have hcoherent := coherent_of_reachable hcache
  have hafter := hcoherent.add draw data
  have hmembers : (cache.add h draw data).1.trie.payload = cache.trie.payload →
      SameMembers cache.policies (cache.add h draw data).1.policies := by
    intro hsame
    refine sameMembers_of_holds (hcoherent.policies.trans hafter.policies.symm) hcoherent.holds ?_
    rw [← hsame]
    exact hafter.holds
  rw [and_iff_left_of_imp hmembers]
  cases hold : cache.trie.payload data.name with
  | none =>
      have hok : (cache.told draw data).2.ok = false := by
        rw [hcoherent.add_of_new draw hold] at hfalse
        exact hfalse
      exact (hcoherent.payload_add_iff hold hfalse).trans
        (hcoherent.erased_eq_nil_iff hpolicies hold hok)
  | some old =>
      refine iff_of_true (hcoherent.payload_add_of_cached draw (Option.isSome_of_eq_some hold)) ?_
      rintro ⟨hnew, -⟩
      rw [hold] at hnew
      cases hnew

/-- `/a` fills a content store with a probability. -/
def filledCache : Cache :=
  [Op.setMaxSize 1, Op.add (ContentStore.sampleData ["a"]) sampleDraw].foldl
    (next TrieWithPolicy.Store.lastHashing) (construct [.lru, .probability])

theorem filledCache_reachable :
    (machine Store.lastHashing [.lru, .probability]).Reachable filledCache :=
  System.Reachable.foldl (.of_init rfl) (.cons trivial (.cons trivial (.nil _)))

/-- `/b` is refused by the probability when there is room for it. -/
theorem add_refused_frame_iff_room :
    ((filledCache.setMaxSize 2).add TrieWithPolicy.Store.lastHashing ⟨0, 0, false⟩
        (ContentStore.sampleData ["b"])).2 = false ∧
      ((filledCache.setMaxSize 2).add TrieWithPolicy.Store.lastHashing ⟨0, 0, false⟩
        (ContentStore.sampleData ["b"])).1.trie.payload = filledCache.trie.payload := by
  have hguard : (machine Store.lastHashing [.lru, .probability]).guard filledCache
    (.setMaxSize 2) := trivial
  have hroom := filledCache_reachable.next hguard
  refine ⟨by decide, ((add_refused_frame_iff hroom (.withProbability rfl) (by decide)).mpr ?_).1⟩
  rintro ⟨-, value, probability, hpair, -, -, hfull⟩
  cases hpair
  exact absurd hfull (by decide)

/-- `/b` is refused by the probability, and `/a` is gone. -/
theorem refused_add_empties_cache :
    (machine TrieWithPolicy.Store.lastHashing [.lru, .probability]).Reachable filledCache ∧
      Combination [.lru, .probability] ∧
      (filledCache.add TrieWithPolicy.Store.lastHashing ⟨0, 0, false⟩
        (ContentStore.sampleData ["b"])).2 = false ∧
      (filledCache.trie.payload ["a"]).isSome = true ∧
      (filledCache.add TrieWithPolicy.Store.lastHashing ⟨0, 0, false⟩
        (ContentStore.sampleData ["b"])).1.trie.payload ["a"] = none :=
  ⟨filledCache_reachable, .withProbability rfl, by decide, by decide, by decide⟩

end

end Cache

end ValProofs
