import ValProofs.Cs.Cache

/-!
The content stores that drop stale Data: `ContentStoreWithFreshness`.

The policy for the freshness keeps the Data with a freshness period in the order of their
expiry. An event that removes what has expired is scheduled for the first of them, and the
time of this event is remembered. It is looked at again when a Data is added: a new event is
scheduled if none has been, or if the first expiry is before the remembered time.

When the last of these Data is evicted the event is removed, but its time is not forgotten.
A Data that comes after that, and that does not expire before this time, gets no event, and
stays. Until that happens no Data is returned after it has expired.
-/

namespace ValProofs

open Lib List Option Function

/-- The content store, with the simulated time and the event. -/
structure FreshStore where
  cache : Cache
  now : ℕ
  /-- When `m_cleanEvent` is to run, if it is running. -/
  cleanEvent : Option ℕ
  /-- `m_scheduledCleaningTime`. -/
  scheduledCleaningTime : ℕ
  /-- When a name was last added, which the code does not keep. -/
  addedAt : Name → ℕ

namespace FreshStore

/-- The container of the policy for the freshness, which is asked first. -/
def freshness (s : FreshStore) : List (Name × ℕ) := s.cache.policies.head?.elim [] Container.items

/-- `RescheduleCleaning()`. -/
def rescheduleCleaning (s : FreshStore) : FreshStore :=
  match s.freshness with
  | (_, nextStateTime) :: _ =>
      if s.scheduledCleaningTime = 0 ∨ nextStateTime < s.scheduledCleaningTime then
        { s with
          cleanEvent := some (s.now + (nextStateTime - s.now))
          scheduledCleaningTime := nextStateTime }
      else s
  | [] => { s with cleanEvent := none }

/-- `Add(data)`. -/
def add (h : Hashing String Data) (s : FreshStore) (data : Data) (order : UInt32)
    (accepts : Bool) : FreshStore :=
  let (cache, ok) := s.cache.add h ⟨s.now, order, accepts⟩ data
  if ok then
    rescheduleCleaning
      { s with cache := cache, addedAt := Function.update s.addedAt data.name s.now }
  else { s with cache := cache }

/-- The loop of `CleanExpired()`; every turn erases an entry. -/
def eraseStale : ℕ → FreshStore → FreshStore
  | 0, s => s
  | turns + 1, s =>
      match s.freshness with
      | [] => s
      | entry :: _ =>
          if entry.2 ≤ s.now then eraseStale turns { s with cache := s.cache.erase entry.1 } else s

/-- `CleanExpired()`. The event has run. -/
def cleanExpired (s : FreshStore) : FreshStore :=
  rescheduleCleaning
    { eraseStale s.freshness.length { s with cleanEvent := none } with scheduledCleaningTime := 0 }

inductive Op
  | add (data : Data) (order : UInt32) (accepts : Bool)
  | lookup (gt : ComponentOrder) (name : Name) (exclude : Exclude)
  | setMaxSize (maxSize : UInt32)
  /-- Time goes on. -/
  | elapse (time : ℕ)
  /-- The event runs. -/
  | clean

def next (h : Hashing String Data) (s : FreshStore) : Op → FreshStore
  | .add data order accepts => s.add h data order accepts
  | .lookup gt name exclude => { s with cache := (s.cache.lookup gt name exclude).1 }
  | .setMaxSize maxSize => { s with cache := s.cache.setMaxSize maxSize }
  | .elapse time => { s with now := time }
  | .clean => s.cleanExpired

/-- The event runs at its time, so time does not go on beyond it. -/
def guard (s : FreshStore) : Op → Prop
  | .lookup gt name exclude => s.cache.guard (.lookup gt name exclude)
  | .elapse time => s.now ≤ time ∧ ∀ event ∈ s.cleanEvent, time ≤ event
  | .clean => s.cleanEvent = some s.now
  | _ => True

def start (policy : Policy) : FreshStore where
  cache := Cache.construct [.freshness, policy]
  now := 0
  cleanEvent := none
  scheduledCleaningTime := 0
  addedAt _ := 0

def machine (h : Hashing String Data) (policy : Policy) : System FreshStore Op where
  init s := s = start policy
  guard := guard
  next := next h

/-! ### The times in the container -/

/-- The times in the container are those at which its Data expire. -/
structure Stamped (h : Hashing String Data) (policy : Policy) (s : FreshStore) : Prop where
  coherent : Cache.Coherent h [.freshness, policy] s.cache
  expiry : ∀ entry ∈ s.freshness, ∃ data, s.cache.trie.payload entry.1 = some data ∧
    entry.2 = s.addedAt entry.1 + data.freshnessPeriod * 1000000

section

variable {h : Hashing String Data} {policy : Policy} {s : FreshStore}

theorem Stamped.congr {s' : FreshStore} (hs : Stamped h policy s) (hcache : s'.cache = s.cache)
    (hadded : s'.addedAt = s.addedAt) : Stamped h policy s' := by
  have hfreshness : s'.freshness = s.freshness := by rw [freshness, freshness, hcache]
  refine ⟨hcache ▸ hs.coherent, ?_⟩
  rw [hfreshness, hcache, hadded]
  exact hs.expiry

section

variable (hs : Cache.Coherent h [.freshness, policy] s.cache)
include hs

/-- The container of the policy for the freshness. -/
theorem container :
    ∃ value super, s.cache.policies = [value, super] ∧ value.policy = .freshness ∧
      s.freshness = value.items ∧ value.Holds s.cache.trie.payload := by
  obtain ⟨value, super, hpair, hvalue, -⟩ := hs.pair
  refine ⟨value, super, hpair, hvalue, ?_, hs.holds value ?_⟩
  · rw [freshness, hpair]
    rfl
  · rw [hpair]
    exact mem_cons_self

theorem sorted_freshness : s.freshness.Pairwise fun a b => a.2 ≤ b.2 := by
  obtain ⟨value, super, -, hvalue, hitems, hholds⟩ := container hs
  rw [hitems]
  exact hholds.sorted (by rw [hvalue]; rfl)

/-- The Data that have a freshness period are in the container. -/
theorem mem_freshness {node : Name} :
    node ∈ s.freshness.map Prod.fst ↔
      ∃ data, s.cache.trie.payload node = some data ∧ 0 < data.freshnessPeriod := by
  obtain ⟨value, super, -, hvalue, hitems, hholds⟩ := container hs
  rw [hitems]
  refine (hholds.mem_names node).trans ?_
  rw [hvalue, Policy.governs]
  cases s.cache.trie.payload node <;> simp

end

variable {entry : Name × ℕ}

theorem Stamped.expiry_pos (hs : Stamped h policy s) (hentry : entry ∈ s.freshness) :
    entry.2 ≠ 0 := by
  obtain ⟨data, hdata, htime⟩ := hs.expiry entry hentry
  obtain ⟨data', hdata', hpos⟩ := (mem_freshness hs.coherent).mp (mem_map_of_mem hentry)
  obtain rfl : data = data' := some.inj (hdata.symm.trans hdata')
  omega

theorem cache_rescheduleCleaning : s.rescheduleCleaning.cache = s.cache := by
  rw [rescheduleCleaning]
  split
  · split <;> rfl
  · rfl

theorem addedAt_rescheduleCleaning : s.rescheduleCleaning.addedAt = s.addedAt := by
  rw [rescheduleCleaning]
  split
  · split <;> rfl
  · rfl

theorem rescheduleCleaning_of_keeps {first : Name × ℕ} {rest : List (Name × ℕ)}
    (hitems : s.freshness = first :: rest)
    (hkeeps : ¬ (s.scheduledCleaningTime = 0 ∨ first.2 < s.scheduledCleaningTime)) :
    s.rescheduleCleaning = s := by
  rw [rescheduleCleaning, hitems]
  exact if_neg hkeeps

theorem Stamped.rescheduleCleaning (hs : Stamped h policy s) :
    Stamped h policy s.rescheduleCleaning :=
  hs.congr cache_rescheduleCleaning addedAt_rescheduleCleaning

/-! ### The event -/

/-- The event is pending, for the remembered time, and not too late; or there is nothing to
wait for. -/
def Scheduled (s : FreshStore) : Prop :=
  s.cleanEvent = none ∧ s.freshness = [] ∨
    s.cleanEvent = some s.scheduledCleaningTime ∧ s.now ≤ s.scheduledCleaningTime ∧
      s.scheduledCleaningTime ≠ 0 ∧ ∀ entry ∈ s.freshness, s.scheduledCleaningTime ≤ entry.2

theorem Scheduled.now_le (hs : Scheduled s) (hentry : entry ∈ s.freshness) : s.now ≤ entry.2 := by
  rcases hs with ⟨-, hempty⟩ | ⟨-, hnow, -, hall⟩
  · rw [hempty] at hentry
    cases hentry
  · exact hnow.trans (hall entry hentry)

/-- `RescheduleCleaning()` does what it is for, unless a time is remembered that is not that
of an event. -/
theorem Stamped.scheduled (hs : Stamped h policy s)
    (hnow : ∀ entry ∈ s.freshness, s.now ≤ entry.2)
    (hremembered : s.scheduledCleaningTime ≠ 0 →
      (∀ entry ∈ s.freshness, s.scheduledCleaningTime ≤ entry.2) → s.freshness ≠ [] →
      s.cleanEvent = some s.scheduledCleaningTime ∧ s.now ≤ s.scheduledCleaningTime) :
    Scheduled s.rescheduleCleaning := by
  have hsorted := sorted_freshness hs.coherent
  have hfreshness : s.rescheduleCleaning.freshness = s.freshness := by
    rw [freshness, freshness, cache_rescheduleCleaning]
  rw [Scheduled, hfreshness, FreshStore.rescheduleCleaning]
  cases hitems : s.freshness with
  | nil => exact .inl ⟨rfl, rfl⟩
  | cons first rest =>
    have hmem : first ∈ s.freshness := hitems ▸ mem_cons_self
    rw [hitems] at hsorted
    have hfirst : ∀ entry ∈ first :: rest, first.2 ≤ entry.2 := by
      intro entry hentry
      rcases mem_cons.mp hentry with rfl | hentry
      · exact le_rfl
      · exact (pairwise_cons.mp hsorted).1 entry hentry
    right
    dsimp only
    split
    · dsimp only
      rw [Nat.add_sub_cancel' (hnow first hmem)]
      exact ⟨rfl, hnow first hmem, hs.expiry_pos hmem, hfirst⟩
    · rename_i hkeeps
      rw [not_or, not_lt] at hkeeps
      have hall : ∀ entry ∈ first :: rest, s.scheduledCleaningTime ≤ entry.2 :=
        fun entry hentry => hkeeps.2.trans (hfirst entry hentry)
      obtain ⟨hevent, hlater⟩ := hremembered hkeeps.1 (hitems ▸ hall) (by rw [hitems]; simp)
      exact ⟨hevent, hlater, hkeeps.1, hall⟩

/-! ### Adding -/

/-- The content store after `super::Add(data)`, before the event is looked at. -/
def stored (h : Hashing String Data) (s : FreshStore) (data : Data) (draw : Draw) : FreshStore :=
  { s with
    cache := (s.cache.add h draw data).1
    addedAt :=
      if (s.cache.add h draw data).2 then Function.update s.addedAt data.name s.now
      else s.addedAt }

theorem add_eq (data : Data) (order : UInt32) (accepts : Bool) :
    s.add h data order accepts =
      if (s.cache.add h ⟨s.now, order, accepts⟩ data).2 then
        (s.stored h data ⟨s.now, order, accepts⟩).rescheduleCleaning
      else s.stored h data ⟨s.now, order, accepts⟩ := by
  rw [add, stored]
  dsimp only
  split <;> rfl

variable {data : Data}

/-- An entry of the container was there before, or is the new one. -/
theorem Stamped.mem_stored (hs : Stamped h policy s) {draw : Draw} (hdraw : draw.now = s.now)
    (hentry : entry ∈ (s.stored h data draw).freshness) :
    entry ∈ s.freshness ∨
      (s.cache.trie.payload data.name = none ∧ (s.cache.add h draw data).2 = true ∧
        0 < data.freshnessPeriod) ∧
        entry = (data.name, s.now + data.freshnessPeriod * 1000000) := by
  obtain ⟨value, super, hpair, hvalue, hitems, -⟩ := container hs.coherent
  obtain ⟨data', hdata', hpos⟩ :=
    (mem_freshness (s := s.stored h data draw) (hs.coherent.add draw data)).mp
      (mem_map_of_mem hentry)
  cases hold : s.cache.trie.payload data.name with
  | some old =>
    rw [freshness, stored, hs.coherent.add_of_cached draw (isSome_of_eq_some hold)] at hentry
    exact .inl hentry
  | none =>
    obtain ⟨value', super', hcons, hmem⟩ := Policies.exists_insert_cons
      (update s.cache.trie.payload data.name (some data)) draw data.name [] value
      [super]
    rw [freshness, stored, hs.coherent.add_of_new draw hold, Cache.told, hpair, hcons] at hentry
    rcases hmem entry hentry with hmem | rfl
    · rw [hitems]
      exact .inl hmem
    · have hself : (s.stored h data draw).cache.trie.payload data.name = _ :=
        hs.coherent.payload_add_self _ hold
      rw [hself] at hdata'
      split at hdata'
      · rename_i hok
        obtain rfl : data = data' := some.inj hdata'
        refine .inr ⟨⟨rfl, hok, hpos⟩, ?_⟩
        rw [hvalue, Policy.hook, update_self, hdraw]
        rfl
      · cases hdata'

theorem Stamped.stored (hs : Stamped h policy s) (data : Data) {draw : Draw}
    (hdraw : draw.now = s.now) : Stamped h policy (s.stored h data draw) := by
  have hcoherent : Cache.Coherent h [.freshness, policy] (s.stored h data draw).cache :=
    hs.coherent.add draw data
  refine ⟨hcoherent, fun entry hentry => ?_⟩
  obtain ⟨data', hdata', -⟩ := (mem_freshness hcoherent).mp (mem_map_of_mem hentry)
  refine ⟨data', hdata', ?_⟩
  rw [FreshStore.stored] at hdata' ⊢
  dsimp only at hdata' ⊢
  rcases hs.mem_stored hdraw hentry with hmem | ⟨⟨hnew, hok, -⟩, rfl⟩
  · obtain ⟨old, hold, htime⟩ := hs.expiry entry hmem
    by_cases hname : entry.1 = data.name
    · -- a name that is cached keeps its Data
      have hcached : (s.cache.trie.payload data.name).isSome := hname ▸ isSome_of_eq_some hold
      rw [hs.coherent.payload_add_of_cached draw hcached, hold] at hdata'
      rw [hs.coherent.add_of_cached draw hcached, htime, some.inj hdata']
      rfl
    · rw [hs.coherent.payload_add_of_ne hname (isSome_of_eq_some hdata'), hold] at hdata'
      obtain rfl : old = data' := some.inj hdata'
      split
      · rw [update_of_ne hname, htime]
      · exact htime
  · rw [hs.coherent.payload_add_self _ hnew, if_pos hok] at hdata'
    rw [if_pos hok, update_self, some.inj hdata']

/-- No event is pending, and one is not scheduled for the Data either, because of the time that
is still remembered. -/
def Forgets (h : Hashing String Data) (s : FreshStore) : Op → Prop
  | .add data order accepts =>
      (s.cache.add h ⟨s.now, order, accepts⟩ data).2 = true ∧ 0 < data.freshnessPeriod ∧
        s.cleanEvent = none ∧ s.scheduledCleaningTime ≠ 0 ∧
        s.scheduledCleaningTime ≤ s.now + data.freshnessPeriod * 1000000
  | _ => False

section

variable (hs : Stamped h policy s)
include hs

theorem Stamped.scheduled_add (hscheduled : Scheduled s) {order : UInt32} {accepts : Bool}
    (hkeeps : ¬ s.Forgets h (.add data order accepts)) :
    Scheduled (s.add h data order accepts) := by
  have hdraw : (Draw.mk s.now order accepts).now = s.now := rfl
  have hstored := hs.stored data hdraw
  rw [add_eq]
  split
  · rename_i hok
    refine hstored.scheduled (fun entry hentry => ?_) fun hremembered hall hsome => ?_
    · rcases hs.mem_stored hdraw hentry with hmem | ⟨-, rfl⟩
      · exact hscheduled.now_le hmem
      · exact Nat.le_add_right _ _
    · rcases hscheduled with ⟨hevent, hempty⟩ | ⟨hevent, hnow, -, -⟩
      · obtain ⟨entry, hentry⟩ := exists_mem_of_ne_nil _ hsome
        rcases hs.mem_stored hdraw hentry with hmem | ⟨⟨-, -, hpos⟩, rfl⟩
        · rw [hempty] at hmem
          cases hmem
        · exact absurd ⟨hok, hpos, hevent, hremembered, hall _ hentry⟩ hkeeps
      · exact ⟨hevent, hnow⟩
  · rename_i hok
    have hmem : ∀ entry ∈ (s.stored h data ⟨s.now, order, accepts⟩).freshness,
        entry ∈ s.freshness := by
      intro entry hentry
      rcases hs.mem_stored hdraw hentry with hmem | ⟨⟨-, htrue, -⟩, -⟩
      · exact hmem
      · exact absurd htrue hok
    rcases hscheduled with ⟨hevent, hempty⟩ | ⟨hevent, hnow, hpos, hall⟩
    · refine .inl ⟨hevent, eq_nil_iff_forall_not_mem.mpr fun entry hentry => ?_⟩
      have hold := hmem entry hentry
      rw [hempty] at hold
      cases hold
    · exact .inr ⟨hevent, hnow, hpos, fun entry hentry => hall entry (hmem entry hentry)⟩

/-- A Data that is forgotten is in the container, and no event is pending. -/
theorem Stamped.forgotten (hscheduled : Scheduled s) {order : UInt32} {accepts : Bool}
    (hforgets : s.Forgets h (.add data order accepts)) :
    (s.add h data order accepts).freshness ≠ [] ∧
      (s.add h data order accepts).cleanEvent = none := by
  obtain ⟨hok, hpos, hevent, hremembered, hlate⟩ := hforgets
  have hdraw : (Draw.mk s.now order accepts).now = s.now := rfl
  have hstored := hs.stored data hdraw
  have hempty : s.freshness = [] := by
    rcases hscheduled with ⟨-, hempty⟩ | ⟨hsome, -⟩
    · exact hempty
    · rw [hevent] at hsome
      cases hsome
  have hnew : s.cache.trie.payload data.name = none := by
    by_contra hcached
    rw [hs.coherent.add_of_cached _ (isSome_iff_ne_none.mpr hcached)] at hok
    cases hok
  have hname : data.name ∈ (s.stored h data ⟨s.now, order, accepts⟩).freshness.map Prod.fst := by
    refine (mem_freshness hstored.coherent).mpr ⟨data, ?_, hpos⟩
    refine (hs.coherent.payload_add_self _ hnew).trans ?_
    rw [if_pos hok]
  rw [add_eq, if_pos hok]
  cases hitems : (s.stored h data ⟨s.now, order, accepts⟩).freshness with
  | nil =>
    rw [hitems] at hname
    cases hname
  | cons first rest =>
    have hfirst : first = (data.name, s.now + data.freshnessPeriod * 1000000) := by
      rcases hs.mem_stored hdraw (hitems ▸ mem_cons_self) with hmem | ⟨-, hfirst⟩
      · rw [hempty] at hmem
        cases hmem
      · exact hfirst
    have hkeeps : ¬ (s.scheduledCleaningTime = 0 ∨ first.2 < s.scheduledCleaningTime) := by
      rw [hfirst, not_or, not_lt]
      exact ⟨hremembered, hlate⟩
    rw [rescheduleCleaning_of_keeps hitems hkeeps, hitems]
    exact ⟨cons_ne_nil _ _, hevent⟩

/-! ### Cleaning -/

/-- The first entry is erased. -/
theorem Stamped.eraseFirst {first : Name × ℕ} {rest : List (Name × ℕ)}
    (hitems : s.freshness = first :: rest) :
    Stamped h policy { s with cache := s.cache.erase first.1 } ∧
      ({ s with cache := s.cache.erase first.1 } : FreshStore).freshness = rest := by
  obtain ⟨value, super, hpair, hvalue, hvalue', hholds⟩ := container hs.coherent
  have hmem : first.1 ∈ s.freshness.map Prod.fst := by
    rw [hitems]
    exact mem_cons_self
  obtain ⟨data, hdata, hpos⟩ := (mem_freshness hs.coherent).mp hmem
  have hcached := isSome_of_eq_some hdata
  obtain ⟨-, hpayload⟩ := TrieWithPolicy.eraseNode_spec hs.coherent.filed.sound
    (Trie.get?_isSome_of_payload hcached)
  have hgoverns : value.policy.governs s.cache.trie.payload first.1 = true := by
    rw [hvalue, Policy.governs, hdata]
    simpa using hpos
  have hfreshness : ({ s with cache := s.cache.erase first.1 } : FreshStore).freshness = rest := by
    rw [freshness, Cache.erase, hpair]
    show (value.erase s.cache.trie.payload first.1).items = rest
    rw [Container.erase, if_pos hgoverns, Container.takeOut, ← hvalue', hitems]
    exact eraseKey_cons_self first rest
  refine ⟨⟨hs.coherent.erase hcached, ?_⟩, hfreshness⟩
  rw [hfreshness]
  intro entry hentry
  obtain ⟨data', hdata', htime⟩ := hs.expiry entry (hitems ▸ mem_cons_of_mem first hentry)
  refine ⟨data', ?_, htime⟩
  have hne : entry.1 ≠ first.1 := by
    have hnodup := hholds.nodup
    rw [Container.names, ← hvalue', hitems, map_cons, nodup_cons] at hnodup
    exact fun heq => hnodup.1 (heq ▸ mem_map_of_mem hentry)
  show (TrieWithPolicy.eraseNode s.cache.trie (some first.1)).payload entry.1 = some data'
  rw [hpayload, NameMap.erase_of_ne _ hne, hdata']

/-- With as many turns as there are entries, nothing stale is left. -/
theorem Stamped.eraseStale {turns : ℕ} (hturns : s.freshness.length ≤ turns) :
    Stamped h policy (eraseStale turns s) ∧
      (FreshStore.eraseStale turns s).now = s.now ∧
      ∀ entry ∈ (FreshStore.eraseStale turns s).freshness, s.now ≤ entry.2 := by
  induction turns generalizing s with
  | zero =>
    have hempty := length_eq_zero_iff.mp (Nat.le_zero.mp hturns)
    refine ⟨hs, rfl, fun entry hentry => ?_⟩
    rw [FreshStore.eraseStale, hempty] at hentry
    cases hentry
  | succ turns ih =>
    rw [FreshStore.eraseStale]
    cases hitems : s.freshness with
    | nil =>
      refine ⟨hs, rfl, fun entry hentry => ?_⟩
      rw [hitems] at hentry
      cases hentry
    | cons first rest =>
      dsimp only
      split
      · obtain ⟨hstamped, hrest⟩ := hs.eraseFirst hitems
        refine ih hstamped ?_
        rw [hrest]
        rw [hitems] at hturns
        exact Nat.le_of_succ_le_succ hturns
      · rename_i hlater
        refine ⟨hs, rfl, fun entry hentry => ?_⟩
        have hsorted := sorted_freshness hs.coherent
        rw [hitems] at hentry hsorted
        rcases mem_cons.mp hentry with rfl | hentry
        · omega
        · have hle := (pairwise_cons.mp hsorted).1 entry hentry
          omega

theorem Stamped.cleanExpired : Stamped h policy s.cleanExpired ∧ Scheduled s.cleanExpired := by
  have hstart : Stamped h policy { s with cleanEvent := none } := hs.congr rfl rfl
  obtain ⟨hstamped, hnow, hlater⟩ := hstart.eraseStale (le_refl s.freshness.length)
  have hzero : Stamped h policy
      { FreshStore.eraseStale s.freshness.length { s with cleanEvent := none } with
        scheduledCleaningTime := 0 } := hstamped.congr rfl rfl
  refine ⟨hzero.rescheduleCleaning, hzero.scheduled (fun entry hentry => ?_) fun hne => ?_⟩
  · exact (le_of_eq hnow).trans (hlater entry hentry)
  · exact absurd rfl hne

end

/-! ### Whole runs -/

/-- What is asked of a content store with freshness: an event is pending before the first
expiry, and Data are not returned after they have expired. -/
def OnTime (s : FreshStore) : Prop :=
  (s.freshness ≠ [] → ∃ event ∈ s.cleanEvent, ∀ entry ∈ s.freshness, event ≤ entry.2) ∧
    ∀ gt name exclude data, (s.cache.lookup gt name exclude).2 = some data →
      0 < data.freshnessPeriod →
      s.now ≤ s.addedAt data.name + data.freshnessPeriod * 1000000

section

variable (hs : Stamped h policy s)
include hs

theorem Stamped.onTime (hscheduled : Scheduled s) : OnTime s := by
  constructor
  · intro hsome
    rcases hscheduled with ⟨-, hempty⟩ | ⟨hevent, -, -, hall⟩
    · exact absurd hempty hsome
    · exact ⟨_, hevent, hall⟩
  · intro gt name exclude data hdata hpos
    obtain ⟨node, -, hpayload⟩ := bind_eq_some_iff.mp hdata
    obtain rfl := hs.coherent.filed.named node data hpayload
    obtain ⟨entry, hentry, hname⟩ := mem_map.mp
      ((mem_freshness hs.coherent).mpr ⟨data, hpayload, hpos⟩)
    obtain ⟨data', hdata', htime⟩ := hs.expiry entry hentry
    rw [hname, hpayload] at hdata'
    rw [hname, ← some.inj hdata'] at htime
    rw [← htime]
    exact hscheduled.now_le hentry

theorem Stamped.lookup {gt : ComponentOrder} {name : Name} {exclude : Exclude}
    (hguard : s.cache.guard (.lookup gt name exclude)) :
    Stamped h policy { s with cache := (s.cache.lookup gt name exclude).1 } ∧
      ({ s with cache := (s.cache.lookup gt name exclude).1 } : FreshStore).freshness =
        s.freshness := by
  obtain ⟨value, super, hpair, hvalue, hitems, -⟩ := container hs.coherent
  have hfreshness : ({ s with cache := (s.cache.lookup gt name exclude).1 } :
      FreshStore).freshness = s.freshness := by
    rw [hitems, freshness, Cache.lookup]
    dsimp only
    split
    · rename_i node _
      rw [hpair]
      show (value.lookup node).items = value.items
      rw [Container.lookup_of_not_reads (by rw [hvalue]; rfl)]
    · rw [hpair]
      rfl
  refine ⟨⟨hs.coherent.next hguard, ?_⟩, hfreshness⟩
  rw [hfreshness]
  exact hs.expiry

theorem Stamped.setMaxSize (maxSize : UInt32) :
    Stamped h policy { s with cache := s.cache.setMaxSize maxSize } ∧
      ({ s with cache := s.cache.setMaxSize maxSize } : FreshStore).freshness =
        s.freshness := by
  obtain ⟨value, super, hpair, -, hitems, -⟩ := container hs.coherent
  have hfreshness : ({ s with cache := s.cache.setMaxSize maxSize } : FreshStore).freshness =
      s.freshness := by
    rw [hitems, freshness, Cache.setMaxSize, hpair]
    rfl
  refine ⟨⟨hs.coherent.next (show s.cache.guard (.setMaxSize maxSize) from trivial), ?_⟩,
    hfreshness⟩
  rw [hfreshness]
  exact hs.expiry

theorem Stamped.next {op : Op} (hguard : s.guard op) : Stamped h policy (s.next h op) := by
  cases op with
  | add data order accepts =>
    have hstored := hs.stored data (rfl : (Draw.mk s.now order accepts).now = s.now)
    rw [FreshStore.next, add_eq]
    split
    · exact hstored.rescheduleCleaning
    · exact hstored
  | lookup gt name exclude => exact (hs.lookup hguard).1
  | setMaxSize maxSize => exact (hs.setMaxSize maxSize).1
  | elapse time => exact hs.congr rfl rfl
  | clean => exact hs.cleanExpired.1

theorem Stamped.scheduled_next (hscheduled : Scheduled s) {op : Op} (hguard : s.guard op)
    (hkeeps : ¬ s.Forgets h op) : Scheduled (s.next h op) := by
  cases op with
  | add data order accepts => exact hs.scheduled_add hscheduled hkeeps
  | lookup gt name exclude =>
    rw [Scheduled, FreshStore.next, (hs.lookup hguard).2]
    exact hscheduled
  | setMaxSize maxSize =>
    rw [Scheduled, FreshStore.next, (hs.setMaxSize maxSize).2]
    exact hscheduled
  | elapse time =>
    rcases hscheduled with hidle | ⟨hevent, -, hpos, hall⟩
    · exact .inl hidle
    · exact .inr ⟨hevent, hguard.2 _ hevent, hpos, hall⟩
  | clean => exact hs.cleanExpired.2

end

theorem stamped_start : Stamped h policy (start policy) :=
  ⟨Cache.coherent_of_reachable (.of_init rfl), fun _ hentry => absurd hentry not_mem_nil⟩

/-- **Stale Data are removed on time**, all along a run, exactly if no Data is added that is
forgotten because of a time that is still remembered. -/
theorem onTime_iff {ops : List Op} (hops : (machine h policy).Enabled (start policy) ops) :
    (∀ before after, ops = before ++ after → OnTime (before.foldl (next h) (start policy))) ↔
      ∀ before op after, ops = before ++ op :: after →
        ¬ (before.foldl (next h) (start policy)).Forgets h op := by
  refine hops.forall_iff (I := fun s => Stamped h policy s ∧ Scheduled s)
    (P := OnTime) (K := fun s op => ¬ s.Forgets h op) ⟨stamped_start, .inl ⟨rfl, rfl⟩⟩
    (fun s hs => hs.1.onTime hs.2)
    (fun s op hs hguard hkeeps => ⟨hs.1.next hguard, hs.1.scheduled_next hs.2 hguard hkeeps⟩) ?_
  intro s op hs hguard hontime hforgets
  cases op with
  | add data order accepts =>
      obtain ⟨hsome, hnone⟩ := hs.1.forgotten hs.2 hforgets
      obtain ⟨event, hevent, -⟩ := hontime.1 hsome
      have hgone : none = some event := hnone.symm.trans hevent
      cases hgone
  | lookup gt name exclude | setMaxSize maxSize | elapse time | clean => exact hforgets

end

/-- A Data with a freshness period, in milliseconds. -/
def freshData (name : Name) (period : ℕ) : Data :=
  { ContentStore.sampleData name with freshnessPeriod := period }

/-- With a limit of one, `/b` evicts `/a`, the event goes, and `/c` is not noticed. -/
def forgettingOps : List Op :=
  [.setMaxSize 1, .add (freshData ["a"] 1) 0 true, .add (freshData ["b"] 0) 0 true,
    .add (freshData ["c"] 2) 0 true, .elapse 3000000]

theorem enabled_forgettingOps :
    (machine TrieWithPolicy.Store.lastHashing .lru).Enabled (start .lru) forgettingOps :=
  .cons trivial (.cons trivial (.cons trivial (.cons trivial
    (.cons ⟨by decide, by decide⟩ (.nil _)))))

/-- `/c` is added when no event is pending. -/
theorem onTime_iff_forgettingOps :
    ¬ ∀ before after, forgettingOps = before ++ after →
      OnTime (before.foldl (next TrieWithPolicy.Store.lastHashing) (start .lru)) := by
  intro h
  refine (onTime_iff enabled_forgettingOps).mp h (forgettingOps.take 3)
    (.add (freshData ["c"] 2) 0 true) [.elapse 3000000] rfl ?_
  show _ ∧ _ ∧ _ ∧ _ ∧ _
  decide

/-- `/c` is returned one millisecond after it has expired, with no event pending. -/
theorem stale_data_returned :
    ∃ s, (machine TrieWithPolicy.Store.lastHashing .lru).Reachable s ∧ s.freshness ≠ [] ∧
      s.cleanEvent = none ∧
      (s.cache.lookup (fun _ _ => false) ["c"] ⟨[]⟩).2 = some (freshData ["c"] 2) ∧
      s.addedAt ["c"] + (freshData ["c"] 2).freshnessPeriod * 1000000 < s.now :=
  ⟨_, (System.Reachable.of_init rfl).foldl enabled_forgettingOps, by decide, by decide,
    by decide, by decide⟩

end FreshStore

end ValProofs
