import ValProofs.Cs.Lookup
import ValProofs.Utils.TrieIterator

/-!
The entries of a content store, one after the other: `Begin`, `Next` and `End`.

`Next` is given an entry, and goes on from the node that the entry points to. So the
entries have to point to the nodes that they are kept at, which `Add` sees to once the
policy has agreed. Between two entries the nodes without one are passed over, and the
number of nodes bounds the turns of that loop. The Data of the entries are those that the
look-ups are made in.
-/

namespace ValProofs

open Lib TrieWithPolicy Trie Function Option

/-- `EntryImpl`: a Data, and the node that `item_` points to. -/
structure EntryImpl where
  data : Data
  item : Option Name

/-- The trie of a content store, with its entries. -/
abbrev EntryStore := Trie String EntryImpl

namespace EntryStore

/-- `Add(data)`. The new entry is in the trie when it is told its node. -/
def add (h : Hashing String EntryImpl) (verdict : Verdict String) (cs : EntryStore)
    (data : Data) : EntryStore × Bool :=
  let newEntry : EntryImpl := ⟨data, none⟩
  match TrieWithPolicy.insert h verdict cs data.name newEntry with
  | (cs, some item, true) =>
      (cs.modify (Trie.setPayload (some { newEntry with item := some item })) item, true)
  | (cs, _, _) => (cs, false)

/-- The loop of `Begin` and `Next`, and the entry that is returned; none is `End()`. -/
def seekEntry (cs : EntryStore) (fuel : ℕ) (item : Option Name) : Option (Option EntryImpl) :=
  seek cs.increment cs.payload fuel item

/-- `Begin()`. -/
def begin (cs : EntryStore) (fuel : ℕ) : Option (Option EntryImpl) := cs.seekEntry fuel (some [])

/-- `Next(from)`. An entry that points to no node is not to be given. -/
def next (cs : EntryStore) (fuel : ℕ) : Option EntryImpl → Option (Option EntryImpl)
  | none => some none
  | some entry => entry.item.bind fun node => (cs.increment node).bind (cs.seekEntry fuel)

/-- The entries from `Begin()` on, by `Next` until `End()` is returned. -/
def enumerate (cs : EntryStore) (fuel : ℕ) : Option (List EntryImpl) :=
  (cs.begin fuel).bind (collect (fun entry => cs.next fuel (some entry)) fuel)

/-! ### What is in a content store -/

def step (h : Hashing String EntryImpl) (cs : EntryStore) : ContentStore.Op → EntryStore
  | .add data verdict => (cs.add h verdict data).1
  | .erase node => TrieWithPolicy.eraseNode cs (some node)

/-- Only entries are erased. -/
def guard (cs : EntryStore) : ContentStore.Op → Prop
  | .add _ verdict => verdict.Allowed cs.payload
  | .erase node => (cs.payload node).isSome

def machine (h : Hashing String EntryImpl) : System EntryStore ContentStore.Op where
  init cs := cs = Trie.construct "" 1 1
  guard := guard
  next := step h

variable {cs : EntryStore}

/-- With its node the entry is what the policy has agreed to. -/
theorem add_spec (hsound : Sound [] cs) (h : Hashing String EntryImpl)
    {verdict : Verdict String} (hallowed : verdict.Allowed cs.payload) (data : Data) :
    Sound [] (cs.add h verdict data).1 ∧
      (cs.add h verdict data).1.payload =
        NameMap.insertWith verdict cs.payload data.name ⟨data, some data.name⟩ := by
  obtain ⟨hsound', hpayload⟩ := insert_spec hsound h hallowed data.name ⟨data, none⟩
  have hreturn := snd_insert hsound h verdict data.name ⟨data, none⟩
  rw [add]
  generalize insert h verdict cs data.name ⟨data, none⟩ = result at hsound' hpayload hreturn ⊢
  obtain ⟨trie, returned, isNew⟩ := result
  dsimp only at hsound' hpayload hreturn ⊢
  cases hold : cs.payload data.name with
  | some old =>
    rw [hold] at hreturn
    obtain ⟨rfl, rfl⟩ := Prod.mk.inj hreturn
    rw [NameMap.insertWith, hold] at hpayload ⊢
    exact ⟨hsound', hpayload⟩
  | none =>
    rw [NameMap.insertWith_of_new hallowed hold] at hpayload ⊢
    cases hok : verdict.ok with
    | false =>
      rw [hold, hok] at hreturn
      obtain ⟨rfl, rfl⟩ := Prod.mk.inj hreturn
      rw [hok] at hpayload
      exact ⟨hsound', hpayload⟩
    | true =>
      rw [hold, hok] at hreturn
      obtain ⟨rfl, rfl⟩ := Prod.mk.inj hreturn
      rw [hok, if_pos rfl] at hpayload
      have hnode : (trie.get? data.name).isSome := by
        refine get?_isSome_of_payload ?_
        rw [hpayload, update_self, isSome_some]
      refine ⟨(hsound'.of_nil _).setPayload_some hnode _, funext fun other => ?_⟩
      rw [payload_modify_setPayload _ _ _ _ hnode, hpayload, if_pos rfl, update_apply, update_apply]
      split <;> rfl

/-- The trie is in order, and the entries point to their nodes. -/
structure Linked (cs : EntryStore) : Prop where
  sound : Trie.Sound [] cs
  item : ∀ node entry, cs.payload node = some entry → entry.item = some node

theorem Linked.step (hcs : cs.Linked) (h : Hashing String EntryImpl) {op : ContentStore.Op}
    (hguard : cs.guard op) : (cs.step h op).Linked := by
  cases op with
  | add data verdict =>
    obtain ⟨hsound, hpayload⟩ := add_spec hcs.sound h hguard data
    refine ⟨hsound, fun node entry hentry => ?_⟩
    rw [EntryStore.step, hpayload] at hentry
    rcases NameMap.insertWith_eq_some hentry with hold | ⟨-, -, rfl, rfl⟩
    · exact hcs.item node entry hold
    · rfl
  | erase node =>
    obtain ⟨hsound, hpayload⟩ :=
      eraseNode_spec hcs.sound (get?_isSome_of_payload hguard)
    refine ⟨hsound, fun other entry hentry => ?_⟩
    rw [EntryStore.step, hpayload, NameMap.erase, update_apply] at hentry
    split at hentry
    · cases hentry
    · exact hcs.item other entry hentry

theorem linked_of_reachable {h : Hashing String EntryImpl} (hcs : (machine h).Reachable cs) :
    cs.Linked := by
  refine hcs.invariant (I := Linked) ?_ fun cs op hcs hguard => hcs.step h hguard
  rintro _ rfl
  refine ⟨sound_construct "" 1 1, fun node entry hentry => ?_⟩
  rw [payload_construct] at hentry
  cases hentry

/-! ### The Data of the entries -/

/-- A content store of Data that has the same under each name. -/
def Holds (cs : EntryStore) (store : ContentStore) : Prop :=
  store.payload = fun name => (cs.payload name).map EntryImpl.data

theorem Holds.step {store : ContentStore} (hholds : cs.Holds store) (hcs : cs.Linked)
    (hstore : store.Filed) (h : Hashing String EntryImpl) (h' : Hashing String Data)
    {op : ContentStore.Op} (hguard : cs.guard op) :
    store.guard op ∧ (cs.step h op).Holds (store.next h' op) := by
  cases op with
  | add data verdict =>
    have hallowed : verdict.Allowed store.payload := by
      refine ⟨hguard.nodup, fun name hname => ?_⟩
      rw [hholds, isSome_map]
      exact hguard.cached name hname
    refine ⟨hallowed, ?_⟩
    rw [Holds, ContentStore.next, ContentStore.fst_add,
      (insert_spec hstore.sound h' hallowed data.name data).2, EntryStore.step,
      (add_spec hcs.sound h hguard data).2, NameMap.map_insertWith, hholds]
  | erase node =>
    have hsome : (store.payload node).isSome := by
      rw [hholds, isSome_map]
      exact hguard
    refine ⟨hsome, ?_⟩
    rw [Holds, ContentStore.next, EntryStore.step,
      (eraseNode_spec hstore.sound (get?_isSome_of_payload hsome)).2,
      (eraseNode_spec hcs.sound (get?_isSome_of_payload hguard)).2, hholds]
    funext name
    rw [NameMap.erase, NameMap.erase, update_apply, update_apply]
    split <;> rfl

/-- **The entries are those of `ContentStore`**, whatever the orders of the hash tables. -/
theorem exists_holds {h : Hashing String EntryImpl} (h' : Hashing String Data)
    (hcs : (machine h).Reachable cs) :
    ∃ store, (ContentStore.machine h').Reachable store ∧ cs.Holds store := by
  refine hcs.induction (I := fun cs => ∃ store,
    (ContentStore.machine h').Reachable store ∧ cs.Holds store) ?_ ?_
  · rintro _ rfl
    refine ⟨_, .of_init rfl, ?_⟩
    rw [Holds, payload_construct, payload_construct]
    rfl
  · intro cs op hcs hI hguard
    obtain ⟨store, hstore, hholds⟩ := hI
    obtain ⟨hguard', hnext⟩ := hholds.step (linked_of_reachable hcs)
      (ContentStore.filed_of_reachable hstore) h h' hguard
    exact ⟨_, hstore.next hguard', hnext⟩

/-! ### The enumeration -/

/-- The entries, in the order of their nodes. -/
def entries (cs : EntryStore) : List EntryImpl := cs.nodes.filterMap cs.payload

theorem Linked.mem_entries (hcs : cs.Linked) {entry : EntryImpl} :
    entry ∈ cs.entries ↔ ∃ node, cs.payload node = some entry := by
  rw [entries, List.mem_filterMap]
  constructor
  · rintro ⟨node, -, hentry⟩
    exact ⟨node, hentry⟩
  · rintro ⟨node, hentry⟩
    exact ⟨node, mem_nodes_of_payload hcs.sound.distinct hentry, hentry⟩

theorem Linked.nodup_entries (hcs : cs.Linked) : cs.entries.Nodup := by
  refine (nodup_nodes hcs.sound.distinct).filterMap fun node other entry hentry hother => ?_
  have hnode := hcs.item node entry hentry
  rw [hcs.item other entry hother] at hnode
  exact (some.inj hnode).symm

variable {fuel : ℕ}

/-- `Next` goes from each entry to the one after it. -/
theorem Linked.walks_entries (hcs : cs.Linked) (hfuel : cs.nodes.length < fuel) :
    Walks (fun entry => cs.next fuel (some entry)) cs.entries none := by
  refine (walks_nodes hcs.sound.distinct).filterMap hfuel fun node _ entry hentry => ?_
  rw [EntryStore.next, hcs.item node entry hentry]
  rfl

theorem Linked.begin (hcs : cs.Linked) (hfuel : cs.nodes.length < fuel) :
    cs.begin fuel = some cs.entries.head? := by
  rw [entries, List.head?_filterMap]
  have hroot : cs.nodes.head? = some [] := by
    cases cs
    rfl
  rw [← (walks_nodes hcs.sound.distinct).seek hfuel, hroot]
  rfl

/-- **The enumeration is exact.** Whatever has been added, evicted and erased before, with
turns enough for the nodes `Begin` and then `Next` again and again return the entries of the
content store, each once, and then `End`. -/
theorem enumerate_exact {h : Hashing String EntryImpl} (hcs : (machine h).Reachable cs) :
    ∃ entries, entries.Nodup ∧ (∀ entry, entry ∈ entries ↔ ∃ node, cs.payload node = some entry) ∧
      ∀ fuel, cs.nodes.length < fuel → cs.enumerate fuel = some entries := by
  have hlinked := linked_of_reachable hcs
  refine ⟨cs.entries, hlinked.nodup_entries, fun entry => hlinked.mem_entries, fun fuel hfuel => ?_⟩
  rw [enumerate, hlinked.begin hfuel, Option.bind_some]
  refine (hlinked.walks_entries hfuel).collect ?_
  exact (List.length_filterMap_le _ _).trans (Nat.le_of_lt hfuel)

open ContentStore in
/-- The nodes of `/a` and `/c` are left without entries. -/
def sampleOps : List Op :=
  [.add (sampleData ["a", "b"]) ⟨[], true⟩, .add (sampleData ["c"]) ⟨[], true⟩,
    .add (sampleData []) ⟨[], true⟩, .add (sampleData ["c", "d"]) ⟨[], true⟩, .erase ["c"]]

def sampleEntries : EntryStore :=
  sampleOps.foldl (step TrieWithPolicy.Store.lastHashing) (Trie.construct "" 1 1)

theorem sampleEntries_reachable : (machine Store.lastHashing).Reachable sampleEntries := by
  refine System.Reachable.foldl (.of_init rfl) ?_
  refine .cons (Verdict.allowed_nil true _) (.cons (Verdict.allowed_nil true _)
    (.cons (Verdict.allowed_nil true _) (.cons (Verdict.allowed_nil true _)
      (.cons ?_ (.nil _)))))
  exact rfl

theorem exists_holds_sampleEntries :
    ∃ store, (ContentStore.machine Store.lastHashing).Reachable store ∧
      sampleEntries.Holds store ∧ store.payload ["c"] = none ∧ store.payload ["c", "d"] ≠ none := by
  obtain ⟨store, hreachable, hholds⟩ := exists_holds Store.lastHashing sampleEntries_reachable
  refine ⟨store, hreachable, hholds, ?_, ?_⟩
  all_goals
    rw [hholds]
    decide

theorem enumerate_exact_sample :
    (sampleEntries.enumerate 6).map (·.map (·.data.name)) = some [[], ["a", "b"], ["c", "d"]] ∧
    ∃ entries, entries.Nodup ∧
      (∀ entry, entry ∈ entries ↔ ∃ node, sampleEntries.payload node = some entry) ∧
      ∀ fuel, sampleEntries.nodes.length < fuel → sampleEntries.enumerate fuel = some entries :=
  ⟨by decide, enumerate_exact sampleEntries_reachable⟩

end EntryStore

end ValProofs
