import Mathlib.Data.Set.Card
import ValProofs.Cs.Lookup

/-!
The policies of the content stores, and the combinations of them.

A policy has a container with the entries that it governs, and a limit for it. Some keep the
entries in a list, others in the order of a number that is put into the hook of the entry:
how often it has been looked up, a random one, or when it expires. What is evicted is the
first of the container.

A combination asks its policies one after the other. An eviction takes the victim out of all
the containers, and out of the trie, at once. If a policy refuses the new entry then those
that have been asked before it take the entry out again; what they have evicted for it stays
out.
-/

namespace ValProofs

open Lib Function List

/-- The policies of `utils/trie` and `cs/custom-policies`. -/
inductive Policy
  | lru
  | fifo
  | lfu
  | random
  | freshness
  | probability
  deriving DecidableEq, Repr

/-- What a policy reads when it is told of a new entry. -/
structure Draw where
  /-- `Simulator::Now()`, in nanoseconds. -/
  now : ℕ
  /-- What `u_rand->GetValue()` gives for the random order. -/
  order : UInt32
  /-- `ns3_rand_->GetValue() < probability_`. -/
  accepts : Bool

namespace Policy

/-- Whether the policy keeps the entry in its container. -/
def governs (payload : NameMap String Data) (node : Name) : Policy → Bool
  | .freshness => (payload node).any fun data => 0 < data.freshnessPeriod
  | _ => true

/-- What `insert` writes into the hook of the entry. The lists have nothing there. -/
def hook (payload : NameMap String Data) (draw : Draw) (node : Name) : Policy → ℕ
  | .random => draw.order.toNat
  | .freshness => draw.now + (payload node).elim 0 fun data => data.freshnessPeriod * 1000000
  | _ => 0

/-- The container is a multiset in the order of the hooks. -/
def multiset : Policy → Bool
  | .lfu | .random | .freshness => true
  | _ => false

/-- The policies that evict entries to keep the limit. -/
def replaces : Policy → Bool
  | .freshness | .probability => false
  | _ => true

/-- The `lookup` of the policy reads the node that it is given. -/
def reads : Policy → Bool
  | .lru | .lfu => true
  | _ => false

end Policy

/-- A policy and its container. -/
structure Container where
  policy : Policy
  /-- `max_size_`. -/
  maxSize : ℕ
  /-- The entries with their hooks, from `begin()` on. -/
  items : List (Name × ℕ)
  deriving DecidableEq, Repr

namespace Container

def names (c : Container) : List Name := c.items.map Prod.fst

/-- `policy_container::push_back`, or `policy_container::insert`. -/
def place (c : Container) (entry : Name × ℕ) : Container :=
  { c with
    items :=
      if c.policy.multiset then c.items.orderedInsert (fun a b => a.2 < b.2) entry
      else c.items ++ [entry] }

/-- `max_size_ != 0 && size() >= max_size_`. -/
def full (c : Container) : Bool := c.maxSize ≠ 0 && c.maxSize ≤ c.items.length

/-- `insert(item)` returns false. -/
def refuses (draw : Draw) (c : Container) : Bool :=
  match c.policy with
  | .random => c.full && c.items.head?.any fun first => draw.order.toNat < first.2
  | .probability => !draw.accepts
  | _ => false

/-- What `insert(item)` erases from the base. -/
def victim (c : Container) : Option Name :=
  match c.policy with
  | .freshness | .probability => none
  | _ => if c.full then c.names.head? else none

/-- The end of `insert(item)`. -/
def push (payload : NameMap String Data) (draw : Draw) (c : Container) (item : Name) : Container :=
  if c.policy.governs payload item then c.place (item, c.policy.hook payload draw item) else c

/-- `policy_container::erase`. -/
def takeOut (c : Container) (item : Name) : Container :=
  { c with items := eraseKey Prod.fst item c.items }

/-- `erase(item)`. -/
def erase (payload : NameMap String Data) (c : Container) (item : Name) : Container :=
  if c.policy.governs payload item then c.takeOut item else c

/-- `lookup(item)`. -/
def lookup (c : Container) (item : Name) : Container :=
  match c.policy, c.items.find? fun entry => entry.1 = item with
  | .lru, some entry => (c.takeOut item).place entry
  | .lfu, some entry => (c.takeOut item).place (item, addOne entry.2)
  | _, _ => c

end Container

open Container

namespace Policies

/-- `insert(item)` of the policies that are still to be asked. The names have been evicted by
those before them, from these containers too. What is returned is their containers, with what
they evict themselves and their answer. -/
def insert (payload : NameMap String Data) (draw : Draw) (item : Name) :
    List Name → List Container → List Container × Verdict String
  | _, [] => ([], ⟨[], true⟩)
  | gone, value :: super =>
      let value := gone.foldl (Container.erase payload) value
      if value.refuses draw then
        (value :: super.map (gone.foldl (Container.erase payload)), ⟨[], false⟩)
      else
        let evicted := value.victim.toList
        let value := (evicted.foldl (Container.erase payload) value).push payload draw item
        let (super, verdict) := insert payload draw item (gone ++ evicted) super
        let value := verdict.erased.foldl (Container.erase payload) value
        ((if verdict.ok then value else value.erase payload item) :: super,
          ⟨evicted ++ verdict.erased, verdict.ok⟩)

end Policies

/-! ### What is in a container -/

/-- The container has the entries of the map that its policy governs, each once. -/
structure Container.Holds (c : Container) (m : NameMap String Data) : Prop where
  nodup : c.names.Nodup
  mem_names : ∀ node, node ∈ c.names ↔ (m node).isSome ∧ c.policy.governs m node = true
  sorted : c.policy.multiset = true → c.items.Pairwise fun a b => a.2 ≤ b.2

/-- What is read of the entries while some of them are evicted. -/
def Reads (payload m : NameMap String Data) : Prop :=
  ∀ node, (m node).isSome → payload node = m node

theorem Policy.governs_congr {m m' : NameMap String Data} {node : Name} (h : m node = m' node)
    (policy : Policy) : policy.governs m node = policy.governs m' node := by
  cases policy <;> simp only [governs, h]

theorem Reads.erase {payload m : NameMap String Data} (hreads : Reads payload m) (node : Name) :
    Reads payload (m.erase node) := by
  intro other hsome
  by_cases hother : other = node
  · rw [hother, NameMap.erase_self] at hsome
    cases hsome
  · rw [NameMap.erase_of_ne m hother] at hsome ⊢
    exact hreads other hsome

theorem Reads.foldl_erase {payload m : NameMap String Data} (hreads : Reads payload m)
    (names : List Name) : Reads payload (names.foldl NameMap.erase m) := by
  induction names generalizing m with
  | nil => exact hreads
  | cons name names ih => exact ih (hreads.erase name)

namespace Container

variable {c : Container} {m payload : NameMap String Data} {draw : Draw}

theorem policy_place (entry : Name × ℕ) : (c.place entry).policy = c.policy := rfl

theorem perm_place (entry : Name × ℕ) : (c.place entry).items.Perm (entry :: c.items) := by
  rw [place]
  dsimp only
  split
  · exact perm_orderedInsert _ entry c.items
  · exact perm_append_singleton entry c.items

theorem perm_names_place (entry : Name × ℕ) : (c.place entry).names.Perm (entry.1 :: c.names) :=
  (perm_place entry).map Prod.fst

theorem sorted_place (h : c.policy.multiset = true → c.items.Pairwise fun a b => a.2 ≤ b.2)
    (entry : Name × ℕ) (hmultiset : c.policy.multiset = true) :
    (c.place entry).items.Pairwise fun a b => a.2 ≤ b.2 := by
  rw [place]
  dsimp only
  rw [if_pos hmultiset]
  exact pairwise_orderedInsert (h hmultiset) entry

variable (item : Name)

theorem policy_erase : (c.erase payload item).policy = c.policy := by
  rw [erase]
  split <;> rfl

theorem maxSize_erase : (c.erase payload item).maxSize = c.maxSize := by
  rw [erase]
  split <;> rfl

theorem policy_foldl_erase (names : List Name) :
    (names.foldl (erase payload) c).policy = c.policy := by
  induction names generalizing c with
  | nil => rfl
  | cons name names ih => rw [foldl_cons, ih, policy_erase]

theorem maxSize_foldl_erase (names : List Name) :
    (names.foldl (erase payload) c).maxSize = c.maxSize := by
  induction names generalizing c with
  | nil => rfl
  | cons name names ih => rw [foldl_cons, ih, maxSize_erase]

theorem erase_sublist : (c.erase payload item).items.Sublist c.items := by
  rw [erase]
  split
  · exact eraseKey_sublist
  · exact Sublist.refl _

theorem foldl_erase_sublist (names : List Name) :
    (names.foldl (erase payload) c).items.Sublist c.items := by
  induction names generalizing c with
  | nil => exact Sublist.refl _
  | cons name names ih => exact ih.trans (erase_sublist name)

theorem policy_push : (c.push payload draw item).policy = c.policy := by
  rw [push]
  split <;> rfl

theorem maxSize_push : (c.push payload draw item).maxSize = c.maxSize := by
  rw [push]
  split <;> rfl

theorem mem_push {item : Name} {entry : Name × ℕ} (h : entry ∈ (c.push payload draw item).items) :
    entry ∈ c.items ∨ entry = (item, c.policy.hook payload draw item) := by
  rw [push] at h
  split at h
  · exact (mem_cons.mp ((perm_place _).mem_iff.mp h)).symm
  · exact .inl h

/-- What is erased is taken out of the map. -/
theorem Holds.erase (h : c.Holds m) (hreads : Reads payload m) (node : Name) :
    (c.erase payload node).Holds (m.erase node) := by
  have hmap : ∀ other, other ≠ node → m.erase node other = m other := fun other hne =>
    m.erase_of_ne hne
  have hnone := m.erase_self node
  rw [Container.erase]
  split
  · -- the container loses the entry, if it is there
    refine ⟨h.nodup.sublist (eraseKey_sublist.map Prod.fst), fun other => ?_, fun hmultiset =>
      (h.sorted hmultiset).sublist eraseKey_sublist⟩
    refine (mem_map_eraseKey h.nodup).trans ?_
    by_cases hother : other = node
    · subst hother
      simp [hnone]
    · rw [Policy.governs_congr (hmap other hother), hmap other hother]
      simp only [ne_eq, hother, not_false_eq_true, and_true]
      exact h.mem_names other
  · rename_i hgoverns
    refine ⟨h.nodup, fun other => ?_, h.sorted⟩
    rw [h.mem_names]
    by_cases hother : other = node
    · subst hother
      refine iff_of_false ?_ (by simp [hnone])
      rintro ⟨hsome, hgoverned⟩
      rw [← Policy.governs_congr (hreads other hsome)] at hgoverned
      exact hgoverns hgoverned
    · rw [Policy.governs_congr (hmap other hother), hmap other hother]

theorem Holds.foldl_erase (h : c.Holds m) (hreads : Reads payload m) (names : List Name) :
    (names.foldl (Container.erase payload) c).Holds (names.foldl NameMap.erase m) := by
  induction names generalizing c m with
  | nil => exact h
  | cons name names ih => exact ih (h.erase hreads name) (hreads.erase name)

theorem Holds.push (h : c.Holds m) (draw : Draw) {item : Name} {data : Data} (hnew : m item = none)
    (hpayload : payload item = some data) :
    (c.push payload draw item).Holds (update m item (some data)) := by
  have hself : payload item = update m item (some data) item := by
    rw [hpayload, update_self]
  have hmap : ∀ other, other ≠ item → update m item (some data) other = m other :=
    fun other hne => update_of_ne hne _ m
  have hout : item ∉ c.names := by
    rw [h.mem_names, hnew]
    simp
  rw [Container.push]
  split
  · rename_i hgoverns
    have hperm := c.perm_names_place (item, c.policy.hook payload draw item)
    refine ⟨hperm.nodup_iff.mpr (nodup_cons.mpr ⟨hout, h.nodup⟩), fun other => ?_,
      sorted_place h.sorted _⟩
    rw [hperm.mem_iff, mem_cons, policy_place, h.mem_names]
    by_cases hother : other = item
    · subst hother
      rw [← Policy.governs_congr hself, ← hself, hpayload]
      simp [hgoverns]
    · rw [Policy.governs_congr (hmap other hother), hmap other hother]
      simp [hother]
  · rename_i hgoverns
    refine ⟨h.nodup, fun other => ?_, h.sorted⟩
    rw [h.mem_names]
    by_cases hother : other = item
    · subst hother
      rw [← Policy.governs_congr hself, hnew]
      simp [hgoverns]
    · rw [Policy.governs_congr (hmap other hother), hmap other hother]

theorem victim_mem {node : Name} (h : c.victim = some node) : node ∈ c.names := by
  rw [victim] at h
  split at h
  · cases h
  · cases h
  · split at h
    · exact mem_of_mem_head? h
    · cases h

/-- A container that is full is not empty. -/
theorem victim_of_full (hpolicy : c.policy.replaces = true) (hfull : c.full = true) :
    ∃ first rest, c.items = first :: rest ∧ c.victim = some first.1 := by
  cases hitems : c.items with
  | nil =>
    rw [full, hitems] at hfull
    simp at hfull
  | cons first rest =>
    refine ⟨first, rest, rfl, ?_⟩
    have hhead : c.names.head? = some first.1 := by
      rw [names, hitems, map_cons, head?_cons]
    rw [victim, hhead, if_pos hfull]
    cases hp : c.policy <;> simp_all [Policy.replaces]

theorem full_eq_false_iff : c.full = false ↔ c.maxSize = 0 ∨ c.items.length < c.maxSize := by
  simp only [full, ne_eq, decide_not, Bool.and_eq_false_iff, Bool.not_eq_false_eq_eq_true,
    decide_eq_true_eq, decide_eq_false_iff_not, not_le]

theorem victim_of_not_full (hfull : c.full = false) : c.victim = none := by
  rw [victim, hfull]
  cases c.policy <;> rfl

theorem governs_of_replaces {policy : Policy} (h : policy.replaces = true) (m : NameMap String Data)
    (node : Name) : policy.governs m node = true := by
  cases policy <;> first | rfl | cases h

theorem length_push (hpolicy : c.policy.replaces = true) (item : Name) :
    (c.push payload draw item).items.length = c.items.length + 1 := by
  rw [push, if_pos (governs_of_replaces hpolicy payload item), (perm_place _).length_eq,
    length_cons]

/-- Where the container has no more than the limit there is room for another entry after
the eviction, and only there. -/
theorem length_evicted (hpolicy : c.policy.replaces = true) :
    (c.victim.toList.foldl (erase payload) c).items.length =
      if c.full then c.items.length - 1 else c.items.length := by
  cases hfull : c.full with
  | false =>
    rw [victim_of_not_full hfull]
    rfl
  | true =>
    obtain ⟨first, rest, hitems, hvictim⟩ := victim_of_full hpolicy hfull
    have hfind : (c.items.find? fun entry => entry.1 = first.1) = some first := by
      rw [hitems, find?_cons_of_pos (by simp)]
    rw [hvictim, Option.toList_some, foldl_cons, foldl_nil, erase,
      if_pos (governs_of_replaces hpolicy payload first.1), if_pos rfl, takeOut,
      ← (perm_eraseKey hfind).length_eq]
    rfl

/-- As many entries as there are in a container that governs all of them. -/
theorem Holds.ncard (h : c.Holds m) (hpolicy : c.policy.replaces = true) :
    Set.ncard { node | (m node).isSome } = c.items.length := by
  have hnames : { node | (m node).isSome } = (c.names.toFinset : Set Name) := by
    ext node
    rw [coe_toFinset]
    exact (iff_of_eq (and_true _)).symm.trans ((and_congr_right fun _ => by
      simp [governs_of_replaces hpolicy m node]).trans (h.mem_names node).symm)
  rw [hnames, Set.ncard_coe_finset, toFinset_card_of_nodup h.nodup, names, length_map]

theorem lookup_of_not_reads (h : c.policy.reads = false) (item : Name) : c.lookup item = c := by
  rw [lookup]
  split
  · rename_i hpolicy _
    rw [hpolicy] at h
    cases h
  · rename_i hpolicy _
    rw [hpolicy] at h
    cases h
  · rfl

theorem policy_lookup : (c.lookup item).policy = c.policy := by
  rw [lookup]
  split <;> rfl

theorem maxSize_lookup : (c.lookup item).maxSize = c.maxSize := by
  rw [lookup]
  split <;> rfl

/-- An entry that is looked up gets another place. -/
theorem perm_names_lookup : (c.lookup item).names.Perm c.names := by
  rw [lookup]
  split
  · rename_i entry _ hfind
    exact (perm_names_place entry).trans ((perm_eraseKey hfind).map Prod.fst)
  · rename_i entry _ hfind
    have hitem : entry.1 = item := by simpa using find?_some hfind
    refine (perm_names_place _).trans ?_
    rw [← hitem] at hfind ⊢
    exact (perm_eraseKey hfind).map Prod.fst
  · exact Perm.refl _

theorem length_lookup : (c.lookup item).items.length = c.items.length := by
  have hlength := (c.perm_names_lookup item).length_eq
  rwa [names, names, length_map, length_map] at hlength

theorem Holds.lookup (h : c.Holds m) (item : Name) : (c.lookup item).Holds m := by
  have hperm := c.perm_names_lookup item
  refine ⟨hperm.nodup_iff.mpr h.nodup, fun node => ?_, ?_⟩
  · rw [hperm.mem_iff, policy_lookup]
    exact h.mem_names node
  · have hrest : (c.takeOut item).policy.multiset = true →
        (c.takeOut item).items.Pairwise fun a b => a.2 ≤ b.2 :=
      fun hmultiset => (h.sorted hmultiset).sublist eraseKey_sublist
    rw [Container.lookup]
    split
    · exact sorted_place hrest _
    · exact sorted_place hrest _
    · exact h.sorted

end Container

namespace Policies

variable {m payload : NameMap String Data} {draw : Draw} {item : Name}

/-- The policy that is asked last. -/
theorem insert_singleton (value : Container) :
    insert payload draw item [] [value] =
      if value.refuses draw then ([value], ⟨[], false⟩)
      else
        ([(value.victim.toList.foldl (Container.erase payload) value).push payload draw item],
          ⟨value.victim.toList, true⟩) := by
  simp only [insert, foldl_nil, map_nil, append_nil, if_true]

/-- A policy that is asked first. -/
theorem verdict_insert_pair (value super : Container) :
    (insert payload draw item [] [value, super]).2 =
      if value.refuses draw then ⟨[], false⟩
      else
        ⟨value.victim.toList ++
            (insert payload draw item value.victim.toList [super]).2.erased,
          (insert payload draw item value.victim.toList [super]).2.ok⟩ := by
  rw [insert]
  dsimp only
  split
  · rename_i hrefuses
    exact (if_pos hrefuses).symm
  · rename_i hrefuses
    exact (if_neg hrefuses).symm

/-- The policy that is asked first keeps its other entries as they are. -/
theorem exists_insert_cons (payload : NameMap String Data) (draw : Draw) (item : Name)
    (gone : List Name) (value : Container) (super : List Container) :
    ∃ value' super', (insert payload draw item gone (value :: super)).1 = value' :: super' ∧
      ∀ entry ∈ value'.items,
        entry ∈ value.items ∨ entry = (item, value.policy.hook payload draw item) := by
  rw [insert]
  dsimp only
  split
  · exact ⟨_, _, rfl, fun entry hentry => .inl ((foldl_erase_sublist gone).subset hentry)⟩
  · refine ⟨_, _, rfl, fun entry hentry => ?_⟩
    have hpushed : entry ∈ ((((gone.foldl (Container.erase payload) value).victim.toList.foldl
        (Container.erase payload) (gone.foldl (Container.erase payload) value)).push payload draw
          item).items) := by
      split at hentry
      · exact (foldl_erase_sublist _).subset hentry
      · exact (foldl_erase_sublist _).subset
          ((erase_sublist item).subset hentry)
    rcases mem_push hpushed with hold | hnew
    · exact .inl ((foldl_erase_sublist gone).subset
        ((foldl_erase_sublist _).subset hold))
    · refine .inr (hnew.trans ?_)
      rw [policy_foldl_erase, policy_foldl_erase]

/-- A policy that refuses the entry evicts nothing for it. -/
theorem erased_insert_singleton {gone : List Name} {value : Container}
    (h : (insert payload draw item gone [value]).2.ok = false) :
    (insert payload draw item gone [value]).2.erased = [] := by
  rw [insert] at h ⊢
  dsimp only at h ⊢
  split
  · rfl
  · rename_i hrefuses
    rw [if_neg hrefuses] at h
    cases h

theorem map_policy_insert (gone : List Name) (containers : List Container) :
    (insert payload draw item gone containers).1.map policy =
      containers.map policy := by
  induction containers generalizing gone with
  | nil => rfl
  | cons value super ih =>
    rw [insert]
    dsimp only
    split
    · simp [policy_foldl_erase]
    · rw [map_cons, map_cons, ih]
      split <;>
        simp only [policy_foldl_erase, policy_erase, policy_push]

theorem reads_of_update {data : Data} (hnew : m item = none)
    (hpayload : payload = update m item (some data)) : Reads payload m := by
  intro node hsome
  have hne : node ≠ item := by
    rintro rfl
    rw [hnew] at hsome
    cases hsome
  rw [hpayload, update_of_ne hne]

/-- A policy that takes the entry, after evictions by those before it, by itself and by those
after it, and that takes the entry out again if one of these refuses it. -/
theorem holds_asked {value : Container} {data : Data} {gone evicted erased : List Name}
    (hnew : m item = none) (hpayload : payload = update m item (some data))
    (hvalue : value.Holds (gone.foldl NameMap.erase m)) (hgone : item ∉ gone)
    (hevicted : item ∉ evicted) (ok : Bool) :
    (if ok then
        erased.foldl (Container.erase payload)
          ((evicted.foldl (Container.erase payload) value).push payload draw item)
      else
        (erased.foldl (Container.erase payload)
          ((evicted.foldl (Container.erase payload) value).push payload draw item)).erase
            payload item).Holds
      (erased.foldl NameMap.erase (evicted.foldl NameMap.erase (gone.foldl NameMap.erase
        (if ok then payload else m)))) := by
  have hreads := reads_of_update hnew hpayload
  have hself : Reads payload payload := fun _ _ => rfl
  have hitem : evicted.foldl NameMap.erase (gone.foldl NameMap.erase m) item = none := by
    simp only [NameMap.foldl_erase_apply, hnew, ite_self]
  have hdata : payload item = some data := by rw [hpayload, update_self]
  have htaken := (hvalue.foldl_erase (hreads.foldl_erase gone) evicted).push draw hitem hdata
  rw [← NameMap.foldl_erase_update hevicted, ← NameMap.foldl_erase_update hgone,
    ← hpayload] at htaken
  have hleft := htaken.foldl_erase ((hself.foldl_erase gone).foldl_erase evicted) erased
  cases ok with
  | true => exact hleft
  | false =>
    have hback : payload.erase item = m := by
      rw [hpayload, NameMap.erase, update_idem, ← hnew, update_eq_self]
    have hout := hleft.erase
      (((hself.foldl_erase gone).foldl_erase evicted).foldl_erase erased) item
    rw [← NameMap.foldl_erase_erase, ← NameMap.foldl_erase_erase,
      ← NameMap.foldl_erase_erase, hback] at hout
    exact hout

/-- **Asking the policies**: whether or not they take the new entry, their containers have
what is left. -/
theorem insert_spec (draw : Draw) {data : Data} (hnew : m item = none)
    (hpayload : payload = update m item (some data)) {containers : List Container}
    (hholds : ∀ c ∈ containers, c.Holds m) (gone : List Name)
    (hgone : ∀ name ∈ gone, (m name).isSome) :
    (∀ c ∈ (insert payload draw item gone containers).1,
        c.Holds ((insert payload draw item gone containers).2.erased.foldl NameMap.erase
          (gone.foldl NameMap.erase
            (if (insert payload draw item gone containers).2.ok then payload else m)))) ∧
      (insert payload draw item gone containers).2.erased.Nodup ∧
      ∀ name ∈ (insert payload draw item gone containers).2.erased,
        (m name).isSome ∧ name ∉ gone := by
  induction containers generalizing gone with
  | nil => exact ⟨fun c hc => absurd hc not_mem_nil, nodup_nil, fun name hname =>
    absurd hname not_mem_nil⟩
  | cons value super ih =>
    have hreads := reads_of_update hnew hpayload
    have hitem : ∀ names : List Name, (∀ name ∈ names, (m name).isSome) → item ∉ names := by
      intro names hnames hmem
      have hsome := hnames item hmem
      rw [hnew] at hsome
      cases hsome
    have hvalue := (hholds value mem_cons_self).foldl_erase hreads gone
    have hsuper : ∀ c ∈ super, c.Holds m := fun c hc => hholds c (mem_cons_of_mem _ hc)
    rw [insert]
    generalize gone.foldl (Container.erase payload) value = value at hvalue ⊢
    dsimp only
    split
    · refine ⟨?_, nodup_nil, fun name hname => absurd hname not_mem_nil⟩
      intro c hc
      rcases mem_cons.mp hc with rfl | hc
      · exact hvalue
      · obtain ⟨c', hc', rfl⟩ := mem_map.mp hc
        exact (hsuper c' hc').foldl_erase hreads gone
    · have hevicted : ∀ name ∈ value.victim.toList, (m name).isSome ∧ name ∉ gone := by
        intro name hname
        have hmem := ((hvalue.mem_names name).mp
          (Container.victim_mem (Option.mem_toList.mp hname))).1
        rw [NameMap.foldl_erase_apply] at hmem
        split at hmem
        · cases hmem
        · exact ⟨hmem, ‹_›⟩
      have hnodup : value.victim.toList.Nodup := by cases value.victim <;> simp
      generalize value.victim.toList = evicted at hevicted hnodup ⊢
      have hgone' : ∀ name ∈ gone ++ evicted, (m name).isSome := by
        intro name hname
        rcases mem_append.mp hname with hname | hname
        · exact hgone name hname
        · exact (hevicted name hname).1
      obtain ⟨hsuper', hnodup', herased⟩ := ih hsuper _ hgone'
      generalize insert payload draw item (gone ++ evicted) super = result
        at hsuper' hnodup' herased ⊢
      obtain ⟨super', erased, ok⟩ := result
      dsimp only at hsuper' hnodup' herased ⊢
      simp only [foldl_append] at hsuper' ⊢
      refine ⟨?_, ?_, ?_⟩
      · intro c hc
        rcases mem_cons.mp hc with rfl | hc
        · exact holds_asked hnew hpayload hvalue (hitem gone hgone)
            (hitem evicted fun name hname => (hevicted name hname).1) ok
        · exact hsuper' c hc
      · refine nodup_append.mpr ⟨hnodup, hnodup', ?_⟩
        rintro name hname _ hname' rfl
        exact (herased name hname').2 (mem_append_right gone hname)
      · intro name hname
        rcases mem_append.mp hname with hname | hname
        · exact hevicted name hname
        · obtain ⟨hsome, hout⟩ := herased name hname
          exact ⟨hsome, fun hmem => hout (mem_append_left evicted hmem)⟩

end Policies

end ValProofs
