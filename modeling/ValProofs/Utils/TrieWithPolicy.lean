import ValProofs.Lib.System
import ValProofs.Utils.Trie

/-!
`trie_with_policy`: the trie, with a policy that is told of the entries.

The policy is left open. It changes the trie only when it is told of a new entry: it may
then erase others, and it may refuse the new one, which is erased again. To the names the
trie is a map in which an insert does not overwrite. It has no nodes that no name needs, so
the number of nodes is bounded by the lengths of the names.
-/

namespace ValProofs

open Lib Function Trie Option List

/-- What `policy_.insert` does: the nodes that it erases, and its answer. -/
structure Verdict (κ : Type) where
  erased : List (List κ)
  ok : Bool

/-- What the trie is for. -/
abbrev NameMap (κ α : Type) := List κ → Option α

namespace NameMap

variable {κ α : Type} [DecidableEq κ]

/-- A name that is there already keeps its payload. -/
def insert (m : NameMap κ α) (name : List κ) (payload : α) : NameMap κ α :=
  if (m name).isNone then Function.update m name (some payload) else m

def erase (m : NameMap κ α) (name : List κ) : NameMap κ α := Function.update m name none

theorem erase_self (m : NameMap κ α) (name : List κ) : m.erase name name = none := by
  rw [erase, update_self]

variable {name : List κ}

theorem erase_of_ne (m : NameMap κ α) {other : List κ} (h : other ≠ name) :
    m.erase name other = m other := by
  rw [erase, update_of_ne h]

theorem erase_of_none {m : NameMap κ α} (h : m name = none) : m.erase name = m := by
  rw [erase, ← h, update_eq_self]

/-- The policy is only told of a new name. -/
def insertWith (verdict : Verdict κ) (m : NameMap κ α) (name : List κ) (payload : α) :
    NameMap κ α :=
  if (m name).isNone then
    verdict.erased.foldl erase (if verdict.ok then m.insert name payload else m)
  else m

theorem insertWith_nil (ok : Bool) (m : NameMap κ α) (name : List κ) (payload : α) :
    m.insertWith ⟨[], ok⟩ name payload = if ok then m.insert name payload else m := by
  rw [insertWith, insert]
  split
  · rfl
  · exact (ite_self m).symm

theorem foldl_erase_apply (names : List (List κ)) (m : NameMap κ α) (name : List κ) :
    names.foldl erase m name = if name ∈ names then none else m name := by
  induction names generalizing m with
  | nil => rfl
  | cons first names ih =>
    rw [foldl_cons, ih, erase, update_apply]
    by_cases hfirst : name = first <;> simp [hfirst]

/-- What is there after an insert was there before, or is new. -/
theorem insertWith_eq_some {verdict : Verdict κ} {m : NameMap κ α} {other : List κ} {a b : α}
    (h : m.insertWith verdict name a other = some b) :
    m other = some b ∨ m name = none ∧ verdict.ok = true ∧ other = name ∧ b = a := by
  rw [insertWith] at h
  split at h
  · rename_i hnone
    rw [foldl_erase_apply] at h
    split at h
    · cases h
    · split at h
      · rename_i hok
        rw [insert, if_pos hnone, update_apply] at h
        split at h
        · rename_i heq
          exact .inr ⟨isNone_iff_eq_none.mp hnone, hok, heq, (some.inj h).symm⟩
        · exact .inl h
      · exact .inl h
  · exact .inl h

theorem map_insertWith {β : Type} (f : α → β) (verdict : Verdict κ) (m : NameMap κ α)
    (name : List κ) (a : α) :
    (fun other => (m.insertWith verdict name a other).map f) =
      insertWith verdict (fun other => (m other).map f) name (f a) := by
  funext other
  rw [insertWith, insertWith, isNone_map]
  split
  · rename_i hnone
    rw [foldl_erase_apply, foldl_erase_apply]
    split
    · rfl
    · cases verdict.ok with
      | true =>
        rw [if_pos rfl, if_pos rfl, insert, insert, isNone_map, if_pos hnone, if_pos hnone,
          update_apply, update_apply]
        split <;> rfl
      | false => rfl
  · rfl

theorem foldl_erase_update {names : List (List κ)} (h : name ∉ names) (m : NameMap κ α)
    (value : Option α) :
    names.foldl erase (update m name value) =
      update (names.foldl erase m) name value := by
  funext other
  simp only [foldl_erase_apply, update_apply]
  by_cases hother : other = name
  · subst hother
    simp [h]
  · simp [hother]

theorem foldl_erase_erase (names : List (List κ)) (name : List κ) (m : NameMap κ α) :
    names.foldl erase (m.erase name) = (names.foldl erase m).erase name := by
  funext other
  simp only [foldl_erase_apply, erase, update_apply]
  by_cases hother : other = name <;> simp [hother]

end NameMap

/-- The policy erases entries that it has been told of before. -/
structure Verdict.Allowed {κ α : Type} (verdict : Verdict κ) (m : NameMap κ α) : Prop where
  nodup : verdict.erased.Nodup
  cached : ∀ name ∈ verdict.erased, (m name).isSome

theorem Verdict.allowed_nil {κ α : Type} (ok : Bool) (m : NameMap κ α) :
    Verdict.Allowed ⟨[], ok⟩ m :=
  ⟨nodup_nil, fun _ hmem => absurd hmem not_mem_nil⟩

/-- The new entry is not among them. -/
theorem NameMap.insertWith_of_new {κ α : Type} [DecidableEq κ] {verdict : Verdict κ}
    {m : NameMap κ α} (hallowed : verdict.Allowed m) {name : List κ} (hnew : m name = none)
    (a : α) :
    m.insertWith verdict name a =
      update (verdict.erased.foldl erase m) name (if verdict.ok then some a else none) := by
  have hkeeps : name ∉ verdict.erased := by
    intro hmem
    have hsome := hallowed.cached name hmem
    rw [hnew] at hsome
    cases hsome
  rw [insertWith, hnew, isNone_none, if_pos rfl, ← foldl_erase_update hkeeps]
  cases verdict.ok with
  | true => rw [if_pos rfl, insert, hnew, isNone_none, if_pos rfl, if_pos rfl]
  | false => rw [if_neg Bool.false_ne_true, if_neg Bool.false_ne_true, ← hnew, update_eq_self]

namespace TrieWithPolicy

variable {κ α : Type} [DecidableEq κ]

/-- `erase(node)`. -/
def eraseNode (t : Trie κ α) : Option (List κ) → Trie κ α
  | none => t
  | some node => (t.erase node).1

/-- `insert(key, payload)`: the trie, and what is returned. -/
def insert (h : Hashing κ α) (verdict : Verdict κ) (t : Trie κ α) (key : List κ) (payload : α) :
    Trie κ α × Option (List κ) × Bool :=
  match t.insert h key payload with
  | (t, node, true) =>
      let t := verdict.erased.foldl (fun t node => eraseNode t (some node)) t
      if verdict.ok then (t, some node, true) else ((t.erase node).1, none, false)
  | (t, node, false) => (t, some node, false)

/-- `erase(key)`. -/
def erase (t : Trie κ α) (key : List κ) : Trie κ α :=
  match t.find key with
  | (_, reachLast, lastItem) =>
      if !reachLast || (t.payload lastItem).isNone then t else eraseNode t (some lastItem)

/-- `find_exact(key)`. -/
def findExact (t : Trie κ α) (key : List κ) : Option (List κ) :=
  match t.find key with
  | (_, reachLast, lastItem) =>
      if !reachLast || (t.payload lastItem).isNone then none else some lastItem

/-- `longest_prefix_match(key)`. -/
def longestPrefixMatch (t : Trie κ α) (key : List κ) : Option (List κ) := (t.find key).1

/-- A search that is called on a node, and the node that it finds. -/
def searchAt (t : Trie κ α) (search : Trie κ α → Option (List κ)) (node : List κ) :
    Option (List κ) :=
  (t.get? node).bind fun n => (search n).map (node ++ ·)

/-- What `deepest_prefix_match(key)` calls `policy_.lookup` with, if it calls it; if there
is nothing to find that is a null pointer. -/
def deepestPrefixMatchLookup (t : Trie κ α) (key : List κ) : Option (Option (List κ)) :=
  match t.find key with
  | (foundItem, reachLast, lastItem) =>
      if reachLast then
        match foundItem with
        | none => some (searchAt t Trie.findAny lastItem)
        | some node => some (some node)
      else none

/-- `deepest_prefix_match(key)`. -/
def deepestPrefixMatch (t : Trie κ α) (key : List κ) : Option (List κ) :=
  (deepestPrefixMatchLookup t key).join

/-- `deepest_prefix_match_if_next_level(key, pred)`. -/
def deepestPrefixMatchIfNextLevel (t : Trie κ α) (key : List κ) (pred : κ → Bool) :
    Option (List κ) :=
  match t.find key with
  | (_, reachLast, lastItem) =>
      if reachLast then searchAt t (Trie.findIfNextLevel pred) lastItem else none

/-! ### One operation -/

variable {t : Trie κ α} {node : List κ}

theorem eraseNode_spec (hsound : Sound [] t) (hnode : (t.get? node).isSome) :
    Sound [] (eraseNode t (some node)) ∧
      (eraseNode t (some node)).payload = NameMap.erase t.payload node :=
  hsound.erase hnode

theorem foldl_eraseNode_spec (hsound : Sound [] t) {nodes : List (List κ)}
    (hnodup : nodes.Nodup) (hnodes : ∀ node ∈ nodes, (t.payload node).isSome) :
    Sound [] (nodes.foldl (fun t node => eraseNode t (some node)) t) ∧
      (nodes.foldl (fun t node => eraseNode t (some node)) t).payload =
        nodes.foldl NameMap.erase t.payload := by
  induction nodes generalizing t with
  | nil => exact ⟨hsound, rfl⟩
  | cons node nodes ih =>
    obtain ⟨hnew, hnodup⟩ := nodup_cons.mp hnodup
    obtain ⟨hsound', hpayload⟩ := eraseNode_spec hsound
      (get?_isSome_of_payload (hnodes node mem_cons_self))
    rw [foldl_cons, foldl_cons, ← hpayload]
    refine ih hsound' hnodup fun other hmem => ?_
    have hne : other ≠ node := fun heq => hnew (heq ▸ hmem)
    rw [hpayload, NameMap.erase, update_of_ne hne]
    exact hnodes other (mem_cons_of_mem node hmem)

theorem insert_spec (hsound : Sound [] t) (h : Hashing κ α) {verdict : Verdict κ}
    (hallowed : verdict.Allowed t.payload) (key : List κ) (payload : α) :
    Sound [] (insert h verdict t key payload).1 ∧
      (insert h verdict t key payload).1.payload =
        NameMap.insertWith verdict t.payload key payload := by
  obtain ⟨hsound', -, hreturn, hpayload⟩ := hsound.insert h key payload
  rw [insert, NameMap.insertWith, NameMap.insert]
  generalize t.insert h key payload = result at hsound' hreturn hpayload ⊢
  obtain ⟨t', node, isNew⟩ := result
  obtain ⟨rfl, rfl⟩ := Prod.mk.inj hreturn
  dsimp only at hsound' hpayload ⊢
  cases hold : t.payload node with
  | some old =>
    rw [hold] at hpayload
    exact ⟨hsound', hpayload⟩
  | none =>
    rw [hold] at hpayload
    simp only [isNone_none, if_true] at hpayload ⊢
    have hother : ∀ name ∈ verdict.erased, name ≠ node := by
      rintro name hmem rfl
      have hcached := hallowed.cached name hmem
      rw [hold] at hcached
      cases hcached
    obtain ⟨hsound'', hpayload'⟩ := foldl_eraseNode_spec hsound' hallowed.nodup
      fun name hmem => by
        rw [hpayload, update_of_ne (hother name hmem)]
        exact hallowed.cached name hmem
    rw [hpayload] at hpayload'
    cases verdict.ok with
    | true => exact ⟨hsound'', hpayload'⟩
    | false =>
      -- the new entry is still there, and goes last
      have hnew : node ∉ verdict.erased := fun hmem => hother node hmem rfl
      have hnode := congrFun hpayload' node
      rw [NameMap.foldl_erase_apply, if_neg hnew, update_self] at hnode
      obtain ⟨hsound₃, hpayload''⟩ :=
        eraseNode_spec hsound'' (get?_isSome_of_payload (isSome_of_eq_some hnode))
      refine ⟨hsound₃, hpayload''.trans (funext fun name => ?_)⟩
      rw [hpayload', NameMap.erase, update_apply, NameMap.foldl_erase_apply]
      by_cases hname : name = node
      · subst hname
        simp [NameMap.foldl_erase_apply, hold]
      · simp [NameMap.foldl_erase_apply, hname]

/-- What `insert` returns. -/
theorem snd_insert (hsound : Sound [] t) (h : Hashing κ α) (verdict : Verdict κ)
    (key : List κ) (payload : α) :
    (insert h verdict t key payload).2 =
      if (t.payload key).isNone && verdict.ok then (some key, true)
      else (if (t.payload key).isNone then none else some key, false) := by
  obtain ⟨-, -, hreturn, -⟩ := hsound.insert h key payload
  rw [insert]
  generalize t.insert h key payload = result at hreturn ⊢
  obtain ⟨t', node, isNew⟩ := result
  obtain ⟨rfl, rfl⟩ := Prod.mk.inj hreturn
  cases t.payload node with
  | some old => rfl
  | none => cases verdict.ok <;> rfl

theorem findExact_eq (t : Trie κ α) (key : List κ) :
    findExact t key = if (t.payload key).isSome then some key else none := by
  rw [findExact]
  obtain ⟨-, hfind⟩ | ⟨hnone, lastItem, hfind⟩ := t.find_cases key
  · rw [hfind]
    dsimp only
    cases t.payload key <;> rfl
  · rw [hfind, payload_eq_none hnone]
    rfl

theorem erase_eq (t : Trie κ α) (key : List κ) :
    erase t key = if (t.payload key).isSome then eraseNode t (some key) else t := by
  rw [erase]
  obtain ⟨-, hfind⟩ | ⟨hnone, lastItem, hfind⟩ := t.find_cases key
  · rw [hfind]
    dsimp only
    cases t.payload key <;> rfl
  · rw [hfind, payload_eq_none hnone]
    rfl

theorem erase_spec (hsound : Sound [] t) (key : List κ) :
    Sound [] (erase t key) ∧ (erase t key).payload = NameMap.erase t.payload key := by
  rw [erase_eq]
  cases hkey : t.payload key with
  | none => exact ⟨hsound, (NameMap.erase_of_none hkey).symm⟩
  | some a =>
    exact eraseNode_spec hsound (get?_isSome_of_payload (isSome_of_eq_some hkey))

/-! ### Searching below a name -/

/-- The node that is found if the name itself leads to a node. -/
theorem deepestPrefixMatch_eq (t : Trie κ α) (key : List κ) :
    deepestPrefixMatch t key =
      if (t.get? key).isSome then (t.find key).1.or (searchAt t findAny key) else none := by
  rw [deepestPrefixMatch, deepestPrefixMatchLookup]
  obtain ⟨hnode, hfind⟩ | ⟨hnone, lastItem, hfind⟩ := t.find_cases key
  · rw [if_pos hnode, hfind]
    cases (t.find key).1 <;> rfl
  · rw [hfind, hnone]
    rfl

theorem deepestPrefixMatchLookup_eq (t : Trie κ α) (key : List κ) :
    deepestPrefixMatchLookup t key =
      if (t.get? key).isSome then some (deepestPrefixMatch t key) else none := by
  rw [deepestPrefixMatch, deepestPrefixMatchLookup]
  obtain ⟨hnode, hfind⟩ | ⟨hnone, lastItem, hfind⟩ := t.find_cases key
  · rw [if_pos hnode, hfind]
    cases (t.find key).1 <;> rfl
  · rw [hfind, hnone]
    rfl

theorem deepestPrefixMatchIfNextLevel_eq (t : Trie κ α) (key : List κ) (pred : κ → Bool) :
    deepestPrefixMatchIfNextLevel t key pred = searchAt t (findIfNextLevel pred) key := by
  rw [deepestPrefixMatchIfNextLevel]
  obtain ⟨-, hfind⟩ | ⟨hnone, lastItem, hfind⟩ := t.find_cases key
  · rw [hfind]
    rfl
  · rw [hfind, searchAt, hnone]
    rfl

variable {key : List κ}

theorem searchAt_findAny (h : t.Distinct) (hfound : searchAt t findAny key = some node) :
    (t.payload node).isSome ∧ key <+: node := by
  obtain ⟨n, hn, hbelow⟩ := bind_eq_some_iff.mp hfound
  obtain ⟨path, hpath, rfl⟩ := map_eq_some_iff.mp hbelow
  refine ⟨?_, prefix_append key path⟩
  rw [Trie.payload, Tree.valueAt_append _ hn]
  exact payload_findAny (h.get? hn) hpath

theorem searchAt_findAny_isSome (h : t.Distinct) {rest : List κ}
    (hpayload : (t.payload (key ++ rest)).isSome) : (searchAt t findAny key).isSome := by
  have hnode := get?_isSome_of_payload hpayload
  rw [Tree.get?_append] at hnode
  obtain ⟨n, hn⟩ := isSome_iff_exists.mp (isSome_of_isSome_bind hnode)
  rw [Trie.payload, Tree.valueAt_append _ hn] at hpayload
  rw [searchAt, hn, bind_some, isSome_map]
  exact findAny_isSome (h.get? hn) hpayload

theorem searchAt_findIfNextLevel (h : t.Distinct) {pred : κ → Bool}
    (hfound : searchAt t (findIfNextLevel pred) key = some node) :
    (t.payload node).isSome ∧ ∃ next rest, node = key ++ next :: rest ∧ pred next = true := by
  obtain ⟨n, hn, hbelow⟩ := bind_eq_some_iff.mp hfound
  obtain ⟨path, hpath, rfl⟩ := map_eq_some_iff.mp hbelow
  obtain ⟨hpayload, next, rest, rfl, hpred⟩ := payload_findIfNextLevel (h.get? hn) hpath
  refine ⟨?_, next, rest, rfl, hpred⟩
  rw [Trie.payload, Tree.valueAt_append _ hn]
  exact hpayload

/-! ### Any sequence of operations

From here on the policy evicts nothing. -/

inductive Op (κ α : Type)
  | insert (key : List κ) (payload : α) (ok : Bool)
  | erase (key : List κ)
  | eraseNode (node : Option (List κ))

/-- The trie, and the map on which the same has been done. -/
structure Store (κ α : Type) where
  trie : Trie κ α
  map : NameMap κ α

namespace Store

/-- An entry that the policy refuses does not get into the map either. -/
def next (h : Hashing κ α) (s : Store κ α) : Op κ α → Store κ α
  | .insert key payload ok =>
      ⟨(TrieWithPolicy.insert h ⟨[], ok⟩ s.trie key payload).1,
        if ok then s.map.insert key payload else s.map⟩
  | .erase key => ⟨TrieWithPolicy.erase s.trie key, s.map.erase key⟩
  | .eraseNode none => ⟨TrieWithPolicy.eraseNode s.trie none, s.map⟩
  | .eraseNode (some node) => ⟨TrieWithPolicy.eraseNode s.trie (some node), s.map.erase node⟩

/-- A node that is erased is in the trie. -/
def guard (s : Store κ α) : Op κ α → Prop
  | .eraseNode (some node) => (s.trie.get? node).isSome
  | _ => True

def machine (h : Hashing κ α) : System (Store κ α) (Op κ α) where
  init s := ∃ key bucketSize bucketIncrement,
    s = ⟨Trie.construct key bucketSize bucketIncrement, fun _ => none⟩
  guard := guard
  next := next h

/-- The trie has the payloads of the map. -/
structure Refines (s : Store κ α) : Prop where
  sound : Trie.Sound [] s.trie
  payload : s.trie.payload = s.map

theorem Refines.next {s : Store κ α} (hs : s.Refines) (h : Hashing κ α) {op : Op κ α}
    (hguard : s.guard op) : (s.next h op).Refines := by
  cases op with
  | insert key payload ok =>
    obtain ⟨hsound, hpayload⟩ := insert_spec hs.sound h (Verdict.allowed_nil ok _) key payload
    rw [NameMap.insertWith_nil, hs.payload] at hpayload
    exact ⟨hsound, hpayload⟩
  | erase key =>
    obtain ⟨hsound, hpayload⟩ := erase_spec hs.sound key
    rw [hs.payload] at hpayload
    exact ⟨hsound, hpayload⟩
  | eraseNode node =>
    cases node with
    | none => exact hs
    | some node =>
      obtain ⟨hsound, hpayload⟩ := eraseNode_spec hs.sound hguard
      rw [hs.payload] at hpayload
      exact ⟨hsound, hpayload⟩

theorem refines_of_reachable {h : Hashing κ α} {s : Store κ α} (hs : (machine h).Reachable s) :
    s.Refines := by
  refine hs.invariant (I := Refines) ?_ fun s op hs hguard => hs.next h hguard
  rintro _ ⟨key, bucketSize, bucketIncrement, rfl⟩
  exact ⟨sound_construct key bucketSize bucketIncrement,
    payload_construct key bucketSize bucketIncrement⟩

/-- **The trie is a map.** After any operations a walk over the trie comes by the names
and payloads of the map, each once; the look-ups find what the map says; and a node other
than the root has a payload or children, so that there are no more nodes than the names
have components, next to the root. -/
theorem trie_refines_map {h : Hashing κ α} {s : Store κ α} (hs : (machine h).Reachable s) :
    (∀ name a, (name, a) ∈ s.trie.entries TrieNode.payload ↔ s.map name = some a) ∧
    ((s.trie.entries TrieNode.payload).map Prod.fst).Nodup ∧
    (∀ name, findExact s.trie name = if (s.map name).isSome then some name else none) ∧
    (∀ name, Trie.IsLongestPrefix s.map name (longestPrefixMatch s.trie name)) ∧
    (∀ node, s.trie.payload node = s.map node) ∧
    (∀ node n, s.trie.get? node = some n → node ≠ [] →
      n.data.payload ≠ none ∨ n.children ≠ []) ∧
    s.trie.count ≤ 1 + ((s.trie.entries TrieNode.payload).map fun e => e.1.length).sum := by
  obtain ⟨hsound, hpayload⟩ := refines_of_reachable hs
  refine ⟨fun name a => ?_, Tree.nodup_entries hsound.distinct, fun name => ?_, fun name => ?_,
    congrFun hpayload, fun node n hn hne => ?_, Tree.count_le hsound.distinct hsound.trimmed⟩
  · rw [Tree.mem_entries hsound.distinct, ← hpayload]
    rfl
  · rw [findExact_eq, hpayload]
  · rw [← hpayload]
    exact (s.trie.find_spec name).1
  · refine (hsound.trimmed node _ _ (Tree.view_of_get? hn) hne hne).imp
      Option.isSome_iff_ne_none.mp fun hlabels hchildren => hlabels ?_
    rw [Tree.labels, hchildren]
    rfl

/-- New children are visited last. -/
def lastHashing : Hashing κ α where
  arrange := fun _ children => children.reverse
  perm := fun _ children => children.reverse_perm

/-- `/a/b` is not overwritten, and goes with its node; `/a` goes before. -/
def sampleOps : List (Op String ℕ) :=
  [.insert ["a", "b"] 1 true, .insert ["a"] 2 true, .insert ["a", "c"] 3 true,
    .insert ["a", "b"] 9 true, .insert ["d", "e"] 4 false, .erase ["a"],
    .eraseNode (some ["a", "b"])]

def sampleStore : Store String ℕ :=
  sampleOps.foldl (next lastHashing) ⟨Trie.construct "" 1 1, fun _ => none⟩

theorem sampleStore_reachable : (machine lastHashing).Reachable sampleStore := by
  refine System.Reachable.foldl (.of_init ⟨"", 1, 1, rfl⟩) ?_
  refine .cons trivial (.cons trivial (.cons trivial (.cons trivial (.cons trivial
    (.cons trivial (.cons ?_ (.nil _)))))))
  exact rfl

theorem trie_refines_map_sample :
    sampleStore.map ["a", "c"] = some 3 ∧
    (∀ name a, (name, a) ∈ sampleStore.trie.entries TrieNode.payload ↔
      sampleStore.map name = some a) ∧
    ((sampleStore.trie.entries TrieNode.payload).map Prod.fst).Nodup ∧
    (∀ name, findExact sampleStore.trie name =
      if (sampleStore.map name).isSome then some name else none) ∧
    (∀ name, Trie.IsLongestPrefix sampleStore.map name
      (longestPrefixMatch sampleStore.trie name)) ∧
    (∀ node, sampleStore.trie.payload node = sampleStore.map node) ∧
    (∀ node n, sampleStore.trie.get? node = some n → node ≠ [] →
      n.data.payload ≠ none ∨ n.children ≠ []) ∧
    sampleStore.trie.count ≤
      1 + ((sampleStore.trie.entries TrieNode.payload).map fun e => e.1.length).sum :=
  ⟨by decide, trie_refines_map sampleStore_reachable⟩

end Store

/-! ### The hash tables

They are not part of that bound. A table gets more buckets when there are as many
children as buckets, and never fewer. -/

/-- The root has children with these keys, and buckets for them. -/
structure Roomy (keys : List κ) (t : Trie κ α) : Prop where
  labels : t.labels.Perm keys
  bucketSize : keys.length ≤ t.data.bucketSize
  bucketIncrement : 1 ≤ t.data.bucketIncrement

variable {keys : List κ}

omit [DecidableEq κ] in
theorem Roomy.insertChild (h : Roomy keys t) (hashing : Hashing κ α) (newNode : Trie κ α) :
    Roomy (newNode.label :: keys) (Trie.insertChild hashing newNode t) := by
  obtain ⟨key, data, children⟩ := t
  obtain ⟨hlabels, hsize, hincrement⟩ := h
  have hlength : children.length = keys.length := by
    rw [← hlabels.length_eq, Tree.labels, length_map]
    rfl
  have hperm := Tree.labels_perm
    (children_insertChild hashing newNode (.node key data children))
  refine ⟨hperm.trans (hlabels.cons _), ?_, ?_⟩
  · simp only [Trie.insertChild, Tree.data] at hsize hincrement ⊢
    rw [length_cons]
    split
    · dsimp only
      omega
    · omega
  · simp only [Trie.insertChild, Tree.data] at hincrement ⊢
    split
    · dsimp only
      omega
    · exact hincrement

/-- Changes below the root. -/
theorem Roomy.modify_cons (h : Roomy keys t) {f : Trie κ α → Trie κ α}
    (hf : ∀ t, (f t).label = t.label) (key : κ) (path : List κ) :
    Roomy keys (t.modify f (key :: path)) := by
  refine ⟨?_, h.bucketSize, h.bucketIncrement⟩
  rw [Tree.labels_modify_cons hf]
  exact h.labels

theorem Roomy.insert (h : Roomy keys t) (hashing : Hashing κ α) {key : κ} (hnew : key ∉ keys)
    (payload : α) : Roomy (key :: keys) (insert hashing ⟨[], true⟩ t [key] payload).1 := by
  have hnone : t.get? ([] ++ [key]) = none := by
    rw [Tree.get?_concat, Tree.get?_nil, bind_some]
    exact Tree.child?_eq_none_iff.mpr fun hmem => hnew (h.labels.mem_iff.mp hmem)
  have hroomy := h.insertChild hashing
    (.construct key t.data.initialBucketSize t.data.bucketIncrement)
  have hlabel : ∀ t : Trie κ α, (setPayload (some payload) t).label = t.label := by
    rintro ⟨key, data, children⟩
    rfl
  rw [TrieWithPolicy.insert, Trie.insert, Trie.insertNodes, hnone]
  dsimp only [Trie.insertNodes, Tree.modify]
  cases Trie.payload (Trie.insertChild hashing _ t) [key] with
  | none => exact hroomy.modify_cons hlabel key []
  | some _ => exact hroomy

theorem bucketSize_modify {f : Trie κ α → Trie κ α}
    (hf : ∀ t, (f t).data.bucketSize = t.data.bucketSize) (path : List κ) (t : Trie κ α) :
    (t.modify f path).data.bucketSize = t.data.bucketSize := by
  cases path with
  | nil => exact hf t
  | cons key path => rfl

theorem bucketSize_pruneUp (keys : List κ) (t : Trie κ α) :
    (t.pruneUp keys).1.data.bucketSize = t.data.bucketSize := by
  induction keys generalizing t with
  | nil => rfl
  | cons key up ih =>
    rw [pruneUp]
    split
    · rw [ih, bucketSize_modify]
      rintro ⟨_, _, _⟩
      rfl
    · rfl

theorem bucketSize_erase (t : Trie κ α) (key : List κ) :
    (erase t key).data.bucketSize = t.data.bucketSize := by
  rw [erase_eq]
  split
  · rw [eraseNode, Trie.erase, Trie.prune, bucketSize_pruneUp, bucketSize_modify]
    rintro ⟨_, _, _⟩
    rfl
  · rfl

namespace Store

/-- Names of one component are inserted. -/
theorem exists_roomy (h : Hashing κ α) (root : κ) (payload : α) (hkeys : keys.Nodup) :
    ∃ s, (machine h).Reachable s ∧ Roomy keys s.trie ∧
      ∀ name, s.map name ≠ none → ∃ key ∈ keys, name = [key] := by
  induction keys with
  | nil =>
    refine ⟨⟨construct root 1 1, fun _ => none⟩, .of_init ⟨root, 1, 1, rfl⟩, ?_, ?_⟩
    · exact ⟨.nil, Nat.zero_le 1, Nat.le_refl 1⟩
    · exact fun name hname => absurd rfl hname
  | cons key keys ih =>
    obtain ⟨hnew, hkeys⟩ := nodup_cons.mp hkeys
    obtain ⟨s, hs, hroomy, hnames⟩ := ih hkeys
    refine ⟨s.next h (.insert [key] payload true),
      hs.next (e := Op.insert [key] payload true) trivial, hroomy.insert h hnew payload,
      fun name hname => ?_⟩
    by_cases heq : name = [key]
    · exact ⟨key, mem_cons_self, heq⟩
    · have hold : (s.next h (.insert [key] payload true)).map name = s.map name := by
        show (s.map.insert [key] payload) name = s.map name
        rw [NameMap.insert]
        split
        · exact update_of_ne heq _ _
        · rfl
      rw [hold] at hname
      obtain ⟨key', hmem, hkey'⟩ := hnames name hname
      exact ⟨key', mem_cons_of_mem key hmem, hkey'⟩

/-- They are erased again. -/
theorem exists_empty {h : Hashing κ α} {s : Store κ α} (hs : (machine h).Reachable s)
    (hnames : ∀ name, s.map name ≠ none → ∃ key ∈ keys, name = [key]) :
    ∃ s', (machine h).Reachable s' ∧ (∀ name, s'.map name = none) ∧
      s'.trie.data.bucketSize = s.trie.data.bucketSize := by
  induction keys generalizing s with
  | nil =>
    refine ⟨s, hs, fun name => ?_, rfl⟩
    by_contra hname
    obtain ⟨key, hmem, -⟩ := hnames name hname
    exact not_mem_nil hmem
  | cons key keys ih =>
    have hrest : ∀ name, (s.next h (.erase [key])).map name ≠ none →
        ∃ key' ∈ keys, name = [key'] := by
      intro name hname
      have hne : name ≠ [key] := by
        rintro rfl
        exact hname (update_self _ _ _)
      have hold : (s.next h (.erase [key])).map name = s.map name := update_of_ne hne _ _
      obtain ⟨key', hmem, rfl⟩ := hnames name (hold ▸ hname)
      rcases mem_cons.mp hmem with rfl | hmem
      · exact absurd rfl hne
      · exact ⟨key', hmem, rfl⟩
    obtain ⟨s', hs', hempty, hsize⟩ := ih (hs.next (e := Op.erase [key]) trivial) hrest
    exact ⟨s', hs', hempty, hsize.trans (bucketSize_erase s.trie [key])⟩

theorem Refines.entries_eq_nil {s : Store κ α} (hs : s.Refines)
    (hempty : ∀ name, s.map name = none) : s.trie.entries TrieNode.payload = [] := by
  refine eq_nil_iff_forall_not_mem.mpr fun ⟨name, a⟩ hmem => ?_
  have hpayload : s.trie.payload name = some a := (Tree.mem_entries hs.sound.distinct).mp hmem
  rw [hs.payload, hempty name] at hpayload
  cases hpayload

/-- The buckets are not proportional to the names: there may be any number of them when
no name is left. -/
theorem buckets_outlive_names :
    ¬ ∃ c : ℕ, ∀ s : Store ℕ ℕ, (machine lastHashing).Reachable s →
      s.trie.buckets ≤
        c * (1 + ((s.trie.entries TrieNode.payload).map fun e => e.1.length).sum) := by
  rintro ⟨c, hbound⟩
  obtain ⟨s, hs, hroomy, hnames⟩ :=
    exists_roomy lastHashing 0 0 (List.nodup_range (n := c + 1))
  obtain ⟨s', hs', hempty, hsize⟩ := exists_empty hs hnames
  have hentries := (refines_of_reachable hs').entries_eq_nil hempty
  have hle : s'.trie.buckets ≤ c := by
    have hbound' := hbound s' hs'
    rwa [hentries, List.map_nil, List.sum_nil, Nat.add_zero, Nat.mul_one] at hbound'
  have hbuckets := s'.trie.bucketSize_le_buckets
  have hlength := hroomy.bucketSize
  rw [List.length_range] at hlength
  omega

end Store

end TrieWithPolicy

end ValProofs
