import ValProofs.Lib.Tree

/-!
The trie of ndnSIM, in which the content stores keep their entries by name.

An iterator is a pointer to a node. A node stays the same as long as it is in the
trie, so it is given by the path to it, and `end()` is `none`. The children of a node
are in a hash table; the list of children is in the order in which that is iterated,
and how inserting and rehashing change the order is left open.

Inserting makes the nodes on the way one after the other, and erasing takes away
those that are left with nothing. In between there is one node that may be bare: the
one that the code is at.
-/

namespace ValProofs

open Lib Tree Option List Function

/-- The members of a node other than its key and its children. -/
structure TrieNode (α : Type) where
  initialBucketSize : ℕ
  bucketIncrement : ℕ
  bucketSize : ℕ
  /-- None is `empty_payload`. -/
  payload : Option α

abbrev Trie (κ α : Type) := Tree κ (TrieNode α)

/-- The order of the children in a hash table with so many buckets, when the first of
them has just been inserted. -/
structure Hashing (κ α : Type) where
  arrange : ℕ → List (Trie κ α) → List (Trie κ α)
  perm : ∀ bucketSize children, (arrange bucketSize children).Perm children

namespace Trie

variable {κ α : Type}

/-! ### Prefixes of names -/

/-- The longest prefix of the name that is in the map, if there is one. -/
def IsLongestPrefix (m : List κ → Option α) (name : List κ) : Option (List κ) → Prop
  | none => ∀ p, p <+: name → m p = none
  | some p => p <+: name ∧ (m p).isSome ∧
      ∀ p', p' <+: name → (m p').isSome → p'.length ≤ p.length

theorem isLongestPrefix_self {m : List κ → Option α} {name : List κ} (h : (m name).isSome) :
    IsLongestPrefix m name (some name) :=
  ⟨prefix_rfl, h, fun _ hprefix _ => hprefix.length_le⟩

/-- A longer name, with nothing in the map at the new lengths. -/
theorem IsLongestPrefix.append {m : List κ → Option α} {name : List κ} {found : Option (List κ)}
    (h : IsLongestPrefix m name found) {rest : List κ}
    (hnone : ∀ p, p <+: rest → p ≠ [] → m (name ++ p) = none) :
    IsLongestPrefix m (name ++ rest) found := by
  have hshort : ∀ p, p <+: name ++ rest → (m p).isSome → p <+: name := by
    intro p hp hsome
    rcases prefix_or_prefix_of_prefix hp (prefix_append name rest) with hp' | ⟨q, rfl⟩
    · exact hp'
    · by_cases hnil : q = []
      · rw [hnil, append_nil]
      · rw [hnone q ((prefix_append_right_inj name).mp hp) hnil] at hsome
        cases hsome
  cases found with
  | none =>
    intro p hp
    by_contra hsome
    have hsome' := isSome_iff_ne_none.mpr hsome
    exact hsome (h p (hshort p hp hsome'))
  | some p =>
    refine ⟨h.1.trans (prefix_append _ _), h.2.1, fun p' hp' hsome => ?_⟩
    exact h.2.2 p' (hshort p' hp' hsome) hsome

/-! ### The functions -/

/-- `trie(key, bucketSize, bucketIncrement)`. -/
def construct (key : κ) (bucketSize bucketIncrement : ℕ) : Trie κ α :=
  .node key ⟨bucketSize, bucketIncrement, bucketSize, none⟩ []

def setPayload (payload : Option α) : Trie κ α → Trie κ α :=
  Tree.mapData fun data => { data with payload := payload }

/-- `children_.insert(*newNode)`, after a rehash if there are as many children as
buckets. -/
def insertChild (h : Hashing κ α) (newNode : Trie κ α) : Trie κ α → Trie κ α
  | .node key data children =>
      let data :=
        if data.bucketSize ≤ children.length then
          { data with
            bucketSize := data.bucketSize + data.bucketIncrement
            bucketIncrement := data.bucketIncrement * 2 }
        else data
      .node key data (h.arrange data.bucketSize (newNode :: children))

theorem label_insertChild (h : Hashing κ α) (newNode : Trie κ α) (t : Trie κ α) :
    (insertChild h newNode t).label = t.label := by
  obtain ⟨key, data, children⟩ := t
  rfl

theorem payload_insertChild (h : Hashing κ α) (newNode : Trie κ α) (t : Trie κ α) :
    (insertChild h newNode t).data.payload = t.data.payload := by
  obtain ⟨key, data, children⟩ := t
  simp only [insertChild, Tree.data]
  split <;> rfl

theorem children_insertChild (h : Hashing κ α) (newNode : Trie κ α) (t : Trie κ α) :
    (insertChild h newNode t).children.Perm (newNode :: t.children) := by
  obtain ⟨key, data, children⟩ := t
  exact h.perm _ _

mutual

/-- The buckets of all the nodes together. -/
def buckets : Trie κ α → ℕ
  | .node _ data children => data.bucketSize + bucketsAll children

def bucketsAll : List (Trie κ α) → ℕ
  | [] => 0
  | c :: cs => buckets c + bucketsAll cs

end

theorem bucketSize_le_buckets (t : Trie κ α) : t.data.bucketSize ≤ t.buckets := by
  obtain ⟨key, data, children⟩ := t
  rw [buckets]
  exact Nat.le_add_right _ _

/-- `payload_ == empty_payload && children_.size() == 0`. -/
def isBare (node : Trie κ α) : Bool := node.data.payload.isNone && node.children.isEmpty

theorem isBare_iff {node : Trie κ α} :
    node.isBare = true ↔ node.data.payload = none ∧ node.children = [] := by
  rw [isBare, Bool.and_eq_true, isNone_iff_eq_none, List.isEmpty_iff]

mutual

/-- `find()`: the way from the node to the first payload that is come across. -/
def findAny : Trie κ α → Option (List κ)
  | .node _ data children => if data.payload.isSome then some [] else findAnyOf children

/-- The loop of `find()`. -/
def findAnyOf : List (Trie κ α) → Option (List κ)
  | [] => none
  | subnode :: children =>
      match findAny subnode with
      | some value => some (subnode.label :: value)
      | none => findAnyOf children

end

variable {path : List κ}

theorem findAnyOf_eq_some {children : List (Trie κ α)} (h : findAnyOf children = some path) :
    ∃ c ∈ children, ∃ value, findAny c = some value ∧ path = c.label :: value := by
  induction children with
  | nil => cases h
  | cons c children ih =>
    rw [findAnyOf] at h
    cases hc : findAny c with
    | some value =>
      rw [hc] at h
      exact ⟨c, mem_cons_self, value, hc, (some.inj h).symm⟩
    | none =>
      rw [hc] at h
      obtain ⟨c', hmem, hc'⟩ := ih h
      exact ⟨c', mem_cons_of_mem c hmem, hc'⟩

theorem findAnyOf_isSome {children : List (Trie κ α)} {c : Trie κ α} (hc : c ∈ children)
    (h : c.findAny.isSome) : (findAnyOf children).isSome := by
  induction children with
  | nil => cases hc
  | cons first children ih =>
    rw [findAnyOf]
    cases hfirst : findAny first with
    | some value => rfl
    | none =>
      rcases mem_cons.mp hc with rfl | hc
      · rw [hfirst] at h
        cases h
      · exact ih hc

/-- `find_if_next_level(pred)`: only the first child of which `pred` holds is searched. -/
def findIfNextLevel (pred : κ → Bool) (node : Trie κ α) : Option (List κ) :=
  (node.children.find? fun subnode => pred subnode.label).bind fun subnode =>
    (findAny subnode).map (subnode.label :: ·)

variable [DecidableEq κ]

/-- `node->payload()`. -/
def payload (t : Trie κ α) (node : List κ) : Option α := t.valueAt TrieNode.payload node

/-- The loop of `insert`, from the node `here` on. New nodes get the bucket sizes of
the node on which `insert` was called, as they are at that moment. -/
def insertNodes (h : Hashing κ α) (t : Trie κ α) (here : List κ) : List κ → Trie κ α
  | [] => t
  | subkey :: key =>
      match t.get? (here ++ [subkey]) with
      | some _ => insertNodes h t (here ++ [subkey]) key
      | none =>
          let newNode := construct subkey t.data.initialBucketSize t.data.bucketIncrement
          insertNodes h (t.modify (insertChild h newNode) here) (here ++ [subkey]) key

/-- `insert(key, payload)`: the trie, and what is returned. -/
def insert (h : Hashing κ α) (t : Trie κ α) (key : List κ) (payload : α) :
    Trie κ α × List κ × Bool :=
  let t := t.insertNodes h [] key
  match t.payload key with
  | none => (t.modify (setPayload (some payload)) key, key, true)
  | some _ => (t, key, false)

/-- `prune()` of the node with the keys, from its own up to the root. -/
def pruneUp (t : Trie κ α) : List κ → Trie κ α × List κ
  | [] => (t, [])
  | key :: up =>
      if (t.get? (key :: up).reverse).any isBare then
        pruneUp (t.modify (Tree.eraseChild key) up.reverse) up
      else (t, (key :: up).reverse)

/-- `node->prune()`: the trie, and the node that is returned. -/
def prune (t : Trie κ α) (node : List κ) : Trie κ α × List κ := t.pruneUp node.reverse

/-- `node->erase()`. -/
def erase (t : Trie κ α) (node : List κ) : Trie κ α × List κ :=
  prune (t.modify (setPayload none) node) node

/-- The loop of `find`, from the node `here` on. -/
def findFrom (t : Trie κ α) (here : List κ) (foundNode : Option (List κ)) :
    List κ → Option (List κ) × Bool × List κ
  | [] => (foundNode, true, here)
  | subkey :: key =>
      match t.get? (here ++ [subkey]) with
      | none => (foundNode, false, here)
      | some item =>
          t.findFrom (here ++ [subkey])
            (if item.data.payload.isSome then some (here ++ [subkey]) else foundNode) key

/-- `find(key)`: the last node with a payload, whether the last key was reached, and the
last node. -/
def find (t : Trie κ α) (key : List κ) : Option (List κ) × Bool × List κ :=
  t.findFrom [] (if t.data.payload.isSome then some [] else none) key

/-! ### Payloads -/

variable {t : Trie κ α} {node : List κ}

theorem payload_eq {n : Trie κ α} (h : t.get? node = some n) : t.payload node = n.data.payload := by
  rw [payload, valueAt, view_of_get? h]
  rfl

theorem payload_eq_none (h : t.get? node = none) : t.payload node = none := by
  rw [payload, valueAt, view, h]
  rfl

theorem get?_isSome_of_payload (h : (t.payload node).isSome) : (t.get? node).isSome := by
  by_contra hnone
  rw [payload_eq_none (not_isSome_iff_eq_none.mp hnone)] at h
  cases h

theorem payload_modify_setPayload (t : Trie κ α) (p : Option α) (node other : List κ)
    (hnode : (t.get? node).isSome) :
    Trie.payload (t.modify (setPayload p) node) other =
      if other = node then p else t.payload other := by
  obtain ⟨n, hn⟩ := isSome_iff_exists.mp hnode
  rw [payload, valueAt, setPayload, view_modify_mapData]
  split
  · rw [view_of_get? hn]
    rfl
  · rfl

theorem payload_construct (key : κ) (bucketSize bucketIncrement : ℕ) :
    (construct key bucketSize bucketIncrement : Trie κ α).payload = fun _ => none := by
  funext name
  cases name <;> rfl

/-! ### The node the code is at -/

/-- The keys of siblings differ, and only the node `here` may have neither payload nor
children, next to the root. -/
structure Sound (here : List κ) (t : Trie κ α) : Prop where
  distinct : t.Distinct
  trimmed : t.Trimmed TrieNode.payload here

theorem sound_construct (key : κ) (bucketSize bucketIncrement : ℕ) :
    Sound [] (construct key bucketSize bucketIncrement : Trie κ α) := by
  have hview : ∀ path data ls, (construct key bucketSize bucketIncrement : Trie κ α).view path =
      some (data, ls) → path = [] ∧ ls = [] := by
    intro path data ls hview
    cases path with
    | nil =>
      cases hview
      exact ⟨rfl, rfl⟩
    | cons k path => cases hview
  refine ⟨fun path data ls h => ?_, fun path data ls h hne _ => ?_⟩
  · rw [(hview path data ls h).2]
    exact nodup_nil
  · exact absurd (hview path data ls h).1 hne

variable {here : List κ}

/-- A node with a payload or a child is no exception. -/
theorem Sound.of_exists (h : Sound here t)
    (hnode : (t.payload here).isSome ∨ ∃ key, (t.get? (here ++ [key])).isSome) (other : List κ) :
    Sound other t := by
  refine ⟨h.distinct, fun path data ls hview hne _ => ?_⟩
  by_cases hpath : path = here
  · subst hpath
    rcases hnode with hpayload | ⟨key, hchild⟩
    · rw [payload, valueAt, hview] at hpayload
      exact .inl hpayload
    · rw [← view_isSome, view_concat_isSome hview] at hchild
      exact .inr (ne_nil_of_mem hchild)
  · exact h.trimmed path data ls hview hne hpath

/-- No node has to be one. -/
theorem Sound.of_nil (h : Sound [] t) (here : List κ) : Sound here t :=
  ⟨h.distinct, fun path data ls hpath hne _ => h.trimmed path data ls hpath hne hne⟩

/-- A change at two nodes, after which the second may be bare instead of the first. -/
theorem Sound.move {first second : List κ} {t' : Trie κ α} (h : Sound first t)
    (hother : ∀ path, path ≠ first → path ≠ second → t'.view path = t.view path)
    (hfirst : ∀ data ls, t'.view first = some (data, ls) →
      ls.Nodup ∧ (data.payload.isSome ∨ ls ≠ []))
    (hsecond : ∀ data ls, t'.view second = some (data, ls) → ls.Nodup)
    (hpayload : t'.payload first = t.payload first ∧ t'.payload second = t.payload second) :
    Sound second t' ∧ t'.payload = t.payload := by
  refine ⟨⟨fun path data ls hpath => ?_, fun path data ls hpath hne hexcept => ?_⟩, ?_⟩
  · by_cases hfirst' : path = first
    · exact (hfirst data ls (hfirst' ▸ hpath)).1
    by_cases hsecond' : path = second
    · exact hsecond data ls (hsecond' ▸ hpath)
    · rw [hother path hfirst' hsecond'] at hpath
      exact h.distinct path data ls hpath
  · by_cases hfirst' : path = first
    · exact (hfirst data ls (hfirst' ▸ hpath)).2
    · rw [hother path hfirst' hexcept] at hpath
      exact h.trimmed path data ls hpath hne hfirst'
  · funext path
    by_cases hfirst' : path = first
    · rw [hfirst', hpayload.1]
    by_cases hsecond' : path = second
    · rw [hsecond', hpayload.2]
    · rw [payload, valueAt, hother path hfirst' hsecond', payload, valueAt]

/-- A new node below `here`: now it is the one that may be bare. -/
theorem Sound.insertChild (hsound : Sound here t) (h : Hashing κ α) {subkey : κ}
    (hhere : (t.get? here).isSome) (hnone : t.get? (here ++ [subkey]) = none)
    (bucketSize bucketIncrement : ℕ) :
    let t' : Trie κ α :=
      t.modify (Trie.insertChild h (construct subkey bucketSize bucketIncrement)) here
    Sound (here ++ [subkey]) t' ∧ (t'.get? (here ++ [subkey])).isSome ∧
      t'.payload = t.payload := by
  obtain ⟨n, hn⟩ := isSome_iff_exists.mp hhere
  have hview := view_of_get? hn
  have hdistinct := hsound.distinct here _ _ hview
  have hnew : subkey ∉ n.labels := by
    rw [get?_concat, hn] at hnone
    exact child?_eq_none_iff.mp hnone
  have hlabels := (labels_perm (children_insertChild h
    (construct subkey bucketSize bucketIncrement) n))
  obtain ⟨hself, hchild, hother⟩ := view_modify_of_perm (label_insertChild h _) hn
    hdistinct (c := construct subkey bucketSize bucketIncrement) hnew rfl
    (children_insertChild h _ n)
  intro t'
  obtain ⟨hsound', hpayload⟩ : Sound (here ++ [subkey]) t' ∧ t'.payload = t.payload := by
    refine hsound.move hother (fun data ls hpath => ?_) (fun data ls hpath => ?_) ⟨?_, ?_⟩
    · obtain ⟨-, rfl⟩ := Prod.mk.inj (some.inj (hself.symm.trans hpath))
      exact ⟨hlabels.nodup_iff.mpr (nodup_cons.mpr ⟨hnew, hdistinct⟩),
        .inr (ne_nil_of_mem (hlabels.mem_iff.mpr mem_cons_self))⟩
    · obtain ⟨-, rfl⟩ := Prod.mk.inj (some.inj (hchild.symm.trans hpath))
      exact nodup_nil
    · rw [payload, valueAt, hself, payload, valueAt, hview]
      exact payload_insertChild h _ n
    · rw [payload_eq_none hnone, payload, valueAt]
      exact congrArg (Option.bind · _) hchild
  refine ⟨hsound', ?_, hpayload⟩
  rw [← view_isSome]
  exact isSome_of_eq_some hchild

theorem Sound.insertNodes (hsound : Sound here t) (h : Hashing κ α) (hhere : (t.get? here).isSome)
    (key : List κ) :
    Sound (here ++ key) (t.insertNodes h here key) ∧
      ((t.insertNodes h here key).get? (here ++ key)).isSome ∧
      (t.insertNodes h here key).payload = t.payload := by
  induction key generalizing t here with
  | nil =>
    rw [append_nil]
    exact ⟨hsound, hhere, rfl⟩
  | cons subkey key ih =>
    rw [append_cons, Trie.insertNodes]
    cases hitem : t.get? (here ++ [subkey]) with
    | some item =>
      have hsome : (t.get? (here ++ [subkey])).isSome := isSome_of_eq_some hitem
      exact ih (hsound.of_exists (.inr ⟨subkey, hsome⟩) _) hsome
    | none =>
      obtain ⟨hsound', hsome, hpayload⟩ := hsound.insertChild h hhere hitem
        t.data.initialBucketSize t.data.bucketIncrement
      obtain ⟨hsound'', hsome', hpayload'⟩ := ih hsound' hsome
      exact ⟨hsound'', hsome', hpayload'.trans hpayload⟩

theorem view_modify_setPayload_of_ne (t : Trie κ α) (p : Option α) (h : path ≠ node) :
    (t.modify (setPayload p) node).view path = t.view path := by
  rw [setPayload, view_modify_mapData, if_neg h]

/-- The children stay, so the node itself is the only one that can become bare. -/
theorem Sound.setPayload (h : Sound here t) (p : Option α) :
    Sound here (t.modify (Trie.setPayload p) here) := by
  refine ⟨fun path data ls hpath => ?_, fun path data ls hpath hne hexcept => ?_⟩
  · by_cases hpath' : path = here
    · rw [hpath', Trie.setPayload, view_modify_mapData, if_pos rfl] at hpath
      obtain ⟨⟨data', ls'⟩, hview, heq⟩ := map_eq_some_iff.mp hpath
      obtain ⟨-, rfl⟩ := Prod.mk.inj heq
      exact h.distinct here data' ls' hview
    · rw [view_modify_setPayload_of_ne t p hpath'] at hpath
      exact h.distinct path data ls hpath
  · rw [view_modify_setPayload_of_ne t p hexcept] at hpath
    exact h.trimmed path data ls hpath hne hexcept

theorem get?_isSome_modify_setPayload (t : Trie κ α) (p : Option α) (node path : List κ) :
    ((t.modify (setPayload p) node).get? path).isSome = (t.get? path).isSome := by
  rw [← view_isSome, ← view_isSome, setPayload, view_modify_mapData]
  split
  · rename_i hpath
    rw [isSome_map, hpath]
  · rfl

/-- With a payload the node is no exception. -/
theorem Sound.setPayload_some (h : Sound here t) (hhere : (t.get? here).isSome) (a : α) :
    Sound [] (t.modify (Trie.setPayload (some a)) here) := by
  refine (h.setPayload (some a)).of_exists (.inl ?_) []
  rw [payload_modify_setPayload _ _ _ _ hhere, if_pos rfl]
  rfl

/-! ### Inserting -/

/-- What `insert` does, for the map of the payloads. -/
theorem Sound.insert (hsound : Sound [] t) (h : Hashing κ α) (key : List κ) (payload : α) :
    Sound [] (t.insert h key payload).1 ∧
      ((t.insert h key payload).1.get? key).isSome ∧
      (t.insert h key payload).2 = (key, (t.payload key).isNone) ∧
      (t.insert h key payload).1.payload =
        if (t.payload key).isNone then update t.payload key (some payload)
        else t.payload := by
  obtain ⟨hsound', hsome, hpayload⟩ := hsound.insertNodes h rfl key
  rw [nil_append] at hsound' hsome
  have hkey := congrFun hpayload key
  rw [Trie.insert]
  cases hold : t.payload key with
  | none =>
    rw [hold] at hkey
    simp only [hkey, isNone_none, if_true]
    refine ⟨hsound'.setPayload_some hsome payload, ?_, trivial, ?_⟩
    · rwa [get?_isSome_modify_setPayload]
    · funext other
      rw [payload_modify_setPayload _ _ _ _ hsome, update_apply, hpayload]
  | some old =>
    rw [hold] at hkey
    simp only [hkey, isNone_some, Bool.false_eq_true, if_false]
    refine ⟨hsound'.of_exists (.inl ?_) [], hsome, trivial, hpayload⟩
    rw [hkey]
    rfl

/-! ### Erasing -/

/-- A bare node is taken away: now its parent may be bare. -/
theorem Sound.eraseChild {up : List κ} {key : κ} {n : Trie κ α} (h : Sound (up ++ [key]) t)
    (hn : t.get? (up ++ [key]) = some n) (hbare : n.isBare = true) :
    let t' : Trie κ α := t.modify (eraseChild key) up
    Sound up t' ∧ (t'.get? up).isSome ∧ t'.payload = t.payload := by
  obtain ⟨hempty, hchildren⟩ := isBare_iff.mp hbare
  have hleaf : t.view (up ++ [key]) = some (n.data, []) := by
    rw [view_of_get? hn, Tree.labels, hchildren]
    rfl
  obtain ⟨parent, hparent, -⟩ : ∃ parent, t.get? up = some parent ∧ parent.child? key = some n := by
    rw [get?_concat] at hn
    exact bind_eq_some_iff.mp hn
  have hview := view_of_get? hparent
  obtain ⟨hself, hgone, hother⟩ := view_modify_eraseChild hparent hleaf
  intro t'
  obtain ⟨hsound, hpayload⟩ : Sound up t' ∧ t'.payload = t.payload := by
    refine h.move (fun path hchild hup => hother path hup hchild) (fun data ls hpath => ?_)
      (fun data ls hpath => ?_) ⟨?_, ?_⟩
    · cases hgone.symm.trans hpath
    · obtain ⟨-, rfl⟩ := Prod.mk.inj (some.inj (hself.symm.trans hpath))
      exact (h.distinct up _ _ hview).filter _
    · rw [payload_eq hn, hempty, payload, valueAt, hgone]
      rfl
    · rw [payload, valueAt, hself, payload, valueAt, hview]
      rfl
  refine ⟨hsound, ?_, hpayload⟩
  rw [← view_isSome, hself]
  rfl

theorem Sound.pruneUp {keys : List κ} (h : Sound keys.reverse t)
    (hnode : (t.get? keys.reverse).isSome) :
    Sound [] (t.pruneUp keys).1 ∧ (t.pruneUp keys).1.payload = t.payload := by
  induction keys generalizing t with
  | nil => exact ⟨h, rfl⟩
  | cons key up ih =>
    obtain ⟨n, hn⟩ := isSome_iff_exists.mp hnode
    rw [Trie.pruneUp, hn, any_some]
    rw [reverse_cons] at h hn
    split
    · rename_i hbare
      obtain ⟨hsound, hparent, hpayload⟩ := h.eraseChild hn hbare
      obtain ⟨hsound', hpayload'⟩ := ih hsound hparent
      exact ⟨hsound', hpayload'.trans hpayload⟩
    · rename_i hbare
      refine ⟨⟨h.distinct, fun path data ls hpath hne _ => ?_⟩, rfl⟩
      by_cases hpath' : path = up.reverse ++ [key]
      · rw [hpath', view_of_get? hn] at hpath
        obtain ⟨rfl, rfl⟩ := Prod.mk.inj (some.inj hpath)
        rw [isBare_iff, not_and_or] at hbare
        refine hbare.imp (isSome_iff_ne_none.mpr ·) fun hne hnil => hne ?_
        exact map_eq_nil_iff.mp hnil
      · exact h.trimmed path data ls hpath hne hpath'

/-- What `erase` does, for the map of the payloads. -/
theorem Sound.erase (h : Sound [] t) (hnode : (t.get? node).isSome) :
    Sound [] (t.erase node).1 ∧
      (t.erase node).1.payload = update t.payload node none := by
  have hset : Sound node.reverse.reverse (t.modify (Trie.setPayload none) node) := by
    rw [reverse_reverse]
    exact (h.of_nil node).setPayload none
  have hnode' : ((t.modify (Trie.setPayload none) node).get? node.reverse.reverse).isSome := by
    rw [reverse_reverse, get?_isSome_modify_setPayload]
    exact hnode
  obtain ⟨hsound', hpayload⟩ := hset.pruneUp hnode'
  refine ⟨hsound', hpayload.trans (funext fun other => ?_)⟩
  rw [payload_modify_setPayload t none node other hnode, update_apply]

/-! ### Finding -/

/-- The loop finds the longest prefix with a payload, and comes to the end of the name
exactly if there is a node. -/
theorem findFrom_spec (t : Trie κ α) {found : Option (List κ)} (hhere : (t.get? here).isSome)
    (hfound : IsLongestPrefix t.payload here found) (key : List κ) :
    IsLongestPrefix t.payload (here ++ key) (t.findFrom here found key).1 ∧
      (t.findFrom here found key).2.1 = (t.get? (here ++ key)).isSome ∧
      ((t.findFrom here found key).2.1 = true → (t.findFrom here found key).2.2 = here ++ key) := by
  induction key generalizing here found with
  | nil =>
    rw [append_nil]
    exact ⟨hfound, hhere.symm, fun _ => rfl⟩
  | cons subkey key ih =>
    rw [findFrom]
    cases hitem : t.get? (here ++ [subkey]) with
    | none =>
      have hbelow : ∀ rest, t.get? (here ++ subkey :: rest) = none := by
        intro rest
        rw [append_cons, get?_append, hitem]
        rfl
      refine ⟨hfound.append fun p hp hne => ?_, ?_, nofun⟩
      · obtain ⟨k, p, rfl⟩ := exists_cons_of_ne_nil hne
        obtain ⟨rfl, -⟩ := cons_prefix_cons.mp hp
        exact payload_eq_none (hbelow p)
      · rw [hbelow]
        rfl
    | some item =>
      rw [append_cons]
      refine ih (isSome_of_eq_some hitem) ?_
      have hpayload := payload_eq hitem
      split
      · rename_i hsome
        exact isLongestPrefix_self (hpayload ▸ hsome)
      · rename_i hnone
        refine hfound.append fun p hp hne => ?_
        obtain rfl : p = [subkey] := by
          obtain ⟨k, p, rfl⟩ := exists_cons_of_ne_nil hne
          obtain ⟨rfl, hnil⟩ := cons_prefix_cons.mp hp
          rw [prefix_nil.mp hnil]
        rw [hpayload]
        exact not_isSome_iff_eq_none.mp hnone

theorem find_spec (t : Trie κ α) (key : List κ) :
    IsLongestPrefix t.payload key (t.find key).1 ∧
      (t.find key).2.1 = (t.get? key).isSome ∧
      ((t.find key).2.1 = true → (t.find key).2.2 = key) := by
  refine findFrom_spec t rfl ?_ key
  have hpayload : t.payload [] = t.data.payload := payload_eq (get?_nil t)
  split
  · rename_i hsome
    exact isLongestPrefix_self (hpayload ▸ hsome)
  · rename_i hnone
    intro p hp
    rw [prefix_nil.mp hp, hpayload]
    exact not_isSome_iff_eq_none.mp hnone

/-- Either the name leads to a node, which is the last, or the walk ends before. -/
theorem find_cases (t : Trie κ α) (key : List κ) :
    ((t.get? key).isSome ∧ t.find key = ((t.find key).1, true, key)) ∨
      t.get? key = none ∧ ∃ lastItem, t.find key = ((t.find key).1, false, lastItem) := by
  obtain ⟨-, hreach, hlast⟩ := t.find_spec key
  generalize t.find key = result at hreach hlast ⊢
  obtain ⟨found, reachLast, lastItem⟩ := result
  dsimp only at hreach hlast ⊢
  cases reachLast with
  | true => exact .inl ⟨hreach.symm, by rw [hlast rfl]⟩
  | false =>
    refine .inr ⟨not_isSome_iff_eq_none.mp fun hsome => ?_, lastItem, rfl⟩
    rw [hsome] at hreach
    cases hreach

/-- A child is found again under its key. -/
theorem payload_cons_of_mem {c : Trie κ α} (h : t.Distinct) (hc : c ∈ t.children) (path : List κ) :
    t.payload (c.label :: path) = c.payload path := by
  rw [payload, valueAt, view_cons_of_mem h hc]
  rfl

theorem payload_findAny (h : t.Distinct) (hfound : t.findAny = some path) :
    (t.payload path).isSome := by
  induction t using induction generalizing path with
  | node key data children ih =>
    rw [findAny] at hfound
    split at hfound
    · rename_i hsome
      obtain rfl := some.inj hfound
      rw [payload_eq (get?_nil _)]
      exact hsome
    · obtain ⟨c, hc, value, hvalue, rfl⟩ := findAnyOf_eq_some hfound
      rw [payload_cons_of_mem h hc]
      exact ih c hc (h.child hc) hvalue

/-- Nothing is overlooked. -/
theorem findAny_isSome (h : t.Distinct) (hpayload : (t.payload path).isSome) :
    t.findAny.isSome := by
  induction t using induction generalizing path with
  | node key data children ih =>
    rw [findAny]
    split
    · rfl
    · rename_i hdata
      cases path with
      | nil => exact absurd hpayload hdata
      | cons k path =>
        obtain ⟨n, hn⟩ := isSome_iff_exists.mp (get?_isSome_of_payload hpayload)
        obtain ⟨c, hchild, -⟩ := bind_eq_some_iff.mp hn
        obtain ⟨hc, rfl⟩ := (child?_eq_some_iff (h [] _ _ (view_nil _))).mp hchild
        rw [payload_cons_of_mem h hc] at hpayload
        exact findAnyOf_isSome hc (ih c hc (h.child hc) hpayload)

theorem payload_findIfNextLevel (h : t.Distinct) {pred : κ → Bool}
    (hfound : t.findIfNextLevel pred = some path) :
    (t.payload path).isSome ∧ ∃ key rest, path = key :: rest ∧ pred key = true := by
  obtain ⟨c, hfind, hbelow⟩ := bind_eq_some_iff.mp hfound
  obtain ⟨value, hvalue, rfl⟩ := map_eq_some_iff.mp hbelow
  have hc := mem_of_find?_eq_some hfind
  have hpred := find?_some hfind
  refine ⟨?_, c.label, value, rfl, hpred⟩
  rw [payload_cons_of_mem h hc]
  exact payload_findAny (h.child hc) hvalue

/-- There is a payload at or below every node other than the root. -/
theorem Sound.exists_payload (h : Sound [] t) (hnode : (t.get? node).isSome) (hne : node ≠ []) :
    ∃ rest, (t.payload (node ++ rest)).isSome := by
  obtain ⟨n, hn⟩ := isSome_iff_exists.mp hnode
  have hdistinct := h.distinct.get? hn
  obtain ⟨⟨path, a⟩, hmem⟩ :=
    exists_mem_of_ne_nil _ ((h.trimmed.full_get? hne hn).entries_ne_nil hdistinct)
  refine ⟨path, ?_⟩
  rw [payload, valueAt_append _ hn, (mem_entries hdistinct).mp hmem]
  rfl

end Trie

end ValProofs
