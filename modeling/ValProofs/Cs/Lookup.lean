import ValProofs.Packet
import ValProofs.Utils.TrieWithPolicy

/-!
The content stores of ndnSIM: `ContentStoreImpl`, with any policy.

A Data is kept in the trie under its own name, so what a look-up returns is named by the
node that it finds. With an `Exclude` that is a node below the name of the Interest.
Without one it is the last node with a Data on the way to that name, and only if there is
none on the way a node below. A Data that is named by a proper prefix of the Interest is
therefore in the way of the Data that the Interest asks for.
-/

namespace ValProofs

open Lib TrieWithPolicy Option List

/-- The order of name components, `a > b`. -/
abbrev ComponentOrder := String → String → Bool

/-- The map of an `Exclude` in its order, the greatest first: a component, or none for
`isNegInf`, and whether all up to the next entry are excluded with it. -/
structure Exclude where
  entries : List (Option String × Bool)
  deriving DecidableEq, Repr

namespace Exclude

def empty (exclude : Exclude) : Bool := exclude.entries.isEmpty

/-- The entry that `lower_bound` finds is the first that is not greater. -/
def isExcluded (gt : ComponentOrder) (exclude : Exclude) (comp : String) : Bool :=
  match exclude.entries.find? fun entry => !entry.1.any (gt · comp) with
  | none => false
  | some (first, any) => any || first == some comp

end Exclude

/-- The trie of a content store; the payload of an entry is its Data. -/
abbrev ContentStore := Trie String Data

namespace ContentStore

/-- `Add(data)`. -/
def add (h : Hashing String Data) (verdict : Verdict String) (cs : ContentStore) (data : Data) :
    ContentStore × Bool :=
  match TrieWithPolicy.insert h verdict cs data.name data with
  | (cs, some _, true) => (cs, true)
  | (cs, _, _) => (cs, false)

/-- `Lookup(interest)`, as far as the Interest is read. -/
def lookup (gt : ComponentOrder) (cs : ContentStore) (name : Name) (exclude : Exclude) :
    Option Data :=
  let node :=
    if exclude.empty then TrieWithPolicy.deepestPrefixMatch cs name
    else TrieWithPolicy.deepestPrefixMatchIfNextLevel cs name fun comp =>
      !exclude.isExcluded gt comp
  node.bind cs.payload

/-- What `Lookup(interest)` calls `policy_.lookup` with, if it calls it. -/
def policyLookup (gt : ComponentOrder) (cs : ContentStore) (name : Name) (exclude : Exclude) :
    Option (Option Name) :=
  if exclude.empty then TrieWithPolicy.deepestPrefixMatchLookup cs name
  else
    (TrieWithPolicy.deepestPrefixMatchIfNextLevel cs name fun comp =>
      !exclude.isExcluded gt comp).map some

/-! ### What is in a content store -/

inductive Op
  | add (data : Data) (verdict : Verdict String)
  /-- An entry has expired. -/
  | erase (node : Name)

def next (h : Hashing String Data) (cs : ContentStore) : Op → ContentStore
  | .add data verdict => (cs.add h verdict data).1
  | .erase node => TrieWithPolicy.eraseNode cs (some node)

/-- Only entries are erased. -/
def guard (cs : ContentStore) : Op → Prop
  | .add _ verdict => verdict.Allowed cs.payload
  | .erase node => (cs.payload node).isSome

def machine (h : Hashing String Data) : System ContentStore Op where
  init cs := cs = Trie.construct "" 1 1
  guard := guard
  next := next h

theorem fst_add (h : Hashing String Data) (verdict : Verdict String) (cs : ContentStore)
    (data : Data) : (cs.add h verdict data).1 = (insert h verdict cs data.name data).1 := by
  rw [add]
  split
  · rename_i heq
    rw [heq]
  · rename_i heq
    rw [heq]

variable {cs : ContentStore}

theorem snd_add (hsound : Trie.Sound [] cs) (h : Hashing String Data) (verdict : Verdict String)
    (data : Data) : (cs.add h verdict data).2 = ((cs.payload data.name).isNone && verdict.ok) := by
  have hreturn := snd_insert hsound h verdict data.name data
  rw [add]
  generalize insert h verdict cs data.name data = result at hreturn ⊢
  obtain ⟨cs', returned⟩ := result
  subst hreturn
  cases cs.payload data.name with
  | some old => rfl
  | none => cases verdict.ok <;> rfl

/-- Every Data is kept under its own name. -/
def Named (m : NameMap String Data) : Prop := ∀ name data, m name = some data → data.name = name

variable {m : NameMap String Data}

theorem Named.erase (h : Named m) (name : Name) : Named (m.erase name) := by
  intro other data hdata
  rw [NameMap.erase, Function.update_apply] at hdata
  split at hdata
  · cases hdata
  · exact h other data hdata

theorem Named.insertWith (h : Named m) (verdict : Verdict String) (data : Data) :
    Named (m.insertWith verdict data.name data) := by
  intro other data' hdata
  rcases NameMap.insertWith_eq_some hdata with hold | ⟨-, -, rfl, rfl⟩
  · exact h other data' hold
  · rfl

/-- The trie is in order, and the Data are in their places. -/
structure Filed (cs : ContentStore) : Prop where
  sound : Trie.Sound [] cs
  named : Named cs.payload

theorem Filed.next (hcs : cs.Filed) (h : Hashing String Data) {op : Op} (hguard : cs.guard op) :
    (cs.next h op).Filed := by
  cases op with
  | add data verdict =>
    obtain ⟨hsound, hpayload⟩ := insert_spec hcs.sound h hguard data.name data
    rw [ContentStore.next, fst_add]
    refine ⟨hsound, ?_⟩
    rw [hpayload]
    exact hcs.named.insertWith verdict data
  | erase node =>
    obtain ⟨hsound, hpayload⟩ :=
      eraseNode_spec hcs.sound (Trie.get?_isSome_of_payload hguard)
    refine ⟨hsound, ?_⟩
    show Named (eraseNode cs (some node)).payload
    rw [hpayload]
    exact hcs.named.erase node

theorem filed_of_reachable {h : Hashing String Data} (hcs : (machine h).Reachable cs) :
    cs.Filed := by
  refine hcs.invariant (I := Filed) ?_ fun cs op hcs hguard => hcs.next h hguard
  rintro _ rfl
  refine ⟨Trie.sound_construct "" 1 1, fun name data hdata => ?_⟩
  rw [Trie.payload_construct] at hdata
  cases hdata

/-! ### Looking up -/

/-- The Data may be returned for an Interest with that name. -/
def Satisfies (gt : ComponentOrder) (name : Name) (exclude : Exclude) (data : Data) : Prop :=
  name <+: data.name ∧ ¬ (data.name <+: name ∧ data.name ≠ name) ∧
    (exclude.empty = false → ∃ comp rest,
      data.name = name ++ comp :: rest ∧ exclude.isExcluded gt comp = false)

/-- There are Data below the name and on the way to it, and none of the name itself. -/
def Shadowed (cs : ContentStore) (name : Name) : Prop :=
  cs.payload name = none ∧ (∃ rest, (cs.payload (name ++ rest)).isSome) ∧
    ∃ above, above <+: name ∧ (cs.payload above).isSome

variable {gt : ComponentOrder} {exclude : Exclude}

theorem lookup_of_empty (h : exclude.empty = true) (cs : ContentStore) (name : Name) :
    cs.lookup gt name exclude =
      (deepestPrefixMatch cs name).bind cs.payload := by
  rw [lookup, h]
  rfl

variable {name : Name} {data : Data}

theorem satisfies_of_below (h : exclude.empty = true) (hbelow : name <+: data.name) :
    Satisfies gt name exclude data := by
  refine ⟨hbelow, fun ⟨hdata, hne⟩ => hne ?_, fun hfalse => ?_⟩
  · exact hdata.eq_of_length (Nat.le_antisymm hdata.length_le hbelow.length_le)
  · rw [h] at hfalse
    cases hfalse

/-- With an `Exclude` only nodes below the name are found. -/
theorem Filed.satisfies_of_exclude (hcs : cs.Filed) (h : exclude.empty = false)
    (hdata : cs.lookup gt name exclude = some data) : Satisfies gt name exclude data := by
  rw [lookup, h] at hdata
  obtain ⟨node, hnode, hpayload⟩ := bind_eq_some_iff.mp hdata
  simp only [Bool.false_eq_true, if_false, deepestPrefixMatchIfNextLevel_eq]
    at hnode
  obtain ⟨-, comp, rest, rfl, hcomp⟩ :=
    searchAt_findIfNextLevel hcs.sound.distinct hnode
  rw [Bool.not_eq_true'] at hcomp
  have hname := hcs.named _ _ hpayload
  refine ⟨?_, fun ⟨habove, _⟩ => ?_, fun _ => ⟨comp, rest, hname, hcomp⟩⟩
  · rw [hname]
    exact prefix_append name _
  · have hlength := habove.length_le
    rw [hname, length_append, length_cons] at hlength
    omega

/-- Without one the last Data on the way is found first. -/
theorem Filed.name_of_lookup (hcs : cs.Filed) (h : exclude.empty = true)
    (hdata : cs.lookup gt name exclude = some data) :
    (cs.get? name).isSome ∧
      (Trie.IsLongestPrefix cs.payload name (some data.name) ∨ name <+: data.name) := by
  rw [lookup_of_empty h, deepestPrefixMatch_eq] at hdata
  obtain ⟨node, hnode, hpayload⟩ := bind_eq_some_iff.mp hdata
  have hname := hcs.named _ _ hpayload
  obtain ⟨hlongest, -, -⟩ := cs.find_spec name
  split at hnode
  · rename_i hreach
    refine ⟨hreach, ?_⟩
    cases hfound : (cs.find name).1 with
    | some found =>
      rw [hfound] at hnode hlongest
      obtain rfl : found = node := some.inj hnode
      exact .inl (hname ▸ hlongest)
    | none =>
      rw [hfound] at hnode
      exact .inr (hname ▸ (searchAt_findAny hcs.sound.distinct hnode).2)
  · cases hnode

theorem Filed.lookup_of_shadowed (hcs : cs.Filed) (gt : ComponentOrder) (h : exclude.empty = true)
    (hshadowed : cs.Shadowed name) :
    ∃ data, cs.lookup gt name exclude = some data ∧ data.name <+: name ∧ data.name ≠ name := by
  obtain ⟨hnone, ⟨rest, hbelow⟩, above, habove, hsome⟩ := hshadowed
  have hreach : (cs.get? name).isSome := by
    have hnode := Trie.get?_isSome_of_payload hbelow
    rw [Tree.get?_append] at hnode
    exact isSome_of_isSome_bind hnode
  obtain ⟨hlongest, -, -⟩ := cs.find_spec name
  rw [lookup_of_empty h, deepestPrefixMatch_eq, if_pos hreach]
  cases hfound : (cs.find name).1 with
  | none =>
    rw [hfound] at hlongest
    rw [hlongest above habove] at hsome
    cases hsome
  | some found =>
    rw [hfound] at hlongest
    obtain ⟨hshorter, hfoundSome, -⟩ := hlongest
    obtain ⟨data, hdata⟩ := isSome_iff_exists.mp hfoundSome
    have hname := hcs.named _ _ hdata
    refine ⟨data, hdata, hname ▸ hshorter, fun heq => ?_⟩
    rw [← hname, heq, hnone] at hdata
    cases hdata

/-- **Look-ups are sound unless the name is shadowed.** Whatever has been added, evicted and
erased before, the Data that is returned for an Interest satisfies it, except when there is
no `Exclude` and Data of a shorter name are in the way of those that do. -/
theorem lookup_satisfies_iff {h : Hashing String Data} {cs : ContentStore}
    (hcs : (machine h).Reachable cs) (gt : ComponentOrder) (name : Name) (exclude : Exclude) :
    (∀ data, cs.lookup gt name exclude = some data → Satisfies gt name exclude data) ↔
      ¬ (exclude.empty = true ∧ cs.Shadowed name) := by
  have hfiled := filed_of_reachable hcs
  constructor
  · rintro hall ⟨hempty, hshadowed⟩
    obtain ⟨data, hdata, hproper⟩ := hfiled.lookup_of_shadowed gt hempty hshadowed
    exact (hall data hdata).2.1 hproper
  · intro hnot data hdata
    cases hempty : exclude.empty with
    | false => exact hfiled.satisfies_of_exclude hempty hdata
    | true =>
        refine satisfies_of_below hempty ?_
        obtain ⟨hreach, hlongest | hbelow⟩ := hfiled.name_of_lookup hempty hdata
        · obtain ⟨habove, hsome, hmax⟩ := hlongest
          by_contra hshort
          -- the name has a node, and with it Data at it or below
          have hne : name ≠ [] := fun hnil => hshort (hnil ▸ List.nil_prefix)
          refine hnot ⟨hempty, ?_, hfiled.sound.exists_payload hreach hne, _, habove, hsome⟩
          by_contra hself
          have hlength := hmax name List.prefix_rfl (Option.isSome_iff_ne_none.mpr hself)
          exact hshort (habove.eq_of_length (Nat.le_antisymm habove.length_le hlength) ▸
            List.prefix_rfl)
        · exact hbelow

/-- A Data with the name and nothing in it. -/
def sampleData (name : Name) : Data := ⟨name, ⟨⟨-1, none, []⟩, ⟨23, []⟩⟩, 0, [], none⟩

/-- `/a` and `/a/b/c` are cached. -/
def sampleContent : ContentStore :=
  [Op.add (sampleData ["a"]) ⟨[], true⟩, Op.add (sampleData ["a", "b", "c"]) ⟨[], true⟩].foldl
    (next TrieWithPolicy.Store.lastHashing) (Trie.construct "" 1 1)

theorem sampleContent_reachable : (machine Store.lastHashing).Reachable sampleContent := by
  refine System.Reachable.foldl (.of_init rfl) ?_
  exact .cons (Verdict.allowed_nil true _) (.cons (Verdict.allowed_nil true _) (.nil _))

/-- For `/a/b` all but `/a/b/x` will do, and `/a/b/c` is returned. -/
theorem lookup_satisfies_iff_excluded :
    sampleContent.lookup (fun a b => b < a) ["a", "b"] ⟨[(some "x", false)]⟩ =
        some (sampleData ["a", "b", "c"]) ∧
      Satisfies (fun a b => b < a) ["a", "b"] ⟨[(some "x", false)]⟩
        (sampleData ["a", "b", "c"]) :=
  ⟨by decide, (lookup_satisfies_iff sampleContent_reachable _ _ _).mpr
    (fun h => absurd h.1 (by decide)) _ (by decide)⟩

/-- An Interest for `/a/b` gets `/a`. -/
theorem shadowed_lookup_returns_shorter :
    (machine TrieWithPolicy.Store.lastHashing).Reachable sampleContent ∧
      sampleContent.lookup (fun a b => b < a) ["a", "b"] ⟨[]⟩ = some (sampleData ["a"]) ∧
      ¬ ["a", "b"] <+: (sampleData ["a"]).name ∧
      (sampleData ["a"]).name <+: ["a", "b"] ∧ (sampleData ["a"]).name ≠ ["a", "b"] :=
  ⟨sampleContent_reachable, by decide, by decide, by decide, by decide⟩

/-! ### Finding what there is -/

/-- There are Data to answer an Interest with the name. -/
def Answerable (cs : ContentStore) (name : Name) : Prop :=
  ∃ node data, cs.payload node = some data ∧ name <+: data.name

section

variable (hcs : cs.Filed)
include hcs

theorem Filed.answerable_iff : cs.Answerable name ↔ ∃ rest, (cs.payload (name ++ rest)).isSome := by
  constructor
  · rintro ⟨node, data, hdata, rest, hrest⟩
    refine ⟨rest, ?_⟩
    rw [hrest, hcs.named node data hdata, hdata]
    rfl
  · rintro ⟨rest, hsome⟩
    obtain ⟨data, hdata⟩ := isSome_iff_exists.mp hsome
    refine ⟨_, data, hdata, ?_⟩
    rw [hcs.named _ data hdata]
    exact prefix_append name rest

theorem Filed.payload_deepestPrefixMatch {node : Name}
    (h : deepestPrefixMatch cs name = some node) : (cs.payload node).isSome := by
  rw [deepestPrefixMatch_eq] at h
  obtain ⟨hlongest, -, -⟩ := cs.find_spec name
  split at h
  · cases hfound : (cs.find name).1 with
    | some found =>
      rw [hfound] at h hlongest
      obtain rfl : found = node := some.inj h
      exact hlongest.2.1
    | none =>
      rw [hfound] at h
      exact (searchAt_findAny hcs.sound.distinct h).1
  · cases h

/-- What the policy is told of is an entry. -/
theorem Filed.payload_policyLookup {node : Name}
    (h : cs.policyLookup gt name exclude = some (some node)) : (cs.payload node).isSome := by
  rw [policyLookup] at h
  split at h
  · rw [deepestPrefixMatchLookup_eq] at h
    split at h
    · exact hcs.payload_deepestPrefixMatch (some.inj h)
    · cases h
  · obtain ⟨found, hfound, hnode⟩ := map_eq_some_iff.mp h
    obtain rfl : found = node := some.inj hnode
    rw [deepestPrefixMatchIfNextLevel_eq] at hfound
    exact (searchAt_findIfNextLevel hcs.sound.distinct hfound).1

/-- Where there are Data, a node is found. -/
theorem Filed.deepestPrefixMatch_isSome {rest : Name}
    (h : (cs.payload (name ++ rest)).isSome) : (deepestPrefixMatch cs name).isSome := by
  have hreach : (cs.get? name).isSome := by
    have hnode := Trie.get?_isSome_of_payload h
    rw [Tree.get?_append] at hnode
    exact isSome_of_isSome_bind hnode
  rw [deepestPrefixMatch_eq, if_pos hreach]
  cases (cs.find name).1 with
  | some found => rfl
  | none => exact searchAt_findAny_isSome hcs.sound.distinct h

/-- The root is always there. No other node is there without Data at it or below. -/
theorem Filed.get?_isSome_iff : (cs.get? name).isSome ↔ name = [] ∨ cs.Answerable name := by
  rw [hcs.answerable_iff]
  constructor
  · intro hnode
    by_cases hnil : name = []
    · exact .inl hnil
    · exact .inr (hcs.sound.exists_payload hnode hnil)
  · rintro (rfl | ⟨rest, hsome⟩)
    · rfl
    · have hnode := Trie.get?_isSome_of_payload hsome
      rw [Tree.get?_append] at hnode
      exact isSome_of_isSome_bind hnode

/-- Where there are none, none is found. -/
theorem Filed.deepestPrefixMatch_eq_none (h : ¬ cs.Answerable name) :
    deepestPrefixMatch cs name = none := by
  by_contra hfound
  obtain ⟨node, hnode⟩ := ne_none_iff_exists'.mp hfound
  have hreach : (cs.get? name).isSome := by
    by_contra hreach
    rw [deepestPrefixMatch_eq, if_neg hreach] at hnode
    cases hnode
  -- only the root is reached without Data below, and all Data are below the root
  rcases hcs.get?_isSome_iff.mp hreach with rfl | hanswer
  · exact h (hcs.answerable_iff.mpr ⟨node, hcs.payload_deepestPrefixMatch hnode⟩)
  · exact h hanswer

end

/-- **Look-ups find what there is**, without an `Exclude`, and the policy is told of a node,
except for the empty name in an empty content store: then it is told of none. -/
theorem lookup_complete_iff {h : Hashing String Data} {cs : ContentStore}
    (hcs : (machine h).Reachable cs) (gt : ComponentOrder) (name : Name) {exclude : Exclude}
    (hexclude : exclude.empty = true) :
    (((cs.lookup gt name exclude).isSome ↔ cs.Answerable name) ∧
        cs.policyLookup gt name exclude ≠ some none) ↔
      ¬ (name = [] ∧ ∀ node, cs.payload node = none) := by
  have hfiled := filed_of_reachable hcs
  rw [lookup_of_empty hexclude, policyLookup, if_pos hexclude,
    TrieWithPolicy.deepestPrefixMatchLookup_eq]
  by_cases hanswer : cs.Answerable name
  · -- there is a node, and what is found has a payload
    obtain ⟨rest, hsome⟩ := hfiled.answerable_iff.mp hanswer
    obtain ⟨node, hnode⟩ :=
      Option.isSome_iff_exists.mp (hfiled.deepestPrefixMatch_isSome hsome)
    have hpayload := hfiled.payload_deepestPrefixMatch hnode
    rw [if_pos (hfiled.get?_isSome_iff.mpr (.inr hanswer)), hnode, Option.bind_some]
    refine iff_of_true ⟨iff_of_true hpayload hanswer, by simp⟩ ?_
    rintro ⟨-, hempty⟩
    rw [hempty] at hsome
    cases hsome
  · have hnone := hfiled.deepestPrefixMatch_eq_none hanswer
    rw [hnone, Option.bind_none]
    by_cases hnil : name = []
    · have hempty : ∀ node, cs.payload node = none := by
        intro node
        by_contra hsome
        subst hnil
        exact hanswer (hfiled.answerable_iff.mpr ⟨node, Option.isSome_iff_ne_none.mpr hsome⟩)
      rw [if_pos (hfiled.get?_isSome_iff.mpr (.inl hnil))]
      exact iff_of_false (fun hall => hall.2 rfl) (fun hne => hne ⟨hnil, hempty⟩)
    · have hreach : ¬ (cs.get? name).isSome := by
        rw [hfiled.get?_isSome_iff]
        exact fun hor => hor.elim hnil hanswer
      rw [if_neg hreach]
      exact iff_of_true ⟨iff_of_false (by simp) hanswer, by simp⟩ (fun hall => hnil hall.1)

theorem lookup_complete_iff_sample :
    ((sampleContent.lookup (fun _ _ => true) ["a"] ⟨[]⟩).isSome ↔ sampleContent.Answerable ["a"]) ∧
      sampleContent.policyLookup (fun _ _ => true) ["a"] ⟨[]⟩ ≠ some none :=
  (lookup_complete_iff sampleContent_reachable (fun _ _ => true) ["a"]
    (rfl : (Exclude.mk []).empty = true)).mpr (by simp)

/-- An Interest for `/` before anything is cached: the policy is called on a null pointer. -/
theorem policyLookup_null_of_empty :
    (machine TrieWithPolicy.Store.lastHashing).Reachable (Trie.construct "" 1 1) ∧
      (Exclude.mk []).empty = true ∧
      ¬ (((ContentStore.lookup (fun _ _ => true) (Trie.construct "" 1 1) [] ⟨[]⟩).isSome ↔
            ContentStore.Answerable (Trie.construct "" 1 1) []) ∧
          ContentStore.policyLookup (fun _ _ => true) (Trie.construct "" 1 1) [] ⟨[]⟩ ≠
            some none) :=
  ⟨.of_init rfl, rfl, fun hall => hall.2 (by decide)⟩

end ContentStore

end ValProofs
