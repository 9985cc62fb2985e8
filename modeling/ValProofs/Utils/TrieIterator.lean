import ValProofs.Lib.Walk
import ValProofs.Utils.Trie

/-!
The recursive iterator of the trie.

It has no stack: from a node without children it climbs by the pointers to the parents
until there is a sibling to go on to. On the way down the same can be said of a child as
of the whole trie, and where the child is left the walk goes on to the next one. So the
iterator comes by every node, each before those below it.
-/

namespace ValProofs.Trie

open Lib List

variable {κ α : Type}

/-- The nodes, in the order in which they are come by. -/
def nodes (t : Trie κ α) : List (List κ) := (t.entries some).map Prod.fst

/-- The nodes below some of the children. -/
def nodesBelow (children : List (Trie κ α)) : List (List κ) :=
  (Tree.entriesAll some children).map Prod.fst

theorem nodesBelow_cons (c : Trie κ α) (children : List (Trie κ α)) :
    nodesBelow (c :: children) = c.nodes.map (c.label :: ·) ++ nodesBelow children := by
  rw [nodesBelow, Tree.entriesAll, map_append, map_map, nodes, map_map]
  rfl

theorem head?_nodesBelow (children : List (Trie κ α)) :
    (nodesBelow children).head? = children.head?.map fun c => [c.label] := by
  cases children with
  | nil => rfl
  | cons c children =>
    cases c
    rfl

variable [DecidableEq κ]

/-- `goUp()` of the node with the keys, from its own up to the root. The iterator to a child
is incremented in the hash table of its parent. -/
def goUp (t : Trie κ α) : List κ → Option (List κ)
  | [] => none
  | key :: up =>
      match (((t.get? up.reverse).elim [] Tree.labels).dropWhile (· ≠ key)).tail.head? with
      | some item => some (up.reverse ++ [item])
      | none => t.goUp up

/-- `operator++` at a node, which has to be there. -/
def increment (t : Trie κ α) (node : List κ) : Option (Option (List κ)) :=
  (t.get? node).map fun n =>
    match n.labels.head? with
    | some first => some (node ++ [first])
    | none => t.goUp node.reverse

variable {t c : Trie κ α} {before after : List (Trie κ α)}

variable (h : t.Distinct)
include h

/-- A child is left for the next one. -/
theorem goUp_child (hchildren : t.children = before ++ c :: after) (up : List κ) :
    t.goUp (up ++ [c.label]) =
      ((c.goUp up).map (c.label :: ·)).or (after.head?.map fun c => [c.label]) := by
  have hlabels : t.labels = before.map Tree.label ++ c.label :: after.map Tree.label := by
    rw [Tree.labels, hchildren, map_append, map_cons]
  have hmem : c ∈ t.children := hchildren ▸ mem_append_right _ mem_cons_self
  induction up with
  | nil =>
    have hother : ∀ key ∈ before.map Tree.label, decide (key ≠ c.label) = true := by
      have hnodup := h [] _ _ t.view_nil
      rw [hlabels, nodup_append] at hnodup
      intro key hkey
      exact decide_eq_true (hnodup.2.2 key hkey c.label mem_cons_self)
    rw [nil_append, goUp, goUp, reverse_nil, Tree.get?_nil, Option.elim_some, hlabels,
      dropWhile_append_of_pos hother, dropWhile_cons_of_neg (by simp), tail_cons, head?_map]
    cases after <;> rfl
  | cons key up ih =>
    rw [cons_append, goUp, reverse_append, reverse_singleton,
      singleton_append, Tree.get?_cons_of_mem h hmem, ih, goUp]
    split <;> simp

theorem increment_child (hchildren : t.children = before ++ c :: after)
    {path : List κ} {item : Option (List κ)} (hitem : c.increment path = some item) :
    t.increment (c.label :: path) =
      some ((item.map (c.label :: ·)).or (after.head?.map fun c => [c.label])) := by
  have hmem : c ∈ t.children := hchildren ▸ mem_append_right _ mem_cons_self
  obtain ⟨n, hn, rfl⟩ := Option.map_eq_some_iff.mp hitem
  rw [increment, Tree.get?_cons_of_mem h hmem, hn, Option.map_some, reverse_cons,
    goUp_child h hchildren]
  cases n.labels.head? <;> rfl

/-- The children that are left, if the iterator goes through each of them. -/
theorem walks_nodesBelow (before : List (Trie κ α)) {children : List (Trie κ α)}
    (hchildren : t.children = before ++ children)
    (hwalks : ∀ c ∈ children, Walks c.increment c.nodes none) :
    Walks t.increment (nodesBelow children) none := by
  induction children generalizing before with
  | nil => trivial
  | cons c children ih =>
    obtain ⟨hc, hrest⟩ := forall_mem_cons.mp hwalks
    rw [nodesBelow_cons]
    refine Walks.append ?_ (ih (before ++ [c]) (by rw [hchildren]; simp) hrest)
    rw [head?_nodesBelow, Option.or_none]
    exact hc.map fun path item => increment_child h hchildren

/-- **The iterator goes through the nodes**, and then to the end. -/
theorem walks_nodes : Walks t.increment t.nodes none := by
  induction t using Tree.induction with
  | node key data children ih =>
    change Walks _ ([] :: nodesBelow children) none
    refine ⟨?_, walks_nodesBelow h [] rfl fun c hc => ih c hc (h.child hc)⟩
    rw [head?_nodesBelow]
    cases children <;> rfl

theorem nodup_nodes : t.nodes.Nodup := Tree.nodup_entries h

theorem mem_nodes_of_payload {node : List κ} {a : α}
    (hpayload : t.payload node = some a) : node ∈ t.nodes := by
  obtain ⟨v, hview, -⟩ := Option.bind_eq_some_iff.mp hpayload
  refine mem_map.mpr ⟨(node, v.1), (Tree.mem_entries h).mpr ?_, rfl⟩
  rw [Tree.valueAt, hview]
  rfl

end ValProofs.Trie
