import Mathlib.Algebra.BigOperators.Group.List.Basic
import Mathlib.Algebra.Order.Ring.Nat
import Mathlib.Data.List.Infix
import Mathlib.Data.List.Nodup
import Mathlib.Tactic.Common
import ValProofs.Lib.Keyed

/-!
Trees whose nodes are reached by the labels on the way to them.

A tree is seen through its `view`: what is stored in the node at the end of a path,
and the labels of the nodes below it. Changes of one node change the view of that
node, and of a child that is put in or taken out, and leave everything else as it
is; what is said about whole trees (that the labels of siblings differ, that there
are no bare ends) is said about views. Where it holds the nodes with a value are
those that a walk over the tree comes by, and there are not many more nodes than the
paths to them are long.
-/

namespace ValProofs.Lib

open List

/-- A node with its label, what is stored in it, and its children in the order in
which they are visited. -/
inductive Tree (κ β : Type) where
  | node (label : κ) (data : β) (children : List (Tree κ β))

namespace Tree

variable {κ β α : Type}

def label : Tree κ β → κ
  | node label _ _ => label

def data : Tree κ β → β
  | node _ data _ => data

def children : Tree κ β → List (Tree κ β)
  | node _ _ children => children

def labels (t : Tree κ β) : List κ := t.children.map label

theorem labels_perm {n n' c : Tree κ β} (h : n'.children.Perm (c :: n.children)) :
    n'.labels.Perm (c.label :: n.labels) :=
  h.map label

@[elab_as_elim]
theorem induction {motive : Tree κ β → Prop}
    (node : ∀ label data children, (∀ c ∈ children, motive c) →
      motive (node label data children)) : ∀ t, motive t
  | .node label data children =>
    node label data children fun c _ => induction node c

/-! ### Walks over the tree -/

mutual

/-- The number of nodes. -/
def count : Tree κ β → ℕ
  | node _ _ children => 1 + countAll children

def countAll : List (Tree κ β) → ℕ
  | [] => 0
  | c :: cs => c.count + countAll cs

end

mutual

/-- The values in the tree, with the paths to them. -/
def entries (value : β → Option α) : Tree κ β → List (List κ × α)
  | node _ data children =>
      ((value data).toList.map fun a => ([], a)) ++ entriesAll value children

def entriesAll (value : β → Option α) : List (Tree κ β) → List (List κ × α)
  | [] => []
  | c :: cs => ((entries value c).map fun e => (c.label :: e.1, e.2)) ++ entriesAll value cs

end

variable {value : β → Option α} {cs : List (Tree κ β)}

theorem mem_entriesAll {e : List κ × α} :
    e ∈ entriesAll value cs ↔
      ∃ c ∈ cs, ∃ path, e.1 = c.label :: path ∧ (path, e.2) ∈ c.entries value := by
  induction cs with
  | nil => simp [entriesAll]
  | cons c cs ih =>
    rw [entriesAll, mem_append, ih, mem_map]
    constructor
    · rintro (⟨⟨path, a⟩, hmem, rfl⟩ | ⟨c', hc', hrest⟩)
      · exact ⟨c, mem_cons_self, path, rfl, hmem⟩
      · exact ⟨c', mem_cons_of_mem c hc', hrest⟩
    · rintro ⟨c', hc', path, hpath, hmem⟩
      rcases mem_cons.mp hc' with rfl | hc'
      · exact .inl ⟨_, hmem, Prod.ext hpath.symm rfl⟩
      · exact .inr ⟨c', hc', path, hpath, hmem⟩

theorem nodup_entriesAll (hlabels : (cs.map label).Nodup)
    (h : ∀ c ∈ cs, ((c.entries value).map Prod.fst).Nodup) :
    ((entriesAll value cs).map Prod.fst).Nodup := by
  induction cs with
  | nil => exact nodup_nil
  | cons c cs ih =>
    obtain ⟨hc, hcs⟩ := forall_mem_cons.mp h
    rw [map_cons, nodup_cons] at hlabels
    rw [entriesAll, map_append, map_map, nodup_append]
    refine ⟨?_, ih hlabels.2 hcs, ?_⟩
    · have hcons := hc.map (cons_injective (a := c.label))
      rwa [map_map] at hcons
    · -- the paths of the others begin with other labels
      intro p hp p' hp' heq
      obtain ⟨e, -, rfl⟩ := mem_map.mp hp
      obtain ⟨e', he', rfl⟩ := mem_map.mp hp'
      obtain ⟨c', hc', path, hpath, -⟩ := mem_entriesAll.mp he'
      rw [hpath] at heq
      have hlabel : c.label = c'.label := (cons.inj heq).1
      exact hlabels.1 (hlabel ▸ mem_map_of_mem hc')

theorem countAll_le (h : ∀ c ∈ cs, c.count ≤ ((c.entries value).map fun e => e.1.length + 1).sum) :
    countAll cs ≤ ((entriesAll value cs).map fun e => e.1.length).sum := by
  induction cs with
  | nil => exact Nat.le_refl 0
  | cons c cs ih =>
    obtain ⟨hc, hcs⟩ := forall_mem_cons.mp h
    rw [countAll, entriesAll, map_append, sum_append, map_map]
    exact Nat.add_le_add hc (ih hcs)

/-! ### Paths -/

variable [DecidableEq κ]

def child? (t : Tree κ β) (k : κ) : Option (Tree κ β) := t.children.find? fun c => c.label = k

/-- The node at the end of the path. -/
def get? : Tree κ β → List κ → Option (Tree κ β)
  | t, [] => some t
  | t, k :: path => (t.child? k).bind fun c => c.get? path

@[simp] theorem get?_nil (t : Tree κ β) : t.get? [] = some t := rfl

theorem get?_append (t : Tree κ β) (path path' : List κ) :
    t.get? (path ++ path') = (t.get? path).bind fun n => n.get? path' := by
  induction path generalizing t with
  | nil => rfl
  | cons k path ih =>
    rw [cons_append, get?, get?, Option.bind_assoc]
    exact congrArg _ (funext ih)

theorem get?_concat (t : Tree κ β) (path : List κ) (k : κ) :
    t.get? (path ++ [k]) = (t.get? path).bind fun n => n.child? k := by
  rw [get?_append]
  refine congrArg _ (funext fun n => ?_)
  rw [get?]
  cases n.child? k <;> rfl

variable {t : Tree κ β} {k : κ}

theorem child?_eq_none_iff : t.child? k = none ↔ k ∉ t.labels := by
  simp [child?, labels, find?_eq_none]

variable {c : Tree κ β}

/-- Where siblings have different labels, a child is found under its own. -/
theorem child?_eq_some_iff (h : t.labels.Nodup) :
    t.child? k = some c ↔ c ∈ t.children ∧ c.label = k :=
  find?_key_eq_some_iff h

/-! ### Views -/

/-- What is in the node at the end of the path, and the labels of its children. -/
def view (t : Tree κ β) (path : List κ) : Option (β × List κ) :=
  (t.get? path).map fun n => (n.data, n.labels)

@[simp] theorem view_nil (t : Tree κ β) : t.view [] = some (t.data, t.labels) := rfl

theorem view_cons (t : Tree κ β) (k : κ) (path : List κ) :
    t.view (k :: path) = (t.child? k).bind fun c => c.view path := by
  rw [view, get?, Option.map_bind]
  rfl

theorem view_append (t : Tree κ β) (path path' : List κ) :
    t.view (path ++ path') = (t.get? path).bind fun n => n.view path' := by
  rw [view, get?_append, Option.map_bind]
  rfl

variable {n : Tree κ β} {path : List κ}

theorem view_of_get? (h : t.get? path = some n) : t.view path = some (n.data, n.labels) := by
  rw [view, h]
  rfl

theorem view_isSome : (t.view path).isSome = (t.get? path).isSome := by
  rw [view, Option.isSome_map]

/-- The labels that a view names lead further, and no others. -/
theorem view_concat_isSome {data : β} {ls : List κ} (h : t.view path = some (data, ls)) (k : κ) :
    (t.view (path ++ [k])).isSome ↔ k ∈ ls := by
  obtain ⟨n, hn, hview⟩ := Option.map_eq_some_iff.mp h
  obtain ⟨-, rfl⟩ := Prod.mk.inj hview
  rw [view_append, hn, Option.bind_some, view_cons]
  cases hchild : n.child? k with
  | none => simpa using child?_eq_none_iff.mp hchild
  | some c =>
    have hmem : k ∈ n.labels := by
      by_contra hnot
      rw [child?_eq_none_iff.mpr hnot] at hchild
      cases hchild
    simpa using hmem

/-! ### Changing a node -/

/-- The node at the end of the path becomes what `f` makes of it. -/
def modify (f : Tree κ β → Tree κ β) : List κ → Tree κ β → Tree κ β
  | [], t => f t
  | k :: path, t =>
      node t.label t.data (t.children.map fun c => if c.label = k then modify f path c else c)

section Modify

variable {f : Tree κ β → Tree κ β} (hf : ∀ t, (f t).label = t.label)

include hf

theorem label_modify (path : List κ) (t : Tree κ β) : (modify f path t).label = t.label := by
  cases path with
  | nil => exact hf t
  | cons k path => rfl

theorem label_modify_child (k : κ) (path : List κ) (c : Tree κ β) :
    (if c.label = k then modify f path c else c).label = c.label := by
  split
  · exact label_modify hf path c
  · rfl

theorem labels_modify_cons (k : κ) (path : List κ) (t : Tree κ β) :
    (modify f (k :: path) t).labels = t.labels := by
  rw [labels, modify, children, map_map, labels]
  exact map_congr_left fun c _ => label_modify_child hf k path c

theorem child?_modify_cons (k k' : κ) (path : List κ) (t : Tree κ β) :
    (modify f (k :: path) t).child? k' =
      if k' = k then (t.child? k').map (modify f path) else t.child? k' := by
  rw [child?, modify, children, find?_map]
  have hpred : ((fun c : Tree κ β => decide (c.label = k')) ∘
      fun c => if c.label = k then modify f path c else c) = fun c => decide (c.label = k') := by
    funext c
    simp only [Function.comp_apply, label_modify_child hf k path c]
  rw [hpred, ← child?]
  cases hchild : t.child? k' with
  | none => simp
  | some c =>
    have hlabel : c.label = k' := by simpa using find?_some hchild
    rw [Option.map_some, hlabel]
    split <;> rfl

/-- Below the node the tree is what `f` has made. -/
theorem view_modify_append (path path' : List κ) (t : Tree κ β) :
    (modify f path t).view (path ++ path') = (t.get? path).bind fun n => (f n).view path' := by
  induction path generalizing t with
  | nil => rfl
  | cons k path ih =>
    rw [cons_append, view_cons, child?_modify_cons hf, if_pos rfl, get?, Option.bind_assoc]
    cases t.child? k with
    | none => rfl
    | some c => exact ih c

/-- Elsewhere it is what it was. -/
theorem view_modify_of_not_below {path' : List κ} (h : ¬ path <+: path') (t : Tree κ β) :
    (modify f path t).view path' = t.view path' := by
  induction path generalizing t path' with
  | nil => exact absurd nil_prefix h
  | cons k path ih =>
    cases path' with
    | nil => rw [view_nil, labels_modify_cons hf, view_nil, modify, data]
    | cons k' path' =>
      rw [view_cons, view_cons, child?_modify_cons hf]
      by_cases hk : k' = k
      · subst hk
        rw [if_pos rfl]
        have h' : ¬ path <+: path' := fun hbelow => h (cons_prefix_cons.mpr ⟨rfl, hbelow⟩)
        cases t.child? k' with
        | none => rfl
        | some c => exact ih h' c
      · rw [if_neg hk]

end Modify

/-! ### What is done to a node -/

/-- What is stored in the node is changed. -/
def mapData (f : β → β) : Tree κ β → Tree κ β
  | node label data children => node label (f data) children

def eraseChild (k : κ) : Tree κ β → Tree κ β
  | node label data children => node label data (children.filter fun c => c.label ≠ k)

theorem view_modify_mapData (f : β → β) (path path' : List κ) (t : Tree κ β) :
    (modify (mapData f) path t).view path' =
      if path' = path then (t.view path).map fun v => (f v.1, v.2) else t.view path' := by
  have hf : ∀ t : Tree κ β, (t.mapData f).label = t.label := fun t => by cases t; rfl
  by_cases hprefix : path <+: path'
  · obtain ⟨rest, rfl⟩ := hprefix
    rw [view_modify_append hf]
    cases rest with
    | nil =>
      rw [append_nil, if_pos rfl, view, Option.map_map]
      cases t.get? path with
      | none => rfl
      | some n =>
        cases n
        rfl
    | cons k rest =>
      rw [if_neg (by simp), view_append]
      exact congrArg _ (funext fun | .node .. => rfl)
  · have hne : path' ≠ path := by
      rintro rfl
      exact hprefix prefix_rfl
    rw [view_modify_of_not_below hf hprefix, if_neg hne]

theorem child?_of_perm {n' : Tree κ β} (hnodup : n.labels.Nodup) (hnew : c.label ∉ n.labels)
    (h : n'.children.Perm (c :: n.children)) (k : κ) :
    n'.child? k = if k = c.label then some c else n.child? k := by
  have hnodup' : n'.labels.Nodup := (labels_perm h).nodup_iff.mpr (nodup_cons.mpr ⟨hnew, hnodup⟩)
  ext c'
  rw [child?_eq_some_iff hnodup', h.mem_iff, mem_cons]
  split
  · rename_i hk
    subst hk
    constructor
    · rintro ⟨rfl | hmem, hlabel⟩
      · rfl
      · exact absurd (hlabel ▸ mem_map_of_mem hmem) hnew
    · rintro heq
      cases heq
      exact ⟨.inl rfl, rfl⟩
  · rename_i hk
    rw [child?_eq_some_iff hnodup]
    constructor
    · rintro ⟨rfl | hmem, hlabel⟩
      · exact absurd hlabel.symm hk
      · exact ⟨hmem, hlabel⟩
    · exact fun h => ⟨.inr h.1, h.2⟩

theorem child?_eraseChild (k k' : κ) (t : Tree κ β) :
    (t.eraseChild k).child? k' = if k' = k then none else t.child? k' := by
  obtain ⟨label, data, children⟩ := t
  simp only [eraseChild, child?, Tree.children, find?_filter]
  split
  · rename_i hk
    refine find?_eq_none.mpr fun c _ => ?_
    simp [hk]
  · rename_i hk
    congr 1
    funext c
    by_cases hlabel : c.label = k'
    · simp [hlabel, hk]
    · simp [hlabel]

/-- A leaf is put below a node. -/
theorem view_modify_of_perm {f : Tree κ β → Tree κ β} (hf : ∀ t, (f t).label = t.label)
    (hn : t.get? path = some n) (hnodup : n.labels.Nodup) (hnew : c.label ∉ n.labels)
    (hleaf : c.children = []) (hchildren : (f n).children.Perm (c :: n.children)) :
    (modify f path t).view path = some ((f n).data, (f n).labels) ∧
    (modify f path t).view (path ++ [c.label]) = some (c.data, []) ∧
    ∀ path', path' ≠ path → path' ≠ path ++ [c.label] →
      (modify f path t).view path' = t.view path' := by
  have hbelow : ∀ rest, (modify f path t).view (path ++ rest) = (f n).view rest := fun rest => by
    rw [view_modify_append hf, hn, Option.bind_some]
  have hchild := child?_of_perm hnodup hnew hchildren
  have hview : ∀ k rest, c.view (k :: rest) = none := fun k rest => by
    rw [view_cons, child?, hleaf]
    rfl
  refine ⟨?_, ?_, fun path' hpath hchild' => ?_⟩
  · have hself := hbelow []
    rwa [append_nil] at hself
  · rw [hbelow, view_cons, hchild, if_pos rfl, Option.bind_some, view_nil, labels, hleaf]
    rfl
  · by_cases hprefix : path <+: path'
    · obtain ⟨rest, rfl⟩ := hprefix
      rw [hbelow, view_append, hn, Option.bind_some]
      cases rest with
      | nil => exact absurd (append_nil path) hpath
      | cons k rest =>
        rw [view_cons, view_cons, hchild]
        split
        · -- the leaf has nothing below it, and the label was not there before
          rename_i hk
          subst hk
          rw [child?_eq_none_iff.mpr hnew, Option.bind_some]
          cases rest with
          | nil => exact absurd rfl hchild'
          | cons k rest => exact hview k rest
        · rfl
    · exact view_modify_of_not_below hf hprefix t

/-- A leaf is taken away. -/
theorem view_modify_eraseChild (hn : t.get? path = some n) {data : β}
    (hleaf : t.view (path ++ [k]) = some (data, [])) :
    (modify (eraseChild k) path t).view path = some (n.data, n.labels.filter (· ≠ k)) ∧
    (modify (eraseChild k) path t).view (path ++ [k]) = none ∧
    ∀ path', path' ≠ path → path' ≠ path ++ [k] →
      (modify (eraseChild k) path t).view path' = t.view path' := by
  have hf : ∀ t : Tree κ β, (t.eraseChild k).label = t.label := fun t => by cases t; rfl
  have hbelow : ∀ rest, (modify (eraseChild k) path t).view (path ++ rest) =
      (n.eraseChild k).view rest := fun rest => by
    rw [view_modify_append hf, hn, Option.bind_some]
  refine ⟨?_, ?_, fun path' hpath hchild => ?_⟩
  · have hself := hbelow []
    rw [append_nil] at hself
    rw [hself, view_nil]
    obtain ⟨label, data, children⟩ := n
    simp only [eraseChild, Tree.data, labels, Tree.children, filter_map]
    rfl
  · rw [hbelow, view_cons, child?_eraseChild, if_pos rfl]
    rfl
  · by_cases hprefix : path <+: path'
    · obtain ⟨rest, rfl⟩ := hprefix
      rw [hbelow]
      cases rest with
      | nil => exact absurd (append_nil path) hpath
      | cons k' rest =>
        by_cases hk : k' = k
        · subst hk
          rw [view_cons, child?_eraseChild, if_pos rfl, Option.bind_none]
          cases rest with
          | nil => exact absurd rfl hchild
          | cons k rest =>
            have hnone : t.view ((path ++ [k']) ++ [k]) = none := by
              rw [← Option.not_isSome_iff_eq_none, view_concat_isSome hleaf]
              exact not_mem_nil
            have hrest : t.view (((path ++ [k']) ++ [k]) ++ rest) = none := by
              rw [view_append, Option.map_eq_none_iff.mp hnone]
              rfl
            rw [append_assoc, append_assoc] at hrest
            exact hrest.symm
        · rw [view_append, hn, Option.bind_some, view_cons, child?_eraseChild, if_neg hk, view_cons]
    · exact view_modify_of_not_below hf hprefix t

/-! ### Whole trees -/

/-- Siblings have different labels. -/
def Distinct (t : Tree κ β) : Prop :=
  ∀ path data ls, t.view path = some (data, ls) → ls.Nodup

/-- Except for the root and the node at `except`, every node has a value or something
below it. -/
def Trimmed (value : β → Option α) (except : List κ) (t : Tree κ β) : Prop :=
  ∀ path data ls, t.view path = some (data, ls) → path ≠ [] → path ≠ except →
    (value data).isSome ∨ ls ≠ []

/-- The value at the end of the path. -/
def valueAt (value : β → Option α) (t : Tree κ β) (path : List κ) : Option α :=
  (t.view path).bind fun v => value v.1

theorem get?_cons_of_mem (h : t.Distinct) (hc : c ∈ t.children) (path : List κ) :
    t.get? (c.label :: path) = c.get? path := by
  rw [get?, (child?_eq_some_iff (h [] _ _ t.view_nil)).mpr ⟨hc, rfl⟩, Option.bind_some]

theorem view_cons_of_mem (h : t.Distinct) (hc : c ∈ t.children) (path : List κ) :
    t.view (c.label :: path) = c.view path := by
  rw [view, get?_cons_of_mem h hc, view]

theorem Distinct.get? (h : t.Distinct) (hn : t.get? path = some n) : n.Distinct := by
  intro path' data ls hview
  refine h (path ++ path') data ls ?_
  rw [view_append, hn]
  exact hview

theorem valueAt_append (value : β → Option α) (hn : t.get? path = some n) (path' : List κ) :
    t.valueAt value (path ++ path') = n.valueAt value path' := by
  rw [valueAt, view_append, hn]
  rfl

theorem Distinct.child (h : t.Distinct) (hc : c ∈ t.children) : c.Distinct :=
  h.get? (get?_cons_of_mem h hc [])

/-- A walk comes by the values that are found at the end of paths. -/
theorem mem_entries (h : t.Distinct) {a : α} :
    (path, a) ∈ t.entries value ↔ t.valueAt value path = some a := by
  induction t using Tree.induction generalizing path with
  | node label data children ih =>
    rw [entries, mem_append, mem_entriesAll]
    cases path with
    | nil => simp [valueAt, Tree.data]
    | cons k path =>
      have hhead : (k :: path, a) ∉ (value data).toList.map fun a => (([] : List κ), a) := by
        simp
      rw [or_iff_right hhead, valueAt, view_cons]
      constructor
      · rintro ⟨c, hc, path', hpath, hmem⟩
        obtain ⟨rfl, rfl⟩ := cons.inj hpath
        rw [← view_cons, view_cons_of_mem h hc]
        exact (ih c hc (h.child hc)).mp hmem
      · intro hvalue
        obtain ⟨v, hview, hv⟩ := Option.bind_eq_some_iff.mp hvalue
        obtain ⟨c, hchild, hbelow⟩ := Option.bind_eq_some_iff.mp hview
        obtain ⟨hc, rfl⟩ := (child?_eq_some_iff (h [] _ _ (view_nil _))).mp hchild
        refine ⟨c, hc, path, rfl, (ih c hc (h.child hc)).mpr ?_⟩
        rw [valueAt, hbelow]
        exact hv

theorem nodup_entries (h : t.Distinct) : ((t.entries value).map Prod.fst).Nodup := by
  induction t using Tree.induction with
  | node label data children ih =>
    rw [entries, map_append, nodup_append]
    refine ⟨?_, ?_, ?_⟩
    · cases value data <;> simp
    · exact nodup_entriesAll (h [] _ _ (view_nil _)) fun c hc => ih c hc (h.child hc)
    · rintro p hp p' hp' rfl
      obtain ⟨e, he, rfl⟩ := mem_map.mp hp
      obtain ⟨a, -, rfl⟩ := mem_map.mp he
      obtain ⟨e', he', hnil⟩ := mem_map.mp hp'
      obtain ⟨c, -, path, hpath, -⟩ := mem_entriesAll.mp he'
      rw [hpath] at hnil
      cases hnil

/-! ### The number of nodes -/

/-- Every node has a value or something below it. -/
def Full (value : β → Option α) (t : Tree κ β) : Prop :=
  ∀ path data ls, t.view path = some (data, ls) → (value data).isSome ∨ ls ≠ []

theorem Trimmed.full_get? (h : t.Trimmed value []) (hne : path ≠ []) (hn : t.get? path = some n) :
    n.Full value := by
  intro path' data ls hview
  have hne' : path ++ path' ≠ [] := fun hnil => hne (append_eq_nil_iff.mp hnil).1
  refine h (path ++ path') data ls ?_ hne' hne'
  rw [view_append, hn]
  exact hview

theorem Trimmed.full_child (h : t.Trimmed value []) (hdistinct : t.Distinct) (hc : c ∈ t.children) :
    c.Full value :=
  h.full_get? (cons_ne_nil _ _) (get?_cons_of_mem hdistinct hc [])

theorem Full.trimmed (h : t.Full value) (except : List κ) : t.Trimmed value except :=
  fun path data ls hview _ _ => h path data ls hview

theorem Full.entries_ne_nil (h : t.Full value) (hdistinct : t.Distinct) : t.entries value ≠ [] := by
  induction t using Tree.induction with
  | node label data children ih =>
    rw [entries]
    intro hnil
    obtain ⟨hvalue, hbelow⟩ := append_eq_nil_iff.mp hnil
    obtain hsome | hlabels := h [] _ _ (view_nil _)
    · obtain ⟨a, ha⟩ := Option.isSome_iff_exists.mp hsome
      simp only [Tree.data] at ha
      simp [ha] at hvalue
    · cases children with
      | nil => exact hlabels rfl
      | cons c cs =>
        have hc : c ∈ (Tree.node label data (c :: cs)).children := mem_cons_self
        rw [entriesAll] at hbelow
        refine ih c hc ((h.trimmed []).full_child hdistinct hc) (hdistinct.child hc) ?_
        exact map_eq_nil_iff.mp (append_eq_nil_iff.mp hbelow).1

/-- **There are few nodes.** In a trimmed tree there are no more nodes, next to the
root, than labels on the paths to the values. -/
theorem count_le (hdistinct : t.Distinct) (h : t.Trimmed value []) :
    t.count ≤ 1 + ((t.entries value).map fun e => e.1.length).sum := by
  induction t using Tree.induction with
  | node label data children ih =>
    have hchildren : ∀ c ∈ children,
        c.count ≤ ((c.entries value).map fun e => e.1.length + 1).sum := by
      intro c hc
      have hfull := h.full_child hdistinct hc
      have hcount := ih c hc (hdistinct.child hc) (hfull.trimmed [])
      have hpos := length_pos_iff.mpr (hfull.entries_ne_nil (hdistinct.child hc))
      rw [sum_map_add, map_const', sum_const_nat, Nat.mul_one]
      omega
    have hroot : (((value data).toList.map fun a => (([] : List κ), a)).map
        fun e => e.1.length).sum = 0 := by
      cases value data <;> rfl
    rw [count, entries, map_append, sum_append, hroot, Nat.zero_add]
    exact Nat.add_le_add_left (countAll_le hchildren) 1

end Tree

end ValProofs.Lib
