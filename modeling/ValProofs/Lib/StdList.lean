import Mathlib.Data.List.Nodup
import Mathlib.Data.List.TakeWhile
import ValProofs.Lib.Scan

/-!
A linked list with iterators, and the loop that erases while it iterates.

An iterator stands on a node, or at the end. It may be dereferenced, advanced and erased only as
long as its node is in the list; everything else is a fault, and a run with a fault has no
result. Some implementations keep the nodes in a ring, in which the end is followed by the first
node. This is not promised by the list, so it is a second way to advance.
-/

namespace ValProofs.Lib

open List

/-- What a list does not allow. -/
inductive IterFault
  /-- The node has been erased. -/
  | erased
  /-- The iterator is at the end. -/
  | pastEnd
  deriving DecidableEq, Repr

/-- The nodes of a list, each with its address. -/
structure StdList (α : Type) where
  nodes : List (ℕ × α)
  nodup : (nodes.map Prod.fst).Nodup

/-- The address of a node; `none` is `end()`. -/
abbrev Iter := Option ℕ

namespace StdList

variable {α : Type}

def toList (l : StdList α) : List α := l.nodes.map Prod.snd

/-- A list whose nodes are numbered. -/
def ofList (values : List α) : StdList α where
  nodes := (List.range values.length).zip values
  nodup := by
    rw [List.map_fst_zip (by simp)]
    exact List.nodup_range

/-- The iterator on the first of some nodes. -/
def first (nodes : List (ℕ × α)) : Iter := nodes.head?.map Prod.fst

/-- `begin()`. -/
def begin (l : StdList α) : Iter := first l.nodes

/-- `*it`. -/
def deref (l : StdList α) : Iter → Except IterFault α
  | none => .error .pastEnd
  | some id =>
      match l.nodes.find? fun node => node.1 == id with
      | none => .error .erased
      | some node => .ok node.2

/-- `it++`. -/
def next (l : StdList α) : Iter → Except IterFault Iter
  | none => .error .pastEnd
  | some id =>
      match l.nodes.dropWhile fun node => node.1 != id with
      | [] => .error .erased
      | _ :: rest => .ok (first rest)

/-- `it++` in a ring. -/
def nextCircular (l : StdList α) (it : Iter) : Except IterFault Iter :=
  if it = none then .ok l.begin else l.next it

/-- `erase(it)`. -/
def erase (l : StdList α) : Iter → Except IterFault (StdList α)
  | none => .error .pastEnd
  | some id =>
      if l.nodes.any fun node => node.1 == id then
        .ok ⟨l.nodes.filter fun node => node.1 != id, l.nodup.sublist (List.filter_sublist.map _)⟩
      else .error .erased

/-- A list, the number of its elements that is kept next to it, and whether something has been
erased. -/
structure Erasing (α : Type) where
  list : StdList α
  size : ℕ
  state : Bool

/-- The body of the loop: an element that `p` holds of is erased. The iterator is then what
`after` makes of it. -/
def eraseBody (after : Iter → Iter) (p : α → Bool) (t : Erasing α) (it : Iter) :
    Except IterFault (Erasing α × Iter) := do
  let a ← t.list.deref it
  if p a then
    let list ← t.list.erase it
    return (⟨list, t.size - 1, true⟩, after it)
  else return (t, it)

/-- `for (it = begin(); it != end(); it++)` around the body, from some iterator on, with `fuel`
turns. -/
def eraseLoop (next : StdList α → Iter → Except IterFault Iter) (after : Iter → Iter)
    (p : α → Bool) : ℕ → Erasing α → Iter → Option (Except IterFault (Erasing α))
  | 0, _, _ => none
  | fuel + 1, t, it =>
      if it = none then some (.ok t)
      else
        match eraseBody after p t it with
        | .error fault => some (.error fault)
        | .ok (t, it) =>
            match next t.list it with
            | .error fault => some (.error fault)
            | .ok it => eraseLoop next after p fuel t it

/-! ### One operation -/

@[simp] theorem toList_ofList (values : List α) : (ofList values).toList = values :=
  map_snd_zip (by simp)

variable {l : StdList α} {front back : List (ℕ × α)} {id : ℕ} {a : α}

section

variable (h : l.nodes = front ++ (id, a) :: back)
include h

theorem not_mem_of_nodes : ∀ node ∈ front ++ back, node.1 ≠ id := by
  have hnodup := l.nodup
  rw [h, map_append, map_cons, nodup_middle, nodup_cons] at hnodup
  rintro node hnode rfl
  rw [← map_append] at hnodup
  exact hnodup.1 (mem_map.mpr ⟨node, hnode, rfl⟩)

theorem deref_of_nodes : l.deref (some id) = .ok a := by
  have hfind : l.nodes.find? (fun node => node.1 == id) = some (id, a) := by
    rw [h, find?_append, find?_eq_none.mpr, Option.none_or, find?_cons_of_pos]
    · exact beq_self_eq_true id
    · intro node hnode
      simpa using not_mem_of_nodes h node (mem_append_left back hnode)
  rw [deref, hfind]

theorem next_of_nodes : l.next (some id) = .ok (first back) := by
  have hdrop : l.nodes.dropWhile (fun node => node.1 != id) = (id, a) :: back := by
    rw [h, dropWhile_append_of_pos, dropWhile_cons_of_neg]
    · simp
    · intro node hnode
      simpa using not_mem_of_nodes h node (mem_append_left back hnode)
  rw [next, hdrop]

/-- After the erasure the other nodes are left, and the iterator is not valid any more. -/
theorem erase_of_nodes :
    ∃ l' : StdList α, l.erase (some id) = .ok l' ∧ l'.nodes = front ++ back ∧
      l'.next (some id) = .error .erased := by
  have hany : (l.nodes.any fun node => node.1 == id) = true := by simp [h]
  have hnodes : (l.nodes.filter fun node => node.1 != id) = front ++ back := by
    have hother : ∀ node ∈ front ++ back, (node.1 != id) = true := fun node hnode => by
      simpa using not_mem_of_nodes h node hnode
    rw [h, filter_append, filter_cons_of_neg (by simp), ← filter_append]
    exact filter_eq_self.mpr hother
  refine ⟨⟨_, l.nodup.sublist (filter_sublist.map _)⟩, by rw [erase, if_pos hany], hnodes, ?_⟩
  have hdrop : (l.nodes.filter fun node => node.1 != id).dropWhile (fun node => node.1 != id) =
      [] :=
    dropWhile_eq_nil_iff.mpr fun _ hnode => (mem_filter.mp hnode).2
  rw [next, hdrop]

end

/-! ### The loop -/

variable {next : StdList α → Iter → Except IterFault Iter} {after : Iter → Iter} {p : α → Bool}
  {t : Erasing α}

/-- A turn that erases nothing. -/
theorem eraseBody_of_not (h : t.list.nodes = front ++ (id, a) :: back) (ha : p a = false) :
    eraseBody after p t (some id) = .ok (t, some id) := by
  simp [eraseBody, deref_of_nodes h, ha, bind, Except.bind, pure, Except.pure]

/-- A turn that erases. -/
theorem eraseBody_of_mem (after : Iter → Iter) (h : t.list.nodes = front ++ (id, a) :: back)
    (ha : p a = true) :
    ∃ l' : StdList α,
      eraseBody after p t (some id) = .ok (⟨l', t.size - 1, true⟩, after (some id)) ∧
        l'.nodes = front ++ back ∧ l'.next (some id) = .error .erased := by
  obtain ⟨l', herase, hnodes, hnext⟩ := erase_of_nodes h
  refine ⟨l', ?_, hnodes, hnext⟩
  simp [eraseBody, deref_of_nodes h, ha, herase, bind, Except.bind, pure, Except.pure]

/-- The first element that is looked for, if there is one. -/
theorem exists_first (h : ∃ a ∈ t.list.toList, p a = true) :
    ∃ middle id a back, t.list.nodes = middle ++ (id, a) :: back ∧
      (∀ node ∈ middle, p node.2 = false) ∧ p a = true := by
  obtain ⟨a, ha, hpa⟩ := h
  obtain ⟨node, hnode, rfl⟩ := mem_map.mp ha
  obtain ⟨b, middle, back, hnot, hb, hnodes, -⟩ :=
    exists_of_eraseP (p := fun node => p node.2) hnode hpa
  exact ⟨middle, b.1, b.2, back, hnodes, fun other hother => by simpa using hnot other hother, hb⟩

section

variable (hnext : ∀ (l : StdList α) id, next l (some id) = l.next (some id))
  (after : Iter → Iter)

include hnext

/-- The loop passes over the elements that are not looked for. -/
theorem eraseLoop_skip (front middle back : List (ℕ × α))
    (h : t.list.nodes = front ++ (middle ++ back)) (hmiddle : ∀ node ∈ middle, p node.2 = false)
    (fuel : ℕ) :
    eraseLoop next after p (fuel + middle.length) t (first (middle ++ back)) =
      eraseLoop next after p fuel t (first back) := by
  induction middle generalizing front with
  | nil => rfl
  | cons node middle ih =>
    have hnode : p node.2 = false := hmiddle node mem_cons_self
    have hnodes : t.list.nodes = front ++ (node.1, node.2) :: (middle ++ back) := h
    rw [length_cons, ← Nat.add_assoc, eraseLoop, if_neg (by simp [first])]
    have hfirst : first (node :: middle ++ back) = some node.1 := rfl
    rw [hfirst, eraseBody_of_not hnodes hnode]
    dsimp only
    rw [hnext, next_of_nodes hnodes]
    refine ih (front ++ [node]) ?_ fun other hother =>
      hmiddle other (mem_cons_of_mem node hother)
    rw [← append_cons]
    exact h

/-- When nothing is found the list is what it was. -/
theorem eraseLoop_of_forall_not (hnot : ∀ a ∈ t.list.toList, p a = false) (fuel : ℕ) :
    eraseLoop next after p (fuel + 1 + t.list.nodes.length) t t.list.begin = some (.ok t) := by
  have hnodes : ∀ node ∈ t.list.nodes, p node.2 = false := fun node hnode =>
    hnot node.2 (mem_map_of_mem hnode)
  have hskip := eraseLoop_skip (t := t) hnext after [] t.list.nodes [] (by simp) hnodes (fuel + 1)
  rw [append_nil] at hskip
  exact hskip

/-- The loop comes to the first element that is looked for, and erases it. -/
theorem eraseLoop_first {middle : List (ℕ × α)} (h : t.list.nodes = middle ++ (id, a) :: back)
    (hmiddle : ∀ node ∈ middle, p node.2 = false) (ha : p a = true) :
    ∃ l' : StdList α, l'.nodes = middle ++ back ∧ l'.next (some id) = .error .erased ∧
      ∀ fuel, eraseLoop next after p (fuel + 1 + middle.length) t t.list.begin =
        match next l' (after (some id)) with
        | .error fault => some (.error fault)
        | .ok it => eraseLoop next after p fuel ⟨l', t.size - 1, true⟩ it := by
  obtain ⟨l', hbody, hnodes, herased⟩ := eraseBody_of_mem after h ha
  refine ⟨l', hnodes, herased, fun fuel => ?_⟩
  have hskip := eraseLoop_skip hnext after [] middle ((id, a) :: back) h hmiddle (fuel + 1)
  have hfirst : first ((id, a) :: back) = some id := rfl
  rw [begin, h, hskip, hfirst, eraseLoop, if_neg (by simp), hbody]

end

/-- More turns do not matter. -/
theorem eraseLoop_add {fuel : ℕ} {it : Iter} {result : Except IterFault (Erasing α)}
    (h : eraseLoop next after p fuel t it = some result) (more : ℕ) :
    eraseLoop next after p (fuel + more) t it = some result := by
  induction fuel generalizing t it with
  | zero => cases h
  | succ fuel ih =>
    rw [Nat.add_right_comm]
    rw [eraseLoop] at h ⊢
    split
    · rename_i hend
      rwa [if_pos hend] at h
    · rename_i hend
      rw [if_neg hend] at h
      split
      · rename_i fault hbody
        rwa [hbody] at h
      · rename_i t' it' hbody
        rw [hbody] at h
        dsimp only at h
        split
        · rename_i fault hstep
          rwa [hstep] at h
        · rename_i it'' hstep
          rw [hstep] at h
          exact ih h

/-- The loop has no fault, and it returns the other elements, in their order, and the number of
them. -/
structure Exact (run : ℕ → Option (Except IterFault (Erasing α))) (values : List α)
    (p : α → Bool) : Prop where
  safe : ∀ fuel fault, run fuel ≠ some (.error fault)
  returns : ∃ fuel t, run fuel = some (.ok t) ∧ t.list.toList = values.filter (fun a => !p a) ∧
    t.size = t.list.toList.length

/-- If the loop cannot go on after it has erased, it is right only when it erases nothing. -/
theorem exact_iff (next : StdList α → Iter → Except IterFault Iter) (after : Iter → Iter)
    (hnext : ∀ (l : StdList α) id, next l (some id) = l.next (some id))
    (hafter : ∀ (l : StdList α) id, l.next (some id) = .error .erased →
      ∃ fault, next l (after (some id)) = .error fault) (hsize : t.size = t.list.toList.length) :
    Exact (fun fuel => eraseLoop next after p fuel t t.list.begin) t.list.toList p ↔
      ∀ a ∈ t.list.toList, p a = false := by
  constructor
  · intro hexact
    by_contra hsome
    have hfound : ∃ a ∈ t.list.toList, p a = true := by simpa using hsome
    obtain ⟨middle, id, a, back, hnodes, hmiddle, ha⟩ := exists_first hfound
    obtain ⟨l', -, herased, hloop⟩ := eraseLoop_first hnext after hnodes hmiddle ha
    obtain ⟨fault, hfault⟩ := hafter l' id herased
    refine hexact.safe (0 + 1 + middle.length) fault ?_
    rw [hloop 0, hfault]
  · intro hnot
    have hloop := eraseLoop_of_forall_not hnext after hnot 0
    refine ⟨fun fuel fault hfault => ?_, _, t, hloop, ?_, hsize⟩
    · have hmore := eraseLoop_add hloop fuel
      rw [Nat.add_comm, eraseLoop_add hfault] at hmore
      cases hmore
    · exact (filter_eq_self.mpr fun a ha => by simp [hnot a ha]).symm

/-- In a ring a loop that goes to the end after it has erased starts again. -/
theorem exists_eraseLoop_circular (p : α → Bool) (t : Erasing α) :
    ∃ fuel l', eraseLoop nextCircular (fun _ => none) p fuel t t.list.begin =
        some (.ok ⟨l', t.size - (t.list.toList.length - l'.toList.length),
          t.state || t.list.toList.any p⟩) ∧
      l'.toList = t.list.toList.filter fun a => !p a := by
  have hnext : ∀ (l : StdList α) id, nextCircular l (some id) = l.next (some id) :=
    fun l id => if_neg (by simp)
  -- by induction on the length: each turn around the ring erases one element
  induction hlength : t.list.toList.length using Nat.strong_induction_on generalizing t with
  | _ n ih =>
    subst hlength
    by_cases hfound : ∃ a ∈ t.list.toList, p a = true
    · obtain ⟨middle, id, a, back, hnodes, hmiddle, ha⟩ := exists_first hfound
      obtain ⟨l', hnodes', -, hloop⟩ :=
        eraseLoop_first hnext (fun _ => none) hnodes hmiddle ha
      have hlist : t.list.toList = middle.map Prod.snd ++ a :: back.map Prod.snd := by
        rw [toList, hnodes, map_append, map_cons]
      have hlist' : l'.toList = middle.map Prod.snd ++ back.map Prod.snd := by
        rw [toList, hnodes', map_append]
      have hless : l'.toList.length + 1 = t.list.toList.length := by
        rw [hlist, hlist', length_append, length_append, length_cons]
        omega
      obtain ⟨fuel, l'', hrest, hfilter⟩ :=
        ih l'.toList.length (by omega) ⟨l', t.size - 1, true⟩ rfl
      refine ⟨fuel + 1 + middle.length, l'', ?_, ?_⟩
      · rw [hloop fuel, nextCircular, if_pos rfl]
        refine hrest.trans ?_
        have hany : t.list.toList.any p = true := any_eq_true.mpr hfound
        have hle : l''.toList.length ≤ l'.toList.length := by
          rw [hfilter]
          exact length_filter_le _ _
        have hsize : t.size - 1 - (l'.toList.length - l''.toList.length) =
            t.size - (t.list.toList.length - l''.toList.length) := by omega
        simp only [hsize, hany, Bool.true_or, Bool.or_true]
      · rw [hfilter, hlist, hlist', filter_append, filter_append, filter_cons_of_neg (by simp [ha])]
    · have hnot : ∀ a ∈ t.list.toList, p a = false := by simpa using hfound
      have hfilter : t.list.toList = t.list.toList.filter fun a => !p a :=
        (filter_eq_self.mpr fun a ha => by simp [hnot a ha]).symm
      have hany : t.list.toList.any p = false := by simpa using hnot
      refine ⟨_, t.list, (eraseLoop_of_forall_not hnext (fun _ => none) hnot 0).trans ?_, hfilter⟩
      simp only [hany, Nat.sub_self, Nat.sub_zero, Bool.or_false]

end StdList

end ValProofs.Lib
