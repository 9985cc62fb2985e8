import Mathlib.Data.List.Sort
import Mathlib.Data.Nat.Find
import ValProofs.Packet

/-!
NFD's Forwarding Information Base. The next hops of an entry are kept sorted by
cost; next hops of equal cost stay in the order in which they were added.

What a FIB says is a relation between names and faces. Adding a route adds one
pair to it, and a lookup reads it at the longest prefix that has a pair.
-/

namespace ValProofs.Fib

open List

structure NextHop where
  faceId : ℕ
  cost : ℕ
  deriving DecidableEq, Repr

structure Entry where
  name : Name
  nextHops : List NextHop
  deriving DecidableEq, Repr

namespace Entry

def hasNextHops (entry : Entry) : Bool := !entry.nextHops.isEmpty

/-- All next hops of a face have the same endpoint, `0`. -/
def addOrUpdateNextHop (entry : Entry) (faceId cost : ℕ) : Entry :=
  let nextHops :=
    if entry.nextHops.any fun h => h.faceId = faceId then
      entry.nextHops.map fun h => if h.faceId = faceId then ⟨faceId, cost⟩ else h
    else entry.nextHops ++ [⟨faceId, cost⟩]
  { entry with nextHops := nextHops.insertionSort fun a b => a.cost ≤ b.cost }

end Entry

/-- `s_emptyEntry`. -/
def emptyEntry : Entry := ⟨[], []⟩

/-- The entry for the longest prefix of the name that has one. -/
def findLongestPrefixMatch (fib : List Entry) (name : Name) : Entry :=
  ((List.range (name.length + 1)).reverse.findSome? fun n =>
    fib.find? fun entry => entry.name = name.take n).getD emptyEntry

def insert (fib : List Entry) (name : Name) : List Entry :=
  if fib.any fun entry => entry.name = name then fib else fib ++ [⟨name, []⟩]

/-- `insert(name).first->addOrUpdateNextHop(face, 0, cost)`. -/
def addRoute (fib : List Entry) (name : Name) (faceId cost : ℕ) : List Entry :=
  (insert fib name).map fun entry =>
    if entry.name = name then entry.addOrUpdateNextHop faceId cost else entry

/-! ### The routes of a FIB -/

theorem Entry.mem_addOrUpdateNextHop (entry : Entry) (faceId cost : ℕ) (nextHop : NextHop) :
    nextHop ∈ (entry.addOrUpdateNextHop faceId cost).nextHops ↔
      nextHop = ⟨faceId, cost⟩ ∨ (nextHop ∈ entry.nextHops ∧ nextHop.faceId ≠ faceId) := by
  simp only [addOrUpdateNextHop, mem_insertionSort]
  split
  · rename_i hany
    obtain ⟨old, hold, hsame⟩ := any_eq_true.mp hany
    have hsame' : old.faceId = faceId := by simpa using hsame
    rw [mem_map]
    constructor
    · rintro ⟨other, hmem, rfl⟩
      split
      · exact .inl rfl
      · rename_i hne
        exact .inr ⟨hmem, hne⟩
    · rintro (rfl | ⟨hmem, hne⟩)
      · exact ⟨old, hold, if_pos hsame'⟩
      · exact ⟨nextHop, hmem, if_neg hne⟩
  · rename_i hnone
    have hne : ∀ other ∈ entry.nextHops, other.faceId ≠ faceId := by simpa using hnone
    rw [mem_append, mem_singleton]
    constructor
    · rintro (hmem | heq)
      · exact .inr ⟨hmem, hne nextHop hmem⟩
      · exact .inl heq
    · rintro (heq | ⟨hmem, -⟩)
      · exact .inr heq
      · exact .inl hmem

/-- The entry has the face as a next hop. -/
def Entry.Reaches (entry : Entry) (faceId : ℕ) : Prop :=
  ∃ nextHop ∈ entry.nextHops, nextHop.faceId = faceId

theorem Entry.reaches_addOrUpdateNextHop (entry : Entry) (faceId cost faceId' : ℕ) :
    (entry.addOrUpdateNextHop faceId cost).Reaches faceId' ↔
      entry.Reaches faceId' ∨ faceId' = faceId := by
  constructor
  · rintro ⟨nextHop, hmem, rfl⟩
    rcases (entry.mem_addOrUpdateNextHop ..).mp hmem with rfl | ⟨hold, -⟩
    · exact .inr rfl
    · exact .inl ⟨nextHop, hold, rfl⟩
  · by_cases hface : faceId' = faceId
    · subst hface
      exact fun _ => ⟨⟨faceId', cost⟩, (entry.mem_addOrUpdateNextHop ..).mpr (.inl rfl), rfl⟩
    · rintro (⟨nextHop, hmem, rfl⟩ | heq)
      · exact ⟨nextHop, (entry.mem_addOrUpdateNextHop ..).mpr (.inr ⟨hmem, hface⟩), rfl⟩
      · exact absurd heq hface

theorem Entry.hasNextHops_iff (entry : Entry) :
    entry.hasNextHops = true ↔ ∃ faceId, entry.Reaches faceId := by
  rw [hasNextHops, Bool.not_eq_true', isEmpty_eq_false_iff_exists_mem]
  constructor
  · rintro ⟨nextHop, hmem⟩
    exact ⟨nextHop.faceId, nextHop, hmem, rfl⟩
  · rintro ⟨faceId, nextHop, hmem, -⟩
    exact ⟨nextHop, hmem⟩

/-- There is a route for the name to the face, with this cost. -/
def HasNextHop (fib : List Entry) (name : Name) (nextHop : NextHop) : Prop :=
  ∃ entry ∈ fib, entry.name = name ∧ nextHop ∈ entry.nextHops

theorem hasNextHop_insert (fib : List Entry) (name name' : Name) (nextHop : NextHop) :
    HasNextHop (insert fib name) name' nextHop ↔ HasNextHop fib name' nextHop := by
  rw [insert]
  split
  · exact Iff.rfl
  · constructor
    · rintro ⟨entry, hentry, hname, hmem⟩
      rcases mem_append.mp hentry with hentry | hentry
      · exact ⟨entry, hentry, hname, hmem⟩
      · rw [mem_singleton.mp hentry] at hmem
        cases hmem
    · rintro ⟨entry, hentry, hrest⟩
      exact ⟨entry, mem_append_left _ hentry, hrest⟩

theorem exists_mem_insert (fib : List Entry) (name : Name) :
    ∃ entry ∈ insert fib name, entry.name = name := by
  rw [insert]
  split
  · rename_i hany
    simpa using hany
  · exact ⟨⟨name, []⟩, by simp, rfl⟩

/-- Adding a route replaces what the name had for the face. -/
theorem hasNextHop_addRoute (fib : List Entry) (name name' : Name) (faceId cost : ℕ)
    (nextHop : NextHop) :
    HasNextHop (addRoute fib name faceId cost) name' nextHop ↔
      (name' = name ∧ nextHop = ⟨faceId, cost⟩) ∨
        (HasNextHop fib name' nextHop ∧ ¬ (name' = name ∧ nextHop.faceId = faceId)) := by
  rw [← hasNextHop_insert fib name name' nextHop]
  constructor
  · rintro ⟨entry, hentry, rfl, hmem⟩
    obtain ⟨old, hold, rfl⟩ := mem_map.mp hentry
    by_cases hname : old.name = name
    · rw [if_pos hname] at hmem ⊢
      rcases (old.mem_addOrUpdateNextHop ..).mp hmem with rfl | ⟨hmem, hne⟩
      · exact .inl ⟨hname, rfl⟩
      · exact .inr ⟨⟨old, hold, rfl, hmem⟩, fun heq => hne heq.2⟩
    · rw [if_neg hname] at hmem ⊢
      exact .inr ⟨⟨old, hold, rfl, hmem⟩, fun heq => hname heq.1⟩
  · rintro (⟨rfl, rfl⟩ | ⟨⟨old, hold, rfl, hmem⟩, hne⟩)
    · obtain ⟨old, hold, hname⟩ := exists_mem_insert fib name'
      refine ⟨_, mem_map_of_mem hold, ?_⟩
      rw [if_pos hname]
      exact ⟨hname, (old.mem_addOrUpdateNextHop ..).mpr (.inl rfl)⟩
    · refine ⟨_, mem_map_of_mem hold, ?_⟩
      by_cases hname : old.name = name
      · rw [if_pos hname]
        exact ⟨rfl, (old.mem_addOrUpdateNextHop ..).mpr
          (.inr ⟨hmem, fun heq => hne ⟨hname, heq⟩⟩)⟩
      · rw [if_neg hname]
        exact ⟨rfl, hmem⟩

/-- There is a route for the name to the face. -/
def HasRoute (fib : List Entry) (name : Name) (faceId : ℕ) : Prop :=
  ∃ entry ∈ fib, entry.name = name ∧ entry.Reaches faceId

/-- Names have one entry, and no entry is without next hops. -/
structure Proper (fib : List Entry) : Prop where
  nodup : (fib.map Entry.name).Nodup
  routed : ∀ entry ∈ fib, ∃ faceId, entry.Reaches faceId

variable {fib : List Entry} {name : Name} {faceId : ℕ}

theorem mem_addRoute {cost : ℕ} {entry : Entry} :
    entry ∈ addRoute fib name faceId cost ↔
      (entry ∈ fib ∧ entry.name ≠ name) ∨
        ∃ old ∈ insert fib name, old.name = name ∧ entry = old.addOrUpdateNextHop faceId cost := by
  rw [addRoute, mem_map]
  constructor
  · rintro ⟨old, hold, rfl⟩
    by_cases hname : old.name = name
    · rw [if_pos hname]
      exact .inr ⟨old, hold, hname, rfl⟩
    · rw [if_neg hname]
      refine .inl ⟨?_, hname⟩
      rw [insert] at hold
      split at hold
      · exact hold
      · rcases mem_append.mp hold with hold | hold
        · exact hold
        · exact absurd (congrArg Entry.name (mem_singleton.mp hold)) hname
  · rintro (⟨hmem, hname⟩ | ⟨old, hold, hname, rfl⟩)
    · refine ⟨entry, ?_, if_neg hname⟩
      rw [insert]
      split
      · exact hmem
      · exact mem_append_left _ hmem
    · exact ⟨old, hold, if_pos hname⟩

theorem hasRoute_iff : HasRoute fib name faceId ↔ ∃ cost, HasNextHop fib name ⟨faceId, cost⟩ := by
  constructor
  · rintro ⟨entry, hentry, hname, ⟨faceId, cost⟩, hmem, rfl⟩
    exact ⟨cost, entry, hentry, hname, hmem⟩
  · rintro ⟨cost, entry, hentry, hname, hmem⟩
    exact ⟨entry, hentry, hname, _, hmem, rfl⟩

/-- Adding a route adds one pair. -/
theorem hasRoute_addRoute (fib : List Entry) (name name' : Name) (faceId cost faceId' : ℕ) :
    HasRoute (addRoute fib name faceId cost) name' faceId' ↔
      HasRoute fib name' faceId' ∨ (name' = name ∧ faceId' = faceId) := by
  simp only [hasRoute_iff, hasNextHop_addRoute]
  constructor
  · rintro ⟨cost', ⟨hname, heq⟩ | ⟨hold, -⟩⟩
    · exact .inr ⟨hname, congrArg NextHop.faceId heq⟩
    · exact .inl ⟨cost', hold⟩
  · by_cases hpair : name' = name ∧ faceId' = faceId
    · obtain ⟨rfl, rfl⟩ := hpair
      exact fun _ => ⟨cost, .inl ⟨rfl, rfl⟩⟩
    · rintro (⟨cost', hold⟩ | heq)
      · exact ⟨cost', .inr ⟨hold, hpair⟩⟩
      · exact absurd heq hpair

theorem Proper.addRoute (h : Proper fib) (name : Name) (faceId cost : ℕ) :
    Proper (Fib.addRoute fib name faceId cost) where
  nodup := by
    have hnames : (Fib.addRoute fib name faceId cost).map Entry.name =
        (insert fib name).map Entry.name := by
      rw [Fib.addRoute, map_map]
      refine map_congr_left fun entry _ => ?_
      simp only [Function.comp_apply]
      split <;> rfl
    rw [hnames, insert]
    split
    · exact h.nodup
    · rename_i hnew
      rw [map_append]
      refine Nodup.append h.nodup (nodup_singleton _) ?_
      simpa using hnew
  routed entry hentry := by
    rcases mem_addRoute.mp hentry with ⟨hmem, -⟩ | ⟨old, -, -, rfl⟩
    · exact h.routed entry hmem
    · exact ⟨faceId, (old.reaches_addOrUpdateNextHop _ _ _).mpr (.inr rfl)⟩

/-- `fib'` has come from `fib` by adding routes. -/
def Learned (fib fib' : List Entry) : Prop :=
  ∃ routes : List (Name × ℕ × ℕ),
    fib' = routes.foldl (fun fib route => addRoute fib route.1 route.2.1 route.2.2) fib

theorem Learned.refl (fib : List Entry) : Learned fib fib := ⟨[], rfl⟩

variable {fib' : List Entry}

theorem Learned.trans {fib'' : List Entry} (h : Learned fib fib') (h' : Learned fib' fib'') :
    Learned fib fib'' := by
  obtain ⟨routes, rfl⟩ := h
  obtain ⟨routes', rfl⟩ := h'
  exact ⟨routes ++ routes', by rw [foldl_append]⟩

theorem learned_addRoute (fib : List Entry) (name : Name) (faceId cost : ℕ) :
    Learned fib (addRoute fib name faceId cost) :=
  ⟨[(name, faceId, cost)], rfl⟩

theorem Learned.proper (h : Learned fib fib') (hproper : Proper fib) : Proper fib' := by
  obtain ⟨routes, rfl⟩ := h
  induction routes generalizing fib with
  | nil => exact hproper
  | cons route routes ih => exact ih (hproper.addRoute _ _ _)

theorem Learned.hasRoute (h : Learned fib fib') (hroute : HasRoute fib name faceId) :
    HasRoute fib' name faceId := by
  obtain ⟨routes, rfl⟩ := h
  induction routes generalizing fib with
  | nil => exact hroute
  | cons route routes ih => exact ih ((hasRoute_addRoute ..).mpr (.inl hroute))

/-! ### The longest prefix -/

/-- The longest prefix of the name that has routes has one to the face. -/
def Leads (fib : List Entry) (name : Name) (faceId : ℕ) : Prop :=
  ∃ n ≤ name.length, HasRoute fib (name.take n) faceId ∧
    ∀ m, n < m → m ≤ name.length → ∀ faceId', ¬ HasRoute fib (name.take m) faceId'

theorem Proper.find?_eq_some (h : Proper fib) {entry : Entry}
    (hfind : (fib.find? fun entry => entry.name = name) = some entry) (faceId : ℕ) :
    entry.Reaches faceId ↔ HasRoute fib name faceId := by
  have hmem := mem_of_find?_eq_some hfind
  have hname : entry.name = name := by simpa using find?_some hfind
  constructor
  · exact fun hreach => ⟨entry, hmem, hname, hreach⟩
  · rintro ⟨other, hother, hname', hreach⟩
    have heq := inj_on_of_nodup_map h.nodup hother hmem (hname'.trans hname.symm)
    exact heq ▸ hreach

theorem not_hasRoute_of_find? (hfind : (fib.find? fun entry => entry.name = name) = none)
    (faceId : ℕ) : ¬ HasRoute fib name faceId := by
  rintro ⟨entry, hentry, hname, -⟩
  have := find?_eq_none.mp hfind entry hentry
  simp [hname] at this

/-- The search goes from the longest prefix down. -/
theorem Proper.findSome?_reaches (h : Proper fib) (name : Name) (bound faceId : ℕ) :
    (((range bound).reverse.findSome? fun n =>
        fib.find? fun entry => entry.name = name.take n).getD emptyEntry).Reaches faceId ↔
      ∃ n < bound, HasRoute fib (name.take n) faceId ∧
        ∀ m, n < m → m < bound → ∀ faceId', ¬ HasRoute fib (name.take m) faceId' := by
  induction bound with
  | zero => simp [Entry.Reaches, emptyEntry]
  | succ bound ih =>
    rw [range_succ, reverse_append, reverse_singleton, singleton_append, findSome?_cons]
    cases hfind : fib.find? fun entry => entry.name = name.take bound with
    | some entry =>
      simp only [Option.getD_some]
      rw [h.find?_eq_some hfind]
      constructor
      · intro hroute
        exact ⟨bound, Nat.lt_succ_self _, hroute, fun m hlt hle => absurd hlt (by omega)⟩
      · rintro ⟨n, hn, hroute, hlonger⟩
        rcases Nat.lt_succ_iff_lt_or_eq.mp hn with hlt | rfl
        · obtain ⟨faceId', hreach⟩ := h.routed entry (mem_of_find?_eq_some hfind)
          exact absurd ((h.find?_eq_some hfind faceId').mp hreach)
            (hlonger bound hlt (Nat.lt_succ_self _) faceId')
        · exact hroute
    | none =>
      simp only
      rw [ih]
      have hnone := not_hasRoute_of_find? hfind
      constructor
      · rintro ⟨n, hn, hroute, hlonger⟩
        refine ⟨n, Nat.lt_succ_of_lt hn, hroute, fun m hlt hm => ?_⟩
        rcases Nat.lt_succ_iff_lt_or_eq.mp hm with hm | rfl
        · exact hlonger m hlt hm
        · exact hnone
      · rintro ⟨n, hn, hroute, hlonger⟩
        rcases Nat.lt_succ_iff_lt_or_eq.mp hn with hn | rfl
        · exact ⟨n, hn, hroute, fun m hlt hm => hlonger m hlt (Nat.lt_succ_of_lt hm)⟩
        · exact absurd hroute (hnone faceId)

theorem Proper.findLongestPrefixMatch_reaches (h : Proper fib) (name : Name) (faceId : ℕ) :
    (findLongestPrefixMatch fib name).Reaches faceId ↔ Leads fib name faceId := by
  rw [findLongestPrefixMatch, h.findSome?_reaches name (name.length + 1), Leads]
  simp only [Nat.lt_succ_iff]

/-- With a route for the root every name leads somewhere. -/
theorem exists_leads (hroot : HasRoute fib [] faceId) (name : Name) :
    ∃ n ≤ name.length, ∃ faceId', HasRoute fib (name.take n) faceId' ∧
      Leads fib name faceId' := by
  classical
  let p : ℕ → Prop := fun n => n ≤ name.length ∧ ∃ faceId', HasRoute fib (name.take n) faceId'
  have hzero : p 0 := ⟨Nat.zero_le _, faceId, by simpa using hroot⟩
  obtain ⟨hle, faceId', hroute⟩ : p (Nat.findGreatest p name.length) :=
    Nat.findGreatest_spec (Nat.zero_le _) hzero
  refine ⟨_, hle, faceId', hroute, _, hle, hroute, fun m hlt hm faceId'' hroute' => ?_⟩
  exact Nat.findGreatest_is_greatest hlt hm ⟨hm, faceId'', hroute'⟩

end ValProofs.Fib
