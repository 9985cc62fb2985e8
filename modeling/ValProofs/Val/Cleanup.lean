import Mathlib.Data.List.Count
import ValProofs.Val.Machine

/-!
What `reveiceData` takes out of the IFNT. Insertion compares whole entries, so
copies of one Interest that were heard from different places are all kept; the
search and the removal go by the nonce and stop at the first entry. A list of
nonces therefore takes one entry for each mention of a nonce, while the list for
the strategy has the same first entry for each mention.

The object of class `Ifnt` also counts its entries. The counter is followed here
next to the forwarder, by a table that is sent the same calls.
-/

namespace ValProofs

open Lib List

namespace Ifnt

/-! ### How many entries of the IFNT have a nonce -/

def copies (table : List Entry) (nonce : Nonce) : ℕ :=
  table.countP fun entry => entry.nonce == nonce

variable {table : List Entry} {nonce : Nonce}

theorem copies_pos : 0 < copies table nonce ↔ ∃ entry ∈ table, entry.nonce = nonce := by
  simp [copies, countP_pos_iff]

theorem copies_removeEntryByNonce (table : List Entry) (other nonce : Nonce) :
    copies (removeEntryByNonce table other) nonce =
      copies table nonce - if other = nonce then 1 else 0 := by
  rw [removeEntryByNonce]
  cases hfind : findMatchByNonce table other with
  | none =>
    show copies table nonce = _
    split
    · rename_i heq
      have hzero : copies table nonce = 0 := countP_eq_zero.mpr (heq ▸ find?_eq_none.mp hfind)
      omega
    · rfl
  | some entry =>
    obtain ⟨hmem, rfl⟩ := findMatchByNonce_eq_some hfind
    show (table.erase entry).countP _ = _
    simp [countP_erase, copies, hmem]

/-- Each mention of the nonce takes one entry. -/
theorem copies_removeEntriesByNonceList (table : List Entry) (nonceList : List Nonce)
    (nonce : Nonce) :
    copies (removeEntriesByNonceList table nonceList) nonce =
      copies table nonce - nonceList.count nonce := by
  induction nonceList generalizing table with
  | nil => rfl
  | cons other nonceList ih =>
    have hcons : removeEntriesByNonceList table (other :: nonceList) =
        removeEntriesByNonceList (removeEntryByNonce table other) nonceList := rfl
    rw [hcons, ih, copies_removeEntryByNonce, count_cons]
    simp only [beq_iff_eq]
    omega

theorem eq_of_copies_le_one {entry other : Entry} (hentry : entry ∈ table) (hother : other ∈ table)
    (hnonce : other.nonce = entry.nonce) (hone : copies table entry.nonce ≤ 1) : entry = other := by
  by_contra hne
  have hsub : [entry, other] ⊆ table.filter fun e => e.nonce == entry.nonce := by
    simp [hentry, hother, hnonce]
  have hlen := (subperm_of_subset (by simp [hne]) hsub).length_le
  rw [← countP_eq_length_filter] at hlen
  exact absurd (hlen.trans hone) (by simp)

/-- In a table without equal entries, entries that are all the same are one. -/
theorem copies_le_one (hnodup : table.Nodup) (first : Entry)
    (hsame : ∀ entry ∈ table, entry.nonce = nonce → entry = first) : copies table nonce ≤ 1 :=
  calc
    copies table nonce ≤ table.count first := by
      refine countP_mono_left fun entry hentry hnonce => ?_
      exact beq_iff_eq.mpr (hsame entry hentry (beq_iff_eq.mp hnonce))
    _ ≤ 1 := nodup_iff_count_le_one.mp hnodup first

/-! ### What is found and what is removed -/

variable {nonceList : List Nonce}

/-- What is found for a nonce of the list is the first entry that has it. -/
theorem mem_findMatchByNonceList_iff {entry : Entry} :
    entry ∈ findMatchByNonceList table nonceList ↔
      entry.nonce ∈ nonceList ∧ findMatchByNonce table entry.nonce = some entry := by
  constructor
  · intro h
    obtain ⟨nonce, hnonce, hfind⟩ := mem_filterMap.mp h
    obtain ⟨-, rfl⟩ := findMatchByNonce_eq_some hfind
    exact ⟨hnonce, hfind⟩
  · rintro ⟨hnonce, hfind⟩
    exact mem_filterMap.mpr ⟨entry.nonce, hnonce, hfind⟩

/-- A removal leaves the entries with other nonces in their order. -/
theorem filter_removeEntryByNonce (hnonce : nonce ∈ nonceList) :
    (removeEntryByNonce table nonce).filter (fun entry => entry.nonce ∉ nonceList) =
      table.filter fun entry => entry.nonce ∉ nonceList := by
  rw [removeEntryByNonce]
  cases hfind : findMatchByNonce table nonce with
  | none => rfl
  | some found =>
    obtain ⟨hmem, rfl⟩ := findMatchByNonce_eq_some hfind
    obtain ⟨before, after, -, rfl, herase⟩ := exists_erase_eq hmem
    show ((before ++ found :: after).erase found).filter _ = _
    simp [herase, hnonce]

theorem filter_foldl_removeEntryByNonce {nonces : List Nonce} (hsub : nonces ⊆ nonceList)
    (table : List Entry) :
    (nonces.foldl removeEntryByNonce table).filter (fun entry => entry.nonce ∉ nonceList) =
      table.filter fun entry => entry.nonce ∉ nonceList := by
  induction nonces generalizing table with
  | nil => rfl
  | cons nonce nonces ih =>
    obtain ⟨hnonce, hrest⟩ := cons_subset.mp hsub
    rw [foldl_cons, ih hrest, filter_removeEntryByNonce hnonce]

/-- Everything that has a nonce of the list is gone when the list mentions each
nonce often enough, and only then. -/
theorem removeEntriesByNonceList_clears_iff (table : List Entry) (nonceList : List Nonce) :
    (∀ entry ∈ removeEntriesByNonceList table nonceList, entry.nonce ∉ nonceList) ↔
      ∀ nonce ∈ nonceList, copies table nonce ≤ nonceList.count nonce := by
  constructor
  · intro hgone nonce hnonce
    have hzero : ¬ 0 < copies (removeEntriesByNonceList table nonceList) nonce := by
      rw [copies_pos]
      rintro ⟨entry, hentry, rfl⟩
      exact hgone entry hentry hnonce
    rw [copies_removeEntriesByNonceList] at hzero
    omega
  · intro hle entry hentry hnonce
    have hpos := copies_pos.mpr ⟨entry, hentry, rfl⟩
    rw [copies_removeEntriesByNonceList] at hpos
    have := hle entry.nonce hnonce
    omega

/-- With at most one entry for each nonce of the list, the entries that are
found are those that the removal takes out. -/
theorem mem_findMatchByNonceList_iff_removed (hone : ∀ nonce ∈ nonceList, copies table nonce ≤ 1)
    (entry : Entry) :
    entry ∈ findMatchByNonceList table nonceList ↔
      entry ∈ table ∧ entry ∉ removeEntriesByNonceList table nonceList := by
  have hgone : ∀ entry ∈ removeEntriesByNonceList table nonceList, entry.nonce ∉ nonceList :=
    (removeEntriesByNonceList_clears_iff table nonceList).mpr fun nonce hnonce =>
      (hone nonce hnonce).trans (count_pos_iff.mpr hnonce)
  constructor
  · intro hfound
    obtain ⟨hmem, hnonce⟩ := mem_findMatchByNonceList hfound
    exact ⟨hmem, fun hleft => hgone entry hleft hnonce⟩
  · rintro ⟨hmem, hremoved⟩
    have hnonce : entry.nonce ∈ nonceList := by
      by_contra hnot
      exact hremoved ((mem_removeEntriesByNonceList hnot).mpr hmem)
    obtain ⟨found, hfind⟩ := findMatchByNonce_isSome hmem
    obtain ⟨hfmem, hfnonce⟩ := findMatchByNonce_eq_some hfind
    have heq := eq_of_copies_le_one hmem hfmem hfnonce (hone _ hnonce)
    exact mem_findMatchByNonceList_iff.mpr ⟨hnonce, by rw [hfind, heq]⟩

/-- If what is found has every entry that is removed, and all are removed, no
nonce of the list has two entries. -/
theorem copies_le_one_of_found (hnodup : table.Nodup)
    (hgone : ∀ entry ∈ removeEntriesByNonceList table nonceList, entry.nonce ∉ nonceList)
    (hfound : ∀ entry, entry ∈ table ∧ entry ∉ removeEntriesByNonceList table nonceList →
      entry ∈ findMatchByNonceList table nonceList) :
    ∀ nonce ∈ nonceList, copies table nonce ≤ 1 := by
  intro nonce hnonce
  rcases Nat.eq_zero_or_pos (copies table nonce) with hzero | hpos
  · exact hzero.trans_le (Nat.zero_le 1)
  · obtain ⟨entry, hentry, rfl⟩ := copies_pos.mp hpos
    obtain ⟨first, hfirst⟩ := findMatchByNonce_isSome hentry
    refine copies_le_one hnodup first fun other hother hsame => ?_
    have hremoved : other ∉ removeEntriesByNonceList table nonceList := fun hleft =>
      hgone other hleft (hsame ▸ hnonce)
    have hfind := (mem_findMatchByNonceList_iff.mp (hfound other ⟨hother, hremoved⟩)).2
    rw [hsame, hfirst] at hfind
    exact (Option.some.inj hfind).symm

/-! ### The table with its counter -/

/-- The object of class `Ifnt`, with the counter `m_nItens`. -/
structure Table where
  entries : List Entry
  nItens : ℕ
  counted : nItens = entries.length

namespace Table

def empty : Table where
  entries := []
  nItens := 0
  counted := rfl

def addEntry (table : Table) (entry : Entry) : Table × Bool :=
  if entry ∈ table.entries then (table, false)
  else
    ({ entries := table.entries ++ [entry]
       nItens := table.nItens + 1
       counted := by rw [List.length_append, table.counted, List.length_singleton] }, true)

def removeEntry (table : Table) (entry : Entry) : Table × Bool :=
  if h : entry ∈ table.entries then
    ({ entries := table.entries.erase entry
       nItens := table.nItens - 1
       counted := (congrArg Nat.pred table.counted).trans (List.length_erase_of_mem h).symm }, true)
  else (table, false)

def removeEntryByNonce (table : Table) (nonce : Nonce) : Table × Bool :=
  match findMatchByNonce table.entries nonce with
  | some entry => table.removeEntry entry
  | none => (table, false)

def removeEntriesByNonceList (table : Table) (nonceList : List Nonce) : Table :=
  nonceList.foldl (fun table nonce => (table.removeEntryByNonce nonce).1) table

theorem entries_addEntry (table : Table) (entry : Entry) :
    (table.addEntry entry).1.entries = (Ifnt.addEntry table.entries entry).1 := by
  rw [addEntry, Ifnt.addEntry]
  split <;> rfl

theorem entries_removeEntry (table : Table) (entry : Entry) :
    (table.removeEntry entry).1.entries = Ifnt.removeEntry table.entries entry := by
  rw [removeEntry, Ifnt.removeEntry]
  split
  · rfl
  · rename_i hnot
    exact (erase_of_not_mem hnot).symm

theorem entries_removeEntryByNonce (table : Table) (nonce : Nonce) :
    (table.removeEntryByNonce nonce).1.entries = Ifnt.removeEntryByNonce table.entries nonce := by
  rw [removeEntryByNonce, Ifnt.removeEntryByNonce]
  cases findMatchByNonce table.entries nonce with
  | none => rfl
  | some entry => exact entries_removeEntry table entry

theorem entries_removeEntriesByNonceList (table : Table) (nonceList : List Nonce) :
    (table.removeEntriesByNonceList nonceList).entries =
      Ifnt.removeEntriesByNonceList table.entries nonceList := by
  rw [removeEntriesByNonceList, Ifnt.removeEntriesByNonceList]
  induction nonceList generalizing table with
  | nil => rfl
  | cons nonce nonceList ih =>
    rw [foldl_cons, foldl_cons, ih, entries_removeEntryByNonce]

end Table

end Ifnt

open Ifnt

namespace ValForwarder

/-! ### The forwarder next to its table -/

/-- The calls of the event on the object of class `Ifnt`. -/
def ifntNext (v : ValForwarder) (table : Ifnt.Table) : Event → Ifnt.Table
  | .receive face valP =>
      match (v.pending.preProcessingValPacket valP).2, valP.payload with
      | true, .interest interest =>
          (table.addEntry (Ifnt.Entry.make valP.valHeader interest face)).1
      | _, _ => table
  | .dataFromNfd _ data nonceList _ =>
      if data.getCongestionMark = 501 then table
      else table.removeEntriesByNonceList (nonceList.getD [])
  | _ => table

/-- The forwarder's machine with the table as a second component. -/
def counting (g : Geometry) : System (ValForwarder × Ifnt.Table) Event where
  init s := Init s.1 ∧ s.2 = .empty
  guard s e := s.1.guard e
  next s e := (s.1.next g e, s.1.ifntNext s.2 e)

variable {v : ValForwarder}

theorem entries_ifntNext_receive {table : Table} (h : table.entries = v.ifnt) (face : ℕ)
    (valP : ValPacket) :
    (v.ifntNext table (.receive face valP)).entries = (v.onReceivedValPacket face valP).1.ifnt := by
  have hrec := received v face valP
  generalize (v.onReceivedValPacket face valP).1 = v' at hrec
  rw [ifntNext]
  cases hrec with
  | dropped hpre => simp [hpre, h]
  | interest i faces f2a hfind hpay hnew _ =>
    simp [Pft.Pending.preProcessing_none hfind, hpay, Table.entries_addEntry, addEntry, h, hnew]
  | again i hfind hpay hold =>
    simp [Pft.Pending.preProcessing_none hfind, hpay, Table.entries_addEntry, addEntry, h, hold]
  | data d faces f2a _ hpay _ | invalid hpay => simp [hpay, h]

theorem entries_ifntNext {table : Table} (h : table.entries = v.ifnt) (g : Geometry)
    (e : Event) : (v.ifntNext table e).entries = (v.next g e).ifnt := by
  cases e with
  | receive face valP => exact entries_ifntNext_receive h face valP
  | interestFromNfd inGeoface interest =>
    rw [next, reveiceInterest_eq]
    exact h
  | dataFromNfd inGeoface data nonceList isProducer =>
    rw [next, ifnt_reveiceData, ifntNext]
    split
    · exact h
    · rw [Table.entries_removeEntriesByNonceList, h]
  | fire id | addFace face | move mobility => exact h

/-- The table has the entries of the forwarder's IFNT, and no two are equal. -/
structure Counts (s : ValForwarder × Ifnt.Table) : Prop where
  entries : s.2.entries = s.1.ifnt
  nodup : s.1.ifnt.Nodup

theorem nodup_ifnt_next (h : v.ifnt.Nodup) (g : Geometry) (e : Event) :
    (v.next g e).ifnt.Nodup := by
  cases e with
  | receive face valP =>
    rw [next]
    have hrec := received v face valP
    generalize (v.onReceivedValPacket face valP).1 = v' at hrec
    cases hrec with
    | interest i faces f2a _ _ hnew _ =>
      exact nodup_append.mpr ⟨h, nodup_singleton _, fun a ha b hb heq =>
        hnew (mem_singleton.mp hb ▸ heq ▸ ha)⟩
    | dropped | again | data | invalid => exact h
  | interestFromNfd inGeoface interest =>
    rw [next, reveiceInterest_eq]
    exact h
  | dataFromNfd inGeoface data nonceList isProducer =>
    rw [next, ifnt_reveiceData]
    split
    · exact h
    · exact h.sublist (removeEntriesByNonceList_sublist _ _)
  | fire id | addFace face | move mobility => exact h

theorem counts_of_reachable {g : Geometry} {s : ValForwarder × Table}
    (h : (counting g).Reachable s) : Counts s := by
  refine h.invariant ?_ ?_
  · rintro ⟨v, table⟩ ⟨⟨faces, mobility, face, -, rfl⟩, rfl⟩
    exact ⟨rfl, nodup_nil⟩
  · exact fun s e hs _ => ⟨entries_ifntNext hs.entries g e, nodup_ifnt_next hs.nodup g e⟩

/-! ### The cleanup -/

/-- The list of IFNT entries that a call of the strategy is given. -/
def listGiven : StrategyCall → List Ifnt.Entry
  | .dfntHit _ ifntEntries _ => ifntEntries
  | .dfntMiss _ ifntEntries _ => ifntEntries
  | _ => []

/-- From `s` to `s'` the entries with a nonce of the list have left the IFNT, the
others are as before, and a call of the strategy was given what has left. -/
structure CleanedUp (s s' : ValForwarder × Ifnt.Table) (nonceList : List Nonce) : Prop where
  gone : ∀ entry ∈ s'.2.entries, entry.nonce ∉ nonceList
  others : s'.2.entries.filter (fun entry => entry.nonce ∉ nonceList) =
    s.2.entries.filter fun entry => entry.nonce ∉ nonceList
  counter : s'.2.nItens = s'.2.entries.length
  given : ∀ call, s'.1.calls = s.1.calls ++ [call] →
    ∀ entry, entry ∈ listGiven call.call ↔ entry ∈ s.2.entries ∧ entry ∉ s'.2.entries

/-- The Data is marked 500 and would be relayed: it is discarded, and the
strategy is not called. -/
def discards (v : ValForwarder) (data : Data) (isProducer : Bool) : Bool :=
  data.getCongestionMark == 500 && !isProducer && (Dfnt.findMatch v.dfnt data.signature).isSome

/-- Past the control branch the strategy is given the entries that were found,
unless the Data is discarded. -/
theorem calls_reveiceData (g : Geometry) (v : ValForwarder) (inGeoface : ℕ) {data : Data}
    (hmark : data.getCongestionMark ≠ 501) (nonceList : List Nonce) (isProducer : Bool) :
    let v' := v.reveiceData g inGeoface data (some nonceList) isProducer
    if v.discards data isProducer then v'.calls = v.calls
    else ∃ call, v'.calls = v.calls ++ [call] ∧
      listGiven call.call = findMatchByNonceList v.ifnt nonceList := by
  have hdel := delivered g v inGeoface data (some nonceList) isProducer
  generalize v.reveiceData g inGeoface data (some nonceList) isProducer = v' at hdel
  cases hdel with
  | control hcontrol => exact absurd hcontrol hmark
  | cleaned dfntEntry hmark' hfind hrelay => simp [discards, hmark', hfind, hrelay, clean]
  | relayed dfntEntry _ hmark' hfind hrelay =>
    rw [if_neg (by simp [discards, hmark'])]
    exact ⟨_, rfl, rfl⟩
  | originated _ horigin =>
    rw [if_neg (by rcases horigin with h | h <;> simp [discards, h])]
    exact ⟨_, rfl, rfl⟩

/-- What is left to show is that the list mentions the nonces often enough, and
that a call is given the right entries. -/
theorem Counts.cleanedUp_iff {g : Geometry} {s : ValForwarder × Table} (h : Counts s)
    (inGeoface : ℕ) {data : Data} (hmark : data.getCongestionMark ≠ 501)
    (nonceList : List Nonce) (isProducer : Bool) :
    let s' := (counting g).next s (.dataFromNfd inGeoface data (some nonceList) isProducer)
    CleanedUp s s' nonceList ↔
      (∀ nonce ∈ nonceList, copies s.1.ifnt nonce ≤ nonceList.count nonce) ∧
        ∀ call, s'.1.calls = s.1.calls ++ [call] → ∀ entry, entry ∈ listGiven call.call ↔
          entry ∈ s.1.ifnt ∧ entry ∉ removeEntriesByNonceList s.1.ifnt nonceList := by
  intro s'
  have hafter : s'.2.entries = removeEntriesByNonceList s.1.ifnt nonceList := by
    show (s.1.ifntNext s.2 _).entries = _
    rw [ifntNext, if_neg hmark, Table.entries_removeEntriesByNonceList, h.entries]
    rfl
  rw [← removeEntriesByNonceList_clears_iff]
  constructor
  · rintro ⟨hgone, -, -, hgiven⟩
    rw [hafter] at hgone hgiven
    rw [h.entries] at hgiven
    exact ⟨hgone, hgiven⟩
  · rintro ⟨hgone, hgiven⟩
    refine ⟨?_, ?_, s'.2.counted, ?_⟩
    · rwa [hafter]
    · rw [hafter, h.entries]
      exact filter_foldl_removeEntryByNonce (Subset.refl _) _
    · rwa [hafter, h.entries]

/-- `reveiceData` cleans the IFNT up completely if and only if no nonce of the
list has two entries; when nothing is given to the strategy, a list that
mentions a nonce more often does as well. -/
theorem cleanup_complete_iff {g : Geometry} {s : ValForwarder × Ifnt.Table}
    (h : (counting g).Reachable s) (inGeoface : ℕ) {data : Data}
    (hmark : data.getCongestionMark ≠ 501) (nonceList : List Nonce) (isProducer : Bool) :
    CleanedUp s ((counting g).next s (.dataFromNfd inGeoface data (some nonceList) isProducer))
        nonceList ↔
      ∀ nonce ∈ nonceList, Ifnt.copies s.1.ifnt nonce ≤
        if s.1.discards data isProducer then nonceList.count nonce else 1 := by
  have hcounts := counts_of_reachable h
  have hcalls := calls_reveiceData g s.1 inGeoface hmark nonceList isProducer
  refine (hcounts.cleanedUp_iff inGeoface hmark nonceList isProducer).trans ?_
  cases hdisc : s.1.discards data isProducer with
  | true =>
      rw [hdisc, if_pos rfl] at hcalls
      simp only [if_true, and_iff_left_iff_imp]
      intro _ call hcall
      have hlen := congrArg List.length (hcalls.symm.trans hcall)
      simp at hlen
  | false =>
      rw [hdisc, if_neg Bool.false_ne_true] at hcalls
      obtain ⟨call, hcall, hlist⟩ := hcalls
      simp only [Bool.false_eq_true, if_false]
      constructor
      · rintro ⟨hcount, hgiven⟩
        refine Ifnt.copies_le_one_of_found hcounts.nodup
          ((Ifnt.removeEntriesByNonceList_clears_iff _ _).mpr hcount) fun entry hremoved => ?_
        exact hlist ▸ (hgiven call hcall entry).mpr hremoved
      · intro hone
        refine ⟨fun nonce hnonce => (hone nonce hnonce).trans (List.count_pos_iff.mpr hnonce), ?_⟩
        intro call' hcall' entry
        have hsame := List.append_cancel_left (hcall.symm.trans hcall')
        cases hsame
        rw [hlist]
        exact Ifnt.mem_findMatchByNonceList_iff_removed hone entry

/-- The sample Interest, on its way from A2 to A3, as the vehicle at `phPos`
sent it. -/
def heardAt (phPos : String) : Event :=
  .receive 257 ⟨⟨"A2", "A3", phPos, "/a", 9⟩, .interest sampleInterest⟩

/-- The Interest has been heard from two vehicles; the node is not closer to A3
than they are, so it does not relay it. -/
def heardTwice : ValForwarder × Ifnt.Table :=
  [heardAt "1:0:0", .interestFromNfd 258 sampleInterest, heardAt "2:0:0"].foldl
    (counting flatGeometry).next (fresh, .empty)

theorem heardTwice_reachable : (counting flatGeometry).Reachable heardTwice := by
  refine System.Reachable.foldl (.of_init ⟨⟨_, _, netFace, rfl, rfl⟩, rfl⟩) ?_
  refine .cons ?_ (.cons trivial (.cons ?_ (.nil _)))
  · show 257 ∈ fresh.networkFaces
    decide
  · show 257 ∈ ValForwarder.networkFaces _
    decide

/-- The other Interest has been heard once. -/
theorem cleanup_complete_iff_heardTwice :
    (counting flatGeometry).Reachable heardTwice ∧ sampleData.getCongestionMark ≠ 501 ∧
      CleanedUp heardTwice ((counting flatGeometry).next heardTwice
        (.dataFromNfd 258 sampleData (some [8]) false)) [8] :=
  ⟨heardTwice_reachable, by decide,
    (cleanup_complete_iff heardTwice_reachable 258 (by decide) [8] false).mpr
      (List.forall_mem_singleton.mpr (by decide))⟩

/-- The answer leaves the second copy of the Interest behind. -/
theorem second_copy_stays :
    (counting flatGeometry).Reachable heardTwice ∧ sampleData.getCongestionMark ≠ 501 ∧
      ¬ CleanedUp heardTwice ((counting flatGeometry).next heardTwice
          (.dataFromNfd 258 sampleData (some [7]) false)) [7] := by
  refine ⟨heardTwice_reachable, by decide, fun hclean => ?_⟩
  have hgone := hclean.gone
  revert hgone
  decide

end ValForwarder

end ValProofs
