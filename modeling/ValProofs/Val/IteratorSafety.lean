import ValProofs.Lib.StdList
import ValProofs.Pft.Bulk
import ValProofs.Val.Tables

/-!
The loops that remove entries from the PFT and from the F2A, with their iterators.

Each of them goes on with an iterator that it may not use any more: `PFT::removeEntry` sets it to
`end()` after an erasure, and the loops of the F2A leave it on the node that they have erased. So
they are right on the tables that they leave as they are, and on no other. The model of the PFT
takes the list for a ring, which it is in the library that the simulator is built with.
-/

namespace ValProofs

open Lib StdList

/-- `PFT::removeEntry`. -/
def Pft.Pending.removeEntryLoop (next : StdList ℕ → Iter → Except IterFault Iter)
    (s : Pft.Pending) (valPkt : ValPacket) (fuel : ℕ) :
    Option (Except IterFault (StdList.Erasing ℕ)) :=
  StdList.eraseLoop next (fun _ => none) (s.isMatch valPkt) fuel
    ⟨.ofList s.table, s.nItens, false⟩ (StdList.ofList s.table).begin

namespace F2a

/-- The loop of the three functions below. -/
def removeLoop (p : Entry → Bool) (table : List Entry) (fuel : ℕ) :
    Option (Except IterFault (StdList.Erasing Entry)) :=
  StdList.eraseLoop StdList.next (fun it => it) p fuel
    ⟨.ofList table, table.length, false⟩ (StdList.ofList table).begin

def removeEntry (table : List Entry) (entry : Entry) (fuel : ℕ) :
    Option (Except IterFault (StdList.Erasing Entry)) :=
  removeLoop (fun other => decide (other = entry)) table fuel

def removeByFaceId (table : List Entry) (faceId : ℕ) (fuel : ℕ) :
    Option (Except IterFault (StdList.Erasing Entry)) :=
  removeLoop (fun entry => decide (entry.faceId = faceId)) table fuel

def removeByGeoArea (table : List Entry) (geoArea : String) (fuel : ℕ) :
    Option (Except IterFault (StdList.Erasing Entry)) :=
  removeLoop (fun entry => decide (entry.geoArea = geoArea)) table fuel

theorem exact_removeLoop_iff (p : Entry → Bool) (table : List Entry) :
    Exact (removeLoop p table) table p ↔ ∀ entry ∈ table, p entry = false := by
  have hiff := exact_iff (p := p) (t := ⟨.ofList table, table.length, false⟩)
    next (fun it => it) (fun l id => rfl)
    (fun l id herased => ⟨.erased, herased⟩) (by rw [toList_ofList])
  rwa [toList_ofList] at hiff

end F2a

namespace Pft.Pending

/-- In a ring the loop does what the model of the table says. -/
theorem exists_removeEntryLoop_circular (s : Pending) (valPkt : ValPacket) :
    ∃ fuel l, s.removeEntryLoop nextCircular valPkt fuel =
        some (.ok ⟨l, (s.removeEntry valPkt).1.nItens, (s.removeEntry valPkt).2⟩) ∧
      l.toList = (s.removeEntry valPkt).1.table := by
  obtain ⟨fuel, l, hloop, hfilter⟩ := exists_eraseLoop_circular (s.isMatch valPkt)
    ⟨.ofList s.table, s.nItens, false⟩
  simp only [toList_ofList, Bool.false_or] at hloop hfilter
  have htable : l.toList = (s.removeEntry valPkt).1.table := by
    rw [hfilter, removeEntry, eraseRestart_eq_filter _ _ _ (Nat.le_refl _)]
  refine ⟨fuel, l, hloop.trans ?_, htable⟩
  rw [htable]
  rfl

theorem exact_removeEntryLoop_iff (s : Pending) (valPkt : ValPacket)
    (hnItens : s.nItens = s.table.length) :
    Exact (s.removeEntryLoop next valPkt) s.table (s.isMatch valPkt) ↔
      ∀ p ∈ s.table, s.isMatch valPkt p = false := by
  have hiff := exact_iff (p := s.isMatch valPkt)
    (t := ⟨.ofList s.table, s.nItens, false⟩) next (fun _ => none) (fun l id => rfl)
    (fun l id _ => ⟨.pastEnd, rfl⟩) (by rw [toList_ofList, hnItens])
  rwa [toList_ofList] at hiff

end Pft.Pending

/-- The loops have no fault and remove what they look for, and nothing else, exactly if there is
nothing to remove. -/
theorem removal_exact_iff (s : Pft.Pending) (hnItens : s.nItens = s.table.length)
    (valPkt : ValPacket) (table : List F2a.Entry) (entry : F2a.Entry) (faceId : ℕ)
    (geoArea : String) :
    (StdList.Exact (s.removeEntryLoop StdList.next valPkt) s.table (s.isMatch valPkt) ↔
        ∀ p ∈ s.table, s.isMatch valPkt p = false) ∧
      (StdList.Exact (F2a.removeEntry table entry) table (fun other => decide (other = entry)) ↔
        entry ∉ table) ∧
      (StdList.Exact (F2a.removeByFaceId table faceId) table
          (fun entry => decide (entry.faceId = faceId)) ↔
        ∀ entry ∈ table, entry.faceId ≠ faceId) ∧
      (StdList.Exact (F2a.removeByGeoArea table geoArea) table
          (fun entry => decide (entry.geoArea = geoArea)) ↔
        ∀ entry ∈ table, entry.geoArea ≠ geoArea) := by
  refine ⟨s.exact_removeEntryLoop_iff valPkt hnItens, ?_, ?_, ?_⟩
  · refine (F2a.exact_removeLoop_iff _ table).trans ?_
    simp only [decide_eq_false_iff_not]
    exact ⟨fun hnot hmem => hnot entry hmem rfl, fun hmem other hother heq => hmem (heq ▸ hother)⟩
  · refine (F2a.exact_removeLoop_iff _ table).trans ?_
    simp only [decide_eq_false_iff_not, ne_eq]
  · refine (F2a.exact_removeLoop_iff _ table).trans ?_
    simp only [decide_eq_false_iff_not, ne_eq]

theorem removal_exact_iff_mixed :
    ¬ StdList.Exact (Pft.Pending.mixed.removeEntryLoop StdList.next
        (Pft.Pending.mixed.heap 2).valPkt) [0, 1, 2]
        (Pft.Pending.mixed.isMatch (Pft.Pending.mixed.heap 2).valPkt) ∧
      StdList.Exact (F2a.removeByFaceId [⟨257, "A"⟩] 258) [⟨257, "A"⟩]
        (fun entry => decide (entry.faceId = 258)) := by
  obtain ⟨hpft, -, hfaceId, -⟩ := removal_exact_iff Pft.Pending.mixed rfl
    (Pft.Pending.mixed.heap 2).valPkt [⟨257, "A"⟩] ⟨257, "A"⟩ 258 "A"
  exact ⟨fun hexact => absurd (hpft.mp hexact 2 (by decide)) (by decide),
    hfaceId.mpr (by simp)⟩

/-- The last entry of a table, and the only one of another. -/
theorem removal_fault :
    Pft.Pending.mixed.removeEntryLoop StdList.next (Pft.Pending.mixed.heap 2).valPkt 3 =
        some (.error .pastEnd) ∧
      F2a.removeEntry [⟨257, "A"⟩] ⟨257, "A"⟩ 1 = some (.error .erased) ∧
      F2a.removeByFaceId [⟨257, "A"⟩] 257 1 = some (.error .erased) ∧
      F2a.removeByGeoArea [⟨257, "A"⟩] "A" 1 = some (.error .erased) :=
  ⟨rfl, rfl, rfl, rfl⟩

end ValProofs
