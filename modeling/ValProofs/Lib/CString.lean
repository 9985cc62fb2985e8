import Mathlib.Data.Int.Init
import Mathlib.Data.List.Basic
import Mathlib.Tactic.Common

/-!
Texts in a buffer of characters, each up to the character that ends it. Nothing can be read after
the buffer, and nothing can be written before or after it.
-/

namespace ValProofs.Lib.CString

open List

def nul : Char := '\x00'

/-- The text at a position. -/
def get (buffer : List Char) (p : ℕ) : Option (List Char) :=
  if nul ∈ buffer.drop p then some ((buffer.drop p).takeWhile fun c => c ≠ nul) else none

/-- A character is written, at a position that may be negative. -/
def put (buffer : List Char) (p : ℤ) (c : Char) : Option (List Char) :=
  if 0 ≤ p ∧ p.toNat < buffer.length then some (buffer.set p.toNat c) else none

/-- `strsep`: the text at a position is ended at the first separator. The position after it is
returned, if there is one. -/
def strsep (separator : Char → Bool) (buffer : List Char) (p : ℕ) :
    Option (List Char × Option ℕ) :=
  let length := ((buffer.drop p).takeWhile fun c => c ≠ nul ∧ separator c = false).length
  match buffer[p + length]? with
  | none => none
  | some c =>
      if c = nul then some (buffer, none)
      else some (buffer.set (p + length) nul, some (p + length + 1))

/-! ### Texts between others -/

variable (front rest : List Char) {word : List Char}

theorem get_append (h : nul ∉ word) :
    get (front ++ (word ++ nul :: rest)) front.length = some word := by
  have hword : ∀ c ∈ word, decide (c ≠ nul) = true := fun c hc =>
    decide_eq_true (ne_of_mem_of_not_mem hc h)
  rw [get, drop_left, if_pos (by simp), takeWhile_append_of_pos hword]
  simp

theorem put_append (c c' : Char) :
    put (front ++ c :: rest) front.length c' = some (front ++ c' :: rest) := by
  rw [put, if_pos (by simp), Int.toNat_natCast, set_append_right _ _ (Nat.le_refl _)]
  simp

variable {separator : Char → Bool}

theorem takeWhile_word (h : ∀ c ∈ word, c ≠ nul ∧ separator c = false) {c : Char}
    (hc : c = nul ∨ separator c = true) :
    ((word ++ c :: rest).takeWhile fun c => c ≠ nul ∧ separator c = false) = word := by
  rw [takeWhile_append_of_pos fun c hc => decide_eq_true (h c hc),
    takeWhile_cons_of_neg, append_nil]
  rcases hc with rfl | hc
  · simp
  · simp [hc]

theorem getElem?_append_word (c : Char) :
    (front ++ (word ++ c :: rest))[front.length + word.length]? = some c := by
  rw [← append_assoc, ← length_append]
  simp

theorem strsep_separator (h : ∀ c ∈ word, c ≠ nul ∧ separator c = false) {c : Char}
    (hne : c ≠ nul) (hc : separator c = true) :
    strsep separator (front ++ (word ++ c :: rest)) front.length =
      some (front ++ (word ++ nul :: rest), some (front.length + word.length + 1)) := by
  have hset : (front ++ (word ++ c :: rest)).set (front.length + word.length) nul =
      front ++ (word ++ nul :: rest) := by
    rw [set_append_right _ _ (by omega), Nat.add_sub_cancel_left,
      set_append_right _ _ (Nat.le_refl _)]
    simp
  rw [strsep, drop_left, takeWhile_word rest h (.inr hc), getElem?_append_word]
  dsimp only
  rw [if_neg hne, hset]

theorem strsep_end (h : ∀ c ∈ word, c ≠ nul ∧ separator c = false) :
    strsep separator (front ++ (word ++ nul :: rest)) front.length =
      some (front ++ (word ++ nul :: rest), none) := by
  rw [strsep, drop_left, takeWhile_word rest h (.inl rfl), getElem?_append_word]
  rfl

end ValProofs.Lib.CString
