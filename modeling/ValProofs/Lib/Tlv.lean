import Mathlib.Data.List.Basic
import Mathlib.Tactic.Common
import ValProofs.Lib.BigEndian

/-!
Type-length-value elements.

An element is written as its type, the length of its value and the value; the
first two are numbers of variable size, whose first octet says how many more
follow. A reader takes one element off the front of the octets, or takes
elements off until none are left. What the readers make of a type and a value
is left open. They accept a number that was not written in the fewest octets,
so reading is the inverse of writing in one direction only.
-/

namespace ValProofs.Lib.Tlv

open List

/-- What a reader throws; `what` is the message. -/
structure Error where
  what : String
  deriving DecidableEq, Repr

/-! ### Numbers -/

/-- A number of variable size, in as few octets as it takes. -/
def varNumber (n : ℕ) : List UInt8 :=
  if n < 253 then bigEndian 1 n
  else if n < 2 ^ 16 then 253 :: bigEndian 2 n
  else if n < 2 ^ 32 then 254 :: bigEndian 4 n
  else 255 :: bigEndian 8 n

def readNumber (size : ℕ) (octets : List UInt8) : Except Error (ℕ × List UInt8) :=
  if octets.length < size then .error ⟨"Insufficient data during TLV parsing"⟩
  else .ok (ofBigEndian (octets.take size), octets.drop size)

def readVarNumber : List UInt8 → Except Error (ℕ × List UInt8)
  | [] => .error ⟨"Empty buffer during TLV parsing"⟩
  | first :: rest =>
      if first < 253 then .ok (first.toNat, rest)
      else readNumber (if first = 253 then 2 else if first = 254 then 4 else 8) rest

/-- A type is a number of at most 32 bits. -/
def readType (octets : List UInt8) : Except Error (ℕ × List UInt8) := do
  let (type, rest) ← readVarNumber octets
  if 2 ^ 32 ≤ type then throw ⟨"TLV-TYPE number exceeds allowed maximum"⟩
  return (type, rest)

/-- The number a `NonNegativeInteger` value holds. -/
def readNonNegativeInteger (value : List UInt8) : Except Error ℕ :=
  if value.length = 1 ∨ value.length = 2 ∨ value.length = 4 ∨ value.length = 8 then
    .ok (ofBigEndian value)
  else
    .error ⟨"Invalid length for nonNegativeInteger (only 1, 2, 4, and 8 are allowed)"⟩

theorem length_varNumber_le (n : ℕ) : (varNumber n).length ≤ 9 := by
  unfold varNumber
  split_ifs <;> simp [length_bigEndian]

variable {n : ℕ}

theorem length_varNumber_of_lt (h : n < 253) : (varNumber n).length = 1 := by
  rw [varNumber, if_pos h, length_bigEndian]

theorem readNumber_bigEndian {k : ℕ} (h : n < 256 ^ k) (rest : List UInt8) :
    readNumber k (bigEndian k n ++ rest) = .ok (n, rest) := by
  have hlength := length_bigEndian k n
  rw [readNumber, if_neg (by simp [hlength]), take_left' hlength, drop_left' hlength,
    ofBigEndian_bigEndian h]

theorem readVarNumber_varNumber (h : n < 2 ^ 64) (rest : List UInt8) :
    readVarNumber (varNumber n ++ rest) = .ok (n, rest) := by
  unfold varNumber
  split_ifs with h8 h16 h32
  · -- the number is its own first octet
    have htoNat : (UInt8.ofNat n).toNat = n := by
      rw [UInt8.toNat_ofNat', Nat.mod_eq_of_lt (by omega)]
    have hfirst : UInt8.ofNat n < 253 := by
      rw [UInt8.lt_iff_toNat_lt, htoNat]
      exact h8
    simp [bigEndian, readVarNumber, hfirst, htoNat]
  · exact readNumber_bigEndian (k := 2) h16 rest
  · exact readNumber_bigEndian (k := 4) h32 rest
  · exact readNumber_bigEndian (k := 8) h rest

theorem readType_varNumber {type : ℕ} (h : type < 2 ^ 32) (rest : List UInt8) :
    readType (varNumber type ++ rest) = .ok (type, rest) := by
  simp only [readType, readVarNumber_varNumber (h.trans (by decide)), bind, Except.bind,
    if_neg (Nat.not_le.mpr h)]
  rfl

theorem readNonNegativeInteger_nonNegativeInteger (h : n < 2 ^ 64) :
    readNonNegativeInteger (nonNegativeInteger n) = .ok n := by
  rw [readNonNegativeInteger, if_pos (length_nonNegativeInteger n),
    ofBigEndian_nonNegativeInteger h]

variable {size : ℕ} {octets rest : List UInt8}

theorem readNumber_eq_ok_iff : readNumber size octets = .ok (n, rest) ↔
    n < 256 ^ size ∧ octets = bigEndian size n ++ rest := by
  constructor
  · intro h
    unfold readNumber at h
    split at h
    · cases h
    · rename_i hlong
      cases h
      have hlt := ofBigEndian_lt (octets.take size)
      have hcode := bigEndian_ofBigEndian (octets.take size)
      rw [length_take_of_le (Nat.not_lt.mp hlong)] at hlt hcode
      exact ⟨hlt, by rw [hcode, take_append_drop]⟩
  · rintro ⟨hlt, rfl⟩
    exact readNumber_bigEndian hlt rest

theorem lt_of_readVarNumber (h : readVarNumber octets = .ok (n, rest)) : n < 2 ^ 64 := by
  cases octets with
  | nil => cases h
  | cons first octets =>
    rw [readVarNumber] at h
    split_ifs at h
    · cases h
      exact first.toNat_lt.trans (by decide)
    · exact (readNumber_eq_ok_iff.mp h).1.trans (by decide)
    · exact (readNumber_eq_ok_iff.mp h).1.trans (by decide)
    · exact (readNumber_eq_ok_iff.mp h).1

/-- A number takes at least its first octet. -/
theorem length_of_readVarNumber (h : readVarNumber octets = .ok (n, rest)) :
    rest.length < octets.length := by
  cases octets with
  | nil => cases h
  | cons first octets =>
    rw [readVarNumber] at h
    rw [length_cons, Nat.lt_succ_iff]
    split at h
    · cases h
      exact le_rfl
    · rw [(readNumber_eq_ok_iff.mp h).2, length_append]
      exact Nat.le_add_left _ _

theorem length_of_readType (h : readType octets = .ok (n, rest)) : rest.length < octets.length := by
  unfold readType at h
  cases hnumber : readVarNumber octets with
  | error e =>
    rw [hnumber] at h
    cases h
  | ok r =>
    obtain ⟨m, after⟩ := r
    simp only [hnumber, bind, Except.bind] at h
    split at h
    · cases h
    · cases h
      exact length_of_readVarNumber hnumber

/-- What follows does not matter. -/
theorem readVarNumber_append (h : readVarNumber octets = .ok (n, rest)) (more : List UInt8) :
    readVarNumber (octets ++ more) = .ok (n, rest ++ more) := by
  cases octets with
  | nil => cases h
  | cons first octets =>
    rw [cons_append]
    rw [readVarNumber] at h ⊢
    split
    · rename_i hfirst
      rw [if_pos hfirst] at h
      cases h
      rfl
    · rename_i hfirst
      rw [if_neg hfirst] at h
      obtain ⟨hlt, rfl⟩ := readNumber_eq_ok_iff.mp h
      rw [append_assoc]
      exact readNumber_bigEndian hlt _

/-! ### The shortest form -/

/-- The forms with more octets than one. -/
theorem varNumber_long {first : UInt8}
    (h : first = 253 ∧ size = 2 ∨ first = 254 ∧ size = 4 ∨ first = 255 ∧ size = 8)
    (hn : n < 256 ^ size) :
    (varNumber n).length ≤ size + 1 ∧
      (size + 1 = (varNumber n).length → varNumber n = first :: bigEndian size n) := by
  unfold varNumber
  rcases h with ⟨rfl, rfl⟩ | ⟨rfl, rfl⟩ | ⟨rfl, rfl⟩
  · split_ifs
    · simp
    · simp
    · omega
    · omega
  · split_ifs
    · simp
    · simp
    · simp
    · omega
  · split_ifs <;> simp

/-- What a number was read from is the shortest form of it, or longer. -/
theorem exists_of_readVarNumber (h : readVarNumber octets = .ok (n, rest)) :
    ∃ code, octets = code ++ rest ∧ (varNumber n).length ≤ code.length ∧
      (code.length = (varNumber n).length → code = varNumber n) := by
  cases octets with
  | nil => cases h
  | cons first octets =>
    rw [readVarNumber] at h
    split at h
    · rename_i hfirst
      cases h
      have hlt : first.toNat < 253 := UInt8.lt_iff_toNat_lt.mp hfirst
      have hcode : varNumber first.toNat = [first] := by
        simp [varNumber, hlt, bigEndian]
      exact ⟨[first], rfl, by rw [hcode], fun _ => hcode.symm⟩
    · rename_i hfirst
      obtain ⟨hlt, rfl⟩ := readNumber_eq_ok_iff.mp h
      have hsize : first = 253 ∧ (if first = 253 then 2 else if first = 254 then 4 else 8) = 2 ∨
          first = 254 ∧ (if first = 253 then 2 else if first = 254 then 4 else 8) = 4 ∨
          first = 255 ∧ (if first = 253 then 2 else if first = 254 then 4 else 8) = 8 := by
        rw [UInt8.lt_iff_toNat_lt] at hfirst
        have hle := first.toNat_lt
        have hcases : first.toNat = 253 ∨ first.toNat = 254 ∨ first.toNat = 255 := by
          simp only [UInt8.reduceToNat] at hfirst
          omega
        rcases hcases with heq | heq | heq
        · obtain rfl : first = 253 := UInt8.toNat_inj.mp heq
          exact .inl ⟨rfl, rfl⟩
        · obtain rfl : first = 254 := UInt8.toNat_inj.mp heq
          exact .inr (.inl ⟨rfl, rfl⟩)
        · obtain rfl : first = 255 := UInt8.toNat_inj.mp heq
          exact .inr (.inr ⟨rfl, rfl⟩)
      obtain ⟨hle, heq⟩ := varNumber_long hsize hlt
      refine ⟨first :: bigEndian _ n, rfl, ?_, fun hsame => ?_⟩
      · rw [length_cons, length_bigEndian]
        exact hle
      · rw [length_cons, length_bigEndian] at hsame
        exact (heq hsame).symm

/-! ### Elements -/

section Elements

variable {α : Type} (mk : ℕ → List UInt8 → α) (tooLong : ℕ → Error)

def element (type : ℕ) (value : List UInt8) : List UInt8 :=
  varNumber type ++ (varNumber value.length ++ value)

/-- The element in front, and what follows it; `tooLong` is thrown for an
element that goes on after the end of the octets. -/
def readElement (octets : List UInt8) : Except Error (α × List UInt8) := do
  let (type, afterType) ← readType octets
  let (length, value) ← readVarNumber afterType
  if value.length < length then throw (tooLong type)
  return (mk type (value.take length), value.drop length)

def readElementsFuel : ℕ → List UInt8 → Except Error (List α)
  | 0, _ => .ok []
  | fuel + 1, octets =>
      if octets.isEmpty then .ok []
      else do
        let (e, rest) ← readElement mk tooLong octets
        let es ← readElementsFuel fuel rest
        return e :: es

/-- All elements up to the end of the octets. Each takes at least one octet,
so that there are not more of them than octets. -/
def readElements (octets : List UInt8) : Except Error (List α) :=
  readElementsFuel mk tooLong octets.length octets

theorem length_element (type : ℕ) (value : List UInt8) :
    (element type value).length =
      (varNumber type).length + (varNumber value.length).length + value.length := by
  simp [element, Nat.add_assoc]

variable {mk tooLong}

variable {octets rest : List UInt8} {e : α}

section

variable (h : readElement mk tooLong octets = .ok (e, rest))
include h

/-- What a successful read has read. -/
theorem of_readElement :
    ∃ type afterType length value, readType octets = .ok (type, afterType) ∧
      readVarNumber afterType = .ok (length, value) ∧ e = mk type (value.take length) ∧
      rest = value.drop length := by
  unfold readElement at h
  cases htype : readType octets with
  | error e =>
    rw [htype] at h
    cases h
  | ok r =>
    obtain ⟨type, afterType⟩ := r
    simp only [htype, bind, Except.bind] at h
    cases hlength : readVarNumber afterType with
    | error e =>
      rw [hlength] at h
      cases h
    | ok r =>
      obtain ⟨length, value⟩ := r
      simp only [hlength] at h
      split at h
      · cases h
      · cases h
        exact ⟨type, afterType, length, value, rfl, hlength, rfl, rfl⟩

theorem length_of_readElement : rest.length < octets.length := by
  obtain ⟨type, afterType, length, value, htype, hlength, -, rfl⟩ := of_readElement h
  have := length_of_readType htype
  have := length_of_readVarNumber hlength
  rw [length_drop]
  omega

/-- The value of an element that was read fits a length. -/
theorem value_of_readElement : ∃ type value, e = mk type value ∧ value.length < 2 ^ 64 := by
  obtain ⟨type, afterType, length, value, -, hlength, rfl, -⟩ := of_readElement h
  exact ⟨type, value.take length, rfl, (length_take_le ..).trans_lt (lt_of_readVarNumber hlength)⟩

end

/-- Fuel beyond the number of octets changes nothing. -/
theorem readElementsFuel_eq {fuel : ℕ} (h : octets.length ≤ fuel) :
    readElementsFuel mk tooLong fuel octets = readElements mk tooLong octets := by
  suffices ∀ fuel' fuel'' octets, octets.length ≤ fuel' → octets.length ≤ fuel'' →
      readElementsFuel mk tooLong fuel' octets = readElementsFuel mk tooLong fuel'' octets from
    this fuel octets.length octets h le_rfl
  intro fuel'
  induction fuel' with
  | zero =>
    intro fuel'' octets h' _
    obtain rfl := length_eq_zero_iff.mp (Nat.le_zero.mp h')
    cases fuel'' <;> rfl
  | succ fuel' ih =>
    intro fuel'' octets h' h''
    cases octets with
    | nil => cases fuel'' <;> rfl
    | cons first octets =>
      cases fuel'' with
      | zero => simp at h''
      | succ fuel'' =>
        rw [readElementsFuel, readElementsFuel, isEmpty_cons, if_neg (by decide),
          if_neg (by decide)]
        cases helement : readElement mk tooLong (first :: octets) with
        | error e => rfl
        | ok r =>
          obtain ⟨e, rest⟩ := r
          have hrest := length_of_readElement helement
          simp only [bind, Except.bind, ih fuel'' rest (by omega) (by omega)]

theorem readElements_ne_nil (h : octets ≠ []) : readElements mk tooLong octets ≠ .ok [] := by
  intro hread
  cases octets with
  | nil => exact h rfl
  | cons first octets =>
    rw [readElements, length_cons, readElementsFuel, isEmpty_cons, if_neg (by decide)] at hread
    cases helement : readElement mk tooLong (first :: octets) with
    | error e =>
      rw [helement] at hread
      cases hread
    | ok r =>
      rw [helement] at hread
      cases hrest : readElementsFuel mk tooLong octets.length r.2 with
      | error e | ok es =>
        simp only [bind, Except.bind, hrest] at hread
        cases hread

theorem readElements_of_readElement (h : readElement mk tooLong octets = .ok (e, rest)) :
    readElements mk tooLong octets = (readElements mk tooLong rest).map (e :: ·) := by
  have hrest := length_of_readElement h
  cases octets with
  | nil => simp at hrest
  | cons first octets =>
    rw [readElements, length_cons, readElementsFuel, isEmpty_cons, if_neg (by decide), h]
    simp only [bind, Except.bind]
    rw [readElementsFuel_eq (Nat.le_of_lt_succ hrest)]
    rfl

/-- The value of each element that was read fits a length. -/
theorem value_of_readElements {es : List α} (h : readElements mk tooLong octets = .ok es) :
    ∀ e ∈ es, ∃ type value, e = mk type value ∧ value.length < 2 ^ 64 := by
  suffices ∀ fuel octets es, readElementsFuel mk tooLong fuel octets = .ok es →
      ∀ e ∈ es, ∃ type value, e = mk type value ∧ value.length < 2 ^ 64 from this _ _ _ h
  intro fuel
  induction fuel with
  | zero =>
    intro octets es h
    cases h
    exact forall_mem_nil _
  | succ fuel ih =>
    intro octets es h
    rw [readElementsFuel] at h
    split at h
    · cases h
      exact forall_mem_nil _
    · cases helement : readElement mk tooLong octets with
      | error e =>
        rw [helement] at h
        cases h
      | ok r =>
        obtain ⟨e, rest⟩ := r
        simp only [helement, bind, Except.bind] at h
        cases hrest : readElementsFuel mk tooLong fuel rest with
        | error e =>
          rw [hrest] at h
          cases h
        | ok es' =>
          rw [hrest] at h
          cases h
          exact forall_mem_cons.mpr ⟨value_of_readElement helement, ih _ _ hrest⟩

/-! ### What was written is read -/

theorem readElement_element {type : ℕ} {value : List UInt8} (htype : type < 2 ^ 32)
    (hvalue : value.length < 2 ^ 64) (rest : List UInt8) :
    readElement mk tooLong (element type value ++ rest) = .ok (mk type value, rest) := by
  have hlong : ¬ (value ++ rest).length < value.length := by simp
  simp only [readElement, element, append_assoc, readType_varNumber htype,
    readVarNumber_varNumber hvalue, bind, Except.bind, if_neg hlong, take_left, drop_left]
  rfl

/-- Elements written one after the other are read in their order. -/
theorem readElements_flatMap {β : Type} (type : β → ℕ) (value : β → List UInt8) {es : List β}
    (h : ∀ e ∈ es, type e < 2 ^ 32 ∧ (value e).length < 2 ^ 64) :
    readElements mk tooLong (es.flatMap fun e => element (type e) (value e)) =
      .ok (es.map fun e => mk (type e) (value e)) := by
  induction es with
  | nil => rfl
  | cons e es ih =>
    obtain ⟨htype, hvalue⟩ := h e (mem_cons_self ..)
    rw [flatMap_cons, readElements_of_readElement (readElement_element htype hvalue _),
      ih fun e' he' => h e' (mem_cons_of_mem _ he')]
    rfl

end Elements

end ValProofs.Lib.Tlv
