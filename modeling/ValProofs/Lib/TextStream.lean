import Mathlib.Algebra.Group.Nat.Defs
import Mathlib.Data.List.TakeWhile

/-!
Formatted input from a text, as the streams of C++ do it.

A stream that is good skips the blanks before a value. If the text is over then, it has failed;
otherwise the characters of the value are taken, and that the text is over is noticed when a
character is looked for and there is none. So it is not noticed after a value that a blank
follows. From a stream that is not good nothing is read.
-/

namespace ValProofs.Lib

open List

/-- The text that is left, and the flags. -/
structure TextStream where
  rest : List Char
  eof : Bool
  fail : Bool
  deriving DecidableEq, Repr

namespace TextStream

def ofText (text : List Char) : TextStream := ⟨text, false, false⟩

/-- `isspace`. -/
def isSpace (c : Char) : Bool := c ∈ [' ', '\t', '\n', '\x0b', '\x0c', '\r']

/-- What is done before a value is read. -/
def sentry (s : TextStream) : TextStream :=
  if s.eof = false ∧ s.fail = false then
    match s.rest.dropWhile isSpace with
    | [] => ⟨[], true, true⟩
    | rest => { s with rest := rest }
  else { s with fail := true }

/-- The characters of a value are taken. -/
def take (p : Char → Bool) (s : TextStream) : TextStream × List Char :=
  let rest := s.rest.dropWhile p
  ({ s with rest := rest, eof := s.eof || rest.isEmpty }, s.rest.takeWhile p)

/-- A word is read into an empty string. -/
def getWord (s : TextStream) : TextStream × List Char :=
  let s := s.sentry
  if s.fail then (s, []) else s.take fun c => !isSpace c

/-- The sign of a number, and whether it is a minus. -/
def takeSign (s : TextStream) : TextStream × Bool :=
  match s.rest with
  | '+' :: rest => ({ s with rest := rest }, false)
  | '-' :: rest => ({ s with rest := rest }, true)
  | _ => (s, false)

/-- The number of 32 bits for decimal digits; a minus is taken modulo `2 ^ 32`. -/
def value (minus : Bool) (digits : List Char) : UInt32 :=
  if minus then -UInt32.ofNat (Nat.ofDigitChars 10 digits 0)
  else UInt32.ofNat (Nat.ofDigitChars 10 digits 0)

/-- A number of 32 bits is read, by its sign and decimal digits. The variable keeps its value if
there is nothing to be read. -/
def getUInt32 (s : TextStream) (old : UInt32) : TextStream × UInt32 :=
  let s := s.sentry
  if s.fail then (s, old)
  else
    let (s, minus) := s.takeSign
    let (s, digits) := s.take Char.isDigit
    if digits = [] then ({ s with fail := true }, 0)
    else if Nat.ofDigitChars 10 digits 0 < 2 ^ 32 then (s, value minus digits)
    else ({ s with fail := true }, 4294967295)

/-- The digits that a number is written with. -/
def digits (n : UInt32) : List Char := Nat.toDigits 10 n.toNat

/-! ### What is read -/

variable {blanks word after : List Char}

theorem sentry_of_blanks (h : ∀ c ∈ blanks, isSpace c = true) :
    (ofText blanks).sentry = ⟨[], true, true⟩ := by
  rw [sentry, if_pos ⟨rfl, rfl⟩, ofText, dropWhile_eq_nil_iff.mpr h]

variable {s : TextStream}

theorem sentry_of_not_good (h : s.eof = true ∨ s.fail = true) :
    s.sentry = { s with fail := true } := by
  rw [sentry, if_neg]
  rintro ⟨heof, hfail⟩
  simp [heof, hfail] at h

/-- The blanks before a value are skipped. -/
theorem sentry_of_word (hblanks : ∀ c ∈ blanks, isSpace c = true) (hne : word ≠ [])
    (hword : ∀ c ∈ word, isSpace c = false) :
    (ofText (blanks ++ (word ++ after))).sentry = ofText (word ++ after) := by
  cases word with
  | nil => exact absurd rfl hne
  | cons c word =>
    have hc : isSpace c = false := hword c mem_cons_self
    rw [sentry, if_pos ⟨rfl, rfl⟩, ofText, dropWhile_append_of_pos hblanks,
      cons_append, dropWhile_cons_of_neg (by simp [hc])]
    rfl

/-- A value ends where the first other character is. -/
theorem take_append {p : Char → Bool} (hword : ∀ c ∈ word, p c = true)
    (hafter : ∀ c ∈ after.head?, p c = false) :
    (ofText (word ++ after)).take p = (⟨after, after.isEmpty, false⟩, word) := by
  have hstop : after.takeWhile p = [] ∧ after.dropWhile p = after := by
    cases after with
    | nil => exact ⟨rfl, rfl⟩
    | cons c after =>
      have hc : p c = false := hafter c rfl
      exact ⟨takeWhile_cons_of_neg (by simp [hc]), dropWhile_cons_of_neg (by simp [hc])⟩
  rw [take, ofText, takeWhile_append_of_pos hword, dropWhile_append_of_pos hword,
    hstop.1, hstop.2, append_nil]
  rfl

theorem getWord_of_blanks (h : ∀ c ∈ blanks, isSpace c = true) :
    (ofText blanks).getWord = (⟨[], true, true⟩, []) := by
  rw [getWord, sentry_of_blanks h]
  rfl

theorem getWord_of_word (hblanks : ∀ c ∈ blanks, isSpace c = true) (hne : word ≠ [])
    (hword : ∀ c ∈ word, isSpace c = false) (hafter : ∀ c ∈ after.head?, isSpace c = true) :
    (ofText (blanks ++ (word ++ after))).getWord = (⟨after, after.isEmpty, false⟩, word) := by
  rw [getWord, sentry_of_word hblanks hne hword]
  exact take_append (fun c hc => by simp [hword c hc]) fun c hc => by simp [hafter c hc]

theorem getWord_of_not_good (h : s.eof = true ∨ s.fail = true) :
    s.getWord = ({ s with fail := true }, []) := by
  rw [getWord, sentry_of_not_good h]
  rfl

theorem getUInt32_of_not_good (h : s.eof = true ∨ s.fail = true) (old : UInt32) :
    s.getUInt32 old = ({ s with fail := true }, old) := by
  rw [getUInt32, sentry_of_not_good h]
  rfl

variable {c : Char}

theorem isDigit_of_mem_digits {n : UInt32} (h : c ∈ digits n) : c.isDigit = true :=
  Nat.isDigit_of_mem_toDigits (by decide) (by decide) h

theorem isSpace_of_isDigit (h : c.isDigit = true) : isSpace c = false := by
  rw [isSpace, decide_eq_false_iff_not]
  intro hmem
  simp only [mem_cons, not_mem_nil, or_false] at hmem
  rcases hmem with rfl | rfl | rfl | rfl | rfl | rfl <;> exact absurd h (by decide)

/-- A sign, perhaps. -/
inductive Sign : List Char → Bool → Prop
  | none : Sign [] false
  | plus : Sign ['+'] false
  | minus : Sign ['-'] true

/-- The digits of a number of 32 bits. -/
structure IsNumber (number : List Char) : Prop where
  ne_nil : number ≠ []
  isDigit : ∀ c ∈ number, c.isDigit = true
  lt : Nat.ofDigitChars 10 number 0 < 2 ^ 32

theorem isNumber_digits (n : UInt32) : IsNumber (digits n) where
  ne_nil := Nat.toDigits_ne_nil
  isDigit c hc := isDigit_of_mem_digits hc
  lt := by
    rw [digits, Nat.ofDigitChars_toDigits (by decide) (by decide)]
    exact n.toNat_lt

theorem value_digits (n : UInt32) : value false (digits n) = n := by
  have hdigits : Nat.ofDigitChars 10 (digits n) 0 = n.toNat :=
    Nat.ofDigitChars_toDigits (by decide) (by decide)
  rw [value, hdigits, UInt32.ofNat_toNat]
  rfl

variable {sign number : List Char} {minus : Bool}

theorem Sign.not_space (h : Sign sign minus) : ∀ c ∈ sign, isSpace c = false := by
  cases h <;> simp [isSpace]

theorem Sign.not_space_append (h : Sign sign minus) (hdigit : ∀ c ∈ number, c.isDigit = true) :
    ∀ c ∈ sign ++ number, isSpace c = false := fun c hc =>
  (mem_append.mp hc).elim (h.not_space c) fun hc => isSpace_of_isDigit (hdigit c hc)

theorem takeSign_of_not_sign (hplus : c ≠ '+') (hminus : c ≠ '-') (rest : List Char) :
    (ofText (c :: rest)).takeSign = (ofText (c :: rest), false) := by
  rw [takeSign]
  split
  · rename_i hrest
    cases hrest
    exact absurd rfl hplus
  · rename_i hrest
    cases hrest
    exact absurd rfl hminus
  · rfl

theorem Sign.takeSign (h : Sign sign minus) (hne : number ≠ [])
    (hdigit : ∀ c ∈ number, c.isDigit = true) (after : List Char) :
    (ofText (sign ++ (number ++ after))).takeSign = (ofText (number ++ after), minus) := by
  cases h with
  | none =>
    obtain ⟨first, rest, rfl⟩ := exists_cons_of_ne_nil hne
    have hfirst := hdigit first mem_cons_self
    refine takeSign_of_not_sign ?_ ?_ _
    · rintro rfl
      exact absurd hfirst (by decide)
    · rintro rfl
      exact absurd hfirst (by decide)
  | plus | minus => rfl

/-- A number is read up to the first character that is no digit. -/
theorem getUInt32_of_number (hblanks : ∀ c ∈ blanks, isSpace c = true) (hsign : Sign sign minus)
    (hnumber : IsNumber number) (hafter : ∀ c ∈ after.head?, c.isDigit = false) (old : UInt32) :
    (ofText (blanks ++ (sign ++ (number ++ after)))).getUInt32 old =
      (⟨after, after.isEmpty, false⟩, value minus number) := by
  rw [getUInt32, ← append_assoc sign,
    sentry_of_word hblanks (append_ne_nil_of_right_ne_nil sign hnumber.ne_nil)
      (hsign.not_space_append hnumber.isDigit),
    append_assoc]
  dsimp only
  rw [hsign.takeSign hnumber.ne_nil hnumber.isDigit]
  dsimp only
  rw [take_append hnumber.isDigit hafter]
  dsimp only
  rw [if_neg hnumber.ne_nil, if_pos hnumber.lt]
  rfl

/-- A number that has been written is read. -/
theorem getUInt32_digits (hblanks : ∀ c ∈ blanks, isSpace c = true) (n old : UInt32)
    (hafter : ∀ c ∈ after.head?, c.isDigit = false) :
    (ofText (blanks ++ (digits n ++ after))).getUInt32 old =
      (⟨after, after.isEmpty, false⟩, n) :=
  (getUInt32_of_number hblanks .none (isNumber_digits n) hafter old).trans (by rw [value_digits])

/-! ### What can be read -/

/-- A text up to the first other character. -/
theorem exists_split (p : Char → Bool) (text : List Char) :
    ∃ front back, text = front ++ back ∧ (∀ c ∈ front, p c = true) ∧
      ∀ c ∈ back.head?, p c = false := by
  refine ⟨text.takeWhile p, text.dropWhile p, takeWhile_append_dropWhile.symm,
    fun c hc => mem_takeWhile_imp hc, ?_⟩
  induction text with
  | nil => simp
  | cons c text ih =>
    by_cases hc : p c = true
    · rw [dropWhile_cons_of_pos hc]
      exact ih
    · rw [dropWhile_cons_of_neg hc]
      simpa using hc

/-- The blanks in front, and what is left after them. -/
theorem exists_sentry (text : List Char) :
    (∀ c ∈ text, isSpace c = true) ∨
      ∃ lead first rest, text = lead ++ first :: rest ∧ (∀ c ∈ lead, isSpace c = true) ∧
        isSpace first = false ∧ (ofText text).sentry = ofText (first :: rest) := by
  obtain ⟨lead, rest, rfl, hlead, hrest⟩ := exists_split isSpace text
  cases rest with
  | nil =>
    rw [append_nil]
    exact .inl hlead
  | cons first rest =>
    have hfirst := hrest first rfl
    exact .inr ⟨lead, first, rest, rfl, hlead, hfirst,
      sentry_of_word hlead (cons_ne_nil first []) (by simpa using hfirst)⟩

theorem getWord_cases (text : List Char) :
    (ofText text).getWord.1.fail = true ∨
      ∃ lead word after, text = lead ++ (word ++ after) ∧ (∀ c ∈ lead, isSpace c = true) ∧
        word ≠ [] ∧ (∀ c ∈ word, isSpace c = false) ∧
        (∀ c ∈ after.head?, isSpace c = true) ∧
        (ofText text).getWord = (⟨after, after.isEmpty, false⟩, word) := by
  rcases exists_sentry text with hblanks | ⟨lead, first, rest, rfl, hlead, hfirst, -⟩
  · rw [getWord_of_blanks hblanks]
    exact .inl rfl
  · obtain ⟨word, after, rfl, hword, hafter⟩ := exists_split (fun c => !isSpace c) rest
    have hwhole : ∀ c ∈ first :: word, isSpace c = false :=
      forall_mem_cons.mpr ⟨hfirst, fun c hc => by simpa using hword c hc⟩
    have hafter' : ∀ c ∈ after.head?, isSpace c = true := fun c hc => by simpa using hafter c hc
    exact .inr ⟨lead, first :: word, after, rfl, hlead, cons_ne_nil _ _, hwhole, hafter',
      getWord_of_word hlead (cons_ne_nil _ _) hwhole hafter'⟩

theorem getUInt32_cases (text : List Char) (old : UInt32) :
    ((ofText text).getUInt32 old).1.fail = true ∨
      ∃ lead sign minus number after, text = lead ++ (sign ++ (number ++ after)) ∧
        (∀ c ∈ lead, isSpace c = true) ∧ Sign sign minus ∧ IsNumber number ∧
        (∀ c ∈ after.head?, c.isDigit = false) ∧
        (ofText text).getUInt32 old = (⟨after, after.isEmpty, false⟩, value minus number) := by
  rcases exists_sentry text with hblanks | ⟨lead, first, rest, rfl, hlead, -, hsentry⟩
  · rw [getUInt32, sentry_of_blanks hblanks]
    exact .inl rfl
  · obtain ⟨sign, minus, unsigned, hrest, hsign, htake⟩ : ∃ sign minus unsigned,
        first :: rest = sign ++ unsigned ∧ Sign sign minus ∧
          (ofText (first :: rest)).takeSign = (ofText unsigned, minus) := by
      by_cases hplus : first = '+'
      · subst hplus
        exact ⟨['+'], false, rest, rfl, .plus, rfl⟩
      by_cases hminus : first = '-'
      · subst hminus
        exact ⟨['-'], true, rest, rfl, .minus, rfl⟩
      exact ⟨[], false, first :: rest, rfl, .none, takeSign_of_not_sign hplus hminus rest⟩
    obtain ⟨number, after, rfl, hnumber, hafter⟩ := exists_split Char.isDigit unsigned
    by_cases hvalid : number ≠ [] ∧ Nat.ofDigitChars 10 number 0 < 2 ^ 32
    · refine .inr ⟨lead, sign, minus, number, after, by rw [hrest], hlead, hsign,
        ⟨hvalid.1, hnumber, hvalid.2⟩, hafter, ?_⟩
      rw [hrest]
      exact getUInt32_of_number hlead hsign ⟨hvalid.1, hnumber, hvalid.2⟩ hafter old
    · left
      rw [getUInt32, hsentry]
      dsimp only
      rw [htake]
      dsimp only
      rw [take_append hnumber hafter]
      dsimp only
      by_cases hnil : number = []
      · rw [if_pos hnil]
        rfl
      · rw [if_neg hnil, if_neg fun hlt => hvalid ⟨hnil, hlt⟩]
        rfl

/-! ### Words -/

/-- A text without blanks that is not empty. -/
structure IsWord (word : List Char) : Prop where
  ne_nil : word ≠ []
  not_space : ∀ c ∈ word, isSpace c = false

theorem getWord_ofText (text : List Char) :
    (ofText text).getWord = (⟨[], true, true⟩, []) ∨ IsWord (ofText text).getWord.2 := by
  rcases exists_sentry text with hblanks | ⟨lead, first, rest, -, -, hfirst, hsentry⟩
  · exact .inl (getWord_of_blanks hblanks)
  · refine .inr ?_
    have hfirst' : (!isSpace first) = true := by rw [hfirst, Bool.not_false]
    rw [getWord, hsentry]
    refine ⟨?_, fun c hc => by simpa using mem_takeWhile_imp hc⟩
    show (first :: rest).takeWhile (fun c => !isSpace c) ≠ []
    rw [takeWhile_cons_of_pos (p := fun c => !isSpace c) hfirst']
    exact cons_ne_nil _ _

/-- Either a word is read, or nothing is, and then nothing can be read any more. -/
theorem getWord_fail_or_isWord (s : TextStream) :
    (s.getWord.1.fail = true ∧ s.getWord.2 = []) ∨ IsWord s.getWord.2 := by
  by_cases hgood : s.eof = true ∨ s.fail = true
  · rw [getWord_of_not_good hgood]
    exact .inl ⟨rfl, rfl⟩
  · obtain ⟨text, eof, fail⟩ := s
    simp only [not_or, Bool.not_eq_true] at hgood
    obtain ⟨rfl, rfl⟩ := hgood
    rcases getWord_ofText text with hnone | hword
    · exact .inl ⟨congrArg (fun result => result.1.fail) hnone, congrArg Prod.snd hnone⟩
    · exact .inr hword

/-- Some words are read one after the other. -/
def getWords : ℕ → TextStream → List (List Char)
  | 0, _ => []
  | n + 1, s => s.getWord.2 :: getWords n s.getWord.1

/-- Words with a tab after each. -/
def cells (words : List (List Char)) : List Char := words.flatMap fun word => word ++ ['\t']

theorem getWords_of_not_good (h : s.eof = true ∨ s.fail = true) (n : ℕ) :
    getWords n s = replicate n [] := by
  induction n generalizing s with
  | zero => rfl
  | succ n ih =>
    rw [getWords, getWord_of_not_good h, ih (.inr rfl)]
    rfl

theorem getWords_getD (n : ℕ) (s : TextStream) (i : ℕ) :
    (getWords n s).getD i [] = [] ∨ IsWord ((getWords n s).getD i []) := by
  induction n generalizing s i with
  | zero => exact .inl rfl
  | succ n ih =>
    cases i with
    | zero => exact (getWord_fail_or_isWord s).imp_left And.right
    | succ i => exact ih s.getWord.1 i

/-- After a word that could not be read there is none. -/
theorem getWords_getD_succ {n : ℕ} {i : ℕ} (h : (getWords n s).getD i [] = []) :
    (getWords n s).getD (i + 1) [] = [] := by
  induction n generalizing s i with
  | zero => rfl
  | succ n ih =>
    rw [getWords] at h ⊢
    cases i with
    | zero =>
      rcases getWord_fail_or_isWord s with hnone | hword
      · rw [getWords_of_not_good (.inr hnone.1)]
        cases n <;> rfl
      · exact absurd h hword.ne_nil
    | succ i => exact ih h

theorem getWords_of_blanks (h : ∀ c ∈ blanks, isSpace c = true) (n : ℕ) :
    getWords n (ofText blanks) = replicate n [] := by
  cases n with
  | zero => rfl
  | succ n =>
    rw [getWords, getWord_of_blanks h, getWords_of_not_good (.inl rfl)]
    rfl

/-- The words are read, and empty ones after the last. -/
theorem getWords_cells {words : List (List Char)} (hwords : ∀ word ∈ words, IsWord word)
    (hblanks : ∀ c ∈ blanks, isSpace c = true) {n : ℕ} (hn : words.length ≤ n) :
    getWords n (ofText (blanks ++ cells words)) =
      words ++ replicate (n - words.length) [] := by
  induction words generalizing blanks n with
  | nil =>
    rw [cells, flatMap_nil, append_nil, getWords_of_blanks hblanks]
    rfl
  | cons word words ih =>
    obtain ⟨m, rfl⟩ : ∃ m, n = m + 1 :=
      Nat.exists_eq_succ_of_ne_zero (Nat.ne_zero_of_lt hn)
    have hword := hwords word mem_cons_self
    have htab : ∀ c ∈ ['\t'], isSpace c = true := by simp [isSpace]
    have hget : (ofText (blanks ++ cells (word :: words))).getWord =
        (ofText (['\t'] ++ cells words), word) := by
      rw [cells, flatMap_cons, append_assoc]
      exact getWord_of_word hblanks hword.ne_nil hword.not_space (by simp [isSpace])
    have hrest := ih (fun other hother => hwords other (mem_cons_of_mem word hother)) htab
      (show words.length ≤ m from Nat.le_of_succ_le_succ hn)
    rw [getWords, hget, hrest, length_cons, Nat.add_sub_add_right]
    rfl

/-! ### Lines -/

/-- What `getline` reads from a text, until the end has been noticed. -/
def splitLines : List Char → List (List Char)
  | [] => [[]]
  | c :: text =>
      if c = '\n' then [] :: splitLines text
      else
        match splitLines text with
        | [] => [[c]]
        | line :: rest => (c :: line) :: rest

theorem splitLines_append {line : List Char} (h : '\n' ∉ line) (text : List Char) :
    splitLines (line ++ '\n' :: text) = line :: splitLines text := by
  induction line with
  | nil => exact if_pos rfl
  | cons c line ih =>
    rw [mem_cons, not_or] at h
    rw [cons_append, splitLines, if_neg (Ne.symm h.1), ih h.2]

/-- The lines of lines that are written one after the other; the last is empty. -/
theorem splitLines_flatMap {written : List (List Char)} (h : ∀ line ∈ written, '\n' ∉ line) :
    splitLines (written.flatMap fun line => line ++ ['\n']) = written ++ [[]] := by
  induction written with
  | nil => rfl
  | cons line written ih =>
    rw [flatMap_cons, append_assoc, singleton_append, splitLines_append (h line mem_cons_self),
      ih fun other hother => h other (mem_cons_of_mem line hother)]
    rfl

end TextStream

end ValProofs.Lib
