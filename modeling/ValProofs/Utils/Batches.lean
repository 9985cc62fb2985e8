import ValProofs.Lib.TextStream

/-!
`Batches`: how the list is written to a stream, and read.

A batch is written as its time and its amount, with a blank after each of them. It is read as
long as the end of the text has not been noticed, and it is not noticed after the last amount if
there is a blank. One more batch is read then, from nothing: its time is what the empty word
stands for, and its amount is that of the batch before. There is no check that the reading has
failed, so a text with something else in the place of an amount is read for ever.
-/

namespace ValProofs

open Lib TextStream List Option

/-- The text of a time. What is assumed of it is that a time is one word, and is read from it. -/
structure TimeText (τ : Type) where
  print : τ → List Char
  parse : List Char → τ
  print_ne_nil : ∀ time, print time ≠ []
  print_not_space : ∀ time, ∀ c ∈ print time, isSpace c = false
  parse_print : ∀ time, parse (print time) = time

/-- A list of times and amounts. -/
abbrev Batches (τ : Type) := List (τ × UInt32)

namespace Batches

variable {τ : Type}

/-- `os << batch`. -/
def write (T : TimeText τ) (batch : Batches τ) : List Char :=
  batch.flatMap fun entry => T.print entry.1 ++ ' ' :: (digits entry.2 ++ [' '])

/-- `is >> time`. -/
def getTime (T : TimeText τ) (is : TextStream) : TextStream × τ :=
  (is.getWord.1, T.parse is.getWord.2)

/-- `is >> batch`. The amount is not set before the first is read; the loop has `fuel` turns. -/
def read (T : TimeText τ) :
    ℕ → TextStream → UInt32 → Batches τ → Option (TextStream × Batches τ)
  | 0, _, _, _ => none
  | fuel + 1, is, amount, batch =>
      if is.eof then some (is, batch)
      else
        let (is, time) := getTime T is
        let (is, amount) := is.getUInt32 amount
        read T fuel is amount (batch ++ [(time, amount)])

/-- The batches that are read from a text. -/
def Reads (T : TimeText τ) (amount : UInt32) (text : List Char) (batch : Batches τ) : Prop :=
  ∃ fuel is, read T fuel (.ofText text) amount [] = some (is, batch)

/-- The text of the batches, with blanks after the last amount. -/
def text (T : TimeText τ) (blanks : List Char) : Batches τ → List Char
  | [] => blanks
  | [entry] => T.print entry.1 ++ ' ' :: (digits entry.2 ++ blanks)
  | entry :: next :: rest =>
      T.print entry.1 ++ ' ' :: (digits entry.2 ++ ' ' :: text T blanks (next :: rest))

/-- What is read after the last batch. -/
def extra (T : TimeText τ) (blanks : List Char) (amount : UInt32) (batch : Batches τ) :
    Batches τ :=
  if batch ≠ [] ∧ blanks = [] then []
  else [(T.parse [], (batch.getLast?.map Prod.snd).getD amount)]

variable {T : TimeText τ} {batch : Batches τ}

theorem write_eq_text (h : batch ≠ []) : write T batch = text T [' '] batch := by
  induction batch with
  | nil => exact absurd rfl h
  | cons entry rest ih =>
    cases rest with
    | nil =>
      rw [write, flatMap_cons, flatMap_nil, append_nil]
      rfl
    | cons next rest =>
      have hrest := ih (cons_ne_nil next rest)
      rw [write] at hrest
      rw [write, flatMap_cons, hrest, text]
      simp

/-! ### One turn -/

theorem isSpace_of_mem_blank : ∀ c ∈ [' '], isSpace c = true := by
  simp [isSpace]

variable {is : TextStream}

/-- The end has been noticed. -/
theorem read_of_eof (h : is.eof = true) (fuel : ℕ) (amount : UInt32) (batch : Batches τ) :
    read T (fuel + 1) is amount batch = some (is, batch) := by
  rw [read, if_pos h]

variable {blanks : List Char}

/-- A turn that reads a batch. -/
theorem read_entry {after : List Char} (hblanks : ∀ c ∈ blanks, isSpace c = true)
    (hafter : ∀ c ∈ after.head?, c.isDigit = false) (time : τ) (n amount : UInt32) (fuel : ℕ)
    (batch : Batches τ) :
    read T (fuel + 1) (ofText (blanks ++ (T.print time ++ ' ' :: (digits n ++ after)))) amount
        batch =
      read T fuel ⟨after, after.isEmpty, false⟩ n (batch ++ [(time, n)]) := by
  have hword : (ofText (blanks ++ (T.print time ++ ' ' :: (digits n ++ after)))).getWord =
      (ofText (' ' :: (digits n ++ after)), T.print time) :=
    getWord_of_word hblanks (T.print_ne_nil time) (T.print_not_space time) (by simp [isSpace])
  have hnumber : (ofText (' ' :: (digits n ++ after))).getUInt32 amount =
      (⟨after, after.isEmpty, false⟩, n) :=
    getUInt32_digits isSpace_of_mem_blank n amount hafter
  rw [read, if_neg (by simp [ofText]), getTime, hword, T.parse_print]
  dsimp only
  rw [hnumber]

/-- A turn that reads nothing, when only blanks are left. -/
theorem read_blanks (hblanks : ∀ c ∈ blanks, isSpace c = true) (amount : UInt32) (fuel : ℕ)
    (batch : Batches τ) :
    read T (fuel + 2) (ofText blanks) amount batch =
      some (⟨[], true, true⟩, batch ++ [(T.parse [], amount)]) := by
  rw [read, if_neg (by simp [ofText]), getTime, getWord_of_blanks hblanks]
  dsimp only
  rw [getUInt32_of_not_good (.inl rfl), read_of_eof rfl]

/-- When the reading has failed before the end, the loop does not end. -/
theorem read_of_fail (heof : is.eof = false) (hfail : is.fail = true) (amount : UInt32) (fuel : ℕ)
    (batch : Batches τ) : read T fuel is amount batch = none := by
  induction fuel generalizing batch with
  | zero => rfl
  | succ fuel ih =>
    have hsame : { is with fail := true } = is := by rw [← hfail]
    have hword : is.getWord = (is, []) := getWord_of_not_good (.inr hfail) ▸ hsame ▸ rfl
    rw [read, if_neg (by simp [heof]), getTime, hword]
    dsimp only
    rw [getUInt32_of_not_good (.inr hfail), hsame]
    exact ih _

/-! ### The whole text -/

theorem not_isDigit_of_isSpace {c : Char} (h : isSpace c = true) : c.isDigit = false := by
  cases hdigit : c.isDigit with
  | false => rfl
  | true => exact absurd (isSpace_of_isDigit hdigit) (by simp [h])

theorem extra_cons (blanks : List Char) (amount : UInt32) (entry next : τ × UInt32)
    (rest : Batches τ) :
    extra T blanks amount (entry :: next :: rest) = extra T blanks entry.2 (next :: rest) := by
  simp [extra, getLast?_cons]

theorem exists_read_text {lead : List Char} (hblanks : ∀ c ∈ blanks, isSpace c = true)
    (hlead : ∀ c ∈ lead, isSpace c = true) (batch done : Batches τ) (amount : UInt32) (fuel : ℕ) :
    ∃ is, read T (fuel + batch.length + 2) (ofText (lead ++ text T blanks batch)) amount done =
      some (is, done ++ (batch ++ extra T blanks amount batch)) := by
  -- by induction on the batches; after the first there is a blank before each
  induction batch generalizing lead done amount with
  | nil =>
    have hall : ∀ c ∈ lead ++ blanks, isSpace c = true := fun c hc =>
      (mem_append.mp hc).elim (hlead c) (hblanks c)
    exact ⟨_, read_blanks hall amount fuel done⟩
  | cons entry rest ih =>
    cases rest with
    | nil =>
      have hafter : ∀ c ∈ blanks.head?, c.isDigit = false := fun c hc =>
        not_isDigit_of_isSpace (hblanks c (mem_of_mem_head? hc))
      have hentry := read_entry (T := T) hlead hafter entry.1 entry.2 amount (fuel + 2) done
      cases blanks with
      | nil =>
        refine ⟨⟨[], true, false⟩, hentry.trans ((read_of_eof rfl (fuel + 1) _ _).trans ?_)⟩
        simp [extra]
      | cons c blanks =>
        refine ⟨⟨[], true, true⟩, hentry.trans ((read_blanks hblanks entry.2 fuel _).trans ?_)⟩
        simp [extra]
    | cons next rest =>
      obtain ⟨is, hrest⟩ := ih isSpace_of_mem_blank (done ++ [entry]) entry.2
      have hentry := read_entry (T := T) hlead
        (show ∀ c ∈ (' ' :: text T blanks (next :: rest)).head?, c.isDigit = false by simp)
        entry.1 entry.2 amount (fuel + (next :: rest).length + 2) done
      refine ⟨is, hentry.trans (hrest.trans ?_)⟩
      rw [extra_cons, append_assoc]
      rfl

variable {fuel : ℕ} {amount : UInt32}

/-- More turns do not matter. -/
theorem read_add {result : TextStream × Batches τ} (h : read T fuel is amount batch = some result)
    (more : ℕ) : read T (fuel + more) is amount batch = some result := by
  induction fuel generalizing is amount batch with
  | zero => cases h
  | succ fuel ih =>
    rw [Nat.add_right_comm]
    rw [read] at h ⊢
    split
    · rename_i heof
      rwa [if_pos heof] at h
    · rename_i heof
      rw [if_neg heof] at h
      exact ih h

theorem reads_text_iff (hblanks : ∀ c ∈ blanks, isSpace c = true) {result : Batches τ} :
    Reads T amount (text T blanks batch) result ↔
      result = batch ++ extra T blanks amount batch := by
  obtain ⟨is, hread⟩ := exists_read_text (T := T) hblanks (forall_mem_nil _) batch [] amount 0
  constructor
  · rintro ⟨fuel, is', hresult⟩
    have hmore := read_add hread fuel
    rw [Nat.add_comm] at hmore
    have hsame := (read_add hresult _).symm.trans hmore
    exact congrArg Prod.snd (some.inj hsame)
  · rintro rfl
    exact ⟨_, is, hread⟩

/-- What has been written is not read as it was; it is if there are batches and nothing is
written after the last amount. -/
theorem reads_write_iff (T : TimeText τ) {blanks : List Char}
    (hblanks : ∀ c ∈ blanks, isSpace c = true) (amount : UInt32) (batch : Batches τ) :
    ¬ Reads T amount (write T batch) batch ∧
      (Reads T amount (text T blanks batch) batch ↔ batch ≠ [] ∧ blanks = []) := by
  constructor
  · intro hreads
    cases batch with
    | nil =>
        have htext : Reads T amount (text T [] []) [] := hreads
        cases (reads_text_iff (List.forall_mem_nil _)).mp htext
    | cons entry rest =>
        rw [write_eq_text (List.cons_ne_nil entry rest), reads_text_iff isSpace_of_mem_blank,
          List.self_eq_append_right] at hreads
        simp [extra] at hreads
  · rw [reads_text_iff hblanks, List.self_eq_append_right, extra]
    simp

/-- The text of a time that is not negative, as it is written in nanoseconds. -/
def nanoseconds : TimeText ℕ where
  print time := '+' :: (Nat.toDigits 10 time ++ ['.', '0', 'n', 's'])
  parse word := Nat.ofDigitChars 10 (word.tail.takeWhile Char.isDigit) 0
  print_ne_nil time := List.cons_ne_nil _ _
  print_not_space time := by
    intro c hc
    rcases List.mem_cons.mp hc with rfl | hc
    · decide
    · rcases List.mem_append.mp hc with hdigit | hunit
      · exact isSpace_of_isDigit (Nat.isDigit_of_mem_toDigits (by decide) (by decide) hdigit)
      · simp only [List.mem_cons, List.not_mem_nil, or_false] at hunit
        rcases hunit with rfl | rfl | rfl | rfl <;> rfl
  parse_print time := by
    have hdigits : ∀ c ∈ Nat.toDigits 10 time, c.isDigit = true := fun c hc =>
      Nat.isDigit_of_mem_toDigits (by decide) (by decide) hc
    rw [List.tail_cons, List.takeWhile_append_of_pos hdigits,
      List.takeWhile_cons_of_neg (by decide), List.append_nil]
    exact Nat.ofDigitChars_toDigits (by decide) (by decide)

theorem reads_write_iff_second :
    ¬ Reads nanoseconds 0 (write nanoseconds [(1000000000, 5)]) [(1000000000, 5)] ∧
      Reads nanoseconds 0 (text nanoseconds [] [(1000000000, 5)]) [(1000000000, 5)] := by
  obtain ⟨hwritten, hiff⟩ :=
    reads_write_iff nanoseconds (List.forall_mem_nil _) 0 [(1000000000, 5)]
  exact ⟨hwritten, hiff.mpr ⟨List.cons_ne_nil _ _, rfl⟩⟩

/-- A batch of five after one second is read as two batches. -/
theorem read_write_second :
    Reads nanoseconds 0 (write nanoseconds [(1000000000, 5)]) [(1000000000, 5), (0, 5)] ∧
      ¬ Reads nanoseconds 0 (write nanoseconds [(1000000000, 5)]) [(1000000000, 5)] := by
  rw [write_eq_text (List.cons_ne_nil _ _), reads_text_iff isSpace_of_mem_blank,
    reads_text_iff isSpace_of_mem_blank]
  decide

/-! ### Any text -/

/-- The body of the loop: what is left of the stream, and the batch that is added. -/
def turn (T : TimeText τ) (is : TextStream) (amount : UInt32) : TextStream × τ × UInt32 :=
  let (is, time) := getTime T is
  let (is, amount) := is.getUInt32 amount
  (is, time, amount)

/-- The streams after each of the first `fuel` turns. -/
def turns (T : TimeText τ) : ℕ → TextStream → UInt32 → List TextStream
  | 0, _, _ => []
  | fuel + 1, is, amount =>
      if is.eof then []
      else
        let (is, _, amount) := turn T is amount
        is :: turns T fuel is amount

/-- The loop ends. -/
def Halts (T : TimeText τ) (amount : UInt32) (text : List Char) : Prop :=
  ∃ fuel, (read T fuel (.ofText text) amount []).isSome = true

/-- No batch is added after an extraction that has failed. -/
def Clean (T : TimeText τ) (amount : UInt32) (text : List Char) : Prop :=
  ∀ fuel, ∀ is ∈ turns T fuel (.ofText text) amount, is.fail = false

/-- The text of one batch: a word, blanks and a number of 32 bits. -/
structure IsEntry (text : List Char) (lead word blanks sign number : List Char) (minus : Bool) :
    Prop where
  text_eq : text = lead ++ (word ++ (blanks ++ (sign ++ number)))
  lead_isSpace : ∀ c ∈ lead, isSpace c = true
  word_ne_nil : word ≠ []
  word_not_space : ∀ c ∈ word, isSpace c = false
  blanks_ne_nil : blanks ≠ []
  blanks_isSpace : ∀ c ∈ blanks, isSpace c = true
  isSign : Sign sign minus
  isNumber : IsNumber number

/-- Some text of one batch. -/
def Entry (text : List Char) : Prop :=
  ∃ lead word blanks sign number minus, IsEntry text lead word blanks sign number minus

/-- One or more batches, with nothing after the last number. -/
inductive Entries : List Char → Prop
  | last {text : List Char} (entry : Entry text) : Entries text
  | cons {text rest : List Char} (entry : Entry text) (rest_entries : Entries rest)
      (stop : ∀ c ∈ rest.head?, c.isDigit = false) : Entries (text ++ rest)

variable {text : List Char}

theorem Entry.ne_nil (h : Entry text) : text ≠ [] := by
  obtain ⟨lead, word, blanks, sign, number, minus, hentry⟩ := h
  rw [hentry.text_eq]
  simp [hentry.word_ne_nil]

theorem Entries.ne_nil (h : Entries text) : text ≠ [] := by
  cases h with
  | last entry => exact entry.ne_nil
  | cons entry rest_entries stop => exact append_ne_nil_of_left_ne_nil entry.ne_nil _

/-- A turn that extracts a batch, with a time that need not have been written. -/
theorem turn_entry (T : TimeText τ) {after : List Char} (h : Entry text)
    (hafter : ∀ c ∈ after.head?, c.isDigit = false) (amount : UInt32) :
    (turn T (ofText (text ++ after)) amount).1 = ⟨after, after.isEmpty, false⟩ := by
  obtain ⟨lead, word, blanks, sign, number, minus, hentry⟩ := h
  have hblank : ∀ c ∈ (blanks ++ (sign ++ (number ++ after))).head?, isSpace c = true := by
    intro c hc
    rw [head?_append, head?_eq_some_head hentry.blanks_ne_nil, some_or] at hc
    exact some.inj hc ▸ hentry.blanks_isSpace _ (head_mem _)
  have hword := getWord_of_word hentry.lead_isSpace hentry.word_ne_nil hentry.word_not_space hblank
  have hempty : (blanks ++ (sign ++ (number ++ after))).isEmpty = false := by
    simp [hentry.blanks_ne_nil]
  have hnumber := getUInt32_of_number hentry.blanks_isSpace hentry.isSign hentry.isNumber hafter
    amount
  rw [hempty] at hword
  rw [hentry.text_eq, turn, getTime]
  simp only [append_assoc]
  rw [hword]
  exact congrArg Prod.fst hnumber

/-- A turn fails, or there is a batch in front. -/
theorem turn_cases (T : TimeText τ) (text : List Char) (amount : UInt32) :
    (turn T (ofText text) amount).1.fail = true ∨
      ∃ front after, text = front ++ after ∧ Entry front ∧
        ∀ c ∈ after.head?, c.isDigit = false := by
  rcases getWord_cases text with hfail |
    ⟨lead, word, blanks, rfl, hlead, hne, hword, hblanks, hget⟩
  · left
    rw [turn, getTime]
    dsimp only
    rw [getUInt32_of_not_good (.inr hfail)]
  · cases blanks with
    | nil =>
      left
      rw [turn, getTime, hget]
      dsimp only
      rw [getUInt32_of_not_good (.inl rfl)]
    | cons first blanks =>
      rcases getUInt32_cases (first :: blanks) amount with hfail |
        ⟨between, sign, minus, number, after, hblank, hbetween, hsign, hnumber, hafter, -⟩
      · left
        rw [turn, getTime, hget]
        exact hfail
      · right
        -- the word stops at a blank, so there is one before the number
        have hne' : between ≠ [] := by
          rintro rfl
          obtain ⟨digit, rest, hdigit⟩ := exists_cons_of_ne_nil
            (append_ne_nil_of_right_ne_nil sign hnumber.ne_nil)
          have hspace := hsign.not_space_append hnumber.isDigit digit (by simp [hdigit])
          rw [nil_append, ← append_assoc, hdigit] at hblank
          cases hblank
          exact absurd (hblanks first rfl) (by simp [hspace])
        refine ⟨lead ++ (word ++ (between ++ (sign ++ number))), after, ?_,
          ⟨lead, word, between, sign, number, minus, rfl, hlead, hne, hword, hne', hbetween,
            hsign, hnumber⟩, hafter⟩
        rw [hblank]
        simp only [append_assoc]

theorem mem_turns_succ {last : TextStream} (heof : is.eof = false) :
    last ∈ turns T (fuel + 1) is amount ↔
      last = (turn T is amount).1 ∨
        last ∈ turns T fuel (turn T is amount).1 (turn T is amount).2.2 := by
  rw [turns, if_neg (by simp [heof])]
  exact mem_cons

theorem read_succ (heof : is.eof = false) :
    read T (fuel + 1) is amount batch =
      read T fuel (turn T is amount).1 (turn T is amount).2.2
        (batch ++ [(turn T is amount).2]) := by
  rw [read, if_neg (by simp [heof])]
  rfl

theorem entries_of_read (hread : (read T fuel (ofText text) amount batch).isSome = true)
    (hclean : ∀ is ∈ turns T fuel (ofText text) amount, is.fail = false) : Entries text := by
  induction fuel generalizing text amount batch with
  | zero => cases hread
  | succ fuel ih =>
    have heof : (ofText text).eof = false := rfl
    have hfirst := hclean _ ((mem_turns_succ heof).mpr (.inl rfl))
    rcases turn_cases T text amount with hfail | ⟨front, after, rfl, hentry, hafter⟩
    · rw [hfail] at hfirst
      cases hfirst
    · have hturn := turn_entry T hentry hafter amount
      cases after with
      | nil =>
        rw [append_nil]
        exact .last hentry
      | cons c after =>
        rw [read_succ heof, hturn] at hread
        refine .cons hentry (ih hread fun is his => hclean is ?_) hafter
        rw [mem_turns_succ heof, hturn]
        exact .inr his

theorem Entries.read_turns (T : TimeText τ) (h : Entries text) (amount : UInt32)
    (batch : Batches τ) :
    (∃ fuel, (read T fuel (ofText text) amount batch).isSome = true) ∧
      ∀ fuel, ∀ is ∈ turns T fuel (ofText text) amount, is.fail = false := by
  induction h generalizing amount batch with
  | @last text hentry =>
    have hturn : (turn T (ofText text) amount).1 = ⟨[], true, false⟩ := by
      have hwhole := turn_entry T hentry
        (show ∀ c ∈ ([] : List Char).head?, c.isDigit = false by simp) amount
      rwa [append_nil] at hwhole
    constructor
    · refine ⟨2, ?_⟩
      rw [read_succ rfl, hturn, read_of_eof rfl]
      rfl
    · rintro (- | fuel) is his
      · cases his
      · rw [mem_turns_succ rfl, hturn] at his
        rcases his with rfl | his
        · rfl
        · cases fuel <;> cases his
  | @cons text rest hentry hrest hstop ih =>
    obtain ⟨c, rest', rfl⟩ := exists_cons_of_ne_nil hrest.ne_nil
    have hturn := turn_entry T hentry hstop amount
    obtain ⟨⟨fuel, hread⟩, -⟩ := ih (turn T (ofText (text ++ c :: rest')) amount).2.2
      (batch ++ [(turn T (ofText (text ++ c :: rest')) amount).2])
    constructor
    · refine ⟨fuel + 1, ?_⟩
      rw [read_succ rfl, hturn]
      exact hread
    · rintro (- | fuel) is his
      · cases his
      · rw [mem_turns_succ rfl, hturn] at his
        rcases his with rfl | his
        · rfl
        · exact (ih _ batch).2 fuel is his

/-- The loop ends and adds no batch that has not been extracted on the texts of one or more
batches with nothing after the last number, and on no other. -/
theorem halts_and_clean_iff (T : TimeText τ) (amount : UInt32) (text : List Char) :
    Halts T amount text ∧ Clean T amount text ↔ Entries text := by
  constructor
  · rintro ⟨⟨fuel, hread⟩, hclean⟩
    exact entries_of_read hread (hclean fuel)
  · exact fun h => h.read_turns T amount []

/-- A letter in the place of the amount is read for ever, and a batch is made of no text. -/
theorem not_halts_letter :
    ¬ Halts nanoseconds 0 ['1', 's', ' ', 'x'] ∧
      Reads nanoseconds 0 [] [(0, 0)] ∧ ¬ Clean nanoseconds 0 [] := by
  refine ⟨?_, ⟨2, _, read_blanks (List.forall_mem_nil _) 0 0 []⟩,
    fun hclean => absurd (hclean 1 _ List.mem_cons_self) (by decide)⟩
  rintro ⟨fuel, hread⟩
  cases fuel with
  | zero => cases hread
  | succ fuel =>
      rw [read_succ rfl, read_of_fail (by decide) (by decide)] at hread
      cases hread

end Batches

end ValProofs
