import ValProofs.Lib.System
import ValProofs.Utils.Rtt

/-!
The consumers of ndnSIM: `Consumer`, with what the classes derived from it add.

A consumer asks for Data by sequence numbers. A number that has been sent is in `m_seqTimeouts`
until its Data comes or its time is over; then it is in `m_retxSeqs`, to be sent again. When a
packet is to be sent the least of these is taken out, and a new number only if there is none.
That there is none is told by the greatest number, which stands for no number there. It is a
number all the same: when it is to be sent again it is taken out, and a new number is sent in
its place.
-/

namespace ValProofs

open Lib List Prod Function

/-- A consumer: the members of the class, the simulated time, and those of a derived class. -/
structure Consumer (ρ ε : Type) where
  /-- `m_active`. -/
  active : Bool
  now : ℕ
  /-- `m_seq`. -/
  seq : UInt32
  /-- `m_seqMax`. -/
  seqMax : UInt32
  /-- `m_retxSeqs`, in order. -/
  retxSeqs : List UInt32
  /-- `m_seqTimeouts`, in the order of the times. -/
  seqTimeouts : List (UInt32 × ℕ)
  /-- When `m_sendEvent` is to run, if it is running. -/
  sendEvent : Option ℕ
  /-- `m_rtt`. -/
  rtt : Rtt ρ
  ext : ε

/-- What a derived class does. -/
structure Methods (ρ ε : Type) where
  /-- `ScheduleNextPacket()`: the event, and the members. -/
  schedule : Consumer ρ ε → Option ℕ × ε
  /-- What is done before `Consumer::WillSendOutInterest`. -/
  willSendOut : ε → ε
  /-- What is done before `Consumer::OnTimeout`. -/
  timeout : ε → ε
  /-- What is done after `Consumer::OnData`, and whether the next packet is scheduled then. -/
  data : ε → ε
  dataSchedules : Bool

namespace Consumer

variable {ρ ε : Type}

/-- The number that is no number. -/
def invalid : UInt32 := 4294967295

/-- `m_retxSeqs.insert(seq)`. -/
def insertSeq (seq : UInt32) (seqs : List UInt32) : List UInt32 :=
  if seq ∈ seqs then seqs else seqs.orderedInsert (fun a b => a.toNat < b.toNat) seq

/-- `m_seqTimeouts.insert(SeqTimeout(seq, now))`. -/
def insertTimeout (seq : UInt32) (now : ℕ) (timeouts : List (UInt32 × ℕ)) : List (UInt32 × ℕ) :=
  if seq ∈ timeouts.map Prod.fst then timeouts
  else timeouts.orderedInsert (fun a b => a.2 < b.2) (seq, now)

def scheduleNextPacket (M : Methods ρ ε) (c : Consumer ρ ε) : Consumer ρ ε :=
  { c with sendEvent := (M.schedule c).1, ext := (M.schedule c).2 }

def willSendOutInterest (M : Methods ρ ε) (c : Consumer ρ ε) (seq : UInt32) : Consumer ρ ε :=
  { c with
    seqTimeouts := insertTimeout seq c.now c.seqTimeouts
    rtt := c.rtt.sentSeq c.now seq
    ext := M.willSendOut c.ext }

/-- The number that `SendPacket()` sends, if any, and the consumer before it is sent. -/
def takeSeq (c : Consumer ρ ε) : Consumer ρ ε × Option UInt32 :=
  let taken : Consumer ρ ε := { c with retxSeqs := c.retxSeqs.tail }
  let seq := c.retxSeqs.head?.getD invalid
  if seq = invalid then
    if c.seqMax ≠ invalid ∧ c.seqMax ≤ c.seq then (taken, none)
    else ({ taken with seq := c.seq + 1 }, some c.seq)
  else (taken, some seq)

/-- `SendPacket()`: the consumer, and the number that is sent. -/
def sendPacket (M : Methods ρ ε) (c : Consumer ρ ε) : Consumer ρ ε × Option UInt32 :=
  if c.active then
    match c.takeSeq with
    | (c, none) => (c, none)
    | (c, some seq) => (scheduleNextPacket M (willSendOutInterest M c seq), some seq)
  else (c, none)

/-- `OnTimeout(sequenceNumber)`. -/
def onTimeout (E : Estimator ρ) (M : Methods ρ ε) (c : Consumer ρ ε) (seq : UInt32) :
    Consumer ρ ε :=
  scheduleNextPacket M
    { c with
      rtt := (c.rtt.increaseMultiplier E).sentSeq c.now seq
      retxSeqs := insertSeq seq c.retxSeqs
      ext := M.timeout c.ext }

/-- The loop of `CheckRetxTimeout()`, which takes a number out in every turn: the consumer, and
the numbers whose time is over. -/
def checkTimeouts (E : Estimator ρ) (M : Methods ρ ε) (rto : ℕ) :
    ℕ → Consumer ρ ε → Consumer ρ ε × List UInt32
  | 0, c => (c, [])
  | turns + 1, c =>
      match c.seqTimeouts with
      | [] => (c, [])
      | (seq, time) :: rest =>
          if time + rto ≤ c.now then
            let (c, seqs) :=
              checkTimeouts E M rto turns (onTimeout E M { c with seqTimeouts := rest } seq)
            (c, seq :: seqs)
          else (c, [])

/-- `CheckRetxTimeout()`. -/
def checkRetxTimeout (E : Estimator ρ) (M : Methods ρ ε) (c : Consumer ρ ε) :
    Consumer ρ ε × List UInt32 :=
  checkTimeouts E M (E.retransmitTimeout c.rtt.estimate) c.seqTimeouts.length c

/-- `Consumer::OnData` for the sequence number: the consumer, and the sample. -/
def receive (E : Estimator ρ) (c : Consumer ρ ε) (seq : UInt32) : Consumer ρ ε × Option ℕ :=
  if c.active then
    let (rtt, sample) := c.rtt.ackSeq E c.now seq
    ({ c with
        seqTimeouts := eraseKey Prod.fst seq c.seqTimeouts
        retxSeqs := c.retxSeqs.erase seq
        rtt := rtt },
      sample)
  else (c, none)

/-- `OnData(data)`. -/
def onData (E : Estimator ρ) (M : Methods ρ ε) (c : Consumer ρ ε) (seq : UInt32) :
    Consumer ρ ε × Option ℕ :=
  let (c, sample) := c.receive E seq
  let c := { c with ext := M.data c.ext }
  (if M.dataSchedules then scheduleNextPacket M c else c, sample)

/-- A consumer that is started at once. -/
def startApplication (M : Methods ρ ε) (estimate : ρ) (seq seqMax : UInt32) (ext : ε) :
    Consumer ρ ε :=
  scheduleNextPacket M ⟨true, 0, seq, seqMax, [], [], none, ⟨estimate, []⟩, ext⟩

/-! ### What happens to a consumer -/

inductive Event
  /-- `m_sendEvent` runs. -/
  | send
  /-- The Data for a number arrives. -/
  | data (seq : UInt32)
  /-- The timeouts are checked. -/
  | check
  /-- Time goes on. -/
  | elapse (time : ℕ)
  /-- `StopApplication()`. -/
  | stop

def next (E : Estimator ρ) (M : Methods ρ ε) (c : Consumer ρ ε) : Event → Consumer ρ ε
  | .send => (sendPacket M { c with sendEvent := none }).1
  | .data seq => (c.onData E M seq).1
  | .check => (c.checkRetxTimeout E M).1
  | .elapse time => { c with now := time }
  | .stop => { c with active := false, sendEvent := none }

/-- An event runs at its time, and no Data come when the face is closed. -/
def guard (c : Consumer ρ ε) : Event → Prop
  | .send => c.sendEvent = some c.now
  | .data _ => c.active = true
  | .check => True
  | .elapse time => c.now ≤ time ∧ ∀ event ∈ c.sendEvent, time ≤ event
  | .stop => c.active = true

instance (c : Consumer ρ ε) (e : Event) : Decidable (c.guard e) := by
  cases e <;> rw [guard] <;> infer_instance

variable {c : Consumer ρ ε}

/-- **The rule for the loop.** What a timeout of the first number keeps holds after all of
them. -/
theorem checkTimeouts_invariant {I : Consumer ρ ε → Prop} {E : Estimator ρ} {M : Methods ρ ε}
    (hstep : ∀ c seq time rest, I c → c.seqTimeouts = (seq, time) :: rest →
      I (onTimeout E M { c with seqTimeouts := rest } seq)) (hc : I c) (rto turns : ℕ) :
    I (checkTimeouts E M rto turns c).1 := by
  induction turns generalizing c with
  | zero => exact hc
  | succ turns ih =>
    rw [checkTimeouts]
    cases hfirst : c.seqTimeouts with
    | nil => exact hc
    | cons entry rest =>
      dsimp only
      split
      · exact ih (hstep c entry.1 entry.2 rest hc hfirst)
      · exact hc

/-! ### The numbers that a consumer waits for -/

variable {seq : UInt32}

theorem perm_insertSeq {seqs : List UInt32} (h : seq ∉ seqs) :
    (insertSeq seq seqs).Perm (seq :: seqs) := by
  rw [insertSeq, if_neg h]
  exact perm_orderedInsert _ seq seqs

theorem mem_insertTimeout {other : UInt32} {now : ℕ} {timeouts : List (UInt32 × ℕ)} :
    other ∈ (insertTimeout seq now timeouts).map fst ↔
      other = seq ∨ other ∈ timeouts.map fst := by
  rw [insertTimeout]
  split
  · rename_i hmem
    refine ⟨.inr, ?_⟩
    rintro (rfl | hother)
    · exact hmem
    · exact hother
  · rw [((perm_orderedInsert _ (seq, now) timeouts).map fst).mem_iff, map_cons, mem_cons]

theorem nodup_insertTimeout {now : ℕ} {timeouts : List (UInt32 × ℕ)}
    (h : (timeouts.map fst).Nodup) : ((insertTimeout seq now timeouts).map fst).Nodup := by
  rw [insertTimeout]
  split
  · exact h
  · rename_i hmem
    rw [((perm_orderedInsert _ (seq, now) timeouts).map fst).nodup_iff, map_cons]
    exact nodup_cons.mpr ⟨hmem, h⟩

/-- The numbers in the two containers: each is in one of them, and these are the numbers. -/
structure Waits (c : Consumer ρ ε) (waiting : UInt32 → Prop) : Prop where
  nodup_retx : c.retxSeqs.Nodup
  nodup_timeouts : (c.seqTimeouts.map Prod.fst).Nodup
  disjoint : ∀ seq ∈ c.retxSeqs, seq ∉ c.seqTimeouts.map Prod.fst
  mem_iff : ∀ seq, seq ∈ c.retxSeqs ∨ seq ∈ c.seqTimeouts.map Prod.fst ↔ waiting seq

namespace Waits

variable {c : Consumer ρ ε} {waiting : UInt32 → Prop}

variable (h : Waits c waiting)
include h

theorem scheduleNextPacket (M : Methods ρ ε) : Waits (c.scheduleNextPacket M) waiting :=
  ⟨h.nodup_retx, h.nodup_timeouts, h.disjoint, h.mem_iff⟩

theorem willSendOutInterest (M : Methods ρ ε) (seq : UInt32) (hseq : seq ∉ c.retxSeqs) :
    Waits (c.willSendOutInterest M seq) fun other => other = seq ∨ waiting other := by
  refine ⟨h.nodup_retx, nodup_insertTimeout h.nodup_timeouts, fun other hother => ?_,
    fun other => ?_⟩
  · rw [Consumer.willSendOutInterest, mem_insertTimeout, not_or]
    exact ⟨fun heq => hseq (heq ▸ hother), h.disjoint other hother⟩
  · rw [← h.mem_iff, Consumer.willSendOutInterest, mem_insertTimeout]
    exact or_left_comm

/-- A number whose time is over goes from one container to the other. -/
theorem onTimeout {time : ℕ} {rest : List (UInt32 × ℕ)}
    (hfirst : c.seqTimeouts = (seq, time) :: rest) (E : Estimator ρ) (M : Methods ρ ε) :
    Waits (Consumer.onTimeout E M { c with seqTimeouts := rest } seq) waiting := by
  have hnodup := h.nodup_timeouts
  rw [hfirst, map_cons] at hnodup
  obtain ⟨hout, hrest⟩ := nodup_cons.mp hnodup
  have hseq : seq ∉ c.retxSeqs := by
    intro hmem
    have hnot := h.disjoint seq hmem
    rw [hfirst] at hnot
    exact hnot mem_cons_self
  have hperm := perm_insertSeq hseq
  refine Waits.scheduleNextPacket ⟨hperm.nodup_iff.mpr (nodup_cons.mpr ⟨hseq, h.nodup_retx⟩),
    hrest, fun other hother => ?_, fun other => ?_⟩ M
  · rcases mem_cons.mp (hperm.mem_iff.mp hother) with rfl | hother
    · exact hout
    · intro hmem
      have hnot := h.disjoint other hother
      rw [hfirst] at hnot
      exact hnot (mem_cons_of_mem _ hmem)
  · rw [← h.mem_iff, hfirst]
    show other ∈ insertSeq seq c.retxSeqs ∨ other ∈ rest.map fst ↔ _
    rw [hperm.mem_iff, mem_cons, map_cons, mem_cons, or_assoc]
    exact or_left_comm

theorem checkTimeouts (E : Estimator ρ) (M : Methods ρ ε) (rto turns : ℕ) :
    Waits (Consumer.checkTimeouts E M rto turns c).1 waiting :=
  checkTimeouts_invariant (I := fun c => Waits c waiting)
    (fun _ _ _ _ hc hfirst => hc.onTimeout hfirst E M) h rto turns

theorem receive (hactive : c.active = true) (E : Estimator ρ) (seq : UInt32) :
    Waits (c.receive E seq).1 fun other => waiting other ∧ other ≠ seq := by
  rw [Consumer.receive, if_pos hactive]
  refine ⟨h.nodup_retx.erase seq, h.nodup_timeouts.sublist (eraseKey_sublist.map fst),
    fun other hother => ?_, fun other => ?_⟩
  · intro hmem
    exact h.disjoint other (mem_of_mem_erase hother)
      ((mem_map_eraseKey h.nodup_timeouts).mp hmem).1
  · show other ∈ c.retxSeqs.erase seq ∨
      other ∈ (eraseKey fst seq c.seqTimeouts).map fst ↔ _
    rw [h.nodup_retx.mem_erase_iff, mem_map_eraseKey h.nodup_timeouts, ← h.mem_iff]
    tauto

theorem congr {c' : Consumer ρ ε} {waiting' : UInt32 → Prop}
    (hretx : c'.retxSeqs = c.retxSeqs) (htimeouts : c'.seqTimeouts = c.seqTimeouts)
    (hwaiting : ∀ seq, waiting' seq ↔ waiting seq) : Waits c' waiting' := by
  refine ⟨hretx ▸ h.nodup_retx, htimeouts ▸ h.nodup_timeouts, ?_, fun seq => ?_⟩
  · rw [hretx, htimeouts]
    exact h.disjoint
  · rw [hretx, htimeouts, hwaiting]
    exact h.mem_iff seq

/-- The first number to be sent again is taken out. -/
theorem tail {first : UInt32} {rest : List UInt32} (hretx : c.retxSeqs = first :: rest) :
    Waits { c with retxSeqs := rest } fun other => waiting other ∧ other ≠ first := by
  have hnodup := h.nodup_retx
  rw [hretx] at hnodup
  obtain ⟨hout, hrest⟩ := nodup_cons.mp hnodup
  refine ⟨hrest, h.nodup_timeouts, fun other hother => ?_, fun other => ?_⟩
  · exact h.disjoint other (hretx ▸ mem_cons_of_mem first hother)
  · have hfirst := h.disjoint first (hretx ▸ mem_cons_self)
    have hiff := h.mem_iff other
    rw [hretx, mem_cons] at hiff
    rw [← hiff]
    constructor
    · rintro (hother | hother)
      · exact ⟨.inl (.inr hother), fun heq => hout (heq ▸ hother)⟩
      · exact ⟨.inr hother, fun heq => hfirst (heq ▸ hother)⟩
    · rintro ⟨(rfl | hother) | hother, hne⟩
      · exact absurd rfl hne
      · exact .inl hother
      · exact .inr hother

end Waits

/-- The greatest number is to be sent again, and another one is sent in its place, or none. -/
def Overlooks (c : Consumer ρ ε) : Prop :=
  c.active = true ∧ c.retxSeqs.head? = some invalid ∧ ¬ (c.seq = invalid ∧ c.seqMax = invalid)

theorem sendPacket_of_none (hactive : c.active = true) (h : c.takeSeq.2 = none) (M : Methods ρ ε) :
    c.sendPacket M = (c.takeSeq.1, none) := by
  rw [sendPacket, if_pos hactive]
  generalize c.takeSeq = result at h ⊢
  obtain ⟨c', sent⟩ := result
  obtain rfl : sent = none := h
  rfl

theorem sendPacket_of_some (hactive : c.active = true) (h : c.takeSeq.2 = some seq)
    (M : Methods ρ ε) :
    c.sendPacket M =
      (scheduleNextPacket M (willSendOutInterest M c.takeSeq.1 seq), some seq) := by
  rw [sendPacket, if_pos hactive]
  generalize c.takeSeq = result at h ⊢
  obtain ⟨c', sent⟩ := result
  obtain rfl : sent = some seq := h
  rfl

theorem sendPacket_of_inactive (hactive : c.active = false) (M : Methods ρ ε) :
    c.sendPacket M = (c, none) := by
  rw [sendPacket, hactive]
  rfl

/-- What is taken is taken from the numbers to be sent again, or from the new ones. -/
theorem exists_takeSeq (c : Consumer ρ ε) :
    ∃ seq, c.takeSeq.1 = { c with retxSeqs := c.retxSeqs.tail, seq := seq } := by
  rw [takeSeq]
  dsimp only
  split
  · split
    · exact ⟨c.seq, rfl⟩
    · exact ⟨c.seq + 1, rfl⟩
  · exact ⟨c.seq, rfl⟩

theorem takeSeq_of_none (h : c.takeSeq.2 = none) :
    c.takeSeq.1 = { c with retxSeqs := c.retxSeqs.tail } ∧
      c.retxSeqs.head?.getD invalid = invalid ∧ c.seqMax ≠ invalid ∧ c.seqMax ≤ c.seq := by
  rw [takeSeq] at h ⊢
  dsimp only at h ⊢
  by_cases hseq : c.retxSeqs.head?.getD invalid = invalid
  · rw [if_pos hseq] at h ⊢
    by_cases hdone : c.seqMax ≠ invalid ∧ c.seqMax ≤ c.seq
    · rw [if_pos hdone]
      exact ⟨rfl, hseq, hdone⟩
    · rw [if_neg hdone] at h
      cases h
  · rw [if_neg hseq] at h
    cases h

theorem takeSeq_of_nil (h : c.retxSeqs = []) :
    c.takeSeq.1.retxSeqs = [] ∧ c.takeSeq.1.seqTimeouts = c.seqTimeouts := by
  rw [takeSeq]
  simp only [h, head?_nil, Option.getD_none, if_true, tail_nil]
  split <;> exact ⟨rfl, rfl⟩

/-- Unless the greatest number is overlooked, the first number to be sent again is sent. -/
theorem takeSeq_of_cons (hactive : c.active = true) {first : UInt32} {rest : List UInt32}
    (h : c.retxSeqs = first :: rest) (hkeeps : ¬ c.Overlooks) :
    c.takeSeq.1.retxSeqs = rest ∧ c.takeSeq.1.seqTimeouts = c.seqTimeouts ∧
      c.takeSeq.2 = some first := by
  rw [takeSeq]
  simp only [h, head?_cons, Option.getD_some, tail_cons]
  split
  · rename_i hfirst
    have hboth : c.seq = invalid ∧ c.seqMax = invalid := by
      by_contra hother
      exact hkeeps ⟨hactive, by rw [h, hfirst]; rfl, hother⟩
    rw [if_neg fun hdone => hdone.1 hboth.2]
    exact ⟨rfl, rfl, congrArg some (hboth.1.trans hfirst.symm)⟩
  · exact ⟨rfl, rfl, rfl⟩

/-- **Sending**: the number that is sent is waited for, and all others still are. -/
theorem Waits.sendPacket {waiting : UInt32 → Prop} (h : Waits c waiting) (M : Methods ρ ε)
    (hkeeps : ¬ c.Overlooks) :
    Waits (c.sendPacket M).1 fun other => (c.sendPacket M).2 = some other ∨ waiting other := by
  cases hactive : c.active with
  | false =>
    rw [sendPacket_of_inactive hactive]
    exact h.congr rfl rfl fun other => by simp
  | true =>
    cases hretx : c.retxSeqs with
    | nil =>
      obtain ⟨hempty, hsame⟩ := takeSeq_of_nil hretx
      have htaken : Waits c.takeSeq.1 waiting :=
        h.congr (hempty.trans hretx.symm) hsame fun _ => Iff.rfl
      cases hsent : c.takeSeq.2 with
      | none =>
        rw [sendPacket_of_none hactive hsent]
        exact htaken.congr rfl rfl fun other => by simp
      | some seq =>
        rw [sendPacket_of_some hactive hsent]
        have hwaits := htaken.willSendOutInterest M seq (by rw [hempty]; simp)
        exact (hwaits.scheduleNextPacket M).congr rfl rfl fun other => by
          rw [Option.some.injEq, eq_comm]
    | cons first rest =>
      obtain ⟨hrest, hsame, hsent⟩ := takeSeq_of_cons hactive hretx hkeeps
      have htaken : Waits c.takeSeq.1 fun other => waiting other ∧ other ≠ first :=
        (h.tail hretx).congr hrest hsame fun _ => Iff.rfl
      have hfirst : first ∉ c.takeSeq.1.retxSeqs := by
        intro hmem
        exact ((htaken.mem_iff first).mp (.inl hmem)).2 rfl
      rw [sendPacket_of_some hactive hsent]
      refine ((htaken.willSendOutInterest M first hfirst).scheduleNextPacket M).congr rfl rfl
        fun other => ?_
      have hwaiting : waiting first := (h.mem_iff first).mp (.inl (hretx ▸ mem_cons_self))
      constructor
      · rintro (heq | hother)
        · exact .inl (Option.some.inj heq).symm
        · by_cases hne : other = first
          · exact .inl hne
          · exact .inr ⟨hother, hne⟩
      · rintro (rfl | hother)
        · exact .inl rfl
        · exact .inr hother.1

theorem le_invalid (seq : UInt32) : seq ≤ invalid := by
  have hlt := seq.toNat_lt
  rw [UInt32.le_iff_toNat_le, show invalid.toNat = 4294967295 from rfl]
  omega

/-- A number that is overlooked is not sent, and is in neither container any more. -/
theorem Overlooks.lost {waiting : UInt32 → Prop} (hc : c.Overlooks) (h : Waits c waiting)
    (M : Methods ρ ε) :
    (c.sendPacket M).2 ≠ some invalid ∧ invalid ∉ (c.sendPacket M).1.retxSeqs ∧
      invalid ∉ (c.sendPacket M).1.seqTimeouts.map fst := by
  obtain ⟨hactive, hhead, hother⟩ := hc
  obtain ⟨rest, hretx⟩ : ∃ rest, c.retxSeqs = invalid :: rest := by
    cases hretx : c.retxSeqs with
    | nil =>
      rw [hretx] at hhead
      cases hhead
    | cons first rest =>
      rw [hretx] at hhead
      exact ⟨rest, by rw [Option.some.inj hhead]⟩
  have hnodup := h.nodup_retx
  rw [hretx] at hnodup
  have hout : invalid ∉ rest := (nodup_cons.mp hnodup).1
  have htimeouts : invalid ∉ c.seqTimeouts.map fst := h.disjoint invalid (hretx ▸ mem_cons_self)
  rw [sendPacket, if_pos hactive, takeSeq]
  simp only [hretx, head?_cons, Option.getD_some, tail_cons, if_true]
  split
  · rename_i hdone
    split at hdone
    · cases hdone
      exact ⟨by simp, hout, htimeouts⟩
    · cases hdone
  · rename_i hdone
    split at hdone
    · cases hdone
    · rename_i hnew
      cases hdone
      have hne : c.seq ≠ invalid := by
        intro hseq
        exact hnew ⟨fun hmax => hother ⟨hseq, hmax⟩, hseq ▸ le_invalid c.seqMax⟩
      refine ⟨fun heq => hne (Option.some.inj heq), hout, ?_⟩
      show invalid ∉ (insertTimeout c.seq c.now c.seqTimeouts).map fst
      rw [mem_insertTimeout, not_or]
      exact ⟨hne.symm, htimeouts⟩

theorem containers_onData (E : Estimator ρ) (M : Methods ρ ε) (c : Consumer ρ ε) (seq : UInt32) :
    (c.onData E M seq).1.retxSeqs = (c.receive E seq).1.retxSeqs ∧
      (c.onData E M seq).1.seqTimeouts = (c.receive E seq).1.seqTimeouts := by
  rw [onData]
  dsimp only
  split <;> exact ⟨rfl, rfl⟩

/-! ### Whole runs -/

/-- A consumer, with what has become of the numbers: none if a number has not been requested,
and otherwise whether its Data has arrived since it was sent last. -/
structure Requests (ρ ε : Type) where
  consumer : Consumer ρ ε
  answered : UInt32 → Option Bool

namespace Requests

inductive Op
  | event (e : Event)
  /-- A derived class changes `m_seqMax`. -/
  | setSeqMax (seqMax : UInt32)

def next (E : Estimator ρ) (M : Methods ρ ε) (s : Requests ρ ε) : Op → Requests ρ ε
  | .event .send =>
      let sent := (Consumer.sendPacket M { s.consumer with sendEvent := none }).2
      ⟨s.consumer.next E M .send,
        sent.elim s.answered fun seq => Function.update s.answered seq (some false)⟩
  | .event (.data seq) =>
      ⟨s.consumer.next E M (.data seq),
        Function.update s.answered seq ((s.answered seq).map fun _ => true)⟩
  | .event e => ⟨s.consumer.next E M e, s.answered⟩
  | .setSeqMax seqMax => ⟨{ s.consumer with seqMax := seqMax }, s.answered⟩

def guard (s : Requests ρ ε) : Op → Prop
  | .event e => s.consumer.guard e
  | .setSeqMax _ => True

instance (s : Requests ρ ε) (op : Op) : Decidable (s.guard op) := by
  cases op <;> rw [guard] <;> infer_instance

/-- Any derived class, any estimator, any numbers to begin with. -/
def machine (E : Estimator ρ) (M : Methods ρ ε) (start : Consumer ρ ε) :
    System (Requests ρ ε) Op where
  init s := s = ⟨start, fun _ => none⟩
  guard := guard
  next := next E M

instance (E : Estimator ρ) (M : Methods ρ ε) (start : Consumer ρ ε) (s : Requests ρ ε) (op : Op) :
    Decidable ((machine E M start).guard s op) :=
  inferInstanceAs (Decidable (s.guard op))

/-- No request is forgotten: a number that is not answered is in one of the containers, and a
number that is answered is in none. -/
def Remembers (s : Requests ρ ε) : Prop :=
  ∀ seq,
    (s.answered seq = some false →
      Xor (seq ∈ s.consumer.seqTimeouts.map Prod.fst) (seq ∈ s.consumer.retxSeqs)) ∧
    (s.answered seq = some true →
      seq ∉ s.consumer.seqTimeouts.map Prod.fst ∧ seq ∉ s.consumer.retxSeqs)

/-- The step overlooks a number. -/
def Overlooks (s : Requests ρ ε) : Op → Prop
  | .event .send => s.consumer.Overlooks
  | _ => False

variable {E : Estimator ρ} {M : Methods ρ ε} {s : Requests ρ ε}

section

variable (h : s.consumer.Waits fun seq => s.answered seq = some false)
include h

theorem remembers_of_waits : s.Remembers := by
  intro seq
  refine ⟨fun hwaiting => ?_, fun hanswered => ?_⟩
  · rcases (h.mem_iff seq).mpr hwaiting with hretx | htimeouts
    · exact .inr ⟨hretx, h.disjoint seq hretx⟩
    · exact .inl ⟨htimeouts, fun hretx => h.disjoint seq hretx htimeouts⟩
  · have hout : ¬ (seq ∈ s.consumer.retxSeqs ∨ seq ∈ s.consumer.seqTimeouts.map fst) := by
      rw [h.mem_iff, hanswered]
      simp
    rw [not_or] at hout
    exact hout.symm

theorem waits_next {op : Op} (hguard : s.guard op) (hkeeps : ¬ s.Overlooks op) :
    (s.next E M op).consumer.Waits fun seq => (s.next E M op).answered seq = some false := by
  cases op with
  | setSeqMax seqMax => exact h.congr rfl rfl fun _ => Iff.rfl
  | event e =>
    cases e with
    | send =>
      have hidle : Waits { s.consumer with sendEvent := none } _ := h.congr rfl rfl fun _ => Iff.rfl
      refine (hidle.sendPacket M hkeeps).congr rfl rfl fun seq => ?_
      rw [Requests.next]
      dsimp only
      cases (Consumer.sendPacket M { s.consumer with sendEvent := none }).2 with
      | none => simp
      | some sent =>
        rw [Option.elim_some, update_apply, Option.some.injEq]
        by_cases hseq : seq = sent
        · simp [hseq]
        · simp [hseq, Ne.symm hseq]
    | data seq =>
      obtain ⟨hretx, htimeouts⟩ := containers_onData E M s.consumer seq
      refine (h.receive hguard E seq).congr hretx htimeouts fun other => ?_
      rw [Requests.next]
      dsimp only
      rw [update_apply]
      by_cases hother : other = seq
      · simp [hother]
      · simp [hother]
    | check => exact (h.checkTimeouts E M _ _).congr rfl rfl fun _ => Iff.rfl
    | elapse time | stop => exact h.congr rfl rfl fun _ => Iff.rfl

/-- A number that is overlooked is forgotten. -/
theorem not_remembers_of_overlooks
    {op : Op} (hoverlooks : s.Overlooks op) : ¬ (s.next E M op).Remembers := by
  intro hremembers
  cases op with
  | setSeqMax seqMax => exact hoverlooks
  | event e =>
    cases e with
    | data seq | check | elapse time | stop => exact hoverlooks
    | send =>
      have hidle : Waits { s.consumer with sendEvent := none } _ := h.congr rfl rfl fun _ => Iff.rfl
      obtain ⟨hsent, hretx, htimeouts⟩ :=
        Consumer.Overlooks.lost (c := { s.consumer with sendEvent := none }) hoverlooks hidle M
      have hwaiting : s.answered invalid = some false :=
        (h.mem_iff invalid).mp (.inl (mem_of_mem_head? hoverlooks.2.1))
      have hstill : (s.next E M (.event .send)).answered invalid = some false := by
        rw [Requests.next]
        dsimp only
        generalize (Consumer.sendPacket M { s.consumer with sendEvent := none }).2 = sent
          at hsent ⊢
        cases sent with
        | none => exact hwaiting
        | some seq =>
          have hne : invalid ≠ seq := fun heq => hsent (congrArg some heq.symm)
          rw [Option.elim_some, update_of_ne hne, hwaiting]
      rcases (hremembers invalid).1 hstill with hone | hone
      · exact htimeouts hone.1
      · exact hretx hone.1

end

/-- **No request is forgotten**, all along a run, exactly if no step overlooks a number. -/
theorem remembers_iff {estimate : ρ} {seq seqMax : UInt32} {ext : ε} {ops : List Op}
    (hops : (machine E M (startApplication M estimate seq seqMax ext)).Enabled
      ⟨startApplication M estimate seq seqMax ext, fun _ => none⟩ ops) :
    (∀ before after, ops = before ++ after →
        Remembers (before.foldl (next E M)
          ⟨startApplication M estimate seq seqMax ext, fun _ => none⟩)) ↔
      ∀ before op after, ops = before ++ op :: after →
        ¬ Overlooks (before.foldl (next E M)
          ⟨startApplication M estimate seq seqMax ext, fun _ => none⟩) op := by
  refine hops.forall_iff (I := fun s => s.consumer.Waits fun seq => s.answered seq = some false)
    (P := Remembers) (K := fun s op => ¬ s.Overlooks op) ?_ (fun s hs => remembers_of_waits hs)
    (fun s op hs hguard hkeeps => waits_next hs hguard hkeeps)
    (fun s op hs hguard hremembers hoverlooks =>
      not_remembers_of_overlooks hs hoverlooks hremembers)
  refine ⟨List.nodup_nil, List.nodup_nil, fun seq hseq => absurd hseq List.not_mem_nil,
    fun seq => ?_⟩
  show seq ∈ [] ∨ seq ∈ [] ↔ none = some false
  simp

end Requests

/-- `ConsumerCbr`, without a randomizer: its member is `m_firstTime`, and a packet is sent after
each `period`. -/
def cbr (ρ : Type) (period : ℕ) : Methods ρ Bool where
  schedule c :=
    if c.ext then (some c.now, false)
    else (some (c.sendEvent.getD (c.now + period)), false)
  willSendOut ext := ext
  timeout ext := ext
  data ext := ext
  dataSchedules := false

namespace Requests

/-- A `ConsumerCbr` with a `StartSeq` of -1. -/
def lastSeq : Requests MeanDeviation Bool :=
  ⟨startApplication (cbr MeanDeviation 1000000000) .construct 4294967295 4294967295 true,
    fun _ => none⟩

/-- The last number is sent, its time is over, and another number is sent. -/
def lastSeqOps : List Op :=
  [.event .send, .event (.elapse 1000000000), .event .check, .event .send]

/-- The estimator with its default attributes. -/
abbrev estimator : Estimator MeanDeviation := MeanDeviation.estimator MeanDeviation.defaults

theorem enabled_lastSeqOps :
    (machine estimator (cbr MeanDeviation 1000000000) lastSeq.consumer).Enabled lastSeq
      lastSeqOps := by
  decide +kernel

/-- The last number is to be sent again when another number is sent. -/
theorem remembers_iff_lastSeqOps :
    ¬ ∀ before after, lastSeqOps = before ++ after →
      Remembers (before.foldl (next estimator (cbr MeanDeviation 1000000000)) lastSeq) := by
  intro h
  refine (remembers_iff enabled_lastSeqOps).mp h lastSeqOps.dropLast (.event .send) [] rfl ?_
  show _ ∧ _ ∧ ¬ (_ ∧ _)
  decide +kernel

/-- The number is not answered, and in neither container. -/
theorem last_seq_forgotten :
    ∃ s, (machine estimator (cbr MeanDeviation 1000000000) lastSeq.consumer).Reachable s ∧
      s.answered 4294967295 = some false ∧
      4294967295 ∉ s.consumer.seqTimeouts.map Prod.fst ∧
      4294967295 ∉ s.consumer.retxSeqs :=
  ⟨_, (System.Reachable.of_init rfl).foldl enabled_lastSeqOps, by decide +kernel,
    by decide +kernel, by decide +kernel⟩

end Requests

end Consumer

end ValProofs
