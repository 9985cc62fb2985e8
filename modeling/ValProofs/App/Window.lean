import ValProofs.App.Consumer

/-!
`ConsumerWindow`: no more Interests than the window are to be outstanding.

The class counts the Interests in flight by itself, next to the container `m_seqTimeouts` of its
base class. It counts one less for a Data whether or not the number was in the container, so a
Data that comes twice, or after the time of its number is over, is counted for another Interest.

The window is looked at when a packet is scheduled, not when it is sent. With a window of zero a
packet is scheduled all the same, and a timeout may set the window back while a packet is
scheduled.
-/

namespace ValProofs

open Lib List Prod

/-- The members of `ConsumerWindow`. -/
structure WindowMembers where
  /-- `m_window`, a `double` without a fraction. -/
  window : ℕ
  /-- `m_inFlight`. -/
  inFlight : UInt32
  /-- `m_initialWindow`. -/
  initialWindow : UInt32
  /-- `m_setInitialWindowOnTimeout`. -/
  setInitialWindowOnTimeout : Bool

namespace WindowMembers

/-- `if (m_inFlight > 0) m_inFlight--`. -/
def land (w : WindowMembers) : WindowMembers :=
  { w with inFlight := if 0 < w.inFlight then w.inFlight - 1 else w.inFlight }

theorem toNat_land (w : WindowMembers) : w.land.inFlight.toNat = w.inFlight.toNat - 1 := by
  rw [land]
  dsimp only
  split
  · rename_i hpos
    have hone : (1 : UInt32) ≤ w.inFlight := by
      rw [UInt32.le_iff_toNat_le]
      exact UInt32.lt_iff_toNat_lt.mp hpos
    rw [UInt32.toNat_sub_of_le _ _ hone]
    rfl
  · rename_i hzero
    have hle : w.inFlight.toNat ≤ 0 := not_lt.mp fun hlt => hzero (UInt32.lt_iff_toNat_lt.mpr hlt)
    omega

/-- There is no room in the window, and it is not zero. -/
def Full (w : WindowMembers) : Prop := w.window ≠ 0 ∧ w.window ≤ w.inFlight.toNat

/-- `SetWindow(window)`, with nothing in flight. -/
def construct (window : UInt32) (setInitialWindowOnTimeout : Bool) : WindowMembers :=
  ⟨window.toNat, 0, window, setInitialWindowOnTimeout⟩

end WindowMembers

namespace Consumer

variable {ρ : Type}

/-- `ConsumerWindow`. With a window of zero a packet is sent after a while all the same. -/
def window (E : Estimator ρ) : Methods ρ WindowMembers where
  schedule c :=
    if c.ext.window = 0 then
      (some (c.now + min 500000000 (E.retransmitTimeout c.rtt.estimate)), c.ext)
    else if c.ext.window ≤ c.ext.inFlight.toNat then (c.sendEvent, c.ext)
    else (some c.now, c.ext)
  willSendOut w := { w with inFlight := w.inFlight + 1 }
  timeout w :=
    { w.land with
      window := if w.setInitialWindowOnTimeout then w.initialWindow.toNat else w.window }
  data w := { w.land with window := addOne w.window }
  dataSchedules := true

/-- There is something to be sent. -/
def HasNext {ε : Type} (c : Consumer ρ ε) : Prop :=
  c.retxSeqs ≠ [] ∨ c.seqMax = invalid ∨ c.seq < c.seqMax

/-- The number that `SendPacket()` sends if there is one: the least of those to be sent again,
or a new one. -/
def nextSeq {ε : Type} (c : Consumer ρ ε) : UInt32 :=
  if c.retxSeqs.head?.getD invalid = invalid then c.seq else c.retxSeqs.head?.getD invalid

/-- `SendPacket()` finds a number. -/
def Sends {ε : Type} (c : Consumer ρ ε) : Prop :=
  c.retxSeqs.head?.getD invalid ≠ invalid ∨ c.seqMax = invalid ∨ c.seq < c.seqMax

instance {ε : Type} (c : Consumer ρ ε) : Decidable c.Sends :=
  inferInstanceAs (Decidable (_ ∨ _ ∨ _))

/-! ### One event -/

variable {ε : Type}

theorem takeSeq_snd (c : Consumer ρ ε) :
    c.takeSeq.2 = if c.Sends then some c.nextSeq else none := by
  rw [takeSeq, nextSeq]
  dsimp only
  by_cases hhead : c.retxSeqs.head?.getD invalid = invalid
  · have hiff : c.Sends ↔ ¬ (c.seqMax ≠ invalid ∧ c.seqMax ≤ c.seq) := by
      rw [Sends, not_and_or, not_ne_iff, UInt32.not_le]
      exact or_iff_right fun hne => hne hhead
    simp only [if_pos hhead, hiff, ite_not]
    split <;> rfl
  · have hsends : c.Sends := .inl hhead
    simp only [if_neg hhead, if_pos hsends]

/-- The number that is sent is not waited for any more. -/
theorem Waits.exists_tail {waiting : UInt32 → Prop} {c : Consumer ρ ε} (h : c.Waits waiting)
    (seq : UInt32) :
    ∃ waiting', Waits { c with retxSeqs := c.retxSeqs.tail, seq := seq } waiting' := by
  cases hretx : c.retxSeqs with
  | nil => exact ⟨waiting, h.congr hretx.symm rfl fun _ => Iff.rfl⟩
  | cons first rest => exact ⟨_, (h.tail hretx).congr rfl rfl fun _ => Iff.rfl⟩

variable {seq : UInt32}

theorem sorted_insertSeq {seqs : List UInt32} (h : seqs.Pairwise fun a b => a.toNat ≤ b.toNat) :
    (insertSeq seq seqs).Pairwise fun a b => a.toNat ≤ b.toNat := by
  rw [insertSeq]
  split
  · exact h
  · exact pairwise_orderedInsert h seq

/-- If the greatest number is the first, it is the only one. -/
theorem tail_eq_nil {seqs : List UInt32} (hsorted : seqs.Pairwise fun a b => a.toNat ≤ b.toNat)
    (hnodup : seqs.Nodup) (hhead : seqs.head?.getD invalid = invalid) : seqs.tail = [] := by
  cases seqs with
  | nil => rfl
  | cons first rest =>
    obtain rfl : first = invalid := hhead
    refine eq_nil_iff_forall_not_mem.mpr fun seq hseq => ?_
    have hle := (pairwise_cons.mp hsorted).1 seq hseq
    have hsame : seq = invalid :=
      UInt32.le_antisymm (le_invalid seq) (UInt32.le_iff_toNat_le.mpr hle)
    exact (nodup_cons.mp hnodup).1 (hsame ▸ hseq)

/-- What is in flight is in the container. -/
structure Counted (c : Consumer ρ WindowMembers) : Prop where
  inFlight : c.ext.inFlight.toNat = c.seqTimeouts.length
  sorted : c.retxSeqs.Pairwise fun a b => a.toNat ≤ b.toNat
  waits : ∃ waiting, c.Waits waiting

/-- And a packet is scheduled if it may be. -/
structure Balanced (c : Consumer ρ WindowMembers) : Prop extends Counted c where
  idle : c.sendEvent = none → c.active = true → c.HasNext → c.ext.window ≤ c.seqTimeouts.length

variable {E : Estimator ρ}

theorem ext_scheduleNextPacket (c : Consumer ρ WindowMembers) :
    (c.scheduleNextPacket (window E)).ext = c.ext := by
  simp only [scheduleNextPacket, window]
  split
  · rfl
  · split <;> rfl

variable {c : Consumer ρ WindowMembers}

/-- The clock and the event do not count. -/
theorem Counted.congr (h : c.Counted) (now : ℕ) (active : Bool) (sendEvent : Option ℕ) :
    Counted { c with now := now, active := active, sendEvent := sendEvent } :=
  ⟨h.inFlight, h.sorted, h.waits.imp fun _ hwaits => hwaits.congr rfl rfl fun _ => Iff.rfl⟩

/-- After a packet has been scheduled. -/
theorem Counted.scheduleNextPacket (h : c.Counted) :
    (c.scheduleNextPacket (window E)).Balanced := by
  refine ⟨⟨ext_scheduleNextPacket (E := E) c ▸ h.inFlight, h.sorted,
    h.waits.imp fun _ hwaits => hwaits.scheduleNextPacket _⟩, fun hnone _ _ => ?_⟩
  rw [ext_scheduleNextPacket]
  show c.ext.window ≤ c.seqTimeouts.length
  rw [← h.inFlight]
  by_contra hlt
  simp only [Consumer.scheduleNextPacket, window] at hnone
  split at hnone
  · cases hnone
  · cases hnone

theorem Balanced.onTimeout (h : c.Balanced) {time : ℕ} {rest : List (UInt32 × ℕ)}
    (hfirst : c.seqTimeouts = (seq, time) :: rest) :
    (Consumer.onTimeout E (window E) { c with seqTimeouts := rest } seq).Balanced := by
  refine Counted.scheduleNextPacket ⟨?_, sorted_insertSeq h.sorted, h.waits.imp fun _ hwaits =>
    (hwaits.onTimeout hfirst E (window E)).congr rfl rfl fun _ => Iff.rfl⟩
  show c.ext.land.inFlight.toNat = rest.length
  rw [WindowMembers.toNat_land, h.inFlight, hfirst]
  rfl

theorem Balanced.checkTimeouts (h : c.Balanced) (rto turns : ℕ) :
    (Consumer.checkTimeouts E (window E) rto turns c).1.Balanced :=
  checkTimeouts_invariant (fun _ _ _ _ hc hfirst => Balanced.onTimeout hc hfirst) h rto turns

theorem onData_window (hactive : c.active = true) (seq : UInt32) :
    (c.onData E (window E) seq).1 = scheduleNextPacket (window E)
      { c with
        seqTimeouts := eraseKey fst seq c.seqTimeouts
        retxSeqs := c.retxSeqs.erase seq
        rtt := (c.rtt.ackSeq E c.now seq).1
        ext := { c.ext.land with window := addOne c.ext.window } } := by
  rw [onData, receive, if_pos hactive]
  rfl

/-- A Data is counted right if its number is in the container, or if there is none in it. -/
theorem Counted.inFlight_onData_iff (h : c.Counted) (hactive : c.active = true) (seq : UInt32) :
    (c.onData E (window E) seq).1.ext.inFlight.toNat =
        (c.onData E (window E) seq).1.seqTimeouts.length ↔
      seq ∈ c.seqTimeouts.map fst ∨ c.seqTimeouts = [] := by
  rw [onData_window hactive, ext_scheduleNextPacket]
  show c.ext.land.inFlight.toNat = (eraseKey fst seq c.seqTimeouts).length ↔ _
  rw [WindowMembers.toNat_land, h.inFlight]
  by_cases hmem : seq ∈ c.seqTimeouts.map fst
  · rw [length_eraseKey hmem]
    simp [hmem]
  · rw [eraseKey_of_not_mem hmem, ← length_eq_zero_iff]
    simp only [hmem, false_or]
    omega

theorem Counted.onData (h : c.Counted) (hactive : c.active = true)
    (hseq : seq ∈ c.seqTimeouts.map fst ∨ c.seqTimeouts = []) :
    (c.onData E (window E) seq).1.Balanced := by
  have hinFlight := (h.inFlight_onData_iff (E := E) hactive seq).mpr hseq
  rw [onData_window hactive, ext_scheduleNextPacket] at hinFlight
  rw [onData_window hactive]
  refine Counted.scheduleNextPacket ⟨hinFlight, h.sorted.sublist erase_sublist, ?_⟩
  obtain ⟨waiting, hwaits⟩ := h.waits
  have hreceived := hwaits.receive hactive E seq
  rw [receive, if_pos hactive] at hreceived
  exact ⟨_, hreceived.congr rfl rfl fun _ => Iff.rfl⟩

/-- A number that is sent again is not in the container. -/
theorem Counted.nextSeq_not_mem_iff (h : c.Counted) :
    c.nextSeq ∉ c.seqTimeouts.map fst ↔
      (c.retxSeqs.head?.getD invalid = invalid → c.seq ∉ c.seqTimeouts.map fst) := by
  rw [nextSeq]
  split
  · rename_i hhead
    simp [hhead]
  · rename_i hhead
    refine iff_of_true ?_ fun hnew => absurd hnew hhead
    obtain ⟨waiting, hwaits⟩ := h.waits
    cases hretx : c.retxSeqs with
    | nil => exact absurd (by rw [hretx]; rfl) hhead
    | cons first rest => exact hwaits.disjoint first (hretx ▸ mem_cons_self)

theorem sendPacket_of_sends (hactive : c.active = true) (hsends : c.Sends) :
    ∃ seq', c.sendPacket (window E) =
      (scheduleNextPacket (window E) (willSendOutInterest (window E)
        { c with retxSeqs := c.retxSeqs.tail, seq := seq' } c.nextSeq), some c.nextSeq) := by
  have htaken : c.takeSeq.2 = some c.nextSeq := by rw [takeSeq_snd, if_pos hsends]
  obtain ⟨seq', hc⟩ := c.exists_takeSeq
  exact ⟨seq', by rw [sendPacket_of_some hactive htaken, hc]⟩

theorem sendPacket_of_not_sends (hactive : c.active = true) (hsends : ¬ c.Sends) :
    c.sendPacket (window E) = ({ c with retxSeqs := c.retxSeqs.tail }, none) := by
  have htaken : c.takeSeq.2 = none := by rw [takeSeq_snd, if_neg hsends]
  rw [sendPacket_of_none hactive htaken, (takeSeq_of_none htaken).1]

/-- A packet is counted right if its number is not in the container yet. -/
theorem Counted.inFlight_sendPacket_iff (h : c.Counted) (hactive : c.active = true)
    (hsends : c.Sends) :
    (c.sendPacket (window E)).1.ext.inFlight.toNat =
        (c.sendPacket (window E)).1.seqTimeouts.length ↔
      c.nextSeq ∉ c.seqTimeouts.map fst ∧ c.seqTimeouts.length + 1 < 2 ^ 32 := by
  obtain ⟨seq', heq⟩ := sendPacket_of_sends (E := E) hactive hsends
  rw [heq]
  dsimp only
  rw [ext_scheduleNextPacket]
  show (c.ext.inFlight + 1).toNat = (insertTimeout c.nextSeq c.now c.seqTimeouts).length ↔ _
  have hlt := c.ext.inFlight.toNat_lt
  rw [UInt32.toNat_add, show UInt32.toNat 1 = 1 from rfl, h.inFlight, insertTimeout]
  rw [h.inFlight] at hlt
  split
  · rename_i hmem
    simp only [hmem, not_true_eq_false, false_and, iff_false]
    omega
  · rename_i hmem
    rw [orderedInsert_length]
    simp only [hmem, not_false_eq_true, true_and]
    omega

theorem Counted.nextSeq_not_mem_tail (h : c.Counted) : c.nextSeq ∉ c.retxSeqs.tail := by
  obtain ⟨waiting, hwaits⟩ := h.waits
  have hnodup := hwaits.nodup_retx
  rw [nextSeq]
  split
  · rename_i hhead
    rw [tail_eq_nil h.sorted hnodup hhead]
    exact not_mem_nil
  · rename_i hhead
    cases hretx : c.retxSeqs with
    | nil => exact not_mem_nil
    | cons first rest =>
      rw [hretx] at hnodup
      exact (nodup_cons.mp hnodup).1

theorem Counted.sendPacket (h : c.Counted)
    (hcounts : c.active = true → c.Sends →
      c.nextSeq ∉ c.seqTimeouts.map fst ∧ c.seqTimeouts.length + 1 < 2 ^ 32) :
    (c.sendPacket (window E)).1.Balanced := by
  obtain ⟨waiting, hwaits⟩ := h.waits
  cases hactive : c.active with
  | false =>
    rw [sendPacket_of_inactive hactive]
    exact ⟨h, fun _ htrue => absurd (hactive.symm.trans htrue) Bool.false_ne_true⟩
  | true =>
    have hsorted := h.sorted.sublist (tail_sublist _)
    by_cases hsends : c.Sends
    · have hinFlight := (h.inFlight_sendPacket_iff (E := E) hactive hsends).mpr
        (hcounts hactive hsends)
      obtain ⟨seq', heq⟩ := sendPacket_of_sends (E := E) hactive hsends
      rw [heq] at hinFlight ⊢
      dsimp only at hinFlight ⊢
      rw [ext_scheduleNextPacket] at hinFlight
      obtain ⟨waiting', hwaits'⟩ := hwaits.exists_tail seq'
      exact Counted.scheduleNextPacket ⟨hinFlight, hsorted,
        _, hwaits'.willSendOutInterest (window E) c.nextSeq h.nextSeq_not_mem_tail⟩
    · rw [sendPacket_of_not_sends hactive hsends]
      refine ⟨⟨h.inFlight, hsorted, hwaits.exists_tail c.seq⟩, fun _ _ hnext => ?_⟩
      obtain ⟨hhead, hnew⟩ := not_or.mp hsends
      refine absurd ?_ (hnext.resolve_right hnew)
      exact tail_eq_nil h.sorted hwaits.nodup_retx (not_ne_iff.mp hhead)

/-- When the window is full the event is left as it is. -/
theorem sendEvent_of_full (hfull : c.ext.Full) :
    (c.scheduleNextPacket (window E)).sendEvent = c.sendEvent := by
  simp only [Consumer.scheduleNextPacket, window]
  rw [if_neg hfull.1, if_pos hfull.2]

/-- No packet is scheduled by one that is sent when the window is full. -/
theorem sendEvent_sendPacket (hidle : c.sendEvent = none)
    (hfull : (c.sendPacket (window E)).1.ext.Full) :
    (c.sendPacket (window E)).1.sendEvent = none := by
  cases hactive : c.active with
  | false =>
    rw [sendPacket_of_inactive hactive]
    exact hidle
  | true =>
    by_cases hsends : c.Sends
    · obtain ⟨seq', heq⟩ := sendPacket_of_sends (E := E) hactive hsends
      rw [heq] at hfull ⊢
      dsimp only at hfull ⊢
      rw [ext_scheduleNextPacket] at hfull
      exact (sendEvent_of_full hfull).trans hidle
    · rw [sendPacket_of_not_sends hactive hsends]
      exact hidle

/-- Without the attribute, timeouts leave an event only if the window was full before. -/
theorem not_full_checkTimeouts (hflag : c.ext.setInitialWindowOnTimeout = false)
    (h : c.sendEvent.isSome → ¬ c.ext.Full) (rto turns : ℕ) :
    let c' := (checkTimeouts E (window E) rto turns c).1
    c'.sendEvent.isSome → ¬ c'.ext.Full := by
  refine (checkTimeouts_invariant (I := fun c : Consumer ρ WindowMembers =>
    c.ext.setInitialWindowOnTimeout = false ∧ (c.sendEvent.isSome → ¬ c.ext.Full))
    ?_ ⟨hflag, h⟩ rto turns).2
  rintro c seq time rest ⟨hflag, h⟩ -
  rw [onTimeout, ext_scheduleNextPacket]
  refine ⟨hflag, fun hpending hfull => ?_⟩
  rw [sendEvent_of_full hfull] at hpending
  have hwindow : ((window E).timeout c.ext).window = c.ext.window := by
    simp [window, hflag]
  have hle : ((window E).timeout c.ext).inFlight.toNat ≤ c.ext.inFlight.toNat := by
    show c.ext.land.inFlight.toNat ≤ _
    rw [WindowMembers.toNat_land]
    omega
  rw [WindowMembers.Full, hwindow] at hfull
  exact h hpending ⟨hfull.1, hfull.2.trans hle⟩

theorem checkTimeouts_of_nil {M : Methods ρ ε} {c : Consumer ρ ε} {rto turns : ℕ}
    (h : (checkTimeouts E M rto turns c).2 = []) : (checkTimeouts E M rto turns c).1 = c := by
  cases turns with
  | zero => rfl
  | succ turns =>
    rw [checkTimeouts] at h ⊢
    split
    · rfl
    · rename_i hcons
      simp only [hcons] at h
      split
      · rename_i hover
        rw [if_pos hover] at h
        cases h
      · rfl

/-! ### Whole runs -/

/-- What `m_sendEvent` is pending for. -/
inductive Origin
  /-- There was room in the window when it was scheduled. -/
  | room
  /-- It was scheduled with a window of zero. -/
  | poll
  /-- A timeout has set the window back since then. -/
  | setBack
  deriving DecidableEq

/-- After `ScheduleNextPacket()`. With a window of zero, or with room in the window, the event is
scheduled anew; when the window is full it is left as it is. -/
def Origin.after (origin : Origin) (w : WindowMembers) (setBack : Bool) : Origin :=
  if w.window = 0 then .poll
  else if w.window ≤ w.inFlight.toNat then if setBack then .setBack else origin
  else .room

theorem Origin.after_eq_room_iff {origin : Origin} {w : WindowMembers} {setBack : Bool}
    (h : w.Full → setBack = false → origin ≠ .room) :
    origin.after w setBack = .room ↔ w.inFlight.toNat < w.window := by
  rw [after]
  by_cases hzero : w.window = 0
  · simp [hzero]
  · rw [if_neg hzero]
    by_cases hfull : w.window ≤ w.inFlight.toNat
    · rw [if_pos hfull]
      refine iff_of_false ?_ (Nat.not_lt.mpr hfull)
      cases setBack with
      | false => exact h ⟨hzero, hfull⟩ rfl
      | true => exact nofun
    · rw [if_neg hfull]
      exact iff_of_true rfl (Nat.lt_of_not_le hfull)

/-- A consumer, with whether there were fewer Interests outstanding than the window when one was
sent last, and what its event is pending for. -/
structure WindowRun (ρ : Type) where
  consumer : Consumer ρ WindowMembers
  within : Bool
  origin : Origin

namespace WindowRun

/-- A timeout sets the window back. -/
def setsBack (E : Estimator ρ) (s : WindowRun ρ) : Event → Bool
  | .check => s.consumer.ext.setInitialWindowOnTimeout &&
      !(s.consumer.checkRetxTimeout E (window E)).2.isEmpty
  | _ => false

def next (E : Estimator ρ) (s : WindowRun ρ) (e : Event) : WindowRun ρ where
  consumer := s.consumer.next E (window E) e
  within :=
    match e with
    | .send =>
        (sendPacket (window E) { s.consumer with sendEvent := none }).2.elim s.within fun _ =>
          s.consumer.seqTimeouts.length < s.consumer.ext.window
    | _ => s.within
  origin := s.origin.after (s.consumer.next E (window E) e).ext (s.setsBack E e)

/-- As it is started, with the attributes `Window` and `SetInitialWindowOnTimeout`. -/
def start (E : Estimator ρ) (estimate : ρ) (seq seqMax size : UInt32) (flag : Bool) :
    WindowRun ρ :=
  let members := WindowMembers.construct size flag
  ⟨startApplication (window E) estimate seq seqMax members, true, Origin.room.after members false⟩

def machine (E : Estimator ρ) (start : WindowRun ρ) : System (WindowRun ρ) Event where
  init s := s = start
  guard s := s.consumer.guard
  next := next E

instance (E : Estimator ρ) (start s : WindowRun ρ) (e : Event) :
    Decidable ((machine E start).guard s e) :=
  inferInstanceAs (Decidable (s.consumer.guard e))

/-- The Interests in flight are those in the container; one is sent only if there were fewer than
the window; and if there are fewer, and there is something to be sent, it is going to be. -/
def Accounts (s : WindowRun ρ) : Prop :=
  s.consumer.ext.inFlight.toNat = s.consumer.seqTimeouts.length ∧ s.within = true ∧
    (s.consumer.active = true → s.consumer.HasNext →
      s.consumer.seqTimeouts.length < s.consumer.ext.window → s.consumer.sendEvent.isSome)

/-- When a packet is sent: it has not been scheduled with a window of zero, nor before a timeout
set the window back; not all that can be counted are outstanding; and a new number is not one of
them, as it may be once `m_seq` has come round. When a Data comes: its number is outstanding, or
none is. -/
def Counts (s : WindowRun ρ) : Event → Prop
  | .send => s.consumer.active = true → s.consumer.Sends →
      s.origin = .room ∧ s.consumer.seqTimeouts.length + 1 < 2 ^ 32 ∧
        (s.consumer.retxSeqs.head?.getD invalid = invalid →
          s.consumer.seq ∉ s.consumer.seqTimeouts.map Prod.fst)
  | .data seq => seq ∈ s.consumer.seqTimeouts.map Prod.fst ∨ s.consumer.seqTimeouts = []
  | _ => True

instance (s : WindowRun ρ) : (e : Event) → Decidable (s.Counts e)
  | .send => inferInstanceAs (Decidable (_ → _ → _ ∧ _ ∧ (_ → _)))
  | .data _ => inferInstanceAs (Decidable (_ ∨ _))
  | .check | .elapse _ | .stop => inferInstanceAs (Decidable True)

/-- The accounts are right so far, and the event is pending for room just if there is some. -/
structure Kept (s : WindowRun ρ) : Prop where
  balanced : s.consumer.Balanced
  within : s.within = true
  origin : s.consumer.sendEvent.isSome →
    (s.origin = .room ↔ s.consumer.ext.inFlight.toNat < s.consumer.ext.window)

variable {E : Estimator ρ} {s : WindowRun ρ}

theorem kept_start (E : Estimator ρ) (estimate : ρ) (seq seqMax size : UInt32) (flag : Bool) :
    (start E estimate seq seqMax size flag).Kept where
  balanced := by
    refine Counted.scheduleNextPacket ⟨rfl, .nil, fun _ => False, nodup_nil, nodup_nil, ?_, ?_⟩
    · exact fun _ hseq => absurd hseq not_mem_nil
    · simp
  within := rfl
  origin := by
    intro hpending
    rw [start, startApplication, ext_scheduleNextPacket]
    refine Origin.after_eq_room_iff fun hfull => ?_
    rw [start, startApplication, sendEvent_of_full hfull] at hpending
    cases hpending

namespace Kept

variable (h : s.Kept)
include h

theorem accounts : s.Accounts := by
  refine ⟨h.balanced.inFlight, h.within, fun hactive hnext hlt => ?_⟩
  by_contra hnone
  have hle := h.balanced.idle (Option.not_isSome_iff_eq_none.mp hnone) hactive hnext
  omega

/-- The consumer when its event is running. -/
theorem sending : Consumer.Counted { s.consumer with sendEvent := none } :=
  h.balanced.toCounted.congr _ _ none

variable {e : Event}

/-- There is room in the window when the event runs just if it was scheduled for it. -/
theorem room_iff (hguard : s.consumer.guard .send) :
    s.origin = .room ↔ s.consumer.seqTimeouts.length < s.consumer.ext.window := by
  rw [← h.balanced.inFlight]
  exact h.origin (Option.isSome_of_eq_some hguard)

theorem balanced_next (hguard : s.consumer.guard e) (hcounts : s.Counts e) :
    (s.next E e).consumer.Balanced := by
  cases e with
  | send =>
    refine h.sending.sendPacket fun hactive hsends => ?_
    obtain ⟨-, hlt, hnew⟩ := hcounts hactive hsends
    exact ⟨h.sending.nextSeq_not_mem_iff.mpr hnew, hlt⟩
  | data seq => exact h.balanced.toCounted.onData hguard hcounts
  | check => exact h.balanced.checkTimeouts _ _
  | elapse time => exact ⟨h.balanced.toCounted.congr time _ _, h.balanced.idle⟩
  | stop => exact ⟨h.balanced.toCounted.congr _ false none, fun _ hactive => by cases hactive⟩

/-- What is sent is sent within the window just if the event was scheduled for room. -/
theorem within_send_iff (hguard : s.consumer.guard .send) :
    (s.next E .send).within = true ↔
      (s.consumer.active = true → s.consumer.Sends → s.origin = .room) := by
  rw [h.room_iff hguard, WindowRun.next]
  dsimp only
  by_cases hactive : s.consumer.active = true
  · by_cases hsends : s.consumer.Sends
    · obtain ⟨seq', heq⟩ := sendPacket_of_sends (E := E)
        (c := { s.consumer with sendEvent := none }) hactive hsends
      rw [heq]
      exact decide_eq_true_iff.trans ⟨fun hlt _ _ => hlt, fun hlt => hlt hactive hsends⟩
    · rw [sendPacket_of_not_sends (c := { s.consumer with sendEvent := none }) hactive hsends]
      exact iff_of_true h.within fun _ hsends' => absurd hsends' hsends
  · rw [sendPacket_of_inactive (c := { s.consumer with sendEvent := none })
      (Bool.eq_false_iff.mpr hactive)]
    exact iff_of_true h.within fun hactive' => absurd hactive' hactive

theorem origin_next (hguard : s.consumer.guard e) :
    (s.next E e).consumer.sendEvent.isSome →
      ((s.next E e).origin = .room ↔
        (s.next E e).consumer.ext.inFlight.toNat < (s.next E e).consumer.ext.window) := by
  intro hpending
  refine Origin.after_eq_room_iff fun hfull hback hroom => ?_
  change (s.next E e).consumer.ext.Full at hfull
  have hbefore : s.consumer.sendEvent.isSome → ¬ s.consumer.ext.Full := fun hevent hfull =>
    absurd ((h.origin hevent).mp hroom) (Nat.not_lt.mpr hfull.2)
  cases e with
  | send =>
    have hnone : (s.next E .send).consumer.sendEvent = none :=
      sendEvent_sendPacket (E := E) rfl hfull
    rw [hnone] at hpending
    cases hpending
  | data seq =>
    have hdata : (s.next E (.data seq)).consumer = _ := onData_window hguard seq
    rw [hdata] at hpending hfull
    rw [ext_scheduleNextPacket] at hfull
    rw [sendEvent_of_full hfull] at hpending
    have hlt := (h.origin hpending).mp hroom
    have hle : addOne s.consumer.ext.window ≤ s.consumer.ext.land.inFlight.toNat := hfull.2
    have hgrown : s.consumer.ext.window ≤ addOne s.consumer.ext.window := by
      rw [addOne]
      split <;> omega
    have hland := s.consumer.ext.toNat_land
    omega
  | check =>
    cases hflag : s.consumer.ext.setInitialWindowOnTimeout with
    | false => exact not_full_checkTimeouts (E := E) hflag hbefore _ _ hpending hfull
    | true =>
      have hnil : (s.consumer.checkRetxTimeout E (window E)).2 = [] := by
        simpa [setsBack, hflag] using hback
      have hsame : (s.next E .check).consumer = s.consumer := checkTimeouts_of_nil hnil
      rw [hsame] at hpending hfull
      exact hbefore hpending hfull
  | elapse time => exact hbefore hpending hfull
  | stop => cases hpending

theorem next (hguard : s.consumer.guard e) (hcounts : s.Counts e) : (s.next E e).Kept where
  balanced := h.balanced_next hguard hcounts
  within := by
    cases e with
    | send =>
      exact (h.within_send_iff hguard).mpr fun hactive hsends => (hcounts hactive hsends).1
    | _ => exact h.within
  origin := h.origin_next hguard

theorem counts_of_accounts (hguard : s.consumer.guard e) (haccounts : (s.next E e).Accounts) :
    s.Counts e := by
  obtain ⟨hinFlight, hwithin, -⟩ := haccounts
  cases e with
  | send =>
    intro hactive hsends
    obtain ⟨hnot, hlt⟩ := (h.sending.inFlight_sendPacket_iff hactive hsends).mp hinFlight
    exact ⟨(h.within_send_iff hguard).mp hwithin hactive hsends, hlt,
      h.sending.nextSeq_not_mem_iff.mp hnot⟩
  | data seq => exact (h.balanced.toCounted.inFlight_onData_iff hguard seq).mp hinFlight
  | check | elapse time | stop => trivial

end Kept

/-- The accounts are right all along a run just if every Data is for an outstanding number unless
there is none, and no packet is sent that was scheduled with a window of zero or before a timeout
set the window back, or with a new number that is outstanding (or if all that can be counted
are). -/
theorem accounts_iff {estimate : ρ} {seq seqMax size : UInt32} {flag : Bool} {es : List Event}
    (h : (machine E (start E estimate seq seqMax size flag)).Enabled
      (start E estimate seq seqMax size flag) es) :
    (∀ before after, es = before ++ after →
        (before.foldl (next E) (start E estimate seq seqMax size flag)).Accounts) ↔
      ∀ before e after, es = before ++ e :: after →
        (before.foldl (next E) (start E estimate seq seqMax size flag)).Counts e :=
  h.forall_iff (I := Kept) (P := Accounts) (K := Counts) (kept_start ..)
    (fun _ hkept => hkept.accounts) (fun _ _ hkept hguard hcounts => hkept.next hguard hcounts)
    fun _ _ hkept hguard haccounts => hkept.counts_of_accounts hguard haccounts

/-- A window of two. -/
def two : WindowRun MeanDeviation := start Requests.estimator .construct 0 invalid 2 true

/-- Two packets are sent, and the Data of the first comes. -/
def onceOps : List Event := [.send, .send, .data 0]

/-- And it comes again. -/
def twiceOps : List Event := onceOps ++ [.data 0]

theorem enabled_twiceOps : (machine Requests.estimator two).Enabled two twiceOps := by
  decide +kernel

/-- The accounts are right until the Data comes again. -/
theorem accounts_iff_twiceOps :
    (∀ before after, onceOps = before ++ after →
        (before.foldl (next Requests.estimator) two).Accounts) ∧
      ¬ ∀ before after, twiceOps = before ++ after →
        (before.foldl (next Requests.estimator) two).Accounts := by
  refine ⟨(accounts_iff (by decide +kernel)).mpr (System.allSteps_iff.mp (by decide +kernel)),
    fun h => ?_⟩
  exact absurd ((accounts_iff enabled_twiceOps).mp h onceOps (.data 0) [] rfl) (by decide +kernel)

/-- The second packet is in the container, but not in flight. -/
theorem duplicate_data_miscounted :
    ∃ s, (machine Requests.estimator two).Reachable s ∧
      s.consumer.ext.inFlight = 0 ∧ s.consumer.seqTimeouts.map Prod.fst = [1] :=
  ⟨_, (System.Reachable.of_init rfl).foldl enabled_twiceOps, by decide +kernel,
    by decide +kernel⟩

end WindowRun

end Consumer

end ValProofs
