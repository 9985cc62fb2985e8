import ValProofs.Pft.Coherence

/-!
How often an entry object is transmitted. Objects are never reused, so an
address stands for one successful registration.

An object that has a timer can still be sent as often as its tries allow. One
that has none will never be sent again, because nothing gives an object a
timer back. The invariant `Spent` puts the two together with the number of
transmissions so far.
-/

namespace ValProofs.Pft

open Lib List

namespace Pending

/-- The transmission is one of the entry object `p`. -/
def isTransmitOf (p : ℕ) : Action → Bool
  | .transmit q _ _ => q == p
  | .nullFace _ => false

/-- How often the entry object has been sent. -/
def sends (s : Pending) (p : ℕ) : ℕ := s.log.countP (isTransmitOf p)

/-- How often a packet may be sent. -/
def maxSends (valPkt : ValPacket) : ℕ := if isLastHop valPkt then 1 else 4

variable {s s' : Pending}

theorem sends_eq_of_log (h : s'.log = s.log) (p : ℕ) : s'.sends p = s.sends p := by
  rw [sends, sends, h]

theorem sends_append {q outFaceId : ℕ} {valPkt : ValPacket}
    (h : s'.log = s.log ++ [.transmit q valPkt outFaceId]) (p : ℕ) :
    s'.sends p = s.sends p + if q = p then 1 else 0 := by
  rw [sends, sends, h, countP_append]
  by_cases hqp : q = p <;> simp [isTransmitOf, hqp]

/-! ### What an effect does to one object -/

variable {id : ℕ} {callback : Callback}

theorem Fired.log_eq (h : Fired s id callback s') : s'.log = s.log ++
      [.transmit callback.entry (s.heap callback.entry).valPkt callback.outFaceId] := by
  cases h with
  | resent => rfl
  | finished _ _ _ hlog => exact hlog

theorem Fired.nextPtr_eq (h : Fired s id callback s') : s'.nextPtr = s.nextPtr := by
  cases h with
  | resent => rfl
  | finished _ _ hdrop _ => exact hdrop.nextPtr

variable {faces : FaceTable}

theorem Change.nextPtr_le (h : Change faces s s') : s.nextPtr ≤ s'.nextPtr := by
  cases h with
  | same => exact Nat.le_refl _
  | entered => exact Nat.le_succ _
  | silenced p => exact Nat.le_of_eq (nextPtr_silence s p).symm
  | dropped _ _ _ hdrop _ => exact Nat.le_of_eq hdrop.nextPtr.symm
  | fired _ _ _ _ hfired => exact Nat.le_of_eq hfired.nextPtr_eq.symm

variable {p : ℕ}

/-- The packet of an object does not change. -/
theorem Change.valPkt_eq (h : Change faces s s') (hp : p < s.nextPtr) :
    (s'.heap p).valPkt = (s.heap p).valPkt := by
  cases h with
  | same => rfl
  | entered => rw [heap_enter_of_lt hp]
  | silenced q => exact valPkt_silence s q p
  | dropped _ _ _ hdrop _ => exact hdrop.valPkt p
  | fired _ _ _ _ hfired =>
    cases hfired with
    | resent _ _ hentry => exact valPkt_resend hentry p
    | finished _ _ hdrop _ => exact hdrop.valPkt p

/-- Only a pending callback sends, and it sends the packet of its entry. -/
theorem Change.log_cases (h : Change faces s s') :
    s'.log = s.log ∨ ∃ id callback, s.queue.Pending id callback ∧ s'.log = s.log ++
      [.transmit callback.entry (s.heap callback.entry).valPkt callback.outFaceId] := by
  cases h with
  | same | entered => exact .inl rfl
  | silenced => exact .inl (log_silence s _)
  | dropped _ _ _ _ hlog => exact .inl hlog
  | fired id callback _ hpend hfired => exact .inr ⟨id, callback, hpend, hfired.log_eq⟩

/-- No effect gives an object a timer back. -/
theorem Coherent.not_hasTimer (h : Coherent faces s) (hchange : Change faces s s')
    (hp : p < s.nextPtr) (htimer : ¬ s.HasTimer p) : ¬ s'.HasTimer p := by
  cases hchange with
  | same => exact htimer
  | entered =>
    rw [hasTimer_enter]
    rintro (htimer' | rfl)
    · exact htimer htimer'
    · exact Nat.lt_irrefl _ hp
  | silenced q hq => exact fun htimer' => htimer ((h.hasTimer_silence hq).mp htimer').1
  | dropped _ _ _ hdrop _ => exact fun htimer' => htimer (hdrop.hasTimer.mp htimer').1
  | fired _ _ _ hpend hfired =>
    cases hfired with
    | resent => exact fun htimer' => htimer ((h.hasTimer_resend hpend).mp htimer')
    | finished _ _ hdrop _ => exact fun htimer' => htimer (hdrop.hasTimer.mp htimer').1

/-- An object without a timer is not sent. -/
theorem sends_of_not_hasTimer (hchange : Change faces s s') (htimer : ¬ s.HasTimer p) :
    s'.sends p = s.sends p := by
  rcases hchange.log_cases with hlog | ⟨id, callback, hpend, hlog⟩
  · exact sends_eq_of_log hlog p
  · have hne : callback.entry ≠ p := fun he => htimer ⟨id, callback, hpend, he⟩
    rw [sends_append hlog, if_neg hne]
    rfl

/-! ### Who registers and who sends -/

/-- Hearing a packet makes no object, and sends nothing. -/
theorem preProcessing_quiet (s : Pending) (valP : ValPacket) :
    (s.preProcessingValPacket valP).1.nextPtr = s.nextPtr ∧
      (s.preProcessingValPacket valP).1.log = s.log := by
  rw [preProcessingValPacket_eq]
  cases s.findMatch valP with
  | none => exact ⟨rfl, rfl⟩
  | some p =>
    dsimp only
    split
    · split <;> simp [removeEntry]
    · exact ⟨rfl, rfl⟩

/-! ### The count against the tries -/

/-- Where an object stands. -/
inductive Spent (s : Pending) (p : ℕ) : Prop
  | waiting (hstate : (s.heap p).state = .waitingForwarding) (hsends : s.sends p = 0)
  | sent (hstate : (s.heap p).state = .waitingImplicitAck)
      (hlast : isLastHop (s.heap p).valPkt = false) (htries : 1 ≤ (s.heap p).tries)
      (hsends : (s.sends p : ℤ) + (s.heap p).tries ≤ 1 + maxImplicitAckTries)
  | stopped (htimer : ¬ s.HasTimer p) (hsends : s.sends p ≤ maxSends (s.heap p).valPkt)

/-- The object of a pending callback can be sent once more. -/
theorem Spent.sends_lt_or (h : Spent s p) :
    s.sends p < maxSends (s.heap p).valPkt ∨
      ¬ s.HasTimer p ∧ s.sends p ≤ maxSends (s.heap p).valPkt := by
  cases h with
  | waiting _ hsends =>
    rw [hsends, maxSends]
    split <;> omega
  | sent _ hlast htries hsends =>
    rw [maxSends, hlast]
    simp only [maxImplicitAckTries, Bool.false_eq_true, if_false] at hsends ⊢
    omega
  | stopped htimer hsends => exact .inr ⟨htimer, hsends⟩

theorem Spent.sends_le (h : Spent s p) : s.sends p ≤ maxSends (s.heap p).valPkt :=
  h.sends_lt_or.elim Nat.le_of_lt And.right

theorem Spent.sends_lt (hpend : s.queue.Pending id callback) (h : Spent s callback.entry) :
    s.sends callback.entry < maxSends (s.heap callback.entry).valPkt :=
  h.sends_lt_or.resolve_right fun hstopped => hstopped.1 ⟨id, callback, hpend, rfl⟩

/-- Objects an effect does not touch. -/
theorem Spent.frame (h : Spent s p) (hheap : s'.heap p = s.heap p) (hsends : s'.sends p = s.sends p)
    (htimer : s'.HasTimer p → s.HasTimer p) : Spent s' p := by
  cases h with
  | waiting hstate hzero => exact .waiting (by rw [hheap]; exact hstate) (by rw [hsends, hzero])
  | sent hstate hlast htries hsum =>
    refine .sent ?_ ?_ ?_ ?_
    · rw [hheap]; exact hstate
    · rw [hheap]; exact hlast
    · rw [hheap]; exact htries
    · rw [hheap, hsends]; exact hsum
  | stopped hnone hle =>
    exact .stopped (fun h' => hnone (htimer h')) (by rw [hheap, hsends]; exact hle)

theorem Spent.dropped {ps : List ℕ} (h : Spent s p) (hdrop : Dropped s s' ps)
    (hle : s'.sends p ≤ maxSends (s.heap p).valPkt) (hkeep : p ∉ ps → s'.sends p = s.sends p) :
    Spent s' p := by
  by_cases hmem : p ∈ ps
  · refine .stopped (fun htimer => (hdrop.hasTimer.mp htimer).2 hmem) ?_
    rwa [hdrop.valPkt]
  · exact h.frame (hdrop.heap p hmem) (hkeep hmem) fun htimer => (hdrop.hasTimer.mp htimer).1

/-- The object that has just been sent and waits for its acknowledgement. -/
theorem Coherent.spent_resend (hcoh : Coherent faces s) (hpend : s.queue.Pending id callback)
    {entry : Entry} (hentry : Resent (s.heap callback.entry) entry) {duration : ℕ}
    (h : Spent s callback.entry) : Spent (s.resend id callback entry duration) callback.entry := by
  have hsends : (s.resend id callback entry duration).sends callback.entry =
      s.sends callback.entry + 1 := by
    rw [sends_append (s := s) rfl, if_pos rfl]
  have hlast := hcoh.resent_notLastHop hpend hentry
  have htries := (hcoh.resent_tries hpend hentry).1
  refine .sent ?_ ?_ ?_ ?_
  · rw [heap_resend_self]; exact hentry.state
  · rw [heap_resend_self]; exact hlast
  · rw [heap_resend_self]; exact htries
  · rw [hsends, heap_resend_self]
    show ((s.sends callback.entry + 1 : ℕ) : ℤ) + entry.tries ≤ 1 + maxImplicitAckTries
    -- A first transmission sets the tries to their maximum, a later one uses one up.
    cases hentry with
    | forwarded hold _ hnew =>
      have hzero : s.sends callback.entry = 0 := by
        cases h with
        | waiting _ hsends => exact hsends
        | sent hstate _ _ _ => rw [hold] at hstate; cases hstate
        | stopped htimer _ => exact absurd ⟨id, callback, hpend, rfl⟩ htimer
      rw [hnew, Entry.changeState_of_waitingForwarding hold, hzero]
      simp [maxImplicitAckTries]
    | retried hold _ hnew =>
      cases h with
      | waiting hstate _ => rw [hold] at hstate; cases hstate
      | sent _ _ _ hsum =>
        rw [hnew]
        dsimp only
        omega
      | stopped htimer _ => exact absurd ⟨id, callback, hpend, rfl⟩ htimer

/-- **The step lemma** for an object that exists. -/
theorem Coherent.spent (hcoh : Coherent faces s) (hchange : Change faces s s') (hp : p < s.nextPtr)
    (h : Spent s p) : Spent s' p := by
  cases hchange with
  | same => exact h
  | entered =>
    refine h.frame (heap_enter_of_lt hp) rfl ?_
    rw [hasTimer_enter]
    rintro (htimer | rfl)
    · exact htimer
    · exact absurd hp (Nat.lt_irrefl _)
  | silenced q hq =>
    have hsends : (s.silence q).sends p = s.sends p := sends_eq_of_log (log_silence s q) p
    by_cases hpq : p = q
    · refine .stopped (fun htimer => ((hcoh.hasTimer_silence hq).mp htimer).2 hpq) ?_
      rw [hsends, valPkt_silence]
      exact h.sends_le
    · exact h.frame (heap_silence_of_ne s hpq) hsends fun htimer =>
        ((hcoh.hasTimer_silence hq).mp htimer).1
  | dropped ps _ _ hdrop hlog =>
    refine h.dropped hdrop ?_ fun _ => sends_eq_of_log hlog p
    rw [sends_eq_of_log hlog]
    exact h.sends_le
  | fired id callback _ hpend hfired =>
    by_cases hpc : p = callback.entry
    · rw [hpc] at h ⊢
      cases hfired with
      | resent entry duration hentry => exact hcoh.spent_resend hpend hentry h
      | finished _ _ hdrop hlog =>
        refine h.dropped hdrop ?_ fun hne => absurd mem_cons_self hne
        rw [sends_append hlog, if_pos rfl]
        exact h.sends_lt hpend
    · have hsends := sends_append hfired.log_eq p
      rw [if_neg (Ne.symm hpc)] at hsends
      cases hfired with
      | resent entry duration hentry =>
        exact h.frame (heap_resend_of_ne hpc) hsends fun htimer =>
          (hcoh.hasTimer_resend hpend).mp htimer
      | finished _ _ hdrop _ =>
        exact h.frame (hdrop.heap p (by simpa using hpc)) hsends fun htimer =>
          (hdrop.hasTimer.mp htimer).1

/-- What is known of all the objects and of what was sent. -/
structure Accounted (s : Pending) : Prop where
  log : ∀ p valPkt outFaceId, .transmit p valPkt outFaceId ∈ s.log →
    p < s.nextPtr ∧ valPkt = (s.heap p).valPkt
  spent : ∀ p < s.nextPtr, Spent s p

theorem accounted_empty : Accounted empty where
  log _ _ _ h := by cases h
  spent p h := absurd h (Nat.not_lt_zero p)

/-- Addresses that have not been given out have not been sent. -/
theorem Accounted.sends_eq_zero (h : Accounted s) (hp : s.nextPtr ≤ p) : s.sends p = 0 := by
  rw [sends, countP_eq_zero]
  intro action haction
  cases action with
  | nullFace => simp [isTransmitOf]
  | transmit q valPkt outFaceId =>
    have hlt := (h.log q valPkt outFaceId haction).1
    simp only [isTransmitOf, beq_iff_eq]
    omega

theorem Change.mem_log (hchange : Change faces s s') {action : Action} (h : action ∈ s'.log) :
    action ∈ s.log ∨ ∃ id callback, s.queue.Pending id callback ∧
      action = .transmit callback.entry (s.heap callback.entry).valPkt callback.outFaceId := by
  rcases hchange.log_cases with hlog | ⟨id, callback, hpend, hlog⟩
  · exact .inl (hlog ▸ h)
  · rw [hlog] at h
    rcases mem_append.mp h with h | h
    · exact .inl h
    · exact .inr ⟨id, callback, hpend, mem_singleton.mp h⟩

/-- **The step lemma** for the whole account. -/
theorem Coherent.accounted (hcoh : Coherent faces s) (hchange : Change faces s s')
    (h : Accounted s) : Accounted s' where
  log p valPkt outFaceId hmem := by
    have hold : p < s.nextPtr ∧ valPkt = (s.heap p).valPkt := by
      rcases hchange.mem_log hmem with hmem | ⟨id, callback, hpend, haction⟩
      · exact h.log p valPkt outFaceId hmem
      · cases haction
        exact ⟨hcoh.allocated _ (hcoh.timer id callback hpend).mem, rfl⟩
    refine ⟨Nat.lt_of_lt_of_le hold.1 hchange.nextPtr_le, ?_⟩
    rw [hchange.valPkt_eq hold.1]
    exact hold.2
  spent p hp := by
    by_cases hold : p < s.nextPtr
    · exact hcoh.spent hchange hold (h.spent p hold)
    · -- A new address: the effect is the registration of its entry.
      cases hchange with
      | same => exact absurd hp hold
      | silenced q => exact absurd (nextPtr_silence s q ▸ hp) hold
      | dropped _ _ _ hdrop _ => exact absurd (hdrop.nextPtr ▸ hp) hold
      | fired _ _ _ _ hfired => exact absurd (hfired.nextPtr_eq ▸ hp) hold
      | entered valPkt outFaceId duration =>
        have hpn : p = s.nextPtr := by
          have : p < s.nextPtr + 1 := hp
          omega
        subst hpn
        refine .waiting ?_ ?_
        · rw [heap_enter_self]; rfl
        · exact (sends_eq_of_log rfl _).trans (h.sends_eq_zero (Nat.le_refl _))

end Pending

end ValProofs.Pft
