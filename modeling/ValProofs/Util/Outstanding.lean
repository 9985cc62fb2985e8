import ValProofs.Util.Scheduler

/-!
How many requests of one scheduler are with the simulator.

The scheduler remembers the last request for `executeEvent`. `scheduleNext` makes a
new one without removing the one before: when an event comes in ahead of the first,
and when an event that is not the first is cancelled. The request that is forgotten
then survives `cancelAllEvents` and the scheduler itself. Without these two there is
never more than one request, and it is the one that is remembered.
-/

namespace ValProofs

open Lib TimerQueue List EventQueue Option

namespace TimerQueue

variable {queue : TimerQueue}

theorem begin?_insert {first : EventInfo} (h : queue.begin? = some first) (info : EventInfo) :
    (queue.insert info).begin? =
      if info.expireTime < first.expireTime then some info else some first := by
  obtain ⟨rest, hrest⟩ := head?_eq_some_iff.mp h
  show (queue.infos.orderedInsert (fun a b => a.expireTime < b.expireTime) info).head? = _
  rw [hrest, orderedInsert_cons]
  split <;> rfl

theorem begin?_insert_of_nil (h : queue.infos = []) (info : EventInfo) :
    (queue.insert info).begin? = some info := by
  show (queue.infos.orderedInsert (fun a b => a.expireTime < b.expireTime) info).head? = _
  rw [h]
  rfl

theorem ne_nil_of_begin? {first : EventInfo} (h : queue.begin? = some first) : queue.infos ≠ [] :=
  ne_nil_of_mem (mem_of_begin? h)

end TimerQueue

namespace Scheduler

/-- No request is with the simulator. -/
def Quiet (s : Scheduler) : Prop := ∀ uid time, ¬ s.simulator.Pending uid time

/-- Every request that is with the simulator is the one in `m_timerEvent`. -/
def Held (s : Scheduler) : Prop :=
  ∀ uid time, s.simulator.Pending uid time → s.timerEvent = some uid

/-- There is a request exactly if there are events. -/
def Armed (s : Scheduler) : Prop :=
  (∃ uid time, s.simulator.Pending uid time) ↔ s.queue.infos ≠ []

/-- Outside `executeEvent` there is at most one request, the one in `m_timerEvent`,
and it is there exactly if the queue is not empty. Nothing is left of it after
`cancelAllEvents`, which is also what the destructor does. -/
structure Outstanding (s : Scheduler) : Prop where
  one : s.isEventExecuting = false → s.simulator.pending.length ≤ 1 ∧ s.Held ∧ s.Armed
  cancelled : s.cancelAllEvents.Quiet

/-- The same, with what holds while `executeEvent` is running. -/
structure Single (s : Scheduler) : Prop where
  held : s.Held
  armed : s.isEventExecuting = false → s.Armed
  executing : s.isEventExecuting = true → s.Quiet

variable {s : Scheduler}

theorem Held.length_le (h : s.Held) : s.simulator.pending.length ≤ 1 := by
  have hnodup := s.simulator.nodup
  match hpending : s.simulator.pending with
  | [] => exact Nat.zero_le 1
  | [_] => exact Nat.le_refl 1
  | a :: b :: rest =>
    have ha : a ∈ s.simulator.pending := by simp [hpending]
    have hb : b ∈ s.simulator.pending := by simp [hpending]
    have heq : a.1 = b.1 := some.inj ((h a.1 a.2 ha).symm.trans (h b.1 b.2 hb))
    rw [hpending, map_cons, map_cons, heq] at hnodup
    exact absurd mem_cons_self (nodup_cons.mp hnodup).1

theorem Held.quiet_removeTimerEvent (h : s.Held) : s.removeTimerEvent.Quiet := by
  intro uid time hpend
  have hheld := h uid time (pending_of_removeTimerEvent hpend)
  simp only [removeTimerEvent, hheld] at hpend
  exact (pending_cancel.mp hpend).2 rfl

theorem Held.quiet_cancelAllEvents (h : s.Held) : s.cancelAllEvents.Quiet :=
  quiet_removeTimerEvent (s := { s with queue := .empty }) h

theorem Single.outstanding (h : s.Single) : s.Outstanding where
  one hidle := ⟨h.held.length_le, h.held, h.armed hidle⟩
  cancelled := h.held.quiet_cancelAllEvents

theorem Quiet.held (h : s.Quiet) : s.Held :=
  fun uid time hpend => absurd hpend (h uid time)

theorem Quiet.not_pending (h : s.Quiet) : ¬ ∃ uid time, s.simulator.Pending uid time := by
  rintro ⟨uid, time, hpend⟩
  exact h uid time hpend

theorem single_of_executing (hexec : s.isEventExecuting = true) (h : s.Quiet) : s.Single where
  held := h.held
  armed hidle := absurd hexec (Bool.eq_false_iff.mp hidle)
  executing _ := h

/-- If there is no request, `scheduleNext` makes one when there is an event. -/
theorem Quiet.single_scheduleNext (h : s.Quiet) (hidle : s.isEventExecuting = false) :
    s.scheduleNext.Single := by
  rw [scheduleNext]
  cases hfirst : s.queue.begin? with
  | none =>
    refine ⟨h.held, fun _ => ?_, fun _ => h⟩
    exact iff_of_false h.not_pending (not_not.mpr (begin?_eq_none.mp hfirst))
  | some first =>
    refine ⟨fun uid time hpend => ?_, fun _ => ?_, fun hexec => ?_⟩
    · rcases pending_schedule.mp hpend with hold | ⟨rfl, -⟩
      · exact absurd hold (h uid time)
      · rfl
    · exact iff_of_true ⟨_, _, pending_schedule.mpr (.inr ⟨rfl, rfl⟩)⟩
        (ne_nil_of_begin? hfirst)
    · exact absurd hexec (Bool.eq_false_iff.mp hidle)

/-- If there is one already, `scheduleNext` makes a second. -/
theorem not_held_scheduleNext {uid time : ℕ} (hpend : s.simulator.Pending uid time)
    {first : EventInfo} (hfirst : s.queue.begin? = some first) : ¬ s.scheduleNext.Held := by
  intro hheld
  simp only [scheduleNext, hfirst, Held] at hheld
  have hold := hheld uid time (pending_schedule.mpr (.inl hpend))
  exact absurd (some.inj hold) (Nat.ne_of_gt hpend.lt)

/-- So there must be none when it is called with events in the queue. -/
theorem Single.not_outstanding_scheduleNext (h : s.Single) (hexec : s.isEventExecuting = false)
    (hevents : s.queue.infos ≠ []) (nextId : ℕ) {queue : TimerQueue} {first : EventInfo}
    (hfirst : queue.begin? = some first) :
    ¬ ({ s with queue := queue, nextId := nextId } : Scheduler).scheduleNext.Outstanding := by
  intro hout
  obtain ⟨uid, time, hpend⟩ := (h.armed hexec).mpr hevents
  refine not_held_scheduleNext (s := { s with queue := queue, nextId := nextId }) hpend hfirst
    (hout.one ?_).2.1
  rw [isEventExecuting_scheduleNext]
  exact hexec

/-! ### Scheduling and cancelling -/

/-- The new event does not come ahead of the first, unless the loop is running. -/
def InTurn (s : Scheduler) (after : ℕ) : Prop :=
  s.isEventExecuting = false → ∀ first, s.queue.begin? = some first →
    first.expireTime ≤ s.now + after

/-- What `scheduleEvent` does before it looks for the first event. -/
def enqueue (s : Scheduler) (after : ℕ) : Scheduler :=
  { s with queue := s.queue.insert ⟨s.nextId, s.now + after⟩, nextId := s.nextId + 1 }

variable {after : ℕ}

theorem scheduleEvent_of_begin? (h : s.isEventExecuting = false)
    (hfirst : (s.enqueue after).queue.begin? = some ⟨s.nextId, s.now + after⟩) :
    s.scheduleEvent after = (s.enqueue after).scheduleNext := by
  rw [enqueue] at hfirst
  simp [scheduleEvent, enqueue, h, hfirst]

theorem scheduleEvent_of_ne
    (hfirst : (s.enqueue after).queue.begin? ≠ some ⟨s.nextId, s.now + after⟩) :
    s.scheduleEvent after = s.enqueue after := by
  rw [enqueue] at hfirst
  simp [scheduleEvent, enqueue, hfirst]

theorem Single.scheduleEvent (h : s.Single) (hfresh : ∀ info ∈ s.queue.infos, info.id < s.nextId)
    (hturn : s.InTurn after) : (s.scheduleEvent after).Single := by
  cases hexec : s.isEventExecuting with
  | true =>
    have heq : s.scheduleEvent after = s.enqueue after := by
      simp [Scheduler.scheduleEvent, enqueue, hexec]
    rw [heq]
    exact single_of_executing hexec (h.executing hexec)
  | false =>
    have harmed := h.armed hexec
    cases hbegin : s.queue.begin? with
    | none =>
      have hnil := begin?_eq_none.mp hbegin
      have hquiet : s.Quiet := fun uid time hpend => harmed.mp ⟨uid, time, hpend⟩ hnil
      rw [scheduleEvent_of_begin? hexec (begin?_insert_of_nil hnil _)]
      exact Quiet.single_scheduleNext (s := s.enqueue after) hquiet hexec
    | some first =>
      have hle := hturn hexec first hbegin
      have hfirst : (s.enqueue after).queue.begin? = some first := by
        rw [enqueue, begin?_insert hbegin, if_neg (Nat.not_lt.mpr hle)]
      have hne : (s.enqueue after).queue.begin? ≠ some ⟨s.nextId, s.now + after⟩ := by
        rw [hfirst]
        rintro heq
        have hlt := hfresh first (mem_of_begin? hbegin)
        rw [some.inj heq] at hlt
        exact Nat.lt_irrefl _ hlt
      rw [scheduleEvent_of_ne hne]
      refine ⟨h.held, fun _ => ?_, fun hexec' => absurd hexec' (Bool.eq_false_iff.mp hexec)⟩
      exact iff_of_true (harmed.mpr (ne_nil_of_begin? hbegin))
        (ne_nil_of_begin? hfirst)

theorem Single.inTurn (h : s.Single) (hout : (s.scheduleEvent after).Outstanding) :
    s.InTurn after := by
  intro hexec first hbegin
  by_contra hlt
  have hfirst : (s.enqueue after).queue.begin? = some ⟨s.nextId, s.now + after⟩ := by
    rw [enqueue, begin?_insert hbegin, if_pos (Nat.not_le.mp hlt)]
  rw [scheduleEvent_of_begin? hexec hfirst] at hout
  exact h.not_outstanding_scheduleNext hexec (ne_nil_of_begin? hbegin) _ hfirst hout

/-- The event is the first, if it is in the queue at all, or the loop is running. -/
def Foremost (s : Scheduler) (id : ℕ) : Prop :=
  s.isEventExecuting = false → ∀ info ∈ s.queue.infos, info.id = id →
    s.queue.begin? = some info

theorem Single.cancelImpl (h : s.Single) {id : ℕ} (hfirst : s.Foremost id) :
    (s.cancelImpl id).Single := by
  cases hexec : s.isEventExecuting with
  | true =>
    obtain ⟨-, heq⟩ | ⟨info, -, -, s', -, -, -, hexec', hpend, heq⟩ := s.cancelImpl_cases id
    · rw [heq]
      exact h
    · rw [hexec] at hexec'
      rw [heq, if_pos hexec']
      exact single_of_executing hexec' fun uid time hpend' =>
        h.executing hexec uid time (hpend uid time hpend')
  | false =>
    rw [Scheduler.cancelImpl]
    cases hfind : s.queue.infos.find? fun info => info.id = id with
    | none => exact h
    | some info =>
      have hid : info.id = id := by simpa using find?_some hfind
      have hbegin := hfirst hexec info (mem_of_find?_eq_some hfind) hid
      have hidle : s.removeTimerEvent.isEventExecuting = false := by
        rw [isEventExecuting_removeTimerEvent, hexec]
      simp only [if_pos hbegin, hidle, Bool.false_eq_true, if_false]
      refine Quiet.single_scheduleNext ?_ rfl
      exact h.held.quiet_removeTimerEvent

theorem Single.foremost (h : s.Single)
    (hids : ∀ a ∈ s.queue.infos, ∀ b ∈ s.queue.infos, a.id = b.id → a = b) {id : ℕ}
    (hout : (s.cancelImpl id).Outstanding) : s.Foremost id := by
  intro hexec info hmem hid
  by_contra hne
  obtain ⟨first, hbegin⟩ : ∃ first, s.queue.begin? = some first :=
    ne_none_iff_exists'.mp fun hnone =>
      ne_nil_of_mem hmem (begin?_eq_none.mp hnone)
  have hfind : (s.queue.infos.find? fun info => info.id = id) = some info := by
    cases hfind : s.queue.infos.find? fun info => info.id = id with
    | none => simpa [hid] using find?_eq_none.mp hfind info hmem
    | some found =>
      have hfound : found.id = id := by simpa using find?_some hfind
      rw [hids found (mem_of_find?_eq_some hfind) info hmem (hfound.trans hid.symm)]
  have hrest : (s.queue.erase info).begin? = some first := by
    obtain ⟨rest, hinfos⟩ := head?_eq_some_iff.mp hbegin
    have hfirst : first ≠ info := fun heq => hne (heq ▸ hbegin)
    show (s.queue.infos.erase info).head? = some first
    rw [hinfos, erase_cons_tail (by simpa using hfirst)]
    rfl
  have heq : s.cancelImpl id = { s with queue := s.queue.erase info }.scheduleNext := by
    simp only [Scheduler.cancelImpl, hfind, if_neg hne, hexec, Bool.false_eq_true, if_false]
  rw [heq] at hout
  exact h.not_outstanding_scheduleNext hexec (ne_nil_of_mem hmem) _ hrest hout

theorem Single.cancelAllEvents (h : s.Single) : s.cancelAllEvents.Single := by
  have hquiet := h.held.quiet_cancelAllEvents
  refine ⟨hquiet.held, fun _ => ?_, fun _ => hquiet⟩
  exact iff_of_false hquiet.not_pending (not_not.mpr s.infos_cancelAllEvents)

end Scheduler

/-! ### Runs -/

namespace Timers

/-- Calls of the scheduler that leave one request. -/
def Tidy (t : Timers) : Event → Prop
  | .scheduleEvent after => t.scheduler.InTurn after
  | .cancel id => t.scheduler.Foremost id
  | _ => True

/-- The scheduler of a run with one request. -/
structure Sole (t : Timers) : Prop where
  recorded : t.Recorded
  single : t.scheduler.Single

variable {t : Timers}

theorem sole_init (h : machine.init t) : t.Sole := by
  have hrecorded := recorded_init h
  obtain ⟨now, rfl⟩ := h
  have hquiet : (Scheduler.construct now).Quiet := fun uid time => not_pending_empty
  refine ⟨hrecorded, hquiet.held, fun _ => ?_, fun _ => hquiet⟩
  exact iff_of_false hquiet.not_pending (not_not.mpr rfl)

theorem Sole.id_lt (h : t.Sole) : ∀ info ∈ t.scheduler.queue.infos, info.id < t.scheduler.nextId :=
  fun info hmem => h.recorded.fresh info ((h.recorded.waiting info).mp hmem).1

theorem Sole.next (h : t.Sole) {e : Event} (hguard : t.guard e) (htidy : t.Tidy e) :
    (t.next e).Sole := by
  refine ⟨h.recorded.next hguard, ?_⟩
  cases e with
  | scheduleEvent after => exact h.single.scheduleEvent h.id_lt htidy
  | cancel id => exact h.single.cancelImpl htidy
  | cancelAllEvents => exact h.single.cancelAllEvents
  | execute uid =>
    -- the request that is met was the only one
    refine Scheduler.single_of_executing rfl fun uid' time hpend => ?_
    obtain ⟨hpend', hne⟩ := pending_cancel.mp hpend
    have huid := h.single.held uid _ hguard.2
    have huid' := h.single.held uid' time hpend'
    exact hne (some.inj (huid'.symm.trans huid))
  | callback =>
    rw [Timers.next]
    split
    · exact h.single
    · exact Scheduler.single_of_executing hguard.1 (h.single.executing hguard.1)
  | finish =>
    exact Scheduler.Quiet.single_scheduleNext
      (s := { t.scheduler with isEventExecuting := false }) (h.single.executing hguard.1) rfl
  | elapse duration => exact ⟨h.single.held, h.single.armed, h.single.executing⟩

theorem Sole.tidy (h : t.Sole) {e : Event} (hout : (t.next e).scheduler.Outstanding) :
    t.Tidy e := by
  cases e with
  | scheduleEvent after => exact h.single.inTurn hout
  | cancel id => exact h.single.foremost h.recorded.eq_of_id hout
  | _ => trivial

/-- **One outstanding request.** Along a run the scheduler never has a request with
the simulator but the one it remembers exactly if, outside the callbacks, no event is
scheduled ahead of the first and none but the first is cancelled. -/
theorem outstanding_iff_tidy {t : Timers} (hinit : machine.init t) {events : List Event}
    (hevents : machine.Enabled t events) :
    (∀ before after, events = before ++ after → (before.foldl next t).scheduler.Outstanding) ↔
      ∀ before e after, events = before ++ e :: after → (before.foldl next t).Tidy e :=
  hevents.forall_iff (I := Sole) (P := fun t => t.scheduler.Outstanding) (sole_init hinit)
    (fun _ h => h.single.outstanding) (fun _ _ h hguard htidy => h.next hguard htidy)
    fun _ _ h _ hout => h.tidy hout

/-- A scheduler at time 0. -/
def unused : Timers := ⟨.construct 0, [], [], []⟩

/-- The later of two events is cancelled. -/
def cancelsLater : List Event := [.scheduleEvent 5, .scheduleEvent 7, .cancel 1]

theorem outstanding_iff_tidy_cancelsLater :
    ¬ ∀ before after, cancelsLater = before ++ after →
      (before.foldl next unused).scheduler.Outstanding := by
  intro hout
  have henabled : machine.Enabled unused cancelsLater :=
    .cons trivial (.cons trivial (.cons trivial (.nil _)))
  have hforemost := (outstanding_iff_tidy ⟨0, rfl⟩ henabled).mp hout
    [.scheduleEvent 5, .scheduleEvent 7] (.cancel 1) [] rfl
  exact absurd (hforemost rfl ⟨1, 7⟩ (by decide) rfl) (by decide)

/-- An event that comes in ahead of the first, or the cancelling of one behind it, leaves
two requests; one of them outlives `cancelAllEvents`. -/
theorem request_forgotten :
    ¬ ([.scheduleEvent 5, .scheduleEvent 3].foldl next unused).scheduler.Outstanding ∧
      ¬ (cancelsLater.foldl next unused).scheduler.Outstanding ∧
      ¬ ([.scheduleEvent 5, .scheduleEvent 3, .cancelAllEvents].foldl next
        unused).scheduler.Quiet := by
  refine ⟨fun h => ?_, fun h => ?_, fun h => ?_⟩
  · exact absurd (h.one (by decide)).1 (by decide)
  · exact absurd (h.one (by decide)).1 (by decide)
  · exact h 0 5 (by decide : (0, 5) ∈ [(0, 5)])

end Timers

end ValProofs
