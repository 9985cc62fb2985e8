import Mathlib.Data.List.Sort
import Mathlib.Data.Nat.Find
import ValProofs.Lib.EventQueue
import ValProofs.Lib.Keyed

/-!
The scheduler of ndn-cxx on top of `ns3::Simulator`. Its events are in a multiset
ordered by expiry, and it asks the simulator for a call of `executeEvent` when
the first of them expires. Only the last such request is remembered: one that was
made before stays with the simulator and comes as a call that may find nothing to
do.

What is assumed of the simulator are the guards of the machine: a request that has
not been removed is met once, when its time has come, and the clock does not go
past it. The scheduler refines the event queue that the other modules take it for.
-/

namespace ValProofs

open Lib EventQueue List

/-- `EventInfo`. The object is alive and not expired as long as it is in the queue
of the scheduler. Times are nanoseconds. -/
structure EventInfo where
  id : ℕ
  expireTime : ℕ
  deriving DecidableEq, Repr

namespace EventInfo

def expiresFromNow (info : EventInfo) (now : ℕ) : ℕ := info.expireTime - now

theorem now_add_expiresFromNow {info : EventInfo} {now : ℕ} (h : now ≤ info.expireTime) :
    now + info.expiresFromNow now = info.expireTime :=
  Nat.add_sub_of_le h

end EventInfo

/-- The `std::multiset`, ordered by `EventQueueCompare`. -/
structure TimerQueue where
  infos : List EventInfo
  sorted : infos.Pairwise fun a b => a.expireTime ≤ b.expireTime

namespace TimerQueue

def empty : TimerQueue := ⟨[], .nil⟩

/-- Behind the elements that compare equal. -/
def insert (queue : TimerQueue) (info : EventInfo) : TimerQueue where
  infos := queue.infos.orderedInsert (fun a b => a.expireTime < b.expireTime) info
  sorted := pairwise_orderedInsert queue.sorted info

def erase (queue : TimerQueue) (info : EventInfo) : TimerQueue where
  infos := queue.infos.erase info
  sorted := queue.sorted.sublist List.erase_sublist

/-- `*begin()`. -/
def begin? (queue : TimerQueue) : Option EventInfo := queue.infos.head?

variable {queue : TimerQueue}

theorem begin?_eq_none : queue.begin? = none ↔ queue.infos = [] :=
  head?_eq_none_iff

variable {info : EventInfo}

theorem mem_of_begin? (h : queue.begin? = some info) : info ∈ queue.infos :=
  mem_of_head? h

/-- The first event is the first to expire. -/
theorem begin?_le {first : EventInfo} (h : queue.begin? = some first) (hmem : info ∈ queue.infos) :
    first.expireTime ≤ info.expireTime := by
  obtain ⟨rest, hrest⟩ := head?_eq_some_iff.mp h
  have hsorted := queue.sorted
  rw [hrest] at hmem hsorted
  rcases mem_cons.mp hmem with rfl | hmem
  · exact Nat.le_refl _
  · exact (pairwise_cons.mp hsorted).1 info hmem

@[simp] theorem mem_insert {other : EventInfo} :
    other ∈ (queue.insert info).infos ↔ other = info ∨ other ∈ queue.infos :=
  mem_orderedInsert _

/-- A new event that is not the first leaves the first one where it is. -/
theorem begin?_insert_of_ne (h : (queue.insert info).begin? ≠ some info) :
    (queue.insert info).begin? = queue.begin? := by
  rw [begin?, insert] at h
  rw [begin?, begin?, insert]
  dsimp only at h ⊢
  cases hinfos : queue.infos with
  | nil => simp [hinfos] at h
  | cons head rest =>
    rw [hinfos, orderedInsert_cons] at h
    rw [orderedInsert_cons]
    split
    · rename_i hlt
      rw [if_pos hlt] at h
      exact absurd rfl h
    · rfl

theorem nodup_insert (h : queue.infos.Nodup) (hnew : info ∉ queue.infos) :
    (queue.insert info).infos.Nodup :=
  (perm_orderedInsert _ info queue.infos).nodup_iff.mpr (nodup_cons.mpr ⟨hnew, h⟩)

end TimerQueue

open TimerQueue

/-- The scheduler, with the simulator it runs on. -/
structure Scheduler where
  queue : TimerQueue
  isEventExecuting : Bool
  /-- The last request for `executeEvent`. -/
  timerEvent : Option ℕ
  /-- All requests that the simulator still has to meet, with their times. -/
  simulator : EventQueue ℕ
  now : ℕ
  /-- The next `EventInfo` object. -/
  nextId : ℕ

namespace Scheduler

def construct (now : ℕ) : Scheduler where
  queue := .empty
  isEventExecuting := false
  timerEvent := none
  simulator := .empty
  now := now
  nextId := 0

def scheduleNext (s : Scheduler) : Scheduler :=
  match s.queue.begin? with
  | none => s
  | some info =>
      { s with
        timerEvent := some s.simulator.nextId
        simulator := s.simulator.schedule (s.now + info.expiresFromNow s.now) }

def scheduleEvent (s : Scheduler) (after : ℕ) : Scheduler :=
  let info : EventInfo := ⟨s.nextId, s.now + after⟩
  let s := { s with queue := s.queue.insert info, nextId := s.nextId + 1 }
  if !s.isEventExecuting && s.queue.begin? = some info then s.scheduleNext else s

/-- `Simulator::Remove` does nothing when the request has been met. -/
def removeTimerEvent (s : Scheduler) : Scheduler :=
  match s.timerEvent with
  | none => s
  | some uid => { s with simulator := s.simulator.cancel uid, timerEvent := none }

def cancelImpl (s : Scheduler) (id : ℕ) : Scheduler :=
  match s.queue.infos.find? fun info => info.id = id with
  | none => s
  | some info =>
      let s := if s.queue.begin? = some info then s.removeTimerEvent else s
      let s := { s with queue := s.queue.erase info }
      if s.isEventExecuting then s else s.scheduleNext

def cancelAllEvents (s : Scheduler) : Scheduler :=
  { s with queue := .empty }.removeTimerEvent

/-! `executeEvent` in three parts: what comes before its loop, one turn of the
loop up to the callback, and what comes after it. The callbacks run between the
turns, and may call the scheduler. -/

def executeBegin (s : Scheduler) : Scheduler :=
  { s with isEventExecuting := true, timerEvent := none }

/-- The event whose callback is called, if one has expired. -/
def expired? (s : Scheduler) : Option EventInfo :=
  s.queue.begin?.filter fun info => info.expireTime ≤ s.now

variable {s : Scheduler}

theorem expired?_eq_some {info : EventInfo} :
    s.expired? = some info ↔ s.queue.begin? = some info ∧ info.expireTime ≤ s.now := by
  simp [expired?, Option.filter_eq_some_iff]

def executeEnd (s : Scheduler) : Scheduler :=
  { s with isEventExecuting := false }.scheduleNext

/-! ### Frames -/

@[simp] theorem queue_scheduleNext (s : Scheduler) : s.scheduleNext.queue = s.queue := by
  rw [scheduleNext]
  split <;> rfl

@[simp] theorem now_scheduleNext (s : Scheduler) : s.scheduleNext.now = s.now := by
  rw [scheduleNext]
  split <;> rfl

@[simp] theorem nextId_scheduleNext (s : Scheduler) : s.scheduleNext.nextId = s.nextId := by
  rw [scheduleNext]
  split <;> rfl

@[simp] theorem isEventExecuting_scheduleNext (s : Scheduler) :
    s.scheduleNext.isEventExecuting = s.isEventExecuting := by
  rw [scheduleNext]
  split <;> rfl

@[simp] theorem queue_removeTimerEvent (s : Scheduler) : s.removeTimerEvent.queue = s.queue := by
  rw [removeTimerEvent]
  split <;> rfl

theorem infos_cancelAllEvents (s : Scheduler) : s.cancelAllEvents.queue.infos = [] := by
  rw [cancelAllEvents, queue_removeTimerEvent]
  rfl

@[simp] theorem now_removeTimerEvent (s : Scheduler) : s.removeTimerEvent.now = s.now := by
  rw [removeTimerEvent]
  split <;> rfl

@[simp] theorem nextId_removeTimerEvent (s : Scheduler) : s.removeTimerEvent.nextId = s.nextId := by
  rw [removeTimerEvent]
  split <;> rfl

@[simp] theorem isEventExecuting_removeTimerEvent (s : Scheduler) :
    s.removeTimerEvent.isEventExecuting = s.isEventExecuting := by
  rw [removeTimerEvent]
  split <;> rfl

theorem pending_of_removeTimerEvent {uid time : ℕ}
    (h : s.removeTimerEvent.simulator.Pending uid time) : s.simulator.Pending uid time := by
  rw [removeTimerEvent] at h
  split at h
  · exact h
  · exact (pending_cancel.mp h).1

theorem scheduleEvent_frame (s : Scheduler) (after : ℕ) :
    (s.scheduleEvent after).queue = s.queue.insert ⟨s.nextId, s.now + after⟩ ∧
      (s.scheduleEvent after).now = s.now ∧ (s.scheduleEvent after).nextId = s.nextId + 1 := by
  rw [scheduleEvent]
  dsimp only
  split
  · rw [queue_scheduleNext, now_scheduleNext, nextId_scheduleNext]
    exact ⟨rfl, rfl, rfl⟩
  · exact ⟨rfl, rfl, rfl⟩

/-! ### The requests -/

/-- No event has been forgotten so far: none should have run already, and the
simulator has a request that is due no later than any of them, unless the loop is
running. -/
structure Timely (s : Scheduler) : Prop where
  due : ∀ info ∈ s.queue.infos, s.now ≤ info.expireTime
  future : ∀ uid time, s.simulator.Pending uid time → s.now ≤ time
  armed : s.isEventExecuting = false → ∀ info ∈ s.queue.infos,
    ∃ uid time, s.simulator.Pending uid time ∧ time ≤ info.expireTime

/-- Whatever was requested before, the first event is requested now. -/
theorem timely_scheduleNext (hdue : ∀ info ∈ s.queue.infos, s.now ≤ info.expireTime)
    (hfuture : ∀ uid time, s.simulator.Pending uid time → s.now ≤ time) :
    s.scheduleNext.Timely := by
  rw [scheduleNext]
  cases hfirst : s.queue.begin? with
  | none =>
    have hnil := begin?_eq_none.mp hfirst
    refine ⟨hdue, hfuture, fun _ info hmem => ?_⟩
    rw [hnil] at hmem
    cases hmem
  | some first =>
    have hle := hdue first (mem_of_begin? hfirst)
    refine ⟨hdue, fun uid time hpend => ?_, fun _ info hmem => ?_⟩
    · rcases pending_schedule.mp hpend with hold | ⟨-, rfl⟩
      · exact hfuture uid time hold
      · exact Nat.le_add_right _ _
    · refine ⟨s.simulator.nextId, _, pending_schedule.mpr (.inr ⟨rfl, rfl⟩), ?_⟩
      rw [EventInfo.now_add_expiresFromNow hle]
      exact begin?_le hfirst hmem

theorem Timely.scheduleEvent (h : s.Timely) (after : ℕ) : (s.scheduleEvent after).Timely := by
  rw [Scheduler.scheduleEvent]
  have hdue : ∀ info ∈ (s.queue.insert ⟨s.nextId, s.now + after⟩).infos,
      s.now ≤ info.expireTime := by
    intro info hmem
    rcases mem_insert.mp hmem with rfl | hmem
    · exact Nat.le_add_right _ _
    · exact h.due info hmem
  dsimp only
  split
  · exact timely_scheduleNext hdue h.future
  · rename_i hnot
    refine ⟨hdue, h.future, fun hidle info hmem => ?_⟩
    -- The first event is the one it was.
    have hidle' : s.isEventExecuting = false := hidle
    have hfirst : (s.queue.insert ⟨s.nextId, s.now + after⟩).begin? = s.queue.begin? := by
      refine begin?_insert_of_ne fun heq => hnot ?_
      simp [hidle', heq]
    cases hbegin : s.queue.begin? with
    | none =>
      rw [hbegin] at hfirst
      rw [begin?_eq_none.mp hfirst] at hmem
      cases hmem
    | some first =>
      rw [hbegin] at hfirst
      obtain ⟨uid, time, hpend, hle⟩ := h.armed hidle' first (mem_of_begin? hbegin)
      exact ⟨uid, time, hpend, Nat.le_trans hle (begin?_le hfirst hmem)⟩

/-- While the loop runs, requests do not matter. -/
theorem timely_of_executing (hexec : s.isEventExecuting = true)
    (hdue : ∀ info ∈ s.queue.infos, s.now ≤ info.expireTime)
    (hfuture : ∀ uid time, s.simulator.Pending uid time → s.now ≤ time) : s.Timely := by
  refine ⟨hdue, hfuture, fun hidle => ?_⟩
  rw [hexec] at hidle
  cases hidle

/-- The request may be removed or not: the rest stays, and no request is added. -/
theorem ite_removeTimerEvent_frame (s : Scheduler) (p : Prop) [Decidable p] :
    let s' := if p then s.removeTimerEvent else s
    s'.queue = s.queue ∧ s'.now = s.now ∧ s'.nextId = s.nextId ∧
      s'.isEventExecuting = s.isEventExecuting ∧
      ∀ uid time, s'.simulator.Pending uid time → s.simulator.Pending uid time := by
  dsimp only
  split
  · rw [queue_removeTimerEvent, now_removeTimerEvent, nextId_removeTimerEvent,
      isEventExecuting_removeTimerEvent]
    exact ⟨rfl, rfl, rfl, rfl, fun _ _ => pending_of_removeTimerEvent⟩
  · exact ⟨rfl, rfl, rfl, rfl, fun _ _ hpend => hpend⟩

/-- What `cancelImpl` has done before it looks whether the loop runs. -/
theorem cancelImpl_cases (s : Scheduler) (id : ℕ) :
    ((∀ info ∈ s.queue.infos, info.id ≠ id) ∧ s.cancelImpl id = s) ∨
      ∃ info ∈ s.queue.infos, info.id = id ∧ ∃ s' : Scheduler,
        s'.queue = s.queue.erase info ∧ s'.now = s.now ∧ s'.nextId = s.nextId ∧
        s'.isEventExecuting = s.isEventExecuting ∧
        (∀ uid time, s'.simulator.Pending uid time → s.simulator.Pending uid time) ∧
        s.cancelImpl id = if s'.isEventExecuting then s' else s'.scheduleNext := by
  rw [cancelImpl]
  cases hfind : s.queue.infos.find? fun info => info.id = id with
  | none => exact .inl ⟨by simpa using find?_eq_none.mp hfind, rfl⟩
  | some info =>
    have hid : info.id = id := by simpa using find?_some hfind
    obtain ⟨hqueue, hnow, hnext, hexec, hpend⟩ :=
      s.ite_removeTimerEvent_frame (s.queue.begin? = some info)
    refine .inr ⟨info, mem_of_find?_eq_some hfind, hid, _, ?_, ?_, ?_, ?_, ?_, rfl⟩
    · exact congrArg (TimerQueue.erase · info) hqueue
    · exact hnow
    · exact hnext
    · exact hexec
    · exact hpend

theorem cancelImpl_frame (s : Scheduler) (id : ℕ) :
    (s.cancelImpl id).now = s.now ∧ (s.cancelImpl id).nextId = s.nextId := by
  rcases s.cancelImpl_cases id with ⟨-, heq⟩ | ⟨_, -, -, s', -, hnow, hnext, -, -, heq⟩
  · rw [heq]
    exact ⟨rfl, rfl⟩
  · rw [heq]
    split
    · exact ⟨hnow, hnext⟩
    · rw [now_scheduleNext, nextId_scheduleNext]
      exact ⟨hnow, hnext⟩

/-- The event with this identifier is taken out of the queue. -/
theorem queue_cancelImpl (hnodup : s.queue.infos.Nodup)
    (hids : ∀ a ∈ s.queue.infos, ∀ b ∈ s.queue.infos, a.id = b.id → a = b) (id : ℕ) :
    (s.cancelImpl id).queue.infos.Nodup ∧ ∀ info,
      info ∈ (s.cancelImpl id).queue.infos ↔ info ∈ s.queue.infos ∧ info.id ≠ id := by
  rcases s.cancelImpl_cases id with ⟨hnone, heq⟩ | ⟨info, hmem, rfl, s', hqueue, -, -, -, -, heq⟩
  · rw [heq]
    exact ⟨hnodup, fun info => ⟨fun hmem => ⟨hmem, hnone info hmem⟩, And.left⟩⟩
  · have hqueue' : (s.cancelImpl info.id).queue = s.queue.erase info := by
      rw [heq]
      split
      · exact hqueue
      · rw [queue_scheduleNext, hqueue]
    rw [hqueue']
    refine ⟨hnodup.erase info, fun other => ?_⟩
    rw [TimerQueue.erase, hnodup.mem_erase_iff]
    constructor
    · rintro ⟨hne, hother⟩
      exact ⟨hother, fun hid => hne (hids other hother info hmem hid)⟩
    · rintro ⟨hother, hne⟩
      exact ⟨fun heq => hne (congrArg EventInfo.id heq), hother⟩

theorem Timely.cancelImpl (h : s.Timely) (id : ℕ) : (s.cancelImpl id).Timely := by
  rcases s.cancelImpl_cases id with ⟨-, heq⟩ | ⟨info, -, -, s', hqueue, hnow, -, -, hpend, heq⟩
  · rw [heq]
    exact h
  · have hdue : ∀ info ∈ s'.queue.infos, s'.now ≤ info.expireTime := by
      intro other hmem
      rw [hqueue] at hmem
      rw [hnow]
      exact h.due other (mem_of_mem_erase hmem)
    have hfuture : ∀ uid time, s'.simulator.Pending uid time → s'.now ≤ time := by
      intro uid time hpend'
      rw [hnow]
      exact h.future uid time (hpend uid time hpend')
    rw [heq]
    split
    · rename_i hexec
      exact timely_of_executing hexec hdue hfuture
    · exact timely_scheduleNext hdue hfuture

theorem Timely.cancelAllEvents (h : s.Timely) : s.cancelAllEvents.Timely := by
  refine ⟨fun info hmem => ?_, fun uid time hpend => ?_, fun _ info hmem => ?_⟩
  · rw [infos_cancelAllEvents] at hmem
    cases hmem
  · have hpend' : s.simulator.Pending uid time :=
      pending_of_removeTimerEvent (s := { s with queue := .empty }) hpend
    rw [Scheduler.cancelAllEvents, now_removeTimerEvent]
    exact h.future uid time hpend'
  · rw [infos_cancelAllEvents] at hmem
    cases hmem

theorem Timely.executeEnd (h : s.Timely) : s.executeEnd.Timely :=
  timely_scheduleNext h.due h.future

/-- The clock goes on. -/
theorem Timely.elapse (h : s.Timely) (hidle : s.isEventExecuting = false) {duration : ℕ}
    (hrun : ∀ uid time, s.simulator.Pending uid time → s.now + duration ≤ time) :
    ({ s with now := s.now + duration } : Scheduler).Timely := by
  refine ⟨fun info hmem => ?_, hrun, h.armed⟩
  obtain ⟨uid, time, hpend, hle⟩ := h.armed hidle info hmem
  exact Nat.le_trans (hrun uid time hpend) hle

end Scheduler

open Scheduler

/-! ### Runs -/

/-- The scheduler with a record of what has happened. -/
structure Timers where
  scheduler : Scheduler
  /-- All events, in the order in which they were scheduled. -/
  scheduled : List EventInfo
  /-- The events that were cancelled when they had not run. -/
  cancelled : List EventInfo
  /-- The callbacks that were called, with the time of the call. -/
  ran : List (EventInfo × ℕ)

namespace Timers

inductive Event
  | scheduleEvent (after : ℕ)
  | cancel (id : ℕ)
  | cancelAllEvents
  /-- The simulator calls `executeEvent`. -/
  | execute (uid : ℕ)
  /-- `executeEvent` calls the callback of the first event. -/
  | callback
  /-- `executeEvent` returns. -/
  | finish
  | elapse (duration : ℕ)

/-- The callback of the event has been called. -/
def HasRun (t : Timers) (info : EventInfo) : Prop := info ∈ t.ran.map Prod.fst

instance (t : Timers) (info : EventInfo) : Decidable (t.HasRun info) :=
  inferInstanceAs (Decidable (info ∈ t.ran.map Prod.fst))

def next (t : Timers) : Event → Timers
  | .scheduleEvent after =>
      { t with
        scheduler := t.scheduler.scheduleEvent after
        scheduled := t.scheduled ++ [⟨t.scheduler.nextId, t.scheduler.now + after⟩] }
  | .cancel id =>
      { t with
        scheduler := t.scheduler.cancelImpl id
        cancelled := t.cancelled ++ t.scheduled.filter fun info => info.id = id ∧ ¬ t.HasRun info }
  | .cancelAllEvents =>
      { t with
        scheduler := t.scheduler.cancelAllEvents
        cancelled := t.cancelled ++ t.scheduled.filter fun info => ¬ t.HasRun info }
  | .execute uid =>
      { t with
        scheduler :=
          { t.scheduler with simulator := t.scheduler.simulator.cancel uid }.executeBegin }
  | .callback =>
      match t.scheduler.expired? with
      | none => t
      | some info =>
          { t with
            scheduler := { t.scheduler with queue := t.scheduler.queue.erase info }
            ran := t.ran ++ [(info, t.scheduler.now)] }
  | .finish => { t with scheduler := t.scheduler.executeEnd }
  | .elapse duration =>
      { t with scheduler := { t.scheduler with now := t.scheduler.now + duration } }

/-- Calls of the scheduler may come at any time, also from callbacks. -/
def guard (t : Timers) : Event → Prop
  | .execute uid => t.scheduler.isEventExecuting = false ∧
      t.scheduler.simulator.Pending uid t.scheduler.now
  | .callback => t.scheduler.isEventExecuting = true ∧ t.scheduler.expired?.isSome
  | .finish => t.scheduler.isEventExecuting = true ∧ t.scheduler.expired? = none
  | .elapse duration => t.scheduler.isEventExecuting = false ∧
      ∀ uid time, t.scheduler.simulator.Pending uid time → t.scheduler.now + duration ≤ time
  | _ => True

def machine : System Timers Event where
  init t := ∃ now, t = ⟨.construct now, [], [], []⟩
  guard := guard
  next := next

/-- What is known of every run. The events in the queue are those that were
scheduled and have neither run nor been cancelled. -/
structure Recorded (t : Timers) : Prop where
  timely : t.scheduler.Timely
  waiting : ∀ info, info ∈ t.scheduler.queue.infos ↔
    info ∈ t.scheduled ∧ ¬ t.HasRun info ∧ info ∉ t.cancelled
  nodup : t.scheduler.queue.infos.Nodup
  fresh : ∀ info ∈ t.scheduled, info.id < t.scheduler.nextId
  distinct : (t.scheduled.map EventInfo.id).Nodup
  known : ∀ info ∈ t.cancelled, info ∈ t.scheduled
  once : (t.ran.map Prod.fst).Nodup
  onTime : ∀ r ∈ t.ran, r.1 ∈ t.scheduled ∧ r.1 ∉ t.cancelled ∧ r.2 = r.1.expireTime ∧
    r.2 ≤ t.scheduler.now
  ordered : t.ran.Pairwise fun a b => a.1.expireTime ≤ b.1.expireTime

theorem timely_construct (now : ℕ) : (construct now).Timely where
  due _ hmem := absurd hmem not_mem_nil
  future _ _ hpend := absurd hpend not_pending_empty
  armed _ _ hmem := absurd hmem not_mem_nil

variable {t : Timers}

theorem recorded_init (h : machine.init t) : t.Recorded := by
  obtain ⟨now, rfl⟩ := h
  refine ⟨timely_construct now, fun info => ?_, .nil, ?_, .nil, ?_, .nil, ?_, .nil⟩
  · exact iff_of_false not_mem_nil fun hmem => not_mem_nil hmem.1
  · exact forall_mem_nil _
  · exact forall_mem_nil _
  · exact forall_mem_nil _

section

variable (h : t.Recorded)
include h

theorem Recorded.scheduleEvent (after : ℕ) : (t.next (.scheduleEvent after)).Recorded := by
  generalize hinfo : (⟨t.scheduler.nextId, t.scheduler.now + after⟩ : EventInfo) = info
  have hid : info.id = t.scheduler.nextId := by rw [← hinfo]
  have hnew : info ∉ t.scheduled := fun hmem => by
    have hlt := h.fresh info hmem
    omega
  obtain ⟨hqueue, hnow, hnext⟩ := t.scheduler.scheduleEvent_frame after
  rw [hinfo] at hqueue
  have hrun : ¬ t.HasRun info := fun hmem => by
    obtain ⟨r, hr, rfl⟩ := mem_map.mp hmem
    exact hnew (h.onTime r hr).1
  have hqueued : info ∉ t.scheduler.queue.infos := fun hmem => hnew ((h.waiting info).mp hmem).1
  rw [next, hinfo]
  refine ⟨h.timely.scheduleEvent after, fun other => ?_, ?_, fun other hmem => ?_, ?_,
    fun other hmem => ?_, h.once, fun r hr => ?_, h.ordered⟩
  · rw [hqueue, mem_insert, h.waiting, mem_append, mem_singleton]
    constructor
    · rintro (rfl | ⟨hmem, hrest⟩)
      · exact ⟨.inr rfl, hrun, fun hmem => hnew (h.known _ hmem)⟩
      · exact ⟨.inl hmem, hrest⟩
    · rintro ⟨hmem | rfl, hrest⟩
      · exact .inr ⟨hmem, hrest⟩
      · exact .inl rfl
  · rw [hqueue]
    exact nodup_insert h.nodup hqueued
  · rw [hnext]
    rcases mem_append.mp hmem with hmem | hmem
    · exact Nat.lt_succ_of_lt (h.fresh other hmem)
    · rw [mem_singleton.mp hmem, hid]
      exact Nat.lt_succ_self _
  · rw [map_append]
    refine Nodup.append h.distinct (nodup_singleton _) ?_
    rintro id hmem hmem'
    obtain ⟨other, hother, rfl⟩ := mem_map.mp hmem
    have hlt := h.fresh other hother
    have heq : other.id = info.id := by simpa using hmem'
    omega
  · exact mem_append_left _ (h.known other hmem)
  · obtain ⟨hmem, hrest⟩ := h.onTime r hr
    rw [hnow]
    exact ⟨mem_append_left _ hmem, hrest⟩

variable {t' : Timers}

/-- Cancelling takes the events that have not run out of the queue. -/
theorem Recorded.cancel_of {p : EventInfo → Prop} [DecidablePred p]
    (htimely : t'.scheduler.Timely) (hqueue : ∀ info, info ∈ t'.scheduler.queue.infos ↔
      info ∈ t.scheduler.queue.infos ∧ ¬ p info) (hnodup : t'.scheduler.queue.infos.Nodup)
    (hnow : t'.scheduler.now = t.scheduler.now) (hnext : t'.scheduler.nextId = t.scheduler.nextId)
    (hscheduled : t'.scheduled = t.scheduled) (hran : t'.ran = t.ran)
    (hcancelled : t'.cancelled = t.cancelled ++
      t.scheduled.filter fun info => p info ∧ ¬ t.HasRun info) : t'.Recorded := by
  have hmem : ∀ info, info ∈ t'.cancelled ↔
      info ∈ t.cancelled ∨ info ∈ t.scheduled ∧ p info ∧ ¬ t.HasRun info := by
    intro info
    simp [hcancelled]
  have hrun : ∀ info, t'.HasRun info ↔ t.HasRun info := by
    intro info
    rw [HasRun, hran, HasRun]
  refine ⟨htimely, fun info => ?_, hnodup, ?_, hscheduled ▸ h.distinct, fun info hinfo => ?_,
    hran ▸ h.once, fun r hr => ?_, hran ▸ h.ordered⟩
  · rw [hqueue, h.waiting, hrun, hmem, hscheduled]
    tauto
  · rw [hnext, hscheduled]
    exact h.fresh
  · rw [hscheduled]
    rcases (hmem info).mp hinfo with hinfo | hinfo
    · exact h.known info hinfo
    · exact hinfo.1
  · rw [hran] at hr
    obtain ⟨hsched, hnot, htime⟩ := h.onTime r hr
    rw [hscheduled, hnow, hmem]
    refine ⟨hsched, ?_, htime⟩
    rintro (hmem | ⟨-, -, hnot'⟩)
    · exact hnot hmem
    · exact hnot' (mem_map_of_mem hr)

theorem Recorded.eq_of_id :
    ∀ a ∈ t.scheduler.queue.infos, ∀ b ∈ t.scheduler.queue.infos, a.id = b.id → a = b :=
  fun a ha b hb =>
    inj_on_of_nodup_map h.distinct ((h.waiting a).mp ha).1 ((h.waiting b).mp hb).1

theorem Recorded.cancel (id : ℕ) : (t.next (.cancel id)).Recorded := by
  obtain ⟨hnow, hnext⟩ := t.scheduler.cancelImpl_frame id
  obtain ⟨hnodup, hqueue⟩ := queue_cancelImpl h.nodup h.eq_of_id id
  exact h.cancel_of (p := fun info => info.id = id) (h.timely.cancelImpl id) hqueue hnodup hnow
    hnext rfl rfl rfl

theorem Recorded.cancelAllEvents : (t.next .cancelAllEvents).Recorded := by
  refine h.cancel_of (p := fun _ => True) h.timely.cancelAllEvents (fun info => ?_) ?_ ?_ ?_ rfl rfl
    ?_
  · simp [next, infos_cancelAllEvents]
  · rw [next, infos_cancelAllEvents]
    exact nodup_nil
  · exact Scheduler.now_removeTimerEvent _
  · exact nextId_removeTimerEvent _
  · simp [next]

/-- Events that neither schedule nor cancel nor run anything. -/
theorem Recorded.of_scheduler {s : Scheduler} (htimely : s.Timely)
    (hqueue : s.queue = t.scheduler.queue) (hnow : t.scheduler.now ≤ s.now)
    (hnext : s.nextId = t.scheduler.nextId) : Recorded { t with scheduler := s } := by
  refine ⟨htimely, ?_, ?_, ?_, h.distinct, h.known, h.once, fun r hr => ?_, h.ordered⟩
  · rw [hqueue]
    exact h.waiting
  · rw [hqueue]
    exact h.nodup
  · rw [hnext]
    exact h.fresh
  · obtain ⟨hsched, hnot, htime, hle⟩ := h.onTime r hr
    exact ⟨hsched, hnot, htime, Nat.le_trans hle hnow⟩

/-- An event runs when it expires, and not before. -/
theorem Recorded.callback (hexec : t.scheduler.isEventExecuting = true) :
    (t.next .callback).Recorded := by
  rw [next]
  cases hexpired : t.scheduler.expired? with
  | none => exact h
  | some info =>
    obtain ⟨hbegin, hle⟩ := expired?_eq_some.mp hexpired
    have hmem := mem_of_begin? hbegin
    have htime : t.scheduler.now = info.expireTime := Nat.le_antisymm (h.timely.due info hmem) hle
    obtain ⟨hsched, hrun, hnot⟩ := (h.waiting info).mp hmem
    have hdue : ∀ other ∈ t.scheduler.queue.infos.erase info,
        t.scheduler.now ≤ other.expireTime :=
      fun other hother => h.timely.due other (mem_of_mem_erase hother)
    refine ⟨timely_of_executing hexec hdue h.timely.future, fun other => ?_,
      h.nodup.erase info, h.fresh, h.distinct, h.known, ?_, fun r hr => ?_, ?_⟩
    · dsimp only
      rw [TimerQueue.erase, h.nodup.mem_erase_iff, h.waiting, HasRun, HasRun, map_append,
        mem_append, map_singleton, mem_singleton]
      tauto
    · rw [map_append, map_singleton]
      exact Nodup.append h.once (nodup_singleton _)
        (disjoint_singleton.mpr hrun)
    · rcases mem_append.mp hr with hr | hr
      · exact h.onTime r hr
      · rw [mem_singleton.mp hr]
        exact ⟨hsched, hnot, htime, Nat.le_refl _⟩
    · refine pairwise_append.mpr ⟨h.ordered, pairwise_singleton _ _, ?_⟩
      intro r hr r' hr'
      obtain ⟨-, -, heq, hle'⟩ := h.onTime r hr
      rw [mem_singleton.mp hr']
      calc r.1.expireTime = r.2 := heq.symm
        _ ≤ t.scheduler.now := hle'
        _ = info.expireTime := htime

variable {e : Event}

theorem Recorded.next (hguard : t.guard e) : (t.next e).Recorded := by
  cases e with
  | scheduleEvent after => exact h.scheduleEvent after
  | cancel id => exact h.cancel id
  | cancelAllEvents => exact h.cancelAllEvents
  | execute uid =>
    refine h.of_scheduler ?_ rfl (Nat.le_refl _) rfl
    exact timely_of_executing rfl h.timely.due fun uid' time hpend =>
      h.timely.future uid' time (pending_cancel.mp hpend).1
  | callback => exact h.callback hguard.1
  | finish =>
    refine h.of_scheduler h.timely.executeEnd ?_ ?_ ?_
    · exact queue_scheduleNext _
    · exact Nat.le_of_eq
        (now_scheduleNext { t.scheduler with isEventExecuting := false }).symm
    · exact nextId_scheduleNext _
  | elapse duration =>
    exact h.of_scheduler (h.timely.elapse hguard.1 hguard.2) rfl (Nat.le_add_right _ _) rfl

end

theorem recorded_of_reachable (h : machine.Reachable t) : t.Recorded :=
  h.invariant (fun _ => recorded_init) fun _ _ hrec hguard => hrec.next hguard

/-! ### Every event runs -/

/-- What happens without a call of the scheduler. -/
def Event.internal : Event → Bool
  | .execute _ => true
  | .callback => true
  | .finish => true
  | .elapse _ => true
  | _ => false

/-- The requests that come before the first event expires. -/
def early (t : Timers) (first : EventInfo) : ℕ :=
  (t.scheduler.simulator.pending.filter fun e => e.2 < first.expireTime).length

/-- The second state is reached from the first without a call of the scheduler. -/
def Proceeds (t t' : Timers) : Prop :=
  ∃ es, (∀ e ∈ es, e.internal = true) ∧ machine.Run t es t'

theorem Proceeds.refl (t : Timers) : Proceeds t t := ⟨[], forall_mem_nil _, .nil t⟩

theorem Proceeds.trans {t'' : Timers} (h : Proceeds t t') (h' : Proceeds t' t'') :
    Proceeds t t'' := by
  obtain ⟨es, hes, hrun⟩ := h
  obtain ⟨es', hes', hrun'⟩ := h'
  refine ⟨es ++ es', fun e he => ?_, hrun.append hrun'⟩
  rcases mem_append.mp he with he | he
  · exact hes e he
  · exact hes' e he

theorem proceeds_next (hguard : t.guard e) (he : e.internal = true) : Proceeds t (t.next e) := by
  refine ⟨[e], fun e' he' => ?_, .single (M := machine) hguard⟩
  rw [mem_singleton.mp he']
  exact he

theorem Proceeds.recorded (h : Proceeds t t') (hrec : t.Recorded) : t'.Recorded := by
  obtain ⟨es, -, hrun⟩ := h
  exact hrun.invariant (fun _ _ hrec hguard => hrec.next hguard) hrec

/-- Time may have passed and requests may have been met, but no event has run. -/
structure Idles (t t' : Timers) : Prop where
  proceeds : Proceeds t t'
  queue : t'.scheduler.queue = t.scheduler.queue
  scheduled : t'.scheduled = t.scheduled
  cancelled : t'.cancelled = t.cancelled

/-- One event has run. -/
structure Runs (t : Timers) (info : EventInfo) (t' : Timers) : Prop where
  proceeds : Proceeds t t'
  hasRun : t'.HasRun info
  queue : t'.scheduler.queue = t.scheduler.queue.erase info
  scheduled : t'.scheduled = t.scheduled
  cancelled : t'.cancelled = t.cancelled

variable {info : EventInfo}

theorem Idles.runs {t'' : Timers} (h : Idles t t') (h' : Runs t' info t'') : Runs t info t'' :=
  ⟨h.proceeds.trans h'.proceeds, h'.hasRun, h.queue ▸ h'.queue, h'.scheduled.trans h.scheduled,
    h'.cancelled.trans h.cancelled⟩

section

variable {first : EventInfo} (hfirst : t.scheduler.queue.begin? = some first)
include hfirst

/-- The loop calls the callback of the first event. -/
theorem exists_runs_callback (hexec : t.scheduler.isEventExecuting = true)
    (hexpired : first.expireTime ≤ t.scheduler.now) : ∃ t', Runs t first t' := by
  have hsome := expired?_eq_some.mpr ⟨hfirst, hexpired⟩
  have hguard : t.guard .callback := ⟨hexec, by rw [hsome]; rfl⟩
  have hnext : t.next .callback =
      { t with
        scheduler := { t.scheduler with queue := t.scheduler.queue.erase first }
        ran := t.ran ++ [(first, t.scheduler.now)] } := by
    rw [next, hsome]
  refine ⟨t.next .callback, proceeds_next hguard rfl, ?_, ?_, ?_, ?_⟩
  · rw [HasRun, hnext, map_append]
    exact mem_append_right _ (mem_singleton.mpr rfl)
  · rw [hnext]
  · rw [hnext]
  · rw [hnext]

/-- The loop ends when the first event has not expired yet. -/
theorem exists_idles_finish (hexec : t.scheduler.isEventExecuting = true)
    (hlate : t.scheduler.now < first.expireTime) :
    ∃ t', Idles t t' ∧ t'.scheduler.isEventExecuting = false ∧
      t'.early first = t.early first := by
  have hnone : t.scheduler.expired? = none := by
    rw [expired?, hfirst]
    simp [hlate]
  have hguard : t.guard .finish := ⟨hexec, hnone⟩
  refine ⟨t.next .finish, ⟨proceeds_next hguard rfl, ?_, rfl, rfl⟩, ?_, ?_⟩
  · exact queue_scheduleNext _
  · exact isEventExecuting_scheduleNext _
  · -- The new request comes when the first event expires.
    rw [early, early, next, executeEnd, scheduleNext, hfirst]
    dsimp only [schedule]
    rw [EventInfo.now_add_expiresFromNow (Nat.le_of_lt hlate), filter_append]
    simp

/-- The simulator meets its next request. -/
theorem Recorded.exists_idles_execute (h : t.Recorded)
    (hidle : t.scheduler.isEventExecuting = false) :
    ∃ t', Idles t t' ∧ t'.scheduler.isEventExecuting = true ∧
      (first.expireTime ≤ t'.scheduler.now ∨ t'.early first < t.early first) := by
  obtain ⟨uid₀, time₀, hpend₀, -⟩ := h.timely.armed hidle first (mem_of_begin? hfirst)
  classical
  have hex : ∃ time uid, t.scheduler.simulator.Pending uid time := ⟨time₀, uid₀, hpend₀⟩
  obtain ⟨uid, hpend⟩ := Nat.find_spec hex
  have hmin : ∀ uid' time', t.scheduler.simulator.Pending uid' time' → Nat.find hex ≤ time' :=
    fun uid' time' hpend' => Nat.find_min' hex ⟨uid', hpend'⟩
  generalize Nat.find hex = time at hpend hmin
  have hnow : t.scheduler.now + (time - t.scheduler.now) = time :=
    Nat.add_sub_of_le (h.timely.future uid time hpend)
  have helapse : t.guard (.elapse (time - t.scheduler.now)) :=
    ⟨hidle, fun uid' time' hpend' => Nat.le_trans (Nat.le_of_eq hnow) (hmin uid' time' hpend')⟩
  have hexecute : (t.next (.elapse (time - t.scheduler.now))).guard (.execute uid) := by
    refine ⟨hidle, ?_⟩
    change t.scheduler.simulator.Pending uid (t.scheduler.now + (time - t.scheduler.now))
    rw [hnow]
    exact hpend
  have hproceeds := (proceeds_next helapse rfl).trans (proceeds_next hexecute rfl)
  refine ⟨_, ⟨hproceeds, rfl, rfl, rfl⟩, rfl, ?_⟩
  by_cases hlate : first.expireTime ≤ time
  · exact .inl (Nat.le_trans hlate (Nat.le_of_eq hnow.symm))
  · refine .inr ?_
    change ((t.scheduler.simulator.cancel uid).pending.filter _).length < _
    rw [EventQueue.cancel, filter_comm, early]
    refine (length_filter_lt_length_iff_exists ..).mpr ⟨(uid, time), ?_, by simp⟩
    exact mem_filter.mpr ⟨hpend, by simpa using hlate⟩

theorem Recorded.exists_runs_of_idle (h : t.Recorded)
    (hidle : t.scheduler.isEventExecuting = false) : ∃ t', Runs t first t' := by
  -- By induction on the number of requests that come too early for the event.
  induction hn : t.early first using Nat.strongRecOn generalizing t with
  | ind n ih =>
    obtain ⟨t₁, hidles, hexec, hcases⟩ := h.exists_idles_execute hfirst hidle
    have hfirst₁ : t₁.scheduler.queue.begin? = some first := by rw [hidles.queue, hfirst]
    by_cases hexpired : first.expireTime ≤ t₁.scheduler.now
    · obtain ⟨t', hruns⟩ := exists_runs_callback hfirst₁ hexec hexpired
      exact ⟨t', hidles.runs hruns⟩
    · obtain ⟨t₂, hidles₂, hidle₂, hearly⟩ :=
        exists_idles_finish hfirst₁ hexec (Nat.lt_of_not_le hexpired)
      have hlt : t₂.early first < n := by
        rw [hearly, ← hn]
        exact hcases.resolve_left hexpired
      have hrec₂ := hidles₂.proceeds.recorded (hidles.proceeds.recorded h)
      have hfirst₂ : t₂.scheduler.queue.begin? = some first := by rw [hidles₂.queue, hfirst₁]
      obtain ⟨t', hruns⟩ := ih _ hlt hfirst₂ hrec₂ hidle₂ rfl
      exact ⟨t', hidles.runs (hidles₂.runs hruns)⟩

theorem Recorded.exists_runs (h : t.Recorded) : ∃ t', Runs t first t' := by
  cases hexec : t.scheduler.isEventExecuting with
  | false => exact h.exists_runs_of_idle hfirst hexec
  | true =>
    by_cases hexpired : first.expireTime ≤ t.scheduler.now
    · exact exists_runs_callback hfirst hexec hexpired
    · obtain ⟨t₁, hidles, hidle, -⟩ :=
        exists_idles_finish hfirst hexec (Nat.lt_of_not_le hexpired)
      have hfirst₁ : t₁.scheduler.queue.begin? = some first := by rw [hidles.queue, hfirst]
      obtain ⟨t', hruns⟩ := (hidles.proceeds.recorded h).exists_runs_of_idle hfirst₁ hidle
      exact ⟨t', hidles.runs hruns⟩

end

/-- An event that waits runs, if the simulator goes on without further calls. -/
theorem Recorded.exists_proceeds (h : t.Recorded) (hmem : info ∈ t.scheduler.queue.infos) :
    ∃ t', Proceeds t t' ∧ t'.HasRun info := by
  induction hn : t.scheduler.queue.infos.length using Nat.strongRecOn generalizing t with
  | ind n ih =>
    cases hfirst : t.scheduler.queue.begin? with
    | none =>
      rw [begin?_eq_none.mp hfirst] at hmem
      cases hmem
    | some first =>
      obtain ⟨t₁, hruns⟩ := h.exists_runs hfirst
      by_cases heq : info = first
      · exact ⟨t₁, hruns.proceeds, heq ▸ hruns.hasRun⟩
      · have hmem₁ : info ∈ t₁.scheduler.queue.infos := by
          rw [hruns.queue]
          exact (mem_erase_of_ne heq).mpr hmem
        have hlt : t₁.scheduler.queue.infos.length < n := by
          rw [hruns.queue, TimerQueue.erase, ← hn, length_erase_of_mem (mem_of_begin? hfirst)]
          exact Nat.sub_lt (length_pos_of_mem hmem) Nat.one_pos
        obtain ⟨t', hproceeds, hrun⟩ := ih _ hlt (hruns.proceeds.recorded h) hmem₁ rfl
        exact ⟨t', hruns.proceeds.trans hproceeds, hrun⟩

/-- No event is lost and none runs twice: in every run, the callbacks that were called
are those of scheduled events that were not cancelled before, each called once and
when it expires, in the order of expiry; and of the other events that were not
cancelled, none has been passed by the clock, and each still runs if the simulator
goes on. -/
theorem runs_once_at_expiry {t : Timers} (h : machine.Reachable t) :
    (∀ r ∈ t.ran, r.1 ∈ t.scheduled ∧ r.2 = r.1.expireTime) ∧
      (t.ran.map Prod.fst).Nodup ∧
      (t.ran.Pairwise fun a b => a.1.expireTime ≤ b.1.expireTime) ∧
      (∀ info ∈ t.cancelled, ¬ t.HasRun info) ∧
      ∀ info ∈ t.scheduled, info ∉ t.cancelled →
        (info.expireTime < t.scheduler.now → t.HasRun info) ∧
          ∃ t', Proceeds t t' ∧ t'.HasRun info := by
  have hrec := recorded_of_reachable h
  refine ⟨fun r hr => ?_, hrec.once, hrec.ordered, fun info hmem hrun => ?_,
    fun info hmem hnot => ?_⟩
  · obtain ⟨hmem, -, htime, -⟩ := hrec.onTime r hr
    exact ⟨hmem, htime⟩
  · obtain ⟨r, hr, rfl⟩ := List.mem_map.mp hrun
    exact (hrec.onTime r hr).2.1 hmem
  · by_cases hrun : t.HasRun info
    · exact ⟨fun _ => hrun, t, .refl t, hrun⟩
    · have hqueued := (hrec.waiting info).mpr ⟨hmem, hrun, hnot⟩
      refine ⟨fun hlate => ?_, hrec.exists_proceeds hqueued⟩
      exact absurd hlate (Nat.not_lt.mpr (hrec.timely.due info hqueued))

/-- The first of two events is cancelled, then the other one runs. The requests that
were made for the first and after the cancellation stay with the simulator. -/
def oneOfTwo : List Event :=
  [.scheduleEvent 5, .scheduleEvent 3, .cancel 0, .elapse 3, .execute 1, .callback, .finish]

theorem runs_once_at_expiry_oneOfTwo :
    let t := oneOfTwo.foldl next ⟨.construct 0, [], [], []⟩
    t.ran = [(⟨1, 3⟩, 3)] ∧ t.cancelled = [⟨0, 5⟩] ∧ machine.Reachable t ∧
      ((∀ r ∈ t.ran, r.1 ∈ t.scheduled ∧ r.2 = r.1.expireTime) ∧
        (t.ran.map Prod.fst).Nodup ∧
        (t.ran.Pairwise fun a b => a.1.expireTime ≤ b.1.expireTime) ∧
        (∀ info ∈ t.cancelled, ¬ t.HasRun info) ∧
        ∀ info ∈ t.scheduled, info ∉ t.cancelled →
          (info.expireTime < t.scheduler.now → t.HasRun info) ∧
            ∃ t', Proceeds t t' ∧ t'.HasRun info) := by
  have hinit : machine.Reachable ⟨.construct 0, [], [], []⟩ := .of_init ⟨0, rfl⟩
  have henabled : machine.Enabled ⟨.construct 0, [], [], []⟩ oneOfTwo := by
    refine .cons trivial (.cons trivial (.cons trivial (.cons ⟨rfl, ?_⟩ (.cons ⟨rfl, ?_⟩
      (.cons ⟨rfl, rfl⟩ (.cons ⟨rfl, rfl⟩ (.nil _)))))))
    · intro uid time hpend
      have hmem : (uid, time) ∈ [(0, 5), (1, 3), (2, 3)] := hpend
      have hall : ∀ e ∈ [(0, 5), (1, 3), (2, 3)], 0 + 3 ≤ e.2 := by decide
      exact hall (uid, time) hmem
    · exact List.mem_cons_of_mem _ List.mem_cons_self
  have hreach := hinit.foldl henabled
  exact ⟨by decide, by decide, hreach, runs_once_at_expiry hreach⟩

/-! ### What clients see -/

/-- The pending callbacks are those of the events in the queue. -/
structure Presents (q : EventQueue ℕ) (t : Timers) : Prop where
  nextId : q.nextId = t.scheduler.nextId
  pending : ∀ id time, q.Pending id time ↔ ⟨id, time⟩ ∈ t.scheduler.queue.infos

/-- What the clients of the scheduler see of an event. -/
def seen (t : Timers) : Event → List (EventQueue.Op ℕ)
  | .scheduleEvent after => [.schedule (t.scheduler.now + after)]
  | .cancel id => [.cancel id]
  | .cancelAllEvents => (t.scheduler.queue.infos.map EventInfo.id).map .cancel
  | .callback => t.scheduler.expired?.toList.map fun info => .fire info.id
  | .execute _ | .finish | .elapse _ => []

variable {q : EventQueue ℕ}

/-- What the clients do not see leaves the callbacks alone. -/
theorem Presents.of_scheduler (h : Presents q t) (hnext : t'.scheduler.nextId = t.scheduler.nextId)
    (hqueue : t'.scheduler.queue = t.scheduler.queue) : Presents q t' :=
  ⟨hnext ▸ h.nextId, hqueue ▸ h.pending⟩

/-- The firing of an event takes its callback away, and no other. -/
theorem Presents.erase (h : Presents q t) (hrec : t.Recorded)
    (hmem : info ∈ t.scheduler.queue.infos) (id time : ℕ) :
    (q.cancel info.id).Pending id time ↔ ⟨id, time⟩ ∈ (t.scheduler.queue.erase info).infos := by
  rw [pending_cancel, h.pending, TimerQueue.erase, hrec.nodup.mem_erase_iff]
  constructor
  · rintro ⟨hold, hne⟩
    exact ⟨fun heq => hne (congrArg EventInfo.id heq), hold⟩
  · rintro ⟨hne, hold⟩
    exact ⟨hold, fun hid => hne (hrec.eq_of_id _ hold _ hmem hid)⟩

/-- The scheduler refines the event queue of its clients. -/
theorem Presents.next (h : Presents q t) (hrec : t.Recorded) (hguard : t.guard e) :
    ∃ q', system.Run q (t.seen e) q' ∧ Presents q' (t.next e) := by
  cases e with
  | scheduleEvent after =>
    obtain ⟨hqueue, -, hnext⟩ := t.scheduler.scheduleEvent_frame after
    refine ⟨_, .single (M := system) trivial, ?_, fun id time => ?_⟩
    · exact (congrArg (· + 1) h.nextId).trans hnext.symm
    · refine pending_schedule.trans ?_
      rw [Timers.next, hqueue, mem_insert, h.pending, h.nextId, EventInfo.mk.injEq, or_comm]
  | cancel id =>
    obtain ⟨-, hqueue⟩ := queue_cancelImpl hrec.nodup hrec.eq_of_id id
    refine ⟨_, .single (M := system) trivial, ?_, fun id' time => ?_⟩
    · exact h.nextId.trans (t.scheduler.cancelImpl_frame id).2.symm
    · refine pending_cancel.trans ?_
      rw [h.pending, Timers.next, hqueue]
  | cancelAllEvents =>
    obtain ⟨q', hrun, hnext, hpend⟩ :=
      q.exists_run_cancel (t.scheduler.queue.infos.map EventInfo.id)
    refine ⟨q', hrun, ?_, fun id time => ?_⟩
    · rw [hnext, h.nextId, Timers.next, Scheduler.cancelAllEvents, nextId_removeTimerEvent]
    · rw [hpend, Timers.next, Scheduler.cancelAllEvents, Scheduler.queue_removeTimerEvent]
      refine iff_of_false ?_ not_mem_nil
      rintro ⟨hold, hnot⟩
      exact hnot (mem_map_of_mem ((h.pending id time).mp hold))
  | callback =>
    obtain ⟨info, hexpired⟩ := Option.isSome_iff_exists.mp hguard.2
    have hmem := mem_of_begin? (expired?_eq_some.mp hexpired).1
    rw [seen, hexpired]
    refine ⟨_, .single (M := system) ⟨info.expireTime, (h.pending _ _).mpr hmem⟩, ?_, ?_⟩
    · rw [Timers.next, hexpired]
      exact h.nextId
    · rw [Timers.next, hexpired]
      exact h.erase hrec hmem
  | execute uid => exact ⟨q, .nil q, h.of_scheduler rfl rfl⟩
  | finish =>
    exact ⟨q, .nil q, h.of_scheduler (nextId_scheduleNext _) (queue_scheduleNext _)⟩
  | elapse duration => exact ⟨q, .nil q, h.of_scheduler rfl rfl⟩

/-- Every run of the scheduler is one of the event queue. -/
theorem exists_presents (h : machine.Reachable t) : ∃ q, system.Reachable q ∧ Presents q t := by
  refine h.induction (I := fun t => ∃ q, system.Reachable q ∧ Presents q t)
    (fun t hinit => ?_) fun t e hreach hinv hguard => ?_
  · obtain ⟨now, rfl⟩ := hinit
    refine ⟨.empty, .of_init rfl, rfl, fun id time => ?_⟩
    exact iff_of_false not_pending_empty not_mem_nil
  · obtain ⟨q, hq, hpresents⟩ := hinv
    obtain ⟨q', hrun, hpresents'⟩ := hpresents.next (recorded_of_reachable hreach) hguard
    exact ⟨q', hq.run hrun, hpresents'⟩

/-- Of two events the first has been cancelled. -/
def oneCancelled : Timers :=
  [.scheduleEvent 5, .scheduleEvent 7, .cancel 0].foldl next ⟨.construct 0, [], [], []⟩

theorem exists_presents_oneCancelled :
    ∃ q, system.Reachable q ∧ Presents q oneCancelled ∧ ¬ q.Pending 0 5 ∧ q.Pending 1 7 := by
  have hreach : machine.Reachable oneCancelled := System.Reachable.foldl (.of_init ⟨0, rfl⟩)
    (.cons trivial (.cons trivial (.cons trivial (.nil _))))
  obtain ⟨q, hq, hpresents⟩ := exists_presents hreach
  exact ⟨q, hq, hpresents, fun h => absurd ((hpresents.pending 0 5).mp h) (by decide),
    (hpresents.pending 1 7).mpr (by decide)⟩

end Timers

end ValProofs
