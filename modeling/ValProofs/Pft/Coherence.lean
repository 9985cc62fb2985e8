import ValProofs.Pft.Change

/-!
Every effect on the Pending Forwarding Table keeps it coherent. Each of the
cases first says which entries have a timer afterwards.
-/

namespace ValProofs.Pft

open Lib Entry Function List

namespace Pending

/-! ### Entered -/

variable {s : Pending} {outFaceId duration p : ℕ}

theorem hasTimer_enter {valPkt : ValPacket} :
    (s.enter valPkt outFaceId duration).HasTimer p ↔ s.HasTimer p ∨ p = s.nextPtr := by
  simp only [HasTimer, enter, EventQueue.pending_schedule]
  constructor
  · rintro ⟨id, callback, hpend | ⟨-, rfl⟩, rfl⟩
    · exact .inl ⟨id, callback, hpend, rfl⟩
    · exact .inr rfl
  · rintro (⟨id, callback, hpend, rfl⟩ | rfl)
    · exact ⟨id, callback, .inl hpend, rfl⟩
    · exact ⟨s.queue.nextId, _, .inr ⟨rfl, rfl⟩, rfl⟩

theorem heap_enter_of_lt {valPkt : ValPacket} (hp : p < s.nextPtr) :
    (s.enter valPkt outFaceId duration).heap p = s.heap p :=
  update_of_ne (Nat.ne_of_lt hp) _ _

theorem heap_enter_self (s : Pending) (valPkt : ValPacket) (outFaceId duration : ℕ) :
    (s.enter valPkt outFaceId duration).heap s.nextPtr =
      (make valPkt outFaceId).setTimer s.queue.nextId :=
  update_self _ _ _

theorem mem_table_enter {valPkt : ValPacket} :
    p ∈ (s.enter valPkt outFaceId duration).table ↔ p ∈ s.table ∨ p = s.nextPtr := by
  simp [enter]

variable {faces : FaceTable}

/-- What holds of the entries of the old table and of the new entry holds of
the entries of the new table. -/
theorem Coherent.forall_enter (h : Coherent faces s) {valPkt : ValPacket} {P : ℕ → Entry → Prop}
    (hold : ∀ p ∈ s.table, p < s.nextPtr → P p (s.heap p))
    (hnew : P s.nextPtr ((make valPkt outFaceId).setTimer s.queue.nextId)) :
    ∀ p ∈ (s.enter valPkt outFaceId duration).table,
      P p ((s.enter valPkt outFaceId duration).heap p) := by
  intro p hp
  rcases mem_table_enter.mp hp with hp | rfl
  · have hlt := h.allocated p hp
    rw [heap_enter_of_lt hlt]
    exact hold p hp hlt
  · rwa [heap_enter_self]

theorem Coherent.enter (h : Coherent faces s) {valPkt : ValPacket} (hset : valPkt.payload ≠ .notSet)
    (hface : faces.IsValNet outFaceId) (hnew : ∀ p ∈ s.table, ¬ s.isMatch valPkt p) :
    Coherent faces (s.enter valPkt outFaceId duration) where
  nodup := by
    refine nodup_append.mpr ⟨h.nodup, by simp, ?_⟩
    intro p hp q hq
    rw [mem_singleton.mp hq]
    exact Nat.ne_of_lt (h.allocated p hp)
  allocated := h.forall_enter (P := fun p _ => p < s.nextPtr + 1)
    (fun p _ hlt => Nat.lt_succ_of_lt hlt) (Nat.lt_succ_self _)
  nItens := by simp [Pending.enter, h.nItens]
  noMatch := by
    refine pairwise_append.mpr ⟨h.noMatch.imp_of_mem ?_, by simp, ?_⟩
    · intro p q hp hq hpq
      rwa [heap_enter_of_lt (h.allocated p hp), heap_enter_of_lt (h.allocated q hq)]
    · intro p hp q hq
      rw [mem_singleton.mp hq, heap_enter_of_lt (h.allocated p hp), heap_enter_self,
        ValPacket.sameNdnPacket_comm]
      exact hnew p hp
  isSet := h.forall_enter (P := fun _ entry => entry.valPkt.payload ≠ .notSet)
    (fun p hp _ => h.isSet p hp) hset
  owner p hp q hq t htp htq := h.owner_of_new
    (fun r hr _ => heap_enter_of_lt (h.allocated r hr))
    (congrArg timerId (heap_enter_self ..)) (mem_table_enter.mp hp) (mem_table_enter.mp hq)
    htp htq
  timerId_lt := by
    refine h.forall_enter (P := fun _ entry => ∀ t, entry.timerId = some t →
      t < s.queue.nextId + 1) (fun p hp _ t ht => ?_) ?_
    · exact Nat.lt_succ_of_lt (h.timerId_lt p hp t ht)
    · intro t ht
      simp only [setTimer, Option.some.injEq] at ht
      omega
  timer := by
    intro id callback hpend
    rcases EventQueue.pending_schedule.mp hpend with hpend | ⟨rfl, rfl⟩
    · have armed := h.timer id callback hpend
      exact armed.of_heap (mem_table_enter.mpr (.inl armed.mem))
        (heap_enter_of_lt (h.allocated _ armed.mem))
    · refine ⟨mem_table_enter.mpr (.inr rfl), ?_, ?_, ?_, hface⟩
      · rw [heap_enter_self]; rfl
      · rw [heap_enter_self]; exact ⟨fun _ => rfl, fun _ => rfl⟩
      · intro hkind; cases hkind
  forwarding := h.forall_enter
    (P := fun p entry => entry.state = .waitingForwarding → entry.tries = forwardingTries ∧
      (s.enter valPkt outFaceId duration).HasTimer p)
    (fun p hp _ hstate =>
      ⟨(h.forwarding p hp hstate).1, hasTimer_enter.mpr (.inl (h.forwarding p hp hstate).2)⟩)
    (fun _ => ⟨rfl, hasTimer_enter.mpr (.inr rfl)⟩)
  impAck := h.forall_enter
    (P := fun _ entry => entry.state = .waitingImplicitAck →
      1 ≤ entry.tries ∧ entry.tries ≤ maxImplicitAckTries)
    (fun p hp _ => h.impAck p hp) (fun hstate => nomatch hstate)
  data := h.forall_enter
    (P := fun p entry => entry.valPkt.isData →
      (s.enter valPkt outFaceId duration).HasTimer p)
    (fun p hp _ hdata => hasTimer_enter.mpr (.inl (h.data p hp hdata)))
    (fun _ => hasTimer_enter.mpr (.inr rfl))

variable {s' : Pending} {q : ℕ}

/-- Only timers are gone, those of the entries that are not in `keep`. -/
theorem hasTimer_iff (keep : ℕ → Prop) (h : ∀ id callback, s'.queue.Pending id callback ↔
      s.queue.Pending id callback ∧ keep callback.entry) :
    s'.HasTimer q ↔ s.HasTimer q ∧ keep q := by
  simp only [HasTimer, h]
  constructor
  · rintro ⟨id, callback, ⟨hpend, hne⟩, rfl⟩
    exact ⟨⟨id, callback, hpend, rfl⟩, hne⟩
  · rintro ⟨⟨id, callback, hpend, rfl⟩, hne⟩
    exact ⟨id, callback, ⟨hpend, hne⟩, rfl⟩

/-! ### Silenced -/

theorem Coherent.pending_silence (h : Coherent faces s) (hp : p ∈ s.table) {id : ℕ}
    {callback : Callback} :
    (s.silence p).queue.Pending id callback ↔
      s.queue.Pending id callback ∧ callback.entry ≠ p := by
  rw [← h.pending_cancel_timer hp]
  simp [silence]

theorem Coherent.hasTimer_silence (h : Coherent faces s) (hp : p ∈ s.table) :
    (s.silence p).HasTimer q ↔ s.HasTimer q ∧ q ≠ p := by
  exact hasTimer_iff (· ≠ p) fun id callback => h.pending_silence hp

theorem heap_silence_of_ne (s : Pending) (hq : q ≠ p) : (s.silence p).heap q = s.heap q := by
  simp [silence, hq]

theorem heap_silence_self (s : Pending) (p : ℕ) :
    (s.silence p).heap p = (s.heap p).changeStateToWaintingImpAck := by
  simp [silence]

theorem valPkt_silence (s : Pending) (p q : ℕ) :
    ((s.silence p).heap q).valPkt = (s.heap q).valPkt := by
  by_cases hq : q = p
  · rw [hq, heap_silence_self, valPkt_changeState]
  · rw [heap_silence_of_ne s hq]

theorem timerId_silence (s : Pending) (p q : ℕ) :
    ((s.silence p).heap q).timerId = (s.heap q).timerId := by
  by_cases hq : q = p
  · rw [hq, heap_silence_self, timerId_changeState]
  · rw [heap_silence_of_ne s hq]

@[simp] theorem table_silence (s : Pending) (p : ℕ) : (s.silence p).table = s.table := by
  simp [silence]

@[simp] theorem nextPtr_silence (s : Pending) (p : ℕ) : (s.silence p).nextPtr = s.nextPtr := by
  simp [silence]

@[simp] theorem nextId_silence (s : Pending) (p : ℕ) :
    (s.silence p).queue.nextId = s.queue.nextId := by
  simp [silence]

@[simp] theorem log_silence (s : Pending) (p : ℕ) : (s.silence p).log = s.log := by
  simp [silence]

theorem state_changeState (entry : Entry) :
    entry.changeStateToWaintingImpAck.state = .waitingImplicitAck := by
  cases hs : entry.state with
  | waitingForwarding => rw [changeState_of_waitingForwarding hs]
  | waitingImplicitAck => rw [changeState_of_waitingImplicitAck hs, hs]

theorem Coherent.silence (h : Coherent faces s) (hp : p ∈ s.table)
    (hdata : (s.heap p).valPkt.isData = false) : Coherent faces (s.silence p) where
  nodup := by rw [table_silence]; exact h.nodup
  allocated := by simpa using h.allocated
  nItens := by simp [Pending.silence, h.nItens]
  noMatch := by simpa only [table_silence, valPkt_silence] using h.noMatch
  isSet := by simpa only [table_silence, valPkt_silence] using h.isSet
  owner := by simpa only [table_silence, timerId_silence] using h.owner
  timerId_lt := by
    simpa only [table_silence, timerId_silence, nextId_silence] using h.timerId_lt
  timer := by
    intro id callback hpend
    obtain ⟨hpend, hne⟩ := (h.pending_silence hp).mp hpend
    have armed := h.timer id callback hpend
    exact armed.of_heap (by rw [table_silence]; exact armed.mem) (heap_silence_of_ne s hne)
  forwarding := by
    intro q hq hstate
    by_cases hqp : q = p
    · rw [hqp, heap_silence_self, state_changeState] at hstate
      cases hstate
    · rw [heap_silence_of_ne s hqp] at hstate ⊢
      obtain ⟨htries, htimer⟩ := h.forwarding q (by simpa using hq) hstate
      exact ⟨htries, (h.hasTimer_silence hp).mpr ⟨htimer, hqp⟩⟩
  impAck := by
    intro q hq hstate
    by_cases hqp : q = p
    · rw [hqp, heap_silence_self]
      cases hs : (s.heap p).state with
      | waitingForwarding =>
        rw [changeState_of_waitingForwarding hs]
        show 1 ≤ maxImplicitAckTries ∧ maxImplicitAckTries ≤ maxImplicitAckTries
        decide
      | waitingImplicitAck =>
        rw [changeState_of_waitingImplicitAck hs]
        exact h.impAck p hp hs
    · rw [heap_silence_of_ne s hqp] at hstate ⊢
      exact h.impAck q (by simpa using hq) hstate
  data := by
    intro q hq hqdata
    rw [valPkt_silence] at hqdata
    have hqp : q ≠ p := by
      rintro rfl
      rw [hdata] at hqdata
      cases hqdata
    exact (h.hasTimer_silence hp).mpr ⟨h.data q (by simpa using hq) hqdata, hqp⟩

/-! ### Dropped -/

variable {ps : List ℕ}

theorem Dropped.hasTimer (hdrop : Dropped s s' ps) : s'.HasTimer q ↔ s.HasTimer q ∧ q ∉ ps := by
  exact hasTimer_iff (· ∉ ps) hdrop.queue

theorem Dropped.mem_table (hdrop : Dropped s s' ps) : q ∈ s'.table ↔ q ∈ s.table ∧ q ∉ ps := by
  simp [hdrop.table]

/-- What holds of an entry before holds of it after, if it stays. -/
theorem Dropped.forall_mem (hdrop : Dropped s s' ps) {P : ℕ → Entry → Prop}
    (hold : ∀ p ∈ s.table, p ∉ ps → P p (s.heap p)) : ∀ p ∈ s'.table, P p (s'.heap p) := by
  intro p hp
  obtain ⟨hp, hne⟩ := hdrop.mem_table.mp hp
  rw [hdrop.heap p hne]
  exact hold p hp hne

theorem Coherent.dropped (h : Coherent faces s) (hdrop : Dropped s s' ps) : Coherent faces s' where
  nodup := by rw [hdrop.table]; exact h.nodup.filter _
  allocated p hp := hdrop.nextPtr ▸ h.allocated p (hdrop.mem_table.mp hp).1
  nItens := hdrop.nItens
  noMatch := by
    rw [hdrop.table]
    simpa only [hdrop.valPkt] using h.noMatch.filter _
  isSet := hdrop.forall_mem (P := fun _ entry => entry.valPkt.payload ≠ .notSet)
    fun p hp _ => h.isSet p hp
  owner := by
    intro p hp q hq t htp htq
    obtain ⟨hp, hnp⟩ := hdrop.mem_table.mp hp
    obtain ⟨hq, hnq⟩ := hdrop.mem_table.mp hq
    rw [hdrop.heap p hnp] at htp
    rw [hdrop.heap q hnq] at htq
    exact h.owner p hp q hq t htp htq
  timerId_lt := hdrop.forall_mem
    (P := fun _ entry => ∀ t, entry.timerId = some t → t < s'.queue.nextId)
    fun p hp _ t ht => Nat.lt_of_lt_of_le (h.timerId_lt p hp t ht) hdrop.nextId
  timer := by
    intro id callback hpend
    obtain ⟨hpend, hne⟩ := (hdrop.queue id callback).mp hpend
    have armed := h.timer id callback hpend
    exact armed.of_heap (hdrop.mem_table.mpr ⟨armed.mem, hne⟩) (hdrop.heap _ hne)
  forwarding := hdrop.forall_mem
    (P := fun p entry => entry.state = .waitingForwarding →
      entry.tries = forwardingTries ∧ s'.HasTimer p)
    fun p hp hne hstate =>
      ⟨(h.forwarding p hp hstate).1, hdrop.hasTimer.mpr ⟨(h.forwarding p hp hstate).2, hne⟩⟩
  impAck := hdrop.forall_mem
    (P := fun _ entry => entry.state = .waitingImplicitAck →
      1 ≤ entry.tries ∧ entry.tries ≤ maxImplicitAckTries)
    fun p hp _ => h.impAck p hp
  data := hdrop.forall_mem (P := fun p entry => entry.valPkt.isData → s'.HasTimer p)
    fun p hp hne hdata => hdrop.hasTimer.mpr ⟨h.data p hp hdata, hne⟩

/-! ### Resent -/

section Resend

variable {faces : FaceTable} {s : Pending} {id duration : ℕ} {callback : Callback}
  {entry : Entry}

theorem Coherent.pending_resend (h : Coherent faces s) (hpend : s.queue.Pending id callback)
    {id' : ℕ} {callback' : Callback} :
    (s.resend id callback entry duration).queue.Pending id' callback' ↔
      (s.queue.Pending id' callback' ∧ callback'.entry ≠ callback.entry) ∨
        (id' = s.queue.nextId ∧
          callback' = ⟨.impAck, callback.entry, callback.outFaceId, duration⟩) := by
  rw [← h.pending_begin hpend]
  simp [resend, begin]

theorem Coherent.hasTimer_resend (h : Coherent faces s) (hpend : s.queue.Pending id callback) :
    (s.resend id callback entry duration).HasTimer q ↔ s.HasTimer q := by
  simp only [HasTimer, h.pending_resend hpend]
  constructor
  · rintro ⟨id', callback', ⟨hpend', -⟩ | ⟨-, rfl⟩, rfl⟩
    · exact ⟨id', callback', hpend', rfl⟩
    · exact ⟨id, callback, hpend, rfl⟩
  · rintro ⟨id', callback', hpend', rfl⟩
    by_cases hne : callback'.entry = callback.entry
    · exact ⟨s.queue.nextId, _, .inr ⟨rfl, rfl⟩, hne.symm⟩
    · exact ⟨id', callback', .inl ⟨hpend', hne⟩, rfl⟩

theorem heap_resend_of_ne (hq : q ≠ callback.entry) :
    (s.resend id callback entry duration).heap q = s.heap q :=
  update_of_ne hq _ _

theorem heap_resend_self :
    (s.resend id callback entry duration).heap callback.entry =
      entry.setTimer s.queue.nextId :=
  update_self _ _ _

theorem table_resend : (s.resend id callback entry duration).table = s.table := rfl

theorem Resent.valPkt {old new : Entry} (h : Resent old new) : new.valPkt = old.valPkt := by
  cases h with
  | forwarded _ _ hnew => rw [hnew, valPkt_changeState]
  | retried _ _ hnew => rw [hnew]

theorem Resent.state {old new : Entry} (h : Resent old new) : new.state = .waitingImplicitAck := by
  cases h with
  | forwarded _ _ hnew => rw [hnew, state_changeState]
  | retried hold _ hnew => rw [hnew]; exact hold

theorem valPkt_resend (hentry : Resent (s.heap callback.entry) entry) (q : ℕ) :
    ((s.resend id callback entry duration).heap q).valPkt = (s.heap q).valPkt := by
  by_cases hq : q = callback.entry
  · rw [hq, heap_resend_self]
    exact hentry.valPkt
  · rw [heap_resend_of_ne hq]

theorem Coherent.resent_tries (h : Coherent faces s) (hpend : s.queue.Pending id callback)
    (hentry : Resent (s.heap callback.entry) entry) :
    1 ≤ entry.tries ∧ entry.tries ≤ maxImplicitAckTries := by
  cases hentry with
  | forwarded hold _ hnew =>
    rw [hnew, changeState_of_waitingForwarding hold]
    show 1 ≤ maxImplicitAckTries ∧ maxImplicitAckTries ≤ maxImplicitAckTries
    decide
  | retried hold htries hnew =>
    have := h.impAck _ (h.timer id callback hpend).mem hold
    rw [hnew]
    dsimp only
    omega

theorem Coherent.resent_notLastHop (h : Coherent faces s) (hpend : s.queue.Pending id callback)
    (hentry : Resent (s.heap callback.entry) entry) : isLastHop entry.valPkt = false := by
  rw [hentry.valPkt]
  cases hentry with
  | forwarded _ hlast _ => exact hlast
  | retried hold _ _ =>
    have armed := h.timer id callback hpend
    refine armed.notLastHop ?_
    cases hkind : callback.kind with
    | forwarding => rw [armed.kind.mp hkind] at hold; cases hold
    | impAck => rfl

theorem Coherent.resend (h : Coherent faces s) (hpend : s.queue.Pending id callback)
    (hentry : Resent (s.heap callback.entry) entry) :
    Coherent faces (s.resend id callback entry duration) where
  nodup := h.nodup
  allocated := h.allocated
  nItens := h.nItens
  noMatch := by simpa only [table_resend, valPkt_resend hentry] using h.noMatch
  isSet := by simpa only [table_resend, valPkt_resend hentry] using h.isSet
  owner p hp q hq t htp htq := h.owner_of_new (fun r _ => heap_resend_of_ne)
    (congrArg timerId heap_resend_self) (.inl hp) (.inl hq) htp htq
  timerId_lt := by
    intro p hp t ht
    show t < s.queue.nextId + 1
    by_cases hpc : p = callback.entry
    · rw [hpc, heap_resend_self] at ht
      exact Nat.lt_succ_of_le (Nat.le_of_eq (Option.some.inj ht).symm)
    · rw [heap_resend_of_ne hpc] at ht
      exact Nat.lt_succ_of_lt (h.timerId_lt p hp t ht)
  timer := by
    intro id' callback' hpend'
    have armed := h.timer id callback hpend
    rcases (h.pending_resend hpend).mp hpend' with ⟨hpend', hne⟩ | ⟨rfl, rfl⟩
    · have armed' := h.timer id' callback' hpend'
      exact armed'.of_heap armed'.mem (heap_resend_of_ne hne)
    · refine ⟨armed.mem, ?_, ?_, ?_, armed.face⟩
      · rw [heap_resend_self]; rfl
      · have hstate : (entry.setTimer s.queue.nextId).state = .waitingImplicitAck :=
          hentry.state
        rw [heap_resend_self, hstate]
        exact ⟨fun hkind => (nomatch hkind), fun hstate => (nomatch hstate)⟩
      · intro _
        rw [heap_resend_self]
        show isLastHop entry.valPkt = false
        exact h.resent_notLastHop hpend hentry
  forwarding := by
    intro p hp hstate
    by_cases hpc : p = callback.entry
    · have hstate' : (entry.setTimer s.queue.nextId).state = .waitingImplicitAck :=
        hentry.state
      rw [hpc, heap_resend_self, hstate'] at hstate
      cases hstate
    · rw [heap_resend_of_ne hpc] at hstate ⊢
      obtain ⟨htries, htimer⟩ := h.forwarding p hp hstate
      exact ⟨htries, (h.hasTimer_resend hpend).mpr htimer⟩
  impAck := by
    intro p hp hstate
    by_cases hpc : p = callback.entry
    · rw [hpc, heap_resend_self]
      show 1 ≤ entry.tries ∧ entry.tries ≤ maxImplicitAckTries
      exact h.resent_tries hpend hentry
    · rw [heap_resend_of_ne hpc] at hstate ⊢
      exact h.impAck p hp hstate
  data := by
    intro p hp hdata
    rw [valPkt_resend hentry] at hdata
    exact (h.hasTimer_resend hpend).mpr (h.data p hp hdata)

end Resend

/-- **The step lemma**: every effect keeps the table coherent. -/
theorem Coherent.change (h : Coherent faces s) (hchange : Change faces s s') :
    Coherent faces s' := by
  cases hchange with
  | same => exact h
  | entered valPkt outFaceId duration hset hface hnew => exact h.enter hset hface hnew
  | silenced p hp hdata => exact h.silence hp hdata
  | dropped ps _ _ hdrop _ => exact h.dropped hdrop
  | fired id callback _ hpend hfired =>
    cases hfired with
    | resent entry duration hentry => exact h.resend hpend hentry
    | finished _ _ hdrop _ => exact h.dropped hdrop

end Pending

end ValProofs.Pft
