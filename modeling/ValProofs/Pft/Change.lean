import Mathlib.Data.List.Pairwise
import ValProofs.Pft.Table

/-!
What one operation on the Pending Forwarding Table can do.

`Coherent` is the invariant that ties the table, the entry objects and the
scheduler together. In a coherent state every operation has one of the five
effects listed by `Change`; this is proved here once, operation by operation,
and the later files only look at these effects.
-/

namespace ValProofs.Pft

open Lib List Entry

namespace Pending

/-- Some pending callback captures the entry. -/
def HasTimer (s : Pending) (p : ℕ) : Prop :=
  ∃ id callback, s.queue.Pending id callback ∧ callback.entry = p

/-- What holds of a pending callback. -/
structure Armed (faces : FaceTable) (s : Pending) (id : ℕ) (callback : Callback) : Prop where
  mem : callback.entry ∈ s.table
  timerId : (s.heap callback.entry).timerId = some id
  kind : callback.kind = .forwarding ↔
    (s.heap callback.entry).state = .waitingForwarding
  notLastHop : callback.kind = .impAck → isLastHop (s.heap callback.entry).valPkt = false
  face : faces.IsValNet callback.outFaceId

structure Coherent (faces : FaceTable) (s : Pending) : Prop where
  nodup : s.table.Nodup
  allocated : ∀ p ∈ s.table, p < s.nextPtr
  nItens : s.nItens = s.table.length
  noMatch : s.table.Pairwise fun p q => ¬ (s.heap p).valPkt.sameNdnPacket (s.heap q).valPkt
  isSet : ∀ p ∈ s.table, (s.heap p).valPkt.payload ≠ .notSet
  owner : ∀ p ∈ s.table, ∀ q ∈ s.table, ∀ t,
    (s.heap p).timerId = some t → (s.heap q).timerId = some t → p = q
  timerId_lt : ∀ p ∈ s.table, ∀ t, (s.heap p).timerId = some t → t < s.queue.nextId
  timer : ∀ id callback, s.queue.Pending id callback → Armed faces s id callback
  forwarding : ∀ p ∈ s.table, (s.heap p).state = .waitingForwarding →
    (s.heap p).tries = forwardingTries ∧ s.HasTimer p
  impAck : ∀ p ∈ s.table, (s.heap p).state = .waitingImplicitAck →
    1 ≤ (s.heap p).tries ∧ (s.heap p).tries ≤ maxImplicitAckTries
  data : ∀ p ∈ s.table, (s.heap p).valPkt.isData → s.HasTimer p

theorem coherent_empty (faces : FaceTable) : Coherent faces empty := by
  constructor <;> simp [empty]

variable {faces : FaceTable} {s : Pending}

/-- Faces that are added later do not matter. -/
theorem Coherent.extends {faces' : FaceTable} (h : Coherent faces s) (hext : faces'.Extends faces) :
    Coherent faces' s :=
  { h with
    timer := fun id callback hpend =>
      let armed := h.timer id callback hpend
      { armed with face := armed.face.extends hext } }

/-- A callback stays armed if its entry stays as it is. -/
theorem Armed.of_heap {s' : Pending} {id : ℕ} {callback : Callback}
    (h : Armed faces s id callback) (hmem : callback.entry ∈ s'.table)
    (hheap : s'.heap callback.entry = s.heap callback.entry) : Armed faces s' id callback :=
  ⟨hmem, hheap ▸ h.timerId, hheap ▸ h.kind, hheap ▸ h.notLastHop, h.face⟩

/-- A timer number that has not been given out before belongs to the one entry that gets it. -/
theorem Coherent.owner_of_new (h : Coherent faces s) {heap : ℕ → Entry} {new : ℕ}
    (hold : ∀ p ∈ s.table, p ≠ new → heap p = s.heap p)
    (hnew : (heap new).timerId = some s.queue.nextId) {p q : ℕ} (hp : p ∈ s.table ∨ p = new)
    (hq : q ∈ s.table ∨ q = new) {t : ℕ} (htp : (heap p).timerId = some t)
    (htq : (heap q).timerId = some t) : p = q := by
  have hne : ∀ r, (r ∈ s.table ∨ r = new) → r ≠ new → (heap r).timerId = some t →
      t ≠ s.queue.nextId := by
    intro r hr hrnew htr
    have hr := hr.resolve_right hrnew
    rw [hold r hr hrnew] at htr
    exact Nat.ne_of_lt (h.timerId_lt r hr t htr)
  by_cases hpnew : p = new
  · by_cases hqnew : q = new
    · rw [hpnew, hqnew]
    · rw [hpnew, hnew] at htp
      exact absurd (Option.some.inj htp).symm (hne q hq hqnew htq)
  · by_cases hqnew : q = new
    · rw [hqnew, hnew] at htq
      exact absurd (Option.some.inj htq).symm (hne p hp hpnew htp)
    · have hp := hp.resolve_right hpnew
      have hq := hq.resolve_right hqnew
      rw [hold p hp hpnew] at htp
      rw [hold q hq hqnew] at htq
      exact h.owner p hp q hq t htp htq

/-! ### Reading updated states -/

@[simp] theorem heap_modify (s : Pending) (p : ℕ) (f : Entry → Entry) (q : ℕ) :
    (s.modify p f).heap q = if q = p then f (s.heap p) else s.heap q := by
  simp [modify, Function.update_apply]

@[simp] theorem table_modify (s : Pending) (p : ℕ) (f : Entry → Entry) :
    (s.modify p f).table = s.table := rfl

@[simp] theorem nItens_modify (s : Pending) (p : ℕ) (f : Entry → Entry) :
    (s.modify p f).nItens = s.nItens := rfl

@[simp] theorem nextPtr_modify (s : Pending) (p : ℕ) (f : Entry → Entry) :
    (s.modify p f).nextPtr = s.nextPtr := rfl

@[simp] theorem queue_modify (s : Pending) (p : ℕ) (f : Entry → Entry) :
    (s.modify p f).queue = s.queue := rfl

@[simp] theorem log_modify (s : Pending) (p : ℕ) (f : Entry → Entry) :
    (s.modify p f).log = s.log := rfl

@[simp] theorem heap_cancel (s : Pending) (t : Option ℕ) : (s.cancel t).heap = s.heap := by
  cases t <;> rfl

@[simp] theorem table_cancel (s : Pending) (t : Option ℕ) : (s.cancel t).table = s.table := by
  cases t <;> rfl

@[simp] theorem nItens_cancel (s : Pending) (t : Option ℕ) : (s.cancel t).nItens = s.nItens := by
  cases t <;> rfl

@[simp] theorem nextPtr_cancel (s : Pending) (t : Option ℕ) : (s.cancel t).nextPtr = s.nextPtr := by
  cases t <;> rfl

@[simp] theorem log_cancel (s : Pending) (t : Option ℕ) : (s.cancel t).log = s.log := by
  cases t <;> rfl

@[simp] theorem nextId_cancel (s : Pending) (t : Option ℕ) :
    (s.cancel t).queue.nextId = s.queue.nextId := by
  cases t <;> rfl

@[simp] theorem pending_cancel (s : Pending) (t : Option ℕ) (id : ℕ) (callback : Callback) :
    (s.cancel t).queue.Pending id callback ↔ s.queue.Pending id callback ∧ t ≠ some id := by
  cases t with
  | none => simp [cancel]
  | some i => simp [cancel, eq_comm]

/-! ### Finding and removing -/

variable {valPkt : ValPacket} {p : ℕ}

theorem mem_of_findMatch (h : s.findMatch valPkt = some p) : p ∈ s.table ∧ s.isMatch valPkt p :=
  ⟨mem_of_find?_eq_some h, find?_some h⟩

/-- No two entries match each other. -/
def NoMatch (s : Pending) (table : List ℕ) : Prop :=
  table.Pairwise fun p q => ¬ (s.heap p).valPkt.sameNdnPacket (s.heap q).valPkt

/-- A packet matches at most one entry of the table. -/
theorem NoMatch.isMatch_unique (h : s.NoMatch s.table) {q : ℕ} (hp : p ∈ s.table) (hq : q ∈ s.table)
    (hmp : s.isMatch valPkt p) (hmq : s.isMatch valPkt q) : p = q := by
  by_contra hne
  have : Std.Symm fun p q : ℕ => ¬ (s.heap p).valPkt.sameNdnPacket (s.heap q).valPkt :=
    ⟨fun a b hab => by rwa [ValPacket.sameNdnPacket_comm]⟩
  exact h.forall hp hq hne (ValPacket.sameNdnPacket_trans hmp hmq)

theorem Coherent.isMatch_unique (h : Coherent faces s) {q : ℕ} (hp : p ∈ s.table) (hq : q ∈ s.table)
    (hmp : s.isMatch valPkt p) (hmq : s.isMatch valPkt q) : p = q :=
  NoMatch.isMatch_unique h.noMatch hp hq hmp hmq

theorem Coherent.isMatch_self (h : Coherent faces s) (hp : p ∈ s.table) :
    s.isMatch (s.heap p).valPkt p := by
  have hset := h.isSet p hp
  cases hpay : (s.heap p).valPkt.payload with
  | notSet => exact absurd hpay hset
  | interest i | data d => simp [isMatch, ValPacket.sameNdnPacket, hpay]

/-- The table without one entry, which need not be in it. -/
def remove (s : Pending) (p : ℕ) : Pending :=
  { s with
    table := s.table.filter fun q => q ≠ p
    nItens := s.nItens - (s.table.length - (s.table.filter fun q => q ≠ p).length) }

/-- As long as no other entry matches, the erasing loop removes one entry. -/
theorem removeEntry_eq (hmatch : ∀ q ∈ s.table, s.isMatch valPkt q = true ↔ q = p) :
    (s.removeEntry valPkt).1 = s.remove p := by
  have hrest : eraseRestart (s.isMatch valPkt) s.table.length s.table =
      s.table.filter fun q => q ≠ p := by
    rw [eraseRestart_eq_filter _ _ _ (Nat.le_refl _)]
    refine filter_congr fun q hq => ?_
    have := hmatch q hq
    cases hm : s.isMatch valPkt q <;> simp_all
  simp only [removeEntry, remove, hrest]

theorem Coherent.isMatch_iff (h : Coherent faces s) (hp : p ∈ s.table) (hmp : s.isMatch valPkt p) :
    ∀ q ∈ s.table, s.isMatch valPkt q = true ↔ q = p := by
  intro q hq
  exact ⟨fun hmq => h.isMatch_unique hq hp hmq hmp, fun hqp => hqp ▸ hmp⟩

/-! ### The effects of an operation -/

/-- The entries `ps` leave the table, and their callbacks the scheduler. -/
structure Dropped (s s' : Pending) (ps : List ℕ) : Prop where
  heap : ∀ p, p ∉ ps → s'.heap p = s.heap p
  valPkt : ∀ p, (s'.heap p).valPkt = (s.heap p).valPkt
  nextPtr : s'.nextPtr = s.nextPtr
  table : s'.table = s.table.filter fun p => p ∉ ps
  nItens : s'.nItens = s'.table.length
  queue : ∀ id callback, s'.queue.Pending id callback ↔
    s.queue.Pending id callback ∧ callback.entry ∉ ps
  nextId : s.queue.nextId ≤ s'.queue.nextId

/-- An Interest entry stays in the table without a timer. -/
def silence (s : Pending) (p : ℕ) : Pending :=
  (s.cancel (s.heap p).timerId).modify p Entry.changeStateToWaintingImpAck

/-- A new entry under its forwarding timer. -/
def enter (s : Pending) (valPkt : ValPacket) (outFaceId duration : ℕ) : Pending where
  heap := Function.update s.heap s.nextPtr
    ((Entry.make valPkt outFaceId).setTimer s.queue.nextId)
  nextPtr := s.nextPtr + 1
  table := s.table ++ [s.nextPtr]
  nItens := s.nItens + 1
  queue := s.queue.schedule ⟨.forwarding, s.nextPtr, outFaceId, duration⟩
  log := s.log

/-- The callback's entry has been sent, is now `entry`, and waits again. -/
def resend (s : Pending) (id : ℕ) (callback : Callback) (entry : Entry) (duration : ℕ) :
    Pending where
  heap := Function.update s.heap callback.entry (entry.setTimer s.queue.nextId)
  nextPtr := s.nextPtr
  table := s.table
  nItens := s.nItens
  queue := (s.queue.cancel id).schedule
    ⟨.impAck, callback.entry, callback.outFaceId, duration⟩
  log := s.log ++ [.transmit callback.entry (s.heap callback.entry).valPkt callback.outFaceId]

/-- The entry after one more transmission: either it has just been forwarded,
or it has used one of its tries and has others left. -/
inductive Resent (old new : Entry) : Prop
  | forwarded (hold : old.state = .waitingForwarding) (hlast : isLastHop old.valPkt = false)
      (hnew : new = old.changeStateToWaintingImpAck)
  | retried (hold : old.state = .waitingImplicitAck) (htries : 1 < old.tries)
      (hnew : new = { old with tries := old.tries - 1 })

/-- The entry has had its last transmission. -/
inductive Ended (old : Entry) : Prop
  | lastHop (hold : old.state = .waitingForwarding) (hlast : isLastHop old.valPkt = true)
  | exhausted (hold : old.state = .waitingImplicitAck) (htries : old.tries ≤ 1)

/-- A callback has sent its entry. The entry is armed again, or leaves the
table. -/
inductive Fired (s : Pending) (id : ℕ) (callback : Callback) : Pending → Prop
  | resent (entry : Entry) (duration : ℕ) (hentry : Resent (s.heap callback.entry) entry) :
      Fired s id callback (s.resend id callback entry duration)
  | finished (s' : Pending) (hended : Ended (s.heap callback.entry))
      (hdrop : Dropped s s' [callback.entry])
      (hlog : s'.log = s.log ++
        [.transmit callback.entry (s.heap callback.entry).valPkt callback.outFaceId]) :
      Fired s id callback s'

/-- The five effects. -/
inductive Change (faces : FaceTable) (s : Pending) : Pending → Prop
  | same : Change faces s s
  | entered (valPkt : ValPacket) (outFaceId duration : ℕ) (hset : valPkt.payload ≠ .notSet)
      (hface : faces.IsValNet outFaceId) (hnew : ∀ p ∈ s.table, ¬ s.isMatch valPkt p) :
      Change faces s (s.enter valPkt outFaceId duration)
  | silenced (p : ℕ) (hp : p ∈ s.table) (hdata : (s.heap p).valPkt.isData = false) :
      Change faces s (s.silence p)
  | dropped (ps : List ℕ) (s' : Pending) (hps : ∀ p ∈ ps, p ∈ s.table)
      (hdrop : Dropped s s' ps) (hlog : s'.log = s.log) : Change faces s s'
  | fired (id : ℕ) (callback : Callback) (s' : Pending)
      (hpend : s.queue.Pending id callback) (hfired : Fired s id callback s') :
      Change faces s s'

/-- Cancelling the timer of an entry of the table takes exactly its own
callbacks away. -/
theorem Coherent.pending_cancel_timer (h : Coherent faces s) (hp : p ∈ s.table) (id : ℕ)
    (callback : Callback) :
    (s.queue.Pending id callback ∧ (s.heap p).timerId ≠ some id) ↔
      (s.queue.Pending id callback ∧ callback.entry ≠ p) := by
  refine and_congr_right fun hpend => not_congr ⟨fun ht => ?_, fun he => ?_⟩
  · have armed := h.timer id callback hpend
    exact h.owner _ armed.mem _ hp id armed.timerId ht
  · rw [← he]
    exact (h.timer id callback hpend).timerId

/-- One entry is cancelled and removed. -/
theorem Coherent.dropped_remove {s' : Pending} (h : Coherent faces s)
    (hheap : ∀ q, q ≠ p → s'.heap q = s.heap q) (hvalPkt : (s'.heap p).valPkt = (s.heap p).valPkt)
    (hptr : s'.nextPtr = s.nextPtr) (htable : s'.table = s.table) (hnItens : s'.nItens = s.nItens)
    (hqueue : ∀ id callback, s'.queue.Pending id callback ↔
      s.queue.Pending id callback ∧ callback.entry ≠ p) (hid : s.queue.nextId ≤ s'.queue.nextId) :
    Dropped s (s'.remove p) [p] where
  heap q hq := hheap q (by simpa using hq)
  valPkt q := by
    show (s'.heap q).valPkt = _
    by_cases hqp : q = p
    · rw [hqp, hvalPkt]
    · rw [hheap q hqp]
  nextPtr := hptr
  table := by simp [remove, htable]
  nItens := by
    have hlen := length_filter_le (fun q => decide (q ≠ p)) s.table
    have hn := h.nItens
    simp only [remove, htable, hnItens]
    omega
  queue id callback := by simpa [remove] using hqueue id callback
  nextId := hid

/-! ### Receptions -/

/-- The received packet makes the entry's timer be cancelled. -/
def cancels (entry : Entry) (valP : ValPacket) : Bool :=
  match entry.state with
  | .waitingForwarding => entry.valPkt.hopC == valP.hopC
  | .waitingImplicitAck => isImplicitAck entry valP

theorem silence_of_waitingImplicitAck (h : (s.heap p).state = .waitingImplicitAck) :
    s.silence p = s.cancel (s.heap p).timerId := by
  cases ht : (s.heap p).timerId with
  | none | some t => simp [silence, modify, cancel, ht, changeState_of_waitingImplicitAck h]

/-- Both branches of `preProcessingValPacket` in one formula: in the second
state there is nothing to change, so the state change may be written there
too. -/
theorem preProcessingValPacket_eq (s : Pending) (valP : ValPacket) :
    s.preProcessingValPacket valP =
      match s.findMatch valP with
      | none => (s, true)
      | some p =>
        (if cancels (s.heap p) valP then
          if (s.heap p).valPkt.isData then ((s.silence p).removeEntry valP).1
          else s.silence p
        else s, false) := by
  unfold preProcessingValPacket
  cases hfind : s.findMatch valP with
  | none => rfl
  | some p =>
    cases hstate : (s.heap p).state with
    | waitingForwarding =>
      simp only [cancels, hstate, silence]
      split <;> [split; skip] <;> rfl
    | waitingImplicitAck =>
      simp only [cancels, hstate, silence_of_waitingImplicitAck hstate]
      split <;> [split; skip] <;> rfl

theorem preProcessing_none {valP : ValPacket} (h : s.findMatch valP = none) :
    s.preProcessingValPacket valP = (s, true) := by
  rw [preProcessingValPacket_eq, h]

/-- Only packets without a match pass. -/
theorem preProcessing_true {valP : ValPacket} (h : (s.preProcessingValPacket valP).2 = true) :
    s.findMatch valP = none := by
  rw [preProcessingValPacket_eq] at h
  cases hfind : s.findMatch valP with
  | none => rfl
  | some p => rw [hfind] at h; cases h

theorem isMatch_silence (s : Pending) (p : ℕ) (valPkt : ValPacket) (q : ℕ) :
    (s.silence p).isMatch valPkt q = s.isMatch valPkt q := by
  by_cases hq : q = p <;> simp [isMatch, silence, hq]

/-- A cancelled Data entry leaves the table. -/
theorem Coherent.dropped_silence_remove (h : Coherent faces s) (hp : p ∈ s.table) :
    Dropped s ((s.silence p).remove p) [p] := by
  refine h.dropped_remove ?_ ?_ ?_ ?_ ?_ ?_ ?_
  · intro q hq
    simp [silence, hq]
  · simp [silence]
  · simp [silence]
  · simp [silence]
  · simp [silence]
  · intro id callback
    simpa [silence] using h.pending_cancel_timer hp id callback
  · simp [silence]

theorem Coherent.change_preProcessing (h : Coherent faces s) (valP : ValPacket) :
    Change faces s (s.preProcessingValPacket valP).1 := by
  rw [preProcessingValPacket_eq]
  cases hfind : s.findMatch valP with
  | none => exact .same
  | some p =>
    obtain ⟨hp, hmatch⟩ := mem_of_findMatch hfind
    dsimp only
    split
    · split
      · have hiff : ∀ q ∈ (s.silence p).table,
            (s.silence p).isMatch valP q = true ↔ q = p := by
          intro q hq
          rw [isMatch_silence]
          exact h.isMatch_iff hp hmatch q (by simpa [silence] using hq)
        rw [removeEntry_eq hiff]
        refine .dropped [p] _ (by simpa using hp) (h.dropped_silence_remove hp) ?_
        simp [silence, remove]
      · rename_i hdata
        exact .silenced p hp (by simpa using hdata)
    · exact .same

/-! ### Registrations -/

theorem registerOutgoingValPacket_eq (s : Pending) (outFaceId : ℕ) (valPkt : ValPacket)
    (duration : ℕ) :
    s.registerOutgoingValPacket outFaceId valPkt duration =
      match s.findMatch valPkt with
      | none => (s.enter valPkt outFaceId duration, some s.nextPtr)
      | some _ => (s, none) := by
  unfold registerOutgoingValPacket addEntry
  cases hfind : s.findMatch (make valPkt outFaceId).valPkt with
  | none =>
    have hfind' : s.findMatch valPkt = none := hfind
    simp [hfind', arm, modify, enter]
  | some p =>
    have hfind' : s.findMatch valPkt = some p := hfind
    simp [hfind']

theorem change_register {outFaceId : ℕ} (hface : faces.IsValNet outFaceId)
    (hset : valPkt.payload ≠ .notSet) (duration : ℕ) :
    Change faces s (s.registerOutgoingValPacket outFaceId valPkt duration).1 := by
  rw [registerOutgoingValPacket_eq]
  cases hfind : s.findMatch valPkt with
  | none => exact .entered valPkt outFaceId duration hset hface (find?_eq_none.mp hfind)
  | some p => exact .same

/-! ### Answered Interests -/

/-- Every entry that is found is an Interest entry with a nonce of the list. -/
theorem mem_findMatchLoop {nonceList : List Nonce} (table res : List ℕ)
    (hp : p ∈ findMatchLoop s nonceList table res) :
    p ∈ res ∨ (p ∈ table ∧ s.noncesOf nonceList p ≠ []) := by
  induction table generalizing res with
  | nil => exact .inl hp
  | cons q table ih =>
    have hres : p ∈ res ++ (s.noncesOf nonceList q).map (fun _ => q) →
        p ∈ res ∨ (p ∈ q :: table ∧ s.noncesOf nonceList p ≠ []) := by
      intro hmem
      rcases mem_append.mp hmem with hmem | hmem
      · exact .inl hmem
      · obtain ⟨n, hn, rfl⟩ := mem_map.mp hmem
        exact .inr ⟨mem_cons_self, ne_nil_of_mem hn⟩
    rw [findMatchLoop] at hp
    split at hp
    · exact hres hp
    · rcases ih _ hp with hmem | ⟨hmem, hn⟩
      · exact hres hmem
      · exact .inr ⟨mem_cons_of_mem q hmem, hn⟩

theorem mem_findMatchByNonceList {nonceList : List Nonce}
    (hp : p ∈ s.findMatchByNonceList nonceList) :
    p ∈ s.table ∧ ∃ i, (s.heap p).valPkt.payload = .interest i ∧ i.nonce ∈ nonceList := by
  rcases mem_findMatchLoop _ _ hp with hmem | ⟨hmem, hne⟩
  · simp at hmem
  · refine ⟨hmem, ?_⟩
    cases hpay : (s.heap p).valPkt.payload with
    | notSet | data d => simp [noncesOf, hpay] at hne
    | interest i =>
      obtain ⟨n, hn⟩ := exists_mem_of_ne_nil _ hne
      simp only [noncesOf, hpay, mem_filter, beq_iff_eq] at hn
      exact ⟨i, rfl, hn.2 ▸ hn.1⟩

/-- The cancellations leave everything but the scheduler alone. -/
theorem foldl_cancel (s : Pending) (ps : List ℕ) :
    let s' := ps.foldl (fun s p => s.cancel (s.heap p).timerId) s
    s'.heap = s.heap ∧ s'.nextPtr = s.nextPtr ∧ s'.table = s.table ∧ s'.nItens = s.nItens ∧
      s'.log = s.log ∧ s'.queue.nextId = s.queue.nextId ∧
      ∀ id callback, s'.queue.Pending id callback ↔
        s.queue.Pending id callback ∧ ∀ p ∈ ps, (s.heap p).timerId ≠ some id := by
  induction ps generalizing s with
  | nil => simp
  | cons p ps ih =>
    obtain ⟨hheap, hptr, htable, hn, hlog, hid, hqueue⟩ := ih (s.cancel (s.heap p).timerId)
    simp only [heap_cancel, nextPtr_cancel, table_cancel, nItens_cancel, log_cancel,
      nextId_cancel, pending_cancel] at hheap hptr htable hn hlog hid hqueue
    refine ⟨hheap, hptr, htable, hn, hlog, hid, fun id callback => ?_⟩
    rw [foldl_cons, hqueue]
    simp only [mem_cons, forall_eq_or_imp, and_assoc]

/-- The removals, on a part of a table in which no two entries match. The
entries to remove may repeat, and some may be gone already. -/
theorem removeEntriesByMatchList_eq (table ps : List ℕ)
    (hmatch : ∀ p ∈ ps, ∀ q ∈ table, s.isMatch (s.heap p).valPkt q = true ↔ q = p)
    (hsub : ∀ q ∈ s.table, q ∈ table) (hn : s.nItens = s.table.length) :
    s.removeEntriesByMatchList ps =
      { s with
        table := s.table.filter fun q => q ∉ ps
        nItens := (s.table.filter fun q => q ∉ ps).length } := by
  induction ps generalizing s with
  | nil => simp [removeEntriesByMatchList, ← hn]
  | cons p ps ih =>
    have hstep : (s.removeEntry (s.heap p).valPkt).1 = s.remove p :=
      removeEntry_eq fun q hq => hmatch p mem_cons_self q (hsub q hq)
    have hrest := ih (s := s.remove p)
      (fun p' hp' q hq => hmatch p' (mem_cons_of_mem p hp') q hq)
      (fun q hq => hsub q (mem_of_mem_filter hq))
      (by
        have hle := length_filter_le (fun q => decide (q ≠ p)) s.table
        simp only [remove]
        omega)
    have hfilter : (s.table.filter fun q => q ≠ p).filter (fun q => decide (q ∉ ps)) =
        s.table.filter fun q => q ∉ p :: ps := by
      rw [filter_filter]
      refine filter_congr fun q _ => ?_
      simp [Bool.and_comm]
    rw [removeEntriesByMatchList, foldl_cons, hstep]
    rw [removeEntriesByMatchList] at hrest
    rw [hrest]
    simp only [remove, hfilter]

theorem Coherent.dropped_cancelPendingInterests (h : Coherent faces s) (nonceList : List Nonce) :
    Dropped s (s.cancelPendingInterests nonceList) (s.findMatchByNonceList nonceList) ∧
      (s.cancelPendingInterests nonceList).log = s.log := by
  have hmem : ∀ p ∈ s.findMatchByNonceList nonceList, p ∈ s.table := fun p hp =>
    (mem_findMatchByNonceList hp).1
  obtain ⟨hheap, hptr, htable, hn, hlog, hid, hqueue⟩ :=
    foldl_cancel s (s.findMatchByNonceList nonceList)
  unfold cancelPendingInterests
  generalize hs' : (s.findMatchByNonceList nonceList).foldl
    (fun s p => s.cancel (s.heap p).timerId) s = s' at hheap hptr htable hn hlog hid hqueue
  have hremove := removeEntriesByMatchList_eq (s := s') s.table
    (s.findMatchByNonceList nonceList)
    (by
      intro p hp q hq
      simp only [isMatch, hheap]
      exact h.isMatch_iff (hmem p hp) (h.isMatch_self (hmem p hp)) q hq)
    (by rw [htable]; exact fun q hq => hq) (by rw [hn, htable, h.nItens])
  dsimp only
  rw [hs', hremove]
  refine ⟨⟨?_, ?_, hptr, ?_, ?_, ?_, ?_⟩, hlog⟩
  · intro p _
    simp only [hheap]
  · intro p
    simp only [hheap]
  · simp only [htable]
  · simp only
  · intro id callback
    simp only [hqueue]
    refine and_congr_right fun hpend => ⟨fun hall hin => ?_, fun hnot p hp ht => ?_⟩
    · exact hall _ hin (h.timer id callback hpend).timerId
    · have armed := h.timer id callback hpend
      exact hnot (h.owner _ (hmem p hp) _ armed.mem id ht armed.timerId ▸ hp)
  · exact Nat.le_of_eq hid.symm

theorem nextPtr_cancelPendingInterests (s : Pending) (nonceList : List Nonce) :
    (s.cancelPendingInterests nonceList).nextPtr = s.nextPtr := by
  have hremove : ∀ (entries : List ℕ) (t : Pending),
      (t.removeEntriesByMatchList entries).nextPtr = t.nextPtr := by
    intro entries
    induction entries with
    | nil => exact fun _ => rfl
    | cons p entries ih => exact fun t => ih _
  rw [cancelPendingInterests, hremove]
  exact (foldl_cancel s _).2.1

theorem Coherent.change_cancelPendingInterests (h : Coherent faces s) (nonceList : List Nonce) :
    Change faces s (s.cancelPendingInterests nonceList) := by
  obtain ⟨hdrop, hlog⟩ := h.dropped_cancelPendingInterests nonceList
  exact .dropped _ _ (fun p hp => (mem_findMatchByNonceList hp).1) hdrop hlog

/-! ### Timers -/

/-- The state in which a callback runs: the scheduler has taken its event out. -/
def begin (s : Pending) (id : ℕ) : Pending := { s with queue := s.queue.cancel id }

variable {id : ℕ} {callback : Callback}

variable (h : Coherent faces s)
include h

/-- A firing event is the only callback of its entry. -/
theorem Coherent.pending_begin (hpend : s.queue.Pending id callback)
    (id' : ℕ) (callback' : Callback) :
    (s.begin id).queue.Pending id' callback' ↔
      s.queue.Pending id' callback' ∧ callback'.entry ≠ callback.entry := by
  rw [← h.pending_cancel_timer (h.timer id callback hpend).mem, (h.timer id callback hpend).timerId]
  simp [begin, eq_comm]

/-- The last step of both callbacks: the entry, sent and perhaps re-armed, is
taken out of the table. -/
theorem Coherent.fired_finished {s' : Pending}
    (hpend : s.queue.Pending id callback) (hended : Ended (s.heap callback.entry))
    (hheap : ∀ q, q ≠ callback.entry → s'.heap q = s.heap q)
    (hvalPkt : (s'.heap callback.entry).valPkt = (s.heap callback.entry).valPkt)
    (hpkt : valPkt = (s'.heap callback.entry).valPkt) (hptr : s'.nextPtr = s.nextPtr)
    (htable : s'.table = s.table) (hnItens : s'.nItens = s.nItens)
    (hqueue : ∀ id' callback', s'.queue.Pending id' callback' ↔
      (s.begin id).queue.Pending id' callback') (hid : s.queue.nextId ≤ s'.queue.nextId)
    (hlog : s'.log = s.log ++
      [.transmit callback.entry (s.heap callback.entry).valPkt callback.outFaceId]) :
    Fired s id callback (s'.removeEntry valPkt).1 := by
  have hmem := (h.timer id callback hpend).mem
  have hsame : ∀ q, (s'.heap q).valPkt = (s.heap q).valPkt := by
    intro q
    by_cases hq : q = callback.entry
    · rw [hq, hvalPkt]
    · rw [hheap q hq]
  have hiff : ∀ q ∈ s'.table,
      s'.isMatch valPkt q = true ↔ q = callback.entry := by
    intro q hq
    rw [htable] at hq
    simp only [isMatch, hpkt, hsame]
    exact h.isMatch_iff hmem (h.isMatch_self hmem) q hq
  rw [removeEntry_eq hiff]
  refine .finished _ hended ?_ hlog
  refine h.dropped_remove hheap hvalPkt hptr htable hnItens (fun id' callback' => ?_) hid
  rw [hqueue, h.pending_begin hpend]

theorem Coherent.fired_forwardingTimer (hpend : s.queue.Pending id callback)
    (hkind : callback.kind = .forwarding) :
    Fired s id callback
      (forwardingTimerCallback faces (s.begin id) callback.entry callback.outFaceId) := by
  have armed := h.timer id callback hpend
  have hstate := armed.kind.mp hkind
  obtain ⟨face, hget, hval⟩ := armed.face
  have hstate' : ((s.begin id).heap callback.entry).state = .waitingForwarding := hstate
  rw [forwardingTimerCallback, if_pos hstate', hget]
  simp only [hval, if_true]
  split
  · rename_i hlast
    have hlast' : isLastHop (s.heap callback.entry).valPkt = true := by
      simpa [arm, transmit, begin, setTimer] using hlast
    refine h.fired_finished hpend (.lastHop hstate hlast') ?_ ?_ ?_ ?_ ?_ ?_ ?_ ?_ ?_
    · intro q hq
      simp [arm, transmit, begin, hq]
    · simp [arm, transmit, begin, setTimer]
    · simp
    · simp [arm, transmit, begin]
    · simp [arm, transmit, begin]
    · simp [arm, transmit, begin]
    · intro id' callback'
      -- The acknowledgement timer has just been scheduled, under a new number.
      have hne : ∀ {i b}, s.queue.Pending i b → s.queue.nextId ≠ i := fun hp =>
        (Nat.ne_of_lt hp.lt).symm
      simp only [arm, transmit, begin, pending_cancel, queue_modify, heap_modify,
        EventQueue.pending_schedule, EventQueue.pending_cancel, EventQueue.nextId_cancel,
        setTimer, if_true, ne_eq, Option.some.injEq]
      constructor
      · rintro ⟨hpend' | ⟨hid, -⟩, hne'⟩
        · exact hpend'
        · exact absurd hid.symm hne'
      · rintro hpend'
        exact ⟨.inl hpend', hne hpend'.1⟩
    · simp [arm, transmit, begin]
    · simp [arm, transmit, begin]
  · rename_i hlast
    have hlast' : isLastHop (s.heap callback.entry).valPkt = false := by
      simpa [arm, transmit, begin, setTimer] using hlast
    have hresent : Fired s id callback (s.resend id callback
        (s.heap callback.entry).changeStateToWaintingImpAck
        ((s.heap callback.entry).changeStateToWaintingImpAck.getDefaultImpAckTimerDuration
          * 1000000)) := .resent _ _ (.forwarded hstate hlast' rfl)
    simpa [resend, arm, transmit, begin, modify] using hresent

theorem Coherent.fired_impAckTimer (hpend : s.queue.Pending id callback)
    (hkind : callback.kind = .impAck) :
    Fired s id callback
      (impAckTimerCallback faces (s.begin id) callback.entry callback.outFaceId) := by
  have armed := h.timer id callback hpend
  have hstate : (s.heap callback.entry).state = .waitingImplicitAck := by
    cases hs : (s.heap callback.entry).state with
    | waitingForwarding => rw [armed.kind.mpr hs] at hkind; cases hkind
    | waitingImplicitAck => rfl
  obtain ⟨htries, -⟩ := h.impAck _ armed.mem hstate
  have hless : (s.heap callback.entry).oneLessTry =
      { s.heap callback.entry with tries := (s.heap callback.entry).tries - 1 } := by
    rw [oneLessTry, if_pos (by omega)]
  obtain ⟨face, hget, hval⟩ := armed.face
  have hstate' : ((s.begin id).heap callback.entry).state = .waitingImplicitAck := hstate
  rw [impAckTimerCallback, if_pos hstate', hget]
  simp only [hval, if_true]
  split
  · rename_i hleft
    have hleft' : 1 < (s.heap callback.entry).tries := by
      simp only [transmit, begin, heap_modify, if_true, hless] at hleft
      omega
    have hresent : Fired s id callback (s.resend id callback (s.heap callback.entry).oneLessTry
        ((s.heap callback.entry).oneLessTry.getDefaultImpAckTimerDuration * 1000000)) :=
      .resent _ _ (.retried hstate hleft' hless)
    simpa [resend, arm, transmit, begin, modify] using hresent
  · rename_i hleft
    have hleft' : (s.heap callback.entry).tries ≤ 1 := by
      simp only [transmit, begin, heap_modify, if_true, hless] at hleft
      omega
    refine h.fired_finished hpend (.exhausted hstate hleft') ?_ ?_ rfl rfl rfl rfl ?_ ?_ ?_
    · intro q hq
      simp [transmit, begin, hq]
    · simp [transmit, begin]
    · intro id' callback'
      simp [transmit, begin]
    · simp [transmit, begin]
    · simp [transmit, begin]

theorem Coherent.fired_fire (hpend : s.queue.Pending id callback) :
    Fired s id callback (s.fire faces id) := by
  rw [fire, EventQueue.callback?_eq_some.mpr hpend]
  cases hkind : callback.kind with
  | forwarding =>
    simp only [hkind]
    exact h.fired_forwardingTimer hpend hkind
  | impAck =>
    simp only [hkind]
    exact h.fired_impAckTimer hpend hkind

end Pending

end ValProofs.Pft
