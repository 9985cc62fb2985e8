import ValProofs.Val.Timers

/-!
Which entries leave the PFT when nothing more arrives and the timers just
fire. An Interest whose timer an overheard copy has cancelled stays: the two
removals in `preProcessingValPacket` are for Data only, and such an Interest
waits for the Data that answers it. Everything else is released.
-/

namespace ValProofs

open Lib Pft Pending EventQueue

namespace Pft.Pending

/-- How often the entry can still be sent. -/
def tokens (entry : Entry) : ℕ :=
  match entry.state with
  | .waitingForwarding => 4
  | .waitingImplicitAck => entry.tries.toNat

/-- How often the pending timers can still send. -/
def potential (s : Pending) : ℕ := s.queue.weight fun callback => tokens (s.heap callback.entry)

variable {faces : FaceTable} {s : Pending}

theorem Coherent.tokens_pos (h : Coherent faces s) {p : ℕ} (hp : p ∈ s.table) :
    1 ≤ tokens (s.heap p) ∧ tokens (s.heap p) ≤ 4 := by
  unfold tokens
  cases hstate : (s.heap p).state with
  | waitingForwarding => simp
  | waitingImplicitAck =>
    have hle := h.impAck p hp hstate
    simp only [maxImplicitAckTries] at hle
    dsimp only
    omega

theorem Resent.tokens_lt {old new : Entry} (h : Resent old new) : tokens new < tokens old := by
  cases h with
  | forwarded hold _ hnew =>
    rw [hnew, Entry.changeState_of_waitingForwarding hold]
    simp [tokens, hold, maxImplicitAckTries]
  | retried hold htries hnew =>
    rw [hnew]
    simp only [tokens, hold]
    omega

/-- A firing lowers the potential. -/
theorem Coherent.potential_fired {s' : Pending} (h : Coherent faces s) {id : ℕ}
    {callback : Callback} (hpend : s.queue.Pending id callback) (hfired : Fired s id callback s') :
    s'.potential < s.potential := by
  have hcancel := weight_cancel
    (f := fun callback => tokens (s.heap callback.entry)) hpend
  -- The other callbacks keep their entries.
  have hother : ∀ id' callback', (s.queue.cancel id).Pending id' callback' →
      callback'.entry ≠ callback.entry := fun id' callback' hpend' =>
    ((h.pending_begin hpend id' callback').mp hpend').2
  unfold potential at *
  cases hfired with
  | resent entry duration hentry =>
    have hrest : (s.queue.cancel id).weight
          (fun callback' => tokens ((s.resend id callback entry duration).heap callback'.entry))
        = (s.queue.cancel id).weight fun callback' => tokens (s.heap callback'.entry) := by
      refine weight_congr (fun _ _ => Iff.rfl) fun id' callback' hpend' => ?_
      rw [heap_resend_of_ne (hother id' callback' hpend')]
    have hqueue : (s.resend id callback entry duration).queue = (s.queue.cancel id).schedule
        ⟨.impAck, callback.entry, callback.outFaceId, duration⟩ := rfl
    have hlt : tokens (entry.setTimer s.queue.nextId) < tokens (s.heap callback.entry) :=
      hentry.tokens_lt
    rw [hqueue, weight_schedule, hrest, heap_resend_self]
    omega
  | finished _ _ hdrop _ =>
    have hrest : s'.queue.weight (fun callback' => tokens (s'.heap callback'.entry)) =
        (s.queue.cancel id).weight fun callback' => tokens (s.heap callback'.entry) := by
      refine weight_congr (fun id' callback' => ?_) fun id' callback' hpend' => ?_
      · rw [hdrop.queue, List.mem_singleton]
        exact (h.pending_begin hpend id' callback').symm
      · have hne := ((hdrop.queue id' callback').mp hpend').2
        rw [hdrop.heap _ hne]
    have hpos := (h.tokens_pos (h.timer id callback hpend).mem).1
    rw [hrest]
    omega

/-- An entry of the table that no timer will release. -/
def Kept (s : Pending) (p : ℕ) : Prop := p ∈ s.table ∧ ¬ s.HasTimer p

theorem Coherent.kept_fired {s' : Pending} (h : Coherent faces s) {id : ℕ} {callback : Callback}
    (hpend : s.queue.Pending id callback) (hfired : Fired s id callback s') (p : ℕ) :
    s'.Kept p ↔ s.Kept p := by
  cases hfired with
  | resent entry duration hentry => rw [Kept, Kept, h.hasTimer_resend hpend, table_resend]
  | finished _ _ hdrop _ =>
    have htimer : s.HasTimer callback.entry := ⟨id, callback, hpend, rfl⟩
    rw [Kept, Kept, hdrop.mem_table, hdrop.hasTimer, List.mem_singleton]
    constructor
    · rintro ⟨⟨hp, hne⟩, hnone⟩
      exact ⟨hp, fun ht => hnone ⟨ht, hne⟩⟩
    · rintro ⟨hp, hnone⟩
      have hne : p ≠ callback.entry := fun heq => hnone (heq ▸ htimer)
      exact ⟨⟨hp, hne⟩, fun ht => hnone ht.1⟩

end Pft.Pending

namespace ValForwarder

/-- The runs in which nothing happens but firings. -/
def firings (g : Geometry) : System ValForwarder Event :=
  (machine g).restrict fun _ e => ∃ id, e = .fire id

variable {g : Geometry} {v : ValForwarder}

/-- One firing, with everything that is needed of it. -/
theorem Sound.firing (h : Sound v) {e : Event} (hguard : (firings g).guard v e) :
    Sound (v.next g e) ∧ (v.next g e).pending.potential < v.pending.potential ∧
      ∀ p, (v.next g e).pending.Kept p ↔ v.pending.Kept p := by
  obtain ⟨hguard, id, rfl⟩ := hguard
  have henabled : v.guard (.fire id) := hguard
  have hsound := (h.changes (g := g) henabled).2.2
  obtain ⟨callback, hpend⟩ := henabled
  have hfired := h.coherent.fired_fire hpend
  exact ⟨hsound, h.coherent.potential_fired hpend hfired, h.coherent.kept_fired hpend hfired⟩

variable {p : ℕ}

/-- An entry without a timer is an Interest whose timer was cancelled. -/
theorem Sound.interest_of_kept (h : Sound v) (hp : v.pending.Kept p) :
    (v.pending.heap p).valPkt.isInterest = true ∧
      (v.pending.heap p).state = .waitingImplicitAck := by
  obtain ⟨hmem, htimer⟩ := hp
  refine ⟨?_, ?_⟩
  · cases hpay : (v.pending.heap p).valPkt.payload with
    | notSet => exact absurd hpay (h.coherent.isSet p hmem)
    | interest i => simp [ValPacket.isInterest, hpay]
    | data d =>
      have hdata : (v.pending.heap p).valPkt.isData = true := by simp [ValPacket.isData, hpay]
      exact absurd (h.coherent.data p hmem hdata) htimer
  · cases hstate : (v.pending.heap p).state with
    | waitingForwarding => exact absurd (h.coherent.forwarding p hmem hstate).2 htimer
    | waitingImplicitAck => rfl

/-! ### How an entry loses its timer -/

theorem hasTimer_register {s : Pending} {sent : Option Outgoing} (h : s.HasTimer p) :
    (register s sent).1.HasTimer p := by
  rcases register_cases s sent with heq | ⟨out, _, _, heq⟩
  · rw [heq]
    exact h
  · rw [heq]
    exact hasTimer_enter.mpr (.inl h)

theorem mem_register {s : Pending} {sent : Option Outgoing} (hlt : p < s.nextPtr)
    (h : p ∈ (register s sent).1.table) : p ∈ s.table := by
  rcases register_cases s sent with heq | ⟨out, _, _, heq⟩
  · rwa [heq] at h
  · rw [heq] at h
    rcases mem_table_enter.mp h with h | rfl
    · exact h
    · exact absurd hlt (Nat.lt_irrefl _)

variable {v' : ValForwarder}

/-- A reception takes the timer of the Interest it cancels, and no other that
stays. -/
theorem Sound.lost_received (h : Sound v) {face : ℕ} {valP : ValPacket}
    (hrec : Received v face valP v') (htimer : v.pending.HasTimer p) (hstay : p ∈ v'.pending.table)
    (hlost : ¬ v'.pending.HasTimer p) :
    v.pending.findMatch valP = some p ∧
      cancels (v.pending.heap p) valP = true ∧
      (v.pending.heap p).valPkt.isData = false := by
  cases hrec with
  | interest | again | data | invalid => exact absurd htimer hlost
  | dropped hpre =>
    rw [preProcessingValPacket_eq] at hstay hlost
    cases hfind : v.pending.findMatch valP with
    | none =>
      rw [hfind] at hlost
      exact absurd htimer hlost
    | some q =>
      obtain ⟨hq, hmatch⟩ := mem_of_findMatch hfind
      simp only [hfind] at hstay hlost
      split at hlost
      · rename_i hcancels
        simp only [hcancels, if_true] at hstay
        split at hlost
        · -- A Data entry: it has left the table.
          rename_i hdata
          simp only [hdata, if_true] at hstay
          have hiff : ∀ r ∈ (v.pending.silence q).table,
              (v.pending.silence q).isMatch valP r = true ↔ r = q := by
            intro r hr
            rw [isMatch_silence]
            exact h.coherent.isMatch_iff hq hmatch r (by simpa using hr)
          have hdrop := h.coherent.dropped_silence_remove hq
          rw [removeEntry_eq hiff] at hstay hlost
          exact absurd (hdrop.hasTimer.mpr ⟨htimer, (hdrop.mem_table.mp hstay).2⟩) hlost
        · rename_i hdata
          have hpq : p = q := by
            by_contra hne
            exact hlost ((h.coherent.hasTimer_silence hq).mpr ⟨htimer, hne⟩)
          subst hpq
          exact ⟨rfl, hcancels, by simpa using hdata⟩
      · exact absurd htimer hlost

theorem Sound.hasTimer_delivered (h : Sound v) {inGeoface : ℕ} {data : Data}
    {nonceList : Option (List Nonce)} {isProducer : Bool}
    (hdel : Delivered g v inGeoface data nonceList isProducer v') (hp : p ∈ v.pending.table)
    (htimer : v.pending.HasTimer p) (hstay : p ∈ v'.pending.table) : v'.pending.HasTimer p := by
  have hlt := h.coherent.allocated p hp
  obtain ⟨hdrop, -⟩ := h.coherent.dropped_cancelPendingInterests (nonceList.getD [])
  have hcancel : p ∈ (v.pending.cancelPendingInterests (nonceList.getD [])).table →
      (v.pending.cancelPendingInterests (nonceList.getD [])).HasTimer p := fun hmem =>
    hdrop.hasTimer.mpr ⟨htimer, (hdrop.mem_table.mp hmem).2⟩
  cases hdel with
  | control => exact htimer
  | cleaned => exact hcancel hstay
  | relayed =>
    have hlt' : p < (v.pending.cancelPendingInterests (nonceList.getD [])).nextPtr :=
      hdrop.nextPtr ▸ hlt
    exact hasTimer_register (hcancel (mem_register hlt' hstay))
  | originated => exact hasTimer_register htimer

/-- Only a reception that cancels an Interest takes the timer away from an
entry that stays in the table. -/
theorem Sound.lost (h : Sound v) {e : Event} (hguard : v.guard e) (hp : p ∈ v.pending.table)
    (htimer : v.pending.HasTimer p) (hstay : p ∈ (v.next g e).pending.table)
    (hlost : ¬ (v.next g e).pending.HasTimer p) :
    ∃ face valP, e = .receive face valP ∧ v.pending.findMatch valP = some p ∧
      cancels (v.pending.heap p) valP = true ∧
      (v.pending.heap p).valPkt.isData = false := by
  cases e with
  | receive face valP =>
    exact ⟨face, valP, rfl, h.lost_received (received v face valP) htimer hstay hlost⟩
  | interestFromNfd inGeoface interest =>
    rw [next, reveiceInterest_eq] at hlost
    exact absurd (hasTimer_register htimer) hlost
  | dataFromNfd inGeoface data nonceList isProducer =>
    exact absurd (h.hasTimer_delivered (delivered g v inGeoface data nonceList isProducer) hp
      htimer hstay) hlost
  | fire id =>
    obtain ⟨callback, hpend⟩ := hguard
    have hkept := (h.coherent.kept_fired hpend (h.coherent.fired_fire hpend) p).mp
      ⟨hstay, hlost⟩
    exact absurd htimer hkept.2
  | addFace face | move mobility => exact absurd htimer hlost

/-! ### What is released -/

theorem Sound.firings_run (h : Sound v) {es : List Event} (hrun : (firings g).Run v es v') :
    Sound v' ∧ ∀ p, v'.pending.Kept p ↔ v.pending.Kept p :=
  hrun.invariant (I := fun u => Sound u ∧ ∀ p, u.pending.Kept p ↔ v.pending.Kept p)
    (fun _ _ hu hguard =>
      ⟨(hu.1.firing hguard).1, fun p => ((hu.1.firing hguard).2.2 p).trans (hu.2 p)⟩)
    ⟨h, fun _ => Iff.rfl⟩

/-- With no timer left only the kept entries are in the table. -/
theorem mem_table_iff_kept (hfinal : ∀ e, ¬ (firings g).guard v e) (p : ℕ) :
    p ∈ v.pending.table ↔ v.pending.Kept p := by
  refine ⟨fun hp => ⟨hp, ?_⟩, fun hp => hp.1⟩
  rintro ⟨id, callback, hpend, -⟩
  exact hfinal (.fire id) ⟨⟨callback, hpend⟩, id, rfl⟩

/-- Which entries are released when nothing but firings happens. -/
theorem entries_released (g : Geometry) (v : ValForwarder) (h : (machine g).Reachable v) :
    -- An entry has a timer, or it is an Interest that waits silently ...
    (∀ p ∈ v.pending.table, v.pending.HasTimer p ∨
      ((v.pending.heap p).valPkt.isInterest = true ∧
        (v.pending.heap p).state = .waitingImplicitAck)) ∧
    -- ... and only the overheard copy that cancels it can have made it one.
    (∀ e p, v.guard e → p ∈ v.pending.table → v.pending.HasTimer p →
      p ∈ (v.next g e).pending.table → ¬ (v.next g e).pending.HasTimer p →
      ∃ face valP, e = .receive face valP ∧ v.pending.findMatch valP = some p ∧
        Pending.cancels (v.pending.heap p) valP = true ∧
        (v.pending.heap p).valPkt.isData = false) ∧
    -- Firings come to an end, and then exactly these entries are left.
    (∀ es v', (firings g).Run v es v' →
      es.length ≤ v.pending.queue.pending.length * 4 ∧
      ((∀ e, ¬ (firings g).guard v' e) → ∀ p, p ∈ v'.pending.table ↔
        (p ∈ v.pending.table ∧ ¬ v.pending.HasTimer p))) ∧
    (∃ es v', (firings g).Run v es v' ∧ ∀ e, ¬ (firings g).guard v' e) := by
  have hsound := sound_of_reachable h
  have hstep : ∀ (u : ValForwarder) (e : Event), Sound u → (firings g).guard u e →
      Sound ((firings g).next u e) ∧
        ((firings g).next u e).pending.potential < u.pending.potential :=
    fun u e hu hguard => ⟨(hu.firing hguard).1, (hu.firing hguard).2.1⟩
  refine ⟨fun p hp => ?_, fun e p hguard hp htimer hstay hlost => ?_,
    fun es v' hrun => ⟨?_, fun hfinal p => ?_⟩, ?_⟩
  · by_cases htimer : v.pending.HasTimer p
    · exact .inl htimer
    · exact .inr (hsound.interest_of_kept ⟨hp, htimer⟩)
  · exact hsound.lost hguard hp htimer hstay hlost
  · have hlen := hrun.length_add_le (fun u => u.pending.potential) hsound hstep
    have hle : v.pending.potential ≤ v.pending.queue.pending.length * 4 :=
      EventQueue.weight_le fun id callback hpend =>
        (hsound.coherent.tokens_pos (hsound.coherent.timer id callback hpend).mem).2
    omega
  · rw [mem_table_iff_kept hfinal]
    exact (hsound.firings_run hrun).2 p
  · exact System.exists_final (fun u => u.pending.potential) hstep hsound

/-- The application's Interest comes back from the air with its hop count. -/
def overheard : ValForwarder :=
  asked.next flatGeometry (.receive 257 ⟨⟨"B2", "0", "9:9:0", "/a", 9⟩, .interest sampleInterest⟩)

theorem overheard_reachable : (machine flatGeometry).Reachable overheard := by
  have hguard : (machine flatGeometry).guard asked
      (.receive 257 ⟨⟨"B2", "0", "9:9:0", "/a", 9⟩, .interest sampleInterest⟩) := by
    show 257 ∈ asked.networkFaces
    decide
  exact asked_reachable.next hguard

theorem entries_released_overheard :
    (machine flatGeometry).Reachable overheard ∧
      ∀ p ∈ overheard.pending.table, overheard.pending.HasTimer p ∨
        ((overheard.pending.heap p).valPkt.isInterest = true ∧
          (overheard.pending.heap p).state = .waitingImplicitAck) :=
  ⟨overheard_reachable, (entries_released flatGeometry overheard overheard_reachable).1⟩

/-- The overheard Interest stays in the table, without a timer, however long
one waits. -/
theorem overheard_not_released :
    (machine flatGeometry).Reachable overheard ∧ ¬ overheard.pending.HasTimer 0 ∧
      ∀ es v', (firings flatGeometry).Run overheard es v' → v'.pending.table = [0] := by
  have hnone : ∀ id callback, ¬ overheard.pending.queue.Pending id callback := by
    intro id callback hpend
    have hempty : overheard.pending.queue.pending = [] := rfl
    rw [EventQueue.Pending, hempty] at hpend
    cases hpend
  refine ⟨overheard_reachable, ?_, ?_⟩
  · rintro ⟨id, callback, hpend, -⟩
    exact hnone id callback hpend
  · intro es v' hrun
    have heq : v' = overheard := by
      refine hrun.invariant (I := fun u => u = overheard) ?_ rfl
      rintro u e rfl ⟨hguard, id, rfl⟩
      obtain ⟨callback, hpend⟩ := hguard
      exact absurd hpend (hnone id callback)
    rw [heq]
    rfl

end ValForwarder

end ValProofs
