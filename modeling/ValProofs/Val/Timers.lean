import ValProofs.Val.Machine

/-!
The timers of a forwarder along its runs: which of them can be pending, how
often a registered packet is sent, and which entries are never released.
-/

namespace ValProofs

open Lib Pft Pending List

namespace ValForwarder

/-! ### Timers and entries -/

/-- The PFT and the scheduler agree. -/
structure TimersCoherent (s : Pending) : Prop where
  /-- A pending timer belongs to an entry of the table and is the one it stores. -/
  stored : ∀ id callback, s.queue.Pending id callback →
    callback.entry ∈ s.table ∧ (s.heap callback.entry).timerId = some id
  atMostOne : ∀ id callback id' callback', s.queue.Pending id callback →
    s.queue.Pending id' callback' → callback.entry = callback'.entry →
    id = id' ∧ callback = callback'
  nodup : s.table.Nodup
  noMatch : s.table.Pairwise fun p q => ¬ (s.heap p).valPkt.sameNdnPacket (s.heap q).valPkt
  nItens : s.nItens = s.table.length
  waitingForwarding : ∀ p ∈ s.table, (s.heap p).state = .waitingForwarding →
    (s.heap p).tries = forwardingTries ∧
      ∃ id callback, s.queue.Pending id callback ∧ callback.entry = p ∧
        callback.kind = .forwarding
  waitingImplicitAck : ∀ p ∈ s.table, (s.heap p).state = .waitingImplicitAck →
    1 ≤ (s.heap p).tries ∧ (s.heap p).tries ≤ 3

variable {faces : FaceTable} {s : Pending}

theorem timersCoherent_of_coherent (h : Coherent faces s) : TimersCoherent s where
  stored id callback hpend :=
    ⟨(h.timer id callback hpend).mem, (h.timer id callback hpend).timerId⟩
  atMostOne := by
    intro id callback id' callback' hpend hpend' hentry
    have hid : some id = some id' := by
      rw [← (h.timer id callback hpend).timerId, ← (h.timer id' callback' hpend').timerId, hentry]
    have hid := Option.some.inj hid
    subst hid
    exact ⟨rfl, hpend.unique hpend'⟩
  nodup := h.nodup
  noMatch := h.noMatch
  nItens := h.nItens
  waitingForwarding := by
    intro p hp hstate
    obtain ⟨htries, id, callback, hpend, rfl⟩ := h.forwarding p hp hstate
    exact ⟨htries, id, callback, hpend, rfl, (h.timer id callback hpend).kind.mpr hstate⟩
  waitingImplicitAck := h.impAck

variable {g : Geometry} {v v' : ValForwarder} {e : Event}

/-- Only a timer sends. -/
theorem Stepped.log_cases (h : Stepped g v e v') :
    v'.pending.log = v.pending.log ∨
      ∃ id callback, e = .fire id ∧ v.pending.queue.Pending id callback ∧
        v'.pending.log = v.pending.log ++ [.transmit callback.entry
          (v.pending.heap callback.entry).valPkt callback.outFaceId] := by
  cases h with
  | quiet _ _ _ hlog => exact .inl hlog
  | called u inGeoface call _ _ _ hlog => exact .inl ((log_register _ _).trans hlog)
  | fired _ id callback he hpend hfired _ => exact .inr ⟨id, callback, he, hpend, hfired.log_eq⟩

/-- In every reachable state the timers and the entries agree, and the next
event sends only if it is the timer of an entry of the table. -/
theorem timersCoherent_of_reachable (g : Geometry) (v : ValForwarder)
    (h : (machine g).Reachable v) :
    TimersCoherent v.pending ∧
      ∀ e, v.guard e → (v.next g e).pending.log = v.pending.log ∨
        ∃ id callback, e = .fire id ∧ v.pending.queue.Pending id callback ∧
          callback.entry ∈ v.pending.table ∧
          (v.next g e).pending.log = v.pending.log ++ [.transmit callback.entry
            (v.pending.heap callback.entry).valPkt callback.outFaceId] := by
  have hsound := sound_of_reachable h
  refine ⟨timersCoherent_of_coherent hsound.coherent, fun e hguard => ?_⟩
  rcases (hsound.stepped g hguard).log_cases with hlog | ⟨id, callback, he, hpend, hlog⟩
  · exact .inl hlog
  · exact .inr ⟨id, callback, he, hpend, (hsound.coherent.timer id callback hpend).mem, hlog⟩

/-- One entry is waiting, under the timer 0. -/
theorem timersCoherent_asked :
    (machine flatGeometry).Reachable asked ∧ asked.pending.table = [0] ∧
      TimersCoherent asked.pending :=
  ⟨asked_reachable, rfl, (timersCoherent_of_reachable flatGeometry asked asked_reachable).1⟩

/-! ### Registrations -/

/-- Every object comes from one recorded registration and holds its packet. -/
structure Traced (v : ValForwarder) : Prop where
  accounted : Pending.Accounted v.pending
  created : ∀ call ∈ v.calls, ∀ p, call.created = some p → p < v.pending.nextPtr ∧
    ∃ out, call.sent = some out ∧ (v.pending.heap p).valPkt = out.valPkt
  nodup : (v.calls.filterMap Call.created).Nodup
  complete : ∀ p < v.pending.nextPtr, ∃ call ∈ v.calls, call.created = some p

variable {s' : Pending}

theorem Changes.accounted (h : Changes faces s s') (hcoh : Coherent faces s)
    (hacc : Accounted s) : Accounted s' :=
  (h.invariant hcoh hacc fun _ _ hcoh hchange hacc => hcoh.accounted hchange hacc).2

variable {p : ℕ}

/-- The packet of an object does not change during an event. -/
theorem Changes.valPkt_eq (h : Changes faces s s') (hp : p < s.nextPtr) :
    (s'.heap p).valPkt = (s.heap p).valPkt := by
  induction h with
  | nil => rfl
  | cons hchange _ ih =>
    rw [ih (Nat.lt_of_lt_of_le hp hchange.nextPtr_le), hchange.valPkt_eq hp]

/-- Events that register nothing. -/
theorem Traced.frame (h : Traced v) (hacc : Accounted v'.pending)
    (hcalls : v'.calls = v.calls) (hptr : v'.pending.nextPtr = v.pending.nextPtr)
    (hpkt : ∀ p < v.pending.nextPtr,
      (v'.pending.heap p).valPkt = (v.pending.heap p).valPkt) : Traced v' where
  accounted := hacc
  created call hcall p hp := by
    rw [hcalls] at hcall
    obtain ⟨hlt, out, hsent, hvalPkt⟩ := h.created call hcall p hp
    exact ⟨hptr ▸ hlt, out, hsent, (hpkt p hlt).trans hvalPkt⟩
  nodup := hcalls ▸ h.nodup
  complete p hp := by
    rw [hcalls]
    exact h.complete p (hptr ▸ hp)

theorem Traced.strategy (h : Traced v) (g : Geometry) (inGeoface : ℕ) (call : StrategyCall)
    (hacc : Accounted (v.strategy g inGeoface call).pending) :
    Traced (v.strategy g inGeoface call) := by
  unfold ValForwarder.strategy sendValPacket at *
  rcases register_cases v.pending (v.sentBy g inGeoface call) with heq | ⟨out, hsent, _, heq⟩
  · rw [heq]
    refine ⟨h.accounted, ?_, ?_, ?_⟩
    · intro c hc p hp
      rcases mem_append.mp hc with hc | hc
      · exact h.created c hc p hp
      · rw [mem_singleton.mp hc] at hp
        cases hp
    · simpa using h.nodup
    · intro p hp
      obtain ⟨c, hc, hp⟩ := h.complete p hp
      exact ⟨c, mem_append_left _ hc, hp⟩
  · rw [heq] at hacc ⊢
    refine ⟨hacc, ?_, ?_, ?_⟩
    · intro c hc p hp
      rcases mem_append.mp hc with hc | hc
      · obtain ⟨hlt, out', hsent', hvalPkt⟩ := h.created c hc p hp
        refine ⟨Nat.lt_succ_of_lt hlt, out', hsent', ?_⟩
        rw [heap_enter_of_lt hlt]
        exact hvalPkt
      · rw [mem_singleton.mp hc] at hp ⊢
        cases hp
        refine ⟨Nat.lt_succ_self _, out, hsent, ?_⟩
        rw [heap_enter_self]
        rfl
    · -- The new address is larger than all the old ones.
      rw [filterMap_append, nodup_append]
      refine ⟨h.nodup, by simp, ?_⟩
      intro p hp q hq
      obtain ⟨c, hc, hpc⟩ := mem_filterMap.mp hp
      have hlt := (h.created c hc p hpc).1
      have hqn : q = v.pending.nextPtr := by simpa using hq
      omega
    · intro p hp
      rcases Nat.lt_succ_iff_lt_or_eq.mp hp with hlt | rfl
      · obtain ⟨c, hc, hpc⟩ := h.complete p hlt
        exact ⟨c, mem_append_left _ hc, hpc⟩
      · exact ⟨_, mem_append_right _ (mem_singleton.mpr rfl), rfl⟩

theorem Sound.traced (h : Sound v) (ht : Traced v) (hguard : v.guard e) : Traced (v.next g e) := by
  obtain ⟨hchanges, -, -⟩ := h.changes (g := g) hguard
  have hacc := hchanges.accounted h.coherent ht.accounted
  have hstep := h.stepped g hguard
  generalize v.next g e = v' at hchanges hacc hstep
  cases hstep with
  | quiet _ hcalls hptr _ => exact ht.frame hacc hcalls hptr fun p hp => hchanges.valPkt_eq hp
  | called u inGeoface call hmid hcalls hptr _ =>
    have hu : Traced u := ht.frame (hmid.accounted h.coherent ht.accounted) hcalls hptr
      fun p hp => hmid.valPkt_eq hp
    exact hu.strategy g inGeoface call hacc
  | fired _ id callback _ _ hfired hcalls =>
    exact ht.frame hacc hcalls hfired.nextPtr_eq fun p hp => hchanges.valPkt_eq hp

theorem Init.traced (h : Init v) : Traced v := by
  obtain ⟨faces, mobility, face, hval, rfl⟩ := h
  refine ⟨accounted_empty, ?_, nodup_nil, ?_⟩
  · intro call hcall
    cases hcall
  · intro p hp
    exact absurd hp (Nat.not_lt_zero p)

theorem traced_of_reachable (h : (machine g).Reachable v) : Traced v :=
  (h.invariant (I := fun v => Sound v ∧ Traced v) (fun _ hinit => ⟨hinit.sound, hinit.traced⟩)
    fun _ _ hv hguard => ⟨(hv.1.changes hguard).2.2, hv.1.traced hv.2 hguard⟩).2

/-! ### Cancelled packets -/

/-- The object exists and no timer can send it. -/
def Silent (v : ValForwarder) (p : ℕ) : Prop :=
  p < v.pending.nextPtr ∧ ¬ v.pending.HasTimer p

/-- What is silent stays silent and is not sent. -/
theorem Sound.silent (h : Sound v) (hguard : v.guard e) (hp : v.Silent p) :
    (v.next g e).Silent p ∧ (v.next g e).pending.sends p = v.pending.sends p := by
  obtain ⟨hchanges, -, -⟩ := h.changes (g := g) hguard
  have hinv := hchanges.invariant
    (I := fun s => (p < s.nextPtr ∧ ¬ s.HasTimer p) ∧ s.sends p = v.pending.sends p)
    h.coherent ⟨hp, rfl⟩ fun t t' hcoh hchange ht => by
      obtain ⟨⟨hlt, htimer⟩, hsends⟩ := ht
      exact ⟨⟨Nat.lt_of_lt_of_le hlt hchange.nextPtr_le, hcoh.not_hasTimer hchange hlt htimer⟩,
        (sends_of_not_hasTimer hchange htimer).trans hsends⟩
  exact hinv.2

theorem Sound.silent_run (h : Sound v) (hp : v.Silent p) {es : List Event}
    (hrun : (machine g).Run v es v') : v'.pending.sends p = v.pending.sends p := by
  have hinv := hrun.invariant
    (I := fun u => Sound u ∧ u.Silent p ∧ u.pending.sends p = v.pending.sends p)
    (fun u e hu hguard => by
      obtain ⟨hsound, hsilent, hsends⟩ := hu
      obtain ⟨hsilent', hsends'⟩ := hsound.silent (g := g) hguard hsilent
      exact ⟨(hsound.changes hguard).2.2, hsilent', hsends'.trans hsends⟩)
    ⟨h, hp, rfl⟩
  exact hinv.2.2

/-- The receptions that cancel an entry, as the comments of
`preProcessingValPacket` put it. -/
theorem cancels_iff {entry : Pft.Entry} {valP : ValPacket} :
    cancels entry valP = true ↔
      (entry.state = .waitingForwarding ∧ entry.valPkt.hopC = valP.hopC) ∨
      (entry.state = .waitingImplicitAck ∧
        (entry.valPkt.hopC.toNat = valP.hopC.toNat + 1 ∨
          (entry.valPkt.isData = true ∧ entry.valPkt.hopC = valP.hopC))) := by
  cases hstate : entry.state with
  | waitingForwarding => simp [cancels, hstate]
  | waitingImplicitAck =>
    simp only [cancels, hstate, isImplicitAck, Bool.or_eq_true, decide_eq_true_eq,
      Bool.and_eq_true, beq_iff_eq, reduceCtorEq, false_and, true_and, false_or]
    refine or_congr ?_ Iff.rfl
    omega

/-- A cancelling reception silences the entry. -/
theorem Sound.silent_of_cancels (h : Sound v) (face : ℕ) {valP : ValPacket}
    (hfind : v.pending.findMatch valP = some p)
    (hcancels : cancels (v.pending.heap p) valP = true) :
    (v.onReceivedValPacket face valP).1.Silent p := by
  obtain ⟨hp, hmatch⟩ := mem_of_findMatch hfind
  have hpre := preProcessingValPacket_eq v.pending valP
  rw [hfind] at hpre
  simp only [hcancels, if_true] at hpre
  have heq : (v.onReceivedValPacket face valP).1.pending =
      (v.pending.preProcessingValPacket valP).1 := by
    rw [onReceivedValPacket, hpre]
  rw [Silent, heq, (preProcessing_quiet _ _).1, hpre]
  refine ⟨h.coherent.allocated p hp, ?_⟩
  have hsilence : ¬ (v.pending.silence p).HasTimer p := fun htimer =>
    ((h.coherent.hasTimer_silence hp).mp htimer).2 rfl
  split
  · exact hsilence
  · exact hsilence

/-- An entry that has left the table is silent. -/
theorem Sound.silent_of_not_mem (h : Sound v) (hlt : p < v.pending.nextPtr)
    (hp : p ∉ v.pending.table) : v.Silent p := by
  refine ⟨hlt, ?_⟩
  rintro ⟨id, callback, hpend, rfl⟩
  exact hp (h.coherent.timer id callback hpend).mem

theorem Changes.nextPtr_le (h : Changes faces s s') : s.nextPtr ≤ s'.nextPtr := by
  induction h with
  | nil => exact Nat.le_refl _
  | cons hchange _ ih => exact Nat.le_trans hchange.nextPtr_le ih

/-- The transmissions of a registered packet: at most four, one for a Data
packet with at most two hops to go, and none after a cancelling reception or
after `reveiceData` has taken the entry out of the table. -/
theorem transmissions_bounded (g : Geometry) (v : ValForwarder) (h : (machine g).Reachable v) :
    -- Transmissions belong to registrations, and different ones to different objects.
    (v.calls.filterMap Call.created).Nodup ∧
    (∀ p valPkt outFaceId, .transmit p valPkt outFaceId ∈ v.pending.log →
      ∃ call ∈ v.calls, ∃ out, call.created = some p ∧ call.sent = some out ∧
        out.valPkt = valPkt) ∧
    (∀ call ∈ v.calls, ∀ p out, call.created = some p → call.sent = some out →
      v.pending.sends p ≤ 1 + 3 ∧
        (out.valPkt.isData = true → out.valPkt.hopC ≤ 2 → v.pending.sends p ≤ 1)) ∧
    (∀ face valP p es v', v.guard (.receive face valP) → v.pending.findMatch valP = some p →
      ((v.pending.heap p).state = .waitingForwarding ∧
          (v.pending.heap p).valPkt.hopC = valP.hopC ∨
        (v.pending.heap p).state = .waitingImplicitAck ∧
          ((v.pending.heap p).valPkt.hopC.toNat = valP.hopC.toNat + 1 ∨
            (v.pending.heap p).valPkt.isData = true ∧
              (v.pending.heap p).valPkt.hopC = valP.hopC)) →
      (machine g).Run (v.next g (.receive face valP)) es v' →
      v'.pending.sends p = v.pending.sends p) ∧
    (∀ inGeoface data nonceList isProducer p es v',
      v.guard (.dataFromNfd inGeoface data nonceList isProducer) → p ∈ v.pending.table →
      p ∉ (v.next g (.dataFromNfd inGeoface data nonceList isProducer)).pending.table →
      (machine g).Run (v.next g (.dataFromNfd inGeoface data nonceList isProducer)) es v' →
      v'.pending.sends p = v.pending.sends p) := by
  have hsound := sound_of_reachable h
  have htraced := traced_of_reachable h
  -- What an event that is no timer leaves the counts as.
  have hsends : ∀ e, v.guard e → (∀ id, e ≠ .fire id) → ∀ p,
      (v.next g e).pending.sends p = v.pending.sends p := by
    intro e hguard hne p
    rcases (hsound.stepped g hguard).log_cases with hlog | ⟨id, _, he, _⟩
    · exact Pending.sends_eq_of_log hlog p
    · exact absurd he (hne id)
  refine ⟨htraced.nodup, ?_, ?_, ?_, ?_⟩
  · intro p valPkt outFaceId hmem
    obtain ⟨hlt, hvalPkt⟩ := htraced.accounted.log p valPkt outFaceId hmem
    obtain ⟨call, hcall, hcreated⟩ := htraced.complete p hlt
    obtain ⟨-, out, hsent, hout⟩ := htraced.created call hcall p hcreated
    exact ⟨call, hcall, out, hcreated, hsent, hout.symm.trans hvalPkt.symm⟩
  · intro call hcall p out hcreated hsent
    obtain ⟨hlt, out', hsent', hvalPkt⟩ := htraced.created call hcall p hcreated
    have hout : out' = out := Option.some.inj (hsent'.symm.trans hsent)
    have hle := (htraced.accounted.spent p hlt).sends_le
    rw [hvalPkt, hout, Pending.maxSends] at hle
    refine ⟨?_, fun hdata hhop => ?_⟩
    · split at hle <;> omega
    · rwa [if_pos (by simp [Pending.isLastHop, hdata, hhop])] at hle
  · intro face valP p es v' hguard hfind hcancel hrun
    have hsilent := hsound.silent_of_cancels face hfind (cancels_iff.mpr hcancel)
    rw [(hsound.changes hguard).2.2.silent_run hsilent hrun]
    exact hsends _ hguard (by simp) p
  · intro inGeoface data nonceList isProducer p es v' hguard hp hgone hrun
    have hlt := Nat.lt_of_lt_of_le (hsound.coherent.allocated p hp)
      (hsound.changes (g := g) hguard).1.nextPtr_le
    have hnext := (hsound.changes (g := g) hguard).2.2
    rw [hnext.silent_run (hnext.silent_of_not_mem hlt hgone) hrun]
    exact hsends _ hguard (by simp) p

/-- The Interest has been sent twice, and an implicit ACK is awaited. -/
def sentTwice : ValForwarder := [.fire 0, .fire 1].foldl (next flatGeometry) asked

theorem sentTwice_reachable : (machine flatGeometry).Reachable sentTwice := by
  refine asked_reachable.foldl (.cons ?_ (.cons ?_ (.nil _)))
  · exact Exists.intro _ (EventQueue.callback?_eq_some.mp rfl)
  · exact Exists.intro _ (EventQueue.callback?_eq_some.mp rfl)

/-- Once a relay has been heard with one hop less, it is not sent a third time. -/
theorem transmissions_bounded_sentTwice :
    sentTwice.pending.sends 0 = 2 ∧ ∀ es v',
      (machine flatGeometry).Run (sentTwice.next flatGeometry
        (.receive 257 ⟨⟨"0", "0", "5:0:0", "/a", 8⟩, .interest sampleInterest⟩)) es v' →
      v'.pending.sends 0 = 2 := by
  have hcancel := (transmissions_bounded flatGeometry sentTwice sentTwice_reachable).2.2.2.1
  refine ⟨rfl, fun es v' hrun => ?_⟩
  exact hcancel 257 _ 0 es v' (mem_singleton.mpr rfl) rfl (.inr ⟨rfl, .inl rfl⟩) hrun

end ValForwarder

end ValProofs
