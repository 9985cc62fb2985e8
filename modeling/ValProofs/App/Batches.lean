import ValProofs.App.Consumer

/-!
`ConsumerBatches`, and what its samples of the round trip time are worth.

A sample is to be the time from the only transmission of a number to its Data. The history is
made for this: a number that is sent again, or whose time is over, is marked in it. But
`AddBatch` clears the history while numbers are outstanding. When the time of such a number is
over it is not marked then; an entry is made for it, with the time of the timeout, as if it were
sent for the first time.
-/

namespace ValProofs

open Lib Function List

namespace Consumer

variable {ρ : Type}

/-- `ConsumerBatches`; its member is `m_initial`. -/
def batches (E : Estimator ρ) : Methods ρ Bool where
  schedule c :=
    match c.sendEvent with
    | some event => (some event, c.ext)
    | none =>
        (some (c.now + if c.ext then 0 else E.retransmitTimeout c.rtt.estimate), false)
  willSendOut ext := ext
  timeout ext := ext
  data ext := ext
  dataSchedules := false

/-- `AddBatch(amount)`. -/
def addBatch (E : Estimator ρ) (c : Consumer ρ Bool) (amount : UInt32) : Consumer ρ Bool :=
  scheduleNextPacket (batches E)
    { c with seqMax := c.seqMax + amount, rtt := c.rtt.clearSent, ext := true }

/-- What happens to a number, and when. -/
inductive Happening
  | sent (time : ℕ)
  | timedOut (time : ℕ)
  deriving DecidableEq

def Happening.time : Happening → ℕ
  | .sent time => time
  | .timedOut time => time

/-- All that has happened to the numbers, and the times of it since the history has been cleared
or the Data has come. -/
structure Track where
  happened : UInt32 → List Happening
  since : UInt32 → List ℕ

namespace Track

def empty : Track := ⟨fun _ => [], fun _ => []⟩

def note (happening : Happening) (track : Track) (seq : UInt32) : Track where
  happened := Function.update track.happened seq (track.happened seq ++ [happening])
  since := Function.update track.since seq (track.since seq ++ [happening.time])

def forget (track : Track) (seq : UInt32) : Track :=
  { track with since := Function.update track.since seq [] }

def clear (track : Track) : Track := { track with since := fun _ => [] }

/-- The entry of a number for these times: it is made at the first, and marked at the others. -/
def entry (seq : UInt32) : List ℕ → Option RttHistory
  | [] => none
  | time :: rest => some ⟨seq, time, !rest.isEmpty⟩

end Track

/-- The history is what the times since make of it. -/
structure Traced (rtt : Rtt ρ) (now : ℕ) (track : Track) : Prop where
  nodup : (rtt.history.map RttHistory.seq).Nodup
  find : ∀ seq, rtt.find seq = Track.entry seq (track.since seq)
  suffix : ∀ seq, track.since seq <:+ (track.happened seq).map Happening.time
  past : ∀ seq, ∀ time ∈ track.since seq, time ≤ now

namespace Traced

variable {rtt : Rtt ρ} {now : ℕ} {track : Track}

theorem congr (h : Traced rtt now track) {rtt' : Rtt ρ} (hrtt : rtt'.history = rtt.history) :
    Traced rtt' now track := by
  refine ⟨hrtt ▸ h.nodup, fun seq => ?_, h.suffix, h.past⟩
  rw [← h.find, Rtt.find, Rtt.find, hrtt]

theorem elapse (h : Traced rtt now track) {time : ℕ} (hle : now ≤ time) : Traced rtt time track :=
  ⟨h.nodup, h.find, h.suffix, fun seq earlier hmem => (h.past seq earlier hmem).trans hle⟩

theorem sentSeq (h : Traced rtt now track) (seq : UInt32) {happening : Happening}
    (htime : happening.time = now) :
    Traced (rtt.sentSeq now seq) now (track.note happening seq) := by
  refine ⟨Rtt.nodup_sentSeq h.nodup, fun other => ?_, fun other => ?_, fun other => ?_⟩
  all_goals
    rw [Track.note]
    dsimp only
    by_cases hother : other = seq
  · subst hother
    rw [Rtt.find_sentSeq_self, h.find, update_self, htime]
    cases track.since other with
    | nil => rfl
    | cons time rest =>
      simp [Track.entry]
  · rw [Rtt.find_sentSeq_of_ne hother, update_of_ne hother, h.find]
  · subst hother
    rw [update_self, update_self, map_append]
    obtain ⟨before, hbefore⟩ := h.suffix other
    exact ⟨before, by rw [← append_assoc, hbefore]; rfl⟩
  · rw [update_of_ne hother, update_of_ne hother]
    exact h.suffix other
  · subst hother
    rw [update_self, htime]
    intro time hmem
    rcases mem_append.mp hmem with hmem | hnow
    · exact h.past other time hmem
    · exact (mem_singleton.mp hnow).le
  · rw [update_of_ne hother]
    exact h.past other

theorem ackSeq (h : Traced rtt now track) (E : Estimator ρ) (seq : UInt32) :
    Traced (rtt.ackSeq E now seq).1 now (track.forget seq) := by
  have hhistory := Rtt.history_ackSeq E rtt now seq
  refine ⟨?_, fun other => ?_, fun other => ?_, fun other => ?_⟩
  · rw [hhistory]
    exact h.nodup.sublist (eraseKey_sublist.map _)
  all_goals
    rw [Track.forget]
    dsimp only
    by_cases hother : other = seq
  · subst hother
    rw [Rtt.find, hhistory, find?_eraseKey_self h.nodup, update_self]
    rfl
  · rw [Rtt.find, hhistory, find?_eraseKey_of_ne hother, update_of_ne hother]
    exact h.find other
  · rw [hother, update_self]
    exact nil_suffix
  · rw [update_of_ne hother]
    exact h.suffix other
  · rw [hother, update_self]
    simp
  · rw [update_of_ne hother]
    exact h.past other

theorem clearSent (rtt : Rtt ρ) (now : ℕ) (track : Track) : Traced rtt.clearSent now track.clear :=
  ⟨nodup_nil, fun _ => rfl, fun _ => nil_suffix, by simp [Track.clear]⟩

end Traced

/-! ### One event -/

section

variable {E : Estimator ρ} {c : Consumer ρ Bool} {track : Track}

theorem Traced.sendPacket (h : Traced c.rtt c.now track) :
    Traced (c.sendPacket (batches E)).1.rtt (c.sendPacket (batches E)).1.now
      ((c.sendPacket (batches E)).2.elim track (track.note (.sent c.now))) := by
  obtain ⟨seq', hc⟩ := c.exists_takeSeq
  cases hactive : c.active with
  | false =>
    rw [sendPacket_of_inactive hactive]
    exact h
  | true =>
    cases hsent : c.takeSeq.2 with
    | none =>
      rw [sendPacket_of_none hactive hsent, hc]
      exact h
    | some seq =>
      rw [sendPacket_of_some hactive hsent, hc]
      exact h.sentSeq seq rfl

theorem Traced.checkTimeouts (h : Traced c.rtt c.now track) (rto turns : ℕ) :
    Traced (Consumer.checkTimeouts E (batches E) rto turns c).1.rtt
      (Consumer.checkTimeouts E (batches E) rto turns c).1.now
      ((Consumer.checkTimeouts E (batches E) rto turns c).2.foldl
        (Track.note (.timedOut c.now)) track) := by
  induction turns generalizing c track with
  | zero => exact h
  | succ turns ih =>
    rw [Consumer.checkTimeouts]
    cases c.seqTimeouts with
    | nil => exact h
    | cons first rest =>
      dsimp only
      split
      · have hsame : Traced (c.rtt.increaseMultiplier E) c.now track := h.congr rfl
        exact ih (c := Consumer.onTimeout E (batches E) { c with seqTimeouts := rest } first.1)
          (hsame.sentSeq first.1 rfl)
      · exact h

theorem onData_batches (hactive : c.active = true) (seq : UInt32) :
    c.onData E (batches E) seq =
      ({ c with
          seqTimeouts := eraseKey Prod.fst seq c.seqTimeouts
          retxSeqs := c.retxSeqs.erase seq
          rtt := (c.rtt.ackSeq E c.now seq).1 },
        (c.rtt.ackSeq E c.now seq).2) := by
  rw [onData, receive, if_pos hactive]
  rfl

/-- There is a sample for a number that has one time since, and it is the time from then on. -/
theorem Traced.sample_iff {rtt : Rtt ρ} {now : ℕ} (h : Traced rtt now track) (seq : UInt32)
    (m : ℕ) :
    (rtt.ackSeq E now seq).2 = some m ↔ ∃ time, track.since seq = [time] ∧ time + m = now := by
  have hpast := h.past seq
  rw [Rtt.ackSeq, h.find]
  cases hsince : track.since seq with
  | nil => simp [Track.entry]
  | cons time rest =>
    have hle : time ≤ now := hpast time (by rw [hsince]; exact mem_cons_self)
    cases rest with
    | nil =>
      show some (now - time) = some m ↔ _
      simp only [Option.some.injEq, cons.injEq, and_true, exists_eq_left']
      omega
    | cons other rest => simp [Track.entry]

end

/-! ### Whole runs -/

/-- A consumer of batches, with all that has happened to its numbers, and the sample that the
last event has made, if any. -/
structure BatchRun (ρ : Type) where
  consumer : Consumer ρ Bool
  track : Track
  sample : Option (UInt32 × ℕ)

namespace BatchRun

inductive Op
  | event (e : Event)
  | addBatch (amount : UInt32)

def next (E : Estimator ρ) (s : BatchRun ρ) : Op → BatchRun ρ
  | .event .send =>
      let sent := (Consumer.sendPacket (batches E) { s.consumer with sendEvent := none }).2
      ⟨s.consumer.next E (batches E) .send,
        sent.elim s.track (s.track.note (.sent s.consumer.now)), none⟩
  | .event (.data seq) =>
      ⟨s.consumer.next E (batches E) (.data seq), s.track.forget seq,
        (s.consumer.onData E (batches E) seq).2.map (seq, ·)⟩
  | .event .check =>
      ⟨s.consumer.next E (batches E) .check,
        (s.consumer.checkRetxTimeout E (batches E)).2.foldl
          (Track.note (.timedOut s.consumer.now)) s.track,
        none⟩
  | .event e => ⟨s.consumer.next E (batches E) e, s.track, none⟩
  | .addBatch amount => ⟨s.consumer.addBatch E amount, s.track.clear, none⟩

def guard (s : BatchRun ρ) : Op → Prop
  | .event e => s.consumer.guard e
  | .addBatch _ => True

instance (s : BatchRun ρ) (op : Op) : Decidable (s.guard op) := by
  cases op <;> rw [guard] <;> infer_instance

/-- As it is started: `m_seqMax` is zero until there is a batch. -/
def start (E : Estimator ρ) (estimate : ρ) (seq : UInt32) : BatchRun ρ :=
  ⟨startApplication (batches E) estimate seq 0 true, .empty, none⟩

def machine (E : Estimator ρ) (estimate : ρ) (seq : UInt32) : System (BatchRun ρ) Op where
  init s := s = start E estimate seq
  guard := guard
  next := next E

instance (E : Estimator ρ) (estimate : ρ) (seq : UInt32) (s : BatchRun ρ) (op : Op) :
    Decidable ((machine E estimate seq).guard s op) :=
  inferInstanceAs (Decidable (s.guard op))

/-- A sample is the time since the transmission of its number, and nothing else has happened to
the number. -/
def Karn (s : BatchRun ρ) : Prop :=
  ∀ seq m, s.sample = some (seq, m) →
    ∃ time, s.track.happened seq = [.sent time] ∧ time + m = s.consumer.now

/-- What has to be the case when a Data comes: if there is one time since, it is the time of a
transmission, and there were no others. -/
def Clean (s : BatchRun ρ) : Op → Prop
  | .event (.data seq) => ∀ time, s.track.since seq = [time] → s.track.happened seq = [.sent time]
  | _ => True

variable {E : Estimator ρ} {s : BatchRun ρ}

section

variable (h : Traced s.consumer.rtt s.consumer.now s.track)
include h

theorem traced_next {op : Op} (hguard : s.guard op) :
    Traced (s.next E op).consumer.rtt (s.next E op).consumer.now (s.next E op).track := by
  cases op with
  | addBatch amount => exact Traced.clearSent _ _ _
  | event e =>
    cases e with
    | send => exact Traced.sendPacket (c := { s.consumer with sendEvent := none }) h
    | data seq =>
      have hnext : (s.next E (.event (.data seq))).consumer =
          (s.consumer.onData E (batches E) seq).1 := rfl
      rw [hnext, onData_batches hguard]
      exact h.ackSeq E seq
    | check => exact h.checkTimeouts _ _
    | elapse time => exact h.elapse hguard.1
    | stop => exact h

/-- The step for a Data. -/
theorem karn_data_iff {seq : UInt32} (hactive : s.consumer.active = true) :
    (s.next E (.event (.data seq))).Karn ↔ s.Clean (.event (.data seq)) := by
  have hsample : (s.next E (.event (.data seq))).sample =
      (s.consumer.rtt.ackSeq E s.consumer.now seq).2.map (seq, ·) := by
    rw [next, onData_batches hactive]
  have hnow : (s.next E (.event (.data seq))).consumer.now = s.consumer.now := by
    show (s.consumer.onData E (batches E) seq).1.now = _
    rw [onData_batches hactive]
  constructor
  · intro hkarn time hsince
    have hle : time ≤ s.consumer.now := h.past seq time (by rw [hsince]; exact mem_cons_self)
    have hack : (s.consumer.rtt.ackSeq E s.consumer.now seq).2 = some (s.consumer.now - time) :=
      (h.sample_iff seq _).mpr ⟨time, hsince, by omega⟩
    obtain ⟨time', hhappened, -⟩ := hkarn seq _ (hsample.trans (by rw [hack]; rfl))
    have hhappened : s.track.happened seq = [.sent time'] := hhappened
    -- the one time since is the time of the one transmission
    have hsuffix := h.suffix seq
    rw [hsince, hhappened] at hsuffix
    have hsame : [time] = [time'] := hsuffix.eq_of_length rfl
    rw [hhappened, (cons.inj hsame).1]
  · intro hclean other m hm
    rw [hsample] at hm
    obtain ⟨m', hack, hpair⟩ := Option.map_eq_some_iff.mp hm
    obtain ⟨rfl, rfl⟩ := Prod.mk.inj hpair
    obtain ⟨time, hsince, htime⟩ := (h.sample_iff seq m').mp hack
    exact ⟨time, hclean time hsince, htime.trans hnow.symm⟩

theorem karn_next_iff {op : Op} (hguard : s.guard op) : (s.next E op).Karn ↔ s.Clean op := by
  cases op with
  | addBatch amount => exact iff_of_true (by rintro seq m ⟨⟩) trivial
  | event e =>
    cases e with
    | data seq => exact karn_data_iff h hguard
    | _ => exact iff_of_true (by rintro seq m ⟨⟩) trivial

end

/-- All along a run the samples are the times since the only transmissions of their numbers just
if no Data comes for a number that has an unmarked entry for another reason. -/
theorem karn_iff {estimate : ρ} {seq : UInt32} {ops : List Op}
    (h : (machine E estimate seq).Enabled (start E estimate seq) ops) :
    (∀ before after, ops = before ++ after →
        (before.foldl (next E) (start E estimate seq)).Karn) ↔
      ∀ before op after, ops = before ++ op :: after →
        (before.foldl (next E) (start E estimate seq)).Clean op := by
  refine h.forall_iff (P := Karn) (K := Clean)
    (I := fun s => Traced s.consumer.rtt s.consumer.now s.track ∧ s.Karn) ?_ ?_ ?_ ?_
  · exact ⟨⟨List.nodup_nil, fun _ => rfl, fun _ => List.nil_suffix, by simp [start, Track.empty]⟩,
      by rintro seq m ⟨⟩⟩
  · exact fun s hs => hs.2
  · rintro s op ⟨htraced, -⟩ hguard hclean
    exact ⟨traced_next htraced hguard, (karn_next_iff htraced hguard).mpr hclean⟩
  · rintro s op ⟨htraced, -⟩ hguard hkarn
    exact (karn_next_iff htraced hguard).mp hkarn

/-- A batch is added and its number is sent; another batch is added half a second later. A second
after it has been sent the time of the first number is over, and its Data comes then. -/
def lateOps : List Op :=
  [.event .send, .event (.elapse 1010000000), .addBatch 1, .event .send,
    .event (.elapse 1500000000), .addBatch 1, .event (.elapse 2010000000), .event .send,
    .event .send, .event (.elapse 2050000000), .event .check, .event (.elapse 2100000000),
    .event (.data 0)]

theorem enabled_lateOps :
    (machine Requests.estimator .construct 0).Enabled (start Requests.estimator .construct 0)
      lateOps := by
  decide +kernel

/-- The Data comes for a number whose time is over. -/
theorem karn_iff_lateOps :
    ¬ ∀ before after, lateOps = before ++ after →
      (before.foldl (next Requests.estimator) (start Requests.estimator .construct 0)).Karn := by
  intro h
  have hclean := (karn_iff enabled_lateOps).mp h lateOps.dropLast (.event (.data 0)) [] rfl
  exact absurd (hclean 2050000000 (by decide +kernel)) (by decide +kernel)

/-- The sample is a twentieth of a second; the Data has taken more than a second. -/
theorem sample_of_timedOut_seq :
    ∃ s, (machine Requests.estimator .construct 0).Reachable s ∧
      s.sample = some (0, 50000000) ∧ s.consumer.now = 2100000000 ∧
      s.track.happened 0 = [.sent 1010000000, .timedOut 2050000000] :=
  ⟨_, (System.Reachable.of_init rfl).foldl enabled_lateOps, by decide +kernel,
    by decide +kernel, by decide +kernel⟩

end BatchRun

end Consumer

end ValProofs
