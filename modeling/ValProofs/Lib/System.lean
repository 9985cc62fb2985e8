import Mathlib.Data.List.Basic
import Mathlib.Tactic.Common

/-!
Guarded transition systems and their runs.

A system is given by its initial states, the events that may happen in a
state, and the state each of them leads to. Everything that is later said
about "every run" goes through the four rules of this file: an invariant
holds along a run, a property holds along a run exactly if every step meets
the condition that keeps it, a potential that every event lowers bounds the
length of a run, and a map of states under which each event is matched by a
run of a second system takes reachable states to reachable states.
-/

namespace ValProofs.Lib

open List

/-- A transition system whose events are enabled by a guard. -/
structure System (σ ε : Type) where
  /-- The states a run may start in. -/
  init : σ → Prop
  /-- The event may happen in the state. -/
  guard : σ → ε → Prop
  /-- The state the event leads to. -/
  next : σ → ε → σ

namespace System

variable {σ ε : Type}

/-- `M.Run s es s'`: the events `es` may happen one after the other from `s`,
and they lead to `s'`. -/
inductive Run (M : System σ ε) : σ → List ε → σ → Prop
  | nil (s : σ) : Run M s [] s
  | snoc {s s' : σ} {es : List ε} {e : ε} :
      Run M s es s' → M.guard s' e → Run M s (es ++ [e]) (M.next s' e)

/-- The states that some run from an initial state leads to. -/
def Reachable (M : System σ ε) (s : σ) : Prop :=
  ∃ s₀ es, M.init s₀ ∧ M.Run s₀ es s

/-- The same system, with its events restricted to those that meet `C`. -/
def restrict (M : System σ ε) (C : σ → ε → Prop) : System σ ε where
  init := M.init
  guard s e := M.guard s e ∧ C s e
  next := M.next

variable {M : System σ ε} {s : σ} {e : ε}

theorem Run.single (h : M.guard s e) : M.Run s [e] (M.next s e) :=
  Run.snoc (Run.nil s) h

variable {s' : σ} {es : List ε}

theorem Run.append {s'' : σ} {es' : List ε} (h : M.Run s es s') (h' : M.Run s' es' s'') :
    M.Run s (es ++ es') s'' := by
  induction h' with
  | nil => simpa using h
  | snoc _ hguard ih =>
    rw [← append_assoc]
    exact Run.snoc ih hguard

variable {I : σ → Prop}

/-- **The invariant rule.** What every enabled event preserves holds along
the whole run. -/
theorem Run.invariant (h : M.Run s es s') (hstep : ∀ t e, I t → M.guard t e → I (M.next t e))
    (hI : I s) : I s' := by
  induction h with
  | nil => exact hI
  | snoc _ hguard ih => exact hstep _ _ ih hguard

theorem Reachable.of_init (h : M.init s) : M.Reachable s :=
  ⟨s, [], h, Run.nil s⟩

theorem Reachable.run (h : M.Reachable s) (hr : M.Run s es s') : M.Reachable s' := by
  obtain ⟨s₀, es₀, hinit, hrun⟩ := h
  exact ⟨s₀, es₀ ++ es, hinit, hrun.append hr⟩

theorem Reachable.next (h : M.Reachable s) (hg : M.guard s e) : M.Reachable (M.next s e) :=
  h.run (Run.single hg)

/-- The events may happen one after the other from the state. -/
inductive Enabled (M : System σ ε) : σ → List ε → Prop
  | nil (s : σ) : Enabled M s []
  | cons {s : σ} {e : ε} {es : List ε} :
      M.guard s e → Enabled M (M.next s e) es → Enabled M s (e :: es)

theorem enabled_cons_iff : M.Enabled s (e :: es) ↔ M.guard s e ∧ M.Enabled (M.next s e) es := by
  constructor
  · rintro (_ | ⟨hguard, hrest⟩)
    exact ⟨hguard, hrest⟩
  · rintro ⟨hguard, hrest⟩
    exact .cons hguard hrest

theorem enabled_of_forall_guard (h : ∀ s e, M.guard s e) (s : σ) (es : List ε) :
    M.Enabled s es := by
  induction es generalizing s with
  | nil => exact .nil s
  | cons e es ih => exact .cons (h s e) (ih (M.next s e))

/-- A run can be checked event by event. -/
instance decidableEnabled [∀ s e, Decidable (M.guard s e)] :
    ∀ (s : σ) (es : List ε), Decidable (M.Enabled s es)
  | s, [] => .isTrue (.nil s)
  | s, e :: es =>
      have := decidableEnabled (M.next s e) es
      decidable_of_iff (M.guard s e ∧ M.Enabled (M.next s e) es) enabled_cons_iff.symm

theorem Reachable.foldl (h : M.Reachable s) (hes : M.Enabled s es) :
    M.Reachable (es.foldl M.next s) := by
  induction hes with
  | nil => exact h
  | cons hguard _ ih => exact ih (h.next hguard)

/-- Every step meets the condition. -/
def AllSteps (next : σ → ε → σ) (K : σ → ε → Prop) : σ → List ε → Prop
  | _, [] => True
  | s, e :: es => K s e ∧ AllSteps next K (next s e) es

instance decidableAllSteps (next : σ → ε → σ) (K : σ → ε → Prop) [∀ s e, Decidable (K s e)] :
    ∀ (s : σ) (es : List ε), Decidable (AllSteps next K s es)
  | _, [] => .isTrue trivial
  | s, e :: es =>
      have := decidableAllSteps next K (next s e) es
      inferInstanceAs (Decidable (K s e ∧ AllSteps next K (next s e) es))

variable {K : σ → ε → Prop}

theorem allSteps_iff {next : σ → ε → σ} :
    AllSteps next K s es ↔
      ∀ before e after, es = before ++ e :: after → K (before.foldl next s) e := by
  induction es generalizing s with
  | nil => simp [AllSteps]
  | cons e es ih =>
    rw [AllSteps, ih]
    constructor
    · rintro ⟨hfirst, hrest⟩ before e' after hes
      cases before with
      | nil =>
        cases hes
        exact hfirst
      | cons e'' before =>
        obtain ⟨rfl, htail⟩ := cons.inj hes
        exact hrest before e' after htail
    · intro hall
      exact ⟨hall [] e es rfl, fun before e' after hes =>
        hall (e :: before) e' after (congrArg (e :: ·) hes)⟩

/-- What each step gives that meets `K`, if all of the run do. -/
theorem Enabled.forall_step {P : σ → ε → Prop} (h : M.Enabled s es) (hI : I s)
    (hstep : ∀ t e, I t → M.guard t e → K t e → I (M.next t e) ∧ P t e)
    (hall : ∀ before e after, es = before ++ e :: after → K (before.foldl M.next s) e) :
    ∀ before e after, es = before ++ e :: after → P (before.foldl M.next s) e := by
  rw [← allSteps_iff] at hall ⊢
  induction h with
  | nil s => trivial
  | @cons s e es hguard _ ih =>
    obtain ⟨hnext, hfirst⟩ := hstep s e hI hguard hall.1
    exact ⟨hfirst, ih hnext hall.2⟩

/-- **The rule for conditions on steps.** When an invariant that implies `P` is
kept by the steps that meet `K`, and lost to `P` by the others, then `P` holds all
along a run exactly if every step meets `K`. -/
theorem Enabled.forall_iff {P : σ → Prop} (h : M.Enabled s es) (hI : I s) (hP : ∀ t, I t → P t)
    (hkeep : ∀ t e, I t → M.guard t e → K t e → I (M.next t e))
    (hlose : ∀ t e, I t → M.guard t e → P (M.next t e) → K t e) :
    (∀ before after, es = before ++ after → P (before.foldl M.next s)) ↔
      ∀ before e after, es = before ++ e :: after → K (before.foldl M.next s) e := by
  constructor
  · intro hall
    refine h.forall_step (K := fun t e => P (M.next t e)) hI ?_ fun before e after hes => ?_
    · intro t e ht hguard hnext
      have hK := hlose t e ht hguard hnext
      exact ⟨hkeep t e ht hguard hK, hK⟩
    · have hafter := hall (before ++ [e]) after (by rw [hes, append_assoc]; rfl)
      rwa [foldl_append] at hafter
  · intro hall before after hes
    have hsteps := h.forall_step (P := fun t e => P (M.next t e)) hI (fun t e ht hguard hK =>
      have hnext := hkeep t e ht hguard hK
      ⟨hnext, hP _ hnext⟩) hall
    rcases eq_nil_or_concat before with rfl | ⟨front, e, rfl⟩
    · exact hP s hI
    · have hlast := hsteps front e after
        (by rw [hes, concat_eq_append, append_assoc]; rfl)
      rwa [concat_eq_append, foldl_append]

/-- Two conditions on the steps that are the same under the invariant they keep. -/
theorem Enabled.forall_step_iff {P : σ → ε → Prop} (h : M.Enabled s es) (hI : I s)
    (hiff : ∀ t e, I t → M.guard t e → (P t e ↔ K t e))
    (hkeep : ∀ t e, I t → M.guard t e → K t e → I (M.next t e)) :
    (∀ before e after, es = before ++ e :: after → P (before.foldl M.next s) e) ↔
      ∀ before e after, es = before ++ e :: after → K (before.foldl M.next s) e := by
  constructor
  · refine h.forall_step hI fun t e ht hguard hP => ?_
    have hK := (hiff t e ht hguard).mp hP
    exact ⟨hkeep t e ht hguard hK, hK⟩
  · refine h.forall_step hI fun t e ht hguard hK => ?_
    exact ⟨hkeep t e ht hguard hK, (hiff t e ht hguard).mpr hK⟩

/-- The invariant rule for reachable states. -/
theorem Reachable.invariant (h : M.Reachable s) (hinit : ∀ t, M.init t → I t)
    (hstep : ∀ t e, I t → M.guard t e → I (M.next t e)) : I s := by
  obtain ⟨s₀, es, h₀, hrun⟩ := h
  exact hrun.invariant hstep (hinit s₀ h₀)

/-- Induction over reachable states. -/
theorem Reachable.induction (h : M.Reachable s) (hinit : ∀ t, M.init t → I t)
    (hstep : ∀ t e, M.Reachable t → I t → M.guard t e → I (M.next t e)) : I s :=
  (h.invariant (I := fun t => M.Reachable t ∧ I t) (fun t ht => ⟨.of_init ht, hinit t ht⟩)
    fun t e ht hguard => ⟨ht.1.next hguard, hstep t e ht.1 ht.2 hguard⟩).2

/-- **The potential rule.** When every event lowers the potential, a run has
at most as many events as the potential drops. -/
theorem Run.length_add_le (μ : σ → ℕ) (h : M.Run s es s') (hI : I s)
    (hstep : ∀ t e, I t → M.guard t e → I (M.next t e) ∧ μ (M.next t e) < μ t) :
    es.length + μ s' ≤ μ s := by
  have hboth : I s' ∧ es.length + μ s' ≤ μ s := by
    induction h with
    | nil => exact ⟨hI, by simp⟩
    | snoc _ hguard ih =>
      obtain ⟨hI', hle⟩ := ih
      obtain ⟨hnext, hlt⟩ := hstep _ _ hI' hguard
      refine ⟨hnext, ?_⟩
      rw [length_append, length_singleton]
      omega
  exact hboth.2

/-- When every event lowers the potential, every state runs into one in which
no event may happen. -/
theorem exists_final (μ : σ → ℕ)
    (hstep : ∀ t e, I t → M.guard t e → I (M.next t e) ∧ μ (M.next t e) < μ t) (hI : I s) :
    ∃ es s', M.Run s es s' ∧ ∀ e, ¬ M.guard s' e := by
  induction hn : μ s using Nat.strongRecOn generalizing s with
  | ind n ih =>
    by_cases hdone : ∃ e, M.guard s e
    · obtain ⟨e, hguard⟩ := hdone
      obtain ⟨hnext, hlt⟩ := hstep s e hI hguard
      obtain ⟨es, s', hrun, hfinal⟩ := ih _ (hn ▸ hlt) hnext rfl
      exact ⟨[e] ++ es, s', (Run.single hguard).append hrun, hfinal⟩
    · exact ⟨[], s, Run.nil s, fun e hguard => hdone ⟨e, hguard⟩⟩

/-- **The simulation rule.** When each event of `M` is matched, through `f`,
by a run of `N`, a reachable state of `M` is one of `N`. -/
theorem Reachable.simulate {σ' ε' : Type} {N : System σ' ε'} (f : σ → σ') (h : M.Reachable s)
    (hinit : ∀ t, M.init t → N.init (f t))
    (hstep : ∀ t e, M.guard t e → ∃ es, N.Run (f t) es (f (M.next t e))) : N.Reachable (f s) := by
  refine h.invariant (I := fun t => N.Reachable (f t)) ?_ ?_
  · exact fun t ht => .of_init (hinit t ht)
  · intro t e hreach hguard
    obtain ⟨es, hrun⟩ := hstep t e hguard
    exact hreach.run hrun

end System

end ValProofs.Lib
