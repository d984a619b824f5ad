import Mathlib
import AuOs.Lib.Post

/-!
# Runs of calls

A component that serves calls: which calls its users may make in a state, and what a call does.  A
call that stops the machine gives no next state.

* `CallSystem` — the calls, their contract and their effect.
* `CallSystem.Run` — any number of legal calls, each of which returned.
* `CallSystem.restrict` — the runs that stay within a condition up to their last call.
* `CallSystem.Keeps` — the invariant rule: a legal call from a state of `I` leads to a state of `I`,
  or stops the machine in one of the ways `E` allows.
* `Keeps.run`, `Keeps.ends` — what the rule gives for whole runs; `Keeps.relates` is the same for a
  relation between the two ends of a run.
* `CallSystem.Refines` — the simulation rule: each legal call of one system ends like the same call
  of another; `Refines.run` is what it gives for whole runs.
* `CallSystem.trial` — a run that is executed, call by call, with a test that the calls are legal.
-/

set_option autoImplicit false

/-- Calls, the contract of their users and their effect. -/
structure CallSystem (State Call Err : Type) where
  legal : State → Call → Prop
  exec : State → Call → Except Err State

namespace CallSystem

variable {State Call Err : Type} {sys : CallSystem State Call Err} {E : Err → Prop}
  {I : State → Prop} {s s' : State}

/-- One legal call that returns. -/
def Step (sys : CallSystem State Call Err) (s s' : State) : Prop :=
  ∃ c, sys.legal s c ∧ sys.exec s c = .ok s'

/-- Any number of legal calls that return. -/
abbrev Run (sys : CallSystem State Call Err) : State → State → Prop :=
  Relation.ReflTransGen sys.Step

/-- The runs in which every call is made in a state of `C`. -/
def restrict (sys : CallSystem State Call Err) (C : State → Prop) : CallSystem State Call Err where
  legal s c := sys.legal s c ∧ C s
  exec := sys.exec

/-- Legal calls keep `I` and fail only as `E` allows. -/
def Keeps (sys : CallSystem State Call Err) (E : Err → Prop) (I : State → Prop) : Prop :=
  ∀ s c, I s → sys.legal s c → Post (sys.exec s c) E I

theorem Keeps.step (h : sys.Keeps E I) (hs : I s) (hstep : sys.Step s s') : I s' := by
  obtain ⟨c, hc, hexec⟩ := hstep
  exact (h s c hs hc).of_eq hexec

/-- **The invariant holds in every state of a run.** -/
theorem Keeps.run (h : sys.Keeps E I) (hs : I s) (hrun : sys.Run s s') : I s' := by
  induction hrun with
  | refl => exact hs
  | tail _ hstep ih => exact h.step ih hstep

/-- **How a call can end** at any point of a run. -/
theorem Keeps.ends (h : sys.Keeps E I) (hs : I s) (hrun : sys.Run s s') {c : Call}
    (hc : sys.legal s' c) : Post (sys.exec s' c) E I :=
  h s' c (h.run hs hrun) hc

/-- What each step keeps along with `I` holds between the ends of a run. -/
theorem Keeps.relates {R : State → State → Prop} (h : sys.Keeps E I) (hs : I s) (hrefl : ∀ s, R s s)
    (htrans : ∀ a b c, R a b → R b c → R a c) (hstep : ∀ a b, I a → sys.Step a b → R a b)
    (hrun : sys.Run s s') : R s s' := by
  induction hrun with
  | refl => exact hrefl s
  | tail hrun hlast ih => exact htrans _ _ _ ih (hstep _ _ (h.run hs hrun) hlast)

/-! ## Refinement -/

/-- Legal calls in related states are legal in both and end alike, in related states again. -/
structure Refines {Abs : Type} (sys : CallSystem State Call Err) (abs : CallSystem Abs Call Err)
    (R : State → Abs → Prop) : Prop where
  legal : ∀ s a c, R s a → sys.legal s c → abs.legal a c
  exec : ∀ s a c, R s a → sys.legal s c → Alike (sys.exec s c) (abs.exec a c) R

/-- **Every run is a run of the other system.** -/
theorem Refines.run {Abs : Type} {abs : CallSystem Abs Call Err} {R : State → Abs → Prop} {a : Abs}
    (h : sys.Refines abs R) (hs : R s a) (hrun : sys.Run s s') : ∃ a', abs.Run a a' ∧ R s' a' := by
  induction hrun with
  | refl => exact ⟨a, .refl, hs⟩
  | tail _ hstep ih =>
    obtain ⟨b, hrun, hb⟩ := ih
    obtain ⟨c, hc, hexec⟩ := hstep
    obtain ⟨b', hexec', hb'⟩ := (h.exec _ _ c hb hc).of_eq hexec
    exact ⟨b', hrun.tail ⟨c, h.legal _ _ c hb hc, hexec'⟩, hb'⟩

/-! ## Trials -/

/-- The calls are made one after the other, each after a test. -/
def trial (sys : CallSystem State Call Err) (test : State → Call → Bool) :
    List Call → State → Option State
  | [], s => some s
  | c :: calls, s =>
    if test s c then
      match sys.exec s c with
      | .ok s' => trial sys test calls s'
      | .error _ => none
    else none

/-- **A trial is a run**, if the test lets only legal calls pass. -/
theorem run_of_trial {test : State → Call → Bool} (htest : ∀ s c, test s c = true → sys.legal s c)
    {calls : List Call} (h : sys.trial test calls s = some s') : sys.Run s s' := by
  induction calls generalizing s with
  | nil =>
    obtain rfl := Option.some.inj h
    exact .refl
  | cons c calls ih =>
    unfold trial at h
    cases hc : test s c with
    | false =>
      rw [hc] at h
      cases h
    | true =>
      rw [hc, if_pos rfl] at h
      cases hexec : sys.exec s c with
      | error e =>
        rw [hexec] at h
        cases h
      | ok mid =>
        rw [hexec] at h
        exact .head ⟨c, htest s c hc, hexec⟩ (ih h)

/-- The end of a run, as far as it can be computed. -/
theorem exists_run {test : State → Call → Bool} (htest : ∀ s c, test s c = true → sys.legal s c)
    {calls : List Call} {P : State → Prop} [DecidablePred P]
    (h : (sys.trial test calls s).any (fun s' => decide (P s')) = true) :
    ∃ s', sys.Run s s' ∧ P s' := by
  obtain ⟨s', hs', hP⟩ := (Option.any_eq_true _ _).mp h
  exact ⟨s', run_of_trial htest hs', of_decide_eq_true hP⟩

end CallSystem
