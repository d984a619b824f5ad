import Mathlib
import AuOs.Threads.Frame

/-!
# What never changes back

* `Later` — the idle thread stays registered, and a thread that is idle or finished stays so.
* `later_frame`, `later_step` — every event leads to a later state.
* `Registered`, `registered_keeps` — runs in which `idle` has been called: there is always somebody
  to run, so the invariant needs no condition.
-/

set_option autoImplicit false

namespace AuOs

namespace Threads

variable {s s' : Threads}

/-- A state that may come after another. -/
structure Later (s s' : Threads) : Prop where
  idle : s.idleThread ≠ none → s'.idleThread = s.idleThread
  fresh : s.fresh ≤ s'.fresh
  settled : ∀ t, t < s.fresh → (s.threads t).state.Settled →
    (s'.threads t).state = (s.threads t).state

theorem Later.refl (s : Threads) : Later s s := ⟨fun _ => rfl, Nat.le_refl _, fun _ _ _ => rfl⟩

theorem Later.trans {s₁ : Threads} (h : Later s s₁) (h' : Later s₁ s') : Later s s' where
  idle := fun hi => by
    have h₁ := h.idle hi
    rw [← h₁]
    exact h'.idle (h₁.symm ▸ hi)
  fresh := h.fresh.trans h'.fresh
  settled := fun t ht hst => by
    have h₁ := h.settled t ht hst
    exact (h'.settled t (ht.trans_le h.fresh) (h₁.symm ▸ hst)).trans h₁

/-- A state with the same threads comes later. -/
theorem Later.congr (hthreads : s'.threads = s.threads) (hidle : s'.idleThread = s.idleThread)
    (hfresh : s'.fresh = s.fresh) : Later s s' :=
  ⟨fun _ => hidle, hfresh.ge, fun t _ _ => by rw [hthreads]⟩

theorem later_modify {t : Tid} {f : Thread → Thread}
    (hf : (s.threads t).state.Settled → (f (s.threads t)).state = (s.threads t).state) :
    Later s (s.modify t f) :=
  ⟨fun _ => rfl, Nat.le_refl _, fun u _ hu => forall_modify
    (P := fun u th => (s.threads u).state.Settled → th.state = (s.threads u).state) hf
    (fun _ _ _ => rfl) u hu⟩

theorem later_placeThread {next : Tid} : GoesTo Later s (s.placeThread next) := by
  have hfinish : Later s s.finishPrev := by
    unfold finishPrev
    split
    case isTrue hf =>
      refine (later_modify (t := s.current) (f := ({ · with state := .finished }))
        fun hst => ?_).trans (Later.congr rfl rfl rfl)
      rw [← self, hf] at hst
      exact absurd hst (by simp [ThreadState.Settled])
    case isFalse => exact Later.refl s
  have hpre : Later s s.finishPrev.setRsp0 := hfinish.trans (Later.congr rfl rfl rfl)
  refine Post.bind (P := Later s) ?_ fun s₂ h₂ => ?_
  · split
    · unfold Threads.enqueue
      split
      · trivial
      · exact hpre.trans (Later.congr rfl rfl rfl)
    · exact hpre
  · exact (h₂.trans (@Later.congr s₂ { s₂ with current := next } rfl rfl rfl)).trans
      (later_modify fun _ => rfl)

/-- A thread changes its own state only while it is active. -/
theorem later_frame : Frame Later fun s => s.self.state = .active where
  refl := Later.refl
  trans := Later.trans
  update := fun h => Later.congr h.threads h.idleThread h.fresh
  modify := fun _ _ _ hf _ => later_modify fun _ => hf
  activate := fun _ _ hb => later_modify fun hst => by
    rw [hb] at hst
    exact absurd hst (by simp [ThreadState.Settled])
  own := fun s f hself _ => later_modify fun hst => by
    rw [← self, hself] at hst
    exact absurd hst (by simp [ThreadState.Settled])
  switch := fun s next _ _ => (later_placeThread (s := { s with cpu := next })).mono fun _ h =>
    ⟨h.idle, h.fresh, h.settled⟩

/-- **Every event leads to a later state.** -/
theorem later_step (h : Running s) {e : Event} (hl : events.legal s e) :
    GoesTo Later s (events.exec s e) := by
  have hactive : s.AtUser → s.self.state = .active := fun hu => (h.toInv.plain hu).active
  have hsame : ∀ s' : Threads, s'.threads = s.threads → s'.idleThread = s.idleThread →
      s'.fresh = s.fresh → Later s s' := fun _ => Later.congr
  cases e with
  | tick =>
    exact later_frame.goesTo (hsame { s with jiffies := s.jiffies + 1 } rfl rfl rfl)
      later_frame.schedule
  | resume =>
    refine later_frame.resumeCall fun hpc => ?_
    have hok := h.toInv.stateOk
    rcases hpc with ⟨c, m, hpc⟩ | hpc <;> rw [StateOk, hpc] at hok
    · exact hok.1
    · exact hok
  | setInts on => exact hsame _ rfl rfl rfl
  | disablePreempt => exact hsame _ rfl rfl rfl
  | enablePreempt => exact hsame _ rfl rfl rfl
  | lock m => exact later_frame.mutexLock (hactive hl.1)
  | unlock m => exact later_frame.mutexUnlock
  | wait c m => exact later_frame.conditionWait (hactive hl.1.1)
  | signal c => exact later_frame.conditionSignal
  | broadcast c =>
    exact (later_modify (f := Thread.beginBroadcast c _ _) fun _ => rfl).trans
      (Later.congr rfl rfl rfl)
  | schedule => exact later_frame.schedule
  | forceSchedule => exact later_frame.forceSchedule
  | create stack thread time =>
    cases stack with
    | none => trivial
    | some stackAddr =>
      refine Post.bind (P := fun _ => True) (by unfold bugOn; split <;> trivial) fun _ _ => ?_
      refine ⟨fun _ => rfl, Nat.le_succ _, fun t ht _ => ?_⟩
      show (Function.update s.threads s.fresh _ t).state = _
      rw [Function.update_of_ne ht.ne]
  | activate t => exact later_frame.threadActivate
  | join t => exact later_modify (f := Thread.goto _) fun _ => rfl
  | destroy t =>
    exact Post.bind (P := fun _ => True) (by unfold touch; split <;> trivial) fun _ _ =>
      hsame _ rfl rfl rfl
  | exit =>
    refine later_modify fun hst => ?_
    rw [← self, hactive hl.1] at hst
    exact absurd hst (by simp [ThreadState.Settled])
  | idle =>
    refine Post.bind (P := fun _ => s.idleThread = none) ?_ fun _ hnone => ?_
    · unfold bugOn
      split
      case isTrue => trivial
      case isFalse hi => exact not_not.mp hi
    · exact ⟨fun hi => absurd hnone hi, Nat.le_refl _, (later_modify
        (s := { s with idleThread := some s.current }) (f := Thread.goto .idleMark)
          fun _ => rfl).settled⟩

/-! ## Runs in which the idle thread is registered -/

/-- The invariant once `idle` has been called. -/
structure Registered (s : Threads) : Prop extends Running s where
  registered : ∃ i, s.idleThread = some i ∧ (s.threads i).state = .idle

theorem Registered.someoneToRun (h : Registered s) : SomeoneToRun s := fun _ => by
  obtain ⟨i, hi, _⟩ := h.registered
  exact Or.inl (by rw [hi]; exact Option.some_ne_none i)

/-- The thread that is registered has written its state. -/
theorem Registered.no_idleMark (h : Registered s) (t : Tid) : (s.threads t).pc ≠ .idleMark := by
  intro hpc
  obtain ⟨i, hi, hst⟩ := h.registered
  have hit : i = t := Option.some.inj (hi.symm.trans ((h.idle t).mpr (Or.inl hpc)))
  have hok := (h.thread t).state
  rw [StateOk, hpc, ← hit, hst] at hok
  cases hok

theorem Registered.later (h : Registered s) (h' : Running s') (hl : Later s s') :
    Registered s' := by
  refine ⟨h', ?_⟩
  obtain ⟨i, hi, hst⟩ := h.registered
  have hlt : i < s.fresh := h.fresh i (h.toMachineOk.allocated_of_pc
    ((h.thread i).pc_ne_exiting (Or.inr hst)))
  exact ⟨i, (hl.idle (by rw [hi]; exact Option.some_ne_none i)).trans hi,
    (hl.settled i hlt (Or.inl hst)).trans hst⟩

/-- **The invariant rule** for runs with an idle thread. -/
theorem registered_keeps : events.Keeps OutOfMemory Registered := fun s e h hl => by
  have hstep := events_step h.toRunning h.someoneToRun hl
  have hlater := later_step h.toRunning hl
  cases hexec : events.exec s e with
  | error e =>
    rw [hexec] at hstep
    exact hstep
  | ok s' =>
    rw [hexec] at hstep hlater
    exact h.later hstep hlater

/-- A later state of a run is a later state. -/
theorem later_run (h : Registered s) (hrun : events.Run s s') : Later s s' :=
  registered_keeps.relates h Later.refl (fun _ _ _ => Later.trans)
    (fun a b ha ⟨_, hl, hexec⟩ => by
      have hlater := later_step ha.toRunning hl
      rw [hexec] at hlater
      exact hlater) hrun

end Threads

end AuOs
