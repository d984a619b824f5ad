import Mathlib
import AuOs.Threads.Run

/-!
# What an event can change

* `SameBase` — two states with the same threads on the CPU and in memory.
* `Frame` — a relation between states that every elementary change of the code respects.  `C` is
  what has to be known of a state in which the current thread changes its own state.
* `Frame.schedule`, `Frame.resumeCall` and the other lemmas: the relation then holds between the
  state before and after every function of the code, where that function returns.
-/

set_option autoImplicit false

namespace AuOs

namespace Threads

variable {s s' s₁ : Threads} {t : Tid} {m : Mid} {c : Cid}

/-- Two states with the same threads on the CPU and in memory. -/
structure SameBase (s s' : Threads) : Prop where
  threads : s'.threads = s.threads
  current : s'.current = s.current
  allocated : s'.allocated = s.allocated
  fresh : s'.fresh = s.fresh
  idleThread : s'.idleThread = s.idleThread
  rsp0 : s'.rsp0 = s.rsp0
  bootstrapStackTop : s'.bootstrapStackTop = s.bootstrapStackTop
  switches : s'.switches = s.switches

/-- A function that returns a state related to the first one. -/
abbrev GoesTo (R : Threads → Threads → Prop) (s : Threads) (x : Res Threads) : Prop :=
  Post x (fun _ => True) (R s)

/-- A relation that every elementary change of the code respects. -/
structure Frame (R : Threads → Threads → Prop) (C : Threads → Prop) : Prop where
  refl : ∀ s, R s s
  trans : ∀ {s s₁ s' : Threads}, R s s₁ → R s₁ s' → R s s'
  update : ∀ {s s' : Threads}, SameBase s s' → R s s'
  modify : ∀ (s : Threads) (t : Tid) (f : Thread → Thread),
    (f (s.threads t)).state = (s.threads t).state →
    (f (s.threads t)).stackAddr = (s.threads t).stackAddr → R s (s.modify t f)
  activate : ∀ (s : Threads) (t : Tid), (s.threads t).state = .blocked →
    R s (s.modify t Thread.activate)
  own : ∀ (s : Threads) (f : Thread → Thread), C s → (f s.self).stackAddr = s.self.stackAddr →
    R s (s.modify s.current f)
  switch : ∀ (s : Threads) (next : Tid), s.allocated next = true → next ≠ s.current →
    GoesTo R s (placeThread { s with cpu := next } next)

namespace Frame

variable {R : Threads → Threads → Prop} {C : Threads → Prop} (h : Frame R C)

include h

theorem goesTo {x : Res Threads} (hs : R s s₁) (hx : GoesTo R s₁ x) : GoesTo R s x :=
  hx.mono fun _ h' => h.trans hs h'

/-! ## The scheduler -/

theorem enqueue : GoesTo R s (s.enqueue t) := by
  unfold Threads.enqueue
  split
  · trivial
  · exact h.update ⟨rfl, rfl, rfl, rfl, rfl, rfl, rfl, rfl⟩

theorem threadActivate : GoesTo R s (s.threadActivate t) := by
  refine Post.bind (P := fun _ => True) (by unfold touch; split <;> trivial) fun _ _ => ?_
  split
  case isTrue hb => exact h.goesTo (h.activate s t hb) h.enqueue
  case isFalse hb => exact h.modify s t _ rfl rfl

theorem switchIfNeeded {next : Option Tid} : GoesTo R s (s.switchIfNeeded next) := by
  unfold Threads.switchIfNeeded
  split
  · exact h.refl s
  case h_2 next =>
    split
    case isTrue => exact h.refl s
    case isFalse hne =>
      split
      · refine Post.bind (P := fun _ => s.allocated next = true) ?_ fun _ ha =>
          h.switch s next ha (Ne.symm hne)
        unfold touch
        split
        case isTrue ha => exact ha
        case isFalse => trivial
      · exact h.refl s

theorem schedulePick {force : Bool} : GoesTo R s (s.schedulePick force) := by
  have hpop : R s { s with runqueue := s.pickNext.2 } :=
    h.update ⟨rfl, rfl, rfl, rfl, rfl, rfl, rfl, rfl⟩
  unfold Threads.schedulePick
  split
  · exact h.refl s
  · exact h.goesTo hpop h.switchIfNeeded

theorem waitReturned : R s (s.waitReturned m) := by
  unfold Threads.waitReturned
  split
  · exact h.refl s
  · exact h.update ⟨rfl, rfl, rfl, rfl, rfl, rfl, rfl, rfl⟩

theorem afterSchedule : R s s.afterSchedule := by
  have hlock : ∀ m, R s (s.lockReturned m) := fun _ =>
    h.update ⟨rfl, rfl, rfl, rfl, rfl, rfl, rfl, rfl⟩
  unfold Threads.afterSchedule
  split
  · exact h.trans (hlock _) (h.modify _ _ (Thread.goto .user) rfl rfl)
  · exact h.modify _ _ (Thread.goto _) rfl rfl
  · exact h.trans (h.trans (hlock _) h.waitReturned) (h.modify _ _ (Thread.goto .user) rfl rfl)
  · exact h.modify _ _ (Thread.goto _) rfl rfl
  · exact h.refl s

theorem leaveScheduler : R s s.leaveScheduler := by
  have hints : ∀ b : Bool, R s { s with ints := b } := fun _ =>
    h.update ⟨rfl, rfl, rfl, rfl, rfl, rfl, rfl, rfl⟩
  unfold Threads.leaveScheduler
  split
  · exact h.trans (hints true) (h.modify _ _ (Thread.goto .user) rfl rfl)
  · exact h.trans (hints _) h.afterSchedule
  · exact hints true

theorem enterScheduler {how : Resume} : R s (s.enterScheduler how) := by
  have hints : R s { s with ints := false } := h.update ⟨rfl, rfl, rfl, rfl, rfl, rfl, rfl, rfl⟩
  exact h.trans hints (h.modify _ _ ({ · with resume := how }) rfl rfl)

theorem reschedule {force : Bool} : GoesTo R s (s.reschedule force) := by
  refine Post.bind h.schedulePick fun s₂ h₂ => h.trans (h.trans h₂ ?_) h.leaveScheduler
  unfold noteLapse
  split
  · exact h.update ⟨rfl, rfl, rfl, rfl, rfl, rfl, rfl, rfl⟩
  · exact h.refl s₂

theorem schedule {how : Resume} : GoesTo R s (s.schedule how) := by
  have henter : R s (s.enterScheduler how) := h.enterScheduler
  show GoesTo R s (if (s.enterScheduler how).preemptCnt ≠ 0 then _ else _)
  split
  · exact h.trans henter h.leaveScheduler
  · exact h.goesTo henter h.reschedule

theorem forceSchedule : GoesTo R s s.forceSchedule := by
  unfold Threads.forceSchedule
  refine Post.bind (P := fun _ => True) (by unfold bugOn; split <;> trivial) fun _ _ => ?_
  exact h.goesTo h.enterScheduler h.reschedule

/-! ## Mutexes and conditions -/

theorem mutexLock {sched : Pc} (hself : C s) : R s (s.mutexLock m sched) := by
  unfold Threads.mutexLock
  split
  · exact h.trans (h.own s (Thread.block sched) hself rfl)
      (h.update ⟨rfl, rfl, rfl, rfl, rfl, rfl, rfl, rfl⟩)
  · exact h.trans (h.modify s s.current (Thread.goto .user) rfl rfl)
      (h.update ⟨rfl, rfl, rfl, rfl, rfl, rfl, rfl, rfl⟩)

theorem mutexUnlock : GoesTo R s (s.mutexUnlock m) := by
  unfold Threads.mutexUnlock
  split
  case h_1 => exact h.update ⟨rfl, rfl, rfl, rfl, rfl, rfl, rfl, rfl⟩
  case h_2 next rest _ =>
    have hmutex : R s (s.modifyMutex m (Mutex.handOver s.current next rest)) :=
      h.update ⟨rfl, rfl, rfl, rfl, rfl, rfl, rfl, rfl⟩
    refine Post.bind (P := fun _ => True) ?_ fun _ _ => h.goesTo hmutex h.threadActivate
    unfold lockNode touch
    split <;> [split; skip] <;> trivial

theorem conditionWake : GoesTo R s (s.conditionWake c t) := by
  refine Post.bind (P := fun _ => True) ?_ fun _ _ =>
    h.goesTo (h.modify s t ({ · with signalled := true }) rfl rfl) h.threadActivate
  unfold waitNode touch
  split <;> [split; skip] <;> trivial

theorem conditionSignal : GoesTo R s (s.conditionSignal c) := by
  unfold Threads.conditionSignal
  split
  case h_1 => exact h.refl s
  case h_2 node rest _ =>
    have hcond : R s (s.setCond c rest) := h.update ⟨rfl, rfl, rfl, rfl, rfl, rfl, rfl, rfl⟩
    exact h.goesTo hcond h.conditionWake

theorem conditionWait (hself : C s) : GoesTo R s (s.conditionWait c m) := by
  have hcond : R s ((s.modify s.current (Thread.beginWait (.waitSched c m))).setCond c
      (s.conds c ++ [s.current])) :=
    h.trans (h.own s (Thread.beginWait (.waitSched c m)) hself rfl)
      (h.update ⟨rfl, rfl, rfl, rfl, rfl, rfl, rfl, rfl⟩)
  exact h.goesTo hcond h.mutexUnlock

/-! ## The next step of a call -/

theorem resumeCall (hself : (∃ c m, s.self.pc = .waitRelock c m) ∨ s.self.pc = .idleMark → C s) :
    GoesTo R s s.resumeCall := by
  unfold Threads.resumeCall
  split
  case h_5 c m hpc =>
    have hC := hself (Or.inl ⟨c, m, hpc⟩)
    split
    · exact h.mutexLock hC
    · exact h.trans (h.mutexLock hC) h.waitReturned
  case h_13 hpc => exact h.own s _ (hself (Or.inr hpc)) rfl
  · exact h.refl s
  · exact h.refl s
  · exact h.schedule
  · exact h.schedule
  · exact h.schedule
  · exact h.modify _ _ (Thread.goto _) rfl rfl
  · refine Post.bind (P := fun _ => True) ?_ fun _ _ => h.modify _ _ (Thread.goto _) rfl rfl
    unfold waitNode touch
    split <;> [split; skip] <;> trivial
  · exact Post.bind h.conditionWake fun _ hs =>
      h.trans hs (h.modify _ _ (Thread.nextNode _ _ _) rfl rfl)
  · exact h.forceSchedule
  · exact Post.bind (P := fun _ => True) (by unfold touch; split <;> trivial) fun _ _ =>
      h.modify _ _ (Thread.goto _) rfl rfl
  · exact h.forceSchedule
  · exact h.forceSchedule

end Frame

end Threads

end AuOs
