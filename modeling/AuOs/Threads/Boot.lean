import Mathlib
import AuOs.Threads.Later

/-!
# Runs from boot

* `blocked_thread_runs`, `no_lapse_when_someone_to_run` — before `idle` has registered a thread to
  fall back on, `schedule` returns to a blocked thread when nobody else can run, and only then.
* `StackStep`, `stack_frame` — what an event does to the stacks and to `tss.rsp[0]`.
* `rsp0_of_other_thread` — after a switch `tss.rsp[0]` is the stack of the thread that was left.
-/

set_option autoImplicit false

namespace AuOs

namespace Threads

variable {s s' : Threads} {t : Tid}

/-! ## Blocked threads -/

/-- Runs in which a blocked thread always finds somebody to switch to. -/
theorem restricted_keeps : (events.restrict SomeoneToRun).Keeps OutOfMemory Running :=
  fun _ _ h hl => events_step h hl.2 hl.1

/-- **A blocked thread does not run** as long as there is always somebody else who can. -/
theorem no_lapse_when_someone_to_run {bootstrapStackTop : Nat} {jiffies time : UInt64}
    (hrun : (events.restrict SomeoneToRun).Run (boot bootstrapStackTop jiffies time) s) :
    s.lapses = [] ∧ (∀ m t, t ∈ (s.mutexes m).holders → (s.mutexes m).owner = some t) ∧
      (∀ t c m, (s.threads t).pc = .waitRelock c m ∨ (s.threads t).pc = .waitLockSched c m →
        (s.threads t).signalled = true) ∧
      s.spurious = [] := by
  have h := restricted_keeps.run (boot_running bootstrapStackTop jiffies time) hrun
  refine ⟨h.lapses, fun m t ht => ((h.locks.mutex m).holder ht).1, fun t c m hpc => ?_, h.spurious⟩
  have hok := (h.thread t).state
  rcases hpc with hpc | hpc <;> rw [StateOk, hpc] at hok
  · exact hok.2
  · exact hok.2

/-- The boot thread takes a mutex and makes a thread, which waits for it. -/
theorem boot_one_waiter : ∃ s, (events.restrict SomeoneToRun).Run (boot 0x108000 0 0) s ∧
    s.current = kthread ∧ (s.threads 1).state = .blocked ∧ (s.mutexes 0).waitqueue = [1] := by
  have h₁ : (events.restrict SomeoneToRun).Step (boot 0x108000 0 0) _ :=
    ⟨.lock 0, ⟨⟨rfl, rfl⟩, nofun⟩, rfl⟩
  have h₂ := (Relation.ReflTransGen.single h₁).tail
    ⟨.create (some 0x200000) true 0, ⟨⟨rfl, fun a ha => by
      cases ha
      intro t ht
      obtain rfl : t = kthread := of_decide_eq_true ht
      decide⟩, nofun⟩, rfl⟩
  have h₃ := h₂.tail ⟨.activate 1, ⟨⟨rfl, rfl, fun _ => rfl⟩, nofun⟩, rfl⟩
  have h₄ := h₃.tail ⟨.forceSchedule, ⟨⟨rfl, rfl⟩, nofun⟩, rfl⟩
  have h₅ := h₄.tail ⟨.lock 0, ⟨⟨rfl, rfl⟩, nofun⟩, rfl⟩
  have h₆ := h₅.tail ⟨.resume, ⟨nofun, fun _ => Or.inr nofun⟩, rfl⟩
  exact ⟨_, h₆, rfl, rfl, rfl⟩

theorem no_lapse_one_waiter : ∃ s, (events.restrict SomeoneToRun).Run (boot 0x108000 0 0) s ∧
    (s.threads 1).state = .blocked ∧ s.lapses = [] :=
  let ⟨s, hrun, _, hb, _⟩ := boot_one_waiter
  ⟨s, hrun, hb, (no_lapse_when_someone_to_run hrun).1⟩

/-- Before `idle`, a blocked thread runs on when nobody else can. -/
theorem blocked_thread_runs : ∃ s, events.Run (boot 0x108000 0 0) s ∧
    s.self.state = .blocked ∧ s.self.pc = .user ∧ s.lapses ≠ [] ∧ s.spurious ≠ [] := by
  have h₁ : events.Step (boot 0x108000 0 0) _ := ⟨.lock 0, ⟨rfl, rfl⟩, rfl⟩
  have h₂ := (Relation.ReflTransGen.single h₁).tail ⟨.wait 0 0, ⟨⟨rfl, rfl⟩, by decide⟩, rfl⟩
  have h₃ := h₂.tail ⟨.resume, nofun, rfl⟩
  have h₄ := h₃.tail ⟨.resume, nofun, rfl⟩
  exact ⟨_, h₄, rfl, rfl, nofun, nofun⟩

/-! ## Stacks -/

/-- Every allocated thread has a stack of its own, and the current thread is allocated. -/
structure Stacks (s : Threads) : Prop where
  current : s.allocated s.current = true
  booted : kthread < s.fresh
  fresh : ∀ t, s.allocated t = true → t < s.fresh
  distinct : ∀ t u, s.allocated t = true → s.allocated u = true →
    s.threadStackEnd t = s.threadStackEnd u → t = u

/-- The stacks stay as they are; if the CPU went to another thread, then `tss.rsp[0]` points to the
stack of a thread that was left. -/
structure StackStep (s s' : Threads) : Prop where
  allocated : s'.allocated = s.allocated
  fresh : s'.fresh = s.fresh
  ends : ∀ t, s'.threadStackEnd t = s.threadStackEnd t
  rsp0 : s'.current = s.current ∧ s'.rsp0 = s.rsp0 ∧ s'.switches = s.switches ∨
    s'.switches ≠ 0 ∧ s.allocated s'.current = true ∧ (s.allocated s.current = true →
      ∃ p, s.allocated p = true ∧ p ≠ s'.current ∧ s'.rsp0 = s'.threadStackEnd p)

theorem StackStep.refl (s : Threads) : StackStep s s :=
  ⟨rfl, rfl, fun _ => rfl, Or.inl ⟨rfl, rfl, rfl⟩⟩

theorem StackStep.trans {s₁ : Threads} (h : StackStep s s₁) (h' : StackStep s₁ s') :
    StackStep s s' where
  allocated := h'.allocated.trans h.allocated
  fresh := h'.fresh.trans h.fresh
  ends := fun t => (h'.ends t).trans (h.ends t)
  rsp0 := by
    rcases h'.rsp0 with ⟨hc, hr, hs⟩ | ⟨hs, ha, hp⟩
    · rw [hc, hr, hs]
      refine h.rsp0.imp_right fun ⟨h₁, h₂, h₃⟩ => ⟨h₁, h₂, fun hcur => ?_⟩
      obtain ⟨p, hp, hne, heq⟩ := h₃ hcur
      exact ⟨p, hp, hne, heq.trans (h'.ends p).symm⟩
    · rw [h.allocated] at ha hp
      refine Or.inr ⟨hs, ha, fun hcur => hp ?_⟩
      rcases h.rsp0 with ⟨hc, _⟩ | ⟨_, ha₁, _⟩
      · rw [hc]
        exact hcur
      · exact ha₁

theorem stackStep_modify {f : Thread → Thread}
    (hf : (f (s.threads t)).stackAddr = (s.threads t).stackAddr) : StackStep s (s.modify t f) where
  allocated := rfl
  fresh := rfl
  ends := fun u => by
    unfold threadStackEnd
    rw [bootstrapStackTop_modify, forall_modify
      (P := fun u th => th.stackAddr = (s.threads u).stackAddr) hf (fun _ _ => rfl) u]
  rsp0 := Or.inl ⟨rfl, rfl, rfl⟩

theorem SameBase.stackStep (h : SameBase s s') : StackStep s s' where
  allocated := h.allocated
  fresh := h.fresh
  ends := fun t => by rw [threadStackEnd, threadStackEnd, h.threads, h.bootstrapStackTop]
  rsp0 := Or.inl ⟨h.current, h.rsp0, h.switches⟩

/-- The stacks and `tss.rsp[0]` inside `place_thread`, when the thread `prev` is being left. -/
structure Leaving (s s' : Threads) : Prop where
  allocated : s'.allocated = s.allocated
  fresh : s'.fresh = s.fresh
  ends : ∀ t, s'.threadStackEnd t = s.threadStackEnd t
  rsp0 : s'.rsp0 = s.threadStackEnd s.current
  switches : s'.switches ≠ 0

theorem leaving_setRsp0 : Leaving s s.finishPrev.setRsp0 := by
  have hfinish : StackStep s s.finishPrev ∧ s.finishPrev.current = s.current := by
    unfold finishPrev
    split
    · have h := stackStep_modify (s := s) (t := s.current)
        (f := ({ · with state := .finished })) rfl
      exact ⟨⟨h.allocated, h.fresh, h.ends, h.rsp0⟩, rfl⟩
    · exact ⟨StackStep.refl s, rfl⟩
  obtain ⟨h, hcur⟩ := hfinish
  refine ⟨h.allocated, h.fresh, h.ends, ?_, Nat.succ_ne_zero _⟩
  show s.finishPrev.threadStackEnd s.finishPrev.current = _
  rw [hcur, h.ends]

/-- **`place_thread`** points `tss.rsp[0]` to the stack of the thread that has left the CPU. -/
theorem stackStep_placeThread {next : Tid} (ha : s.allocated next = true) (hne : next ≠ s.current) :
    GoesTo StackStep s (placeThread { s with cpu := next } next) := by
  have hpre := leaving_setRsp0 (s := { s with cpu := next })
  refine Post.bind (P := Leaving { s with cpu := next }) ?_ fun s₂ h₂ => ?_
  · split
    · unfold Threads.enqueue
      split
      · trivial
      · exact ⟨hpre.allocated, hpre.fresh, hpre.ends, hpre.rsp0, hpre.switches⟩
    · exact hpre
  · have h₃ := stackStep_modify (s := { s₂ with current := next }) (t := next)
      (f := ({ · with time := s₂.jiffies })) rfl
    have hends : ∀ t, (({ s₂ with current := next } : Threads).modify next
        ({ · with time := s₂.jiffies })).threadStackEnd t = s.threadStackEnd t :=
      fun t => (h₃.ends t).trans (h₂.ends t)
    refine ⟨h₂.allocated, h₂.fresh, hends, Or.inr ⟨h₂.switches, ha, fun hcur => ?_⟩⟩
    exact ⟨s.current, hcur, Ne.symm hne, h₂.rsp0.trans (hends s.current).symm⟩

/-- Nothing need be known of the current thread. -/
theorem stack_frame : Frame StackStep fun _ => True where
  refl := StackStep.refl
  trans := StackStep.trans
  update := SameBase.stackStep
  modify := fun _ _ _ _ hf => stackStep_modify hf
  activate := fun _ _ _ => stackStep_modify rfl
  own := fun _ _ _ hf => stackStep_modify hf
  switch := fun _ _ => stackStep_placeThread

/-- What holds of the stacks in every run. -/
structure StackInv (s : Threads) : Prop extends Stacks s where
  rsp0 : s.switches = 0 ∧ s.rsp0 = s.threadStackEnd s.current ∨ s.switches ≠ 0 ∧
    s.rsp0 ≠ s.threadStackEnd s.current

theorem StackInv.step (h : StackInv s) (hs : StackStep s s') : StackInv s' := by
  have hcur : s'.allocated s'.current = true := by
    rw [hs.allocated]
    rcases hs.rsp0 with ⟨hc, _⟩ | ⟨_, ha, _⟩
    · rw [hc]
      exact h.current
    · exact ha
  have hdistinct : ∀ t u, s'.allocated t = true → s'.allocated u = true →
      s'.threadStackEnd t = s'.threadStackEnd u → t = u := by
    intro t u ht hu he
    rw [hs.allocated] at ht hu
    rw [hs.ends, hs.ends] at he
    exact h.distinct t u ht hu he
  refine ⟨⟨hcur, hs.fresh ▸ h.booted, fun t ht => ?_, hdistinct⟩, ?_⟩
  · rw [hs.allocated] at ht
    rw [hs.fresh]
    exact h.fresh t ht
  · rcases hs.rsp0 with ⟨hc, hr, hsw⟩ | ⟨hsw, _, hp⟩
    · rw [hc, hr, hsw, hs.ends]
      exact h.rsp0
    · obtain ⟨p, hp, hne, heq⟩ := hp h.current
      rw [← hs.allocated] at hp
      exact Or.inr ⟨hsw, fun he => hne (hdistinct p _ hp hcur (heq.symm.trans he))⟩

/-- **A new thread** has a stack that is nobody else's. -/
theorem StackInv.create (h : StackInv s) {stackAddr : Nat} (hfree : s.StackFree stackAddr)
    {thread : Bool} {time : UInt64} :
    Post (s.threadCreate (some stackAddr) thread time) (fun _ => True) StackInv := by
  refine Post.bind (P := fun _ => True) (by unfold bugOn; split <;> trivial) fun _ _ => ?_
  let new : Thread := { s.threads s.fresh with
    state := .blocked, time := time, stackAddr := stackAddr, pc := .entry, resume := .entry,
    unactivated := false }
  let s' : Threads := { s with
    threads := Function.update s.threads s.fresh new
    allocated := Function.update s.allocated s.fresh true
    fresh := s.fresh + 1 }
  have hnew : s'.threadStackEnd s.fresh = stackAddr + threadStackSize := by
    simp [s', new, threadStackEnd, h.booted.ne']
  have hold : ∀ t, t ≠ s.fresh → s'.allocated t = s.allocated t ∧
      s'.threadStackEnd t = s.threadStackEnd t := fun t ht => by
    simp [s', threadStackEnd, ht]
  have hcur : s.current ≠ s.fresh := (h.fresh _ h.current).ne
  show StackInv s'
  refine ⟨⟨(hold _ hcur).1.trans h.current, h.booted.trans (Nat.lt_succ_self _), fun t ht => ?_,
    fun t u ht hu he => ?_⟩, ?_⟩
  · by_cases htf : t = s.fresh
    · exact htf ▸ Nat.lt_succ_self _
    · exact (h.fresh t ((hold t htf).1.symm.trans ht)).trans (Nat.lt_succ_self _)
  · by_cases htf : t = s.fresh <;> by_cases huf : u = s.fresh
    · rw [htf, huf]
    · rw [htf, hnew, (hold u huf).2] at he
      exact absurd he.symm (hfree u ((hold u huf).1.symm.trans hu))
    · rw [huf, hnew, (hold t htf).2] at he
      exact absurd he (hfree t ((hold t htf).1.symm.trans ht))
    · rw [(hold t htf).2, (hold u huf).2] at he
      exact h.distinct t u ((hold t htf).1.symm.trans ht) ((hold u huf).1.symm.trans hu) he
  · have := h.rsp0
    rwa [← (hold _ hcur).2] at this

/-- A thread other than the current one is freed. -/
theorem StackInv.destroy (h : StackInv s) (hne : t ≠ s.current) :
    StackInv { s with allocated := Function.update s.allocated t false } := by
  have hle : ∀ u, Function.update s.allocated t false u = true →
      s.allocated u = true := fun u hu => by
    by_cases hut : u = t
    · simp [hut] at hu
    · simpa [hut] using hu
  refine ⟨⟨?_, h.booted, fun u hu => h.fresh u (hle u hu), fun u v hu hv =>
    h.distinct u v (hle u hu) (hle v hv)⟩, h.rsp0⟩
  show Function.update s.allocated t false s.current = true
  rw [Function.update_of_ne hne.symm]
  exact h.current

/-- **The stacks in every event.** -/
theorem stackInv_keeps : events.Keeps (fun _ => True) StackInv := fun s e h hl => by
  have hstep : GoesTo StackStep s (events.exec s e) →
      Post (events.exec s e) (fun _ => True) StackInv :=
    fun hg => hg.mono fun _ hs => h.step hs
  have hsame : ∀ s' : Threads, SameBase s s' → StackStep s s' := fun _ hb => hb.stackStep
  cases e with
  | tick =>
    refine hstep (stack_frame.goesTo (hsame { s with jiffies := s.jiffies + 1 } ?_)
      stack_frame.schedule)
    exact ⟨rfl, rfl, rfl, rfl, rfl, rfl, rfl, rfl⟩
  | resume => exact hstep (stack_frame.resumeCall fun _ => trivial)
  | setInts on => exact hstep (hsame _ ⟨rfl, rfl, rfl, rfl, rfl, rfl, rfl, rfl⟩)
  | disablePreempt => exact hstep (hsame _ ⟨rfl, rfl, rfl, rfl, rfl, rfl, rfl, rfl⟩)
  | enablePreempt => exact hstep (hsame _ ⟨rfl, rfl, rfl, rfl, rfl, rfl, rfl, rfl⟩)
  | lock m => exact hstep (stack_frame.mutexLock trivial)
  | unlock m => exact hstep stack_frame.mutexUnlock
  | wait c m => exact hstep (stack_frame.conditionWait trivial)
  | signal c => exact hstep stack_frame.conditionSignal
  | broadcast c =>
    refine hstep ((stackStep_modify (f := Thread.beginBroadcast c _ _) rfl).trans
      (SameBase.stackStep ⟨rfl, rfl, rfl, rfl, rfl, rfl, rfl, rfl⟩))
  | schedule => exact hstep stack_frame.schedule
  | forceSchedule => exact hstep stack_frame.forceSchedule
  | create stack thread time =>
    cases stack with
    | none => trivial
    | some stackAddr => exact h.create (hl.2 stackAddr rfl)
  | activate t => exact hstep stack_frame.threadActivate
  | join t => exact hstep (stackStep_modify (f := Thread.goto _) rfl)
  | destroy t =>
    exact Post.bind (P := fun _ => True) (by unfold touch; split <;> trivial) fun _ _ =>
      h.destroy hl.2.2.2.1
  | exit =>
    exact hstep (stackStep_modify (f := ({ · with state := .finishing, pc := .exiting })) rfl)
  | idle =>
    refine hstep (Post.bind (P := fun _ => True) (by unfold bugOn; split <;> trivial) fun _ _ => ?_)
    have hmodify := stackStep_modify (s := { s with idleThread := some s.current }) (t := s.current)
      (f := Thread.goto .idleMark) rfl
    exact ⟨hmodify.allocated, hmodify.fresh, hmodify.ends, hmodify.rsp0⟩

theorem boot_stackInv (bootstrapStackTop : Nat) (jiffies time : UInt64) :
    StackInv (boot bootstrapStackTop jiffies time) := by
  have hk : ∀ t, (boot bootstrapStackTop jiffies time).allocated t = true →
      t = kthread := fun t ht => by
    simpa [boot] using ht
  refine ⟨⟨rfl, Nat.lt_succ_self _, fun t ht => ?_,
    fun t u ht hu _ => (hk t ht).trans (hk u hu).symm⟩, Or.inl ⟨rfl, rfl⟩⟩
  rw [hk t ht]
  exact Nat.lt_succ_self _

/-- **`tss.rsp[0]` is the stack of the running thread only until the first switch.** -/
theorem rsp0_of_other_thread {bootstrapStackTop : Nat} {jiffies time : UInt64}
    (hrun : events.Run (boot bootstrapStackTop jiffies time) s) :
    s.rsp0 = s.threadStackEnd s.current ↔ s.switches = 0 := by
  rcases (stackInv_keeps.run (boot_stackInv _ _ _) hrun).rsp0 with ⟨hs, hr⟩ | ⟨hs, hr⟩
  · exact iff_of_true hr hs
  · exact iff_of_false hr hs

/-- A thread is created from boot on. -/
theorem boot_create : ∃ s, events.Run (boot 0x108000 0 0) s ∧
    (boot 0x108000 0 0).threadCreate (some 0x200000) true 0 = .ok s := by
  have hstep : events.Step (boot 0x108000 0 0) _ :=
    ⟨.create (some 0x200000) true 0, ⟨rfl, fun a ha => by
      cases ha
      intro t ht
      obtain rfl : t = kthread := of_decide_eq_true ht
      decide⟩, rfl⟩
  exact ⟨_, .single hstep, rfl⟩

theorem boot_run {calls : List Event} {P : Threads → Prop} [DecidablePred P]
    (h : (((boot 0x108000 0 0).threadCreate (some 0x200000) true 0).toOption.any fun s =>
      (events.trial allows calls s).any fun s => decide (P s)) = true) :
    ∃ s, events.Run (boot 0x108000 0 0) s ∧ P s := by
  obtain ⟨s, hcreate, hs⟩ := boot_create
  rw [hs] at h
  obtain ⟨s', hrun, hP⟩ := CallSystem.exists_run allows_legal h
  exact ⟨s', hcreate.trans hrun, hP⟩

/-- As long as the new thread only waits in the runqueue. -/
theorem rsp0_before_switch : ∃ s, events.Run (boot 0x108000 0 0) s ∧
    (s.runqueue = [1] ∧ (s.mutexes 0).holders = [s.current] ∧ s.switches = 0) ∧
    s.rsp0 = s.threadStackEnd s.current := by
  obtain ⟨s, hrun, hs⟩ := @boot_run [.activate 1, .lock 0]
    (fun s => s.runqueue = [1] ∧ (s.mutexes 0).holders = [s.current] ∧ s.switches = 0) _
    (by decide +kernel)
  exact ⟨s, hrun, hs, (rsp0_of_other_thread hrun).mpr hs.2.2⟩

/-- The first switch of a run. -/
theorem rsp0_after_switch : ∃ s, events.Run (boot 0x108000 0 0) s ∧ s.switches = 1 ∧ s.current = 1 ∧
    s.rsp0 ≠ s.threadStackEnd s.current := by
  exact @boot_run [.activate 1, .forceSchedule]
    (fun s => s.switches = 1 ∧ s.current = 1 ∧ s.rsp0 ≠ s.threadStackEnd s.current) _
      (by decide +kernel)

end Threads

end AuOs
