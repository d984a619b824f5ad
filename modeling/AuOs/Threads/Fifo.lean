import Mathlib
import AuOs.Lib.Turns
import AuOs.Threads.Safety

/-!
# The order in which threads run

The runqueue is a queue that is served in turn: a thread that is ready runs after exactly the
threads that are ahead of it, and no thread keeps the CPU for longer than its slice while another
one is ready.

* `Stays` — a step that gives the CPU to nobody.
* `Passes` — a step that gives it to the first of the runqueue, if to anyone, with a whole slice
  ahead.
* `schedulePick_passes` — `__schedule` is such a step; `event_passes` — **every event** is, but for
  the clock.
* `runs_in_turn` — **in every run** the thread at place `k` of the runqueue gets the CPU with the
  switch `k + 1` from now.
* `tick_hands` — **a tick takes the CPU away** from a thread that has used its slice, if another one
  is ready.
* `runs_soon` — **nobody starves**: the thread at place `k` gets the CPU within `k + 1` slices.
-/

set_option autoImplicit false

namespace AuOs

namespace Threads

/-- The runqueue; a turn is a switch. -/
def turns : Queue Threads Tid := ⟨Threads.runqueue, Threads.switches, Threads.current⟩

/-- How long the current thread has had the CPU, as `__schedule` computes it. -/
def elapsed (s : Threads) : UInt64 := s.jiffies - s.self.time

/-- A step that gives the CPU to nobody. -/
structure Stays (s s' : Threads) : Prop where
  queue : ∃ new, s'.runqueue = s.runqueue ++ new
  switches : s'.switches = s.switches
  current : s'.current = s.current
  elapsed : s'.elapsed = s.elapsed

/-- A step of the queue that keeps the time of the current thread, or starts it anew. -/
structure Passes (s s' : Threads) : Prop where
  turn : turns.Turn s s'
  keeps : s'.switches = s.switches → s'.elapsed = s.elapsed
  starts : s.switches < s'.switches → s'.elapsed = 0

variable {s s' s₁ : Threads} {t : Tid} {m : Mid} {c : Cid}

theorem elapsed_modify (t : Tid) {f : Thread → Thread} (hf : ∀ th, (f th).time = th.time) :
    (s.modify t f).elapsed = s.elapsed := by
  have htime : ((s.modify t f).threads s.current).time = (s.threads s.current).time := by
    by_cases h : s.current = t
    · rw [h]
      exact (congrArg Thread.time (Function.update_self t _ s.threads)).trans (hf _)
    · exact congrArg Thread.time (Function.update_of_ne h _ s.threads)
  exact congrArg (s.jiffies - ·) htime

theorem Stays.same (hqueue : s'.runqueue = s.runqueue) (hswitches : s'.switches = s.switches)
    (hcurrent : s'.current = s.current) (helapsed : s'.elapsed = s.elapsed) : Stays s s' :=
  ⟨⟨[], by rw [hqueue, List.append_nil]⟩, hswitches, hcurrent, helapsed⟩

theorem Stays.refl (s : Threads) : Stays s s := .same rfl rfl rfl rfl

theorem Stays.trans (h : Stays s s₁) (h' : Stays s₁ s') : Stays s s' := by
  obtain ⟨new, hnew⟩ := h.queue
  obtain ⟨new', hnew'⟩ := h'.queue
  exact ⟨⟨new ++ new', by rw [hnew', hnew, List.append_assoc]⟩, h'.switches.trans h.switches,
    h'.current.trans h.current, h'.elapsed.trans h.elapsed⟩

theorem Stays.passes (h : Stays s s') : Passes s s' := by
  obtain ⟨new, hnew⟩ := h.queue
  exact ⟨.stay new hnew h.switches h.current, fun _ => h.elapsed,
    fun hlt => absurd h.switches hlt.ne'⟩

/-- A step from a state with the same runqueue. -/
theorem same_passes (hqueue : s₁.runqueue = s.runqueue) (hswitches : s₁.switches = s.switches)
    (hcurrent : s₁.current = s.current) (helapsed : s₁.elapsed = s.elapsed) (h : Passes s₁ s') :
    Passes s s' := by
  refine ⟨?_, fun heq => (h.keeps (heq.trans hswitches.symm)).trans helapsed, fun hlt =>
    h.starts (hswitches ▸ hlt)⟩
  cases h.turn with
  | stay new hqueue' hturns hserved =>
    exact .stay new (hqueue'.trans (congrArg (· ++ new) hqueue)) (hturns.trans hswitches)
      (hserved.trans hcurrent)
  | serve new hqueue' hturns hserved =>
    refine .serve new (hqueue'.trans (congrArg (·.tail ++ new) hqueue))
      (hturns.trans (congrArg (· + 1) hswitches)) fun t ht => hserved t ?_
    exact (congrArg List.head? hqueue).trans ht

/-- What comes after a step of the queue. -/
theorem Passes.stays (h : Passes s s₁) (h' : Stays s₁ s') : Passes s s' := by
  refine ⟨?_, fun heq => h'.elapsed.trans (h.keeps (h'.switches.symm.trans heq)), fun hlt =>
    h'.elapsed.trans (h.starts (h'.switches ▸ hlt))⟩
  obtain ⟨new', hnew'⟩ := h'.queue
  cases h.turn with
  | stay new hqueue hturns hserved =>
    change s₁.runqueue = s.runqueue ++ new at hqueue
    exact .stay (new ++ new') (show s'.runqueue = s.runqueue ++ (new ++ new') by
      rw [hnew', hqueue, List.append_assoc]) (h'.switches.trans hturns) (h'.current.trans hserved)
  | serve new hqueue hturns hserved =>
    change s₁.runqueue = s.runqueue.tail ++ new at hqueue
    refine .serve (new ++ new') (show s'.runqueue = s.runqueue.tail ++ (new ++ new') by
      rw [hnew', hqueue, List.append_assoc]) (h'.switches.trans hturns) fun t ht => ?_
    exact h'.current.trans (hserved t ht)

theorem Stays.goesTo {x : Res Threads} (h : Stays s s₁) (hx : GoesTo Stays s₁ x) :
    GoesTo Stays s x :=
  hx.mono fun _ h' => h.trans h'

/-! ## Calls that give the CPU to nobody -/

theorem stays_modify (t : Tid) (f : Thread → Thread) (hf : ∀ th, (f th).time = th.time) :
    Stays s (s.modify t f) :=
  .same rfl rfl rfl (elapsed_modify t hf)

theorem stays_enqueue : GoesTo Stays s (s.enqueue t) := by
  unfold enqueue
  split
  · trivial
  · exact ⟨⟨[t], rfl⟩, rfl, rfl, rfl⟩

theorem stays_touch {R : Threads → Threads → Prop} {f : Unit → Res Threads}
    (h : GoesTo R s (f ())) : GoesTo R s (s.touch t >>= f) :=
  Post.bind (P := fun _ => True) (by unfold touch; split <;> trivial) fun _ _ => h

theorem stays_threadActivate : GoesTo Stays s (s.threadActivate t) := by
  refine stays_touch ?_
  split
  · exact (stays_modify t Thread.activate fun _ => rfl).goesTo stays_enqueue
  · exact stays_modify t ({ · with unactivated := false }) fun _ => rfl

theorem stays_mutexLock {sched : Pc} : Stays s (s.mutexLock m sched) := by
  unfold mutexLock
  split
  · exact (stays_modify _ (Thread.block sched) fun _ => rfl).trans (.same rfl rfl rfl rfl)
  · exact (stays_modify _ (Thread.goto .user) fun _ => rfl).trans (.same rfl rfl rfl rfl)

theorem stays_mutexUnlock : GoesTo Stays s (s.mutexUnlock m) := by
  unfold mutexUnlock
  split
  case h_1 => exact .same rfl rfl rfl rfl
  case h_2 next rest _ =>
    refine Post.bind (P := fun _ => True) ?_ fun _ _ => ?_
    · unfold lockNode touch
      split <;> [split; skip] <;> trivial
    · exact (Stays.same rfl rfl rfl rfl :
        Stays s (s.modifyMutex m (Mutex.handOver s.current next rest))).goesTo stays_threadActivate

theorem stays_waitReturned : Stays s (s.waitReturned m) := by
  unfold waitReturned
  split <;> exact .same rfl rfl rfl rfl

theorem stays_conditionWake : GoesTo Stays s (s.conditionWake c t) := by
  refine Post.bind (P := fun _ => True) ?_ fun _ _ =>
    (stays_modify t ({ · with signalled := true }) fun _ => rfl).goesTo stays_threadActivate
  unfold waitNode touch
  split <;> [split; skip] <;> trivial

theorem stays_conditionSignal : GoesTo Stays s (s.conditionSignal c) := by
  unfold conditionSignal
  split
  case h_1 => exact Stays.refl s
  case h_2 node rest _ =>
    exact (Stays.same rfl rfl rfl rfl : Stays s (s.setCond c rest)).goesTo stays_conditionWake

theorem stays_conditionWait : GoesTo Stays s (s.conditionWait c m) := by
  have hcond : Stays s ((s.modify s.current (Thread.beginWait (.waitSched c m))).setCond c
      (s.conds c ++ [s.current])) :=
    (stays_modify _ (Thread.beginWait (.waitSched c m)) fun _ => rfl).trans (.same rfl rfl rfl rfl)
  exact hcond.goesTo stays_mutexUnlock

/-! ## The scheduler -/

theorem stays_afterSchedule : Stays s s.afterSchedule := by
  have hlock : ∀ m, Stays s (s.lockReturned m) := fun _ => .same rfl rfl rfl rfl
  unfold afterSchedule
  split
  · exact (hlock _).trans (stays_modify _ (Thread.goto .user) fun _ => rfl)
  · exact stays_modify _ (Thread.goto _) fun _ => rfl
  · exact (hlock _).trans (stays_waitReturned.trans
      (stays_modify _ (Thread.goto .user) fun _ => rfl))
  · exact stays_modify _ (Thread.goto _) fun _ => rfl
  · exact .refl s

theorem stays_leaveScheduler : Stays s s.leaveScheduler := by
  have hints : ∀ b, Stays s { s with ints := b } := fun b => .same rfl rfl rfl rfl
  unfold leaveScheduler
  split
  · exact (hints true).trans (stays_modify _ (Thread.goto .user) fun _ => rfl)
  · exact (hints _).trans stays_afterSchedule
  · exact hints true

theorem stays_noteLapse : Stays s s.noteLapse := by
  unfold noteLapse
  split <;> exact .same rfl rfl rfl rfl

/-- A step of the queue that gives the CPU to someone. -/
def Hands (s s' : Threads) : Prop := Passes s s' ∧ s'.switches = s.switches + 1

/-- **`place_thread`**, for a thread that was taken from the runqueue. -/
theorem placeThread_hands {next : Tid} {queue : List Tid} (hqueue : queue = s.runqueue.tail)
    (hhead : ∀ t, s.runqueue.head? = some t → next = t) :
    GoesTo Hands s (placeThread { s with runqueue := queue, cpu := next } next) := by
  have hprev : ∀ s₁ : Threads, s₁.finishPrev.setRsp0.runqueue = s₁.runqueue ∧
      s₁.finishPrev.setRsp0.switches = s₁.switches + 1 := by
    intro s₁
    unfold finishPrev setRsp0
    split <;> exact ⟨rfl, rfl⟩
  obtain ⟨hrq, hsw⟩ := hprev { s with runqueue := queue, cpu := next }
  unfold placeThread
  refine Post.bind (P := Stays
    ({ s with runqueue := queue, cpu := next } : Threads).finishPrev.setRsp0) ?_ fun s₂ h₂ => ?_
  · split
    · exact stays_enqueue
    · exact Stays.refl _
  · obtain ⟨new, hnew⟩ := h₂.queue
    have hswitches : s₂.switches = s.switches + 1 := h₂.switches.trans hsw
    refine ⟨⟨.serve new ?_ hswitches fun t ht => hhead t ht, fun heq => ?_, fun _ => ?_⟩, hswitches⟩
    · rw [show (turns.queue s).tail = queue from hqueue.symm]
      exact hnew.trans (congrArg (· ++ new) hrq)
    · exact absurd (hswitches.symm.trans heq) (Nat.succ_ne_self _)
    · exact (congrArg (s₂.jiffies - ·) (congrArg Thread.time
        (Function.update_self next _ s₂.threads))).trans (UInt64.sub_self _)

theorem threadSwitchTo_hands {next : Tid} (hhead : ∀ t, s.runqueue.head? = some t → next = t) :
    GoesTo Hands s (({ s with runqueue := s.pickNext.2 } : Threads).threadSwitchTo next) := by
  refine stays_touch (s := { s with runqueue := s.pickNext.2 }) (R := fun _ => Hands s) ?_
  refine placeThread_hands ?_ hhead
  unfold pickNext
  split <;> rename_i h <;> rw [h] <;> rfl

/-- Neither the thread that runs nor the idle thread is in the runqueue. -/
def Apart (s : Threads) : Prop :=
  s.current ∉ s.runqueue ∧ ∀ i, s.idleThread = some i → i ∉ s.runqueue

theorem Registered.apart (h : Registered s) : s.Apart := by
  refine ⟨fun hmem => (h.runqueue.mem _ hmem).2 rfl, fun i hi hmem => ?_⟩
  obtain ⟨j, hj, hidle⟩ := h.registered
  rw [hi] at hj
  rw [← Option.some.inj hj, (h.runqueue.mem i hmem).1] at hidle
  cases hidle

/-- The slice check of `__schedule` lets the current thread go on. -/
def GoesOn (s : Threads) (force : Bool) : Prop :=
  !force ∧ s.self.state = .active ∧ s.elapsed < SLICE

theorem schedulePick_goesOn {force : Bool} (h : s.GoesOn force) : s.schedulePick force = .ok s :=
  if_pos h

theorem schedulePick_over {force : Bool} (h : ¬ s.GoesOn force) :
    s.schedulePick force =
      ({ s with runqueue := s.pickNext.2 } : Threads).switchIfNeeded s.pickNext.1 :=
  if_neg h

/-- **`__schedule`** gives the CPU to the first of the runqueue, unless the current thread may go
on. -/
theorem schedulePick_hands {force : Bool} (h : s.Apart) (hover : ¬ s.GoesOn force)
    (hwaits : s.runqueue ≠ []) : GoesTo Hands s (s.schedulePick force) := by
  obtain ⟨next, rest, hq⟩ := List.exists_cons_of_ne_nil hwaits
  have hne : s.current ≠ next := fun heq => h.1 (by rw [hq, heq]; exact List.mem_cons_self)
  have hni : some next ≠ s.idleThread := fun heq =>
    h.2 next heq.symm (by rw [hq]; exact List.mem_cons_self)
  have hpick : s.pickNext.1 = some next := by rw [pickNext, hq]
  have hhead : ∀ t, s.runqueue.head? = some t → next = t := by
    intro t ht
    rw [hq] at ht
    exact Option.some.inj ht
  rw [schedulePick_over hover, hpick]
  show GoesTo Hands s (if s.current = next then _ else if some next ≠ s.idleThread ∨
    _ then _ else _)
  rw [if_neg hne, if_pos (.inl hni)]
  exact threadSwitchTo_hands hhead

theorem schedulePick_passes {force : Bool} (h : s.Apart) :
    GoesTo Passes s (s.schedulePick force) := by
  by_cases hgo : s.GoesOn force
  · rw [schedulePick_goesOn hgo]
    exact (Stays.refl s).passes
  by_cases hwaits : s.runqueue = []
  · have hsame : Stays s { s with runqueue := s.pickNext.2 } :=
      .same (by show s.pickNext.2 = s.runqueue; rw [pickNext, hwaits]) rfl rfl rfl
    rw [schedulePick_over hgo]
    unfold switchIfNeeded
    split
    · exact hsame.passes
    · split
      · exact hsame.passes
      · split
        · exact (threadSwitchTo_hands fun t ht => by rw [hwaits] at ht; cases ht).mono
            fun _ => And.left
        · exact hsame.passes
  · exact (schedulePick_hands h hgo hwaits).mono fun _ => And.left

theorem stays_return : Stays s s.noteLapse.leaveScheduler :=
  stays_noteLapse.trans stays_leaveScheduler

theorem reschedule_passes {force : Bool} (h : s.Apart) : GoesTo Passes s (s.reschedule force) :=
  Post.bind (schedulePick_passes h) fun _ h₁ => h₁.stays stays_return

theorem stays_enterScheduler {how : Resume} : Stays s (s.enterScheduler how) :=
  have hints : Stays s { s with ints := false } := .same rfl rfl rfl rfl
  hints.trans (stays_modify _ ({ · with resume := how }) fun _ => rfl)

theorem enterScheduler_passes {how : Resume} (h : Passes (s.enterScheduler how) s') : Passes s s' :=
  have hs : Stays s (s.enterScheduler how) := stays_enterScheduler
  @same_passes s s' (s.enterScheduler how) rfl hs.switches hs.current hs.elapsed h

theorem schedule_passes {how : Resume} (h : s.Apart) : GoesTo Passes s (s.schedule how) := by
  show GoesTo Passes s (if (s.enterScheduler how).preemptCnt ≠ 0 then _ else _)
  split
  · exact enterScheduler_passes stays_leaveScheduler.passes
  · exact (reschedule_passes (s := s.enterScheduler how) h).mono fun _ => enterScheduler_passes

theorem forceSchedule_passes (h : s.Apart) : GoesTo Passes s s.forceSchedule :=
  Post.bind (P := fun _ => True) (by unfold bugOn; split <;> trivial) fun _ _ =>
    (reschedule_passes (s := s.enterScheduler (.call s.ints)) h).mono fun _ => enterScheduler_passes

/-! ## Events -/

theorem resumeCall_passes (h : s.Apart) : GoesTo Passes s s.resumeCall := by
  have hstays : ∀ {x : Res Threads}, GoesTo Stays s x → GoesTo Passes s x :=
    fun h => h.mono fun _ h => h.passes
  unfold resumeCall
  split
  · exact (Stays.refl s).passes
  · exact (Stays.refl s).passes
  · exact schedule_passes h
  · exact schedule_passes h
  · refine Stays.passes ?_
    split
    · exact stays_mutexLock
    · exact stays_mutexLock.trans stays_waitReturned
  · exact schedule_passes h
  · exact (stays_modify _ _ (by exact fun _ => rfl)).passes
  · refine Post.bind (P := fun _ => True) ?_ fun _ _ =>
      (stays_modify _ _ (by exact fun _ => rfl)).passes
    unfold waitNode touch
    split <;> [split; skip] <;> trivial
  · exact hstays (Post.bind stays_conditionWake fun _ h₁ =>
      h₁.trans (stays_modify _ _ (by exact fun _ => rfl)))
  · exact forceSchedule_passes h
  · exact stays_touch (stays_modify _ _ (by exact fun _ => rfl)).passes
  · exact forceSchedule_passes h
  · exact (stays_modify _ _ (by exact fun _ => rfl)).passes
  · exact forceSchedule_passes h

/-- A tick moves the clock before anything else. -/
def clock (s : Threads) : Event → Threads
  | .tick => { s with jiffies := s.jiffies + 1 }
  | _ => s

/-- **Every event** is a step of the queue. -/
theorem event_passes (h : s.Apart) (hfresh : s.current < s.fresh) (e : Event) :
    GoesTo Passes (s.clock e) (events.exec s e) := by
  have hstays : ∀ {x : Res Threads}, GoesTo Stays s x → GoesTo Passes s x :=
    fun h => h.mono fun _ h => h.passes
  have hsame : ∀ {s' : Threads}, s'.runqueue = s.runqueue → s'.switches = s.switches →
      s'.current = s.current → s'.elapsed = s.elapsed → Passes s s' :=
    fun hq hs hc he => (Stays.same hq hs hc he).passes
  cases e with
  | tick => exact schedule_passes (s := { s with jiffies := s.jiffies + 1 }) h
  | resume => exact resumeCall_passes h
  | setInts on => exact hsame rfl rfl rfl rfl
  | disablePreempt => exact hsame rfl rfl rfl rfl
  | enablePreempt => exact hsame rfl rfl rfl rfl
  | lock m => exact stays_mutexLock.passes
  | unlock m => exact hstays stays_mutexUnlock
  | wait c m => exact hstays stays_conditionWait
  | signal c => exact hstays stays_conditionSignal
  | broadcast c =>
    exact hsame rfl rfl rfl (elapsed_modify _ (f := Thread.beginBroadcast c _ _) fun _ => rfl)
  | schedule => exact schedule_passes h
  | forceSchedule => exact forceSchedule_passes h
  | create stack thread time =>
    cases stack with
    | none => trivial
    | some stackAddr =>
      refine Post.bind (P := fun _ => True) (by unfold bugOn; split <;> trivial) fun _ _ =>
        hsame rfl rfl rfl ?_
      exact congrArg (s.jiffies - ·) (congrArg Thread.time
        (Function.update_of_ne hfresh.ne _ s.threads))
  | activate t => exact hstays stays_threadActivate
  | join t => exact (stays_modify _ (Thread.goto (.joining t)) fun _ => rfl).passes
  | destroy t => exact stays_touch (R := fun _ => Passes s) (hsame rfl rfl rfl rfl)
  | exit => exact (stays_modify _ ({ · with state := .finishing, pc := .exiting })
    fun _ => rfl).passes
  | idle =>
    exact Post.bind (P := fun _ => True) (by unfold bugOn; split <;> trivial) fun _ _ =>
      hsame rfl rfl rfl (elapsed_modify (s := { s with idleThread := some s.current }) _
        (f := Thread.goto .idleMark) fun _ => rfl)

theorem step_passes (h : Registered s) {e : Event} (hexec : events.exec s e = .ok s') :
    Passes (s.clock e) s' :=
  (event_passes h.apart (h.fresh _ h.toMachineOk.current) e).of_eq hexec

theorem clock_turn {e : Event} (h : turns.Turn (s.clock e) s') : turns.Turn s s' := by
  cases e
  case tick =>
    cases h with
    | stay new hqueue hturns hserved => exact .stay new hqueue hturns hserved
    | serve new hqueue hturns hserved => exact .serve new hqueue hturns hserved
  all_goals exact h

theorem step_turn (h : Registered s) (hstep : events.Step s s') : Registered s' ∧
    turns.Turn s s' := by
  obtain ⟨e, hl, hexec⟩ := hstep
  exact ⟨registered_keeps.step h ⟨e, hl, hexec⟩, clock_turn (step_passes h hexec).turn⟩

theorem elapsed_tick : (s.clock .tick).elapsed = s.elapsed + 1 := by
  show s.jiffies + 1 - s.self.time = s.jiffies - s.self.time + 1
  grind

/-- **A tick takes the CPU away** from a thread that has used its slice, if another one is ready. -/
theorem tick_hands (h : s.Apart) (hcnt : s.preemptCnt = 0)
    (hover : ¬ (s.self.state = .active ∧ s.elapsed + 1 < SLICE)) (hwaits : s.runqueue ≠ []) :
    GoesTo (fun s s' => s'.switches = s.switches + 1) s (events.exec s .tick) := by
  have henter : Stays (s.clock .tick) ((s.clock .tick).enterScheduler .tick) := stays_enterScheduler
  have hstate : ((s.clock .tick).enterScheduler .tick).self.state = s.self.state := by
    show (Function.update s.threads s.current _ s.current).state = _
    rw [Function.update_self]
    rfl
  have hgo : ¬ ((s.clock .tick).enterScheduler .tick).GoesOn false := by
    rintro ⟨-, hactive, hlt⟩
    rw [henter.elapsed, elapsed_tick] at hlt
    exact hover ⟨hstate ▸ hactive, hlt⟩
  show GoesTo _ s (if ((s.clock .tick).enterScheduler .tick).preemptCnt ≠ 0 then _ else _)
  rw [if_neg (show ¬ ((s.clock .tick).enterScheduler .tick).preemptCnt ≠ 0 from not_not.mpr hcnt)]
  exact Post.bind (schedulePick_hands (s := (s.clock .tick).enterScheduler .tick) h hgo hwaits)
      fun _ h₁ =>
    stays_return.switches.trans h₁.2

/-! ## Runs -/

variable {s₀ : Threads} {k : Nat}

/-- **Threads run in turn**: in every run the thread at place `k` of the runqueue moves up by one
place with each switch, and gets the CPU with the switch `k + 1` from now. -/
theorem runs_in_turn (h : Start s₀) (hrun₀ : events.Run s₀ s) (ht : s.runqueue[k]? = some t)
    (hrun : events.Run s s') :
    (s'.switches ≤ s.switches + k → s'.runqueue[k - (s'.switches - s.switches)]? = some t) ∧
      (s.switches + k < s'.switches → ∃ mid, events.Run s mid ∧ events.Run mid s' ∧
        mid.switches = s.switches + k + 1 ∧ mid.current = t) :=
  have hstep : ∀ a b, Registered a → events.Step a b → Registered b ∧ turns.Turn a b :=
    fun _ _ => step_turn
  have hreg := h.run hrun₀
  ⟨Queue.waits (q := turns) hstep hreg hrun ht, Queue.comes (q := turns) hstep hreg hrun ht⟩

/-- Two new threads are queued, and the running one gives up the CPU twice. -/
def TwoQueued (s : Threads) : Prop :=
  s.runqueue = [2, 3] ∧ ((events.trial allows [.forceSchedule, .forceSchedule] s).any fun s' =>
    decide (s'.switches = s.switches + 2)) = true

instance (s : Threads) : Decidable s.TwoQueued := inferInstanceAs (Decidable (_ ∧ _))

theorem idleStart_twoQueued : ∃ s, events.Run idleStart s ∧ s.TwoQueued := by
  have h₁ : events.Step idleStart _ := ⟨.resume, nofun, rfl⟩
  have h₂ := (Relation.ReflTransGen.single h₁).tail ⟨.create (some 0x400000) true 0,
      ⟨rfl, fun a ha => by
    cases ha
    exact idleStart_start.stackFree (.single h₁) (by decide)⟩, rfl⟩
  have h₃ := h₂.tail ⟨.create (some 0x500000) true 0, ⟨rfl, fun a ha => by
    cases ha
    exact idleStart_start.stackFree h₂ (by decide)⟩, rfl⟩
  exact Exists.imp (fun s hs => ⟨h₃.trans hs.1, hs.2⟩)
    (@CallSystem.exists_run _ _ _ events _ _ allows_legal [.activate 2, .activate 3] TwoQueued _
      (by decide +kernel))

/-- The second of two queued threads runs after the second switch. -/
theorem runs_in_turn_two : ∃ s mid, events.Run idleStart s ∧ s.runqueue = [2, 3] ∧
    events.Run s mid ∧ mid.switches = s.switches + 2 ∧ mid.current = 3 := by
  obtain ⟨s, hrun₀, hqueue, htrial⟩ := idleStart_twoQueued
  obtain ⟨s', hrun, hs'⟩ := CallSystem.exists_run allows_legal htrial
  obtain ⟨mid, hmid, -, hturns, hcur⟩ :=
    (runs_in_turn (k := 1) (t := 3) idleStart_start hrun₀ (by rw [hqueue]; rfl) hrun).2 (by omega)
  exact ⟨s, mid, hrun₀, hqueue, hmid, hturns, hcur⟩

/-! ## Slices -/

/-- A timer tick that comes while preemption is on. -/
def OpenTick (s s' : Threads) : Prop :=
  events.legal s .tick ∧ s.preemptCnt = 0 ∧ events.exec s .tick = .ok s'

/-- Any event but a tick. -/
def OtherEvent (s s' : Threads) : Prop :=
  ∃ e, e ≠ .tick ∧ events.legal s e ∧ events.exec s e = .ok s'

/-- A run with `n` timer ticks, none of which comes while preemption is off. -/
abbrev Ticks (n : Nat) : Threads → Threads → Prop := Queue.Beats OtherEvent OpenTick n

theorem step_of (h : OtherEvent s s' ∨ OpenTick s s') : events.Step s s' := by
  obtain ⟨e, -, hl, hexec⟩ | ⟨hl, -, hexec⟩ := h
  · exact ⟨e, hl, hexec⟩
  · exact ⟨.tick, hl, hexec⟩

/-- The tick, counted from now, with which the current thread loses the CPU to one that is ready.
The clock may be about to wrap around. -/
def ticksLeft (s : Threads) : Nat :=
  if s.elapsed + 1 ≤ SLICE then (SLICE - s.elapsed).toNat else 1

theorem ticksLeft_eq (s : Threads) : s.ticksLeft =
    if (s.elapsed.toNat + 1) % 2 ^ 64 ≤ 10 then
    (2 ^ 64 + 10 - s.elapsed.toNat) % 2 ^ 64 else 1 := by
  have hlt := s.elapsed.toNat_lt
  unfold ticksLeft SLICE
  simp only [UInt64.le_iff_toNat_le, UInt64.toNat_add, UInt64.toNat_sub, UInt64.reduceToNat]
  split <;> omega

theorem ticksLeft_pos (s : Threads) : 0 < s.ticksLeft := by
  have hlt := s.elapsed.toNat_lt
  rw [ticksLeft_eq]
  split <;> omega

theorem ticksLeft_le (s : Threads) : s.ticksLeft ≤ SLICE.toNat + 1 := by
  have hlt := s.elapsed.toNat_lt
  rw [ticksLeft_eq, show SLICE.toNat = 10 from rfl]
  split <;> omega

theorem ticksLeft_start (h : s.elapsed = 0) : s.ticksLeft = SLICE.toNat := by
  rw [ticksLeft_eq, h]
  rfl

theorem ticksLeft_tick (h : s'.elapsed = s.elapsed + 1) (hlt : s.elapsed + 1 < SLICE) :
    s'.ticksLeft < s.ticksLeft := by
  have hbound := s.elapsed.toNat_lt
  rw [SLICE, UInt64.lt_iff_toNat_lt, UInt64.toNat_add] at hlt
  simp only [UInt64.reduceToNat] at hlt
  rw [ticksLeft_eq, ticksLeft_eq, h, UInt64.toNat_add]
  simp only [UInt64.reduceToNat]
  split <;> split <;> omega

/-- **The slices of the scheduler.** -/
theorem slices : turns.Slices Registered OtherEvent OpenTick SLICE.toNat ticksLeft where
  turn _ _ h hab := step_turn h (step_of hab)
  keeps a b h hab hsame := by
    obtain ⟨e, hne, -, hexec⟩ := hab
    have hclock : a.clock e = a := by
      cases e
      case tick => exact absurd rfl hne
      all_goals rfl
    have helapsed := (hclock ▸ step_passes h hexec).keeps hsame
    rw [ticksLeft, ticksLeft, helapsed]
  spends a b h hwaits hab hsame := by
    obtain ⟨-, hcnt, hexec⟩ := hab
    by_cases hover : a.self.state = .active ∧ a.elapsed + 1 < SLICE
    · have helapsed := (step_passes h hexec).keeps hsame
      exact ticksLeft_tick (helapsed.trans elapsed_tick) hover.2
    · have hands := (tick_hands h.apart hcnt hover hwaits).of_eq hexec
      exact absurd (hands.symm.trans hsame) (Nat.succ_ne_self _)
  next a b h hab hlt := by
    have hstarts : ∀ e, events.exec a e = .ok b → b.elapsed = 0 := fun e hexec =>
      (step_passes h hexec).starts (by cases e <;> exact hlt)
    refine (ticksLeft_start ?_).le
    obtain ⟨e, -, -, hexec⟩ | ⟨-, -, hexec⟩ := hab
    · exact hstarts e hexec
    · exact hstarts .tick hexec
  pos := ticksLeft_pos

theorem events_run (h : Relation.ReflTransGen (fun a b => OtherEvent a b ∨ OpenTick a b) s s') :
    events.Run s s' :=
  Relation.ReflTransGen.mono (fun _ _ => step_of) _ _ h

variable {n : Nat}

/-- **Nobody starves**: in every run in which no tick finds preemption off, the thread at place `k`
of the runqueue gets the CPU before `k + 1` slices are over. -/
theorem runs_soon (h : Start s₀) (hrun₀ : events.Run s₀ s) (ht : s.runqueue[k]? = some t)
    (hrun : Ticks n s s') (hn : SLICE.toNat * (k + 1) < n) :
    ∃ mid, events.Run s mid ∧ events.Run mid s' ∧ mid.switches = s.switches + k + 1 ∧
    mid.current = t := by
  have hleft := ticksLeft_le s
  obtain ⟨mid, hmid, hrest, hturns, hcur⟩ := slices.soon (h.run hrun₀) hrun ht
    (by rw [Nat.mul_succ] at hn; omega)
  exact ⟨mid, events_run hmid, events_run hrest, hturns, hcur⟩

/-- An active thread with preemption on, and nobody waits. -/
structure Alone (s : Threads) : Prop where
  ints : s.ints = true
  preempt : s.preemptCnt = 0
  runqueue : s.runqueue = []
  active : s.self.state = .active

theorem schedulePick_alone (hq : s.runqueue = []) (hactive : s.self.state = .active) :
    s.schedulePick false = .ok s := by
  by_cases hgo : s.GoesOn false
  · exact schedulePick_goesOn hgo
  have hsame : ({ s with runqueue := s.pickNext.2 } : Threads) = s := by
    rw [show s.pickNext.2 = s.runqueue by rw [pickNext, hq]]
  rw [schedulePick_over hgo, hsame, show s.pickNext.1 = s.idleThread by rw [pickNext, hq]]
  unfold switchIfNeeded
  split
  · rfl
  case h_2 next hidle =>
    split
    · rfl
    · rw [if_neg (by rintro (hne | hne) <;> [exact hne hidle.symm; exact hne hactive])]

theorem noteLapse_self : s.noteLapse.self = s.self := by
  unfold noteLapse
  split <;> rfl

theorem leaveScheduler_tick (h : s.self.resume = .tick) :
    s.leaveScheduler = { s with ints := true } := by
  unfold leaveScheduler
  rw [h]

/-- **A tick for a thread that is alone** leaves it so. -/
theorem tick_alone (h : s.Alone) : ∃ s', OpenTick s s' ∧ s'.Alone := by
  have hself : ((s.clock .tick).enterScheduler .tick).self = { s.self with resume := .tick } :=
    Function.update_self s.current _ s.threads
  have hpick := schedulePick_alone (s := (s.clock .tick).enterScheduler .tick) h.runqueue
    (by rw [hself]; exact h.active)
  have hexec : events.exec s .tick = .ok ((s.clock .tick).enterScheduler
      .tick).noteLapse.leaveScheduler := by
    show (if ((s.clock .tick).enterScheduler .tick).preemptCnt ≠ 0 then _ else
      schedulePick ((s.clock .tick).enterScheduler .tick) false >>= fun s₁ =>
        pure s₁.noteLapse.leaveScheduler) = _
    rw [if_neg (show ¬ ((s.clock .tick).enterScheduler .tick).preemptCnt ≠ 0 from not_not.mpr
      h.preempt), hpick]
    rfl
  refine ⟨_, ⟨h.ints, h.preempt, hexec⟩, ?_⟩
  rw [leaveScheduler_tick (by rw [noteLapse_self, hself])]
  have hnote : ∀ x : Threads, x.noteLapse.preemptCnt = x.preemptCnt ∧
      x.noteLapse.runqueue = x.runqueue := by
    intro x
    unfold noteLapse
    split <;> exact ⟨rfl, rfl⟩
  exact ⟨rfl, (hnote _).1.trans h.preempt, (hnote _).2.trans h.runqueue,
    (congrArg Thread.state (noteLapse_self.trans hself)).trans h.active⟩

theorem ticks_alone {s₁ : Threads} {m : Nat} (h : s₁.Alone) (hrun : Ticks m s s₁) (n : Nat) :
    ∃ s', Ticks (m + n) s s' ∧ s'.Alone := by
  induction n with
  | zero => exact ⟨s₁, hrun, h⟩
  | succ n ih =>
    obtain ⟨b, hb, halone⟩ := ih
    obtain ⟨c, htick, hc⟩ := tick_alone halone
    exact ⟨c, hb.beat htick, hc⟩

theorem runs_soon_one : ∃ s, events.Run idleStart s ∧ s.switches = 1 ∧ s.current = 1 := by
  have h₁ : Ticks 1 idleStart _ := .beat (.refl _) ⟨rfl, rfl, rfl⟩
  obtain ⟨s', hrun, -⟩ := ticks_alone ⟨rfl, rfl, rfl, rfl⟩ h₁ 10
  obtain ⟨mid, hmid, -, hturns, hcur⟩ :=
    runs_soon (k := 0) (t := 1) idleStart_start .refl rfl hrun (by decide)
  exact ⟨mid, hmid, hturns, hcur⟩

end Threads

end AuOs
