import Mathlib
import AuOs.Threads.Mutex

/-!
# Condition variables keep the invariant

* `CondOk.beginWait`, `CondOk.signal`, `CondOk.detach`, `CondOk.wake` — the life of a wait node: it
  is queued, and then woken by a signal, or detached and later woken by a broadcast.
* `conditionWait_spec`, `conditionSignal_spec`, `conditionBroadcast_inv`, `bcastWake_spec` — the
  functions of `condition.c`.
-/

set_option autoImplicit false

namespace AuOs

namespace Threads

variable {s s' : Threads} {c : Cid} {m : Mid} {t : Tid}

/-! ## The life of a wait node -/

/-- A thread that is not waiting is in no list of wait nodes. -/
theorem CondOk.notMem (h : CondOk s) (hwait : (s.threads t).pc.waitOf = none) :
    (∀ c, t ∉ s.conds c) ∧ ∀ b, t ∉ (s.threads b).pc.pending := by
  refine ⟨fun c hc => ?_, fun b hb => (h.pending_mem b t hb).1 hwait⟩
  have := (h.mem c t hc).1
  rw [hwait] at this
  cases this

/-- The waits of the pending threads are the same in both states. -/
theorem map_waits_congr {l : List Tid} (h : ∀ u ∈ l, (s'.threads u).waits = (s.threads u).waits) :
    l.map (fun u => (u, (s'.threads u).waits)) = l.map fun u => (u, (s.threads u).waits) :=
  List.map_congr_left fun u hu => by rw [h u hu]

/-- The current thread queues its wait node. -/
theorem CondOk.beginWait (h : CondOk s) (hwait : (s.threads t).pc.waitOf = none)
    (hpend : (s.threads t).pc.pending = [])
    (hself : s'.threads t = (s.threads t).beginWait (.waitSched c m))
    (hother : ∀ u, u ≠ t → s'.threads u = s.threads u)
    (hc : s'.conds c = s.conds c ++ [t]) (hcs : ∀ c', c' ≠ c → s'.conds c' = s.conds c') :
    CondOk s' := by
  obtain ⟨hnotc, hnotp⟩ := h.notMem hwait
  have hpc : (s'.threads t).pc.waitOf = some c ∧ (s'.threads t).state = .blocked := by
    rw [hself]
    exact ⟨rfl, rfl⟩
  have hpending : ∀ b, (s'.threads b).pc.pending = (s.threads b).pc.pending := by
    intro b
    by_cases hb : b = t
    · rw [hb, hself, hpend]
      rfl
    · rw [hother b hb]
  refine ⟨fun c' u hu => ?_, fun c' => ?_, fun c' u hw hb => ?_, fun b u hu => ?_, ?_, fun b => ?_,
    fun b => ?_⟩
  · simp only [hpending]
    by_cases hut : u = t
    · grind
    · have := h.mem c' u
      grind
  · have := h.nodup c'
    grind
  · simp only [hpending]
    by_cases hut : u = t
    · grind
    · have := h.of_blocked c' u
      grind
  · rw [hpending] at hu
    have hut : u ≠ t := fun he => hnotp b (he ▸ hu)
    have hbt : b ≠ t := fun he => by simp [he, hpend] at hu
    rw [hother u hut, hother b hbt]
    exact h.pending_mem b u hu
  · simp only [hpending]
    exact h.pending_disjoint
  · rw [hpending, map_waits_congr (s := s) fun u hu => by rw [hother u fun he => hnotp b (he ▸ hu)]]
    have := h.detached b
    by_cases hbt : b = t
    · subst hbt
      rw [hself]
      exact this
    · rw [hother b hbt]
      exact this
  · have := h.detached_nodup b
    by_cases hbt : b = t
    · subst hbt
      rw [hself]
      exact this
    · rw [hother b hbt]
      exact this

/-- A wait node is taken from the waitqueue and its thread is activated. -/
theorem CondOk.signal (h : CondOk s) {rest : List Tid} (hq : s.conds c = t :: rest)
    (hpc : (s'.threads t).pc = (s.threads t).pc) (hstate : (s'.threads t).state = .active)
    (hwaits : (s'.threads t).waits = (s.threads t).waits)
    (hlog : (s'.threads t).detached = (s.threads t).detached ∧
      (s'.threads t).woken = (s.threads t).woken)
    (hother : ∀ u, u ≠ t → s'.threads u = s.threads u)
    (hc : s'.conds c = rest) (hcs : ∀ c', c' ≠ c → s'.conds c' = s.conds c') : CondOk s' := by
  obtain ⟨hw, _, hnotp⟩ := h.mem c t (by rw [hq]; exact List.mem_cons_self)
  have hnodup := hq ▸ h.nodup c
  have hpc' : ∀ b, (s'.threads b).pc = (s.threads b).pc := fun b => by
    by_cases hb : b = t
    · rw [hb, hpc]
    · rw [hother b hb]
  have hw' : ∀ b, (s'.threads b).waits = (s.threads b).waits := fun b => by
    by_cases hb : b = t
    · rw [hb, hwaits]
    · rw [hother b hb]
  have hlog' : ∀ b, (s'.threads b).detached = (s.threads b).detached ∧
      (s'.threads b).woken = (s.threads b).woken := fun b => by
    by_cases hb : b = t
    · rw [hb]; exact hlog
    · rw [hother b hb]; exact ⟨rfl, rfl⟩
  have hin : ∀ c' u, u ∈ s'.conds c' ↔ u ∈ s.conds c' ∧ u ≠ t := by
    intro c' u
    have := h.mem c' t
    by_cases hc' : c' = c
    · subst hc'
      rw [hc, hq]
      grind
    · rw [hcs c' hc']
      grind
  refine ⟨fun c' u hu => ?_, fun c' => ?_, fun c' u hw hb => ?_, fun b u hu => ?_, ?_, fun b => ?_,
    fun b => ?_⟩
  · obtain ⟨hu, hut⟩ := (hin c' u).mp hu
    simp only [hpc', hother u hut]
    exact h.mem c' u hu
  · have := h.nodup c'
    by_cases hc' : c' = c
    · subst hc'
      rw [hc]
      exact (List.nodup_cons.mp hnodup).2
    · rw [hcs c' hc']
      exact this
  · have hut : u ≠ t := fun he => by rw [he, hstate] at hb; cases hb
    rw [hother u hut] at hb
    simp only [hpc', hin] at hw ⊢
    exact (h.of_blocked c' u hw hb).imp_left fun hmem => ⟨hmem, hut⟩
  · simp only [hpc'] at hu ⊢
    rw [hother u fun he => hnotp b (he ▸ hu)]
    exact h.pending_mem b u hu
  · simp only [hpc']
    exact h.pending_disjoint
  · simp only [hpc', hw', hlog']
    exact h.detached b
  · rw [(hlog' b).1]
    exact h.detached_nodup b

/-- A broadcast detaches the waitqueue. -/
theorem CondOk.detach (h : CondOk s) (hwait : (s.threads t).pc.waitOf = none)
    (hpend : (s.threads t).pc.pending = [])
    (hpc : (s'.threads t).pc = .bcast c (s.conds c))
    (hlog : (s'.threads t).detached = (s.conds c).map (fun u => (u, (s.threads u).waits)) ∧
      (s'.threads t).woken = [])
    (hother : ∀ u, u ≠ t → s'.threads u = s.threads u)
    (hc : s'.conds c = []) (hcs : ∀ c', c' ≠ c → s'.conds c' = s.conds c') : CondOk s' := by
  obtain ⟨hnotc, hnotp⟩ := h.notMem hwait
  have hpt : (s'.threads t).pc.pending = s.conds c := by rw [hpc]; rfl
  have hwt : (s'.threads t).pc.waitOf = none := by rw [hpc]; rfl
  have hpo : ∀ b, b ≠ t → (s'.threads b).pc.pending = (s.threads b).pc.pending := fun b hb => by
    rw [hother b hb]
  refine ⟨fun c' u hu => ?_, fun c' => ?_, fun c' u hw hb => ?_, fun b u hu => ?_,
    fun b b' u hu hu' => ?_, fun b => ?_, fun b => ?_⟩
  · have hc' : c' ≠ c := fun he => by rw [he, hc] at hu; cases hu
    rw [hcs c' hc'] at hu
    obtain ⟨hw, hb, hnp⟩ := h.mem c' u hu
    rw [hother u fun he => hnotc c' (he ▸ hu)]
    refine ⟨hw, hb, fun b hmem => ?_⟩
    by_cases hbt : b = t
    · rw [hbt, hpt] at hmem
      exact hc' (Option.some.inj (hw.symm.trans (h.mem c u hmem).1))
    · exact hnp b (hpo b hbt ▸ hmem)
  · by_cases hc' : c' = c
    · rw [hc', hc]
      exact List.nodup_nil
    · rw [hcs c' hc']
      exact h.nodup c'
  · have hut : u ≠ t := fun he => by rw [he, hwt] at hw; cases hw
    rw [hother u hut] at hw hb
    rcases h.of_blocked c' u hw hb with hmem | ⟨b, hmem⟩
    · by_cases hc' : c' = c
      · exact Or.inr ⟨t, by rw [hpt, ← hc']; exact hmem⟩
      · exact Or.inl (by rw [hcs c' hc']; exact hmem)
    · refine Or.inr ⟨b, ?_⟩
      rw [hpo b fun he => by rw [he, hpend] at hmem; cases hmem]
      exact hmem
  · by_cases hbt : b = t
    · rw [hbt, hpt] at hu
      obtain ⟨hw, hb, _⟩ := h.mem c u hu
      rw [hother u fun he => hnotc c (he ▸ hu), hbt, hpc, hw]
      exact ⟨Option.some_ne_none c, rfl, hb⟩
    · rw [hpo b hbt] at hu
      rw [hother b hbt, hother u fun he => hnotp b (he ▸ hu)]
      exact h.pending_mem b u hu
  · by_cases hbt : b = t <;> by_cases hbt' : b' = t
    · rw [hbt, hbt']
    · rw [hbt, hpt] at hu
      rw [hpo b' hbt'] at hu'
      exact absurd hu' ((h.mem c u hu).2.2 b')
    · rw [hbt', hpt] at hu'
      rw [hpo b hbt] at hu
      exact absurd hu ((h.mem c u hu').2.2 b)
    · rw [hpo b hbt] at hu
      rw [hpo b' hbt'] at hu'
      exact h.pending_disjoint b b' u hu hu'
  · by_cases hbt : b = t
    · rw [hbt, hpt, hlog.1, hlog.2,
        @map_waits_congr s s' _ fun u hu => by rw [hother u fun he => hnotc c (he ▸ hu)]]
      rfl
    · rw [hpo b hbt, hother b hbt,
        map_waits_congr (s := s) fun u hu => by rw [hother u fun he => hnotp b (he ▸ hu)]]
      exact h.detached b
  · by_cases hbt : b = t
    · rw [hbt, hlog.1, List.map_map]
      exact (List.map_id (s.conds c)).symm ▸ h.nodup c
    · rw [hother b hbt]
      exact h.detached_nodup b
/-- The broadcast of `b` wakes the thread of the next detached node. -/
theorem CondOk.wake (h : CondOk s) {b : Tid} {nodes : List Tid}
    (hb : (s.threads b).pc = .bcastWake c t nodes) (hb' : (s'.threads b).pc = .bcast c nodes)
    (hbstate : (s'.threads b).waits = (s.threads b).waits)
    (hlog : (s'.threads b).detached = (s.threads b).detached ∧
      (s'.threads b).woken = (s.threads b).woken ++ [(t, (s.threads t).waits)])
    (hpc : (s'.threads t).pc = (s.threads t).pc) (hstate : (s'.threads t).state = .active)
    (htlog : (s'.threads t).waits = (s.threads t).waits ∧
      (s'.threads t).detached = (s.threads t).detached ∧ (s'.threads t).woken = (s.threads t).woken)
    (hother : ∀ u, u ≠ b → u ≠ t → s'.threads u = s.threads u) (hc : s'.conds = s.conds) :
    CondOk s' := by
  have hpb : (s.threads b).pc.pending = t :: nodes := by rw [hb]; rfl
  have hpb' : (s'.threads b).pc.pending = nodes := by rw [hb']; rfl
  obtain ⟨hwt, hwt', _⟩ := h.pending_mem b t (by rw [hpb]; exact List.mem_cons_self)
  have hne : t ≠ b := fun he => hwt (by rw [he, hb]; rfl)
  have hnodup : (t :: nodes).Nodup := by
    have := h.detached_nodup b
    rw [h.detached b, hpb, List.map_append, List.map_map] at this
    exact (List.map_id (t :: nodes)) ▸ this.of_append_right
  have hpc' : ∀ u, u ≠ b → (s'.threads u).pc = (s.threads u).pc := fun u hu => by
    by_cases hut : u = t
    · rw [hut, hpc]
    · rw [hother u hu hut]
  have hwaitOf : ∀ u, (s'.threads u).pc.waitOf = (s.threads u).pc.waitOf := fun u => by
    by_cases hu : u = b
    · rw [hu, hb, hb']; rfl
    · rw [hpc' u hu]
  have hbcastOf : ∀ u, (s'.threads u).pc.bcastOf = (s.threads u).pc.bcastOf := fun u => by
    by_cases hu : u = b
    · rw [hu, hb, hb']; rfl
    · rw [hpc' u hu]
  have hwaits : ∀ u, (s'.threads u).waits = (s.threads u).waits := fun u => by
    by_cases hu : u = b
    · rw [hu, hbstate]
    · by_cases hut : u = t
      · rw [hut, htlog.1]
      · rw [hother u hu hut]
  have hblocked : ∀ u, (s.threads u).pc.waitOf ≠ none → u ≠ t →
      (s'.threads u).state = (s.threads u).state := fun u hw hut => by
    rw [hother u (fun he => hw (by rw [he, hb]; rfl)) hut]
  -- `t` leaves the list of `b`, and it was in no other
  have hin : ∀ b₁ u, u ∈ (s'.threads b₁).pc.pending ↔ u ∈ (s.threads b₁).pc.pending ∧ u ≠ t := by
    intro b₁ u
    by_cases hb₁ : b₁ = b
    · rw [hb₁, hpb, hpb']
      grind
    · rw [hpc' b₁ hb₁]
      refine ⟨fun hu => ⟨hu, fun he => hb₁ ?_⟩, And.left⟩
      exact h.pending_disjoint b₁ b t (he ▸ hu) (by rw [hpb]; exact List.mem_cons_self)
  refine ⟨fun c' u hu => ?_, ?_, fun c' u hw hbl => ?_, fun b₁ u hu => ?_,
    fun b₁ b₂ u hu hu' => ?_, fun b₁ => ?_, fun b₁ => ?_⟩
  · rw [hc] at hu
    obtain ⟨hw, hbl, hnp⟩ := h.mem c' u hu
    have hut : u ≠ t := fun he => hnp b (by rw [hpb, he]; exact List.mem_cons_self)
    rw [hwaitOf, hblocked u (by rw [hw]; exact Option.some_ne_none c') hut]
    exact ⟨hw, hbl, fun b₁ hmem => hnp b₁ ((hin b₁ u).mp hmem).1⟩
  · rw [hc]
    exact h.nodup
  · have hut : u ≠ t := fun he => by rw [he, hstate] at hbl; cases hbl
    rw [hwaitOf] at hw
    rw [hblocked u (by rw [hw]; exact Option.some_ne_none c') hut] at hbl
    rw [hc]
    exact (h.of_blocked c' u hw hbl).imp_right fun ⟨b₁, hmem⟩ => ⟨b₁, (hin b₁ u).mpr ⟨hmem, hut⟩⟩
  · obtain ⟨hu, hut⟩ := (hin b₁ u).mp hu
    obtain ⟨hw, hw', hbl⟩ := h.pending_mem b₁ u hu
    rw [hwaitOf, hbcastOf, hblocked u hw hut]
    exact ⟨hw, hw', hbl⟩
  · exact h.pending_disjoint b₁ b₂ u ((hin b₁ u).mp hu).1 ((hin b₂ u).mp hu').1
  · simp only [hwaits]
    have hd := h.detached b₁
    by_cases hb₁ : b₁ = b
    · rw [hb₁, hpb] at hd
      rw [hb₁, hpb', hlog.1, hlog.2, hd]
      simp
    · by_cases hb₁t : b₁ = t
      · rw [hb₁t, htlog.2.1, htlog.2.2, hpc, ← hb₁t]
        exact hd
      · rw [hother b₁ hb₁ hb₁t]
        exact hd
  · have hd := h.detached_nodup b₁
    by_cases hb₁ : b₁ = b
    · rw [hb₁, hlog.1, ← hb₁]
      exact hd
    · by_cases hb₁t : b₁ = t
      · rw [hb₁t, htlog.2.1, ← hb₁t]
        exact hd
      · rw [hother b₁ hb₁ hb₁t]
        exact hd
/-! ## The functions of `condition.c` -/

/-- A running thread at a point where it may begin a call. -/
structure Plain (s : Threads) : Prop where
  lockOf : s.self.pc.lockOf = none
  waitOf : s.self.pc.waitOf = none
  pending : s.self.pc.pending = []
  active : s.self.state = .active
  notIdle : ¬ InIdle s.self

theorem Inv.plain (h : Inv s) (hu : s.AtUser) : Plain s := by
  have hs := (h.thread s.current).state
  have hu' : (s.threads s.current).pc = .user := hu
  unfold StateOk at hs
  rw [hu'] at hs
  unfold AtUser at hu
  exact ⟨by rw [hu]; rfl, by rw [hu]; rfl, by rw [hu]; rfl, hs, by simp [InIdle, hu]⟩

/-- **`condition_wait`** up to the call of `schedule`: the thread is queued and the mutex is given
up in one step. -/
theorem conditionWait_spec (h : Inv s) (hp : Plain s) (hcnt : s.preemptCnt = 0)
    (hm : s.current ∈ (s.mutexes m).holders) :
    ∃ s', s.conditionWait c m = .ok s' ∧ Inv s' ∧ s'.current = s.current ∧
      s'.self.pc = .waitSched c m ∧ s'.conds c = s.conds c ++ [s.current] ∧
      (s'.mutexes m).owner ≠ some s.current := by
  let s₁ := (s.modify s.current (Thread.beginWait (.waitSched c m))).setCond c
    (s.conds c ++ [s.current])
  have hself : s₁.self = s.self.beginWait (.waitSched c m) :=
    threads_modify_self s s.current (Thread.beginWait (.waitSched c m))
  have h₁ : Inv s₁ := by
    refine ⟨?_, ?_, ?_⟩
    · refine (h.toMachineOk.move (f := Thread.beginWait (.waitSched c m))
        ⟨Or.inl ⟨rfl, rfl⟩, fun _ => rfl, fun hn => absurd trivial hn⟩ ?_ ?_ ?_).congr rfl
        ⟨rfl, rfl, rfl, rfl, rfl, rfl, rfl, rfl, rfl, rfl⟩
      · exact iff_of_false (by simp [InIdle]) hp.notIdle
      · simp [Joins]
      · exact fun hn => absurd hcnt hn
    · exact h.locks.frame rfl (sameLock_modify (f := Thread.beginWait (.waitSched c m))
        ⟨hp.lockOf.symm, fun hn => absurd hp.lockOf hn⟩)
    · exact h.conds.beginWait hp.waitOf hp.pending hself
        (fun u hu => threads_modify_ne _ _ _ _ hu) (by simp [s₁]) (fun c' hc' => by simp [s₁, hc'])
  obtain ⟨s', hexec, hinv, hcur, hself', hconds, _, howner⟩ :=
    mutexUnlock_spec h₁ hm (by rw [hself]; rfl)
  refine ⟨s', ?_, hinv, hcur, by rw [hself', hself]; rfl, by rw [hconds]; simp [s₁], howner⟩
  rw [← hexec]
  rfl

/-- The state after `thread_activate` of a thread that waits for a condition. -/
theorem conditionWake_eq (h : Inv s) (hw : (s.threads t).pc.waitOf = some c)
    (hb : (s.threads t).state = .blocked) {s₁ : Threads} (hthreads : s₁.threads = s.threads)
    (halloc : s₁.allocated = s.allocated) (hq : s₁.runqueue = s.runqueue) :
    s₁.conditionWake c t = .ok ((s₁.modify t ({ · with signalled := true })).activated t) := by
  have ha : s.allocated t = true := h.toMachineOk.allocated_of_pc fun he => by
    rw [he] at hw
    cases hw
  have hnotrq : t ∉ s.runqueue := h.runqueue.notMem (by rw [hb]; decide)
  have hact := threadActivate_blocked (s := s₁.modify t ({ · with signalled := true })) (t := t)
    (by rw [allocated_modify, halloc]; exact ha) (by rw [threads_modify_self, hthreads]; exact hb)
    (by rw [runqueue_modify, hq]; exact hnotrq)
  simp only [conditionWake, waitNode, hthreads, hw, if_true, touch, halloc, ha, ok_bind, hact]

theorem threads_wake : ((s.modify t ({ · with signalled := true })).activated t).threads =
    (s.modify t Thread.wake).threads := by
  simp [Threads.activated, modify, Thread.wake]

theorem ThreadOk.wake {th : Thread} {running : Prop} (h : ThreadOk th running) (hr : ¬ running)
    (hw : th.pc.waitOf ≠ none) : ThreadOk th.wake False where
  state := by
    unfold StateOk Thread.wake
    revert hw
    cases th.pc <;> simp [Pc.waitOf]
  unactivated := fun hu => Bool.noConfusion hu
  resume := fun _ => h.resume hr

/-- Everything but the conditions, when a waiting thread is woken. -/
theorem MachineOk.wake (h : MachineOk s) (hb : (s.threads t).state = .blocked) (hne : t ≠ s.current)
    (hw : (s.threads t).pc.waitOf ≠ none) :
    MachineOk ((s.modify t ({ · with signalled := true })).activated t) :=
  (h.activated (f := Thread.wake) hb hne ((h.thread t).wake hne hw) rfl rfl).congr threads_wake
    ⟨rfl, rfl, rfl, rfl, rfl, rfl, rfl, rfl, rfl, rfl⟩

theorem sameLock_wake (hw : (s.threads t).pc.waitOf ≠ none) (u : Tid) :
    SameLock (s.threads u) (((s.modify t ({ · with signalled := true })).activated t).threads
      u) := by
  rw [threads_wake]
  refine sameLock_modify (f := Thread.wake) ⟨rfl, fun hn => absurd ?_ hn⟩ u
  revert hw
  cases (s.threads t).pc <;> simp [Pc.lockOf, Pc.waitOf]

/-- **`condition_signal`** wakes the first thread of the waitqueue. -/
theorem conditionSignal_spec (h : Inv s) (hp : Plain s) {rest : List Tid}
    (hq : s.conds c = t :: rest) :
    ∃ s', s.conditionSignal c = .ok s' ∧ Inv s' ∧
      s' = ((s.setCond c rest).modify t ({ · with signalled := true })).activated t := by
  obtain ⟨hw, hb, _⟩ := h.conds.mem c t (by rw [hq]; exact List.mem_cons_self)
  have hw' : (s.threads t).pc.waitOf ≠ none := by rw [hw]; exact Option.some_ne_none c
  have hne : t ≠ s.current := fun he => hw' (by rw [he]; exact hp.waitOf)
  refine ⟨_, ?_, ⟨?_, ?_, ?_⟩, rfl⟩
  · simp only [conditionSignal, hq]
    exact conditionWake_eq h hw hb rfl rfl rfl
  · exact (h.toMachineOk.wake hb hne hw').congr rfl ⟨rfl, rfl, rfl, rfl, rfl, rfl,
      rfl, rfl, rfl, rfl⟩
  · exact h.locks.frame rfl (sameLock_wake hw')
  · refine h.conds.signal hq ?_ ?_ ?_ ?_ (fun u hu => ?_) (conds_setCond_self _ _ _)
      (fun c' hc' => conds_setCond_ne _ _ _ _ hc')
    all_goals rw [show ∀ u, ((((s.setCond c rest).modify t
      ({ · with signalled := true })).activated t).threads u) =
          (s.modify t Thread.wake).threads u from
      fun u => congrFun threads_wake u]
    · rw [threads_modify_self]; rfl
    · rw [threads_modify_self]; rfl
    · rw [threads_modify_self]; rfl
    · rw [threads_modify_self]; exact ⟨rfl, rfl⟩
    · exact threads_modify_ne _ _ _ _ hu

/-- **`condition_broadcast`** up to its loop detaches the waitqueue. -/
theorem conditionBroadcast_inv (h : Inv s) (hp : Plain s) : Inv (s.conditionBroadcast c) := by
  let numbered := (s.conds c).map fun t => (t, (s.threads t).waits)
  have hself : (s.conditionBroadcast c).threads s.current =
      s.self.beginBroadcast c (s.conds c) numbered :=
    threads_modify_self s s.current (Thread.beginBroadcast c (s.conds c) numbered)
  refine ⟨?_, ?_, ?_⟩
  · refine (h.toMachineOk.move (f := Thread.beginBroadcast c (s.conds c) numbered)
      ⟨hp.active, (h.thread s.current).unactivated, fun hn => absurd trivial hn⟩ ?_ ?_ ?_).congr rfl
      ⟨rfl, rfl, rfl, rfl, rfl, rfl, rfl, rfl, rfl, rfl⟩
    · exact iff_of_false (by simp [InIdle, Thread.beginBroadcast]) hp.notIdle
    · simp [Joins, Thread.beginBroadcast]
    · exact fun _ => Or.inr (Option.some_ne_none c)
  · exact h.locks.frame rfl (sameLock_modify (f := Thread.beginBroadcast c (s.conds c) numbered)
      ⟨hp.lockOf.symm, fun hn => absurd hp.lockOf hn⟩)
  · exact h.conds.detach hp.waitOf hp.pending (by rw [hself]; rfl) (by rw [hself]; exact ⟨rfl, rfl⟩)
      (fun u hu => threads_modify_ne s s.current u
        (Thread.beginBroadcast c (s.conds c) numbered) hu)
      (conds_setCond_self _ _ _) (fun c' hc' => conds_setCond_ne _ _ _ _ hc')

/-- **The loop of `condition_broadcast`** wakes the thread of the next node, which waits in the very
`condition_wait` in which its node was detached. -/
theorem bcastWake_spec (h : Inv s) {nodes : List Tid} (hpc : s.self.pc = .bcastWake c t nodes) :
    ∃ s', s.resumeCall = .ok s' ∧ Inv s' ∧
      s' = ((s.modify t ({ · with signalled := true })).activated t).modify s.current
        (Thread.nextNode c (t, (s.threads t).waits) nodes) := by
  obtain ⟨hw', hw, hb⟩ := h.conds.pending_mem s.current t
    (by rw [← self, hpc]; exact List.mem_cons_self)
  rw [← self, hpc] at hw
  have hne : t ≠ s.current := fun he => hw' (by rw [he, ← self, hpc]; rfl)
  let s₁ := (s.modify t ({ · with signalled := true })).activated t
  have hthreads : s₁.threads = (s.modify t Thread.wake).threads := threads_wake
  have hself : s₁.self = s.self := by
    rw [self, hthreads]
    exact threads_modify_ne _ _ _ _ hne.symm
  have hwaits : (s₁.threads t).waits = (s.threads t).waits := by
    rw [hthreads, threads_modify_self]
    rfl
  refine ⟨_, ?_, ⟨?_, ?_, ?_⟩, rfl⟩
  · simp only [resumeCall, hpc, conditionWake_eq h hw hb rfl rfl rfl, ok_bind, pure_eq_ok]
    exact congrArg (fun w => Except.ok (s₁.modify s.current (Thread.nextNode c (t, w) nodes)))
      hwaits
  · have hs := h.thread s.current
    refine (h.toMachineOk.wake hb hne hw').move (s := s₁)
      (f := Thread.nextNode c (t, (s.threads t).waits) nodes) ⟨?_, ?_,
        fun hn => absurd trivial hn⟩ ?_ ?_ ?_
    · have := hs.state
      rw [← self, StateOk, hpc] at this
      rw [hself]
      exact this
    · rw [hself]
      exact hs.unactivated
    · exact iff_of_false (by simp [InIdle, Thread.nextNode]) (by simp [InIdle, hself, hpc])
    · simp [Joins, Thread.nextNode]
    · exact fun _ => Or.inr (Option.some_ne_none c)
  · refine (@LockOk.frame _ s₁ h.locks rfl (sameLock_wake hw')).frame rfl (sameLock_modify
      (f := Thread.nextNode c (t, (s.threads t).waits) nodes) ?_)
    have : (s₁.threads s.current) = s.self := hself
    exact ⟨by rw [this, hpc]; rfl, fun _ => rfl⟩
  · have hcur : (s₁.modify s.current (Thread.nextNode c (t, (s.threads t).waits) nodes)).threads
        s.current = s.self.nextNode c (t, (s.threads t).waits) nodes := by
      rw [threads_modify_self]
      exact congrArg _ hself
    have ht : (s₁.modify s.current (Thread.nextNode c (t, (s.threads t).waits) nodes)).threads t =
        (s.threads t).wake := by
      rw [threads_modify_ne _ _ _ _ hne, hthreads, threads_modify_self]
    refine h.conds.wake (b := s.current) hpc (by rw [hcur]; rfl) (by rw [hcur]; rfl)
      (by rw [hcur]; exact ⟨rfl, rfl⟩) (by rw [ht]; rfl) (by rw [ht]; rfl)
      (by rw [ht]; exact ⟨rfl, rfl, rfl⟩) (fun u hu hut => ?_) rfl
    rw [threads_modify_ne _ _ _ _ hu, hthreads, threads_modify_ne _ _ _ _ hut]

end Threads

end AuOs
