import Mathlib

/-!
# Queues that are served in turn

A system with a queue, in which a step either adds to the end of the queue or gives the first one
its turn.

* `Queue` — what is seen of a state: the queue, how many turns there have been, and whose turn it
  is.
* `Turn` — what a step may do.
* `Queue.waits` — the place in the queue goes down by one with each turn.
* `Queue.comes` — **the one at place `k` has the turn `k + 1`** from now.
* `Beats` — a run that counts the beats of a clock; `Queue.Slices` — what is left of a turn goes
  down with each beat for as long as anybody waits.
* `Slices.soon` — **the one at place `k` has its turn** after at most `k` whole slices and the rest
  of the one that is being used.
-/

set_option autoImplicit false

/-- A queue with turns. -/
structure Queue (State α : Type) where
  queue : State → List α
  turns : State → Nat
  served : State → α

namespace Queue

variable {State α : Type} {q : Queue State α} {I : State → Prop} {r : State → State → Prop}
  {s s' : State} {t : α} {k : Nat}

/-- A step that serves nobody, or the first of the queue. -/
inductive Turn (q : Queue State α) (s s' : State) : Prop where
  | stay (new : List α) (queue : q.queue s' = q.queue s ++ new) (turns : q.turns s' = q.turns s)
      (served : q.served s' = q.served s)
  | serve (new : List α) (queue : q.queue s' = (q.queue s).tail ++ new)
      (turns : q.turns s' = q.turns s + 1)
      (served : ∀ t, (q.queue s).head? = some t → q.served s' = t)

theorem Turn.turns_le (h : q.Turn s s') : q.turns s ≤ q.turns s' ∧ q.turns s' ≤ q.turns s + 1 := by
  cases h with
  | stay new hqueue hturns hserved => omega
  | serve new hqueue hturns hserved => omega

/-- One step, for the one at a place of the queue. -/
theorem Turn.waits (h : q.Turn s s') (ht : (q.queue s)[k]? = some t)
    (hle : q.turns s' ≤ q.turns s + k) : (q.queue s')[k - (q.turns s' - q.turns s)]? = some t := by
  have hk : k < (q.queue s).length := (List.getElem?_eq_some_iff.mp ht).1
  cases h with
  | stay new hqueue hturns hserved =>
    rw [hqueue, hturns, Nat.sub_self, Nat.sub_zero, List.getElem?_append_left hk]
    exact ht
  | serve new hqueue hturns hserved =>
    have hk0 : k - 1 + 1 = k := by omega
    rw [hqueue, hturns, Nat.add_sub_cancel_left,
      List.getElem?_append_left (by rw [List.length_tail]; omega), List.getElem?_tail, hk0]
    exact ht

/-- One step that gives the first one its turn. -/
theorem Turn.first (h : q.Turn s s') (ht : (q.queue s)[0]? = some t)
    (hlt : q.turns s < q.turns s') : q.turns s' = q.turns s + 1 ∧ q.served s' = t := by
  cases h with
  | stay new hqueue hturns hserved => omega
  | serve new hqueue hturns hserved => exact ⟨hturns, hserved t (by rwa [List.head?_eq_getElem?])⟩

section Run

variable (hstep : ∀ a b, I a → r a b → I b ∧ q.Turn a b)

include hstep

theorem turns_mono (hI : I s) (hrun : Relation.ReflTransGen r s s') : I s' ∧
    q.turns s ≤ q.turns s' := by
  induction hrun with
  | refl => exact ⟨hI, Nat.le_refl _⟩
  | tail _ hlast ih =>
    obtain ⟨hI', hturn⟩ := hstep _ _ ih.1 hlast
    exact ⟨hI', ih.2.trans hturn.turns_le.1⟩

/-- **The place in the queue** goes down by one with each turn. -/
theorem waits (hI : I s) (hrun : Relation.ReflTransGen r s s') (ht : (q.queue s)[k]? = some t)
    (hle : q.turns s' ≤ q.turns s + k) : (q.queue s')[k - (q.turns s' - q.turns s)]? = some t := by
  induction hrun with
  | refl => rwa [Nat.sub_self, Nat.sub_zero]
  | @tail b c hrun hlast ih =>
    obtain ⟨hIb, hmono⟩ := turns_mono hstep hI hrun
    obtain ⟨-, hturn⟩ := hstep _ _ hIb hlast
    have hbc := hturn.turns_le.1
    have hplace := hturn.waits (ih (by omega)) (by omega)
    rwa [show k - (q.turns b - q.turns s) - (q.turns c - q.turns b) =
      k - (q.turns c - q.turns s) by omega] at hplace

/-- **The one at place `k`** has the turn `k + 1` from now, in every run that comes to it. -/
theorem comes (hI : I s) (hrun : Relation.ReflTransGen r s s') (ht : (q.queue s)[k]? = some t)
    (hlt : q.turns s + k < q.turns s') :
    ∃ mid, Relation.ReflTransGen r s mid ∧ Relation.ReflTransGen r mid s' ∧
      q.turns mid = q.turns s + k + 1 ∧ q.served mid = t := by
  induction hrun with
  | refl => omega
  | @tail b c hrun hlast ih =>
    by_cases hb : q.turns s + k < q.turns b
    · obtain ⟨mid, hmid, hrest, hturns⟩ := ih hb
      exact ⟨mid, hmid, hrest.tail hlast, hturns⟩
    · obtain ⟨hIb, hmono⟩ := turns_mono hstep hI hrun
      obtain ⟨-, hturn⟩ := hstep _ _ hIb hlast
      have hle := hturn.turns_le.2
      have hplace := waits hstep hI hrun ht (by omega)
      rw [show k - (q.turns b - q.turns s) = 0 by omega] at hplace
      obtain ⟨hturns, hserved⟩ := hturn.first hplace (by omega)
      exact ⟨c, hrun.tail hlast, .refl, by omega, hserved⟩

end Run

/-! ## Slices -/

/-- A run in which `n` steps are beats of a clock. -/
inductive Beats (r beat : State → State → Prop) : Nat → State → State → Prop where
  | refl (s : State) : Beats r beat 0 s s
  | step {n : Nat} {a b c : State} (h : Beats r beat n a b) (hstep : r b c) : Beats r beat n a c
  | beat {n : Nat} {a b c : State} (h : Beats r beat n a b) (hbeat : beat b c) :
    Beats r beat (n + 1) a c

variable {beat : State → State → Prop} {slice n : Nat} {left : State → Nat}

theorem Beats.run (h : Beats r beat n s s') :
    Relation.ReflTransGen (fun a b => r a b ∨ beat a b) s s' := by
  induction h with
  | refl => exact .refl
  | step _ hstep ih => exact ih.tail (.inl hstep)
  | beat _ hbeat ih => exact ih.tail (.inr hbeat)

/-- The turns of a queue last for at most `slice` beats while anybody waits; `left` says how many of
them are left. -/
structure Slices (q : Queue State α) (I : State → Prop)
    (r beat : State → State → Prop) (slice : Nat) (left : State → Nat) : Prop where
  turn : ∀ a b, I a → r a b ∨ beat a b → I b ∧ q.Turn a b
  keeps : ∀ a b, I a → r a b → q.turns b = q.turns a → left b ≤ left a
  spends : ∀ a b, I a → q.queue a ≠ [] → beat a b → q.turns b = q.turns a → left b < left a
  next : ∀ a b, I a → r a b ∨ beat a b → q.turns a < q.turns b → left b ≤ slice
  pos : ∀ a, 0 < left a

/-- **The beats of a run** in which someone waits are at most those of the turns there have been. -/
theorem Slices.beats_le (h : Slices q I r beat slice left) (hI : I s) (hrun : Beats r beat n s s')
    (ht : (q.queue s)[k]? = some t) (hle : q.turns s' ≤ q.turns s + k) :
    n + left s' ≤ slice * (q.turns s' - q.turns s) + left s := by
  induction hrun with
  | refl => rw [Nat.sub_self]; omega
  | @step n s b c hrun hstep ih =>
    obtain ⟨hIb, hmono⟩ := turns_mono h.turn hI hrun.run
    obtain ⟨-, hturn⟩ := h.turn b c hIb (.inl hstep)
    have hbefore := ih hI ht (by have := hturn.turns_le.1; omega)
    rcases Nat.eq_or_lt_of_le hturn.turns_le.1 with heq | hlt
    · have := h.keeps b c hIb hstep heq.symm
      rw [← heq]
      omega
    · have := h.next b c hIb (.inl hstep) hlt
      have hsucc : q.turns c - q.turns s = q.turns b - q.turns s + 1 := by
        have := hturn.turns_le.2
        omega
      rw [hsucc, Nat.mul_succ]
      omega
  | @beat n s b c hrun hbeat ih =>
    obtain ⟨hIb, hmono⟩ := turns_mono h.turn hI hrun.run
    obtain ⟨-, hturn⟩ := h.turn b c hIb (.inr hbeat)
    have hbefore := ih hI ht (by have := hturn.turns_le.1; omega)
    rcases Nat.eq_or_lt_of_le hturn.turns_le.1 with heq | hlt
    · have hplace := waits h.turn hI hrun.run ht (by omega)
      have hwaits : q.queue b ≠ [] := fun hnil => by rw [hnil] at hplace; cases hplace
      have := h.spends b c hIb hwaits hbeat heq.symm
      rw [← heq]
      omega
    · have := h.next b c hIb (.inr hbeat) hlt
      have := h.pos b
      have hsucc : q.turns c - q.turns s = q.turns b - q.turns s + 1 := by
        have := hturn.turns_le.2
        omega
      rw [hsucc, Nat.mul_succ]
      omega

/-- **The one at place `k`** has its turn after at most `k` slices and what is left of the present
one. -/
theorem Slices.soon (h : Slices q I r beat slice left) (hI : I s) (hrun : Beats r beat n s s')
    (ht : (q.queue s)[k]? = some t) (hn : slice * k + left s ≤ n) :
    ∃ mid, Relation.ReflTransGen (fun a b => r a b ∨ beat a b) s mid ∧
      Relation.ReflTransGen (fun a b => r a b ∨ beat a b) mid s' ∧ q.turns mid = q.turns s + k + 1 ∧
      q.served mid = t := by
  refine comes h.turn hI hrun.run ht ?_
  by_contra hle
  have hbeats := h.beats_le hI hrun ht (by omega)
  have hturns : slice * (q.turns s' - q.turns s) ≤ slice * k := Nat.mul_le_mul_left _ (by omega)
  have := h.pos s'
  omega

end Queue
