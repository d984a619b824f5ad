import Mathlib
import AuOs.Lib.Post

/-!
# Computations that leave a trace

A computation that records events in the order in which they happen, and then returns or fails.
What was recorded before a failure stays in the trace.

* `Traced` — the monad; `Traced.mark` records one event, `Traced.lift` is a computation without
  events.
* `trace_bind`, `result_bind` — the two halves of a sequence; the result does not depend on the
  trace.
* `Traced.Only` — every recorded event satisfies `P`, and a value that is returned satisfies `Q`.
  `Only.bind` is the rule for sequencing.
-/

set_option autoImplicit false

/-- The events recorded, and how the computation ends. -/
structure Traced (ι ε α : Type) where
  trace : List ι
  result : Except ε α

namespace Traced

variable {ι ε α β : Type}

instance : Monad (Traced ι ε) where
  pure a := ⟨[], .ok a⟩
  bind x f :=
    match x.result with
    | .ok a => ⟨x.trace ++ (f a).trace, (f a).result⟩
    | .error e => ⟨x.trace, .error e⟩

/-- Record an event. -/
def mark (i : ι) : Traced ι ε Unit := ⟨[i], .ok ()⟩

/-- A computation that records nothing. -/
def lift (x : Except ε α) : Traced ι ε α := ⟨[], x⟩

@[simp] theorem result_lift (x : Except ε α) : (lift x : Traced ι ε α).result = x := rfl

@[simp] theorem trace_lift (x : Except ε α) : (lift x : Traced ι ε α).trace = [] := rfl

@[simp] theorem result_pure (a : α) : (pure a : Traced ι ε α).result = .ok a := rfl

@[simp] theorem trace_pure (a : α) : (pure a : Traced ι ε α).trace = [] := rfl

variable {x : Traced ι ε α} {f : α → Traced ι ε β} {i : ι}

@[simp] theorem result_bind : (x >>= f).result = x.result >>= fun a => (f a).result := by
  change Traced.result (match x.result with | .ok a => _ | .error e => _) = _
  cases x.result <;> rfl

/-- The second half of a sequence is traced only if the first half returns. -/
theorem trace_bind : (x >>= f).trace =
    x.trace ++ match x.result with
      | .ok a => (f a).trace
      | .error _ => [] := by
  change Traced.trace (match x.result with | .ok a => _ | .error e => _) = _
  cases x.result with
  | ok a => rfl
  | error e => exact (List.append_nil _).symm

@[simp] theorem result_mark : (mark i : Traced ι ε Unit).result = .ok () := rfl

@[simp] theorem trace_mark_bind (g : Unit → Traced ι ε β) :
    (mark i >>= g).trace = i :: (g ()).trace := rfl

@[simp] theorem result_mark_bind (g : Unit → Traced ι ε β) :
    (mark i >>= g).result = (g ()).result := rfl

/-- Every recorded event satisfies `P`, and a returned value satisfies `Q`. -/
structure Only (x : Traced ι ε α) (P : ι → Prop) (Q : α → Prop) : Prop where
  events : ∀ i ∈ x.trace, P i
  value : ∀ a, x.result = .ok a → Q a

namespace Only

variable {P : ι → Prop} {Q : α → Prop} {R : β → Prop}

theorem pure {a : α} (h : Q a) : Only (Pure.pure a : Traced ι ε α) P Q :=
  ⟨nofun, fun _ ha => Except.ok.inj ha ▸ h⟩

theorem lift {y : Except ε α} (h : ∀ a, y = .ok a → Q a) :
    Only (Traced.lift y : Traced ι ε α) P Q :=
  ⟨nofun, h⟩

theorem weaken {P' : ι → Prop} (h : Only x P Q) (hP : ∀ i, P i → P' i) : Only x P' Q :=
  ⟨fun i hi => hP i (h.events i hi), h.value⟩

/-- **Sequencing.** -/
theorem bind (hx : Only x P Q) (hf : ∀ a, Q a → Only (f a) P R) : Only (x >>= f) P R := by
  refine ⟨?_, ?_⟩
  · intro i hi
    rw [trace_bind] at hi
    rcases List.mem_append.mp hi with hi | hi
    · exact hx.events i hi
    · cases hr : x.result with
      | error e => rw [hr] at hi; cases hi
      | ok a => rw [hr] at hi; exact (hf a (hx.value a hr)).events i hi
  · intro b hb
    rw [result_bind] at hb
    cases hr : x.result with
    | error e => rw [hr] at hb; cases hb
    | ok a => rw [hr] at hb; exact (hf a (hx.value a hr)).value b hb

theorem mark {g : Unit → Traced ι ε β} (hi : P i) (hg : Only (g ()) P R) :
    Only (Traced.mark i >>= g) P R := by
  refine ⟨?_, hg.value⟩
  intro j hj
  rcases List.mem_cons.mp hj with rfl | hj
  · exact hi
  · exact hg.events j hj

end Only

end Traced
