import Mathlib

/-!
# Postconditions of computations that may fail

* `Post x E Q` — the computation `x` returns a value of `Q` or fails with an error of `E`.
* `Post.bind`, `Post.mono` — the rules for sequencing and for weakening.
* `Post.foldlM` — the rule for a loop over a list, with an invariant on the part that is done.
* `Alike x y R` — the computations `x` and `y` fail with the same error or return values related by
  `R`; `Alike.bind` is the rule for sequencing.
-/

set_option autoImplicit false

/-- The computation returns a value of `Q` or fails with an error of `E`. -/
def Post {ε α : Type} (x : Except ε α) (E : ε → Prop) (Q : α → Prop) : Prop :=
  match x with
  | .ok a => Q a
  | .error e => E e

namespace Post

variable {ε α β : Type} {x : Except ε α} {f : α → Except ε β} {E E' : ε → Prop} {P Q : α → Prop}
  {R : β → Prop} {a : α}

theorem ok (h : Q a) : Post (.ok a : Except ε α) E Q := h

theorem error {e : ε} (h : E e) : Post (.error e : Except ε α) E Q := h

/-- **Sequencing.** -/
theorem bind (hx : Post x E P) (hf : ∀ a, P a → Post (f a) E R) : Post (x >>= f) E R := by
  cases x with
  | error e => exact hx
  | ok a => exact hf a hx

theorem mono (hx : Post x E P) (h : ∀ a, P a → Q a) : Post x E Q := by
  cases x with
  | error e => exact hx
  | ok a => exact h a hx

theorem weaken (hx : Post x E Q) (h : ∀ e, E e → E' e) : Post x E' Q := by
  cases x with
  | error e => exact h e hx
  | ok a => exact hx

theorem and (hP : Post x E P) (hQ : Post x E Q) : Post x E fun a => P a ∧ Q a := by
  cases x with
  | error e => exact hP
  | ok a => exact ⟨hP, hQ⟩

/-- What holds of the value, however the computation may fail. -/
theorem and_ok (hP : Post x E P) (hQ : Post x (fun _ => True) Q) : Post x E fun a => P a ∧ Q a := by
  cases x with
  | error e => exact hP
  | ok a => exact ⟨hP, hQ⟩

/-- The value is passed on. -/
theorem of_map {g : α → β} (h : Post (x >>= fun a => .ok (g a)) E R) :
    Post x E fun a => R (g a) := by
  cases x with
  | error e => exact h
  | ok a => exact h

/-- **Loops.**  The invariant speaks of the elements that were worked on already. -/
theorem foldlM {g : β → α → Except ε β} {I : List α → β → Prop} (l : List α) {b : β} (h : I [] b)
    (hstep : ∀ done a, a ∈ l → ∀ b, I done b → Post (g b a) E (I (done ++ [a]))) :
    Post (l.foldlM g b) E (I l) := by
  suffices hgen : ∀ (rest done : List α) (b : β), I done b → rest ⊆ l →
      Post (rest.foldlM g b) E (I (done ++ rest)) from hgen l [] b h (List.Subset.refl l)
  intro rest
  induction rest with
  | nil => intro done b hb _; rw [List.append_nil]; exact hb
  | cons a rest ih =>
    intro done b hb hsub
    rw [List.foldlM_cons]
    refine (hstep done a (hsub List.mem_cons_self) b hb).bind fun b' hb' => ?_
    rw [List.append_cons]
    exact ih _ b' hb' fun x hx => hsub (List.mem_cons_of_mem _ hx)

theorem any : Post x (fun _ => True) fun _ => True := by
  cases x <;> exact trivial

/-- A computation that is known to return. -/
theorem of_ok (h : ∃ a, x = .ok a ∧ Q a) : Post x E Q := by
  obtain ⟨a, rfl, ha⟩ := h
  exact ha

/-- A computation that cannot fail returns. -/
theorem returns (h : Post x (fun _ => False) Q) : ∃ a, x = .ok a ∧ Q a := by
  cases x with
  | error e => exact h.elim
  | ok a => exact ⟨a, rfl, h⟩

/-- What holds of the value, once the computation is known to return. -/
theorem of_eq (h : Post x E Q) (hx : x = .ok a) : Q a := by
  subst hx
  exact h

theorem err_of_eq {e : ε} (h : Post x E Q) (hx : x = .error e) : E e := by
  subst hx
  exact h

end Post

/-- Both computations return, values related by `R`, or both fail, with the same error. -/
def Alike {ε α β : Type} (x : Except ε α) (y : Except ε β) (R : α → β → Prop) : Prop :=
  match x, y with
  | .ok a, .ok b => R a b
  | .error e, .error e' => e = e'
  | _, _ => False

namespace Alike

variable {ε α β α' β' : Type} {x : Except ε α} {y : Except ε β} {R : α → β → Prop}
  {R' : α' → β' → Prop}

theorem ok {a : α} {b : β} (h : R a b) : Alike (.ok a : Except ε α) (.ok b) R := h

theorem error (e : ε) : Alike (.error e : Except ε α) (.error e : Except ε β) R := rfl

/-- The same test in both computations. -/
theorem same (x : Except ε α) : Alike x x Eq := by
  cases x with
  | error e => exact rfl
  | ok a => exact rfl

/-- The same computation twice, with what holds of its value. -/
theorem of_post {E : ε → Prop} {Q : α → Prop} (h : Post x E Q) :
    Alike x x fun a b => a = b ∧ Q a := by
  cases x with
  | error e => exact rfl
  | ok a => exact ⟨rfl, h⟩

/-- **Sequencing.** -/
theorem bind {f : α → Except ε α'} {g : β → Except ε β'} (h : Alike x y R)
    (hfg : ∀ a b, R a b → Alike (f a) (g b) R') : Alike (x >>= f) (y >>= g) R' := by
  cases x with
  | error e =>
    cases y with
    | error e' => exact h
    | ok b => exact h.elim
  | ok a =>
    cases y with
    | error e' => exact h.elim
    | ok b => exact hfg a b h

/-- The relation along with a postcondition of the second computation. -/
theorem and_post {E : ε → Prop} {Q : β → Prop} (h : Alike x y R) (hy : Post y E Q) :
    Alike x y fun a b => R a b ∧ Q b := by
  cases x with
  | error e =>
    cases y with
    | error e' => exact h
    | ok b => exact h.elim
  | ok a =>
    cases y with
    | error e' => exact h.elim
    | ok b => exact ⟨h, hy⟩

theorem mono {S : α → β → Prop} (h : Alike x y R) (hRS : ∀ a b, R a b → S a b) : Alike x y S := by
  cases x with
  | error e =>
    cases y with
    | error e' => exact h
    | ok b => exact h.elim
  | ok a =>
    cases y with
    | error e' => exact h.elim
    | ok b => exact hRS a b h

/-- The second computation returns if the first does. -/
theorem of_eq {a : α} (h : Alike x y R) (hx : x = .ok a) : ∃ b, y = .ok b ∧ R a b := by
  subst hx
  cases y with
  | error e => exact h.elim
  | ok b => exact ⟨b, rfl, h⟩

/-- A postcondition of one computation holds of the other. -/
theorem post {E : ε → Prop} {Q : β → Prop} (h : Alike x y R) (hy : Post y E Q) :
    Post x E fun a => ∃ b, y = .ok b ∧ R a b ∧ Q b := by
  cases x with
  | error e =>
    cases y with
    | error e' => exact (show e = e' from h) ▸ hy
    | ok b => exact h.elim
  | ok a =>
    cases y with
    | error e' => exact h.elim
    | ok b => exact ⟨b, rfl, h, hy⟩

end Alike
