import Mathlib

/-!
# Splicing into a list

* `splice l i d` — `l` with `d` in place of the elements from position `i` on, longer if `d` ends
  past its end.
* `length_splice`, `splice_end` — the length, and the case without a rest.
* `splice_append` — two splices one behind the other are one.
* `take_splice`, `drop_splice` — what is before and from the splice on.
-/

set_option autoImplicit false

/-- `l` with `d` in place of the elements from `i` on. -/
def splice {α : Type} (l : List α) (i : Nat) (d : List α) : List α :=
  l.take i ++ d ++ l.drop (i + d.length)

section Splice

variable {α : Type} {l d e : List α} {i : Nat}

theorem splice_nil (l : List α) (i : Nat) : splice l i [] = l := by
  simp [splice]

theorem length_splice (hi : i ≤ l.length) : (splice l i d).length =
    max l.length (i + d.length) := by
  unfold splice
  rw [List.length_append, List.length_append, List.length_take, List.length_drop]
  omega

/-- Inside the list the length stays. -/
theorem length_splice_of_le (h : i + d.length ≤ l.length) : (splice l i d).length = l.length := by
  rw [length_splice (by omega)]
  omega

/-- Nothing of the list is left behind `d`. -/
theorem splice_end (h : l.length ≤ i + d.length) : splice l i d = l.take i ++ d := by
  rw [splice, List.drop_eq_nil_of_le h, List.append_nil]

theorem take_splice (hi : i ≤ l.length) : (splice l i d).take (i + d.length) = l.take i ++ d := by
  have hlen : (l.take i ++ d).length = i + d.length := by
    rw [List.length_append, List.length_take]
    omega
  rw [splice, ← hlen, List.take_left]

theorem drop_splice (hi : i ≤ l.length) :
    (splice l i d).drop (i + d.length) = l.drop (i + d.length) := by
  have hlen : (l.take i ++ d).length = i + d.length := by
    rw [List.length_append, List.length_take]
    omega
  rw [splice]
  nth_rewrite 1 [← hlen]
  exact List.drop_left

/-- **Two splices one behind the other.** -/
theorem splice_append (hi : i ≤ l.length) :
    splice (splice l i d) (i + d.length) e = splice l i (d ++ e) := by
  have hdrop : (splice l i d).drop (i + d.length + e.length) = l.drop (i + (d ++ e).length) := by
    rw [← List.drop_drop, drop_splice hi, List.drop_drop, List.length_append, Nat.add_assoc]
  rw [splice, take_splice hi, hdrop, splice, List.append_assoc (l.take i)]

end Splice
