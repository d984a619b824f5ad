import Mathlib

/-!
# Consecutive segments

An interval of natural numbers cut into segments that carry a tag.

* `Tiles lo hi l` — the segments of `l` follow one another from `lo` to `hi`.
* `tiles_append`, `tiles_focus` — a list of segments cut at a segment.
* `Tiles.apart`, `Tiles.pairwise` — different segments have no number in common.
* `tiles_merge` — two neighbours and one segment of their joint length tile the same interval.
-/

set_option autoImplicit false

/-- The numbers from `start` on, `len` of them. -/
structure Seg (α : Type) where
  start : Nat
  len : Nat
  tag : α
  deriving DecidableEq, Repr

namespace Seg

variable {α : Type}

/-- The first number behind the segment. -/
def stop (s : Seg α) : Nat := s.start + s.len

/-- Non-empty segments, one after the other. -/
def Tiles : Nat → Nat → List (Seg α) → Prop
  | lo, hi, [] => lo = hi
  | lo, hi, s :: l => s.start = lo ∧ 0 < s.len ∧ Tiles s.stop hi l

variable {lo hi : Nat} {A B l : List (Seg α)} {s t : Seg α}

theorem tiles_append : ∀ {lo : Nat} {A : List (Seg α)},
    Tiles lo hi (A ++ B) ↔ ∃ mid, Tiles lo mid A ∧ Tiles mid hi B
  | lo, [] => by simp [Tiles]
  | lo, s :: A => by
    simp only [List.cons_append, Tiles, tiles_append (A := A)]
    constructor
    · rintro ⟨hs, hl, mid, hA, hB⟩
      exact ⟨mid, ⟨hs, hl, hA⟩, hB⟩
    · rintro ⟨mid, ⟨hs, hl, hA⟩, hB⟩
      exact ⟨hs, hl, mid, hA, hB⟩

/-- **The tiling around one segment.** -/
theorem tiles_focus : Tiles lo hi (A ++ s :: B) ↔
    Tiles lo s.start A ∧ 0 < s.len ∧ Tiles s.stop hi B := by
  rw [tiles_append]
  constructor
  · rintro ⟨mid, hA, rfl, hl, hB⟩
    exact ⟨hA, hl, hB⟩
  · rintro ⟨hA, hl, hB⟩
    exact ⟨s.start, hA, rfl, hl, hB⟩

theorem Tiles.le : ∀ {lo : Nat} {l : List (Seg α)}, Tiles lo hi l → lo ≤ hi
  | lo, [], h => Nat.le_of_eq h
  | lo, s :: l, ⟨hs, _, hl⟩ => by
    have := hl.le
    unfold stop at this
    omega

theorem Tiles.mem (h : Tiles lo hi l) (hs : s ∈ l) : lo ≤ s.start ∧ 0 < s.len ∧ s.stop ≤ hi := by
  obtain ⟨A, B, rfl⟩ := List.append_of_mem hs
  obtain ⟨hA, hl, hB⟩ := tiles_focus.mp h
  exact ⟨hA.le, hl, hB.le⟩

/-- Every segment lies on one side of the segment in focus. -/
theorem Tiles.apart (h : Tiles lo hi (A ++ s :: B)) (ht : t ∈ A ++ B) :
    t.stop ≤ s.start ∨ s.stop ≤ t.start := by
  obtain ⟨hA, _, hB⟩ := tiles_focus.mp h
  rcases List.mem_append.mp ht with ht | ht
  · exact Or.inl (hA.mem ht).2.2
  · exact Or.inr (hB.mem ht).1

theorem Tiles.pairwise : ∀ {lo : Nat} {l : List (Seg α)}, Tiles lo hi l →
    l.Pairwise fun s t => s.stop ≤ t.start
  | _, [], _ => List.Pairwise.nil
  | _, _ :: _, ⟨_, _, hl⟩ => List.Pairwise.cons (fun _ ht => (hl.mem ht).1) hl.pairwise

/-- Segments of a tiling are known by where they start. -/
theorem Tiles.eq_of_start (h : Tiles lo hi (A ++ s :: B)) (ht : t ∈ A ++ B) :
    t.start ≠ s.start := by
  intro heq
  have hs := (h.mem (List.mem_append_right _ List.mem_cons_self)).2.1
  have ht' := (h.mem (s := t) (by
    rcases List.mem_append.mp ht with ht | ht
    · exact List.mem_append_left _ ht
    · exact List.mem_append_right _ (List.mem_cons_of_mem _ ht))).2.1
  have := h.apart ht
  unfold stop at this
  omega

/-- **Two neighbours become one segment**, or one segment two neighbours. -/
theorem tiles_merge {start m n : Nat} {a b c : α} (hm : 0 < m) (hn : 0 < n) :
    Tiles lo hi (A ++ ⟨start, m, a⟩ :: ⟨start + m, n, b⟩ :: B) ↔
      Tiles lo hi (A ++ ⟨start, m + n, c⟩ :: B) := by
  rw [tiles_focus, tiles_focus]
  simp only [Tiles, stop, Nat.add_assoc]
  constructor
  · rintro ⟨hA, _, _, _, hB⟩
    exact ⟨hA, by omega, hB⟩
  · rintro ⟨hA, _, hB⟩
    exact ⟨hA, hm, trivial, hn, hB⟩

/-- The tag plays no part. -/
theorem tiles_retag {start n : Nat} {a b : α} :
    Tiles lo hi (A ++ ⟨start, n, a⟩ :: B) ↔ Tiles lo hi (A ++ ⟨start, n, b⟩ :: B) := by
  rw [tiles_focus, tiles_focus]
  exact Iff.rfl

/-- The list before a segment is empty only if nothing lies before it. -/
theorem Tiles.eq_nil (h : Tiles lo hi l) (he : hi ≤ lo) : l = [] := by
  cases l with
  | nil => rfl
  | cons s l =>
    have := h.mem List.mem_cons_self
    unfold stop at this
    omega

end Seg
