import Mathlib
import AuOs.Lib.Traced
import AuOs.Memory.ZoneInv

/-!
# The accesses to `zone->order`

`order` has `MAX_ORDER + 1` elements.  `__page_alloc_zone` tests a list before it tests the bound of
the index.

* `scanIndices`, `splitIndices`, `pageAllocZoneIndices` — `__page_alloc_zone` once more, as a
  computation that records the index of every element of `zone->order` it names.
* `pageAllocZoneIndices_result` — it computes what `pageAllocZone` computes.
* `order_in_bounds_iff` — **the indices stay within the array** exactly if a block of the requested
  or of a larger order is free.
* `exhausted_out_of_bounds` — a zone without free blocks.
-/

set_option autoImplicit false

namespace AuOs

open Traced

/-- A computation that records indices of `zone->order`. -/
abbrev Indexed (α : Type) := Traced Nat Stop α

/-- `while (list_empty(&zone->order[current]) && current <= MAX_ORDER) ++current;` -/
def scanIndices (zone : Zone) : Nat → Nat → Indexed Nat
  | 0, current => pure current
  | fuel + 1, current => do
    mark current
    if zone.order current = [] ∧ current ≤ MAX_ORDER then scanIndices zone fuel (current + 1)
    else pure current

/-- `while (current != order)`: `list_add(&buddy->ll, &zone->order[current])` names one element. -/
def splitIndices (zone : Zone) (idx order : Nat) : Nat → Indexed Zone
  | 0 => if 0 = order then pure zone else lift (.error .fault)
  | current + 1 =>
    if current + 1 = order then pure zone
    else do
      let bidx := idx ^^^ 2 ^ current
      lift (zone.access bidx)
      mark current
      let zone ← lift (listAdd zone bidx current)
      let zone ← lift (markFree zone bidx current)
      splitIndices zone idx order current

/-- `__page_alloc_zone`. -/
def pageAllocZoneIndices (zone : Zone) (order : Nat) : Indexed (Zone × Option Nat) := do
  let current ← scanIndices zone (MAX_ORDER + 2) order
  if current > MAX_ORDER then pure (zone, none)
  else do
    mark current
    lift (bugOn (zone.order current = []) .zoneAllocEmpty)
    mark current
    match zone.order current with
    | [] => lift (.error .fault)
    | idx :: _ => do
      lift (zone.access idx)
      let zone := zone.setPage idx (pageSetBusy (zone.pages idx))
      let zone ← lift (listDel zone idx)
      let zone ← splitIndices zone idx order current
      pure (zone, some idx)

/-! ## The traced function is the function -/

variable {zone : Zone} {order : Nat}

theorem scanIndices_result (fuel current : Nat) :
    (scanIndices zone fuel current).result = .ok (scanOrder zone fuel current) := by
  induction fuel generalizing current with
  | zero => rfl
  | succ fuel ih =>
    rw [scanIndices, result_mark_bind, scanOrder]
    split
    · exact ih (current + 1)
    · rfl

theorem splitIndices_result (idx current : Nat) (zone : Zone) :
    (splitIndices zone idx order current).result = splitLoop zone idx order current := by
  induction current generalizing zone with
  | zero =>
    unfold splitIndices splitLoop
    split <;> rfl
  | succ current ih =>
    unfold splitIndices splitLoop
    split
    · rfl
    · simp only [result_bind, result_lift, result_mark, ok_bind, ih]

/-- **The indices are those of `__page_alloc_zone`.** -/
theorem pageAllocZoneIndices_result (zone : Zone) (order : Nat) :
    (pageAllocZoneIndices zone order).result = pageAllocZone zone order := by
  unfold pageAllocZoneIndices pageAllocZone
  rw [result_bind, scanIndices_result, ok_bind]
  simp only
  split
  · rfl
  · rw [result_mark_bind, result_bind, result_lift]
    congr 1
    funext _
    rw [result_mark_bind]
    cases zone.order (scanOrder zone (MAX_ORDER + 2) order) with
    | nil => rfl
    | cons idx rest =>
      simp only [result_bind, result_lift, splitIndices_result, result_pure, pure_eq_ok]

/-! ## The bounds -/

theorem le_scanOrder (fuel current : Nat) : current ≤ scanOrder zone fuel current := by
  induction fuel generalizing current with
  | zero => exact Nat.le_refl current
  | succ fuel ih =>
    rw [scanOrder]
    split
    · exact Nat.le_of_succ_le (ih (current + 1))
    · exact Nat.le_refl current

/-- The scan names no index behind the one it ends with. -/
theorem scanIndices_le {fuel current i : Nat} (h : i ∈ (scanIndices zone fuel current).trace) :
    i ≤ scanOrder zone fuel current := by
  induction fuel generalizing current with
  | zero => cases h
  | succ fuel ih =>
    rw [scanIndices, trace_mark_bind] at h
    rw [scanOrder]
    split at h
    case isTrue hc =>
      rw [if_pos hc]
      rcases List.mem_cons.mp h with rfl | h
      · exact Nat.le_of_succ_le (le_scanOrder fuel (i + 1))
      · exact ih h
    case isFalse hc =>
      rw [if_neg hc]
      rcases List.mem_cons.mp h with rfl | h
      · exact Nat.le_refl i
      · cases h

/-- The scan names the index it ends with: the list is tested before the bound. -/
theorem scanOrder_mem {fuel current : Nat} (hc : current ≤ MAX_ORDER + 1)
    (hf : MAX_ORDER + 1 < fuel + current) :
    scanOrder zone fuel current ∈ (scanIndices zone fuel current).trace := by
  induction fuel generalizing current with
  | zero => omega
  | succ fuel ih =>
    rw [scanIndices, trace_mark_bind, scanOrder]
    split
    case isTrue h =>
      apply List.mem_cons_of_mem
      exact ih (by omega) (by omega)
    case isFalse => exact List.mem_cons_self

/-- Splitting a block of order `current` names smaller indices. -/
theorem splitIndices_only (idx current : Nat) (zone : Zone) :
    Only (splitIndices zone idx order current) (· < current) fun _ => True := by
  induction current generalizing zone with
  | zero =>
    unfold splitIndices
    split
    · exact .pure trivial
    · exact .lift nofun
  | succ current ih =>
    unfold splitIndices
    split
    · exact .pure trivial
    · refine .bind (.lift fun _ _ => trivial) fun _ _ => .mark (Nat.lt_succ_self current) ?_
      refine .bind (.lift fun _ _ => trivial) fun _ _ => ?_
      refine .bind (.lift fun _ _ => trivial) fun zone _ => ?_
      exact (ih zone).weaken fun i hi => Nat.lt_succ_of_lt hi

/-- No index of `__page_alloc_zone` lies behind the one its scan ends with. -/
theorem pageAllocZoneIndices_only : Only (pageAllocZoneIndices zone order)
    (· ≤ scanOrder zone (MAX_ORDER + 2) order) fun _ => True := by
  have hscan : Only (scanIndices zone (MAX_ORDER + 2) order)
      (· ≤ scanOrder zone (MAX_ORDER + 2) order) (· = scanOrder zone (MAX_ORDER + 2) order) := by
    refine ⟨fun i => scanIndices_le, ?_⟩
    intro c hc
    rw [scanIndices_result] at hc
    exact (Except.ok.inj hc).symm
  refine hscan.bind ?_
  rintro _ rfl
  split
  · exact .pure trivial
  · refine .mark (Nat.le_refl _) (.bind (.lift fun _ _ => trivial) fun _ _ =>
      .mark (Nat.le_refl _) ?_)
    split
    · exact .lift (fun _ h => by cases h)
    · refine .bind (.lift fun _ _ => trivial) fun _ _ => ?_
      refine .bind (.lift fun _ _ => trivial) fun zone _ => ?_
      refine .bind (Q := fun _ => True) ?_ fun _ _ => .pure trivial
      exact (splitIndices_only _ _ zone).weaken fun i hi => Nat.le_of_lt hi

/-- **When the indices stay within the array**: a block of the requested or of a larger order is
free. -/
theorem order_in_bounds_iff (zone : Zone) (order : Nat) (ho : order ≤ MAX_ORDER) :
    (∀ i ∈ (pageAllocZoneIndices zone order).trace, i ≤ MAX_ORDER) ↔
      ∃ k, order ≤ k ∧ k ≤ MAX_ORDER ∧ zone.order k ≠ [] := by
  obtain ⟨hle, hempty, hne⟩ := scanOrder_spec zone (MAX_ORDER + 2) order ho (by omega)
  constructor
  · intro h
    have hmem : scanOrder zone (MAX_ORDER + 2) order ∈ (pageAllocZoneIndices zone order).trace := by
      rw [pageAllocZoneIndices, trace_bind]
      exact List.mem_append_left _ (scanOrder_mem (by omega) (by omega))
    have hmax := h _ hmem
    exact ⟨_, hle, hmax, hne hmax⟩
  · rintro ⟨k, hk, hmax, hfree⟩ i hi
    have hscan : scanOrder zone (MAX_ORDER + 2) order ≤ k := by
      by_contra hlt
      exact hfree (hempty k hk (by omega))
    have := pageAllocZoneIndices_only.events i hi
    omega

/-- A block of order 3 is free, and is split to serve a request of order 1. -/
theorem order_in_bounds_split : ∃ zone, pageFreeZone (Zone.zeroed 0 16) 8 3 = .ok zone ∧
    3 ∈ (pageAllocZoneIndices zone 1).trace ∧
    ∀ i ∈ (pageAllocZoneIndices zone 1).trace, i ≤ MAX_ORDER := by
  have hfree : ∃ zone, pageFreeZone (Zone.zeroed 0 16) 8 3 = .ok zone ∧ zone.order 3 = [8] ∧
      3 ∈ (pageAllocZoneIndices zone 1).trace := ⟨_, rfl, by decide, by decide⟩
  obtain ⟨zone, hzone, horder, hmem⟩ := hfree
  refine ⟨zone, hzone, hmem, (order_in_bounds_iff zone 1 (by decide)).mpr
    ⟨3, by decide, by decide, ?_⟩⟩
  rw [horder]
  exact List.cons_ne_nil _ _

/-- **Memory is exhausted**: the list behind the array is tested, in the place of the first page
descriptor. -/
theorem exhausted_out_of_bounds :
    MAX_ORDER + 1 ∈ (pageAllocZoneIndices (Zone.zeroed 0 1) MAX_ORDER).trace := by
  decide

end AuOs
