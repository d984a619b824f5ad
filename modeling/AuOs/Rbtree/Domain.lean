import Mathlib
import AuOs.Lib.Post
import AuOs.Rbtree.Heap

/-!
# The nodes of a heap

`rb_erase` writes to nodes, and takes none of them away: a node that left the tree is still there.

* `RbHeap.Within` — every node of one heap is a node of the other.
* `modify_within` — a write keeps the nodes; `rbErase_within` — so does `rb_erase`.
-/

set_option autoImplicit false

namespace AuOs

namespace RbHeap

variable {h h' : RbHeap} {s : Side} {x y p b c : RbPtr} {fuel : Nat}

/-- Every node of `h` is a node of `h'`. -/
def Within (h h' : RbHeap) : Prop := ∀ z, h.nodes z ≠ none → h'.nodes z ≠ none

theorem Within.refl (h : RbHeap) : Within h h := fun _ hz => hz

theorem Within.trans {h₁ h₂ h₃ : RbHeap} (h : Within h₁ h₂) (h' : Within h₂ h₃) : Within h₁ h₃ :=
  fun z hz => h' z (h z hz)

/-- The computation keeps the nodes if it returns. -/
abbrev Stays (h : RbHeap) (r : Res RbHeap) : Prop := Post r (fun _ => True) (Within h)

theorem Stays.trans {r : Res RbHeap} (hw : Within h h') (hr : Stays h' r) : Stays h r :=
  hr.mono fun _ => hw.trans

theorem Stays.bind {r : Res RbHeap} {f : RbHeap → Res RbHeap} (hr : Stays h r)
    (hf : ∀ h', Stays h' (f h')) : Stays h (r >>= f) :=
  Post.bind hr fun h' hw => (hf h').trans hw

/-- Reading changes nothing. -/
theorem Stays.read {α : Type} {r : Res α} {f : α → Res RbHeap} (hf : ∀ a, Stays h (f a)) :
    Stays h (r >>= f) :=
  Post.bind Post.any fun a _ => hf a

theorem Stays.ok : Stays h (.ok h) := Post.ok (Within.refl h)

theorem Stays.ite {q : Prop} [Decidable q] {r r' : Res RbHeap} (hr : Stays h r) (hr' : Stays h r') :
    Stays h (if q then r else r') := by
  split
  · exact hr
  · exact hr'

theorem modify_within (h : RbHeap) (p : RbPtr) (f : RbNode → RbNode) : Stays h (h.modify p f) := by
  refine Stays.read fun n => Post.ok ?_
  intro z hz
  show Function.update h.nodes p (some (f n)) z ≠ none
  by_cases hzp : z = p
  · subst hzp
    rw [Function.update_self]
    exact Option.some_ne_none _
  · rwa [Function.update_of_ne hzp]

theorem rbSetBlack_within (h : RbHeap) (x : RbPtr) : Stays h (h.rbSetBlack x) := modify_within h x _

theorem rbSetParent_within (h : RbHeap) (x p : RbPtr) : Stays h (h.rbSetParent x p) :=
  modify_within h x _

theorem setChild_within (h : RbHeap) (s : Side) (x p : RbPtr) : Stays h (h.setChild s x p) :=
  modify_within h x _

theorem replaceChild_within (h : RbHeap) (p x y : RbPtr) : Stays h (h.replaceChild p x y) := by
  refine Stays.ite (Post.ok fun _ hz => hz) (Stays.read fun l => Stays.ite ?_ ?_)
  · exact setChild_within ..
  · exact setChild_within ..

theorem rbRotate_within (s : Side) (h : RbHeap) (x : RbPtr) : Stays h (rbRotate s h x) := by
  refine Stays.read fun p => Stays.read fun r => Stays.read fun b =>
    (setChild_within ..).bind fun h => ?_
  refine Stays.bind (Stays.ite Stays.ok (rbSetParent_within ..)) fun h => ?_
  refine (setChild_within ..).bind fun h => (rbSetParent_within ..).bind fun h => ?_
  exact (replaceChild_within ..).bind fun h => rbSetParent_within ..

/-! ## Erasure -/

/-- The same for a computation that gives an address as well. -/
abbrev StaysWith (h : RbHeap) (r : Res (RbHeap × RbPtr)) : Prop :=
  Post r (fun _ => True) fun q => Within h q.1

theorem liftSibling_within (s : Side) (h : RbHeap) (p b : RbPtr) :
    StaysWith h (liftSibling s h p b) := by
  refine Post.bind Post.any fun red _ => ?_
  split
  · refine Post.bind (rbSetBlack_within h b) fun h₁ hw₁ => Post.bind (modify_within h₁ p _)
      fun h₂ hw₂ => ?_
    refine Post.bind (rbRotate_within s h₂ p) fun h₃ hw₃ => Post.bind Post.any fun b _ => ?_
    exact Post.ok ((hw₁.trans hw₂).trans hw₃)
  · exact Post.ok (Within.refl h)

theorem straightenSibling_within (s : Side) (h : RbHeap) (p b : RbPtr) :
    StaysWith h (straightenSibling s h p b) := by
  refine Post.bind Post.any fun far _ => Post.bind Post.any fun black _ => ?_
  split
  · refine Post.bind Post.any fun near _ => ?_
    refine Post.bind (rbSetBlack_within h near) fun h₁ hw₁ => Post.bind (modify_within h₁ b _)
      fun h₂ hw₂ => ?_
    refine Post.bind (rbRotate_within s.other h₂ b) fun h₃ hw₃ => Post.bind Post.any fun b _ => ?_
    exact Post.ok ((hw₁.trans hw₂).trans hw₃)
  · exact Post.ok (Within.refl h)

theorem eraseRotate_within (s : Side) (h : RbHeap) (p b : RbPtr) :
    Stays h (eraseRotate s h p b) := by
  refine Post.bind (straightenSibling_within s h p b) fun q hw => Stays.trans hw ?_
  refine Stays.read fun color => (modify_within ..).bind fun h =>
    (rbSetBlack_within ..).bind fun h => ?_
  refine Stays.read fun far => Stays.bind (Stays.ite Stays.ok (rbSetBlack_within ..)) fun h => ?_
  exact rbRotate_within ..

theorem eraseLoop_within : ∀ (fuel : Nat) (h : RbHeap) (x p : RbPtr),
    StaysWith h (eraseLoop fuel h x p) := by
  intro fuel
  induction fuel with
  | zero =>
    intro h x p
    exact Post.error trivial
  | succ fuel ih =>
    intro h x p
    refine Post.bind Post.any fun black _ => ?_
    split
    · refine Post.bind Post.any fun l _ => Post.bind Post.any fun b _ => ?_
      refine Post.bind (liftSibling_within _ h p b) fun q hw => ?_
      refine Post.bind Post.any fun near _ => Post.bind Post.any fun far _ =>
        Post.bind Post.any fun nb _ => ?_
      refine Post.bind Post.any fun both _ => ?_
      split
      · refine Post.bind (modify_within q.1 q.2 _) fun h₁ hw₁ => Post.bind Post.any fun p' _ => ?_
        exact (ih h₁ p p').mono fun q' hw' => (hw.trans hw₁).trans hw'
      · refine Post.bind (eraseRotate_within _ q.1 p q.2) fun h₁ hw₁ => ?_
        exact Post.ok (hw.trans hw₁)
    · exact Post.ok (Within.refl h)

theorem rbEraseFix_within (fuel : Nat) (h : RbHeap) (x p : RbPtr) :
    Stays h (h.rbEraseFix fuel x p) := by
  refine Post.bind (eraseLoop_within fuel h x p) fun q hw => Stays.trans hw ?_
  exact Stays.ite Stays.ok (rbSetBlack_within ..)

theorem spliceChild_within (h : RbHeap) (node x : RbPtr) : StaysWith h (h.spliceChild node x) := by
  refine Post.bind Post.any fun l _ => Post.bind (setChild_within h .left x l) fun h₁ hw₁ => ?_
  refine Post.bind Post.any fun n _ => Post.bind (modify_within h₁ x _) fun h₂ hw₂ => ?_
  refine Post.bind Post.any fun l' _ => Post.bind (rbSetParent_within h₂ l' x) fun h₃ hw₃ => ?_
  exact Post.ok ((hw₁.trans hw₂).trans hw₃)

theorem spliceBelow_within (h : RbHeap) (node x c : RbPtr) :
    StaysWith h (h.spliceBelow node x c) := by
  refine Post.bind Post.any fun p _ => Post.bind Post.any fun n _ => ?_
  refine Post.bind (modify_within h x _) fun h₁ hw₁ => Post.bind (setChild_within h₁ .left p c)
    fun h₂ hw₂ => ?_
  refine Post.bind (Stays.ite Stays.ok (rbSetParent_within h₂ c p)) fun h₃ hw₃ => ?_
  refine Post.bind Post.any fun l _ => Post.bind (rbSetParent_within h₃ l x) fun h₄ hw₄ => ?_
  refine Post.bind Post.any fun r _ => Post.bind (rbSetParent_within h₄ r x) fun h₅ hw₅ => ?_
  exact Post.ok ((((hw₁.trans hw₂).trans hw₃).trans hw₄).trans hw₅)

/-- **`rb_erase`** keeps the nodes. -/
theorem rbErase_within (fuel : Nat) (h : RbHeap) (node : RbPtr) :
    Stays h (h.rbErase fuel node) := by
  refine Stays.read fun l => Stays.read fun r => ?_
  refine Post.bind (P := fun q => Within h q.1) ?_ ?_
  · split
    · refine Post.bind Post.any fun x _ => Post.bind Post.any fun c _ =>
        Post.bind Post.any fun color _ => ?_
      refine Post.bind (P := fun q => Within h q.1) ?_ fun q hw => Post.ok hw
      split
      · exact spliceChild_within h node x
      · exact spliceBelow_within h node x c
    · refine Post.bind Post.any fun p _ => Post.bind Post.any fun color _ => ?_
      refine Post.bind (P := Within h) (Stays.ite Stays.ok (rbSetParent_within ..))
        fun h₁ hw => Post.ok hw
  · rintro ⟨h₁, x, c, p, color⟩ hw
    refine Stays.trans hw (Stays.read fun np => (replaceChild_within ..).bind fun h => ?_)
    exact Stays.ite (rbEraseFix_within ..) Stays.ok

end RbHeap

end AuOs
