import Mathlib

/-!
# Radix trees in memory

A tree of tables.  An address selects an entry of a table at each level; the entry is absent, a
leaf, or names a table of the level below.  The tables live in a memory that others use as well.

* `Radix` — which entry an address selects and how an entry reads, level by level.
* `walk`, `bottom` — what an address translates to, and the table of level 1 on its way.
* `tables`, `Tree` — the tables of a tree, and that no table is reached in two ways.
* `tables_congr`, `walk_congr` — the tree depends on its own tables only.
* `Remap` — a change of the memory that gives some addresses a new translation and no other address;
  `Remap.write`, `Remap.hook`, `Remap.child`, `Remap.trans` build such changes.
-/

set_option autoImplicit false

/-- What an entry stands for. -/
inductive RadixSlot (T L : Type) where
  | absent
  | leaf (l : L)
  | table (t : T)

/-- Tables are named by `T`, their entries are indexed by `I`; addresses are of `V` and translate to
values of `L`.  A leaf gives a value to every address below it, and what a translation finds below a
table entry passes `through` it. -/
structure Radix (T I E V L : Type) where
  index : Nat → V → I
  decode : Nat → E → RadixSlot T (V → L)
  through : E → L → L

namespace Radix

variable {T I E V L : Type} (R : Radix T I E V L) (mem : T → I → E)

/-- The translation of an address by a table of level `n`. -/
def walk : Nat → T → V → Option L
  | 0, _, _ => none
  | n + 1, t, v =>
    match R.decode (n + 1) (mem t (R.index (n + 1) v)) with
    | .absent => none
    | .leaf l => some (l v)
    | .table c => (walk n c v).map (R.through (mem t (R.index (n + 1) v)))

/-- The table of level 1 that an address reaches from a table of level `n + 1`. -/
def bottom : Nat → T → V → Option T
  | 0, t, _ => some t
  | n + 1, t, v =>
    match R.decode (n + 2) (mem t (R.index (n + 2) v)) with
    | .table c => bottom n c v
    | _ => none

/-- The tables reached from a table of level `n`. -/
def tables : Nat → T → Set T
  | 0, _ => ∅
  | n + 1, t => {x | x = t ∨ ∃ i c, R.decode (n + 1) (mem t i) = .table c ∧ x ∈ tables n c}

/-- No table is reached in two ways, and the table entries leave translations as they are. -/
def Tree : Nat → T → Prop
  | 0, _ => True
  | n + 1, t =>
    (∀ i c, R.decode (n + 1) (mem t i) = .table c →
      Tree n c ∧ t ∉ R.tables mem n c ∧ R.through (mem t i) = id) ∧
    ∀ i j c d, i ≠ j → R.decode (n + 1) (mem t i) = .table c →
      R.decode (n + 1) (mem t j) = .table d → Disjoint (R.tables mem n c) (R.tables mem n d)

variable {R mem} {mem' mem₁ mem₂ : T → I → E} {n : Nat} {t c : T} {i : I} {v : V}

theorem mem_tables_self : t ∈ R.tables mem (n + 1) t := Or.inl rfl

theorem tables_child (hc : R.decode (n + 1) (mem t i) = .table c) :
    R.tables mem n c ⊆ R.tables mem (n + 1) t := by
  intro x hx
  exact Or.inr ⟨i, c, hc, hx⟩

theorem bottom_mem : ∀ {n : Nat} {t : T}, R.bottom mem n t v = some c → c ∈ R.tables mem (n + 1) t
  | 0, t, h => by
    cases h
    exact mem_tables_self
  | n + 1, t, h => by
    unfold bottom at h
    cases hd : R.decode (n + 2) (mem t (R.index (n + 2) v)) with
    | absent => simp [hd] at h
    | leaf l => simp [hd] at h
    | table d =>
      simp only [hd] at h
      exact tables_child hd (bottom_mem h)

/-! ## A tree depends on its own tables only -/

theorem tables_congr : ∀ {n : Nat} {t : T}, (∀ x ∈ R.tables mem n t, mem' x = mem x) →
    R.tables mem' n t = R.tables mem n t
  | 0, _, _ => rfl
  | n + 1, t, h => by
    have ht : mem' t = mem t := h t mem_tables_self
    have hsub : ∀ i c, R.decode (n + 1) (mem t i) = .table c →
        R.tables mem' n c = R.tables mem n c := fun i c hc =>
      tables_congr fun x hx => h x (tables_child hc hx)
    ext x
    simp only [tables, ht, Set.mem_ofPred_eq]
    constructor
    · rintro (rfl | ⟨i, c, hc, hx⟩)
      · exact Or.inl rfl
      · exact Or.inr ⟨i, c, hc, hsub i c hc ▸ hx⟩
    · rintro (rfl | ⟨i, c, hc, hx⟩)
      · exact Or.inl rfl
      · exact Or.inr ⟨i, c, hc, (hsub i c hc).symm ▸ hx⟩

theorem Tree.congr : ∀ {n : Nat} {t : T}, R.Tree mem n t →
    (∀ x ∈ R.tables mem n t, mem' x = mem x) → R.Tree mem' n t
  | 0, _, _, _ => trivial
  | n + 1, t, ⟨hsub, hdis⟩, h => by
    have ht : mem' t = mem t := h t mem_tables_self
    have hsame : ∀ i c, R.decode (n + 1) (mem t i) = .table c → ∀ x ∈ R.tables mem n c,
        mem' x = mem x := fun i c hc x hx => h x (tables_child hc hx)
    constructor
    · intro i c hc
      rw [ht] at hc ⊢
      obtain ⟨hc', hnot, hid⟩ := hsub i c hc
      exact ⟨hc'.congr (hsame i c hc), by rwa [tables_congr (hsame i c hc)], hid⟩
    · intro i j c d hij hc hd
      rw [ht] at hc hd
      rw [tables_congr (hsame i c hc), tables_congr (hsame j d hd)]
      exact hdis i j c d hij hc hd

theorem walk_congr : ∀ {n : Nat} {t : T}, (∀ x ∈ R.tables mem n t, mem' x = mem x) →
    R.walk mem' n t v = R.walk mem n t v
  | 0, _, _ => rfl
  | n + 1, t, h => by
    simp only [walk, h t mem_tables_self]
    cases hc : R.decode (n + 1) (mem t (R.index (n + 1) v)) with
    | absent => rfl
    | leaf l => rfl
    | table c => simp only [walk_congr fun x hx => h x (tables_child hc hx)]

theorem bottom_congr : ∀ {n : Nat} {t : T}, (∀ x ∈ R.tables mem (n + 1) t, mem' x = mem x) →
    R.bottom mem' n t v = R.bottom mem n t v
  | 0, _, _ => rfl
  | n + 1, t, h => by
    simp only [bottom, h t mem_tables_self]
    cases hc : R.decode (n + 2) (mem t (R.index (n + 2) v)) with
    | absent => rfl
    | leaf l => rfl
    | table c => exact bottom_congr fun x hx => h x (tables_child hc hx)

/-! ## One entry of a table -/

theorem walk_absent (h : R.decode n (mem t (R.index n v)) = .absent) : R.walk mem n t v = none := by
  cases n with
  | zero => rfl
  | succ n => simp only [walk, h]

theorem walk_leaf {l : V → L} (h : R.decode (n + 1) (mem t (R.index (n + 1) v)) = .leaf l) :
    R.walk mem (n + 1) t v = some (l v) := by
  simp only [walk, h]

theorem walk_table (htree : R.Tree mem (n + 1) t)
    (h : R.decode (n + 1) (mem t (R.index (n + 1) v)) = .table c) :
    R.walk mem (n + 1) t v = R.walk mem n c v := by
  simp only [walk, h, (htree.1 _ c h).2.2, Option.map_id, id]

theorem bottom_table (h : R.decode (n + 2) (mem t (R.index (n + 2) v)) = .table c) :
    R.bottom mem (n + 1) t v = R.bottom mem n c v := by
  simp only [bottom, h]

/-- The entry of an address whose level 1 table exists names a table. -/
theorem exists_table {d : T} (h : R.bottom mem (n + 1) t v = some d) :
    ∃ c, R.decode (n + 2) (mem t (R.index (n + 2) v)) = .table c := by
  unfold bottom at h
  cases hc : R.decode (n + 2) (mem t (R.index (n + 2) v)) with
  | absent => simp [hc] at h
  | leaf l => simp [hc] at h
  | table c => exact ⟨c, rfl⟩

/-! ## Changes of the translation -/

/-- From `mem` to `mem'`, the addresses of `P` below the table `t` of level `n + 1` get the
translation `f`, those outside keep theirs.  The tables of `fresh` may have joined the tree, and
nothing else was written.  `D` are the addresses that can come to `t`. -/
structure Remap (R : Radix T I E V L) (mem mem' : T → I → E) (n : Nat) (t : T) (D P : V → Prop)
    (f : V → Option L) (fresh : Set T) : Prop where
  tree : R.Tree mem' (n + 1) t
  tables : R.tables mem' (n + 1) t ⊆ R.tables mem (n + 1) t ∪ fresh
  frame : ∀ x, x ∉ R.tables mem (n + 1) t → x ∉ fresh → mem' x = mem x
  inside : ∀ v, D v → P v → R.walk mem' (n + 1) t v = f v
  outside : ∀ v, D v → ¬ P v → R.walk mem' (n + 1) t v = R.walk mem (n + 1) t v
  bottom : ∀ v c, D v → R.bottom mem n t v = some c → R.bottom mem' n t v = some c

namespace Remap

variable {D P Q : V → Prop} {f g : V → Option L} {F G : Set T}

theorem refl (h : R.Tree mem (n + 1) t) : R.Remap mem mem n t D (fun _ => False) f ∅ where
  tree := h
  tables := Set.subset_union_left
  frame _ _ _ := rfl
  inside _ _ h := h.elim
  outside _ _ _ := rfl
  bottom _ _ _ h := h

/-- **Two changes in a row.** -/
theorem trans (h : R.Remap mem mem₁ n t D P f F) (h' : R.Remap mem₁ mem₂ n t D Q f G) :
    R.Remap mem mem₂ n t D (fun v => P v ∨ Q v) f (F ∪ G) where
  tree := h'.tree
  tables := by
    intro x hx
    rcases h'.tables hx with hx | hx
    · exact (h.tables hx).imp_right Or.inl
    · exact Or.inr (Or.inr hx)
  frame x hx hF := by
    have hx₁ : x ∉ R.tables mem₁ (n + 1) t := fun hm =>
      (h.tables hm).elim hx fun hm => hF (Or.inl hm)
    rw [h'.frame x hx₁ fun hm => hF (Or.inr hm)]
    exact h.frame x hx fun hm => hF (Or.inl hm)
  inside v hD hv := by
    by_cases hQ : Q v
    · exact h'.inside v hD hQ
    · rw [h'.outside v hD hQ]
      exact h.inside v hD (hv.resolve_right hQ)
  outside v hD hv := by
    rw [h'.outside v hD fun hQ => hv (Or.inr hQ)]
    exact h.outside v hD fun hP => hv (Or.inl hP)
  bottom v c hD hc := h'.bottom v c hD (h.bottom v c hD hc)

theorem congr (h : R.Remap mem mem' n t D P f F) (hPQ : ∀ v, D v → (P v ↔ Q v))
    (hfg : ∀ v, D v → P v → f v = g v) (hFG : F = G) : R.Remap mem mem' n t D Q g G where
  tree := h.tree
  tables := hFG ▸ h.tables
  frame := hFG ▸ h.frame
  inside v hD hv := (h.inside v hD ((hPQ v hD).mpr hv)).trans (hfg v hD ((hPQ v hD).mpr hv))
  outside v hD hv := h.outside v hD fun hP => hv ((hPQ v hD).mp hP)
  bottom := h.bottom

/-- The same change, seen by fewer addresses. -/
theorem anti {D' : V → Prop} (h : R.Remap mem mem' n t D P f F) (hD : ∀ v, D' v → D v) :
    R.Remap mem mem' n t D' P f F where
  tree := h.tree
  tables := h.tables
  frame := h.frame
  inside v hv := h.inside v (hD v hv)
  outside v hv := h.outside v (hD v hv)
  bottom v c hv := h.bottom v c (hD v hv)

/-- **A change below one entry.** -/
theorem child (htree : R.Tree mem (n + 2) t) (hc : R.decode (n + 2) (mem t i) = .table c)
    (hF : ∀ x ∈ F, x ∉ R.tables mem (n + 2) t) (hP : ∀ v, D v → P v → R.index (n + 2) v = i)
    (h : R.Remap mem mem' n c (fun v => D v ∧ R.index (n + 2) v = i) P f F) :
    R.Remap mem mem' (n + 1) t D P f F := by
  obtain ⟨hsub, hdis⟩ := id htree
  have ht : mem' t = mem t := h.frame t (hsub i c hc).2.1 fun hm => hF t hm mem_tables_self
  -- The tables below the other entries are neither in the subtree of `c` nor fresh.
  have hother : ∀ j d, j ≠ i → R.decode (n + 2) (mem t j) = .table d →
      ∀ x ∈ R.tables mem (n + 1) d, mem' x = mem x := fun j d hj hd x hx =>
    h.frame x (fun hm => (hdis j i d c hj hd hc).le_bot ⟨hx, hm⟩) fun hm =>
      hF x hm (tables_child hd hx)
  have hnew : R.tables mem' (n + 1) c ⊆ R.tables mem (n + 2) t ∪ F := fun x hx =>
    (h.tables hx).imp_left fun hx => tables_child hc hx
  have hapart : ∀ j d, j ≠ i → R.decode (n + 2) (mem t j) = .table d →
      Disjoint (R.tables mem (n + 1) d) (R.tables mem' (n + 1) c) := fun j d hj hd =>
    Set.disjoint_left.mpr fun x hx hx' => (h.tables hx').elim
      (fun hm => (hdis j i d c hj hd hc).le_bot ⟨hx, hm⟩) fun hm => hF x hm (tables_child hd hx)
  have htree' : R.Tree mem' (n + 2) t := by
    constructor
    · intro j d hd
      rw [ht] at hd ⊢
      by_cases hj : j = i
      · subst hj
        obtain rfl : c = d := RadixSlot.table.inj (hc.symm.trans hd)
        exact ⟨h.tree, fun hm => (h.tables hm).elim (hsub j c hc).2.1 fun hm =>
          hF t hm mem_tables_self, (hsub j c hc).2.2⟩
      · obtain ⟨hd', hnot, hid⟩ := hsub j d hd
        exact ⟨hd'.congr (hother j d hj hd), by rwa [tables_congr (hother j d hj hd)], hid⟩
    · intro j k d e hjk hd he
      rw [ht] at hd he
      by_cases hj : j = i
      · subst hj
        obtain rfl : c = d := RadixSlot.table.inj (hc.symm.trans hd)
        rw [tables_congr (hother k e (Ne.symm hjk) he)]
        exact (hapart k e (Ne.symm hjk) he).symm
      · rw [tables_congr (hother j d hj hd)]
        by_cases hk : k = i
        · subst hk
          obtain rfl : c = e := RadixSlot.table.inj (hc.symm.trans he)
          exact hapart j d hj hd
        · rw [tables_congr (hother k e hk he)]
          exact hdis j k d e hjk hd he
  refine ⟨htree', ?_, ?_, ?_, ?_, ?_⟩
  · rintro x (rfl | ⟨j, d, hd, hx⟩)
    · exact Or.inl mem_tables_self
    · rw [ht] at hd
      by_cases hj : j = i
      · subst hj
        obtain rfl : c = d := RadixSlot.table.inj (hc.symm.trans hd)
        exact hnew hx
      · rw [tables_congr (hother j d hj hd)] at hx
        exact Or.inl (tables_child hd hx)
  · intro x hx hxF
    exact h.frame x (fun hm => hx (tables_child hc hm)) hxF
  · intro v hD hv
    have hi := hP v hD hv
    rw [walk_table htree' (show R.decode (n + 2) (mem' t (R.index (n + 2) v)) = .table c by
      rw [ht, hi, hc])]
    exact h.inside v ⟨hD, hi⟩ hv
  · intro v hD hv
    by_cases hi : R.index (n + 2) v = i
    · rw [walk_table htree' (show R.decode (n + 2) (mem' t (R.index (n + 2) v)) = .table c by
        rw [ht, hi, hc]), walk_table htree (by rw [hi, hc])]
      exact h.outside v ⟨hD, hi⟩ hv
    · cases hd : R.decode (n + 2) (mem t (R.index (n + 2) v)) with
      | absent => rw [walk_absent hd, walk_absent (by rw [ht, hd])]
      | leaf l => rw [walk_leaf hd, walk_leaf (l := l) (by rw [ht, hd])]
      | table d =>
        rw [walk_table htree hd, walk_table htree' (by rw [ht, hd])]
        exact walk_congr (hother _ d hi hd)
  · intro v d hD hd
    by_cases hi : R.index (n + 2) v = i
    · rw [bottom_table (c := c) (by rw [hi, hc])] at hd
      rw [bottom_table (c := c) (by rw [ht, hi, hc])]
      exact h.bottom v d ⟨hD, hi⟩ hd
    · obtain ⟨e, he⟩ := exists_table hd
      rw [bottom_table he] at hd
      rw [bottom_table (c := e) (by rw [ht, he]), bottom_congr (hother _ e hi he)]
      exact hd

end Remap

/-! ## Writing an entry -/

variable [DecidableEq T] [DecidableEq I]

/-- Write one entry of a table. -/
def put (mem : T → I → E) (t : T) (i : I) (e : E) : T → I → E :=
  Function.update mem t (Function.update (mem t) i e)

@[simp] theorem put_self (mem : T → I → E) (t : T) (i : I) (e : E) : put mem t i e t i = e := by
  simp [put]

theorem put_index_ne {e : E} {j : I} (h : j ≠ i) : put mem t i e t j = mem t j := by
  simp [put, h]

theorem put_table_ne {e : E} {x : T} (h : x ≠ t) : put mem t i e x = mem x :=
  Function.update_of_ne h ..

namespace Remap

variable {D : V → Prop} {f : V → Option L} {e : E}

/-- The other entries of a table one of whose entries named no table are as before. -/
theorem put_child {j : I} {d : T} (htree : R.Tree mem (n + 1) t) (hj : j ≠ i)
    (hd : R.decode (n + 1) (put mem t i e t j) = .table d) :
    R.decode (n + 1) (mem t j) = .table d ∧ ∀ x ∈ R.tables mem n d, put mem t i e x = mem x := by
  rw [put_index_ne hj] at hd
  refine ⟨hd, fun x hx => put_table_ne ?_⟩
  rintro rfl
  exact (htree.1 j d hd).2.1 hx

/-- **An entry that names no table is written**, and names none afterwards. -/
theorem write (htree : R.Tree mem (n + 1) t) (hold : ∀ c, R.decode (n + 1) (mem t i) ≠ .table c)
    (hnew : ∀ c, R.decode (n + 1) e ≠ .table c)
    (hf : ∀ v, D v → R.index (n + 1) v = i →
      R.decode (n + 1) e = .absent ∧ f v = none ∨ ∃ l, R.decode (n + 1) e = .leaf l ∧
        f v = some (l v)) :
    R.Remap mem (put mem t i e) n t D (fun v => R.index (n + 1) v = i) f ∅ := by
  have hne : ∀ j d, R.decode (n + 1) (put mem t i e t j) = .table d → j ≠ i := by
    rintro j d hd rfl
    rw [put_self] at hd
    exact hnew d hd
  have htree' : R.Tree (put mem t i e) (n + 1) t := by
    constructor
    · intro j d hd
      obtain ⟨hd', hsame⟩ := put_child htree (hne j d hd) hd
      obtain ⟨hsub, hnot, hid⟩ := htree.1 j d hd'
      rw [put_index_ne (hne j d hd), tables_congr hsame]
      exact ⟨hsub.congr hsame, hnot, hid⟩
    · intro j k c d hjk hc hd
      obtain ⟨hc', hsame⟩ := put_child htree (hne j c hc) hc
      obtain ⟨hd', hsame'⟩ := put_child htree (hne k d hd) hd
      rw [tables_congr hsame, tables_congr hsame']
      exact htree.2 j k c d hjk hc' hd'
  refine ⟨htree', ?_, ?_, ?_, ?_, ?_⟩
  · rintro x (rfl | ⟨j, d, hd, hx⟩)
    · exact Or.inl mem_tables_self
    · obtain ⟨hd', hsame⟩ := put_child htree (hne j d hd) hd
      rw [tables_congr hsame] at hx
      exact Or.inl (tables_child hd' hx)
  · intro x hx _
    exact put_table_ne fun he => hx (he ▸ mem_tables_self)
  · intro v hD hv
    have hput : put mem t i e t (R.index (n + 1) v) = e := by rw [hv, put_self]
    rcases hf v hD hv with ⟨he, hfv⟩ | ⟨l, he, hfv⟩
    · rw [walk_absent (by rw [hput, he]), hfv]
    · rw [walk_leaf (l := l) (by rw [hput, he]), hfv]
  · intro v hD hv
    have hput : put mem t i e t (R.index (n + 1) v) = mem t (R.index (n + 1) v) := put_index_ne hv
    cases hd : R.decode (n + 1) (mem t (R.index (n + 1) v)) with
    | absent => rw [walk_absent hd, walk_absent (by rw [hput, hd])]
    | leaf l => rw [walk_leaf hd, walk_leaf (l := l) (by rw [hput, hd])]
    | table d =>
      have hd' := hput.symm ▸ hd
      rw [walk_table htree hd, walk_table htree' hd']
      exact walk_congr (put_child htree hv hd').2
  · intro v c hD hc
    cases n with
    | zero => exact hc
    | succ n =>
      obtain ⟨d, hd⟩ := exists_table hc
      have hv : R.index (n + 2) v ≠ i := fun hi => hold d (hi ▸ hd)
      have hd' : R.decode (n + 2) (put mem t i e t (R.index (n + 2) v)) = .table d := by
        rw [put_index_ne hv, hd]
      rw [bottom_table hd] at hc
      rw [bottom_table hd', bottom_congr (put_child htree hv hd').2]
      exact hc

/-- **An empty table is hooked into an absent entry.** -/
theorem hook {p : T} (htree : R.Tree mem (n + 2) t) (hold : R.decode (n + 2) (mem t i) = .absent)
    (hp : p ∉ R.tables mem (n + 2) t) (hempty : ∀ j, R.decode (n + 1) (mem₁ p j) = .absent)
    (hsame : ∀ x, x ≠ p → mem₁ x = mem x) (he : R.decode (n + 2) e = .table p)
    (hid : R.through e = id) :
    R.Remap mem (put mem₁ t i e) (n + 1) t D (fun _ => False) f {p} := by
  have hpt : t ≠ p := fun h => hp (h ▸ mem_tables_self)
  have hsame' : ∀ x, x ≠ p → x ≠ t → put mem₁ t i e x = mem x := fun x hxp hxt =>
    (put_table_ne hxt).trans (hsame x hxp)
  have hentry : ∀ j, j ≠ i → put mem₁ t i e t j = mem t j := fun j hj => by
    rw [put_index_ne hj, hsame t hpt]
  have hchild : ∀ j d, j ≠ i → R.decode (n + 2) (mem t j) = .table d →
      ∀ x ∈ R.tables mem (n + 1) d, put mem₁ t i e x = mem x := fun j d _ hd x hx =>
    hsame' x (fun h => hp (h ▸ tables_child hd hx)) fun h => (htree.1 j d hd).2.1 (h ▸ hx)
  have hpage : ∀ j, R.decode (n + 1) (put mem₁ t i e p j) = .absent := fun j => by
    rw [put_table_ne (Ne.symm hpt), hempty]
  have hptree : R.Tree (put mem₁ t i e) (n + 1) p :=
    ⟨fun j c hc => by simp [hpage] at hc, fun j k c d _ hc => by simp [hpage] at hc⟩
  have hptables : R.tables (put mem₁ t i e) (n + 1) p = {p} := by
    ext x
    simp [Radix.tables, hpage]
  have hget : ∀ j d, R.decode (n + 2) (put mem₁ t i e t j) = .table d → (j = i ∧ d = p) ∨
      (j ≠ i ∧ R.decode (n + 2) (mem t j) = .table d) := by
    intro j d hd
    by_cases hj : j = i
    · subst hj
      rw [put_self, he] at hd
      exact Or.inl ⟨rfl, (RadixSlot.table.inj hd).symm⟩
    · rw [hentry j hj] at hd
      exact Or.inr ⟨hj, hd⟩
  have hdis : ∀ j d, j ≠ i → R.decode (n + 2) (mem t j) = .table d →
      Disjoint (R.tables (put mem₁ t i e) (n + 1) d) (R.tables (put mem₁ t i e) (n + 1) p) := by
    intro j d hj hd
    rw [hptables, tables_congr (hchild j d hj hd), Set.disjoint_singleton_right]
    exact fun hm => hp (tables_child hd hm)
  have htree' : R.Tree (put mem₁ t i e) (n + 2) t := by
    constructor
    · intro j d hd
      rcases hget j d hd with ⟨rfl, rfl⟩ | ⟨hj, hd'⟩
      · rw [hptables, put_self]
        exact ⟨hptree, hpt, hid⟩
      · obtain ⟨hsub, hnot, hid'⟩ := htree.1 j d hd'
        rw [hentry j hj, tables_congr (hchild j d hj hd')]
        exact ⟨hsub.congr (hchild j d hj hd'), hnot, hid'⟩
    · intro j k c d hjk hc hd
      rcases hget j c hc with ⟨rfl, rfl⟩ | ⟨hj, hc'⟩
      · rcases hget k d hd with ⟨rfl, rfl⟩ | ⟨hk, hd'⟩
        · exact absurd rfl hjk
        · exact (hdis k d hk hd').symm
      · rcases hget k d hd with ⟨rfl, rfl⟩ | ⟨hk, hd'⟩
        · exact hdis j c hj hc'
        · rw [tables_congr (hchild j c hj hc'), tables_congr (hchild k d hk hd')]
          exact htree.2 j k c d hjk hc' hd'
  refine ⟨htree', ?_, ?_, ?_, ?_, ?_⟩
  · rintro x (rfl | ⟨j, d, hd, hx⟩)
    · exact Or.inl mem_tables_self
    · rcases hget j d hd with ⟨rfl, rfl⟩ | ⟨hj, hd'⟩
      · rw [hptables] at hx
        exact Or.inr hx
      · rw [tables_congr (hchild j d hj hd')] at hx
        exact Or.inl (tables_child hd' hx)
  · intro x hx hxp
    exact hsame' x hxp fun h => hx (h ▸ mem_tables_self)
  · exact fun _ _ h => h.elim
  · intro v hD _
    by_cases hv : R.index (n + 2) v = i
    · have hnone : R.walk mem (n + 2) t v = none := walk_absent (by rw [hv, hold])
      rw [hnone, walk_table htree' (c := p) (by rw [hv, put_self, he])]
      exact walk_absent (hpage _)
    · have hput := hentry _ hv
      cases hd : R.decode (n + 2) (mem t (R.index (n + 2) v)) with
      | absent => rw [walk_absent hd, walk_absent (by rw [hput, hd])]
      | leaf l => rw [walk_leaf hd, walk_leaf (l := l) (by rw [hput, hd])]
      | table d =>
        rw [walk_table htree hd, walk_table htree' (by rw [hput, hd])]
        exact walk_congr (hchild _ d hv hd)
  · intro v c hD hc
    obtain ⟨d, hd⟩ := exists_table hc
    have hv : R.index (n + 2) v ≠ i := fun hi => by simp [hi, hold] at hd
    rw [bottom_table hd] at hc
    rw [bottom_table (c := d) (by rw [hentry _ hv, hd]), bottom_congr (hchild _ d hv hd)]
    exact hc

end Remap

end Radix
