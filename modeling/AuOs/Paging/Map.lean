import Mathlib
import AuOs.Paging.Entries

/-!
# What `__pt_map_pages` does

* `PoolOk` — a pool that gives fresh zeroed pages as long as its supply lasts.
* `mapTarget` — the translation an address of the range gets.
* `MapReady`, `MapDone` — what a call needs and what it has done.
* `ptMapEntry_spec`, `ptMapLoop_spec`, `ptMapLvl_spec` — one turn, the loop, the recursion.
-/

set_option autoImplicit false

namespace AuOs

variable {σ : Type}

/-! ## Pools -/

/-- The address of a page that can become a table. -/
structure PageAddr (page : Nat) : Prop where
  ne_zero : page ≠ 0
  aligned : page % 4096 = 0
  lt : page < 2 ^ 52

/-- The page was fresh: nobody used it before, and it reads as zero now. -/
structure Fresh (used : Set Nat) (s s' : Paging σ) (page : Nat) : Prop where
  addr : PageAddr page
  new : page ∉ used
  zero : ∀ i, s'.mem page i = 0
  frame : ∀ x, x ≠ page → s'.mem x = s.mem x

/-- `I k pages used` promises `k` more pages outside `used`, unless the pool fails as `E` says. -/
structure PoolOk (pool : Option (PagePool σ)) (E : Stop → Prop) (I : Nat → σ → Set Nat → Prop) :
    Prop where
  mono : ∀ {k k' : Nat} {pages : σ} {used : Set Nat}, k' ≤ k → I k pages used → I k' pages used
  get : ∀ p, pool = some p → ∀ {k : Nat} {s : Paging σ} {used : Set Nat},
    I (k + 1) s.pages used → Post (p.get_page s) E fun r =>
      Fresh used s r.2 r.1 ∧ I k r.2.pages (insert r.1 used)

/-- The pages one entry of a table of level `n + 1` can take. -/
def entryPages : Nat → Nat
  | 0 => 0
  | n + 1 => 1 + 512 * entryPages n

theorem entryPages_succ (n : Nat) : entryPages (n + 1) = 1 + 512 * entryPages n := rfl

/-! ## Before and after -/

/-- What the addresses from `b` on translate to when they are mapped to `phys` with these flags. -/
def mapTarget (flags : Pte) (b phys v : Nat) : Option Mapping :=
  if flags &&& PTE_PRESENT = 0 then none
  else some ⟨phys + (v - b), decide (flags &&& PTE_WRITE ≠ 0), decide (flags &&& PTE_USER ≠ 0)⟩

/-- The addresses that come to the same table of level `n + 1`. -/
def SameTable (n b v : Nat) : Prop := v / lvlSize (n + 2) = b / lvlSize (n + 2)

/-- No address from `b` to `e` is mapped by the tree at `t`; all tables of the tree are in use;
where there is no pool, there are tables down to level 1. -/
structure MapReady (pool : Option (PagePool σ)) (I : Nat → σ → Set Nat → Prop) (k n t b e : Nat)
    (used : Set Nat) (s : Paging σ) : Prop where
  tree : pageTable.Tree s.mem (n + 1) t
  sub : pageTable.tables s.mem (n + 1) t ⊆ used
  supply : I k s.pages used
  free : ∀ v, b ≤ v → v ≤ e → pageTable.walk s.mem (n + 1) t v = none
  built : pool = none → ∀ v, b ≤ v → v ≤ e → ∃ c, pageTable.bottom s.mem n t v = some c

/-- The addresses from `b` to `e` were mapped, with tables of `fresh` added to the tree. -/
structure MapDone (pool : Option (PagePool σ)) (I : Nat → σ → Set Nat → Prop) (flags : Pte)
    (k n t b e phys : Nat) (used fresh : Set Nat) (s s' : Paging σ) : Prop where
  remap : pageTable.Remap s.mem s'.mem n t (SameTable n b) (fun v => b ≤ v ∧ v ≤ e)
    (mapTarget flags b phys) fresh
  new : ∀ x ∈ fresh, x ∉ used
  noPool : pool = none → fresh = ∅
  supply : I k s'.pages (used ∪ fresh)
  built : flags &&& PTE_LARGE = 0 → ∀ v, b ≤ v → v ≤ e → ∃ c, pageTable.bottom s'.mem n t v = some c

variable {pool : Option (PagePool σ)} {E : Stop → Prop} {I : Nat → σ → Set Nat → Prop} {flags : Pte}
  {k n t b e m phys c : Nat} {used fresh : Set Nat} {s s' : Paging σ}

theorem RangeOk.sameTable (h : RangeOk (n + 1) b e phys) {v : Nat} (hbv : b ≤ v) (hve : v ≤ e) :
    SameTable n b v :=
  le_antisymm (h.span ▸ Nat.div_le_div_right hve) (Nat.div_le_div_right hbv)

theorem sameTable_child (hn : n + 1 ≤ 3) {v : Nat} (hs : SameTable (n + 1) b v)
    (hi : pageTable.index (n + 2) v = pageTable.index (n + 2) b) : SameTable n b v := by
  unfold SameTable at *
  simp only [pageTable] at hi
  have hzw := lvlSize_sizes hn
  generalize lvlSize (n + 1 + 1) = z at *
  generalize lvlSize (n + 1 + 2) = w at *
  rcases hzw with ⟨rfl, rfl⟩ | ⟨rfl, rfl⟩ | ⟨rfl, rfl⟩ | ⟨rfl, rfl⟩ <;> omega

/-- The entry of an unmapped address is no leaf. -/
theorem MapReady.slot (h : MapReady pool I k n t b e used s) (hle : b ≤ e) :
    pteSlot (n + 1) (s.mem t (pageTable.index (n + 1) b)) = .absent ∨
      ∃ c, pteSlot (n + 1) (s.mem t (pageTable.index (n + 1) b)) = .table c := by
  cases hs : pteSlot (n + 1) (s.mem t (pageTable.index (n + 1) b)) with
  | absent => exact Or.inl rfl
  | leaf l =>
    have hw := h.free b le_rfl hle
    rw [Radix.walk_leaf (l := l) hs] at hw
    cases hw
  | table c => exact Or.inr ⟨c, rfl⟩

/-- The first pages of a range that is ready. -/
theorem MapReady.first (h : MapReady pool I k n t b e used s) (hm : m ≤ e) :
    MapReady pool I k n t b m used s where
  tree := h.tree
  sub := h.sub
  supply := h.supply
  free v hbv hvm := h.free v hbv (hvm.trans hm)
  built hpool v hbv hvm := h.built hpool v hbv (hvm.trans hm)

theorem MapReady.supplied (h : MapReady pool I k n t b e used s) {k' : Nat}
    (hI : I k' s.pages used) : MapReady pool I k' n t b e used s :=
  ⟨h.tree, h.sub, hI, h.free, h.built⟩

/-! ## One entry -/

/-- The whole entry is mapped. -/
theorem mapLeaf_done (h : MapReady pool I k n t b e used s) (hn : n ≤ 3) (hr : RangeOk n b e phys)
    (hold : pteSlot (n + 1) (s.mem t (pageTable.index (n + 1) b)) = .absent)
    (hf : flags &&& PTE_PHYS_MASK = 0) (hb : b % lvlSize (n + 1) = 0)
    (hp : phys % lvlSize (n + 1) = 0) (hsize : e + 1 - b = lvlSize (n + 1))
    (hleaf : n = 0 ∨ (n = 1 ∨ n = 2) ∧ flags &&& PTE_LARGE ≠ 0) :
    MapDone pool I flags k n t b e phys used ∅ s
      (s.put t (pageTable.index (n + 1) b) (BitVec.ofNat 64 phys ||| flags)) := by
  have hlt : phys < 2 ^ 52 := (Nat.le_add_right ..).trans_lt hr.phys_lt
  have hlvl : n + 1 = 1 ∨ (n + 1 = 2 ∨ n + 1 = 3) ∧ flags &&& PTE_LARGE ≠ 0 := by
    rcases hleaf with h0 | ⟨h12, hl⟩
    · exact Or.inl (by omega)
    · exact Or.inr ⟨by omega, hl⟩
  have hslot := @pteSlot_page (n + 1) phys flags hr.phys_al hlt hf
  rw [if_pos hlvl] at hslot
  have hwhole : ∀ v, SameTable n b v → _ := fun v hv => RangeOk.whole hn hr.le hb hp hsize hv
  have hremap := Radix.Remap.write (R := pageTable) (D := SameTable n b)
    (f := mapTarget flags b phys)
    (i := pageTable.index (n + 1) b) (e := BitVec.ofNat 64 phys ||| flags) h.tree
    (fun c hc => nomatch hold.symm.trans hc)
    (fun c hc => by
      have hc' := hslot.symm.trans hc
      split at hc' <;> cases hc')
    (fun v hv hi => by
      unfold mapTarget
      by_cases hpres : flags &&& PTE_PRESENT = 0
      · rw [if_pos hpres] at hslot ⊢
        exact Or.inl ⟨hslot, rfl⟩
      · rw [if_neg hpres] at hslot ⊢
        obtain ⟨hbv, hve⟩ := (hwhole v hv).1.mp hi
        exact Or.inr ⟨_, hslot, by rw [(hwhole v hv).2 hbv hve]⟩)
  refine ⟨hremap.congr (fun v hv => (hwhole v hv).1) (fun _ _ _ => rfl) rfl, nofun,
    fun _ => rfl, ?_, ?_⟩
  · rw [Set.union_empty]
    exact h.supply
  · intro hlarge v _ _
    rcases hleaf with rfl | ⟨_, hl⟩
    · exact ⟨t, rfl⟩
    · exact absurd hlarge hl

/-- The subtree behind an entry is as ready as the table. -/
theorem MapReady.child (h : MapReady pool I k (n + 1) t b e used s) (hr : RangeOk (n + 1) b e phys)
    (hc : pteSlot (n + 2) (s.mem t (pageTable.index (n + 2) b)) = .table c) :
    MapReady pool I k n c b e used s := by
  have hslot : ∀ v, b ≤ v → v ≤ e →
      pageTable.decode (n + 2) (s.mem t (pageTable.index (n + 2) v)) = .table c :=
        fun v hbv hve => by
    rw [hr.index_eq hbv hve]
    exact hc
  refine ⟨(h.tree.1 _ c hc).1, (Radix.tables_child hc).trans h.sub, h.supply, ?_, ?_⟩
  · intro v hbv hve
    rw [← Radix.walk_table h.tree (hslot v hbv hve)]
    exact h.free v hbv hve
  · intro hpool v hbv hve
    rw [← Radix.bottom_table (hslot v hbv hve)]
    exact h.built hpool v hbv hve

/-- What was done to the subtree behind an entry was done to the table. -/
theorem MapDone.child (h : MapReady pool I k (n + 1) t b e used s) (hn : n + 1 ≤ 3)
    (hr : RangeOk (n + 1) b e phys)
    (hc : pteSlot (n + 2) (s.mem t (pageTable.index (n + 2) b)) = .table c) {k' : Nat}
    (hd : MapDone pool I flags k' n c b e phys used fresh s s') :
    MapDone pool I flags k' (n + 1) t b e phys used fresh s s' := by
  have hnot : ∀ x ∈ fresh, x ∉ pageTable.tables s.mem (n + 2) t := fun x hx hm =>
    hd.new x hx (h.sub hm)
  have ht : s'.mem t = s.mem t :=
    hd.remap.frame t (h.tree.1 _ c hc).2.1 fun hm => hnot t hm Radix.mem_tables_self
  refine ⟨?_, hd.new, hd.noPool, hd.supply, ?_⟩
  · exact Radix.Remap.child h.tree hc hnot (fun v _ hv => hr.index_eq hv.1 hv.2)
      (hd.remap.anti fun v hv => sameTable_child hn hv.1 hv.2)
  · intro hlarge v hbv hve
    obtain ⟨d, hd'⟩ := hd.built hlarge v hbv hve
    refine ⟨d, ?_⟩
    rw [Radix.bottom_table (c := c) (by rw [hr.index_eq hbv hve, ht]; exact hc)]
    exact hd'

/-- A fresh page is hooked into an absent entry. -/
theorem hook_remap {s₁ : Paging σ} {page : Nat} (h : MapReady pool I k (n + 1) t b e used s)
    (hold : pteSlot (n + 2) (s.mem t (pageTable.index (n + 2) b)) = .absent)
    (hnew : Fresh used s s₁ page) (D : Nat → Prop) (f : Nat → Option Mapping) :
    pageTable.Remap s.mem
      (s₁.put t (pageTable.index (n + 2) b) (BitVec.ofNat 64 page ||| pdeFlags)).mem (n + 1) t D
      (fun _ => False) f {page} := by
  refine Radix.Remap.hook h.tree hold (fun hm => hnew.new (h.sub hm)) (fun j => ?_) hnew.frame
    (pteSlot_pde (by omega) hnew.addr.aligned hnew.addr.lt) (pde_through hnew.addr.aligned)
  rw [hnew.zero j]
  exact (@pteSlot_absent (n + 1) 0).mpr (by decide)

/-- The table with a fresh page hooked in is ready. -/
theorem MapReady.hooked {s₁ : Paging σ} {page : Nat} (h : MapReady pool I k (n + 1) t b e used s)
    (hold : pteSlot (n + 2) (s.mem t (pageTable.index (n + 2) b)) = .absent)
    (hnew : Fresh used s s₁ page) {k' : Nat} (hI : I k' s₁.pages (insert page used))
    (hpool : pool ≠ none) (hspan : ∀ v, b ≤ v → v ≤ e → SameTable (n + 1) b v) :
    MapReady pool I k' (n + 1) t b e (insert page used)
      (s₁.put t (pageTable.index (n + 2) b) (BitVec.ofNat 64 page ||| pdeFlags)) := by
  have hremap := hook_remap h hold hnew (SameTable (n + 1) b) (fun _ => none)
  refine ⟨hremap.tree, ?_, hI, ?_, fun hp => absurd hp hpool⟩
  · intro x hx
    rcases hremap.tables hx with hx | rfl
    · exact Set.mem_insert_of_mem _ (h.sub hx)
    · exact Set.mem_insert ..
  · intro v hbv hve
    rw [hremap.outside v (hspan v hbv hve) not_false]
    exact h.free v hbv hve

/-- Mapping in the table with a fresh page hooked in, seen from before. -/
theorem MapDone.hooked {s₁ : Paging σ} {page : Nat} (h : MapReady pool I k (n + 1) t b e used s)
    (hold : pteSlot (n + 2) (s.mem t (pageTable.index (n + 2) b)) = .absent)
    (hnew : Fresh used s s₁ page) (hpool : pool ≠ none) {k' : Nat}
    (hd : MapDone pool I flags k' (n + 1) t b e phys (insert page used) fresh
      (s₁.put t (pageTable.index (n + 2) b) (BitVec.ofNat 64 page ||| pdeFlags)) s') :
    MapDone pool I flags k' (n + 1) t b e phys used ({page} ∪ fresh) s s' := by
  have hremap := hook_remap h hold hnew (SameTable (n + 1) b) (mapTarget flags b phys)
  refine ⟨(hremap.trans hd.remap).congr (fun v _ => by simp) (fun _ _ _ => rfl) rfl, ?_,
    fun hp => absurd hp hpool, ?_, hd.built⟩
  · rintro x (rfl | hx)
    · exact hnew.new
    · exact fun hm => hd.new x hx (Set.mem_insert_of_mem _ hm)
  · have : used ∪ ({page} ∪ fresh) = insert page used ∪ fresh := by
      ext x
      simp only [Set.mem_union, Set.mem_insert_iff, Set.mem_singleton_iff]
      tauto
    rw [this]
    exact hd.supply

/-- What is known of the recursive call at the entries of a table of level `n + 1`. -/
def NextOk (next : Nat → Nat → Nat → Nat → Paging σ → Res (Paging σ)) (flags : Pte)
    (pool : Option (PagePool σ)) (E : Stop → Prop) (I : Nat → σ → Set Nat → Prop)
    (n : Nat) : Prop :=
  ∀ {k t b e phys : Nat} {used : Set Nat} {s : Paging σ},
    MapReady pool I (k + 512 * entryPages n) n t b e used s → RangeOk (n + 1) b e phys →
    Post (next t b e phys s) E fun s' =>
      ∃ fresh, MapDone pool I flags k n t b e phys used fresh s s'

/-- **One turn of the loop.** -/
theorem ptMapEntry_spec {next : Nat → Nat → Nat → Nat → Paging σ → Res (Paging σ)}
    (hok : PoolOk pool E I) (hn : n ≤ 3) (hf : flags &&& PTE_PHYS_MASK = 0)
    (hnext : ∀ m, n = m + 1 → NextOk next flags pool E I m)
    (h : MapReady pool I (k + entryPages n) n t b e used s) (hr : RangeOk n b e phys)
    (hspan : ∀ v, b ≤ v → v ≤ e → SameTable n b v) :
    Post (ptMapEntry next flags pool (n + 1) (lvlSize (n + 1)) t
      (pageTable.index (n + 1) b) b e phys s)
      E fun s' => ∃ fresh, MapDone pool I flags k n t b e phys used fresh s s' := by
  unfold ptMapEntry
  rw [hr.tomap hn]
  rcases h.slot hr.le with hslot | ⟨c, hslot⟩
  · simp only [if_pos (pteSlot_absent.mp hslot)]
    split
    · rename_i hmap
      obtain ⟨h4, hsize, hb, hp, hlarge⟩ := hmap
      have hleaf : n = 0 ∨ (n = 1 ∨ n = 2) ∧ flags &&& PTE_LARGE ≠ 0 := by
        rcases hlarge with hl | h1
        · unfold pteLarge at hl
          split at hl
          · exact Or.inr ⟨by omega, hl⟩
          · exact absurd rfl hl
        · exact Or.inl (by omega)
      rw [BitVec.or_assoc, or_pteLarge]
      have hdone := mapLeaf_done h hn hr hslot hf hb hp hsize hleaf
      exact ⟨∅, hdone.remap, hdone.new, hdone.noPool, hok.mono (Nat.le_add_right ..) hdone.supply,
        hdone.built⟩
    · rename_i hmap
      cases n with
      | zero =>
        have hwhole := hr.page
        rw [lvlSize_page] at hmap
        exact absurd ⟨by decide, hwhole, hr.begin_al, hr.phys_al, Or.inr rfl⟩ hmap
      | succ n =>
        have hpool : pool ≠ none := by
          intro hp
          obtain ⟨d, hd⟩ := h.built hp b le_rfl hr.le
          obtain ⟨c, hc⟩ := Radix.exists_table hd
          exact nomatch hslot.symm.trans hc
        obtain ⟨p, hp⟩ := Option.ne_none_iff_exists'.mp hpool
        have hsupply : I (k + 512 * entryPages n + 1) s.pages used :=
          hok.mono (by rw [entryPages_succ]; omega) h.supply
        have hget : poolGetPage pool s = p.get_page s := by
          rw [hp]
          rfl
        rw [bugOn_neg (by omega), ok_bind, hget]
        refine (hok.get p hp hsupply).bind ?_
        rintro ⟨page, s₁⟩ ⟨hnew, hI⟩
        have hready := h.hooked hslot hnew hI hpool hspan
        have hpde := @pteSlot_pde (n + 2) page (by omega) hnew.addr.aligned hnew.addr.lt
        rw [bugOn_neg hnew.addr.ne_zero, ok_bind, (pteSlot_table hpde).2.2]
        have hc : pteSlot (n + 2) ((s₁.put t (pageTable.index (n + 2) b)
            (BitVec.ofNat 64 page ||| pdeFlags)).mem t (pageTable.index (n + 2) b)) =
                .table page := by
          rw [Paging.put_mem, Radix.put_self]
          exact hpde
        refine (hnext n rfl (hready.child hr hc) hr).mono ?_
        rintro s' ⟨fresh, hd⟩
        exact ⟨_, (hd.child hready hn hr hc).hooked h hslot hnew hpool⟩
  · obtain ⟨hpres, h1, hphys⟩ := pteSlot_table hslot
    simp only [if_neg hpres]
    cases n with
    | zero => exact absurd rfl h1
    | succ n =>
      rw [bugOn_neg h1, ok_bind, hphys]
      have hsupply : I (k + 512 * entryPages n) s.pages used :=
        hok.mono (by rw [entryPages_succ]; omega) h.supply
      have hready := (h.child hr hslot).supplied hsupply
      refine (hnext n rfl hready hr).mono ?_
      rintro s' ⟨fresh, hd⟩
      exact ⟨fresh, hd.child h hn hr hslot⟩

/-! ## The loop and the recursion -/

/-- What is left to do once the pages up to `m` are mapped. -/
theorem MapReady.rest (h : MapReady pool I k n t b e used s)
    (hr : RangeOk (n + 1) b e phys) {k' : Nat}
    (hd : MapDone pool I flags k' n t b m phys used fresh s s') (hbm : b ≤ m) :
    MapReady pool I k' n t (m + 1) e (used ∪ fresh) s' := by
  refine ⟨hd.remap.tree, ?_, hd.supply, ?_, ?_⟩
  · intro x hx
    exact (hd.remap.tables hx).imp_left fun hx => h.sub hx
  · intro v hmv hve
    rw [hd.remap.outside v (hr.sameTable (by omega) hve) (by omega)]
    exact h.free v (by omega) hve
  · intro hp v hmv hve
    obtain ⟨c, hc⟩ := h.built hp v (by omega) hve
    exact ⟨c, hd.remap.bottom v c (hr.sameTable (by omega) hve) hc⟩

/-- The pages up to `m` and those behind it were mapped. -/
theorem MapDone.append {k' : Nat} {s₁ : Paging σ} {fresh' : Set Nat}
    (hd : MapDone pool I flags k n t b m phys used fresh s s₁) (hbm : b ≤ m) (hme : m ≤ e)
    (hsame : (m + 1) / lvlSize (n + 2) = b / lvlSize (n + 2))
    (hr : RangeOk (n + 1) b e phys)
    (hd' : MapDone pool I flags k' n t (m + 1) e (phys + (m + 1 - b)) (used ∪ fresh) fresh' s₁ s') :
    MapDone pool I flags k' n t b e phys used (fresh ∪ fresh') s s' := by
  have hD : ∀ v, SameTable n b v → SameTable n (m + 1) v := fun v hv => hv.trans hsame.symm
  have htarget : ∀ v, m + 1 ≤ v → mapTarget flags (m + 1) (phys + (m + 1 - b)) v =
      mapTarget flags b phys v := by
    intro v hv
    unfold mapTarget
    rw [show phys + (m + 1 - b) + (v - (m + 1)) = phys + (v - b) by omega]
  have hremap' := (hd'.remap.anti hD).congr (fun v _ => Iff.rfl) (fun v _ hv => htarget v hv.1) rfl
  refine ⟨(hd.remap.trans hremap').congr (fun v _ => by omega) (fun _ _ _ => rfl) rfl,
    ?_, ?_, ?_, ?_⟩
  · rintro x (hx | hx)
    · exact hd.new x hx
    · exact fun hm => hd'.new x hx (Or.inl hm)
  · intro hp
    rw [hd.noPool hp, hd'.noPool hp, Set.union_empty]
  · rw [← Set.union_assoc]
    exact hd'.supply
  · intro hlarge v hbv hve
    by_cases hv : v ≤ m
    · obtain ⟨c, hc⟩ := hd.built hlarge v hbv hv
      exact ⟨c, hd'.remap.bottom v c (hD v (hr.sameTable hbv hve)) hc⟩
    · exact hd'.built hlarge v (by omega) hve

/-- **The loop**, from the entry of `b` to the entry of `e`. -/
theorem ptMapLoop_spec {next : Nat → Nat → Nat → Nat → Paging σ → Res (Paging σ)}
    (hok : PoolOk pool E I) (hn : n ≤ 3) (hf : flags &&& PTE_PHYS_MASK = 0)
    (hnext : ∀ m, n = m + 1 → NextOk next flags pool E I m) : ∀ (turns : Nat) {k b phys : Nat}
    {used : Set Nat} {s : Paging σ}, MapReady pool I (k + turns * entryPages n) n t b e used s →
    RangeOk (n + 1) b e phys → pageTable.index (n + 1) b + turns = pageTable.index (n + 1) e + 1 →
    Post (ptMapLoop next flags pool (n + 1) (lvlSize (n + 1)) t e turns
        (pageTable.index (n + 1) b) b
        phys s) E fun s' => ∃ fresh, MapDone pool I flags k n t b e phys used fresh s s' := by
  intro turns
  induction turns with
  | zero =>
    intro k b phys used s _ hr hturns
    have := hr.index_le hn
    omega
  | succ turns ih =>
    intro k b phys used s h hr hturns
    have hfirst := hr.first hn
    have hle := hr.first_le hn
    have hlast := hr.last_iff hn
    have hrest := hr.rest hn (m := mapEnd b e (lvlSize (n + 1))) rfl
    unfold ptMapLoop
    generalize mapEnd b e (lvlSize (n + 1)) = m at *
    have hbm := hfirst.le
    rw [Nat.succ_mul, ← Nat.add_assoc] at h
    refine (ptMapEntry_spec hok hn hf hnext (h.first hle) hfirst fun v hbv hve =>
      hr.sameTable hbv (hve.trans hle)).bind ?_
    rintro s₁ ⟨fresh, hd⟩
    simp only [hfirst.tomap hn]
    rcases Nat.lt_or_eq_of_le hle with hlt | rfl
    · obtain ⟨hr', hsame, hindex⟩ := hrest hlt
      have hbeg : (b + (m + 1 - b)) % WORD = m + 1 := by
        rw [Nat.add_sub_of_le (Nat.le_succ_of_le hbm)]
        exact Nat.mod_eq_of_lt (lt_of_le_of_lt hlt hr.lt)
      have hphys : (phys + (m + 1 - b)) % WORD = phys + (m + 1 - b) :=
        Nat.mod_eq_of_lt (((Nat.le_add_right ..).trans_lt hr'.phys_lt).trans (by decide))
      rw [hbeg, hphys, ← hindex]
      refine (ih (h.rest hr hd hbm) hr' (by omega)).mono ?_
      rintro s' ⟨fresh', hd'⟩
      exact ⟨fresh ∪ fresh', hd.append hbm hle hsame hr hd'⟩
    · have hzero : turns = 0 := by
        have := hlast.mp rfl
        omega
      subst hzero
      refine Post.ok ⟨fresh, ?_⟩
      rw [Nat.zero_mul, Nat.add_zero] at hd
      exact hd

/-- One level of the recursion. -/
theorem ptMapLvl_step (hok : PoolOk pool E I) (hf : flags &&& PTE_PHYS_MASK = 0) (hn : n ≤ 3)
    (hnext : ∀ m, n = m + 1 → NextOk (ptMapLvl flags pool n) flags pool E I m) :
    NextOk (ptMapLvl flags pool (n + 1)) flags pool E I n := by
  intro k t b e phys used s h hr
  unfold ptMapLvl
  rw [pmlSize_eq (by omega) (by omega), ok_bind, pmlOffs_eq (by omega) (by omega), ok_bind,
    pmlOffs_eq (by omega) (by omega), ok_bind]
  have hle := hr.index_le hn
  have hlt : pageTable.index (n + 1) e < 512 := Nat.mod_lt _ (by decide)
  generalize hturns : pageTable.index (n + 1) e + 1 - pageTable.index (n + 1) b = turns
  have hpages : turns * entryPages n ≤ 512 * entryPages n := Nat.mul_le_mul_right _ (by omega)
  exact ptMapLoop_spec hok hn hf hnext turns (h.supplied (hok.mono (by omega) h.supply)) hr
    (by omega)

/-- **`__pt_map_pages`** at each level. -/
theorem ptMapLvl_spec (hok : PoolOk pool E I) (hf : flags &&& PTE_PHYS_MASK = 0) (hn : n ≤ 3) :
    NextOk (ptMapLvl flags pool (n + 1)) flags pool E I n := by
  induction n with
  | zero => exact ptMapLvl_step hok hf hn nofun
  | succ n ih =>
    refine ptMapLvl_step hok hf hn fun m hm => ?_
    obtain rfl : n = m := by omega
    exact ih (by omega)

end AuOs
