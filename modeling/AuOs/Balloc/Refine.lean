import Mathlib
import AuOs.Balloc.Linked

/-!
# The bootstrap allocator in memory refines the model on trees

* `InMemory L m s` — the nodes in memory hold the two trees, the free list and the ranges of `s`.
* `allocNode_refines`, `freeNode_refines`, `unlinkNode_refines` — a node goes from one structure to
  another, and its words change their meaning.
* `addRange_refines`, `cutNode_refines`, `removeRange_refines`, `allocRaw_refines` — the functions
  in memory end like the functions on trees.
* `balloc_in_memory` — the result for every run from `balloc_setup_nodes` on.
-/

set_option autoImplicit false

namespace AuOs

open BallocMem

/-- One list, and no other. -/
def onlyList (head : ListPtr) (l : List ListPtr) : ListPtr → Option (List ListPtr) :=
  Function.update (fun _ => none) head (some l)

/-- **The nodes in memory hold the state of the allocator.** -/
structure InMemory (L : BallocLayout) (m : BallocMem) (s : Balloc) : Prop where
  keys : ∀ i < BALLOC_MAX_RANGES, m.keys (L.addr i) = s.nodes i
  trees : ∀ w, ∃ t, Represents (m.tree w) t ∧ t.Valid ∧ t.toList = (s.ids w).map L.addr
  free : HoldsLists m.lists (onlyList L.head (s.freeList.map L.addr))
  linked : ∀ i < BALLOC_MAX_RANGES, m.links (L.addr i) ≠ none

/-! ## Frames -/

section Frames

theorem onlyList_update (head : ListPtr) (l l' : List ListPtr) :
    Function.update (onlyList head l) head (some l') = onlyList head l' := Function.update_idem ..

theorem onlyList_self (head : ListPtr) (l : List ListPtr) : onlyList head l head = some l :=
  Function.update_self ..

theorem onlyList_some {head head' : ListPtr} {l k : List ListPtr}
    (h : onlyList head l head' = some k) : head' = head ∧ k = l := by
  by_cases he : head' = head
  · subst he
    rw [onlyList_self] at h
    exact ⟨rfl, (Option.some.inj h).symm⟩
  · rw [onlyList, Function.update_of_ne he] at h
    cases h

/-- A list depends on its own nodes. -/
theorem HoldsLists.frame {m m' : ListMem} {head : ListPtr} {l : List ListPtr}
    (h : HoldsLists m (onlyList head l))
    (hsame : ∀ x ∈ head :: l, m' x = m x) : HoldsLists m' (onlyList head l) := by
  have hc := h.circuit head l (onlyList_self head l)
  have h' : HoldsLists m' (Function.update (onlyList head l) head (some l)) :=
    h.update (hc.frame ?_) (h.nonnull head l (onlyList_self head l)) ?_
  · rwa [onlyList_update] at h'
  · intro x hx y hy hxy
    unfold Adjacent ListMem.next ListMem.prev at hxy ⊢
    rwa [hsame x hx, hsame y hy]
  · intro head' k hne hk
    exact absurd (onlyList_some hk).1 hne

/-- A tree depends on its own nodes. -/
theorem Represents.frame {h h' : RbHeap} {t : RbTree RbPtr} (hr : Represents h t)
    (hroot : h'.root = h.root)
    (hsame : ∀ x ∈ t.toList, h'.nodes x = h.nodes x) : Represents h' t where
  root := hroot.trans hr.root
  linked := hr.linked.frame hsame
  nodup := hr.nodup
  addr := hr.addr

theorem Linked.nodes_ne_none {nodes : RbPtr → Option RbNode} {t : RbTree RbPtr} : ∀ {par : RbPtr},
    Linked nodes par t → ∀ x ∈ t.toList, nodes x ≠ none := by
  induction t with
  | leaf =>
    intro par _ x hx
    cases hx
  | node c l y r ihl ihr =>
    rintro par ⟨hy, hl, hr⟩ x hx
    rcases List.mem_append.mp hx with hx | hx
    · exact ihl hl x hx
    rcases List.mem_cons.mp hx with rfl | hx
    · rw [hy]
      exact Option.some_ne_none _
    · exact ihr hr x hx

end Frames

namespace InMemory

variable {L : BallocLayout} {m : BallocMem} {s : Balloc} {held A B : List Nat}
  {w : Which} {p i : Nat}

/-- The nodes of the pool. -/
theorem lt_of_mem (ho : Owned s held) (w : Which)
    (hi : i ∈ held ++ (s.freeList ++ (s.ids w ++ s.ids w.other))) : i < BALLOC_MAX_RANGES :=
  List.mem_range.mp ((ho.perm w).mem_iff.mp hi)

theorem ids_lt (ho : Owned s held) (hi : i ∈ s.ids w) : i < BALLOC_MAX_RANGES :=
  lt_of_mem ho w (List.mem_append_right _ (List.mem_append_right _ (List.mem_append_left _ hi)))

theorem free_lt (ho : Owned s held) (hi : i ∈ s.freeList) : i < BALLOC_MAX_RANGES :=
  lt_of_mem ho .memoryMap (List.mem_append_right _ (List.mem_append_left _ hi))

theorem held_lt (ho : Owned s (p :: held)) : p < BALLOC_MAX_RANGES :=
  lt_of_mem ho .memoryMap (List.mem_append_left _ List.mem_cons_self)

/-- A node of the pool is among the nodes at these addresses only if it is one of them. -/
theorem mem_of_addr {l : List Nat} (hi : i < BALLOC_MAX_RANGES)
    (hl : ∀ j ∈ l, j < BALLOC_MAX_RANGES) (hmem : L.addr i ∈ l.map L.addr) : i ∈ l := by
  obtain ⟨j, hj, he⟩ := List.mem_map.mp hmem
  rwa [← L.addr_inj (hl j hj) hi he]

/-- The parts of the pool. -/
theorem not_free (ho : Owned s held) (hi : i ∈ s.ids w) : i ∉ s.freeList :=
  ho.not_free w (List.mem_append_right _ (List.mem_append_left _ hi))

theorem not_other (ho : Owned s held) (hi : i ∈ s.ids w) : i ∉ s.ids w.other := by
  intro hi'
  have hn := (List.nodup_append.mp (List.nodup_append.mp (ho.nodup w)).2.1).2.1
  exact (List.nodup_append.mp hn).2.2 i hi i hi' rfl

/-- A node in a tree is not in the list in memory. -/
theorem not_listed (ho : Owned s held) (hi : i ∈ s.ids w) :
    L.addr i ∉ L.head :: s.freeList.map L.addr := by
  intro hm
  rcases List.mem_cons.mp hm with he | hm
  · exact L.addr_ne_head (ids_lt ho hi) he
  · exact not_free ho hi (mem_of_addr (ids_lt ho hi) (fun j hj => free_lt ho hj) hm)

/-- The trees are not high. -/
theorem height_le (ho : Owned s held) {t : RbTree RbPtr} (hv : t.Valid)
    (hl : t.toList = (s.ids w).map L.addr) : t.height + 2 ≤ TREE_TURNS := by
  have hlen : t.toList.length + 1 ≤ BALLOC_MAX_RANGES + 1 := by
    rw [hl, List.length_map]
    exact Nat.succ_le_succ (ho.length_le w)
  have hlog := Nat.log_mono_right (b := 2) hlen
  have hheight := hv.height_le
  unfold heightBound at hheight
  unfold TREE_TURNS
  omega

/-! ## Writes -/

theorem setKey (hm : InMemory L m s) (hp : p < BALLOC_MAX_RANGES) (node : MemoryNode) :
    InMemory L (m.setKey (L.addr p) node) (s.setNode p node) where
  keys := by
    intro i hi
    show Function.update m.keys (L.addr p) node (L.addr i) = Function.update s.nodes p node i
    by_cases he : i = p
    · subst he
      rw [Function.update_self, Function.update_self]
    · rw [Function.update_of_ne he, Function.update_of_ne fun ha => he (L.addr_inj hi hp ha),
        hm.keys i hi]
  trees := hm.trees
  free := hm.free
  linked := hm.linked

/-- **A tree is written**, and nothing else. -/
theorem setTree (hm : InMemory L m s) {h : RbHeap} {t : RbTree RbPtr} {u : RbTree Nat}
    (hr : Represents h t) (hv : t.Valid) (hl : t.toList = u.toList.map L.addr)
    (hother : ∀ i ∈ s.ids w.other, h.nodes (L.addr i) = m.links (L.addr i))
    (hfree : ∀ x ∈ L.head :: s.freeList.map L.addr, h.nodes x = m.links x)
    (hlinked : ∀ i < BALLOC_MAX_RANGES, h.nodes (L.addr i) ≠ none) :
    InMemory L (m.setTree w h) (s.setTree w u) where
  keys := hm.keys
  trees := by
    intro v
    rcases w.eq_or_other v with rfl | rfl
    · refine ⟨t, hr.frame (Function.update_self ..) fun _ _ => rfl, hv, ?_⟩
      rw [ids_setTree, hl]
    · obtain ⟨t', hr', hv', hl'⟩ := hm.trees w.other
      refine ⟨t', hr'.frame (Function.update_of_ne w.other_ne ..) ?_, hv', ?_⟩
      · intro x hx
        rw [hl'] at hx
        obtain ⟨i, hi, rfl⟩ := List.mem_map.mp hx
        exact hother i hi
      · rw [ids_setTree_other, hl']
  free := by
    refine hm.free.frame fun x hx => ?_
    show (h.nodes x).map _ = (m.links x).map _
    rw [hfree x hx]
  linked := hlinked

/-- The words of the list entries after a write of lists. -/
theorem lists_setLists {l : ListMem} (hl : ∀ x, l x = none ↔ m.lists x = none) :
    (m.setLists l).lists = l := by
  funext x
  have hx := hl x
  unfold BallocMem.lists at hx
  unfold BallocMem.lists BallocMem.setLists
  cases hm : m.links x with
  | none =>
    simp only [hm, Option.map_none, iff_true] at hx ⊢
    exact hx.symm
  | some n =>
    simp only [hm, Option.map_some, reduceCtorEq, iff_false] at hx ⊢
    obtain ⟨e, he⟩ := Option.ne_none_iff_exists'.mp hx
    rw [he]

/-- Nodes whose list entry was not written. -/
theorem links_setLists {l : ListMem} {x : RbPtr} (hx : l x = m.lists x) :
    (m.setLists l).links x = m.links x := by
  unfold BallocMem.lists at hx
  unfold BallocMem.setLists
  cases hm : m.links x with
  | none => simp only [hm, Option.map_none]
  | some n =>
    rw [hm, Option.map_some] at hx
    simp only [hm, Option.map_some, hx]

/-- **The free list is written**, and nothing else. -/
theorem setLists (hm : InMemory L m s) {l : ListMem} {nodes : List Nat}
    (hl : ∀ x, l x = none ↔ m.lists x = none)
    (hfree : HoldsLists l (onlyList L.head (nodes.map L.addr)))
    (hsame : ∀ w, ∀ i ∈ s.ids w, l (L.addr i) = m.lists (L.addr i)) :
    InMemory L (m.setLists l) { s with freeList := nodes } where
  keys := hm.keys
  trees := by
    intro w
    obtain ⟨t, hr, hv, hlist⟩ := hm.trees w
    refine ⟨t, hr.frame rfl ?_, hv, hlist⟩
    intro x hx
    rw [hlist] at hx
    obtain ⟨i, hi, rfl⟩ := List.mem_map.mp hx
    exact links_setLists (hsame w i hi)
  free := by
    rw [lists_setLists hl]
    exact hfree
  linked := by
    intro i hi he
    exact hm.linked i hi (Option.map_eq_none_iff.mp he)

/-- Every pool node is a list node. -/
theorem lists_ne_none (hm : InMemory L m s) (hi : i < BALLOC_MAX_RANGES) :
    m.lists (L.addr i) ≠ none :=
  fun he => hm.linked i hi (Option.map_eq_none_iff.mp he)

/-! ## The nodes of the pool -/

/-- **`balloc_alloc_node`.** -/
theorem allocNode_refines (hm : InMemory L m s) (ho : Owned s held) :
    Alike (m.allocNode L) (ballocAllocNode s) fun p q => InMemory L p.1 q.1 ∧ p.2 = L.addr q.2 ∧
      p.1.root = m.root ∧ p.1.keys = m.keys ∧ ∀ w, ∀ i ∈ s.ids w, p.1.links (L.addr i) = m.links
          (L.addr i) := by
  have hself := onlyList_self L.head (s.freeList.map L.addr)
  unfold BallocMem.allocNode ballocAllocNode
  rw [hm.free.listEmpty_eq hself, ok_bind]
  cases hfree : s.freeList with
  | nil => exact Alike.error _
  | cons p rest =>
    have hf := hm.free
    rw [hfree, List.map_cons] at hf
    have hself := onlyList_self L.head (L.addr p :: rest.map L.addr)
    have hnext : m.lists.next L.head = some (L.addr p) := by
      have hc := (hf.circuit L.head _ hself).chain
      exact (List.isChain_cons_cons.mp hc).1.1
    obtain ⟨l, hdel, hholds, hzero, hframe⟩ := hf.del (A := []) hself
    rw [onlyList_update] at hholds
    rw [List.map_cons, if_neg (by simp), ListMem.getNext_eq L.head_ne_zero hnext, ok_bind, hdel]
    have hnone : ∀ x, l x = none ↔ m.lists x = none := by
      intro x
      by_cases hx : x ∈ L.head :: L.addr p :: rest.map L.addr
      · refine iff_of_false ?_ (hf.node hself hx).2
        by_cases hxp : x = L.addr p
        · rw [hxp, hzero]
          exact Option.some_ne_none _
        · have hx' : x ∈ L.head :: ([] ++ rest.map L.addr) := by
            simp only [List.mem_cons, List.nil_append] at hx ⊢
            tauto
          exact (hholds.node (onlyList_self ..) hx').2
      · rw [hframe x hx]
    have hsame : ∀ w, ∀ i ∈ s.ids w, l (L.addr i) = m.lists (L.addr i) := by
      intro w i hi
      refine hframe _ ?_
      have hout := not_listed (L := L) ho hi
      rwa [hfree, List.map_cons] at hout
    refine Alike.ok ⟨hm.setLists hnone hholds hsame, rfl, rfl, rfl, ?_⟩
    intro w i hi
    exact links_setLists (hsame w i hi)

/-- **`balloc_free_node`.** -/
theorem freeNode_refines (hm : InMemory L m s) (ho : Owned s (p :: held)) :
    Alike (m.freeNode L (L.addr p)) (ballocFreeNode s p) (InMemory L) := by
  have hp := held_lt ho
  have hn := ho.nodup .memoryMap
  rw [List.cons_append, List.nodup_cons] at hn
  simp only [List.mem_append, not_or] at hn
  obtain ⟨⟨_, hpf, hpm, hpr⟩, _⟩ := hn
  have hself := onlyList_self L.head (s.freeList.map L.addr)
  have hout : L.addr p ∉ L.head :: s.freeList.map L.addr := by
    intro hmem
    rcases List.mem_cons.mp hmem with he | hmem
    · exact L.addr_ne_head hp he
    · exact hpf (mem_of_addr hp (fun j hj => free_lt ho hj) hmem)
  have hunlinked : Unlinked m.lists (onlyList L.head (s.freeList.map L.addr)) (L.addr p) := by
    refine ⟨⟨L.addr_ne_zero hp, hm.lists_ne_none hp⟩, ?_⟩
    intro head l hl
    obtain ⟨rfl, rfl⟩ := onlyList_some hl
    exact hout
  obtain ⟨l, hadd, hholds, hframe⟩ := hm.free.add hunlinked hself
  rw [onlyList_update, ← List.map_cons] at hholds
  unfold BallocMem.freeNode ballocFreeNode
  rw [hadd, if_neg (by simp only [not_or]; exact ⟨hpf, hpm, hpr⟩)]
  have hself' := onlyList_self L.head ((p :: s.freeList).map L.addr)
  refine Alike.ok (hm.setLists ?_ hholds ?_)
  · intro x
    by_cases hx : x ∈ L.head :: (p :: s.freeList).map L.addr
    · refine iff_of_false (hholds.node hself' hx).2 ?_
      by_cases hxp : x = L.addr p
      · rw [hxp]
        exact hm.lists_ne_none hp
      · have hx' : x ∈ L.head :: s.freeList.map L.addr := by
          simp only [List.map_cons, List.mem_cons] at hx ⊢
          tauto
        exact (hm.free.node hself hx').2
    · simp only [List.map_cons, List.mem_cons, not_or] at hx
      rw [hframe x hx.2.1 (by simp only [List.mem_cons, not_or]; exact ⟨hx.1, hx.2.2⟩)]
  · intro w i hi
    refine hframe _ ?_ (not_listed ho hi)
    intro he
    obtain rfl := L.addr_inj (ids_lt ho hi) hp he
    cases w with
    | memoryMap => exact hpm hi
    | freeRanges => exact hpr hi

/-- The nodes of the other tree and of the free list are not in the tree. -/
theorem outside_tree (ho : Owned s held) {t : RbTree RbPtr} (hl : t.toList = (s.ids w).map L.addr) :
    (∀ i ∈ s.ids w.other, L.addr i ∉ t.toList) ∧
    ∀ x ∈ L.head :: s.freeList.map L.addr, x ∉ t.toList := by
  rw [hl]
  refine ⟨?_, ?_⟩
  · intro i hi hmem
    have hin := mem_of_addr (ids_lt (w := w.other) ho hi) (fun j hj => ids_lt ho hj) hmem
    exact not_other ho hin hi
  · intro x hx hmem
    obtain ⟨i, hi, rfl⟩ := List.mem_map.mp hmem
    exact not_listed ho hi hx

/-- **`rb_erase`** of a node of a tree. -/
theorem unlinkNode_refines (hm : InMemory L m s) (ho : Owned s held)
    (hids : s.ids w = A ++ p :: B) :
    Alike (m.unlinkNode w (L.addr p)) (unlinkNode s w p) (InMemory L) := by
  obtain ⟨t, hr, hv, hl⟩ := hm.trees w
  obtain ⟨u, herase, _, hlist⟩ := rbErase_split (ho.valid w) (ho.ids_nodup w) hids
  obtain ⟨h₁, t', herase', hr', hv', hlist', hframe⟩ :=
    rbErase_mem (A := A.map L.addr) (x := L.addr p)
    (B := B.map L.addr) hr hv (by rw [hl, hids, List.map_append, List.map_cons])
      (height_le ho hv hl)
  obtain ⟨hother, hfree⟩ := outside_tree (L := L) ho hl
  unfold BallocMem.unlinkNode unlinkNode
  rw [herase, herase', ok_bind]
  refine Alike.ok (hm.setTree hr' hv' ?_ ?_ ?_ ?_)
  · rw [hlist', hlist, List.map_append]
  · exact fun i hi => hframe _ (hother i hi)
  · exact fun x hx => hframe _ (hfree x hx)
  · intro i hi
    exact (RbHeap.rbErase_within TREE_TURNS (m.tree w) (L.addr p)).of_eq herase' _ (hm.linked i hi)

/-! ## `__balloc_add_range` -/

/-- The range of a node of the pool. -/
theorem key_eq (hm : InMemory L m s) (ho : Owned s held) (hi : i ∈ s.ids w) :
    m.keys (L.addr i) = s.nodes i :=
  hm.keys i (ids_lt ho hi)

/-- The new node in its slot. -/
theorem linkRange_refines {from_ to_ : Nat} (hm : InMemory L m s) (ho : Owned s held)
    (hids : s.ids w = A ++ B)
    (hA : ∀ a ∈ A, (s.nodes a).begin_ < from_) (hB : ∀ b ∈ B, from_ ≤ (s.nodes b).begin_) :
    Alike (m.linkRange L w from_ to_) (linkRange s w from_ to_) fun p q => InMemory L p.1 q.1 ∧
    p.2 = L.addr q.2 := by
  obtain ⟨t, hr, hv, hl⟩ := hm.trees w
  have hheight := height_le ho hv hl
  unfold BallocMem.linkRange linkRange
  rw [descendLoop_root hr (show t.height < TREE_TURNS by omega), ok_bind]
  refine ((allocNode_refines hm ho).and_post (E := fun _ => True)
    (Q := fun q => q.2 ∈ s.freeList ∧ q.1.tree = s.tree ∧ s.freeList = q.2 :: q.1.freeList) ?_).bind
      ?_
  · unfold ballocAllocNode
    split
    · exact Post.error trivial
    · rename_i new rest hfree
      exact Post.ok ⟨hfree ▸ List.mem_cons_self, rfl, hfree⟩
  rintro ⟨m₁, new'⟩ ⟨s₁, new⟩ ⟨⟨hm₁, rfl, hroot, hkeys, hlinks⟩, hnew, htree, hfree⟩
  simp only at hm₁ hroot hkeys hlinks hnew htree hfree ⊢
  have hlt := free_lt ho hnew
  have hm₂ := hm₁.setKey hlt ⟨from_, to_⟩
  have hr₁ : Represents ((m₁.setKey (L.addr new) ⟨from_, to_⟩).tree w) t := by
    refine hr.frame (congrFun hroot w) ?_
    intro x hx
    rw [hl] at hx
    obtain ⟨i, hi, rfl⟩ := List.mem_map.mp hx
    exact hlinks w i hi
  obtain ⟨u, hins, _, hlist⟩ := rbInsert_descend
    (p := fun node => decide ((s.nodes node).begin_ < from_)) (ho.valid w) hids (fun a ha => decide_eq_true (hA a ha)) (fun b hb =>
      decide_eq_false (not_lt.mpr (hB b hb))) new
  obtain ⟨n, hn⟩ := Option.ne_none_iff_exists'.mp (hm₂.linked new hlt)
  have hnot : L.addr new ∉ t.toList := by
    rw [hl]
    intro hmem
    exact not_free ho (mem_of_addr hlt (fun j hj => ids_lt ho hj) hmem) hnew
  have hmapA : ∀ a ∈ A.map L.addr, decide ((m.keys a).begin_ < from_) = true := by
    intro a ha
    obtain ⟨i, hi, rfl⟩ := List.mem_map.mp ha
    rw [hm.key_eq ho (w := w) (hids ▸ List.mem_append_left _ hi)]
    exact decide_eq_true (hA i hi)
  have hmapB : ∀ b ∈ B.map L.addr, decide ((m.keys b).begin_ < from_) = false := by
    intro b hb
    obtain ⟨i, hi, rfl⟩ := List.mem_map.mp hb
    rw [hm.key_eq ho (w := w) (hids ▸ List.mem_append_right _ hi)]
    exact decide_eq_false (not_lt.mpr (hB i hi))
  obtain ⟨h₁, h₂, t', hlink, hins', hr', hv', hlist', hframe⟩ := linkInsert_spec hr₁ hv
    (by rw [hl, hids, List.map_append]) hmapA hmapB hn (L.addr_ne_zero hlt) (L.addr_even new) hnot
    (show t.height < TREE_TURNS by omega)
  rw [hlink, ok_bind, hins', ok_bind]
  show Alike _ (rbInsert _ _ >>= _) _
  rw [hins, ok_bind]
  obtain ⟨hother, hout⟩ := outside_tree (L := L) ho hl
  have hids₁ : ∀ v, s₁.ids v = s.ids v := fun v => congrArg RbTree.toList (congrFun htree v)
  have hnodup := ho.nodup w
  rw [hfree] at hnodup
  refine Alike.ok ⟨hm₂.setTree (w := w) hr' hv' ?_ ?_ ?_ ?_, rfl⟩
  · rw [hlist', hlist, List.map_append, List.map_cons]
  · intro i hi
    have hi' : i ∈ s.ids w.other := hids₁ w.other ▸ hi
    refine hframe _ ?_ (hother i hi')
    intro he
    have heq := L.addr_inj (ids_lt ho hi') hlt he
    exact not_free ho hi' (heq ▸ hnew)
  · intro x hx
    have hx' : x ∈ L.head :: s.freeList.map L.addr := by
      rw [hfree, List.map_cons]
      simp only [List.mem_cons] at hx ⊢
      exact hx.imp_right Or.inr
    refine hframe x ?_ (hout x hx')
    rintro rfl
    rcases List.mem_cons.mp hx with he | hx
    · exact L.addr_ne_head hlt he
    · have hin : new ∈ s₁.freeList :=
        mem_of_addr hlt (fun j hj => free_lt ho (hfree ▸ List.mem_cons_of_mem _ hj)) hx
      have hcons := (List.nodup_append.mp (List.nodup_append.mp hnodup).2.1).1
      exact (List.nodup_cons.mp hcons).1 hin
  · intro i hi
    by_cases hin : L.addr i ∈ t'.toList
    · exact hr'.linked.nodes_ne_none _ hin
    · rw [hlist'] at hin
      have hold : L.addr i ∉ t.toList := by
        rw [hl, hids, List.map_append]
        simp only [List.mem_append, List.mem_cons, not_or] at hin ⊢
        exact ⟨hin.1, hin.2.2⟩
      rw [hframe _ (fun he => hin (he ▸ by simp)) hold]
      exact hm₂.linked i hi

/-- A node that is taken over leaves the tree and the pool gets it back. -/
theorem takeOver_refines {r : MemoryNode} {new : Nat} (hm : InMemory L m s) (ho : Owned s held)
    (hnew : new < BALLOC_MAX_RANGES) (hids : s.ids w = A ++ p :: B) :
    Alike ((m.setKey (L.addr new) r).unlinkNode w (L.addr p) >>= fun m => m.freeNode L (L.addr p))
      (unlinkNode (s.setNode new r) w p >>= fun s => ballocFreeNode s p) (InMemory L) := by
  have ho' : Owned (s.setNode new r) held := ⟨ho.valid, ho.nodes⟩
  have hids' : (s.setNode new r).ids w = A ++ p :: B := hids
  have hpost : Post (unlinkNode (s.setNode new r) w p) (fun _ => True) fun s' =>
    Owned s' (p :: held) := by
    obtain ⟨s', hun, hs', _⟩ := unlinkNode_spec ho' hids'
    exact Post.of_ok ⟨s', hun, hs'⟩
  refine ((unlinkNode_refines (hm.setKey hnew r) ho' hids').and_post hpost).bind ?_
  rintro m' s' ⟨hm', hs'⟩
  exact freeNode_refines hm' hs'

theorem absorbPrev_refines {new : Nat} (hm : InMemory L m s) (ho : Owned s held)
    (hids : s.ids w = A ++ new :: B) :
    Alike (m.absorbPrev L w (L.addr new)) (absorbPrev s w new) (InMemory L) := by
  obtain ⟨t, hr, hv, hl⟩ := hm.trees w
  have hheight := height_le ho hv hl
  have hlist : t.toList = A.map L.addr ++ L.addr new :: B.map L.addr := by
    rw [hl, hids, List.map_append, List.map_cons]
  have hnew : new ∈ s.ids w := hids ▸ List.mem_append_right _ List.mem_cons_self
  unfold BallocMem.absorbPrev absorbPrev
  rw [rbPrev_height hr hlist (show t.height < TREE_TURNS by omega),
    rbPrev_spec (ho.ids_nodup w) hids, ok_bind, ok_bind, List.getLast?_map]
  rcases List.eq_nil_or_concat' A with rfl | ⟨A', q, rfl⟩
  · exact Alike.ok hm
  · have hq : q ∈ s.ids w := hids ▸ by simp
    simp only [List.getLast?_append, List.getLast?_singleton, Option.some_or, Option.map_some,
      Option.getD_some]
    rw [if_neg (L.addr_ne_zero (ids_lt ho hq)), hm.key_eq ho hq, hm.key_eq ho hnew]
    split
    · exact takeOver_refines (A := A') (B := new :: B) hm ho (ids_lt ho hnew) (by simpa using hids)
    · exact Alike.ok hm

theorem absorbNext_refines {new : Nat} (hm : InMemory L m s) (ho : Owned s held)
    (hids : s.ids w = A ++ new :: B) :
    Alike (m.absorbNext L w (L.addr new)) (absorbNext s w new) (InMemory L) := by
  obtain ⟨t, hr, hv, hl⟩ := hm.trees w
  have hheight := height_le ho hv hl
  have hlist : t.toList = A.map L.addr ++ L.addr new :: B.map L.addr := by
    rw [hl, hids, List.map_append, List.map_cons]
  have hnew : new ∈ s.ids w := hids ▸ List.mem_append_right _ List.mem_cons_self
  have hnext := rbNext_height hr hlist (show t.height < TREE_TURNS by omega)
  unfold BallocMem.absorbNext absorbNext
  rw [rbNext_spec (ho.ids_nodup w) hids, ok_bind]
  cases B with
  | nil =>
    rw [hnext, ok_bind]
    exact Alike.ok hm
  | cons q B =>
    have hq : q ∈ s.ids w := hids ▸ by simp
    rw [List.map_cons, List.head?_cons, Option.getD_some] at hnext
    rw [hnext, ok_bind, if_neg (L.addr_ne_zero (ids_lt ho hq)), hm.key_eq ho hq, hm.key_eq ho hnew]
    simp only [List.head?_cons]
    split
    · exact takeOver_refines (A := A ++ [new]) (B := B) hm ho (ids_lt ho hnew) (by simpa using hids)
    · exact Alike.ok hm

/-- **`__balloc_add_range`** in memory ends like the one on trees. -/
theorem addRange_refines {from_ to_ : Nat} (hm : InMemory L m s) (h : BallocInv s held) :
    Alike (m.addRange L w from_ to_) (addRange s w from_ to_) (InMemory L) := by
  obtain ⟨A, B, hids, hA, hB⟩ := h.split w from_
  unfold BallocMem.addRange addRange
  refine ((linkRange_refines hm h.owned hids hA hB).and_post
    (linkRange_spec h.owned hids hA hB)).bind ?_
  rintro ⟨m₁, new'⟩ ⟨s₁, new⟩ ⟨⟨hm₁, rfl⟩, ho₁, _, hids₁, _⟩
  simp only at hm₁ ho₁ hids₁ ⊢
  have hpost : Post (absorbPrev s₁ w new) (fun _ => True) fun s₂ =>
      Owned s₂ held ∧ ∃ A', s₂.ids w = A' ++ new :: B := by
    obtain ⟨s₂, A', r, habs, ho₂, hids₂, _⟩ := absorbPrev_spec ho₁ hids₁
    exact Post.of_ok ⟨s₂, habs, ho₂, A', hids₂⟩
  refine ((absorbPrev_refines hm₁ ho₁ hids₁).and_post hpost).bind ?_
  rintro m₂ s₂ ⟨hm₂, ho₂, A', hids₂⟩
  exact absorbNext_refines hm₂ ho₂ hids₂

/-! ## `__balloc_remove_range` and `__balloc_alloc` -/

/-- A part of a node is put back. -/
theorem addRange_if_refines {c : Prop} [Decidable c] {from_ to_ : Nat} (hm : InMemory L m s)
    (h : BallocInv s held) (hc : c → from_ ≤ to_) :
    Alike (if c then m.addRange L w from_ to_ else .ok m)
      (if c then addRange s w from_ to_ else .ok s)
      fun m' s' => InMemory L m' s' ∧ BallocInv s' held ∧ OnlyTree w held s s' := by
  refine Alike.and_post (R := InMemory L) ?_ (addRange_if_inv h hc)
  split
  · exact addRange_refines hm h
  · exact Alike.ok hm

/-- **The cut of a node** in memory ends like the one on trees. -/
theorem cutNode_refines {lo hi : Nat} (hm : InMemory L m s) (h : BallocInv s held)
    (hids : s.ids w = A ++ p :: B) :
    Alike (m.cutNode L w (L.addr p) lo hi) (cutNode s w p lo hi) (InMemory L) := by
  have hp : p ∈ s.ids w := hids ▸ List.mem_append_right _ List.mem_cons_self
  have hlt := ids_lt h.owned hp
  have hpost : Post (unlinkNode s w p) (fun _ => True) fun s' => BallocInv s' (p :: held) := by
    obtain ⟨s', hun, hs', _⟩ := unlinkNode_inv h hids
    exact Post.of_ok ⟨s', hun, hs'⟩
  unfold BallocMem.cutNode cutNode
  refine ((unlinkNode_refines hm h.owned hids).and_post hpost).bind ?_
  rintro m₁ s₁ ⟨hm₁, h₁⟩
  rw [hm₁.keys p hlt]
  refine (addRange_if_refines hm₁ h₁ le_of_lt).bind ?_
  rintro m₂ s₂ ⟨hm₂, h₂, _⟩
  rw [hm₂.keys p hlt]
  refine (addRange_if_refines hm₂ h₂ le_of_lt).bind ?_
  rintro m₃ s₃ ⟨hm₃, h₃, _⟩
  exact freeNode_refines hm₃ h₃.owned

/-- A node of the model, or nothing, as a pointer. -/
def ptrOf (L : BallocLayout) (node : Option Nat) : RbPtr := (node.map L.addr).getD 0

theorem ptrOf_some : ptrOf L (some p) = L.addr p := rfl

/-- The search of both functions. -/
theorem firstAfter_refines (hm : InMemory L m s) (h : BallocInv s held) (w : Which) (from_ : Nat) :
    m.firstAfter w from_ = .ok (ptrOf L (firstAfter s w from_)) := by
  obtain ⟨t, hr, hv, hl⟩ := hm.trees w
  have hheight := height_le h.owned hv hl
  obtain ⟨A, B, hids, hfirst, hA, hB⟩ := firstAfter_spec h w from_
  rw [hfirst, ptrOf, ← List.head?_map, BallocMem.firstAfter]
  refine lowerBoundLoop_spec (A := A.map L.addr) hr (by rw [hl, hids, List.map_append])
    ?_ ?_ (by omega)
  · intro a ha
    obtain ⟨i, hi, rfl⟩ := List.mem_map.mp ha
    rw [hm.key_eq h.owned (w := w) (hids ▸ List.mem_append_left _ hi)]
    exact decide_eq_false (not_lt.mpr (hA i hi))
  · intro b hb
    obtain ⟨i, hi, rfl⟩ := List.mem_map.mp hb
    rw [hm.key_eq h.owned (w := w) (hids ▸ List.mem_append_right _ hi)]
    exact decide_eq_true (hB i hi)

/-- `rb_next` of a node of a tree. -/
theorem rbNext_refines (hm : InMemory L m s) (ho : Owned s held) (hids : s.ids w = A ++ p :: B) :
    (m.tree w).rbNext TREE_TURNS (L.addr p) = .ok (ptrOf L B.head?) ∧
    rbNext (s.tree w) p = .ok B.head? := by
  obtain ⟨t, hr, hv, hl⟩ := hm.trees w
  have hheight := height_le ho hv hl
  refine ⟨?_, rbNext_spec (ho.ids_nodup w) hids⟩
  rw [ptrOf, ← List.head?_map]
  exact rbNext_height hr (A := A.map L.addr) (by rw [hl, hids, List.map_append, List.map_cons])
    (by omega)

/-- **The removal loop**, at the first node `B` that the range may reach. -/
theorem removeLoop_refines {from_ to_ : Nat} (hle : from_ ≤ to_) :
    ∀ (fuel : Nat) (m : BallocMem) (s : Balloc)
    (A B : List Nat), InMemory L m s → BallocInv s held → s.ids w = A ++ B →
    (∀ b ∈ B, from_ < (s.nodes b).end_) →
    Alike (BallocMem.removeLoop L w from_ to_ fuel m (ptrOf L B.head?))
      (removeLoop w from_ to_ fuel s B.head?) (InMemory L) := by
  intro fuel
  induction fuel with
  | zero =>
    intro m s A B _ _ _ _
    exact Alike.error _
  | succ fuel ih =>
    intro m s A B hm h hids hB
    cases B with
    | nil => exact Alike.ok hm
    | cons p B =>
      have hp : p ∈ s.ids w := hids ▸ List.mem_append_right _ List.mem_cons_self
      have hlt := ids_lt h.owned hp
      obtain ⟨hnext, hnext'⟩ := hm.rbNext_refines h.owned hids
      rw [List.head?_cons, ptrOf_some, BallocMem.removeLoop, if_neg (L.addr_ne_zero hlt),
        AuOs.removeLoop, hm.keys p hlt]
      split
      · rename_i hbegin
        have hend := hB p List.mem_cons_self
        rw [hnext, ok_bind, hnext', ok_bind]
        refine ((cutNode_refines hm h hids).and_post
          (cutNode_spec h hids hle hend.le hbegin.le)).bind ?_
        rintro m₁ s₁ ⟨hm₁, h₁, _, M, hids₁, hsame, _⟩
        refine ih m₁ s₁ (A ++ M) B hm₁ h₁ (by rw [hids₁, List.append_assoc]) ?_
        intro b hb
        rw [hsame b (List.mem_append_right _ hb)]
        exact hB b (List.mem_cons_of_mem _ hb)
      · exact Alike.ok hm

/-- **`__balloc_remove_range`** in memory ends like the one on trees. -/
theorem removeRange_refines {from_ to_ : Nat} (hm : InMemory L m s) (h : BallocInv s held)
    (hle : from_ ≤ to_) :
    Alike (m.removeRange L w from_ to_) (removeRange s w from_ to_) (InMemory L) := by
  obtain ⟨A, B, hids, hfirst, _, hB⟩ := firstAfter_spec h w from_
  unfold BallocMem.removeRange removeRange
  rw [hm.firstAfter_refines h, ok_bind, hfirst]
  exact removeLoop_refines hle _ m s A B hm h hids hB

theorem allocRangeLoop_refines {size align from_ to_ : Nat} (hm : InMemory L m s)
    (h : BallocInv s held) : ∀ (fuel : Nat) (A B : List Nat), s.ids .freeRanges = A ++ B →
    Alike (BallocMem.allocRangeLoop L size align from_ to_ fuel m (ptrOf L B.head?))
      (allocRangeLoop size align from_ to_ fuel s B.head?) fun p q => InMemory L p.1 q.1 ∧
          p.2 = q.2 := by
  intro fuel
  induction fuel with
  | zero =>
    intro A B _
    exact Alike.error _
  | succ fuel ih =>
    intro A B hids
    cases B with
    | nil => exact Alike.ok ⟨hm, rfl⟩
    | cons p B =>
      have hp : p ∈ s.ids .freeRanges := hids ▸ List.mem_append_right _ List.mem_cons_self
      have hlt := ids_lt h.owned hp
      obtain ⟨hnext, hnext'⟩ := hm.rbNext_refines h.owned hids
      rw [List.head?_cons, ptrOf_some, BallocMem.allocRangeLoop, if_neg (L.addr_ne_zero hlt),
        AuOs.allocRangeLoop, hm.keys p hlt]
      split
      · simp only
        generalize alignAddr (if (s.nodes p).begin_ > from_ then (s.nodes p).begin_ else from_)
          align = addr
        generalize (if (s.nodes p).end_ < to_ then (s.nodes p).end_ else to_) = limit
        split
        · refine (cutNode_refines hm h hids).bind ?_
          intro m' s' hm'
          exact Alike.ok ⟨hm', rfl⟩
        · rw [hnext, ok_bind, hnext', ok_bind]
          exact ih (A ++ [p]) B (by simpa using hids)
      · exact Alike.ok ⟨hm, rfl⟩

/-- **`__balloc_alloc`** in memory ends like the one on trees, with the same address. -/
theorem allocRaw_refines {size align from_ to_ : Nat} (hm : InMemory L m s) (h : BallocInv s held) :
    Alike (m.allocRaw L size align from_ to_) (ballocAllocRaw s size align from_ to_) fun p q =>
      InMemory L p.1 q.1 ∧ p.2 = q.2 := by
  obtain ⟨A, B, hids, hfirst, _, _⟩ := firstAfter_spec h .freeRanges from_
  unfold BallocMem.allocRaw ballocAllocRaw
  rw [hm.firstAfter_refines h, ok_bind, hfirst]
  exact allocRangeLoop_refines hm h _ A B hids

/-! ## `balloc_setup_nodes` -/

/-- The words of the nodes and of the list head are there, and both trees are empty. -/
structure Blank (L : BallocLayout) (m : BallocMem) : Prop where
  keys : ∀ i < BALLOC_MAX_RANGES, m.keys (L.addr i) = ⟨0, 0⟩
  root : ∀ w, m.root w = 0
  head : m.links L.head ≠ none
  linked : ∀ i < BALLOC_MAX_RANGES, m.links (L.addr i) ≠ none

/-- The state of the model in which the nodes of a list are free, and the others are in the hands of
the function. -/
def freed (nodes : List Nat) : Balloc where
  nodes := fun _ => ⟨0, 0⟩
  freeList := nodes
  tree := fun _ => .leaf

/-- `list_init` of the free list. -/
theorem init_refines (hb : Blank L m) :
    ∃ l, m.lists.listInit L.head = .ok l ∧ InMemory L (m.setLists l) (freed []) := by
  have hnode : m.lists.Node L.head := by
    refine ⟨L.head_ne_zero, fun he => hb.head (Option.map_eq_none_iff.mp he)⟩
  have hempty : HoldsLists m.lists (fun _ => none) := by
    refine ⟨?_, ?_, ?_⟩
    · intro head l hl
      cases hl
    · intro head l hl
      cases hl
    · intro head l head' l' hl
      cases hl
  obtain ⟨l, hinit, hholds, hframe⟩ := hempty.init ⟨hnode, fun head l hl => by cases hl⟩
  refine ⟨l, hinit, ?_⟩
  have hnone : ∀ x, l x = none ↔ m.lists x = none := by
    intro x
    by_cases hx : x = L.head
    · subst hx
      exact iff_of_false (hholds.node (Function.update_self ..) List.mem_cons_self).2 hnode.2
    · rw [hframe x hx]
  refine ⟨hb.keys, fun w => ⟨.leaf, ⟨hb.root w, trivial, List.nodup_nil, nofun⟩, .leaf, rfl⟩, ?_,
    ?_⟩
  · rw [lists_setLists hnone]
    exact hholds
  · intro i hi he
    exact hb.linked i hi (Option.map_eq_none_iff.mp he)

/-- The nodes that are not free yet are in the hands of the function. -/
theorem freed_owned {held nodes : List Nat} (hp : (held ++ nodes).Perm
    (List.range BALLOC_MAX_RANGES)) : Owned (freed nodes) held := by
  refine ⟨fun _ => .leaf, ?_⟩
  show (held ++ (nodes ++ ([] ++ []))).Perm _
  rwa [List.append_nil, List.append_nil]

/-- **The loop of `balloc_setup_nodes`.** -/
theorem setupLoop_refines : ∀ (todo nodes : List Nat) (m : BallocMem), InMemory L m (freed nodes) →
    (todo ++ nodes).Perm (List.range BALLOC_MAX_RANGES) →
    ∃ m', todo.foldlM (fun m i => BallocMem.freeNode L m (L.addr i)) m = .ok m' ∧
      InMemory L m' (freed (todo.foldl (fun nodes i => i :: nodes) nodes)) := by
  intro todo
  induction todo with
  | nil =>
    intro nodes m hm _
    exact ⟨m, rfl, hm⟩
  | cons i todo ih =>
    intro nodes m hm hp
    obtain ⟨s₁, hfree, _⟩ := ballocFreeNode_spec (freed_owned hp)
    have hs₁ : freed (i :: nodes) = s₁ := by
      unfold ballocFreeNode at hfree
      split at hfree
      · cases hfree
      · exact Except.ok.inj hfree
    have halike := freeNode_refines hm (freed_owned hp)
    rw [hfree, ← hs₁] at halike
    cases hrun : BallocMem.freeNode L m (L.addr i) with
    | error e =>
      rw [hrun] at halike
      exact halike.elim
    | ok m₁ =>
      rw [hrun] at halike
      obtain ⟨m', hloop, hm'⟩ := ih (i :: nodes) m₁ halike (List.perm_middle.trans hp)
      refine ⟨m', ?_, hm'⟩
      rw [List.foldlM_cons, hrun, ok_bind, hloop]

/-- **`balloc_setup_nodes`.** -/
theorem setupNodes_refines (hb : Blank L m) : ∃ m', m.setupNodes L = .ok m' ∧
    InMemory L m' ballocSetupNodes := by
  obtain ⟨l, hinit, hm⟩ := init_refines hb
  obtain ⟨m', hloop, hm'⟩ := setupLoop_refines (List.range BALLOC_MAX_RANGES) [] (m.setLists l) hm
    (by rw [List.append_nil])
  refine ⟨m', ?_, hm'⟩
  rw [BallocMem.setupNodes, hinit, ok_bind, hloop]

end InMemory

/-! ## All runs -/

section Runs

variable (L : BallocLayout)

/-- **Each call in memory ends like the call on trees.** -/
theorem calls_refines : (BallocMem.calls L).Refines ballocCalls fun m s => InMemory L m s ∧
    BallocInv s [] where
  legal := by
    rintro m s (⟨w, from_, to_⟩ | ⟨w, from_, to_⟩ | ⟨size, align, from_, to_⟩) _ hc
    · exact hc
    · exact hc
    · exact hc
  exec := by
    rintro m s (⟨w, from_, to_⟩ | ⟨w, from_, to_⟩ | ⟨size, align, from_, to_⟩) ⟨hm, h⟩ hc
    · exact (hm.addRange_refines h).and_post ((addRange_inv h hc).mono fun s' hs => hs.1)
    · exact (hm.removeRange_refines h hc).and_post ((removeRange_spec h hc).mono fun s' hs => hs.1)
    · refine ((hm.allocRaw_refines h).and_post (ballocAllocRaw_inv h)).bind ?_
      rintro ⟨m', a⟩ ⟨s', b⟩ ⟨⟨hm', _⟩, h', _⟩
      exact Alike.ok ⟨hm', h'⟩

/-- **The bootstrap allocator in memory.**  From `balloc_setup_nodes` on, whatever the words of the
nodes were, every run of `__balloc_add_range`, `__balloc_remove_range` and `__balloc_alloc` on the
nodes in memory is a run of the model: the memory holds its trees and its free list, no word serves
two of them, and a call returns, with the address of the model, or stops as in the model, although
no loop through a tree may turn more than 16 times. -/
theorem balloc_in_memory (m : BallocMem) (hb : InMemory.Blank L m) :
    ∃ m₀, m.setupNodes L = .ok m₀ ∧ ∀ m', (BallocMem.calls L).Run m₀ m' →
      ∃ s, ballocCalls.Run ballocSetupNodes s ∧ InMemory L m' s ∧
        (s.freeList ++ (s.ids .memoryMap ++ s.ids .freeRanges)).Perm
          (List.range BALLOC_MAX_RANGES) ∧
        (∀ w from_ to_, from_ ≤ to_ →
          Alike (m'.addRange L w from_ to_) (addRange s w from_ to_) (InMemory L) ∧
          Alike (m'.removeRange L w from_ to_) (removeRange s w from_ to_) (InMemory L)) ∧
        ∀ size align from_ to_, from_ ≤ to_ → Alike (m'.allocRaw L size align from_ to_)
          (ballocAllocRaw s size align from_ to_) fun p q => InMemory L p.1 q.1 ∧ p.2 = q.2 := by
  obtain ⟨m₀, hsetup, hm₀⟩ := InMemory.setupNodes_refines hb
  refine ⟨m₀, hsetup, ?_⟩
  intro m' hrun
  obtain ⟨s, hrun', hm', h⟩ := (calls_refines L).run ⟨hm₀, ballocSetupNodes_inv⟩ hrun
  refine ⟨s, hrun', hm', h.owned.nodes, ?_, ?_⟩
  · intro w from_ to_ hle
    exact ⟨hm'.addRange_refines h, hm'.removeRange_refines h hle⟩
  · intro size align from_ to_ _
    exact hm'.allocRaw_refines h

/-- The nodes at address 4096, and the head of the free list before them. -/
def lowLayout : BallocLayout where
  nodes := 0x1000
  freeList := 0x100
  nodes_pos := by decide
  nodes_even := by decide
  nodes_le := by decide
  freeList_pos := by decide
  freeList_lt := by decide
  apart := by decide

/-- Words of any content. -/
def anyWords : BallocMem := ⟨fun p => some ⟨p, 0x777, 1⟩, fun _ => ⟨0, 0⟩, fun _ => 0⟩

theorem anyWords_blank : InMemory.Blank lowLayout anyWords where
  keys := fun _ _ => rfl
  root := fun _ => rfl
  head := Option.some_ne_none _
  linked := fun _ _ => Option.some_ne_none _

/-- A range with a hole, and a block at its start; the next block follows it. -/
theorem balloc_in_memory_low : ∃ m₀ m s, anyWords.setupNodes lowLayout = .ok m₀ ∧
    (BallocMem.calls lowLayout).Run m₀ m ∧ InMemory lowLayout m s ∧
    (m.allocRaw lowLayout 0x40 0x40 0 0x10000).toOption.map Prod.snd = some 0x1040 ∧
    Alike (m.allocRaw lowLayout 0x40 0x40 0 0x10000) (ballocAllocRaw s 0x40 0x40 0 0x10000)
      fun p q => InMemory lowLayout p.1 q.1 ∧ p.2 = q.2 := by
  have htrial : ((anyWords.setupNodes lowLayout).toOption.any fun m =>
      ((BallocMem.calls lowLayout).trial (fun _ => BallocCall.ordered) holeAndBlock m).any fun m =>
        decide ((m.allocRaw lowLayout 0x40 0x40 0 0x10000).toOption.map Prod.snd = some 0x1040)) =
            true := by
    decide +kernel
  obtain ⟨m₀, hsetup, hall⟩ := balloc_in_memory lowLayout anyWords anyWords_blank
  rw [hsetup] at htrial
  obtain ⟨m, hrun, hm⟩ := CallSystem.exists_run
    (fun _ c hc => BallocCall.ordered_legal ballocSetupNodes c hc) htrial
  obtain ⟨s, _, hmem, _, _, halloc⟩ := hall m hrun
  exact ⟨m₀, m, s, hsetup, hrun, hmem, hm, halloc _ _ _ _ (by decide)⟩

end Runs

end AuOs
