import Mathlib
import AuOs.Base
import AuOs.Lib.Circuit

/-!
# Linked lists in memory

Reference model of `list.c`.  The page allocator and the slab caches are modelled on lists of
values; this is the pointer graph that such a list stands for.

* `ListHead`, `ListMem` — a `struct list_head`, and the nodes at their addresses.  Dereferencing
  null or the address of no node is a `fault`.
* `listInit`, `listAdd`, `listAddTail`, `listDel`, `listSplice`, `listSize`, `listEmpty` — the
  functions.
* `HoldsLists m lists` — the memory holds a circular list for every head in `lists`, and they are
  disjoint.
* `lists_correct` — **the functions act on the lists** as on sequences, and leave every other list
  alone.
-/

set_option autoImplicit false

namespace AuOs

abbrev ListPtr := BitVec 64

/-- `struct list_head`. -/
structure ListHead where
  next : ListPtr
  prev : ListPtr
  deriving DecidableEq, Repr

/-- The nodes in memory. -/
abbrev ListMem := ListPtr → Option ListHead

namespace ListMem

/-- The node at an address is read. -/
def get (m : ListMem) (p : ListPtr) : Res ListHead :=
  if p = 0 then .error .fault
  else
    match m p with
    | some n => .ok n
    | none => .error .fault

/-- `p->next = q`. -/
def setNext (m : ListMem) (p q : ListPtr) : Res ListMem := do
  let n ← m.get p
  return Function.update m p (some { n with next := q })

/-- `p->prev = q`. -/
def setPrev (m : ListMem) (p q : ListPtr) : Res ListMem := do
  let n ← m.get p
  return Function.update m p (some { n with prev := q })

/-- `p->next`. -/
def getNext (m : ListMem) (p : ListPtr) : Res ListPtr := do
  let n ← m.get p
  return n.next

/-- `p->prev`. -/
def getPrev (m : ListMem) (p : ListPtr) : Res ListPtr := do
  let n ← m.get p
  return n.prev

/-- `list_init`. -/
def listInit (m : ListMem) (head : ListPtr) : Res ListMem := do
  let m ← m.setPrev head head
  m.setNext head head

/-- `list_insert`. -/
def listInsert (m : ListMem) (new prev next : ListPtr) : Res ListMem := do
  let m ← m.setPrev new prev
  let m ← m.setNext new next
  let m ← m.setNext prev new
  m.setPrev next new

/-- `list_add`. -/
def listAdd (m : ListMem) (new head : ListPtr) : Res ListMem := do
  let next ← m.getNext head
  m.listInsert new head next

/-- `list_add_tail`. -/
def listAddTail (m : ListMem) (new head : ListPtr) : Res ListMem := do
  let prev ← m.getPrev head
  m.listInsert new prev head

/-- `__list_del`. -/
def listUnlink (m : ListMem) (prev next : ListPtr) : Res ListMem := do
  let m ← m.setNext prev next
  m.setPrev next prev

/-- `list_del`. -/
def listDel (m : ListMem) (entry : ListPtr) : Res ListMem := do
  let prev ← m.getPrev entry
  let next ← m.getNext entry
  let m ← m.listUnlink prev next
  let m ← m.setNext entry 0
  m.setPrev entry 0

/-- `list_empty`. -/
def listEmpty (m : ListMem) (head : ListPtr) : Res Bool := do
  let next ← m.getNext head
  return next == head

/-- `__list_splice`. -/
def listSpliceBetween (m : ListMem) (list prev next : ListPtr) : Res ListMem := do
  let first ← m.getNext list
  let last ← m.getPrev list
  let m ← m.setPrev first prev
  let m ← m.setNext prev first
  let m ← m.setNext last next
  m.setPrev next last

/-- `list_splice`. -/
def listSplice (m : ListMem) (list head : ListPtr) : Res ListMem := do
  let empty ← m.listEmpty list
  if empty then return m
  else
    let next ← m.getNext head
    let m ← m.listSpliceBetween list head next
    m.listInit list

/-- `for (pos = head->next; pos != head; pos = pos->next) ++size;` -/
def sizeLoop (head : ListPtr) : Nat → ListMem → ListPtr → Nat → Res Nat
  | 0, _, _, _ => .error .hang
  | fuel + 1, m, pos, size =>
    if pos = head then .ok size
    else do
      let next ← m.getNext pos
      sizeLoop head fuel m next ((size + 1) % WORD)

/-- `list_size`. -/
def listSize (fuel : Nat) (m : ListMem) (head : ListPtr) : Res Nat := do
  let next ← m.getNext head
  sizeLoop head fuel m next 0

end ListMem

/-! ## Reading and writing -/

namespace ListMem

variable {m m' : ListMem} {p q r x y : ListPtr}

/-- `p->next`, if there is a node. -/
def next (m : ListMem) (p : ListPtr) : Option ListPtr := (m p).map ListHead.next

def prev (m : ListMem) (p : ListPtr) : Option ListPtr := (m p).map ListHead.prev

theorem ext_at (hn : m'.next x = m.next x) (hp : m'.prev x = m.prev x) : m' x = m x := by
  unfold next at hn
  unfold prev at hp
  cases hm : m x with
  | none =>
    rw [hm] at hn
    exact Option.map_eq_none_iff.mp hn
  | some n =>
    rw [hm] at hn hp
    obtain ⟨n', hn', h⟩ := Option.map_eq_some_iff.mp hn
    obtain ⟨n'', hp', h'⟩ := Option.map_eq_some_iff.mp hp
    obtain rfl : n' = n'' := Option.some.inj (hn'.symm.trans hp')
    rw [hn']
    cases n
    cases n'
    simp_all

theorem eq_some (hn : m.next x = some p) (hp : m.prev x = some q) : m x = some ⟨p, q⟩ := by
  obtain ⟨n, hm, rfl⟩ := Option.map_eq_some_iff.mp hn
  obtain ⟨n', hm', rfl⟩ := Option.map_eq_some_iff.mp hp
  obtain rfl : n = n' := Option.some.inj (hm.symm.trans hm')
  exact hm

/-- There is a node at the address. -/
def Node (m : ListMem) (p : ListPtr) : Prop := p ≠ 0 ∧ m p ≠ none

theorem Node.get (h : m.Node p) : ∃ n, m p = some n ∧ m.get p = .ok n := by
  obtain ⟨n, hn⟩ := Option.ne_none_iff_exists'.mp h.2
  refine ⟨n, hn, ?_⟩
  rw [ListMem.get, if_neg h.1, hn]

theorem getNext_eq (h0 : p ≠ 0) (h : m.next p = some q) : m.getNext p = .ok q := by
  obtain ⟨n, hn, rfl⟩ := Option.map_eq_some_iff.mp h
  rw [getNext, get, if_neg h0, hn]
  rfl

theorem getPrev_eq (h0 : p ≠ 0) (h : m.prev p = some q) : m.getPrev p = .ok q := by
  obtain ⟨n, hn, rfl⟩ := Option.map_eq_some_iff.mp h
  rw [getPrev, get, if_neg h0, hn]
  rfl

/-- What a write leaves alone: there are nodes at the same addresses. -/
def SameNodes (m m' : ListMem) : Prop := ∀ x, m'.Node x ↔ m.Node x

/-- **Writing `next`.** -/
theorem setNext_eq (h : m.Node p) (q : ListPtr) : ∃ m', m.setNext p q = .ok m' ∧
    m'.next = Function.update m.next p (some q) ∧ m'.prev = m.prev ∧ SameNodes m m' := by
  obtain ⟨n, hn, hget⟩ := h.get
  refine ⟨_, by rw [setNext, hget, ok_bind, pure_eq_ok], ?_, ?_, ?_⟩
  · funext x
    by_cases hx : x = p
    · subst hx
      simp [next]
    · simp [next, hx]
  · funext x
    by_cases hx : x = p
    · subst hx
      simp [prev, hn]
    · simp [prev, hx]
  · intro x
    by_cases hx : x = p
    · subst hx
      simp [Node, hn]
    · simp [Node, hx]

/-- **Writing `prev`.** -/
theorem setPrev_eq (h : m.Node p) (q : ListPtr) : ∃ m', m.setPrev p q = .ok m' ∧
    m'.next = m.next ∧ m'.prev = Function.update m.prev p (some q) ∧ SameNodes m m' := by
  obtain ⟨n, hn, hget⟩ := h.get
  refine ⟨_, by rw [setPrev, hget, ok_bind, pure_eq_ok], ?_, ?_, ?_⟩
  · funext x
    by_cases hx : x = p
    · subst hx
      simp [next, hn]
    · simp [next, hx]
  · funext x
    by_cases hx : x = p
    · subst hx
      simp [prev]
    · simp [prev, hx]
  · intro x
    by_cases hx : x = p
    · subst hx
      simp [Node, hn]
    · simp [Node, hx]

/-- `list_init`. -/
theorem listInit_eq (h : m.Node p) : ∃ m', m.listInit p = .ok m' ∧
    m'.next = Function.update m.next p (some p) ∧ m'.prev = Function.update m.prev p (some p) ∧
    SameNodes m m' := by
  obtain ⟨m₁, hrun₁, hn₁, hp₁, hs₁⟩ := setPrev_eq h p
  obtain ⟨m₂, hrun₂, hn₂, hp₂, hs₂⟩ := setNext_eq ((hs₁ p).mpr h) p
  refine ⟨m₂, ?_, ?_, ?_, fun x => (hs₂ x).trans (hs₁ x)⟩
  · rw [listInit, hrun₁, ok_bind, hrun₂]
  · rw [hn₂, hn₁]
  · rw [hp₂, hp₁]

/-- `list_insert`. -/
theorem listInsert_eq {new : ListPtr} (hx : m.Node new) (hp : m.Node p) (hq : m.Node q) :
    ∃ m', m.listInsert new p q = .ok m' ∧
      m'.next = Function.update (Function.update m.next new (some q)) p (some new) ∧
      m'.prev = Function.update (Function.update m.prev new (some p)) q (some new) ∧
          SameNodes m m' := by
  obtain ⟨m₁, hrun₁, hn₁, hp₁, hs₁⟩ := setPrev_eq hx p
  obtain ⟨m₂, hrun₂, hn₂, hp₂, hs₂⟩ := setNext_eq ((hs₁ new).mpr hx) q
  have hs₂' : SameNodes m m₂ := fun x => (hs₂ x).trans (hs₁ x)
  obtain ⟨m₃, hrun₃, hn₃, hp₃, hs₃⟩ := setNext_eq ((hs₂' p).mpr hp) new
  have hs₃' : SameNodes m m₃ := fun x => (hs₃ x).trans (hs₂' x)
  obtain ⟨m₄, hrun₄, hn₄, hp₄, hs₄⟩ := setPrev_eq ((hs₃' q).mpr hq) new
  refine ⟨m₄, ?_, ?_, ?_, fun x => (hs₄ x).trans (hs₃' x)⟩
  · rw [listInsert, hrun₁, ok_bind, hrun₂, ok_bind, hrun₃, ok_bind, hrun₄]
  · rw [hn₄, hn₃, hn₂, hn₁]
  · rw [hp₄, hp₃, hp₂, hp₁]

/-- `__list_del`. -/
theorem listUnlink_eq (hp : m.Node p) (hq : m.Node q) : ∃ m', m.listUnlink p q = .ok m' ∧
    m'.next = Function.update m.next p (some q) ∧ m'.prev = Function.update m.prev q (some p) ∧
    SameNodes m m' := by
  obtain ⟨m₁, hrun₁, hn₁, hp₁, hs₁⟩ := setNext_eq hp q
  obtain ⟨m₂, hrun₂, hn₂, hp₂, hs₂⟩ := setPrev_eq ((hs₁ q).mpr hq) p
  refine ⟨m₂, ?_, ?_, ?_, fun x => (hs₂ x).trans (hs₁ x)⟩
  · rw [listUnlink, hrun₁, ok_bind, hrun₂]
  · rw [hn₂, hn₁]
  · rw [hp₂, hp₁]

/-- `list_del`, for an entry between `p` and `q`. -/
theorem listDel_eq (hx : m.Node x) (hp : m.Node p) (hq : m.Node q) (hprev : m.prev x = some p)
    (hnext : m.next x = some q) : ∃ m', m.listDel x = .ok m' ∧
      m'.next = Function.update (Function.update m.next p (some q)) x (some 0) ∧
      m'.prev = Function.update (Function.update m.prev q (some p)) x (some 0) ∧
          SameNodes m m' := by
  obtain ⟨m₁, hrun₁, hn₁, hp₁, hs₁⟩ := listUnlink_eq hp hq
  obtain ⟨m₂, hrun₂, hn₂, hp₂, hs₂⟩ := setNext_eq ((hs₁ x).mpr hx) 0
  have hs₂' : SameNodes m m₂ := fun y => (hs₂ y).trans (hs₁ y)
  obtain ⟨m₃, hrun₃, hn₃, hp₃, hs₃⟩ := setPrev_eq ((hs₂' x).mpr hx) 0
  refine ⟨m₃, ?_, ?_, ?_, fun y => (hs₃ y).trans (hs₂' y)⟩
  · rw [listDel, getPrev_eq hx.1 hprev, ok_bind, getNext_eq hx.1 hnext, ok_bind, hrun₁,
      ok_bind, hrun₂, ok_bind, hrun₃]
  · rw [hn₃, hn₂, hn₁]
  · rw [hp₃, hp₂, hp₁]

/-- `__list_splice`, for a list with the ends `first` and `last`. -/
theorem listSpliceBetween_eq {list first last : ListPtr} (hl : m.Node list) (hp : m.Node p)
    (hq : m.Node q)
    (hf : m.Node first) (hz : m.Node last) (hnext : m.next list = some first)
    (hprev : m.prev list = some last) : ∃ m', m.listSpliceBetween list p q = .ok m' ∧
      m'.next = Function.update (Function.update m.next p (some first)) last (some q) ∧
      m'.prev = Function.update (Function.update m.prev first (some p)) q (some last) ∧
          SameNodes m m' := by
  obtain ⟨m₁, hrun₁, hn₁, hp₁, hs₁⟩ := setPrev_eq hf p
  obtain ⟨m₂, hrun₂, hn₂, hp₂, hs₂⟩ := setNext_eq ((hs₁ p).mpr hp) first
  have hs₂' : SameNodes m m₂ := fun y => (hs₂ y).trans (hs₁ y)
  obtain ⟨m₃, hrun₃, hn₃, hp₃, hs₃⟩ := setNext_eq ((hs₂' last).mpr hz) q
  have hs₃' : SameNodes m m₃ := fun y => (hs₃ y).trans (hs₂' y)
  obtain ⟨m₄, hrun₄, hn₄, hp₄, hs₄⟩ := setPrev_eq ((hs₃' q).mpr hq) last
  refine ⟨m₄, ?_, ?_, ?_, fun y => (hs₄ y).trans (hs₃' y)⟩
  · rw [listSpliceBetween, getNext_eq hl.1 hnext, ok_bind, getPrev_eq hl.1 hprev, ok_bind,
      hrun₁, ok_bind, hrun₂, ok_bind, hrun₃, ok_bind, hrun₄]
  · rw [hn₄, hn₃, hn₂, hn₁]
  · rw [hp₄, hp₃, hp₂, hp₁]

end ListMem

/-! ## Lists of a heap -/

/-- `y` follows `x`, and `x` comes before `y`. -/
def Adjacent (m : ListMem) (x y : ListPtr) : Prop := m.next x = some y ∧ m.prev y = some x

/-- The memory holds a circular list for every head in `lists`; no node is in two of them. -/
structure HoldsLists (m : ListMem) (lists : ListPtr → Option (List ListPtr)) : Prop where
  circuit : ∀ head l, lists head = some l → Circuit (Adjacent m) head l
  nonnull : ∀ head l, lists head = some l → 0 ∉ head :: l
  apart : ∀ head l head' l', lists head = some l → lists head' = some l' → head ≠ head' →
    List.Disjoint (head :: l) (head' :: l')

/-- A node in no list. -/
structure Unlinked (m : ListMem) (lists : ListPtr → Option (List ListPtr))
    (new : ListPtr) : Prop where
  node : m.Node new
  unlinked : ∀ head l, lists head = some l → new ∉ head :: l

namespace HoldsLists

variable {m m' : ListMem} {lists : ListPtr → Option (List ListPtr)} {head x y new : ListPtr}
  {l : List ListPtr}

theorem node (h : HoldsLists m lists) (hl : lists head = some l)
    (hx : x ∈ head :: l) : m.Node x := by
  obtain ⟨y, _, hnext, _⟩ := (h.circuit head l hl).succ hx
  refine ⟨fun h0 => h.nonnull head l hl (h0 ▸ hx), ?_⟩
  obtain ⟨n, hn, _⟩ := Option.map_eq_some_iff.mp hnext
  rw [hn]
  exact Option.some_ne_none n

/-- `next` and `prev` undo each other on every node of a list. -/
theorem inverse (h : HoldsLists m lists) (hl : lists head = some l) (hx : x ∈ head :: l) :
    (∃ y ∈ head :: l, m.next x = some y ∧ m.prev y = some x) ∧
    ∃ y ∈ head :: l, m.prev x = some y ∧ m.next y = some x := by
  obtain ⟨y, hy, hnext⟩ := (h.circuit head l hl).succ hx
  obtain ⟨z, hz, hprev⟩ := (h.circuit head l hl).pred hx
  exact ⟨⟨y, hy, hnext⟩, z, hz, hprev.2, hprev.1⟩

/-- One list is replaced; the nodes of the others were not written. -/
theorem update {l' : List ListPtr} (h : HoldsLists m lists) (hc : Circuit (Adjacent m') head l')
    (h0 : 0 ∉ head :: l') (hother : ∀ head' k, head' ≠ head → lists head' = some k →
      List.Disjoint (head' :: k) (head :: l') ∧ ∀ x ∈ head' :: k, m' x = m x) :
    HoldsLists m' (Function.update lists head (some l')) := by
  have hlists : ∀ {head' k}, Function.update lists head (some l') head' = some k →
      head' = head ∧ k = l' ∨ head' ≠ head ∧ lists head' = some k := by
    intro head' k hk
    by_cases he : head' = head
    · subst he
      rw [Function.update_self] at hk
      exact Or.inl ⟨rfl, (Option.some.inj hk).symm⟩
    · rw [Function.update_of_ne he] at hk
      exact Or.inr ⟨he, hk⟩
  refine ⟨?_, ?_, ?_⟩
  · intro head' k hk
    rcases hlists hk with ⟨rfl, rfl⟩ | ⟨he, hk⟩
    · exact hc
    · refine (h.circuit head' k hk).frame ?_
      intro x hx y hy hxy
      have hsame := (hother head' k he hk).2
      unfold Adjacent ListMem.next ListMem.prev at hxy ⊢
      rwa [hsame x hx, hsame y hy]
  · intro head' k hk
    rcases hlists hk with ⟨rfl, rfl⟩ | ⟨he, hk⟩
    · exact h0
    · exact h.nonnull head' k hk
  · intro head₁ k₁ head₂ k₂ hk₁ hk₂ hne
    rcases hlists hk₁ with ⟨rfl, rfl⟩ | ⟨he₁, hold₁⟩
    · rcases hlists hk₂ with ⟨rfl, rfl⟩ | ⟨he₂, hold₂⟩
      · exact absurd rfl hne
      · exact (hother head₂ k₂ he₂ hold₂).1.symm
    · rcases hlists hk₂ with ⟨rfl, rfl⟩ | ⟨he₂, hold₂⟩
      · exact (hother head₁ k₁ he₁ hold₁).1
      · exact h.apart head₁ k₁ head₂ k₂ hold₁ hold₂ hne

/-- **`list_init`** makes an empty list of a node in no list. -/
theorem init (h : HoldsLists m lists) (hf : Unlinked m lists new) :
    ∃ m', m.listInit new = .ok m' ∧ HoldsLists m' (Function.update lists new (some [])) ∧
      ∀ a, a ≠ new → m' a = m a := by
  obtain ⟨m', hrun, hnext, hprev, _⟩ := ListMem.listInit_eq hf.node
  have hsame : ∀ a, a ≠ new → m' a = m a := by
    intro a ha
    apply ListMem.ext_at
    · rw [hnext, Function.update_of_ne ha]
    · rw [hprev, Function.update_of_ne ha]
  have hcircuit : Circuit (Adjacent m') new [] := by
    apply Circuit.nil
    refine ⟨?_, ?_⟩
    · rw [hnext, Function.update_self]
    · rw [hprev, Function.update_self]
  refine ⟨m', hrun, h.update hcircuit ?_ ?_, hsame⟩
  · rw [List.mem_singleton]
    exact hf.node.1.symm
  · intro head' k _ hk
    have hnew := hf.unlinked head' k hk
    refine ⟨?_, ?_⟩
    · intro a ha ha'
      exact hnew (List.mem_singleton.mp ha' ▸ ha)
    · rintro a ha
      apply hsame a
      rintro rfl
      exact hnew ha

/-- **`list_insert`** between two neighbours of a list. -/
theorem insert {A B l₁ l₂ : List ListPtr} {p q : ListPtr} (h : HoldsLists m lists)
    (hf : Unlinked m lists new)
    (hl : lists head = some (A ++ B)) (hA : head :: A = l₁ ++ [p]) (hB : B ++ [head] = q :: l₂) :
    ∃ m', m.listInsert new p q = .ok m' ∧ HoldsLists m'
      (Function.update lists head (some (A ++ new :: B))) ∧
      ∀ a, a ≠ new → a ∉ head :: (A ++ B) → m' a = m a := by
  have hp := Circuit.left_mem hA B
  have hq := Circuit.right_mem hB A
  have hnew := hf.unlinked head _ hl
  obtain ⟨m', hrun, hnext, hprev, _⟩ := ListMem.listInsert_eq hf.node (h.node hl hp) (h.node hl hq)
  have hsame : ∀ a, a ≠ new → a ≠ p → a ≠ q → m' a = m a := by
    intro a ha hap haq
    apply ListMem.ext_at
    · rw [hnext, Function.update_of_ne hap, Function.update_of_ne ha]
    · rw [hprev, Function.update_of_ne haq, Function.update_of_ne ha]
  have hne : ∀ {a}, a ∈ head :: (A ++ B) → a ≠ new := fun ha he => hnew (he ▸ ha)
  have hcircuit : Circuit (Adjacent m') head (A ++ ([new] ++ B)) := by
    have hc : Circuit (Adjacent m) head (A ++ ([] ++ B)) := h.circuit head _ hl
    apply hc.replace hA hB
    · rintro x hx y hy hxp hyq ⟨hxy, hyx⟩
      refine ⟨?_, ?_⟩
      · rw [hnext, Function.update_of_ne hxp, Function.update_of_ne (hne hx)]
        exact hxy
      · rw [hprev, Function.update_of_ne hyq, Function.update_of_ne (hne hy)]
        exact hyx
    · have hpn : Adjacent m' p new := by
        refine ⟨?_, ?_⟩
        · rw [hnext, Function.update_self]
        · rw [hprev, Function.update_of_ne (hne hq).symm, Function.update_self]
      have hnq : Adjacent m' new q := by
        refine ⟨?_, ?_⟩
        · rw [hnext, Function.update_of_ne (hne hp).symm, Function.update_self]
        · rw [hprev, Function.update_self]
      exact List.IsChain.cons_cons hpn (List.IsChain.cons_cons hnq (List.IsChain.singleton q))
    · have hn := hc.nodup
      rw [List.nil_append, ← List.cons_append] at hn
      rw [List.singleton_append, ← List.cons_append]
      exact List.nodup_middle.mpr (List.nodup_cons.mpr ⟨hnew, hn⟩)
  have hmem : ∀ a, a ∈ head :: (A ++ new :: B) → a = new ∨ a ∈ head :: (A ++ B) := by
    intro a ha
    simp only [List.mem_cons, List.mem_append] at ha ⊢
    tauto
  refine ⟨m', hrun, h.update hcircuit ?_ ?_, ?_⟩
  · intro hz
    rcases hmem 0 hz with h0 | hz
    · exact hf.node.1 h0.symm
    · exact h.nonnull head _ hl hz
  · intro head' k he hk
    have hdis := h.apart head' k head _ hk hl he
    have hnk := hf.unlinked head' k hk
    refine ⟨?_, ?_⟩
    · intro a ha ha'
      rcases hmem a ha' with rfl | ha'
      · exact hnk ha
      · exact hdis ha ha'
    · intro a ha
      apply hsame a
      · rintro rfl
        exact hnk ha
      · rintro rfl
        exact hdis ha hp
      · rintro rfl
        exact hdis ha hq
  · intro a ha hal
    apply hsame a ha
    · rintro rfl
      exact hal hp
    · rintro rfl
      exact hal hq

/-- The neighbours of a cut of a list. -/
theorem adjacent_cut {A B l₁ l₂ : List ListPtr} {p q : ListPtr} (h : HoldsLists m lists)
    (hl : lists head = some (A ++ B)) (hA : head :: A = l₁ ++ [p]) (hB : B ++ [head] = q :: l₂) :
    Adjacent m p q := by
  have hc : Circuit (Adjacent m) head (A ++ ([] ++ B)) := h.circuit head _ hl
  exact (List.isChain_cons_cons.mp (hc.stretch hA hB)).1

/-- **`list_add`** pushes to the front. -/
theorem add (h : HoldsLists m lists) (hf : Unlinked m lists new) (hl : lists head = some l) :
    ∃ m', m.listAdd new head = .ok m' ∧ HoldsLists m'
      (Function.update lists head (some (new :: l))) ∧
      ∀ a, a ≠ new → a ∉ head :: l → m' a = m a := by
  obtain ⟨l₁, p, q, l₂, hA, hB⟩ := Circuit.exists_cut head [] l
  obtain ⟨rfl, rfl⟩ : l₁ = [] ∧ p = head := by
    cases l₁ with
    | nil => exact ⟨rfl, (List.cons.inj hA).1.symm⟩
    | cons a l₁ => simp at hA
  have hadj := h.adjacent_cut (A := []) hl hA hB
  have h0 := (h.node hl List.mem_cons_self).1
  obtain ⟨m', hrun, hrest⟩ := h.insert (A := []) hf hl hA hB
  refine ⟨m', ?_, hrest⟩
  rw [ListMem.listAdd, ListMem.getNext_eq h0 hadj.1, ok_bind, hrun]

/-- **`list_add_tail`** pushes to the back. -/
theorem addTail (h : HoldsLists m lists) (hf : Unlinked m lists new) (hl : lists head = some l) :
    ∃ m', m.listAddTail new head = .ok m' ∧
      HoldsLists m' (Function.update lists head (some (l ++ [new]))) ∧
      ∀ a, a ≠ new → a ∉ head :: l → m' a = m a := by
  obtain ⟨l₁, p, q, l₂, hA, hB⟩ := Circuit.exists_cut head l []
  obtain ⟨rfl, rfl⟩ : q = head ∧ l₂ = [] := by
    obtain ⟨hq, hl₂⟩ := List.cons.inj hB
    exact ⟨hq.symm, hl₂.symm⟩
  have hl' : lists q = some (l ++ []) := by rw [List.append_nil, hl]
  have hadj := h.adjacent_cut hl' hA hB
  have h0 := (h.node hl List.mem_cons_self).1
  obtain ⟨m', hrun, hrest⟩ := h.insert hf hl' hA hB
  rw [List.append_nil] at hrest
  refine ⟨m', ?_, hrest⟩
  rw [ListMem.listAddTail, ListMem.getPrev_eq h0 hadj.2, ok_bind, hrun]

/-- **`list_del`** removes the entry. -/
theorem del {A B : List ListPtr} (h : HoldsLists m lists) (hl : lists head = some (A ++ x :: B)) :
    ∃ m', m.listDel x = .ok m' ∧ HoldsLists m' (Function.update lists head (some (A ++ B))) ∧
      m' x = some ⟨0, 0⟩ ∧ ∀ a, a ∉ head :: (A ++ x :: B) → m' a = m a := by
  obtain ⟨l₁, p, q, l₂, hA, hB⟩ := Circuit.exists_cut head A B
  have hc : Circuit (Adjacent m) head (A ++ ([x] ++ B)) := h.circuit head _ hl
  have hstretch := hc.stretch hA hB
  obtain ⟨hpx, hxq⟩ := List.isChain_cons_cons.mp hstretch
  replace hxq := (List.isChain_cons_cons.mp hxq).1
  have hmem : ∀ {a}, a ∈ head :: (A ++ B) → a ∈ head :: (A ++ x :: B) := by
    intro a ha
    simp only [List.mem_cons, List.mem_append] at ha ⊢
    tauto
  have hn : (x :: head :: (A ++ B)).Nodup := by
    have hn := hc.nodup
    rw [List.singleton_append, ← List.cons_append] at hn
    exact List.nodup_middle.mp hn
  have hp := Circuit.left_mem hA B
  have hq := Circuit.right_mem hB A
  have hxmem : x ∈ head :: (A ++ x :: B) :=
    List.mem_cons_of_mem _ (List.mem_append_right A List.mem_cons_self)
  have hne : ∀ {a}, a ∈ head :: (A ++ B) → a ≠ x := by
    rintro a ha rfl
    exact (List.nodup_cons.mp hn).1 ha
  obtain ⟨m', hrun, hnext, hprev, _⟩ := ListMem.listDel_eq (h.node hl hxmem) (h.node hl (hmem hp))
    (h.node hl (hmem hq)) hpx.2 hxq.1
  have hsame : ∀ a, a ≠ x → a ≠ p → a ≠ q → m' a = m a := by
    intro a ha hap haq
    apply ListMem.ext_at
    · rw [hnext, Function.update_of_ne ha, Function.update_of_ne hap]
    · rw [hprev, Function.update_of_ne ha, Function.update_of_ne haq]
  have hcircuit : Circuit (Adjacent m') head (A ++ ([] ++ B)) := by
    apply hc.replace hA hB
    · rintro y hy z hz hyp hzq ⟨hyz, hzy⟩
      refine ⟨?_, ?_⟩
      · rw [hnext, Function.update_of_ne (hne hy), Function.update_of_ne hyp]
        exact hyz
      · rw [hprev, Function.update_of_ne (hne hz), Function.update_of_ne hzq]
        exact hzy
    · have hpq : Adjacent m' p q := by
        refine ⟨?_, ?_⟩
        · rw [hnext, Function.update_of_ne (hne hp), Function.update_self]
        · rw [hprev, Function.update_of_ne (hne hq), Function.update_self]
      exact List.IsChain.cons_cons hpq (List.IsChain.singleton q)
    · exact (List.nodup_cons.mp hn).2
  refine ⟨m', hrun, h.update hcircuit ?_ ?_, ?_, ?_⟩
  · intro hz
    exact h.nonnull head _ hl (hmem hz)
  · intro head' k he hk
    have hdis := h.apart head' k head _ hk hl he
    refine ⟨fun a ha ha' => hdis ha (hmem ha'), ?_⟩
    intro a ha
    apply hsame a
    · rintro rfl
      exact hdis ha hxmem
    · rintro rfl
      exact hdis ha (hmem hp)
    · rintro rfl
      exact hdis ha (hmem hq)
  · have hnx : m'.next x = some 0 := by rw [hnext, Function.update_self]
    have hpx : m'.prev x = some 0 := by rw [hprev, Function.update_self]
    exact ListMem.eq_some hnx hpx
  · intro a ha
    apply hsame a
    · rintro rfl
      exact ha hxmem
    · rintro rfl
      exact ha (hmem hp)
    · rintro rfl
      exact ha (hmem hq)

/-- One list is left out of account. -/
theorem drop (h : HoldsLists m lists) (head : ListPtr) :
    HoldsLists m (Function.update lists head none) := by
  have hlists : ∀ {head' k}, Function.update lists head none head' = some k →
      lists head' = some k := by
    intro head' k hk
    by_cases he : head' = head
    · subst he
      rw [Function.update_self] at hk
      cases hk
    · rwa [Function.update_of_ne he] at hk
  refine ⟨?_, ?_, ?_⟩
  · intro head' k hk
    exact h.circuit head' k (hlists hk)
  · intro head' k hk
    exact h.nonnull head' k (hlists hk)
  · intro head₁ k₁ head₂ k₂ hk₁ hk₂
    exact h.apart head₁ k₁ head₂ k₂ (hlists hk₁) (hlists hk₂)

/-- `list_empty`. -/
theorem listEmpty_eq (h : HoldsLists m lists) (hl : lists head = some l) :
    m.listEmpty head = .ok (decide (l = [])) := by
  obtain ⟨l₁, p, q, l₂, hA, hB⟩ := Circuit.exists_cut head [] l
  obtain ⟨rfl, rfl⟩ : l₁ = [] ∧ p = head := by
    cases l₁ with
    | nil => exact ⟨rfl, (List.cons.inj hA).1.symm⟩
    | cons a l₁ => simp at hA
  have hadj := h.adjacent_cut (A := []) hl hA hB
  have h0 := (h.node hl List.mem_cons_self).1
  rw [ListMem.listEmpty, ListMem.getNext_eq h0 hadj.1, ok_bind, pure_eq_ok]
  cases l with
  | nil =>
    obtain ⟨rfl, -⟩ := List.cons.inj hB
    simp
  | cons a l =>
    obtain ⟨rfl, -⟩ := List.cons.inj hB
    have hne : a ≠ p := by
      rintro rfl
      exact (List.nodup_cons.mp (h.circuit a _ hl).nodup).1 List.mem_cons_self
    simp [hne]

/-- The ends of a list that is not empty. -/
theorem ends (h : HoldsLists m lists) (hl : lists head = some l) (hnil : l ≠ []) :
    ∃ first l' l₁ last, l = first :: l' ∧ l = l₁ ++ [last] ∧ m.next head = some first ∧
      m.prev head = some last ∧ List.IsChain (Adjacent m) l := by
  obtain ⟨first, l', rfl⟩ := List.exists_cons_of_ne_nil hnil
  obtain ⟨l₁, last, hlast⟩ := List.eq_nil_or_concat' (first :: l') |>.resolve_left hnil
  have hchain := (h.circuit head _ hl).chain
  obtain ⟨hfirst, hrest⟩ := List.isChain_cons_cons.mp hchain
  replace hrest : List.IsChain (Adjacent m) ((first :: l') ++ [head]) := hrest
  have hend : Adjacent m last head := by
    rw [hlast, List.append_assoc] at hrest
    exact (List.isChain_append_cons_cons.mp hrest).2.1
  exact ⟨first, l', l₁, last, rfl, hlast, hfirst.1, hend.2, (List.isChain_append.mp hrest).1⟩

/-- **Two lists become one**: their nodes form one circle, and the head of the other is alone. -/
theorem merge {list : ListPtr} {A B : List ListPtr} (h : HoldsLists m lists)
    (hA : lists list = some A)
    (hB : lists head = some B) (hne : list ≠ head) (hc : Circuit (Adjacent m') head (A ++ B))
    (hempty : Circuit (Adjacent m') list []) (hsame : ∀ a, a ∉ list :: A →
      a ∉ head :: B → m' a = m a) :
    HoldsLists m' (Function.update (Function.update lists head (some (A ++ B))) list
      (some [])) := by
  have hmem : ∀ {a}, a ∈ head :: (A ++ B) → a ∈ A ∨ a ∈ head :: B := by
    intro a ha
    simp only [List.mem_cons, List.mem_append] at ha ⊢
    tauto
  have hother : ∀ head' k, head' ≠ head → Function.update lists list none head' = some k →
      List.Disjoint (head' :: k) (list :: A) ∧ List.Disjoint (head' :: k) (head :: B) := by
    intro head' k he hk
    have hel : head' ≠ list := by
      rintro rfl
      rw [Function.update_self] at hk
      cases hk
    rw [Function.update_of_ne hel] at hk
    exact ⟨h.apart head' k list A hk hA hel, h.apart head' k head B hk hB he⟩
  have hstep₁ : HoldsLists m' (Function.update (Function.update lists list none) head
      (some (A ++ B))) := by
    apply (h.drop list).update hc
    · intro hz
      rcases hmem hz with hz | hz
      · exact h.nonnull list A hA (List.mem_cons_of_mem _ hz)
      · exact h.nonnull head B hB hz
    · intro head' k he hk
      obtain ⟨hdA, hdB⟩ := hother head' k he hk
      refine ⟨?_, fun a ha => hsame a (fun ha' => hdA ha ha') fun ha' => hdB ha ha'⟩
      intro a ha ha'
      rcases hmem ha' with ha' | ha'
      · exact hdA ha (List.mem_cons_of_mem _ ha')
      · exact hdB ha ha'
  have hstep₂ : HoldsLists m' _ := hstep₁.update hempty (by
    rw [List.mem_singleton]
    exact (h.node hA List.mem_cons_self).1.symm) (by
    intro head' k he hk
    refine ⟨?_, fun _ _ => rfl⟩
    intro a ha ha'
    rw [List.mem_singleton.mp ha'] at ha
    by_cases hep : head' = head
    · subst hep
      rw [Function.update_self] at hk
      obtain rfl := Option.some.inj hk
      rcases hmem ha with ha | ha
      · exact (List.nodup_cons.mp (h.circuit list A hA).nodup).1 ha
      · exact h.apart list A head' B hA hB hne List.mem_cons_self ha
    · rw [Function.update_of_ne hep] at hk
      exact (hother head' k hep hk).1 ha List.mem_cons_self)
  rwa [Function.update_comm hne.symm, Function.update_idem, Function.update_comm hne] at hstep₂

/-- **`list_splice`** of a list that is not empty prepends it and leaves it empty. -/
theorem splice {list : ListPtr} {A B : List ListPtr} (h : HoldsLists m lists)
    (hA : lists list = some A) (hB : lists head = some B) (hne : list ≠ head) (hnil : A ≠ []) :
    ∃ m', m.listSplice list head = .ok m' ∧
      HoldsLists m' (Function.update (Function.update lists head (some (A ++ B))) list (some [])) ∧
      ∀ a, a ∉ list :: A → a ∉ head :: B → m' a = m a := by
  obtain ⟨first, A₁, A₂, last, hfirst, hlast, hnextl, hprevl, hchain⟩ := h.ends hA hnil
  obtain ⟨l₁, p, q, l₂, hcut, hq⟩ := Circuit.exists_cut head [] B
  obtain ⟨rfl, rfl⟩ : l₁ = [] ∧ p = head := by
    cases l₁ with
    | nil => exact ⟨rfl, (List.cons.inj hcut).1.symm⟩
    | cons a l₁ => simp at hcut
  have hdis := h.apart list A p B hA hB hne
  have hnA := (h.circuit list A hA).nodup
  have hadj := h.adjacent_cut (A := []) hB hcut hq
  have hqB : q ∈ p :: B := Circuit.right_mem hq []
  have hfA : first ∈ A := hfirst ▸ List.mem_cons_self
  have hlA : last ∈ A := hlast ▸ List.mem_append_right A₂ List.mem_cons_self
  have hlist : list ∉ A := (List.nodup_cons.mp hnA).1
  have hAp : ∀ {a}, a ∈ A → a ≠ p := by
    rintro a ha rfl
    exact hdis (List.mem_cons_of_mem _ ha) List.mem_cons_self
  have hAq : ∀ {a}, a ∈ A → a ≠ q := by
    rintro a ha rfl
    exact hdis (List.mem_cons_of_mem _ ha) hqB
  have hAl : ∀ {a}, a ∈ A → a ≠ list := by
    rintro a ha rfl
    exact hlist ha
  have hBA : ∀ {a}, a ∈ p :: B → a ∉ list :: A := fun ha ha' => hdis ha' ha
  have hBl : ∀ {a}, a ∈ p :: B → a ≠ list := by
    rintro a ha rfl
    exact hBA ha List.mem_cons_self
  have hnodeA : ∀ {a}, a ∈ A → m.Node a := fun ha => h.node hA (List.mem_cons_of_mem _ ha)
  have hlnode := h.node hA List.mem_cons_self
  have hpnode := h.node hB List.mem_cons_self
  obtain ⟨m₁, hrun₁, hn₁, hp₁, hs₁⟩ := ListMem.listSpliceBetween_eq hlnode hpnode (h.node hB hqB)
    (hnodeA hfA) (hnodeA hlA) hnextl hprevl
  obtain ⟨m₂, hrun₂, hn₂, hp₂, _⟩ := ListMem.listInit_eq ((hs₁ list).mpr hlnode)
  have hnext : ∀ a, a ≠ list → a ≠ last → a ≠ p → m₂.next a = m.next a := by
    intro a hal haz hap
    rw [hn₂, Function.update_of_ne hal, hn₁, Function.update_of_ne haz, Function.update_of_ne hap]
  have hprev : ∀ a, a ≠ list → a ≠ q → a ≠ first → m₂.prev a = m.prev a := by
    intro a hal haq haf
    rw [hp₂, Function.update_of_ne hal, hp₁, Function.update_of_ne haq, Function.update_of_ne haf]
  have hhead : Adjacent m₂ p first := by
    refine ⟨?_, ?_⟩
    · rw [hn₂, Function.update_of_ne (hBl List.mem_cons_self), hn₁,
        Function.update_of_ne (hAp hlA).symm, Function.update_self]
    · rw [hp₂, Function.update_of_ne (hAl hfA), hp₁, Function.update_of_ne (hAq hfA),
        Function.update_self]
  have hend : Adjacent m₂ last q := by
    refine ⟨?_, ?_⟩
    · rw [hn₂, Function.update_of_ne (hAl hlA), hn₁, Function.update_self]
    · rw [hp₂, Function.update_of_ne (hBl hqB), hp₁, Function.update_self]
  have hsame : ∀ a, a ∉ list :: A → a ∉ p :: B → m₂ a = m a := by
    intro a ha hb
    have hal : a ≠ list := fun e => ha (e ▸ List.mem_cons_self)
    apply ListMem.ext_at
    · exact hnext a hal (fun e => ha (e ▸ List.mem_cons_of_mem _ hlA)) fun e =>
        hb (e ▸ List.mem_cons_self)
    · exact hprev a hal (fun e => hb (e ▸ hqB)) fun e => ha (e ▸ List.mem_cons_of_mem _ hfA)
  -- the walk from the head through the spliced nodes
  have hmiddle : List.IsChain (Adjacent m₂) (p :: (A ++ [q])) := by
    apply hchain.between hfirst hlast (List.nodup_cons.mp hnA).2 _ hhead hend
    rintro x hx y hy hxlast hyfirst ⟨hxy, hyx⟩
    exact ⟨(hnext x (hAl hx) hxlast (hAp hx)).trans hxy,
      (hprev y (hAl hy) (hAq hy) hyfirst).trans hyx⟩
  have hcircuit : Circuit (Adjacent m₂) p (A ++ B) := by
    have hc : Circuit (Adjacent m) p ([] ++ ([] ++ B)) := h.circuit p B hB
    apply hc.replace hcut hq
    · rintro x hx y hy hxp hyq ⟨hxy, hyx⟩
      have hxA : x ∉ list :: A := hBA hx
      have hyA : y ∉ list :: A := hBA hy
      refine ⟨(hnext x (hBl hx) (fun e => hxA (e ▸ List.mem_cons_of_mem _ hlA)) hxp).trans hxy, ?_⟩
      exact (hprev y (hBl hy) hyq fun e => hyA (e ▸ List.mem_cons_of_mem _ hfA)).trans hyx
    · exact hmiddle
    · have hnB := (h.circuit p B hB).nodup
      have hn : (A ++ p :: B).Nodup := by
        refine List.nodup_append.mpr ⟨(List.nodup_cons.mp hnA).2, hnB, ?_⟩
        rintro a ha b hb rfl
        exact hBA hb (List.mem_cons_of_mem _ ha)
      have hn' : (p :: (A ++ B)).Nodup := List.nodup_middle.mp hn
      exact hn'
  have hempty : Circuit (Adjacent m₂) list [] := by
    apply Circuit.nil
    refine ⟨?_, ?_⟩
    · rw [hn₂, Function.update_self]
    · rw [hp₂, Function.update_self]
  refine ⟨m₂, ?_, h.merge hA hB hne hcircuit hempty hsame, hsame⟩
  have hempty' := h.listEmpty_eq hA
  rw [decide_eq_false hnil] at hempty'
  rw [ListMem.listSplice, hempty', ok_bind, if_neg Bool.false_ne_true,
    ListMem.getNext_eq hpnode.1 hadj.1, ok_bind, hrun₁, ok_bind, hrun₂]

/-- `list_splice` of an empty list writes nothing. -/
theorem splice_nil {list : ListPtr} (h : HoldsLists m lists) (hA : lists list = some []) :
    m.listSplice list head = .ok m := by
  rw [ListMem.listSplice, h.listEmpty_eq hA, ok_bind, decide_eq_true rfl, if_pos rfl, pure_eq_ok]

/-- The loop of `list_size` counts what is left of the walk. -/
theorem sizeLoop_eq : ∀ {l : List ListPtr} {fuel size : Nat}, List.IsChain (Adjacent m)
    (l ++ [head]) → head ∉ l → 0 ∉ l → l.length < fuel → size < WORD →
    ListMem.sizeLoop head fuel m ((l ++ [head]).head (by simp)) size =
    .ok ((size + l.length) % WORD) := by
  intro l
  induction l with
  | nil =>
    intro fuel size _ _ _ hf hs
    obtain ⟨fuel, rfl⟩ := Nat.exists_eq_succ_of_ne_zero (Nat.ne_of_gt hf)
    have hmod : (size + 0) % WORD = size := Nat.mod_eq_of_lt hs
    rw [ListMem.sizeLoop, List.length_nil, hmod]
    exact if_pos rfl
  | cons x l ih =>
    intro fuel size hchain hhead h0 hf hs
    obtain ⟨fuel, rfl⟩ := Nat.exists_eq_succ_of_ne_zero (Nat.ne_of_gt (Nat.zero_lt_of_lt hf))
    rw [List.mem_cons, not_or] at hhead h0
    have hnext : m.next x = some ((l ++ [head]).head (by simp)) := by
      cases l with
      | nil => exact (List.isChain_cons_cons.mp hchain).1.1
      | cons y l => exact (List.isChain_cons_cons.mp hchain).1.1
    have hrest : List.IsChain (Adjacent m) (l ++ [head]) := hchain.tail
    have hlt : (size + 1) % WORD < WORD := Nat.mod_lt _ (by decide)
    have hloop := ih hrest hhead.2 h0.2 (Nat.lt_of_succ_lt_succ hf) hlt
    simp only [List.cons_append, List.head_cons]
    rw [ListMem.sizeLoop, if_neg (Ne.symm hhead.1), ListMem.getNext_eq (Ne.symm h0.1) hnext,
      ok_bind, hloop, Nat.mod_add_mod, List.length_cons, Nat.add_assoc, Nat.add_comm 1]

/-- **`list_size`** is the number of elements. -/
theorem listSize_eq (h : HoldsLists m lists) (hl : lists head = some l) {fuel : Nat}
    (hf : l.length < fuel) : m.listSize fuel head = .ok l.length := by
  have hc := h.circuit head l hl
  have hchain : List.IsChain (Adjacent m) (l ++ [head]) := hc.chain.tail
  have hn := List.nodup_cons.mp hc.nodup
  have h0 : 0 ∉ l := fun hm => h.nonnull head l hl (List.mem_cons_of_mem _ hm)
  have hnext : m.next head = some ((l ++ [head]).head (by simp)) := by
    have hchain := hc.chain
    cases l with
    | nil => exact (List.isChain_cons_cons.mp hchain).1.1
    | cons y l => exact (List.isChain_cons_cons.mp hchain).1.1
  have hlt : l.length < WORD := by
    have hinj : Function.Injective (BitVec.toFin : ListPtr → Fin (2 ^ 64)) :=
      fun a b => BitVec.eq_of_toFin_eq
    have hcard := (hc.nodup.map hinj).length_le_card
    rw [List.length_map, List.length_cons, Fintype.card_fin] at hcard
    exact hcard
  rw [ListMem.listSize, ListMem.getNext_eq (h.node hl List.mem_cons_self).1 hnext, ok_bind,
    sizeLoop_eq hchain hn.1 h0 hf (by decide), Nat.zero_add, Nat.mod_eq_of_lt hlt]

end HoldsLists

/-- **The functions of `list.c`** on any number of disjoint circular lists.  Each acts on the
sequences of the lists it is called with; `HoldsLists` of the new memory says that all other lists
are as before and that `next` and `prev` still undo each other. -/
theorem lists_correct (m : ListMem) (lists : ListPtr → Option (List ListPtr))
    (h : HoldsLists m lists) : (∀ new, Unlinked m lists new → ∃ m', m.listInit new = .ok m' ∧
      HoldsLists m' (Function.update lists new (some [])) ∧ ∀ a, a ≠ new → m' a = m a) ∧
    (∀ head l new, lists head = some l → Unlinked m lists new →
      (∃ m', m.listAdd new head = .ok m' ∧ HoldsLists m'
        (Function.update lists head (some (new :: l))) ∧
        ∀ a, a ≠ new → a ∉ head :: l → m' a = m a) ∧
      ∃ m', m.listAddTail new head = .ok m' ∧
        HoldsLists m' (Function.update lists head (some (l ++ [new]))) ∧
        ∀ a, a ≠ new → a ∉ head :: l → m' a = m a) ∧
    (∀ head A x B, lists head = some (A ++ x :: B) →
      ∃ m', m.listDel x = .ok m' ∧ HoldsLists m' (Function.update lists head (some (A ++ B))) ∧
        m' x = some ⟨0, 0⟩ ∧ ∀ a, a ∉ head :: (A ++ x :: B) → m' a = m a) ∧
    (∀ list head A B, lists list = some A → lists head = some B → list ≠ head →
      ∃ m', m.listSplice list head = .ok m' ∧
        HoldsLists m' (Function.update (Function.update lists head (some (A ++ B)))
          list (some [])) ∧
        (∀ a, a ∉ list :: A → a ∉ head :: B → m' a = m a) ∧ (A = [] → m' = m)) ∧
    (∀ head l, lists head = some l →
      (∀ fuel, l.length < fuel → m.listSize fuel head = .ok l.length) ∧
      m.listEmpty head = .ok (decide (l = [])) ∧
      ∀ x ∈ head :: l, (∃ y ∈ head :: l, m.next x = some y ∧ m.prev y = some x) ∧
        ∃ y ∈ head :: l, m.prev x = some y ∧ m.next y = some x) := by
  refine ⟨fun new hf => h.init hf, ?_, ?_, ?_, ?_⟩
  · intro head l new hl hf
    exact ⟨h.add hf hl, h.addTail hf hl⟩
  · intro head A x B hl
    exact h.del hl
  · intro list head A B hA hB hne
    by_cases hnil : A = []
    · subst hnil
      have hsame : Function.update (Function.update lists head (some ([] ++ B))) list
          (some []) = lists := by
        rw [List.nil_append, ← hB, Function.update_eq_self, ← hA, Function.update_eq_self]
      refine ⟨m, h.splice_nil hA, ?_, fun _ _ _ => rfl, fun _ => rfl⟩
      rw [hsame]
      exact h
    · obtain ⟨m', hrun, hholds, hframe⟩ := h.splice hA hB hne hnil
      exact ⟨m', hrun, hholds, hframe, fun he => absurd he hnil⟩
  · intro head l hl
    exact ⟨fun fuel hf => h.listSize_eq hl hf, h.listEmpty_eq hl, fun x hx => h.inverse hl hx⟩

/-- A list of one element, an empty list and a node in no list. -/
def twoLists : ListMem := fun p =>
  List.lookup p [(16, ⟨32, 32⟩), (32, ⟨16, 16⟩), (64, ⟨64, 64⟩), (80, ⟨0, 0⟩)]

def twoHeads : ListPtr → Option (List ListPtr) := fun p => List.lookup p [(16, [32]), (64, [])]

theorem twoHeads_some {head : ListPtr} {l : List ListPtr} (h : twoHeads head = some l) :
    head = 16 ∧ l = [32] ∨ head = 64 ∧ l = [] := by
  unfold twoHeads at h
  simp only [List.lookup] at h
  split at h
  · rename_i he
    exact Or.inl ⟨by simpa using he, (Option.some.inj h).symm⟩
  · split at h
    · rename_i he
      exact Or.inr ⟨by simpa using he, (Option.some.inj h).symm⟩
    · cases h

theorem twoLists_holds : HoldsLists twoLists twoHeads where
  circuit := by
    intro head l hl
    rcases twoHeads_some hl with ⟨rfl, rfl⟩ | ⟨rfl, rfl⟩
    · refine ⟨?_, by decide⟩
      exact List.IsChain.cons_cons ⟨rfl, rfl⟩ (List.IsChain.cons_cons ⟨rfl,
        rfl⟩ (List.IsChain.singleton _))
    · exact Circuit.nil ⟨rfl, rfl⟩
  nonnull := by
    intro head l hl
    rcases twoHeads_some hl with ⟨rfl, rfl⟩ | ⟨rfl, rfl⟩ <;> decide
  apart := by
    intro head l head' l' hl hl' hne
    rcases twoHeads_some hl with ⟨rfl, rfl⟩ | ⟨rfl, rfl⟩ <;>
      rcases twoHeads_some hl' with ⟨rfl, rfl⟩ | ⟨rfl, rfl⟩ <;> simp at hne ⊢

theorem lists_correct_twoLists :
    (∃ m', twoLists.listAdd 80 16 = .ok m' ∧ HoldsLists m'
      (Function.update twoHeads 16 (some [80, 32]))) ∧
    (∃ m', twoLists.listSplice 16 64 = .ok m' ∧
      HoldsLists m' (Function.update (Function.update twoHeads 64 (some [32])) 16 (some []))) ∧
    twoLists.listSize 2 16 = .ok 1 := by
  have hfresh : Unlinked twoLists twoHeads 80 := by
    refine ⟨⟨by decide, by decide⟩, ?_⟩
    intro head l hl
    rcases twoHeads_some hl with ⟨rfl, rfl⟩ | ⟨rfl, rfl⟩ <;> decide
  obtain ⟨-, hadd, -, hsplice, hsize⟩ := lists_correct twoLists twoHeads twoLists_holds
  obtain ⟨m₁, hrun₁, hholds₁, -⟩ := (hadd 16 [32] 80 rfl hfresh).1
  obtain ⟨m₂, hrun₂, hholds₂, -⟩ := hsplice 16 64 [32] [] rfl rfl (by decide)
  exact ⟨⟨m₁, hrun₁, hholds₁⟩, ⟨m₂, hrun₂, hholds₂⟩, (hsize 16 [32] rfl).1 2 (by decide)⟩

end AuOs
