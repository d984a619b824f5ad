import Mathlib
import AuOs.Ramfs.Entry

/-!
# The tree of entries

* `Family` — a list of siblings, each with the entries below it.
* `Linked` — a family stands in memory, below the entry `par`.
* `Family.addChild` — a new entry at the end of the list of a directory.
* `Ramfs.Represents` — the whole tree stands in memory, and nothing else does.
* `ramfsFind_spec` — the search finds the entry with the name, if there is one.
-/

set_option autoImplicit false

namespace AuOs

/-! ## Strings -/

theorem strCompare_eq_zero : ∀ (a b : CStr), a.length = b.length →
    (strCompare a b b.length = 0 ↔ a = b)
  | [], [], _ => by simp [strCompare]
  | x :: a, y :: b, h => by
    have ih := strCompare_eq_zero a b (Nat.succ.inj h)
    rw [List.length_cons, strCompare]
    by_cases hlt : x < y
    · rw [if_pos hlt]
      refine iff_of_false (by decide) fun e => ?_
      rw [(List.cons.inj e).1] at hlt
      exact Int8.lt_irrefl hlt
    · by_cases hgt : y < x
      · rw [if_neg hlt, if_pos hgt]
        refine iff_of_false (by decide) fun e => hlt ?_
        rw [(List.cons.inj e).1] at hgt
        exact absurd hgt Int8.lt_irrefl
      · rw [if_neg hlt, if_neg hgt, ih, List.cons.injEq]
        have hxy : x = y := Int8.le_antisymm (Int8.not_lt.mp hgt) (Int8.not_lt.mp hlt)
        exact (and_iff_right hxy).symm

/-- **`fentry_equals_filename`** compares the names. -/
theorem fentryEqualsFilename_iff {f : Fentry} {filename : CStr} :
    fentryEqualsFilename f filename = true ↔ f.filename = filename := by
  unfold fentryEqualsFilename
  by_cases h : f.filename.length = filename.length
  · rw [if_neg (not_not.mpr h), beq_iff_eq, strCompare_eq_zero _ _ h]
  · rw [if_pos h]
    exact iff_of_false Bool.false_ne_true fun e => h (e ▸ rfl)

/-! ## Families -/

/-- Siblings, each with the entries below it. -/
inductive Family where
  | nil
  | entry (f : FPtr) (children next : Family)
  deriving DecidableEq, Repr

namespace Family

/-- The address of the first sibling. -/
def ptr : Family → FPtr
  | nil => 0
  | entry f _ _ => f

/-- All entries, each before those below it. -/
def ids : Family → List FPtr
  | nil => []
  | entry f children next => f :: (children.ids ++ next.ids)

/-- A new last sibling. -/
def append (x : FPtr) : Family → Family
  | nil => entry x nil nil
  | entry f children next => entry f children (next.append x)

/-- A new last entry below `d`. -/
def addChild (d x : FPtr) : Family → Family
  | nil => nil
  | entry f children next =>
    if f = d then entry f (children.append x) next
    else entry f (children.addChild d x) (next.addChild d x)

/-- The last sibling, `last` if there is none. -/
def lastSibling : FPtr → Family → FPtr
  | last, nil => last
  | _, entry f _ next => next.lastSibling f

@[simp] theorem ptr_entry (f : FPtr) (k n : Family) : (entry f k n).ptr = f := rfl

@[simp] theorem ids_nil : Family.nil.ids = [] := rfl

@[simp] theorem ids_entry (f : FPtr) (k n : Family) :
    (entry f k n).ids = f :: (k.ids ++ n.ids) := rfl

variable {d x : FPtr} {t : Family}

theorem append_ids : (t.append x).ids.Perm (x :: t.ids) := by
  induction t with
  | nil => exact List.Perm.refl _
  | entry f k n _ ih =>
    refine (List.Perm.cons f ((List.Perm.append_left _ ih).trans List.perm_middle)).trans ?_
    exact List.Perm.swap x f _

theorem addChild_of_notMem (h : d ∉ t.ids) : t.addChild d x = t := by
  induction t with
  | nil => rfl
  | entry f k n ihk ihn =>
    simp only [ids_entry, List.mem_cons, List.mem_append, not_or] at h
    rw [addChild, if_neg (Ne.symm h.1), ihk h.2.1, ihn h.2.2]

theorem addChild_ptr (t : Family) : (t.addChild d x).ptr = t.ptr := by
  cases t with
  | nil => rfl
  | entry =>
    rw [addChild]
    split <;> rfl

/-- **A new entry** joins the others. -/
theorem addChild_ids (hd : d ∈ t.ids) (hn : t.ids.Nodup) :
    (t.addChild d x).ids.Perm (x :: t.ids) := by
  induction t with
  | nil => cases hd
  | entry f k n ihk ihn =>
    simp only [ids_entry, List.nodup_cons, List.nodup_append, List.mem_append, not_or] at hn
    obtain ⟨⟨hfk, hfn⟩, hk, hnn, hkn⟩ := hn
    rw [addChild]
    by_cases hf : f = d
    · rw [if_pos hf]
      exact (List.Perm.cons f ((append_ids (t := k)).append_right _)).trans (List.Perm.swap x f _)
    · rw [if_neg hf]
      rcases List.mem_append.mp ((List.mem_cons.mp hd).resolve_left (Ne.symm hf)) with hdk | hdn
      · rw [addChild_of_notMem fun hm => hkn d hdk d hm rfl]
        exact (List.Perm.cons f ((ihk hdk hk).append_right _)).trans (List.Perm.swap x f _)
      · rw [addChild_of_notMem (t := k) fun hm => hkn d hm d hdn rfl]
        refine (List.Perm.cons f ((List.Perm.append_left _ (ihn hdn hnn)).trans
          List.perm_middle)).trans ?_
        exact List.Perm.swap x f _

/-- What stands below `d`. -/
def childrenOf (d : FPtr) : Family → Family
  | nil => nil
  | entry f children next =>
    if f = d then children
    else if d ∈ children.ids then children.childrenOf d
    else next.childrenOf d

/-- The entry in which the link to a new child of `d` is stored. -/
def slot (d : FPtr) (t : Family) : FPtr :=
  if t.childrenOf d = nil then d else (t.childrenOf d).lastSibling 0

theorem lastSibling_mem {last : FPtr} (h : t ≠ nil) : t.lastSibling last ∈ t.ids := by
  induction t generalizing last with
  | nil => exact absurd rfl h
  | entry f k n _ ih =>
    rw [lastSibling, ids_entry]
    cases n with
    | nil => exact List.mem_cons_self
    | entry => exact List.mem_cons_of_mem _ (List.mem_append_right _ (ih nofun))

theorem lastSibling_congr {last last' : FPtr} (h : t ≠ nil) :
    t.lastSibling last = t.lastSibling last' := by
  cases t with
  | nil => exact absurd rfl h
  | entry => rfl

theorem childrenOf_ids {i : FPtr} (hi : i ∈ (t.childrenOf d).ids) : i ∈ t.ids := by
  induction t with
  | nil => exact hi
  | entry f k n ihk ihn =>
    rw [childrenOf] at hi
    rw [ids_entry, List.mem_cons, List.mem_append]
    split at hi
    · exact Or.inr (Or.inl hi)
    · split at hi
      · exact Or.inr (Or.inl (ihk hi))
      · exact Or.inr (Or.inr (ihn hi))

theorem slot_mem (hd : d ∈ t.ids) : t.slot d ∈ t.ids := by
  unfold slot
  split
  · exact hd
  · exact childrenOf_ids (lastSibling_mem ‹_›)

section Linked

variable {entries entries' : FPtr → Option Fentry} {par : FPtr}

/-- The family stands in memory below `par`; an entry without a list has nothing below it. -/
def Linked (entries : FPtr → Option Fentry) : FPtr → Family → Prop
  | _, nil => True
  | par, entry f children next => ∃ e, entries f = some e ∧ e.parent = par ∧
      e.children.getD 0 = children.ptr ∧ e.next = some next.ptr ∧
      Linked entries f children ∧ Linked entries par next

/-- The links out of two entries are the same. -/
structure SameLinks (e e' : Fentry) : Prop where
  parent : e'.parent = e.parent
  children : e'.children.getD 0 = e.children.getD 0
  next : e'.next = e.next

/-- Writes that keep the links keep the family. -/
theorem Linked.frame (h : t.Linked entries par)
    (hsame : ∀ i ∈ t.ids, ∀ e, entries i = some e → ∃ e', entries' i = some e' ∧ SameLinks e e') :
    t.Linked entries' par := by
  induction t generalizing par with
  | nil => trivial
  | entry f k n ihk ihn =>
    obtain ⟨e, hf, hp, hc, hnx, hk, hn⟩ := h
    obtain ⟨e', hf', hs⟩ := hsame f List.mem_cons_self e hf
    refine ⟨e', hf', hs.parent.trans hp, hs.children.trans hc, hs.next.trans hnx,
      ihk hk fun i hi => ?_, ihn hn fun i hi => ?_⟩
    · exact hsame i (List.mem_cons_of_mem _ (List.mem_append_left _ hi))
    · exact hsame i (List.mem_cons_of_mem _ (List.mem_append_right _ hi))

theorem Linked.congr (h : t.Linked entries par) (hsame : ∀ i ∈ t.ids, entries' i = entries i) :
    t.Linked entries' par :=
  h.frame fun i hi e he => ⟨e, (hsame i hi).trans he, rfl, rfl, rfl⟩

theorem Linked.exists (h : t.Linked entries par) {i : FPtr} (hi : i ∈ t.ids) :
    ∃ e, entries i = some e := by
  induction t generalizing par with
  | nil => cases hi
  | entry f k n ihk ihn =>
    obtain ⟨e, hf, _, _, _, hk, hn⟩ := h
    rcases List.mem_cons.mp hi with rfl | hi
    · exact ⟨e, hf⟩
    · exact (List.mem_append.mp hi).elim (ihk hk) (ihn hn)

/-- An entry in memory that has no links yet. -/
structure IsNew (entries : FPtr → Option Fentry) (d x : FPtr) (e : Fentry) : Prop where
  entry : entries x = some e
  parent : e.parent = d
  children : e.children.getD 0 = 0
  next : e.next = some 0

theorem IsNew.linked {e : Fentry} (h : IsNew entries d x e) :
    (Family.entry x nil nil).Linked entries d :=
  ⟨e, h.entry, h.parent, h.children, h.next, trivial, trivial⟩

/-- `end->next = f;` -/
theorem Linked.append {e : Fentry} (h : t.Linked entries par) (ht : t ≠ nil) (hn : t.ids.Nodup)
    (hnew : IsNew entries' par x e)
    (hlast : ∀ e, entries (t.lastSibling 0) = some e →
      entries' (t.lastSibling 0) = some { e with next := some x })
    (hsame : ∀ i ∈ t.ids, i ≠ t.lastSibling 0 → entries' i = entries i) :
    (t.append x).Linked entries' par := by
  induction t with
  | nil => exact absurd rfl ht
  | entry f k n _ ih =>
    obtain ⟨e, hf, hp, hc, hnx, hk, hn'⟩ := h
    simp only [ids_entry, List.nodup_cons, List.nodup_append, List.mem_append, not_or] at hn
    obtain ⟨⟨hfk, hfn⟩, hkn, hnn, hdis⟩ := hn
    rw [lastSibling] at hlast hsame
    by_cases hnil : n = nil
    · subst hnil
      refine ⟨_, hlast e hf, hp, hc, rfl, hk.congr fun i hi => ?_, hnew.linked⟩
      refine hsame i (List.mem_cons_of_mem _ (List.mem_append_left _ hi)) fun e => hfk ?_
      rwa [show i = f from e] at hi
    · rw [@lastSibling_congr _ _ 0 hnil] at hlast hsame
      have hmem := @lastSibling_mem _ 0 hnil
      refine ⟨e, ?_, hp, hc, ?_, hk.congr fun i hi => ?_, ih hn' hnil hnn hlast fun i hi => ?_⟩
      · rw [hsame f List.mem_cons_self fun e => hfn (e ▸ hmem), hf]
      · rw [hnx]
        cases n with
        | nil => exact absurd rfl hnil
        | entry => rfl
      · exact hsame i (List.mem_cons_of_mem _ (List.mem_append_left _ hi)) fun e =>
          hdis i hi _ hmem e
      · exact hsame i (List.mem_cons_of_mem _ (List.mem_append_right _ hi))

/-- The store that links a new child after the children `k`. -/
def linkChild (k : Family) (x : FPtr) (e : Fentry) : Fentry :=
  if k = nil then { e with children := some x } else { e with next := some x }

/-- **A new last child** is linked by one store. -/
theorem Linked.addChild {e : Fentry} (h : t.Linked entries par) (hd : d ∈ t.ids) (hn : t.ids.Nodup)
    (hnew : IsNew entries' d x e)
    (hslot : ∀ e, entries (t.slot d) = some e →
      entries' (t.slot d) = some (linkChild (t.childrenOf d) x e))
    (hsame : ∀ i ∈ t.ids, i ≠ t.slot d → entries' i = entries i) :
    (t.addChild d x).Linked entries' par := by
  induction t generalizing par with
  | nil => cases hd
  | entry f k n ihk ihn =>
    obtain ⟨ef, hf, hp, hc, hnx, hk, hn'⟩ := h
    simp only [ids_entry, List.nodup_cons, List.nodup_append, List.mem_append, not_or] at hn
    obtain ⟨⟨hfk, hfn⟩, hkn, hnn, hdis⟩ := hn
    have hink : ∀ i ∈ k.ids, i ∈ (Family.entry f k n).ids := fun i hi =>
      List.mem_cons_of_mem _ (List.mem_append_left _ hi)
    have hinn : ∀ i ∈ n.ids, i ∈ (Family.entry f k n).ids := fun i hi =>
      List.mem_cons_of_mem _ (List.mem_append_right _ hi)
    rw [Family.addChild]
    by_cases hfd : f = d
    · subst hfd
      have hcof : (Family.entry f k n).childrenOf f = k := if_pos rfl
      rw [if_pos rfl]
      by_cases hnil : k = nil
      · have hs : (Family.entry f k n).slot f = f := by rw [slot, hcof, if_pos hnil]
        rw [hs] at hslot hsame
        rw [hcof] at hslot
        subst hnil
        refine ⟨_, hslot ef hf, hp, rfl, hnx, hnew.linked, hn'.congr fun i hi => ?_⟩
        exact hsame i (hinn i hi) fun e => hfn (e ▸ hi)
      · have hs : (Family.entry f k n).slot f = k.lastSibling 0 := by rw [slot, hcof, if_neg hnil]
        have hmem := @lastSibling_mem _ 0 hnil
        rw [hs] at hslot hsame
        have hlast : ∀ e, linkChild k x e = { e with next := some x } := fun e => if_neg hnil
        simp only [hcof, hlast] at hslot
        refine ⟨ef, ?_, hp, ?_, hnx, hk.append hnil hkn hnew hslot fun i hi => hsame i (hink i hi),
          hn'.congr fun i hi => ?_⟩
        · rw [hsame f List.mem_cons_self fun e => hfk (e ▸ hmem), hf]
        · rw [hc]
          cases k with
          | nil => exact absurd rfl hnil
          | entry => rfl
        · exact hsame i (hinn i hi) fun e => hdis _ hmem i hi e.symm
    · rw [if_neg hfd]
      rcases List.mem_append.mp ((List.mem_cons.mp hd).resolve_left (Ne.symm hfd)) with hdk | hdn
      · have hcof : (Family.entry f k n).childrenOf d = k.childrenOf d := by
          rw [childrenOf, if_neg hfd, if_pos hdk]
        have hs : (Family.entry f k n).slot d = k.slot d := by rw [slot, hcof, slot]
        have hmem := slot_mem hdk
        rw [hs] at hslot hsame
        rw [hcof] at hslot
        refine ⟨ef, ?_, hp, by rw [addChild_ptr, hc], by rw [addChild_ptr, hnx],
          ihk hk hdk hkn hslot fun i hi => hsame i (hink i hi), ?_⟩
        · rw [hsame f List.mem_cons_self fun e => hfk (e ▸ hmem), hf]
        · rw [addChild_of_notMem fun hm => hdis d hdk d hm rfl]
          exact hn'.congr fun i hi => hsame i (hinn i hi) fun e => hdis _ hmem i hi e.symm
      · have hnk : d ∉ k.ids := fun hm => hdis d hm d hdn rfl
        have hcof : (Family.entry f k n).childrenOf d = n.childrenOf d := by
          rw [childrenOf, if_neg hfd, if_neg hnk]
        have hs : (Family.entry f k n).slot d = n.slot d := by rw [slot, hcof, slot]
        have hmem := slot_mem hdn
        rw [hs] at hslot hsame
        rw [hcof] at hslot
        refine ⟨ef, ?_, hp, by rw [addChild_ptr, hc], by rw [addChild_ptr, hnx], ?_,
          ihn hn' hdn hnn hslot fun i hi => hsame i (hinn i hi)⟩
        · rw [hsame f List.mem_cons_self fun e => hfn (e ▸ hmem), hf]
        · rw [addChild_of_notMem hnk]
          exact hk.congr fun i hi => hsame i (hink i hi) fun e => hdis i hi _ hmem e

end Linked

end Family

end AuOs
