import Mathlib
import AuOs.Ramfs.Race

/-!
# A search while entries are added

* `Ramfs.Extends` — entries were added: names stay, and a link that led to an entry still does.
* `SearchOk` — a search stands at entries that are linked, and its result has the name.
* `Reach`, `Ahead` — an entry still lies ahead of a search.
* `step_ok`, `step_ahead` — one step keeps both; `SearchOk.extends`, `Ahead.extends` — so do the
  others.
-/

set_option autoImplicit false

namespace AuOs

/-- The entry keeps its name, and the links that lead to an entry. -/
structure Fentry.Extends (e e' : Fentry) : Prop where
  filename : e'.filename = e.filename
  children : ∀ c, e.children = some c → ∃ c', e'.children = some c' ∧ (c ≠ 0 → c' = c)
  next : ∀ n, e.next = some n → ∃ n', e'.next = some n' ∧ (n ≠ 0 → n' = n)

theorem Fentry.Extends.refl (e : Fentry) : e.Extends e :=
  ⟨rfl, fun c hc => ⟨c, hc, fun _ => rfl⟩, fun n hn => ⟨n, hn, fun _ => rfl⟩⟩

/-- Entries were added. -/
structure Ramfs.Extends (fs fs' : Ramfs) : Prop where
  root : fs'.root = fs.root
  entry : ∀ i e, fs.entries i = some e → ∃ e', fs'.entries i = some e' ∧ e.Extends e'

/-- A link leads to an entry or ends. -/
def Ramfs.Link (fs : Ramfs) (p : FPtr) : Prop := p = 0 ∨ ∃ e, fs.entries p = some e

/-- The entry has been linked, and so has all that it leads to. -/
structure Ramfs.Sound (fs : Ramfs) : Prop where
  root : fs.root ≠ 0 ∧ ∃ e, fs.entries fs.root = some e
  null : fs.entries 0 = none
  children : ∀ i e c, fs.entries i = some e → e.children = some c → fs.Link c
  next : ∀ i e, fs.entries i = some e → ∃ n, e.next = some n ∧ fs.Link n

/-- The entry has its list. -/
def Ramfs.HasList (fs : Ramfs) (f : FPtr) : Prop :=
  ∃ e c, fs.entries f = some e ∧ e.children = some c

/-- The iterators of the waiting calls. -/
def StackOk (fs : Ramfs) (stack : List FPtr) : Prop := ∀ p ∈ stack, ∃ e, fs.entries p = some e

/-- The search stands at linked entries; a result has the name. -/
def SearchOk (fs : Ramfs) (fn : CStr) : Search → Prop
  | .start => True
  | .enter f stack => (∃ e, fs.entries f = some e) ∧ StackOk fs stack
  | .list f stack => fs.HasList f ∧ StackOk fs stack
  | .scan f it stack => fs.HasList f ∧ fs.Link it ∧ StackOk fs stack
  | .again f stack => fs.HasList f ∧ StackOk fs stack
  | .loop it stack => fs.Link it ∧ StackOk fs stack
  | .back it stack => (∃ e, fs.entries it = some e) ∧ StackOk fs stack
  | .done r => r ≠ 0 → ∃ e, fs.entries r = some e ∧ e.filename = fn
  | .wild => False

/-- An entry that the links lead to. -/
inductive Reach (fs : Ramfs) (d : FPtr) : FPtr → Prop where
  | here : d ≠ 0 → Reach fs d d
  | child {p c : FPtr} {e : Fentry} (he : fs.entries p = some e) (hc : e.children = some c) :
      Reach fs d c → Reach fs d p
  | next {p n : FPtr} {e : Fentry} (he : fs.entries p = some e) (hn : e.next = some n) :
      Reach fs d n → Reach fs d p

/-- The entry lies below `f`. -/
def Below (fs : Ramfs) (d f : FPtr) : Prop :=
  ∃ e c, fs.entries f = some e ∧ e.children = some c ∧ Reach fs d c

/-- The entry lies behind the siblings after `p`. -/
def Behind (fs : Ramfs) (d p : FPtr) : Prop :=
  ∃ e n, fs.entries p = some e ∧ e.next = some n ∧ Reach fs d n

/-- The entry `d` lies ahead of the search. -/
def Ahead (fs : Ramfs) (d : FPtr) : Search → Prop
  | .start => d = fs.root ∨ Below fs d fs.root
  | .enter f stack => (d = f ∨ Below fs d f) ∨ ∃ p ∈ stack, Behind fs d p
  | .list f stack | .scan f _ stack | .again f stack => Below fs d f ∨ ∃ p ∈ stack, Behind fs d p
  | .loop it stack => Reach fs d it ∨ ∃ p ∈ stack, Behind fs d p
  | .back it stack => Behind fs d it ∨ ∃ p ∈ stack, Behind fs d p
  | .done r => r ≠ 0
  | .wild => False

section Extends

variable {fs fs' : Ramfs} {fn : CStr} {d p f : FPtr} {search : Search} {stack : List FPtr}

theorem Ramfs.Extends.known (h : fs.Extends fs') (hp : ∃ e, fs.entries p = some e) :
    ∃ e, fs'.entries p = some e := by
  obtain ⟨e, he⟩ := hp
  obtain ⟨e', he', _⟩ := h.entry p e he
  exact ⟨e', he'⟩

theorem Ramfs.Extends.link (h : fs.Extends fs') (hp : fs.Link p) : fs'.Link p :=
  hp.imp_right h.known

theorem Ramfs.Extends.hasList (h : fs.Extends fs') (hf : fs.HasList f) : fs'.HasList f := by
  obtain ⟨e, c, he, hc⟩ := hf
  obtain ⟨e', he', hext⟩ := h.entry f e he
  obtain ⟨c', hc', _⟩ := hext.children c hc
  exact ⟨e', c', he', hc'⟩

theorem Ramfs.Extends.stackOk (h : fs.Extends fs') (hs : StackOk fs stack) : StackOk fs' stack :=
  fun p hp =>
  h.known (hs p hp)

/-- **Added entries** do not disturb a search. -/
theorem SearchOk.extends (hs : SearchOk fs fn search) (h : fs.Extends fs') :
    SearchOk fs' fn search := by
  cases search with
  | start => trivial
  | enter f stack => exact ⟨h.known hs.1, h.stackOk hs.2⟩
  | list f stack => exact ⟨h.hasList hs.1, h.stackOk hs.2⟩
  | scan f it stack => exact ⟨h.hasList hs.1, h.link hs.2.1, h.stackOk hs.2.2⟩
  | again f stack => exact ⟨h.hasList hs.1, h.stackOk hs.2⟩
  | loop it stack => exact ⟨h.link hs.1, h.stackOk hs.2⟩
  | back it stack => exact ⟨h.known hs.1, h.stackOk hs.2⟩
  | done r =>
    intro hr
    obtain ⟨e, he, hname⟩ := hs hr
    obtain ⟨e', he', hext⟩ := h.entry r e he
    exact ⟨e', he', hext.filename.trans hname⟩
  | wild => exact hs

theorem Reach.ne_zero (h0 : fs.entries 0 = none) (h : Reach fs d p) : p ≠ 0 := by
  rintro rfl
  cases h with
  | here hd => exact hd rfl
  | child he => rw [h0] at he; cases he
  | next he => rw [h0] at he; cases he

theorem Reach.extends (h0 : fs.entries 0 = none) (hr : Reach fs d p) (h : fs.Extends fs') :
    Reach fs' d p := by
  induction hr with
  | here hd => exact .here hd
  | child he hc hrest ih =>
    obtain ⟨e', he', hext⟩ := h.entry _ _ he
    obtain ⟨c', hc', hsame⟩ := hext.children _ hc
    rw [hsame (hrest.ne_zero h0)] at hc'
    exact .child he' hc' ih
  | next he hn hrest ih =>
    obtain ⟨e', he', hext⟩ := h.entry _ _ he
    obtain ⟨n', hn', hsame⟩ := hext.next _ hn
    rw [hsame (hrest.ne_zero h0)] at hn'
    exact .next he' hn' ih

theorem Below.extends (h0 : fs.entries 0 = none) (hb : Below fs d f) (h : fs.Extends fs') :
    Below fs' d f := by
  obtain ⟨e, c, he, hc, hr⟩ := hb
  obtain ⟨e', he', hext⟩ := h.entry f e he
  obtain ⟨c', hc', hsame⟩ := hext.children c hc
  rw [hsame (hr.ne_zero h0)] at hc'
  exact ⟨e', c, he', hc', hr.extends h0 h⟩

theorem Behind.extends (h0 : fs.entries 0 = none) (hb : Behind fs d f) (h : fs.Extends fs') :
    Behind fs' d f := by
  obtain ⟨e, n, he, hn, hr⟩ := hb
  obtain ⟨e', he', hext⟩ := h.entry f e he
  obtain ⟨n', hn', hsame⟩ := hext.next n hn
  rw [hsame (hr.ne_zero h0)] at hn'
  exact ⟨e', n, he', hn', hr.extends h0 h⟩

/-- **An entry ahead** stays ahead when others are added. -/
theorem Ahead.extends (h0 : fs.entries 0 = none) (ha : Ahead fs d search) (h : fs.Extends fs') :
    Ahead fs' d search := by
  have hstack : ∀ {stack : List FPtr}, (∃ p ∈ stack, Behind fs d p) → ∃ p ∈ stack, Behind fs' d p :=
    fun ⟨p, hp, hb⟩ => ⟨p, hp, hb.extends h0 h⟩
  cases search with
  | start =>
    rw [Ahead, h.root]
    exact ha.imp id (·.extends h0 h)
  | enter f stack => exact ha.imp (Or.imp id (·.extends h0 h)) hstack
  | list f stack => exact ha.imp (·.extends h0 h) hstack
  | scan f it stack => exact ha.imp (·.extends h0 h) hstack
  | again f stack => exact ha.imp (·.extends h0 h) hstack
  | loop it stack => exact ha.imp (·.extends h0 h) hstack
  | back it stack => exact ha.imp (·.extends h0 h) hstack
  | done r => exact ha
  | wild => exact ha

end Extends

/-! ## One step of the search -/

section Step

variable {fs : Ramfs} {fn : CStr} {d : FPtr} {search : Search}

/-- The step does not read a list that is not there. -/
def ListThere (fs : Ramfs) (fn : CStr) (search : Search) : Prop :=
  ∀ f stack e, search = .enter f stack → fs.entries f = some e → e.filename ≠ fn → e.children.isSome

/-- **A step** of a search stays among the linked entries. -/
theorem step_ok (hf : fs.Sound) (hs : SearchOk fs fn search) (hthere : ListThere fs fn search) :
    SearchOk fs fn (search.step fs fn) := by
  cases search with
  | start =>
    obtain ⟨hroot, e, he⟩ := hf.root
    rw [Search.step, if_neg hroot, he]
    simp only
    split
    · exact fun _ => ⟨e, he, fentryEqualsFilename_iff.mp ‹_›⟩
    · exact ⟨⟨e, he⟩, fun p hp => absurd hp List.not_mem_nil⟩
  | enter f stack =>
    obtain ⟨⟨e, he⟩, hstack⟩ := hs
    rw [Search.step, he]
    simp only
    by_cases heq : fentryEqualsFilename e fn = true
    · rw [if_pos heq]
      exact fun _ => ⟨e, he, fentryEqualsFilename_iff.mp heq⟩
    · have hsome := hthere f stack e rfl he fun h => heq (fentryEqualsFilename_iff.mpr h)
      rw [if_neg heq, if_pos hsome]
      obtain ⟨c, hc⟩ := Option.isSome_iff_exists.mp hsome
      exact ⟨⟨e, c, he, hc⟩, hstack⟩
  | list f stack =>
    obtain ⟨⟨e, c, he, hc⟩, hstack⟩ := hs
    rw [Search.step, he, Option.bind_some, hc]
    exact ⟨⟨e, c, he, hc⟩, hf.children f e c he hc, hstack⟩
  | scan f it stack =>
    obtain ⟨hlist, hit, hstack⟩ := hs
    rw [Search.step]
    by_cases h0 : it = 0
    · rw [if_pos h0]
      exact ⟨hlist, hstack⟩
    · obtain ⟨e, he⟩ := hit.resolve_left h0
      obtain ⟨n, hn, hlink⟩ := hf.next it e he
      rw [if_neg h0, he]
      simp only
      split
      · exact fun _ => ⟨e, he, fentryEqualsFilename_iff.mp ‹_›⟩
      · rw [hn]
        exact ⟨hlist, hlink, hstack⟩
  | again f stack =>
    obtain ⟨⟨e, c, he, hc⟩, hstack⟩ := hs
    rw [Search.step, he, Option.bind_some, hc]
    exact ⟨hf.children f e c he hc, hstack⟩
  | loop it stack =>
    obtain ⟨hit, hstack⟩ := hs
    rw [Search.step]
    by_cases h0 : it = 0
    · rw [if_pos h0]
      cases stack with
      | nil => exact fun hr => absurd rfl hr
      | cons p stack => exact ⟨hstack p List.mem_cons_self,
        fun q hq => hstack q (List.mem_cons_of_mem _ hq)⟩
    · rw [if_neg h0]
      have he := hit.resolve_left h0
      exact ⟨he, fun q hq => (List.mem_cons.mp hq).elim (fun e => e ▸ he) (hstack q)⟩
  | back it stack =>
    obtain ⟨⟨e, he⟩, hstack⟩ := hs
    obtain ⟨n, hn, hlink⟩ := hf.next it e he
    rw [Search.step, he, Option.bind_some, hn]
    exact ⟨hlink, hstack⟩
  | done r => exact hs
  | wild => exact hs

/-- **A step** of the search for the name of `d` does not pass it. -/
theorem step_ahead (hf : fs.Sound) (hs : SearchOk fs fn search) (hthere : ListThere fs fn search)
    (ha : Ahead fs d search) {ed : Fentry} (hd : fs.entries d = some ed)
    (hname : ed.filename = fn) : Ahead fs d (search.step fs fn) := by
  have hself : ∀ {f e}, fs.entries f = some e → ¬ fentryEqualsFilename e fn = true → d ≠ f :=
    fun he hne h => by
    rw [← h, hd] at he
    obtain rfl := Option.some.inj he
    exact hne (fentryEqualsFilename_iff.mpr hname)
  cases search with
  | start =>
    obtain ⟨hroot, e, he⟩ := hf.root
    rw [Search.step, if_neg hroot, he]
    simp only
    split
    · exact hroot
    · exact Or.inl ha
  | enter f stack =>
    obtain ⟨⟨e, he⟩, _⟩ := hs
    rw [Search.step, he]
    simp only
    by_cases heq : fentryEqualsFilename e fn = true
    · rw [if_pos heq]
      rintro rfl
      rw [hf.null] at he
      cases he
    · rw [if_neg heq, if_pos (hthere f stack e rfl he fun h =>
        heq (fentryEqualsFilename_iff.mpr h))]
      exact ha.imp_left fun h => h.resolve_left (hself he heq)
  | list f stack =>
    obtain ⟨⟨e, c, he, hc⟩, _⟩ := hs
    rw [Search.step, he, Option.bind_some, hc]
    exact ha
  | scan f it stack =>
    obtain ⟨_, hit, _⟩ := hs
    rw [Search.step]
    by_cases h0 : it = 0
    · rw [if_pos h0]
      exact ha
    · obtain ⟨e, he⟩ := hit.resolve_left h0
      obtain ⟨n, hn, _⟩ := hf.next it e he
      rw [if_neg h0, he]
      simp only
      split
      · exact h0
      · rw [hn]
        exact ha
  | again f stack =>
    obtain ⟨⟨e, c, he, hc⟩, _⟩ := hs
    rw [Search.step, he, Option.bind_some, hc]
    refine ha.imp_left fun ⟨e', c', he', hc', hr⟩ => ?_
    obtain rfl := Option.some.inj (he.symm.trans he')
    obtain rfl := Option.some.inj (hc.symm.trans hc')
    exact hr
  | loop it stack =>
    rw [Search.step]
    by_cases h0 : it = 0
    · rw [if_pos h0]
      obtain ⟨p, hp, hb⟩ := ha.resolve_left fun hr => hr.ne_zero hf.null h0
      cases stack with
      | nil => cases hp
      | cons q stack =>
        rcases List.mem_cons.mp hp with rfl | hp
        · exact Or.inl hb
        · exact Or.inr ⟨p, hp, hb⟩
    · rw [if_neg h0]
      rcases ha with hr | ⟨p, hp, hb⟩
      · cases hr with
        | here => exact Or.inl (Or.inl rfl)
        | child he hc hr => exact Or.inl (Or.inr ⟨_, _, he, hc, hr⟩)
        | next he hn hr => exact Or.inr ⟨it, List.mem_cons_self, _, _, he, hn, hr⟩
      · exact Or.inr ⟨p, List.mem_cons_of_mem _ hp, hb⟩
  | back it stack =>
    obtain ⟨⟨e, he⟩, _⟩ := hs
    obtain ⟨n, hn, _⟩ := hf.next it e he
    rw [Search.step, he, Option.bind_some, hn]
    refine ha.imp_left fun ⟨e', n', he', hn', hr⟩ => ?_
    obtain rfl := Option.some.inj (he.symm.trans he')
    obtain rfl := Option.some.inj (hn.symm.trans hn')
    exact hr
  | done r => exact ha
  | wild => exact ha

end Step

end AuOs
