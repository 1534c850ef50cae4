import Mathlib.Data.List.Induction
import Mathlib.Data.List.Nodup
import TemplateKit.Container.SkipList

/-!
# The levels of a skip list

A level of a skip list is a row of items that links lead through. A walk along a level comes to the
last item in front of a key. An item is put into a row, or taken out of it, by a change of the links
next to it; this leaves the other levels alone, so that levels can be changed one after the other.
-/

namespace TemplateKit

open List

namespace SkipPlace

/-- The last place of a row that is entered from a place. -/
def last (x : SkipPlace) (row : List Nat) : SkipPlace := (row.getLast?.map item).getD x

variable {x : SkipPlace} {row : List Nat} {slot : Nat}

@[simp] theorem last_nil (x : SkipPlace) : x.last [] = x := rfl

theorem last_cons (x : SkipPlace) (slot : Nat) (row : List Nat) :
    x.last (slot :: row) = (item slot).last row := by
  rw [last, last, getLast?_cons]
  cases row.getLast? <;> rfl

theorem last_append (x : SkipPlace) (row more : List Nat) :
    x.last (row ++ more) = (x.last row).last more := by
  induction row generalizing x with
  | nil => rfl
  | cons slot row ih => rw [cons_append, last_cons, last_cons, ih]

def places (x : SkipPlace) (row : List Nat) : List SkipPlace := x :: row.map item

theorem last_mem_places (x : SkipPlace) (row : List Nat) : x.last row ∈ x.places row := by
  induction row generalizing x with
  | nil => exact mem_singleton_self x
  | cons slot row ih =>
    rw [last_cons]
    exact mem_cons_of_mem x (ih (item slot))

theorem ne_last {front back} (h : (x.places (slot :: front ++ back)).Nodup) :
    x ≠ (item slot).last front := by
  intro heq
  have hl : x ∈ (item slot).places front := heq ▸ last_mem_places (item slot) front
  apply (nodup_cons.mp h).1
  simp only [places, cons_append, map_cons, map_append, mem_cons, mem_append] at hl ⊢
  exact hl.imp_right .inl

theorem mem_places_head : item slot ∈ head.places row ↔ slot ∈ row := by
  simp [places]

theorem nodup_places_head (h : row.Nodup) : (head.places row).Nodup := by
  refine nodup_cons.mpr ⟨by simp, h.map ?_⟩
  intro i j hij
  exact SkipPlace.item.inj hij

end SkipPlace

open SkipPlace

/-- Links lead from a place through a row of items and then to the end. -/
def Follows (step : SkipPlace → SkipLink) : SkipPlace → List Nat → Prop
  | x, [] => step x = none
  | x, slot :: row => step x = some slot ∧ Follows step (.item slot) row

namespace Follows

variable {step step' : SkipPlace → SkipLink} {x : SkipPlace} {row front back : List Nat}
  {slot : Nat}

theorem congr (h : Follows step x row) (hs : ∀ y ∈ x.places row, step' y = step y) :
    Follows step' x row := by
  induction row generalizing x with
  | nil => exact (hs x mem_cons_self).trans h
  | cons slot row ih =>
    refine ⟨(hs x mem_cons_self).trans h.1, ih h.2 fun y hy => ?_⟩
    exact hs y (mem_cons_of_mem x hy)

theorem append (h : Follows step x (front ++ back)) : Follows step (x.last front) back := by
  induction front generalizing x with
  | nil => exact h
  | cons slot front ih =>
    rw [last_cons]
    exact ih h.2

theorem head? (h : Follows step x row) : step x = row.head? := by
  cases row with
  | nil => exact h
  | cons slot row => exact h.1

/-- An item is put into a row: the links of two places change. -/
theorem splice (h : Follows step x (front ++ back)) (hn : (x.places (front ++ back)).Nodup)
    (hf : item slot ∉ x.places (front ++ back)) (hp : step' (x.last front) = some slot)
    (hs : step' (.item slot) = step (x.last front))
    (ho : ∀ y, y ≠ x.last front → y ≠ item slot → step' y = step y) :
    Follows step' x (front ++ slot :: back) := by
  induction front generalizing x with
  | nil =>
    refine ⟨hp, ?_⟩
    have hb : ∀ y ∈ back.map item, step' y = step y := by
      intro y hy
      refine ho y ?_ ?_
      · rintro rfl
        exact (nodup_cons.mp hn).1 hy
      · rintro rfl
        exact hf (mem_cons_of_mem x hy)
    cases back with
    | nil => exact hs.trans h
    | cons b back => exact ⟨hs.trans h.1, h.2.congr hb⟩
  | cons s front ih =>
    rw [last_cons] at hp hs ho
    have hx : step' x = step x := by
      refine ho x (ne_last hn) ?_
      rintro rfl
      exact hf mem_cons_self
    refine ⟨hx.trans h.1, ih h.2 (nodup_cons.mp hn).2 ?_ hp hs ho⟩
    exact fun hmem => hf (mem_cons_of_mem x hmem)

/-- An item is taken out of a row: the link of the place in front of it changes. -/
theorem unsplice (h : Follows step x (front ++ slot :: back))
    (hn : (x.places (front ++ slot :: back)).Nodup)
    (hp : step' (x.last front) = step (.item slot))
    (ho : ∀ y, y ≠ x.last front → step' y = step y) :
    Follows step' x (front ++ back) := by
  induction front generalizing x with
  | nil =>
    have hb : ∀ y ∈ (item slot).places back, step' y = step y := by
      intro y hy
      refine ho y ?_
      rintro rfl
      exact (nodup_cons.mp hn).1 hy
    have hrow := h.2.congr hb
    cases back with
    | nil => exact hp.trans h.2
    | cons b back => exact ⟨hp.trans h.2.1, hrow.2⟩
  | cons s front ih =>
    rw [last_cons] at hp ho
    have hx : step' x = step x := ho x (ne_last hn)
    exact ⟨hx.trans h.1, ih h.2 (nodup_cons.mp hn).2 hp ho⟩

end Follows

/-- What a change of links leaves of an item. -/
def SkipItem.outline {α : Type} (t : SkipItem α) : UInt32 × α × Nat :=
  (t.key, t.value, t.links.length)

namespace SkipList

variable {α : Type} {l l' l'' : SkipList α} {level other slot fuel : Nat} {key : UInt32}
  {x y : SkipPlace} {link : SkipLink} {front back : List Nat}

/-- A walk along a row passes the items with keys below its own. -/
theorem walk_eq (h : Follows (l.next level) x (front ++ back)) (hf : ∀ s ∈ front, l.keyOf s < key)
    (hb : ∀ s ∈ back.head?, ¬ l.keyOf s < key) (hfu : front.length ≤ fuel) :
    l.walk level key fuel x = x.last front := by
  induction front generalizing x fuel with
  | nil =>
    have hn : l.next level x = back.head? := h.head?
    cases fuel with
    | zero => rfl
    | succ fuel =>
      rw [walk, hn]
      cases hh : back.head? with
      | none => rfl
      | some s =>
        dsimp only
        rw [if_neg (hb s hh), last_nil]
  | cons s front ih =>
    obtain ⟨hs, hf⟩ := forall_mem_cons.mp hf
    cases fuel with
    | zero => cases hfu
    | succ fuel =>
      rw [walk, h.1]
      dsimp only
      rw [if_pos hs, last_cons]
      exact ih h.2 hf (Nat.le_of_succ_le_succ hfu)

def shape (t : SkipItem α) : UInt32 × Nat := (t.key, t.links.length)

theorem item?_map_congr {β γ : Type} {f} (h : (l'.item? slot).map f = (l.item? slot).map f)
    (g : β → γ) : (l'.item? slot).map (fun t => g (f t)) = (l.item? slot).map fun t => g (f t) := by
  have hmap := congrArg (Option.map g) h
  rwa [Option.map_map, Option.map_map] at hmap

theorem keyOf_congr (h : (l'.item? slot).map shape = (l.item? slot).map shape) :
    l'.keyOf slot = l.keyOf slot :=
  congrArg (Option.getD · 0xFFFFFFFF) (item?_map_congr h Prod.fst)

theorem height_congr (h : (l'.item? slot).map shape = (l.item? slot).map shape) :
    (l'.linksOf (.item slot)).length = (l.linksOf (.item slot)).length := by
  have hh : ∀ l : SkipList α, (l.linksOf (.item slot)).length =
      ((l.item? slot).map fun t => t.links.length).getD 0 := by
    intro l
    rw [linksOf]
    cases l.item? slot <;> rfl
  rw [hh, hh]
  exact congrArg (Option.getD · 0) (item?_map_congr h Prod.snd)

/-- The same items with other links, on as many levels. -/
structure Relinked (l l' : SkipList α) : Prop where
  items : ∀ slot, (l'.item? slot).map SkipItem.outline = (l.item? slot).map SkipItem.outline
  head : l'.head.length = l.head.length
  size : l'.slots.length = l.slots.length
  rest : l' = { l with head := l'.head, slots := l'.slots }

namespace Relinked

theorem trans (h : Relinked l l') (h' : Relinked l' l'') : Relinked l l'' where
  items slot := (h'.items slot).trans (h.items slot)
  head := h'.head.trans h.head
  size := h'.size.trans h.size
  rest := by rw [h'.rest, h.rest]

theorem shape (h : Relinked l l') (slot : Nat) :
    (l'.item? slot).map SkipList.shape = (l.item? slot).map SkipList.shape :=
  item?_map_congr (h.items slot) fun o => (o.1, o.2.2)

theorem keyOf (h : Relinked l l') (slot : Nat) : l'.keyOf slot = l.keyOf slot :=
  keyOf_congr (h.shape slot)

theorem levels (h : Relinked l l') (x : SkipPlace) :
    (l'.linksOf x).length = (l.linksOf x).length := by
  cases x with
  | head => exact h.head
  | item slot => exact height_congr (h.shape slot)

end Relinked

theorem item?_modify (f : SkipItem α → SkipItem α) (other : Nat) :
    ({ l with slots := l.slots.modify slot (·.map f) } : SkipList α).item? other =
      if slot = other then (l.item? other).map f else l.item? other := by
  simp only [item?, getElem?_modify]
  split <;> cases l.slots[other]? <;> rfl

theorem relinked_setNext (l : SkipList α) (level : Nat) (x : SkipPlace) (link : SkipLink) :
    Relinked l (l.setNext level x link) := by
  cases x with
  | head => exact ⟨fun _ => rfl, length_set, rfl, rfl⟩
  | item slot =>
    refine ⟨fun other => ?_, rfl, length_modify _ _ _, rfl⟩
    rw [setNext, item?_modify]
    split
    · cases l.item? other with
      | none => rfl
      | some t => simp [SkipItem.outline]
    · rfl

theorem linksOf_setNext (l : SkipList α) (level : Nat) (x y : SkipPlace) (link : SkipLink) :
    (l.setNext level x link).linksOf y = if y = x then (l.linksOf x).set level link
      else l.linksOf y := by
  cases x with
  | head => cases y <;> rfl
  | item slot =>
    cases y with
    | head => rfl
    | item other =>
      simp only [setNext, linksOf, item?_modify, SkipPlace.item.injEq]
      by_cases hs : slot = other
      · subst hs
        rw [if_pos rfl, if_pos rfl]
        cases l.item? slot <;> rfl
      · rw [if_neg hs, if_neg (Ne.symm hs)]

theorem next_setNext (h : level < (l.linksOf x).length) (link : SkipLink) (other : Nat)
    (y : SkipPlace) :
    (l.setNext level x link).next other y = if other = level ∧ y = x then link
      else l.next other y := by
  rw [next, linksOf_setNext]
  by_cases hy : y = x
  · subst hy
    rw [if_pos rfl, getElem?_set]
    by_cases hl : level = other
    · subst hl
      rw [if_pos rfl, if_pos h, if_pos ⟨rfl, rfl⟩]
      rfl
    · rw [if_neg hl, if_neg fun hb => hl hb.1.symm]
      rfl
  · rw [if_neg hy, if_neg fun hb => hy hb.2]
    rfl

/-- A row of items with keys below another one and items with keys that are not, as a trail can lead
to it. -/
structure Parted (l : SkipList α) (level : Nat) (key : UInt32) (front back : List Nat)
    (x : SkipPlace) : Prop where
  row : Follows (l.next level) .head (front ++ back)
  nodup : (front ++ back).Nodup
  below : ∀ s ∈ front, l.keyOf s < key
  notBelow : ∀ s ∈ back.head?, ¬ l.keyOf s < key
  short : front.length ≤ l.slots.length
  /-- The place is on the way through the front. -/
  way : ∃ done todo, front = done ++ todo ∧ x = SkipPlace.head.last done

namespace Parted

/-- The same row on the way of changes to other levels. -/
theorem relinked (h : l.Parted level key front back x) (hl : Relinked l l')
    (hn : l'.next level = l.next level) :
    l'.Parted level key front back x where
  row := hn ▸ h.row
  nodup := h.nodup
  below s hs := by
    rw [hl.keyOf]
    exact h.below s hs
  notBelow s hs := by
    rw [hl.keyOf]
    exact h.notBelow s hs
  short := hl.size ▸ h.short
  way := h.way

theorem before (h : l.Parted level key front back x) :
    l.before level key x = SkipPlace.head.last front := by
  obtain ⟨done, todo, rfl, rfl⟩ := h.way
  have hrow : Follows (l.next level) (SkipPlace.head.last done) (todo ++ back) := by
    apply Follows.append
    rw [← append_assoc]
    exact h.row
  have hl : todo.length ≤ (done ++ todo).length := by simp
  rw [last_append]
  exact walk_eq hrow (fun s hs => h.below s (mem_append_right _ hs)) h.notBelow
    (Nat.le_trans hl h.short)

variable {trail : List SkipPlace}

theorem linkOn (h : l.Parted level key front back (placeOn trail level)) (hf : slot ∉ front ++ back)
    (hp : level < (l.linksOf (SkipPlace.head.last front)).length)
    (hs : level < (l.linksOf (.item slot)).length) : Relinked l (linkOn key trail slot l level) ∧
      Follows ((SkipList.linkOn key trail slot l level).next level) .head (front ++ slot :: back) ∧
      ∀ other, other ≠ level → (SkipList.linkOn key trail slot l level).next other =
        l.next other := by
  have hfi := relinked_setNext l level (.item slot) (l.next level (SkipPlace.head.last front))
  have hp' :
      level < ((l.setNext level (.item slot) (l.next level (SkipPlace.head.last front))).linksOf
      (SkipPlace.head.last front)).length := by rwa [hfi.levels]
  have hne : SkipPlace.head.last front ≠ SkipPlace.item slot := by
    intro heq
    have hl := last_mem_places .head front
    rw [heq, mem_places_head] at hl
    exact hf (mem_append_left _ hl)
  rw [SkipList.linkOn, h.before]
  refine ⟨hfi.trans (relinked_setNext _ _ _ _), ?_, fun other ho => funext fun y => ?_⟩
  · apply h.row.splice (nodup_places_head h.nodup) (mem_places_head.not.mpr hf)
    · rw [next_setNext hp', if_pos ⟨rfl, rfl⟩]
    · rw [next_setNext hp', if_neg fun heq => hne heq.2.symm, next_setNext hs, if_pos ⟨rfl, rfl⟩]
    · intro y hy hys
      rw [next_setNext hp', if_neg fun heq => hy heq.2, next_setNext hs,
        if_neg fun heq => hys heq.2]
  · rw [next_setNext hp', if_neg fun heq => ho heq.1, next_setNext hs, if_neg fun heq => ho heq.1]

theorem unlinkOn (h : l.Parted level key front (slot :: back) (placeOn trail level))
    (hp : level < (l.linksOf (SkipPlace.head.last front)).length) :
    Relinked l (unlinkOn key trail slot l level) ∧
      Follows ((SkipList.unlinkOn key trail slot l level).next level) .head (front ++ back) ∧
      ∀ other, other ≠ level → (SkipList.unlinkOn key trail slot l level).next other =
        l.next other := by
  rw [SkipList.unlinkOn, h.before]
  refine ⟨relinked_setNext _ _ _ _, ?_, fun other ho => funext fun y => ?_⟩
  · apply h.row.unsplice (nodup_places_head h.nodup)
    · rw [next_setNext hp, if_pos ⟨rfl, rfl⟩]
    · intro y hy
      rw [next_setNext hp, if_neg fun heq => hy heq.2]
  · rw [next_setNext hp, if_neg fun heq => ho heq.1]

end Parted

section Levels

variable {f : SkipList α → Nat → SkipList α} {levels : List Nat}
  {P : Nat → (SkipPlace → SkipLink) → Prop}

/-- Steps that change one level each, and find it as it was at the beginning, can be made one after
the other. -/
theorem foldl_levels (hf : ∀ l' level, level ∈ levels → Relinked l l' →
    l'.next level = l.next level →
      Relinked l' (f l' level) ∧ P level ((f l' level).next level) ∧
        ∀ other, other ≠ level → (f l' level).next other = l'.next other) (hn : levels.Nodup) :
    Relinked l (levels.foldl f l) ∧ (∀ level ∈ levels, P level ((levels.foldl f l).next level)) ∧
      ∀ level, level ∉ levels → (levels.foldl f l).next level = l.next level := by
  induction levels using List.reverseRecOn with
  | nil => exact ⟨⟨fun _ => rfl, rfl, rfl, rfl⟩, by simp, fun _ _ => rfl⟩
  | append_singleton done level ih =>
    obtain ⟨hd, -, hl⟩ := nodup_append.mp hn
    have hfr : level ∉ done := fun hmem => hl level hmem level mem_cons_self rfl
    obtain ⟨hr, hP, hs⟩ := ih (fun l' k hk => hf l' k (mem_append_left _ hk)) hd
    obtain ⟨hr', hPlevel, ho⟩ := hf _ level (by simp) hr (hs level hfr)
    rw [foldl_append]
    refine ⟨hr.trans hr', fun k hk => ?_, fun k hk => ?_⟩
    · rcases mem_append.mp hk with hk | hk
      · have hne : k ≠ level := fun heq => hfr (heq ▸ hk)
        exact ho k hne ▸ hP k hk
      · rw [mem_singleton.mp hk]
        exact hPlevel
    · obtain ⟨hkd, hne⟩ : k ∉ done ∧ k ≠ level := by simpa using hk
      exact (ho k hne).trans (hs k hkd)

end Levels

end SkipList

end TemplateKit
