import TemplateKit.Proofs.Container.SkipList

/-!
# Skip lists are sorted maps

Insertions and removals keep up the order of a skip list and the links on all levels, however high
the items are drawn to stand. So after any of them the list stores what a map from keys to values
would, in the order of the keys.
-/

namespace TemplateKit.SkipList

open List Option

open SkipPlace

variable {α : Type} {l l' : SkipList α} {order front back : List Nat} {key : UInt32}
  {slot level : Nat} {value : α}

section Slots

variable {t : SkipItem α}

theorem item?_freeSlot (l : SkipList α) : l.item? l.freeSlot = none := by
  rcases Nat.lt_or_ge l.freeSlot l.slots.length with hlt | hge
  · have hn : l.slots[l.freeSlot].isNone = true := findIdx_getElem (w := hlt)
    rw [item?, getElem?_eq_getElem hlt]
    simpa using hn
  · rw [item?, getElem?_eq_none hge]
    rfl

theorem item?_occupy (h : slot ≤ l.slots.length) (other : Nat) :
    (l.occupy slot t).item? other = if other = slot then some t else l.item? other := by
  simp only [item?, occupy]
  rcases Nat.lt_or_eq_of_le h with hlt | rfl
  · rw [if_pos hlt, getElem?_set]
    by_cases ho : slot = other
    · rw [if_pos ho, if_pos hlt, if_pos ho.symm]
      rfl
    · rw [if_neg ho, if_neg (Ne.symm ho)]
  · rw [if_neg (Nat.lt_irrefl _)]
    rcases Nat.lt_trichotomy other l.slots.length with hlt | rfl | hgt
    · rw [getElem?_append_left hlt, if_neg (Nat.ne_of_lt hlt)]
    · rw [getElem?_append_right (Nat.le_refl _), Nat.sub_self, if_pos rfl]
      rfl
    · have hend : (l.slots ++ [some t]).length ≤ other := by
        rw [length_append]
        exact hgt
      rw [getElem?_eq_none hend, getElem?_eq_none (Nat.le_of_lt hgt), if_neg (Nat.ne_of_gt hgt)]

theorem item?_free (l : SkipList α) (slot other : Nat) :
    (l.free slot).item? other = if other = slot then none else l.item? other := by
  simp only [item?, free, getElem?_set]
  by_cases ho : slot = other
  · subst ho
    rw [if_pos rfl, if_pos rfl]
    split <;> rfl
  · rw [if_neg ho, if_neg (Ne.symm ho)]

theorem stores_free (h : Relinked l l') (hsl : slot ∉ order) :
    (l'.free slot).Stores order key value ↔ l.Stores order key value := by
  apply stores_congr
  intro s hs
  rw [pair?, item?_free, if_neg (ne_of_mem_of_not_mem hs hsl)]
  exact h.pair? s

theorem item?_setValue (h : l.slot? key = some slot) (value : α) (other : Nat) :
    (l.setValue key value).item? other =
      if slot = other then (l.item? other).map fun t => { t with value } else l.item? other := by
  rw [setValue, h]
  exact item?_modify _ other

end Slots

namespace Linked

theorem levels_last (hl : level < l.head.length) (front : List Nat) :
    level < (l.linksOf (SkipPlace.head.last (l.standing level front))).length := by
  rw [SkipPlace.last]
  cases hla : (l.standing level front).getLast? with
  | none => exact hl
  | some s => exact (mem_standing.mp (mem_of_getLast? hla)).2

/-- Links are changed on some levels, one after the other, such that they lead through another order
on each of them. -/
theorem relevel {levels : List Nat} {f : SkipList α → Nat → SkipList α} (ha : l.Arranged order)
    (hlev : levels.Nodup)
    (hs : ∀ l' level, level ∈ levels → Relinked l l' → l'.next level = l.next level →
      Relinked l' (f l' level) ∧
      Follows ((f l' level).next level) .head (l.standing level order) ∧
      ∀ other, other ≠ level → (f l' level).next other = l'.next other)
    (hr : ∀ level, level ∉ levels → Follows (l.next level) .head (l.standing level order)) :
    Relinked l (levels.foldl f l) ∧ (levels.foldl f l).Linked order := by
  obtain ⟨hl, hin, hsa⟩ :=
    foldl_levels (P := fun level step => Follows step .head (l.standing level order)) hs hlev
  refine ⟨hl, ha.congr (fun s _ => hl.shape s) hl.head (by rw [hl.rest]) (by
    rw [hl.rest]; exact ha.top_le), fun level => ?_⟩
  rw [standing_congr (fun s _ => hl.levels (.item s)) level]
  by_cases hle : level ∈ levels
  · exact hin level hle
  · rw [hsa level hle]
    exact hr level hle

section Change

variable {trail : List SkipPlace}
  (hway : ∀ level, ∃ done todo, l.standing level front = done ++ todo ∧
    placeOn trail level = SkipPlace.head.last done)

include hway

/-- An item that has a slot is linked in on its levels. -/
theorem linkIn (h : l.Linked (front ++ back)) (ha : l.Arranged (front ++ slot :: back))
    (hkey : l.keyOf slot = key) :
    let l' := (List.range (l.linksOf (.item slot)).length).foldl (linkOn key trail slot) l
    Relinked l l' ∧ l'.Linked (front ++ slot :: back) := by
  subst hkey
  obtain ⟨hf, hb⟩ := ha.around
  have hba : ∀ s ∈ back, ¬ l.keyOf s < l.keyOf slot := fun s hs => UInt32.lt_asymm (hb s hs)
  have hfr : slot ∉ front ++ back := (nodup_cons.mp (nodup_middle.mp ha.nodup)).1
  refine relevel ha nodup_range (fun l' level hle hl hn => ?_) fun level hle => ?_
  · have hle : level < (l.linksOf (.item slot)).length := mem_range.mp hle
    have hbo : level < l.head.length := Nat.lt_of_lt_of_le hle (ha.bounded slot (by simp))
    have hout : slot ∉ l.standing level front ++ l.standing level back := by
      rw [← standing_append]
      exact fun hmem => hfr (mem_standing.mp hmem).1
    rw [standing_append, standing_cons_of_lt hle]
    exact ((h.parted hf hba (hway level)).relinked hl hn).linkOn hout
      (hl.levels _ ▸ levels_last hbo front) (hl.levels _ ▸ hle)
  · rw [standing_append, standing_cons_of_not_lt (mem_range.not.mp hle), ← standing_append]
    exact h.rows level

theorem unlink (h : l.Linked (front ++ slot :: back)) (hf : ∀ s ∈ front, l.keyOf s < key)
    (hba : ∀ s ∈ slot :: back, ¬ l.keyOf s < key) :
    let l' := (List.range (l.linksOf (.item slot)).length).reverse.foldl (unlinkOn key trail slot) l
    Relinked l l' ∧ l'.Linked (front ++ back) := by
  have hr : (front ++ back).Sublist (front ++ slot :: back) :=
    (sublist_cons_self slot back).append_left front
  refine relevel (h.sublist hr) (nodup_reverse.mpr nodup_range) (fun l' level hle hl hn => ?_)
    fun level hle => ?_
  · have hle : level < (l.linksOf (.item slot)).length := mem_range.mp (mem_reverse.mp hle)
    have hb : level < l.head.length := Nat.lt_of_lt_of_le hle (h.bounded slot (by simp))
    have hp := (h.parted hf hba (hway level)).relinked hl hn
    rw [standing_cons_of_lt hle] at hp
    rw [standing_append]
    exact hp.unlinkOn (hl.levels _ ▸ levels_last hb front)
  · have hrow := h.rows level
    rwa [standing_append, standing_cons_of_not_lt (by simpa using hle), ← standing_append] at hrow

end Change

section

variable (h : l.Linked order)

include h

/-- An item in a slot that was free does not matter yet. -/
theorem occupy (hf : l.item? slot = none) (hsl : slot ≤ l.slots.length) (t : SkipItem α) :
    (l.occupy slot t).Linked order ∧ ∀ s ∈ order, (l.occupy slot t).item? s = l.item? s := by
  have hi : ∀ s ∈ order, (l.occupy slot t).item? s = l.item? s := by
    intro s hs
    have hne : s ≠ slot := by
      rintro rfl
      have hso := h.stored s hs
      rw [hf] at hso
      cases hso
    rw [item?_occupy hsl, if_neg hne]
  exact ⟨h.congr (fun s hs => by rw [hi s hs]) rfl rfl h.top_le, hi⟩

theorem free (hsl : slot ∉ order) : (l.free slot).Linked order := by
  refine h.congr (fun s hs => ?_) rfl rfl h.top_le
  rw [item?_free, if_neg (ne_of_mem_of_not_mem hs hsl)]

theorem setStart (start : Nat) : { l with start }.Linked order :=
  h.congr (fun _ _ => rfl) rfl rfl h.top_le

theorem setTop {top} (htop : top ≤ l.maxLevel) : { l with top }.Linked order :=
  h.congr (fun _ _ => rfl) rfl rfl htop

theorem linkNew {t} (hkey : isReserved t.key = false)
    (hnew : ∀ s ∈ order, l.keyOf s ≠ t.key) (hpos : 0 < t.links.length)
    (hb : t.links.length ≤ l.head.length) :
    let l' := (List.range t.links.length).foldl (linkOn t.key (l.trail t.key) l.freeSlot)
      (l.occupy l.freeSlot t)
    ∃ order', l'.Linked order' ∧ ∀ other v, l'.Stores order' other v ↔
        other = t.key ∧ v = t.value ∨ other ≠ t.key ∧ l.Stores order other v := by
  intro l'
  obtain ⟨front, back, rfl, hf, hba⟩ := h.parts t.key
  obtain ⟨ho, hi⟩ := h.occupy l.item?_freeSlot findIdx_le_length t
  have hit : (l.occupy l.freeSlot t).item? l.freeSlot = some t :=
    (item?_occupy findIdx_le_length _).trans (if_pos rfl)
  have hsh := fun s hs => congrArg (Option.map shape) (hi s hs)
  have ha : (l.occupy l.freeSlot t).Arranged (front ++ l.freeSlot :: back) := by
    refine ho.between hit (fun s hs => ?_) (fun s hs => ?_) hkey hpos hb
    · rw [keyOf_congr (hsh s (mem_append_left back hs))]
      exact hf s hs
    · have hs' : s ∈ front ++ back := mem_append_right front hs
      rw [keyOf_congr (hsh s hs')]
      exact UInt32.lt_of_le_of_ne (UInt32.not_lt.mp (hba s hs)) (Ne.symm (hnew s hs'))
  have hway : ∀ level, ∃ done todo, (l.occupy l.freeSlot t).standing level front = done ++ todo ∧
      placeOn (l.trail t.key) level = SkipPlace.head.last done := by
    intro level
    rw [standing_congr (fun s hs => height_congr (hsh s (mem_append_left back hs))) level]
    exact h.way_trail hf hba level
  obtain ⟨hr, hl⟩ := linkIn hway ho ha (keyOf_item hit)
  rw [linksOf_item hit] at hr hl
  refine ⟨front ++ l.freeSlot :: back, hl, fun other v => ?_⟩
  have hpa : l'.pair? l.freeSlot = some (t.key, t.value) := by
    rw [hr.pair?, pair?, hit]
    rfl
  have hp : ∀ s ∈ front ++ back, l'.pair? s = l.pair? s := by
    intro s hs
    rw [hr.pair?, pair?, hi s hs]
    rfl
  rw [stores_middle, hpa, stores_congr hp, stores_of_absent hnew]
  simp [eq_comm]

theorem insertDrawn (hkey : isReserved key = false) (hnew : ∀ s ∈ order, l.keyOf s ≠ key)
    (value : α) (drawn : Nat) : ∃ order', (l.insertDrawn key value drawn).Linked order' ∧
      ∀ other v, (l.insertDrawn key value drawn).Stores order' other v ↔
        other = key ∧ v = value ∨ other ≠ key ∧ l.Stores order other v := by
  unfold SkipList.insertDrawn
  extract_lets top inserted
  have htop : top ≤ l.maxLevel := by
    have htop_le := h.top_le
    dsimp only [top]
    split
    · next hr => exact of_decide_eq_true (Bool.and_eq_true_iff.mp hr).2
    · exact htop_le
  have hle : min drawn top + 1 ≤ l.head.length := by
    have hmax := h.max_lt
    omega
  have hl : (List.replicate (min drawn top + 1) (none : SkipLink)).length = min drawn top + 1 :=
    length_replicate
  obtain ⟨order', hli, hs⟩ := (h.setTop htop).linkNew
    (t := ⟨key, value, List.replicate (min drawn top + 1) none⟩) hkey hnew
      (hl.symm ▸ Nat.succ_pos _)
    (hl.symm ▸ hle)
  rw [hl] at hli hs
  exact ⟨order', hli.setStart _, hs⟩

theorem delete (key : UInt32) : ∃ order', (l.delete key).Linked order' ∧
      ∀ other v, (l.delete key).Stores order' other v ↔ other ≠ key ∧ l.Stores order other v := by
  rw [SkipList.delete]
  cases hsl : l.slot? key with
  | none => exact ⟨order, h, fun other v => stores_of_absent (h.slot?_eq_none_iff.mp hsl)⟩
  | some slot =>
    obtain ⟨hmem, rfl⟩ := h.slot?_eq_some_iff.mp hsl
    obtain ⟨front, back, rfl⟩ := append_of_mem hmem
    obtain ⟨hf, hb⟩ := h.around
    have hba : ∀ s ∈ slot :: back, ¬ l.keyOf s < l.keyOf slot :=
      forall_mem_cons.mpr ⟨UInt32.lt_irrefl _, fun s hs => UInt32.lt_asymm (hb s hs)⟩
    have hout : slot ∉ front ++ back := (nodup_cons.mp (nodup_middle.mp h.nodup)).1
    obtain ⟨hr, hl⟩ := unlink (h.way_trail hf hba) h hf hba
    refine ⟨front ++ back, (hl.free hout).setStart _, fun other v => ?_⟩
    rw [← h.stores_others]
    exact stores_free hr hout

theorem setValue (hsl : l.slot? key = some slot) (value : α) :
    (l.setValue key value).Linked order ∧ ∀ other v, (l.setValue key value).Stores order other v ↔
      other = key ∧ v = value ∨ other ≠ key ∧ l.Stores order other v := by
  have hi := item?_setValue hsl value
  have hr : l.setValue key value = { l with slots := (l.setValue key value).slots } := by
    rw [SkipList.setValue]
    split <;> rfl
  obtain ⟨hmem, rfl⟩ := h.slot?_eq_some_iff.mp hsl
  refine ⟨h.congr (fun s _ => ?_) ?_ ?_ ?_, fun other v => ?_⟩
  · rw [hi]
    split
    · cases l.item? s <;> rfl
    · rfl
  · rw [hr]
  · rw [hr]
  · rw [hr]
    exact h.top_le
  obtain ⟨front, back, rfl⟩ := append_of_mem hmem
  have hout : slot ∉ front ++ back := (nodup_cons.mp (nodup_middle.mp h.nodup)).1
  have hpa : (l.setValue (l.keyOf slot) value).pair? slot = some (l.keyOf slot, value) := by
    obtain ⟨t, ht⟩ := isSome_iff_exists.mp (h.stored slot hmem)
    rw [pair?, hi, if_pos rfl, ht, keyOf_item ht]
    rfl
  have hp : ∀ s ∈ front ++ back, (l.setValue (l.keyOf slot) value).pair? s = l.pair? s := by
    intro s hs
    rw [pair?, hi, if_neg (ne_of_mem_of_not_mem hs hout).symm]
    rfl
  rw [stores_middle, hpa, stores_congr hp, h.stores_others]
  simp [eq_comm]

theorem search_delete (key other : UInt32) :
    (l.delete key).search other = if other = key then none else l.search other := by
  obtain ⟨order', h', hs⟩ := h.delete key
  refine ext fun v => ?_
  rw [h'.search_eq_some_iff, hs, ← h.search_eq_some_iff]
  split <;> simp [*]

theorem isSome_slot? (key : UInt32) : (l.slot? key).isSome = (l.search key).isSome := by
  rw [Bool.eq_iff_iff, isSome_iff_ne_none, isSome_iff_ne_none, Ne, Ne, h.slot?_eq_none_iff,
    h.search_eq_none_iff]

theorem search_put {order'} (h' : l'.Linked order')
    (hs : ∀ other v, l'.Stores order' other v ↔
      other = key ∧ v = value ∨ other ≠ key ∧ l.Stores order other v) (other : UInt32) :
    l'.search other = if other = key then some value else l.search other := by
  refine ext fun v => ?_
  rw [h'.search_eq_some_iff, hs, ← h.search_eq_some_iff]
  by_cases ho : other = key
  · simp [ho, eq_comm]
  · simp [ho]

end

section Insertion

variable (h : l.Linked order) (hkey : isReserved key = false)
  (draw : Random → Nat × Random) (value : α)

include h hkey

theorem insertBy_present (hf : (l.search key).isSome) :
    insertBy draw l key (some value) false = .error (.duplicate key) := by
  simp [insertBy, hkey, h.isSome_slot?, hf]

/-- The value that an insertion stores is found from then on, wherever a new item is drawn to stand.
-/
theorem insertBy_allowed {update} (ha : update = true ∨ l.search key = none) :
    ∃ l' order', insertBy draw l key (some value) update = .ok l' ∧ l'.Linked order' ∧
      ∀ other, l'.search other = if other = key then some value else l.search other := by
  cases hsl : l.slot? key with
  | none =>
    have hd : { l with random := (draw l.random).2 }.Linked order :=
      h.congr (fun _ _ => rfl) rfl rfl h.top_le
    obtain ⟨order', h', hs⟩ :=
      hd.insertDrawn hkey (h.slot?_eq_none_iff.mp hsl) value (draw l.random).1
    exact ⟨_, order', by simp [insertBy, hkey, hsl], h', h.search_put h' hs⟩
  | some slot =>
    obtain rfl : update = true := by
      refine ha.resolve_right fun hn => ?_
      have hso := h.isSome_slot? key
      rw [hsl, hn] at hso
      cases hso
    obtain ⟨h', hs⟩ := h.setValue hsl value
    exact ⟨_, order, by simp [insertBy, hkey, hsl], h', h.search_put h' hs⟩

end Insertion

end Linked

theorem create_ok (root : Int) {maxLevel} (h : 1 ≤ maxLevel) :
    ∃ l : SkipList α, create root maxLevel = .ok l ∧ l.Linked [] := by
  refine ⟨_, if_neg (Nat.ne_of_gt h),
    ⟨by simp, List.Pairwise.nil, by simp, by simp, by simp, Nat.zero_le _, by simp⟩,
    fun level => ?_⟩
  -- every link of the head is empty, and above the levels there is none
  change (List.replicate (min maxLevel (levelLimit - 1) + 1) (none : SkipLink))[level]?.join = none
  rw [getElem?_replicate]
  split <;> rfl

/-- Something that is done with a skip list. An insertion comes with the draw that decides how high
its item is to stand. -/
inductive SkipOperation (α : Type) where
  | insert (key : UInt32) (value : α) (update : Bool) (draw : Random → Nat × Random)
  | delete (key : UInt32)
  | search (key : UInt32)
  | next (key : UInt32)

namespace SkipOperation

/-- The list afterwards. An insertion that is refused leaves it alone. -/
def run (l : SkipList α) : SkipOperation α → SkipList α
  | insert key value update draw => (insertBy draw l key (some value) update).toOption.getD l
  | delete key => l.delete key
  | search _ => l
  | next _ => l

/-- What becomes of the value that a map has under a key. An insertion counts if its key may be
used, and is not in use unless it is to be updated. -/
def effect (key : UInt32) (found : Option α) : SkipOperation α → Option α
  | insert other value update _ =>
    if key = other ∧ isReserved other = false ∧
      (update = true ∨ found.isNone) then some value else found
  | delete other => if key = other then none else found
  | search _ => found
  | next _ => found

/-- What a map has under a key after a history; the history is told from its end. -/
def latest (key : UInt32) (history : List (SkipOperation α)) : Option α :=
  history.foldr (fun o found => o.effect key found) none

end SkipOperation

open SkipOperation

/-- The list after a history, whose last operation comes first. -/
def after (l : SkipList α) (history : List (SkipOperation α)) : SkipList α :=
  history.foldr (fun o l => o.run l) l

/-- An insertion of a history does to the list what it does to a map, also where it is refused. -/
theorem Linked.run_insert (h : l.Linked order) (other : UInt32) (value : α) (update : Bool)
    (draw : Random → Nat × Random) : ∃ order',
    ((SkipOperation.insert other value update draw).run l).Linked order' ∧
      ∀ key, ((SkipOperation.insert other value update draw).run l).search key =
        (SkipOperation.insert other value update draw).effect key (l.search key) := by
  simp only [run, effect]
  by_cases hr : isReserved other = true
  · have hre : insertBy draw l other (some value) update = .error .reservedKey := if_pos hr
    rw [hre]
    exact ⟨order, h, fun key => by simp [hr, Except.toOption]⟩
  have hr : isReserved other = false := Bool.eq_false_iff.mpr hr
  by_cases ha : update = true ∨ l.search other = none
  · obtain ⟨l', order', hl', h', hs⟩ := h.insertBy_allowed hr draw value ha
    rw [hl']
    refine ⟨order', h', fun key => (hs key).trans ?_⟩
    by_cases hkey : key = other
    · subst hkey
      simp [hr, ha]
    · simp [hkey]
  · obtain ⟨hu, hf⟩ := not_or.mp ha
    obtain rfl : update = false := Bool.eq_false_iff.mpr hu
    rw [h.insertBy_present hr draw value (isSome_iff_ne_none.mpr hf)]
    refine ⟨order, h, fun key => ?_⟩
    by_cases hkey : key = other
    · subst hkey
      simp [Except.toOption, hf]
    · simp [hkey, Except.toOption]

theorem Linked.run (h : l.Linked order) (o : SkipOperation α) :
    ∃ order', (o.run l).Linked order' ∧ ∀ key, (o.run l).search key =
      o.effect key (l.search key) := by
  cases o with
  | insert other value update draw => exact h.run_insert other value update draw
  | delete other =>
    obtain ⟨order', h', -⟩ := h.delete other
    exact ⟨order', h', h.search_delete other⟩
  | search | next => exact ⟨order, h, fun _ => rfl⟩

theorem Linked.after (h : l.Linked []) (history : List (SkipOperation α)) :
    ∃ order, (l.after history).Linked order ∧
      ∀ key, (l.after history).search key = latest key history := by
  induction history with
  | nil => exact ⟨[], h, fun key => h.search_eq_none_iff.mpr (by simp)⟩
  | cons o earlier ih =>
    obtain ⟨order, he, hl⟩ := ih
    obtain ⟨order', hrun, hs⟩ := he.run o
    exact ⟨order', hrun, fun key => (hs key).trans (congrArg (o.effect key) (hl key))⟩

/-- A skip list is a sorted map, whatever was done with it before and however high its items were
drawn to stand. A search finds what a map would have under the key. An insertion under a key that is
there is refused unless it is to update the value, and every other one stores its value and changes
nothing else; a removal affects its own key only. And what follows a key is the stored item with the
lowest higher key, if there is one. -/
theorem sorted_map (root : Int) {maxLevel : Nat} (hlevels : 1 ≤ maxLevel)
    (history : List (SkipOperation α)) :
    ∃ start : SkipList α, create root maxLevel = .ok start ∧
      (∀ key, (start.after history).search key = latest key history) ∧
      (∀ key value draw, isReserved key = false → (latest key history).isSome →
        insertBy draw (start.after history) key (some value) false = .error (.duplicate key)) ∧
      (∀ key value update draw, isReserved key = false → update = true ∨ latest key history = none →
        ∃ l, insertBy draw (start.after history) key (some value) update = .ok l ∧
          ∀ other, l.search other = if other = key then some value else latest other history) ∧
      (∀ key other, ((start.after history).delete key).search other =
        if other = key then none else latest other history) ∧
      (∀ key, (start.after history).next? key = none ↔
        ∀ other, key < other → latest other history = none) ∧
      ∀ key t, (start.after history).next? key = some t →
        key < t.key ∧ latest t.key history = some t.value ∧
          ∀ other, key < other → other < t.key → latest other history = none := by
  obtain ⟨start, hcreate, hstart⟩ := create_ok root hlevels
  obtain ⟨order, h, hlatest⟩ := hstart.after history
  simp only [← hlatest]
  refine ⟨start, hcreate, fun _ => rfl,
    fun key value draw hkey => h.insertBy_present hkey draw value, ?_,
    h.search_delete, fun key => h.next?_eq_none_iff, fun key t => h.next?_eq_some⟩
  intro key value update draw hkey hallowed
  obtain ⟨l, -, hl, -, hsearch⟩ := h.insertBy_allowed hkey draw value hallowed
  exact ⟨l, hl, hsearch⟩

/-- Items stand on three levels. One of them has its value replaced, another one is taken away. -/
theorem sorted_map_three_levels : let draw : Nat → Random → Nat × Random :=
  fun level r => (level, r)
    let history : List (SkipOperation Nat) :=
      [.delete 7, .insert 5 50 true (draw 0), .insert 9 1 false (draw 0),
        .insert 7 70 false (draw 3),
        .insert 9 90 false (draw 2), .insert 5 4 false (draw 1)]
    1 ≤ 3 ∧ ∃ start : SkipList Nat, create 2 3 = .ok start ∧ (start.after history).start = 2 ∧
      (start.after history).search 5 = some 50 ∧ (start.after history).search 7 = none ∧
      insertBy (draw 0) (start.after history) 9 (some 8) false = .error (.duplicate 9) ∧
      ((start.after history).next? 5).map (·.key) = some 9 := by
  intro draw history
  obtain ⟨start, hcreate, hsearch, hpresent, -⟩ := sorted_map 2 (by decide : 1 ≤ 3) history
  refine ⟨by decide, start, hcreate, ?_, hsearch 5, hsearch 7, hpresent 9 8 (draw 0) rfl rfl, ?_⟩
  · cases hcreate
    decide +kernel
  · cases hcreate
    decide +kernel

end TemplateKit.SkipList
