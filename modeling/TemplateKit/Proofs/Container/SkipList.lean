import Mathlib.Data.List.Perm.Subperm
import TemplateKit.Proofs.Container.SkipLinks

/-!
# The order of skip lists

The items of a skip list have an order in which their keys ascend, and on each level links lead
through the items that stand there, in this order. So a search finds every item, whatever its
height.
-/

namespace TemplateKit.SkipList

open List Option

open SkipPlace

variable {α : Type} {l l' : SkipList α} {order front back : List Nat} {key : UInt32}
  {slot level : Nat} {value : α}

def standing (l : SkipList α) (level : Nat) (row : List Nat) : List Nat :=
  row.filter fun s => level < (l.linksOf (.item s)).length

theorem standing_append (level : Nat) (front back : List Nat) :
    l.standing level (front ++ back) = l.standing level front ++ l.standing level back :=
      filter_append _ _

theorem standing_cons_of_lt (h : level < (l.linksOf (.item slot)).length) (row : List Nat) :
    l.standing level (slot :: row) = slot :: l.standing level row :=
      filter_cons_of_pos (by simpa using h)

theorem standing_cons_of_not_lt (h : ¬ level < (l.linksOf (.item slot)).length) (row : List Nat) :
    l.standing level (slot :: row) = l.standing level row := filter_cons_of_neg (by simpa using h)

theorem mem_standing {s} : s ∈ l.standing level front ↔
    s ∈ front ∧ level < (l.linksOf (.item s)).length := by
  simp [standing]

theorem standing_zero (h : ∀ s ∈ front, 0 < (l.linksOf (.item s)).length) :
    l.standing 0 front = front := by
  apply filter_eq_self.mpr
  intro s hs
  simpa using h s hs

theorem standing_congr (hl : ∀ s ∈ front, (l'.linksOf (.item s)).length =
    (l.linksOf (.item s)).length)
    (level : Nat) : l'.standing level front = l.standing level front := by
  apply filter_congr
  intro s hs
  rw [hl s hs]

theorem keyOf_item {t} (h : l.item? slot = some t) : l.keyOf slot = t.key := by
  rw [keyOf, h]
  rfl

theorem linksOf_item {t} (h : l.item? slot = some t) : l.linksOf (.item slot) = t.links := by
  rw [linksOf, h]
  rfl

/-- The items in the order of their keys, apart from their links. -/
structure Arranged (l : SkipList α) (order : List Nat) : Prop where
  stored : ∀ s ∈ order, (l.item? s).isSome
  ascending : order.Pairwise fun s t => l.keyOf s < l.keyOf t
  regular : ∀ s ∈ order, isReserved (l.keyOf s) = false
  grounded : ∀ s ∈ order, 0 < (l.linksOf (.item s)).length
  bounded : ∀ s ∈ order, (l.linksOf (.item s)).length ≤ l.head.length
  top_le : l.top ≤ l.maxLevel
  max_lt : l.maxLevel < l.head.length

/-- On every level links lead through the items that stand there, in the order of all items. -/
structure Linked (l : SkipList α) (order : List Nat) : Prop extends Arranged l order where
  rows : ∀ level, Follows (l.next level) .head (l.standing level order)

namespace Arranged

theorem nodup (h : l.Arranged order) : order.Nodup := by
  refine h.ascending.imp ?_
  rintro s _ hlt rfl
  exact absurd hlt (UInt32.lt_irrefl _)

theorem length_le (h : l.Arranged order) : order.length ≤ l.slots.length := by
  have hsub : order ⊆ List.range l.slots.length := by
    intro s hs
    rw [mem_range]
    by_contra hge
    have hn : l.item? s = none := by
      rw [item?, getElem?_eq_none (Nat.le_of_not_lt hge)]
      rfl
    have hso := h.stored s hs
    rw [hn] at hso
    cases hso
  simpa using (h.nodup.subperm hsub).length_le

theorem sublist (h : l.Arranged order) (hfront : front.Sublist order) : l.Arranged front where
  stored s hs := h.stored s (hfront.subset hs)
  ascending := h.ascending.sublist hfront
  regular s hs := h.regular s (hfront.subset hs)
  grounded s hs := h.grounded s (hfront.subset hs)
  bounded s hs := h.bounded s (hfront.subset hs)
  top_le := h.top_le
  max_lt := h.max_lt

theorem between (h : l.Arranged (front ++ back)) {t} (hi : l.item? slot = some t)
    (hfront : ∀ s ∈ front, l.keyOf s < t.key) (hback : ∀ s ∈ back, t.key < l.keyOf s)
    (hr : isReserved t.key = false) (hg : 0 < t.links.length)
    (hbo : t.links.length ≤ l.head.length) : l.Arranged (front ++ slot :: back) := by
  have hkey := keyOf_item hi
  have hl := linksOf_item hi
  have hall : ∀ {p : Nat → Prop}, p slot → (∀ s ∈ front ++ back, p s) →
      ∀ s ∈ front ++ slot :: back, p s := by
    intro p hp hre s hs
    exact forall_mem_cons.mpr ⟨hp, hre⟩ s (perm_middle.mem_iff.mp hs)
  obtain ⟨hb, hbe, hc⟩ := pairwise_append.mp h.ascending
  refine ⟨hall (by rw [hi]; rfl) h.stored, ?_, hall (by rwa [hkey]) h.regular,
    hall (by rwa [hl]) h.grounded, hall (by rwa [hl]) h.bounded, h.top_le, h.max_lt⟩
  rw [← hkey] at hfront hback
  exact pairwise_append.mpr ⟨hb, pairwise_cons.mpr ⟨hback, hbe⟩, fun s hs =>
    forall_mem_cons.mpr ⟨hfront s hs, hc s hs⟩⟩

/-- Nothing else than the keys and the heights of the items matters. -/
theorem congr (h : l.Arranged order)
    (hi : ∀ s ∈ order, (l'.item? s).map shape = (l.item? s).map shape)
    (hh : l'.head.length = l.head.length) (hmax : l'.maxLevel = l.maxLevel)
    (htop : l'.top ≤ l'.maxLevel) :
    l'.Arranged order where
  stored s hs := by
    have hso := congrArg isSome (hi s hs)
    rw [isSome_map, isSome_map] at hso
    exact hso.trans (h.stored s hs)
  ascending := by
    refine h.ascending.imp_of_mem fun hs ht hlt => ?_
    rwa [keyOf_congr (hi _ hs), keyOf_congr (hi _ ht)]
  regular s hs := by
    rw [keyOf_congr (hi s hs)]
    exact h.regular s hs
  grounded s hs := by
    rw [height_congr (hi s hs)]
    exact h.grounded s hs
  bounded s hs := by
    rw [height_congr (hi s hs), hh]
    exact h.bounded s hs
  top_le := htop
  max_lt := by
    rw [hmax, hh]
    exact h.max_lt

theorem around (h : l.Arranged (front ++ slot :: back)) :
    (∀ s ∈ front, l.keyOf s < l.keyOf slot) ∧ ∀ s ∈ back, l.keyOf slot < l.keyOf s := by
  obtain ⟨-, hsl, hc⟩ := pairwise_append.mp h.ascending
  exact ⟨fun s hs => hc s hs slot mem_cons_self, (pairwise_cons.mp hsl).1⟩

theorem parts (h : l.Arranged order) (key : UInt32) :
    ∃ front back, order = front ++ back ∧ (∀ s ∈ front, l.keyOf s < key) ∧
      ∀ s ∈ back, ¬ l.keyOf s < key := by
  have ha := h.ascending
  clear h
  induction order with
  | nil => exact ⟨[], [], rfl, by simp, by simp⟩
  | cons s order ih =>
    obtain ⟨hs, hr⟩ := pairwise_cons.mp ha
    by_cases hkey : l.keyOf s < key
    · obtain ⟨front, back, rfl, hfront, hback⟩ := ih hr
      exact ⟨s :: front, back, rfl, forall_mem_cons.mpr ⟨hkey, hfront⟩, hback⟩
    · refine ⟨[], s :: order, rfl, by simp, forall_mem_cons.mpr ⟨hkey, fun t ht hlt => hkey ?_⟩⟩
      exact UInt32.lt_trans (hs t ht) hlt

end Arranged

namespace Linked

/-- Nothing else than the keys and links of the items matters, and the links of the head. -/
theorem congr (h : l.Linked order)
    (hi : ∀ s ∈ order, (l'.item? s).map (fun t => (t.key, t.links)) =
      (l.item? s).map fun t => (t.key, t.links))
    (hh : l'.head = l.head) (hmax : l'.maxLevel = l.maxLevel)
    (htop : l'.top ≤ l'.maxLevel) : l'.Linked order where
  toArranged := h.toArranged.congr (fun s hs => item?_map_congr (hi s hs) fun o =>
    (o.1, o.2.length)) (congrArg List.length hh) hmax htop
  rows level := by
    have hl : ∀ s ∈ order, l'.linksOf (.item s) = l.linksOf (.item s) := fun s hs =>
      congrArg (getD · []) (item?_map_congr (hi s hs) Prod.snd)
    rw [standing_congr fun s hs => congrArg List.length (hl s hs)]
    apply (h.rows level).congr
    intro y hy
    rcases mem_cons.mp hy with rfl | hy
    · rw [next, next, linksOf, linksOf, hh]
    · obtain ⟨s, hs, rfl⟩ := mem_map.mp hy
      rw [next, next, hl s (mem_standing.mp hs).1]

theorem lowest (h : l.Linked order) : Follows (l.next 0) .head order :=
  standing_zero h.grounded ▸ h.rows 0

theorem parted (h : l.Linked (front ++ back)) (hfront : ∀ s ∈ front, l.keyOf s < key)
    (hback : ∀ s ∈ back, ¬ l.keyOf s < key) {x}
    (hway : ∃ done todo, l.standing level front = done ++ todo ∧ x = SkipPlace.head.last done) :
    l.Parted level key (l.standing level front) (l.standing level back) x where
  row := standing_append (l := l) level front back ▸ h.rows level
  nodup := standing_append (l := l) level front back ▸ h.nodup.filter _
  below s hs := hfront s (mem_standing.mp hs).1
  notBelow s hs := hback s (mem_standing.mp (mem_of_mem_head? hs)).1
  short := by
    have hl : (l.standing level front).length ≤ (front ++ back).length :=
      Nat.le_trans (length_filter_le _ _) (by simp)
    exact Nat.le_trans hl h.length_le
  way := hway

/-- A place that was found on a higher level is on the way on each level below. -/
theorem way_down {low high} (hl : low ≤ high) (front : List Nat) :
    ∃ done todo, l.standing low front = done ++ todo ∧
      SkipPlace.head.last (l.standing high front) = SkipPlace.head.last done := by
  cases hla : (l.standing high front).getLast? with
  | none => exact ⟨[], l.standing low front, rfl, by simp [SkipPlace.last, hla]⟩
  | some s =>
    obtain ⟨hs, hh⟩ := mem_standing.mp (mem_of_getLast? hla)
    obtain ⟨done, todo, hsp⟩ := append_of_mem (mem_standing.mpr ⟨hs, Nat.lt_of_le_of_lt hl hh⟩)
    refine ⟨done ++ [s], todo, by simp [hsp], ?_⟩
    simp [SkipPlace.last, hla]

theorem length_descend (key : UInt32) (level : Nat) (x : SkipPlace) :
    (l.descend key level x).length = level + 1 := by
  induction level generalizing x with
  | zero => rfl
  | succ level ih => rw [descend, length_append, ih, length_singleton]

section Search

variable (h : l.Linked (front ++ back)) (hfront : ∀ s ∈ front, l.keyOf s < key)
  (hback : ∀ s ∈ back, ¬ l.keyOf s < key)

include h hfront hback

/-- A search comes to the last place before the key on each level that it passes. -/
theorem getElem?_descend {x k}
    (hway : ∃ done todo, l.standing level front = done ++ todo ∧ x = SkipPlace.head.last done)
    (hk : k ≤ level) :
    (l.descend key level x)[k]? = some (SkipPlace.head.last (l.standing k front)) := by
  have hb := (h.parted hfront hback hway).before
  induction level generalizing x with
  | zero =>
    obtain rfl : k = 0 := Nat.le_zero.mp hk
    rw [descend, hb]
    rfl
  | succ level ih =>
    have hd := way_down (l := l) (Nat.le_succ level) front
    rw [descend, hb]
    rcases Nat.lt_or_ge level k with hlt | hle
    · obtain rfl : k = level + 1 := Nat.le_antisymm hk hlt
      rw [getElem?_append_right (Nat.le_of_eq (length_descend key level _)), length_descend,
        Nat.sub_self]
      rfl
    · rw [getElem?_append_left (by rw [length_descend]; omega)]
      exact ih hd hle (h.parted hfront hback hd).before

theorem placeOn_trail (hl : level ≤ l.start) :
    placeOn (l.trail key) level = SkipPlace.head.last (l.standing level front) := by
  have hf : (l.descend key l.start .head)[level]? =
      some (SkipPlace.head.last (l.standing level front)) :=
    h.getElem?_descend hfront hback ⟨[], _, rfl, rfl⟩ hl
  rw [placeOn, trail, hf]
  rfl

/-- The trail of a search is on the way to the key on every level, also above the start of the
search. -/
theorem way_trail (level : Nat) : ∃ done todo, l.standing level front = done ++ todo ∧
      placeOn (l.trail key) level = SkipPlace.head.last done := by
  rcases Nat.lt_or_ge l.start level with hlt | hle
  · refine ⟨[], l.standing level front, rfl, ?_⟩
    rw [placeOn, trail, getElem?_eq_none (by rw [length_descend]; omega)]
    rfl
  · exact ⟨l.standing level front, [], by simp, h.placeOn_trail hfront hback hle⟩

theorem seek_eq : l.seek key = back.head? := by
  have hf' : l.standing 0 front = front :=
    standing_zero fun s hs => h.grounded s (mem_append_left back hs)
  rw [seek, h.placeOn_trail hfront hback (Nat.zero_le _), hf']
  exact h.lowest.append.head?

end Search

theorem slot?_eq_some_iff (h : l.Linked order) :
    l.slot? key = some slot ↔ slot ∈ order ∧ l.keyOf slot = key := by
  obtain ⟨front, back, rfl, hfront, hback⟩ := h.parts key
  rw [slot?, h.seek_eq hfront hback, filter_eq_some_iff]
  constructor
  · rintro ⟨hs, hkey⟩
    exact ⟨mem_append_right front (mem_of_mem_head? hs), beq_iff_eq.mp hkey⟩
  · rintro ⟨hs, hkey⟩
    refine ⟨?_, beq_iff_eq.mpr hkey⟩
    rcases mem_append.mp hs with hs | hs
    · exact absurd (hkey ▸ hfront slot hs) (UInt32.lt_irrefl key)
    · cases back with
      | nil => cases hs
      | cons s back =>
        rcases mem_cons.mp hs with rfl | hs
        · rfl
        · have hlt : l.keyOf s < l.keyOf slot :=
            (pairwise_cons.mp (pairwise_append.mp h.ascending).2.1).1 slot hs
          exact absurd (hkey ▸ hlt) (hback s mem_cons_self)

theorem slot?_eq_none_iff (h : l.Linked order) :
    l.slot? key = none ↔ ∀ s ∈ order, l.keyOf s ≠ key := by
  rw [eq_none_iff_forall_ne_some]
  constructor
  · intro hn s hs hkey
    exact hn s (h.slot?_eq_some_iff.mpr ⟨hs, hkey⟩)
  · intro hn s hs
    obtain ⟨hmem, hkey⟩ := h.slot?_eq_some_iff.mp hs
    exact hn s hmem hkey

end Linked

def pair? (l : SkipList α) (slot : Nat) : Option (UInt32 × α) :=
  (l.item? slot).map fun t => (t.key, t.value)

/-- What is stored under a key, in an order of items. -/
def Stores (l : SkipList α) (order : List Nat) (key : UInt32) (value : α) : Prop :=
  ∃ s ∈ order, l.pair? s = some (key, value)

theorem Relinked.pair? (h : Relinked l l') (s : Nat) : l'.pair? s = l.pair? s :=
  item?_map_congr (h.items s) fun o => (o.1, o.2.1)

theorem stores_congr (h : ∀ s ∈ order, l'.pair? s = l.pair? s) :
    l'.Stores order key value ↔ l.Stores order key value :=
  exists_congr fun s => and_congr_right fun hs => by rw [h s hs]

theorem stores_middle : l.Stores (front ++ slot :: back) key value ↔
    l.pair? slot = some (key, value) ∨ l.Stores (front ++ back) key value := by
  simp [Stores, perm_middle.mem_iff]

theorem keyOf_pair (h : l.pair? slot = some (key, value)) : l.keyOf slot = key := by
  have hkey := congrArg (Option.map Prod.fst) h
  rw [SkipList.pair?, Option.map_map] at hkey
  exact congrArg (Option.getD · 0xFFFFFFFF) hkey

theorem stores_of_absent (h : ∀ s ∈ order, l.keyOf s ≠ key) {other} :
    l.Stores order other value ↔ other ≠ key ∧ l.Stores order other value := by
  refine ⟨fun hst => ⟨?_, hst⟩, And.right⟩
  rintro rfl
  obtain ⟨s, hs, hp⟩ := hst
  exact h s hs (keyOf_pair hp)

/-- What is stored beside an item has other keys. -/
theorem Arranged.stores_others (h : l.Arranged (front ++ slot :: back)) :
    l.Stores (front ++ back) key value ↔ key ≠ l.keyOf slot ∧
    l.Stores (front ++ slot :: back) key value := by
  have ho : ∀ s ∈ front ++ back, l.keyOf s ≠ l.keyOf slot := by
    obtain ⟨hfront, hback⟩ := h.around
    intro s hs
    rcases mem_append.mp hs with hs | hs
    · exact UInt32.ne_of_lt (hfront s hs)
    · exact (UInt32.ne_of_lt (hback s hs)).symm
  rw [stores_of_absent ho, stores_middle]
  refine and_congr_right fun hkey => (or_iff_right fun hp => ?_).symm
  exact hkey (keyOf_pair hp).symm

namespace Linked

section

variable (h : l.Linked order)

include h

theorem search_eq_some_iff : l.search key = some value ↔ l.Stores order key value := by
  rw [search]
  constructor
  · intro hf
    obtain ⟨t, ht, rfl⟩ := map_eq_some_iff.mp hf
    obtain ⟨s, hs, ht⟩ := bind_eq_some_iff.mp ht
    obtain ⟨hmem, hkey⟩ := h.slot?_eq_some_iff.mp hs
    have hi : t.key = key := (keyOf_item ht).symm.trans hkey
    exact ⟨s, hmem, by rw [pair?, ht, map_some, hi]⟩
  · rintro ⟨s, hs, hp⟩
    rw [h.slot?_eq_some_iff.mpr ⟨hs, keyOf_pair hp⟩]
    have hv := congrArg (Option.map Prod.snd) hp
    rwa [pair?, Option.map_map] at hv

theorem next?_eq (key : UInt32) :
    ∃ front behind, order = front ++ behind ∧ (∀ s ∈ front, ¬ key < l.keyOf s) ∧
      (∀ s ∈ behind, key < l.keyOf s) ∧
      l.next? key = behind.head?.bind l.item? := by
  obtain ⟨front, back, rfl, hfront, hback⟩ := h.parts key
  have hse := h.seek_eq hfront hback
  have hlow : ∀ s ∈ front, ¬ key < l.keyOf s :=
    fun s hs => UInt32.not_lt.mpr (UInt32.le_of_lt (hfront s hs))
  rw [next?]
  cases hsl : l.slot? key with
  | none =>
    refine ⟨front, back, rfl, hlow, fun s hs => ?_, by rw [hse]⟩
    have hne := h.slot?_eq_none_iff.mp hsl s (mem_append_right front hs)
    exact UInt32.lt_of_le_of_ne (UInt32.not_lt.mp (hback s hs)) (Ne.symm hne)
  | some s =>
    rw [slot?, hse, filter_eq_some_iff] at hsl
    obtain ⟨hh, hkey⟩ := hsl
    obtain ⟨back, rfl⟩ := head?_eq_some_iff.mp hh
    have ha := pairwise_cons.mp (pairwise_append.mp h.ascending).2.1
    have hrow : Follows (l.next 0) (SkipPlace.head.last (front ++ [s])) back := by
      apply Follows.append
      rw [append_assoc]
      exact h.lowest
    rw [last_append] at hrow
    refine ⟨front ++ [s], back, by simp, ?_, ?_, congrArg (bind · l.item?) hrow.head?⟩
    · intro t ht
      rcases mem_append.mp ht with ht | ht
      · exact hlow t ht
      · rw [mem_singleton.mp ht, beq_iff_eq.mp hkey]
        exact UInt32.lt_irrefl key
    · intro t ht
      exact beq_iff_eq.mp hkey ▸ ha.1 t ht

theorem search_eq_none_iff : l.search key = none ↔ ∀ s ∈ order, l.keyOf s ≠ key := by
  rw [← h.slot?_eq_none_iff, search]
  cases hs : l.slot? key with
  | none => simp
  | some s =>
    obtain ⟨t, ht⟩ := isSome_iff_exists.mp (h.stored s (h.slot?_eq_some_iff.mp hs).1)
    simp [ht]

theorem next?_eq_none_iff : l.next? key = none ↔ ∀ other, key < other → l.search other = none := by
  obtain ⟨front, behind, rfl, hfront, hb, hne⟩ := h.next?_eq key
  rw [hne]
  constructor
  · intro hn other ho
    cases behind with
    | nil =>
      rw [h.search_eq_none_iff, append_nil]
      rintro s hs rfl
      exact hfront s hs ho
    | cons s behind =>
      obtain ⟨t, ht⟩ := isSome_iff_exists.mp (h.stored s (by simp))
      rw [head?_cons, bind_some, ht] at hn
      cases hn
  · intro hn
    cases behind with
    | nil => rfl
    | cons s behind =>
      have hs := h.search_eq_none_iff.mp (hn (l.keyOf s) (hb s mem_cons_self)) s (by simp)
      exact absurd rfl hs

theorem next?_eq_some {t} (hn : l.next? key = some t) :
    key < t.key ∧ l.search t.key = some t.value ∧ ∀ other, key < other → other < t.key →
      l.search other = none := by
  obtain ⟨front, behind, rfl, hfront, hb, heq⟩ := h.next?_eq key
  obtain ⟨s, hs, ht⟩ := bind_eq_some_iff.mp (heq.symm.trans hn)
  obtain ⟨behind, rfl⟩ := head?_eq_some_iff.mp hs
  have hkey := keyOf_item ht
  have ha := (pairwise_cons.mp (pairwise_append.mp h.ascending).2.1).1
  refine ⟨hkey ▸ hb s mem_cons_self, h.search_eq_some_iff.mpr ⟨s, by simp, by rw [pair?, ht]; rfl⟩,
    ?_⟩
  intro other hlow hh
  rw [h.search_eq_none_iff]
  rintro u hu rfl
  rcases mem_append.mp hu with hu | hu
  · exact hfront u hu hlow
  · rcases mem_cons.mp hu with rfl | hu
    · exact UInt32.lt_irrefl _ (hkey ▸ hh)
    · exact UInt32.lt_asymm hh (hkey ▸ ha u hu)

end

end Linked

end TemplateKit.SkipList
