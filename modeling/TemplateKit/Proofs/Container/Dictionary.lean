import TemplateKit.Container.Dictionary
import TemplateKit.Proofs.Container.SkipMap

/-!
# Dictionaries are finite maps

Each group of a dictionary holds texts of one hash, no two of which are the same. So a text has at
most one value, in the group of its hash, and every change affects the texts that are the same and
have the same hash, and no others. If letter case matters, these are the text itself.
-/

namespace TemplateKit.Dictionary

open List Option

variable {α : Type} {d d' : Dictionary α} {id other name : Bytes} {key : UInt32} {value : α}
  {items : List (Bytes × α)}

theorem isReserved_hash (id : Bytes) : SkipList.isReserved (hash id) = false := by
  rw [hash]
  split
  · rfl
  · next hf => exact Bool.eq_false_iff.mpr hf

section Same

theorem same_iff (d : Dictionary α) (a b : Bytes) :
    d.same a b = true ↔ (if d.caseMatters then a else a.lower) = if d.caseMatters then b
      else b.lower := by
  rw [same]
  cases d.caseMatters <;> simp [Bytes.equalsNoCase]

theorem same_self (d : Dictionary α) (a : Bytes) : d.same a a = true := (d.same_iff a a).mpr rfl

theorem same_comm (d : Dictionary α) (a b : Bytes) : d.same a b = d.same b a := by
  rw [Bool.eq_iff_iff, same_iff, same_iff, eq_comm]

theorem same_congr {a b} (h : d.same a b = true) (c : Bytes) : d.same c a = d.same c b := by
  rw [Bool.eq_iff_iff, same_iff, same_iff, (d.same_iff a b).mp h]

theorem same_congr_left {a b} (h : d.same a b = true) (c : Bytes) : d.same a c = d.same b c := by
  rw [same_comm, same_congr h, same_comm]

end Same

section Group

def within (d : Dictionary α) (id : Bytes) (items : List (Bytes × α)) : Option α :=
  (items.find? (d.same ·.1 id)).map (·.2)

def put (d : Dictionary α) (id : Bytes) (value : α) (items : List (Bytes × α)) : List (Bytes × α) :=
  if items.any (d.same ·.1 id) then replaceFirst (d.same · id) value items else (id, value) :: items

/-- The texts of a group have its hash, and no two of them are the same. -/
structure Grouped (d : Dictionary α) (key : UInt32) (items : List (Bytes × α)) : Prop where
  hashed : ∀ name ∈ items.map (·.1), hash name = key
  distinct : (items.map (·.1)).Pairwise fun a b => d.same a b = false

theorem within_cons (item : Bytes × α) (more : List (Bytes × α)) :
    d.within id (item :: more) = if d.same item.1 id then some item.2 else d.within id more := by
  rw [within, find?_cons]
  cases d.same item.1 id <;> rfl

theorem within_eq_none_iff : d.within id items = none ↔
    ∀ item ∈ items, d.same item.1 id = false := by
  simp [within]

theorem isSome_within (id : Bytes) (items : List (Bytes × α)) :
    (d.within id items).isSome = items.any (d.same ·.1 id) := by
  rw [Bool.eq_iff_iff]
  simp [within]

theorem names_replaceFirst (same : Bytes → Bool) (value : α) (items : List (Bytes × α)) :
    (replaceFirst same value items).map (·.1) = items.map (·.1) := by
  induction items with
  | nil => rfl
  | cons item more ih =>
    rw [replaceFirst]
    split
    · rfl
    · rw [map_cons, map_cons, ih]

/-- A text that is not the same as another is not the same as what is the same as that. -/
theorem ite_same_comm {a} (h : ¬d.same a id = true) (x y z : Option α) :
    (if d.same a other then x else if d.same other id then y else z) =
      if d.same other id then y else if d.same a other then x else z := by
  cases ho : d.same other id with
  | true => rw [same_congr ho, if_neg h]; rfl
  | false => rfl

theorem within_replaceFirst (h : items.any (d.same ·.1 id) = true) (value : α) (other : Bytes) :
    d.within other (replaceFirst (d.same · id) value items) = if d.same other id then some value
      else d.within other items := by
  induction items with
  | nil => cases h
  | cons item more ih =>
    rw [replaceFirst]
    split
    · next hs =>
      rw [within_cons, within_cons, same_congr_left hs, same_comm]
      cases d.same other id <;> rfl
    · next hs =>
      have hm : more.any (d.same ·.1 id) = true := by simpa [hs] using h
      rw [within_cons, within_cons, ih hm, ite_same_comm hs]

theorem within_put (d : Dictionary α) (id other : Bytes) (value : α) (items : List (Bytes × α)) :
    d.within other (d.put id value items) = if d.same other id then some value
      else d.within other items := by
  rw [put]
  split
  · next hf => exact within_replaceFirst hf value other
  · rw [within_cons, same_comm]

namespace Grouped

variable (h : d.Grouped key items)

include h

theorem tail {item more} (heq : items = item :: more) : d.Grouped key more := by
  subst heq
  exact ⟨fun name hn => h.hashed name (mem_cons_of_mem _ hn), (pairwise_cons.mp h.distinct).2⟩

theorem within_erase (id other : Bytes) :
    d.within other (items.eraseP (d.same ·.1 id)) = if d.same other id then none
      else d.within other items := by
  induction items with
  | nil => exact (ite_self none).symm
  | cons item more ih =>
    rw [eraseP_cons, within_cons]
    cases hs : d.same item.1 id with
    | true =>
      rw [same_congr_left hs, d.same_comm id]
      cases ho : d.same other id with
      | false => rfl
      | true =>
        rw [if_pos rfl, within_eq_none_iff]
        intro found hf
        have hd := (pairwise_cons.mp h.distinct).1 found.1 (mem_map_of_mem hf)
        rw [same_congr ho, ← same_congr hs, same_comm, hd]
    | false => rw [cond_false, within_cons, ih (h.tail rfl),
        ite_same_comm (Bool.eq_false_iff.mp hs)]

theorem erase (id : Bytes) : d.Grouped key (items.eraseP (d.same ·.1 id)) := by
  have hsub := (eraseP_sublist (p := (d.same ·.1 id)) (l := items)).map (·.1)
  exact ⟨fun name hn => h.hashed name (hsub.subset hn), h.distinct.sublist hsub⟩

theorem put (hid : hash id = key) (value : α) : d.Grouped key (d.put id value items) := by
  rw [Dictionary.put]
  split
  · exact ⟨names_replaceFirst (d.same · id) value items ▸ h.hashed,
      names_replaceFirst (d.same · id) value items ▸ h.distinct⟩
  · next hnew =>
    refine ⟨forall_mem_cons.mpr ⟨hid, h.hashed⟩, pairwise_cons.mpr ⟨fun name hn => ?_, h.distinct⟩⟩
    obtain ⟨item, hi, rfl⟩ := mem_map.mp hn
    rw [same_comm]
    exact Bool.eq_false_iff.mpr fun hs => hnew (any_eq_true.mpr ⟨item, hi, hs⟩)

end Grouped

end Group

/-- The groups are found by their hashes, and each holds what belongs to it. -/
structure Sound (d : Dictionary α) : Prop where
  linked : ∃ order, d.groups.Linked order
  grouped : ∀ key items, d.groups.search key = some items → d.Grouped key items

/-- Does a dictionary take two texts for one? Texts that differ in letter case only have different
hashes, as a rule. -/
def alike (caseMatters : Bool) (a b : Bytes) : Bool :=
  (if caseMatters then a == b else Bytes.equalsNoCase a b) && hash a == hash b

theorem alike_eq (d : Dictionary α) (a b : Bytes) :
    alike d.caseMatters a b = (d.same a b && hash a == hash b) := rfl

theorem alike_true : alike true = (· == ·) := by
  funext a b
  rw [alike, if_pos rfl]
  cases hab : a == b with
  | false => rfl
  | true => rw [beq_iff_eq.mp hab, beq_self_eq_true, Bool.true_and]

theorem search_eq (d : Dictionary α) (id : Bytes) :
    d.search id = (d.groups.search (hash id)).bind (d.within id) := rfl

theorem search_of_hash (h : hash other = hash id) :
    d.search other = (d.group id).bind (d.within other) := by
  rw [search_eq, h, group]

section Changes

variable (h : d.Sound)

include h

theorem Sound.grouped_group (id : Bytes) : d.Grouped (hash id) ((d.group id).getD []) := by
  cases hg : d.group id with
  | none => exact ⟨by simp, by simp⟩
  | some items => exact h.grouped (hash id) items hg

theorem Sound.search_setGroup (hg : (d.group id).isSome) (items : List (Bytes × α)) :
    (∃ order, (d.setGroup id items).groups.Linked order) ∧
      ∀ key, (d.setGroup id items).groups.search key = if key = hash id then some items
        else d.groups.search key := by
  obtain ⟨order, hl⟩ := h.linked
  obtain ⟨slot, hsl⟩ := isSome_iff_exists.mp ((hl.isSome_slot? (hash id)).trans hg)
  obtain ⟨hl', hs⟩ := hl.setValue hsl items
  exact ⟨⟨order, hl'⟩, hl.search_put hl' hs⟩

/-- A value can always be set, wherever a new group is drawn to stand, and no other group changes.
-/
theorem Sound.setBy_ok (draw : Random → Nat × Random) (id : Bytes) (value : α) :
    ∃ d', d.setBy draw id value = .ok d' ∧ d'.caseMatters = d.caseMatters ∧
      (∃ order, d'.groups.Linked order) ∧
      ∀ key, d'.groups.search key =
        if key = hash id then some (d.put id value ((d.group id).getD []))
        else d.groups.search key := by
  cases hg : d.group id with
  | none =>
    obtain ⟨order, hl⟩ := h.linked
    have ha : false = true ∨ d.groups.search (hash id) = none := .inr hg
    obtain ⟨groups, order', hi, hl', hs⟩ :=
      hl.insertBy_allowed (isReserved_hash id) draw [(id, value)] ha
    refine ⟨{ d with groups }, ?_, rfl, ⟨order', hl'⟩, hs⟩
    simp [setBy, modifyBy, hg, Entrant.create, hi, Except.mapError, bind, Except.bind, pure,
      Except.pure]
  | some items =>
    obtain ⟨hl, hs⟩ := h.search_setGroup (by rw [hg]; rfl) (d.put id value items)
    refine ⟨d.setGroup id (d.put id value items), ?_, rfl, hl, hs⟩
    have hc : d.changeGroup id (.value value) items = .ok (d.put id value items) := by
      rw [changeGroup, put, ← isSome_within, within]
      cases items.find? (d.same ·.1 id) <;> rfl
    simp [setBy, modifyBy, hg, hc]

theorem Sound.remove_spec (id : Bytes) : (∃ order, (d.remove id).2.groups.Linked order) ∧
      ∀ key, (d.remove id).2.groups.search key =
        if key = hash id then (d.group id).map (·.eraseP (d.same ·.1 id))
        else d.groups.search key := by
  rw [remove]
  cases hg : d.group id with
  | none =>
    refine ⟨h.linked, fun key => ?_⟩
    by_cases hkey : key = hash id
    · rw [if_pos hkey, hkey]
      exact hg
    · rw [if_neg hkey]
  | some items => exact h.search_setGroup (by rw [hg]; rfl) _

end Changes

section Answers

theorem search_changed (hc : d'.caseMatters = d.caseMatters) {changed}
    (hg : ∀ key, d'.groups.search key = if key = hash id then changed else d.groups.search key)
    (other : Bytes) :
    d'.search other = if hash other = hash id then changed.bind (d.within other)
      else d.search other := by
  have hw : d'.within other = d.within other := by
    funext items
    rw [within]
    congr 2
    funext item
    rw [same, same, hc]
  rw [search_eq, hg, hw]
  split <;> rfl

theorem Sound.of_changed (h : d.Sound) (hca : d'.caseMatters = d.caseMatters)
    (hl : ∃ order, d'.groups.Linked order) {changed}
    (hg : ∀ key, d'.groups.search key = if key = hash id then changed else d.groups.search key)
    (hc : ∀ items, changed = some items → d.Grouped (hash id) items) : d'.Sound := by
  refine ⟨hl, fun key items hi => ?_⟩
  obtain ⟨hh, hd⟩ : d.Grouped key items := by
    rw [hg] at hi
    split at hi
    · next hkey => exact hkey ▸ hc items hi
    · exact h.grouped key items hi
  exact ⟨hh, hd.imp fun hs => by rwa [same, hca]⟩

/-- A value that is set is found under every text that is taken for its own, and under no other. -/
theorem Sound.set (h : d.Sound) (draw : Random → Nat × Random) (id : Bytes) (value : α) :
    ∃ d', d.setBy draw id value = .ok d' ∧ d'.caseMatters = d.caseMatters ∧ d'.Sound ∧
      ∀ other, d'.search other = if alike d.caseMatters other id then some value
        else d.search other := by
  obtain ⟨d', hset, hc, hl, hg⟩ := h.setBy_ok draw id value
  refine ⟨d', hset, hc, h.of_changed hc hl hg ?_, fun other => ?_⟩
  · rintro _ ⟨⟩
    exact (h.grouped_group id).put rfl value
  · rw [search_changed hc hg, bind_some, within_put, alike_eq]
    by_cases hh : hash other = hash id
    · have hb : d.within other ((d.group id).getD []) = d.search other := by
        rw [search_of_hash hh]
        cases d.group id <;> rfl
      simp [hh, hb]
    · simp [hh]

theorem Sound.remove (h : d.Sound) (id : Bytes) :
    (d.remove id).1 = (d.search id).isSome ∧ (d.remove id).2.caseMatters = d.caseMatters ∧
    (d.remove id).2.Sound ∧
      ∀ other, (d.remove id).2.search other = if alike d.caseMatters other id then none
        else d.search other := by
  obtain ⟨hl, hg⟩ := h.remove_spec id
  have hc : (d.remove id).2.caseMatters = d.caseMatters := by
    rw [Dictionary.remove]
    split <;> rfl
  refine ⟨?_, hc, h.of_changed hc hl hg ?_, fun other => ?_⟩
  · rw [search_of_hash rfl, Dictionary.remove]
    cases hgr : d.group id with
    | none => rfl
    | some items => exact (isSome_within id items).symm
  · intro items hi
    obtain ⟨before, hb, rfl⟩ := map_eq_some_iff.mp hi
    exact (h.grouped (hash id) before hb).erase id
  · rw [search_changed hc hg, alike_eq]
    by_cases hh : hash other = hash id
    · rw [search_of_hash hh]
      cases hgr : d.group id with
      | none => simp
      | some items => simp [hh, (h.grouped (hash id) items hgr).within_erase id other]
    · simp [hh]

end Answers

theorem create_ok (caseMatters : Bool) (root : Int) {maxLevel : Nat} (hlevels : 1 ≤ maxLevel) :
    ∃ d : Dictionary α, create caseMatters root maxLevel = .ok d ∧
      d.caseMatters = caseMatters ∧ d.Sound ∧
      ∀ key, d.groups.search key = none := by
  obtain ⟨groups, hc, hl⟩ := SkipList.create_ok (α := List (Bytes × α)) root hlevels
  have hn : ∀ key, groups.search key = none := fun key => hl.search_eq_none_iff.mpr (by simp)
  refine ⟨⟨caseMatters, groups⟩, ?_, rfl, ⟨⟨[], hl⟩, fun key items hi => ?_⟩, hn⟩
  · rw [create, hc]
    rfl
  · rw [hn] at hi
    cases hi

/-- Something that is done with a dictionary. A value that is set comes with the draw that decides
how high a new group is to stand. -/
inductive DictionaryOperation (α : Type) where
  | set (id : Bytes) (value : α) (draw : Random → Nat × Random)
  | remove (id : Bytes)
  | search (id : Bytes)

namespace DictionaryOperation

/-- The dictionary after an operation; one that fails changes nothing. -/
def run (d : Dictionary α) : DictionaryOperation α → Dictionary α
  | set id value draw => (d.setBy draw id value).toOption.getD d
  | remove id => (d.remove id).2
  | search _ => d

/-- The value that was last set for a text and not removed since, where `alike` tells which texts
are taken for one. The history is told from its end. -/
def latest (alike : Bytes → Bytes → Bool) (id : Bytes) :
    (history : List (DictionaryOperation α)) → Option α
  | [] => none
  | set other value _ :: earlier => if alike id other then some value else latest alike id earlier
  | remove other :: earlier => if alike id other then none else latest alike id earlier
  | search _ :: earlier => latest alike id earlier

end DictionaryOperation

open DictionaryOperation

/-- The dictionary after a history, whose last operation comes first. -/
def after (d : Dictionary α) (history : List (DictionaryOperation α)) : Dictionary α :=
  history.foldr (fun o d => o.run d) d

theorem after_cons (d : Dictionary α) (o : DictionaryOperation α)
    (earlier : List (DictionaryOperation α)) :
    d.after (o :: earlier) = o.run (d.after earlier) := rfl

theorem run_set {draw} (h : d.setBy draw id value = .ok d') :
    (DictionaryOperation.set id value draw).run d = d' := by
  rw [DictionaryOperation.run, h]
  rfl

theorem Sound.run (h : d.Sound) (o : DictionaryOperation α) :
    (o.run d).caseMatters = d.caseMatters ∧ (o.run d).Sound := by
  cases o with
  | set id value draw =>
    obtain ⟨d', hset, hc, hs, -⟩ := h.set draw id value
    rw [run_set hset]
    exact ⟨hc, hs⟩
  | remove id =>
    obtain ⟨-, hc, hs, -⟩ := h.remove id
    exact ⟨hc, hs⟩
  | search id => exact ⟨rfl, h⟩

theorem Sound.after (h : d.Sound) (history : List (DictionaryOperation α)) :
    (d.after history).caseMatters = d.caseMatters ∧ (d.after history).Sound := by
  induction history with
  | nil => exact ⟨rfl, h⟩
  | cons o earlier ih =>
    obtain ⟨hc, hs⟩ := ih.2.run o
    exact ⟨hc.trans ih.1, hs⟩

/-- A search finds what was last set and not removed since. -/
theorem Sound.search_after (h : d.Sound) (he : ∀ key, d.groups.search key = none)
    (history : List (DictionaryOperation α)) (id : Bytes) :
    (d.after history).search id = latest (alike d.caseMatters) id history := by
  induction history with
  | nil =>
    rw [Dictionary.after, foldr_nil, search_eq, he]
    rfl
  | cons o earlier ih =>
    obtain ⟨hc, hso⟩ := h.after earlier
    cases o with
    | set other value draw =>
      obtain ⟨d', hset, -, -, hs⟩ := hso.set draw other value
      rw [after_cons, run_set hset, hs, hc, ih, latest]
    | remove other =>
      obtain ⟨-, -, -, hs⟩ := hso.remove other
      refine (hs id).trans ?_
      rw [hc, ih, latest]
    | search other => exact ih

theorem answers_after (caseMatters : Bool) (root : Int) {maxLevel : Nat} (hlevels : 1 ≤ maxLevel)
    (history : List (DictionaryOperation α)) : ∃ start : Dictionary α,
      create caseMatters root maxLevel = .ok start ∧
      (start.after history).caseMatters = caseMatters ∧
      (start.after history).Sound ∧ (∀ key, start.groups.search key = none) ∧
      (∀ id, (start.after history).search id = latest (alike caseMatters) id history) ∧
      (∀ id, ((start.after history).remove id).1 = (latest (alike caseMatters) id history).isSome ∧
        ∀ other, ((start.after history).remove id).2.search other =
          if alike caseMatters other id then none else latest (alike caseMatters) other history) ∧
      ∀ id value draw, ∃ d, (start.after history).setBy draw id value = .ok d ∧
        ∀ other, d.search other = if alike caseMatters other id then some value
          else latest (alike caseMatters) other history := by
  obtain ⟨start, hc, rfl, hst, he⟩ := create_ok (α := α) caseMatters root hlevels
  obtain ⟨hca, hso⟩ := hst.after history
  have hs := hst.search_after he history
  refine ⟨start, hc, hca, hso, he, hs, fun id => ?_, fun id value draw => ?_⟩
  · obtain ⟨hf, -, -, ho⟩ := hso.remove id
    refine ⟨hf.trans (congrArg isSome (hs id)), fun other => ?_⟩
    rw [ho, hca, hs]
  · obtain ⟨d', hset, -, -, ho⟩ := hso.set draw id value
    refine ⟨d', hset, fun other => ?_⟩
    rw [ho, hca, hs]

/-- A dictionary in which letter case matters is a finite map, whatever was done with it before and
wherever its groups were drawn to stand, also for texts that share a hash. A search finds the value
that was last set for the text and not removed since; a removal tells whether there is one, and
takes it away and no other; and every value can be set. -/
theorem answers_as_map (root : Int) {maxLevel : Nat} (hlevels : 1 ≤ maxLevel)
    (history : List (DictionaryOperation α)) :
    ∃ start : Dictionary α, create true root maxLevel = .ok start ∧
      (∀ id, (start.after history).search id = latest (· == ·) id history) ∧
      (∀ id, ((start.after history).remove id).1 = (latest (· == ·) id history).isSome ∧
        ∀ other, ((start.after history).remove id).2.search other =
          if other = id then none else latest (· == ·) other history) ∧
      ∀ id value draw, ∃ d, (start.after history).setBy draw id value = .ok d ∧
        ∀ other, d.search other =
          if other = id then some value else latest (· == ·) other history := by
  obtain ⟨start, hcreate, -, -, -, hsearch, hremove, hset⟩ :=
    answers_after true root hlevels history
  simp only [alike_true, beq_iff_eq] at hsearch hremove hset
  exact ⟨start, hcreate, hsearch, hremove, hset⟩

/-- Five levels, and two texts of which one is replaced and the other one removed. -/
theorem answers_as_map_replaced : let history : List (DictionaryOperation Nat) :=
      [.remove (ascii "b"), .set (ascii "a") 3 fun r => (1, r), .set (ascii "b") 2 fun r => (0, r),
        .set (ascii "a") 1 fun r => (4, r)]
    1 ≤ 5 ∧ ∃ start : Dictionary Nat, create true 2 5 = .ok start ∧
      (start.after history).search (ascii "a") = some 3 ∧
      (start.after history).search (ascii "b") = none ∧
      ((start.after history).remove (ascii "a")).1 = true := by
  intro history
  obtain ⟨start, hcreate, hsearch, hremove, -⟩ := answers_as_map 2 (by decide : 1 ≤ 5) history
  exact ⟨by decide, start, hcreate, hsearch _, hsearch _, (hremove _).1⟩

end TemplateKit.Dictionary
