import TemplateKit.Proofs.Container.Dictionary

/-!
# Walks through dictionaries

A walk comes by the groups in the order of their hashes, and by all items of each. A group that was
emptied stays and ends the walk, so the items with higher hashes are not come by, although a search
finds them.
-/

namespace TemplateKit.Dictionary

open List Option

open DictionaryOperation

variable {α : Type} {d : Dictionary α} {id : Bytes} {key : UInt32} {value : α}
  {items done todo rest : List (Bytes × α)} {item : Bytes × α}
  {history : List (DictionaryOperation α)}

theorem hash_pos (id : Bytes) : 0 < hash id := by
  refine UInt32.lt_of_le_of_ne (UInt32.le_iff_toNat_le.mpr (Nat.zero_le _)) fun hz => ?_
  have hf := isReserved_hash id
  rw [← hz] at hf
  cases hf

/-- The items from one on, each of them the answer to what is behind the one before, until there is
none. -/
inductive Walk (d : Dictionary α) : Option (Bytes × α) → List (Bytes × α) → Prop
  | ended : Walk d none []
  | step {item : Bytes × α} {more : List (Bytes × α)} (rest : Walk d (d.next? (some item.1)) more) :
      Walk d (some item) (item :: more)

/-- The item that a walk comes to behind a group. -/
def nextGroup (d : Dictionary α) (key : UInt32) : Option (Bytes × α) :=
  (d.groups.next? key).bind (·.value.head?)

section Group

variable (h : d.Grouped key items)

include h

theorem Grouped.within_of_mem (hmem : item ∈ items) : d.within item.1 items = some item.2 := by
  induction items with
  | nil => cases hmem
  | cons first more ih =>
    rw [within_cons]
    rcases mem_cons.mp hmem with rfl | hmem
    · rw [if_pos (d.same_self item.1)]
    · have hd := (pairwise_cons.mp h.distinct).1 item.1 (mem_map_of_mem hmem)
      rw [hd, if_neg Bool.false_ne_true, ih (h.tail rfl) hmem]

theorem Grouped.mem_iff (hc : d.caseMatters = true) :
    (id, value) ∈ items ↔ d.within id items = some value := by
  refine ⟨fun hmem => h.within_of_mem hmem, fun hf => ?_⟩
  obtain ⟨item, hfi, rfl⟩ := map_eq_some_iff.mp hf
  obtain rfl : item.1 = id := by simpa [same, hc] using find?_some hfi
  exact mem_of_find?_eq_some hfi

theorem Grouped.behind_eq (heq : items = done ++ item :: todo) :
    d.behind item.1 items = some todo.head? := by
  induction done generalizing items with
  | nil =>
    subst heq
    rw [nil_append, behind, if_pos (d.same_self item.1)]
  | cons first done ih =>
    subst heq
    have hd := (pairwise_cons.mp h.distinct).1 item.1 (by simp)
    rw [cons_append, behind, hd]
    exact ih (h.tail rfl) rfl

end Group

section Walk

variable (h : d.Sound)

include h

theorem Sound.next?_eq (hgr : d.groups.search key = some (done ++ item :: todo)) :
    d.next? (some item.1) = todo.head?.or (d.nextGroup key) := by
  have hg := h.grouped key _ hgr
  obtain rfl : hash item.1 = key := hg.hashed item.1 (by simp)
  rw [next?, group, hgr]
  dsimp only [bind_some]
  rw [hg.behind_eq rfl]
  cases todo.head? <;> rfl

/-- A walk comes by the items of a group one after the other, and then to what is behind the group.
-/
theorem Sound.walk_group (hr : d.Walk (d.nextGroup key) rest)
    (hg : d.groups.search key = some (done ++ todo)) :
    d.Walk (todo.head?.or (d.nextGroup key)) (todo ++ rest) := by
  induction todo generalizing done with
  | nil => exact hr
  | cons item todo ih =>
    refine .step ?_
    rw [h.next?_eq hg]
    have hs : d.groups.search key = some ((done ++ [item]) ++ todo) := by rw [hg, append_assoc]; rfl
    exact ih hs

/-- What has a higher hash than a key is in the group behind the key or behind that group. -/
theorem Sound.mem_group_iff {t} (hn : d.groups.next? key = some t) :
    (key < hash item.1 ∧ ∃ group, d.group item.1 = some group ∧ item ∈ group) ↔
      item ∈ t.value ∨ t.key < hash item.1 ∧ ∃ group, d.group item.1 = some group ∧
        item ∈ group := by
  obtain ⟨order, hl⟩ := h.linked
  obtain ⟨hlt, hf, hb⟩ := hl.next?_eq_some hn
  constructor
  · rintro ⟨hkey, group, hg, hi⟩
    rcases Std.lt_trichotomy (hash item.1) t.key with hle | heq | hm
    · rw [Dictionary.group, hb _ hkey hle] at hg
      cases hg
    · rw [Dictionary.group, heq, hf] at hg
      exact .inl (Option.some.inj hg ▸ hi)
    · exact .inr ⟨hm, group, hg, hi⟩
  · rintro (hi | ⟨hm, hg⟩)
    · rw [group, (h.grouped t.key t.value hf).hashed item.1 (mem_map_of_mem hi)]
      exact ⟨hlt, t.value, hf, hi⟩
    · exact ⟨UInt32.lt_trans hlt hm, hg⟩

/-- Behind a key, a walk comes by the items of all groups up to the first one that is empty. -/
theorem Sound.walk_behind (key : UInt32) :
    ∃ items, d.Walk (d.nextGroup key) items ∧
      items.Pairwise (fun a b => alike d.caseMatters a.1 b.1 = false) ∧
      ∀ item, item ∈ items ↔
        (key < hash item.1 ∧ ∃ group, d.group item.1 = some group ∧ item ∈ group) ∧
        ∀ other, key < other → other < hash item.1 → d.groups.search other ≠ some [] := by
  obtain ⟨order, hl⟩ := h.linked
  cases hn : d.groups.next? key with
  | none =>
    have hno := hl.next?_eq_none_iff.mp hn
    refine ⟨[], by rw [nextGroup, hn]; exact .ended, .nil, fun item => iff_of_false (by simp) ?_⟩
    rintro ⟨⟨hkey, group, hg, -⟩, -⟩
    rw [Dictionary.group, hno _ hkey] at hg
    cases hg
  | some t =>
    obtain ⟨hlt, hf, hbe⟩ := hl.next?_eq_some hn
    have hgr := h.grouped t.key t.value hf
    have hha : ∀ item ∈ t.value, hash item.1 = t.key := fun item hi =>
      hgr.hashed item.1 (mem_map_of_mem hi)
    by_cases hv : t.value = []
    · refine ⟨[], by rw [nextGroup, hn,
        bind_some, hv]; exact .ended, .nil, fun item => iff_of_false (by simp) ?_⟩
      rintro ⟨hg, he⟩
      rcases (h.mem_group_iff hn).mp hg with hi | ⟨hm, -⟩
      · rw [hv] at hi
        cases hi
      · exact he t.key hlt hm (hv ▸ hf)
    · obtain ⟨rest, hw, hd, hmem⟩ := Sound.walk_behind t.key
      refine ⟨t.value ++ rest, ?_, pairwise_append.mpr ⟨?_, hd, fun a ha b hb => ?_⟩,
        fun item => ?_⟩
      · obtain ⟨first, more, hc⟩ := exists_cons_of_ne_nil hv
        have hfr : d.groups.search t.key = some ([] ++ t.value) := hf
        have hg := h.walk_group hw hfr
        rw [nextGroup, hn, bind_some]
        rwa [hc] at hg ⊢
      · refine (pairwise_map.mp hgr.distinct).imp fun hs => ?_
        rw [alike_eq, hs, Bool.false_and]
      · have hle : hash a.1 < hash b.1 := hha a ha ▸ ((hmem b).mp hb).1.1
        rw [alike_eq, beq_eq_false_iff_ne.mpr (UInt32.ne_of_lt hle), Bool.and_false]
      · rw [mem_append, hmem, h.mem_group_iff hn]
        constructor
        · rintro (hi | ⟨⟨hm, hg⟩, he⟩)
          · refine ⟨.inl hi, fun other hlow hhi => ?_⟩
            simp [hbe other hlow (hha item hi ▸ hhi)]
          · refine ⟨.inr ⟨hm, hg⟩, fun other hlow hhi => ?_⟩
            rcases Std.lt_trichotomy other t.key with hle | rfl | hh
            · simp [hbe other hlow hle]
            · simp [hf, hv]
            · exact he other hh hhi
        · rintro ⟨hi | hi, he⟩
          · exact .inl hi
          · exact .inr ⟨hi, fun other hlow => he other (UInt32.lt_trans hlt hlow)⟩
termination_by 2 ^ 32 - key.toNat
decreasing_by
  have hbound := t.key.toNat_lt
  have hless := UInt32.lt_iff_toNat_lt.mp hlt
  omega

/-- What a walk comes by is found. Where letter case matters, it is all that is found, up to the
first group that is empty. -/
theorem Sound.walk_first :
    ∃ items, d.Walk (d.next? none) items ∧
      items.Pairwise (fun a b => alike d.caseMatters a.1 b.1 = false) ∧
      (∀ item ∈ items, d.search item.1 = some item.2) ∧
      (d.caseMatters = true → ∀ id value, (id, value) ∈ items ↔
        d.search id = some value ∧ ∀ key, 0 < key → key < hash id →
          d.groups.search key ≠ some []) := by
  obtain ⟨items, hw, hd, hmem⟩ := h.walk_behind 0
  refine ⟨items, hw, hd, fun item hi => ?_, fun hc id value => ?_⟩
  · obtain ⟨⟨-, group, hg, hi⟩, -⟩ := (hmem item).mp hi
    rw [search_of_hash rfl, hg]
    exact (h.grouped _ group hg).within_of_mem hi
  · rw [hmem, search_of_hash rfl, bind_eq_some_iff, and_iff_right (hash_pos id)]
    refine and_congr_left fun _ => exists_congr fun group => and_congr_right fun hg => ?_
    exact (h.grouped _ group hg).mem_iff hc

end Walk

section History

/-- A text that had a value, and whose group was emptied. -/
def Emptied (history : List (DictionaryOperation α)) (gone : Bytes) : Prop :=
  (∃ value draw, .set gone value draw ∈ history) ∧
    ∀ other, hash other = hash gone → latest (· == ·) other history = none

theorem Sound.isSome_group_run (h : d.Sound) (o : DictionaryOperation α) (key : UInt32) :
    ((o.run d).groups.search key).isSome ↔
      (∃ id value draw, .set id value draw = o ∧ hash id = key) ∨ (d.groups.search key).isSome := by
  cases o with
  | set id value draw =>
    obtain ⟨d', hset, -, -, hg⟩ := h.setBy_ok draw id value
    rw [run_set hset, hg]
    by_cases hkey : key = hash id
    · rw [if_pos hkey]
      exact iff_of_true rfl (.inl ⟨id, value, draw, rfl, hkey.symm⟩)
    · rw [if_neg hkey, iff_or_self]
      rintro ⟨_, _, _, ⟨⟩, hid⟩
      exact absurd hid.symm hkey
  | remove id =>
    rw [DictionaryOperation.run, (h.remove_spec id).2]
    by_cases hkey : key = hash id
    · rw [group, hkey]
      simp
    · rw [if_neg hkey]
      simp
  | search id => simp [DictionaryOperation.run]

theorem Sound.isSome_group_after (h : d.Sound) (he : ∀ key, d.groups.search key = none)
    (history : List (DictionaryOperation α)) (key : UInt32) :
    ((d.after history).groups.search key).isSome ↔
    ∃ id value draw, .set id value draw ∈ history ∧ hash id = key := by
  induction history with
  | nil =>
    rw [Dictionary.after, foldr_nil, he]
    simp
  | cons o earlier ih =>
    rw [after_cons, (h.after earlier).2.isSome_group_run, ih]
    simp [or_and_right, exists_or]

/-- The groups that are empty are those of texts that had a value and whose groups were emptied. -/
theorem Sound.group_eq_nil_iff (h : d.Sound) (hc : d.caseMatters = true)
    (he : ∀ key, d.groups.search key = none)
    (history : List (DictionaryOperation α)) (key : UInt32) :
    (d.after history).groups.search key = some [] ↔
    ∃ gone, Emptied history gone ∧ hash gone = key := by
  have hs := h.search_after he history
  rw [hc, alike_true] at hs
  constructor
  · intro hnil
    obtain ⟨gone, value, draw, hset, rfl⟩ :=
      (h.isSome_group_after he history key).mp (by rw [hnil]; rfl)
    refine ⟨gone, ⟨⟨value, draw, hset⟩, fun other ho => ?_⟩, rfl⟩
    rw [← hs, search_eq, ho, hnil]
    rfl
  · rintro ⟨gone, ⟨⟨value, draw, hset⟩, hn⟩, rfl⟩
    obtain ⟨items, hi⟩ := isSome_iff_exists.mp
      ((h.isSome_group_after he history (hash gone)).mpr ⟨gone, value, draw, hset, rfl⟩)
    cases items with
    | nil => exact hi
    | cons item more =>
      have hg := (h.after history).2.grouped _ _ hi
      have hh : hash item.1 = hash gone := hg.hashed item.1 (by simp)
      have hf := hg.within_of_mem mem_cons_self
      have hl := hs item.1
      rw [search_eq, hh, hi, bind_some, hf, hn item.1 hh] at hl
      cases hl

/-- A walk from the first item on comes by items that have values, by each once, and by nothing
else. It ends before the group of the first text that had a value and whose group was emptied:
exactly the items with lower hashes are come by. -/
theorem walk_until_emptied (root : Int) {maxLevel : Nat} (hlevels : 1 ≤ maxLevel)
    (history : List (DictionaryOperation α)) :
    ∃ start : Dictionary α, create true root maxLevel = .ok start ∧
      ∃ items, (start.after history).Walk ((start.after history).next? none) items ∧
        (items.map (·.1)).Nodup ∧
        ∀ id value, (id, value) ∈ items ↔ latest (· == ·) id history = some value ∧
          ∀ gone, Emptied history gone → hash id ≤ hash gone := by
  obtain ⟨start, hcreate, hcase, hstart, hempty⟩ := create_ok (α := α) true root hlevels
  obtain ⟨hcase', hsound⟩ := hstart.after history
  obtain ⟨items, hwalk, hdistinct, -, hmem⟩ := hsound.walk_first
  have hsearch := hstart.search_after hempty history
  rw [hcase'.trans hcase, alike_true] at hdistinct
  rw [hcase, alike_true] at hsearch
  refine ⟨start, hcreate, items, hwalk, pairwise_map.mpr (hdistinct.imp ne_of_beq_false),
    fun id value => ?_⟩
  rw [hmem (hcase'.trans hcase), hsearch]
  refine and_congr_right fun _ => ⟨fun hnone gone hgone => UInt32.not_lt.mp fun hlt => ?_, ?_⟩
  · exact hnone _ (hash_pos gone) hlt ((hstart.group_eq_nil_iff hcase hempty history _).mpr ⟨gone,
      hgone, rfl⟩)
  · intro hlow key _ hlt hnil
    obtain ⟨gone, hgone, rfl⟩ := (hstart.group_eq_nil_iff hcase hempty history key).mp hnil
    exact UInt32.not_lt.mpr (hlow gone hgone) hlt

/-- Two texts that were set and not removed are both come by. -/
theorem walk_until_emptied_both : let history : List (DictionaryOperation Nat) :=
      [.set (ascii "b") 2 fun r => (0, r), .set (ascii "a") 1 fun r => (3, r)]
    1 ≤ 5 ∧ ∃ start : Dictionary Nat, create true 2 5 = .ok start ∧
      ∃ items, (start.after history).Walk ((start.after history).next? none) items ∧
        (items.map (·.1)).Nodup ∧
        (ascii "a", 1) ∈ items ∧ (ascii "b", 2) ∈ items := by
  intro history
  obtain ⟨start, hcreate, items, hwalk, hnodup, hmem⟩ :=
    walk_until_emptied 2 (by decide : 1 ≤ 5) history
  have hkept : ∀ id value, latest (· == ·) id history = some value → (id, value) ∈ items := by
    refine fun id value hvalue => (hmem id value).mpr ⟨hvalue, fun gone hgone => ?_⟩
    obtain ⟨⟨_, _, hset⟩, hnone⟩ := hgone
    have hgone := hnone gone rfl
    simp only [history, mem_cons, DictionaryOperation.set.injEq, not_mem_nil, or_false] at hset
    rcases hset with ⟨rfl, -⟩ | ⟨rfl, -⟩ <;> cases hgone
  exact ⟨by decide, start, hcreate, items, hwalk, hnodup, hkept _ _ rfl, hkept _ _ rfl⟩

/-- Removing the one text that was set before another leaves an empty group, at which a walk ends at
once. -/
theorem walk_misses_present : let history : List (DictionaryOperation Nat) :=
      [.remove (ascii "a"), .set (ascii "b") 2 fun r => (0, r), .set (ascii "a") 1 fun r => (0, r)]
    latest (· == ·) (ascii "b") history = some 2 ∧
      ∀ start : Dictionary Nat, create true 2 10 = .ok start →
        (start.after history).next? none = none := by
  refine ⟨by decide +kernel, fun start hcreate => ?_⟩
  cases hcreate
  decide +kernel

/-- A dictionary that ignores letter case takes two texts for one if they are the same but for
letter case and also have the same hash, which depends on the letter case. Of texts that it takes
for one, a value that is set under any is found, replaced and removed under all others, whatever was
done before, and a walk comes by one of them only. -/
theorem answers_ignoring_case (root : Int) {maxLevel : Nat} (hlevels : 1 ≤ maxLevel)
    (history : List (DictionaryOperation α)) :
    ∃ start : Dictionary α, create false root maxLevel = .ok start ∧
      (∀ id, (start.after history).search id = latest (alike false) id history) ∧
      (∀ id, ((start.after history).remove id).1 = (latest (alike false) id history).isSome ∧
        ∀ other, ((start.after history).remove id).2.search other =
          if alike false other id then none else latest (alike false) other history) ∧
      (∀ id value draw, ∃ d, (start.after history).setBy draw id value = .ok d ∧ ∀ other,
        d.search other =
          if alike false other id then some value else latest (alike false) other history) ∧
      ∃ items, (start.after history).Walk ((start.after history).next? none) items ∧
        (∀ item ∈ items, latest (alike false) item.1 history = some item.2) ∧
        items.Pairwise fun a b => alike false a.1 b.1 = false := by
  obtain ⟨start, hcreate, hcase, hsound, -, hsearch, hremove, hset⟩ :=
    answers_after (α := α) false root hlevels history
  obtain ⟨items, hwalk, hdistinct, hfound, -⟩ := hsound.walk_first
  rw [hcase] at hdistinct
  refine ⟨start, hcreate, hsearch, hremove, hset, items, hwalk, fun item hitem => ?_, hdistinct⟩
  rw [← hsearch]
  exact hfound item hitem

/-- A value is found and removed under the text that it was set under. -/
theorem answers_ignoring_case_same :
    let history : List (DictionaryOperation Nat) := [.set (ascii "a") 1 fun r => (2, r)]
    1 ≤ 5 ∧ ∃ start : Dictionary Nat, create false 3 5 = .ok start ∧
      (start.after history).search (ascii "a") = some 1 ∧
      ((start.after history).remove (ascii "a")).1 = true := by
  intro history
  obtain ⟨start, hcreate, hsearch, hremove, -⟩ :=
    answers_ignoring_case 3 (by decide : 1 ≤ 5) history
  have hlatest : latest (alike false) (ascii "a") history = some 1 := by decide +kernel
  exact ⟨by decide, start, hcreate, (hsearch _).trans hlatest, by rw [(hremove _).1, hlatest]; rfl⟩

/-- A value that is set under a small letter is not found under the capital one, and both are come
by. -/
theorem search_misses_other_case : let history : List (DictionaryOperation Nat) :=
  [.set (ascii "a") 1 fun r => (0, r)]
    Bytes.equalsNoCase (ascii "A") (ascii "a") = true ∧
      ∀ start : Dictionary Nat, create false 2 10 = .ok start →
        (start.after history).search (ascii "A") = none ∧
        ((start.after history).remove (ascii "A")).1 = false ∧
        ((start.after (.set (ascii "A") 2 (fun r => (0, r)) :: history)).toList.map (·.1)) =
          [ascii "A", ascii "a"] := by
  refine ⟨by decide +kernel, fun start hcreate => ?_⟩
  cases hcreate
  decide +kernel

end History

end TemplateKit.Dictionary
