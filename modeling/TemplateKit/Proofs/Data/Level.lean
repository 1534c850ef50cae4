import Mathlib.Data.List.Induction
import TemplateKit.Data.Indexed
import TemplateKit.Proofs.Container.HashTable
import TemplateKit.Proofs.Data.Node

/-!
# One indexed level

What a node remembers about its children agrees with the children that it has: this is what each
change of a level keeps, and from it every way of looking up a child gives what going through all of
them gives.
-/

namespace TemplateKit.IndexedNode

open List Option HashTable Node

variable {n old new child : IndexedNode} {name : Bytes} {h : Handle}

theorem plains_eq_map (ns : List IndexedNode) : plains ns = ns.map plain := by
  induction ns with
  | nil => rfl
  | cons n ns ih => rw [plains, ih, map_cons]

/-- The plain tree only depends on what a node holds. -/
theorem plain_eq (n : IndexedNode) :
    n.plain = ⟨n.name, n.value, n.isLink, n.attributes, n.children.map plain⟩ := by
  cases n
  rw [plain, plains_eq_map]

@[simp] theorem plain_name (n : IndexedNode) : n.plain.name = n.name := by rw [plain_eq]
@[simp] theorem plain_value (n : IndexedNode) : n.plain.value = n.value := by rw [plain_eq]
@[simp] theorem plain_isLink (n : IndexedNode) : n.plain.isLink = n.isLink := by rw [plain_eq]
@[simp] theorem plain_children (n : IndexedNode) :
    n.plain.children = n.children.map plain := by rw [plain_eq]

theorem scan_some (hs : n.scan name = some child) : child ∈ n.children ∧ child.name = name := by
  refine ⟨mem_of_find?_eq_some hs, ?_⟩
  simpa using find?_some hs

theorem child?_plain (n : IndexedNode) (name : Bytes) :
    n.plain.child? name = (n.scan name).map plain := by
  have hna : (fun m : Node => m.name == name) ∘ plain = fun c => c.name == name :=
    funext fun c => by rw [Function.comp_apply, plain_name]
  rw [child?, plain_children, find?_map, hna, scan]

theorem search_found (before : Option Handle) (cs : List IndexedNode) :
    (search name before cs).found = (cs.find? (·.name == name)).map (·.handle) := by
  induction cs generalizing before with
  | nil => rfl
  | cons c cs ih =>
    rw [search, find?_cons]
    cases hc : c.name == name with
    | true => rfl
    | false => exact ih _

theorem search_before_of_none (before : Option Handle) {cs}
    (hn : (search name before cs).found = none) :
    (search name before cs).before = (cs.getLast?.map (·.handle)).or before := by
  induction cs generalizing before with
  | nil => rfl
  | cons c cs ih =>
    rw [search] at hn ⊢
    cases hc : c.name == name with
    | true => simp [hc] at hn
    | false =>
      simp only [hc, Bool.false_eq_true, if_false] at hn ⊢
      rw [ih _ hn]
      cases cs with
      | nil => rfl
      | cons d cs => simp [getLast?_cons]

theorem search_before_mem {cs} (hh : (search name none cs).before = some h) :
    h ∈ cs.map (·.handle) := by
  have hgen : ∀ before, (search name before cs).before = some h → before = some h ∨
      h ∈ cs.map (·.handle) := by
    clear hh
    induction cs with
    | nil => exact fun before hb => .inl hb
    | cons c cs ih =>
      intro before hb
      rw [search] at hb
      split at hb
      · exact .inl hb
      · rcases ih (some c.handle) hb with hc | hc
        · exact .inr (by simp [Option.some.inj hc])
        · exact .inr (mem_cons_of_mem _ hc)
  exact (hgen none hh).resolve_left nofun

/-- A table holds exactly these children. -/
structure Indexes (t : HashTable Bytes Handle) (cs : List IndexedNode) : Prop where
  sound : t.Sound
  keying : t.keying = .text
  lookup : ∀ name, t.lookup name = (cs.find? (·.name == name)).map (·.handle)

namespace Indexes

variable {t : HashTable Bytes Handle} {cs : List IndexedNode}

theorem insert (ht : Indexes t cs) (hc : ∀ d ∈ cs, d.name ≠ child.name) :
    Indexes (t.insert child.name child.handle) (cs ++ [child]) := by
  refine ⟨ht.sound.insert, by rw [insert_keying, ht.keying], fun name => ?_⟩
  rw [lookup_insert ht.sound, ht.keying, ht.lookup]
  by_cases hna : child.name = name
  · subst hna
    have hno : cs.find? (·.name == child.name) = none := by simpa using hc
    simp [Keying.text, hno]
  · simp [Keying.text, hna]

theorem remove {front back} (ht : Indexes t (front ++ child :: back))
    (hf : ∀ d ∈ front, d.name ≠ child.name) (hb : ∀ d ∈ back, d.name ≠ child.name) :
    Indexes (t.remove child.name).2 (front ++ back) := by
  refine ⟨ht.sound.remove, by rw [remove_keying, ht.keying], fun name => ?_⟩
  rw [lookup_remove ht.sound, ht.keying, ht.lookup]
  by_cases hna : child.name = name
  · subst hna
    have hfr : front.find? (·.name == child.name) = none := by simpa using hf
    have hba : back.find? (·.name == child.name) = none := by simpa using hb
    simp [Keying.text, hfr, hba]
  · simp [Keying.text, beq_eq_false_iff_ne.mpr hna]

theorem perm {ds} (ht : Indexes t cs) (hd : (cs.map (·.name)).Nodup) (hp : ds.Perm cs) :
    Indexes t ds := by
  refine ⟨ht.sound, ht.keying, fun name => ?_⟩
  rw [ht.lookup, find?_perm_of_nodup hd hp]

theorem tableOf (hd : (cs.map (·.name)).Nodup) : Indexes (tableOf cs) cs := by
  induction cs using List.reverseRecOn with
  | nil => exact ⟨sound_empty (Keying.lawful_of_eq fun _ _ => beq_iff_eq), rfl, lookup_empty⟩
  | append_singleton cs c ih =>
    rw [map_append, nodup_append] at hd
    rw [IndexedNode.tableOf, foldl_append]
    refine (ih hd.1).insert fun d hdc hna => ?_
    exact hd.2.2 d.name (mem_map_of_mem hdc) c.name (by simp) hna

end Indexes

/-- What a node remembers about its children is true of them. -/
structure LevelSound (n : IndexedNode) : Prop where
  distinct : (n.children.map (·.name)).Nodup
  proper : ∀ c ∈ n.children, c.name ≠ [] ∧ dot ∉ c.name
  handles : (n.children.map (·.handle)).Nodup
  handles_lt : ∀ c ∈ n.children, c.handle < n.index.next
  last : ∀ c, n.children.getLast? = some c → n.index.last = some c.handle
  recent : ∀ h, n.index.recent = some h → h ∈ n.children.map (·.handle)
  beforeRecent : ∀ h, n.index.beforeRecent = some h → h ∈ n.children.map (·.handle)
  table : ∀ t, n.index.table = some t → Indexes t n.children

namespace LevelSound

theorem fresh (h : Handle) (name : Bytes) : (IndexedNode.fresh h name).LevelSound := by
  constructor <;> simp [IndexedNode.fresh, LevelIndex.empty]

section

variable (hn : n.LevelSound)

include hn

theorem deref (hc : child ∈ n.children) : n.deref child.handle = some child :=
  find?_of_nodup hn.handles hc

theorem scan_of_mem (hc : child ∈ n.children) : n.scan child.name = some child :=
  find?_of_nodup hn.distinct hc

theorem lookup_eq (name : Bytes) : n.lookup name = (n.scan name).map (·.handle) := by
  rw [lookup]
  split
  · next t ht => exact (hn.table t ht).lookup name
  · exact search_found none n.children

theorem deref_scan (name : Bytes) : ((n.scan name).map (·.handle)).bind n.deref = n.scan name := by
  cases hs : n.scan name with
  | none => rfl
  | some child => exact hn.deref (scan_some hs).1

theorem seek_found (name : Bytes) : (n.seek name).found = (n.scan name).map (·.handle) := by
  rw [← hn.lookup_eq, lookup, seek]
  split <;> rfl

/-- What is remembered is only used if a scan finds the same. -/
theorem remembered?_some (hr : n.remembered? name = some h) :
    (n.scan name).map (·.handle) = some h := by
  simp only [remembered?] at hr
  cases hh : n.index.recent with
  | none => simp [hh] at hr
  | some recent =>
    simp only [hh, ite_none_right_eq_some, Bool.and_eq_true, Option.some.injEq] at hr
    obtain ⟨⟨-, hna⟩, rfl⟩ := hr
    obtain ⟨c, hc, hch⟩ := mem_map.mp (hn.recent recent hh)
    rw [← hch, hn.deref hc] at hna
    have hcn : c.name = name := by simpa using hna
    rw [← hcn, hn.scan_of_mem hc, map_some, hch]

theorem seek_before_mem (hne : n.children ≠ []) (hh : (n.seek name).before = some h) :
    h ∈ n.children.map (·.handle) := by
  rw [seek] at hh
  split at hh
  · have hl := hn.last _ (getLast?_eq_some_getLast hne)
    rw [hl, Option.some.injEq] at hh
    rw [← hh]
    exact mem_map_of_mem (getLast_mem hne)
  · exact search_before_mem hh

/-- An assignment to a child that is there finds it, and only what is remembered changes. -/
theorem lookupToSet_some (hs : n.scan name = some child) :
    ∃ before index, n.lookupToSet name = (⟨some child.handle, before⟩, { n with index }) ∧
      LevelSound { n with index } := by
  have hc := (scan_some hs).1
  have hf : (n.seek name).found = some child.handle := by rw [hn.seek_found, hs, map_some]
  cases hr : n.remembered? name with
  | some h =>
    have hh := hn.remembered?_some hr
    rw [hs, map_some] at hh
    exact ⟨none, n.index, by cases n; simp [lookupToSet, hr, hh], by cases n; exact hn⟩
  | none =>
    refine ⟨(n.seek name).before,
      { n.index with recent := some child.handle, beforeRecent := (n.seek name).before }, ?_, ?_⟩
    · cases hk : n.seek name with
      | mk found before =>
        obtain rfl : found = some child.handle := by rw [hk] at hf; exact hf
        simp [lookupToSet, hr, hk]
    · refine ⟨hn.distinct, hn.proper, hn.handles, hn.handles_lt, hn.last, fun h hh => ?_,
        fun h hh => ?_, hn.table⟩
      · obtain rfl : child.handle = h := by simpa using hh
        exact mem_map_of_mem hc
      · exact hn.seek_before_mem (ne_nil_of_mem hc) hh

end

theorem upTo_last {cs} (hd : (cs.map (·.handle)).Nodup) {c} (hc : cs.getLast? = some c) :
    upTo c.handle cs = cs := by
  induction cs with
  | nil => rfl
  | cons d cs ih =>
    rw [map_cons, nodup_cons] at hd
    cases cs with
    | nil => simp [upTo]
    | cons e cs =>
      have hne : d.handle ≠ c.handle := fun heq =>
        hd.1 (heq ▸ mem_map_of_mem (mem_of_getLast? hc))
      rw [upTo, if_neg (by simpa using hne), ih hd.2 hc]

section

variable (hn : n.LevelSound)

include hn

/-- An assignment to a child that is not there leaves the level alone, and finds the place behind
the last child. -/
theorem lookupToSet_none (hs : n.scan name = none) :
    ∃ before, n.lookupToSet name = (⟨none, before⟩, n) ∧
      ∀ child, (n.attach before child).children = n.children ++ [child] := by
  have hf : (n.seek name).found = none := by rw [hn.seek_found, hs, map_none]
  have hr : n.remembered? name = none := by
    cases hr : n.remembered? name with
    | none => rfl
    | some h => simpa [hs] using hn.remembered?_some hr
  refine ⟨(n.seek name).before, ?_, fun child => ?_⟩
  · cases hk : n.seek name with
    | mk found before =>
      obtain rfl : found = none := by rw [hk] at hf; exact hf
      simp [lookupToSet, hr, hk]
  · cases hl : n.children.getLast? with
    | none =>
      have hnil : n.children = [] := getLast?_eq_none_iff.mp hl
      simp only [attach, hnil]
      split <;> rfl
    | some c =>
      have hb : (n.seek name).before = some c.handle := by
        rw [seek] at hf ⊢
        split
        · exact hn.last c hl
        · next hno =>
          simp only [hno] at hf
          rw [search_before_of_none none hf, hl, map_some, some_or]
      simp only [attach, hb, upTo_last hn.handles hl]

theorem lookupToSet_found (name : Bytes) :
    (n.lookupToSet name).1.found = (n.scan name).map (·.handle) := by
  cases hs : n.scan name with
  | none =>
    obtain ⟨before, hl, -⟩ := hn.lookupToSet_none hs
    rw [hl, map_none]
  | some child =>
    obtain ⟨before, index, hl, -⟩ := hn.lookupToSet_some hs
    rw [hl, map_some]

/-- Adding a child behind the last one keeps all that is remembered. -/
theorem attach {before} (hch : (n.attach before child).children = n.children ++ [child])
    (hs : n.scan child.name = none) (hp : child.name ≠ [] ∧ dot ∉ child.name)
    (hha : child.handle = n.index.next) : (n.attach before child).LevelSound := by
  have hna : ∀ d ∈ n.children, d.name ≠ child.name := by simpa [scan] using hs
  have hdi : ((n.children ++ [child]).map (·.name)).Nodup := by
    rw [map_append, nodup_append]
    refine ⟨hn.distinct, by simp, ?_⟩
    intro a ha b hb
    obtain ⟨d, hd, rfl⟩ := mem_map.mp ha
    obtain rfl : b = child.name := by simpa using hb
    exact hna d hd
  refine ⟨by rwa [hch], ?_, ?_, ?_, ?_, ?_, ?_, ?_⟩ <;> rw [hch]
  · intro c hc
    rcases mem_append.mp hc with hc | hc
    · exact hn.proper c hc
    · rwa [mem_singleton.mp hc]
  · rw [map_append, nodup_append]
    refine ⟨hn.handles, by simp, ?_⟩
    intro a ha b hb
    obtain ⟨d, hd, rfl⟩ := mem_map.mp ha
    obtain rfl : b = child.handle := by simpa using hb
    rw [hha]
    exact Nat.ne_of_lt (hn.handles_lt d hd)
  · intro c hc
    rcases mem_append.mp hc with hc | hc
    · exact Nat.lt_succ_of_lt (hn.handles_lt c hc)
    · rw [mem_singleton.mp hc, hha]
      exact Nat.lt_succ_self _
  · intro c hc
    obtain rfl : child = c := by simpa using hc
    rfl
  · intro h hh
    rw [map_append]
    exact mem_append_left _ (hn.recent h hh)
  · intro h hh
    rw [map_append]
    exact mem_append_left _ (hn.beforeRecent h hh)
  · intro t ht
    simp only [IndexedNode.attach] at hch ht
    rw [hch] at ht
    cases hta : n.index.table with
    | some old =>
      simp only [hta, Option.some.injEq] at ht
      rw [← ht]
      exact (hn.table old hta).insert hna
    | none =>
      simp only [hta, ite_none_right_eq_some, Option.some.injEq] at ht
      rw [← ht.2]
      exact Indexes.tableOf hdi

theorem split (hs : n.scan name = some child) :
    ∃ front back, n.children = front ++ child :: back ∧ child.name = name ∧
      (∀ d ∈ front, d.name ≠ name ∧ d.handle ≠ child.handle) ∧
      (∀ d ∈ back, d.name ≠ name ∧ d.handle ≠ child.handle) := by
  obtain ⟨-, front, back, hsp, -⟩ := find?_eq_some_iff_append.mp hs
  obtain ⟨-, hnam⟩ := scan_some hs
  have hna := hn.distinct
  have hh := hn.handles
  rw [hsp, map_append, map_cons, nodup_append, nodup_cons] at hna hh
  refine ⟨front, back, hsp, hnam, fun d hd => ⟨?_, ?_⟩, fun d hd => ⟨?_, ?_⟩⟩
  · exact hnam ▸ hna.2.2 d.name (mem_map_of_mem hd) child.name (by simp)
  · exact hh.2.2 d.handle (mem_map_of_mem hd) child.handle (by simp)
  · exact fun heq => hna.2.1.1 (hnam ▸ heq ▸ mem_map_of_mem hd)
  · exact fun heq => hh.2.1.1 (heq ▸ mem_map_of_mem hd)

theorem ofKeys {m : IndexedNode} (hi : m.index = n.index)
    (hk : m.children.map (fun c => (c.name, c.handle)) =
      n.children.map fun c => (c.name, c.handle)) :
    m.LevelSound := by
  have hna : m.children.map (·.name) = n.children.map (·.name) := by
    simpa [Function.comp_def] using congrArg (List.map Prod.fst) hk
  have hh : m.children.map (·.handle) = n.children.map (·.handle) := by
    simpa [Function.comp_def] using congrArg (List.map Prod.snd) hk
  have hmem : ∀ c ∈ m.children, ∃ d ∈ n.children, d.name = c.name ∧ d.handle = c.handle := by
    intro c hc
    have hc' : (c.name, c.handle) ∈ n.children.map fun c => (c.name, c.handle) :=
      hk ▸ mem_map_of_mem hc
    simpa using hc'
  refine ⟨hna ▸ hn.distinct, ?_, hh ▸ hn.handles, ?_, ?_, ?_, ?_, ?_⟩
  · intro c hc
    obtain ⟨d, hd, hnam, -⟩ := hmem c hc
    exact hnam ▸ hn.proper d hd
  · intro c hc
    obtain ⟨d, hd, -, hha⟩ := hmem c hc
    exact hi ▸ hha ▸ hn.handles_lt d hd
  · intro c hc
    have hla : (n.children.map (·.handle)).getLast? = some c.handle := by
      rw [← hh, getLast?_map, hc, map_some]
    rw [getLast?_map] at hla
    obtain ⟨d, hd, hdc⟩ := map_eq_some_iff.mp hla
    rw [hi, ← hdc]
    exact hn.last d hd
  · rw [hi, hh]
    exact hn.recent
  · rw [hi, hh]
    exact hn.beforeRecent
  · rw [hi]
    intro t ht
    obtain ⟨hs, hke, hl⟩ := hn.table t ht
    refine ⟨hs, hke, fun name => ?_⟩
    have hf : ∀ cs : List IndexedNode, (cs.find? (·.name == name)).map (·.handle) =
        ((cs.map fun c => (c.name, c.handle)).find? (·.1 == name)).map (·.2) := by
      simp [Function.comp_def]
    rw [hl, hf, hf, hk]

end

end LevelSound

theorem update_go_append {front back} (hf : ∀ d ∈ front, d.handle ≠ h)
    (hc : child.handle = h) : update.go h new (front ++ child :: back) = front ++ new :: back := by
  induction front with
  | nil => simp [update.go, hc]
  | cons d front ih =>
    simp only [cons_append, update.go, beq_iff_eq, hf d mem_cons_self, if_false]
    rw [ih fun e he => hf e (mem_cons_of_mem d he)]

namespace LevelSound

theorem update (hn : n.LevelSound) (hs : n.scan name = some child) (hna : new.name = child.name)
    (hh : new.handle = child.handle) : (n.update child.handle new).LevelSound := by
  obtain ⟨front, back, hsp, -, hf, -⟩ := hn.split hs
  refine hn.ofKeys rfl ?_
  simp only [IndexedNode.update]
  rw [hsp, update_go_append (fun d hd => (hf d hd).2) rfl]
  simp [hna, hh]

theorem plain_update (hn : n.LevelSound) (hs : n.scan name = some child) (new : IndexedNode) :
    (n.update child.handle new).plain = n.plain.modifyChild name fun _ => new.plain := by
  obtain ⟨front, back, hsp, hna, hf, -⟩ := hn.split hs
  have hp : ∀ d ∈ front.map plain, d.name ≠ name := by simpa using fun d hd => (hf d hd).1
  rw [plain_eq, plain_eq n]
  simp only [IndexedNode.update, modifyChild]
  rw [hsp, update_go_append (fun d hd => (hf d hd).2) rfl, map_append, map_cons,
    map_append, map_cons, modifyChild_go_append hp (by simpa using hna)]

theorem plain_attach {before} (hc : (n.attach before child).children = n.children ++ [child]) :
    (n.attach before child).plain = n.plain.append child.plain := by
  rw [plain_eq, plain_eq n, hc, map_append]
  rfl

end LevelSound

theorem search_append {front} (hf : ∀ d ∈ front, d.name ≠ name)
    (hc : child.name = name) (back : List IndexedNode) (before : Option Handle) :
    search name before (front ++ child :: back) =
    ⟨some child.handle, (front.getLast?.map (·.handle)).or before⟩ := by
  induction front generalizing before with
  | nil => simp [search, hc]
  | cons d front ih =>
    rw [cons_append, search, if_neg (by simpa using hf d mem_cons_self),
      ih fun e he => hf e (mem_cons_of_mem d he)]
    cases front with
    | nil => rfl
    | cons e front => simp [getLast?_cons]

theorem detach_of_none (hs : n.scan name = none) : n.detach name = n := by
  have hf : (search name none n.children).found = none := by
    rw [search_found none n.children]
    exact congrArg (Option.map (·.handle)) hs
  simp [detach, hf]

namespace LevelSound

/-- The children that removal leaves, and the one that it takes for the last. -/
theorem detach_of_some (hn : n.LevelSound) (hs : n.scan name = some child) :
    ∃ front back, n.children = front ++ child :: back ∧ child.name = name ∧
      (∀ d ∈ front, d.name ≠ name) ∧ (∀ d ∈ back, d.name ≠ name) ∧ n.detach name = { n with
        children := front ++ back
        index := { n.index with
          last := if front.getLast?.isSome && n.index.last == some child.handle then
            front.getLast?.map (·.handle)
            else n.index.last
          recent := none
          beforeRecent := none
          table := n.index.table.map fun table => (table.remove name).2 } } := by
  obtain ⟨front, back, hsp, hna, hf, hb⟩ := hn.split hs
  refine ⟨front, back, hsp, hna, fun d hd => (hf d hd).1, fun d hd => (hb d hd).1, ?_⟩
  have hse := search_append (fun d hd => (hf d hd).1) hna back none
  have he : n.children.eraseP (·.handle == child.handle) = front ++ back := by
    rw [hsp, eraseP_append_right _ (by simpa using fun d hd => (hf d hd).2)]
    simp
  simp only [IndexedNode.detach]
  rw [hsp] at he ⊢
  simp [hse, he]

theorem detach (hn : n.LevelSound) (name : Bytes) : (n.detach name).LevelSound := by
  cases hs : n.scan name with
  | none => exact (detach_of_none hs).symm ▸ hn
  | some child =>
    obtain ⟨front, back, hsp, hna, hf, hb, heq⟩ := hn.detach_of_some hs
    have hsub : List.Sublist (front ++ back) n.children := by
      rw [hsp]
      exact (List.Sublist.refl front).append (sublist_cons_self child back)
    rw [heq]
    refine ⟨hn.distinct.sublist (hsub.map _), fun c hc => hn.proper c (hsub.subset hc),
      hn.handles.sublist (hsub.map _), fun c hc => hn.handles_lt c (hsub.subset hc), ?_,
      nofun, nofun, ?_⟩
    · intro c hc
      have hl := hn.last
      rw [hsp] at hl
      cases back with
      | nil =>
        -- the last child itself was removed
        rw [append_nil] at hc
        simp [hl child (by simp), hc]
      | cons d back =>
        have hc' : (front ++ child :: d :: back).getLast? = some c := by simpa using hc
        have hmem : c ∈ d :: back := mem_of_getLast? (by
          simpa using hc)
        have hne : c.handle ≠ child.handle := by
          have hh := hn.handles
          rw [hsp, map_append, nodup_append, map_cons, nodup_cons] at hh
          exact fun heq => hh.2.1.1 (heq ▸ mem_map_of_mem hmem)
        simp [hl c hc', hne]
    · intro t ht
      obtain ⟨old, hold, rfl⟩ := map_eq_some_iff.mp ht
      have hi := hn.table old hold
      rw [hsp] at hi
      subst hna
      exact hi.remove hf hb

theorem plain_detach (hn : n.LevelSound) (name : Bytes) :
    (n.detach name).plain = n.plain.eraseChild name := by
  cases hs : n.scan name with
  | none =>
    have hne : ∀ d ∈ n.plain.children, ¬(d.name == name) = true := by simpa [scan] using hs
    rw [detach_of_none hs, eraseChild, eraseP_of_forall_not hne]
    exact (eta n.plain).symm
  | some child =>
    obtain ⟨front, back, hsp, hna, hf, -, heq⟩ := hn.detach_of_some hs
    have hp : ∀ d ∈ front.map plain, ¬(d.name == name) = true := by simpa using hf
    rw [heq, plain_eq, plain_eq n]
    simp only [eraseChild, hsp, map_append]
    rw [eraseP_append_right _ hp]
    simp [hna]

end LevelSound

def sorted (le : Node → Node → Bool) (n : IndexedNode) : IndexedNode :=
  if n.children.isEmpty then n
  else
    let children := n.children.mergeSort fun a b => le a.plain b.plain
    { n with children, index := { n.index with last := children.getLast?.map (·.handle) } }

namespace LevelSound

theorem sorted (hn : n.LevelSound) (le : Node → Node → Bool) : (n.sorted le).LevelSound := by
  rw [IndexedNode.sorted]
  split
  · exact hn
  · have hp := mergeSort_perm n.children fun a b => le a.plain b.plain
    refine ⟨(hp.map _).nodup_iff.mpr hn.distinct, fun c hc => hn.proper c (hp.mem_iff.mp hc),
      (hp.map _).nodup_iff.mpr hn.handles, fun c hc => hn.handles_lt c (hp.mem_iff.mp hc),
        ?_, ?_, ?_, ?_⟩
    · intro c hc
      simp only at hc ⊢
      rw [hc, map_some]
    · exact fun h hh => (hp.map _).mem_iff.mpr (hn.recent h hh)
    · exact fun h hh => (hp.map _).mem_iff.mpr (hn.beforeRecent h hh)
    · exact fun t ht => (hn.table t ht).perm hn.distinct hp

theorem plain_sorted (le : Node → Node → Bool) : (n.sorted le).plain = n.plain.sorted le := by
  rw [IndexedNode.sorted, plain_eq n]
  split
  · next he => simp [plain_eq n, Node.sorted, List.isEmpty_iff.mp he]
  · rw [plain_eq]
    exact congrArg (Node.mk _ _ _ _) (map_mergeSort fun _ _ _ _ => rfl)

end LevelSound

end TemplateKit.IndexedNode
