import TemplateKit.Proofs.Data.Edit
import TemplateKit.Proofs.Data.Outside

/-!
# A data tree is an ordered map from names to values

Without links, and with names that have no empty component, an edit of a tree is an edit of the map
that takes each name to its value. New children stand behind their siblings, and sorting only
rearranges one level.
-/

namespace TemplateKit

open Node DataTree Option

/-- An edit of a tree without links. -/
inductive PathEdit where
  | set (name : DottedName) (value : Option Bytes)
  | ensure (name : DottedName)
  | remove (name : DottedName)
  | sort (start : Address) (le : Node → Node → Node → Bool)

namespace PathEdit

def toEdit : PathEdit → Edit
  | set name value => .assign [] name.text { value }
  | ensure name => .ensure [] name.text
  | remove name => .remove [] name.text
  | sort start le => .sort start le

/-- What an edit makes of what can be seen at each address. -/
def onLooks (seen : Address → Option (Option Bytes)) : PathEdit → Address → Option (Option Bytes)
  | set name value => fun q => if q = name.path then some value else reach name.path seen q
  | ensure name => reach name.path seen
  | remove name => fun q => if name.path <+: q then none else seen q
  | sort _ _ => seen

end PathEdit

namespace DataTree

variable {τ : Type} [DataTree τ]

def editPaths (root : τ) (edits : List PathEdit) : τ := (edits.map PathEdit.toEdit).foldl edit root

def afterPaths (history : List PathEdit) : τ := editPaths empty history

end DataTree

namespace Node

variable {n : Node}

theorem assignAt_of_linkFree (h : n.LinkFree) (p : DottedName) (a : Assignment) :
    n.assignAt [] p.text a = (place a p.path n, .ok p.path) :=
  p.components_text ▸ assignAt_accepted h rfl (p.components_text ▸ p.nil_not_mem) a

theorem ensureAt_of_linkFree (h : n.LinkFree) (p : DottedName) :
    n.ensureAt [] p.text = (ensured p.path n, .ok p.path) :=
  p.components_text ▸ ensureAt_of_clear rfl (h.clear _) (p.components_text ▸ p.nil_not_mem)

theorem value?_ensured (h : n.PlainTree) (path : Address) (q : Bytes) :
    (ensured path n).value? q = n.value? q := by
  rw [value?_of_linkFree (h.ensured path).linkFree, value?_of_linkFree h.linkFree,
    look_ensured, join_reach]

theorem value?_removeAt (h : n.PlainTree) (p : DottedName) (q : Bytes) :
    (n.removeAt [] p.text).value? q = if p.Covers q then none else n.value? q := by
  change (remove p.path n).value? q = _
  rw [value?_of_linkFree (h.remove p.path).linkFree, value?_of_linkFree h.linkFree,
    look_remove h p.path_ne_nil]
  simp only [p.covers_iff]
  split <;> rfl

/-- An edit of a plain tree gives a plain tree, and what can be seen there is what the edit makes of
it. -/
theorem edit_toEdit (h : n.PlainTree) (e : PathEdit) :
    (edit n e.toEdit).PlainTree ∧ (edit n e.toEdit).look = e.onLooks n.look := by
  cases e with
  | set p value =>
    change (n.assignAt [] p.text { value }).1.PlainTree ∧
      (n.assignAt [] p.text { value }).1.look = _
    rw [assignAt_of_linkFree h.linkFree]
    exact ⟨h.place rfl p.path, funext fun q => look_place p.path q⟩
  | ensure p =>
    change (n.ensureAt [] p.text).1.PlainTree ∧ (n.ensureAt [] p.text).1.look = _
    rw [ensureAt_of_linkFree h.linkFree]
    exact ⟨h.ensured p.path, look_ensured p.path⟩
  | remove p => exact ⟨h.remove p.path, funext fun q => look_remove h p.path_ne_nil q⟩
  | sort start le => exact ⟨h.sortWith start (le n), funext fun q => look_sortWith h start (le n) q⟩

/-- What later edits make of a tree depends only on what can be seen in it. -/
theorem look_editPaths (h : n.PlainTree) (later : List PathEdit) : (editPaths n later).PlainTree ∧
      (editPaths n later).look = later.foldl PathEdit.onLooks n.look := by
  induction later generalizing n with
  | nil => exact ⟨h, rfl⟩
  | cons e later ih =>
    obtain ⟨hp, hl⟩ := edit_toEdit h e
    rw [List.foldl_cons, ← hl]
    exact ih hp

end Node

namespace IndexedNode

variable {s : IndexedNode}

theorem value?_eq (h : s.Sound) (q : Bytes) : s.value? q = s.plain.value? q :=
  (valueAt?_plain h [] q).symm

/-- What a name leads to: where it is, and its value if it has one. -/
def answer (root : IndexedNode) (name : Bytes) : Option (Address × Option Bytes) :=
  (root.locate? [] name).map fun there => (there.address, there.node.value)

theorem answer_eq (hs : s.Sound) (h : s.plain.LinkFree) (q : Bytes) :
    s.answer q = (s.plain.look (components q)).map (components q, ·) := by
  have hsa : s.answer q = (s.plain.locate? [] q).map fun there =>
    (there.address, there.node.value) := by
    rw [(locate?_finds hs [] q).plain, map_map]
    exact map_congr fun there _ => by simp [Located.plain]
  rw [hsa, locate?_of_linkFree h, look, map_map, map_map]
  rfl

theorem answer_editPaths (hs : s.Sound) (h : s.plain.PlainTree) (later : List PathEdit)
    (q : Bytes) :
    (editPaths s later).answer q =
      (later.foldl PathEdit.onLooks s.plain.look (components q)).map (components q, ·) := by
  obtain ⟨hso, heq⟩ := edits_refine hs (later.map PathEdit.toEdit)
  obtain ⟨hp, hl⟩ := look_editPaths h later
  rw [editPaths] at hp hl ⊢
  rw [answer_eq hso (heq ▸ hp.linkFree), heq, hl]

/-- What an operation answers and makes of the values can be read off the plain tree. -/
theorem Refines.values {α : Type} {r : IndexedNode × α} {m : Node} {x : α} (h : Refines r (m, x)) :
    ∃ s', r = (s', x) ∧ s'.plain = m ∧ ∀ q, s'.value? q = m.value? q :=
  ⟨r.1, Prod.ext rfl h.answer, h.plain, fun q => by rw [value?_eq h.sound, h.plain]⟩

section Step

variable (hs : s.Sound) (h : s.plain.PlainTree)
include hs h

theorem assignAt_values (p : DottedName) (value : Option Bytes) :
    ∃ s', s.assignAt [] p.text { value } = (s', .ok p.path) ∧
      (∀ q, s'.value? q = if q = p.text then value else s.value? q) ∧
      s.plain.KeepsOrder s'.plain := by
  have hset := assignAt_refines hs [] p.text { value }
  rw [assignAt_of_linkFree h.linkFree] at hset
  obtain ⟨s', heq, hs', hva⟩ := hset.values
  refine ⟨s', heq, fun q => ?_, hs' ▸ keepsOrder_graft (keepsShape_assign _) p.path⟩
  have hv := value?_set h.linkFree (p.components_text ▸ p.nil_not_mem) value q
  rw [Node.set, Node.assignAt_of_linkFree h.linkFree] at hv
  rw [hva, hv, value?_eq hs]

theorem ensureAt_values (p : DottedName) :
    ∃ s', s.ensureAt [] p.text = (s', .ok p.path) ∧ (∀ q, s'.value? q = s.value? q) ∧
      s.plain.KeepsOrder s'.plain := by
  have he := ensureAt_refines hs [] p.text
  rw [ensureAt_of_linkFree h.linkFree] at he
  obtain ⟨s', heq, hs', hv⟩ := he.values
  refine ⟨s', heq, fun q => ?_, hs' ▸ keepsOrder_graft keepsShape_id p.path⟩
  rw [hv, value?_ensured h, value?_eq hs]

theorem removeAt_values (p : DottedName) (q : Bytes) :
    (s.removeAt [] p.text).value? q = if p.Covers q then none else s.value? q := by
  obtain ⟨hso, heq⟩ := removeAt_refines hs [] p.text
  rw [value?_eq hso, heq, value?_removeAt h, value?_eq hs]

/-- Sorting does not show in what later edits make of the tree. -/
theorem sortWith_answers (start : Address) (le : Node → Node → Bool) (later : List PathEdit)
    (q : Bytes) :
    (editPaths (s.sortWith start le) later).answer q = (editPaths s later).answer q := by
  obtain ⟨hso, heq⟩ := sortWith_refines hs start le
  have hl : (s.sortWith start le).plain.look = s.plain.look := by
    rw [heq]
    exact funext (look_sortWith h start le)
  rw [answer_editPaths hso (heq ▸ h.sortWith start le), answer_editPaths hs h, hl]

end Step

/-- After every history, setting a name gives it its value and no other name another one, removing a
name takes the values of it and of what is below it, new nodes stand behind their siblings, and
sorting rearranges one level and changes nothing that a name leads to, then or later. -/
theorem ordered_path_map (history : List PathEdit) (p : DottedName) :
    let s : IndexedNode := afterPaths history
    (∀ value, ∃ s', s.assignAt [] p.text { value } = (s', .ok p.path) ∧
      (∀ q, s'.value? q = if q = p.text then value else s.value? q) ∧ s.plain.KeepsOrder s'.plain) ∧
    (∃ s', s.ensureAt [] p.text = (s', .ok p.path) ∧ (∀ q, s'.value? q = s.value? q) ∧
      s.plain.KeepsOrder s'.plain) ∧
    (∀ q, (s.removeAt [] p.text).value? q = if p.Covers q then none else s.value? q) ∧
    (∀ start le, Node.Reordered start s.plain (s.sortWith start le).plain ∧
      ∀ later q, (editPaths (s.sortWith start le) later).answer q = (editPaths s later).answer q) ∧
    s.plain = afterPaths history ∧
    ∀ q, s.value? q = (afterPaths history : Node).value? q := by
  intro s
  obtain ⟨hs, hplain⟩ : s.Sound ∧ s.plain = afterPaths history := edits_refine (.fresh 0 []) _
  have h : s.plain.PlainTree := hplain ▸ (look_editPaths (Node.plainTree_empty []) history).1
  refine ⟨assignAt_values hs h p, ensureAt_values hs h p, removeAt_values hs h p,
    fun start le => ?_, hplain, fun q => ?_⟩
  · rw [(sortWith_refines hs start le).2]
    exact ⟨reordered_sortWith h start le, sortWith_answers hs h start le⟩
  · rw [value?_eq hs, hplain]

end IndexedNode

end TemplateKit

/-!
At an empty component of its name, and only there, an assignment fails. It may have made nodes on
the way by then. These hold nothing: no name has another value than before, and all that was there
is still found.
-/

namespace TemplateKit.Node

open List Option

/-- `m` is `n` with nodes added that hold nothing, behind those that were there. -/
structure Padded (n m : Node) : Prop where
  kept : ∀ q old, n.get? q = some old → ∃ new, m.get? q = some new ∧ new.own = old.own ∧
    old.children.map (·.name) <+: new.children.map (·.name)
  added : ∀ q new, n.get? q = none → m.get? q = some new → new.own = (none, false, [])

theorem own_ensured (path q : Address) (n : Node) : ((ensured path n).get? q).map own =
    if q <+: path then some (n.reached q).own else (n.get? q).map own := by
  have hown : ∀ k l : Node, k.value = l.value → k.isLink = l.isLink → k.attributes = l.attributes →
      k.own = l.own := by
    intro k l hv hl ha
    rw [own, own, hv, hl, ha]
  rw [ensured, seen_graft keepsShape_id hown]
  by_cases hq : q = path <;> simp [hq]

theorem padded_ensured (path : Address) (n : Node) : Padded n (ensured path n) where
  kept := by
    intro q old hold
    obtain ⟨new, hnew, hn⟩ := keepsOrder_graft keepsShape_id path q old hold
    have hown := own_ensured path q n
    rw [ensured, hnew, hold, reached_of_get? hold, map_some, map_some, ite_self] at hown
    exact ⟨new, hnew, Option.some.inj hown, hn⟩
  added := by
    intro q new hno hnew
    obtain ⟨c, hc⟩ := reached_of_none hno
    have hown := own_ensured path q n
    rw [hnew, hno, hc] at hown
    split at hown
    · exact Option.some.inj hown
    · cases hown

theorem assignAt_fails_iff {n m : Node} {start : Address} (h : n.LinkFree)
    (hm : n.get? start = some m) (name : Bytes)
    (a : Assignment) : (∃ e, (n.assignAt start name a).2 = .error e) ↔ [] ∈ components name := by
  refine ⟨fun ⟨e, he⟩ => ?_, fun hn => ⟨_, assignAt_refused h hm hn⟩⟩
  by_contra hn
  rw [assignAt_accepted h hm hn] at he
  cases he

/-- Setting a name from some node of a tree without links. It fails at an empty component and only
there. Afterwards all names have the values that they had, from every node each name leads to the
node that it led to, and a tree with an index can be edited further as the plain one can. -/
theorem failed_set_loses_nothing (n : Node) (h : n.LinkFree) (start : Address) (m : Node)
    (hm : n.get? start = some m) (name : Bytes) (v : Option Bytes) :
    ((∃ e, (n.assignAt start name { value := v }).2 = .error e) ↔
      name ≠ [] ∧ [] ∈ name.splitByte dot) ∧
      ∀ k e, n.assignAt start name { value := v } = (k, .error e) →
        Padded n k ∧ k.LinkFree ∧ (∀ q, k.value? q = n.value? q) ∧
        (∀ a q there, n.locate? a q = some there →
          ∃ now, k.locate? a q = some ⟨there.address, now⟩ ∧ now.own = there.node.own) ∧
        ∀ s : IndexedNode, s.Sound → s.plain = n →
          ∃ t, s.assignAt start name { value := v } = (t, .error e) ∧
          (∀ q, t.value? q = s.value? q) ∧ ∀ (later : List Edit) (a : Address) (q : Bytes),
            ((later.foldl DataTree.edit t).locate? a q).map (·.plain) =
            (later.foldl DataTree.edit k).locate? a q := by
  constructor
  · rw [assignAt_fails_iff h hm]
    by_cases hname : name = []
    · simp [hname, components]
    · simp [hname, components_eq_splitByte hname]
  intro k e hfail
  have hfree : k.LinkFree := by
    have hset := assignAt_linkFree h (a := { value := v }) rfl start name
    rwa [hfail] at hset
  obtain ⟨path, rfl⟩ : ∃ path, k = ensured path n := by
    have hend := assignAt_ending_of_linkFree h start name { value := v }
    rw [hfail] at hend
    cases hend
    exact ⟨_, rfl⟩
  have hvalues : ∀ q, (ensured path n).value? q = n.value? q := by
    intro q
    rw [value?_of_linkFree hfree, value?_of_linkFree h, look_ensured, join_reach]
  have hpadded := padded_ensured path n
  refine ⟨hpadded, hfree, hvalues, ?_, ?_⟩
  · intro a q there hthere
    rw [locate?_below h] at hthere
    obtain ⟨old, hold, rfl⟩ := map_eq_some_iff.mp hthere
    obtain ⟨new, hnew, hown, -⟩ := hpadded.kept _ old hold
    exact ⟨new, by rw [locate?_below hfree, hnew]; rfl, hown⟩
  · rintro s hs rfl
    obtain ⟨hsound, hplain, hanswer⟩ := IndexedNode.assignAt_refines hs start name { value := v }
    rw [hfail] at hplain hanswer
    refine ⟨_, Prod.ext rfl hanswer, fun q => ?_, fun later a q => ?_⟩
    · rw [IndexedNode.value?_eq hsound, hplain, hvalues, IndexedNode.value?_eq hs]
    · obtain ⟨hlater, hedited⟩ := IndexedNode.edits_refine hsound later
      rw [hplain] at hedited
      rw [← hedited]
      exact (IndexedNode.locate?_finds hlater a q).plain.symm

/-- The first component is made before the second turns out to be empty. -/
theorem failed_set_loses_nothing_midway :
    let n : Node := ⟨[], none, false, [], [⟨ascii "a", some (ascii "1"), false, [], []⟩]⟩
    n.LinkFree ∧ ∃ k, n.set (ascii "b..c") (some []) =
      (k, .error (.emptyComponent (ascii "b..c"))) ∧
      (k.get? [ascii "b"]).isSome ∧ (n.get? [ascii "b"]).isNone ∧ ∀ q, k.value? q = n.value? q := by
  intro n
  have hn : n.LinkFree := by
    refine ⟨rfl, fun m hm => ?_⟩
    rw [mem_singleton.mp hm]
    exact ⟨rfl, by simp⟩
  exact ⟨hn, _, rfl, by decide, by decide,
    ((failed_set_loses_nothing n hn [] n rfl (ascii "b..c") (some [])).2 _ _ rfl).2.2.1⟩

end TemplateKit.Node
