import Mathlib.Data.List.Basic
import Mathlib.Data.List.Nodup
import TemplateKit.Data.Assign
import TemplateKit.Data.Order

/-!
# Children, addresses and sound naming

How each change of one node's children shows in the child found under a name, and how a change at an
address shows in the nodes found at addresses. A tree is well named when siblings have distinct
names, none of which is empty or has a dot.

## Names and their components

Splitting at a byte and joining with it are inverse, so a name and its list of components carry the
same information. A dotted name is one without an empty component.
-/

namespace TemplateKit

open List Bytes

namespace Bytes

variable {sep : UInt8}

theorem splitByte_ne_nil (sep : UInt8) (s : Bytes) : splitByte sep s ≠ [] := by
  cases s with
  | nil => simp [splitByte]
  | cons b s =>
    simp only [splitByte]
    split
    · simp
    · split <;> simp

theorem splitByte_sep (s : Bytes) : splitByte sep (sep :: s) = [] :: splitByte sep s := by
  simp [splitByte]

theorem splitByte_cons_of_ne {b} (h : b ≠ sep) (s : Bytes) {piece more}
    (hs : splitByte sep s = piece :: more) : splitByte sep (b :: s) = (b :: piece) :: more := by
  simp [splitByte, h, hs]

theorem splitByte_of_not_mem {s} (h : sep ∉ s) : splitByte sep s = [s] := by
  induction s with
  | nil => rfl
  | cons b s ih =>
    simp only [mem_cons, not_or] at h
    exact splitByte_cons_of_ne (Ne.symm h.1) s (ih h.2)

theorem splitByte_append_sep (s t : Bytes) :
    splitByte sep (s ++ sep :: t) = splitByte sep s ++ splitByte sep t := by
  induction s with
  | nil => simp [splitByte]
  | cons b s ih =>
    obtain ⟨piece, more, hs⟩ := exists_cons_of_ne_nil (splitByte_ne_nil sep s)
    by_cases hb : b = sep
    · subst hb
      simp [splitByte_sep, ih]
    · rw [cons_append, splitByte_cons_of_ne hb s hs,
        splitByte_cons_of_ne hb (s ++ sep :: t) (ih.trans (by rw [hs, cons_append]))]
      rfl

theorem not_mem_of_mem_splitByte {s piece} (h : piece ∈ splitByte sep s) : sep ∉ piece := by
  induction s generalizing piece with
  | nil => simp_all [splitByte]
  | cons b s ih =>
    obtain ⟨first, more, hs⟩ := exists_cons_of_ne_nil (splitByte_ne_nil sep s)
    by_cases hb : b = sep
    · subst hb
      rw [splitByte_sep, mem_cons] at h
      rcases h with rfl | h
      · simp
      · exact ih h
    · rw [splitByte_cons_of_ne hb s hs, mem_cons] at h
      rcases h with rfl | h
      · have hf := ih (hs ▸ mem_cons_self)
        simp [hf, Ne.symm hb]
      · exact ih (hs ▸ mem_cons_of_mem first h)

theorem join_cons (s : Bytes) {more} (h : more ≠ []) :
    join [sep] (s :: more) = s ++ sep :: join [sep] more := by
  cases more with
  | nil => exact absurd rfl h
  | cons t more => simp [join]

theorem join_append {front back} (hf : front ≠ []) (hb : back ≠ []) :
    join [sep] (front ++ back) = join [sep] front ++ sep :: join [sep] back := by
  induction front with
  | nil => exact absurd rfl hf
  | cons s front ih =>
    cases front with
    | nil => simp [join]
    | cons t front =>
      rw [cons_append, join_cons s (by simp), ih (by simp), join_cons s (by simp)]
      simp

theorem join_splitByte (sep : UInt8) (s : Bytes) : join [sep] (splitByte sep s) = s := by
  induction s with
  | nil => rfl
  | cons b s ih =>
    obtain ⟨piece, more, hs⟩ := exists_cons_of_ne_nil (splitByte_ne_nil sep s)
    by_cases hb : b = sep
    · subst hb
      rw [splitByte_sep, join_cons [] (splitByte_ne_nil _ s), ih]
      rfl
    · rw [splitByte_cons_of_ne hb s hs]
      rw [hs] at ih
      cases more with
      | nil => simpa [join] using ih
      | cons t more =>
        rw [join_cons _ (by simp)] at ih ⊢
        simp [← ih]

end Bytes

theorem components_eq_splitByte {name : Bytes} (h : name ≠ []) :
    components name = name.splitByte dot := by
  simp [components, h]

theorem dot_not_mem_of_mem_components (name : Bytes) {c} (h : c ∈ components name) : dot ∉ c := by
  rw [components] at h
  split at h
  · simp at h
  · exact not_mem_of_mem_splitByte h

theorem components_injective : Function.Injective components := by
  intro p q h
  by_cases hp : p = [] <;> by_cases hq : q = []
  · rw [hp, hq]
  · rw [hp, components_eq_splitByte hq] at h
    exact absurd h.symm (splitByte_ne_nil _ q)
  · rw [hq, components_eq_splitByte hp] at h
    exact absurd h (splitByte_ne_nil _ p)
  · rw [components_eq_splitByte hp, components_eq_splitByte hq] at h
    rw [← join_splitByte dot p, h, join_splitByte]

/-- A name of one or more components, none of which is empty. -/
structure DottedName where
  text : Bytes
  proper : ∀ c ∈ text.splitByte dot, c ≠ []

namespace DottedName

def path (p : DottedName) : Address := p.text.splitByte dot

theorem text_ne_nil (p : DottedName) : p.text ≠ [] := by
  intro h
  exact p.proper [] (by simp [h, splitByte]) rfl

theorem nil_not_mem (p : DottedName) : [] ∉ p.path := fun h => p.proper [] h rfl

theorem path_ne_nil (p : DottedName) : p.path ≠ [] := splitByte_ne_nil _ p.text

theorem components_text (p : DottedName) : components p.text = p.path :=
  components_eq_splitByte p.text_ne_nil

/-- Is `q` this name, or a name of something below it? -/
def Covers (p : DottedName) (q : Bytes) : Prop := q = p.text ∨ p.text ++ [dot] <+: q

instance (p : DottedName) (q : Bytes) : Decidable (p.Covers q) :=
  inferInstanceAs (Decidable (_ ∨ _))

theorem covers_iff (p : DottedName) (q : Bytes) : p.Covers q ↔ p.path <+: components q := by
  constructor
  · rintro (rfl | ⟨rest, rfl⟩)
    · exact p.components_text.symm ▸ prefix_rfl
    · rw [append_assoc, singleton_append, components_eq_splitByte (by simp), splitByte_append_sep]
      exact prefix_append _ _
  · rintro ⟨more, h⟩
    have hq : q ≠ [] := by
      rintro rfl
      exact p.path_ne_nil (append_eq_nil_iff.mp h).1
    have hj : join [dot] (p.path ++ more) = q := by
      rw [h, components_eq_splitByte hq, join_splitByte]
    by_cases hm : more = []
    · subst hm
      rw [append_nil, path, join_splitByte] at hj
      exact Or.inl hj.symm
    · rw [join_append p.path_ne_nil hm, path, join_splitByte] at hj
      exact Or.inr ⟨join [dot] more, by simpa using hj⟩

end DottedName

/-! ## Children and addresses -/

open Option

theorem find?_of_nodup {α κ : Type} [BEq κ] [LawfulBEq κ] {key : α → κ} {xs : List α} {x : α}
    (h : (xs.map key).Nodup) (hx : x ∈ xs) : xs.find? (key · == key x) = some x := by
  cases hf : xs.find? (key · == key x) with
  | none => exact absurd (find?_eq_none.mp hf x hx) (by simp)
  | some y =>
    have hkey : key y = key x := by simpa using find?_some hf
    rw [inj_on_of_nodup_map h (mem_of_find?_eq_some hf) hx hkey]

theorem find?_perm_of_nodup {α : Type} {key : α → Bytes} {xs ys : List α} (h : (xs.map key).Nodup)
    (hp : ys.Perm xs) (k : Bytes) : ys.find? (key · == k) = xs.find? (key · == k) := by
  cases hx : xs.find? (key · == k) with
  | none =>
    rw [find?_eq_none] at hx ⊢
    exact fun y hy => hx y (hp.mem_iff.mp hy)
  | some x =>
    obtain rfl : key x = k := by simpa using find?_some hx
    exact find?_of_nodup ((hp.map key).nodup_iff.mpr h) (hp.mem_iff.mpr (mem_of_find?_eq_some hx))

@[simp] theorem Attribute.merge_nil (attrs : List Attribute) :
    merge attrs [] = attrs := by cases attrs <;> rfl

namespace Node

variable {n m child : Node} {c d : Bytes} {f : Node → Node}

@[simp] theorem eta (n : Node) : ⟨n.name, n.value, n.isLink, n.attributes, n.children⟩ = n := by
  cases n
  rfl

theorem child?_some (h : n.child? c = some child) : child ∈ n.children ∧ child.name = c := by
  refine ⟨mem_of_find?_eq_some h, ?_⟩
  simpa using find?_some h

theorem child?_eq_none_iff : n.child? c = none ↔ c ∉ n.children.map (·.name) := by
  simp [child?]

@[simp] theorem empty_name (name : Bytes) : (empty name).name = name := rfl

@[simp] theorem child?_empty (name c : Bytes) : (empty name).child? c = none := rfl

@[simp] theorem modifyChild_name : (n.modifyChild c f).name = n.name := rfl
@[simp] theorem modifyChild_value : (n.modifyChild c f).value = n.value := rfl
@[simp] theorem append_name : (n.append child).name = n.name := rfl
@[simp] theorem append_isLink : (n.append child).isLink = n.isLink := rfl
@[simp] theorem append_children : (n.append child).children = n.children ++ [child] := rfl
@[simp] theorem eraseChild_value : (n.eraseChild c).value = n.value := rfl
@[simp] theorem assign_value (a : Assignment) : (n.assign a).value = a.value := rfl
@[simp] theorem assign_isLink (a : Assignment) : (n.assign a).isLink = a.isLink := rfl

theorem child?_split (h : n.child? c = some child) :
    ∃ front back, n.children = front ++ child :: back ∧ (∀ m ∈ front, m.name ≠ c) ∧
      child.name = c := by
  obtain ⟨-, front, back, hs, hf⟩ := find?_eq_some_iff_append.mp h
  exact ⟨front, back, hs, fun m hm => by simpa using hf m hm, (child?_some h).2⟩

theorem modifyChild_go_append {front back} (hf : ∀ m ∈ front, m.name ≠ c) (hc : child.name = c) :
    modifyChild.go c f (front ++ child :: back) = front ++ f child :: back := by
  induction front with
  | nil => simp [modifyChild.go, hc]
  | cons m front ih =>
    simp only [cons_append, modifyChild.go, beq_iff_eq, hf m mem_cons_self, if_false]
    rw [ih fun k hk => hf k (mem_cons_of_mem m hk)]

theorem modifyChild_children (h : n.child? c = some child) :
    ∃ front back, n.children = front ++ child :: back ∧ (∀ m ∈ front, m.name ≠ c) ∧
      (n.modifyChild c f).children = front ++ f child :: back := by
  obtain ⟨front, back, hs, hf, hc⟩ := child?_split h
  refine ⟨front, back, hs, hf, ?_⟩
  simp only [modifyChild]
  rw [hs, modifyChild_go_append hf hc]

theorem modifyChild_eq (h : n.child? c = some child) :
    n.modifyChild c f = n.modifyChild c fun _ => f child := by
  obtain ⟨front, back, hs, hf, hc⟩ := child?_split h
  simp only [modifyChild]
  rw [hs, modifyChild_go_append hf hc, modifyChild_go_append hf hc]

theorem modifyChild_self (h : n.child? c = some child) : (n.modifyChild c fun _ => child) = n := by
  obtain ⟨front, back, hold, -, hnew⟩ := modifyChild_children (f := fun _ => child) h
  rw [← hold] at hnew
  simp only [modifyChild] at hnew ⊢
  rw [hnew, eta]

theorem modifyChild_of_none (h : n.child? c = none) : n.modifyChild c f = n := by
  have hgo : ∀ ns : List Node, (∀ m ∈ ns, m.name ≠ c) → modifyChild.go c f ns = ns := by
    intro ns hns
    induction ns with
    | nil => rfl
    | cons m ns ih =>
      simp only [modifyChild.go, beq_iff_eq, hns m mem_cons_self, if_false]
      rw [ih fun k hk => hns k (mem_cons_of_mem m hk)]
  have hne : ∀ m ∈ n.children, m.name ≠ c := by simpa [child?] using h
  simp [modifyChild, hgo n.children hne]

theorem child?_modifyChild (hf : ∀ m, n.child? c = some m → (f m).name = c) (d : Bytes) :
    (n.modifyChild c f).child? d = if d = c then (n.child? c).map f else n.child? d := by
  cases h : n.child? c with
  | none =>
    rw [modifyChild_of_none h]
    split
    · next hd => rw [hd, h]; rfl
    · rfl
  | some child =>
    obtain ⟨front, back, hold, hfr, hnew⟩ := modifyChild_children (f := f) h
    have hn := (child?_some h).2
    simp only [child?, hold, hnew, List.find?_append, find?_cons, hf child h, hn]
    by_cases hd : d = c
    · subst hd
      have hno : front.find? (fun m => m.name == d) = none := by simpa using hfr
      simp [hno]
    · have hcd : (c == d) = false := beq_eq_false_iff_ne.mpr (Ne.symm hd)
      simp [hd, hcd]

theorem names_modifyChild (hf : ∀ m, n.child? c = some m → (f m).name = c) :
    (n.modifyChild c f).children.map (·.name) = n.children.map (·.name) := by
  cases h : n.child? c with
  | none => rw [modifyChild_of_none h]
  | some child =>
    obtain ⟨front, back, hold, -, hnew⟩ := modifyChild_children (f := f) h
    simp [hold, hnew, hf child h, (child?_some h).2]

theorem child?_append (d : Bytes) :
    (n.append child).child? d = (n.child? d).or (if child.name = d then some child else none) := by
  simp only [child?]
  by_cases h : child.name = d
  · simp
  · simp

theorem child?_eraseChild (hd : (n.children.map (·.name)).Nodup) (d : Bytes) :
    (n.eraseChild c).child? d = if d = c then none else n.child? d := by
  cases h : n.child? c with
  | none =>
    have hne : ∀ m ∈ n.children, m.name ≠ c := by simpa [child?] using h
    have hsa : n.eraseChild c = n := by
      simp [eraseChild, eraseP_of_forall_not (p := fun m : Node => m.name == c) (by
        simpa using hne)]
    rw [hsa]
    split
    · next hd => rw [hd, h]
    · rfl
  | some child =>
    obtain ⟨front, back, hs, hf, hn⟩ := child?_split h
    have he : (n.eraseChild c).children = front ++ back := by
      simp only [eraseChild]
      rw [hs, eraseP_append_right _ (by simpa using hf)]
      simp [hn]
    have hb : ∀ m ∈ back, m.name ≠ c := by
      rw [hs, map_append, nodup_append] at hd
      have hnot := (nodup_cons.mp hd.2.1).1
      intro m hm hmc
      exact hnot (mem_map.mpr ⟨m, hm, hmc.trans hn.symm⟩)
    simp only [child?, he, hs, List.find?_append, find?_cons, hn]
    by_cases hdc : d = c
    · subst hdc
      simpa using ⟨hf, hb⟩
    · have hcd : (c == d) = false := beq_eq_false_iff_ne.mpr (Ne.symm hdc)
      simp [hdc, hcd]

/-- What is at an address: nothing, or a node that may have a value. -/
def look (n : Node) (path : Address) : Option (Option Bytes) := (n.get? path).map (·.value)

@[simp] theorem look_nil : n.look [] = some n.value := rfl

theorem look_cons (c : Bytes) (rest : Address) :
    n.look (c :: rest) = (n.child? c).bind (·.look rest) := by
  rw [look, get?, map_bind]
  rfl

theorem get?_append (n : Node) (a b : Address) : n.get? (a ++ b) = (n.get? a).bind (·.get? b) := by
  induction a generalizing n with
  | nil => rfl
  | cons c a ih => simp only [cons_append, get?, bind_assoc, ih]

theorem modify_name (hf : ∀ m, (f m).name = m.name) (a : Address) :
    (n.modify a f).name = n.name := by
  cases a with
  | nil => exact hf n
  | cons c a => rfl

theorem child?_modify_cons (hf : ∀ m, (f m).name = m.name) (a : Address) (d : Bytes) :
    (n.modify (c :: a) f).child? d = if d = c then (n.child? c).map (·.modify a f)
      else n.child? d :=
  child?_modifyChild (fun _ hm => (modify_name hf a).trans (child?_some hm).2) d

theorem modify_eq {a} (h : n.get? a = some m) : n.modify a f = n.modify a fun _ => f m := by
  induction a generalizing n with
  | nil =>
    cases h
    rfl
  | cons c a ih =>
    obtain ⟨child, hc, hm⟩ := bind_eq_some_iff.mp h
    rw [modify, modifyChild_eq hc, ih hm]
    exact (modifyChild_eq (f := (·.modify a fun _ => f m)) hc).symm

theorem modify_self {a} (h : n.get? a = some m) : (n.modify a fun _ => m) = n := by
  induction a generalizing n with
  | nil =>
    cases h
    rfl
  | cons c a ih =>
    obtain ⟨child, hc, hm⟩ := bind_eq_some_iff.mp h
    rw [modify, modifyChild_eq hc, ih hm, modifyChild_self hc]

/-- The bound on redirections allows for one. -/
theorem assignAt_eq (n : Node) (start : Address) (name : Bytes) (a : Assignment) :
    ∃ fuel, n.assignAt start name a = n.assignFrom a (fuel + 2) start name := by
  have hb : 2 ≤ 2 ^ (name.length + n.linkText + 1) :=
    Nat.pow_le_pow_right Nat.two_pos (Nat.le_add_left 1 _)
  obtain ⟨fuel, hf⟩ := Nat.exists_eq_add_of_le' hb
  exact ⟨fuel, congrArg (n.assignFrom a · start name) hf⟩

theorem assignFrom_of_put {start path address name a new}
    (hm : n.get? start = some m) (hl : path ≠ [] → m.isLink = false) (hp : components name = path)
    (hh : path.head? ≠ some []) (hput : put a path m = .done new address) (fuel : Nat) :
    n.assignFrom a (fuel + 1) start name =
    (n.modify start fun _ => new, .ok (start ++ address)) := by
  have hli : (m.isLink && !path.isEmpty) = false := by
    cases path with
    | nil => simp
    | cons c path => simp [hl (cons_ne_nil c path)]
  rw [assignFrom]
  simp [hm, hp, hh, hli, hput]

/-- A change at an address that shows nowhere below it shows nowhere in the tree. -/
theorem look_modify {a} (hf : ∀ m, (f m).name = m.name)
    (hh : ∀ m, n.get? a = some m → ∀ q, (f m).look q = m.look q) (q : Address) :
    (n.modify a f).look q = n.look q := by
  induction a generalizing n q with
  | nil => exact hh n rfl q
  | cons c a ih =>
    cases q with
    | nil => rfl
    | cons d q =>
      rw [look_cons, look_cons, child?_modify_cons hf]
      split
      · next hd =>
        subst hd
        cases hm : n.child? d with
        | none => rfl
        | some m => exact ih (fun k hk => hh k (by simpa [get?, hm] using hk)) q
      · rfl

/-- Does a property hold of a node and of all below it? -/
inductive Everywhere (P : Node → Prop) : Node → Prop
  | intro {n : Node} (here : P n) (children : ∀ m ∈ n.children, Everywhere P m) : Everywhere P n

namespace Everywhere

variable {P Q : Node → Prop}

section

variable (h : Everywhere P n)

include h

theorem here : P n := by
  cases h
  assumption

theorem children : ∀ m ∈ n.children, Everywhere P m := by
  cases h
  assumption

theorem imp (hPQ : ∀ m : Node, P m → Q m) : Everywhere Q n := by
  induction h with
  | intro here _ ih => exact ⟨hPQ _ here, ih⟩

theorem child? (hc : n.child? c = some child) : Everywhere P child :=
  h.children child (child?_some hc).1

theorem get? {a} (ha : n.get? a = some m) : Everywhere P m := by
  induction a generalizing n with
  | nil =>
    cases ha
    exact h
  | cons c a ih =>
    obtain ⟨child, hc, hr⟩ := bind_eq_some_iff.mp ha
    exact ih (h.child? hc) hr

theorem append (hn : P (n.append child)) (hc : Everywhere P child) :
    Everywhere P (n.append child) := by
  refine ⟨hn, fun m hm => ?_⟩
  rcases mem_append.mp hm with hm | hm
  · exact h.children m hm
  · rw [mem_singleton.mp hm]
    exact hc

theorem modifyChild (hn : P (n.modifyChild c f))
    (hf : ∀ m, n.child? c = some m → Everywhere P (f m)) : Everywhere P (n.modifyChild c f) := by
  cases hc : n.child? c with
  | none =>
    rw [modifyChild_of_none hc]
    exact h
  | some child =>
    obtain ⟨front, back, hold, -, hnew⟩ := modifyChild_children (f := f) hc
    refine ⟨hn, fun m hm => ?_⟩
    rw [hnew, mem_append, mem_cons] at hm
    rcases hm with hm | rfl | hm
    · exact h.children m (by simp [hold, hm])
    · exact hf child hc
    · exact h.children m (by simp [hold, hm])

theorem ofSubset (hm : P m) (hs : ∀ k ∈ m.children, k ∈ n.children) :
    Everywhere P m := ⟨hm, fun k hk => h.children k (hs k hk)⟩

end

end Everywhere

/-- Induction over a list of trees: from the children of the first one, and from the trees behind
it. -/
theorem forest_induction {P : List Node → Prop} (nil : P [])
    (cons : ∀ n ns, P n.children → P ns → P (n :: ns)) (ns : List Node) : P ns := by
  cases ns with
  | nil => exact nil
  | cons n ns => exact cons n ns (forest_induction nil cons n.children) (forest_induction
      nil cons ns)
termination_by sizeOf ns
decreasing_by
  · obtain ⟨name, value, isLink, attributes, children⟩ := n
    rw [List.cons.sizeOf_spec, Node.mk.sizeOf_spec]
    change sizeOf children < _
    omega
  · rw [List.cons.sizeOf_spec]
    omega

def DistinctNames (n : Node) : Prop := (n.children.map (·.name)).Nodup

instance : DecidablePred DistinctNames :=
  fun n => inferInstanceAs (Decidable (n.children.map (·.name)).Nodup)

theorem DistinctNames.ofNames (h : n.DistinctNames)
    (hm : m.children.map (·.name) = n.children.map (·.name)) : m.DistinctNames := by
  rw [DistinctNames, hm]
  exact h

theorem DistinctNames.append (h : n.DistinctNames) (hc : n.child? child.name = none) :
    (n.append child).DistinctNames := by
  rw [DistinctNames, append_children, map_append, nodup_append]
  refine ⟨h, by simp, ?_⟩
  rintro a ha b hb rfl
  rw [child?_eq_none_iff] at hc
  simp only [map_cons, map_nil, mem_singleton] at hb
  exact hc (hb ▸ ha)

def sorted (le : Node → Node → Bool) (n : Node) : Node :=
  { n with children := n.children.mergeSort le }

theorem child?_sorted (h : n.DistinctNames) (le : Node → Node → Bool) (d : Bytes) :
    (n.sorted le).child? d = n.child? d :=
  find?_perm_of_nodup h (mergeSort_perm _ _) d

end Node

end TemplateKit
