import TemplateKit.Proofs.Data.Placement

/-!
# What an assignment leaves alone

In a tree without links an assignment changes nothing but the subtree that its name starts with. Two
trees are the same outside of some subtrees if their roots are, if they have the same other subtrees
in the same order, and if what was added to the first level stands at its end.
-/

namespace TemplateKit.Node

open List

variable {names : List Bytes} {n m k x : Node} {c : Bytes} {f : Node → Node} {a : Assignment}

def others (names : List Bytes) (n : Node) : List Node :=
  n.children.filter fun m => !names.elem m.name

/-- `m` is `n` but for what stands below some names of the first level, which may have been added.
-/
structure SameOutside (names : List Bytes) (n m : Node) : Prop where
  name : m.name = n.name
  value : m.value = n.value
  isLink : m.isLink = n.isLink
  attributes : m.attributes = n.attributes
  others : m.others names = n.others names
  order : n.children.map (·.name) <+: m.children.map (·.name)

theorem others_append (hc : x.name ∈ names) : (n.append x).others names = n.others names := by
  have hx : names.elem x.name = true := elem_eq_true_of_mem hc
  simp only [others, append_children, filter_append, filter_cons, hx, Bool.not_true,
    Bool.false_eq_true, if_false, filter_nil, append_nil]

theorem others_modifyChild (hc : c ∈ names) (hf : ∀ m, n.child? c = some m → (f m).name = c) :
    (n.modifyChild c f).others names = n.others names := by
  cases h : n.child? c with
  | none => rw [modifyChild_of_none h]
  | some child =>
    obtain ⟨front, back, hs, hfr, hn⟩ := child?_split h
    have hin : names.elem c = true := elem_eq_true_of_mem hc
    have hold : names.elem child.name = true := by rw [hn, hin]
    have hnew : names.elem (f child).name = true := by rw [hf child h, hin]
    rw [others, others, modifyChild, hs, modifyChild_go_append hfr hn]
    simp only [filter_append, filter_cons, hold, hnew, Bool.not_true, Bool.false_eq_true, if_false]

namespace SameOutside

theorem refl (names : List Bytes) (n : Node) : SameOutside names n n :=
  ⟨rfl, rfl, rfl, rfl, rfl, prefix_rfl⟩

theorem trans (h : SameOutside names n m) (h' : SameOutside names m k) : SameOutside names n k where
  name := h'.name.trans h.name
  value := h'.value.trans h.value
  isLink := h'.isLink.trans h.isLink
  attributes := h'.attributes.trans h.attributes
  others := h'.others.trans h.others
  order := h.order.trans h'.order

theorem append (n : Node) (hx : x.name ∈ names) : SameOutside names n (n.append x) where
  name := rfl
  value := rfl
  isLink := rfl
  attributes := rfl
  others := others_append hx
  order := by simp

theorem modifyChild (hc : c ∈ names) (hf : ∀ m, n.child? c = some m → (f m).name = c) :
    SameOutside names n (n.modifyChild c f) where
  name := rfl
  value := rfl
  isLink := rfl
  attributes := rfl
  others := others_modifyChild hc hf
  order := (names_modifyChild hf).symm ▸ prefix_rfl

theorem child? (h : SameOutside names n m) (hc : c ∉ names) : m.child? c = n.child? c := by
  have ho : ∀ k : Node, k.child? c = (k.others names).find? (·.name == c) := by
    intro k
    rw [Node.child?, Node.others, find?_filter]
    congr 1
    funext l
    by_cases hl : l.name = c
    · simp [hl, hc]
    · simp [hl]
  rw [ho, ho, h.others]

theorem value? (h : SameOutside names n m) (hn : n.LinkFree) (hm : m.LinkFree) {name path}
    (hna : components name = c :: path) (hc : c ∉ names) : m.value? name = n.value? name := by
  rw [value?_of_linkFree hm, value?_of_linkFree hn, hna, look, look, Node.get?, Node.get?,
    h.child? hc]

end SameOutside

section Assign

variable {name : Bytes} {start : Address} (h : n.LinkFree)

include h

/-- Only an assignment of a link makes one. -/
theorem assignAt_linkFree (ha : a.isLink = false) (start : Address) (name : Bytes) :
    (n.assignAt start name a).1.LinkFree :=
  Holds.assignAt (P := fun _ isLink _ => isLink = false) rfl (fun _ _ => ha) h start name

theorem assignAt_refused (hm : n.get? start = some m) (hn : [] ∈ components name) :
    (n.assignAt start name a).2 = .error (.emptyComponent name) := by
  have hli : m.isLink = false := (h.get? hm).here
  have hp := put_placed a (components name) m
  obtain ⟨fuel, hf⟩ := n.assignAt_eq start name a
  rw [hf, assignFrom]
  simp only [hm, hli, Bool.false_and, Bool.false_eq_true, if_false]
  split
  · rfl
  split
  · next hput =>
    rw [hput] at hp
    cases hp
    contradiction
  · rfl
  · next hput =>
    rw [hput] at hp
    cases hp with
    | redirected hk hl => cases ((h.get? hm).get? hk).here.symm.trans hl

theorem assignAt_ending_of_linkFree (start : Address) (name : Bytes) (a : Assignment) :
    Ending a n (start ++ components name) (n.assignAt start name a) := by
  have hli : ∀ q m, n.get? q = some m → m.isLink = true → ∀ rest,
      components (m.target ++ dot :: rest) = start ++ components name := by
    intro q m hm hl
    cases (h.get? hm).here.symm.trans hl
  obtain ⟨_, rfl, hend⟩ := assignFrom_ending (W := (· = start ++ components name)) hli _ rfl
  exact hend

/-- An assignment touches no subtree but the one that its address starts with. -/
theorem assignAt_sameOutside (hc : c ∈ names) (hs : (start ++ components name).head? = some c) :
    SameOutside names n (n.assignAt start name a).1 := by
  rcases (assignAt_ending_of_linkFree h start name a).first hs with heq | ⟨f, rest, hf, heq⟩
  · rw [heq]
    exact .refl names n
  · rw [heq]
    cases hn : n.child? c with
    | some child =>
      rw [graft_of_some hn]
      exact .modifyChild hc fun _ _ => (graft_name hf.name rest child).trans (child?_some hn).2
    | none =>
      rw [graft_of_none hn]
      exact .append n (by rwa [graft_name hf.name])

theorem value?_set (hn : [] ∉ components name) (value : Option Bytes) (q : Bytes) :
    (n.set name value).1.value? q = if q = name then value else n.value? q := by
  have hset : (n.set name value).1 = place { value } (components name) n := by
    rw [Node.set, assignAt_accepted h rfl hn]
    rfl
  have hf : (n.set name value).1.LinkFree := assignAt_linkFree h rfl [] name
  rw [value?_of_linkFree hf, hset, look_place, value?_of_linkFree h]
  simp only [components_injective.eq_iff]
  split
  · rfl
  · exact join_reach _ _ _

end Assign

/-!
## Trees that grow

Assignments take no node away. Where no link is in the way, a name that leads to a node therefore
leads to it in the larger tree too, and a node that was made is where its name leads.
-/

open Option

variable {name : Bytes} {start address : Address}

/-- Every node of the first tree is in the second one. -/
def Within (n m : Node) : Prop := ∀ address, (n.get? address).isSome → (m.get? address).isSome

namespace Within

theorem refl (n : Node) : n.Within n := fun _ h => h

theorem graft {f} (hf : KeepsShape f) (path : Address) (n : Node) : n.Within (graft f path n) := by
  intro q hq
  obtain ⟨m, hm⟩ := isSome_iff_exists.mp hq
  obtain ⟨k, hk, -⟩ := keepsOrder_graft hf path q m hm
  rw [hk]
  rfl

theorem modify {f} (hf : KeepsShape f) (start : Address) : n.Within (n.modify start f) := by
  cases hm : n.get? start with
  | none =>
    rw [modify_of_none hm]
    exact refl n
  | some m =>
    rw [modify_of_get? hm]
    exact graft hf start n

end Within

theorem assignAt_within : n.Within (n.assignAt start name a).1 := by
  obtain ⟨goal, hend⟩ := assignAt_ending a start name n
  obtain ⟨f, path, hf, heq⟩ := hend.graft
  rw [heq]
  exact .graft hf path n

theorem locate?_below (h : n.LinkFree) (start : Address) (name : Bytes) : n.locate? start name =
      (n.get? (start ++ components name)).map fun m => ⟨start ++ components name, m⟩ := by
  rw [get?_append]
  cases hm : n.get? start with
  | none => simp [locate?, hm]
  | some m => exact locate?_of_clear hm (LinkFree.clear (h.get? hm) _)

theorem locate?_address (h : n.LinkFree) : (n.locate? start name).map (·.address) = some address ↔
      address = start ++ components name ∧ (n.get? address).isSome := by
  rw [locate?_below h]
  constructor
  · intro hs
    obtain ⟨there, ht, rfl⟩ := map_eq_some_iff.mp hs
    obtain ⟨m, hm, rfl⟩ := map_eq_some_iff.mp ht
    exact ⟨rfl, by rw [hm]; rfl⟩
  · rintro ⟨rfl, hs⟩
    obtain ⟨m, hm⟩ := isSome_iff_exists.mp hs
    rw [hm]
    rfl

theorem ensureAt_within : n.Within (n.ensureAt start name).1 := by
  unfold ensureAt
  split
  · exact .refl n
  · exact assignAt_within

theorem ensureAt_linkFree (h : n.LinkFree) (start : Address) (name : Bytes) :
    (n.ensureAt start name).1.LinkFree := by
  unfold ensureAt
  split
  · exact h
  · exact assignAt_linkFree h rfl start name

theorem ensureAt_leads (h : n.LinkFree) (hok : n.ensureAt start name = (m, .ok address)) :
    (m.locate? start name).map (·.address) = some address := by
  have hm := ensureAt_linkFree h start name
  rw [hok] at hm
  unfold ensureAt at hok
  split at hok
  · next there ht =>
    cases hok
    rw [ht]
    rfl
  · have hend := assignAt_ending_of_linkFree h start name { value := none }
    rw [hok] at hend
    cases hend
    exact (locate?_address hm).mpr ⟨rfl, by rw [get?_graft (keepsShape_assign _).name]; rfl⟩

end TemplateKit.Node

/-!
## A subtree that no link leads into

If no link of a tree leads to its root or into one subtree of its first level, then an assignment to
a name outside of that subtree stays outside, however many links it meets, and so does a lookup. An
assignment to a name of the subtree does to it what it would do to the subtree alone, or leaves
through a link and does not come back.
-/

namespace TemplateKit

open Option List

def StartsIn (p : Bytes → Prop) (path : List Bytes) : Prop := ∃ c, path.head? = some c ∧ p c

theorem StartsIn.append {p path} (h : StartsIn p path) (rest : List Bytes) :
    StartsIn p (path ++ rest) := by
  obtain ⟨c, hh, hc⟩ := h
  exact ⟨c, by rw [head?_append, hh, some_or], hc⟩

/-- A name goes on where it started, whatever is added to it. -/
theorem StartsIn.longer {p s} (h : StartsIn p (components s)) (t : Bytes) :
    StartsIn p (components (s ++ dot :: t)) := by
  have hs : s ≠ [] := by
    rintro rfl
    obtain ⟨c, hh, -⟩ := h
    cases hh
  rw [components_eq_splitByte hs] at h
  rw [components_eq_splitByte (by simp), Bytes.splitByte_append_sep]
  exact h.append _

namespace Node

variable {n m : Node} {c name : Bytes} {start : Address} {rest : List Bytes} {a : Assignment}
  {P : Node → Prop}

/-- Every link leads to a name that starts otherwise, and none to the root. -/
def LinksAvoid (c : Bytes) (n : Node) : Prop :=
  n.Holds fun value isLink _ => isLink = true → StartsIn (· ≠ c) (components (value.getD []))

theorem LinksAvoid.target (h : n.LinksAvoid c) (hn : n.isLink = true) :
    StartsIn (· ≠ c) (components n.target) :=
  h.here hn

theorem LinksAvoid.assignAt (h : n.LinksAvoid c) (ha : a.isLink = false) (start : Address)
    (name : Bytes) :
    (n.assignAt start name a).1.LinksAvoid c := by
  apply Holds.assignAt _ _ h
  · intro hl
    cases hl
  · intro m _ hl
    rw [assign_isLink, ha] at hl
    cases hl

/-- A tree whose subtree `c` has a property, and whose links lead elsewhere. -/
structure Guarded (c : Bytes) (P : Node → Prop) (n : Node) : Prop where
  isLink : n.isLink = false
  links : n.LinksAvoid c
  subtree : ∀ m, n.child? c = some m → P m

namespace Guarded

section

variable (h : n.Guarded c P)

include h

theorem imp {Q} (hPQ : ∀ m, P m → Q m) : n.Guarded c Q :=
  ⟨h.isLink, h.links, fun m hm => hPQ m (h.subtree m hm)⟩

/-- Links send an assignment to other addresses only. -/
theorem ending (a : Assignment) (start : Address) (name : Bytes) : ∃ goal,
      (goal = start ++ components name ∨ StartsIn (· ≠ c) goal) ∧
      Ending a n goal (n.assignAt start name a) := by
  refine assignFrom_ending (fun q m hm hl rest => .inr ?_) _ (.inl rfl)
  exact (LinksAvoid.target (h.links.get? hm) hl).longer rest

theorem of_ending_outside (ha : a.isLink = false) {goal}
    (hend : Ending a n goal (n.assignAt start name a)) (hg : StartsIn (· ≠ c) goal) :
    (n.assignAt start name a).1.Guarded c P := by
  obtain ⟨d, hh, hd⟩ := hg
  have hl := h.links.assignAt ha start name
  rcases hend.first hh with heq | ⟨f, rest, hf, heq⟩
  · rwa [heq]
  · rw [heq] at hl ⊢
    refine ⟨graft_cons_isLink.trans h.isLink, hl, fun m hm => h.subtree m ?_⟩
    rwa [child?_graft hf.name, if_neg (Ne.symm hd)] at hm

theorem assignAt_outside (ha : a.isLink = false)
    (hn : StartsIn (· ≠ c) (start ++ components name)) :
    (n.assignAt start name a).1.Guarded c P := by
  obtain ⟨goal, rfl | hg, hend⟩ := h.ending a start name
  · exact h.of_ending_outside ha hend hn
  · exact h.of_ending_outside ha hend hg

/-- The subtree keeps its property in an assignment to one of its names, if it does so in each
change that the assignment can make to the subtree alone. -/
theorem assignAt_inside (ha : a.isLink = false) (he : P (empty c))
    (hn : components name = c :: rest) (hst : ∀ m, P m → P (graft (·.assign a) rest m))
    (hs : ∀ m path, path <+: rest → P m → P (graft id path m)) :
    (n.assignAt [] name a).1.Guarded c P := by
  obtain ⟨goal, rfl | hg, hend⟩ := h.ending a [] name
  swap
  · exact h.of_ending_outside ha hend hg
  have hl := h.links.assignAt ha [] name
  have hold : P ((n.child? c).getD (empty c)) := by
    cases hc : n.child? c with
    | none => exact he
    | some m => exact h.subtree m hc
  rw [nil_append, hn] at hend
  generalize n.assignAt [] name a = result at hend hl ⊢
  cases hend with
  | stored =>
    refine ⟨graft_cons_isLink.trans h.isLink, hl, fun m hm => ?_⟩
    rw [child?_graft (keepsShape_assign a).name, if_pos rfl] at hm
    exact Option.some.inj hm ▸ hst _ hold
  | @stopped path hp e =>
    cases path with
    | nil => exact h
    | cons d path =>
      obtain ⟨rfl, hr⟩ := cons_prefix_cons.mp hp
      refine ⟨graft_cons_isLink.trans h.isLink, hl, fun m hm => ?_⟩
      rw [child?_graft keepsShape_id.name, if_pos rfl] at hm
      exact Option.some.inj hm ▸ hs _ path hr hold

end

end Guarded

section Lookup

variable {follow : Bytes → Option Located} {there : Located}

theorem walk_outside (hf : ∀ s there, follow s = some there → StartsIn (· ≠ c) (components s) →
      StartsIn (· ≠ c) there.address ∧ there.node.LinksAvoid c) (here : Located) {path}
    (h : walk follow here path = some there) (hl : here.node.LinksAvoid c)
    (hp : StartsIn (· ≠ c) (here.address ++ path)) : StartsIn (· ≠ c) there.address ∧
    there.node.LinksAvoid c := by
  induction path generalizing here with
  | nil =>
    cases h
    exact ⟨by rwa [append_nil] at hp, hl⟩
  | cons d rest ih =>
    unfold walk at h
    split at h
    · cases h
    · next child hc =>
      have hchildLinks : child.LinksAvoid c := hl.child? hc
      split at h
      · next hli =>
        split at h
        · cases h
        · next there' ht' =>
          obtain ⟨ha, hthereLinks⟩ := hf _ _ ht' (hchildLinks.target hli)
          exact ih there' h hthereLinks (ha.append rest)
      · apply ih _ h hchildLinks
        rwa [append_assoc]

theorem resolve_outside (hr : n.isLink = false) (hl : n.LinksAvoid c) (fuel : Nat) (name : Bytes)
    (there : Located) (h : n.resolve fuel name = some there)
    (hn : StartsIn (· ≠ c) (components name)) :
    StartsIn (· ≠ c) there.address ∧ there.node.LinksAvoid c := by
  induction fuel generalizing name there with
  | zero => cases h
  | succ fuel ih =>
    unfold resolve at h
    split at h
    · next hnil =>
      rw [hnil] at hn
      obtain ⟨d, hd, -⟩ := hn
      cases hd
    · next d rest hc =>
      rw [hr] at h
      rw [hc] at hn
      exact walk_outside ih ⟨[], n⟩ h hl hn

theorem Guarded.locate?_outside (hn : n.Guarded c P) (hna : StartsIn (· ≠ c) (components name))
    (h : n.locate? [] name = some there) : StartsIn (· ≠ c) there.address := by
  rw [locate?, get?, bind_some] at h
  split at h
  · next hnil =>
    rw [hnil] at hna
    obtain ⟨d, hd, -⟩ := hna
    cases hd
  · next d rest hc =>
    rw [hn.isLink] at h
    rw [hc] at hna
    exact (walk_outside (resolve_outside hn.isLink hn.links (n.linkCount + 1)) ⟨[],
      n⟩ h hn.links hna).1

end Lookup

end Node

end TemplateKit
