import TemplateKit.Proofs.Data.Graft

/-!
# Trees without links

Where no link is in the way, a name leads to the node at the address of its components, and an
assignment changes the value there and nothing else. Nodes that it makes stand behind their
siblings.
-/

namespace TemplateKit.Node

open List Option

variable {n m child : Node} {c : Bytes} {a : Assignment}
variable {path start : Address} {name : Bytes} {f : Node → Node}

def NotLink (n : Node) : Prop := n.isLink = false

/-- No node of the tree is a link. -/
abbrev LinkFree : Node → Prop := Everywhere NotLink

theorem linkFree_empty (name : Bytes) : (empty name).LinkFree := ⟨rfl, by simp [empty]⟩

theorem LinkFree.reached (h : n.LinkFree) (path : Address) : (n.reached path).LinkFree := by
  cases hm : n.get? path with
  | some m => exact reached_of_get? hm ▸ h.get? hm
  | none =>
    obtain ⟨c, hc⟩ := reached_of_none hm
    exact hc ▸ linkFree_empty c

/-- No link is on the way to an address or at it. -/
def Clear (path : Address) (n : Node) : Prop := ∀ p, p <+: path → (n.reached p).isLink = false

/-- No link is on the way to an address; there may be one at it. -/
def Passable (path : Address) (n : Node) : Prop :=
  ∀ p, p <+: path → p ≠ path → (n.reached p).isLink = false

theorem LinkFree.clear (h : n.LinkFree) (path : Address) : Clear path n :=
  fun p _ => (h.reached p).here

theorem clear_nil (h : n.isLink = false) : Clear [] n := fun _ hp => prefix_nil.mp hp ▸ h

theorem Clear.passable (h : Clear path n) : Passable path n := fun p hp _ => h p hp

theorem Clear.tail (h : Clear (c :: path) n) : Clear path ((n.child? c).getD (empty c)) :=
  fun p hp => h (c :: p) (cons_prefix_cons.mpr ⟨rfl, hp⟩)

theorem Passable.tail (h : Passable (c :: path) n) : Passable path ((n.child? c).getD (empty c)) :=
  fun p hp hne => h (c :: p) (cons_prefix_cons.mpr ⟨rfl, hp⟩) fun heq => hne (List.cons.inj heq).2

theorem walk_of_clear (follow : Bytes → Option Located) (h : Clear path n) (here : Address) :
    walk follow ⟨here, n⟩ path = (n.get? path).map fun m => ⟨here ++ path, m⟩ := by
  induction path generalizing n here with
  | nil => simp [walk, get?]
  | cons c path ih =>
    have hb := h.tail
    simp only [walk, get?]
    cases hc : n.child? c with
    | none => rfl
    | some child =>
      rw [hc] at hb
      have hl : child.isLink = false := hb [] nil_prefix
      simpa [hl] using ih hb (here ++ [c])

/-- Where no link is in the way, a name leads to the node at the address of its components. -/
theorem locate?_of_clear (hm : n.get? start = some m) (h : Clear (components name) m) :
    n.locate? start name = (m.get? (components name)).map fun k =>
      ⟨start ++ components name, k⟩ := by
  have hl : m.isLink = false := h [] nil_prefix
  simp only [locate?, hm]
  cases hp : components name with
  | nil => simp [get?]
  | cons c rest => simpa [hl] using walk_of_clear _ (hp ▸ h) start

/-- Without links, a name leads where its components say. -/
theorem locate?_of_linkFree (h : n.LinkFree) (name : Bytes) :
    n.locate? [] name = (n.get? (components name)).map fun m => ⟨components name, m⟩ :=
  locate?_of_clear rfl (h.clear _)

theorem value?_of_linkFree (h : n.LinkFree) (name : Bytes) :
    n.value? name = (n.look (components name)).join := by
  simp only [value?, valueAt?, locate?_of_linkFree h, look]
  cases n.get? (components name) <;> rfl

/-- What an assignment makes of a tree where no link is in the way. -/
def place (a : Assignment) : List Bytes → Node → Node := graft (·.assign a)

theorem put_of_passable {path} (h : Passable path n) (hp : [] ∉ path) :
    put a path n = .done (place a path n) path := by
  induction path generalizing n with
  | nil => rfl
  | cons c rest ih =>
    have hc : c.isEmpty = false := by
      rw [List.isEmpty_eq_false_iff]
      rintro rfl
      exact hp mem_cons_self
    have hb := ih h.tail fun hmem => hp (mem_cons_of_mem c hmem)
    cases hn : n.child? c with
    | none =>
      rw [hn, getD_none] at hb
      simp [put, hc, hn, hb, Placement.under, place, graft_of_none hn]
    | some child =>
      rw [hn, getD_some] at hb
      have hl : (child.isLink && !rest.isEmpty) = false := by
        cases rest with
        | nil => simp
        | cons d rest =>
          have hch := h [c] (cons_prefix_cons.mpr ⟨rfl, nil_prefix⟩) (by simp)
          simpa [reached, hn] using hch
      simp [put, hc, hn, hl, hb, Placement.under, place, graft_of_some hn]

section Passable

variable (hm : n.get? start = some m) (h : Passable (components name) m) (hn : [] ∉ components name)
  (a : Assignment)

include hm h hn

theorem assignFrom_of_passable (fuel : Nat) : n.assignFrom a (fuel + 1) start name =
    (place a (start ++ components name) n, .ok (start ++ components name)) := by
  have hh : (components name).head? ≠ some [] := fun hh => hn (mem_of_mem_head? hh)
  have hl : components name ≠ [] → m.isLink = false := fun hne => h [] nil_prefix hne.symm
  rw [place, graft_append, graft_of_get? hm]
  exact assignFrom_of_put hm hl rfl hh (put_of_passable h hn) _

theorem assignAt_of_passable :
    n.assignAt start name a = (place a (start ++ components name) n,
      .ok (start ++ components name)) := by
  obtain ⟨fuel, hf⟩ := n.assignAt_eq start name a
  exact hf.trans (assignFrom_of_passable hm h hn a _)

end Passable

/-- Without links, an assignment is refused only for an empty component. -/
theorem assignAt_accepted (h : n.LinkFree) (hm : n.get? start = some m)
    (hn : [] ∉ components name) (a : Assignment) :
    n.assignAt start name a = (place a (start ++ components name) n,
      .ok (start ++ components name)) :=
  assignAt_of_passable hm (LinkFree.clear (h.get? hm) _).passable hn a

/-- What can be seen after the nodes on the way to an address were made. -/
def reach (path : Address) (seen : Address → Option (Option Bytes)) (q : Address) :
    Option (Option Bytes) :=
  if q <+: path then some (seen q).join else seen q

theorem join_reach (path : Address) (seen : Address → Option (Option Bytes)) (q : Address) :
    (reach path seen q).join = (seen q).join := by
  rw [reach]
  split <;> rfl

theorem reached_value (q : Address) : (n.reached q).value = (n.look q).join := by
  rw [look]
  cases hm : n.get? q with
  | some m => rw [reached_of_get? hm]; rfl
  | none =>
    obtain ⟨c, hc⟩ := reached_of_none hm
    rw [hc]
    rfl

def ensured : Address → Node → Node := graft id

theorem ensureAt_of_clear (hm : n.get? start = some m) (h : Clear (components name) m)
    (hn : [] ∉ components name) :
    n.ensureAt start name = (ensured (start ++ components name) n,
      .ok (start ++ components name)) := by
  have hget := n.get?_append start (components name)
  rw [hm, bind_some] at hget
  rw [ensureAt, locate?_of_clear hm h]
  cases hk : m.get? (components name) with
  | some k =>
    rw [hk] at hget
    rw [ensured, graft_of_get? hget, id, modify_self hget]
    rfl
  | none =>
    rw [hk] at hget
    obtain ⟨c, hc⟩ := reached_of_none hget
    refine (assignAt_of_passable hm h.passable hn _).trans (congrArg (·, _) (graft_congr ?_))
    rw [hc]
    rfl

theorem look_ensured (path : Address) : (ensured path n).look = reach path n.look := by
  funext q
  have hs := seen_graft keepsShape_id (fun _ _ h _ _ => h) path q n
  rw [look, ensured, hs, reach]
  by_cases hq : q = path
  · simp [hq, reached_value]
  · simp [hq, reached_value, look]

theorem look_place (path q : Address) :
    (place a path n).look q = if q = path then some a.value else reach path n.look q := by
  have hs := seen_graft (keepsShape_assign a) (fun _ _ h _ _ => h) path q n
  rw [look, place, hs, reach]
  simp [reached_value, look]

/-- Every node of `n` is in `m` too, and the children that it had stand in front of those that were
added. -/
def KeepsOrder (n m : Node) : Prop :=
  ∀ at' old, n.get? at' = some old → ∃ new, m.get? at' = some new ∧
    old.children.map (·.name) <+: new.children.map (·.name)

theorem KeepsOrder.graft (hf : ∀ n, (f n).name = n.name) (hk : ∀ n : Node, n.KeepsOrder (f n))
    (path : Address) : n.KeepsOrder (graft f path n) := by
  induction path generalizing n with
  | nil => exact hk n
  | cons c path ih =>
    intro at' old hold
    cases at' with
    | nil =>
      cases hold
      refine ⟨_, rfl, ?_⟩
      cases h : n.child? c with
      | some child =>
        rw [graft_of_some h]
        refine ⟨[], (append_nil _).trans (names_modifyChild fun _ _ => ?_).symm⟩
        exact (graft_name hf path child).trans (child?_some h).2
      | none => simp [graft_of_none h]
    | cons d at' =>
      obtain ⟨child, hc, hold⟩ := bind_eq_some_iff.mp hold
      rw [get?, child?_graft hf]
      by_cases hd : d = c
      · subst hd
        rw [if_pos rfl, hc]
        exact ih at' old hold
      · rw [if_neg hd, hc]
        exact ⟨old, hold, prefix_rfl⟩

/-- Children keep their order, and new ones come behind them. -/
theorem keepsOrder_graft (hf : KeepsShape f) (path : Address) : KeepsOrder n (graft f path n) := by
  refine .graft hf.name (fun k at' old hold => ?_) path
  cases at' with
  | nil =>
    cases hold
    exact ⟨_, rfl, hf.children k ▸ prefix_rfl⟩
  | cons c at' => exact ⟨old, by simpa only [get?, child?, hf.children] using hold, prefix_rfl⟩

def PlainLevel (n : Node) : Prop := n.NotLink ∧ n.DistinctNames

/-- No node of the tree is a link, and no two children of one node have the same name. -/
abbrev PlainTree : Node → Prop := Everywhere PlainLevel

theorem PlainTree.linkFree (h : n.PlainTree) : n.LinkFree := h.imp fun _ h => h.1

theorem plainTree_empty (name : Bytes) : (empty name).PlainTree :=
  ⟨⟨rfl, nodup_nil⟩, by simp [empty]⟩

theorem PlainTree.graft (h : n.PlainTree) (hf : ∀ n, (f n).name = n.name)
    (hp : ∀ n : Node, n.PlainTree → (f n).PlainTree)
    (path : Address) : (graft f path n).PlainTree :=
  Everywhere.graft h hf (fun _ => ⟨rfl, nodup_nil⟩) (fun _ _ hn hx => ⟨hn.1, hn.2.append hx⟩)
    (fun _ _ hn => ⟨hn.1, hn.2.ofNames (names_modifyChild fun _ _ => rfl)⟩) hp path

theorem PlainTree.place (h : n.PlainTree) (ha : a.isLink = false) (path : Address) :
    (place a path n).PlainTree :=
  h.graft (f := (·.assign a)) (fun _ => rfl) (fun _ hm => ⟨⟨ha, hm.here.2⟩, hm.children⟩) path

theorem PlainTree.ensured (h : n.PlainTree) (path : Address) : (ensured path n).PlainTree :=
  h.graft (fun _ => rfl) (fun _ => id) path

theorem remove_name (path : Address) : (remove path n).name = n.name := by
  cases path with
  | nil => rfl
  | cons c rest => cases rest <;> rfl

theorem look_remove (h : n.PlainTree) (hp : path ≠ []) (q : Address) :
    (remove path n).look q = if path <+: q then none else n.look q := by
  induction path generalizing n q with
  | nil => exact absurd rfl hp
  | cons c rest ih =>
    cases q with
    | nil => cases rest <;> simp [remove]
    | cons d q =>
      cases rest with
      | nil =>
        rw [remove, look_cons, look_cons, child?_eraseChild h.here.2]
        by_cases hd : d = c
        · simp [hd]
        · simp [hd, Ne.symm hd]
      | cons e rest =>
        rw [remove.eq_3 _ _ _ (cons_ne_nil e rest), look_cons, look_cons,
          child?_modifyChild fun k hk => (remove_name _).trans (child?_some hk).2]
        by_cases hd : d = c
        · subst hd
          cases hc : n.child? d with
          | none => simp
          | some child => simpa using ih (h.child? hc) (by simp) q
        · simp [hd, Ne.symm hd]

theorem PlainTree.remove (h : n.PlainTree) (path : Address) : (remove path n).PlainTree := by
  induction path generalizing n with
  | nil => exact h
  | cons c rest ih =>
    cases rest with
    | nil => exact h.ofSubset ⟨h.here.1, h.here.2.sublist (eraseP_sublist.map _)⟩ fun k hk =>
      mem_of_mem_eraseP hk
    | cons e rest =>
      have hn := names_modifyChild (n := n) (c := c) (f := Node.remove (e :: rest))
        fun k hk => (remove_name _).trans (child?_some hk).2
      exact h.modifyChild ⟨h.here.1, h.here.2.ofNames hn⟩ fun k hk => ih (h.child? hk)

theorem PlainTree.sortWith (h : n.PlainTree) (start : Address) (le : Node → Node → Bool) :
    (n.sortWith start le).PlainTree := by
  change (n.modify start (sorted le)).PlainTree
  cases hk : n.get? start with
  | none => rwa [modify_of_none hk]
  | some k =>
    rw [modify_of_get? hk]
    refine h.graft (f := sorted le) (fun _ => rfl) (fun k hk => ?_) start
    have hp : (k.sorted le).children.Perm k.children := mergeSort_perm _ _
    exact hk.ofSubset ⟨hk.here.1, (hp.map _).nodup_iff.mpr hk.here.2⟩ fun m hm => hp.mem_iff.mp hm

theorem look_sortWith (h : n.PlainTree) (start : Address) (le : Node → Node → Bool) (q : Address) :
    (n.sortWith start le).look q = n.look q := by
  refine look_modify (f := sorted le) (fun _ => rfl) (fun k hk r => ?_) q
  cases r with
  | nil => rfl
  | cons d r =>
    have hk' : k.PlainTree := h.get? hk
    rw [look_cons, look_cons, child?_sorted hk'.here.2]

/-- `m` is `n` with the children of the node at `start` in some other order. -/
def Reordered (start : Address) (n m : Node) : Prop :=
  ∀ at' old, n.get? at' = some old → ∃ new, m.get? at' = some new ∧
    new.name = old.name ∧ new.value = old.value ∧ new.isLink = old.isLink ∧
    new.attributes = old.attributes ∧
    (at' = start → new.children.Perm old.children) ∧
    (at' ≠ start → new.children.map (·.name) = old.children.map (·.name))

theorem reordered_sortWith (h : n.PlainTree) (start : Address) (le : Node → Node → Bool) :
    Reordered start n (n.sortWith start le) := by
  change Reordered start n (n.modify start (sorted le))
  induction start generalizing n with
  | nil =>
    intro at' old hold
    cases at' with
    | nil =>
      cases hold
      exact ⟨n.sorted le, rfl, rfl, rfl, rfl, rfl, fun _ => mergeSort_perm _ _,
        fun hne => absurd rfl hne⟩
    | cons d at' =>
      refine ⟨old, ?_, rfl, rfl, rfl, rfl, by simp, fun _ => rfl⟩
      simpa only [Node.modify, get?, child?_sorted h.here.2] using hold
  | cons c start ih =>
    intro at' old hold
    have hn : ∀ k, (sorted le k).name = k.name := fun _ => rfl
    cases at' with
    | nil =>
      cases hold
      refine ⟨_, rfl, rfl, rfl, rfl, rfl, by simp, fun _ => names_modifyChild fun k hk => ?_⟩
      exact (modify_name hn start).trans (child?_some hk).2
    | cons d at' =>
      simp only [get?, child?_modify_cons hn] at hold ⊢
      by_cases hd : d = c
      · subst hd
        obtain ⟨k, hk, hr⟩ := bind_eq_some_iff.mp hold
        obtain ⟨new, hnew, hs⟩ := ih (h.child? hk) at' old hr
        exact ⟨new, by simpa [hk] using hnew, by simpa using hs⟩
      · exact ⟨old, by simpa [hd] using hold, rfl, rfl, rfl, rfl, by simp, fun _ => rfl⟩

end TemplateKit.Node

/-!
## Trees that grow at their end

A node can be added behind the children of the node at an address, and nodes that are missing on the
way are made. Adding a node without children and then its children is adding the node with its
children. An assignment to a new name does such a step where no link is on the way.
-/

namespace TemplateKit.Node

open List Option

variable {n m x y : Node} {a : Address} {c d : Bytes}

def sow (a : Address) (x : Node) : Node → Node := graft (·.append x) a

theorem sow_append (h : n.get? a = some m) (b : Address) :
    sow (a ++ b) x n = n.modify a fun _ => sow b x m := by
  rw [sow, graft_append, graft_of_get? h]
  rfl

theorem named_append (x : Node) : ∀ n : Node, (n.append x).name = n.name := fun _ => rfl

theorem get?_sow (h : n.get? a = some m) : (sow a x n).get? a = some (m.append x) := by
  rw [sow, get?_graft (named_append x), reached_of_get? h]

theorem get?_sow_front (h : n.get? a = some m) (b : Address) :
    (sow (a ++ b) x n).get? a = some (sow b x m) := by
  rw [sow, get?_graft_front (named_append x), reached_of_get? h, sow]

theorem reached_sow : (sow a x n).reached a = (n.reached a).append x :=
  reached_graft (named_append x) a n

def Free (a : Address) (c : Bytes) (n : Node) : Prop := (n.reached a).child? c = none

theorem free_empty (a : Address) (c name : Bytes) : Free a c (empty name) := by
  obtain ⟨d, hd⟩ := reached_empty a name
  rw [Free, hd, child?_empty]

theorem sow_sow (hx : x.name = c) (h : Free a c n) :
    sow (a ++ [c]) y (sow a x n) = sow a (x.append y) n := by
  have hf : ((n.reached a).append x).child? c = some x := by
    rw [child?_append, h, if_pos hx, none_or]
  rw [sow, sow, graft_append, graft_graft (named_append x)]
  refine graft_congr ?_
  rw [graft_of_some hf, modifyChild_append h hx]
  rfl

theorem sow_missing (h : Free a c n) : sow (a ++ [c]) y n = sow a ((empty c).append y) n := by
  rw [sow, graft_append]
  exact graft_congr (graft_of_none h)

namespace Free

theorem sow (h : Free a d n) (hx : x.name ≠ d) : Free a d (sow a x n) := by
  rw [Free, reached_sow, child?_append, h, if_neg hx]
  rfl

/-- Below a node that was just added its own children are all there are. -/
theorem sow_below (h : Free a c n) (hx : x.name = c) (hd : x.child? d = none) :
    Free (a ++ [c]) d (Node.sow a x n) := by
  rw [Free, reached_append, reached_sow, reached, child?_append, h, if_pos hx]
  exact hd

theorem below (h : Free a c n) (d : Bytes) : Free (a ++ [c]) d n := by
  rw [Free, reached_append, reached, h]
  rfl

end Free

namespace Clear

/-- What is not on the way to an address, but at its end or behind it, is clear if its last node is
no link. -/
theorem concat (h : Clear a n) (hl : (n.reached (a ++ [c])).isLink = false) :
    Clear (a ++ [c]) n := by
  intro p hp
  rcases prefix_concat_iff.mp hp with rfl | hp
  · exact hl
  · exact h p hp

theorem sow (h : Clear a n) : Clear a (sow a x n) := by
  rintro p ⟨rest, rfl⟩
  have hp := h p (prefix_append p rest)
  rw [Node.sow, graft_append, reached_graft (graft_name (named_append x) rest)]
  cases rest with
  | nil => exact hp
  | cons e rest => rwa [graft_cons_isLink]

theorem sow_below (h : Clear a n) (hf : Free a c n) (hx : x.name = c) (hl : x.isLink = false) :
    Clear (a ++ [c]) (Node.sow a x n) := by
  refine h.sow.concat ?_
  rw [reached_append, reached_sow, reached, child?_append, hf, if_pos hx]
  exact hl

theorem below (h : Clear a n) (hf : Free a c n) : Clear (a ++ [c]) n := by
  refine h.concat ?_
  rw [reached_append, reached, hf]
  rfl

end Clear

def fresh (c : Bytes) (a : Assignment) : Node := ⟨c, a.value, a.isLink, a.attributes, []⟩

theorem assignAt_new {start name} (hm : n.get? start = some m) (h : Clear a m)
    (hf : Free a c m) (hp : components name = a ++ [c]) (hne : [] ∉ a ++ [c]) (v : Assignment) :
    n.assignAt start name v = (sow (start ++ a) (fresh c v) n, .ok (start ++ (a ++ [c]))) := by
  have hpa : Passable (a ++ [c]) m :=
    fun p hp hne => h p ((prefix_concat_iff.mp hp).resolve_left hne)
  have hpl : place v (start ++ (a ++ [c])) n = sow (start ++ a) (fresh c v) n := by
    rw [place, ← append_assoc, graft_append]
    refine graft_congr ?_
    rw [reached_append, reached_of_get? hm, graft_of_none hf]
    simp [graft, assign, fresh, empty, Attribute.merge]
  rw [← hpl, ← hp]
  exact assignAt_of_passable hm (hp ▸ hpa) (hp ▸ hne) v

def extend (x : Node) (ys : List Node) : Node := { x with children := x.children ++ ys }

def grow (a : Address) (xs : List Node) (n : Node) : Node := xs.foldl (fun n x => sow a x n) n

@[simp] theorem grow_nil : grow a [] n = n := rfl

@[simp] theorem grow_cons (xs : List Node) : grow a (x :: xs) n = grow a xs (sow a x n) := rfl

theorem Clear.grow (h : Clear a n) (xs : List Node) : Clear a (grow a xs n) := by
  induction xs generalizing n with
  | nil => exact h
  | cons x xs ih => exact ih h.sow

theorem Free.grow {xs} (h : Free a c n) (hxs : ∀ x ∈ xs, x.name ≠ c) : Free a c (grow a xs n) := by
  induction xs generalizing n with
  | nil => exact h
  | cons x xs ih => exact ih (h.sow (hxs x mem_cons_self)) fun y hy => hxs y (mem_cons_of_mem x hy)

theorem grow_root (ys : List Node) : grow [] ys n = n.extend ys := by
  induction ys generalizing n with
  | nil => simp [extend]
  | cons y ys ih => simp [ih, sow, graft, extend, append]

theorem grow_sow (hx : x.name = c) (h : Free a c n) (ys : List Node) :
    grow (a ++ [c]) ys (sow a x n) = sow a (x.extend ys) n := by
  induction ys generalizing x with
  | nil => simp [extend]
  | cons y ys ih =>
    rw [grow_cons, sow_sow hx h, ih (by simpa using hx)]
    simp [extend, append]

theorem grow_missing (h : Free a c n) {ys} (hy : ys ≠ []) :
    grow (a ++ [c]) ys n = sow a ((empty c).extend ys) n := by
  obtain ⟨y, ys, rfl⟩ := exists_cons_of_ne_nil hy
  rw [grow_cons, sow_missing h, grow_sow (by simp) h]
  simp [extend, append]

end TemplateKit.Node
