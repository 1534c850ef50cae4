import TemplateKit.Proofs.Data.Edit
import TemplateKit.Proofs.Data.Placement

/-!
# Copies lie over what was there

A copy assigns every node of its source. Where that has no attributes and its links have no
children, the result is told by addresses: a node of the source is there with its value, a node that
was there keeps its place, and new ones stand behind their siblings in the order of the source. A
second copy of the same source changes nothing.
-/

namespace TemplateKit

open List Option

namespace Node

variable {n m e s child : Node} {c : Bytes} {q : Address} {sources : List Node}

/-- The value of a node and whether it is a link. -/
def held (n : Node) : Option Bytes × Bool := (n.value, n.isLink)

/-- The names of the children at an address. -/
def childNames (n : Node) (q : Address) : List Bytes := (n.reached q).children.map (·.name)

/-- One level of a tree that can be copied node by node. -/
structure Copyable (n : Node) : Prop where
  link : n.isLink = true → n.children = []
  attributes : n.attributes = []
  distinct : n.DistinctNames
  names : ∀ m ∈ n.children, m.name ≠ [] ∧ dot ∉ m.name

/-- `e` is `n` with what is below `s` laid over it. -/
structure LaidOver (s n e : Node) : Prop where
  top : e.name = n.name ∧ e.own = n.own
  held : ∀ q, q ≠ [] → (e.get? q).map held = ((s.get? q).map held).or ((n.get? q).map held)
  attributes : ∀ q, (e.reached q).attributes = (n.reached q).attributes
  names : ∀ q, e.childNames q = n.childNames q ++ (s.childNames q).filter (· ∉ n.childNames q)

mutual

/-- What a copy of one node makes of the node with its name. -/
def cover (s m : Node) : Node :=
  match s with
  | ⟨_, value, isLink, attributes, children⟩ => lay children (m.assign ⟨value, isLink, attributes⟩)

/-- What copies of nodes make of the node that they come to stand under. -/
def lay (sources : List Node) (n : Node) : Node :=
  match sources with
  | [] => n
  | s :: rest => lay rest (graft (cover s) [s.name] n)

end

theorem cover_eq (s m : Node) : cover s m =
    lay s.children (m.assign ⟨s.value, s.isLink, s.attributes⟩) := by
  cases s
  rfl

theorem lay_top (sources : List Node) (n : Node) :
    (lay sources n).name = n.name ∧ (lay sources n).own = n.own := by
  induction sources generalizing n with
  | nil => exact ⟨rfl, rfl⟩
  | cons s rest ih =>
    rw [lay]
    exact ⟨(ih _).1.trans graft_cons_name, (ih _).2.trans graft_cons_own⟩

theorem cover_name (s m : Node) : (cover s m).name = m.name :=
  cover_eq s m ▸ (lay_top s.children _).1

theorem child?_lay (h : (sources.map (·.name)).Nodup) (n : Node) (c : Bytes) :
    (lay sources n).child? c =
      ((sources.find? (·.name == c)).map (cover · ((n.child? c).getD (empty c)))).or
        (n.child? c) := by
  induction sources generalizing n with
  | nil => rfl
  | cons s rest ih =>
    obtain ⟨hs, hrest⟩ := nodup_cons.mp h
    rw [lay, ih hrest, child?_graft (cover_name s)]
    by_cases hc : c = s.name
    · subst hc
      have hnone : rest.find? (·.name == s.name) = none := by
        simpa [find?_eq_none] using fun m hm heq => hs (mem_map.mpr ⟨m, hm, heq⟩)
      simp [hnone, graft]
    · simp [hc, Ne.symm hc]

theorem names_graft_one {f : Node → Node} (hf : ∀ n, (f n).name = n.name) :
    (graft f [c] n).children.map (·.name) =
      n.children.map (·.name) ++ [c].filter (· ∉ n.children.map (·.name)) := by
  cases h : n.child? c with
  | some child =>
    obtain ⟨hmem, hname⟩ := child?_some h
    have hc : c ∈ n.children.map (·.name) := mem_map.mpr ⟨child, hmem, hname⟩
    have hgraft : graft f [c] n = n.modifyChild c fun _ => f child := graft_of_some h
    rw [hgraft, names_modifyChild fun _ _ => (hf child).trans hname,
      filter_cons_of_neg (by simpa using hc)]
    simp
  | none =>
    have hc := child?_eq_none_iff.mp h
    rw [graft_of_none h, filter_cons_of_pos (by simpa using hc)]
    simp [graft, hf]

theorem names_lay (h : (sources.map (·.name)).Nodup) (n : Node) :
    (lay sources n).children.map (·.name) =
      n.children.map (·.name) ++ (sources.map (·.name)).filter (· ∉ n.children.map (·.name)) := by
  induction sources generalizing n with
  | nil => simp [lay]
  | cons s rest ih =>
    obtain ⟨hs, hrest⟩ := nodup_cons.mp h
    have hskip :
        (rest.map (·.name)).filter (· ∉ (graft (cover s) [s.name] n).children.map (·.name)) =
        (rest.map (·.name)).filter (· ∉ n.children.map (·.name)) := by
      refine filter_congr fun d hd => ?_
      have hne : d ≠ s.name := fun heq => hs (show s.name ∈ _ from heq ▸ hd)
      rw [names_graft_one (cover_name s)]
      simp [hne]
    rw [lay, ih hrest, hskip, names_graft_one (cover_name s), append_assoc, ← filter_append]
    rfl

/-- A child of a tree with another laid over it. -/
theorem child?_laid (hs : Everywhere Copyable s) (n : Node) (c : Bytes) :
    (lay s.children n).child? c =
      ((s.child? c).map (cover · ((n.child? c).getD (empty c)))).or (n.child? c) :=
        child?_lay hs.here.distinct n c

/-- Where the source has a node, there is the same laid over what an assignment makes of the one
that was there. -/
theorem held_laid (hs : Everywhere Copyable s) (n : Node) (hq : q ≠ []) :
    ((lay s.children n).get? q).map held = ((s.get? q).map held).or ((n.get? q).map held) := by
  induction q generalizing s n with
  | nil => exact absurd rfl hq
  | cons c q ih =>
    rw [get?, get?, get?, child?_laid hs]
    cases hk : s.child? c with
    | none => simp
    | some k =>
      simp only [map_some, some_or, bind_some, cover_eq]
      cases q with
      | nil => exact congrArg (fun o => some (o.1, o.2.1)) (lay_top k.children _).2
      | cons d q =>
        rw [ih (hs.child? hk) _ (cons_ne_nil d q)]
        congr 1
        cases n.child? c <;> rfl

theorem attributes_laid (hs : Everywhere Copyable s) (n : Node) (q : Address) :
    ((lay s.children n).reached q).attributes = (n.reached q).attributes := by
  induction q generalizing s n with
  | nil => exact congrArg (·.2.2) (lay_top s.children n).2
  | cons c q ih =>
    rw [reached, child?_laid hs]
    cases hk : s.child? c with
    | none => rfl
    | some k =>
      rw [map_some, some_or, getD_some, cover_eq, ih (hs.child? hk),
        (hs.child? hk).here.attributes, reached]
      cases q with
      | nil => exact Attribute.merge_nil _
      | cons d q => rfl

theorem childNames_laid (hs : Everywhere Copyable s) (n : Node) (q : Address) :
    (lay s.children n).childNames q =
      n.childNames q ++ (s.childNames q).filter (· ∉ n.childNames q) := by
  induction q generalizing s n with
  | nil => exact names_lay hs.here.distinct n
  | cons c q ih =>
    rw [childNames, reached, child?_laid hs]
    cases hk : s.child? c with
    | none =>
      obtain ⟨d, hd⟩ := reached_empty q c
      have hnone : s.childNames (c :: q) = [] := by
        rw [childNames, reached, hk, getD_none, hd]
        rfl
      rw [hnone, filter_nil, append_nil]
      rfl
    | some k =>
      rw [map_some, some_or, getD_some, cover_eq]
      refine (ih (hs.child? hk) _).trans ?_
      simp only [childNames, reached, hk, getD_some]
      cases q <;> rfl

theorem laidOver_lay (hs : Everywhere Copyable s) (n : Node) : LaidOver s n (lay s.children n) where
  top := lay_top _ n
  held _ := held_laid hs n
  attributes := attributes_laid hs n
  names := childNames_laid hs n

theorem get?_of_mem (h : n.DistinctNames) (hm : m ∈ n.children) (q : Address) :
    n.get? (m.name :: q) = m.get? q := by
  have hfound : n.child? m.name = some m := find?_of_nodup h hm
  rw [get?, hfound, bind_some]

/-- A copy changes nothing where all that it brings is there. -/
theorem lay_self (hs : ∀ s ∈ sources, Everywhere Copyable s)
    (h : ∀ s ∈ sources, ∀ q k, s.get? q = some k → (e.get? (s.name :: q)).map held = some k.held) :
    lay sources e = e := by
  induction sources using forest_induction generalizing e with
  | nil => rfl
  | cons s rest hbelow hrest =>
    have hown : (e.get? [s.name]).map held = some s.held := h s mem_cons_self [] s rfl
    obtain ⟨child, hget, hheld⟩ := map_eq_some_iff.mp hown
    have hchild : e.child? s.name = some child := by simpa [get?] using hget
    have hcopy := hs s mem_cons_self
    have hassign : child.assign ⟨s.value, s.isLink, s.attributes⟩ = child := by
      obtain ⟨hvalue, hlink⟩ := Prod.mk.inj hheld
      rw [assign, hcopy.here.attributes, Attribute.merge_nil, ← hvalue, ← hlink]
      exact eta child
    have hlaid : lay s.children child = child := by
      refine hbelow hcopy.children fun k hk q x hx => ?_
      have hthere :=
        h s mem_cons_self (k.name :: q) x ((get?_of_mem hcopy.here.distinct hk q).trans hx)
      rwa [get?, hchild, bind_some] at hthere
    have hcover : graft (cover s) [s.name] e = e.modifyChild s.name fun _ => cover s child :=
      graft_of_some hchild
    rw [lay, hcover, cover_eq, hassign, hlaid, modifyChild_self hchild]
    exact hrest (fun k hk => hs k (mem_cons_of_mem s hk)) fun k hk => h k (mem_cons_of_mem s hk)

theorem lay_lay (hs : Everywhere Copyable s) (n : Node) : lay s.children (lay s.children n) =
    lay s.children n := by
  refine lay_self hs.children fun k hk q x hx => ?_
  rw [(laidOver_lay hs n).held _ (cons_ne_nil _ _), get?_of_mem hs.here.distinct hk, hx]
  rfl

section Copy

variable {root : Node} {start : Address} {name : Bytes}

theorem overlay_eq (root : Node) (start : Address) (s : Node) :
    DataTree.overlay root start s = DataTree.overlayAll root start s.children := by
  cases s
  rfl

theorem passable_singleton (hl : n.isLink = false) (c : Bytes) : Passable [c] n := by
  intro p hp hproper
  rcases prefix_cons_iff.mp hp with rfl | ⟨q, rfl, hq⟩
  · exact hl
  · exact absurd (by rw [prefix_nil.mp hq]) hproper

/-- Nodes with one component as their name are laid below a node that is no link. -/
theorem overlayAll_eq (hs : ∀ s ∈ sources, Everywhere Copyable s ∧ s.name ≠ [] ∧ dot ∉ s.name)
    (hn : root.get? start = some n) (hl : n.isLink = false) :
    DataTree.overlayAll root start sources = (graft (lay sources) start root, .ok ()) := by
  induction sources using forest_induction generalizing root start n with
  | nil =>
    rw [graft_of_get? hn, lay, modify_self hn]
    rfl
  | cons s rest hbelow hrest =>
    obtain ⟨hcopy, hne, hdot⟩ := hs s mem_cons_self
    let a : Assignment := ⟨s.value, s.isLink, s.attributes⟩
    have hname : components s.name = [s.name] := by
      rw [components_eq_splitByte hne, Bytes.splitByte_of_not_mem hdot]
    have hpass : Passable (components s.name) n := hname ▸ passable_singleton hl s.name
    have hassign : DataTree.assignAt root start s.name a =
        (place a (start ++ [s.name]) root, .ok (start ++ [s.name])) :=
      hname ▸ assignAt_of_passable hn hpass (by simp [hname, hne.symm]) a
    have hthere := get?_graft (keepsShape_assign a).name (start ++ [s.name]) root
    have hchildren : DataTree.overlayAll (place a (start ++ [s.name]) root) (start ++ [s.name])
        s.children =
        (graft (lay s.children) (start ++ [s.name]) (place a (start ++ [s.name]) root),
          .ok ()) := by
      cases hlink : s.isLink with
      | true =>
        rw [hcopy.here.link hlink, place, graft_of_get? hthere, lay, modify_self hthere]
        rfl
      | false => exact hbelow (fun k hk =>
        ⟨hcopy.children k hk, hcopy.here.names k hk⟩) hthere hlink
    have hboth : graft (lay s.children) (start ++ [s.name]) (place a (start ++ [s.name]) root) =
        graft (graft (cover s) [s.name]) start root := by
      have hcover : (fun m => lay s.children (m.assign a)) = cover s :=
        funext fun m => (cover_eq s m).symm
      rw [place, graft_graft (keepsShape_assign a).name, hcover, graft_append]
    have hkept := get?_graft (f := graft (cover s) [s.name]) (fun _ => graft_cons_name) start root
    rw [reached_of_get? hn] at hkept
    rw [DataTree.overlayAll]
    simp only [a, hassign, overlay_eq, hchildren, hboth]
    rw [hrest (fun k hk => hs k (mem_cons_of_mem s hk)) hkept (graft_cons_isLink.trans hl),
      graft_graft fun _ => graft_cons_name]
    rfl

theorem copyAt_eq (hm : root.get? start = some m) (h : Clear (components name) m)
    (hname : [] ∉ components name)
    (hs : Everywhere Copyable s) : DataTree.copyAt root start name (some s) =
      (graft (lay s.children) (start ++ components name) root, .ok ()) := by
  have hensure : DataTree.ensureAt root start name =
      (graft id (start ++ components name) root, .ok (start ++ components name)) :=
        ensureAt_of_clear hm h hname
  have hthere := get?_graft keepsShape_id.name (start ++ components name) root
  have hl : (root.reached (start ++ components name)).isLink = false := by
    rw [reached_append, reached_of_get? hm]
    exact h _ prefix_rfl
  simp only [DataTree.copyAt, hensure, overlay_eq]
  rw [overlayAll_eq (fun k hk => ⟨hs.children k hk, hs.here.names k hk⟩) hthere hl,
    graft_graft keepsShape_id.name]
  rfl

/-- The second copy finds all that it brings. -/
theorem copyAt_laid (hm : root.get? start = some m) (h : Clear (components name) m)
    (hname : [] ∉ components name) (hs : Everywhere Copyable s) :
    let laid := graft (lay s.children) (start ++ components name) root
    DataTree.copyAt laid start name (some s) = (laid, .ok ()) := by
  intro laid
  have hnamed : ∀ n, (lay s.children n).name = n.name := fun n => (lay_top _ n).1
  have hm' : laid.get? start = some (graft (lay s.children) (components name) m) := by
    rw [get?_graft_front hnamed, reached_of_get? hm]
  have hclear : Clear (components name) (graft (lay s.children) (components name) m) := by
    rintro p ⟨rest, hrest⟩
    have hp := h p ⟨rest, hrest⟩
    rw [← hrest, reached_of_get? (get?_graft_front hnamed p rest m)]
    cases rest with
    | nil => exact (congrArg (·.2.1) (lay_top s.children (m.reached p)).2).trans hp
    | cons c rest => exact graft_cons_isLink.trans hp
  rw [copyAt_eq hm' hclear hname hs, graft_graft hnamed,
    graft_congr (lay_lay hs (root.reached (start ++ components name)))]

end Copy

theorem LaidOver.keepsOrder (h : LaidOver s n e) : n.KeepsOrder e := by
  intro q old hold
  obtain ⟨new, hnew⟩ : ∃ new, e.get? q = some new := by
    cases q with
    | nil => exact ⟨e, rfl⟩
    | cons c q =>
      have hheld := h.held (c :: q) (cons_ne_nil c q)
      cases hnew : e.get? (c :: q) with
      | some new => exact ⟨new, rfl⟩
      | none =>
        rw [hnew, hold] at hheld
        cases hs : s.get? (c :: q) <;> simp [hs] at hheld
  have hnames := h.names q
  rw [childNames, childNames, reached_of_get? hold, reached_of_get? hnew] at hnames
  exact ⟨new, hnew, hnames ▸ prefix_append _ _⟩

/-- A copy of a tree to an address that no link is on the way to. What is there afterwards is the
source laid over what was there, and nothing else changes, but for nodes that are made on the way.
The second copy changes nothing. A tree with an index goes through the same. -/
theorem copyAt_lays_over (root s : Node) (start : Address) (name : Bytes) (m : Node)
    (hm : root.get? start = some m)
    (h : Clear (components name) m) (hname : [] ∉ components name) (hs : Everywhere Copyable s) :
    let address := start ++ components name
    ∃ root', DataTree.copyAt root start name (some s) = (root', .ok ()) ∧
      (∃ e, root'.get? address = some e ∧ LaidOver s (root.reached address) e) ∧
      (∀ q, ¬q <+: address → ¬address <+: q → root'.get? q = root.get? q) ∧
      (∀ q, q <+: address → q ≠ address → (root'.get? q).map own = some (root.reached q).own) ∧
      root.KeepsOrder root' ∧
      DataTree.copyAt root' start name (some s) = (root', .ok ()) ∧
      ∀ t : IndexedNode, t.Sound → t.plain = root →
        ∃ t', DataTree.copyAt t start name (some s) = (t', .ok ()) ∧ t'.plain = root' ∧
          ∃ t'', DataTree.copyAt t' start name (some s) = (t'', .ok ()) ∧ t''.plain = root' := by
  intro address
  have hcopy : DataTree.copyAt root start name (some s) =
      (graft (lay s.children) address root, .ok ()) :=
    copyAt_eq hm h hname hs
  have hnamed : ∀ n, (lay s.children n).name = n.name := fun n => (lay_top _ n).1
  have htwice : DataTree.copyAt (graft (lay s.children) address root) start name (some s) =
      (graft (lay s.children) address root, .ok ()) :=
    copyAt_laid hm h hname hs
  refine ⟨_, hcopy, ⟨_, get?_graft hnamed address root, laidOver_lay hs _⟩,
    fun q => get?_graft_apart hnamed, ?_, ?_, htwice, ?_⟩
  · rintro q ⟨rest, hrest⟩ hne
    rw [← hrest, get?_graft_front hnamed]
    cases rest with
    | nil => exact absurd (by rw [← hrest, append_nil]) hne
    | cons c rest => exact congrArg some graft_cons_own
  · exact .graft hnamed (fun n => (laidOver_lay hs n).keepsOrder) address
  · rintro t ht rfl
    obtain ⟨hsound, hplain, hanswer⟩ := IndexedNode.copyAt_refines ht start name (some s)
    rw [hcopy] at hplain hanswer
    obtain ⟨-, hsame, hagain⟩ := IndexedNode.copyAt_refines hsound start name (some s)
    rw [hplain, htwice] at hsame hagain
    exact ⟨_, Prod.ext rfl hanswer, hplain, _, Prod.ext rfl hagain, hsame⟩

/-- A node without a value takes the value away, and a link comes behind it. -/
theorem copyAt_lays_over_value :
    let b : Node := ⟨ascii "b", none, false, [], []⟩
    let link : Node := ⟨ascii "c", some (ascii "x"), true, [], []⟩
    let s : Node := ⟨[], none, false, [], [link, b]⟩
    let root : Node := ⟨[], none, false, [], [{ b with value := some [] }]⟩
    (root.LinkFree ∧ Everywhere Copyable s) ∧ ∃ root', DataTree.copyAt root [] []
    (some s) = (root', .ok ()) ∧
      root'.childNames [] = [b.name, link.name] ∧ (root'.get? [b.name]).map held = some b.held ∧
      DataTree.copyAt root' [] [] (some s) = (root', .ok ()) := by
  intro b link s root
  have hleaf : ∀ name value isLink, Everywhere Copyable ⟨name, value, isLink, [], []⟩ :=
    fun _ _ _ =>
    ⟨⟨fun _ => rfl, rfl, nodup_nil, by simp⟩, by simp⟩
  have hs : Everywhere Copyable s := by
    refine ⟨⟨fun h => absurd h (by decide), rfl, by decide, by decide⟩, fun m hm => ?_⟩
    obtain rfl | rfl : m = link ∨ m = b := by simpa [s] using hm
    · exact hleaf _ _ _
    · exact hleaf _ _ _
  have hroot : root.LinkFree := by
    refine ⟨rfl, fun m hm => ?_⟩
    rw [mem_singleton.mp hm]
    exact ⟨rfl, by simp [b]⟩
  obtain ⟨root', hcopy, ⟨e, he, hlaid⟩, -, -, -, htwice, -⟩ :=
    copyAt_lays_over root s [] [] root rfl (hroot.clear _) (by decide) hs
  obtain rfl : root' = e := Option.some.inj he
  exact ⟨⟨hroot, hs⟩, root', hcopy, (hlaid.names []).trans (by decide),
    (hlaid.held _ (by decide)).trans (by decide), htwice⟩

end Node

end TemplateKit
