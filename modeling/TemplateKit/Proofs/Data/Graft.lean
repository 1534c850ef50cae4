import TemplateKit.Proofs.Data.Node

/-!
# Changes at an address

A change at an address makes the nodes that are missing on the way, each behind its siblings.
Together with the node that it meets, which is an empty one where there was none, it obeys the laws
of a lens: changes at one address are one change, and a change below an address is a change at it.
An assignment is such a change, whatever links send it on.
-/

namespace TemplateKit.Node

open List Option

variable {n m x child : Node} {a b : Address} {c : Bytes} {f g : Node → Node}

/-- A node under a new name is the one that a change of that name meets. -/
theorem modifyChild_append (h : n.child? c = none) (hx : x.name = c) :
    (n.append x).modifyChild c f = n.append (f x) := by
  have hfr : ∀ m ∈ n.children, m.name ≠ c := by simpa [child?] using h
  simp only [modifyChild, append]
  rw [modifyChild_go_append hfr hx]

theorem modifyChild_replaced (h : n.child? c = some child) (hx : x.name = c) :
    (n.modifyChild c fun _ => x).modifyChild c f = n.modifyChild c fun _ => f x := by
  obtain ⟨front, back, hs, hfr, hc⟩ := child?_split h
  simp only [modifyChild]
  rw [hs, modifyChild_go_append hfr hc, modifyChild_go_append hfr hc, modifyChild_go_append hfr hx]

/-- Changes the node at an address. -/
def graft (f : Node → Node) : Address → Node → Node
  | [], n => f n
  | c :: rest, n =>
    match n.child? c with
    | some child => n.modifyChild c fun _ => graft f rest child
    | none => n.append (graft f rest (empty c))

/-- The node at an address, or what would be made there. -/
def reached (n : Node) : Address → Node
  | [] => n
  | c :: rest => reached ((n.child? c).getD (empty c)) rest

theorem graft_of_some (h : n.child? c = some child) :
    graft f (c :: a) n = n.modifyChild c fun _ => graft f a child := by
  simp [graft, h]

theorem graft_of_none (h : n.child? c = none) :
    graft f (c :: a) n = n.append (graft f a (empty c)) := by
  simp [graft, h]

/-- What a node holds, apart from its name and children. -/
def own (n : Node) : Option Bytes × Bool × List Attribute := (n.value, n.isLink, n.attributes)

theorem graft_cons_name : (graft f (c :: a) n).name = n.name := by
  cases h : n.child? c <;> simp [graft, h]

theorem graft_cons_own : (graft f (c :: a) n).own = n.own := by
  cases h : n.child? c <;> simp only [graft, h] <;> rfl

@[simp] theorem graft_cons_isLink : (graft f (c :: a) n).isLink = n.isLink :=
  congrArg (·.2.1) graft_cons_own

theorem graft_append (a b : Address) (n : Node) : graft f (a ++ b) n = graft (graft f b) a n := by
  induction a generalizing n with
  | nil => rfl
  | cons c a ih => cases h : n.child? c <;> simp only [cons_append, graft, ih]

theorem reached_append (a b : Address) (n : Node) :
    n.reached (a ++ b) = (n.reached a).reached b := by
  induction a generalizing n with
  | nil => rfl
  | cons c a ih => exact ih _

theorem graft_congr (h : f (n.reached a) = g (n.reached a)) : graft f a n = graft g a n := by
  induction a generalizing n with
  | nil => exact h
  | cons c a ih =>
    rw [reached] at h
    cases hc : n.child? c with
    | some child => rw [graft_of_some hc, graft_of_some hc, ih (by rwa [hc] at h)]
    | none => rw [graft_of_none hc, graft_of_none hc, ih (by rwa [hc] at h)]

theorem reached_of_get? (h : n.get? a = some m) : n.reached a = m := by
  induction a generalizing n with
  | nil => exact Option.some.inj h
  | cons c a ih =>
    obtain ⟨child, hc, hm⟩ := bind_eq_some_iff.mp h
    rw [reached, hc]
    exact ih hm

theorem reached_empty (a : Address) (c : Bytes) : ∃ d, (empty c).reached a = empty d := by
  induction a generalizing c with
  | nil => exact ⟨c, rfl⟩
  | cons e a ih => exact ih e

theorem reached_of_none (h : n.get? a = none) : ∃ c, n.reached a = empty c := by
  induction a generalizing n with
  | nil => cases h
  | cons c a ih =>
    rw [reached]
    cases hc : n.child? c with
    | none => exact reached_empty a c
    | some child => exact ih (by simpa [get?, hc] using h)

theorem graft_of_get? (h : n.get? a = some m) : graft f a n = n.modify a fun _ => f m := by
  induction a generalizing n with
  | nil =>
    cases h
    rfl
  | cons c a ih =>
    obtain ⟨child, hc, hm⟩ := bind_eq_some_iff.mp h
    rw [graft_of_some hc, ih hm]
    exact (modifyChild_eq (f := (·.modify a fun _ => f m)) hc).symm

theorem modify_of_none (h : n.get? a = none) : n.modify a f = n := by
  induction a generalizing n with
  | nil => cases h
  | cons c a ih =>
    rw [modify]
    cases hc : n.child? c with
    | none => exact modifyChild_of_none hc
    | some child =>
      have hch : child.get? a = none := by simpa [get?, hc] using h
      rw [modifyChild_eq hc, ih hch, modifyChild_self hc]

theorem modify_of_get? (h : n.get? a = some m) : n.modify a f = graft f a n :=
  (modify_eq h).trans (graft_of_get? h).symm

section Named

variable (hf : ∀ n, (f n).name = n.name)

include hf

theorem graft_name (a : Address) (n : Node) : (graft f a n).name = n.name := by
  cases a with
  | nil => exact hf n
  | cons c a => exact graft_cons_name

theorem child?_graft (d : Bytes) : (graft f (c :: a) n).child? d =
      if d = c then some (graft f a ((n.child? c).getD (empty c))) else n.child? d := by
  cases h : n.child? c with
  | some child =>
    have hn := (graft_name hf a child).trans (child?_some h).2
    rw [graft_of_some h, child?_modifyChild fun _ _ => hn, h]
    rfl
  | none =>
    rw [graft_of_none h, child?_append, graft_name hf]
    by_cases hd : d = c
    · simp [hd, h]
    · simp [hd, Ne.symm hd]

theorem graft_graft (a : Address) (n : Node) :
    graft g a (graft f a n) = graft (fun m => g (f m)) a n := by
  induction a generalizing n with
  | nil => rfl
  | cons c a ih =>
    have hfo : (graft f (c :: a) n).child? c = some (graft f a ((n.child? c).getD (empty c))) := by
      rw [child?_graft hf, if_pos rfl]
    rw [graft_of_some hfo, ih]
    cases h : n.child? c with
    | some child =>
      rw [graft_of_some h, graft_of_some h,
        modifyChild_replaced h ((graft_name hf a child).trans (child?_some h).2)]
      rfl
    | none =>
      rw [graft_of_none h, graft_of_none h, modifyChild_append h (graft_name hf a _)]
      rfl

theorem get?_graft (a : Address) (n : Node) : (graft f a n).get? a = some (f (n.reached a)) := by
  induction a generalizing n with
  | nil => rfl
  | cons c a ih =>
    rw [get?, child?_graft hf, if_pos rfl]
    exact ih _

theorem reached_graft (a : Address) (n : Node) : (graft f a n).reached a = f (n.reached a) :=
  reached_of_get? (get?_graft hf a n)

theorem get?_graft_front (a b : Address) (n : Node) :
    (graft f (a ++ b) n).get? a = some (graft f b (n.reached a)) := by
  rw [graft_append, get?_graft (graft_name hf b)]

theorem get?_graft_apart {q} (h : ¬q <+: a) (h' : ¬a <+: q) : (graft f a n).get? q = n.get? q := by
  induction a generalizing n q with
  | nil => exact absurd nil_prefix h'
  | cons c a ih =>
    cases q with
    | nil => exact absurd nil_prefix h
    | cons d q =>
      rw [get?, get?, child?_graft hf]
      by_cases hd : d = c
      · subst hd
        simp only [cons_prefix_cons, true_and] at h h'
        rw [if_pos rfl, bind_some, ih h h']
        cases n.child? d with
        | some child => rfl
        | none =>
          cases q with
          | nil => exact absurd nil_prefix h
          | cons e q => rfl
      · rw [if_neg hd]

end Named

/-- A change of nothing but what a node holds. -/
structure KeepsShape (f : Node → Node) : Prop where
  name : ∀ n, (f n).name = n.name
  children : ∀ n, (f n).children = n.children

theorem keepsShape_id : KeepsShape id := ⟨fun _ => rfl, fun _ => rfl⟩

theorem keepsShape_assign (a : Assignment) : KeepsShape (·.assign a) := ⟨fun _ => rfl, fun _ => rfl⟩

section Shape

variable (hf : KeepsShape f)

include hf

/-- A change of what one node holds leaves all alone that is not on the way to it. -/
theorem get?_graft_aside {q} (h : ¬q <+: a) : (graft f a n).get? q = n.get? q := by
  by_cases h' : a <+: q
  · obtain ⟨r, rfl⟩ := h'
    cases r with
    | nil => exact absurd ⟨[], by rw [append_nil, append_nil]⟩ h
    | cons d r =>
      rw [get?_append, get?_append, get?_graft hf.name, bind_some, get?, child?, hf.children]
      cases hm : n.get? a with
      | some m =>
        rw [reached_of_get? hm]
        rfl
      | none =>
        obtain ⟨e, he⟩ := reached_of_none hm
        rw [he]
        rfl
  · exact get?_graft_apart hf.name h h'

theorem seen_graft {α : Type} {view : Node → α}
    (hv : ∀ n m : Node, n.value = m.value → n.isLink = m.isLink → n.attributes = m.attributes →
      view n = view m)
    (a q : Address) (n : Node) : ((graft f a n).get? q).map view =
      if q = a then some (view (f (n.reached a)))
      else if q <+: a then some (view (n.reached q)) else
        (n.get? q).map view := by
  by_cases hq : q <+: a
  · obtain ⟨rest, rfl⟩ := hq
    rw [get?_graft_front hf.name, if_pos (prefix_append _ _)]
    cases rest with
    | nil => simp [graft]
    | cons c rest =>
      rw [if_neg (by simp)]
      cases h : (n.reached q).child? c with
      | some child => exact congrArg some (graft_of_some h ▸ hv _ _ rfl rfl rfl)
      | none => exact congrArg some (graft_of_none h ▸ hv _ _ rfl rfl rfl)
  · have hne : q ≠ a := fun heq => hq (heq ▸ prefix_rfl)
    rw [get?_graft_aside hf hq, if_neg hne, if_neg hq]

end Shape

/-- A property of a node and of all below it that the nodes on the way keep and that new ones have.
-/
theorem Everywhere.graft {P} (h : n.Everywhere P) (hf : ∀ n, (f n).name = n.name)
    (he : ∀ c, P (empty c)) (ha : ∀ n x : Node, P n → n.child? x.name = none → P (n.append x))
    (hm : ∀ (n x : Node), P n → P (n.modifyChild x.name fun _ => x))
    (hp : ∀ m : Node, m.Everywhere P → (f m).Everywhere P)
    (a : Address) : (graft f a n).Everywhere P := by
  induction a generalizing n with
  | nil => exact hp n h
  | cons c a ih =>
    cases hc : n.child? c with
    | some child =>
      have hna := (graft_name hf a child).trans (child?_some hc).2
      have hn := hm n (Node.graft f a child) h.here
      rw [hna] at hn
      rw [graft_of_some hc]
      exact h.modifyChild hn fun _ _ => ih (h.child? hc)
    | none =>
      rw [graft_of_none hc]
      exact h.append (ha n _ h.here (by rwa [graft_name hf])) (ih ⟨he c, by simp [empty]⟩)

section Assignment

variable {s : Assignment} {start path goal : Address} {name d : Bytes} {placement : Placement}
  {result : Node × Except DataFault Address}

theorem isLink_of_get?_empty {q} (h : (empty c).get? q = some m) : m.isLink = false := by
  cases q with
  | nil =>
    cases h
    rfl
  | cons d q => cases h

/-- How an assignment below a node ends: it changes the node at its path, or it stops in front of an
empty component and leaves the nodes that it made, or a link sends it on. -/
inductive Placed (s : Assignment) (n : Node) (path : Address) : Placement → Prop
  | done (hp : [] ∉ path) : Placed s n path (.done (graft (·.assign s) path n) path)
  | refused {q : Address} (hq : q <+: path) (hp : [] ∈ path) :
      Placed s n path (.refused (graft id q n))
  | redirected {q : Address} {m : Node} (hm : n.get? q = some m) (hl : m.isLink =
      true) (rest : Bytes) :
      Placed s n path (.redirected (m.target ++ dot :: rest))

theorem Placed.under {embed} (h : Placed s x path placement) (hc : c ≠ [])
    (hg : ∀ f q, graft f (c :: q) n = embed (graft f q x))
    (hget : ∀ q m, x.get? q = some m → m.isLink = true → n.get? (c :: q) = some m) :
    Placed s n (c :: path) (placement.under c embed) := by
  cases h with
  | done hp =>
    rw [Placement.under, ← hg]
    exact .done (by simpa [Ne.symm hc] using hp)
  | refused hq hp =>
    rw [Placement.under, ← hg]
    exact .refused (cons_prefix_cons.mpr ⟨rfl, hq⟩) (mem_cons_of_mem c hp)
  | redirected hm hl rest => exact .redirected (hget _ _ hm hl) hl rest

theorem put_placed (s : Assignment) (path : Address) (n : Node) :
    Placed s n path (put s path n) := by
  induction path generalizing n with
  | nil => exact .done not_mem_nil
  | cons c rest ih =>
    by_cases hc : c = []
    · subst hc
      exact .refused nil_prefix mem_cons_self
    have he : c.isEmpty = false := by simpa using hc
    rw [put, he, if_neg Bool.false_ne_true]
    cases hn : n.child? c with
    | some child =>
      dsimp only
      split
      · next hl => exact .redirected (q := [c]) (by
          simp [get?, hn]) (Bool.and_eq_true_iff.mp hl).1 _
      · exact (ih child).under hc (fun _ _ => graft_of_some hn) fun q m hm _ => by
          rw [get?, hn]; exact hm
    | none =>
      refine (ih (empty c)).under hc (fun _ _ => graft_of_none hn) fun q m hm hl => ?_
      cases (isLink_of_get?_empty hm).symm.trans hl

/-- How an assignment ends that goes for an address: it changes the node there, or it makes some
nodes on the way. -/
inductive Ending (s : Assignment) (n : Node) (goal : Address) :
    Node × Except DataFault Address → Prop
  | stored : Ending s n goal (graft (·.assign s) goal n, .ok goal)
  | stopped {path : Address} (hpath : path <+: goal) (e : DataFault) :
      Ending s n goal (graft id path n, .error e)

/-- Whatever links send an assignment on, it goes for an address with each property that the names
have to which they lead. -/
theorem assignFrom_ending {W : Address → Prop}
    (hW : ∀ q m, n.get? q = some m → m.isLink = true →
      ∀ rest, W (components (m.target ++ dot :: rest)))
    (fuel : Nat) (h : W (start ++ components name)) : ∃ goal, W goal ∧
      Ending s n goal (n.assignFrom s fuel start name) := by
  induction fuel generalizing start name with
  | zero => exact ⟨_, h, .stopped nil_prefix _⟩
  | succ fuel ih =>
    rw [assignFrom]
    cases hm : n.get? start with
    | none => exact ⟨_, h, .stopped nil_prefix _⟩
    | some m =>
      dsimp only
      split
      · exact ⟨_, h, .stopped nil_prefix _⟩
      split
      · next hl => exact ih (hW start m hm (Bool.and_eq_true_iff.mp hl).1 name)
      have hp := put_placed s (components name) m
      have hs : ∀ f q, graft f (start ++ q) n = n.modify start fun _ => graft f q m := fun f q => by
        rw [graft_append, graft_of_get? hm]
      split
      · next hput =>
        rw [hput] at hp
        cases hp
        refine ⟨_, h, ?_⟩
        rw [← hs]
        exact .stored
      · next hput =>
        rw [hput] at hp
        cases hp with
        | refused hq =>
          refine ⟨_, h, ?_⟩
          rw [← hs]
          exact .stopped ((prefix_append_right_inj start).mpr hq) _
      · next hput =>
        rw [hput] at hp
        cases hp with
        | redirected hk hl rest => exact ih (hW _ _ (by rw [get?_append, hm]; exact hk) hl rest)

theorem assignAt_ending (s : Assignment) (start : Address) (name : Bytes) (n : Node) :
    ∃ goal, Ending s n goal (n.assignAt start name s) := by
  obtain ⟨goal, -, hend⟩ :=
    assignFrom_ending (W := fun _ => True) (fun _ _ _ _ _ => trivial) _ trivial
  exact ⟨goal, hend⟩

theorem Ending.graft (h : Ending s n goal result) :
    ∃ f path, KeepsShape f ∧ result.1 = graft f path n := by
  cases h with
  | stored => exact ⟨_, _, keepsShape_assign s, rfl⟩
  | stopped => exact ⟨_, _, keepsShape_id, rfl⟩

theorem Ending.first (h : Ending s n goal result) (hd : goal.head? = some d) :
    result.1 = n ∨ ∃ f rest, KeepsShape f ∧ result.1 = Node.graft f (d :: rest) n := by
  obtain ⟨tail, rfl⟩ := head?_eq_some_iff.mp hd
  cases h with
  | stored => exact .inr ⟨_, _, keepsShape_assign s, rfl⟩
  | @stopped path hp e =>
    cases path with
    | nil => exact .inl rfl
    | cons e path =>
      obtain ⟨rfl, -⟩ := cons_prefix_cons.mp hp
      exact .inr ⟨_, _, keepsShape_id, rfl⟩

end Assignment

/-!
## What single nodes hold

The content of a node is its value, whether it is a link, and its attributes. A property of contents
that the empty content has and that an assignment keeps holds everywhere in a tree after the
assignment if it did before, wherever links send it.
-/

theorem modify_modify (hf : ∀ m, (f m).name = m.name) (a : Address) :
    (n.modify a f).modify a g = n.modify a fun m => g (f m) := by
  cases hm : n.get? a with
  | none => rw [modify_of_none hm, modify_of_none hm, modify_of_none hm]
  | some m => rw [modify_of_get? hm, modify_of_get? (get?_graft hf a n), graft_graft hf,
      modify_of_get? hm]

/-- An assignment without a name changes the node at its start, also if that is a link. -/
theorem assignAt_nil (root : Node) (start : Address) (a : Assignment) :
    (root.assignAt start [] a).1 = root.modify start (·.assign a) := by
  obtain ⟨fuel, hf⟩ := root.assignAt_eq start [] a
  rw [hf, assignFrom]
  cases hn : root.get? start with
  | none => rw [modify_of_none hn]
  | some n =>
    rw [modify_eq hn]
    simp [components, put]

theorem setAttributeAt_nil (root : Node) (start : Address) (key : Bytes) (value : Option Bytes) :
    (root.setAttributeAt start [] key value).1 =
      root.modify start fun n => { n with attributes := Attribute.set n.attributes key value } := by
  cases hn : root.get? start with
  | none =>
    rw [modify_of_none hn]
    simp [setAttributeAt, locate?, hn]
  | some n => simp [setAttributeAt, locate?, hn, components]

/-- A property of what a node holds, apart from its name and children. -/
abbrev Content := Option Bytes → Bool → List Attribute → Prop

/-- A property of contents, of a node and of all below it. -/
def Holds (P : Content) (n : Node) : Prop := n.Everywhere fun n => P n.value n.isLink n.attributes

namespace Holds

variable {P : Content} {root n m : Node} {f : Node → Node}

theorem modify (h : n.Holds P) {a} (hf : ∀ m, n.get? a = some m → m.Holds P → (f m).Holds P) :
    (n.modify a f).Holds P := by
  induction a generalizing n with
  | nil => exact hf n rfl h
  | cons c a ih =>
    apply Everywhere.modifyChild h
    · exact h.here
    · intro child hc
      refine ih (Everywhere.child? h hc) fun m hm => hf m ?_
      simpa [get?, hc] using hm

theorem content (h : n.Holds P) (hm : P m.value m.isLink m.attributes)
    (hc : m.children = n.children) :
    m.Holds P := ⟨hm, hc ▸ h.children⟩

section Assignment

variable {a : Assignment} (hempty : P none false [])
  (hassign : ∀ n : Node, P n.value n.isLink n.attributes →
    P (n.assign a).value (n.assign a).isLink (n.assign a).attributes)

include hempty hassign

theorem assignAt (h : root.Holds P) (start : Address) (name : Bytes) :
    (root.assignAt start name a).1.Holds P := by
  obtain ⟨goal, hend⟩ := assignAt_ending a start name root
  have hg : ∀ {f : Node → Node}, (∀ n, (f n).name = n.name) →
      (∀ n : Node, n.Holds P → (f n).Holds P) →
      ∀ path, (graft f path root).Holds P := fun hf hp =>
    Everywhere.graft h hf (fun _ => hempty) (fun _ _ hn _ => hn) (fun _ _ hn => hn) hp
  generalize root.assignAt start name a = result at hend ⊢
  cases hend with
  | stored => exact hg (keepsShape_assign a).name (fun n hn =>
    content hn (hassign n hn.here) rfl) goal
  | stopped => exact hg keepsShape_id.name (fun _ hn => hn) _

end Assignment

end Holds

end TemplateKit.Node
