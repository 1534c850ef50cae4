import TemplateKit.Proofs.Data.PathMap

/-!
# Writing through a link

A link is straight if its name leads to its target past no other link and none is below the target.
Where all links are straight, a name leads along one link at most, and an assignment goes where a
look-up goes: it changes the value of all names that lead to the address behind the link, and of no
others.
-/

namespace TemplateKit

open List Option

namespace DottedName

/-- The name of something below, by its name from there on. -/
def below (p q : DottedName) : DottedName where
  text := p.text ++ dot :: q.text
  proper := by
    intro c hc
    rw [Bytes.splitByte_append_sep] at hc
    rcases mem_append.mp hc with hp | hq
    · exact p.proper c hp
    · exact q.proper c hq

theorem components_below (p q : DottedName) : components (p.below q).text = p.path ++ q.path := by
  rw [components_text, path, below, Bytes.splitByte_append_sep]
  rfl

end DottedName

namespace Node

variable {root n m child : Node} {a here front path : Address} {c t : Bytes} {value : Assignment}

/-- The name that the link at an address holds, if there is a link. -/
def linkAt (n : Node) (a : Address) : Option Bytes := ((n.get? a).filter (·.isLink)).map (·.target)

/-- Every link holds a name without an empty component, and no link is on the way there, at its end
or below it. -/
def StraightLinks (n : Node) : Prop :=
  ∀ a t, n.linkAt a = some t →
    [] ∉ components t ∧ ∀ p, p <+: components t ∨ components t <+: p → n.linkAt p = none

theorem linkAt_of_get? (h : n.get? a = some m) :
    n.linkAt a = if m.isLink then some m.target else none := by
  cases hl : m.isLink <;> simp [linkAt, h, hl]

theorem linkAt_of_none (h : n.get? a = none) : n.linkAt a = none := by
  simp [linkAt, h]

theorem isLink_of_linkAt (h : n.linkAt a = none) : (n.reached a).isLink = false := by
  cases hm : n.get? a with
  | some m =>
    rw [linkAt_of_get? hm] at h
    rw [reached_of_get? hm]
    cases hl : m.isLink with
    | false => rfl
    | true => simp [hl] at h
  | none =>
    obtain ⟨d, hd⟩ := reached_of_none hm
    rw [hd]
    rfl

theorem clear_of_linkAt (hn : root.get? here = some n)
    (h : ∀ p, p <+: path → root.linkAt (here ++ p) = none) :
    Clear path n := by
  intro p hp
  have hreached := root.reached_append here p
  rw [reached_of_get? hn] at hreached
  exact hreached ▸ isLink_of_linkAt (h p hp)

theorem passable_of_linkAt (h : ∀ p, p <+: path → p ≠ path → root.linkAt p = none) :
    Passable path root :=
  fun p hp hne => isLink_of_linkAt (h p hp hne)

/-- The address that a path leads to from a node, along the first link on it. -/
def route (links : Address → Option Bytes) (here : Address) : List Bytes → Address
  | [] => here
  | c :: rest =>
    match links (here ++ [c]) with
    | some t => components t ++ rest
    | none => route links (here ++ [c]) rest

/-- The address that a name leads to. -/
def leads (n : Node) (name : Bytes) : Address := route n.linkAt [] (components name)

theorem route_front {links : Address → Option Bytes} (rest : List Bytes)
    (h : ∀ p, p <+: front → p ≠ [] → links (here ++ p) = none) :
    route links here (front ++ rest) = route links (here ++ front) rest := by
  induction front generalizing here with
  | nil => rw [nil_append, append_nil]
  | cons c front ih =>
    have hc : links (here ++ [c]) = none :=
      h [c] (cons_prefix_cons.mpr ⟨rfl, nil_prefix⟩) (cons_ne_nil c [])
    rw [cons_append, route, hc]
    refine (ih fun p hp _ => ?_).trans (by rw [append_assoc, singleton_append])
    rw [append_assoc]
    exact h (c :: p) (cons_prefix_cons.mpr ⟨rfl, hp⟩) (cons_ne_nil c p)

theorem route_free {links : Address → Option Bytes}
    (h : ∀ p, p <+: path → p ≠ [] → links (here ++ p) = none) :
    route links here path = here ++ path := by
  have hfront := route_front [] h
  rwa [append_nil] at hfront

section Straight

variable (h : root.StraightLinks)

include h

theorem StraightLinks.top : root.isLink = false := by
  cases hl : root.isLink with
  | false => rfl
  | true =>
    have hlink : root.linkAt [] = some root.target := by rw [linkAt_of_get? rfl, if_pos hl]
    exact nomatch hlink.symm.trans ((h [] _ hlink).2 [] (.inl nil_prefix))

/-- The name that a link holds leads to the address of its components. -/
theorem resolve_of_straight (ht : root.linkAt a = some t) (fuel : Nat) :
    root.resolve (fuel + 1) t = (root.get? (components t)).map (⟨components t, ·⟩) := by
  have hclear : Clear (components t) root :=
    clear_of_linkAt (show root.get? [] = some root from rfl) fun p hp => (h a t ht).2 p (.inl hp)
  rw [resolve]
  cases hp : components t with
  | nil => rfl
  | cons c rest =>
    rw [hp] at hclear
    simp only [h.top, Bool.false_eq_true, if_false]
    exact walk_of_clear _ hclear []

theorem walk_of_straight (fuel : Nat) (hn : root.get? here = some n) (path : List Bytes) :
    walk (root.resolve (fuel + 1)) ⟨here, n⟩ path =
      (root.get? (route root.linkAt here path)).map (⟨route root.linkAt here path, ·⟩) := by
  induction path generalizing here n with
  | nil => simp [walk, route, hn]
  | cons c rest ih =>
    have hget : root.get? (here ++ [c]) = n.child? c := by simp [get?_append, hn, get?]
    rw [walk]
    cases hc : n.child? c with
    | none =>
      rw [hc] at hget
      have hmissing : ∀ q, root.get? (here ++ [c] ++ q) = none :=
        fun q => by rw [get?_append, hget]; rfl
      rw [route, linkAt_of_none hget, route_free fun p _ _ => linkAt_of_none (hmissing p), hmissing]
      rfl
    | some child =>
      rw [hc] at hget
      have hlink := linkAt_of_get? hget
      cases hl : child.isLink with
      | false =>
        rw [hl] at hlink
        simpa only [route, hlink, hl, Bool.false_eq_true, if_false] using ih hget
      | true =>
        rw [hl, if_pos rfl] at hlink
        simp only [route, hlink, hl, if_true, resolve_of_straight h hlink,
          get?_append root (components child.target)]
        cases hm : root.get? (components child.target) with
        | none => rfl
        | some m =>
          have hclear : Clear rest m := clear_of_linkAt hm fun p _ =>
            (h _ _ hlink).2 _ (.inr (prefix_append (components child.target) p))
          exact walk_of_clear _ hclear _

theorem locate?_of_straight (name : Bytes) :
    root.locate? [] name = (root.get? (root.leads name)).map (⟨root.leads name, ·⟩) := by
  rw [locate?, leads]
  cases hp : components name with
  | nil => rfl
  | cons c rest =>
    have hwalk := walk_of_straight h root.linkCount (show root.get? [] = some root from rfl)
    simpa [get?, h.top] using hwalk (c :: rest)

theorem value?_of_straight (name : Bytes) :
    root.value? name = (root.look (root.leads name)).join := by
  rw [value?, valueAt?, locate?_of_straight h, look]
  cases root.get? (root.leads name) <;> rfl

/-- Where links are the same, names lead to the same addresses. -/
theorem StraightLinks.ofLinks (hlinks : ∀ a, m.linkAt a = root.linkAt a) :
    m.StraightLinks ∧ ∀ name, m.leads name = root.leads name := by
  have heq : m.linkAt = root.linkAt := funext hlinks
  constructor
  · simpa only [StraightLinks, heq] using h
  · intro name
    rw [leads, leads, heq]

end Straight

/-- A value at an address without a link changes no link. -/
theorem linkAt_place (ha : value.isLink = false) (h : n.linkAt a = none) (q : Address) :
    (place value a n).linkAt q = n.linkAt q := by
  let view : Node → Option Bytes := fun m => if m.isLink then some m.target else none
  have hview : ∀ k : Node, k.linkAt q = ((k.get? q).map view).join := fun k => by
    cases hk : k.get? q with
    | none => exact linkAt_of_none hk
    | some m => exact linkAt_of_get? hk
  have hcontent : ∀ m k : Node, m.value = k.value → m.isLink = k.isLink →
      m.attributes = k.attributes →
      view m = view k := fun m k hvalue hlink _ => by simp only [view, target, hvalue, hlink]
  rw [hview, place, seen_graft (keepsShape_assign value) hcontent]
  by_cases hq : q = a
  · rw [if_pos hq, hq, h]
    simp [view, ha]
  · rw [if_neg hq]
    split
    · cases hm : n.get? q with
      | some m => rw [reached_of_get? hm, hview, hm]; rfl
      | none =>
        obtain ⟨d, hd⟩ := reached_of_none hm
        rw [hd, linkAt_of_none hm]
        rfl
    · exact (hview n).symm

/-- A link in the middle of a path sends an assignment to the name that it holds. -/
theorem put_redirected {rest : List Bytes} (hpass : Passable front n) (hfront : front ≠ [])
    (hname : [] ∉ front) (hm : n.get? front = some m) (hl : m.isLink = true) (hrest : rest ≠ []) :
    put value (front ++ rest) n = .redirected (m.target ++ dot :: Bytes.join [dot] rest) := by
  induction front generalizing n with
  | nil => exact absurd rfl hfront
  | cons c front ih =>
    have hc : c.isEmpty = false :=
      List.isEmpty_eq_false_iff.mpr fun hc => hname (hc ▸ mem_cons_self)
    obtain ⟨child, hchild, hm⟩ := bind_eq_some_iff.mp hm
    cases front with
    | nil =>
      cases hm
      have hmore : rest.isEmpty = false := List.isEmpty_eq_false_iff.mpr hrest
      simp [put, hc, hchild, hl, hmore]
    | cons d front =>
      have hbelow := hpass.tail
      rw [hchild, getD_some] at hbelow
      have hplain : child.isLink = false := hbelow [] nil_prefix (cons_ne_nil d front).symm
      have hput := ih hbelow (cons_ne_nil d front) (fun hmem => hname (mem_cons_of_mem c hmem)) hm
      rw [cons_append] at hput ⊢
      simp [put, hc, hchild, hplain, hput, Placement.under]

section Through

variable {front : DottedName} (rest : DottedName) (h : root.StraightLinks)
  (hfront : ∀ p, p <+: front.path → p ≠ front.path → root.linkAt p = none)
  (ht : root.linkAt front.path = some t)

include h ht

theorem components_behind : components (t ++ dot :: rest.text) = components t ++ rest.path := by
  have hne : t ≠ [] := by
    rintro rfl
    exact nomatch ht.symm.trans ((h _ _ ht).2 front.path (.inr nil_prefix))
  rw [components_eq_splitByte (by simp), Bytes.splitByte_append_sep, components_eq_splitByte hne]
  rfl

/-- The target of a straight link, and what is below it, can be reached past no link. -/
theorem linkAt_behind {p : Address} (hp : p <+: components t ++ rest.path) : root.linkAt p = none :=
  (h _ _ ht).2 p ( prefix_or_prefix_of_prefix hp (prefix_append _ _))

theorem leads_behind : root.leads (t ++ dot :: rest.text) = components t ++ rest.path := by
  rw [leads, components_behind rest h ht]
  exact route_free fun p hp _ => linkAt_behind rest h ht hp

include hfront

omit h in
theorem leads_through : root.leads (front.below rest).text = components t ++ rest.path := by
  obtain ⟨before, c, hsplit⟩ : ∃ before c, front.path = before ++ [c] :=
    ⟨_, _, (dropLast_append_getLast front.path_ne_nil).symm⟩
  rw [hsplit] at hfront ht
  have hbefore : ∀ p, p <+: before → p ≠ [] → root.linkAt ([] ++ p) = none := fun p hp _ =>
    hfront p (hp.trans (prefix_append _ _)) fun heq => by
      have hlength := hp.length_le
      rw [heq, length_append, length_singleton] at hlength
      omega
  rw [leads, DottedName.components_below, hsplit, append_assoc, route_front _ hbefore, nil_append,
    singleton_append, route, ht]

theorem set_through (v : Option Bytes) : root.set (front.below rest).text v =
    (place { value := v } (components t ++ rest.path) root, .ok (components t ++ rest.path)) := by
  have hname : [] ∉ components t ++ rest.path := fun hmem =>
    (mem_append.mp hmem).elim (h _ _ ht).1 rest.nil_not_mem
  have hhead : (front.path ++ rest.path).head? ≠ some [] := fun hhead =>
    (mem_append.mp (mem_of_mem_head? hhead)).elim front.nil_not_mem rest.nil_not_mem
  obtain ⟨m, hm, hl, rfl⟩ : ∃ m, root.get? front.path = some m ∧ m.isLink = true ∧
      m.target = t := by
    obtain ⟨m, hm, rfl⟩ := map_eq_some_iff.mp ht
    obtain ⟨hm, hl⟩ := filter_eq_some_iff.mp hm
    exact ⟨m, hm, hl, rfl⟩
  have hput : put { value := v } (front.path ++ rest.path) root =
      .redirected (m.target ++ dot :: rest.text) := by
    rw [put_redirected (passable_of_linkAt hfront) front.path_ne_nil front.nil_not_mem hm hl
      rest.path_ne_nil, DottedName.path, Bytes.join_splitByte]
  have hbehind := components_behind rest h ht
  have hpass := hbehind ▸
    passable_of_linkAt fun p hp _ => linkAt_behind rest h ht hp
  obtain ⟨fuel, hfuel⟩ := root.assignAt_eq [] (front.below rest).text { value := v }
  rw [Node.set, hfuel, assignFrom]
  simp only [get?, DottedName.components_below, hhead, h.top, hput, Bool.false_and,
    Bool.false_eq_true, if_false]
  rw [assignFrom_of_passable (m := root) rfl hpass (hbehind ▸ hname), hbehind]
  rfl

end Through

/-- Setting a name that leads through a straight link sets the name behind the link. It goes
through, both names have the value then, all links stay as they are, every name leads where it led,
and no name has another value unless it leads to that one address. -/
theorem set_through_link (root : Node) (h : root.StraightLinks)
    (front rest : DottedName) (t : Bytes)
    (hfront : ∀ p, p <+: front.path → p ≠ front.path → root.linkAt p = none)
    (ht : root.linkAt front.path = some t) (v : Option Bytes) :
    ∃ m, root.set (front.below rest).text v = (m, .ok (components t ++ rest.path)) ∧
      m.value? (front.below rest).text = v ∧ m.value? (t ++ dot :: rest.text) = v ∧
      (∀ a, m.linkAt a = root.linkAt a) ∧
      (∀ q there, root.locate? [] q = some there →
        ∃ now, m.locate? [] q = some ⟨there.address, now⟩ ∧
        (there.address ≠ components t ++ rest.path → now.value = there.node.value)) ∧
      (∀ q, (m.locate? [] q).map (·.address) ≠ some (components t ++ rest.path) →
        m.value? q = root.value? q) ∧
      ∀ s : IndexedNode, s.Sound → s.plain = root → ∃ s',
        s.assignAt [] (front.below rest).text { value := v } =
        (s', .ok (components t ++ rest.path)) ∧
        s'.plain = m ∧ ∀ q, s'.value? q = m.value? q := by
  have hset := set_through rest h hfront ht v
  have hfree := linkAt_behind rest h ht prefix_rfl
  have hlinks := linkAt_place (show Assignment.isLink { value := v } = false from rfl) hfree
  have hthere := get?_graft (keepsShape_assign { value := v }).name (components t ++ rest.path) root
  have hlook := look_place (a := { value := v }) (n := root) (components t ++ rest.path)
  have hkept : KeepsOrder root _ :=
    keepsOrder_graft (keepsShape_assign { value := v }) (components t ++ rest.path)
  rw [← place] at hthere hkept
  generalize place { value := v } (components t ++ rest.path) root = m at *
  obtain ⟨hstraight, hleads⟩ := h.ofLinks hlinks
  have hvalue : ∀ q, m.value? q = if root.leads q = components t ++ rest.path then v
      else root.value? q := by
    intro q
    rw [value?_of_straight hstraight, value?_of_straight h, hleads, hlook]
    split
    · rfl
    · exact join_reach _ _ _
  refine ⟨m, hset, ?_, ?_, hlinks, ?_, ?_, ?_⟩
  · rw [hvalue, if_pos (leads_through rest hfront ht)]
  · rw [hvalue, if_pos (leads_behind rest h ht)]
  · intro q there hq
    rw [locate?_of_straight h] at hq
    obtain ⟨k, hk, rfl⟩ := map_eq_some_iff.mp hq
    obtain ⟨now, hnow, -⟩ := hkept _ _ hk
    refine ⟨now, by rw [locate?_of_straight hstraight, hleads, hnow]; rfl, fun hne => ?_⟩
    have hseen := hlook (root.leads q)
    rw [if_neg hne, reach, look, look, hnow, hk] at hseen
    split at hseen <;> exact Option.some.inj hseen
  · intro q hq
    have hne : root.leads q ≠ components t ++ rest.path := by
      rw [locate?_of_straight hstraight, hleads] at hq
      rintro heq
      rw [heq, hthere] at hq
      exact hq rfl
    rw [hvalue, if_neg hne]
  · rintro s hs rfl
    have hrefines := IndexedNode.assignAt_refines hs [] (front.below rest).text { value := v }
    rw [← Node.set, hset] at hrefines
    exact hrefines.values

/-- The target is made by an assignment through the link. -/
theorem set_through_link_to_missing :
    let root : Node := ⟨[], none, false, [], [⟨ascii "a", some (ascii "b.c"), true, [], []⟩]⟩
    root.StraightLinks ∧ ∃ m, root.set (ascii "a.x") (some []) =
      (m, .ok [ascii "b", ascii "c", ascii "x"]) ∧
      m.value? (ascii "a.x") = some [] ∧ m.value? (ascii "b.c.x") = some [] := by
  intro root
  have honly : ∀ q t, root.linkAt q = some t → q = [ascii "a"] ∧ t = ascii "b.c" := by
    intro q t hq
    rcases q with _ | ⟨c, _ | ⟨d, q⟩⟩
    · cases hq
    · by_cases hc : ascii "a" = c
      · subst hc
        exact ⟨rfl, (Option.some.inj hq).symm⟩
      · simp [linkAt, get?, child?, root, hc] at hq
    · by_cases hc : ascii "a" = c <;> simp [linkAt, get?, child?, root, hc] at hq
  have hnone : ∀ p, p ≠ [ascii "a"] → root.linkAt p = none := fun p hp =>
    Option.eq_none_iff_forall_ne_some.mpr fun t ht => hp (honly p t ht).1
  have hstraight : root.StraightLinks := by
    intro q t hq
    obtain ⟨rfl, rfl⟩ := honly q t hq
    refine ⟨by decide, fun p hp => hnone p ?_⟩
    rintro rfl
    revert hp
    decide
  obtain ⟨m, hset, hthrough, hbehind, -⟩ :=
    set_through_link root hstraight ⟨ascii "a", by decide⟩ ⟨ascii "x", by decide⟩
    (ascii "b.c") (fun p hp hne => hnone p hne) rfl (some [])
  exact ⟨hstraight, m, hset, hthrough, hbehind⟩

end Node

end TemplateKit
