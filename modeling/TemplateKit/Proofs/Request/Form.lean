import Mathlib.Data.List.Induction
import TemplateKit.Proofs.Data.Placement
import TemplateKit.Proofs.Escape.Unescape
import TemplateKit.Proofs.Program
import TemplateKit.Request.Basic

/-!
# Forms in query strings

A form is a list of names and values. Written as a query string and read into a data tree it can be
found there whole: the names in the order in which they first came, each with the last of its
values, and below a name that came more than once all of its values by their numbers.
-/

namespace TemplateKit

open List Option Numeral Bytes Node Url

/-- A field of a form, by its name and value. -/
abbrev Field := Bytes × Bytes

namespace Field

/-- A field that can be sent: its name is one component of a name of the tree and fits into the room
there is. -/
structure Sendable (f : Field) : Prop where
  named : f.1 ≠ []
  undotted : dot ∉ f.1
  short : f.1.length ≤ 249
  nameEnds : 0 ∉ f.1
  valueEnds : 0 ∉ f.2

instance (f : Field) : Decidable f.Sendable :=
  decidable_of_iff (f.1 ≠ [] ∧ dot ∉ f.1 ∧ f.1.length ≤ 249 ∧ 0 ∉ f.1 ∧ 0 ∉ f.2)
    ⟨fun ⟨a, b, c, d, e⟩ => ⟨a, b, c, d, e⟩, fun h => ⟨h.1, h.2, h.3, h.4, h.5⟩⟩

/-- A field as it is sent. -/
def encode (f : Field) : Bytes := query.escape [] f.1 ++ '='.toUInt8 :: query.escape [] f.2

/-- What is read for a field. -/
def item (f : Field) : QueryItem := ⟨f.1, f.2, (query.escape [] f.2).isEmpty⟩

end Field

/-- A form as it is sent. -/
def QueryItem.encode (form : List Field) : Bytes := join "&" (form.map Field.encode)

section Reading

open QueryItem

theorem splitByte_join {sep pieces} (hne : pieces ≠ []) (h : ∀ s ∈ pieces, sep ∉ s) :
    splitByte sep (join [sep] pieces) = pieces := by
  induction pieces with
  | nil => exact absurd rfl hne
  | cons s more ih =>
    have hs : splitByte sep s = [s] := splitByte_of_not_mem (h s mem_cons_self)
    cases more with
    | nil => exact hs
    | cons t more =>
      have hm := ih (by simp) fun u hu => h u (mem_cons_of_mem s hu)
      calc
        splitByte sep (join [sep] (s :: t :: more))
            = splitByte sep (s ++ sep :: join [sep] (t :: more)) := by rw [join_cons s (by simp)]
        _ = splitByte sep s ++ splitByte sep (join [sep] (t :: more)) := splitByte_append_sep s _
        _ = s :: t :: more := by rw [hs, hm, singleton_append]

theorem separator_not_mem_escape {c} (hc : c ∈ queryReserved) (hpl : c ≠ '+')
    (hp : c ≠ '%') (hd : Ascii.isHexDigit c = false) (s : Bytes) : c ∉ query.escape [] s :=
  fun h => (mem_of_mem_escape h hpl hp hd).2.1 hc

theorem nul_not_mem_escape (s : Bytes) : (0 : UInt8) ∉ query.escape [] s := by
  intro h
  have hp := (mem_of_mem_escape h (by decide) (by decide) rfl).2.2
  cases hp

namespace Field

variable {f : Field}

theorem not_mem_encode {c : UInt8} (he : c ≠ '=') (h : ∀ s, c ∉ query.escape [] s) (f : Field) :
    c ∉ f.encode := by
  simp [encode, h, he]

/-- The escaped name is no numbered one, and its first byte is left as it is. -/
theorem nameOf_escape (h : f.Sendable) (number : Nat) :
    nameOf number (query.escape [] f.1) = query.escape [] f.1 := by
  obtain ⟨b, s, he⟩ := exists_cons_of_ne_nil (escape_ne_nil h.named)
  have hdot : b ≠ '.' := by
    rintro rfl
    have hmem : '.'.toUInt8 ∈ query.escape [] f.1 := he ▸ mem_cons_self
    exact h.undotted (mem_of_mem_escape hmem (by decide) (by decide) rfl).1
  have hbeq : (b == '.') = false := beq_eq_false_iff_ne.mpr hdot
  rw [he, nameOf, hbeq]
  rfl

theorem parse_encode (h : f.Sendable) (number : Nat) : parse number f.encode = f.item := by
  have hcut : f.encode.cutAt (· == '=') = (query.escape [] f.1, some (query.escape [] f.2)) := by
    exact cutAt_byte (separator_not_mem_escape (by decide) (by decide) (by decide) rfl f.1) _
  simp only [parse, hcut, nameOf_escape h number, getD_some, unescape_escape query_mem,
    untilNul_of_not_mem h.nameEnds, untilNul_of_not_mem h.valueEnds, item]

end Field

theorem QueryItem.parseAll_encode {form : List Field} (h : ∀ f ∈ form, f.Sendable) (number : Nat) :
    parseAll number (form.map Field.encode) = form.map Field.item := by
  induction form generalizing number with
  | nil => rfl
  | cons f form ih =>
    have hf : f.Sendable := h f mem_cons_self
    rw [map_cons, map_cons, parseAll, Field.parse_encode hf,
      ih fun g hg => h g (mem_cons_of_mem f hg)]

theorem QueryItem.ofString_encode {form} (h : ∀ f ∈ form, f.Sendable) :
    ofString (encode form).untilNul = form.map Field.item := by
  have hnul : (0 : UInt8) ∉ encode form :=
    not_mem_join (by decide) (forall_mem_map.mpr fun f _ =>
      f.not_mem_encode (by decide) nul_not_mem_escape)
  rw [untilNul_of_not_mem hnul, ofString]
  cases form with
  | nil => rfl
  | cons f form =>
    have hsp : (encode (f :: form)).splitByte '&'.toUInt8 = (f :: form).map Field.encode := by
      apply splitByte_join (by simp)
      intro s hs
      obtain ⟨g, -, rfl⟩ := mem_map.mp hs
      exact g.not_mem_encode (by decide)
        (separator_not_mem_escape (by decide) (by decide) (by decide) rfl)
    have hf : (((f :: form).map Field.encode).filter fun s => !s.isEmpty) =
        (f :: form).map Field.encode := by
      rw [filter_eq_self]
      intro s hs
      obtain ⟨g, -, rfl⟩ := mem_map.mp hs
      simp [Field.encode]
    rw [hsp, hf, parseAll_encode h]

end Reading

namespace Form

variable {form : List Field} {name v : Bytes} {vs : List Bytes}

def valuesOf (form : List Field) (name : Bytes) : List Bytes :=
  (form.filter (·.1 == name)).map (·.2)

/-- The names of a form in the order in which they first come. -/
def names (form : List Field) : List Bytes := (form.map (·.1)).eraseDups

def elements (vs : List Bytes) : List Node :=
  vs.zipIdx.map fun (v, k) => ⟨ofNat k, some v, false, [], []⟩

/-- What the tree holds for a name: its last value, and all of them if there are several. -/
def node (name : Bytes) (vs : List Bytes) : Node :=
  ⟨name, vs.getLast?, false, [], if vs.length ≤ 1 then [] else elements vs⟩

def tree (form : List Field) : Node :=
  ⟨"Query", none, false, [], (names form).map fun name => node name (valuesOf form name)⟩

/-- The data with a form; an empty one leaves no trace. -/
def addTo (data : Node) (form : List Field) : Node :=
  if form.isEmpty then data else data.append (tree form)

theorem mem_names : name ∈ names form ↔ valuesOf form name ≠ [] := by
  simp [names, valuesOf]

theorem valuesOf_concat (form : List Field) (f : Field) (name : Bytes) :
    valuesOf (form ++ [f]) name = valuesOf form name ++ if f.1 = name then [f.2] else [] := by
  by_cases h : f.1 = name
  · simp [valuesOf, h]
  · simp [valuesOf, h]

theorem names_concat (form : List Field) (f : Field) :
    names (form ++ [f]) = names form ++ if f.1 ∈ names form then [] else [f.1] := by
  by_cases h : f.1 ∈ form.map (·.1)
  · simp [names, eraseDups_append, List.removeAll, h]
  · simp [names, eraseDups_append, List.removeAll, h, eraseDups_cons]

theorem nodup_names (form : List Field) : (names form).Nodup := by
  induction form using List.reverseRecOn with
  | nil => exact nodup_nil
  | append_singleton form f ih =>
    rw [names_concat]
    split
    · rw [append_nil]
      exact ih
    · next hnew =>
      rw [← concat_eq_append]
      exact ih.concat hnew

theorem elements_concat (vs : List Bytes) (v : Bytes) :
    elements (vs ++ [v]) = elements vs ++ [⟨ofNat vs.length, some v, false, [], []⟩] := by
  simp [elements, zipIdx_append]

theorem length_elements (vs : List Bytes) : (elements vs).length = vs.length := by simp [elements]

theorem find?_elements (vs : List Bytes) {k} (hk : vs.length ≤ k) :
    (elements vs).find? (·.name == ofNat k) = none := by
  rw [find?_eq_none]
  intro m hm
  obtain ⟨⟨v, i⟩, hi, rfl⟩ := mem_map.mp hm
  have hlt : i < vs.length := by
    have := mem_zipIdx hi
    omega
  have hne : ofNat i ≠ ofNat k := fun h => by
    have := ofNat_injective h
    omega
  simpa using hne

section Branches

/-- A node for each name of a form, made of its values. -/
def branches (make : Bytes → List Bytes → Node) (form : List Field) : List Node :=
  (names form).map fun name => make name (valuesOf form name)

variable {make : Bytes → List Bytes → Node} {f : Field}

theorem find?_branches (hmake : ∀ name vs, (make name vs).name = name) (form : List Field)
    (name : Bytes) :
    (branches make form).find? (·.name == name) =
      if name ∈ names form then some (make name (valuesOf form name)) else none := by
  rw [branches]
  induction names form with
  | nil => rfl
  | cons n ns ih =>
    by_cases hn : n = name
    · simp [hmake, hn]
    · simp only [map_cons, find?_cons, ih, mem_cons, Ne.symm hn]
      simp [hmake, beq_eq_false_iff_ne.mpr hn]

theorem map_other {ns : List Bytes} (h : f.1 ∉ ns) (form : List Field) :
    (ns.map fun name => make name (valuesOf (form ++ [f]) name)) =
    ns.map fun name => make name (valuesOf form name) := by
  refine map_congr_left fun m hm => ?_
  rw [valuesOf_concat, if_neg (ne_of_mem_of_not_mem hm h).symm, append_nil]

theorem go_branches (hmake : ∀ name vs, (make name vs).name = name) (h : f.1 ∈ names form) :
    modifyChild.go f.1 (fun _ => make f.1 (valuesOf form f.1 ++ [f.2])) (branches make form) =
      branches make (form ++ [f]) := by
  rw [branches, branches, names_concat, if_pos h, append_nil]
  have hnd := nodup_names form
  generalize names form = ns at h hnd
  induction ns with
  | nil => cases h
  | cons n ns ih =>
    obtain ⟨hn, hns⟩ := nodup_cons.mp hnd
    rw [map_cons, map_cons, modifyChild.go, hmake]
    by_cases hnf : n = f.1
    · subst hnf
      rw [if_pos (beq_self_eq_true f.1), map_other hn, valuesOf_concat, if_pos rfl]
    · rw [if_neg (by simpa using hnf), ih (mem_of_ne_of_mem (Ne.symm hnf) h) hns, valuesOf_concat,
        if_neg (Ne.symm hnf), append_nil]

theorem branches_concat (h : f.1 ∉ names form) :
    branches make (form ++ [f]) = branches make form ++ [make f.1 [f.2]] := by
  have hn : valuesOf form f.1 = [] := by simpa [mem_names] using h
  rw [branches, names_concat, if_neg h, map_append, map_other h, map_singleton, valuesOf_concat,
    hn, if_pos rfl]
  rfl

end Branches

theorem child?_tree (form : List Field) (name : Bytes) :
    (tree form).child? name = if name ∈ names form then some (node name (valuesOf form name))
      else none :=
  find?_branches (fun _ _ => rfl) form name

theorem child?_of_mem (h : name ∈ names form) :
    (tree form).child? name = some (node name (valuesOf form name)) := by
  rw [child?_tree, if_pos h]

theorem modifyChild_tree {f} (h : f.1 ∈ names form) :
    ((tree form).modifyChild f.1 fun _ => node f.1 (valuesOf form f.1 ++ [f.2])) =
    tree (form ++ [f]) :=
  congrArg (Node.mk (ascii "Query") none false []) (go_branches (fun _ _ => rfl) h)

theorem append_tree {f} (h : f.1 ∉ names form) :
    (tree form).append (node f.1 [f.2]) = tree (form ++ [f]) :=
  congrArg (Node.mk (ascii "Query") none false []) (branches_concat h).symm

end Form

namespace Node

variable {base q m : Node} {k : Bytes} {a : Assignment}

theorem child?_replaced {n x : Node} (h : n.child? k = some m) (hx : x.name = k) :
    (n.modifyChild k fun _ => x).child? k = some x := by
  rw [child?_modifyChild fun _ _ => hx, if_pos rfl, h, map_some]

theorem child?_appended (h : base.child? q.name = none) :
    (base.append q).child? q.name = some q := by
  rw [child?_append, h, if_pos rfl, none_or]

theorem get?_appended (h : base.child? q.name = none) (path : Address) :
    (base.append q).get? (q.name :: path) = q.get? path := by
  rw [get?, child?_appended h, bind_some]

theorem locate?_appended {name} (hroot : base.isLink = false) (h : base.child? q.name = none)
    (hq : q.isLink = false) (hn : components name = [q.name, k])
    (hm : ∀ m, q.child? k = some m → m.isLink = false) :
    (base.append q).locate? [] name = (q.child? k).map fun m => ⟨[q.name, k], m⟩ := by
  cases hk : q.child? k with
  | none => simp [locate?, get?, hn, hroot, walk, child?_appended h, hq, hk]
  | some m => simp [locate?, get?, hn, hroot, walk, child?_appended h, hq, hk, hm m hk]

theorem assignAt_appended {name} (hroot : base.isLink = false) (h : base.child? q.name = none)
    (hq : q.isLink = false) (hn : components name = [q.name, k]) (hk : q.child? k = some m)
    (hqn : q.name ≠ []) (hkn : k ≠ []) : (base.append q).assignAt [] name a =
      (base.append (q.modifyChild k fun _ => m.assign a), .ok [q.name, k]) := by
  have hput : put a [q.name, k] (base.append q) =
      .done (base.append (q.modifyChild k fun _ => m.assign a)) [q.name, k] := by
    simp [put, child?_appended h, hq, hk, hqn, hkn, Placement.under, modifyChild_append h rfl]
  obtain ⟨fuel, hf⟩ := (base.append q).assignAt_eq [] name a
  exact hf.trans (assignFrom_of_put (show (base.append q).get? [] =
    some _ from rfl) (fun _ => hroot) hn (by simpa using hqn) hput _)

end Node

namespace Request

open Form

variable {r : Request} {base : Node} {form : List Field} {f : Field}

theorem storing_run {α : Type} {change : Node → Node × Except DataFault α} {data : Node} {x : α}
    (h : change r.data = (data, .ok x)) : storing change r = (.ok (), { r with data }) := by
  rw [storing, bind_of_ok (get_apply r), h]
  rfl

theorem fieldName_of_short (h : f.Sendable) : fieldName f.1 = "Query." ++ f.1 := by
  have hl : ("Query." ++ f.1).length ≤ nameRoom := by
    have hs := h.short
    have hp : (ascii "Query.").length = 6 := rfl
    rw [length_append, nameRoom]
    omega
  exact take_of_length_le hl

theorem components_fieldName (h : f.Sendable) :
    components (fieldName f.1) = [ascii "Query", f.1] := by
  have hs : ascii "Query." ++ f.1 = ascii "Query" ++ dot :: f.1 := rfl
  have hq : dot ∉ ascii "Query" := by decide
  rw [fieldName_of_short h, hs, components_eq_splitByte (by simp), splitByte_append_sep,
    splitByte_of_not_mem hq, splitByte_of_not_mem h.undotted, singleton_append]

theorem components_ofNat (n : Nat) : components (ofNat n) = [ofNat n] := by
  obtain ⟨d, more, -, -, hc⟩ := ofNat_head n
  have hdot : dot ∉ ofNat n := by
    intro hmem
    have hd := isDigit_of_mem_ofNat n hmem
    cases hd
  rw [components_eq_splitByte (by simp [hc]), splitByte_of_not_mem hdot]

section Tree

variable {q m : Node} {k : Bytes}

theorem assignAt_number (h : base.child? q.name = none) (hk : q.child? k = some m)
    (hm : m.isLink = false) {n}
    (hn : m.child? (ofNat n) = none) (a : Assignment) :
    (base.append q).assignAt [q.name, k] (ofNat n) a =
      (base.append (q.modifyChild k fun _ => m.append (fresh (ofNat n) a)),
        .ok ([q.name, k] ++ [ofNat n])) := by
  obtain ⟨d, more, -, -, hc⟩ := ofNat_head n
  have hget : (base.append q).get? [q.name, k] = some m := by
    rw [get?_appended h, get?, hk]
    rfl
  have ha := assignAt_new hget (clear_nil hm) hn (components_ofNat n)
    (by simp [hc]) a
  rw [sow_append hget] at ha
  exact ha.trans (congrArg (·, _) (modifyChild_append h rfl))

end Tree

section Collect

variable {name value : Bytes} {path : Address} {m : Node}

theorem collect_found (ht : r.data.locate? [] name = some ⟨path, m⟩) (hl : m.isLink = false) :
    collect name value r = (if m.children = [] then do
        storing (·.assignAt path (ofNat 0) { value := m.value })
        storing (·.assignAt path (ofNat 1) { value := some value })
      else storing (·.assignAt path (ofNat m.children.length) { value := some value }) : Handling
        Unit) r := by
  have hc : r.data.childrenOf ⟨path, m⟩ = some ⟨path, m⟩ := by simp [childrenOf, hl]
  have hv : r.data.valueOf m = m.value := by simp [valueOf, longestLinkChain, linkedValue, hl]
  rw [collect, bind_of_ok (get_apply r)]
  simp only [ht, hc, hv, map_some]
  cases m.children <;> rfl

end Collect

theorem storeItem_run (he : r.ignoresEmpty = false) {i r'}
    (hc : collect (fieldName i.name) i.value r = (.ok (), r')) :
    storeItem i r =
    (.ok (), { r' with data := (r'.data.set (fieldName i.name) (some i.value)).1 }) := by
  rw [storeItem, bind_of_ok (get_apply r)]
  simp only [he, Bool.false_and, Bool.false_eq_true, if_false]
  rw [bind_of_ok hc]
  rfl

section Query

variable (hroot : base.isLink = false) (h : base.child? "Query" = none)

include hroot h

theorem locate?_field (hf : f.Sendable) (hold : f.1 ∈ names form) :
    (base.append (tree form)).locate? [] (fieldName f.1) =
    some ⟨["Query", f.1], node f.1 (valuesOf form f.1)⟩ := by
  have hc := child?_of_mem hold
  have hl : ∀ m, (tree form).child? f.1 = some m → m.isLink = false := by
    intro m hm
    rw [hc, Option.some.injEq] at hm
    rw [← hm]
    rfl
  rw [locate?_appended hroot h rfl (components_fieldName hf) hl, hc]
  rfl

/-- A field that has values gets one more as the last of its list. -/
theorem collect_old (hf : f.Sendable) (hr : r.data = base.append (tree form))
    (hold : f.1 ∈ names form) :
    collect (fieldName f.1) f.2 r =
    (.ok (), { r with data := base.append ((tree form).modifyChild f.1 fun _ =>
      ⟨f.1, (valuesOf form f.1).getLast?, false, [],
        elements (valuesOf form f.1 ++ [f.2])⟩) }) := by
  have ht := locate?_field hroot h hf hold
  rw [← hr] at ht
  have hc := child?_of_mem hold
  rw [collect_found ht rfl]
  have hv := mem_names.mp hold
  generalize valuesOf form f.1 = vs at hc hv
  cases vs with
  | nil => exact absurd rfl hv
  | cons u more =>
    cases more with
    | nil =>
      -- the only value becomes the first of two
      have hem : (node f.1 [u]).children = [] := rfl
      have hz := assignAt_number h hc rfl rfl (n := 0) { value := some u }
      rw [← hr] at hz
      have hfi := child?_replaced (x := (node f.1 [u]).append
        (fresh (ofNat 0) { value := some u })) hc rfl
      have hone := assignAt_number h hfi rfl rfl (n := 1) { value := some f.2 }
      rw [modifyChild_replaced hc rfl] at hone
      rw [if_pos hem, bind_of_ok (storing_run hz)]
      exact storing_run hone
    | cons w more =>
      have hne : (node f.1 (u :: w :: more)).children ≠ [] := by simp [node, elements]
      have he : (node f.1 (u :: w :: more)).children = elements (u :: w :: more) := by simp [node]
      have hn := assignAt_number h hc rfl (n := (u :: w :: more).length)
        (by rw [child?, he, find?_elements _ le_rfl]) { value := some f.2 }
      rw [← hr] at hn
      rw [if_neg hne, he, length_elements, storing_run hn, elements_concat]
      rfl

theorem collect_new (hf : f.Sendable) (hr : r.data = addTo base form) (hnew : f.1 ∉ names form) :
    collect (fieldName f.1) f.2 r = (.ok (), r) := by
  have hn : r.data.locate? [] (fieldName f.1) = none := by
    rw [hr, addTo]
    split
    · simp [locate?, get?, components_fieldName hf, hroot, walk, h]
    · have hc : (tree form).child? f.1 = none := by rw [child?_tree, if_neg hnew]
      have hl := locate?_appended (q := tree form) hroot h rfl (components_fieldName hf)
        (by simp [hc])
      rw [hl, hc, map_none]
  rw [collect, bind_of_ok (get_apply r)]
  simp only [hn]
  rfl

omit hroot h in
theorem set_sow (hf : f.Sendable) {n} (hc : Node.Clear [ascii "Query"] n)
    (hfr : Node.Free [ascii "Query"] f.1 n) :
    (n.set (fieldName f.1) (some f.2)).1 = sow [ascii "Query"] (node f.1 [f.2]) n := by
  have hget : n.get? [] = some n := rfl
  have hn : [] ∉ [ascii "Query"] ++ [f.1] := by
    have hq : [] ≠ ascii "Query" := by decide
    simp [hq, hf.named.symm]
  exact congrArg Prod.fst (assignAt_new hget hc hfr (components_fieldName hf) hn
    { value := some f.2 })

theorem set_new (hf : f.Sendable) (hnew : f.1 ∉ names form) :
    ((addTo base form).set (fieldName f.1) (some f.2)).1 = addTo base (form ++ [f]) := by
  have hg : addTo base (form ++ [f]) = base.append ((tree form).append (node f.1 [f.2])) := by
    rw [append_tree hnew]
    simp [addTo]
  rw [hg, addTo]
  split
  · next hfo =>
    have hr : base.reached ["Query"] = empty "Query" := by simp [reached, h]
    have hc : Node.Clear ["Query"] base := (clear_nil hroot).concat (hr ▸ rfl)
    rw [set_sow hf hc (by rw [Node.Free, hr, child?_empty]), sow, graft_of_none h,
      List.isEmpty_iff.mp hfo]
    rfl
  · have hch : (base.append (tree form)).child? "Query" = some (tree form) := child?_appended h
    have hr : (base.append (tree form)).reached ["Query"] = tree form := by simp [reached, hch]
    have hc : Node.Clear ["Query"] (base.append (tree form)) :=
      Node.Clear.concat (a := []) (clear_nil hroot) (by rw [nil_append, hr]; rfl)
    rw [set_sow hf hc (by rw [Node.Free, hr, child?_tree, if_neg hnew]), sow,
      graft_of_some hch, modifyChild_append h rfl, graft]

theorem set_old (hf : f.Sendable) (hold : f.1 ∈ names form) :
    ((base.append ((tree form).modifyChild f.1 fun _ =>
      ⟨f.1, (valuesOf form f.1).getLast?, false, [],
      elements (valuesOf form f.1 ++ [f.2])⟩)).set (fieldName f.1) (some f.2)).1 =
        base.append (tree (form ++ [f])) := by
  have hc := child?_of_mem hold
  have hq : ascii "Query" ≠ [] := by decide
  have hs : ¬ (valuesOf form f.1 ++ [f.2]).length ≤ 1 := by
    have hv := length_pos_iff.mpr (mem_names.mp hold)
    rw [length_append, length_singleton]
    omega
  have hn : node f.1 (valuesOf form f.1 ++ [f.2]) =
      ⟨f.1, some f.2, false, [], elements (valuesOf form f.1 ++ [f.2])⟩ := by
    rw [node, if_neg hs, getLast?_concat]
  have ha := assignAt_appended (a := { value := some f.2 }) hroot h rfl (components_fieldName hf)
    (child?_replaced (x := ⟨f.1, (valuesOf form f.1).getLast?, false, [],
      elements (valuesOf form f.1 ++ [f.2])⟩) hc rfl) hq hf.named
  rw [modifyChild_replaced hc rfl] at ha
  rw [← modifyChild_tree hold, hn]
  exact congrArg Prod.fst ha

theorem storeItem_item (he : r.ignoresEmpty = false) (hf : f.Sendable)
    (hr : r.data = addTo base form) :
    storeItem f.item r = (.ok (), { r with data := addTo base (form ++ [f]) }) := by
  by_cases hold : f.1 ∈ names form
  · have hfo : form.isEmpty = false := by
      cases form with
      | nil => cases hold
      | cons g form => rfl
    rw [addTo, hfo] at hr
    rw [storeItem_run he (i := f.item) (collect_old hroot h hf hr hold)]
    simp only [Field.item, set_old hroot h hf hold]
    simp [addTo]
  · rw [storeItem_run he (i := f.item) (collect_new hroot h hf hr hold)]
    simp only [Field.item, hr, set_new hroot h hf hold]

theorem forM_storeItem (he : r.ignoresEmpty = false) {more} (hm : ∀ f ∈ more, f.Sendable)
    (form : List Field) (hr : r.data = addTo base form) :
    (more.map Field.item).forM storeItem r =
    (.ok (), { r with data := addTo base (form ++ more) }) := by
  induction more generalizing form r with
  | nil =>
    rw [append_nil, ← hr]
    rfl
  | cons f more ih =>
    have hf := storeItem_item hroot h he (hm f mem_cons_self) hr
    have hre := ih (r := { r with data := addTo base (form ++ [f]) }) he
      (fun g hg => hm g (mem_cons_of_mem f hg)) (form ++ [f]) rfl
    rw [map_cons, List.forM, bind_of_ok hf, hre, append_assoc, singleton_append]

end Query

/-- A form that was sent as a query string is found in the data, whole and as it was. -/
theorem storeQuery_encode (form : List Field) (hform : ∀ f ∈ form, f.Sendable)
    (hroot : r.data.isLink = false)
    (h : r.data.child? (ascii "Query") = none) (hempty : r.ignoresEmpty = false) :
    storeQuery (QueryItem.encode form) r = (.ok (), { r with data := addTo r.data form }) := by
  rw [storeQuery, QueryItem.ofString_encode hform]
  exact forM_storeItem hroot h hempty hform [] rfl

/-- A name that is given twice, the second time without a value. -/
theorem storeQuery_encode_repeated : (storeQuery (ascii "a=1&b+c=%3D&a=") {
      data := .empty [], environment := [], ignoresEmpty := false,
      lines := ⟨⟨[], 0⟩, none, [], false, 0, 0, fun _ _ => false⟩ }).2.data =
        ⟨[], none, false, [], [⟨ascii "Query", none, false, [], [⟨ascii "a", some [], false, [], [
            ⟨ascii "0", some (ascii "1"), false, [], []⟩, ⟨ascii "1", some [], false, [], []⟩]⟩,
          ⟨ascii "b c", some (ascii "="), false, [], []⟩]⟩]⟩ := by
  have hform : ∀ f ∈ [(ascii "a", ascii "1"), (ascii "b c", ascii "="), (ascii "a", [])],
      Field.Sendable f := by decide
  have hencode : QueryItem.encode [(ascii "a", ascii "1"), (ascii "b c", ascii "="),
      (ascii "a", [])] =
      ascii "a=1&b+c=%3D&a=" := by decide
  have hnames : names [(ascii "a", ascii "1"), (ascii "b c", ascii "="), (ascii "a", [])] =
      [ascii "a", ascii "b c"] := by decide
  rw [← hencode, storeQuery_encode _ hform rfl rfl rfl, addTo, tree, hnames]
  rfl

end Request

end TemplateKit
