import TemplateKit.Proofs.Data.Reading

/-!
# Trees that the text can hold

A document is a tree whose names, values and links the text can hold. What the writer draws, and so
the terminators of the values with several lines, is the same in every layout.
-/

namespace TemplateKit

open List Terminator

def IsWord (name : Bytes) : Prop := name ≠ [] ∧ ∀ b ∈ name, Ascii.isAlnum b = true ∨ b = '_'

instance (name : Bytes) : Decidable (IsWord name) :=
  decidable_of_iff (name ≠ [] ∧ name.all (fun b => Ascii.isAlnum b || b == '_') = true)
    (by simp [IsWord])

namespace IsWord

variable {name : Bytes}

theorem nameText (h : IsWord name) : DataLine.NameText name := by
  refine ⟨h.1, fun b hb => ?_⟩
  rcases h.2 b hb with hb | rfl
  · simp [DataLine.isNameByte, hb]
  · rfl

theorem dot_not_mem (h : IsWord name) : dot ∉ name := by
  intro hmem
  rcases h.2 dot hmem with hdot | hdot <;> exact absurd hdot (by decide)

theorem components (h : IsWord name) : components name = [name] := by
  rw [components_eq_splitByte h.1, Bytes.splitByte_of_not_mem h.dot_not_mem]

end IsWord

namespace Node

variable {n : Node} {ns : List Node} {t : Terminator} {r : Random}

/-- A node below the root as the text can hold it. -/
structure Entry (n : Node) : Prop where
  name : IsWord n.name
  attributes : n.attributes = []
  distinct : n.DistinctNames
  filled : n.value ≠ none ∨ n.children ≠ []
  value : ∀ v, n.value = some v → Storable v n.isLink
  link : n.isLink = true → n.value ≠ none ∧ n.children = []

theorem Entry.leaf {name v isLink} (hn : IsWord name) (hv : Storable v isLink) :
    Everywhere Entry ⟨name, some v, isLink, [], []⟩ := by
  refine ⟨⟨hn, rfl, nodup_nil, .inl nofun, ?_, fun _ => ⟨nofun, rfl⟩⟩, nofun⟩
  rintro _ ⟨⟩
  exact hv

/-- A node below the root as it can be written, whatever becomes of its value. -/
structure Shaped (n : Node) : Prop where
  name : IsWord n.name
  attributes : ∀ a ∈ n.attributes, a.Writable
  bare : n.value = none → n.attributes = []
  distinct : n.DistinctNames
  filled : n.value ≠ none ∨ n.children ≠ []
  link : n.isLink = true → n.children = [] ∧ ∀ v, n.value = some v → (10 : UInt8) ∉ v

theorem Entry.shaped (h : n.Entry) : n.Shaped := by
  refine ⟨h.name, by simp [h.attributes], fun _ => h.attributes, h.distinct, h.filled, fun hl =>
    ⟨(h.link hl).2, fun v hv => ?_⟩⟩
  have hs := (h.value v hv).resolve_right
  rw [hl] at hs
  exact (hs nofun).1

mutual

/-- What is read where a tree was written. -/
def reread (n : Node) : Node :=
  match n with
  | ⟨name, value, isLink, attributes, children⟩ =>
    ⟨name, value.map TemplateKit.reread, isLink, attributes, rereadAll children⟩

def rereadAll (ns : List Node) : List Node :=
  match ns with
  | [] => []
  | n :: rest => n.reread :: rereadAll rest

end

theorem rereadAll_eq (ns : List Node) : rereadAll ns = ns.map reread := by
  induction ns with
  | nil => rw [rereadAll, map_nil]
  | cons n ns ih => rw [rereadAll, map_cons, ih]

theorem reread_eq (n : Node) :
    n.reread = ⟨n.name, n.value.map TemplateKit.reread, n.isLink, n.attributes,
      n.children.map reread⟩ := by
  cases n
  rw [reread, rereadAll_eq]

mutual

def mapAttributes (f : Attribute → Attribute) (n : Node) : Node :=
  match n with
  | ⟨name, value, isLink, attributes, children⟩ =>
    ⟨name, value, isLink, attributes.map f, mapAttributesAll f children⟩

def mapAttributesAll (f : Attribute → Attribute) (ns : List Node) : List Node :=
  match ns with
  | [] => []
  | n :: rest => n.mapAttributes f :: mapAttributesAll f rest

end

theorem mapAttributes_eq (f : Attribute → Attribute) (n : Node) :
    n.mapAttributes f = ⟨n.name, n.value, n.isLink, n.attributes.map f,
      n.children.map (mapAttributes f)⟩ := by
  have hall : ∀ ns, mapAttributesAll f ns = ns.map (mapAttributes f) := by
    intro ns
    induction ns with
    | nil => rw [mapAttributesAll, map_nil]
    | cons n ns ih => rw [mapAttributesAll, map_cons, ih]
  cases n
  rw [mapAttributes, hall]

theorem mapAttributes_eq_self_iff {f} : n.mapAttributes f = n ↔
    Everywhere (fun m => ∀ a ∈ m.attributes, f a = a) n := by
  have hall : ∀ ns : List Node, ns.map (mapAttributes f) = ns ↔
      ∀ n ∈ ns, Everywhere (fun m => ∀ a ∈ m.attributes, f a = a) n := by
    intro ns
    induction ns using forest_induction with
    | nil => simp
    | cons n ns hc hr =>
      have ha : n.attributes.map f = n.attributes ↔ ∀ a ∈ n.attributes, f a = a := by
        simpa using map_inj_left (l := n.attributes) (f := f) (g := id)
      have hp : n.mapAttributes f = n ↔
          n.attributes.map f = n.attributes ∧ n.children.map (mapAttributes f) = n.children := by
        rw [mapAttributes_eq]
        cases n
        simp
      have hn : n.mapAttributes f = n ↔ Everywhere (fun m => ∀ a ∈ m.attributes, f a = a) n := by
        rw [hp, ha, hc]
        exact ⟨fun h => ⟨h.1, h.2⟩, fun h => ⟨h.here, h.children⟩⟩
      rw [map_cons, List.cons.injEq, forall_mem_cons, hn, hr]
  simpa using hall [n]

/-- What is read where a tree with attributes was written. -/
def readBack (n : Node) : Node := n.reread.mapAttributes Attribute.reread

theorem readBack_eq (n : Node) : n.readBack = ⟨n.name, n.value.map TemplateKit.reread, n.isLink,
    n.attributes.map Attribute.reread, n.children.map readBack⟩ := by
  rw [readBack, mapAttributes_eq, reread_eq, map_map]
  rfl

theorem readBack_name (n : Node) : n.readBack.name = n.name := by rw [readBack_eq]

theorem readBack_children (n : Node) : n.readBack.children = n.children.map readBack := by
  rw [readBack_eq]

theorem names_readBack (ns : List Node) : (ns.map readBack).map (·.name) = ns.map (·.name) := by
  rw [map_map]
  exact map_congr_left fun n _ => n.readBack_name

theorem Shaped.readBack (h : n.Shaped) : n.readBack.Shaped := by
  rw [readBack_eq]
  refine ⟨h.name, forall_mem_map.mpr fun a ha => (h.attributes a ha).reread, fun hv => ?_, ?_,
    by simpa using h.filled, fun hli => ?_⟩
  · rw [h.bare (Option.map_eq_none_iff.mp hv), map_nil]
  · rw [DistinctNames, names_readBack]
    exact h.distinct
  · obtain ⟨hc, hl⟩ := h.link hli
    refine ⟨by rw [hc, map_nil], fun v hv => ?_⟩
    obtain ⟨w, hw, rfl⟩ := Option.map_eq_some_iff.mp hv
    exact fun hmem => hl w hw (reread_subset w hmem)

theorem Everywhere.readBack {P} (hP : ∀ n, P n → P n.readBack) (h : Everywhere P n) :
    Everywhere P n.readBack := by
  induction h with
  | intro here _ ih =>
    refine ⟨hP _ here, ?_⟩
    rw [readBack_eq]
    exact forall_mem_map.mpr ih

theorem readBack_of_no_attributes (h : Everywhere (·.attributes = []) n) :
    n.readBack = n.reread := by
  induction h with
  | intro here _ ih => rw [readBack_eq, reread_eq, here, map_nil, map_congr_left ih]

theorem reread_eq_self (h : Everywhere (fun m => ∀ v, m.value = some v → Storable v m.isLink) n) :
    n.reread = n := by
  induction h with
  | @intro n here _ ih =>
    have hva : n.value.map TemplateKit.reread = n.value := by
      cases hv : n.value with
      | none => rfl
      | some v => rw [Option.map_some, reread_of_storable (here v hv)]
    rw [reread_eq, hva, map_congr_left ih, map_id']
    exact eta n

theorem readBack_of_entry (h : Everywhere Entry n) : n.readBack = n := by
  rw [readBack_of_no_attributes (h.imp fun _ => Entry.attributes),
    reread_eq_self (h.imp fun _ => Entry.value)]

/-- A tree as the text can hold it: the root holds nothing itself. -/
structure Document (n : Node) : Prop where
  name : n.name = []
  value : n.value = none
  isLink : n.isLink = false
  attributes : n.attributes = []
  distinct : n.DistinctNames
  entries : ∀ m ∈ n.children, Everywhere Entry m

/-- The value of a node if it has several lines, with the terminator that is written behind it. -/
def ownBlock (n : Node) (t : Terminator) (r : Random) :
    List (Terminator × Bytes) × Terminator × Random :=
  match n.value with
  | none => ([], t, r)
  | some v =>
    if v.elem newline then
      let (t, r) := t.choose v draws r
      ([(t, v)], t, r)
    else ([], t, r)

mutual

/-- The values with several lines below a node, each with the terminator that is written behind it.
-/
def blocksBelow (n : Node) (r : Random) : List (Terminator × Bytes) × Random :=
  match n with
  | ⟨_, _, _, _, children⟩ => blocksAll children initial r

def blocksAll (ns : List Node) (t : Terminator) (r : Random) : List (Terminator × Bytes) × Random :=
  match ns with
  | [] => ([], r)
  | n :: rest =>
    let (own, t, r) := n.ownBlock t r
    let (below, r) := blocksBelow n r
    let (more, r) := blocksAll rest t r
    (own ++ below ++ more, r)

end

theorem blocksBelow_eq (n : Node) (r : Random) :
    blocksBelow n r = blocksAll n.children initial r := by
  cases n
  rw [blocksBelow]

theorem writeBelow_eq (layout : Layout) (level : Nat) (path : Option Bytes) (n : Node)
    (r : Random) :
    writeBelow layout level path n r = writeAll layout level path n.children initial r := by
  cases n
  rw [writeBelow]

theorem blocksAll_cons : blocksAll (n :: ns) t r =
      ((n.ownBlock t r).1 ++ (blocksAll n.children initial (n.ownBlock t r).2.2).1 ++
        (blocksAll ns (n.ownBlock t r).2.1 (blocksAll n.children initial (n.ownBlock t r).2.2).2).1,
        (blocksAll ns (n.ownBlock t r).2.1
          (blocksAll n.children initial (n.ownBlock t r).2.2).2).2) := by
  rw [← blocksBelow_eq, blocksAll]

theorem writeLine_state (lead : Bytes) : (n.writeLine lead t r).2 = (n.ownBlock t r).2 := by
  rw [writeLine, ownBlock]
  cases n.value with
  | none => rfl
  | some v =>
    simp only [writeValue]
    split <;> rfl

section Write

variable {layout : Layout} {level : Nat} {path : Option Bytes}

/-- The text of a node's children in a block of their own. -/
def inBlock (layout : Layout) (level : Nat) (n : Node) (text : Bytes) : Bytes :=
  if n.children.isEmpty then []
  else layout.indent level ++ n.name ++ " \x7b\n" ++ text ++ (layout.indent level ++ "\x7d\n")

/-- The name under which a node is written. -/
def label (layout : Layout) (path : Option Bytes) (name : Bytes) : Bytes :=
  if layout = .dotted then fullName path name else name

theorem writeAll_cons : writeAll layout level path (n :: ns) t r =
    let full := label layout path n.name
      let line := n.writeLine (layout.indent level ++ full) t r
      let below := writeAll layout (level + 1) (some full) n.children initial line.2.2
      let more := writeAll layout level path ns line.2.1 below.2
      (line.1 ++ (if layout = .dotted then below.1 else inBlock layout level n below.1) ++ more.1,
        more.2) := by
  have he : n.children.isEmpty = true →
      ∀ full r, writeAll layout (level + 1) full n.children initial r = ([], r) := by
    intro h full r
    rw [List.isEmpty_iff.mp h, writeAll]
  rw [writeAll]
  simp only [writeBelow_eq, label, inBlock]
  by_cases hl : layout = .dotted
  · subst hl
    by_cases h : n.children.isEmpty = true
    · simp [he h, Layout.indent]
    · simp [h, Layout.indent]
  · by_cases h : n.children.isEmpty = true
    · simp [hl, h, he h]
    · simp [hl, h]

theorem writeAll_random (layout : Layout) (level : Nat) (path : Option Bytes)
    (ns : List Node) (t : Terminator)
    (r : Random) : (writeAll layout level path ns t r).2 = (blocksAll ns t r).2 := by
  induction ns using forest_induction generalizing level path t r with
  | nil => rw [writeAll, blocksAll]
  | cons n ns hb hm =>
    rw [blocksAll_cons]
    simp only [writeAll_cons, hm, hb, writeLine_state]

end Write

/-- None of the values with several lines has a piece that is taken for its terminator. -/
def Uncut (blocks : List (Terminator × Bytes)) : Prop := ∀ b ∈ blocks, b.1.cuts b.2 = false

/-- The same of the values with their last lines ended, as they are written. -/
def Legible (blocks : List (Terminator × Bytes)) : Prop :=
  ∀ b ∈ blocks, b.1.cuts (completed b.2) = false

theorem proper_ownBlock (ht : t.Proper) : (n.ownBlock t r).2.1.Proper := by
  rw [ownBlock]
  cases n.value with
  | none => exact ht
  | some v =>
    simp only
    split
    · exact proper_choose v _ ht r
    · exact ht

/-- Has no value of a tree several lines? -/
def SingleLines (n : Node) : Prop :=
  Everywhere (fun m => ∀ v, m.value = some v → (10 : UInt8) ∉ v) n

theorem blocksAll_of_singleLines (ns : List Node) (h : ∀ n ∈ ns, n.SingleLines) (t : Terminator)
    (r : Random) :
    (blocksAll ns t r).1 = [] := by
  induction ns using forest_induction generalizing t r with
  | nil => rw [blocksAll]
  | cons n ns hb hm =>
    have hn := h n mem_cons_self
    have hown : (n.ownBlock t r).1 = [] := by
      rw [ownBlock]
      cases hv : n.value with
      | none => rfl
      | some v => simp [newline, hn.here v hv]
    rw [blocksAll_cons, hown, hb hn.children, hm fun k hk => h k (mem_cons_of_mem n hk)]
    rfl

/-- Every value with several lines that is written ends in a newline, and its terminator is a proper
one. -/
theorem blocksAll_spec (ns : List Node) (h : ∀ n ∈ ns, Everywhere Entry n) {t} (ht : t.Proper)
    (r : Random) : ∀ b ∈ (blocksAll ns t r).1, b.1.Proper ∧ b.2.getLast? = some 10 := by
  induction ns using forest_induction generalizing t r with
  | nil => nofun
  | cons n ns hb hm =>
    have hn := h n mem_cons_self
    have hown : ∀ b ∈ (n.ownBlock t r).1, b.1.Proper ∧ b.2.getLast? = some 10 := by
      rw [ownBlock]
      cases hv : n.value with
      | none => nofun
      | some v =>
        simp only
        split
        · next he =>
          have hl := (hn.here.value v hv).resolve_left fun hone => hone.1 (elem_iff.mp he)
          simpa using ⟨proper_choose v draws ht r, hl.2⟩
        · nofun
    rw [blocksAll_cons, forall_mem_append, forall_mem_append]
    exact ⟨⟨hown, hb hn.children proper_initial _⟩,
      hm (fun k hk => h k (mem_cons_of_mem n hk)) (proper_ownBlock ht) _⟩

end Node

end TemplateKit
