import TemplateKit.Proofs.Data.Document
import TemplateKit.Proofs.Data.Edit

/-!
# Trees written as text and read back

Every tree that the text can hold is read back as it was written, in each layout, where no
multi-line value has a piece that the reader takes for the terminator behind it. The writer looks
for that less closely than the reader does, so such values exist.
-/

namespace TemplateKit.Node

open List Terminator

variable {n R : Node} {a : Address} {t : Terminator} {r : Random}

def bare (n : Node) : Node := fresh n.name ⟨n.value, n.isLink, n.attributes⟩

@[simp] theorem bare_name : n.bare.name = n.name := rfl

theorem child?_bare (c : Bytes) : n.bare.child? c = none := rfl

/-- The tree behind the line of a node, which has one only if it has a value. -/
def lined (a : Address) (n R : Node) : Node := if n.value = none then R else sow a n.bare R

theorem bare_extend (n : Node) : n.bare.extend n.children = n := eta n

namespace Shaped

theorem isLink_of_children (h : n.Shaped) (hc : n.children ≠ []) : n.isLink = false := by
  cases hl : n.isLink with
  | false => rfl
  | true => exact absurd (h.link hl).1 hc

theorem bare_of_none (h : n.Shaped) (hv : n.value = none) (hc : n.children ≠ []) :
    n.bare = empty n.name := by
  rw [Node.bare, hv, h.isLink_of_children hc, h.bare hv]
  rfl

theorem grow_lined (h : n.Shaped) (hf : Free a n.name R) :
    grow (a ++ [n.name]) n.children (lined a n R) = sow a n R := by
  rw [lined]
  split
  · next hv =>
    have hc : n.children ≠ [] := h.filled.resolve_left (absurd hv)
    rw [grow_missing hf hc, ← h.bare_of_none hv hc, bare_extend]
  · rw [grow_sow bare_name hf, bare_extend]

theorem lined_of_no_children (h : n.Shaped) (hc : n.children = []) (hf : Free a n.name R) :
    lined a n R = sow a n R := by
  rw [← h.grow_lined hf, hc, grow_nil]

end Shaped

section Reads

variable {load : Node → Address → Bytes → Node × Except Failure Unit} {mode : Inclusion}
  {path : Bytes}

theorem reads_line (h : n.Shaped) (ht : t.Proper) (hcut : Legible (n.ownBlock t r).1) {blanks name}
    (hb : Blank blanks) (hn : DataLine.NameText name) {here address outer}
    (ha : ∀ v, R.assignAt here name v = (sow a (fresh n.name v) R, .ok address)) :
    Reads load mode path (n.writeLine (blanks ++ name) t r).1 (here :: outer, R)
      (here :: outer, lined a n.readBack R) := by
  cases hv : n.value with
  | none =>
    simp only [writeLine, readBack_eq, hv]
    exact .nil _
  | some v =>
    have hc' : (10 : UInt8) ∈ v → (t.choose v draws r).1.cuts (completed v) = false := by
      intro hmem
      exact hcut (_, v) (by simp [ownBlock, hv, newline, hmem])
    have hte : (n.writeLine (blanks ++ name) t r).1 =
        blanks ++ name ++ Attribute.writeList n.attributes ++ (writeValue v n.isLink t r).1 := by
          simp [writeLine, hv]
    have htr : lined a n.readBack R = sow a (fresh n.name ⟨some (TemplateKit.reread v), n.isLink,
        n.attributes.map Attribute.reread⟩) R := by
      simp [lined, bare, readBack_eq, hv]
    rw [hte, htr]
    exact .value hb hn h.attributes (fun hl => (h.link hl).2 v hv) ht hc' (ha _)

theorem blank_indent (layout : Layout) (level : Nat) : Blank (layout.indent level) := by
  intro b hb
  rw [Layout.indent] at hb
  split at hb
  · exact eq_of_mem_replicate hb
  · simp at hb

/-- A block opens below a node that has its line already, or makes the node. -/
theorem openAt_lined (h : n.Shaped) (hc : n.children ≠ []) {m} (hm : R.get? a = some m)
    (hl : m.isLink = false) (hf : m.child? n.name = none) :
    (lined a n R).openAt a n.name [] = (sow a n.bare R, .ok (a ++ [n.name])) := by
  have hp := h.name.components
  rw [lined]
  split
  · next hv =>
    have hn : R.locate? a n.name = none := by simp [locate?, hm, hp, hl, walk, hf]
    have ha := assignAt_new hm (clear_nil hl) hf hp (by simpa using h.name.1.symm) { value := none }
    rw [append_nil] at ha
    rw [h.bare_of_none hv hc]
    simp only [openAt, hn]
    exact ha
  · have hsown := get?_sow (x := n.bare) hm
    have hfo : (m.append n.bare).child? n.name = some n.bare := by simp [child?_append, hf]
    have hb : n.bare.isLink = false := h.isLink_of_children hc
    have hs : (sow a n.bare R).locate? a n.name = some ⟨a ++ [n.name], n.bare⟩ := by
      simp [locate?, hsown, hp, hl, walk, hfo, hb]
    have hget : (sow a n.bare R).get? (a ++ [n.name]) = some n.bare := by
      simp [get?_append, hsown, get?, hfo]
    have hsa : n.bare.assign { value := n.bare.value } = n.bare := by
      generalize n.bare = x at hb
      obtain ⟨_, _, _, attributes, _⟩ := x
      cases attributes <;> simp_all [assign]
    simp only [openAt, hs]
    rw [modify_eq hget, hsa, modify_self hget]

theorem free_append {m b c} (hm : R.get? a = some m) (hf : Free b c m) : Free (a ++ b) c R := by
  rwa [Free, reached_append, reached_of_get? hm]

theorem reads_inBlock (h : n.Shaped) {m} (hm : R.get? a = some m) (hl : m.isLink = false)
    (hf : m.child? n.name = none) (layout : Layout) (level : Nat) {text outer}
    (hr : n.children ≠ [] → Reads load mode path text ((a ++ [n.name]) :: a :: outer,
      sow a n.bare R)
      ((a ++ [n.name]) :: a :: outer, grow (a ++ [n.name]) n.children (sow a n.bare R))) :
    Reads load mode path (inBlock layout level n text) (a :: outer, lined a n R) (a :: outer,
      sow a n R) := by
  have hfr : Free a n.name R := append_nil a ▸ free_append hm hf
  have hb := blank_indent layout level
  by_cases hc : n.children = []
  · rw [h.lined_of_no_children hc hfr, inBlock, hc]
    exact .nil _
  · have hg := grow_sow bare_name hfr n.children
    rw [bare_extend] at hg
    rw [← hg]
    have ho : Reads load mode path (layout.indent level ++ n.name ++ " \x7b\n") (a :: outer,
        lined a n R) ((a ++ [n.name]) :: a :: outer, sow a n.bare R) :=
      .opening hb h.name.nameText (openAt_lined h hc hm hl hf)
    simp only [inBlock, List.isEmpty_iff, hc]
    exact (ho.append (hr hc)).append (.closing hb)

theorem inBlock_readBack (layout : Layout) (level : Nat) (n : Node) (text : Bytes) :
    inBlock layout level n.readBack text = inBlock layout level n text := by
  simp [inBlock, readBack_eq]

/-- The names under `prev` lead from the open block to an address below it, which is the block
itself in the layouts with blocks. -/
structure Leads (layout : Layout) (prev : Option Bytes) (a : Address) : Prop where
  nil_not_mem : [] ∉ a
  nameText : ∀ name, IsWord name → DataLine.NameText (label layout prev name)
  components : ∀ name, IsWord name → components (label layout prev name) = a ++ [name]
  block : layout ≠ .dotted → a = []

theorem leads_block {layout} (h : layout ≠ .dotted) (prev : Option Bytes) :
    Leads layout prev [] := by
  refine ⟨nofun, ?_, ?_, fun _ => rfl⟩
  all_goals
    intro name hn
    rw [label, if_neg h]
  · exact hn.nameText
  · exact hn.components

theorem leads_root (layout : Layout) : Leads layout none [] := by
  by_cases h : layout = .dotted
  · subst h
    exact ⟨nofun, fun _ h => h.nameText, fun _ h => h.components, fun _ => rfl⟩
  · exact leads_block h none

theorem Leads.below {prev} (h : Leads .dotted prev a) {c} (hc : IsWord c) :
    Leads .dotted (some (label .dotted prev c)) (a ++ [c]) where
  nil_not_mem := by simpa [h.nil_not_mem] using hc.1.symm
  nameText := by
    intro name hn
    refine ⟨by simp [label, fullName], fun b hb => ?_⟩
    rcases mem_append.mp hb with hb | hb
    · exact (h.nameText c hc).2 b hb
    · rcases mem_cons.mp hb with rfl | hb
      · rfl
      · exact hn.nameText.2 b hb
  components := by
    intro name hn
    rw [label, if_pos rfl, fullName, components_eq_splitByte (by simp), Bytes.splitByte_append_sep,
      ← components_eq_splitByte (h.nameText c hc).1, ← components_eq_splitByte hn.1,
        h.components c hc,
      hn.components]
  block h := absurd rfl h

theorem reads_writeAll {layout} (level : Nat) {prev b} (hp : Leads layout prev b) (ns : List Node)
    (hns : ∀ n ∈ ns, Everywhere Shaped n) (hd : (ns.map (·.name)).Nodup) {t} (ht : t.Proper)
    {r} (hcut : Legible (blocksAll ns t r).1) {R a m} (hm : R.get? a = some m) (hcl : Clear b m)
    (hf : ∀ n ∈ ns, Free b n.name m) (outer : List Address) :
    Reads load mode path (writeAll layout level prev ns t r).1 (a :: outer, R)
      (a :: outer, grow (a ++ b) (ns.map readBack) R) := by
  induction ns using forest_induction generalizing level prev b t r R a m outer with
  | nil => exact .nil _
  | cons n ns ihbelow ihrest =>
    have hn := hns n mem_cons_self
    have hr := hn.here.readBack
    have hfn := hf n mem_cons_self
    have hw := hn.here.name
    rw [map_cons, nodup_cons] at hd
    rw [blocksAll_cons, Legible, forall_mem_append, forall_mem_append] at hcut
    obtain ⟨⟨hown, hb⟩, hmo⟩ := hcut
    have hnil : [] ∉ b ++ [n.name] := by simpa [hp.nil_not_mem] using hw.1.symm
    have hli :
        Reads load mode path (n.writeLine (layout.indent level ++ label layout prev n.name) t r).1
        (a :: outer, R) (a :: outer, lined (a ++ b) n.readBack R) :=
      reads_line hn.here ht hown (blank_indent layout level) (hp.nameText n.name hw)
        (assignAt_new hm hcl hfn (hp.components n.name hw) hnil)
    have hre := ihrest level hp (fun k hk => hns k (mem_cons_of_mem n hk)) hd.2
      (proper_ownBlock ht) hmo
      (get?_sow_front hm b) hcl.sow
      (fun k hk => (hf k (mem_cons_of_mem n hk)).sow fun hsame =>
        hd.1 (mem_map.mpr ⟨k, hk, hsame.symm.trans n.readBack_name⟩)) outer
    rw [← n.readBack_name] at hfn
    have hb : Reads load mode path (if layout = .dotted then
          (writeAll layout (level + 1) (some (label layout prev n.name)) n.children initial
            (n.ownBlock t r).2.2).1
        else inBlock layout level n
          (writeAll layout (level + 1) (some (label layout prev n.name)) n.children initial
            (n.ownBlock t r).2.2).1)
        (a :: outer, lined (a ++ b) n.readBack R) (a :: outer, sow (a ++ b) n.readBack R) := by
      by_cases hla : layout = .dotted
      · subst hla
        rw [← hr.grow_lined (free_append hm hfn), readBack_children, readBack_name, append_assoc]
        by_cases hc : n.readBack.children = []
        · rw [readBack_children, map_eq_nil_iff] at hc
          rw [hc]
          exact .nil _
        · obtain ⟨m', hm', hc', hf'⟩ : ∃ m', (lined (a ++ b) n.readBack R).get? a = some m' ∧
              Clear (b ++ [n.name]) m' ∧ ∀ k, Free (b ++ [n.name]) k m' := by
            rw [lined, ← n.readBack_name]
            split
            · exact ⟨m, hm, hcl.below hfn, hfn.below⟩
            · exact ⟨_, get?_sow_front hm b, hcl.sow_below hfn bare_name (hr.isLink_of_children hc),
                fun k => hfn.sow_below bare_name (child?_bare k)⟩
          exact ihbelow (level + 1) (hp.below hw) hn.children hn.here.distinct
            proper_initial hb hm' hc'
            (fun k _ => hf' k.name) outer
      · obtain rfl := hp.block hla
        have hl : m.isLink = false := hcl [] nil_prefix
        rw [if_neg hla, ← inBlock_readBack, append_nil]
        refine reads_inBlock hr hm hl hfn layout level fun hc => ?_
        have hba : (sow a n.readBack.bare R).get? (a ++ [n.readBack.name]) =
            some n.readBack.bare := by
          have hno : m.child? n.readBack.name = none := hfn
          rw [get?_append, get?_sow hm]
          simp [get?, child?_append, hno]
        have hi :=
          ihbelow (level + 1) (leads_block hla (some (label layout prev n.name))) hn.children
          hn.here.distinct proper_initial hb hba
          (clear_nil (hr.isLink_of_children hc)) (fun k _ => child?_bare k.name)
          (a :: outer)
        rwa [append_nil, ← readBack_children] at hi
    simp only [writeAll_cons, writeLine_state, writeAll_random]
    exact (hli.append hb).append hre

end Reads

theorem Document.extend_root (h : n.Document) : Node.root.extend n.children = n := by
  obtain ⟨name, value, isLink, attributes, children⟩ := n
  obtain rfl : name = [] := h.name
  obtain rfl : value = none := h.value
  obtain rfl : isLink = false := h.isLink
  obtain rfl : attributes = [] := h.attributes
  rfl

theorem readText_write {ns} (hns : ∀ n ∈ ns, Everywhere Shaped n) (hd : (ns.map (·.name)).Nodup)
    (layout : Layout) {r} (hcut : Legible ((root.extend ns).blocksBelow r).1) :
    root.readText false [] ((root.extend ns).write layout none r).1 =
    (root.extend (ns.map readBack), .ok ()) := by
  have hr : Reads (fun root _ _ => (root, .ok ())) .forbidden "<string>"
      (writeAll layout 0 none ns initial r).1 ([[]], root)
      ([[]], grow [] (ns.map readBack) root) := by
    exact reads_writeAll 0 (leads_root layout) ns hns hd proper_initial hcut (m := root) rfl
      (clear_nil rfl) (fun k _ => free_empty [] k.name []) []
  rw [grow_root] at hr
  exact hr.complete

theorem Document.readText_write (h : n.Document) (layout : Layout) (r : Random)
    (hcut : Uncut (n.blocksBelow r).1) :
    root.readText false [] (n.write layout none r).1 = (n, .ok ()) := by
  have hl : Legible (n.blocksBelow r).1 := by
    rw [blocksBelow_eq] at hcut ⊢
    intro b hb
    rw [completed_eq_self (blocksAll_spec n.children h.entries proper_initial r b hb).2]
    exact hcut b hb
  have hr := Node.readText_write (fun k hk => (h.entries k hk).imp fun _ => Entry.shaped)
    h.distinct layout
    (h.extend_root.symm ▸ hl)
  rwa [map_congr_left fun k hk => readBack_of_entry (h.entries k hk), map_id', h.extend_root] at hr

theorem readText_indexed {text} (h : root.readText false [] text = (n, .ok ())) :
    ∃ s : IndexedNode, DataTree.readText false IndexedNode.root [] text = (s, .ok ()) ∧
      s.plain = n := by
  obtain ⟨-, hp, ha⟩ := IndexedNode.readText_refines (.fresh 0 []) false [] text
  exact ⟨_, Prod.ext rfl (ha.trans (congrArg Prod.snd h)), hp.trans (congrArg Prod.fst h)⟩

/-- A tree without values of several lines is read back as it was written, in every layout. -/
theorem readText_write_single_lines (n : Node) (h : n.Document) (hlines : n.SingleLines)
    (layout : Layout)
    (r : Random) : root.readText false [] (n.write layout none r).1 = (n, .ok ()) ∧
      ∃ s : IndexedNode, DataTree.readText false IndexedNode.root [] (n.write layout none r).1 =
        (s, .ok ()) ∧
        s.plain = n := by
  have hcut : Uncut (n.blocksBelow r).1 := by
    rw [blocksBelow_eq, blocksAll_of_singleLines n.children hlines.children]
    nofun
  have hread := h.readText_write layout r hcut
  exact ⟨hread, readText_indexed hread⟩

/-- A link below a value with an equals sign in it. -/
theorem readText_write_single_lines_link :
    let n := root.extend [⟨ascii "a", some (ascii "x = y"), false, [],
      [⟨ascii "b", some (ascii "a"), true, [], []⟩]⟩]
    n.Document ∧ n.SingleLines ∧ root.readText false [] (n.write .pretty none (.seed 1)).1 =
    (n, .ok ()) := by
  intro n
  have hentry : Everywhere Entry ⟨ascii "a", some (ascii "x = y"), false, [],
      [⟨ascii "b", some (ascii "a"), true, [], []⟩]⟩ := by
    refine ⟨⟨by decide, rfl, by decide, .inl nofun, ?_, nofun⟩, ?_⟩
    · rintro _ ⟨⟩
      decide
    · exact forall_mem_singleton.mpr (Entry.leaf (by decide) (by decide))
  have hdoc : n.Document := ⟨rfl, rfl, rfl, rfl, by decide, forall_mem_singleton.mpr hentry⟩
  have hlines : n.SingleLines := by
    refine ⟨nofun, forall_mem_singleton.mpr ⟨?_, forall_mem_singleton.mpr ⟨?_, nofun⟩⟩⟩
    all_goals
      rintro _ ⟨⟩
      decide
  exact ⟨hdoc, hlines, (readText_write_single_lines n hdoc hlines .pretty (.seed 1)).1⟩

/-- A tree with values of several lines is read back in every layout where no value has a piece that
is taken for its terminator. A value with such a piece is cut short where it is read. -/
theorem readText_write_blocks (n : Node) (h : n.Document) (layout : Layout) (r : Random) :
    (Uncut (n.blocksBelow r).1 → root.readText false [] (n.write layout none r).1 = (n, .ok ()) ∧
      ∃ s : IndexedNode, DataTree.readText false IndexedNode.root [] (n.write layout none r).1 =
        (s, .ok ()) ∧
        s.plain = n) ∧ ∀ b ∈ (n.blocksBelow r).1, ∀ more, ∀ fuel > b.2.length,
      (readPieces b.1 fuel .empty (b.2 ++ (b.1 ++ 10 :: more))).1 = b.2 ↔ b.1.cuts b.2 = false := by
  refine ⟨fun hcut => ?_, fun b hb more fuel hfuel => ?_⟩
  · have hread := h.readText_write layout r hcut
    exact ⟨hread, readText_indexed hread⟩
  · rw [blocksBelow_eq] at hb
    obtain ⟨hproper, hlast⟩ := blocksAll_spec n.children h.entries Terminator.proper_initial r b hb
    have hshort : b.1.length + 1 < PieceBuffer.growth :=
      Nat.lt_of_le_of_lt (Nat.succ_le_succ hproper.short) (by decide)
    exact readPieces_eq_iff hproper.newline_not_mem hshort hlast hfuel more

/-- A value that holds the first terminator on a line of its own is written with another one. -/
theorem readText_write_blocks_drawn :
    let n := root.extend [⟨ascii "n", some (ascii "a\nEOM\nb\n"), false, [], []⟩,
      ⟨ascii "m", some (ascii "1"), false, [], []⟩]
    n.Document ∧ Uncut (n.blocksBelow (.seed 1)).1 ∧
      root.readText false [] (n.write .compact none (.seed 1)).1 = (n, .ok ()) := by
  intro n
  have hdoc : n.Document := by
    refine ⟨rfl, rfl, rfl, rfl, by decide, forall_mem_cons.mpr ⟨?_, forall_mem_singleton.mpr ?_⟩⟩
    all_goals exact Entry.leaf (by decide) (by decide)
  have hcut : Uncut (n.blocksBelow (.seed 1)).1 := by
    unfold Uncut
    decide +kernel
  exact ⟨hdoc, hcut, ((readText_write_blocks n hdoc .compact (.seed 1)).1 hcut).1⟩

/-- A value whose first line is the terminator is not read back: the writer only looks for the
terminator between two newlines. -/
theorem readText_write_terminator_first :
    let n := root.extend [⟨ascii "n", some (ascii "EOM\n"), false, [], []⟩,
      ⟨ascii "m", some (ascii "1"), false, [], []⟩]
    n.Document ∧ ∀ layout, root.readText false [] (n.write layout none (.seed 1)).1 ≠
      (n, .ok ()) := by
  intro n
  refine ⟨⟨rfl, rfl, rfl, rfl, by decide, forall_mem_cons.mpr ⟨?_, forall_mem_singleton.mpr ?_⟩⟩,
    fun layout heq => ?_⟩
  · exact Entry.leaf (by decide) (by decide)
  · exact Entry.leaf (by decide) (by decide)
  · have herror : (root.readText false [] (n.write layout none (.seed 1)).1).2.isOk = false := by
      cases layout <;> decide +kernel
    rw [heq] at herror
    simp [Except.isOk, Except.toBool] at herror

/-- A node below the root with a value of one line and attributes that can be written. -/
structure Labelled (n : Node) : Prop where
  name : IsWord n.name
  distinct : n.DistinctNames
  value : ∃ v, n.value = some v ∧ OneLine v
  attributes : ∀ a ∈ n.attributes, a.Writable
  link : n.isLink = true → n.children = []

namespace Labelled

theorem value_of (h : n.Labelled) {v} (hv : n.value = some v) : OneLine v := by
  obtain ⟨w, hw, hl⟩ := h.value
  rwa [Option.some.inj (hv.symm.trans hw)]

theorem shaped (h : n.Labelled) : n.Shaped := by
  obtain ⟨v, hv, -⟩ := h.value
  have hs : n.value ≠ none := hv ▸ Option.some_ne_none v
  exact ⟨h.name, h.attributes, fun hn => absurd hn hs, h.distinct, .inl hs,
    fun hl => ⟨h.link hl, fun w hw => (h.value_of hw).1⟩⟩

theorem readBack_eq (h : Everywhere Labelled n) :
    n.readBack = n.mapAttributes Attribute.reread := by
  rw [readBack, reread_eq_self (h.imp fun m hm v hv => .inl (hm.value_of hv))]

end Labelled

/-- A tree with values of one line and with attributes is read back in every layout, but for the
attributes with the value `1` and those without a value: they get the empty value. -/
theorem readText_write_attributes (ns : List Node) (h : ∀ n ∈ ns, Everywhere Labelled n)
    (hd : (ns.map (·.name)).Nodup) (layout : Layout) (r : Random) :
    let n := root.extend ns
    root.readText false [] (n.write layout none r).1 = (n.mapAttributes Attribute.reread, .ok ()) ∧
      (n.mapAttributes Attribute.reread = n ↔
        Everywhere (fun m => ∀ a ∈ m.attributes, a.value ≠ none ∧ a.value ≠ some (ascii "1")) n) ∧
      ∃ s : IndexedNode, DataTree.readText false IndexedNode.root [] (n.write layout none r).1 =
        (s, .ok ()) ∧
        s.plain = n.mapAttributes Attribute.reread := by
  intro n
  have hlegible : Legible (n.blocksBelow r).1 := by
    have hlines : ∀ k ∈ n.children, k.SingleLines := fun k hk =>
      (h k hk).imp fun m hm v hv => (hm.value_of hv).1
    rw [blocksBelow_eq, blocksAll_of_singleLines n.children hlines]
    nofun
  have hread := readText_write (fun k hk => (h k hk).imp fun _ => Labelled.shaped) hd
    layout hlegible
  have htree : root.extend (ns.map readBack) = n.mapAttributes Attribute.reread := by
    rw [map_congr_left fun k hk => Labelled.readBack_eq (h k hk), mapAttributes_eq]
    rfl
  rw [htree] at hread
  refine ⟨hread, ?_, readText_indexed hread⟩
  simp only [mapAttributes_eq_self_iff, Attribute.reread_eq_self_iff]

/-- Quotes, line ends and bytes that cannot be printed come back. -/
theorem readText_write_attributes_quoted : let a : Attribute :=
  ⟨ascii "k", some (ascii "\"\\\n" ++ [200])⟩
    let ns : List Node := [⟨ascii "n", some (ascii "v"), false, [a, ⟨ascii "l", some []⟩], []⟩]
    (∀ n ∈ ns, Everywhere Labelled n) ∧
      root.readText false [] ((root.extend ns).write .dotted none (.seed 1)).1 =
      (root.extend ns, .ok ()) := by
  intro a ns
  have hwritable : ∀ {key v : Bytes}, (key ≠ [] ∧ key.all Ascii.isAlnum = true) → (0 : UInt8) ∉ v →
      Attribute.Writable ⟨key, some v⟩ := by
    intro key v hkey hv
    refine ⟨⟨hkey.1, List.all_eq_true.mp hkey.2⟩, ?_⟩
    rintro _ ⟨⟩
    exact hv
  have hns : ∀ n ∈ ns, Everywhere Labelled n := by
    refine forall_mem_singleton.mpr ⟨⟨by decide, nodup_nil, ⟨_, rfl, by decide⟩, ?_, nofun⟩, nofun⟩
    exact forall_mem_cons.mpr ⟨hwritable (by decide) (by decide),
      forall_mem_singleton.mpr (hwritable (by decide) (by decide))⟩
  have hread := readText_write_attributes ns hns (by decide) .dotted (.seed 1)
  have hsame : (root.extend ns).mapAttributes Attribute.reread = root.extend ns := rfl
  exact ⟨hns, hread.1.trans (by rw [hsame])⟩

/-- The value `1` does not come back. -/
theorem readText_write_attributes_one :
    let n := root.extend [⟨ascii "n", some (ascii "v"), false, [⟨ascii "k", some (ascii "1")⟩], []⟩]
    ∀ layout, root.readText false [] (n.write layout none (.seed 1)).1 ≠ (n, .ok ()) := by
  intro n layout heq
  have hattributes :
      ((root.readText false [] (n.write layout none (.seed 1)).1).1.get? [ascii "n"]).map
        (·.attributes) =
      some [⟨ascii "k", some []⟩] := by
    cases layout <;> decide +kernel
  rw [heq] at hattributes
  exact absurd hattributes (by decide)

end TemplateKit.Node
