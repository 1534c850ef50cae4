import TemplateKit.Data.Overlay
import TemplateKit.Data.Reader
import TemplateKit.Proofs.Data.Indexed

/-!
# Histories of edits

Whatever is done to an indexed tree, from the empty one on, gives the plain tree that the same edits
give without an index, and all levels stay sound: a child is found by what is remembered, by the
table or by a search exactly where a scan of all children finds it.
-/

namespace TemplateKit

open DataTree

/-- What can be done to a data tree. Sorting may look at the whole tree to compare two children. -/
inductive Edit where
  | assign (start : Address) (name : Bytes) (a : Assignment)
  | ensure (start : Address) (name : Bytes)
  | setAttribute (start : Address) (name key : Bytes) (value : Option Bytes)
  | remove (start : Address) (name : Bytes)
  | sort (start : Address) (le : Node → Node → Node → Bool)
  | copy (start : Address) (name : Bytes) (source : Option Node)
  | copyWithin (start : Address) (name : Bytes) (source : Option Address)
  | read (ignoreIncludes : Bool) (start : Address) (text : Bytes)

namespace DataTree

variable {τ : Type} [DataTree τ]

/-- The tree after an edit. A refused edit leaves what it did before it was refused. -/
def edit (root : τ) : Edit → τ
  | .assign start name a => (assignAt root start name a).1
  | .ensure start name => (ensureAt root start name).1
  | .setAttribute start name key value => (setAttributeAt root start name key value).1
  | .remove start name => removeAt root start name
  | .sort start le => sortWith root start (le (plain root))
  | .copy start name source => (copyAt root start name source).1
  | .copyWithin start name source => (copyWithinAt root start name source).1
  | .read ignoreIncludes start text => (readText ignoreIncludes root start text).1

/-- The tree that edits make of an empty one. -/
def after (edits : List Edit) : τ := edits.foldl edit empty

end DataTree

namespace IndexedNode

variable {root : IndexedNode} {α : Type}

/-- Both operations fail in the same way, or they succeed and go on from the same tree. -/
@[elab_as_elim]
theorem Refines.cases {ε : Type} {s : IndexedNode × Except ε α} {t : Node × Except ε α}
    {motive : IndexedNode × Except ε α → Node × Except ε α → Prop} (h : Refines s t)
    (error : ∀ root : IndexedNode, root.Sound → ∀ e, motive (root, .error e) (root.plain, .error e))
    (ok : ∀ root : IndexedNode, root.Sound → ∀ x, motive (root, .ok x) (root.plain, .ok x)) :
    motive s t := by
  obtain ⟨root, x⟩ := s
  obtain rfl : t = (root.plain, x) := Prod.ext h.plain.symm h.answer.symm
  cases x with
  | error e => exact error root h.sound e
  | ok x => exact ok root h.sound x

theorem Refines.tree {s : IndexedNode × α} {t : Node × α} (h : Refines s t) :
    s.1.Sound ∧ s.1.plain = t.1 :=
  ⟨h.sound, h.plain⟩

theorem Refines.unchanged (h : root.Sound) (x : α) : Refines (root, x) (root.plain, x) :=
  ⟨h, rfl, rfl⟩

mutual

theorem overlay_refines {root : IndexedNode} (h : root.Sound) (start : Address) (source : Node) :
    Refines (overlay root start source) (overlay root.plain start source) := by
  match source with
  | ⟨_, _, _, _, children⟩ =>
    exact overlayAll_refines h start children

theorem overlayAll_refines {root : IndexedNode} (h : root.Sound) (start : Address)
    (sources : List Node) :
    Refines (overlayAll root start sources) (overlayAll root.plain start sources) := by
  match sources with
  | [] =>
    exact .unchanged h _
  | s :: rest =>
    rw [overlayAll, overlayAll]
    simp only [DataTree.assignAt]
    refine (assignAt_refines h start s.name _).cases (fun _ h₁ _ => .unchanged h₁ _)
      fun root₁ h₁ address => ?_
    dsimp only
    refine (overlay_refines h₁ address s).cases (fun _ h₂ _ => .unchanged h₂ _) fun root₂ h₂ _ => ?_
    exact overlayAll_refines h₂ start rest

end

theorem copyAt_refines (h : root.Sound) (start : Address) (name : Bytes) (source : Option Node) :
    Refines (DataTree.copyAt root start name source)
      (DataTree.copyAt root.plain start name source) := by
  simp only [DataTree.copyAt, DataTree.ensureAt]
  refine (ensureAt_refines h start name).cases (fun _ h₁ _ => .unchanged h₁ _)
    fun root₁ h₁ address => ?_
  cases source with
  | none => exact .unchanged h₁ _
  | some s => exact overlay_refines h₁ address s

theorem overlayWithin_refines (h : root.Sound) (fuel : Nat) (start source : Address) (k : Nat) :
    Refines (DataTree.overlayWithin fuel root start source k)
      (DataTree.overlayWithin fuel root.plain start source k) := by
  induction fuel generalizing root start source k with
  | zero => exact .unchanged h _
  | succ fuel ih =>
    rw [DataTree.overlayWithin, DataTree.overlayWithin]
    simp only [DataTree.plain, id_eq]
    cases (root.plain.get? source).bind (·.children[k]?) with
    | none => exact .unchanged h _
    | some s =>
      simp only [DataTree.assignAt]
      refine (assignAt_refines h start s.name _).cases (fun _ h₁ _ => .unchanged h₁ _)
        fun root₁ h₁ address => ?_
      dsimp only
      refine (ih h₁ address (source ++ [s.name]) 0).cases (fun _ h₂ _ => .unchanged h₂ _)
        fun root₂ h₂ _ => ?_
      exact ih h₂ start source (k + 1)

theorem copyWithinAt_refines (h : root.Sound) (start : Address) (name : Bytes)
    (source : Option Address) :
    Refines (DataTree.copyWithinAt root start name source)
      (DataTree.copyWithinAt root.plain start name source) := by
  simp only [DataTree.copyWithinAt, DataTree.ensureAt]
  refine (ensureAt_refines h start name).cases (fun _ h₁ _ => .unchanged h₁ _)
    fun root₁ h₁ address => ?_
  cases source with
  | none => exact .unchanged h₁ _
  | some s => exact overlayWithin_refines h₁ _ address s 0

/-- Reading goes on in the same way on both sides. -/
inductive LineRefines : LineEnd IndexedNode → LineEnd Node → Prop
  | next (blocks : List Address) {root : IndexedNode} (h : root.Sound) (text : Bytes) (line : Nat) :
      LineRefines (.next blocks ⟨root, text, line⟩) (.next blocks ⟨root.plain, text, line⟩)
  | fault {root : IndexedNode} (h : root.Sound) (f : Failure) :
      LineRefines (.fault root f) (.fault root.plain f)

theorem assignLine_refines (h : root.Sound) (p : ReadPlace) (name : Bytes) (a : Assignment)
    (text : Bytes) (line : Nat) : LineRefines (DataTree.assignLine p name a ⟨root, text, line⟩)
      (DataTree.assignLine p name a ⟨root.plain, text, line⟩) := by
  simp only [DataTree.assignLine, DataTree.assignAt]
  exact (assignAt_refines h p.here name a).cases (fun _ h' _ => .fault h' _) fun _ h' _ =>
    .next _ h' _ _

section Read

variable {load : IndexedNode → Address → Bytes → IndexedNode × Except Failure Unit}
  {loadPlain : Node → Address → Bytes → Node × Except Failure Unit}

theorem applyLine_refines
    (hl : ∀ root start path, Sound root →
      Refines (load root start path) (loadPlain root.plain start path))
    (mode : Inclusion) (p : ReadPlace) (entry : DataLine) (h : root.Sound) (text : Bytes)
    (line : Nat) :
    LineRefines (DataTree.applyLine load mode p entry ⟨root, text, line⟩)
      (DataTree.applyLine loadPlain mode p entry ⟨root.plain, text, line⟩) := by
  cases entry with
  | blank | closing => exact .next _ h _ _
  | garbageAfterClosing | malformedAttributes | noTerminator | unreadable => exact .fault h _
  | inclusion file =>
    cases mode with
    | forbidden | ignored => exact .fault h _
    | followed level =>
      simp only [DataTree.applyLine]
      split
      · exact (hl root p.here file h).cases (fun _ h' _ => .fault h' _) fun _ h' _ => .next _ h' _ _
      · exact .fault h _
  | assignment name attributes value => exact assignLine_refines h p name _ text line
  | copy name attributes source =>
    have hv : DataTree.valueAt? root.plain [] source = DataTree.valueAt? root [] source :=
      valueAt?_plain h [] source
    simp only [DataTree.applyLine, hv]
    exact assignLine_refines h p name _ text line
  | link name attributes target => exact assignLine_refines h p name _ text line
  | opening name attributes =>
    simp only [DataTree.applyLine, DataTree.openAt]
    exact (openAt_refines h p.here name attributes).cases (fun _ h' _ => .fault h' _) fun _ h' _ =>
      .next _ h' _ _
  | multiLine name attributes terminator => exact assignLine_refines h p name _ _ _

theorem readLines_refines
    (hlo : ∀ root start path, Sound root →
      Refines (load root start path) (loadPlain root.plain start path))
    (mode : Inclusion) (path : Bytes) (fuel : Nat) (blocks : List Address) (h : root.Sound)
    (text : Bytes) (line : Nat) : Refines (readLines load mode path fuel blocks ⟨root, text, line⟩)
      (readLines loadPlain mode path fuel blocks ⟨root.plain, text, line⟩) := by
  induction fuel generalizing root blocks text line with
  | zero => exact .unchanged h _
  | succ fuel ih =>
    cases blocks with
    | nil => exact .unchanged h _
    | cons here outer =>
      rw [readLines, readLines]
      simp only
      split
      · exact .unchanged h _
      · have hl := applyLine_refines hlo mode ⟨path, here, outer⟩
          (.read mode.counts (text.cutAt (· == 10)).1) h ((text.cutAt (· == 10)).2.getD [])
          (line + 1)
        generalize applyLine load _ _ _ _ = s at hl ⊢
        generalize applyLine loadPlain _ _ _ _ = t at hl ⊢
        cases hl with
        | next blocks h' text' line' => exact ih blocks h' text' line'
        | fault h' f => exact .unchanged h' _

end Read

theorem readText_refines (h : root.Sound) (ignoreIncludes : Bool) (start : Address) (text : Bytes) :
    Refines (readText ignoreIncludes root start text)
      (readText ignoreIncludes root.plain start text) :=
  readLines_refines (fun _ _ _ h => .unchanged h _) _ _ _ _ h text 0

/-- Every edit keeps a tree sound and does to the plain tree what it does there. -/
theorem edit_refines (h : root.Sound) (e : Edit) :
    (edit root e).Sound ∧ (edit root e).plain = edit root.plain e := by
  cases e with
  | assign start name a => exact (assignAt_refines h start name a).tree
  | ensure start name => exact (ensureAt_refines h start name).tree
  | setAttribute start name key value => exact (setAttributeAt_refines h start name key value).tree
  | remove start name => exact removeAt_refines h start name
  | sort start le => exact sortWith_refines h start (le root.plain)
  | copy start name source => exact (copyAt_refines h start name source).tree
  | copyWithin start name source => exact (copyWithinAt_refines h start name source).tree
  | read ignoreIncludes start text => exact (readText_refines h ignoreIncludes start text).tree

theorem edits_refine (h : root.Sound) (edits : List Edit) : (edits.foldl edit root).Sound ∧
      (edits.foldl edit root).plain = edits.foldl edit root.plain := by
  induction edits generalizing root with
  | nil => exact ⟨h, rfl⟩
  | cons e edits ih =>
    obtain ⟨hs, hp⟩ := edit_refines h e
    rw [List.foldl_cons, List.foldl_cons, ← hp]
    exact ih hs

/-- After every history, each level of an indexed tree finds what a scan of its children finds, both
for a reader and for an assignment, and names lead to the values that they lead to without an index.
-/
theorem lookups_eq_scan_after (edits : List Edit) (start : Address) (n : IndexedNode)
    (hn : (DataTree.after edits : IndexedNode).get? start = some n) : n.LevelSound ∧
      (∀ name, (n.lookup name).bind n.deref = n.scan name ∧
        (n.lookup name = none ↔ n.scan name = none)) ∧
      (∀ name, (n.lookupToSet name).1.found.bind n.deref = n.scan name ∧
        ((n.lookupToSet name).1.found = none ↔ n.scan name = none)) ∧
      (DataTree.after edits : Node).get? start = some n.plain ∧
      ∀ name, (DataTree.after edits : IndexedNode).valueAt? start name =
        (DataTree.after edits : Node).valueAt? start name := by
  obtain ⟨hsound, hplain⟩ : (DataTree.after edits : IndexedNode).Sound ∧
      (DataTree.after edits : IndexedNode).plain =
    DataTree.after edits := edits_refine (.fresh 0 []) edits
  have hlevel := (hsound.get? hn).here
  refine ⟨hlevel, fun name => ?_, fun name => ?_, ?_, fun name => ?_⟩
  · rw [hlevel.lookup_eq]
    exact ⟨hlevel.deref_scan name, Option.map_eq_none_iff⟩
  · rw [hlevel.lookupToSet_found]
    exact ⟨hlevel.deref_scan name, Option.map_eq_none_iff⟩
  · rw [← hplain, get?_plain, hn, Option.map_some]
  · rw [← hplain, valueAt?_plain hsound]

/-- A level that was wide enough for a table and has lost a child. -/
theorem lookups_eq_scan_after_removal : let edits : List Edit := (List.range 12).map (fun k =>
      .assign [] (ascii "a." ++ Numeral.ofNat k) { value := Numeral.ofNat k }) ++
      [.remove [ascii "a"] (ascii "3")]
    ∃ n, (DataTree.after edits : IndexedNode).get? [ascii "a"] = some n ∧
      n.index.table.isSome = true ∧ n.LevelSound ∧
      (n.lookup (ascii "7")).bind n.deref = n.scan (ascii "7") := by
  intro edits
  have htable : ((DataTree.after edits : IndexedNode).get? [ascii "a"]).any (·.index.table.isSome) =
      true := by
    decide +kernel
  obtain ⟨n, hn, ht⟩ := (Option.any_eq_true _ _).mp htable
  have h := lookups_eq_scan_after edits [ascii "a"] n hn
  exact ⟨n, hn, ht, h.1, (h.2.1 (ascii "7")).1⟩

end IndexedNode

end TemplateKit
