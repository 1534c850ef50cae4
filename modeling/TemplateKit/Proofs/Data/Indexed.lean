import TemplateKit.Proofs.Data.Graft
import TemplateKit.Proofs.Data.Level

/-!
# Indexed trees store plain trees

A tree is sound when every level of it is. Each operation on sound indexed trees gives a sound tree,
stores what the same operation makes of the plain tree, and answers the same.
-/

namespace TemplateKit.IndexedNode

open Option Node List

variable {n root child new : IndexedNode} {c name : Bytes}
variable {g : Node → Node}

/-- The index of every level of a tree is sound. -/
inductive Sound : IndexedNode → Prop
  | intro {n : IndexedNode} (here : n.LevelSound) (children : ∀ c ∈ n.children, Sound c) : Sound n

namespace Sound

theorem here (h : n.Sound) : n.LevelSound := by
  cases h
  assumption

theorem children (h : n.Sound) : ∀ c ∈ n.children, Sound c := by
  cases h
  assumption

theorem fresh (h : Handle) (name : Bytes) : (IndexedNode.fresh h name).Sound :=
  ⟨.fresh h name, by simp [IndexedNode.fresh]⟩

theorem scan (h : n.Sound) (hc : n.scan c = some child) : child.Sound :=
  h.children child (scan_some hc).1

theorem get? (h : n.Sound) {a m} (ha : n.get? a = some m) : m.Sound := by
  induction a generalizing n with
  | nil =>
    cases ha
    exact h
  | cons c a ih =>
    obtain ⟨child, hc, hr⟩ := bind_eq_some_iff.mp ha
    exact ih (h.scan hc) hr

theorem update (h : n.Sound) (hs : n.scan c = some child) (hn : new.name = child.name)
    (hh : new.handle = child.handle) (hnew : new.Sound) : (n.update child.handle new).Sound := by
  obtain ⟨front, back, hsp, -, hf, -⟩ := h.here.split hs
  refine ⟨h.here.update hs hn hh, fun d hd => ?_⟩
  simp only [IndexedNode.update] at hd
  rw [hsp, update_go_append (fun d hd => (hf d hd).2) rfl, mem_append, mem_cons] at hd
  rcases hd with hd | rfl | hd
  · exact h.children d (by simp [hsp, hd])
  · exact hnew
  · exact h.children d (by simp [hsp, hd])

end Sound

theorem get?_plain (n : IndexedNode) (a : Address) : n.plain.get? a = (n.get? a).map plain := by
  induction a generalizing n with
  | nil => rfl
  | cons c a ih =>
    rw [Node.get?, child?_plain, get?]
    cases n.scan c with
    | none => rfl
    | some child => exact ih child

/-- What one node becomes keeps its place among its siblings. -/
structure Replaces (new old : IndexedNode) : Prop where
  sound : new.Sound
  name : new.name = old.name
  handle : new.handle = old.handle

theorem Replaces.refl (h : n.Sound) : n.Replaces n := ⟨h, rfl, rfl⟩

theorem Replaces.update (h : n.Sound) (hc : n.scan c = some child) (hnew : new.Replaces child) :
    (n.update child.handle new).Replaces n :=
      ⟨h.update hc hnew.name hnew.handle hnew.sound, rfl, rfl⟩

/-- A node is replaced by one that stands for what the plain one becomes. -/
structure Becomes (g : Node → Node) (new old : IndexedNode) : Prop where
  replaces : new.Replaces old
  plain : new.plain = g old.plain

theorem Becomes.update (h : n.Sound) (hc : n.scan c = some child) (hnew : new.Becomes g child) :
    (n.update child.handle new).Becomes (·.modifyChild c g) n := by
  refine ⟨.update h hc hnew.replaces, ?_⟩
  have hch : n.plain.child? c = some child.plain := by rw [child?_plain, hc, map_some]
  rw [h.here.plain_update hc, hnew.plain]
  exact (modifyChild_eq hch).symm

theorem Becomes.missing (h : n.Sound) (hc : n.scan c = none) : n.Becomes (·.modifyChild c g) n :=
  ⟨.refl h, (modifyChild_of_none (by rw [child?_plain, hc, map_none])).symm⟩

theorem Becomes.modify {f a} (h : n.Sound) (hf : ∀ m, n.get? a = some m → (f m).Becomes g m) :
    (n.modify a f).Becomes (·.modify a g) n := by
  induction a generalizing n with
  | nil => exact hf n rfl
  | cons c a ih =>
    rw [IndexedNode.modify]
    split
    · next child hc => exact .update h hc (ih (h.scan hc) fun m hm =>
        hf m (by simpa [get?, hc] using hm))
    · next hc => exact .missing h hc

/-- The result of an operation on a sound tree stands for the result of one on a plain tree. -/
structure Refines {α : Type} (s : IndexedNode × α) (t : Node × α) : Prop where
  sound : s.1.Sound
  plain : s.1.plain = t.1
  answer : s.2 = t.2

theorem Refines.modify {α : Type} {f a} (h : n.Sound)
    (hf : ∀ m, n.get? a = some m → (f m).Becomes g m) (x : α) :
    Refines (n.modify a f, x) (n.plain.modify a g, x) :=
  ⟨(Becomes.modify h hf).replaces.sound, (Becomes.modify h hf).plain, rfl⟩

/-- What a plain assignment would give in the same case. -/
def Outcome.placement (m : Node) : Outcome → Placement
  | done address => .done m address
  | refused => .refused m
  | redirected name => .redirected name

theorem Outcome.placement_under (embed : Node → Node) (m : Node) (o : Outcome) :
    (o.under c).placement (embed m) = (o.placement m).under c embed := by
  cases o <;> rfl

theorem plain_index (n : IndexedNode) (index : LevelIndex) : plain { n with index } = n.plain := by
  cases n
  rfl

@[simp] theorem plain_assign (n : IndexedNode) (a : Assignment) :
    (n.assign a).plain = n.plain.assign a := by
  rw [plain_eq, plain_eq n]
  rfl

@[simp] theorem target_plain (n : IndexedNode) : n.plain.target = n.target := by
  rw [Node.target, target, plain_value]

theorem Replaces.assign (h : n.Sound) (a : Assignment) : (n.assign a).Replaces n :=
  ⟨⟨h.here.ofKeys rfl rfl, h.children⟩, rfl, rfl⟩

/-- The result of an assignment below the node `n` stands for one below the plain node. Where it was
redirected the nodes on the way only remember that they were passed. -/
structure PutRefines (n : IndexedNode) (s : IndexedNode × Outcome) (t : Placement) : Prop where
  replaces : s.1.Replaces n
  placement : t = s.2.placement s.1.plain
  redirected : ∀ target, s.2 = .redirected target → s.1.plain = n.plain

theorem Outcome.under_eq_redirected {o : Outcome} {target : Bytes}
    (h : o.under c = .redirected target) :
    o = .redirected target := by
  cases o <;> simp_all [Outcome.under]

namespace PutRefines

variable {s : IndexedNode × Outcome}

theorem attached (h : n.Sound) {before a rest}
    (ha : (n.attach before s.1).children = n.children ++ [s.1]) (hs : n.scan c = none)
    (hc : c ≠ []) (hdot : dot ∉ c)
    (hr : PutRefines (fresh n.index.next c) s (Node.put a rest (.empty c))) :
    PutRefines n (n.attach before s.1,
      s.2.under c) ((Node.put a rest (.empty c)).under c n.plain.append) := by
  have hn : s.1.name = c := hr.replaces.name
  refine ⟨⟨⟨?_, ?_⟩, rfl, rfl⟩, ?_, fun target ht => ?_⟩
  · exact h.here.attach ha (by rwa [hn]) (by rw [hn]; exact ⟨hc, hdot⟩) hr.replaces.handle
  · intro d hd
    rw [ha, mem_append, mem_singleton] at hd
    rcases hd with hd | rfl
    · exact h.children d hd
    · exact hr.replaces.sound
  · rw [hr.placement, LevelSound.plain_attach ha, Outcome.placement_under]
  · have hpl := hr.placement
    rw [Outcome.under_eq_redirected ht] at hpl
    have hp := put_placed a rest (.empty c)
    rw [show Node.put a rest (.empty c) = .redirected target from hpl] at hp
    cases hp with
    | redirected hm hl => cases (isLink_of_get?_empty hm).symm.trans hl

theorem updated (h : n.Sound) (hs : n.scan c = some child) {t}
    (hr : PutRefines child s t) : PutRefines n (n.update child.handle s.1, s.2.under c)
      (t.under c fun new => n.plain.modifyChild c fun _ => new) := by
  have hu := h.here.plain_update hs s.1
  refine ⟨.update h hs hr.replaces, ?_, fun target ht => ?_⟩
  · rw [hr.placement, hu]
    exact (Outcome.placement_under (fun new => n.plain.modifyChild c fun _ => new) _ _).symm
  · rw [hu, hr.redirected target (Outcome.under_eq_redirected ht)]
    exact modifyChild_self (by rw [child?_plain, hs, map_some])

theorem ofIndex (index : LevelIndex) {t} (hr : PutRefines { n with index } s t) :
    PutRefines n s t where
  replaces := ⟨hr.replaces.sound, hr.replaces.name, hr.replaces.handle⟩
  placement := hr.placement
  redirected := by
    rw [← plain_index n index]
    exact hr.redirected

end PutRefines

theorem put_refines (h : n.Sound) (a : Assignment) {path} (hp : ∀ c ∈ path, dot ∉ c) :
    PutRefines n (put a path n) (Node.put a path n.plain) := by
  induction path generalizing n with
  | nil => exact ⟨.assign h a, by simp [put, Node.put, Outcome.placement], by rintro _ ⟨⟩⟩
  | cons c rest ih =>
    have hr : ∀ d ∈ rest, dot ∉ d := fun d hd => hp d (mem_cons_of_mem c hd)
    have hdot : dot ∉ c := hp c mem_cons_self
    cases hc : c.isEmpty with
    | true =>
      simp only [put, Node.put, hc]
      exact ⟨.refl h, rfl, by rintro _ ⟨⟩⟩
    | false =>
      have hne : c ≠ [] := by simpa using hc
      simp only [Node.put, hc, child?_plain]
      cases hs : n.scan c with
      | none =>
        obtain ⟨before, hl, ha⟩ := h.here.lookupToSet_none hs
        rw [put]
        simp only [hc, hl]
        exact .attached h (ha _) hs hne hdot (ih (.fresh n.index.next c) hr)
      | some child =>
        obtain ⟨before, index, hl, hi⟩ := h.here.lookupToSet_some hs
        have hd : deref { n with index } child.handle = some child := hi.deref (scan_some hs).1
        have hso : Sound { n with index } := ⟨hi, h.children⟩
        refine .ofIndex index ?_
        rw [put]
        simp only [hc, Bool.false_eq_true, if_false, hl, hd, map_some, plain_isLink, target_plain]
        split
        · exact ⟨.refl hso, rfl, fun _ _ => rfl⟩
        · rw [← plain_index n index]
          exact .updated hso hs (ih (h.scan hs) hr)

theorem assignFrom_refines (h : root.Sound) (a : Assignment) (fuel : Nat) (start : Address)
    (name : Bytes) :
    Refines (assignFrom a fuel root start name) (root.plain.assignFrom a fuel start name) := by
  induction fuel generalizing root start name with
  | zero => exact ⟨h, rfl, rfl⟩
  | succ fuel ih =>
    rw [assignFrom, Node.assignFrom, get?_plain]
    cases hn : root.get? start with
    | none => exact ⟨h, rfl, rfl⟩
    | some n =>
      simp only [map_some, plain_isLink, target_plain]
      split
      · exact ⟨h, rfl, rfl⟩
      split
      · exact ih h [] _
      have hput := put_refines (h.get? hn) a fun _ => dot_not_mem_of_mem_components name
      generalize put a (components name) n = s at hput
      obtain ⟨new, outcome⟩ := s
      obtain ⟨⟨hr, -, -⟩, hp⟩ :
          (root.modify start fun _ => new).Becomes (·.modify start fun _ => new.plain) root :=
        .modify h fun m hm => ⟨Option.some.inj (hn.symm.trans hm) ▸ hput.replaces, rfl⟩
      rw [hput.placement]
      cases outcome with
      | done | refused => exact ⟨hr, hp, rfl⟩
      | redirected target =>
        have hs : (root.modify start fun _ => new).plain = root.plain := by
          rw [hp, hput.redirected target rfl]
          exact modify_self (by rw [get?_plain, hn, map_some])
        have hne := ih hr [] target
        rw [hs] at hne
        exact hne

/-- With or without an index, an assignment ends in the same way. -/
theorem assignAt_refines (h : root.Sound) (start : Address) (name : Bytes) (a : Assignment) :
    Refines (root.assignAt start name a) (root.plain.assignAt start name a) :=
  assignFrom_refines h a _ start name

def Located.plain (there : Located) : TemplateKit.Located := ⟨there.address, there.node.plain⟩

/-- A way to find nodes finds sound ones, in the same places as one in the plain tree. -/
structure Finds (s : Option Located) (t : Option TemplateKit.Located) : Prop where
  plain : t = s.map Located.plain
  sound : ∀ there, s = some there → there.node.Sound

theorem Finds.none : Finds none none := ⟨rfl, nofun⟩

theorem Finds.some (there : Located) (h : there.node.Sound) :
    Finds (some there) (some there.plain) := ⟨rfl, by rintro _ ⟨⟩; exact h⟩

theorem Finds.bind {s t f g} (h : Finds s t)
    (hfg : ∀ there, there.node.Sound → Finds (f there) (g there.plain)) :
    Finds (s.bind f) (t.bind g) := by
  cases s with
  | none =>
    rw [h.plain]
    exact .none
  | some there =>
    rw [h.plain]
    exact hfg there (h.sound there rfl)

section Walk

variable {follow : Bytes → Option Located} {follow' : Bytes → Option TemplateKit.Located}

theorem walk_finds (hf : ∀ target, Finds (follow target) (follow' target)) (here : Located)
    (h : here.node.Sound) (path : List Bytes) :
    Finds (walk follow here path) (Node.walk follow' here.plain path) := by
  induction path generalizing here with
  | nil => exact .some here h
  | cons c rest ih =>
    have hc : here.plain.node.child? c = (here.node.scan c).map IndexedNode.plain :=
      child?_plain here.node c
    have hl : (here.node.lookup c).bind here.node.deref = here.node.scan c := by
      rw [h.here.lookup_eq, h.here.deref_scan]
    rw [walk, Node.walk, hl, hc]
    cases hs : here.node.scan c with
    | none => exact .none
    | some child =>
      simp only [map_some, plain_isLink, target_plain]
      split
      · have ht := hf child.target
        rw [ht.plain]
        cases hw : follow child.target with
        | none => exact .none
        | some there => exact ih there (ht.sound there hw)
      · exact ih ⟨here.address ++ [c], child⟩ (h.scan hs)

theorem descend_finds (hf : ∀ target, Finds (follow target) (follow' target)) (here : Located)
    (h : here.node.Sound) (c : Bytes) (rest : List Bytes) :
    Finds (descend follow here (c :: rest)) (Node.walk follow' here.plain (c :: rest)) := by
  rw [descend]
  split
  · next he =>
    have hn : here.plain.node.child? c = none := by simp [Located.plain, child?, isEmpty_iff.mp he]
    rw [Node.walk, hn]
    exact .none
  · exact walk_finds hf here h (c :: rest)

end Walk

section

variable (h : root.Sound)

include h

theorem resolve_finds (fuel : Nat) (name : Bytes) :
    Finds (root.resolve fuel name) (root.plain.resolve fuel name) := by
  induction fuel generalizing name with
  | zero => exact .none
  | succ fuel ih =>
    rw [resolve, Node.resolve, plain_isLink, target_plain]
    cases components name with
    | nil => exact .some ⟨[], root⟩ h
    | cons c rest =>
      simp only
      split
      · exact (ih root.target).bind fun there ht => descend_finds ih there ht c rest
      · exact descend_finds ih ⟨[], root⟩ h c rest

theorem locate?_finds (start : Address) (name : Bytes) :
    Finds (root.locate? start name) (root.plain.locate? start name) := by
  have hf := resolve_finds h (root.plain.linkCount + 1)
  rw [locate?, Node.locate?, get?_plain]
  cases hn : root.get? start with
  | none => exact .none
  | some n =>
    have hs := h.get? hn
    simp only [map_some, bind_some, plain_isLink, target_plain]
    cases components name with
    | nil => exact .some ⟨start, n⟩ hs
    | cons c rest =>
      simp only
      split
      · exact (hf n.target).bind fun there ht => descend_finds hf there ht c rest
      · exact descend_finds hf ⟨start, n⟩ hs c rest

theorem valueAt?_plain (start : Address) (name : Bytes) :
    root.plain.valueAt? start name = root.valueAt? start name := by
  rw [Node.valueAt?, valueAt?, (locate?_finds h start name).plain]
  cases root.locate? start name with
  | none => rfl
  | some there => exact plain_value there.node

theorem ensureAt_refines (start : Address) (name : Bytes) :
    Refines (root.ensureAt start name) (root.plain.ensureAt start name) := by
  rw [ensureAt, Node.ensureAt, (locate?_finds h start name).plain]
  cases root.locate? start name with
  | none => exact assignAt_refines h start name _
  | some there => exact ⟨h, rfl, rfl⟩

theorem openAt_refines (start : Address) (name : Bytes) (attributes : List Attribute) :
    Refines (root.openAt start name attributes) (root.plain.openAt start name attributes) := by
  rw [openAt, Node.openAt, (locate?_finds h start name).plain]
  cases root.locate? start name with
  | none => exact assignAt_refines h start name _
  | some there =>
    refine .modify h (fun m hm => ⟨.assign (h.get? hm) _, ?_⟩) _
    rw [plain_assign, Located.plain, plain_value]

theorem setAttributeAt_refines (start : Address) (name key : Bytes) (value : Option Bytes) :
    Refines (root.setAttributeAt start name key value)
      (root.plain.setAttributeAt start name key value) := by
  rw [setAttributeAt, Node.setAttributeAt, (locate?_finds h start name).plain]
  cases root.locate? start name with
  | none => exact ⟨h, rfl, rfl⟩
  | some there =>
    refine .modify h (fun m hm => ?_) _
    refine ⟨⟨⟨(h.get? hm).here.ofKeys rfl rfl, (h.get? hm).children⟩, rfl, rfl⟩, ?_⟩
    rw [plain_eq, plain_eq m]

end

theorem Sound.detach (h : n.Sound) (name : Bytes) : (n.detach name).Sound := by
  refine ⟨h.here.detach name, fun c hc => h.children c ?_⟩
  rw [IndexedNode.detach] at hc
  split at hc
  · exact hc
  · exact mem_of_mem_eraseP hc

theorem Replaces.detach (h : n.Sound) (name : Bytes) : (n.detach name).Replaces n := by
  refine ⟨h.detach name, ?_, ?_⟩ <;> rw [IndexedNode.detach] <;> split <;> rfl

theorem remove_refines (h : n.Sound) (path : List Bytes) :
    (remove path n).Becomes (Node.remove path) n := by
  induction path generalizing n with
  | nil => exact ⟨.refl h, rfl⟩
  | cons c rest ih =>
    cases rest with
    | nil => exact ⟨.detach h c, h.here.plain_detach c⟩
    | cons d rest =>
      rw [remove]
      · cases hs : n.scan c with
        | none => exact .missing h hs
        | some child => exact .update h hs (ih (h.scan hs))
      · nofun

theorem removeAt_refines (h : root.Sound) (start : Address) (name : Bytes) :
    (root.removeAt start name).Sound ∧
      (root.removeAt start name).plain = root.plain.removeAt start name := by
  have hmo := Becomes.modify (a := start) h fun _ hm =>
    remove_refines (h.get? hm) (name.splitByte dot)
  exact ⟨hmo.replaces.sound, hmo.plain⟩

theorem Replaces.sorted (h : n.Sound) (le : Node → Node → Bool) : (n.sorted le).Replaces n := by
  refine ⟨⟨h.here.sorted le, fun c hc => h.children c ?_⟩, ?_, ?_⟩
  · rw [IndexedNode.sorted] at hc
    split at hc
    · exact hc
    · exact (mergeSort_perm _ _).mem_iff.mp hc
  all_goals
    rw [IndexedNode.sorted]
    split <;> rfl

theorem sortWith_refines (h : root.Sound) (start : Address) (le : Node → Node → Bool) :
    (root.sortWith start le).Sound ∧ (root.sortWith start le).plain =
    root.plain.sortWith start le := by
  have hmo : (root.modify start (sorted le)).Becomes (·.modify start (Node.sorted le)) root :=
    .modify h fun _ hm => ⟨.sorted (h.get? hm) le, LevelSound.plain_sorted le⟩
  exact ⟨hmo.replaces.sound, hmo.plain⟩

end TemplateKit.IndexedNode
