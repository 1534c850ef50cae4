import TemplateKit.Proofs.Template.Naming
import TemplateKit.Proofs.Template.Repeat

/-!
# Parameters by reference

A parameter of a macro stands for a node of its caller. If there was one at the call, it is that one
for as long as the macro is rendered. If there was none, a use of the parameter looks for the node
by the name that the caller gave it, where only the variables of the caller can be seen, and makes
it there if it is to be assigned; the parameter keeps what was found. Where the data has no links
that is always what the name refers to in the caller's scope.
-/

namespace TemplateKit

open List Scope

/-- What becomes of a variable while its block is rendered. A variable of a loop over nodes, which
has no name for them, gets other nodes. -/
structure Local.Follows (free : Prop) (l : Local) (b' : Binding) : Prop where
  node : ∀ place target n, l.binding = .node place target n → ∃ place', b' = .node place' target n ∧
    ((target = [] → l.isFirst = false) →
      (∀ p, place = some p → place' = some p) ∧ (free → place = none → Owned target place'))
  other : (∀ p target n, l.binding ≠ .node p target n) → ∀ p target n, b' ≠ .node p target n

namespace Local.Follows

variable {free : Prop} {l : Local} {b b' : Binding}

theorem refl (l : Local) : l.Follows free l.binding where
  node place target n hb := by
    refine ⟨place, hb, fun _ => ⟨fun _ hp => hp, ?_⟩⟩
    rintro - rfl p ⟨⟩
  other h := h

theorem moves (h : l.Follows free b)
    (hm : b.Moves (fun target _ found => free → Owned target found) b') :
    l.Follows free b' := by
  cases hm with
  | refl => exact h
  | @settle target n found hf =>
    constructor
    · intro place target₀ n₀ hb₀
      obtain ⟨place', ⟨⟩, hk⟩ := h.node place target₀ n₀ hb₀
      refine ⟨found, rfl, fun hfi => ⟨?_, fun hfr _ => hf hfr⟩⟩
      intro p hp
      cases (hk hfi).1 p hp
    · intro ho
      exact absurd rfl (h.other ho none target n)
  | text hb =>
    constructor
    · intro place target n hb₀
      obtain ⟨place', hb', -⟩ := h.node place target n hb₀
      exact absurd hb' (hb place' target n)
    · intro _
      simp

end Local.Follows

namespace Scope

variable {free : Prop} {s s' : Scope} {ls₀ ls : List Local} {k n fuel visible : Nat}
  {name target : Bytes} {place first : Option Place}

theorem finding_of_near {I} (hI : ∀ s, I s → s.Nested) (hst : ∀ s s', I s → s.Near s' → I s') :
    KeptByFinding I := by
  apply keptByFinding_of_keep
  · intro s hs name
    exact hst s _ hs (near_reach (hI s hs) (Nat.lt_succ_self _) name)
  · intro s hs k target n hb
    have hn := hI s hs
    have hf : n < s.locals.length + 1 := by
      have hin := hn.seen_lt hb
      omega
    exact hst s _ hs ⟨(near_reach hn hf target).moves.keep hb fun _ hp =>
      Except.ok.inj (hp.symm.trans (reach_named hn hf target)),
        (tree?_keep ..).trans (tree?_reach ..)⟩

/-- The variables were those of `ls₀` where their blocks began, and each sees only such that are
bound outside of it. -/
structure Referring (free : Prop) (ls₀ : List Local) (s : Scope) : Prop where
  nested : s.Nested
  plain : free → s.Plain
  follows : List.Forall₂ (fun l l' => Local.Follows free l l'.binding) ls₀ s.locals

namespace Referring

theorem length (h : s.Referring free ls₀) : s.locals.length = ls₀.length :=
  (List.Forall₂.length_eq h.follows).symm

section

variable (h : s.Referring free ls₀)

include h

theorem moves {F} (hm : Moves F s s')
    (hs : free → s'.Plain ∧ Moves (fun target _ => Owned target) s s') :
    s'.Referring free ls₀ where
  nested := hm.nested h.nested
  plain hf := (hs hf).1
  follows := by
    have hfo := h.follows
    have hmo : s.Moves (fun target _ found => free → Owned target found) s' := by
      by_cases hf : free
      · exact (hs hf).2.imp fun _ _ _ ho _ => ho
      · exact hm.imp fun _ _ _ _ hp => absurd hp hf
    clear h
    unfold Moves at hmo
    generalize s.locals = ls at hfo hmo
    generalize s'.locals = ls' at hmo
    induction hfo generalizing ls' with
    | nil =>
      cases hmo
      exact .nil
    | cons hh _ ih =>
      cases hmo with
      | cons hm hms => exact .cons (hh.moves hm.2) (ih _ hms)

theorem near (hs : s.Near s') : s'.Referring free ls₀ :=
  h.moves hs.moves fun hf => (h.plain hf).near h.nested hs

theorem enter (hls : ∀ l ∈ ls, l.binding.seen ≤ s.locals.length ∧ (free → l.binding.Fits s.named)) :
    (s.under ls).Referring free (ls ++ ls₀) where
  nested := NestedLocals.append h.nested fun l hl => (hls l hl).1
  plain hf := (h.plain hf).under h.nested fun l hl => ⟨(hls l hl).1, (hls l hl).2 hf⟩
  follows := rel_append (List.forall₂_same.mpr fun l _ => .refl l) h.follows

end

theorem leave (ls : List Local) (h : s.Referring free (ls ++ ls₀)) :
    ({ s with locals := s.locals.drop ls.length } : Scope).Referring free ls₀ where
  nested := NestedLocals.drop h.nested _
  plain hfree := by
    have hu : (({ s with locals := s.locals.drop ls.length } : Scope).under
        (s.locals.take ls.length)).Plain := by
      rw [Scope.under, take_append_drop]
      exact h.plain hfree
    exact hu.of_under (NestedLocals.drop h.nested ls.length)
  follows := by
    have hd := List.forall₂_drop ls.length h.follows
    rw [drop_left] at hd
    exact hd

theorem modify {l₀ f} (h : s.Referring free (l₀ :: ls₀))
    (hf : ∀ l, l₀.Follows free l.binding →
      l₀.Follows free (f l).binding ∧ (f l).binding.seen = 0 ∧ ∀ names, (f l).binding.Fits names) :
    ({ s with locals := s.locals.modify 0 f } : Scope).Referring free (l₀ :: ls₀) := by
  have hl := h.leave [l₀]
  obtain ⟨data, globals, locals, tracking⟩ := s
  have hfo : List.Forall₂ (fun l l' => Local.Follows free l l'.binding) (l₀ :: ls₀) locals :=
    h.follows
  cases hfo with
  | @cons _ l _ ls hh ht =>
    obtain ⟨hfol, hs, hfi⟩ := hf l hh
    have he := hl.enter (forall_mem_singleton.mpr ⟨hs ▸ Nat.zero_le _, fun _ => hfi _⟩)
    exact ⟨he.nested, he.plain, .cons hfol ht⟩

end Referring

/-- The variable in a place stands for the node `first` that it had at first. Without one it stands
for what `target` refers to where only the `n` outermost variables can be seen, until a use has
found a node. So names that refer to the variable are resolved, read and assigned, and no search is
cut short. -/
def ByReference (free : Prop) (s : Scope) (k : Nat) (first : Option Place) (target : Bytes)
    (n : Nat) : Prop :=
  ∃ place, s.bindingAt? k = some (.node place target n) ∧ (∀ p, first = some p → place = some p) ∧
    (free → first = none → ∀ p, place = some p → (findPlace target (s.outer n)).1 = some p) ∧
    ∀ name, name ≠ [] → s.position? s.locals.length name = some k →
      (∀ create, s.resolve create name =
        ((s.deref create n target place).1.keep k target n (s.deref create n target place).2).onward
          create
          (afterFirst? name) (s.deref create n target place).2) ∧
      (∀ create fuel, s.locals.length < fuel →
        s.reach create fuel s.locals.length name = s.resolve create name) ∧
      (∃ s' q, s.resolve false name = (s', .ok q) ∧ findPlace name s = (q, s') ∧
        value name s = (s'.valueAt q, s')) ∧
      ∀ v trust, ∃ owner, s.assign name v trust = s.assignNode name v trust (some owner)

theorem byReference (h : s.Nested) (hs : free → s.Plain)
    (hb : s.bindingAt? k = some (.node place target n))
    (hf : ∀ p, first = some p → place = some p) (ho : free → first = none → Owned target place) :
    s.ByReference free k first target n := by
  have hin := h.seen_lt hb
  refine ⟨place, hb, hf, ?_, fun name hna hk => ⟨?_, ?_, ?_, ?_⟩⟩
  · rintro hfr hno p rfl
    obtain ⟨ht, hd⟩ := ho hfr hno p rfl
    obtain ⟨l, hl, hbi⟩ := Option.map_eq_some_iff.mp hb
    have hfi := (hs hfr).fit l (mem_of_getElem? hl)
    rw [hbi] at hfi
    have hle : (s.outer n).locals.length = n := length_outer (by omega)
    have hn := named_under (h.outer n) (Nat.le_of_eq hle.symm) (s.innerLocals n) target
    rw [under_outer] at hn
    rw [findPlace_named (h.outer n), hle, ← hn]
    exact (hfi ht).data p rfl hd
  · intro create
    cases place with
    | some p => rw [resolve, reach_found hna hk hb rfl, deref, keep, rebind_self hb]
    | none =>
      have hn := h.seen_lt_visible hk hb
      have hle := Nat.le_of_lt hn
      have hr : s.reach create s.locals.length n target =
          Prod.map (under (s.innerLocals n)) id ((s.outer n).resolve create target) := by
        rw [reach_fuel h hn (Nat.lt_succ_self n), reach_outer h hle, resolve, length_outer hle]
      rw [resolve, reach_open hna hk hb, hr]
      rfl
  · intro create fuel hfu
    exact reach_fuel h hfu (Nat.lt_succ_self _)
  · obtain ⟨s', found, q, hf, hq, hv⟩ := value_node hk hb
    have hr : s.resolve false name = (s', .ok q) := by
      cases hf with
      | known p => exact (reach_found hna hk hb rfl).trans hq
      | found hr =>
        have hn := h.seen_lt_visible hk hb
        rw [resolve, reach_open hna hk hb, reach_fuel h hn (Nat.lt_succ_of_lt hn), hr]
        exact hq
    exact ⟨s', q, hr, findPlace_eq hr, hv⟩
  · intro v trust
    obtain ⟨⟨owner, binding, isFirst, isLast⟩, hl, hbi⟩ := Option.map_eq_some_iff.mp hb
    obtain rfl : binding = .node place target n := hbi
    refine ⟨owner, ?_⟩
    rw [assign, if_neg (by simpa using hna)]
    simp only [hk, hl]
    rfl

end Scope

/-- A macro call: how many variables its caller had, and its parameters as they were bound. -/
structure MacroCall where
  callers : Nat
  parameters : List Local

namespace MacroCall

variable {free : Prop} {f : MacroCall} {ls₀ ls : List Local} {s : Scope}

/-- The parameters of a call are bound inside of the variables of its caller, which are all that
they see. -/
structure In (f : MacroCall) (ls₀ : List Local) : Prop where
  stack : ∃ inner outer, ls₀ = inner ++ (f.parameters ++ outer) ∧ outer.length = f.callers
  sees : ∀ l ∈ f.parameters, l.isFirst = false ∧
    ∀ first target n, l.binding = .node first target n → n = f.callers

/-- Each parameter that was given by a name stands for its node by reference. -/
structure Holds (free : Prop) (f : MacroCall) (s : Scope) : Prop where
  within : f.callers + f.parameters.length ≤ s.locals.length
  parameter : ∀ j l, f.parameters[j]? = some l →
    ∀ first target n, l.binding = .node first target n → n = f.callers ∧
      s.ByReference free (s.locals.length - (f.callers + f.parameters.length) + j) first
        target f.callers

/-- The same for all of some calls, where each variable sees only such that are bound outside of it.
-/
def AllHold (free : Prop) (calls : List MacroCall) (s : Scope) : Prop :=
  s.Nested ∧ ∀ f ∈ calls, f.Holds free s

theorem In.append (h : f.In ls₀) (ls : List Local) : f.In (ls ++ ls₀) where
  stack := by
    obtain ⟨inner, outer, rfl, ho⟩ := h.stack
    exact ⟨ls ++ inner, outer, (append_assoc ..).symm, ho⟩
  sees := h.sees

theorem In.holds (h : f.In ls₀) (hs : s.Referring free ls₀) : f.Holds free s := by
  obtain ⟨inner, outer, rfl, hou⟩ := h.stack
  have hle := hs.length
  rw [length_append, length_append] at hle
  refine ⟨by omega, fun j l hl first target n hb => ?_⟩
  obtain ⟨hfi, hse⟩ := h.sees l (mem_of_getElem? hl)
  obtain rfl := hse first target n hb
  refine ⟨rfl, ?_⟩
  obtain ⟨hj, -⟩ := List.getElem?_eq_some_iff.mp hl
  have hp : s.locals.length - (f.callers + f.parameters.length) + j = inner.length + j := by omega
  have hat : (inner ++ (f.parameters ++ outer))[inner.length + j]? = some l := by
    rw [getElem?_append_right (Nat.le_add_right _ _), Nat.add_sub_cancel_left,
      getElem?_append_left hj, hl]
  rw [hp]
  obtain ⟨hin, rfl⟩ := List.getElem?_eq_some_iff.mp hat
  have hin' : inner.length + j < s.locals.length := by omega
  have hf := (List.forall₂_iff_get.mp hs.follows).2 _ hin hin'
  obtain ⟨place, hpl, hk⟩ := hf.node first target _ hb
  obtain ⟨hfir, ho⟩ := hk fun _ => hfi
  have hbi : s.bindingAt? (inner.length + j) = some (.node place target f.callers) := by
    rw [bindingAt?, getElem?_eq_getElem hin']
    exact congrArg some hpl
  exact byReference hs.nested hs.plain hbi hfir ho

end MacroCall

end TemplateKit
