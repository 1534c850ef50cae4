import TemplateKit.Proofs.Template.Scope

/-!
# Names that lead through variables

A variable that stands for a missing node is looked up again by the name of that node, among the
variables that were visible where the name was written. In a nested scope those are bound outside of
the variable itself: variables that are bound inside make no difference to the search, and it comes
to an end after at most as many steps as there are variables.
-/

namespace TemplateKit

open List Option Prod

/-- How many variables the name behind a variable can see. -/
def Binding.seen : Binding → Nat
  | node _ _ seen => seen
  | _ => 0

/-- What becomes of the binding of a variable: it stays, it gets the node that was missing, where
`F` is a property of its name and of the node, or it gets a text where it stood for no node. -/
inductive Binding.Moves (F : Bytes → Nat → Option Place → Prop) : Binding → Binding → Prop
  | refl (b : Binding) : Moves F b b
  | settle {target : Bytes} {n : Nat} {found : Option Place} (h : F target n found) :
      Moves F (.node none target n) (.node found target n)
  | text {b : Binding} (h : ∀ p target n,
      b ≠ .node p target n) (v : Option Bytes) (trust : Trust) (assigned : Bool) :
      Moves F b (.text v trust assigned)

namespace Scope

variable {s o : Scope} {create : Bool} {fuel visible k n : Nat} {name target : Bytes} {p : Place}

/-- Each of some variables sees only such that are bound outside of it. -/
def NestedLocals : List Local → Prop
  | [] => True
  | l :: ls => l.binding.seen ≤ ls.length ∧ NestedLocals ls

def Nested (s : Scope) : Prop := NestedLocals s.locals

theorem NestedLocals.append {inner ls} (h : NestedLocals ls)
    (hi : ∀ l ∈ inner, l.binding.seen ≤ ls.length) : NestedLocals (inner ++ ls) := by
  induction inner with
  | nil => exact h
  | cons l inner ih =>
    obtain ⟨hl, hr⟩ := forall_mem_cons.mp hi
    refine ⟨?_, ih hr⟩
    have hle : (inner ++ ls).length = inner.length + ls.length := length_append
    exact Nat.le_trans hl (Nat.le_trans (Nat.le_add_left _ _) (Nat.le_of_eq hle.symm))

theorem NestedLocals.drop {ls} (h : NestedLocals ls) (m : Nat) : NestedLocals (ls.drop m) := by
  induction ls generalizing m with
  | nil =>
    rw [drop_nil]
    exact h
  | cons l ls ih =>
    cases m with
    | zero => exact h
    | succ m => exact ih h.2 m

theorem NestedLocals.seen_lt {ls l} (h : NestedLocals ls) (hk : ls[k]? = some l) :
    l.binding.seen + k < ls.length := by
  obtain ⟨hlt, rfl⟩ := List.getElem?_eq_some_iff.mp hk
  have hh := h.drop k
  rw [drop_eq_getElem_cons hlt] at hh
  have hs := hh.1
  rw [length_drop] at hs
  omega

theorem Nested.seen_le (h : s.Nested) {l} (hl : l ∈ s.locals) :
    l.binding.seen ≤ s.locals.length := by
  obtain ⟨k, hk⟩ := getElem?_of_mem hl
  have hlt := NestedLocals.seen_lt h hk
  omega

theorem Nested.seen_lt (h : s.Nested) {place} (hb : s.bindingAt? k = some (.node place target n)) :
    n + k < s.locals.length := by
  obtain ⟨l, hl, hbi⟩ := map_eq_some_iff.mp hb
  have hs := NestedLocals.seen_lt h hl
  rw [hbi] at hs
  exact hs

section Position

/-- A name that leads on from a variable sees fewer variables than the name that led there. -/
theorem Nested.seen_lt_visible (h : s.Nested) (hk : s.position? visible name = some k) {place}
    (hb : s.bindingAt? k = some (.node place target n)) : n < visible := by
  obtain ⟨j, -, rfl⟩ := map_eq_some_iff.mp hk
  have hlt := h.seen_lt hb
  omega

end Position

/-- However much longer a search could go on, it comes to its end. -/
theorem reach_fuel (h : s.Nested) {fuel'} (hf : visible < fuel) (hf' : visible < fuel') :
    s.reach create fuel visible name = s.reach create fuel' visible name := by
  induction fuel generalizing visible name fuel' with
  | zero => cases hf
  | succ fuel ih =>
    cases fuel' with
    | zero => cases hf'
    | succ fuel' =>
      rcases reach_step create fuel s visible name with
        ⟨hr, rfl⟩ | ⟨hn, ⟨hp, hr⟩ | ⟨k, p, target, n, hk, hb, hr⟩ | ⟨k, target, n, hk, hb, hr⟩⟩
      · rw [reach_nil, reach_nil]
      · rw [hr, reach_passing hn hp]
      · rw [hr, reach_found hn hk hb rfl]
      · have hlt := h.seen_lt_visible hk hb
        rw [hr, reach_open hn hk hb, ih (by omega) (by omega : n < fuel')]

section Inner

def under (inner : List Local) (s : Scope) : Scope := { s with locals := inner ++ s.locals }

variable (inner : List Local)

theorem position?_under (hv : visible ≤ s.locals.length) :
    (s.under inner).position? visible name = (s.position? visible name).map (· + inner.length) := by
  have hh : (inner ++ s.locals).length - visible = inner.length + (s.locals.length - visible) := by
    rw [length_append]
    omega
  simp only [position?, under, hh, drop_length_add_append, Option.map_map]
  congr 1
  funext j
  simp only [Function.comp_apply]
  omega

theorem rebind_self {b} (hb : s.bindingAt? k = some b) : s.rebind k b = s := by
  obtain ⟨l, hl, rfl⟩ := map_eq_some_iff.mp hb
  have hs : s.locals.modify k (fun l' => { l' with binding := l.binding }) = s.locals := by
    apply ext_getElem?
    intro j
    by_cases hj : k = j
    · subst hj
      simp [hl]
    · simp [hj]
  rw [rebind, hs]

theorem bindingAt?_under : (s.under inner).bindingAt? (k + inner.length) = s.bindingAt? k := by
  simp only [bindingAt?, under, getElem?_append_right (Nat.le_add_left _ _), Nat.add_sub_cancel]

theorem modify_under (f : Local → Local) (ls : List Local) :
    (inner ++ ls).modify (k + inner.length) f = inner ++ ls.modify k f := by
  induction inner with
  | nil => rfl
  | cons l inner ih => rw [cons_append, length_cons, ← Nat.add_assoc, modify_succ_cons, ih,
      cons_append]

theorem below_under : (s.under inner).below create p name =
    map (under inner) id (s.below create p name) := by
  obtain ⟨tree, address⟩ := p
  have hs : (s.under inner).tree? tree = s.tree? tree := by cases tree <;> rfl
  have hset : ∀ root, (s.under inner).setTree tree root = (s.setTree tree root).under inner := by
    intro root
    cases tree <;> rfl
  simp only [below, hs, hset]
  cases s.tree? tree with
  | none => rfl
  | some root =>
    cases create with
    | false => rfl
    | true =>
      simp only [if_true]
      obtain ⟨root', found⟩ := root.ensureAt address name
      cases found <;> rfl

theorem inTrees_under : (s.under inner).inTrees create name =
    map (under inner) id (s.inTrees create name) := by
  have hd : (s.under inner).data = s.data := rfl
  simp only [inTrees, hd]
  cases s.data.locate? [] name with
  | some there => rfl
  | none =>
    cases create with
    | false => rfl
    | true => rw [if_pos rfl, if_pos rfl, below_under]

theorem onward_under {rest} (found : Except DataFault (Option Place)) :
    (s.under inner).onward create rest found =
    map (under inner) id (s.onward create rest found) := by
  cases found with
  | error e => rfl
  | ok place =>
    cases place with
    | none => rfl
    | some p =>
      cases rest with
      | none => rfl
      | some rest => exact below_under inner

theorem reach_under (h : s.Nested) (hv : visible ≤ s.locals.length) :
    (s.under inner).reach create fuel visible name =
    map (under inner) id (s.reach create fuel visible name) := by
  induction fuel generalizing visible name with
  | zero => rfl
  | succ fuel ih =>
    rcases reach_step create fuel s visible name with
      ⟨hr, rfl⟩ | ⟨hn, ⟨hp, hr⟩ | ⟨k, p, target, n, hk, hb, hr⟩ | ⟨k, target, n, hk, hb, hr⟩⟩
    · rfl
    · have hp' : (s.under inner).Passes visible name := by
        intro k hk place target n hb
        rw [position?_under inner hv] at hk
        obtain ⟨j, hj, rfl⟩ := map_eq_some_iff.mp hk
        rw [bindingAt?_under] at hb
        exact hp j hj place target n hb
      rw [reach_passing hn hp', hr, inTrees_under]
    · have hk' : (s.under inner).position? visible name = some (k + inner.length) := by
        rw [position?_under inner hv, hk, map_some]
      rw [reach_found hn hk' ((bindingAt?_under inner).trans hb) rfl, hr, onward_under]
    · have hk' : (s.under inner).position? visible name = some (k + inner.length) := by
        rw [position?_under inner hv, hk, map_some]
      have hlt := h.seen_lt_visible hk hb
      have hke : ∀ (s' : Scope) found, (s'.under inner).keep (k + inner.length) target n found =
          (s'.keep k target n found).under inner := by
        intro s' found
        cases found with
        | ok place => simp only [keep, rebind, under, modify_under]
        | error e => rfl
      rw [reach_open hn hk' ((bindingAt?_under inner).trans hb), hr, ih (by omega), map_fst, hke,
        onward_under]
      rfl

end Inner

section Outer

def outer (s : Scope) (n : Nat) : Scope := { s with locals := s.locals.drop (s.locals.length - n) }

def innerLocals (s : Scope) (n : Nat) : List Local := s.locals.take (s.locals.length - n)

theorem under_outer (s : Scope) (n : Nat) : (s.outer n).under (s.innerLocals n) = s := by
  simp only [under, outer, innerLocals, take_append_drop]

theorem length_outer (hn : n ≤ s.locals.length) : (s.outer n).locals.length = n := by
  simp only [outer, length_drop]
  omega

theorem Nested.outer (h : s.Nested) (n : Nat) : (s.outer n).Nested := NestedLocals.drop h _

/-- What can be reached from some of the variables can be reached in the scope that has only those.
-/
theorem reach_outer (h : s.Nested) (hn : n ≤ s.locals.length) :
    s.reach create fuel n name =
    map (under (s.innerLocals n)) id ((s.outer n).reach create fuel n name) := by
  have hr : ((s.outer n).under (s.innerLocals n)).reach create fuel n name =
      map (under (s.innerLocals n)) id ((s.outer n).reach create fuel n name) :=
    reach_under (s.innerLocals n) (h.outer n) (Nat.le_of_eq (length_outer hn).symm)
  rw [under_outer] at hr
  exact hr

/-- The node that a variable stands for: the one that it has, or what its name refers to where only
the `n` outermost variables can be seen. -/
def deref (create : Bool) (s : Scope) (n : Nat) (target : Bytes) :
    Option Place → Scope × Except DataFault (Option Place)
  | some p => (s, .ok (some p))
  | none => map (under (s.innerLocals n)) id ((s.outer n).resolve create target)

end Outer

section Moving

/-- All that searches and assignments change about the variables. -/
def Moves (F : Bytes → Nat → Option Place → Prop) (s s' : Scope) : Prop :=
  List.Forall₂ (fun l l' => l'.name = l.name ∧ l.binding.Moves F l'.binding) s.locals s'.locals

variable {F : Bytes → Nat → Option Place → Prop}

theorem Moves.refl (s : Scope) : s.Moves F s := List.forall₂_same.mpr fun _ _ => ⟨rfl, .refl _⟩

theorem Moves.imp {G} (h : Moves F s o)
    (hF : ∀ target n found, F target n found → G target n found) : Moves G s o := by
  refine List.Forall₂.imp (fun l l' hl => ⟨hl.1, ?_⟩) h
  obtain ⟨-, hm⟩ := hl
  generalize l'.binding = b' at hm ⊢
  generalize l.binding = b at hm ⊢
  cases hm with
  | refl => exact .refl _
  | settle hf => exact .settle (hF _ _ _ hf)
  | text ho => exact .text ho _ _ _

theorem Moves.congr {s s₁ s₂} (h : Moves F s s₁) (hl : s₂.locals = s₁.locals) : Moves F s s₂ := by
  unfold Moves
  rw [hl]
  exact h

theorem setTree_locals (s : Scope) (tree : Tree) (root : Node) :
    (s.setTree tree root).locals = s.locals := by
  cases tree <;> rfl

theorem below_locals (create : Bool) (s : Scope) (p : Place) (name : Bytes) :
    (s.below create p name).1.locals = s.locals := by
  unfold below
  split
  · rfl
  · next root _ =>
    cases create with
    | false => rfl
    | true =>
      obtain ⟨root', found⟩ := root.ensureAt p.address name
      cases found with
      | ok | error => exact setTree_locals s _ root'

theorem onward_locals (create : Bool) (s : Scope) (rest : Option Bytes)
    (found : Except DataFault (Option Place)) :
    (s.onward create rest found).1.locals = s.locals :=
  onward_keeps (fun _ s p name h => (below_locals true s p name).trans h) rfl rest found

theorem Moves.rebind {s s₁} (h : Moves F s s₁) {b'}
    (hb : ∀ b, s.bindingAt? k = some b → b.Moves F b') :
    Moves F s (s₁.rebind k b') := by
  unfold Moves at h ⊢
  simp only [bindingAt?] at hb
  simp only [Scope.rebind]
  generalize s.locals = ls at h hb
  generalize s₁.locals = ls₁ at h
  induction h generalizing k with
  | nil =>
    rw [modify_nil]
    exact .nil
  | cons hh ht ih =>
    cases k with
    | zero => exact .cons ⟨hh.1, hb _ rfl⟩ ht
    | succ k => exact .cons hh (ih hb)

theorem Moves.keep {s s₁} (h : Moves F s s₁) (hb : s.bindingAt? k = some (.node none target n))
    {found} (hf : ∀ place, found = .ok place → F target n place) :
    Moves F s (s₁.keep k target n found) := by
  cases found with
  | error e => exact h
  | ok place =>
    refine h.rebind fun b hb' => ?_
    cases hb.symm.trans hb'
    exact .settle (hf place rfl)

/-- Variables find what is found for them. -/
theorem moves_reach (hf : s.Nested → visible < fuel)
    (hF : ∀ fuel n target place, (s.Nested → n < fuel) →
      (s.reach create fuel n target).2 = .ok place → F target n place) :
    Moves F s (s.reach create fuel visible name).1 := by
  induction fuel generalizing visible name with
  | zero => exact .refl s
  | succ fuel ih =>
    rcases reach_step create fuel s visible name with
      ⟨hr, rfl⟩ | ⟨-, ⟨-, hr⟩ | ⟨k, p, target, n, -, -, hr⟩ | ⟨k, target, n, hk, hb, hr⟩⟩
    · exact .refl s
    · rw [hr]
      exact (Moves.refl s).congr
        (inTrees_keeps (fun _ s p name h => (below_locals true s p name).trans h) rfl name)
    · rw [hr]
      exact (Moves.refl s).congr (onward_locals create s _ _)
    · have hn : s.Nested → n < fuel := by
        intro h
        have := h.seen_lt_visible hk hb
        have := hf h
        omega
      rw [hr]
      exact ((ih hn).keep hb fun place => hF fuel n target place hn).congr
        (onward_locals create _ _ _)

theorem Moves.length (h : Moves F s o) : o.locals.length = s.locals.length :=
  (List.Forall₂.length_eq h).symm

theorem Moves.nested (h : Moves F s o) (hs : s.Nested) : o.Nested := by
  unfold Moves at h
  unfold Nested at hs ⊢
  generalize s.locals = ls at h hs
  generalize o.locals = ls' at h
  induction h with
  | nil => exact hs
  | @cons l l' ls ls' hh ht ih =>
    refine ⟨?_, ih hs.2⟩
    rw [← List.Forall₂.length_eq ht]
    obtain ⟨-, hm⟩ := hh
    have hse := hs.1
    generalize l'.binding = b' at hm ⊢
    generalize l.binding = b at hm hse
    cases hm with
    | refl => exact hse
    | settle => exact hse
    | text => exact Nat.zero_le _

theorem assignPlace_locals (s : Scope) (p : Place) (name : Bytes) (owner v : Option Bytes)
    (trust : Trust) :
    (s.assignPlace p name owner v trust).1.locals = s.locals := by
  unfold assignPlace
  split
  · rfl
  · dsimp only
    split
    · exact setTree_locals s _ _
    · split <;> exact (setTree_locals _ _ _).trans (setTree_locals s _ _)

theorem moves_rebind {v trust assigned}
    (ho : ∀ p target n, s.bindingAt? k ≠ some (.node p target n)) :
    Moves F s (s.rebind k (.text v trust assigned)) := by
  refine (Moves.refl s).rebind fun b hb => .text ?_ v trust assigned
  rintro p target n rfl
  exact ho p target n hb

theorem moves_assign (s : Scope) (name : Bytes) (v : Option Bytes) (trust : Trust) :
    Moves (fun _ _ _ => True) s (s.assign name v trust).1 := by
  have hr : Moves (fun _ _ _ => True) s
      (s.reach true (s.locals.length + 1) s.locals.length name).1 :=
    moves_reach (fun _ => Nat.lt_succ_self _) fun _ _ _ _ _ _ => trivial
  rcases s.assign_cases name v trust with heq | ⟨k, heq, ho⟩ | ⟨owner, heq⟩
  · rw [heq]
    exact .refl s
  · rw [heq]
    exact moves_rebind ho
  · rw [heq]
    unfold assignNode
    cases hl : s.reach true (s.locals.length + 1) s.locals.length name with
    | mk s' found =>
      rw [hl] at hr
      cases found with
      | error e => exact hr
      | ok place =>
        cases place with
        | none => exact hr
        | some p => exact hr.congr (assignPlace_locals s' p name owner v trust)

theorem Moves.names (h : Moves F s o) : o.locals.map (·.name) = s.locals.map (·.name) := by
  unfold Moves at h
  generalize s.locals = ls at h
  generalize o.locals = ls' at h
  induction h with
  | nil => rfl
  | cons hh _ ih => rw [map_cons, map_cons, hh.1, ih]

theorem position?_congr (h : o.locals.map Local.name = s.locals.map Local.name) (visible : Nat)
    (name : Bytes) :
    o.position? visible name = s.position? visible name := by
  have hi : ∀ t : Scope, t.position? visible name =
      (((t.locals.map Local.name).drop ((t.locals.map Local.name).length - visible)).findIdx?
        fun x =>
        firstComponent x == firstComponent name).map (· +
          ((t.locals.map Local.name).length - visible)) := by
    intro t
    rw [length_map, ← map_drop, findIdx?_map]
    rfl
  rw [hi, hi, h]

theorem Moves.position? (h : Moves F s o) (visible : Nat) (name : Bytes) :
    o.position? visible name = s.position? visible name :=
  position?_congr h.names visible name

theorem Moves.bindingAt? (h : Moves F s o) (k : Nat) :
    Option.Rel (Binding.Moves F) (s.bindingAt? k) (o.bindingAt? k) := by
  unfold Moves at h
  unfold Scope.bindingAt?
  generalize s.locals = ls at h
  generalize o.locals = ls' at h
  induction h generalizing k with
  | nil => exact .none
  | cons hh _ ih =>
    cases k with
    | zero => exact .some hh.2
    | succ k => exact ih k

theorem reach_inner (h : s.Nested) (hv : visible ≤ s.locals.length)
    (hk : k < s.locals.length - visible) :
    (s.reach create fuel visible name).1.locals[k]? = s.locals[k]? := by
  have hl : k < (s.innerLocals visible).length := by
    rw [innerLocals, length_take]
    omega
  have hi : ∀ t : Scope, (t.under (s.innerLocals visible)).locals[k]? =
      (s.innerLocals visible)[k]? :=
    fun t => getElem?_append_left hl
  calc
    (s.reach create fuel visible name).1.locals[k]? =
        (((s.outer visible).reach create fuel visible name).1.under
          (s.innerLocals visible)).locals[k]? := by
      rw [reach_outer h hv, map_fst]
    _ = ((s.outer visible).under (s.innerLocals visible)).locals[k]? := by rw [hi, hi]
    _ = s.locals[k]? := by rw [under_outer]

end Moving

section Uses

/-- What a search keeps is kept by looking up names. -/
theorem keptByFinding_of_keep {I} (hr : ∀ s, I s → ∀ name, I (s.resolve false name).1)
    (hke : ∀ s, I s → ∀ k target n, s.bindingAt? k = some (.node none target n) →
      I ((s.reach false (s.locals.length + 1) n target).1.keep k target n
        (s.reach false (s.locals.length + 1) n target).2)) : KeptByFinding I where
  findPlace name s hs := findPlace_keeps (hr s hs name)
  lookup name := by
    intro s hs
    rcases s.passes_or s.locals.length name with hp | ⟨k, place, target, n, hk, hb⟩
    · obtain ⟨w, hw, -⟩ :=
        value_passing (W := fun _ => True) hp (fun _ _ _ _ _ => trivial) (fun _ => trivial) trivial
      rw [hw]
      exact hs
    · obtain ⟨s', found, q, hf, -, hv⟩ := value_node hk hb
      rw [hv]
      cases hf with
      | known p => exact hs
      | found hre =>
        have he := hke s hs k target n hb
        rw [hre] at he
        exact he

end Uses

section Globals

theorem reach_globals_isSome (create : Bool) (fuel : Nat) (s : Scope) (visible : Nat)
    (name : Bytes) :
    (s.reach create fuel visible name).1.globals.isSome = s.globals.isSome := by
  apply reach_keeps (I := fun s' => s'.globals.isSome = s.globals.isSome)
  · intro _ s' p name hs'
    unfold below
    split
    · exact hs'
    · next root hr =>
      have hset : ∀ root', (s'.setTree p.tree root').globals.isSome = s.globals.isSome := by
        intro root'
        rw [← hs']
        cases ht : p.tree with
        | data => rfl
        | globals =>
          rw [ht] at hr
          exact (congrArg isSome hr).symm
      obtain ⟨root', found⟩ := root.ensureAt p.address name
      cases found with
      | ok | error => exact hset root'
  · intro s' k p target seen hs'
    exact hs'
  · rfl

end Globals

end Scope

end TemplateKit
