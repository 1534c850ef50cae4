import TemplateKit.Proofs.Data.Outside
import TemplateKit.Proofs.Template.Reach

/-!
# What names stand for

The node that a name stands for is a function of the trees and of the variables that are visible,
whether or not those have been looked up before. Where the data has no links, a name keeps its node
while the data grows; so a variable that has found its node in the data stands for what its name
would be looked up to again.
-/

namespace TemplateKit

open List Option

/-- Not a node of the global tree. -/
def Own (found : Option Place) : Prop := ∀ p, found = some p → p.tree = .data

/-- A node of the data, if any, that has a name. -/
def Owned (target : Bytes) (found : Option Place) : Prop :=
  ∀ p, found = some p → target ≠ [] ∧ p.tree = .data

/-- What was found before the data grew and what is found then: a node of the data is the same, and
where there was no node of the global tree there is none. -/
structure Grown (found found' : Option Place) : Prop where
  data : ∀ q, found = some q → q.tree = .data → found' = some q
  own : Own found → Own found'

theorem Grown.refl (found : Option Place) : Grown found found := ⟨fun _ hq _ => hq, id⟩

/-- A variable that has its node in the data stands for what its name stands for; the name of one
without a node does not stand for a node of the global tree. -/
def Binding.Fits (names : Nat → Bytes → Option Place) : Binding → Prop
  | node place target n => target ≠ [] → Grown place (names n target)
  | _ => True

/-- It is only what its own name stands for that matters to a variable. -/
theorem Binding.Fits.imp {b : Binding} {names names' : Nat → Bytes → Option Place}
    (h : b.Fits names)
    (hg : ∀ target, Grown (names b.seen target) (names' b.seen target)) : b.Fits names' := by
  cases b with
  | text | number => trivial
  | node place target n => exact fun ht =>
    ⟨fun q hq hd => (hg target).data q ((h ht).data q hq hd) hd,
      fun hown => (hg target).own ((h ht).own hown)⟩

namespace Scope

variable {s s' : Scope} {create : Bool} {fuel visible k n : Nat} {name target : Bytes} {p q : Place}
  {rest : Option Bytes}

theorem beneath?_tree (h : s.beneath? p rest = some q) : q.tree = p.tree := by
  cases rest with
  | none =>
    cases h
    rfl
  | some rest =>
    obtain ⟨there, -, rfl⟩ := map_eq_some_iff.mp h
    rfl

theorem beneath?_congr (h : s'.tree? = s.tree?) (p : Place) (rest : Option Bytes) :
    s'.beneath? p rest = s.beneath? p rest := by
  cases rest with
  | none => rfl
  | some rest => rw [beneath?, h, beneath?]

theorem tree?_of_locals (s : Scope) (ls : List Local) :
    ({ s with locals := ls } : Scope).tree? = s.tree? := by
  funext tree
  cases tree <;> rfl

theorem tree?_keep (s : Scope) (k : Nat) (target : Bytes) (n : Nat)
    (found : Except DataFault (Option Place)) :
    (s.keep k target n found).tree? = s.tree? := by
  cases found with
  | ok place => exact tree?_of_locals s _
  | error e => rfl

theorem tree?_reach (fuel : Nat) (s : Scope) (visible : Nat) (name : Bytes) :
    (s.reach false fuel visible name).1.tree? = s.tree? := by
  apply reach_keeps (I := fun s' => s'.tree? = s.tree?)
  · intro hc
    cases hc
  · intro s' k p target seen hs'
    exact (tree?_of_locals s' _).trans hs'
  · rfl

/-- The node that a name stands for where only the outermost variables are visible. -/
def named (s : Scope) (visible : Nat) (name : Bytes) : Option Place :=
  (s.reach false (visible + 1) visible name).2.toOption.join

theorem named_nil : s.named visible [] = none := by
  rfl

theorem reach_named (h : s.Nested) (hf : visible < fuel) (name : Bytes) :
    (s.reach false fuel visible name).2 = .ok (s.named visible name) := by
  obtain ⟨s', q, hq⟩ := reach_false (visible + 1) s visible name
  rw [reach_fuel h hf (Nat.lt_succ_self visible), named, hq]
  rfl

theorem findPlace_named (h : s.Nested) (name : Bytes) :
    (findPlace name s).1 = s.named s.locals.length name := by
  have hn := reach_named h (Nat.lt_succ_self s.locals.length) name
  obtain ⟨s', q, hq⟩ := reach_false (s.locals.length + 1) s s.locals.length name
  rw [hq] at hn
  rw [findPlace_eq hq]
  exact Except.ok.inj hn

/-- Variables that are bound inside of the visible ones make no difference. -/
theorem named_under (h : s.Nested) (hv : visible ≤ s.locals.length) (inner : List Local)
    (name : Bytes) :
    (s.under inner).named visible name = s.named visible name := by
  rw [named, reach_under inner h hv]
  rfl

theorem Passes.named (h : s.Passes visible name) (hname : name ≠ []) :
    s.named visible name = s.seek? name := by
  rw [Scope.named, reach_passing hname h, inTrees_eq]
  rfl

section Position

variable (hname : name ≠ []) (hk : s.position? visible name = some k)

include hname hk

theorem named_found (hb : s.bindingAt? k = some (.node (some p) target n)) :
    s.named visible name = s.beneath? p (afterFirst? name) := by
  rw [named, reach_found hname hk hb rfl, onward_eq]
  rfl

theorem named_open (h : s.Nested) (hb : s.bindingAt? k = some (.node none target n)) :
    s.named visible name = (s.named n target).bind (s.beneath? · (afterFirst? name)) := by
  rw [named, reach_open hname hk hb, reach_named h (h.seen_lt_visible hk hb), onward_eq]
  simp only [beneath?_congr (tree?_keep ..), beneath?_congr (tree?_reach ..)]
  rfl

end Position

section Near

/-- A variable finds the node that its name stands for. -/
def Finds (s : Scope) (target : Bytes) (n : Nat) (found : Option Place) : Prop :=
  found = s.named n target

/-- The trees are the same, and all that is different about the variables is that some have found
the nodes that their names stand for, or that some without a node have got a text. -/
structure Near (s s' : Scope) : Prop where
  moves : Moves s.Finds s s'
  trees : s'.tree? = s.tree?

theorem near_reach (h : s.Nested) (hf : visible < fuel) (name : Bytes) :
    s.Near (s.reach false fuel visible name).1 where
  moves := moves_reach (fun _ => hf) fun _ _ target _ hn hp =>
    Except.ok.inj (hp.symm.trans (reach_named h (hn h) target))
  trees := tree?_reach ..

theorem Near.passes (h : s.Near s') (hp : s.Passes visible name) : s'.Passes visible name := by
  intro k hk place target n hb
  rw [h.moves.position?] at hk
  have hbi := h.moves.bindingAt? k
  rw [hb] at hbi
  generalize hb₀ : s.bindingAt? k = b at hbi
  cases hbi with
  | some hm =>
    cases hm with
    | refl => exact hp k hk place target n hb₀
    | settle => exact hp k hk none target n hb₀

theorem Near.named (h : s.Near s') (hs : s.Nested) (visible : Nat) (name : Bytes) :
    s'.named visible name = s.named visible name := by
  induction visible using Nat.strongRecOn generalizing name with
  | _ visible ih =>
    by_cases hname : name = []
    · rw [hname, named_nil, named_nil]
    rcases s.passes_or visible name with hp | ⟨k, place, target, n, hk, hb⟩
    · rw [(h.passes hp).named hname, hp.named hname, seek?, seek?, beneath?_congr h.trees,
        beneath?_congr h.trees]
    have hk' := (h.moves.position? visible name).trans hk
    have hi := ih n (hs.seen_lt_visible hk hb) target
    have hbi := h.moves.bindingAt? k
    rw [hb] at hbi
    generalize hb' : s'.bindingAt? k = b' at hbi
    cases hbi with
    | some hm =>
      cases hm with
      | refl =>
        cases place with
        | some p => rw [named_found hname hk hb, named_found hname hk' hb', beneath?_congr h.trees]
        | none =>
          rw [named_open hname hk hs hb, named_open hname hk' (h.moves.nested hs) hb', hi]
          simp only [beneath?_congr h.trees]
      | settle hf =>
        rw [named_open hname hk hs hb]
        cases hf
        cases hq : s.named n target with
        | some q =>
          rw [hq] at hb'
          rw [named_found hname hk' hb', beneath?_congr h.trees, bind_some]
        | none =>
          rw [hq] at hb'
          rw [named_open hname hk' (h.moves.nested hs) hb', hi, hq, bind_none, bind_none]
      | text ho => exact absurd rfl (ho place target n)

end Near

/-- The data has no links, and every variable fits. -/
structure Plain (s : Scope) : Prop where
  linkFree : s.data.LinkFree
  fit : ∀ l ∈ s.locals, l.binding.Fits s.named

theorem owned_named (h : (Binding.node none target n).Fits s.named) :
    Owned target (s.named n target) := by
  intro p hp
  have ht : target ≠ [] := by
    rintro rfl
    cases named_nil.symm.trans hp
  exact ⟨ht, (h ht).own (fun _ hq => nomatch hq) p hp⟩

theorem Plain.owned (hs : s.Plain) (hb : s.bindingAt? k = some (.node none target n)) :
    Owned target (s.named n target) := by
  obtain ⟨l, hl, hbi⟩ := map_eq_some_iff.mp hb
  exact owned_named (hbi ▸ hs.fit l (mem_of_getElem? hl))

theorem Plain.near (hs : s.Plain) (h : s.Nested) (hne : s.Near s') :
    s'.Plain ∧ Moves (fun target _ => Owned target) s s' := by
  have hd : s'.data = s.data := some.inj (congrFun hne.trees .data)
  have hn : s'.named = s.named := funext₂ (hne.named h)
  have hmo := (forall₂_and_left _ _).mpr ⟨hs.fit, hne.moves⟩
  refine ⟨⟨hd ▸ hs.linkFree, ?_⟩, hmo.imp fun l l' ⟨hfi, hname, hm⟩ => ⟨hname, ?_⟩⟩
  · have hall : List.Forall₂ (fun l' _ => Binding.Fits s'.named l'.binding ∧
        True) s'.locals s.locals := by
      refine (hmo.imp fun l l' ⟨hfi, _, hm⟩ => ⟨?_, trivial⟩).flip
      rw [hn]
      generalize l'.binding = b' at hm
      generalize l.binding = b at hm hfi
      cases hm with
      | refl => exact hfi
      | settle hf => exact fun _ => hf ▸ .refl _
      | text => trivial
    exact ((forall₂_and_left _ _).mp hall).1
  · generalize l'.binding = b' at hm ⊢
    generalize l.binding = b at hm hfi ⊢
    cases hm with
    | refl => exact .refl _
    | settle hf => exact .settle (hf ▸ owned_named hfi)
    | text ho => exact .text ho _ _ _

section Inner

variable {ls : List Local} (h : s.Nested)

include h

theorem Plain.under (hs : s.Plain) (hls : ∀ l ∈ ls, l.binding.seen ≤ s.locals.length ∧
    l.binding.Fits s.named) :
    (s.under ls).Plain := by
  refine ⟨hs.linkFree, fun l hl => ?_⟩
  have hf : l.binding.seen ≤ s.locals.length ∧ l.binding.Fits s.named := by
    rcases mem_append.mp hl with hl | hl
    · exact hls l hl
    · exact ⟨h.seen_le hl, hs.fit l hl⟩
  exact hf.2.imp fun target => (named_under h hf.1 ls target) ▸ .refl _

theorem Plain.of_under (hs : (s.under ls).Plain) : s.Plain where
  linkFree := hs.linkFree
  fit l hl := (hs.fit l (mem_append_right ls hl)).imp fun target =>
    (named_under h (h.seen_le hl) ls target) ▸ .refl _

end Inner

section Growing

/-- The data has no links and loses no node, and all else stays as it is. -/
structure Grow (s s' : Scope) : Prop where
  linkFree : s.data.LinkFree
  linkFree' : s'.data.LinkFree
  within : s.data.Within s'.data
  globals : s'.globals = s.globals
  locals : s'.locals = s.locals

theorem Grow.refl (h : s.data.LinkFree) : s.Grow s := ⟨h, h, .refl _, rfl, rfl⟩

section

variable (h : s.Grow s')

include h

theorem Grow.beneath? : Grown (s.beneath? p rest) (s'.beneath? p rest) where
  data q hq hd := by
    cases rest with
    | none => exact hq
    | some rest =>
      obtain ⟨there, ht, rfl⟩ := map_eq_some_iff.mp hq
      obtain ⟨tree, address⟩ := p
      obtain rfl : tree = .data := hd
      obtain ⟨ha, hstands⟩ :=
        (Node.locate?_address h.linkFree).mp (congrArg (Option.map (·.address)) ht)
      obtain ⟨there', ht', heq⟩ :=
        map_eq_some_iff.mp ((Node.locate?_address h.linkFree').mpr ⟨ha, h.within _ hstands⟩)
      simp only [Scope.beneath?, tree?, bind_some, ht', map_some, heq]
  own hown q hq := by
    rw [beneath?_tree hq]
    cases hp : p.tree with
    | data => rfl
    | globals =>
      have hs : s'.beneath? p rest = s.beneath? p rest := by
        cases rest with
        | none => rfl
        | some rest => simp only [Scope.beneath?, hp, tree?, h.globals]
      exact hp.symm.trans ((beneath?_tree (hs.symm.trans hq)).symm.trans
        (hown q (hs.symm.trans hq)))

theorem Grow.seek? : Grown (s.seek? name) (s'.seek? name) where
  data q hq hd := by
    rcases or_eq_some_iff.mp hq with hown | ⟨-, hg⟩
    · rw [Scope.seek?, h.beneath?.data q hown hd, some_or]
    · cases (beneath?_tree hg).symm.trans hd
  own hown q hq := by
    rcases or_eq_some_iff.mp hq with hd | ⟨hn, hg⟩
    · exact beneath?_tree hd
    · have hold : s.beneath? ⟨.data, []⟩ (some name) = none := by
        rw [eq_none_iff_forall_ne_some]
        intro p hp
        cases (h.beneath?.data p hp (beneath?_tree hp)).symm.trans hn
      apply hown q
      simp only [Scope.beneath?, tree?, h.globals] at hg
      rw [Scope.seek?, hold]
      exact hg

theorem Grow.position (hk : s.position? visible name = some k) :
    s'.position? visible name = some k := by
  rw [position?, h.locals]
  exact hk

theorem Grow.binding {b} (hb : s.bindingAt? k = some b) : s'.bindingAt? k = some b := by
  rw [bindingAt?, h.locals]
  exact hb

theorem Grow.passes (hp : s.Passes visible name) : s'.Passes visible name := by
  unfold Passes position? bindingAt?
  rw [h.locals]
  exact hp

/-- A node in the data is still what a name stands for when the data has grown. A name whose
variables fit does not come to stand for a node of the global tree. -/
theorem Grow.named (hs : s.Plain) (hn : s.Nested) (visible : Nat) (name : Bytes) :
    Grown (s.named visible name) (s'.named visible name) := by
  have hn' : s'.Nested := by
    rw [Nested, h.locals]
    exact hn
  induction visible using Nat.strongRecOn generalizing name with
  | _ visible ih =>
    by_cases hname : name = []
    · rw [hname]
      exact .refl _
    rcases s.passes_or visible name with hpa | ⟨k, place, target, n, hk, hb⟩
    · rw [hpa.named hname, (h.passes hpa).named hname]
      exact h.seek?
    have hk' := h.position hk
    have hb' := h.binding hb
    cases place with
    | some p =>
      rw [named_found hname hk hb, named_found hname hk' hb']
      exact h.beneath?
    | none =>
      have hg := ih n (hn.seen_lt_visible hk hb) target
      rw [named_open hname hk hn hb, named_open hname hk' hn' hb']
      refine ⟨fun q hq hd => ?_, fun _ q hq => ?_⟩
      · obtain ⟨p, hp, hbe⟩ := bind_eq_some_iff.mp hq
        rw [hg.data p hp ((beneath?_tree hbe).symm.trans hd)]
        exact h.beneath?.data q hbe hd
      · obtain ⟨p, hp, hbe⟩ := bind_eq_some_iff.mp hq
        have hown : Own (s.named n target) := fun p hp => (hs.owned hb p hp).2
        exact (beneath?_tree hbe).trans (hg.own hown p hp)

theorem Plain.grow (hs : s.Plain) (hn : s.Nested) : s'.Plain where
  linkFree := h.linkFree'
  fit l hl := (hs.fit l (h.locals ▸ hl)).imp fun target => h.named hs hn _ target

end

end Growing

section Making

theorem grow_onward (hs : s.data.LinkFree) (hq : q.tree = .data ∨ s.globals = none)
    (h : s.onward true rest (.ok (some q)) = (s', .ok (some p))) : s.Grow s' ∧
    s'.beneath? q rest = some p := by
  cases rest with
  | none =>
    cases h
    exact ⟨.refl hs, rfl⟩
  | some rest =>
    obtain ⟨tree, address⟩ := q
    cases tree with
    | globals =>
      have hg : s.globals = none := hq.resolve_left nofun
      simp [onward, below, tree?, hg] at h
    | data =>
      have hli := Node.ensureAt_linkFree hs address rest
      have hw : s.data.Within (s.data.ensureAt address rest).1 := Node.ensureAt_within
      cases he : s.data.ensureAt address rest with
      | mk root found =>
        rw [he] at hli hw
        simp only [onward, below, tree?, he, setTree] at h
        cases found with
        | error e => cases h
        | ok there =>
          cases h
          refine ⟨⟨hs, hli, hw, rfl, rfl⟩, ?_⟩
          obtain ⟨located, hl, heq⟩ := map_eq_some_iff.mp (Node.ensureAt_leads hs he)
          simp only [beneath?, tree?, bind_some, hl, map_some, heq]

theorem grow_inTrees (hs : s.data.LinkFree) (h : s.inTrees true name = (s', .ok (some p))) :
    s.Grow s' ∧ s'.seek? name = some p := by
  have hm : s.Grow s' ∧ s'.beneath? ⟨.data, []⟩ (some name) = some p := by
    unfold inTrees at h
    split at h
    · next there ht =>
      cases h
      refine ⟨.refl hs, ?_⟩
      simp only [beneath?, tree?, bind_some, ht, map_some]
    · exact grow_onward hs (.inl rfl) h
  refine ⟨hm.1, ?_⟩
  rw [seek?, hm.2, some_or]


theorem onward_found {found} (h : s.onward create rest found = (s', .ok (some p))) :
    ∃ q, found = .ok (some q) := by
  cases found with
  | error e => cases h
  | ok place =>
    cases place with
    | none => cases h
    | some q => exact ⟨q, rfl⟩

theorem onward_tree (h : s.onward create rest (.ok (some q)) = (s', .ok (some p))) :
    p.tree = q.tree := by
  cases rest with
  | none =>
    cases h
    rfl
  | some rest =>
    unfold onward below at h
    dsimp only at h
    split at h
    · cases h
    · split at h
      · split at h
        · cases h
          rfl
        · cases h
      · obtain ⟨there, -, heq⟩ := map_eq_some_iff.mp (Except.ok.inj (Prod.ext_iff.mp h).2)
        rw [← heq]

/-- A search that makes what it does not find leads to what the name stands for then. -/
theorem Plain.reach_true (hs : s.Plain) (h : s.Nested) (hf : visible < fuel)
    (hr : s.reach true fuel visible name = (s', .ok (some p)))
    (hp : p.tree = .data ∨ s.globals = none) :
    s'.Plain ∧ Moves (fun target _ => Owned target) s s' ∧ s'.named visible name = some p := by
  induction fuel generalizing visible name s' p with
  | zero => cases hf
  | succ fuel ih =>
    rcases reach_step true fuel s visible name with
      ⟨hst, rfl⟩ | ⟨hname, ⟨hpa, hst⟩ | ⟨k, q, target, n, hk, hb, hst⟩ | ⟨k, target, n,
        hk, hb, hst⟩⟩
    · cases hr.symm.trans hst
    · obtain ⟨hg, hse⟩ := grow_inTrees hs.linkFree (hst.symm.trans hr)
      refine ⟨hs.grow hg h, (Moves.refl s).congr hg.locals, ?_⟩
      exact ((hg.passes hpa).named hname).trans hse
    · have hma := hst.symm.trans hr
      obtain ⟨hg, hbe⟩ := grow_onward hs.linkFree (onward_tree hma ▸ hp) hma
      refine ⟨hs.grow hg h, (Moves.refl s).congr hg.locals, ?_⟩
      exact (named_found hname (hg.position hk) (hg.binding hb)).trans hbe
    · have hlt := h.seen_lt_visible hk hb
      have hin := h.seen_lt hb
      have hsa : (s.reach true fuel n target).1.bindingAt? k = s.bindingAt? k := by
        rw [bindingAt?, reach_inner h (by omega) (by omega)]
        rfl
      have hma := hst.symm.trans hr
      cases hi : s.reach true fuel n target with
      | mk s₁ found =>
        rw [hi] at hma hsa
        obtain ⟨q, rfl⟩ := onward_found hma
        obtain ⟨hp₁, hm, hn⟩ := ih (by omega) hi (onward_tree hma ▸ hp)
        have ho : Owned target (some q) := hn ▸ hp₁.owned (hsa.trans hb)
        have hke : Moves (fun target _ => Owned target) s (s₁.keep k target n (.ok (some q))) := by
          apply hm.keep hb
          rintro place ⟨⟩
          exact ho
        have hne : s₁.Near (s₁.keep k target n (.ok (some q))) := by
          refine ⟨(Moves.refl s₁).keep (hsa.trans hb) ?_, tree?_keep ..⟩
          rintro place ⟨⟩
          exact hn.symm
        have hn₁ := hm.nested h
        have hp₂ := (hp₁.near hn₁ hne).1
        obtain ⟨hg, hbe⟩ := grow_onward hp₂.linkFree (.inl (ho q rfl).2) hma
        have hk₂ := (hke.position? visible name).trans hk
        have hb₂ : (s₁.keep k target n (.ok (some q))).bindingAt? k =
            some (.node (some q) target n) := by
          obtain ⟨l, hl, -⟩ := map_eq_some_iff.mp (hsa.trans hb)
          simp [keep, bindingAt?, rebind, hl]
        refine ⟨hp₂.grow hg (hne.moves.nested hn₁), hke.congr hg.locals, ?_⟩
        exact (named_found hname (hg.position hk₂) (hg.binding hb₂)).trans hbe

theorem Plain.assignPlace (hs : s.Plain) (h : s.Nested) (address : Address) (name : Bytes)
    (owner v : Option Bytes)
    (trust : Trust) : (s.assignPlace ⟨.data, address⟩ name owner v trust).1.Plain := by
  rw [assignPlace_data]
  have hl : (s.data.modify address (received s.tracking v trust)).LinkFree :=
    Node.Holds.modify (P := fun _ isLink _ => isLink = false) hs.linkFree fun m _ hm =>
      hm.content rfl rfl
  have hw : s.data.Within (s.data.modify address (received s.tracking v trust)) :=
    .modify (f := received s.tracking v trust) ⟨fun _ => rfl, fun _ => rfl⟩ address
  exact hs.grow ⟨hs.linkFree, hl, hw, rfl, rfl⟩ h

theorem Plain.assign (hs : s.Plain) (h : s.Nested) {v trust}
    (hok : (s.assign name v trust).2 = .ok ()) :
    (s.assign name v trust).1.Plain ∧
    Moves (fun target _ => Owned target) s (s.assign name v trust).1 := by
  rcases s.assign_cases name v trust with heq | ⟨k, heq, ho⟩ | ⟨owner, heq⟩
  · rw [heq]
    exact ⟨hs, .refl s⟩
  · rw [heq]
    exact hs.near h ⟨moves_rebind ho, tree?_of_locals s _⟩
  · rw [heq] at hok ⊢
    unfold assignNode at hok ⊢
    cases hr : s.reach true (s.locals.length + 1) s.locals.length name with
    | mk s' found =>
      rw [hr] at hok
      cases found with
      | error e => cases hok
      | ok place =>
        cases place with
        | none => cases hok
        | some p =>
          obtain ⟨tree, address⟩ := p
          cases tree with
          | data =>
            obtain ⟨hp, hm, -⟩ := hs.reach_true h (Nat.lt_succ_self _) hr (.inl rfl)
            exact ⟨hp.assignPlace (hm.nested h) address name owner v trust,
              hm.congr (assignPlace_locals s' _ name owner v trust)⟩
          | globals =>
            have hn : s'.globals = none := by
              cases hg : s'.globals with
              | none => rfl
              | some root => simp [Scope.assignPlace, tree?, hg] at hok
            have hg := reach_globals_isSome true (s.locals.length + 1) s s.locals.length name
            rw [hr, hn, isSome_none, eq_comm, isSome_eq_false_iff, isNone_iff_eq_none] at hg
            obtain ⟨hp, hm, -⟩ := hs.reach_true h (Nat.lt_succ_self _) hr (.inr hg)
            have hsa : s'.assignPlace ⟨.globals, address⟩ name owner v trust = (s', .ok ()) := by
              simp [Scope.assignPlace, tree?, hn]
            dsimp only
            rw [hsa]
            exact ⟨hp, hm⟩

end Making

end Scope

end TemplateKit
