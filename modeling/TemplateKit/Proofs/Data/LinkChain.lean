import Mathlib.Logic.Relation
import TemplateKit.Proofs.Data.Document

/-!
# Chains of links

On the way that a name leads along there can be links, whose names lead along ways with links again.
Links form a cycle if a name comes back in this way. Where they form none, the names in a chain are
distinct, so that no chain is longer than the number of links, and the bound on nested links never
ends a search.
-/

namespace TemplateKit.Node

open List

mutual

/-- The names that the links of a tree hold. -/
def linkTargets (n : Node) : List Bytes :=
  match n with
  | ⟨_, value, isLink, _, children⟩ => (if isLink then [value.getD []] else []) ++
      linkTargetsOf children

def linkTargetsOf (ns : List Node) : List Bytes :=
  match ns with
  | [] => []
  | n :: rest => n.linkTargets ++ linkTargetsOf rest

end

variable {root n child : Node} {t u : Bytes} {here there : Located} {path : List Bytes} {fuel : Nat}

theorem length_linkTargetsOf (ns : List Node) : (linkTargetsOf ns).length = linkCounts ns := by
  induction ns using forest_induction with
  | nil => rfl
  | cons n ns hc hr =>
    obtain ⟨name, value, isLink, attributes, children⟩ := n
    have hown : (if isLink then [value.getD []] else []).length = if isLink then 1
        else 0 := by cases isLink <;> rfl
    rw [linkTargetsOf, linkTargets, linkCounts, linkCount, length_append, length_append,
      hown, hc, hr]

theorem length_linkTargets (n : Node) : n.linkTargets.length = n.linkCount := by
  simpa [linkTargetsOf, linkCounts] using length_linkTargetsOf [n]

theorem target_mem_linkTargets (h : n.isLink = true) : n.target ∈ n.linkTargets := by
  obtain ⟨name, value, isLink, attributes, children⟩ := n
  obtain rfl : isLink = true := h
  simp [linkTargets, target]

theorem linkTargets_subset_of_mem {ns} (h : n ∈ ns) : n.linkTargets ⊆ linkTargetsOf ns := by
  induction ns with
  | nil => cases h
  | cons m ns ih =>
    rcases mem_cons.mp h with rfl | h
    · exact subset_append_left _ _
    · exact List.Subset.trans (ih h) (subset_append_right _ _)

theorem linkTargets_subset_of_child? (h : n.child? t = some child) :
    child.linkTargets ⊆ n.linkTargets := by
  have hmem := linkTargets_subset_of_mem (child?_some h).1
  obtain ⟨name, value, isLink, attributes, children⟩ := n
  exact List.Subset.trans hmem (subset_append_right _ _)

/-- The way along a path comes to a link that holds the name. Behind a link it goes on where that
leads. -/
inductive Passes (root : Node) : Located → List Bytes → Bytes → Prop
  | link {here : Located} {c : Bytes} {rest : List Bytes} {child : Node}
      (hchild : here.node.child? c = some child)
      (hlink : child.isLink = true) : Passes root here (c :: rest) child.target
  | plain {here : Located} {c u : Bytes} {rest : List Bytes} {child : Node}
      (hchild : here.node.child? c = some child)
      (hlink : child.isLink = false) (h : Passes root ⟨here.address ++ [c], child⟩ rest u) :
      Passes root here (c :: rest) u
  | behind {here there : Located} {c u : Bytes} {rest : List Bytes} {child : Node} {fuel : Nat}
      (hchild : here.node.child? c = some child) (hlink : child.isLink = true)
      (hleads : root.resolve fuel child.target = some there) (h : Passes root there rest u) :
      Passes root here (c :: rest) u

/-- The way that the first name leads along from the root comes to a link that holds the second
name. -/
inductive Needs (root : Node) : Bytes → Bytes → Prop
  | root {t : Bytes} (hname : components t ≠ []) (hlink : root.isLink = true) :
      Needs root t root.target
  | plain {t u : Bytes} (hlink : root.isLink =
      false) (h : Passes root ⟨[], root⟩ (components t) u) : Needs root t u
  | behind {t u : Bytes} {there : Located} {fuel : Nat} (hlink : root.isLink = true)
      (hleads : root.resolve fuel root.target = some there)
      (h : Passes root there (components t) u) : Needs root t u

/-- No name comes back. -/
def Acyclic (root : Node) : Prop := ∀ t, ¬Relation.TransGen root.Needs t t

theorem walk_subset {follow} (hf : ∀ t there, follow t = some there →
    there.node.linkTargets ⊆ root.linkTargets)
    (hh : here.node.linkTargets ⊆ root.linkTargets) (h : walk follow here path = some there) :
    there.node.linkTargets ⊆ root.linkTargets := by
  induction path generalizing here with
  | nil =>
    cases h
    exact hh
  | cons c rest ih =>
    unfold walk at h
    cases hc : here.node.child? c with
    | none =>
      rw [hc] at h
      cases h
    | some child =>
      rw [hc] at h
      dsimp only at h
      by_cases hli : child.isLink = true
      · rw [if_pos hli] at h
        cases hl : follow child.target with
        | none =>
          rw [hl] at h
          cases h
        | some mid =>
          rw [hl] at h
          exact ih (hf _ _ hl) h
      · rw [if_neg hli] at h
        exact ih (List.Subset.trans (linkTargets_subset_of_child? hc) hh) h

theorem resolve_subset (h : root.resolve fuel t = some there) :
    there.node.linkTargets ⊆ root.linkTargets := by
  induction fuel generalizing t there with
  | zero => cases h
  | succ fuel ih =>
    unfold resolve at h
    cases hn : components t with
    | nil =>
      rw [hn] at h
      cases h
      exact List.Subset.refl _
    | cons c rest =>
      rw [hn] at h
      dsimp only at h
      by_cases hli : root.isLink = true
      · rw [if_pos hli] at h
        obtain ⟨mid, hl, hw⟩ := Option.bind_eq_some_iff.mp h
        exact walk_subset (fun _ _ => ih) (ih hl) hw
      · rw [if_neg hli] at h
        exact walk_subset (fun _ _ => ih) (List.Subset.refl _) h

theorem Passes.mem_linkTargets (h : root.Passes here path u)
    (hh : here.node.linkTargets ⊆ root.linkTargets) :
    u ∈ root.linkTargets := by
  induction h with
  | link hc hli => exact hh (linkTargets_subset_of_child? hc (target_mem_linkTargets hli))
  | plain hc hli h ih => exact ih (List.Subset.trans (linkTargets_subset_of_child? hc) hh)
  | behind hc hli hl h ih => exact ih (resolve_subset hl)

theorem Needs.mem_linkTargets (h : root.Needs t u) : u ∈ root.linkTargets := by
  cases h with
  | root hn hli => exact target_mem_linkTargets hli
  | plain hli h => exact h.mem_linkTargets (List.Subset.refl _)
  | behind hli hl h => exact h.mem_linkTargets (resolve_subset hl)

theorem walk_congr {m} (h : ∀ u, root.Passes here path u → root.resolve fuel u = root.resolve m u) :
    walk (root.resolve fuel) here path = walk (root.resolve m) here path := by
  induction path generalizing here with
  | nil => rfl
  | cons c rest ih =>
    unfold walk
    cases hc : here.node.child? c with
    | none => rfl
    | some child =>
      dsimp only
      by_cases hli : child.isLink = true
      · rw [if_pos hli, if_pos hli, ← h _ (.link hc hli)]
        cases hl : root.resolve fuel child.target with
        | none => rfl
        | some there => exact ih fun u hu => h u (.behind hc hli hl hu)
      · rw [if_neg hli, if_neg hli]
        exact ih fun u hu => h u (.plain hc (Bool.eq_false_iff.mpr hli) hu)

/-- A name leads to the same node where the links on its way do. -/
theorem resolve_congr {m} (h : ∀ u, root.Needs t u → root.resolve fuel u = root.resolve m u) :
    root.resolve (fuel + 1) t = root.resolve (m + 1) t := by
  unfold resolve
  cases hn : components t with
  | nil => rfl
  | cons c rest =>
    have hs : components t ≠ [] := by
      rw [hn]
      exact cons_ne_nil c rest
    dsimp only
    by_cases hli : root.isLink = true
    · rw [if_pos hli, if_pos hli, ← h _ (.root hs hli)]
      cases hl : root.resolve fuel root.target with
      | none => rfl
      | some there => exact walk_congr fun u hu => h u (.behind hli hl (hn ▸ hu))
    · rw [if_neg hli, if_neg hli]
      exact walk_congr fun u hu => h u (.plain (Bool.eq_false_iff.mpr hli) (hn ▸ hu))

/-- The names of the links on the way to `t` are distinct, so there are at most as many as links.
The bounds are enough for the links that are left. -/
theorem resolve_eq_of_chain (hr : root.Acyclic) {seen} (hn : seen.Nodup)
    (hl : seen ⊆ root.linkTargets) (hc : ∀ u ∈ seen, Relation.ReflTransGen root.Needs u t) {m}
    (hfu : root.linkCount < fuel + seen.length) (hm : root.linkCount < m + seen.length) :
    root.resolve fuel t = root.resolve m t := by
  have hle : seen.length ≤ root.linkCount := by
    rw [← length_linkTargets]
    exact hn.length_le_of_subset hl
  induction fuel generalizing m seen t with
  | zero => omega
  | succ fuel ih =>
    obtain _ | m := m
    · omega
    refine resolve_congr fun u hu => ?_
    have hf : u ∉ seen := fun hmem => hr u (.tail' (hc u hmem) hu)
    have hn' : (u :: seen).Nodup := nodup_cons.mpr ⟨hf, hn⟩
    have hl' : u :: seen ⊆ root.linkTargets := cons_subset.mpr ⟨hu.mem_linkTargets, hl⟩
    refine ih hn' hl' ?_ ?_ ?_ ?_
    · exact forall_mem_cons.mpr ⟨.refl, fun w hw => (hc w hw).tail hu⟩
    · rw [length_cons]
      omega
    · rw [length_cons]
      omega
    · rw [← length_linkTargets]
      exact hn'.length_le_of_subset hl'

/-- Where links form no cycle, a larger bound on nested links finds nothing else. -/
theorem Acyclic.resolve_eq (hr : root.Acyclic) (hf : root.linkCount < fuel) (name : Bytes) :
    root.resolve fuel name = root.resolve (root.linkCount + 1) name :=
  resolve_eq_of_chain hr nodup_nil (nil_subset _) (fun _ h => (not_mem_nil h).elim)
    (by simpa using hf) (by simp)

/-- Links whose names lead past no links form no cycle. -/
theorem acyclic_of_direct (h : ∀ t ∈ root.linkTargets, ∀ u, ¬root.Needs t u) : root.Acyclic := by
  intro t ht
  obtain ⟨u, hf, -⟩ := Relation.TransGen.head'_iff.mp ht
  obtain ⟨w, -, hl⟩ := Relation.TransGen.tail'_iff.mp ht
  exact h t hl.mem_linkTargets u hf

end TemplateKit.Node
