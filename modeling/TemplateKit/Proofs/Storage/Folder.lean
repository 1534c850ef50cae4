import TemplateKit.Proofs.Data.Node
import TemplateKit.Storage.FileSystem

/-!
# Files in one folder

A file that is written is found where it was written, and nothing else changes in its folder; nor
does the way to the folder, since folders stay what they are. A file that is renamed is found under
its new name only.
-/

namespace TemplateKit

open List Option

namespace Entry

variable {e e' c c' : Entry} {place q : List Bytes} {name other : Bytes} {new : Option Entry}

theorem get?_append (e : Entry) (p q : List Bytes) :
    e.get? (p ++ q) = (e.get? p).bind (·.get? q) := by
  induction p generalizing e with
  | nil => rfl
  | cons n p ih =>
    rw [cons_append, get?, get?]
    cases e.child? n with
    | none => rfl
    | some c => exact ih c

theorem child?_eq (e : Entry) (name : Bytes) :
    e.child? name = (e.entries.find? (·.1 == name)).map (·.2) := rfl

theorem isSome_child? (e : Entry) (name : Bytes) :
    (e.child? name).isSome = e.entries.any (·.1 == name) := by
  rw [Bool.eq_iff_iff]
  simp [child?_eq]

theorem isSome_get? {es} (h : e.get? place = some (directory es)) (name : Bytes) :
    (e.get? (place ++ [name])).isSome = es.any (·.1 == name) := by
  rw [get?_append, h, bind_some, get?]
  refine Eq.trans ?_ (isSome_child? (directory es) name)
  cases (directory es).child? name <;> rfl

theorem find_replaced (es : List (Bytes × Entry)) (name : Bytes) (new : Entry) (other : Bytes) :
    ((es.map fun p => if p.1 == name then (name, new) else p).find? (·.1 == other)).map (·.2) =
      ((es.find? (·.1 == other)).map (·.2)).map fun c => if other = name then new else c := by
  induction es with
  | nil => rfl
  | cons p es ih =>
    have hkey : (if p.1 == name then (name, new) else p).1 = p.1 := by
      split
      · next hname => exact (beq_iff_eq.mp hname).symm
      · rfl
    rw [map_cons, find?_cons, find?_cons, hkey]
    cases ho : p.1 == other with
    | false => exact ih
    | true =>
      rw [← beq_iff_eq.mp ho]
      by_cases hname : p.1 = name <;> simp [hname]

theorem child?_setChild (e : Entry) (name : Bytes) (new : Entry) (other : Bytes) :
    (e.setChild name new).child? other = if other = name then some new else e.child? other := by
  have hs := isSome_child? e name
  rw [setChild]
  split
  · next hany =>
    rw [hany] at hs
    obtain ⟨c, hc⟩ := isSome_iff_exists.mp hs
    rw [child?_eq, entries, find_replaced, ← child?_eq]
    by_cases ho : other = name
    · rw [ho, hc]
      simp
    · simp [ho]
  · next hany =>
    rw [Bool.eq_false_iff.mpr hany, isSome_eq_false_iff, isNone_iff_eq_none] at hs
    rw [child?_eq, entries, List.find?_append, map_or, ← child?_eq]
    by_cases ho : other = name
    · rw [ho, hs]
      simp
    · simp [ho, Ne.symm ho]

def Folder (e : Entry) (place : List Bytes) : Prop := ∃ es, e.get? place = some (directory es)

theorem folder_setChild (e : Entry) (name : Bytes) (new : Entry) :
    (e.setChild name new).Folder [] := by
  rw [setChild]
  split <;> exact ⟨_, rfl⟩

theorem folder_cons {n} : e.Folder (n :: q) ↔ ∃ c, e.child? n = some c ∧ c.Folder q := by
  simp only [Folder, get?, bind_eq_some_iff]
  constructor
  · rintro ⟨es, c, hc, hes⟩
    exact ⟨c, hc, es, hes⟩
  · rintro ⟨c, hc, es, hes⟩
    exact ⟨es, c, hc, hes⟩

theorem folder_nil (h : e.Folder q) : e.Folder [] := by
  cases e with
  | directory es => exact ⟨es, rfl⟩
  | file content =>
    cases q with
    | nil => exact h
    | cons n q =>
      obtain ⟨c, hc, -⟩ := folder_cons.mp h
      cases hc

/-- One entry of a folder becomes another, or is gone. Folders stay, and so do the other entries of
the folder. -/
structure Changed (e e' : Entry) (place : List Bytes) (name : Bytes) (new : Option Entry) :
    Prop where
  own : e'.get? (place ++ [name]) = new
  others : ∀ other, other ≠ name → e'.get? (place ++ [other]) = e.get? (place ++ [other])
  folders : ∀ q, e.Folder q → e'.Folder q

theorem changed_here (hdir : e'.Folder [])
    (hch : ∀ other, e'.child? other = if other = name then new else e.child? other)
    (hname : ¬ e.Folder [name]) : Changed e e' [] name new := by
  have hget : ∀ other, e'.get? [other] = if other = name then new else e.get? [other] := by
    intro other
    rw [get?, hch]
    split
    · cases new <;> rfl
    · rfl
  refine ⟨(hget name).trans (if_pos rfl), fun other ho => (hget other).trans (if_neg ho),
    fun q hq => ?_⟩
  cases q with
  | nil => exact hdir
  | cons n q =>
    obtain ⟨c, hc, hcq⟩ := folder_cons.mp hq
    have hn : n ≠ name := by
      rintro rfl
      exact hname (folder_cons.mpr ⟨c, hc, folder_nil hcq⟩)
    exact folder_cons.mpr ⟨c, by rw [hch, if_neg hn, hc], hcq⟩

theorem Changed.lift {n} (h : Changed c c' place name new) (hc : e.child? n = some c) :
    Changed e (e.setChild n c') (n :: place) name new := by
  have hget : ∀ q, (e.setChild n c').get? (n :: q) = c'.get? q := by
    intro q
    rw [get?, child?_setChild, if_pos rfl, bind_some]
  refine ⟨(hget _).trans h.own, fun other ho => ?_, fun q hq => ?_⟩
  · rw [cons_append, hget, h.others other ho, get?, hc, bind_some]
  · cases q with
    | nil => exact folder_setChild e n c'
    | cons m q =>
      obtain ⟨d, hd, hdq⟩ := folder_cons.mp hq
      rw [folder_cons, child?_setChild]
      by_cases hm : m = n
      · subst hm
        obtain rfl : c = d := Option.some.inj (hc.symm.trans hd)
        exact ⟨c', if_pos rfl, h.folders q hdq⟩
      · exact ⟨d, (if_neg hm).trans hd, hdq⟩

section Change

variable (h : e.Folder place) (hname : ¬ e.Folder (place ++ [name]))

include h hname

theorem changed_set (content : Bytes) :
    Changed e (e.set (place ++ [name]) (file content)) place name (some (file content)) := by
  induction place generalizing e with
  | nil => exact changed_here (folder_setChild e name _) (child?_setChild e name _) hname
  | cons n place ih =>
    obtain ⟨c, hc, hf⟩ := folder_cons.mp h
    rw [cons_append, set, hc]
    exact (ih hf fun hb => hname (folder_cons.mpr ⟨c, hc, hb⟩)).lift hc

theorem changed_erase : Changed e (e.erase (place ++ [name])) place name none := by
  induction place generalizing e with
  | nil =>
    refine changed_here ⟨_, rfl⟩ (fun other => ?_) hname
    rw [nil_append, erase, child?_eq, entries, find?_filter]
    by_cases ho : other = name
    · simp [ho]
    · rw [if_neg ho]
      congr 2
      funext p
      by_cases hp : p.1 = other
      · simp [hp, ho]
      · simp [hp]
  | cons n place ih =>
    obtain ⟨c, hc, hf⟩ := folder_cons.mp h
    have he : e.erase (n :: (place ++ [name])) = e.setChild n (c.erase (place ++ [name])) := by
      rw [erase, hc]
      simp
    rw [cons_append, he]
    exact (ih hf fun hb => hname (folder_cons.mpr ⟨c, hc, hb⟩)).lift hc

end Change

end Entry

namespace FileSystem

open Entry

variable {fs fs' : FileSystem} {dirs place q : List Bytes} {f g name other content : Bytes}

theorem descend_append (fs : FileSystem) (xs ys place : List Bytes) :
    fs.descend (xs ++ ys) place = (fs.descend xs place).bind (fs.descend ys) := by
  induction xs generalizing place with
  | nil => rfl
  | cons n xs ih =>
    rw [cons_append, descend, descend]
    split
    · rfl
    · rfl
    · split
      · exact ih place
      · split
        · exact ih _
        · split
          · rfl
          · split
            · exact ih _
            · rfl

theorem folder_of_descend (h : fs.descend dirs place = .ok q) (hq : fs.root.Folder q) :
    fs.root.Folder place := by
  cases dirs with
  | nil =>
    cases h
    exact hq
  | cons n dirs =>
    rw [descend] at h
    split at h
    · cases h
    · cases h
    · next es hes => exact ⟨es, hes⟩

theorem descend_kept (hf : ∀ p, fs.root.Folder p → fs'.root.Folder p)
    (h : fs.descend dirs place = .ok q)
    (hq : fs.root.Folder q) : fs'.descend dirs place = .ok q := by
  induction dirs generalizing place with
  | nil => exact h
  | cons n dirs ih =>
    obtain ⟨es, hes⟩ := folder_of_descend h hq
    obtain ⟨es', hes'⟩ := hf place ⟨es, hes⟩
    rw [descend, hes] at h
    rw [descend, hes']
    dsimp only at h ⊢
    split at h
    · next hs => rw [if_pos hs, ih h]
    · next hs =>
      rw [if_neg hs]
      split at h
      · next hup => rw [if_pos hup, ih h]
      · next hup =>
        rw [if_neg hup]
        split at h
        · cases h
        · next hl =>
          rw [if_neg hl]
          split at h
          · obtain ⟨es₁, hes₁⟩ := hf _ (folder_of_descend h hq)
            have hany := isSome_get? hes' n
            rw [hes₁] at hany
            rw [← hany, if_pos isSome_some, ih h]
          · cases h

/-- A path leads to what a folder has under a name, if it has anything there. -/
structure Shows (fs : FileSystem) (f : Bytes) (place : List Bytes) (name : Bytes) : Prop where
  way : ∃ dirs, f.splitByte slash = dirs ++ [name] ∧ fs.descend dirs (fs.start f) = .ok place
  folder : fs.root.Folder place
  short : f.length ≤ longestPath
  plain : name ≠ [] ∧ name ≠ "." ∧ name ≠ ".." ∧ name.length ≤ longestName

namespace Shows

variable (h : fs.Shows f place name)

include h

theorem kept (hhome : fs'.home = fs.home) (hf : ∀ p, fs.root.Folder p → fs'.root.Folder p) :
    fs'.Shows f place name := by
  obtain ⟨dirs, hs, hd⟩ := h.way
  have hstart : fs'.start f = fs.start f := by rw [start, start, hhome]
  exact ⟨⟨dirs, hs, hstart ▸ descend_kept hf hd h.folder⟩, hf place h.folder, h.short, h.plain⟩

theorem ne_nil : f ≠ [] := by
  rintro rfl
  obtain ⟨dirs, hs, -⟩ := h.way
  have hl := congrArg List.getLast? hs
  rw [getLast?_concat] at hl
  exact h.plain.1 (Option.some.inj hl).symm

theorem locate : fs.locate f =
    if (fs.root.get? (place ++ [name])).isSome then .ok (place ++ [name])
    else .error .noSuchFile := by
  obtain ⟨dirs, hs, hd⟩ := h.way
  obtain ⟨es, hes⟩ := h.folder
  obtain ⟨hne, hdot, hdo, hl⟩ := h.plain
  have hst : ¬ (List.isEmpty name || name == ".") = true := by simp [hne, hdot]
  have hup : ¬ (name == "..") = true := by simpa using hdo
  rw [FileSystem.locate, if_neg (by simpa using h.ne_nil), if_neg (Nat.not_lt.mpr h.short), hs,
    descend_append, hd, Except.bind, descend, hes]
  dsimp only
  rw [if_neg hst, if_neg hup, if_neg (Nat.not_lt.mpr hl), isSome_get? hes, descend]

theorem stat : fs.stat f = (fs.root.get? (place ++ [name])).elim (.error .noSuchFile) .ok := by
  rw [FileSystem.stat, h.locate]
  cases hget : fs.root.get? (place ++ [name]) with
  | none => rfl
  | some e => simp [bind, Except.bind, hget, pure, Except.pure]

theorem locateNew : fs.locateNew f = .ok (place, name) := by
  obtain ⟨dirs, hs, hd⟩ := h.way
  obtain ⟨es, hes⟩ := h.folder
  obtain ⟨hne, -, -, hl⟩ := h.plain
  simp [FileSystem.locateNew, hs, hne, Nat.not_lt.mpr hl, hd, hes, bind, Except.bind, pure,
    Except.pure]

theorem getLast?_ne : f.getLast? ≠ some slash := by
  intro hl
  obtain ⟨front, rfl⟩ := getLast?_eq_some_iff.mp hl
  obtain ⟨dirs, hs, -⟩ := h.way
  have hnil := congrArg List.getLast? hs
  rw [Bytes.splitByte_append_sep, getLast?_concat, getLast?_append] at hnil
  exact h.plain.1 (Option.some.inj hnil).symm

theorem write (hname : ¬ fs.root.Folder (place ++ [name])) (content : Bytes) :
    ∃ fs', fs.write f content = .ok fs' ∧ fs'.home = fs.home ∧
      Changed fs.root fs'.root place name (some (.file content)) := by
  refine ⟨{ fs with root := fs.root.set (place ++ [name]) (.file content) }, ?_, rfl,
    changed_set h.folder hname content⟩
  rw [FileSystem.write, h.locate]
  cases hget : fs.root.get? (place ++ [name]) with
  | none => simp [h.locateNew, h.getLast?_ne, bind, Except.bind, pure, Except.pure]
  | some e =>
    cases e with
    | file old => simp [hget]
    | directory es => exact absurd ⟨es, hget⟩ hname

theorem rename (hg : fs.Shows g place other) (hne : other ≠ name)
    (hget : fs.root.get? (place ++ [name]) = some (.file content))
    (ho : ¬ fs.root.Folder (place ++ [other])) :
    ∃ fs' e, fs.rename f g = .ok fs' ∧ fs'.home = fs.home ∧ Changed fs.root e place name none ∧
      Changed e fs'.root place other (some (.file content)) := by
  have hname : ¬ fs.root.Folder (place ++ [name]) := by
    rintro ⟨es, hes⟩
    rw [hget] at hes
    cases hes
  have he := changed_erase h.folder hname
  have hg' : Shows { fs with root := fs.root.erase (place ++ [name]) } g place other :=
    hg.kept rfl he.folders
  have ho' : ¬ (fs.root.erase (place ++ [name])).Folder (place ++ [other]) := by
    rwa [Folder, he.others other hne]
  obtain ⟨fs', hw, hhome, hc⟩ := hg'.write ho' content
  refine ⟨fs', _, ?_, hhome, he, hc⟩
  rw [FileSystem.rename, h.locate]
  simp [bind, Except.bind, hget, hw]

end Shows

end FileSystem

end TemplateKit
