import Mathlib.Data.List.Infix
import TemplateKit.Html.FromText
import TemplateKit.Proofs.Html.Strip
import TemplateKit.Proofs.Html.Whitespace

/-!
# Pages from plain text show the text

Every piece of a page shows the piece of the text that it was made from, but for white space,
whatever links were found.
-/

namespace TemplateKit

open List Ascii

namespace Link

variable {search : LinkKind → Bytes → Option (Nat × Nat)} {s : Bytes} {offset : Nat}

/-- A part of a text that may be a link: it is not empty, and no byte of it cannot be in a URL. -/
def Linkable (s : Bytes) (start stop : Nat) : Prop :=
  start < stop ∧ ∀ b ∈ (s.drop start).take (stop - start), inUrl b = true

/-- A search finds nothing else. -/
def Sound (search : LinkKind → Bytes → Option (Nat × Nat)) : Prop :=
  ∀ kind s start stop, search kind s = some (start, stop) → Linkable s start stop

/-- Links in a text, one behind the other from an offset on. -/
def Ordered (s : Bytes) : (offset : Nat) → List Link → Prop
  | _, [] => True
  | offset, l :: ls => offset ≤ l.start ∧ Linkable s l.start l.stop ∧ Ordered s l.stop ls

theorem mem_or_of_earlier {l : Link} {url mail} (h : earlier url mail = some l) :
    url = some l ∨ mail = some l := by
  cases url <;> cases mail <;> grind [earlier]

section Search

variable (h : Sound search)

include h

theorem linkable_next? {kind} : ∀ l ∈ next? search kind s offset, offset ≤ l.start ∧
    Linkable s l.start l.stop := by
  intro l hl
  obtain ⟨⟨start, stop⟩, hf, rfl⟩ := Option.map_eq_some_iff.mp hl
  obtain ⟨hlt, hb⟩ := h _ _ _ _ hf
  rw [drop_drop] at hb
  exact ⟨Nat.le_add_right .., Nat.add_lt_add_left hlt _, by rwa [Nat.add_sub_add_left]⟩

theorem linkable_refresh {kind known} (hkn : ∀ l ∈ known, Linkable s l.start l.stop) {next} :
    ∀ l ∈ refresh search kind s next known, next ≤ l.start ∧ Linkable s l.start l.stop := by
  cases known with
  | none => exact fun l hl => by cases hl
  | some k =>
    rw [refresh]
    split
    · exact linkable_next? h
    · next hk =>
      rintro l ⟨⟩
      exact ⟨Nat.not_lt.mp hk, hkn k rfl⟩

theorem ordered_collect (fuel : Nat) {url mail}
    (hurl : ∀ l ∈ url, offset ≤ l.start ∧ Linkable s l.start l.stop)
    (hm : ∀ l ∈ mail, offset ≤ l.start ∧ Linkable s l.start l.stop) :
    Ordered s offset (collect search s fuel url mail) := by
  induction fuel generalizing offset url mail with
  | zero => trivial
  | succ fuel ih =>
    have hf : ∀ {kind known next}, (∀ l ∈ known, offset ≤ l.start ∧ Linkable s l.start l.stop) →
        ∀ l ∈ refresh search kind s (next + 1) known, next ≤ l.start ∧
          Linkable s l.start l.stop := by
      intro kind known next hk l hl
      obtain ⟨hle, hli⟩ := linkable_refresh h (fun l hl => (hk l hl).2) l hl
      exact ⟨Nat.le_of_succ_le hle, hli⟩
    rw [collect]
    split
    · trivial
    · next l hl =>
      obtain ⟨hb, hli⟩ := (mem_or_of_earlier hl).elim (hurl l) (hm l)
      dsimp only
      split
      · exact ⟨hb, hli, ih (hf hurl) (hf hm)⟩
      · exact ⟨hb, hli, trivial⟩

end Search

end Link

namespace Html

variable {opts : TextOptions} {p q s t : Bytes}

/-- The standard options, if blanks are kept because of what the text is like. -/
def usual (keepsBlanks : Bool) : TextOptions := { TextOptions.standard with keepsBlanks }

/-- A page shows a text, but for white space. -/
def ShowsVisibly (p s : Bytes) : Prop := ∃ t, Shows p t ∧ visible t = visible s

/-- A stop holds one blank back at most. -/
theorem fromSpecial_held_le_one (opts : TextOptions) (previous b : UInt8) :
    (fromSpecial opts 0 previous b).2 ≤ 1 := by
  unfold fromSpecial
  split
  · split <;> simp
  · exact Nat.zero_le 1

/-- The blanks held back were written at the last stop, so there is never more than one. -/
theorem fromGap_held_le_one (opts : TextOptions) {held : Nat} (h : held ≤ 1) (previous : UInt8)
    (passed s : Bytes) :
    (fromGap opts held previous passed s).2 ≤ 1 := by
  induction s generalizing held previous passed with
  | nil =>
    rw [fromGap]
    split
    · exact h
    · exact Nat.zero_le 1
  | cons b s ih =>
    rw [fromGap]
    split
    · exact ih (fromSpecial_held_le_one opts previous b) ..
    · exact ih h ..

namespace ShowsVisibly

theorem append (hp : ShowsVisibly p s) (hq : ShowsVisibly q t) :
    ShowsVisibly (p ++ q) (s ++ t) := by
  obtain ⟨u, hu, hus⟩ := hp
  obtain ⟨v, hv, hvt⟩ := hq
  exact ⟨u ++ v, hu.append hv, by rw [visible_append, visible_append, hus, hvt]⟩

theorem nil : ShowsVisibly [] [] := ⟨[], .nil, rfl⟩

theorem byte {b} (hb : b ∉ ascii "&<") : ShowsVisibly [b] [b] := ⟨[b], .byte hb .nil, rfl⟩

theorem mark {m c} (hm : Mark m c) : ShowsVisibly m c := by
  have := Shows.mark hm .nil
  rw [append_nil, append_nil] at this
  exact ⟨_, this, rfl⟩

theorem tag {m : Bytes} (hm : ∀ b ∈ m, b ≠ '>' ∧ b ≠ '\n') (hp : ShowsVisibly p s) :
    ShowsVisibly ('<'.toUInt8 :: m ++ '>'.toUInt8 :: p) s := by
  obtain ⟨t, ht, hts⟩ := hp
  have := Shows.mark (.tag hm) ht
  rw [append_assoc] at this
  exact ⟨t, this, hts⟩

theorem escape (s : Bytes) : ShowsVisibly (escape s) s := by
  refine ⟨_, Shows.escape s, ?_⟩
  rw [visible, visible, filter_filter]
  refine filter_congr fun b _ => ?_
  by_cases hb : b = 13
  · rw [hb]
    rfl
  · simp [hb]

theorem fromByte (opts : TextOptions) (previous b : UInt8) :
    ShowsVisibly (fromByte opts previous b) [b] := by
  have hbr : ∀ m : Bytes, (∀ b ∈ m, b ≠ '>' ∧ b ≠ '\n') →
      ShowsVisibly ('<'.toUInt8 :: m ++ ascii ">\n") ['\n'.toUInt8] :=
        fun m hm => tag hm (byte (by decide))
  unfold Html.fromByte
  split
  · next hb => exact beq_iff_eq.mp hb ▸ mark (.entity (e := ⟨'&', "amp;"⟩) (by decide))
  split
  · next hb => exact beq_iff_eq.mp hb ▸ mark (.entity (e := ⟨'<', "lt;"⟩) (by decide))
  split
  · next hb => exact beq_iff_eq.mp hb ▸ mark (.entity (e := ⟨'>', "gt;"⟩) (by decide))
  split
  · next hb =>
    rw [beq_iff_eq.mp hb]
    split
    · exact hbr "br/" (by decide +kernel)
    · split
      · exact hbr "p/" (by decide +kernel)
      · exact byte (by decide)
  split
  · next hb => exact beq_iff_eq.mp hb ▸ nil
  · next hamp hlt _ _ _ => exact byte (by simp_all [ascii])

theorem heldBlanks {n : Nat} (hn : n ≤ 1) : ShowsVisibly (heldBlanks n) [] := by
  obtain rfl | rfl := Nat.le_one_iff_eq_zero_or_eq_one.mp hn
  · exact nil
  · exact ⟨[' '.toUInt8], .byte (by decide) .nil, rfl⟩

theorem fromSpecial (opts : TextOptions) (previous b : UInt8) :
    ShowsVisibly (fromSpecial opts 0 previous b).1 [b] := by
  unfold Html.fromSpecial
  split
  · next hb =>
    rw [beq_iff_eq.mp hb]
    split
    · exact ⟨[], .nil, rfl⟩
    · exact byte (by decide)
  · rw [Html.heldBlanks, ite_self, nil_append]
    exact fromByte opts previous b

theorem fromGap (opts : TextOptions) {held : Nat} (hheld : held ≤ 1) (previous : UInt8)
    {passed : Bytes} (hpassed : ShowsVisibly passed passed) (s : Bytes) :
    ShowsVisibly (fromGap opts held previous passed s).1 (passed ++ s) := by
  induction s generalizing held previous passed with
  | nil =>
    rw [Html.fromGap, append_nil]
    split
    · next h => exact h ▸ nil
    · exact (heldBlanks hheld).append hpassed
  | cons b s ih =>
    rw [Html.fromGap]
    split
    · have hmore := ih (fromSpecial_held_le_one opts previous b) b nil
      have hfront := ((heldBlanks hheld).append hpassed).append (fromSpecial opts previous b)
      simpa using hfront.append hmore
    · next h =>
      have hb : ShowsVisibly [b] [b] :=
        byte fun hmem => h (by rw [isSpecial]; revert hmem; simp [ascii]; tauto)
      simpa using ih hheld b (hpassed.append hb)

/-- The target of a link may have any byte that can be in a URL. -/
theorem link {m target : Bytes} (hm : ∀ b ∈ m, b ≠ '>' ∧ b ≠ '\n')
    (ht : ∀ b ∈ target, Link.inUrl b = true) (shown : Bytes) :
    ShowsVisibly ('<'.toUInt8 :: (m ++ target ++ ascii "\"") ++ '>'.toUInt8 ::
      (Html.escape shown ++ ascii "</a>")) shown := by
  have hc : ShowsVisibly "</a>" [] := tag (m := "/a") (by decide +kernel) nil
  have hs := (escape shown).append hc
  rw [append_nil] at hs
  refine tag (forall_mem_append.mpr ⟨forall_mem_append.mpr ⟨hm, fun b hb => ⟨?_, ?_⟩⟩,
    by decide +kernel⟩) hs
  · rintro rfl
    cases ht _ hb
  · rintro rfl
    cases ht _ hb

theorem fromMail (k : Bool) (hs : ∀ b ∈ s, Link.inUrl b = true) :
    ShowsVisibly (fromMail (usual k) s) s := by
  have := link (m := "a href=\"mailto:") (by decide +kernel) hs s
  simpa [Html.fromMail, option, usual, TextOptions.standard, ascii] using this

theorem fromUrl (k : Bool) (hs : ∀ b ∈ s, Link.inUrl b = true) :
    ∃ page, fromUrl (usual k) s = .ok page ∧ ShowsVisibly page s := by
  refine ⟨_, rfl, ?_⟩
  generalize htai : (if s.getLast? = some '.'.toUInt8 || s.getLast? =
    some ','.toUInt8 then 1 else 0) = tail
  have hr : ShowsVisibly (s.drop (s.length - tail)) (s.drop (s.length - tail)) := by
    split at htai <;> subst htai
    · next hl =>
      rcases eq_nil_or_concat s with rfl | ⟨front, b, rfl⟩
      · exact nil
      · have hb : b = '.'.toUInt8 ∨ b = ','.toUInt8 := by simpa using hl
        rw [concat_eq_append, length_append, length_singleton, Nat.add_sub_cancel, drop_left]
        rcases hb with rfl | rfl <;> exact byte (by decide)
    · rw [Nat.sub_zero, drop_length]
      exact nil
  have hsh : ∀ b ∈ s.take (s.length - tail), Link.inUrl b = true :=
    fun b hb => hs b (mem_of_mem_take hb)
  have hta : ∀ b ∈ (if Bytes.startsWithNoCase Link.host s then ascii "http://" ++
      s.take (s.length - tail)
      else s.take (s.length - tail)), Link.inUrl b = true := by
    split
    · intro b hb
      exact (mem_append.mp hb).elim ((show ∀ b ∈ ascii "http://",
        Link.inUrl b = true by decide +kernel) b) (hsh b)
    · exact hsh
  obtain ⟨t, ht, hts⟩ := (link (m := "a target=\"_blank\" href=\"") (by decide +kernel) hta
    (s.take (s.length - tail))).append hr
  rw [take_append_drop] at hts
  refine ⟨' '.toUInt8 :: t, ?_, hts⟩
  simpa [option, usual, TextOptions.standard,
    ascii] using Shows.byte (b := ' '.toUInt8) (by decide) ht

theorem fromLink (k : Bool) (kind : LinkKind) (hs : ∀ b ∈ s, Link.inUrl b = true) :
    ∃ page, fromLink (usual k) kind s = .ok page ∧ ShowsVisibly page s := by
  cases kind with
  | url => exact fromUrl k hs
  | mail => exact ⟨_, rfl, fromMail k hs⟩

end ShowsVisibly

theorem fromPieces_shows (k : Bool) {links : List Link} {offset : Nat}
    (h : Link.Ordered s offset links) :
    ∃ page, fromPieces (usual k) s offset links = .ok page ∧ ShowsVisibly page (s.drop offset) := by
  induction links generalizing offset with
  | nil => exact ⟨_, rfl, .fromGap _ (Nat.zero_le 1) _ .nil _⟩
  | cons l links ih =>
    obtain ⟨hb, ⟨hpos, hby⟩, hl⟩ := h
    obtain ⟨more, hm, hs⟩ := ih hl
    have hsp : (s.drop offset).take (l.start - offset) ++
        (s.drop l.start).take (l.stop - l.start) ++ s.drop l.stop =
        s.drop offset := by
      have hf := take_append_drop (l.start - offset) (s.drop offset)
      have hba := take_append_drop (l.stop - l.start) (s.drop l.start)
      rw [drop_drop, Nat.add_sub_cancel' hb] at hf
      rw [drop_drop, Nat.add_sub_cancel' hpos.le] at hba
      rw [append_assoc, hba, hf]
    obtain ⟨shown, hsh, hli⟩ := ShowsVisibly.fromLink k l.kind hby
    refine ⟨_, by rw [fromPieces, hsh, hm]; rfl, ?_⟩
    have hfront := ShowsVisibly.fromGap (usual k) (Nat.zero_le 1) (byteBefore s offset) .nil
      ((s.drop offset).take (l.start - offset))
    have hheld := ShowsVisibly.heldBlanks
      (fromGap_held_le_one (usual k) (Nat.zero_le 1) (byteBefore s offset) []
      ((s.drop offset).take (l.start - offset)))
    have hall := ((hfront.append hheld).append hli).append hs
    rw [append_nil] at hall
    exact (congrArg (ShowsVisibly _) hsp).mp hall

/-- A blank at the end of a page is no part of an entity or a tag. -/
theorem Shows.dropLast {b} (hb : isSpace b = true) {w : Bytes} (h : Shows w t) (hw : w = p ++ [b]) :
    ShowsVisibly p t := by
  induction h generalizing p with
  | nil => simp at hw
  | byte hc hs ih =>
    cases p with
    | nil =>
      obtain ⟨rfl, rfl⟩ := cons.inj hw
      exact ⟨_, hs, by simp [visible, hb]⟩
    | cons c p =>
      obtain ⟨rfl, hr⟩ := cons.inj hw
      exact (ShowsVisibly.byte hc).append (ih hr)
  | @mark m c w t hm _ ih =>
    rcases eq_nil_or_concat w with rfl | ⟨w, x, rfl⟩
    · obtain ⟨front, z, rfl, hz⟩ := hm.ends
      rw [append_nil] at hw
      obtain ⟨-, hzb⟩ := append_inj' hw rfl
      simp [← (cons.inj hzb).1, hz] at hb
    · rw [concat_eq_append, ← append_assoc] at hw
      obtain ⟨rfl, hx⟩ := append_inj' hw rfl
      exact (ShowsVisibly.mark hm).append (ih (by rw [concat_eq_append, hx]))

theorem ShowsVisibly.dropWhile {q : UInt8 → Bool} (hq : ∀ c, q c = true → isSpace c = true)
    (h : ShowsVisibly p.reverse s) : ShowsVisibly (p.dropWhile q).reverse s := by
  induction p with
  | nil => exact h
  | cons b p ih =>
    rw [dropWhile_cons]
    split
    · next hb =>
      obtain ⟨t, ht, hts⟩ := h
      obtain ⟨u, hu, hut⟩ := ht.dropLast (hq b hb) reverse_cons
      exact ih ⟨u, hu, hut.trans hts⟩
    · exact h

theorem foldl_keepLineByte {m : Bytes} (hm : '\n'.toUInt8 ∉ m) (kept : Bytes) :
    m.foldl keepLineByte kept = m.reverse ++ kept := by
  induction m generalizing kept with
  | nil => rfl
  | cons b m ih =>
    obtain ⟨hb, hm⟩ := ne_and_not_mem_of_not_mem_cons hm
    rw [foldl_cons, keepLineByte, if_neg (by simpa using hb.symm), ih hm, reverse_cons,
      append_assoc, singleton_append]

theorem Shows.foldl (hp : Shows p t) (kept : Bytes) (h : ShowsVisibly kept.reverse s) :
    ShowsVisibly (p.foldl keepLineByte kept).reverse (s ++ t) := by
  induction hp generalizing kept s with
  | nil => rwa [append_nil]
  | @byte b p t hb _ ih =>
    rw [← singleton_append (l := t), ← append_assoc]
    refine ih _ ?_
    rw [keepLineByte]
    split
    · rw [reverse_cons]
      exact (h.dropWhile fun c hc => (Bool.and_eq_true_iff.mp hc).1).append (.byte hb)
    · rw [reverse_cons]
      exact h.append (.byte hb)
  | mark hm _ ih =>
    rw [foldl_append, foldl_keepLineByte hm.line, ← append_assoc]
    refine ih _ ?_
    rw [reverse_append, reverse_reverse]
    exact h.append (.mark hm)

theorem ShowsVisibly.dropLineBlanks (h : ShowsVisibly p s) : ShowsVisibly (dropLineBlanks p) s := by
  obtain ⟨t, ht, hts⟩ := h
  obtain ⟨u, hu, hut⟩ := ht.foldl [] nil
  exact ⟨u, hu, hut.trans hts⟩

theorem convert_shows {search : LinkKind → Bytes → Option (Nat × Nat)} (h : Link.Sound search)
    (k : Bool) (s : Bytes) :
    ∃ page, convert search (usual k) s = .ok page ∧ ShowsVisibly page s :=
  fromPieces_shows k (Link.ordered_collect h _ (Link.linkable_next? h) (Link.linkable_next? h))

/-- Whatever links are found, a page made with the standard options shows the text that it was made
from. -/
theorem visible_strip_fromText {search : LinkKind → Bytes → Option (Nat × Nat)}
    (h : Link.Sound search) (hs : 0 ∉ s) :
    ∃ page, fromTextBy search .standard s = .ok page ∧ visible (strip page) = visible s := by
  have hstrip : ∀ {page}, ShowsVisibly page s → visible (strip page) = visible s := by
    rintro page ⟨t, ht, hts⟩
    have hnul : 0 ∉ t := fun h0 =>
      hs (mem_filter.mp (hts ▸ mem_filter.mpr ⟨h0, by decide⟩ : (0 : UInt8) ∈ visible s)).1
    rw [strip, ht.textOf (Nat.lt_succ_self _), Bytes.untilNul_of_not_mem hnul, hts]
  obtain ⟨page, hpage, hshows⟩ := convert_shows h (formatting 0 {} s != .none) s
  refine ⟨_, by rw [fromTextBy]; exact congrArg (· >>= _) hpage, ?_⟩
  show visible (strip (if formatting 0 {} s == .drawing then Html.dropLineBlanks _ else page)) = _
  split
  · have hclose : ShowsVisibly "</tt>" [] := .tag (m := "/tt") (by decide +kernel) .nil
    have hdrawing : ShowsVisibly ("<tt>" ++ (page ++ "</tt>")) (s ++ []) :=
      .tag (m := "tt") (by decide +kernel) (hshows.append hclose)
    rw [append_nil, ← append_assoc] at hdrawing
    exact hstrip hdrawing.dropLineBlanks
  · exact hstrip hshows

/-- A text with a link, an entity's name and a drawing. -/
theorem visible_strip_fromText_drawing : let s := ascii "see http://a.b?c&d. \n/<&lt;>:"
    let search := fun kind t => if kind = LinkKind.url ∧ t = s then some (4, 19) else none
    Link.Sound search ∧ ∃ page, fromTextBy search .standard s = .ok page ∧
      visible (strip page) = visible s := by
  intro s search
  have hsound : Link.Sound search := by
    intro kind t start stop h
    obtain ⟨⟨-, rfl⟩, hrange⟩ := Option.ite_none_right_eq_some.mp h
    obtain ⟨rfl, rfl⟩ := Prod.mk.inj (Option.some.inj hrange)
    exact ⟨by decide, by decide +kernel⟩
  exact ⟨hsound, visible_strip_fromText hsound (by decide)⟩

/-- A text converted byte by byte, with every blank as it is. This is what the scanner comes to,
whose stops and held blanks leave no trace: see `fromGap_append_held`. -/
def fromBytes (opts : TextOptions) (previous : UInt8) : Bytes → Bytes
  | [] => []
  | b :: s => fromByte opts previous b ++ fromBytes opts b s

/-- The last blank of a text is held back for good. -/
def dropLastBlank (s : Bytes) : Bytes := if s.getLast? == some ' '.toUInt8 then s.dropLast else s

theorem fromBytes_append (opts : TextOptions) (previous : UInt8) (p q : Bytes) :
    fromBytes opts previous (p ++ q) = fromBytes opts previous p ++
    fromBytes opts (p.getLastD previous) q := by
  induction p generalizing previous with
  | nil => rfl
  | cons b p ih => rw [cons_append, fromBytes, fromBytes, ih, getLastD_cons, append_assoc]

theorem fromBytes_blanks (opts : TextOptions) (previous : UInt8) (n : Nat) :
    fromBytes opts previous (replicate n ' '.toUInt8) = replicate n ' '.toUInt8 := by
  induction n generalizing previous with
  | zero => rfl
  | succ n ih => rw [replicate_succ, fromBytes, ih]; rfl

theorem dropLastBlank_append (p : Bytes) (d : UInt8) (q : Bytes) :
    dropLastBlank (p ++ d :: q) = p ++ dropLastBlank (d :: q) := by
  rw [dropLastBlank, dropLastBlank, getLast?_append_of_ne_nil _ (cons_ne_nil d q),
    dropLast_append_of_ne_nil (cons_ne_nil d q)]
  split <;> rfl

theorem fromSpecial_append_held (opts : TextOptions) (previous b : UInt8) :
    (fromSpecial opts 0 previous b).1 ++ heldBlanks (fromSpecial opts 0 previous b).2 =
    fromByte opts previous b := by
  unfold fromSpecial
  split
  · next hb =>
    rw [beq_iff_eq.mp hb]
    split <;> rfl
  · rw [heldBlanks, ite_self, nil_append, append_nil]

theorem fromByte_of_not_special {b : UInt8} (h : ¬isSpecial b) (opts : TextOptions)
    (previous : UInt8) :
    fromByte opts previous b = [b] := by
  simp [isSpecial, ascii] at h
  simp [fromByte, h]

/-- What is written and the blanks still held back make up the text converted byte by byte. -/
theorem fromGap_append_held (opts : TextOptions) (held : Nat) (previous : UInt8)
    (passed s : Bytes) :
    (fromGap opts held previous passed s).1 ++ heldBlanks (fromGap opts held previous passed s).2 =
      heldBlanks held ++ passed ++ fromBytes opts previous s := by
  induction s generalizing held previous passed with
  | nil =>
    rw [fromGap, fromBytes, append_nil]
    split
    · next h => rw [h, append_nil, nil_append]
    · rw [heldBlanks, append_nil]
  | cons b s ih =>
    rw [fromGap, fromBytes]
    split
    · rw [← fromSpecial_append_held, append_assoc, append_assoc, append_assoc, ← append_assoc,
        ih, append_nil]
      simp
    · next h => rw [ih, fromByte_of_not_special h]; simp

/-- A blank is held back at the end of a text exactly if it is the last byte. -/
theorem fromGap_held (hopts : opts.keepsBlanks = true) (held : Nat) (previous : UInt8)
    (passed s : Bytes) (b : UInt8) :
    (fromGap opts held previous passed (s ++ [b])).2 = if b = ' '.toUInt8 then 1 else 0 := by
  induction s generalizing held previous passed with
  | nil =>
    rw [nil_append, fromGap]
    split
    · by_cases hb : b = ' '.toUInt8 <;> simp [fromGap, fromSpecial, hopts, hb]
    · next h =>
      have hb : b ≠ ' '.toUInt8 := by rintro rfl; exact h rfl
      simp [fromGap, hb]
  | cons c s ih =>
    rw [cons_append, fromGap]
    split
    · exact ih ..
    · exact ih ..

/-- Where blanks are kept, only a blank at the very end is lost. -/
theorem fromGap_eq_fromBytes (hopts : opts.keepsBlanks = true) (s : Bytes) :
    (fromGap opts 0 0 [] s).1 = fromBytes opts 0 (dropLastBlank s) := by
  have hall := fromGap_append_held opts 0 0 [] s
  rcases eq_nil_or_concat s with rfl | ⟨front, b, rfl⟩
  · rfl
  · rw [concat_eq_append] at hall ⊢
    rw [fromGap_held hopts] at hall
    by_cases hb : b = ' '.toUInt8
    · subst hb
      rw [if_pos rfl, fromBytes_append] at hall
      have hlast : dropLastBlank (front ++ [' '.toUInt8]) = front := by simp [dropLastBlank]
      exact hlast.symm ▸ append_cancel_right hall
    · have hlast : dropLastBlank (front ++ [b]) = front ++ [b] := by simp [dropLastBlank, hb]
      rw [hlast]
      simpa [hb, heldBlanks] using hall

/-- A run of blanks is put on the page as it is, also where blanks are kept: none of them becomes an
entity. -/
theorem convert_run {search : LinkKind → Bytes → Option (Nat × Nat)}
    (hopts : opts.keepsBlanks = true) {n : Nat}
    (hn : 0 < n) {d : UInt8}
    (hlinks : ∀ kind, search kind (p ++ (replicate n ' '.toUInt8 ++ d :: q)) = none) :
    convert search opts (p ++ (replicate n ' '.toUInt8 ++ d :: q)) =
      .ok (fromBytes opts 0 p ++
        (replicate n ' '.toUInt8 ++ fromBytes opts ' '.toUInt8 (dropLastBlank (d :: q)))) := by
  have hall : Link.all search (p ++ (replicate n ' '.toUInt8 ++ d :: q)) = [] := by
    simp [Link.all, Link.collect, Link.next?, hlinks, Link.earlier]
  obtain _ | n := n
  · omega
  rw [convert, hall, fromPieces, drop_zero, byteBefore, if_pos rfl,
    fromGap_eq_fromBytes hopts, ← append_assoc,
    dropLastBlank_append, append_assoc, fromBytes_append, fromBytes_append, fromBytes_blanks,
      replicate_succ', getLastD_concat]
  rfl

/-- Blanks before a byte that is escaped, and one at the end. -/
theorem convert_run_escaped : let opts : TextOptions := { keepsBlanks := true }
    convert Link.find? opts (ascii "a" ++ (replicate 3 ' '.toUInt8 ++ '&'.toUInt8 :: ascii " b ")) =
      .ok (ascii "a" ++ (replicate 3 ' '.toUInt8 ++ ascii "&amp; b")) :=
  convert_run rfl (by decide) (by intro kind; cases kind <;> rfl)

/-- Two blanks do not become an entity and a blank. -/
theorem convert_two_blanks : convert Link.find? { keepsBlanks := true } (ascii "a  b") =
    .ok (ascii "a  b") := rfl

end Html
end TemplateKit
