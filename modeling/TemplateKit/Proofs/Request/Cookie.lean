import TemplateKit.Proofs.Request.Form

/-!
# Cookies in a header

A header of cookies is a row of portions with semicolons between them. Each portion is a name and a
value, or it holds no cookie. All cookies of a header are found in the data, in the order in which
their names first come and each with its last value, whatever stands between them.
-/

namespace TemplateKit

open List Ascii Bytes Node Form

namespace Cookie

abbrev Spaces (s : Bytes) : Prop := ∀ b ∈ s, isSpace b = true

/-- A name and a value that make a cookie. -/
structure Proper (c : Field) : Prop where
  named : c.1 ≠ []
  valued : c.2 ≠ []
  name_strip : c.1.strip = c.1
  value_strip : c.2.strip = c.2
  inName : ∀ b ∈ c.1, inName b = true
  undotted : dot ∉ c.1
  inValue : ∀ b ∈ c.2, inValue b = true

/-- A portion of a header and the cookies that it holds: one, or none if its name or its value is
missing. -/
inductive Portion : Bytes → List Field → Prop
  | pair {front behind before back : Bytes} {c : Field} (hfront : Spaces front)
      (hbehind : Spaces behind) (hbefore : Spaces before) (hback : Spaces back) (hc : Proper c) :
      Portion (front ++ c.1 ++ behind ++ '='.toUInt8 :: (before ++ c.2 ++ back)) [c]
  | bare {text : Bytes} (hin : ∀ b ∈ text, inName b = true) : Portion text []
  | nameless {front value : Bytes} (hfront : Spaces front) (hend : ∀ b ∈ value, inValue b = true) :
      Portion (front ++ '='.toUInt8 :: value) []
  | valueless {name back : Bytes} (hin : ∀ b ∈ name, inName b = true) (hback : Spaces back) :
      Portion (name ++ '='.toUInt8 :: back) []

section Cut

variable {text name value blanks : Bytes} {cookies : List Field}

theorem inName_of_spaces (h : Spaces text) : ∀ b ∈ text, inName b = true :=
  fun b hb => byte_imp (p := isSpace) (q := inName) (by decide +kernel) (h b hb)

theorem inValue_of_inName (h : ∀ b ∈ text, inName b = true) : ∀ b ∈ text, inValue b = true :=
  fun b hb => byte_imp (p := inName) (q := inValue) (by decide +kernel) (h b hb)

theorem stripRight_append_spaces (h : Spaces blanks) (s : Bytes) :
    stripRight (s ++ blanks) = stripRight s := by
  rw [stripRight, reverse_append, dropWhile_append_of_pos fun b hb => h b (mem_reverse.mp hb),
    stripRight]

theorem strip_spaces (h : Spaces blanks) : strip blanks = [] :=
  congrArg stripLeft (stripRight_append_spaces h [])

theorem strip_between {front back s : Bytes} (hfront : Spaces front) (hback : Spaces back)
    (hs : s.strip = s) (hne : s ≠ []) : strip (front ++ (s ++ back)) = s := by
  rw [strip, ← append_assoc, stripRight_append_spaces hback,
    stripRight_append_of_ne (strip_eq_self hs).2 hne, stripLeft_append hfront]
  exact (strip_eq_self hs).1

/-- A text is cut into one pair and what stands behind its semicolon. -/
def CutAs (text : Bytes) (p : Field) : Prop :=
  (∀ fuel rest, split (fuel + 1) (text ++ ';'.toUInt8 :: rest) = p :: split fuel rest) ∧
    (text ≠ [] → ∀ fuel, split (fuel + 1) text = [p])

theorem split_nil (fuel : Nat) : split fuel [] = [] := by
  cases fuel <;> rfl

theorem cutAs_bare (h : ∀ b ∈ text, inName b = true) : CutAs text (text, []) := by
  have hstop : inName ';'.toUInt8 = false := rfl
  refine ⟨fun fuel rest => ?_, fun hne fuel => ?_⟩
  · have hne : (';'.toUInt8 == '='.toUInt8) = false := rfl
    simp [split, takeWhile_append_of_pos h, dropWhile_append_of_pos h, hstop, hne]
  · simp [split, hne, takeWhile_eq_self_iff.mpr h, dropWhile_eq_nil_iff.mpr h]

theorem cutAs_pair (hn : ∀ b ∈ name, inName b = true) (hv : ∀ b ∈ value, inValue b = true) :
    CutAs (name ++ '='.toUInt8 :: value) (name, value) := by
  have hstop : inName '='.toUInt8 = false := rfl
  have hend : inValue ';'.toUInt8 = false := rfl
  refine ⟨fun fuel rest => ?_, fun hne fuel => ?_⟩
  · simp [split, takeWhile_append_of_pos hn, dropWhile_append_of_pos hn, hstop,
      takeWhile_append_of_pos hv, dropWhile_append_of_pos hv, hend]
  · simp [split, takeWhile_append_of_pos hn, dropWhile_append_of_pos hn, hstop,
      takeWhile_eq_self_iff.mpr hv, dropWhile_eq_nil_iff.mpr hv, split_nil]

/-- What is kept of names and values as they stand. -/
def kept (cut : List Field) : List Field :=
  (cut.map fun (name, value) => (name.strip, value.strip)).filter fun (name, value) =>
    !name.isEmpty && !value.isEmpty

theorem kept_cons (p : Field) (cut : List Field) : kept (p :: cut) = kept [p] ++ kept cut := by
  exact filter_append [(p.1.strip, p.2.strip)] _

theorem exists_cutAs (h : Portion text cookies) : ∃ p, CutAs text p ∧ kept [p] = cookies := by
  cases h with
  | pair hfront hbehind hbefore hback hc =>
    have hin : ∀ {s}, Spaces s → ∀ b ∈ s, inValue b = true :=
      fun h => inValue_of_inName (inName_of_spaces h)
    refine ⟨_, cutAs_pair ?_ ?_, ?_⟩
    · simp only [forall_mem_append]
      exact ⟨⟨inName_of_spaces hfront, hc.inName⟩, inName_of_spaces hbehind⟩
    · simp only [forall_mem_append]
      exact ⟨⟨hin hbefore, hc.inValue⟩, hin hback⟩
    · simp [kept, strip_between hfront hbehind hc.name_strip hc.named,
        strip_between hbefore hback hc.value_strip hc.valued, hc.named, hc.valued]
  | bare hin => exact ⟨_, cutAs_bare hin, by simp [kept, strip, stripRight, stripLeft]⟩
  | nameless hfront hend => exact ⟨_, cutAs_pair (inName_of_spaces hfront) hend,
      by simp [kept, strip_spaces hfront]⟩
  | valueless hin hback =>
    exact ⟨_, cutAs_pair hin (inValue_of_inName (inName_of_spaces hback)),
      by simp [kept, strip_spaces hback]⟩

theorem Portion.eq_nil (h : Portion [] cookies) : cookies = [] := by
  generalize ht : ([] : Bytes) = text at h
  cases h with
  | pair => simp at ht
  | bare | nameless | valueless => rfl

/-- The cookies of all portions are kept if the bound is not below the length of the header. -/
theorem kept_split {texts : List Bytes} {held : List (List Field)} (h : Forall₂ Portion texts held)
    {fuel : Nat}
    (hfuel : (join ";" texts).length ≤ fuel) : kept (split fuel (join ";" texts)) =
    held.flatten := by
  induction h generalizing fuel with
  | nil =>
    rw [join, split_nil]
    rfl
  | @cons text cookies texts held hp hs ih =>
    obtain ⟨p, ⟨hmore, hlast⟩, hkept⟩ := exists_cutAs hp
    cases texts with
    | nil =>
      cases hs
      rw [join] at hfuel ⊢
      by_cases hne : text = []
      · subst hne
        rw [split_nil, hp.eq_nil]
        rfl
      · obtain ⟨fuel, rfl⟩ :=
          Nat.exists_eq_add_of_lt (Nat.lt_of_lt_of_le (length_pos_iff.mpr hne) hfuel)
        rw [Nat.zero_add, hlast hne, hkept]
        simp
    | cons t texts =>
      have hjoin : join ";" (text :: t :: texts) = text ++ ';'.toUInt8 :: join ";" (t :: texts) :=
        join_cons text (cons_ne_nil t texts)
      rw [hjoin, length_append, length_cons] at hfuel
      obtain ⟨fuel, rfl⟩ := Nat.exists_eq_add_of_lt (show 0 < fuel by omega)
      rw [hjoin, Nat.zero_add, hmore, kept_cons, hkept, ih (by omega), flatten_cons]

end Cut

/-- What the tree holds for a cookie. -/
def leaf (name : Bytes) (vs : List Bytes) : Node := ⟨name, vs.getLast?, false, [], []⟩

/-- What the tree holds for a header: its text, and the cookies below it. -/
def jar (header : Bytes) (cookies : List Field) : Node :=
  ⟨Request.cookieName, some header, false, [], branches leaf cookies⟩

variable {base : Node} {header : Bytes} {cookies : List Field} {c : Field}

theorem place_jar : place { value := some c.2 } [c.1] (jar header cookies) =
    jar header (cookies ++ [c]) := by
  have hchild : (jar header cookies).child? c.1 = if c.1 ∈ names cookies then _ else _ :=
    find?_branches (fun _ _ => rfl) cookies c.1
  rw [place]
  split at hchild
  · next hold =>
    have hassign : (leaf c.1 (valuesOf cookies c.1)).assign { value := some c.2 } =
        leaf c.1 (valuesOf cookies c.1 ++ [c.2]) := by
      rw [leaf, leaf, getLast?_concat]
      rfl
    rw [graft_of_some hchild, graft, hassign]
    exact congrArg (Node.mk _ _ _ _) (go_branches (fun _ _ => rfl) hold)
  · next hnew =>
    rw [graft_of_none hchild, jar, jar, branches_concat hnew]
    rfl

theorem assignTo_jar (hnone : base.child? Request.cookieName = none) (hc : Proper c) :
    ((base.append (jar header cookies)).assignTo (some [Request.cookieName]) (some c.1)
      { value := some c.2 }).1 =
      base.append (jar header (cookies ++ [c])) := by
  have hget : (base.append (jar header cookies)).get? [Request.cookieName] =
      some (jar header cookies) :=
    get?_appended hnone []
  have hname : components c.1 = [c.1] := by
    rw [components_eq_splitByte hc.named, splitByte_of_not_mem hc.undotted]
  have hpass : Passable (components c.1) (jar header cookies) := by
    rw [hname]
    exact fun p hp hne =>
      clear_nil rfl p ((prefix_concat_iff.mp (show p <+: [] ++ [c.1] from hp)).resolve_left hne)
  have ha := assignAt_of_passable hget hpass (by
    simpa [hname] using hc.named.symm) { value := some c.2 }
  rw [hname] at ha
  have hchild : (base.append (jar header cookies)).child? Request.cookieName =
      some (jar header cookies) :=
    child?_appended hnone
  refine (congrArg Prod.fst ha).trans ?_
  rw [place, graft_append, graft_of_some hchild, modifyChild_append hnone rfl]
  exact congrArg base.append place_jar

theorem assignEach_jar (hnone : base.child? Request.cookieName = none) {more : List Field}
    (hm : ∀ c ∈ more, Proper c)
    (cookies : List Field) :
    assignEach (some [Request.cookieName]) more (base.append (jar header cookies)) =
      base.append (jar header (cookies ++ more)) := by
  induction more generalizing cookies with
  | nil => rw [append_nil]; rfl
  | cons c more ih =>
    have hs := ih (fun d hd => hm d (mem_cons_of_mem c hd)) (cookies ++ [c])
    rw [append_assoc, singleton_append] at hs
    rw [← hs, assignEach, foldl_cons, assignTo_jar hnone (hm c mem_cons_self), assignEach]

theorem Proper.of_portions {texts : List Bytes} {held : List (List Field)}
    (h : Forall₂ Portion texts held) :
    ∀ c ∈ held.flatten, Proper c := by
  induction h with
  | nil => simp
  | cons hp _ ih =>
    rw [flatten_cons, forall_mem_append]
    refine ⟨?_, ih⟩
    cases hp with
    | pair _ _ _ _ hc => exact forall_mem_singleton.mpr hc
    | bare | nameless | valueless => simp

end Cookie

namespace Request

open Cookie

variable {r : Request}

/-- The cookies of a header are all in the data, and nothing else is new there. -/
theorem storeCookies_join (texts : List Bytes) (held : List (List Field))
    (h : Forall₂ Portion texts held)
    (hheader : r.data.value? (ascii "HTTP.Cookie") = some (join ";" texts))
    (hroot : r.data.isLink = false) (hnone : r.data.child? cookieName = none) :
    storeCookies r =
    (.ok (), { r with data := r.data.append (jar (join ";" texts) held.flatten) }) := by
  have hset : r.data.set cookieName (some (join ";" texts)) =
      (r.data.append (jar (join ";" texts) []), .ok [cookieName]) := by
    exact assignAt_new (a := []) rfl (clear_nil hroot) hnone (by decide) (by decide) _
  have hchild : (r.data.append (jar (join ";" texts) [])).child? cookieName =
      some (jar (join ";" texts) []) :=
    child?_appended hnone
  have hlocate : (r.data.append (jar (join ";" texts) [])).locate? [] cookieName =
      some ⟨[cookieName], jar (join ";" texts) []⟩ := by
    have hn : components cookieName = [cookieName] := by decide
    have hl : (jar (join ";" texts) []).isLink = false := rfl
    simp [locate?, get?, hn, hroot, walk, hchild, hl]
  rw [storeCookies, bind_of_ok (get_apply r)]
  simp only [hheader]
  rw [bind_of_ok (storing_run hset)]
  refine Prod.ext rfl ?_
  show { r with data := assignEach _ _ _ } = _
  have hparse : Cookie.parse (join ";" texts) = held.flatten := kept_split h le_rfl
  rw [hlocate, hparse, Option.map_some, assignEach_jar hnone (.of_portions h), nil_append]

/-- Blanks, a name with two values, and portions that hold nothing at the start, in the middle and
at the end. -/
theorem storeCookies_join_malformed : let header := ascii ";a=1; =2;a = x=y;b"
    (storeCookies {
      data := ⟨[], none, false, [],
        [⟨ascii "HTTP", none, false, [], [⟨ascii "Cookie", some header, false, [], []⟩]⟩]⟩,
      environment := [], ignoresEmpty := false,
      lines := ⟨⟨[], 0⟩, none, [], false, 0, 0, fun _ _ => false⟩ }).2.data.child? cookieName =
        some ⟨cookieName, some header, false, [],
          [⟨ascii "a", some (ascii "x=y"), false, [], []⟩]⟩ := by
  have hempty : Spaces [] := by decide +kernel
  have hblank : Spaces [32] := by decide +kernel
  have hone : Proper (ascii "a", ascii "1") := by constructor <;> decide +kernel
  have htwo : Proper (ascii "a", ascii "x=y") := by constructor <;> decide +kernel
  have hplain : Portion (ascii "a=1") [(ascii "a", ascii "1")] :=
    .pair hempty hempty hempty hempty hone
  have hspaced : Portion (ascii "a = x=y") [(ascii "a", ascii "x=y")] :=
    .pair hempty hblank hblank hempty htwo
  have hnameless : Portion ([32] ++ '='.toUInt8 :: ascii "2") [] :=
    .nameless hblank (by decide +kernel)
  have h : Forall₂ Portion [[], ascii "a=1", ascii " =2", ascii "a = x=y", ascii "b"]
      [[], [(ascii "a", ascii "1")], [], [(ascii "a", ascii "x=y")], []] :=
    .cons (.bare (by decide +kernel))
      (.cons hplain (.cons hnameless (.cons hspaced (.cons (.bare (by decide +kernel)) .nil))))
  intro header
  rw [storeCookies_join _ _ h rfl rfl rfl]
  rfl

end Request

end TemplateKit
