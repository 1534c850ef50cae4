import TemplateKit.Proofs.Data.PathMap
import TemplateKit.Proofs.Request.Form
import TemplateKit.Proofs.Request.Handling

/-!
# When the set-up of a request fails

The tree refuses names with an empty component. The client chooses many names, and those of its
cookies and of the fields of its forms are passed over if they are refused. The names of the
attributes of a content type are not: they alone decide whether the set-up succeeds.
-/

namespace TemplateKit

open List Option Node Header

namespace Node

variable {n m : Node} {start : Address} {name : Bytes} {a : Assignment}

section Rows

variable {p : Bytes × Bytes} {settings : List (Bytes × Bytes)}

theorem assignAll_of_ok {address} (h : n.set p.1 (some p.2) = (m, .ok address)) :
    n.assignAll (some []) (p :: settings) = m.assignAll (some []) settings := by
  have ha : n.assignTo (some []) (some p.1) { value := some p.2 } = (m, .ok address) := h
  rw [assignAll, ha]

theorem assignAll_of_error {e} (h : n.set p.1 (some p.2) = (m, .error e)) :
    n.assignAll (some []) (p :: settings) = (m, .error e) := by
  have ha : n.assignTo (some []) (some p.1) { value := some p.2 } = (m, .error e) := h
  rw [assignAll, ha]

theorem assignAll_result (h : n.LinkFree) (settings : List (Bytes × Bytes)) :
    (n.assignAll (some []) settings).2 =
      (settings.find? fun p => (components p.1).contains []).elim (.ok ()) fun p =>
        .error (.emptyComponent p.1) := by
  induction settings generalizing n with
  | nil => rfl
  | cons p more ih =>
    have hf : (n.set p.1 (some p.2)).1.LinkFree := assignAt_linkFree h rfl [] p.1
    by_cases hp : [] ∈ components p.1
    · have hr : (n.set p.1 (some p.2)).2 = .error (.emptyComponent p.1) := assignAt_refused h rfl hp
      rw [assignAll_of_error (Prod.ext rfl hr), find?_cons_of_pos (by simpa using hp)]
      rfl
    · have hs : (n.set p.1 (some p.2)).2 = .ok ([] ++ components p.1) :=
        congrArg Prod.snd (assignAt_accepted h rfl hp _)
      rw [assignAll_of_ok (Prod.ext rfl hs), find?_cons_of_neg (by simpa using hp), ih hf]

theorem assignAll_accepted (h : n.LinkFree) (hs : ∀ p ∈ settings, [] ∉ components p.1) :
    (n.assignAll (some []) settings).2 = .ok () := by
  have hn : (settings.find? fun p => (components p.1).contains []) = none := by
    rw [find?_eq_none]
    intro p hp
    simpa using hs p hp
  rw [assignAll_result h, hn]
  rfl

theorem assignAll_linkFree (h : n.LinkFree) (settings : List (Bytes × Bytes)) :
    (n.assignAll (some []) settings).1.LinkFree :=
  assignAll_keeps (I := LinkFree) (fun p _ _ hn => assignAt_linkFree hn rfl [] p.1) h

theorem value?_assignAll (h : n.LinkFree) (hs : ∀ p ∈ settings, [] ∉ components p.1) (q : Bytes) :
    (n.assignAll (some []) settings).1.value? q =
      ((settings.filter (·.1 == q)).getLast?.map (·.2)).or (n.value? q) := by
  induction settings generalizing n with
  | nil => rfl
  | cons p more ih =>
    obtain ⟨hp, hm⟩ := forall_mem_cons.mp hs
    have hf : (n.set p.1 (some p.2)).1.LinkFree := assignAt_linkFree h rfl [] p.1
    have hst : (n.set p.1 (some p.2)).2 = .ok ([] ++ components p.1) :=
      congrArg Prod.snd (assignAt_accepted h rfl hp _)
    rw [assignAll_of_ok (Prod.ext rfl hst), ih hf hm, value?_set h hp, filter_cons]
    by_cases hq : p.1 = q
    · rw [if_pos hq.symm, if_pos (beq_iff_eq.mpr hq), getLast?_cons]
      cases (more.filter (·.1 == q)).getLast? <;> rfl
    · rw [if_neg (Ne.symm hq), if_neg (by simpa using hq)]

end Rows

end Node

namespace Request

variable {I J : Node → Prop}

/-- The content type that is found at the set-up: what the server says, or else what stands in the
tree before. -/
def contentType? (r : Request) : Option Bytes :=
  (r.environment.get? "CONTENT_TYPE").or (r.data.value? contentTypeName)

/-- The first name of a part of a content type that has an empty component. -/
def refusedPart? (type : Bytes) : Option Bytes :=
  ((ContentType.parts type).map fun p => (contentTypeName ++ dot :: p.1).take nameRoom).find?
    fun name =>
    (components name).contains []

theorem proper_serverValues (e : Environment) : ∀ p ∈ e.serverValues, [] ∉ components p.1 := by
  have hall : (Environment.serverNames.all fun q =>
    !(components ("CGI." ++ ascii q.2)).contains []) = true := by
    decide +kernel
  intro p hp
  obtain ⟨q, hq, hv⟩ := mem_filterMap.mp hp
  obtain ⟨value, -, rfl⟩ := map_eq_some_iff.mp hv
  simpa using all_eq_true.mp hall q hq

theorem proper_headers (e : Environment) : ∀ p ∈ settings e, [] ∉ components p.1 := by
  intro p hp
  obtain ⟨c, rest, hn, hpr, -⟩ := mem_settings hp
  rw [hn, mem_cons, not_or]
  exact ⟨by decide, hpr⟩

theorem filter_serverValues (e : Environment) (name : Bytes) : e.serverValues.filter (·.1 == name) =
      (Environment.serverNames.filter fun q => "CGI." ++ ascii q.2 == name).filterMap fun q =>
        (e.get? (ascii q.1)).map fun value => ("CGI." ++ ascii q.2, value) := by
  unfold Environment.serverValues
  induction Environment.serverNames with
  | nil => rfl
  | cons q more ih => by_cases hq : "CGI." ++ ascii q.2 =
      name <;> cases hv : e.get? (ascii q.1) <;> simp [hv, hq, ih]

/-- Only one name of the server's is that of the content type, and no name of a header is. -/
theorem value?_contentType {n : Node} (h : n.LinkFree) (e : Environment) :
    (((n.assignAll (some []) e.serverValues).1).assignAll (some []) (settings e)).1.value?
      contentTypeName =
      (e.get? (ascii "CONTENT_TYPE")).or (n.value? contentTypeName) := by
  have hh : (settings e).filter (·.1 == contentTypeName) = [] := by
    rw [filter_eq_nil_iff]
    intro p hp heq
    obtain ⟨c, rest, hn, -⟩ := mem_settings hp
    rw [beq_iff_eq.mp heq] at hn
    have hhe : some (ascii "CGI") = some subtree := congrArg List.head? hn
    exact absurd hhe (by decide)
  have hs : (Environment.serverNames.filter fun q => ascii "CGI." ++ ascii q.2 == contentTypeName) =
      [("CONTENT_TYPE", "ContentType")] := by decide +kernel
  rw [value?_assignAll (assignAll_linkFree h _) (proper_headers e), hh,
    value?_assignAll h (proper_serverValues e), filter_serverValues, hs]
  cases hv : e.get? (ascii "CONTENT_TYPE") <;> simp [hv]

/-- What the parts of a content type give to the tree, and the first that it refuses. -/
theorem assignAll_parts {n : Node} (h : n.LinkFree) (type : Bytes) :
    (n.assignAll (some []) ((ContentType.parts type).map fun p =>
        ((contentTypeName ++ dot :: p.1).take nameRoom, p.2))).2 =
      (refusedPart? type).elim (.ok ()) fun name => .error (.emptyComponent name) := by
  rw [assignAll_result h, refusedPart?, find?_map, find?_map]
  have hs : ((fun p : Bytes × Bytes => (components p.1).contains []) ∘ fun p : Bytes × Bytes =>
        ((contentTypeName ++ dot :: p.1).take nameRoom, p.2)) =
      ((fun name => (components name).contains []) ∘ fun p =>
        (contentTypeName ++ dot :: p.1).take nameRoom) := rfl
  rw [hs]
  cases (ContentType.parts type).find? ((fun name => (components name).contains []) ∘ fun p =>
    (contentTypeName ++ dot :: p.1).take nameRoom) with
  | none => rfl
  | some p => rfl

section Success

theorem advances_assignAll {settings} (hI : ∀ n, I n → n.LinkFree)
    (hs : ∀ p ∈ settings, [] ∉ components p.1)
    (hJ : ∀ n, I n → J (n.assignAll (some []) settings).1) :
    Advances I (storing (assignAll (some []) settings)) J fun _ => False := by
  refine .stores (fun n _ hn _ => hJ n hn) fun n e hn he => ?_
  cases he.symm.trans (assignAll_accepted (hI n hn) hs)

/-- An assignment to a proper name below a node that is there succeeds, and the node is still there.
-/
theorem advances_assignTo {start name} (hna : [] ∉ components name) (value : Option Bytes) :
    Advances (fun n => n.LinkFree ∧ (n.get? start).isSome)
      (storing (·.assignTo (some start) (some name) { value }))
      (fun n => n.LinkFree ∧ (n.get? start).isSome)
      fun _ => False := by
  refine .stores (fun n _ hn _ => ?_) fun n e hn he => ?_
  · exact ⟨assignAt_linkFree hn.1 rfl start name, assignAt_within start hn.2⟩
  · obtain ⟨m, hm⟩ := isSome_iff_exists.mp hn.2
    have hok : (n.assignAt start name { value }).2 = .ok (start ++ components name) :=
      congrArg Prod.snd (assignAt_accepted hn.1 hm hna _)
    cases he.symm.trans hok

theorem advances_storeCookies :
    Advances Node.LinkFree storeCookies Node.LinkFree fun _ => False := by
  apply Advances.reads
  intro r _
  cases r.data.value? "HTTP.Cookie" with
  | none => exact .stays
  | some header =>
    apply Advances.andThen (J := Node.LinkFree)
    · refine .stores (fun n _ hn _ => assignAt_linkFree hn rfl [] cookieName) fun n e hn he => ?_
      have hok : (n.set cookieName (some header)).2 = .ok ([] ++ components cookieName) :=
        congrArg Prod.snd (assignAt_accepted hn rfl (by decide) _)
      cases he.symm.trans hok
    · intro _
      apply Advances.modifies
      intro s hs
      cases s.data.locate? [] cookieName with
      | none => rwa [map_none, assignEach_none]
      | some there =>
        exact assignEach_keeps (I := Node.LinkFree) (fun _ _ _ hn => assignAt_linkFree hn rfl _ _)
          (Cookie.parse header) hs

theorem proper_ofNat (k : Nat) : [] ∉ components (Numeral.ofNat k) := by
  obtain ⟨d, more, -, -, hc⟩ := Numeral.ofNat_head k
  rw [components_ofNat, hc]
  simp

theorem advances_collect (name value : Bytes) :
    Advances Node.LinkFree (collect name value) Node.LinkFree fun _ => False := by
  apply Advances.looks
  intro r hr
  dsimp only
  cases ht : r.data.locate? [] name with
  | none => exact .returns fun _ hn => hn.2
  | some there =>
    rw [locate?_of_linkFree hr] at ht
    obtain ⟨m, hm, rfl⟩ := map_eq_some_iff.mp ht
    have hst : ∀ n, n = r.data ∧ n.LinkFree → n.LinkFree ∧ (n.get? (components name)).isSome := by
      rintro n ⟨rfl, hn⟩
      exact ⟨hn, by rw [hm]; rfl⟩
    dsimp only
    apply Couples.conseq (P := fun s : Request => s.data.LinkFree ∧
      (s.data.get? (components name)).isSome)
      (Q := fun _ s => s.data.LinkFree ∧ (s.data.get? (components name)).isSome)
      (E := fun _ => False) _
      (fun s hs => hst s.data hs) (fun _ _ hs => hs.1) fun _ hs => hs
    split
    · exact .andThen (advances_assignTo (by decide) _) fun _ => advances_assignTo (by decide) _
    · exact .andThen (advances_assignTo (by decide) _) fun _ => advances_assignTo (by decide) _
    · exact advances_assignTo (proper_ofNat _) _

theorem advances_storeItem (i : QueryItem) :
    Advances Node.LinkFree (storeItem i) Node.LinkFree fun _ => False := by
  apply Advances.reads
  intro r _
  split
  · exact .stays
  · apply Advances.andThen (advances_collect (fieldName i.name) i.value)
    intro _
    exact .modifies fun _ hn => assignAt_linkFree hn rfl [] _

theorem advances_storeContentType {type?} (hre : type?.bind refusedPart? = none) :
    Advances (fun n => n.LinkFree ∧ n.value? contentTypeName = type?) storeContentType Node.LinkFree
      fun _ => False := by
  apply Advances.reads
  intro r hr
  rw [hr.2]
  cases type? with
  | none => exact .returns fun _ hn => hn.1
  | some type =>
    refine .stores (fun n _ hn _ => assignAll_linkFree hn.1 _) fun n e hn he => ?_
    have hno : refusedPart? type = none := hre
    have hok := assignAll_parts hn.1 type
    rw [hno] at hok
    cases he.symm.trans hok

theorem setUp_ok {r} (h : r.data.LinkFree) (hr : r.contentType?.bind refusedPart? = none) :
    (setUp r).1 = .ok () := by
  suffices hrun : After (· = r) setUp (fun _ s => s.data.LinkFree) fun _ => False by
    have he := (hrun r rfl).2
    generalize setUp r = last at he
    obtain ⟨x, s⟩ := last
    cases x with
    | ok a => rfl
    | error e => exact he.elim
  apply Couples.looks
  rintro r rfl
  apply Couples.pre (P := fun s => s.data = r.data) _ (fun s hs => hs ▸ rfl)
  apply Advances.andThen (I := (· = r.data))
    (J := (· = (r.data.assignAll (some []) r.environment.serverValues).1))
    (K := Node.LinkFree) (E := fun _ => False)
  · apply advances_assignAll _ (proper_serverValues r.environment)
    · rintro n rfl
      rfl
    · rintro n rfl
      exact h
  intro _
  apply Advances.andThen (J := fun n => n.LinkFree ∧ n.value? contentTypeName = r.contentType?)
  · apply advances_assignAll _ (proper_headers r.environment)
    · rintro n rfl
      exact ⟨assignAll_linkFree (assignAll_linkFree h _) _, value?_contentType h r.environment⟩
    · rintro n rfl
      exact assignAll_linkFree h _
  intro _
  apply Advances.andThen (advances_storeContentType hr)
  intro _
  apply Advances.andThen advances_storeCookies
  intro _
  apply Advances.reads
  intro s _
  cases s.data.value? "CGI.QueryString" with
  | none => exact .stays
  | some query => exact Couples.through fun i _ => advances_storeItem i

end Success

theorem storing_stops {r : Request} {α : Type} {change : Node → Node × Except DataFault α}
    {e : DataFault}
    (h : (change r.data).2 = .error e) : (storing change r).1 = .error e.failure := by
  have hc : change r.data = ((change r.data).1, .error e) := Prod.ext rfl h
  rw [storing, bind_of_ok (get_apply r), hc]
  rfl

theorem setUp_error {r} (h : r.data.LinkFree) {name}
    (hr : r.contentType?.bind refusedPart? = some name) :
    (setUp r).1 = .error (DataFault.emptyComponent name).failure := by
  obtain ⟨type, ht, hn⟩ := bind_eq_some_iff.mp hr
  have hs := assignAll_linkFree h r.environment.serverValues
  have hse := storing_run (Prod.ext rfl (assignAll_accepted h (proper_serverValues r.environment)))
  have hh := storing_run (r := { r with data := _ })
    (Prod.ext rfl (assignAll_accepted hs (proper_headers r.environment)))
  rw [setUp, bind_of_ok (get_apply r), bind_of_ok hse, bind_of_ok hh]
  apply bind_fst_of_error
  have hp := assignAll_parts (assignAll_linkFree hs (settings r.environment)) type
  rw [hn] at hp
  rw [storeContentType, bind_of_ok (get_apply _), (value?_contentType h r.environment).trans ht]
  exact storing_stops hp

/-- Whatever the headers, the query and the cookies of a request are, its set-up succeeds, unless an
attribute of the content type has a name that the tree refuses. Then the set-up fails at the first
of them. -/
theorem setUp_result (r : Request) (h : r.data.LinkFree) :
    (setUp r).1 = (r.contentType?.bind refusedPart?).elim (.ok ()) fun name =>
      .error (DataFault.emptyComponent name).failure := by
  cases hrefused : r.contentType?.bind refusedPart? with
  | none => exact setUp_ok h hrefused
  | some name => exact setUp_error h hrefused

/-- Odd names of cookies and fields are no reason to fail. -/
theorem setUp_result_odd_names : (setUp {
      data := .root
      environment := [(ascii "CONTENT_TYPE", ascii "text/html; a.b=1; c"),
        (ascii "HTTP_COOKIE", ascii "..=1; =; a..b=2"),
        (ascii "HTTP_", ascii "x"), (ascii "QUERY_STRING", ascii ".=1&..&=&a..b=%&a.=")]
      ignoresEmpty := false
      lines := ⟨⟨[], 0⟩, none, [], false, 0, 0, fun _ _ => false⟩ }).1 = .ok () := by
  rw [setUp_result _ (linkFree_empty [])]
  have hrefused : refusedPart? (ascii "text/html; a.b=1; c") = none := by decide +kernel
  exact congrArg (fun refused => Option.elim refused (Except.ok ()) fun name =>
    .error (DataFault.emptyComponent name).failure) hrefused

/-- An attribute without a name is one. -/
theorem setUp_nameless_attribute : (setUp {
      data := .root
      environment := [(ascii "CONTENT_TYPE", ascii "text/html; =x")]
      ignoresEmpty := false
      lines := ⟨⟨[], 0⟩, none, [], false, 0, 0, fun _ _ => false⟩ }).1 =
        .error (DataFault.emptyComponent (ascii "CGI.ContentType.")).failure := by decide +kernel

end Request

end TemplateKit
