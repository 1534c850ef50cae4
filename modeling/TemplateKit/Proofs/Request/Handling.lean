import TemplateKit.Proofs.Bytes.Basic
import TemplateKit.Proofs.Data.Outside
import TemplateKit.Proofs.Program
import TemplateKit.Request.Basic

/-!
# The handling of a request step by step

The set-up of a request is a row of assignments: to names that the server knows, to names made of
headers, and to names that the client chose, all of which start with one of three words. A property
of the data tree that each of these keeps holds after the set-up, whether it succeeds or not.

Many names of headers become one name of the data tree. They become letters and digits, so a header
is one component below `HTTP`; and only a header that is called so, in whatever case, becomes the
host.
-/

namespace TemplateKit

open Bytes

namespace Header

def subtree : Bytes := "HTTP"

theorem isAlnum_of_mem_mixedCase {capital s b} (h : b ∈ mixedCase capital s) :
    Ascii.isAlnum b = true := by
  induction s generalizing capital with
  | nil => cases h
  | cons c s ih =>
    rw [mixedCase] at h
    split at h
    · next hc =>
      rcases List.mem_cons.mp h with rfl | hmem
      · split
        · exact byte_imp (q := (Ascii.isAlnum <| Ascii.toUpper ·)) (by decide +kernel) hc
        · exact byte_imp (q := (Ascii.isAlnum <| Ascii.toLower ·)) (by decide +kernel) hc
      · exact ih hmem
    · exact ih h

theorem isAlnum_of_mem_treeName {name b} (h : b ∈ treeName name) : Ascii.isAlnum b = true := by
  unfold treeName at h
  dsimp only at h
  split at h
  · cases h
  · exact isAlnum_of_mem_mixedCase (List.mem_of_mem_take h)

/-- Whatever else collapses to the host has no name. -/
theorem equalsNoCase_of_treeName {name} (h : treeName name = host) :
    equalsNoCase name host = true := by
  unfold treeName at h
  dsimp only at h
  split at h
  · cases h
  · next hc =>
    rw [h] at hc
    have hh : equalsNoCase host host = true := by decide
    simpa [hh] using hc

theorem dot_not_mem_treeName (name : Bytes) : dot ∉ treeName name := by
  intro h
  have hdot := isAlnum_of_mem_treeName h
  revert hdot
  decide

/-- The value of a header that is called the host and looks like one. -/
def IsHostOf (e : Environment) (v : Bytes) : Prop :=
  ∃ name, (lead ++ name, v) ∈ e ∧ equalsNoCase name host = true ∧ isHost v = true

/-- What the names of headers are in the data tree: one component below `HTTP`, with a single
exception. -/
theorem mem_settings {e p} (hp : p ∈ settings e) :
    ∃ c rest, components p.1 = subtree :: c :: rest ∧ [] ∉ c :: rest ∧
      (c = host → rest = [] ∧ IsHostOf e p.2) := by
  rcases List.mem_append.mp hp with hso | hh
  · obtain ⟨value, -, rfl⟩ := Option.map_eq_some_iff.mp (Option.mem_toList.mp hso)
    have hn : components "HTTP.Soap.Action" = [subtree, "Soap", "Action"] := by decide
    have ho : "Soap" ≠ host := by decide
    exact ⟨"Soap", ["Action"], hn, by decide, fun hho => absurd hho ho⟩
  · obtain ⟨q, hq, hs⟩ := List.mem_filterMap.mp hh
    obtain ⟨name, hn, hs⟩ := Option.bind_eq_some_iff.mp hs
    have hv : q.1 = lead ++ name := eq_append_of_dropPrefix? hn
    dsimp only at hs
    split at hs
    · cases hs
    · next hst =>
      cases hs
      rw [Bool.or_eq_true, not_or, Bool.and_eq_true, not_and, beq_iff_eq] at hst
      obtain ⟨hne, hva⟩ := hst
      refine ⟨treeName name, [], ?_, ?_, ?_⟩
      · have hj : "HTTP." ++ treeName name = subtree ++ dot :: treeName name := rfl
        rw [hj, components_eq_splitByte (by simp), splitByte_append_sep,
          splitByte_of_not_mem (dot_not_mem_treeName name)]
        rfl
      · simpa using Ne.symm hne
      · intro hho
        refine ⟨rfl, name, hv ▸ hq, equalsNoCase_of_treeName hho, ?_⟩
        simpa using hva hho

end Header

/-! ## The set-up -/

theorem head?_components {c} (hc : dot ∉ c) (s : Bytes) :
    (components (c ++ dot :: s)).head? = some c := by
  rw [components_eq_splitByte (by simp), Bytes.splitByte_append_sep, Bytes.splitByte_of_not_mem hc]
  rfl

namespace Node

variable {I : Node → Prop}

/-- What every single assignment keeps is kept by a row of them, also where one is refused. -/
theorem assignAll_keeps {settings} (h : ∀ p ∈ settings, ∀ n, I n → I (n.set p.1 (some p.2)).1) {n}
    (hn : I n) :
    I (n.assignAll (some []) settings).1 := by
  induction settings generalizing n with
  | nil => exact hn
  | cons p more ih =>
    have ha : n.assignTo (some []) (some p.1) { value := some p.2 } = n.set p.1 (some p.2) := rfl
    have hf : I (n.set p.1 (some p.2)).1 := h p List.mem_cons_self n hn
    simp only [assignAll, ha]
    generalize n.set p.1 (some p.2) = result at hf
    obtain ⟨n', e⟩ := result
    cases e with
    | ok address => exact ih (fun q hq => h q (List.mem_cons_of_mem p hq)) hf
    | error e => exact hf

theorem assignEach_keeps {start} (h : ∀ name value n, I n → I (n.assignAt start name { value }).1)
    (settings : List (Bytes × Bytes)) {n} (hn : I n) : I (n.assignEach (some start) settings) := by
  induction settings generalizing n with
  | nil => exact hn
  | cons p more ih => exact ih (h p.1 (some p.2) n hn)

theorem assignEach_none (settings : List (Bytes × Bytes)) (n : Node) :
    assignEach none settings n = n := by
  induction settings with
  | nil => rfl
  | cons p more ih => exact ih

end Node

namespace Request

/-- From data with `I` a step leads to data with `J`, or it fails and leaves data with `E`. -/
abbrev Advances {α : Type} (I : Node → Prop) (step : Handling α) (J E : Node → Prop) : Prop :=
  After (fun r => I r.data) step (fun _ r => J r.data) (fun r => E r.data)

namespace Advances

variable {α β : Type} {I J K E : Node → Prop}

theorem returns {a : α} (h : ∀ n, I n → J n) : Advances I (pure a) J E :=
  Couples.returns fun r => h r.data

/-- What follows knows the data that were looked at. -/
theorem looks {f : Request → Handling α}
    (h : ∀ r, I r.data → Advances (fun n => n = r.data ∧ I n) (f r) J E) :
    Advances I (get >>= f) J E := by
  apply Couples.looks
  intro r hr
  apply (h r hr).pre
  rintro _ rfl
  exact ⟨rfl, hr⟩

theorem reads {f : Request → Handling α} (h : ∀ r, I r.data → Advances I (f r) J E) :
    Advances I (get >>= f) J E :=
  looks fun r hr => (h r hr).pre fun _ hs => hs.2

theorem andThen {step : Handling α} {f : α → Handling β} (hs : Advances I step J E)
    (hf : ∀ a, Advances J (f a) K E) :
    Advances I (step >>= f) K E := Couples.andThen hs hf

theorem modifies {f} (hf : ∀ r, I r.data → J (f r).data) : Advances I (modify f) J E :=
  Couples.changes hf

theorem stores {change : Node → Node × Except DataFault α}
    (hok : ∀ n a, I n → (change n).2 = .ok a → J (change n).1)
    (he : ∀ n e, I n → (change n).2 = .error e → E (change n).1) :
    Advances I (storing change) J E := by
  apply Couples.looks
  intro r hr
  have hok := hok r.data
  have he := he r.data
  generalize change r.data = changed at hok he
  obtain ⟨data, result⟩ := changed
  apply Couples.andThen (Q := fun _ s => s.data = data) (Couples.sets fun _ _ => rfl)
  intro _
  cases result with
  | ok a => exact Couples.returns fun s hs => hs ▸ hok a hr rfl
  | error e => exact Couples.stops fun s hs => hs ▸ he e hr rfl

end Advances

/-- The words that the names start with under which the client and the server store what they like.
-/
def openNames : List Bytes := ["CGI", "Cookie", "Query"]

/-- A property `I` of the data tree that the set-up of a request in an environment keeps. The names
that are chosen freely start with words that have the property `p`. -/
structure Steady (p : Bytes → Prop) (e : Environment) (I : Node → Prop) : Prop where
  isOpen : ∀ c ∈ openNames, p c
  header : ∀ q ∈ Header.settings e, ∀ n, I n → I (n.set q.1 (some q.2)).1
  assign : ∀ (start : Address) (name : Bytes), StartsIn p (start ++ components name) →
    ∀ value n, I n → I (n.assignAt start name { value }).1
  locate : ∀ {name : Bytes} {n : Node} {there : Located}, StartsIn p (components name) → I n →
    n.locate? [] name = some there → StartsIn p there.address

namespace Steady

variable {p : Bytes → Prop} {e : Environment} {I : Node → Prop}

theorem storing_assignAll {settings} (h : ∀ q ∈ settings, ∀ n, I n → I (n.set q.1 (some q.2)).1) :
    Advances I (storing (Node.assignAll (some []) settings)) I I :=
  .stores (fun _ _ hn _ => Node.assignAll_keeps h hn) fun _ _ hn _ => Node.assignAll_keeps h hn

section

variable (h : Steady p e I)

include h

/-- Names that are cut to the room for them start with the same word. -/
theorem startsIn_taken {c} (hc : c ∈ openNames) (s : Bytes) :
    StartsIn p (components ((c ++ dot :: s).take nameRoom)) := by
  have hall : ∀ c ∈ openNames, dot ∉ c ∧ c.length < nameRoom := by decide
  obtain ⟨k, hk⟩ := Nat.exists_eq_add_of_lt (hall c hc).2
  rw [hk, Nat.add_assoc, List.take_length_add_append]
  exact ⟨c, head?_components (hall c hc).1 _, h.isOpen c hc⟩

theorem startsIn_fieldName (name : Bytes) : StartsIn p (components (fieldName name)) :=
  h.startsIn_taken (c := "Query") (by decide) name

theorem set {name} (hna : StartsIn p (components name)) (value : Option Bytes) {n}
    (hn : I n) : I (n.set name value).1 := h.assign [] name hna value n hn

theorem storing_assignAt {start} (hs : StartsIn p start) (name : Bytes)
    (value : Option Bytes) :
    Advances I (storing (·.assignTo (some start) (some name) { value })) I I := by
  have ha : ∀ n, I n → I (n.assignAt start name { value }).1 :=
    h.assign start name (hs.append _) value
  exact .stores (fun n _ hn _ => ha n hn) fun n _ hn _ => ha n hn

theorem storing_serverValues (e' : Environment) :
    Advances I (storing (Node.assignAll (some []) e'.serverValues)) I I := by
  apply storing_assignAll
  intro q hq n hn
  obtain ⟨⟨name, treeName⟩, -, hv⟩ := List.mem_filterMap.mp hq
  obtain ⟨value, -, rfl⟩ := Option.map_eq_some_iff.mp hv
  exact h.set ⟨_, head?_components (by decide) (ascii treeName),
    h.isOpen "CGI" (by decide)⟩ (some value) hn

theorem storeContentType : Advances I storeContentType I I := by
  apply Advances.reads
  intro r _
  cases r.data.value? contentTypeName with
  | none => exact .stays
  | some type =>
    apply storing_assignAll
    intro q hq n hn
    obtain ⟨⟨name, value⟩, -, rfl⟩ := List.mem_map.mp hq
    exact h.set (h.startsIn_taken (c := "CGI") (by decide) ("ContentType" ++ dot :: name))
      (some value) hn

theorem storeCookies : Advances I storeCookies I I := by
  have hna : StartsIn p (components cookieName) :=
    ⟨cookieName, by decide, h.isOpen cookieName (by decide)⟩
  apply Advances.reads
  intro r _
  cases r.data.value? "HTTP.Cookie" with
  | none => exact .stays
  | some header =>
    apply Advances.andThen (J := I)
    · exact .stores (fun _ _ hn _ => h.set hna _ hn) fun _ _ hn _ => h.set hna _ hn
    · intro _
      apply Advances.modifies
      intro s hn
      cases ht : s.data.locate? [] cookieName with
      | none => rwa [Option.map_none, Node.assignEach_none]
      | some there =>
        have hs := h.locate hna hn ht
        exact Node.assignEach_keeps (fun name => h.assign _ name (hs.append _))
          (Cookie.parse header) hn

theorem collect {name} (hna : StartsIn p (components name)) (value : Bytes) :
    Advances I (collect name value) I I := by
  apply Advances.reads
  intro r hr
  dsimp only
  cases ht : r.data.locate? [] name with
  | none => exact .stays
  | some there =>
    have ha := h.storing_assignAt (h.locate hna hr ht)
    dsimp only
    split
    · exact .andThen (ha _ _) fun _ => ha _ _
    · exact .andThen (ha _ _) fun _ => ha _ _
    · exact ha _ _

theorem storeItem (i : QueryItem) : Advances I (storeItem i) I I := by
  apply Advances.reads
  intro r _
  split
  · exact .stays
  · apply Advances.andThen (h.collect (h.startsIn_fieldName i.name) i.value)
    intro _
    exact .modifies fun _ hn => h.set (h.startsIn_fieldName i.name) (some i.value) hn

end

theorem setUp {r} (h : Steady p r.environment I) (hr : I r.data) :
    Ends (fun _ s => I s.data) (fun s => I s.data) (setUp r) := by
  suffices hrun : After (· = r) Request.setUp (fun _ s => I s.data) (fun s => I s.data)
      from (hrun r rfl).2
  apply Couples.looks
  rintro _ rfl
  apply Couples.pre (P := fun s => I s.data) _ (fun s hs => hs ▸ hr)
  apply Advances.andThen (h.storing_serverValues _)
  intro _
  apply Advances.andThen (storing_assignAll h.header)
  intro _
  apply Advances.andThen h.storeContentType
  intro _
  apply Advances.andThen h.storeCookies
  intro _
  apply Advances.reads
  intro s _
  cases s.data.value? "CGI.QueryString" with
  | none => exact .stays
  | some query => exact Couples.through fun i _ => h.storeItem i

end Steady

/-!
## What the set-up of a request leaves alone

The client chooses names: those of headers, of cookies, of the attributes of a content type and of
the fields of a form. Whatever it chooses, in a tree without links all of them end up below four
names of the first level, and the rest of the tree stays as it was.
-/

variable {base : Node}

/-- The names of the first level below which everything goes that comes with a request. -/
def subtrees : List Bytes := ["CGI", "HTTP", "Cookie", "Query"]

/-- Nothing but the subtrees of a request has been changed. -/
def Untouched (base : Node) (r : Request) : Prop :=
  base.SameOutside subtrees r.data ∧ r.data.LinkFree

/-- Without links every name leads into the subtree of its first component. -/
theorem steady_sameOutside (base : Node) (e : Environment) :
    Steady (· ∈ subtrees) e fun n => base.SameOutside subtrees n ∧ n.LinkFree := by
  have ha : ∀ (start : Address) (name : Bytes), StartsIn (· ∈ subtrees) (start ++ components name) →
      ∀ (value : Option Bytes) (n : Node), base.SameOutside subtrees n ∧ n.LinkFree →
        base.SameOutside subtrees (n.assignAt start name { value }).1 ∧
        (n.assignAt start name { value }).1.LinkFree := by
    rintro start name ⟨c, hh, hc⟩ value n ⟨hs, hf⟩
    exact ⟨hs.trans (Node.assignAt_sameOutside hf hc hh), Node.assignAt_linkFree hf rfl start name⟩
  refine ⟨by decide, ?_, ha, ?_⟩
  · intro p hp n hn
    obtain ⟨c, rest, hna, -⟩ := Header.mem_settings hp
    exact ha [] p.1 ⟨Header.subtree, by rw [hna]; rfl, by decide⟩ (some p.2) n hn
  · intro name n there hna hn ht
    rw [Node.locate?_of_linkFree hn.2] at ht
    obtain ⟨m, -, rfl⟩ := Option.map_eq_some_iff.mp ht
    exact hna

/-- Whatever a client sends, the set-up of its request changes nothing but the subtrees of a
request. The configuration is what it was, whether the set-up succeeds or not. -/
theorem setUp_sameOutside (r : Request) (h : r.data.LinkFree) :
    r.data.SameOutside subtrees (setUp r).2.data ∧
      ∀ name, (components name).head? = some (ascii "Config") →
        (setUp r).2.data.value? name = r.data.value? name := by
  have hconfig : ascii "Config" ∉ subtrees := by decide
  have hends : Ends (fun _ => Untouched r.data) (Untouched r.data) (setUp r) :=
    (steady_sameOutside r.data r.environment).setUp ⟨.refl subtrees r.data, h⟩
  obtain ⟨hsame, hfree⟩ := hends.state
  refine ⟨hsame, ?_⟩
  intro name hname
  obtain ⟨path, hpath⟩ := List.head?_eq_some_iff.mp hname
  exact hsame.value? h hfree hpath hconfig

/-- A password of the configuration is not set by a query for its name. -/
theorem setUp_sameOutside_password : (setUp {
      data := ⟨[], none, false, [], [⟨ascii "Config", none, false, [], [
        ⟨ascii "DebugPassword", some (ascii "secret"), false, [], []⟩]⟩]⟩
      environment := [(ascii "QUERY_STRING", ascii "Config.DebugPassword=known"),
        (ascii "HTTP_COOKIE", ascii "..=1")]
      ignoresEmpty := false
      lines := ⟨⟨[], 0⟩, none, [], false, 0, 0, fun _ _ => false⟩ }).2.data.value?
        (ascii "Config.DebugPassword") =
        some (ascii "secret") := by
  refine (setUp_sameOutside _ ?_).2 (ascii "Config.DebugPassword") (by decide)
  refine ⟨rfl, List.forall_mem_singleton.mpr ⟨rfl, List.forall_mem_singleton.mpr ⟨rfl, ?_⟩⟩⟩
  exact fun _ h => absurd h List.not_mem_nil

end Request

end TemplateKit
