import TemplateKit.Proofs.Data.Graft
import TemplateKit.Proofs.Program
import TemplateKit.Template.Scope

/-!
# Looking up and assigning

Looking up a name can change a scope in one way: a local variable that stood for a missing node
keeps the node that is found. An assignment goes to a node, which is made where there is none, or to
a local variable.
-/

namespace TemplateKit.Scope

variable {I : Scope → Prop} {s : Scope} {create : Bool} {fuel visible k n : Nat}
  {name target : Bytes} {p : Place}

section Steps

/-- Keeps what was found for a variable. -/
def keep (s : Scope) (k : Nat) (target : Bytes) (n : Nat) : Except DataFault (Option Place) → Scope
  | .ok found => s.rebind k (.node found target n)
  | .error _ => s

/-- Goes on from what a variable stands for to a name below it. -/
def onward (create : Bool) (s : Scope) (rest : Option Bytes) :
    Except DataFault (Option Place) → Scope × Except DataFault (Option Place)
  | .ok (some p) =>
    match rest with
    | none => (s, .ok (some p))
    | some rest => s.below create p rest
  | found => (s, found)

/-- No variable that stands for a node is in the way of a name. -/
def Passes (s : Scope) (visible : Nat) (name : Bytes) : Prop :=
  ∀ k, s.position? visible name = some k →
    ∀ place target n, s.bindingAt? k ≠ some (.node place target n)

theorem passes_or (s : Scope) (visible : Nat) (name : Bytes) : s.Passes visible name ∨
    ∃ k place target n, s.position? visible name = some k ∧
      s.bindingAt? k = some (.node place target n) := by
  by_cases h : s.Passes visible name
  · exact .inl h
  · unfold Passes at h
    push Not at h
    obtain ⟨k, hk, place, target, n, hb⟩ := h
    exact .inr ⟨k, place, target, n, hk, hb⟩

theorem reach_nil : s.reach create fuel visible [] = (s, .ok none) := by
  cases fuel <;> rfl

theorem reach_passing (hn : name ≠ []) (h : s.Passes visible name) :
    s.reach create (fuel + 1) visible name = s.inTrees create name := by
  rw [reach, if_neg (by simpa using hn)]
  split
  · rfl
  · next k hk =>
    split
    · next place target n hb => exact absurd hb (h k hk place target n)
    · rfl

theorem reach_found {rest} (hn : name ≠ []) (hk : s.position? visible name = some k)
    (hb : s.bindingAt? k = some (.node (some p) target n)) (hr : afterFirst? name = rest) :
    s.reach create (fuel + 1) visible name = s.onward create rest (.ok (some p)) := by
  subst hr
  rw [reach, if_neg (by simpa using hn)]
  simp only [hk, hb]
  cases afterFirst? name with
  | none => rfl
  | some rest => rfl

theorem reach_open (hn : name ≠ []) (hk : s.position? visible name = some k)
    (hb : s.bindingAt? k = some (.node none target n)) : s.reach create (fuel + 1) visible name =
      ((s.reach create fuel n target).1.keep k target n (s.reach create fuel n target).2).onward
        create
        (afterFirst? name) (s.reach create fuel n target).2 := by
  rw [reach, if_neg (by simpa using hn)]
  simp only [hk, hb]
  obtain ⟨s', found⟩ := s.reach create fuel n target
  cases found with
  | error e => rfl
  | ok place =>
    cases place with
    | none => rfl
    | some p =>
      cases afterFirst? name with
      | none => rfl
      | some rest => rfl

/-- Every way in which a name is reached. -/
theorem reach_step (create : Bool) (fuel : Nat) (s : Scope) (visible : Nat) (name : Bytes) :
    s.reach create (fuel + 1) visible name = (s, .ok none) ∧ name = [] ∨
      name ≠ [] ∧ (s.Passes visible name ∧ s.reach create (fuel + 1) visible name =
        s.inTrees create name ∨
        (∃ k p target n, s.position? visible name = some k ∧
          s.bindingAt? k = some (.node (some p) target n) ∧
          s.reach create (fuel + 1) visible name =
            s.onward create (afterFirst? name) (.ok (some p))) ∨
        ∃ k target n, s.position? visible name = some k ∧
          s.bindingAt? k = some (.node none target n) ∧
          s.reach create (fuel + 1) visible name =
            ((s.reach create fuel n target).1.keep k target n
              (s.reach create fuel n target).2).onward create
              (afterFirst? name) (s.reach create fuel n target).2) := by
  by_cases hn : name = []
  · subst hn
    exact .inl ⟨reach_nil, rfl⟩
  · refine .inr ⟨hn, ?_⟩
    rcases s.passes_or visible name with hp | ⟨k, place, target, n, hk, hb⟩
    · exact .inl ⟨hp, reach_passing hn hp⟩
    · cases place with
      | some p => exact .inr (.inl ⟨k, p, target, n, hk, hb, reach_found hn hk hb rfl⟩)
      | none => exact .inr (.inr ⟨k, target, n, hk, hb, reach_open hn hk hb⟩)

end Steps

section Reach

variable (hbelow : create = true → ∀ s p name, I s → I (s.below true p name).1)

include hbelow

theorem below_keeps (h : I s) (p : Place) (name : Bytes) : I (s.below create p name).1 := by
  cases create with
  | true => exact hbelow rfl s p name h
  | false =>
    unfold below
    split <;> exact h

theorem inTrees_keeps (h : I s) (name : Bytes) : I (s.inTrees create name).1 := by
  unfold inTrees
  split
  · exact h
  · split
    · next hc => exact hbelow hc s _ name h
    · exact h

theorem onward_keeps (h : I s) (rest : Option Bytes) (found : Except DataFault (Option Place)) :
    I (s.onward create rest found).1 := by
  cases found with
  | error e => exact h
  | ok place =>
    cases place with
    | none => exact h
    | some p =>
      cases rest with
      | none => exact h
      | some rest => exact below_keeps hbelow h p rest

/-- A name is reached through local variables that find their nodes, one through the other. -/
theorem reach_keeps (hre : ∀ s k p target seen, I s → I (s.rebind k (.node p target seen)))
    (fuel : Nat) (h : I s)
    (visible : Nat) (name : Bytes) : I (s.reach create fuel visible name).1 := by
  induction fuel generalizing visible name with
  | zero => exact h
  | succ fuel ih =>
    rcases reach_step create fuel s visible name with
      ⟨hr, -⟩ | ⟨-, ⟨-, hr⟩ | ⟨k, p, target, n, -, -, hr⟩ | ⟨k, target, n, -, -, hr⟩⟩
    · rw [hr]
      exact h
    · rw [hr]
      exact inTrees_keeps hbelow h name
    · rw [hr]
      exact onward_keeps hbelow h _ _
    · have hi := ih n target
      rw [hr]
      generalize s.reach create fuel n target = inner at hi
      obtain ⟨s', found⟩ := inner
      apply onward_keeps hbelow
      cases found with
      | error e => exact hi
      | ok place => exact hre s' k place target n hi

end Reach

section Uses

def beneath? (s : Scope) (p : Place) : Option Bytes → Option Place
  | none => some p
  | some rest => ((s.tree? p.tree).bind (·.locate? p.address rest)).map fun there =>
    ⟨p.tree, there.address⟩

/-- The node with a name in the trees. -/
def seek? (s : Scope) (name : Bytes) : Option Place :=
  (s.beneath? ⟨.data, []⟩ (some name)).or (s.beneath? ⟨.globals, []⟩ (some name))

theorem onward_eq (s : Scope) (rest : Option Bytes) (place : Option Place) :
    s.onward false rest (.ok place) = (s, .ok (place.bind (s.beneath? · rest))) := by
  cases place with
  | none => rfl
  | some p =>
    cases rest with
    | none => rfl
    | some rest =>
      simp only [onward, below, Option.bind_some, beneath?]
      cases s.tree? p.tree <;> rfl

theorem inTrees_eq (s : Scope) (name : Bytes) : s.inTrees false name = (s, .ok (s.seek? name)) := by
  simp only [inTrees, seek?, beneath?, tree?, Option.bind_some]
  cases s.data.locate? [] name <;> rfl

theorem reach_false (fuel : Nat) (s : Scope) (visible : Nat) (name : Bytes) :
    ∃ s' q, s.reach false fuel visible name = (s', .ok q) := by
  induction fuel generalizing visible name with
  | zero => exact ⟨s, none, rfl⟩
  | succ fuel ih =>
    rcases reach_step false fuel s visible name with
      ⟨hr, rfl⟩ | ⟨-, ⟨-, hr⟩ | ⟨k, p, target, n, -, -, hr⟩ | ⟨k, target, n, -, -, hr⟩⟩
    · exact ⟨s, none, hr⟩
    · exact ⟨s, _, hr.trans (inTrees_eq s name)⟩
    · exact ⟨s, _, hr.trans (onward_eq s _ (some p))⟩
    · obtain ⟨s', q, hi⟩ := ih n target
      rw [hr, hi]
      exact ⟨_, _, onward_eq _ _ q⟩

/-- The node that a name refers to, made if `create` says so. -/
def resolve (create : Bool) (s : Scope) (name : Bytes) : Scope × Except DataFault (Option Place) :=
  s.reach create (s.locals.length + 1) s.locals.length name

theorem findPlace_eq {s' q} (h : s.resolve false name = (s', .ok q)) :
    Scope.findPlace name s = (q, s') := by
  unfold resolve at h
  rw [Scope.findPlace, h]

theorem findPlace_keeps (h : I (s.resolve false name).1) : I (Scope.findPlace name s).2 := by
  obtain ⟨s', q, hq⟩ := reach_false (s.locals.length + 1) s s.locals.length name
  rw [resolve, hq] at h
  rw [findPlace_eq hq]
  exact h

theorem value_passing {W : Option Bytes × Trust → Prop} (h : s.Passes s.locals.length name)
    (hte : ∀ k v trust assigned, s.bindingAt? k = some (.text v trust assigned) → W (v, trust))
    (hn : ∀ n : Int64, W (some (Numeral.ofInt n.toInt), .trusted)) (ht : W (s.valueInTrees name)) :
    ∃ w, Scope.value name s = (w, s) ∧ W w := by
  have hget : ∀ f : Scope → StateM Scope (Option Bytes × Trust), (get >>= f) s = f s s :=
    fun _ => rfl
  rw [Scope.value, hget]
  cases hk : s.position? s.locals.length name with
  | none => exact ⟨_, rfl, ht⟩
  | some k =>
    dsimp only
    cases hb : s.bindingAt? k with
    | none => exact ⟨_, rfl, ht⟩
    | some b =>
      cases b with
      | text v trust assigned => exact ⟨_, rfl, hte k v trust assigned hb⟩
      | number n => exact ⟨_, rfl, hn n⟩
      | node place target n => exact absurd hb (h k hk place target n)

/-- The node that a variable stands for; one that is found only now is kept. -/
inductive Standing (s : Scope) (k : Nat) (target : Bytes) (n : Nat) :
    Option Place → Scope → Option Place → Prop
  | known (p : Place) : Standing s k target n (some p) s (some p)
  | found {s' : Scope} {found : Option Place}
      (hreach : s.reach false (s.locals.length + 1) n target = (s', .ok found)) :
      Standing s k target n none (s'.rebind k (.node found target n)) found

theorem value_node (hk : s.position? s.locals.length name = some k) {place}
    (hb : s.bindingAt? k = some (.node place target n)) : ∃ s' found q,
    Standing s k target n place s' found ∧
      s'.onward false (afterFirst? name) (.ok found) = (s', .ok q) ∧
      Scope.value name s = (s'.valueAt q, s') := by
  obtain ⟨s', found, hf⟩ : ∃ s' found, Standing s k target n place s' found := by
    cases place with
    | some p => exact ⟨s, some p, .known p⟩
    | none =>
      obtain ⟨s', found, hr⟩ := reach_false (s.locals.length + 1) s n target
      exact ⟨_, found, .found hr⟩
  obtain ⟨q, hq⟩ : ∃ q, s'.onward false (afterFirst? name) (.ok found) = (s', .ok q) :=
    ⟨_, onward_eq ..⟩
  refine ⟨s', found, q, hf, hq, ?_⟩
  have hget : ∀ f : Scope → StateM Scope (Option Bytes × Trust), (get >>= f) s = f s s :=
    fun _ => rfl
  rw [Scope.value, hget]
  simp only [hk, hb]
  cases hf with
  | known p =>
    cases hre : afterFirst? name with
    | none =>
      rw [hre] at hq
      cases hq
      rfl
    | some rest =>
      rw [hre, onward] at hq
      simp only [Option.map_some, hq]
      rfl
  | found hr =>
    simp only [hr]
    cases hre : afterFirst? name with
    | none =>
      rw [hre] at hq
      cases found with
      | none | some =>
        cases hq
        rfl
    | some rest =>
      cases found with
      | none =>
        cases hq
        rfl
      | some p =>
        rw [hre, onward] at hq
        simp only [Option.map_some, hq]
        rfl

end Uses

/-- A property that looking up names keeps. -/
structure KeptByFinding (I : Scope → Prop) : Prop where
  findPlace : ∀ name, Yields I (Scope.findPlace name) (fun _ s => I s)
  lookup : ∀ name, Yields I (Scope.value name) (fun _ s => I s)

theorem KeptByFinding.and (hI : KeptByFinding I) (p : Prop) : KeptByFinding fun s => I s ∧ p :=
  ⟨fun name s hs => ⟨hI.findPlace name s hs.1, hs.2⟩,
    fun name s hs => ⟨hI.lookup name s hs.1, hs.2⟩⟩

theorem KeptByFinding.int (hI : KeptByFinding I) (name : Bytes) :
    Yields I (Scope.int name) (fun _ s => I s) := by
  refine Yields.andThen (hI.lookup name) fun _ => ?_
  exact .stays

/-- A property that is kept when any local variable gets a node. -/
def KeptByRebinding (I : Scope → Prop) : Prop :=
  ∀ s k p target seen, I s → I (s.rebind k (.node p target seen))

theorem KeptByRebinding.reach (hI : KeptByRebinding I) {s} (h : I s) (fuel visible : Nat)
    (name : Bytes) :
    I (s.reach false fuel visible name).1 := by
  apply reach_keeps
  · intro hc
    cases hc
  · exact hI
  · exact h

/-- The value of a name comes from a local variable or from a node. -/
theorem KeptByRebinding.value {W : Option Bytes × Trust → Prop} (hI : KeptByRebinding I)
    (hte : ∀ s k v trust assigned, I s → s.bindingAt? k = some (.text v trust assigned) →
      W (v, trust))
    (hn : ∀ n : Int64, W (some (Numeral.ofInt n.toInt), .trusted))
    (hpl : ∀ s p, I s → W (s.valueAt p))
    (ht : ∀ s name, I s → W (s.valueInTrees name)) (name : Bytes) :
    Yields I (Scope.value name) (fun p s => W p ∧ I s) := by
  intro s hs
  rcases s.passes_or s.locals.length name with hp | ⟨k, place, target, n, hk, hb⟩
  · obtain ⟨w, hw, hW⟩ :=
      value_passing hp (fun k v trust assigned hb => hte s k v trust assigned hs hb) hn
      (ht s name hs)
    rw [hw]
    exact ⟨hW, hs⟩
  · obtain ⟨s', found, q, hf, -, hv⟩ := value_node hk hb
    rw [hv]
    have hs' : I s' := by
      cases hf with
      | known p => exact hs
      | found hr =>
        have he := hI.reach hs (s.locals.length + 1) n target
        rw [hr] at he
        exact hI _ k _ target n he
    exact ⟨hpl s' q hs', hs'⟩

theorem KeptByRebinding.finding (hI : KeptByRebinding I) : KeptByFinding I where
  findPlace name s hs := findPlace_keeps (hI.reach hs _ _ name)
  lookup name := by
    intro s hs
    have hv : Yields I (Scope.value name) (fun _ s => True ∧ I s) :=
      hI.value (fun _ _ _ _ _ _ _ => trivial) (fun _ => trivial) (fun _ _ _ => trivial)
        (fun _ _ _ => trivial) name
    exact (hv s hs).2

def received (tracking : Int32) (v : Option Bytes) (trust : Trust) (n : Node) : Node :=
  { n with
    value := v
    isLink := false
    attributes := if tracking = 0 then n.attributes
      else Attribute.set n.attributes Trust.attributeKey (some trust.word) }

theorem assignPlace_data (s : Scope) (address : Address) (name : Bytes) (owner v : Option Bytes)
    (trust : Trust) :
    (s.assignPlace ⟨.data, address⟩ name owner v trust).1 =
      { s with data := s.data.modify address (received s.tracking v trust) } := by
  have hr : ((if s.tracking = 0 then s.data
      else (s.data.setAttributeAt address [] Trust.attributeKey (some trust.word)).1).assignAt
        address [] { value := v }).1 = s.data.modify address (received s.tracking v trust) := by
    by_cases ht : s.tracking = 0
    · rw [if_pos ht, Node.assignAt_nil]
      congr 1
      funext n
      simp [Node.assign, received, ht]
    · have hn : ∀ n : Node, ({ n with
          attributes := Attribute.set n.attributes Trust.attributeKey (some trust.word) } :
            Node).name = n.name :=
        fun _ => rfl
      rw [if_neg ht, Node.setAttributeAt_nil, Node.assignAt_nil, Node.modify_modify hn]
      congr 1
      funext n
      simp [Node.assign, received, ht]
  rw [← hr]
  unfold Scope.assignPlace
  simp only [tree?]
  generalize (if s.tracking = 0 then s.data
    else (s.data.setAttributeAt address [] Trust.attributeKey (some trust.word)).1).assignAt address
      [] { value := v } = last
  obtain ⟨root, result⟩ := last
  cases result <;> rfl

/-- An assignment to a name that stands for a node. -/
def assignNode (s : Scope) (name : Bytes) (v : Option Bytes) (trust : Trust)
    (owner : Option Bytes) :
    Scope × Except Failure Unit :=
  match s.reach true (s.locals.length + 1) s.locals.length name with
  | (s, .error e) => (s, .error e.failure)
  | (s, .ok none) =>
    (s, .error (.raise .memory ("Unable to allocate memory to create node " ++ name)))
  | (s, .ok (some p)) => s.assignPlace p name owner v trust

theorem assign_cases (s : Scope) (name : Bytes) (v : Option Bytes) (trust : Trust) :
    s.assign name v trust = (s, .ok ()) ∨
      (∃ k, s.assign name v trust = (s.rebind k (.text (some (v.getD [])) trust v.isSome), .ok ()) ∧
        ∀ place target seen, s.bindingAt? k ≠ some (.node place target seen)) ∨
      ∃ owner, s.assign name v trust = s.assignNode name v trust owner := by
  unfold assign
  dsimp only
  split
  · exact .inl rfl
  · split
    · exact .inr (.inr ⟨none, rfl⟩)
    · next k _ =>
      split
      · exact .inr (.inr ⟨_, rfl⟩)
      · next ho =>
        split
        · exact .inl rfl
        · refine .inr (.inl ⟨k, rfl, ?_⟩)
          intro place target seen hb
          obtain ⟨⟨owner, binding, isFirst, isLast⟩, hl, hbi⟩ := Option.map_eq_some_iff.mp hb
          obtain rfl : binding = .node place target seen := hbi
          exact ho _ _ _ _ _ _ hl

end TemplateKit.Scope
