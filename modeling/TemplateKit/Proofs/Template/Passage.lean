import TemplateKit.Proofs.Template.Parallel

/-!
# Reading the front of a text

Where neither an opening nor a command goes on in what follows, the commands of a text are carried
out before what follows is looked at. Carrying them out does not depend on where the text stands.
-/

namespace TemplateKit.Parse

open Program List Parse

variable {base : Footing} {D : Nat → Nat → Prop} {o o' : Nat} {r : ParserSettings}
  {text text' : Bytes → Parse Unit} {before before' : Reading}

variable {s : ParseState} {tag p : Bytes} {fuel : Nat}

/-- Carries out commands, each with the text in front of it. -/
def carry (text : Bytes → Parse Unit) (before : Reading) (cs : List Stretch) : Parse Unit :=
  cs.forM (piece text before)

theorem carry_cons (c : Stretch) (cs : List Stretch) :
    carry text before (c :: cs) = piece text before c >>= fun _ => carry text before cs := rfl

/-- The same commands with more text in front of the first one. -/
def prepend (q : Bytes) : List Stretch → List Stretch
  | [] => []
  | c :: cs => { c with front := q ++ c.front } :: cs

/-- The text that is still to be added after the commands were carried out. -/
def pending (q : Bytes) : List Stretch → Bytes
  | [] => q
  | _ :: _ => []

theorem prepend_nil (cs : List Stretch) : prepend [] cs = cs := by
  cases cs <;> rfl

theorem pending_nil (cs : List Stretch) : pending [] cs = [] := by
  cases cs <;> rfl

theorem piece_rest {c} (h : c.readsOn = false) (rest : Bytes) :
    piece text before { c with rest } = piece text before c := by
  have hi : inside text before c.word rest = inside text before c.word c.rest := by
    unfold inside
    split
    · rfl
    · cases hr : Command.read? c.word with
      | none => rfl
      | some found =>
        obtain ⟨command, arg⟩ := found
        cases arg with
        | cons b arg => rfl
        | nil =>
          have ha : command.standsAlone = true := by simpa [Stretch.readsOn, hr] using h
          cases command with
          | otherwise | endBranch | endEach | endWith | endDefine | endLoop | endAlt | endEscape =>
            rfl
          | _ => cases ha
  unfold piece
  rw [hi]

theorem levels_eq : Levels Eq where
  le h := Nat.le_of_eq h.symm
  succ h _ := congrArg (· + 1) h

theorem like_self (h : s.whereabouts.reading.stop = none) :
    s.Like ⟨[], s.logName⟩ Eq True s.whereabouts.reading.offset s.whereabouts.reading.offset s :=
  { builder := .refl _, macros := rfl, scope := rfl, logName := rfl, logName' := rfl, depth := rfl
    reading := ⟨rfl, rfl, none, h, h, fun _ => rfl⟩ }

/-- Commands with arguments of their own, which fit between opening and closing. -/
def Settled (cs : List Stretch) : Prop := ∀ c ∈ cs, c.readsOn = false ∧ c.word.length + 2 ≤ c.size

theorem settled_outlineWithin {n} (h : ∀ c ∈ (outlineWithin tag n p).1, c.readsOn = false) :
    Settled (outlineWithin tag n p).1 := by
  induction n generalizing p with
  | zero => exact fun _ hc => absurd hc not_mem_nil
  | succ n ih =>
    rw [outlineWithin] at h ⊢
    cases hf : Stretch.first? tag p with
    | none => exact fun _ hc => absurd hc not_mem_nil
    | some c =>
      rw [hf] at h
      obtain ⟨hc, hcs⟩ := forall_mem_cons.mp h
      exact forall_mem_cons.mpr ⟨⟨hc, (Stretch.first?_eq hf).2⟩, ih hcs⟩

theorem settled_outline (h : ∀ c ∈ (outline tag p).1, c.readsOn = false) :
    Settled (outline tag p).1 :=
  settled_outlineWithin h

section Texts

variable (hauto : r.auto = {}) {m m' : Nat} (hm : m ≤ m')

include hauto hm

theorem simulates_carry (before before' : Reading) (hD : Levels D) {cs} (hcs : Settled cs)
    (o o' : Nat) (q : Bytes) :
    Simulates Stop.IsLimit (fun s s' => s.Like base D True o o' (s'.adding q))
      (carry (Parse.text m) before cs r) (carry (Parse.text m') before' (prepend q cs) r)
      (fun _ s _ s' => ∃ k k', s.Like base D True k k' (s'.adding (pending q cs)))
      (PutBack base D before before') := by
  induction cs generalizing o o' q with
  | nil => exact bothReturn fun _ _ hs => ⟨_, _, hs⟩
  | cons c cs ih =>
    obtain ⟨⟨hr, hro⟩, hcs⟩ := forall_mem_cons.mp hcs
    refine bothThen
      (Simulates.pre (simulates_piece (w := True) hauto hD (parallel_text hauto hm) o o' c
      { c with front := q ++ c.front } rfl rfl rfl hro ?_) ?_) fun _ _ => ?_
    · intro hon
      rw [hr] at hon
      cases hon
    · intro s s' hs
      refine ⟨hs, fun stop hso => ?_⟩
      obtain ⟨left, hst, -, hw⟩ := hs.reading.stop
      rw [hst, hw trivial] at hso
      cases hso
    · have hre := ih hcs (o + c.front.length + c.size) (o' + (q ++ c.front).length + c.size) []
      rw [prepend_nil, pending_nil] at hre
      exact hre.pre fun _ _ hs => hs.addBlank

end Texts

/-- A command with an argument of its own leaves all that follows to the reader. -/
theorem stop_piece (hauto : r.auto = {}) {m c} (hr : c.readsOn = false)
    (hro : c.word.length + 2 ≤ c.size) {s'}
    (hs : s.whereabouts.reading.stop = none)
    (hrun : piece (Parse.text m) before c r s = (.ok (), s')) :
    s'.whereabouts.reading.stop = none := by
  have hw : ∀ stop, s.whereabouts.reading.stop = some stop →
      ([] : Bytes) = [] ∧ s.whereabouts.reading.offset + c.front.length + c.size ≤ stop := by
    intro stop hso
    rw [hs] at hso
    cases hso
  have hb : Tracks _ _ _ (piece (Parse.text m) before c r s) (piece (Parse.text m) before c r s) :=
    simulates_piece (w := True) hauto levels_eq (parallel_text hauto (Nat.le_refl m)) _ _ c c
      rfl rfl rfl hro
      (fun hon => by rw [hr] at hon; cases hon) s s ⟨(like_self hs).addBlank, hw⟩
  rw [hrun] at hb
  obtain ⟨_, _, heq, hl⟩ := hb.of_ok
  obtain ⟨left, hle, -, hn⟩ := hl.reading.stop
  rw [hle, hn trivial]
  rfl

/-- The commands of a text are carried out before what follows it is looked at. -/
theorem pieces_outline (hauto : r.auto = {}) (before : Reading) (m : Nat) {t q}
    (hq : Clear r.tag q (p ++ t)) (hr : ∀ c ∈ (outline r.tag p).1, c.readsOn = false)
    (hfu : (q ++ (p ++ t)).length < fuel) (hst : s.whereabouts.reading.stop = none) :
    ∃ k, (pending q (outline r.tag p).1 ++ ((outline r.tag p).2 ++ t)).length < k ∧
      pieces (Parse.text m) before fuel (q ++ (p ++ t)) r s = ((do
          carry (Parse.text m) before (prepend q (outline r.tag p).1)
          pieces (Parse.text m) before k (pending q (outline r.tag p).1 ++
            ((outline r.tag p).2 ++ t))) : Parse Unit) r s := by
  have hn : p.length < p.length + 1 := Nat.lt_succ_self _
  simp only [outline] at hr ⊢
  generalize p.length + 1 = n at hn hr ⊢
  induction n generalizing p q fuel s with
  | zero => omega
  | succ n ih =>
    obtain _ | fuel := fuel
    · omega
    cases hf : Stretch.first? r.tag p with
    | none =>
      simp only [outlineWithin, hf]
      exact ⟨fuel + 1, hfu, rfl⟩
    | some c =>
      simp only [outlineWithin, hf, mem_cons, forall_eq_or_imp] at hr ⊢
      obtain ⟨hl, hro⟩ := Stretch.first?_eq hf
      have ht := hq.first?
      rw [Stretch.first?_append hf t] at ht
      have hp : piece (text m) before { c with front := q ++ c.front, rest := c.rest ++ t } =
          piece (text m) before { c with front := q ++ c.front } :=
        piece_rest (c := { c with front := q ++ c.front }) hr.1 (c.rest ++ t)
      rw [pieces_first ht, hp]
      cases hrun : piece (text m) before { c with front := q ++ c.front } r s with
      | mk result s' =>
        cases result with
        | error e =>
          refine ⟨_, Nat.lt_succ_self _, ?_⟩
          rw [bind_error hrun]
          exact (bind_error (bind_error hrun _) _).symm
        | ok _ =>
          have hs' := stop_piece hauto (c := { c with front := q ++ c.front }) hr.1 hro hst hrun
          have hle : s'.whereabouts.reading.left (c.rest ++ t) = c.rest ++ t := by
            rw [Reading.left, hs']
          rw [length_append, length_append] at hfu
          have hs : ([] ++ (c.rest ++ t)).length < fuel := by
            rw [nil_append, length_append]
            omega
          obtain ⟨k, hk, heq⟩ := ih (.nil _ _) hs hs' (by omega) hr.2
          rw [pending_nil] at hk heq
          rw [prepend_nil, nil_append] at heq
          refine ⟨k, hk, ?_⟩
          have hgo : (get >>= fun s =>
            pieces (text m) before fuel (s.whereabouts.reading.left (c.rest ++ t))) r
              s' = pieces (text m) before fuel (c.rest ++ t) r s' :=
                congrArg (pieces _ _ _ · r s') hle
          rw [bind_ok hrun, hgo, heq, prepend, carry_cons, bind_assoc, bind_ok hrun]
          rfl

theorem pieces_front (hauto : r.auto = {}) (before : Reading) (m : Nat) {t}
    (hr : ∀ c ∈ (outline r.tag p).1, c.readsOn = false) (hfu : (p ++ t).length < fuel)
    (hst : s.whereabouts.reading.stop = none) : ∃ k, ((outline r.tag p).2 ++ t).length < k ∧
      pieces (Parse.text m) before fuel (p ++ t) r s = ((do
          carry (Parse.text m) before (outline r.tag p).1
          pieces (Parse.text m) before k ((outline r.tag p).2 ++ t)) : Parse Unit) r s := by
  have hl : (([] : Bytes) ++ (p ++ t)).length < fuel := hfu
  have ho := pieces_outline hauto before m (.nil r.tag _) hr hl hst
  rwa [pending_nil, prepend_nil] at ho

theorem stop_carry (hauto : r.auto = {}) {m cs} (hcs : Settled cs) {s'}
    (hs : s.whereabouts.reading.stop = none)
    (hrun : carry (Parse.text m) before cs r s = (.ok (), s')) :
    s'.whereabouts.reading.stop = none := by
  induction cs generalizing s with
  | nil =>
    cases hrun
    exact hs
  | cons c cs ih =>
    obtain ⟨⟨hr, hro⟩, hcs⟩ := forall_mem_cons.mp hcs
    obtain ⟨_, t, hp, hre⟩ := bind_eq_ok hrun
    exact ih hcs (stop_piece hauto hr hro hs hp) hre

/-- What is behind the last command of two texts does not grow together with what follows. -/
theorem clear_pending {a x b} (ha : Apart tag a (x ++ b)) (hx : Apart tag x b) :
    Clear tag (pending (outline tag a).2 (outline tag x).1 ++ (outline tag x).2) b := by
  cases hcs : (outline tag x).1 with
  | nil =>
    have hl := outline_of_nil hcs
    have hc := hx.2
    rw [hl] at hc ⊢
    exact ha.2.append hc
  | cons c cs => exact hx.2

theorem pieces_two (hauto : r.auto = {}) (before : Reading) (m : Nat) {a x b}
    (ha : Apart r.tag a (x ++ b)) (hx : Apart r.tag x b) (hf : (a ++ (x ++ b)).length < fuel)
    (hs : s.whereabouts.reading.stop = none) :
    ∃ k, (pending (outline r.tag a).2 (outline r.tag x).1 ++ (outline r.tag x).2 ++ b).length < k ∧
      pieces (Parse.text m) before fuel (a ++ (x ++ b)) r s = ((do
          carry (Parse.text m) before (outline r.tag a).1
          carry (Parse.text m) before (prepend (outline r.tag a).2 (outline r.tag x).1)
          pieces (Parse.text m) before k (pending (outline r.tag a).2 (outline r.tag x).1 ++
            (outline r.tag x).2 ++ b)) :
          Parse Unit) r s := by
  obtain ⟨k, hk, heq⟩ := pieces_front hauto before m ha.1 hf hs
  cases hrun : carry (Parse.text m) before (outline r.tag a).1 r s with
  | mk result s' =>
    cases result with
    | error e =>
      refine ⟨_, Nat.lt_succ_self _, heq.trans ?_⟩
      rw [bind_error hrun, bind_error hrun]
    | ok _ =>
      have hs' := stop_carry hauto (settled_outline ha.1) hs hrun
      obtain ⟨k', hk', heq'⟩ := pieces_outline hauto before m ha.2 hx.1 hk hs'
      rw [← append_assoc] at hk'
      refine ⟨k', hk', heq.trans ?_⟩
      rw [bind_ok hrun, bind_ok hrun]
      exact heq'.trans (by rw [append_assoc])

end TemplateKit.Parse
