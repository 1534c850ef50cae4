import TemplateKit.Proofs.Data.RoundTrip
import TemplateKit.Proofs.Program
import TemplateKit.Proofs.Storage.Folder
import TemplateKit.Storage.Versions

/-!
# Every version is kept

A version that is saved gets the next number, and its text stays under that number. The number is
taken from the log, so this holds as long as each log that is written can be read: a note with a
line that is taken for the end of a value breaks the log, and no version can be saved behind it.

## The log

A log tells about each version under its number. Where it can be read at all, it is read as a log of
the same versions, although blanks and line ends around the texts in it may change.
-/

namespace TemplateKit

open List Numeral Terminator

namespace Node

variable {n : Node} {t : Terminator} {r : Random}

/-- A node below the root that can be written to a file. -/
structure Plain (n : Node) : Prop where
  shaped : n.Shaped
  attributes : n.attributes = []
  value : ∀ v, n.value = some v → (0 : UInt8) ∉ v

theorem Plain.readBack (h : n.Plain) : n.readBack.Plain := by
  refine ⟨h.shaped.readBack, by rw [readBack_eq, h.attributes, map_nil], fun v hv => ?_⟩
  rw [readBack_eq] at hv
  obtain ⟨w, hw, rfl⟩ := Option.map_eq_some_iff.mp hv
  exact fun hmem => h.value w hw (reread_subset w hmem)

theorem readBack_of_plain (h : Everywhere Plain n) : n.readBack = n.reread :=
  readBack_of_no_attributes (h.imp fun _ => Plain.attributes)

theorem nul_not_mem_writeLine (h : n.Plain) (ht : t.Proper) {lead} (hl : (0 : UInt8) ∉ lead) :
    (0 : UInt8) ∉ (n.writeLine lead t r).1 := by
  rw [writeLine]
  cases hv : n.value with
  | none => exact not_mem_nil
  | some v =>
    have hnul := h.value v hv
    have hte : (0 : UInt8) ∉ (t.choose v draws r).1 := fun hmem =>
      absurd ((proper_choose v draws ht r).capitals 0 hmem) (by decide)
    simp only [writeValue, h.attributes, Attribute.writeList]
    split
    · have ho : (0 : UInt8) ∉ ascii " << " := by decide
      have hli : (0 : UInt8) ≠ newline := by decide
      simp [hl, hnul, hte, ho, hli]
    · have hm : (0 : UInt8) ∉ ascii (if n.isLink then " : " else " = ") := by
        cases n.isLink <;> decide
      simp [hl, hnul, hm, newline]

theorem nul_not_mem_writeAll {layout} (hl : layout ≠ .dotted) (level : Nat) (path : Option Bytes)
    (ns : List Node) (hns : ∀ n ∈ ns, Everywhere Plain n) (ht : t.Proper) (r : Random) :
    (0 : UInt8) ∉ (writeAll layout level path ns t r).1 := by
  induction ns using forest_induction generalizing level path t r with
  | nil => exact not_mem_nil
  | cons n ns hb hm =>
    have hn := hns n mem_cons_self
    have hi : (0 : UInt8) ∉ layout.indent level := fun hmem =>
      absurd (blank_indent layout level 0 hmem) (by decide)
    have hna : (0 : UInt8) ∉ n.name :=
      fun hmem => absurd (hn.here.shaped.name.nameText.2 0 hmem) (by decide)
    simp only [writeAll_cons, label, if_neg hl, writeLine_state, mem_append, not_or]
    refine ⟨⟨nul_not_mem_writeLine hn.here ht (by simp [hi, hna]), ?_⟩,
      hm level path (fun k hk => hns k (mem_cons_of_mem n hk)) (proper_ownBlock ht) _⟩
    rw [inBlock]
    split
    · exact not_mem_nil
    · have ho : (0 : UInt8) ∉ ascii " \x7b\n" := by decide
      have hc : (0 : UInt8) ∉ ascii "\x7d\n" := by decide
      simp [hi, hna, ho, hc, hb (level + 1) (some n.name) hn.children proper_initial]

end Node

namespace VersionStore

open Node

variable {vs : List Node} {k n : Nat} {r : Random}

/-- A version that is saved: its text, who made it, why and when. -/
structure Revision where
  text : Bytes
  user : Bytes
  reason : Bytes
  time : Int

namespace Revision

def note (v : Revision) (log : Node) (k : Nat) : Node :=
  VersionStore.note log k (some v.user) (some v.reason) v.time

def about (v : Revision) (k : Nat) : Node :=
  (empty (ofNat k)).extend [fresh "Log" { value := some v.reason },
    fresh "User" { value := some v.user }, fresh "Date" { value := some (ofInt v.time) }]

end Revision

def heading : Bytes := "Versions"

def logOf (vs : List Node) : Node := grow [heading] vs Node.root

theorem logOf_eq (h : vs ≠ []) : logOf vs = Node.root.extend [(empty heading).extend vs] :=
  grow_missing (free_empty [] heading []) h

theorem logOf_reread (h : vs ≠ []) : (logOf vs).reread = logOf (vs.map Node.reread) := by
  rw [logOf_eq h, logOf_eq (by simpa using h)]
  change Node.root.extend [((empty heading).extend vs).reread] = _
  rw [reread_eq]
  rfl

theorem not_mem_ofNat {b} (hb : Ascii.isDigit b = false) (k : Nat) : b ∉ ofNat k := by
  intro hmem
  rw [isDigit_of_mem_ofNat k hmem] at hb
  cases hb

theorem isWord_ofNat (k : Nat) : IsWord (ofNat k) := by
  obtain ⟨d, more, -, -, heq⟩ := ofNat_head k
  exact ⟨by
    rw [heq]; nofun, fun b hb => .inl (Bool.or_eq_true_iff.mpr (.inr (isDigit_of_mem_ofNat k hb)))⟩

theorem note_logOf (h : ∀ n ∈ vs, n.name ≠ ofNat k) (v : Revision) :
    v.note (logOf vs) k = logOf (vs ++ [v.about k]) := by
  have hl := ((leads_root .dotted).below (show IsWord heading by decide)).below (isWord_ofNat k)
  have hset : ∀ {log : Node} {name : Bytes} (w : Option Bytes), IsWord name →
      Clear [heading, ofNat k] log → Free [heading, ofNat k] name log →
      (log.set (ascii "Versions." ++ ofInt k ++ ascii "." ++ name) w).1 =
        sow [heading, ofNat k] (fresh name { value := w }) log := by
    intro log name w hn hc hf
    have hfu :
        label .dotted (some (label .dotted (some (label .dotted none heading)) (ofNat k))) name =
        ascii "Versions." ++ ofInt k ++ ascii "." ++ name := by
      simp [label, fullName, heading, ascii, ofInt, dot]
    have ha := assignAt_new (show log.get? [] = some log from rfl) hc hf
      (hfu ▸ hl.components name hn) (hl.below hn).nil_not_mem
    rw [Node.set, ha, nil_append]
  have hf : Free [heading] (ofNat k) (logOf vs) := (free_empty _ _ _).grow h
  have hc : Clear [heading, ofNat k] (logOf vs) :=
    ((LinkFree.clear (linkFree_empty []) _).grow vs).below hf
  have hb := hf.below
  have hg : grow [heading, ofNat k] (v.about k).children (logOf vs) = _ :=
    grow_missing hf (by simp [Revision.about, extend])
  have hlog : ascii "Log" ≠ ascii "User" ∧ ascii "Log" ≠ ascii "Date" := by decide
  have hu : ascii "User" ≠ ascii "Date" := by decide
  rw [Revision.note, note]
  rw [hset _ (by decide) hc (hb _), hset _ (by decide) hc.sow ((hb _).sow hlog.1),
    hset _ (by decide) hc.sow.sow (((hb _).sow hlog.2).sow hu), logOf, logOf, grow, grow,
    foldl_append]
  exact hg

theorem Revision.everywhere_plain (v : Revision) (k : Nat) (hu : (0 : UInt8) ∉ v.user)
    (hr : (0 : UInt8) ∉ v.reason) : Everywhere Plain (v.about k) := by
  have hl : ∀ {name w : Bytes}, IsWord name → (0 : UInt8) ∉ w →
      Everywhere Plain (fresh name { value := some w }) := by
    intro name w hn hw
    refine ⟨⟨⟨hn, nofun, fun _ => rfl, nodup_nil, .inl nofun, nofun⟩, rfl, ?_⟩, nofun⟩
    rintro _ ⟨⟩
    exact hw
  have hd : (0 : UInt8) ∉ ofInt v.time := by
    cases v.time with
    | ofNat n => exact not_mem_ofNat (by decide) n
    | negSucc n =>
      rw [ofInt, mem_cons, not_or]
      exact ⟨by decide, not_mem_ofNat (by decide) (n + 1)⟩
  refine ⟨⟨⟨isWord_ofNat k, nofun, fun _ => rfl, ?_, .inr nofun, nofun⟩, rfl, nofun⟩, ?_⟩
  · change [ascii "Log", ascii "User", ascii "Date"].Nodup
    decide
  · change ∀ m ∈ [_, _, _], _
    simp only [forall_mem_cons]
    exact ⟨hl (by decide) hr, hl (by decide) hu, hl (by decide) hd, nofun⟩

theorem toInt32_ofNat (hk : k < 0x80000000) : (toInt32 (ofNat k)).toInt = k := by
  have hr := read?_ofNat false k (.inl rfl)
  rw [append_nil] at hr
  rw [toInt32, toInt64, hr, Option.map_some, Option.getD_some, clamp_of_lt (by omega),
    Int64.toInt32_ofNat', Int32.toInt_ofNat_of_lt hk]

theorem foldl_numbers (n : Nat) (hn : n < 0x80000000) {start} (hs : start ≤ 0) :
    (range n).foldl (fun highest k => max highest (toInt32 (ofNat (k + 1))).toInt) start =
      if n = 0 then start else (n : Int) := by
  induction n with
  | zero => rfl
  | succ n ih =>
    rw [range_succ, foldl_append]
    simp only [foldl_cons, foldl_nil, toInt32_ofNat hn]
    split <;> omega

/-- What a log tells about the versions from the first one on, without a gap. -/
structure Numbered (vs : List Node) : Prop where
  names : vs.map (·.name) = (range vs.length).map fun k => ofNat (k + 1)
  plain : ∀ n ∈ vs, Everywhere Plain n

namespace Numbered

variable (h : Numbered vs)

include h

theorem ne_next : ∀ n ∈ vs, n.name ≠ ofNat (vs.length + 1) := by
  intro n hn heq
  have hmem : n.name ∈ vs.map (·.name) := mem_map_of_mem hn
  rw [h.names, heq] at hmem
  obtain ⟨k, hk, hnu⟩ := mem_map.mp hmem
  have hlt := mem_range.mp hk
  have hs := ofNat_injective hnu
  omega

theorem next {n} (hna : n.name = ofNat (vs.length + 1)) (hn : Everywhere Plain n) :
    Numbered (vs ++ [n]) := by
  refine ⟨?_, forall_mem_append.mpr ⟨h.plain, forall_mem_singleton.mpr hn⟩⟩
  simp [range_succ, h.names, hna]

theorem reread : Numbered (vs.map Node.reread) := by
  rw [map_congr_left fun n hn => (readBack_of_plain (h.plain n hn)).symm]
  refine ⟨by rw [names_readBack, length_map, h.names], forall_mem_map.mpr fun n hn => ?_⟩
  exact (h.plain n hn).readBack fun _ => Plain.readBack

theorem latest (hn : vs.length < 0x80000000) {start} (hs : start ≤ 0) :
    latest (logOf vs) start = if vs.length = 0 then start else (vs.length : Int) := by
  have hc : (((logOf vs).find? "Versions").map (·.children)).getD [] = vs := by
    by_cases hvs : vs = []
    · rw [hvs]
      rfl
    · rw [logOf_eq hvs]
      rfl
  rw [VersionStore.latest, hc, ← foldl_numbers vs.length hn hs]
  have hf := congrArg (foldl (fun highest name => max highest (toInt32 name).toInt) start) h.names
  rwa [foldl_map, foldl_map] at hf

variable (hvs : vs ≠ [])

include hvs

theorem everywhere_plain : Everywhere Plain ((empty heading).extend vs) := by
  refine ⟨⟨⟨(show IsWord heading by decide), nofun, fun _ => rfl, ?_, .inr hvs, nofun⟩, rfl, nofun⟩,
    h.plain⟩
  change (vs.map (·.name)).Nodup
  rw [h.names]
  exact nodup_range.map fun a b hab => Nat.succ.inj (ofNat_injective hab)

theorem reads (hcut : Legible ((logOf vs).blocksBelow r).1)
    (load : Node → Address → Bytes → Node × Except Failure Unit) (mode : Inclusion) (path : Bytes) :
    Reads load mode path ((logOf vs).write .pretty (some []) r).1 ([[]], Node.root) ([[]],
      (logOf vs).reread) := by
  have hs := (h.everywhere_plain hvs).imp fun _ => Plain.shaped
  rw [logOf_eq hvs] at hcut ⊢
  have hr : Reads load mode path _ ([[]], Node.root) _ := reads_writeAll 0
    (leads_block (show Layout.pretty ≠ .dotted by decide) (some [])) _ (forall_mem_singleton.mpr hs)
    (nodup_singleton _) proper_initial hcut (show Node.root.get? [] = some Node.root from rfl)
    (clear_nil rfl) (fun _ _ => rfl) []
  rw [map_singleton, readBack_of_plain (h.everywhere_plain hvs)] at hr
  exact hr

theorem nul_not_mem (r : Random) : (0 : UInt8) ∉ ((logOf vs).write .pretty (some []) r).1 := by
  rw [logOf_eq hvs]
  exact nul_not_mem_writeAll (show Layout.pretty ≠ .dotted by decide) 0 (some []) _
    (forall_mem_singleton.mpr (h.everywhere_plain hvs)) proper_initial r

end Numbered

end VersionStore

end TemplateKit

/-! ## Saving -/

namespace TemplateKit.VersionStore

open List Node Numeral Source

open Node

variable {fs fs' : FileSystem} {path base tail : Bytes} {place : List Bytes}
  {s : VersionStore} {n k : Nat}

/-- What stands beside a path, in a folder and under a name that starts with `base`. -/
def entry (fs : FileSystem) (place : List Bytes) (base tail : Bytes) : Option Entry :=
  fs.root.get? (place ++ [base ++ tail])

theorem entry_of_changed {e : Entry} {new : Option Entry}
    (h : e.Changed fs'.root place (base ++ tail) new) (other : Bytes) :
    entry fs' place base other = if other = tail then new
      else e.get? (place ++ [base ++ other]) := by
  split
  · next heq =>
    rw [heq]
    exact h.own
  · next hne => exact h.others _ fun heq => hne (append_cancel_left heq)

theorem notFolder_of_none (h : entry fs place base tail = none) :
    ¬ fs.root.Folder (place ++ [base ++ tail]) := by
  rintro ⟨es, hes⟩
  cases h.symm.trans hes

theorem run_get : (get : Action VersionStore) s = (.ok s, s) := rfl

section Log

theorem run_writeLog (ht : fs.Shows (beside path "log.tmp") place (base ++ "log.tmp"))
    (hlog : fs.Shows (logPath path) place (base ++ "log"))
    (hn : entry fs place base "log.tmp" = none)
    (hf : ¬ fs.root.Folder (place ++ [base ++ "log"])) (log : Node) (r : Random) :
    ∃ fs', writeLog path log ⟨fs, r⟩ = (.ok (), ⟨fs', (log.write .pretty (some []) r).2⟩) ∧
      fs'.home = fs.home ∧
      (∀ p, fs.root.Folder p → fs'.root.Folder p) ∧ ∀ tail, entry fs' place base tail =
        if tail = "log" then some (.file (log.write .pretty (some []) r).1)
        else if tail = "log.tmp" then none else entry fs place base tail := by
  have hne : base ++ "log" ≠ base ++ "log.tmp" := fun heq =>
    absurd (append_cancel_left heq) (by decide)
  obtain ⟨fs₁, hwr, hhome₁, h₁⟩ := ht.write (notFolder_of_none hn) (log.write .pretty (some []) r).1
  have hf₁ : ¬ fs₁.root.Folder (place ++ [base ++ "log"]) := by rwa [Entry.Folder, h₁.others _ hne]
  obtain ⟨fs₂, e, hr, hhome₂, h₂, h₃⟩ :=
    (ht.kept hhome₁ h₁.folders).rename (hlog.kept hhome₁ h₁.folders) hne h₁.own hf₁
  refine ⟨fs₂, ?_, hhome₂.trans hhome₁, fun p hp => h₃.folders p (h₂.folders p (h₁.folders p hp)),
    fun tail => ?_⟩
  · have hw : log.writeFile fs (beside path "log.tmp") r =
        (.ok fs₁, (log.write .pretty (some []) r).2) := by
      rw [writeFile]
      dsimp only
      rw [hwr]
    rw [writeLog, bind_of_ok run_get, hw]
    dsimp only
    rw [hr]
    rfl
  · rw [entry_of_changed h₃]
    split
    · rfl
    · split
      · next hta =>
        rw [hta]
        exact h₂.own
      · next hta =>
        have ho : base ++ tail ≠ base ++ "log.tmp" := fun heq => hta (append_cancel_left heq)
        rw [h₂.others _ ho, h₁.others _ ho]
        rfl

variable (hlog : s.files.Shows (logPath path) place (base ++ "log"))

include hlog

theorem search_logPath : search s.files root (some []) (logPath path) pathRoom =
    (entry s.files place base "log").elim
        (.error (.raise .notFound ("Path " ++ logPath path ++ " not found")))
        fun _ => .ok (logPath path) := by
  have hp : loadPaths root [] = [] := rfl
  have hs : (logPath path).take (pathRoom - 1) = logPath path :=
    take_of_length_le (length_take_le ..)
  rw [search, hp, map_nil, nil_append, map_singleton, hs, firstExisting, hlog.stat, ← entry]
  cases entry s.files place base "log" <;> rfl

theorem readLog_of_none (hn : entry s.files place base "log" = none) :
    ∃ f, readLog path s = (.error f, s) ∧ f.isA .notFound = true := by
  have hs := search_logPath hlog
  have hst := hlog.stat
  rw [hn] at hs
  rw [← entry, hn] at hst
  -- a path from the root is loaded without a search, and its failure has another text
  have hl : ∃ f, Source.load (.disk s.files) root [] (logPath path) = .error f ∧
      f.isA .notFound = true := by
    by_cases hroot : (logPath path).head? = some FileSystem.slash
    · refine ⟨.raise .notFound ("File " ++ logPath path ++ " not found"), ?_, rfl⟩
      rw [Source.load, if_pos hroot]
      simp [bind, Except.bind, pure, Except.pure, FileSystem.load, hst]
    · refine ⟨.raise .notFound ("Path " ++ logPath path ++ " not found"), ?_, rfl⟩
      rw [Source.load, if_neg hroot, hs]
      rfl
  obtain ⟨f, hload, hkind⟩ := hl
  refine ⟨f, ?_, hkind⟩
  rw [readLog, bind_of_ok run_get, loadFile, DataTree.loadFile, DataTree.loadFileFrom,
    show DataTree.plain root = root from rfl, hload]
  rfl

theorem readLog_of_file {text} (hf : entry s.files place base "log" = some (.file text))
    (hnul : (0 : UInt8) ∉ text) {log}
    (hr : ∀ load mode path, Reads load mode path text ([[]], root) ([[]], log)) :
    readLog path s = (.ok log, s) := by
  have hs := search_logPath hlog
  have hst := hlog.stat
  rw [hf] at hs
  rw [← entry, hf] at hst
  have hl : Source.load (.disk s.files) root [] (logPath path) = .ok (logPath path, text) := by
    rw [Source.load, hs]
    simp [bind, Except.bind, pure, Except.pure, FileSystem.load, hst,
      Bytes.untilNul_of_not_mem hnul]
  rw [readLog, bind_of_ok run_get, loadFile, DataTree.loadFile, DataTree.loadFileFrom,
    show DataTree.plain root = root from rfl, hl]
  dsimp only
  rw [(hr _ _ _).complete]
  rfl

end Log

/-- What is put behind a path for its log and its first versions. -/
def tails (n : Nat) : List Bytes := "log" :: "log.tmp" :: (range n).map fun k => ofNat (k + 1)

theorem mem_tails (hk : k < n) : ofNat (k + 1) ∈ tails n := by
  simpa [tails] using .inr (.inr ⟨k, hk, rfl⟩)

theorem ne_ofNat (h : 'l'.toUInt8 ∈ tail) (k : Nat) : tail ≠ ofNat k := by
  rintro rfl
  exact not_mem_ofNat (by decide) k h

/-- The first versions of a path can be saved: all their files belong into one folder, where there
is a lock and none of the others. -/
structure Fresh (fs : FileSystem) (path : Bytes) (place : List Bytes) (base : Bytes) (n : Nat) :
    Prop where
  shows : ∀ tail ∈ ascii "lock" :: tails n, fs.Shows (beside path tail) place (base ++ tail)
  locked : ∃ content, entry fs place base "lock" = some (.file content)
  free : ∀ tail ∈ tails n, entry fs place base tail = none

/-- A store that keeps the texts of the versions of a path, and a log of them. -/
structure Keeps (path : Bytes) (place : List Bytes) (base : Bytes) (n : Nat) (texts : List Bytes)
    (vs : List Node) (s : VersionStore) : Prop where
  shows : ∀ tail ∈ ascii "lock" :: tails n, s.files.Shows (beside path tail) place (base ++ tail)
  locked : ∃ content, entry s.files place base "lock" = some (.file content)
  temporary : entry s.files place base "log.tmp" = none
  files : ∀ k < n, entry s.files place base (ofNat (k + 1)) = texts[k]?.map .file
  numbered : Numbered vs
  length : texts.length = vs.length
  unlogged : vs = [] → entry s.files place base "log" = none
  notFolder : ¬ s.files.root.Folder (place ++ [base ++ "log"])
  log : vs ≠ [] → readLog path s = (.ok (logOf vs), s)

theorem Fresh.keeps (h : Fresh s.files path place base n) : Keeps path place base n [] [] s where
  shows := h.shows
  locked := h.locked
  temporary := h.free _ (by simp [tails])
  files _ hk := h.free _ (mem_tails hk)
  numbered := ⟨rfl, forall_mem_nil _⟩
  length := rfl
  unlogged _ := h.free _ mem_cons_self
  notFolder := notFolder_of_none (h.free _ mem_cons_self)
  log hne := absurd rfl hne

namespace Keeps

section Step

variable {texts : List Bytes} {vs : List Node} (h : Keeps path place base n texts vs s)

include h

theorem stat (ht : tail ∈ ascii "lock" :: tails n) :
    s.files.stat (beside path tail) =
    (entry s.files place base tail).elim (.error .noSuchFile) .ok :=
  (h.shows tail ht).stat

theorem lock : lock path s = (.ok (), s) := by
  obtain ⟨content, hl⟩ := h.locked
  have hs := h.stat mem_cons_self
  rw [hl] at hs
  rw [VersionStore.lock]
  rw [bind_of_ok run_get, hs]
  rfl

theorem currentLog : currentLog path s = (.ok (logOf vs), s) := by
  rw [VersionStore.currentLog, bind_of_ok run_get, ExceptT.run]
  by_cases hvs : vs = []
  · obtain ⟨f, hr, hk⟩ := readLog_of_none (h.shows _ (by simp [tails])) (h.unlogged hvs)
    rw [hr, hvs]
    dsimp only
    rw [if_pos hk]
    rfl
  · rw [h.log hvs]
    rfl

theorem save (hn : n < 0x80000000) (hlt : vs.length < n) (v : Revision) {log : Node}
    (hlog : v.note (logOf vs) (vs.length + 1) = log) :
    ∃ fs', save path v.text (some v.user) (some v.reason) v.time s =
        (.ok (), ⟨fs', (log.write .pretty (some []) s.random).2⟩) ∧ fs'.home = s.files.home ∧
      (∀ p, s.files.root.Folder p → fs'.root.Folder p) ∧
      ∀ tail, entry fs' place base tail =
        if tail = ascii "log" then some (.file (log.write .pretty (some []) s.random).1)
        else if tail = ascii "log.tmp" then none
        else if tail = ofNat (vs.length + 1) then some (.file v.text)
        else entry s.files place base tail := by
  have hnu := mem_cons_of_mem (ascii "lock") (mem_tails hlt)
  have hv : latest (logOf vs) 0 + 1 = ((vs.length + 1 : Nat) : Int) := by
    rw [h.numbered.latest (by omega) (Int.le_refl 0)]
    split <;> omega
  have hfr : entry s.files place base (ofNat (vs.length + 1)) = none := by
    rw [h.files _ hlt, ← h.length, getElem?_length]
    rfl
  have hst := h.stat hnu
  rw [hfr] at hst
  obtain ⟨fs₁, hw, hhome₁, h₁⟩ := (h.shows _ hnu).write (notFolder_of_none hfr) v.text
  have ho : overwrite s.files (versionPath path ((vs.length + 1 : Nat) : Int)) v.text =
      .ok fs₁ := by
    change overwrite s.files (beside path (ofNat (vs.length + 1))) v.text = _
    rw [overwrite, hst]
    exact hw
  have he := entry_of_changed h₁
  have hs := fun tail ht => (h.shows tail ht).kept hhome₁ h₁.folders
  have hno : entry fs₁ place base (ascii "log.tmp") = none := by
    rw [he, if_neg (ne_ofNat (by decide) _)]
    exact h.temporary
  have hfi : ¬ fs₁.root.Folder (place ++ [base ++ ascii "log"]) := by
    have hsa := he (ascii "log")
    rw [if_neg (ne_ofNat (by decide) _)] at hsa
    rw [Entry.Folder, ← entry, hsa]
    exact h.notFolder
  obtain ⟨fs₂, hrun, hhome₂, hf, he₂⟩ := run_writeLog (hs (ascii "log.tmp") (by simp [tails]))
    (hs (ascii "log") (by simp [tails])) hno hfi log s.random
  refine ⟨fs₂, ?_, hhome₂.trans hhome₁, fun p hp => hf p (h₁.folders p hp),
    fun tail => by rw [he₂, he]; rfl⟩
  rw [Revision.note] at hlog
  rw [VersionStore.save, bind_of_ok h.lock, bind_of_ok h.currentLog, bind_of_ok run_get,
    hv, ho, hlog]
  exact hrun

theorem next (hn : n < 0x80000000) (hlt : vs.length < n) {v : Revision} (hu : (0 : UInt8) ∉ v.user)
    (hr : (0 : UInt8) ∉ v.reason)
    (hcut : Legible ((v.note (logOf vs) (vs.length + 1)).blocksBelow s.random).1) :
    ∃ s', VersionStore.save path v.text (some v.user) (some v.reason) v.time s = (.ok (), s') ∧
      s'.random = ((v.note (logOf vs) (vs.length + 1)).blocksBelow s.random).2 ∧
      Keeps path place base n (texts ++ [v.text])
        ((vs ++ [v.about (vs.length + 1)]).map Node.reread) s' := by
  have hne : vs ++ [v.about (vs.length + 1)] ≠ [] := concat_ne_nil _ _
  have hnu : Numbered (vs ++ [v.about (vs.length + 1)]) :=
    h.numbered.next rfl (v.everywhere_plain _ hu hr)
  have hno := note_logOf h.numbered.ne_next v
  obtain ⟨fs', hsa, hhome, hf, he⟩ := h.save hn hlt v hno
  have hs := fun tail ht => (h.shows tail ht).kept hhome hf
  have hlog := he "log"
  rw [hno] at hcut ⊢
  refine ⟨_, hsa, by rw [blocksBelow_eq, write, writeBelow_eq, writeAll_random],
    ⟨hs, ?_, ?_, fun k hk => ?_, hnu.reread, by simp [h.length], by simp, ?_, fun _ => ?_⟩⟩
  · rw [he, if_neg (ne_ofNat (by decide) _)]
    exact h.locked
  · rw [he, if_neg (by decide), if_pos rfl]
  · rw [he, if_neg (ne_ofNat (by decide) _).symm, if_neg (ne_ofNat (by decide) _).symm,
      h.files k hk, ← h.length]
    by_cases hl : k = texts.length
    · rw [hl, if_pos rfl, getElem?_concat_length]
      rfl
    · rw [if_neg fun heq => hl (Nat.succ.inj (ofNat_injective heq))]
      by_cases hold : k < texts.length
      · rw [getElem?_append_left hold]
      · rw [getElem?_eq_none (by omega),
          getElem?_eq_none (by rw [length_append, length_singleton]; omega)]
  · rintro ⟨es, hes⟩
    cases hlog.symm.trans hes
  · rw [← logOf_reread hne]
    exact readLog_of_file (hs _ (by simp [tails])) hlog (hnu.nul_not_mem hne _) (hnu.reads hne hcut)

theorem load {text} (hk : k < n) (ht : texts[k]? = some text) (hnul : (0 : UInt8) ∉ text) :
    load path ((k + 1 : Nat) : Int) s = (.ok text, s) := by
  have hs := h.stat (mem_cons_of_mem (ascii "lock") (mem_tails hk))
  rw [h.files k hk, ht] at hs
  have hl : s.files.load (versionPath path ((k + 1 : Nat) : Int)) = .ok text := by
    change s.files.load (beside path (ofNat (k + 1))) = _
    rw [FileSystem.load, hs]
    rfl
  rw [VersionStore.load, if_neg (by omega),
    bind_of_ok (show (pure _ : Action Int) s = (.ok _, s) from rfl)]
  dsimp only
  rw [bind_of_ok run_get, hl]
  dsimp only
  rw [Bytes.untilNul_of_not_mem hnul]
  rfl

theorem load_latest (hn : n < 0x80000000) (hk : k < n) (hl : vs.length = k + 1) :
    VersionStore.load path (-1) s = VersionStore.load path ((k + 1 : Nat) : Int) s := by
  have hla := h.numbered.latest (by omega) (show (-1 : Int) ≤ 0 by decide)
  rw [hl, if_neg (Nat.succ_ne_zero k)] at hla
  have hr := h.log (ne_nil_of_length_eq_add_one hl)
  rw [VersionStore.load, VersionStore.load, if_pos rfl, if_neg (by omega), bind_of_ok hr]
  rw [hla]

end Step

end Keeps

/-- Saves revisions one after the other. -/
def saveAll (path : Bytes) : List Revision → Action Unit
  | [] => pure ()
  | v :: more => do
    save path v.text (some v.user) (some v.reason) v.time
    saveAll path more

/-- Each log that is written can be read, from a log of `k` versions on. -/
def Readable : List Revision → (log : Node) → (k : Nat) → Random → Prop
  | [], _, _, _ => True
  | v :: more, log, k, r =>
    Legible ((v.note log (k + 1)).blocksBelow r).1 ∧
      Readable more (v.note log (k + 1)).reread (k + 1) ((v.note log (k + 1)).blocksBelow r).2

theorem Keeps.saveAll {texts vs revisions} (hn : n < 0x80000000)
    (hc : vs.length + revisions.length = n)
    (hnul : ∀ v ∈ revisions, (0 : UInt8) ∉ v.user ∧ (0 : UInt8) ∉ v.reason)
    (h : Keeps path place base n texts vs s)
    (hre : Readable revisions (logOf vs) vs.length s.random) : ∃ s' vs', saveAll path revisions s =
      (.ok (), s') ∧
      Keeps path place base n (texts ++ revisions.map (·.text)) vs' s' := by
  induction revisions generalizing vs texts s with
  | nil =>
    refine ⟨s, vs, rfl, ?_⟩
    rwa [map_nil, append_nil]
  | cons v more ih =>
    rw [length_cons] at hc
    obtain ⟨hu, hr⟩ := hnul v mem_cons_self
    obtain ⟨hcut, hm⟩ := hre
    obtain ⟨s₁, hs, hra, hk⟩ := h.next hn (by omega) hu hr hcut
    rw [← hra, note_logOf h.numbered.ne_next, logOf_reread (concat_ne_nil _ _)] at hm
    have hl : ((vs ++ [v.about (vs.length + 1)]).map Node.reread).length = vs.length + 1 := by simp
    obtain ⟨s', vs', hrun, hke⟩ := ih (by omega) (fun w hw => hnul w (mem_cons_of_mem v hw)) hk
      (hl.symm ▸ hm)
    refine ⟨s', vs', ?_, ?_⟩
    · rw [VersionStore.saveAll, bind_of_ok hs, hrun]
    · rwa [map_cons, append_cons]

/-- Where each log that is written can be read, every version that is saved of a new path is kept:
it is loaded by its number, and the last one as the latest. -/
theorem load_of_saveAll {revisions : List Revision} {s₁ : VersionStore}
    (hlock : lock path s = (.ok (), s₁))
    (hfresh : Fresh s₁.files path place base revisions.length)
    (hcount : revisions.length < 0x80000000)
    (hnul : ∀ v ∈ revisions, (0 : UInt8) ∉ v.text ∧ (0 : UInt8) ∉ v.user ∧ (0 : UInt8) ∉ v.reason)
    (hread : Readable revisions root 0 s₁.random) :
    ∃ s', saveAll path revisions s = (.ok (), s') ∧
      (∀ k v, revisions[k]? = some v → load path ((k + 1 : Nat) : Int) s' = (.ok v.text, s')) ∧
      ∀ v, revisions.getLast? = some v → load path (-1) s' = (.ok v.text, s') := by
  cases revisions with
  | nil => exact ⟨s, rfl, by simp, by simp⟩
  | cons first more =>
    have hstart := hfresh.keeps
    obtain ⟨s', vs', hrun, hkeeps⟩ :=
      hstart.saveAll hcount (Nat.zero_add _) (fun v hv => (hnul v hv).2) hread
    have hload : ∀ k v, (first :: more)[k]? = some v →
        load path ((k + 1 : Nat) : Int) s' = (.ok v.text, s') := by
      intro k v hv
      obtain ⟨hk, -⟩ := List.getElem?_eq_some_iff.mp hv
      exact hkeeps.load hk (by rw [nil_append, getElem?_map, hv]; rfl)
        (hnul v (mem_of_getElem? hv)).1
    have hsave : ∀ text user reason time, save path text user reason time s =
        save path text user reason time s₁ := by
      intro text user reason time
      rw [save, bind_of_ok hlock, bind_of_ok hstart.lock]
    refine ⟨s', ?_, hload, fun v hv => ?_⟩
    · rw [← hrun, saveAll, bind_apply, bind_apply, hsave]
    · have hlength : vs'.length = more.length + 1 := by
        rw [← hkeeps.length, nil_append, length_map, length_cons]
      rw [getLast?_eq_getElem?] at hv
      rw [hkeeps.load_latest hcount (Nat.lt_succ_self _) hlength]
      exact hload more.length v hv

theorem load_of_saveAll_drawn : let path := ascii "/d/p"
    let s : VersionStore := ⟨⟨.directory [(ascii "d", .directory [])], []⟩, .seed 1⟩
    let s₁ : VersionStore :=
      ⟨⟨.directory [(ascii "d", .directory [(ascii "p,lock", .file [])])], []⟩, .seed 1⟩
    let revisions : List Revision :=
      [⟨ascii "one", ascii "ann", ascii "a\nEOM\nb", 0⟩, ⟨ascii "two", ascii "ann", ascii " c", 0⟩]
    lock path s = (.ok (), s₁) ∧ Fresh s₁.files path [ascii "d"] (ascii "p,") 2 ∧
      Readable revisions root 0 s₁.random ∧
      ∃ s', saveAll path revisions s = (.ok (), s') ∧ load path 1 s' = (.ok (ascii "one"), s') ∧
        load path (-1) s' = (.ok (ascii "two"), s') := by
  intro path s s₁ revisions
  have hfresh : Fresh s₁.files path [ascii "d"] (ascii "p,") 2 := by
    refine ⟨fun tail htail => ?_, ⟨[], rfl⟩, fun tail htail => ?_⟩
    · simp only [tails, range, range.loop, map_cons, map_nil, mem_cons, not_mem_nil,
        or_false] at htail
      rcases htail with rfl | rfl | rfl | rfl | rfl <;>
        exact ⟨⟨[[], ascii "d"], by decide, rfl⟩, ⟨_, rfl⟩, by decide, by decide⟩
    · simp only [tails, range, range.loop, map_cons, map_nil, mem_cons, not_mem_nil,
        or_false] at htail
      rcases htail with rfl | rfl | rfl | rfl <;> rfl
  have hread : Readable revisions root 0 s₁.random := by
    simp only [revisions, Readable, Legible]
    decide +kernel
  obtain ⟨s', hrun, hload, hlatest⟩ :=
    load_of_saveAll (s := s) rfl hfresh (by decide) (by decide) hread
  exact ⟨rfl, hfresh, hread, s', hrun, hload 0 _ rfl, hlatest _ rfl⟩

/-- A reason that starts with the terminator leaves a log behind it that cannot be read. -/
theorem saveAll_terminator_first : let v : Revision := ⟨ascii "one", ascii "ann", ascii "EOM\n", 0⟩
    (saveAll (ascii "p") [v] ⟨.empty, .seed 1⟩).1.isOk = true ∧
      (saveAll (ascii "p") [v, v] ⟨.empty, .seed 1⟩).1.isOk = false := by decide +kernel

end TemplateKit.VersionStore
