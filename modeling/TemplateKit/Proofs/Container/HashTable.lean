import Mathlib.Data.List.Basic
import TemplateKit.Container.HashTable

/-!
# Hash tables as finite maps

A table is sound when the number of its buckets is a power of two, each entry stands in the bucket
of its key's hash and no bucket has two entries with the same key. Insertion, removal and doubling
keep tables sound, and what they do to lookups is stated without mention of buckets.
-/

namespace TemplateKit

open List

/-- The comparison is an equivalence, and the hash does not tell apart what it takes for the same.
-/
structure Keying.Lawful {κ : Type} (k : Keying κ) : Prop where
  refl : ∀ a, k.same a a = true
  symm : ∀ a b, k.same a b = true → k.same b a = true
  trans : ∀ a b c, k.same a b = true → k.same b c = true → k.same a c = true
  hash : ∀ a b, k.same a b = true → k.hash a = k.hash b

theorem Keying.lawful_of_eq {κ : Type} {k : Keying κ} (h : ∀ a b, k.same a b = true ↔ a = b) :
    k.Lawful where
  refl := fun a => (h a a).mpr rfl
  symm := fun a b hab => (h b a).mpr ((h a b).mp hab).symm
  trans := fun a b c hab hbc => (h a c).mpr (((h a b).mp hab).trans ((h b c).mp hbc))
  hash := fun a b hab => congrArg k.hash ((h a b).mp hab)

theorem Keying.integer_lawful : Keying.integer.Lawful := lawful_of_eq fun _ _ => beq_iff_eq

theorem Keying.Lawful.same_congr {κ : Type} {k : Keying κ} (hk : k.Lawful) {a b : κ}
    (h : k.same a b = true) (c : κ) : k.same c a = k.same c b := by
  rw [Bool.eq_iff_iff]
  exact ⟨fun hc => hk.trans c a b hc h, fun hc => hk.trans c b a hc (hk.symm a b h)⟩

namespace HashTable

variable {κ ν : Type} {k : Keying κ} {t u : HashTable κ ν} {key other : κ} {value : ν}
variable {entries : List (HashEntry κ ν)}

def DistinctKeys (k : Keying κ) (entries : List (HashEntry κ ν)) : Prop :=
  entries.Pairwise fun e f => k.same e.key f.key = false

def Hashed (k : Keying κ) (entries : List (HashEntry κ ν)) : Prop :=
  ∀ e ∈ entries, e.hash = k.hash e.key

theorem find?_eq_none_of_distinct (hk : k.Lawful) {e : HashEntry κ ν}
    (h : ∀ f ∈ entries, k.same e.key f.key = false)
    (he : k.same e.key key = true) : entries.find? (fun f => k.same f.key key) = none := by
  rw [find?_eq_none]
  intro f hf hfk
  have hef := hk.trans _ _ _ he (hk.symm _ _ hfk)
  exact absurd hef (by simp [h f hf])

theorem find?_reverse_of_distinct (hk : k.Lawful) (h : DistinctKeys k entries) (key : κ) :
    entries.reverse.find? (fun e => k.same e.key key) =
    entries.find? fun e => k.same e.key key := by
  induction entries with
  | nil => rfl
  | cons e entries ih =>
    obtain ⟨hf, hr⟩ := pairwise_cons.mp h
    rw [reverse_cons, List.find?_append, ih hr]
    by_cases he : k.same e.key key = true
    · simp [find?_eq_none_of_distinct hk hf he, he]
    · simp [he]

section Entries

variable {entries : List (HashEntry κ ν)}

theorem mem_putEntry {same new e} (h : e ∈ putEntry same new entries) :
    e = new ∨ ∃ f ∈ entries, e.hash = f.hash ∧ e.key = f.key := by
  induction entries with
  | nil => simpa [putEntry] using h
  | cons f entries ih =>
    simp only [putEntry] at h
    split at h
    · rcases mem_cons.mp h with rfl | h
      · exact Or.inr ⟨f, mem_cons_self, rfl, rfl⟩
      · exact Or.inr ⟨e, mem_cons_of_mem f h, rfl, rfl⟩
    · rcases mem_cons.mp h with rfl | h
      · exact Or.inr ⟨e, mem_cons_self, rfl, rfl⟩
      · rcases ih h with rfl | ⟨g, hg, hs⟩
        · exact Or.inl rfl
        · exact Or.inr ⟨g, mem_cons_of_mem f hg, hs⟩

theorem distinctKeys_putEntry (h : DistinctKeys k entries) (hash : UInt32) :
    DistinctKeys k (putEntry (k.same · key) ⟨hash, key, value⟩ entries) := by
  induction entries with
  | nil => simp [DistinctKeys, putEntry]
  | cons e entries ih =>
    obtain ⟨hfi, hr⟩ := pairwise_cons.mp h
    simp only [putEntry]
    split
    · exact pairwise_cons.mpr ⟨hfi, hr⟩
    · next he =>
      refine pairwise_cons.mpr ⟨fun f hf => ?_, ih hr⟩
      rcases mem_putEntry hf with rfl | ⟨g, hg, -, hkey⟩
      · simpa using he
      · rw [hkey]
        exact hfi g hg

theorem find?_putEntry (hk : k.Lawful) (hash : UInt32) (other : κ) :
    ((putEntry (k.same · key) ⟨hash, key, value⟩ entries).find? fun e =>
      k.same e.key other).map (·.value) =
      if k.same key other = true then some value
      else (entries.find? fun e => k.same e.key other).map (·.value) := by
  induction entries with
  | nil => by_cases h : k.same key other = true <;> simp [putEntry]
  | cons e entries ih =>
    simp only [putEntry]
    by_cases he : k.same e.key key = true
    · have hke : k.same e.key other = k.same key other := by
        rw [Bool.eq_iff_iff]
        exact ⟨fun h => hk.trans _ _ _ (hk.symm _ _ he) h, fun h => hk.trans _ _ _ he h⟩
      by_cases ho : k.same key other = true <;> simp [he, hke, ho]
    · by_cases ho : k.same e.key other = true
      · have hne : ¬ k.same key other = true := fun h =>
          he (hk.trans _ _ _ ho (hk.symm _ _ h))
        simp [he, ho, hne]
      · simpa [he, ho] using ih

theorem eraseEntry_eq_eraseP (same : κ → Bool) :
    eraseEntry same entries = entries.eraseP fun e => same e.key := by
  induction entries with
  | nil => rfl
  | cons e entries ih =>
    rw [eraseEntry, eraseP_cons, ih]
    cases same e.key <;> rfl

theorem find?_eraseEntry (hk : k.Lawful) (h : DistinctKeys k entries) (other : κ) :
    (eraseEntry (k.same · key) entries).find? (fun e => k.same e.key other) =
      if k.same key other = true then none else entries.find? fun e => k.same e.key other := by
  induction entries with
  | nil => simp [eraseEntry]
  | cons e entries ih =>
    obtain ⟨hf, hr⟩ := pairwise_cons.mp h
    simp only [eraseEntry]
    by_cases he : k.same e.key key = true
    · by_cases ho : k.same key other = true
      · simp [he, ho, find?_eq_none_of_distinct hk hf (hk.trans _ _ _ he ho)]
      · have hne : ¬ k.same e.key other = true := fun h => ho (hk.trans _ _ _ (hk.symm _ _ he) h)
        simp [he, ho, hne]
    · by_cases ho : k.same e.key other = true
      · have hne : ¬ k.same key other = true := fun h => he (hk.trans _ _ _ ho (hk.symm _ _ h))
        simp [he, ho, hne]
      · simpa [he, ho] using ih hr

end Entries

def entriesAt (t : HashTable κ ν) (i : Nat) : List (HashEntry κ ν) := t.buckets.getD i []

theorem lookup_eq (key : κ) :
    t.lookup key = ((t.entriesAt (t.bucketOf key)).find? fun e => t.keying.same e.key key).map
      (·.value) := rfl

/-- Every entry stands in the bucket of its hash, and keys are distinct. -/
structure Sound (t : HashTable κ ν) : Prop where
  lawful : t.keying.Lawful
  size_pow : t.size.isPowerOfTwo
  placed : ∀ i, ∀ e ∈ t.entriesAt i, t.slot e.hash = i
  hashed : ∀ i, Hashed t.keying (t.entriesAt i)
  distinct : ∀ i, DistinctKeys t.keying (t.entriesAt i)

theorem Sound.size_pos (h : t.Sound) : 0 < t.size := Nat.pos_of_isPowerOfTwo h.size_pow

/-- The low bits of a hash are its remainder, since the number of buckets is a power of two. -/
theorem slot_eq_mod (h : t.size.isPowerOfTwo) (hash : UInt32) :
    t.slot hash = hash.toNat % t.size := by
  obtain ⟨k, hk⟩ := h
  rw [slot, hk, Nat.and_two_pow_sub_one_eq_mod]

theorem Sound.slot_lt (h : t.Sound) (hash : UInt32) : t.slot hash < t.size := by
  rw [slot_eq_mod h.size_pow]
  exact Nat.mod_lt _ h.size_pos

theorem entriesAt_empty (i : Nat) : (empty k : HashTable κ ν).entriesAt i = [] := by
  rw [entriesAt, Array.getD_eq_getD_getElem?, empty, Array.getElem?_replicate]
  split <;> rfl

theorem sound_empty (hk : k.Lawful) : (empty k : HashTable κ ν).Sound where
  lawful := hk
  size_pow := ⟨8, by simp [size, empty]⟩
  placed := by simp [entriesAt_empty]
  hashed := by simp [entriesAt_empty, Hashed]
  distinct := by simp [entriesAt_empty, DistinctKeys]

theorem lookup_empty (key : κ) : (empty k : HashTable κ ν).lookup key = none := by
  simp [lookup_eq, entriesAt_empty]

theorem entriesAt_setBucket (h : t.Sound) (counter : UInt32) (i : Nat) :
    entriesAt { t.setBucket key entries with counter } i = if i = t.bucketOf key then entries
      else t.entriesAt i := by
  have hlt : t.bucketOf key < t.buckets.size := h.slot_lt _
  rw [entriesAt, entriesAt, setBucket]
  by_cases hi : i = t.bucketOf key
  · simp [hi, hlt]
  · simp [hi, Ne.symm hi]

theorem Sound.setBucket (h : t.Sound) (counter : UInt32)
    (hp : ∀ e ∈ entries, t.slot e.hash = t.bucketOf key) (hh : Hashed t.keying entries)
    (hd : DistinctKeys t.keying entries) : Sound { t.setBucket key entries with counter } := by
  have hs : size { t.setBucket key entries with counter } = t.size := by
    simp [size, HashTable.setBucket]
  have hsl : ∀ hash, slot { t.setBucket key entries with counter } hash = t.slot hash := by
    intro hash
    rw [slot, slot, hs]
  refine ⟨h.lawful, hs ▸ h.size_pow, ?_, ?_, ?_⟩ <;> intro i <;> rw [entriesAt_setBucket h]
  · simp only [hsl]
    split
    · next hi => rw [hi]; exact hp
    · exact h.placed i
  · split
    · exact hh
    · exact h.hashed i
  · split
    · exact hd
    · exact h.distinct i

theorem bucketOf_congr (hk : t.keying.Lawful) (h : t.keying.same key other = true) :
    t.bucketOf other = t.bucketOf key := by
  rw [bucketOf, bucketOf, hk.hash key other h]

/-- A lookup sees the new entries of a bucket only if the key belongs there. -/
theorem lookup_setBucket (h : t.Sound) (counter : UInt32) {found : Option ν}
    (hen : (entries.find? fun e => t.keying.same e.key other).map (·.value) =
      if t.keying.same key other = true then found
      else ((t.entriesAt (t.bucketOf key)).find? fun e => t.keying.same e.key other).map
        (·.value)) :
    lookup { t.setBucket key entries with counter } other =
      if t.keying.same key other = true then found else t.lookup other := by
  have hb : bucketOf { t.setBucket key entries with counter } other = t.bucketOf other := by
    simp [bucketOf, slot, size, HashTable.setBucket]
  rw [lookup_eq, hb, entriesAt_setBucket h]
  by_cases he : t.bucketOf other = t.bucketOf key
  · rw [if_pos he, lookup_eq, he]
    exact hen
  · have hs : ¬t.keying.same key other = true := fun hs => he (bucketOf_congr h.lawful hs)
    rw [if_neg he, if_neg hs]
    rfl

@[simp] theorem double_keying : t.double.keying = t.keying := rfl

theorem double_size : t.double.size = 2 * t.size := by
  simp [double, size]
  omega

theorem isPowerOfTwo_double (h : t.size.isPowerOfTwo) : t.double.size.isPowerOfTwo := by
  rw [double_size, Nat.mul_comm]
  exact Nat.isPowerOfTwo_mul_two_of_isPowerOfTwo h

theorem divide_eq (stays : HashEntry κ ν → Bool) (entries moved : List (HashEntry κ ν)) :
    divide stays entries moved = (entries.filter stays,
      (entries.filter (!stays ·)).reverse ++ moved) := by
  induction entries generalizing moved with
  | nil => rfl
  | cons e entries ih =>
    rw [divide]
    by_cases he : stays e = true <;> simp [he, ih]

theorem entriesAt_double (i : Nat) : t.double.entriesAt i =
      if i < t.size then (t.entriesAt i).filter fun e => t.double.slot e.hash == i
      else ((t.entriesAt (i - t.size)).filter fun e =>
        !(t.double.slot e.hash == i - t.size)).reverse := by
  have hs : ∀ hash, t.double.slot hash = hash.toNat &&& (2 * t.size - 1) := by
    intro hash
    rw [slot, double_size]
  simp only [hs]
  rw [entriesAt, Array.getD_eq_getD_getElem?, double]
  simp only [Array.getElem?_append, Array.size_map, Array.size_mapIdx, Array.getElem?_map,
    Array.getElem?_mapIdx, divide_eq, append_nil]
  by_cases hi : i < t.size
  · have hb : i < t.buckets.size := hi
    simp [hi, hb, entriesAt]
  · have hb : ¬ i < t.buckets.size := hi
    simp only [hb, if_false, hi]
    rw [entriesAt, Array.getD_eq_getD_getElem?, size]
    cases t.buckets[i - t.buckets.size]? <;> rfl

/-- One more bit of a hash leaves it in its bucket or moves it up by the former size. -/
theorem slot_double (h : t.Sound) (hash : UInt32) :
    t.double.slot hash = t.slot hash ∨ t.double.slot hash = t.slot hash + t.size := by
  have hpos := h.size_pos
  rw [slot_eq_mod (isPowerOfTwo_double h.size_pow), slot_eq_mod h.size_pow, double_size]
  have hlt : hash.toNat % (2 * t.size) < 2 * t.size := Nat.mod_lt _ (by omega)
  have hmod : hash.toNat % (2 * t.size) % t.size = hash.toNat % t.size :=
    Nat.mod_mod_of_dvd _ (Nat.dvd_mul_left t.size 2)
  by_cases hr : hash.toNat % (2 * t.size) < t.size
  · rw [Nat.mod_eq_of_lt hr] at hmod
    exact Or.inl hmod
  · rw [Nat.mod_eq_sub_mod (by omega), Nat.mod_eq_of_lt (by omega)] at hmod
    omega

theorem Sound.double (h : t.Sound) : t.double.Sound := by
  refine ⟨h.lawful, isPowerOfTwo_double h.size_pow, ?_, ?_, ?_⟩ <;> intro i
  · intro e he
    rw [entriesAt_double] at he
    split at he
    · simpa using (mem_filter.mp he).2
    · obtain ⟨hmem, hmo⟩ := mem_filter.mp (mem_reverse.mp he)
      have hp := h.placed _ e hmem
      have hne : t.double.slot e.hash ≠ i - t.size := by simpa using hmo
      rcases slot_double h e.hash with hm | hm <;> omega
  · intro e he
    rw [entriesAt_double] at he
    split at he
    · exact h.hashed i e (mem_filter.mp he).1
    · exact h.hashed _ e (mem_filter.mp (mem_reverse.mp he)).1
  · rw [entriesAt_double]
    split
    · exact (h.distinct i).sublist filter_sublist
    · refine pairwise_reverse.mpr (((h.distinct _).sublist filter_sublist).imp ?_)
      intro e f hef
      rw [Bool.eq_false_iff] at hef ⊢
      exact fun hfe => hef (h.lawful.symm _ _ hfe)

/-- Entries with the same key have the same hash, so a filter by hash keeps them all or drops them
all. -/
theorem find?_filter_hash (hk : k.Lawful) (hh : Hashed k entries) {p}
    (hp : ∀ e ∈ entries, e.hash = k.hash key → p e = true) :
    (entries.filter p).find? (fun e => k.same e.key key) =
    entries.find? fun e => k.same e.key key := by
  induction entries with
  | nil => rfl
  | cons e entries ih =>
    have hr := ih (fun f hf => hh f (mem_cons_of_mem e hf))
      fun f hf => hp f (mem_cons_of_mem e hf)
    by_cases he : k.same e.key key = true
    · have hpe := hp e mem_cons_self ((hh e mem_cons_self).trans (hk.hash _ _ he))
      simp [hpe, he]
    · by_cases hpe : p e = true <;> simp [hpe, he, hr]

theorem lookup_double (h : t.Sound) (key : κ) : t.double.lookup key = t.lookup key := by
  have hlt : t.bucketOf key < t.size := h.slot_lt _
  rw [lookup_eq, lookup_eq, double_keying, entriesAt_double]
  rcases slot_double h (t.keying.hash key) with hm | hm
  · have hb : t.double.bucketOf key = t.bucketOf key := hm
    rw [hb, if_pos hlt, find?_filter_hash h.lawful (h.hashed _)]
    intro e _ he
    rw [he, beq_iff_eq]
    exact hm
  · have hb : t.double.bucketOf key = t.bucketOf key + t.size := hm
    have hsub : t.bucketOf key + t.size - t.size = t.bucketOf key := Nat.add_sub_cancel _ _
    rw [hb, if_neg (by omega), hsub,
      find?_reverse_of_distinct h.lawful ((h.distinct _).sublist filter_sublist),
      find?_filter_hash h.lawful (h.hashed _)]
    intro e _ he
    have hmo : t.double.slot e.hash ≠ t.bucketOf key := by
      rw [he]
      omega
    simpa using hmo

theorem Sound.store (h : t.Sound) (key : κ) (value : ν) : (t.store key value).Sound := by
  refine h.setBucket _ ?_ ?_ (distinctKeys_putEntry (h.distinct _) _)
  · intro e he
    rcases mem_putEntry he with rfl | ⟨f, hf, hh, -⟩
    · rfl
    · rw [hh]
      exact h.placed _ f hf
  · intro e he
    rcases mem_putEntry he with rfl | ⟨f, hf, hh, hkey⟩
    · rfl
    · rw [hh, hkey]
      exact h.hashed _ f hf

theorem lookup_store (h : t.Sound) (key : κ) (value : ν) (other : κ) :
    (t.store key value).lookup other =
      if t.keying.same key other = true then some value else t.lookup other :=
  lookup_setBucket h _ (find?_putEntry h.lawful _ other)

/-- What an insertion comes to: the value is stored, and the table may have been doubled. -/
theorem grow_cases (h : t.grow = .ok u) : u = t ∨ u = t.double := by
  unfold grow at h
  split at h
  · exact .inl (Except.ok.inj h).symm
  · split at h
    · exact .inr (Except.ok.inj h).symm
    · cases h

theorem insert_cases (t : HashTable κ ν) (key : κ) (value : ν) :
    t.insert key value = t.store key value ∨ t.insert key value = (t.store key value).double := by
  unfold insert insert?
  cases h : (t.store key value).grow with
  | error e => exact .inl rfl
  | ok u => exact grow_cases h

theorem Sound.insert (h : t.Sound) : (t.insert key value).Sound := by
  rcases insert_cases t key value with hi | hi <;> rw [hi]
  · exact h.store key value
  · exact (h.store key value).double

@[simp] theorem insert_keying : (t.insert key value).keying = t.keying := by
  rcases insert_cases t key value with hi | hi <;> rw [hi] <;> rfl

theorem lookup_insert (h : t.Sound) (other : κ) : (t.insert key value).lookup other =
      if t.keying.same key other = true then some value else t.lookup other := by
  rcases insert_cases t key value with hi | hi <;> rw [hi]
  · exact lookup_store h key value other
  · rw [lookup_double (h.store key value), lookup_store h]

/-- An insertion that does not fail is one whose failure was not looked at. -/
theorem insert_of_insert? {u : HashTable κ ν} (h : t.insert? key value = .ok u) :
    t.insert key value = u := by
  rw [insert, h]
  rfl

private theorem remove_eq : (t.remove key).2 = match t.lookup key with
    | none => t
    | some _ =>
      { t.setBucket key (eraseEntry (t.keying.same · key) (t.entriesAt (t.bucketOf key))) with
        counter := t.counter - 1 } := by
  rw [remove]
  cases t.lookup key <;> rfl

theorem Sound.remove (h : t.Sound) : (t.remove key).2.Sound := by
  rw [remove_eq]
  split
  · exact h
  · rw [eraseEntry_eq_eraseP]
    refine h.setBucket _ ?_ ?_ ((h.distinct _).sublist eraseP_sublist)
    · exact fun e he => h.placed _ e (mem_of_mem_eraseP he)
    · exact fun e he => h.hashed _ e (mem_of_mem_eraseP he)

@[simp] theorem remove_keying : (t.remove key).2.keying = t.keying := by
  rw [remove_eq]
  split <;> rfl

theorem lookup_remove (h : t.Sound) (other : κ) : (t.remove key).2.lookup other =
      if t.keying.same key other = true then none else t.lookup other := by
  rw [remove_eq]
  split
  · next hn =>
    split
    · next hs =>
      have hc : (fun e : HashEntry κ ν => t.keying.same e.key other) =
          fun e => t.keying.same e.key key :=
        funext fun e => (h.lawful.same_congr hs e.key).symm
      rw [lookup_eq, bucketOf_congr h.lawful hs, hc]
      exact hn
    · rfl
  · refine lookup_setBucket h _ ?_
    rw [find?_eraseEntry h.lawful (h.distinct _), apply_ite (Option.map _)]
    rfl

end HashTable

end TemplateKit
