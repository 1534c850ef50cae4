import TemplateKit.Proofs.Container.HashTable

/-!
# Hash tables after any history

What a table answers is told by the insertions and removals that were made, the latest first. A walk
goes from each entry to the one behind its key; it comes by every entry of the table once and ends.
The counter of a table never falls below the number of its entries, so that a removal does not take
it below zero, and insertions that are fewer than 2^31 never fail.
-/

namespace TemplateKit.HashTable

open List Option

variable {κ ν : Type} {k : Keying κ} {t : HashTable κ ν} {key : κ} {value : ν} {e : HashEntry κ ν}
variable {i : Nat} {front back : List (HashEntry κ ν)}

def entries (t : HashTable κ ν) : List (HashEntry κ ν) := t.buckets.toList.flatten

theorem entriesAt_eq (t : HashTable κ ν) (i : Nat) :
    t.entriesAt i = t.buckets.toList[i]?.getD [] := by
  rw [entriesAt, Array.getD_eq_getD_getElem?, ← Array.getElem?_toList]

theorem entriesAt_of_lt (h : i < t.buckets.toList.length) :
    t.entriesAt i = t.buckets.toList[i] := by
  rw [entriesAt_eq, getElem?_eq_getElem h, getD_some]

theorem entriesAt_of_split {before behind bucket}
    (h : t.buckets.toList = before ++ bucket :: behind) : t.entriesAt before.length = bucket := by
  rw [entriesAt_eq, h]
  simp

theorem exists_entriesAt (h : e ∈ t.entries) : ∃ i, e ∈ t.entriesAt i := by
  obtain ⟨bucket, hb, he⟩ := mem_flatten.mp h
  obtain ⟨before, behind, hs⟩ := append_of_mem hb
  exact ⟨before.length, entriesAt_of_split hs ▸ he⟩

theorem mem_entries (h : e ∈ t.entriesAt i) : e ∈ t.entries := by
  rw [entriesAt_eq] at h
  cases hb : t.buckets.toList[i]? with
  | none => simp [hb] at h
  | some bucket =>
    rw [hb] at h
    exact mem_flatten.mpr ⟨bucket, mem_of_getElem? hb, h⟩

theorem Sound.bucketOf_eq (h : t.Sound) (he : e ∈ t.entriesAt i)
    (hs : t.keying.same e.key key = true) : t.bucketOf key = i := by
  rw [bucketOf, ← h.lawful.hash e.key key hs, ← h.hashed i e he]
  exact h.placed i e he

/-- Where no two keys are the same, a search finds the entry that has the key. -/
theorem find?_of_mem (hk : k.Lawful) {entries} (h : DistinctKeys k entries) (he : e ∈ entries)
    (hs : k.same e.key key = true) : (entries.find? fun f => k.same f.key key) = some e := by
  induction entries with
  | nil => cases he
  | cons f entries ih =>
    obtain ⟨hfi, hr⟩ := pairwise_cons.mp h
    rcases mem_cons.mp he with rfl | he
    · exact find?_cons_of_pos hs
    · have hf : ¬ k.same f.key key = true := by
        intro hf
        have hfe := hk.trans _ _ _ hf (hk.symm _ _ hs)
        exact absurd hfe (by simp [hfi e he])
      rw [find?_cons_of_neg (p := fun g : HashEntry κ ν => k.same g.key key) hf, ih hr he]

theorem lookup_eq_some_iff (h : t.Sound) :
    t.lookup key = some value ↔ ∃ e ∈ t.entries, t.keying.same e.key key = true ∧
      e.value = value := by
  constructor
  · intro hf
    obtain ⟨e, he, hv⟩ := map_eq_some_iff.mp hf
    exact ⟨e, mem_entries (mem_of_find?_eq_some he), by simpa using find?_some he, hv⟩
  · rintro ⟨e, he, hs, rfl⟩
    obtain ⟨i, hi⟩ := exists_entriesAt he
    rw [lookup_eq, h.bucketOf_eq hi hs, find?_of_mem h.lawful (h.distinct i) hi hs]
    rfl

theorem distinctKeys_entries (h : t.Sound) : DistinctKeys t.keying t.entries := by
  refine pairwise_flatten.mpr ⟨fun bucket hb => ?_, ?_⟩
  · obtain ⟨before, behind, hs⟩ := append_of_mem hb
    exact entriesAt_of_split hs ▸ h.distinct before.length
  · rw [pairwise_iff_getElem]
    intro i j hi hj hij e he f hf
    rw [Bool.eq_false_iff]
    intro hsa
    rw [← entriesAt_of_lt hi] at he
    rw [← entriesAt_of_lt hj] at hf
    have hi' := h.bucketOf_eq he hsa
    have hj' := h.bucketOf_eq hf (h.lawful.refl f.key)
    omega

theorem firstWithin_eq {room} (hr : room + i = t.size) :
    t.firstWithin room i = (t.buckets.toList.drop i).flatten.head? := by
  induction room generalizing i with
  | zero =>
    have hend : t.buckets.toList.drop i = [] := by
      rw [drop_eq_nil_iff]
      exact Nat.le_of_eq ((Nat.zero_add i).symm.trans hr).symm
    rw [hend]
    rfl
  | succ room ih =>
    have hi : i < t.buckets.toList.length := by
      change i < t.size
      omega
    rw [firstWithin, drop_eq_getElem_cons hi, ← entriesAt, entriesAt_of_lt hi]
    cases t.buckets.toList[i] with
    | nil => simpa using ih (by omega)
    | cons e more => rfl

theorem firstFrom_eq (hi : i ≤ t.size) : t.firstFrom i = (t.buckets.toList.drop i).flatten.head? :=
  firstWithin_eq (by omega)

theorem next?_of_split (h : t.Sound) {before behind}
    (hs : t.buckets.toList = before ++ (front ++ e :: back) :: behind) :
    t.next? (some e.key) = (back ++ behind.flatten).head? := by
  have hat := entriesAt_of_split hs
  have hmem : e ∈ t.entriesAt before.length := by simp [hat]
  have hb : t.bucket e.key = front ++ e :: back := by
    rw [← hat, ← h.bucketOf_eq hmem (h.lawful.refl e.key)]
    rfl
  have hd : DistinctKeys t.keying (front ++ e :: back) := hat ▸ h.distinct before.length
  have hfr : ∀ f ∈ front, (!t.keying.same f.key e.key) = true := by
    intro f hf
    rw [(pairwise_append.mp hd).2.2 f hf e mem_cons_self]
    rfl
  have hdr : (t.bucket e.key).dropWhile (fun f => !t.keying.same f.key e.key) = e :: back := by
    rw [hb, dropWhile_append_of_pos hfr, dropWhile_cons_of_neg (by simp [h.lawful.refl e.key])]
  rw [next?, hdr]
  cases back with
  | cons f back => rfl
  | nil =>
    have hsi : t.size = before.length + (behind.length + 1) := by
      have hl := congrArg List.length hs
      rwa [length_append] at hl
    dsimp only
    rw [h.placed _ e hmem, firstFrom_eq (by omega), hs, ← drop_drop, drop_left]
    rfl

/-- Where an entry stands in its bucket, told from where it stands among all entries. -/
theorem exists_split {buckets} (h : buckets.flatten = front ++ e :: back) :
    ∃ before behind front' back', buckets = before ++ (front' ++ e :: back') :: behind ∧
      back = back' ++ behind.flatten := by
  induction buckets generalizing front with
  | nil => simp at h
  | cons bucket buckets ih =>
    rw [flatten_cons, append_eq_append_iff] at h
    rcases h with ⟨more, -, hbu⟩ | ⟨more, rfl, hb⟩
    · obtain ⟨before, behind, front', back', rfl, hba⟩ := ih hbu
      exact ⟨bucket :: before, behind, front', back', rfl, hba⟩
    · cases more with
      | nil =>
        obtain ⟨before, behind, front', back', rfl, hba⟩ := @ih [] hb.symm
        exact ⟨(front ++ []) :: before, behind, front', back', rfl, hba⟩
      | cons f more =>
        cases hb
        exact ⟨[], buckets, front, more, rfl, rfl⟩

/-- A walk from a key, or from the beginning, comes by these entries and ends. -/
inductive Walks (t : HashTable κ ν) : Option κ → List (HashEntry κ ν) → Prop
  | ended {key : Option κ} (h : t.next? key = none) : Walks t key []
  | step {key : Option κ} {e : HashEntry κ ν} {more : List (HashEntry κ ν)}
      (h : t.next? key = some e) (rest : Walks t (some e.key) more) : Walks t key (e :: more)

theorem walks_of_next? {key entries} (hf : t.next? key = entries.head?)
    (hn : ∀ front e back, entries = front ++ e :: back → t.next? (some e.key) = back.head?) :
    t.Walks key entries := by
  induction entries generalizing key with
  | nil => exact .ended hf
  | cons e more ih =>
    refine .step hf (ih (hn [] e more rfl) fun front f back hm => ?_)
    exact hn (e :: front) f back (by rw [hm, cons_append])

theorem walks_entries (h : t.Sound) : t.Walks none t.entries := by
  refine walks_of_next? (firstFrom_eq (Nat.zero_le _)) fun _ _ _ hs => ?_
  obtain ⟨before, behind, front', back', hb, rfl⟩ := exists_split hs
  exact next?_of_split h hb

theorem listFrom_of_walks {key entries} (h : t.Walks key entries) :
    t.listFrom entries.length key = entries := by
  induction h with
  | ended h => rfl
  | step h rest ih =>
    rw [length_cons, listFrom, h]
    dsimp only
    rw [ih]

theorem entryCount_eq (t : HashTable κ ν) : t.entryCount = t.entries.length := by
  rw [entryCount, ← Array.foldl_toList, entries, length_flatten, sum_eq_foldl, foldl_map]

theorem toList_eq (h : t.Sound) : t.toList = t.entries := by
  rw [toList, entryCount_eq]
  exact listFrom_of_walks (walks_entries h)

theorem length_entries_setBucket (h : t.Sound) (key : κ) (new : List (HashEntry κ ν)) :
    (t.setBucket key new).entries.length + (t.bucket key).length =
    t.entries.length + new.length := by
  have hlt : t.bucketOf key < t.buckets.toList.length := h.slot_lt _
  have hbucket : t.bucket key = t.buckets.toList[t.bucketOf key] := entriesAt_of_lt hlt
  have hold : t.entries =
      (t.buckets.toList.take (t.bucketOf key) ++ t.bucket key ::
        t.buckets.toList.drop (t.bucketOf key + 1)).flatten := by
    rw [hbucket, ← drop_eq_getElem_cons hlt, take_append_drop, entries]
  have hnew : (t.setBucket key new).entries =
      (t.buckets.toList.take (t.bucketOf key) ++ new ::
        t.buckets.toList.drop (t.bucketOf key + 1)).flatten := by
    rw [entries, setBucket, Array.toList_setIfInBounds, set_eq_take_append_cons_drop, if_pos hlt]
  rw [hnew, hold, flatten_append, flatten_append, flatten_cons, flatten_cons]
  simp only [length_append]
  omega

theorem length_putEntry_le (same : κ → Bool) (new : HashEntry κ ν)
    (entries : List (HashEntry κ ν)) :
    (putEntry same new entries).length ≤ entries.length + 1 := by
  induction entries with
  | nil => exact Nat.le_refl 1
  | cons e entries ih =>
    rw [putEntry]
    split
    · exact Nat.le_succ _
    · exact Nat.succ_le_succ ih

theorem length_entries_store_le (h : t.Sound) (key : κ) (value : ν) :
    (t.store key value).entries.length ≤ t.entries.length + 1 := by
  have hput := length_putEntry_le (t.keying.same · key) ⟨t.keying.hash key, key,
    value⟩ (t.bucket key)
  have hset : (t.store key value).entries.length + (t.bucket key).length = t.entries.length + _ :=
    length_entries_setBucket h key _
  omega

theorem length_entries_remove (h : t.Sound) (hv : t.lookup key = some value) :
    (t.remove key).2.entries.length + 1 = t.entries.length := by
  obtain ⟨e, he, -⟩ := map_eq_some_iff.mp hv
  have hmem := mem_of_find?_eq_some he
  have hpos := length_pos_of_mem hmem
  have hset := length_entries_setBucket h key (eraseEntry (t.keying.same · key) (t.bucket key))
  have hentries : (t.remove key).2.entries =
      (t.setBucket key (eraseEntry (t.keying.same · key) (t.bucket key))).entries := by
    rw [remove, hv]
    rfl
  have herase : (eraseEntry (t.keying.same · key) (t.bucket key)).length =
      (t.bucket key).length - 1 := by
    rw [eraseEntry_eq_eraseP]
    exact length_eraseP_of_mem hmem (by simpa using find?_some he)
  rw [hentries]
  omega

/-- Buckets that are divided keep their entries, in two parts. -/
theorem length_flatten_mapIdx {f : Nat → List (HashEntry κ ν) →
    List (HashEntry κ ν) × List (HashEntry κ ν)}
    (hf : ∀ i bucket, (f i bucket).1.length + (f i bucket).2.length = bucket.length)
    (buckets : List (List (HashEntry κ ν))) :
    ((buckets.mapIdx f).map (·.1)).flatten.length + ((buckets.mapIdx f).map (·.2)).flatten.length =
      buckets.flatten.length := by
  induction buckets generalizing f with
  | nil => rfl
  | cons bucket buckets ih =>
    have hmore := ih (f := fun i => f (i + 1)) fun i => hf (i + 1)
    have hfirst := hf 0 bucket
    rw [mapIdx_cons, map_cons, map_cons, flatten_cons, flatten_cons, flatten_cons, length_append,
      length_append, length_append]
    omega

theorem length_entries_double (t : HashTable κ ν) : t.double.entries.length = t.entries.length := by
  rw [entries, double]
  simp only [Array.toList_append, Array.toList_map, Array.toList_mapIdx, flatten_append,
    length_append]
  refine length_flatten_mapIdx (fun i bucket => ?_) _
  rw [divide_eq, append_nil, length_reverse]
  exact (length_eq_length_filter_add _).symm

/-- The counter is between the number of entries and a bound. -/
def Counts (t : HashTable κ ν) (bound : Nat) : Prop := t.entries.length ≤ t.count ∧ t.count ≤ bound

theorem Counts.insert? {bound : Nat} (hc : t.Counts bound) (h : t.Sound)
    (hb : bound + 1 < 0x80000000) (key : κ) (value : ν) :
    ∃ u, t.insert? key value = .ok u ∧ u.Counts (bound + 1) := by
  have hcount : (t.store key value).count = t.count + 1 := by
    change (t.counter + 1).toNat = t.counter.toNat + 1
    rw [UInt32.toNat_add, UInt32.toNat_one, Nat.mod_eq_of_lt]
    have := hc.2
    rw [count] at this
    omega
  have hstored : (t.store key value).Counts (bound + 1) :=
    ⟨Nat.le_trans (length_entries_store_le h key value) (hcount ▸ Nat.succ_le_succ hc.1),
      hcount ▸ Nat.succ_le_succ hc.2⟩
  rw [HashTable.insert?, grow]
  split
  · exact ⟨_, rfl, hstored⟩
  · next hfull =>
    have hroom : 2 * (t.store key value).size < 0x100000000 := by
      have := hstored.2
      omega
    rw [if_pos hroom]
    refine ⟨_, rfl, ?_⟩
    rw [Counts, length_entries_double]
    exact hstored

theorem Counts.remove {bound : Nat} (hc : t.Counts bound) (h : t.Sound) (key : κ) :
    (t.remove key).2.Counts bound := by
  cases hv : t.lookup key with
  | none =>
    rw [HashTable.remove, hv]
    exact hc
  | some value =>
    have hentries := length_entries_remove h hv
    have hcount : (t.remove key).2.count = t.count - 1 := by
      rw [HashTable.remove, hv]
      change (t.counter - 1).toNat = t.counter.toNat - 1
      have := hc.1
      rw [count] at this
      exact UInt32.toNat_sub_of_le _ _ (UInt32.le_iff_toNat_le.mpr (by
        rw [UInt32.toNat_one]; omega))
    obtain ⟨hlow, hhigh⟩ := hc
    rw [Counts, hcount]
    omega

/-- What can be done to a table. -/
inductive Operation (κ ν : Type) where
  | insert (key : κ) (value : ν)
  | remove (key : κ)
  | lookup (key : κ)

namespace Operation

def isInsertion : Operation κ ν → Bool
  | insert _ _ => true
  | _ => false

/-- The table after an operation, or the failure of an insertion. -/
def run (t : HashTable κ ν) : Operation κ ν → Except Failure (HashTable κ ν)
  | insert key value => t.insert? key value
  | remove key => .ok (t.remove key).2
  | lookup _ => .ok t

/-- The value that was last inserted under the same key and not removed since. The history is told
from its end. -/
def latest (k : Keying κ) (key : κ) : (history : List (Operation κ ν)) → Option ν
  | [] => none
  | insert other value :: earlier => if k.same other key = true then some value
      else latest k key earlier
  | remove other :: earlier => if k.same other key = true then none else latest k key earlier
  | lookup _ :: earlier => latest k key earlier

end Operation

/-- The table after a history, which is told from its end. An insertion that fails ends it. -/
def after (k : Keying κ) : (history : List (Operation κ ν)) → Except Failure (HashTable κ ν)
  | [] => .ok (empty k)
  | o :: earlier => after k earlier >>= o.run

theorem after_cons {o : Operation κ ν} {earlier} (h : after k (o :: earlier) = .ok t) :
    ∃ u, after k earlier = .ok u ∧ o.run u = .ok t := by
  rw [after] at h
  cases hu : after k earlier with
  | error e =>
    rw [hu] at h
    cases h
  | ok u =>
    rw [hu] at h
    exact ⟨u, rfl, h⟩

theorem run_sound {u : HashTable κ ν} (h : t.Sound) {o : Operation κ ν} (hr : o.run t = .ok u) :
    u.Sound ∧ u.keying = t.keying := by
  cases o with
  | insert key value =>
    rw [← insert_of_insert? hr]
    exact ⟨h.insert, insert_keying⟩
  | remove key =>
    cases hr
    exact ⟨h.remove, remove_keying⟩
  | lookup key =>
    cases hr
    exact ⟨h, rfl⟩

theorem after_sound (hk : k.Lawful) {history : List (Operation κ ν)} (h : after k history = .ok t) :
    t.Sound ∧ t.keying = k := by
  induction history generalizing t with
  | nil =>
    cases h
    exact ⟨sound_empty hk, rfl⟩
  | cons o earlier ih =>
    obtain ⟨u, hu, hrun⟩ := after_cons h
    obtain ⟨hsound, hkeying⟩ := ih hu
    obtain ⟨hsound', hkeying'⟩ := run_sound hsound hrun
    exact ⟨hsound', hkeying'.trans hkeying⟩

theorem lookup_after (hk : k.Lawful) {history : List (Operation κ ν)}
    (h : after k history = .ok t) (key : κ) :
    t.lookup key = Operation.latest k key history := by
  induction history generalizing t with
  | nil =>
    cases h
    exact lookup_empty key
  | cons o earlier ih =>
    obtain ⟨u, hu, hrun⟩ := after_cons h
    obtain ⟨hsound, hkeying⟩ := after_sound hk hu
    cases o with
    | insert other value => rw [← insert_of_insert? hrun, lookup_insert hsound, hkeying, ih hu,
        Operation.latest]
    | remove other =>
      cases hrun
      rw [lookup_remove hsound, hkeying, ih hu, Operation.latest]
    | lookup other =>
      cases hrun
      exact ih hu

/-- Fewer than 2^31 insertions do not fail: the counter does not reach the largest number of
buckets. -/
theorem after_ok (hk : k.Lawful) {history : List (Operation κ ν)}
    (h : history.countP Operation.isInsertion < 0x80000000) :
    ∃ t, after k history = .ok t ∧ t.Counts (history.countP Operation.isInsertion) := by
  induction history with
  | nil =>
    have hnone : (empty k : HashTable κ ν).entries = [] :=
      eq_nil_iff_forall_not_mem.mpr fun e he => by
      obtain ⟨i, hi⟩ := exists_entriesAt he
      rw [entriesAt_empty] at hi
      cases hi
    exact ⟨_, rfl, hnone ▸ Nat.zero_le _, Nat.le_refl _⟩
  | cons o earlier ih =>
    rw [countP_cons] at h
    obtain ⟨u, hu, hcounts⟩ := ih (by omega)
    have hsound := (after_sound hk hu).1
    rw [after, hu, countP_cons]
    cases o with
    | insert key value => exact hcounts.insert? hsound h key value
    | remove key => exact ⟨_, rfl, hcounts.remove hsound key⟩
    | lookup key => exact ⟨_, rfl, hcounts⟩

theorem remove_fst (t : HashTable κ ν) (key : κ) : (t.remove key).1 = t.lookup key := by
  rw [remove]
  cases t.lookup key <;> rfl

/-- A hash table is a finite map, whatever was done with it before. Fewer than 2^31 insertions, of
values that replace others too, do not fail. As long as none failed, a lookup answers with what was
last inserted under the same key and not removed since; a removal answers with the same value and
affects no other key; and a walk from the beginning comes by every stored entry once and ends. -/
theorem finite_map (hk : k.Lawful) (history : List (Operation κ ν)) :
    (history.countP Operation.isInsertion < 0x80000000 → ∃ t, after k history = .ok t) ∧
      ∀ t, after k history = .ok t →
        (∀ key, t.lookup key = Operation.latest k key history) ∧
          (∀ key, (t.remove key).1 = Operation.latest k key history ∧
            ∀ other, (t.remove key).2.lookup other = if k.same key other =
              true then none else t.lookup other) ∧
          t.Walks none t.toList ∧
          t.toList.Pairwise (fun e f => k.same e.key f.key = false) ∧
          ∀ key value, t.lookup key = some value ↔
            ∃ e ∈ t.toList, k.same e.key key = true ∧ e.value = value := by
  refine ⟨fun hfew => (after_ok hk hfew).imp fun _ h => h.1, fun t ht => ?_⟩
  obtain ⟨hsound, hkeying⟩ := after_sound hk ht
  have hlookup := lookup_after hk ht
  rw [toList_eq hsound]
  refine ⟨hlookup, fun key => ⟨(remove_fst _ key).trans (hlookup key), fun other => ?_⟩,
    walks_entries hsound, ?_, ?_⟩
  · rw [lookup_remove hsound, hkeying]
  · have hdistinct := distinctKeys_entries hsound
    rwa [DistinctKeys, hkeying] at hdistinct
  · intro key value
    rw [lookup_eq_some_iff hsound, hkeying]

/-- Three keys share a bucket. One of them has its value replaced and another one is removed. -/
theorem finite_map_shared_bucket :
    let history : List (Operation Int Nat) :=
      [.remove 1, .insert 513 5, .insert 257 4, .insert 1 3, .insert 257 2]
    let t :=
      (((((empty .integer).insert 257 2).insert 1 3).insert 257 4).insert 513 5).remove 1 |>.2
    Keying.integer.Lawful ∧ after .integer history = .ok t ∧ t.bucketOf 257 = t.bucketOf 1 ∧
      t.bucketOf 513 = t.bucketOf 1 ∧ t.lookup 257 = some 4 ∧ t.lookup 513 = some 5 ∧
      t.lookup 1 = none ∧
      t.Walks none t.toList ∧ t.toList.map (·.key) = [257, 513] := by
  intro history t
  have hafter : after .integer history = .ok t := by
    set_option maxRecDepth 4000 in rfl
  obtain ⟨hlookup, -, hwalk, -, -⟩ := (finite_map Keying.integer_lawful history).2 t hafter
  have hbuckets : t.bucketOf 257 = t.bucketOf 1 ∧ t.bucketOf 513 = t.bucketOf 1 ∧
      t.toList.map (·.key) = [257, 513] := by
    decide +kernel
  exact ⟨Keying.integer_lawful, hafter, hbuckets.1, hbuckets.2.1, hlookup 257, hlookup 513,
    hlookup 1, hwalk, hbuckets.2.2⟩

end TemplateKit.HashTable
