import Mathlib.Data.List.Basic
import TemplateKit.Bytes.Stream

/-!
# Streams that are read as they were written

Items are written one after the other and read in the same order, each text into a buffer of its
own. A text that is longer than its buffer is passed only as far as it was read, so what is read
next is still inside of it. Up to there reading stays in step with writing. A text that is shorter
than its buffer is not ended where it ends: the bytes behind it stay what they were, up to the mark
in the last byte.
-/

namespace TemplateKit.Stream

open List

/-- An item, with the buffer that a text will be read into. -/
inductive Item where
  | four (n : UInt32)
  | two (n : UInt16)
  | text (s buffer : Bytes) (short : s.length ≤ longestText) (room : 0 < buffer.length)

/-- How an item is read. -/
inductive Field where
  | four
  | two
  | text (buffer : Bytes)

/-- What an item is read as: a number, or the whole of a buffer. -/
inductive Datum where
  | number (n : Nat)
  | text (filled : Bytes)

/-- What is read, and how many bytes were passed. -/
def Field.decode (s : Bytes) : Field → Datum × Nat
  | four => (.number (decode4 s), 4)
  | two => (.number (decode2 s), 2)
  | text buffer => (.text (fillText buffer s).1, (fillText buffer s).2)

/-- Reads fields one after the other, each from where the one before it ended. -/
def decodeAll : List Field → Bytes → List Datum × Nat
  | [], _ => ([], 0)
  | f :: fs, s =>
    let (d, passed) := f.decode s
    let (ds, more) := decodeAll fs (s.drop passed)
    (d :: ds, passed + more)

namespace Item

/-- An item as it is written. -/
def encode : Item → Bytes
  | four n => encode4 n.toNat
  | two n => encode2 n.toNat
  | text s _ _ _ => encodeText s

/-- How an item is read back: a text into the buffer that is ready for it. -/
def field : Item → Field
  | four _ => .four
  | two _ => .two
  | text _ buffer _ _ => .text buffer

/-- What is to be read of the item: a number as it is, and of a text as much as stands in front of
the mark in the last byte of the buffer. Between a short text and the mark are the old bytes of the
buffer. -/
def datum : Item → Datum
  | four n => .number n.toNat
  | two n => .number n.toNat
  | text s buffer _ _ =>
    .text (s.take (buffer.length - 1) ++ (buffer.take (buffer.length - 1)).drop s.length ++ [0])

/-- The bytes of a text beyond its buffer. -/
def excess : Item → Nat
  | text s buffer _ _ => s.length - buffer.length
  | _ => 0

end Item

/-- Items written one after the other. -/
def encodeAll (items : List Item) : Bytes := items.flatMap Item.encode

theorem decodeNumber_succ (width n : Nat) (rest : Bytes) :
    decodeNumber (width + 1) (encodeNumber (width + 1) n ++ rest) =
      n % 256 + 256 * decodeNumber width (encodeNumber width (n / 256) ++ rest) := by
  have hb : (n % 256).toUInt8.toNat = n % 256 := by simp
  rw [encodeNumber, cons_append, decodeNumber, headD_cons, hb]
  rfl

/-- A text overwrites the front of a buffer, and the mark its last byte. -/
theorem set_last_mark (s : Bytes) {buffer : Bytes} (h : 0 < buffer.length) :
    (s.take buffer.length ++ buffer.drop s.length).set (buffer.length - 1) 0 =
      s.take (buffer.length - 1) ++ (buffer.take (buffer.length - 1)).drop s.length ++ [0] := by
  have hlength : (s.take buffer.length ++ buffer.drop s.length).length = buffer.length := by
    rw [length_append, length_take, length_drop]
    omega
  rw [set_eq_take_append_cons_drop, if_pos (by omega),
    drop_eq_nil_of_le (by omega : _ ≤ buffer.length - 1 + 1), take_append, take_take, drop_take,
    length_take]
  congr 3 <;> omega

/-- An item that fits is passed as a whole, and a longer text as far as its buffer goes. -/
theorem decode_encode (i : Item) (rest : Bytes) :
    ∃ p, i.field.decode (i.encode ++ rest) = (i.datum, p) ∧ p + i.excess = i.encode.length := by
  cases i with
  | four n =>
    have hn := n.toNat_lt
    have hd : decode4 (encode4 n.toNat ++ rest) = n.toNat := by
      rw [decode4, encode4, decodeNumber_succ, decodeNumber_succ, decodeNumber_succ,
        decodeNumber_succ, decodeNumber]
      omega
    exact ⟨4, congrArg (Datum.number ·, 4) hd, rfl⟩
  | two n =>
    have hn := n.toNat_lt
    have hd : decode2 (encode2 n.toNat ++ rest) = n.toNat := by
      rw [decode2, encode2, decodeNumber_succ, decodeNumber_succ, decodeNumber]
      omega
    exact ⟨2, congrArg (Datum.number ·, 2) hd, rfl⟩
  | text s buffer short room =>
    have hl : s.length.toUInt8.toNat = s.length := UInt8.toNat_ofNat_of_lt (Nat.lt_succ_of_le short)
    have he : encodeText s = s.length.toUInt8 :: s := by rw [encodeText, take_of_length_le short]
    have htaken : (s ++ rest).take (min s.length buffer.length) = s.take buffer.length := by
      rw [take_append_of_le_length (by omega)]
      exact take_eq_take_iff.mpr (by omega)
    have hkept : buffer.drop (min s.length buffer.length) = buffer.drop s.length :=
      drop_eq_drop_iff.mpr (by omega)
    have hf : fillText buffer (encodeText s ++ rest) =
        (s.take (buffer.length - 1) ++ (buffer.take (buffer.length - 1)).drop s.length ++ [0],
          min s.length buffer.length + 1) := by
      rw [fillText, he, cons_append, headD_cons, hl, drop_one, tail_cons, htaken, hkept,
        set_last_mark s room]
    refine ⟨_, by rw [Item.field, Field.decode, Item.encode, hf]; rfl, ?_⟩
    rw [Item.encode, he, length_cons, Item.excess]
    omega

/-- If no text but the last item is longer than its buffer, every number and the front of every text
is recovered. Reading ends where writing ended, short of it by what the last text is too long. -/
theorem decodeAll_encodeAll {items : List Item} (h : ∀ i ∈ items, i.excess = 0) (last : Item)
    (rest : Bytes) :
    ∃ p, decodeAll ((items ++ [last]).map Item.field) (encodeAll (items ++ [last]) ++ rest) =
        ((items ++ [last]).map Item.datum, p) ∧
      p + last.excess = (encodeAll (items ++ [last])).length := by
  induction items with
  | nil =>
    obtain ⟨p, hp, hlen⟩ := decode_encode last rest
    refine ⟨p, ?_, ?_⟩
    · simp [decodeAll, encodeAll, hp]
    · simpa [encodeAll] using hlen
  | cons i items ih =>
    obtain ⟨hi, hr⟩ := forall_mem_cons.mp h
    obtain ⟨p, hp, hlen⟩ := decode_encode i (encodeAll (items ++ [last]) ++ rest)
    obtain ⟨q, hq, hend⟩ := ih hr
    rw [hi, Nat.add_zero] at hlen
    have hdrop : (i.encode ++ (encodeAll (items ++ [last]) ++ rest)).drop p =
        encodeAll (items ++ [last]) ++ rest := by
      rw [hlen, drop_left]
    refine ⟨p + q, ?_, ?_⟩
    · rw [cons_append, map_cons, map_cons, encodeAll, flatMap_cons, append_assoc,
        decodeAll, ← encodeAll, hp]
      dsimp only
      rw [hdrop, hq]
    · rw [cons_append, encodeAll, flatMap_cons, length_append, ← encodeAll, ← hend, hlen,
        Nat.add_assoc]

/-- A text is cut to its buffer, and a short one leaves the end of the buffer as it was. -/
theorem decodeAll_small_room :
    ∃ p, decodeAll [.text (ascii "..."), .two, .text (ascii ".....")]
        (encodeAll [.text (ascii "abc") (ascii "...") (by decide) (by decide), .two 7,
          .text (ascii "ab") (ascii ".....") (by decide) (by decide)] ++ []) =
      ([.text (ascii "ab" ++ [0]), .number 7, .text (ascii "ab.." ++ [0])], p) ∧ p + 0 = 9 :=
  @decodeAll_encodeAll [.text (ascii "abc") (ascii "...") (by decide) (by decide),
    .two 7] (by decide) (.text (ascii "ab") (ascii ".....") (by decide) (by decide)) []

/-- The number behind a text that is longer than its buffer is read from within the text. -/
theorem decodeAll_out_of_step :
    decodeAll [.text [0, 0, 0, 0], .two]
        (encodeAll [.text (ascii "abcdef") [0, 0, 0, 0] (by decide) (by decide), .two 7]) =
        ([.text (ascii "abc" ++ [0]), .number 0x6665], 7) ∧
      (encodeAll [.text (ascii "abcdef") [0, 0, 0, 0] (by decide) (by decide), .two 7]).length =
      9 :=
  ⟨rfl, rfl⟩

end TemplateKit.Stream
