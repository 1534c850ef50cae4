import TemplateKit.Bytes.Basic

/-!
# Numbers and texts in a stream of bytes

Numbers take four or two bytes, the low byte first. A text takes one byte for its length, which is
255 at most, and then its bytes.
-/

namespace TemplateKit.Stream

/-- The lowest `width` bytes of a number, the low byte first. -/
def encodeNumber : (width n : Nat) → Bytes
  | 0, _ => []
  | width + 1, n => (n % 256).toUInt8 :: encodeNumber width (n / 256)

/-- The number in the first `width` bytes. -/
def decodeNumber : (width : Nat) → Bytes → Nat
  | 0, _ => 0
  | width + 1, s => (s.headD 0).toNat + 256 * decodeNumber width (s.drop 1)

def encode4 (n : Int) : Bytes := encodeNumber 4 (n % 0x100000000).toNat

def encode2 (n : Int) : Bytes := encodeNumber 2 (n % 0x10000).toNat

def decode4 (s : Bytes) : Nat := decodeNumber 4 s

def decode2 (s : Bytes) : Nat := decodeNumber 2 s

/-- The most that the one byte for a length can say. -/
def longestText : Nat := 255

/-- The length and the bytes of a text. What is beyond the longest text is left out. -/
def encodeText (s : Bytes) : Bytes :=
  let s := s.take longestText
  s.length.toUInt8 :: s

/-- Reads a text into a buffer: what the buffer holds then, and how many bytes of the stream were
passed. The end mark is set in the last byte only, so between a short text and the mark the buffer
holds what it held before. -/
def fillText (buffer s : Bytes) : Bytes × Nat :=
  let size := min (s.headD 0).toNat buffer.length
  (((s.drop 1).take size ++ buffer.drop size).set (buffer.length - 1) 0, size + 1)

/-- Reads a text into an empty buffer of the given size, and takes it up to its end mark. -/
def decodeText (room : Nat) (s : Bytes) : Bytes × Nat :=
  let (filled, passed) := fillText (List.replicate room 0) s
  (Bytes.untilNul filled, passed)

end TemplateKit.Stream
