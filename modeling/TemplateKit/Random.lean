import TemplateKit.Bytes.Basic

/-!
# Random numbers

A linear congruential generator on 48 bits. A draw below a bound scales the new state to the unit
interval and multiplies by the bound; the product is rounded to 53 bits before it is cut to an
integer.
-/

namespace TemplateKit

/-- A generator of random numbers; its draws depend on nothing but the state. -/
structure Random where
  state : Nat
deriving DecidableEq, Repr

namespace Random

def modulus : Nat := 0x1000000000000

/-- The low 32 bits of the seed lead the state. -/
def seed (n : Int) : Random := ⟨(n % 0x100000000).toNat * 0x10000 + 0x330E⟩

def step (r : Random) : Random := ⟨(0x5DEECE66D * r.state + 0xB) % modulus⟩

/-- The nearest number with at most 53 binary digits; a tie goes to the even one. -/
def roundTo53 (n : Nat) : Nat :=
  let excess := Nat.log2 n - 52
  let unit := Nat.pow 2 excess
  let q := n / unit
  let r := n % unit
  if 2 * r > unit ∨ (2 * r = unit ∧ q % 2 = 1) then (q + 1) * unit else q * unit

/-- A number between zero and `bound`, zero included. -/
def below (r : Random) (bound : Int) : Int × Random :=
  let r := r.step
  let size := roundTo53 (r.state * bound.natAbs) / modulus
  (if bound < 0 then -(size : Int) else size, r)

/-- Draws letters one after the other. -/
def letters (letter : Random → UInt8 × Random) : (n : Nat) → Random → Bytes × Random
  | 0, r => ([], r)
  | n + 1, r =>
    let (c, r) := letter r
    let (more, r) := letters letter n r
    (c :: more, r)

/-- A printable character; a slash becomes a blank. -/
def printable (r : Random) : UInt8 × Random :=
  let (k, r) := r.below 95
  let c := (32 + k).toNat.toUInt8
  (if c == '/' then ' ' else c, r)

def capital (r : Random) : UInt8 × Random :=
  let (k, r) := r.below 26
  ((65 + k).toNat.toUInt8, r)

def text (r : Random) (bound : Int) : Bytes × Random :=
  let (size, r) := r.below (bound - 1)
  letters printable size.toNat r

end Random

end TemplateKit
