import ByteRope.Bytes
import ByteRope.Encoding

/-!
# Digests

Stores take digests by a function that they are given. This is the one of sessions that are given no
other: a 64-bit digest of octets under an encoding. The octets are read as words, the lowest octet
first. Two running words, which start as the first digits of the fractional part of π, take in
sixteen octets at a time and change places; the last octets are laid over them, and their product
and the number of octets make the digest. Products are 128 bits wide and are folded, the high half
over the low one. In the end the bits are turned, since the high ones depend on more of the octets
than the low ones. Octets that differ may share a digest, so digests that agree settle nothing.
-/

namespace ByteRope.Digest

/-- The product of two words, its high half laid over its low half. -/
def fold (left right : UInt64) : UInt64 :=
  let product := left.toNat * right.toNat
  UInt64.ofNat product ^^^ UInt64.ofNat (product >>> 64)

/-- The word that `count` octets spell, the first of them lowest. Past the end octets are zero. -/
def word (bytes : Bytes) (start : Nat) : Nat → UInt64
  | 0 => 0
  | count + 1 => (bytes[start]?.getD 0).toUInt64 ||| (word bytes (start + 1) count <<< 8)

/-- Two running words. -/
structure Lanes where
  first : UInt64
  second : UInt64

namespace Lanes

/-- The words that a digest starts from. -/
def seed : Lanes := ⟨0x243f6a8885a308d3, 0x13198a2e03707344⟩

/-- Lays words over the running ones. -/
def overlay (lanes words : Lanes) : Lanes :=
  ⟨lanes.first ^^^ words.first, lanes.second ^^^ words.second⟩

/-- Takes in sixteen octets. The second running word becomes the first. A constant keeps octets that
are all zero from making the product zero. -/
def absorb (lanes : Lanes) (bytes : Bytes) (start : Nat) : Lanes :=
  ⟨lanes.second,
    fold (lanes.first ^^^ word bytes start 8) (0xa4093822299f31d0 ^^^ word bytes (start + 8) 8)⟩

/-- Takes in blocks of sixteen octets. -/
def absorbBlocks (bytes : Bytes) (lanes : Lanes) (start : Nat) : Nat → Lanes
  | 0 => lanes
  | count + 1 => absorbBlocks bytes (lanes.absorb bytes start) (start + 16) count

end Lanes

/-- The last sixteen octets as two words. Of fewer octets the words overlap, or are shorter. -/
def tail (bytes : Bytes) : Lanes :=
  let size := bytes.size
  if 8 ≤ size then ⟨word bytes (size - 16) 8, word bytes (size - 8) 8⟩
  else if 4 ≤ size then ⟨word bytes 0 4, word bytes (size - 4) 4⟩
  else ⟨word bytes 0 1, word bytes (size / 2) 1 ||| (word bytes (size - 1) 1 <<< 8)⟩

/-- The digest of octets. The blocks taken in leave at least one octet and at most sixteen. -/
def ofBytes (bytes : Bytes) : UInt64 :=
  let lanes := (Lanes.absorbBlocks bytes .seed 0 ((bytes.size - 1) / 16)).overlay (tail bytes)
  fold lanes.first lanes.second ^^^ UInt64.ofNat bytes.size

/-- Takes one more value into a digest of several. -/
def combine (digest value : UInt64) : UInt64 :=
  (digest + value) * 0xf1357aea2e62a9c5

/-- The number under which a digest knows an encoding. -/
def encodingNumber : Encoding → UInt64
  | .usAscii => 0
  | .binary => 1
  | .utf8 => 2
  | .latin1 => 3
  | .utf16le => 4

/-- Turns a word by 26 bits, the high ones coming in from below. -/
def turn (digest : UInt64) : UInt64 :=
  (digest <<< 26) ||| (digest >>> 38)

/-- The digest of octets under an encoding. -/
def ofContent (encoding : Encoding) (bytes : Bytes) : UInt64 :=
  turn (combine (combine 0 (encodingNumber encoding)) (ofBytes bytes))

end ByteRope.Digest
