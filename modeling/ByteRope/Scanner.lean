import ByteRope.Encoding
import ByteRope.Scanner.Utf8
import ByteRope.Scanner.Utf16

/-!
# Scanning

A scanner classifies the octets of a content under an encoding and counts its characters. It takes
the content in buffers cut anywhere, so that a rope can be scanned without being copied together.
-/

namespace ByteRope

/-- The outcome of a scan. -/
structure ScanResult where
  range : CodeRange
  charLen : Nat
  deriving DecidableEq, Repr

/-- A scan under way. In a one-octet encoding every octet is a character; a `strict` one has no
characters from 0x80 on. `high` says that an octet from 0x80 on was read. -/
inductive Scanner where
  | octets (strict : Bool) (chars : Nat) (high : Bool)
  | utf8 (scan : Utf8.Scan) (high : Bool)
  | utf16le (scan : Utf16.Scan)
  deriving DecidableEq, Repr

namespace Scanner

/-- A scan about to begin. -/
def new : Encoding → Scanner
  | .usAscii => octets true 0 false
  | .binary | .latin1 => octets false 0 false
  | .utf8 => utf8 .empty false
  | .utf16le => utf16le .empty

/-- Reads a buffer. -/
def feed : Scanner → Bytes → Scanner
  | octets strict chars high, bytes => octets strict (chars + bytes.size) (high || !bytes.isAscii)
  | utf8 scan high, bytes => utf8 (scan.feed bytes) (high || !bytes.isAscii)
  | utf16le scan, bytes => utf16le (scan.feed bytes)

/-- The outcome if nothing follows. -/
def finish : Scanner → ScanResult
  | octets strict chars high =>
    ⟨if high then (if strict then .broken else .valid) else .asciiOnly, chars⟩
  | utf8 scan high =>
    ⟨if scan.finish.broken then .broken else if high then .valid else .asciiOnly,
      scan.finish.chars⟩
  | utf16le scan =>
    ⟨if scan.finish.broken then .broken else .valid, scan.finish.chars⟩

end Scanner

namespace Encoding

/-- Scans a whole content. -/
def scan (encoding : Encoding) (bytes : Bytes) : ScanResult :=
  ((Scanner.new encoding).feed bytes).finish

/-- The encoding is ASCII compatible and every octet is below 0x80. -/
def isAsciiOnly (encoding : Encoding) (bytes : Bytes) : Bool :=
  encoding.isAsciiCompatible && bytes.isAscii

/-- The content holds an ill-formed part. -/
def isInvalid (encoding : Encoding) (bytes : Bytes) : Bool :=
  decide ((encoding.scan bytes).range = .broken)

end Encoding

end ByteRope
