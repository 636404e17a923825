import PageServer.Numeral

/-!
# Fingerprints

The fingerprint of a byte string is its 64-bit FNV-1a hash. Written in sixteen
hexadecimal digits (`Fingerprint.text`) it names a cached file after the place
the file came from.
-/

namespace PageServer.Fingerprint

/-- The hash of the empty string. -/
def basis : UInt64 := 14695981039346656037

/-- What the hash is multiplied by after each byte. -/
def prime : UInt64 := 1099511628211

/-- The hash after one more byte. -/
def step (h : UInt64) (b : Byte) : UInt64 := (h ^^^ b.toUInt64) * prime

/-- The 64-bit FNV-1a hash of the string. -/
def hash (s : Bytes) : UInt64 := s.foldl step basis

/-- The hash in sixteen hexadecimal digits. -/
def text (s : Bytes) : Bytes := Numeral.hex64 (hash s)

end PageServer.Fingerprint
