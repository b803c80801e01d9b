/-!
The 64-bit FNV-1a digest of a sequence of bytes.
-/

namespace TypeSearch.Fnv

def offsetBasis : UInt64 := 14695981039346656037

def prime : UInt64 := 1099511628211

def step (digest : UInt64) (byte : UInt8) : UInt64 := (digest ^^^ byte.toUInt64) * prime

def bytes (digest : UInt64) (input : List UInt8) : UInt64 := input.foldl step digest

def text (digest : UInt64) (input : String) : UInt64 := input.toUTF8.foldl step digest

def wordBytes (word : UInt64) : List UInt8 :=
  [0, 8, 16, 24, 32, 40, 48, 56].map fun shift : UInt64 => (word >>> shift).toUInt8

def word (digest : UInt64) (input : UInt64) : UInt64 := bytes digest (wordBytes input)

def words (digest : UInt64) (input : List UInt64) : UInt64 := input.foldl word digest

def fold32 (digest : UInt64) : UInt32 := (digest ^^^ (digest >>> 32)).toUInt32

end TypeSearch.Fnv
