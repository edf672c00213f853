/-!
64-bit FNV-1a hashing of bytes, words and texts.
-/
namespace StrategicRewriting.Fnv

def offsetBasis : UInt64 := 0xcbf29ce484222325

def prime : UInt64 := 0x100000001b3

def byte (h : UInt64) (b : UInt8) : UInt64 :=
  (h ^^^ b.toUInt64) * prime

/-- The eight bytes of a word, the least significant one first. -/
def wordBytes (w : UInt64) : List UInt8 :=
  [w.toUInt8, (w >>> 8).toUInt8, (w >>> 16).toUInt8, (w >>> 24).toUInt8,
    (w >>> 32).toUInt8, (w >>> 40).toUInt8, (w >>> 48).toUInt8, (w >>> 56).toUInt8]

def word (h w : UInt64) : UInt64 :=
  (wordBytes w).foldl byte h

/-- The UTF-8 bytes of a text and a byte that no text contains. -/
def text (h : UInt64) (s : String) : UInt64 :=
  byte ((s.toList.flatMap String.utf8EncodeChar).foldl byte h) 0xff

/-- Hash of a few words. -/
def words (ws : List UInt64) : UInt64 :=
  ws.foldl word offsetBasis

end StrategicRewriting.Fnv
