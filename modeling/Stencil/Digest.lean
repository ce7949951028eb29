/-!
# SHA-256

The digest of a byte string, by the standard's definition: the bytes are padded
with a one bit, zeros and the length in bits to whole blocks of sixteen words; each
block is expanded to sixty-four words, and eight words of state go through one
round for each of them. The digest is written in lower-case hexadecimal.
-/

namespace Stencil.Digest

/-- The round constants: the fractional parts of the cube roots of the first primes. -/
def roundConstants : List UInt32 := [
  0x428a2f98, 0x71374491, 0xb5c0fbcf, 0xe9b5dba5, 0x3956c25b, 0x59f111f1, 0x923f82a4, 0xab1c5ed5,
  0xd807aa98, 0x12835b01, 0x243185be, 0x550c7dc3, 0x72be5d74, 0x80deb1fe, 0x9bdc06a7, 0xc19bf174,
  0xe49b69c1, 0xefbe4786, 0x0fc19dc6, 0x240ca1cc, 0x2de92c6f, 0x4a7484aa, 0x5cb0a9dc, 0x76f988da,
  0x983e5152, 0xa831c66d, 0xb00327c8, 0xbf597fc7, 0xc6e00bf3, 0xd5a79147, 0x06ca6351, 0x14292967,
  0x27b70a85, 0x2e1b2138, 0x4d2c6dfc, 0x53380d13, 0x650a7354, 0x766a0abb, 0x81c2c92e, 0x92722c85,
  0xa2bfe8a1, 0xa81a664b, 0xc24b8b70, 0xc76c51a3, 0xd192e819, 0xd6990624, 0xf40e3585, 0x106aa070,
  0x19a4c116, 0x1e376c08, 0x2748774c, 0x34b0bcb5, 0x391c0cb3, 0x4ed8aa4a, 0x5b9cca4f, 0x682e6ff3,
  0x748f82ee, 0x78a5636f, 0x84c87814, 0x8cc70208, 0x90befffa, 0xa4506ceb, 0xbef9a3f7, 0xc67178f2]

/-- The eight words of state between rounds. -/
structure State where
  a : UInt32
  b : UInt32
  c : UInt32
  d : UInt32
  e : UInt32
  f : UInt32
  g : UInt32
  h : UInt32
  deriving DecidableEq, Repr

namespace State

/-- The fractional parts of the square roots of the first eight primes. -/
def initial : State :=
  ⟨0x6a09e667, 0xbb67ae85, 0x3c6ef372, 0xa54ff53a, 0x510e527f, 0x9b05688c, 0x1f83d9ab, 0x5be0cd19⟩

def words (s : State) : List UInt32 := [s.a, s.b, s.c, s.d, s.e, s.f, s.g, s.h]

/-- Adds two states word by word. -/
def add (s t : State) : State :=
  ⟨s.a + t.a, s.b + t.b, s.c + t.c, s.d + t.d, s.e + t.e, s.f + t.f, s.g + t.g, s.h + t.h⟩

end State

/-- The word turned right by `n` bits, `0 < n < 32`. -/
def turn (x : UInt32) (n : UInt32) : UInt32 := (x >>> n) ||| (x <<< (32 - n))

/-- One round with one word of the block and its constant. -/
def round (s : State) (constant word : UInt32) : State :=
  let big1 := turn s.e 6 ^^^ turn s.e 11 ^^^ turn s.e 25
  let choice := (s.e &&& s.f) ^^^ ((~~~ s.e) &&& s.g)
  let first := s.h + big1 + choice + constant + word
  let big0 := turn s.a 2 ^^^ turn s.a 13 ^^^ turn s.a 22
  let majority := (s.a &&& s.b) ^^^ (s.a &&& s.c) ^^^ (s.b &&& s.c)
  ⟨first + (big0 + majority), s.a, s.b, s.c, s.d + first, s.e, s.f, s.g⟩

/-- The rounds of one block. Only the last sixteen words are kept, the next one to use in front;
each use computes the word sixteen places further on. -/
def rounds (s : State) (window : List UInt32) : List UInt32 → State
  | [] => s
  | constant :: constants =>
      let word (i : Nat) := window.getD i 0
      let small0 := turn (word 1) 7 ^^^ turn (word 1) 18 ^^^ (word 1 >>> 3)
      let small1 := turn (word 14) 17 ^^^ turn (word 14) 19 ^^^ (word 14 >>> 10)
      let next := word 0 + small0 + word 9 + small1
      rounds (round s constant (word 0)) (window.drop 1 ++ [next]) constants

/-- The state after one more block of sixteen words. -/
def block (s : State) (words : List UInt32) : State := s.add (rounds s words roundConstants)

/-- The `count` bytes of a number, the highest first. -/
def bigEndian : (count : Nat) → Nat → List UInt8
  | 0, _ => []
  | count + 1, n => UInt8.ofNat (n / Nat.pow 256 count) :: bigEndian count n

/-- The bytes with their padding. -/
def padded (bytes : List UInt8) : List UInt8 :=
  let zeros := (119 - bytes.length % 64) % 64
  bytes ++ 0x80 :: List.replicate zeros 0 ++ bigEndian 8 (8 * bytes.length)

/-- The words of the bytes, four bytes each; fewer than four at the end are left out. -/
def wordsOf : List UInt8 → List UInt32
  | a :: b :: c :: d :: rest =>
      ((a.toUInt32 <<< 24) ||| (b.toUInt32 <<< 16) ||| (c.toUInt32 <<< 8) ||| d.toUInt32)
        :: wordsOf rest
  | _ => []

/-- The state after as many blocks as `count`. -/
def blocks (s : State) : (count : Nat) → List UInt32 → State
  | 0, _ => s
  | count + 1, words => blocks (block s (words.take 16)) count (words.drop 16)

/-- The digest of a byte string, as words. -/
def sha256Words (bytes : List UInt8) : List UInt32 :=
  let words := wordsOf (padded bytes)
  (blocks .initial (words.length / 16) words).words

/-- The eight hexadecimal digits of a word. -/
def hexWord (word : UInt32) : List Char :=
  let digits := Nat.toDigits 16 word.toNat
  List.replicate (8 - digits.length) '0' ++ digits

/-- The digest of a byte string, in lower-case hexadecimal. -/
def sha256Hex (bytes : List UInt8) : String :=
  String.ofList ((sha256Words bytes).flatMap hexWord)

/-- The UTF-8 bytes of a text. -/
def utf8 (text : String) : List UInt8 := text.toUTF8.toList

/-- The digest of a text. -/
def ofText (text : String) : String := sha256Hex (utf8 text)

end Stencil.Digest
