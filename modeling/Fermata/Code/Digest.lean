/-!
# SHA-256

The digest under which a source is remembered (`hash_source`), in hexadecimal: `Digest.sha256` of the
bytes of the text.

Left out: digests of other lengths, and of streams.
-/

namespace Fermata.Digest

/-- Round constants: the first 32 bits of the fractional parts of the cube roots of the first 64
primes. -/
def roundConstants : Array UInt32 := #[
  0x428a2f98, 0x71374491, 0xb5c0fbcf, 0xe9b5dba5, 0x3956c25b, 0x59f111f1, 0x923f82a4, 0xab1c5ed5,
  0xd807aa98, 0x12835b01, 0x243185be, 0x550c7dc3, 0x72be5d74, 0x80deb1fe, 0x9bdc06a7, 0xc19bf174,
  0xe49b69c1, 0xefbe4786, 0x0fc19dc6, 0x240ca1cc, 0x2de92c6f, 0x4a7484aa, 0x5cb0a9dc, 0x76f988da,
  0x983e5152, 0xa831c66d, 0xb00327c8, 0xbf597fc7, 0xc6e00bf3, 0xd5a79147, 0x06ca6351, 0x14292967,
  0x27b70a85, 0x2e1b2138, 0x4d2c6dfc, 0x53380d13, 0x650a7354, 0x766a0abb, 0x81c2c92e, 0x92722c85,
  0xa2bfe8a1, 0xa81a664b, 0xc24b8b70, 0xc76c51a3, 0xd192e819, 0xd6990624, 0xf40e3585, 0x106aa070,
  0x19a4c116, 0x1e376c08, 0x2748774c, 0x34b0bcb5, 0x391c0cb3, 0x4ed8aa4a, 0x5b9cca4f, 0x682e6ff3,
  0x748f82ee, 0x78a5636f, 0x84c87814, 0x8cc70208, 0x90befffa, 0xa4506ceb, 0xbef9a3f7, 0xc67178f2]

/-- The eight words of the state. -/
structure State where
  a : UInt32
  b : UInt32
  c : UInt32
  d : UInt32
  e : UInt32
  f : UInt32
  g : UInt32
  h : UInt32

/-- The first 32 bits of the fractional parts of the square roots of the first eight primes. -/
def initial : State :=
  ⟨0x6a09e667, 0xbb67ae85, 0x3c6ef372, 0xa54ff53a, 0x510e527f, 0x9b05688c, 0x1f83d9ab, 0x5be0cd19⟩

/-- Rotate right. -/
def rotate (x n : UInt32) : UInt32 := (x >>> n) ||| (x <<< (32 - n))

/-- One round. -/
def round (s : State) (constant word : UInt32) : State :=
  let s1 := rotate s.e 6 ^^^ rotate s.e 11 ^^^ rotate s.e 25
  let ch := (s.e &&& s.f) ^^^ ((~~~ s.e) &&& s.g)
  let t1 := s.h + s1 + ch + constant + word
  let s0 := rotate s.a 2 ^^^ rotate s.a 13 ^^^ rotate s.a 22
  let maj := (s.a &&& s.b) ^^^ (s.a &&& s.c) ^^^ (s.b &&& s.c)
  ⟨t1 + (s0 + maj), s.a, s.b, s.c, s.d + t1, s.e, s.f, s.g⟩

/-- Add two states word by word. -/
def State.add (s t : State) : State :=
  ⟨s.a + t.a, s.b + t.b, s.c + t.c, s.d + t.d, s.e + t.e, s.f + t.f, s.g + t.g, s.h + t.h⟩

/-- The next word of a message schedule that holds at least 16. -/
def nextWord (w : Array UInt32) : UInt32 :=
  let n := w.size
  let x := w.getD (n - 15) 0
  let y := w.getD (n - 2) 0
  let s0 := rotate x 7 ^^^ rotate x 18 ^^^ (x >>> 3)
  let s1 := rotate y 17 ^^^ rotate y 19 ^^^ (y >>> 10)
  w.getD (n - 16) 0 + s0 + w.getD (n - 7) 0 + s1

/-- The 64 words of a message schedule. -/
def schedule (block : Array UInt32) : Array UInt32 :=
  Nat.fold 48 (fun _ _ w => w.push (nextWord w)) block

/-- Take in one block of 16 words. -/
def compress (s : State) (block : Array UInt32) : State :=
  let w := schedule block
  s.add (Nat.fold 64 (fun i _ t => round t (roundConstants.getD i 0) (w.getD i 0)) s)

/-- Four bytes as a word, the highest first. -/
def word (bytes : ByteArray) (i : Nat) : UInt32 :=
  let at_ (k : Nat) : UInt32 := (bytes.data.getD (i + k) 0).toUInt32
  (at_ 0 <<< 24) ||| (at_ 1 <<< 16) ||| (at_ 2 <<< 8) ||| at_ 3

/-- The message with its end mark, zeros and its length in bits, a multiple of 64 bytes. -/
def pad (message : ByteArray) : ByteArray :=
  let size := message.size
  let zeros := (119 - size % 64) % 64
  let marked := Nat.fold zeros (fun _ _ b => b.push 0) (message.push 0x80)
  Nat.fold 8 (fun i _ b => b.push ((size * 8) >>> (8 * (7 - i))).toUInt8) marked

/-- The digest of a message. -/
def sha256 (message : ByteArray) : State :=
  let bytes := pad message
  Nat.fold (bytes.size / 64)
    (fun k _ s => compress s ((Array.range 16).map fun i => word bytes (64 * k + 4 * i))) initial

/-- A word as eight hexadecimal digits. -/
def hex (w : UInt32) : String :=
  let digits := Nat.toDigits 16 w.toNat
  String.ofList (List.replicate (8 - digits.length) '0' ++ digits)

/-- The digest of a text in hexadecimal. -/
def ofText (text : String) : String :=
  let s := sha256 text.toUTF8
  String.join ([s.a, s.b, s.c, s.d, s.e, s.f, s.g, s.h].map hex)

end Fermata.Digest
