/-!
The SHA-1 digest of a text.
-/

namespace ScriptMin.Digest

/-- The five words that the digest is made of. -/
structure State where
  a : UInt32
  b : UInt32
  c : UInt32
  d : UInt32
  e : UInt32
  deriving DecidableEq, Repr, Inhabited

def initial : State := ⟨0x67452301, 0xEFCDAB89, 0x98BADCFE, 0x10325476, 0xC3D2E1F0⟩

def rotate (word : UInt32) (count : UInt32) : UInt32 :=
  (word <<< count) ||| (word >>> (32 - count))

/-- Bytes of a number, the most significant one first. -/
def bigEndian : (width : Nat) → Nat → List UInt8
  | 0, _ => []
  | width + 1, n => bigEndian width (n / 256) ++ [UInt8.ofNat n]

/-- A message with the mark of its end, zeros up to a multiple of 64 bytes, and its
length in bits. -/
def padded (message : List UInt8) : List UInt8 :=
  let zeros := (119 - message.length % 64) % 64
  message ++ 0x80 :: List.replicate zeros 0 ++ bigEndian 8 (8 * message.length)

def words : List UInt8 → List UInt32
  | a :: b :: c :: d :: rest =>
    (a.toUInt32 <<< 24 ||| b.toUInt32 <<< 16 ||| c.toUInt32 <<< 8 ||| d.toUInt32) :: words rest
  | _ => []

/-- Extends the words of a block: each further word is made of four earlier ones. -/
def extend : Nat → Array UInt32 → Array UInt32
  | 0, w => w
  | count + 1, w =>
    let back (n : Nat) : UInt32 := w[w.size - n]?.getD 0
    extend count (w.push (rotate (back 3 ^^^ back 8 ^^^ back 14 ^^^ back 16) 1))

def mixture (step : Nat) (s : State) : UInt32 × UInt32 :=
  if step < 20 then ((s.b &&& s.c) ||| (~~~s.b &&& s.d), 0x5A827999)
  else if step < 40 then (s.b ^^^ s.c ^^^ s.d, 0x6ED9EBA1)
  else if step < 60 then ((s.b &&& s.c) ||| (s.b &&& s.d) ||| (s.c &&& s.d), 0x8F1BBCDC)
  else (s.b ^^^ s.c ^^^ s.d, 0xCA62C1D6)

def mix (s : State) (numbered : Nat × UInt32) : State :=
  let (step, word) := numbered
  let (f, constant) := mixture step s
  { a := rotate s.a 5 + f + s.e + constant + word
    b := s.a
    c := rotate s.b 30
    d := s.c
    e := s.d }

def mixBlock (s : State) (block : List UInt32) : State :=
  let extended := (extend 64 block.toArray).toList
  let m := ((List.range 80).zip extended).foldl mix s
  ⟨s.a + m.a, s.b + m.b, s.c + m.c, s.d + m.d, s.e + m.e⟩

def mixBlocks : Nat → List UInt32 → State → State
  | 0, _, s => s
  | blocks + 1, text, s => mixBlocks blocks (text.drop 16) (mixBlock s (text.take 16))

def ofBytes (message : List UInt8) : State :=
  let text := words (padded message)
  mixBlocks (text.length / 16) text initial

abbrev Method := List UInt8 → State

/-- The first four bytes of what a method makes of a text, as a number. -/
def wordBy (method : Method) (text : String) : Nat := (method text.toUTF8.toList).a.toNat

end ScriptMin.Digest
