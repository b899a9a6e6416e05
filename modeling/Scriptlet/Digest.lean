/-
  Scriptlet.Digest — the MD5 digest of a text.

  The text is padded to whole blocks of 64 bytes, with its length in bits at the end. Each
  block mixes its sixteen little-endian words into a state of four words in 64 rounds.
-/

import Scriptlet.Text

namespace Scriptlet

namespace Digest

structure State where
  a : UInt32
  b : UInt32
  c : UInt32
  d : UInt32

def start : State := ⟨0x67452301, 0xEFCDAB89, 0x98BADCFE, 0x10325476⟩

def sines : List UInt32 := [
  0xd76aa478, 0xe8c7b756, 0x242070db, 0xc1bdceee, 0xf57c0faf, 0x4787c62a, 0xa8304613, 0xfd469501,
  0x698098d8, 0x8b44f7af, 0xffff5bb1, 0x895cd7be, 0x6b901122, 0xfd987193, 0xa679438e, 0x49b40821,
  0xf61e2562, 0xc040b340, 0x265e5a51, 0xe9b6c7aa, 0xd62f105d, 0x02441453, 0xd8a1e681, 0xe7d3fbc8,
  0x21e1cde6, 0xc33707d6, 0xf4d50d87, 0x455a14ed, 0xa9e3e905, 0xfcefa3f8, 0x676f02d9, 0x8d2a4c8a,
  0xfffa3942, 0x8771f681, 0x6d9d6122, 0xfde5380c, 0xa4beea44, 0x4bdecfa9, 0xf6bb4b60, 0xbebfbc70,
  0x289b7ec6, 0xeaa127fa, 0xd4ef3085, 0x04881d05, 0xd9d4d039, 0xe6db99e5, 0x1fa27cf8, 0xc4ac5665,
  0xf4292244, 0x432aff97, 0xab9423a7, 0xfc93a039, 0x655b59c3, 0x8f0ccc92, 0xffeff47d, 0x85845dd1,
  0x6fa87e4f, 0xfe2ce6e0, 0xa3014314, 0x4e0811a1, 0xf7537e82, 0xbd3af235, 0x2ad7d2bb, 0xeb86d391]

def rotations (quarter : Nat) : List UInt32 :=
  match quarter with
  | 0 => [7, 12, 17, 22]
  | 1 => [5, 9, 14, 20]
  | 2 => [4, 11, 16, 23]
  | _ => [6, 10, 15, 21]

def rotate (x n : UInt32) : UInt32 := (x <<< n) ||| (x >>> (32 - n))

def mix (words : List UInt32) (s : State) (i : Nat) (k : UInt32) : State :=
  let (f, g) : UInt32 × Nat := match i / 16 with
    | 0 => ((s.b &&& s.c) ||| (~~~s.b &&& s.d), i)
    | 1 => ((s.d &&& s.b) ||| (~~~s.d &&& s.c), 5 * i + 1)
    | 2 => (s.b ^^^ s.c ^^^ s.d, 3 * i + 5)
    | _ => (s.c ^^^ (s.b ||| ~~~s.d), 7 * i)
  let sum := s.a + f + k + words.getD (g % 16) 0
  ⟨s.d, s.b + rotate sum ((rotations (i / 16)).getD (i % 4) 0), s.b, s.c⟩

def littleEndian (n : Nat) : Nat → Text
  | 0 => []
  | k + 1 => UInt8.ofNat (n % 256) :: littleEndian (n / 256) k

def word : Text → UInt32
  | [] => 0
  | b :: r => b.toUInt32 ||| (word r <<< 8)

def words : Nat → Text → List UInt32
  | 0, _ => []
  | n + 1, t => word (t.take 4) :: words n (t.drop 4)

def block (s : State) (t : Text) : State :=
  let ws := words 16 t
  let r := sines.zipIdx.foldl (fun s (k, i) => mix ws s i k) s
  ⟨s.a + r.a, s.b + r.b, s.c + r.c, s.d + r.d⟩

def blocks : Nat → State → Text → State
  | 0, s, _ => s
  | n + 1, s, t => blocks n (block s (t.take 64)) (t.drop 64)

def pad (t : Text) : Text :=
  t ++ [0x80] ++ List.replicate ((119 - t.length % 64) % 64) 0 ++ littleEndian (8 * t.length) 8

def md5 (t : Text) : Text :=
  let p := pad t
  let s := blocks (p.length / 64) start p
  [s.a, s.b, s.c, s.d].flatMap fun w => littleEndian w.toNat 4

end Digest

end Scriptlet
