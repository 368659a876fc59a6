import Mathlib.Data.Nat.Notation
import Mathlib.Data.List.Basic

/-!
# MD5

The hash of the ring: `int(hashlib.md5(key.encode()).hexdigest(), 16)`. Words
are numbers below `2 ^ 32`, so that the kernel can compute with them.
-/

namespace Pynchronize.Md5

/-- A step adds the message word `word` and the constant `sine` and rotates by `shift`. -/
structure Op where
  word : ℕ
  shift : ℕ
  sine : ℕ

structure State where
  a : ℕ
  b : ℕ
  c : ℕ
  d : ℕ

def modulus : ℕ := 4294967296

def complement (x : ℕ) : ℕ := 4294967295 - x

def rotateLeft (x n : ℕ) : ℕ := (x <<< n ||| x >>> (32 - n)) % modulus

def round1 : List Op := [
  ⟨0, 7, 0xd76aa478⟩, ⟨1, 12, 0xe8c7b756⟩, ⟨2, 17, 0x242070db⟩, ⟨3, 22, 0xc1bdceee⟩,
  ⟨4, 7, 0xf57c0faf⟩, ⟨5, 12, 0x4787c62a⟩, ⟨6, 17, 0xa8304613⟩, ⟨7, 22, 0xfd469501⟩,
  ⟨8, 7, 0x698098d8⟩, ⟨9, 12, 0x8b44f7af⟩, ⟨10, 17, 0xffff5bb1⟩, ⟨11, 22, 0x895cd7be⟩,
  ⟨12, 7, 0x6b901122⟩, ⟨13, 12, 0xfd987193⟩, ⟨14, 17, 0xa679438e⟩, ⟨15, 22, 0x49b40821⟩]

def round2 : List Op := [
  ⟨1, 5, 0xf61e2562⟩, ⟨6, 9, 0xc040b340⟩, ⟨11, 14, 0x265e5a51⟩, ⟨0, 20, 0xe9b6c7aa⟩,
  ⟨5, 5, 0xd62f105d⟩, ⟨10, 9, 0x02441453⟩, ⟨15, 14, 0xd8a1e681⟩, ⟨4, 20, 0xe7d3fbc8⟩,
  ⟨9, 5, 0x21e1cde6⟩, ⟨14, 9, 0xc33707d6⟩, ⟨3, 14, 0xf4d50d87⟩, ⟨8, 20, 0x455a14ed⟩,
  ⟨13, 5, 0xa9e3e905⟩, ⟨2, 9, 0xfcefa3f8⟩, ⟨7, 14, 0x676f02d9⟩, ⟨12, 20, 0x8d2a4c8a⟩]

def round3 : List Op := [
  ⟨5, 4, 0xfffa3942⟩, ⟨8, 11, 0x8771f681⟩, ⟨11, 16, 0x6d9d6122⟩, ⟨14, 23, 0xfde5380c⟩,
  ⟨1, 4, 0xa4beea44⟩, ⟨4, 11, 0x4bdecfa9⟩, ⟨7, 16, 0xf6bb4b60⟩, ⟨10, 23, 0xbebfbc70⟩,
  ⟨13, 4, 0x289b7ec6⟩, ⟨0, 11, 0xeaa127fa⟩, ⟨3, 16, 0xd4ef3085⟩, ⟨6, 23, 0x04881d05⟩,
  ⟨9, 4, 0xd9d4d039⟩, ⟨12, 11, 0xe6db99e5⟩, ⟨15, 16, 0x1fa27cf8⟩, ⟨2, 23, 0xc4ac5665⟩]

def round4 : List Op := [
  ⟨0, 6, 0xf4292244⟩, ⟨7, 10, 0x432aff97⟩, ⟨14, 15, 0xab9423a7⟩, ⟨5, 21, 0xfc93a039⟩,
  ⟨12, 6, 0x655b59c3⟩, ⟨3, 10, 0x8f0ccc92⟩, ⟨10, 15, 0xffeff47d⟩, ⟨1, 21, 0x85845dd1⟩,
  ⟨8, 6, 0x6fa87e4f⟩, ⟨15, 10, 0xfe2ce6e0⟩, ⟨6, 15, 0xa3014314⟩, ⟨13, 21, 0x4e0811a1⟩,
  ⟨4, 6, 0xf7537e82⟩, ⟨11, 10, 0xbd3af235⟩, ⟨2, 15, 0x2ad7d2bb⟩, ⟨9, 21, 0xeb86d391⟩]

def step (f : ℕ → ℕ → ℕ → ℕ) (words : List ℕ) (s : State) (op : Op) : State :=
  let x := (f s.b s.c s.d + s.a + op.sine + words.getD op.word 0) % modulus
  ⟨s.d, (s.b + rotateLeft x op.shift) % modulus, s.b, s.c⟩

/-- A block of sixteen words. -/
def block (s : State) (words : List ℕ) : State :=
  let r := round1.foldl (step (fun b c d => b &&& c ||| complement b &&& d) words) s
  let r := round2.foldl (step (fun b c d => b &&& d ||| c &&& complement d) words) r
  let r := round3.foldl (step (fun b c d => b ^^^ c ^^^ d) words) r
  let r := round4.foldl (step (fun b c d => c ^^^ (b ||| complement d)) words) r
  ⟨(s.a + r.a) % modulus, (s.b + r.b) % modulus, (s.c + r.c) % modulus, (s.d + r.d) % modulus⟩

def blocks : ℕ → State → List ℕ → State
  | 0, s, _ => s
  | n + 1, s, words => blocks n (block s (words.take 16)) (words.drop 16)

/-- The words of a message, its lowest byte first. -/
def toWords : List ℕ → List ℕ
  | a :: b :: c :: d :: rest => (a + 256 * b + 65536 * c + 16777216 * d) :: toWords rest
  | _ => []

def pad (bytes : List ℕ) : List ℕ :=
  let n := bytes.length
  toWords (bytes ++ 128 :: List.replicate ((119 - n % 64) % 64) 0) ++
    [8 * n % modulus, 8 * n / modulus % modulus]

/-- The bytes of a word, its lowest byte first, read as the digits of a number. -/
def digits (x : ℕ) : ℕ :=
  x % 256 * 16777216 + x / 256 % 256 * 65536 + x / 65536 % 256 * 256 + x / 16777216

end Md5

open Md5 in
def md5 (key : String) : ℕ :=
  let words := pad (key.toUTF8.toList.map UInt8.toNat)
  let r := blocks (words.length / 16) ⟨0x67452301, 0xefcdab89, 0x98badcfe, 0x10325476⟩ words
  ((digits r.a * modulus + digits r.b) * modulus + digits r.c) * modulus + digits r.d

example : md5 "" = 0xd41d8cd98f00b204e9800998ecf8427e := by decide +kernel

example : md5 "node1:0" = 0x5f9e17e0e0878a6384b2c94238d08ee7 := by decide +kernel

end Pynchronize
