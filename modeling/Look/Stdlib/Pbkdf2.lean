/-
SHA-256, HMAC and PBKDF2, as `crypto_sha256.h` computes them.
-/
import Look.Lib.BigEndian

namespace Look

namespace Pbkdf2

abbrev Bytes := List UInt8

/-! ## SHA-256 -/

def K : List UInt32 :=
  [0x428a2f98, 0x71374491, 0xb5c0fbcf, 0xe9b5dba5, 0x3956c25b, 0x59f111f1, 0x923f82a4, 0xab1c5ed5,
   0xd807aa98, 0x12835b01, 0x243185be, 0x550c7dc3, 0x72be5d74, 0x80deb1fe, 0x9bdc06a7, 0xc19bf174,
   0xe49b69c1, 0xefbe4786, 0x0fc19dc6, 0x240ca1cc, 0x2de92c6f, 0x4a7484aa, 0x5cb0a9dc, 0x76f988da,
   0x983e5152, 0xa831c66d, 0xb00327c8, 0xbf597fc7, 0xc6e00bf3, 0xd5a79147, 0x06ca6351, 0x14292967,
   0x27b70a85, 0x2e1b2138, 0x4d2c6dfc, 0x53380d13, 0x650a7354, 0x766a0abb, 0x81c2c92e, 0x92722c85,
   0xa2bfe8a1, 0xa81a664b, 0xc24b8b70, 0xc76c51a3, 0xd192e819, 0xd6990624, 0xf40e3585, 0x106aa070,
   0x19a4c116, 0x1e376c08, 0x2748774c, 0x34b0bcb5, 0x391c0cb3, 0x4ed8aa4a, 0x5b9cca4f, 0x682e6ff3,
   0x748f82ee, 0x78a5636f, 0x84c87814, 0x8cc70208, 0x90befffa, 0xa4506ceb, 0xbef9a3f7, 0xc67178f2]

/-- The hash so far, and the working variables of a block. -/
structure Words where
  a : UInt32
  b : UInt32
  c : UInt32
  d : UInt32
  e : UInt32
  f : UInt32
  g : UInt32
  h : UInt32
deriving DecidableEq

def initial : Words :=
  ⟨0x6a09e667, 0xbb67ae85, 0x3c6ef372, 0xa54ff53a, 0x510e527f, 0x9b05688c, 0x1f83d9ab, 0x5be0cd19⟩

def rotr (x n : UInt32) : UInt32 := x >>> n ||| x <<< (32 - n)

/-- The message with its end mark, zeros and its length in bits. -/
def pad (data : Bytes) : Bytes :=
  data ++ [0x80] ++ List.replicate ((119 - data.length % 64) % 64) 0 ++ toBytes 8 (data.length * 8)

/-- The words of a block, and the 48 that follow from them. -/
def schedule (block : Bytes) : List UInt32 :=
  let w := (List.range 16).map fun j => UInt32.ofNat (ofBytes ((block.drop (4 * j)).take 4))
  (List.range 48).foldl (fun w _ =>
    let at' (back : Nat) := w.getD (w.length - back) 0
    let s0 := rotr (at' 15) 7 ^^^ rotr (at' 15) 18 ^^^ at' 15 >>> 3
    let s1 := rotr (at' 2) 17 ^^^ rotr (at' 2) 19 ^^^ at' 2 >>> 10
    w ++ [at' 16 + s0 + at' 7 + s1]) w

def round (v : Words) (k w : UInt32) : Words :=
  let s1 := rotr v.e 6 ^^^ rotr v.e 11 ^^^ rotr v.e 25
  let ch := v.e &&& v.f ^^^ ~~~v.e &&& v.g
  let t1 := v.h + s1 + ch + k + w
  let s0 := rotr v.a 2 ^^^ rotr v.a 13 ^^^ rotr v.a 22
  let maj := v.a &&& v.b ^^^ v.a &&& v.c ^^^ v.b &&& v.c
  let t2 := s0 + maj
  ⟨t1 + t2, v.a, v.b, v.c, v.d + t1, v.e, v.f, v.g⟩

def compress (s : Words) (block : Bytes) : Words :=
  let v := (K.zip (schedule block)).foldl (fun v kw => round v kw.1 kw.2) s
  ⟨s.a + v.a, s.b + v.b, s.c + v.c, s.d + v.d, s.e + v.e, s.f + v.f, s.g + v.g, s.h + v.h⟩

def sha256 (data : Bytes) : Bytes :=
  let msg := pad data
  let s := (List.range (msg.length / 64)).foldl
    (fun s i => compress s ((msg.drop (64 * i)).take 64)) initial
  [s.a, s.b, s.c, s.d, s.e, s.f, s.g, s.h].flatMap fun w => toBytes 4 w.toNat

theorem length_sha256 (data : Bytes) : (sha256 data).length = 32 := by
  simp only [sha256, List.flatMap_cons, List.flatMap_nil, List.length_append, length_toBytes,
    List.length_nil]

/-! ## HMAC and PBKDF2 -/

/-- `std::vector::resize`. -/
def resize (n : Nat) (bs : Bytes) : Bytes := bs.take n ++ List.replicate (n - bs.length) 0

theorem length_resize (n : Nat) (bs : Bytes) : (resize n bs).length = n := by
  rw [resize, List.length_append, List.length_take, List.length_replicate]
  omega

def hmacSha256 (key msg : Bytes) : Bytes :=
  let k := resize 64 (if 64 < key.length then sha256 key else key)
  sha256 (k.map (· ^^^ 0x5c) ++ sha256 (k.map (· ^^^ 0x36) ++ msg))

/-- The rounds after the first: what they have made last, and the sum of what they have made. -/
def rounds (pwd : Bytes) : Nat → Bytes × Bytes → Bytes × Bytes
  | 0, s => s
  | n + 1, (u, f) =>
    let u := hmacSha256 pwd u
    rounds pwd n (u, List.zipWith (· ^^^ ·) f u)

def pbkdf2Block (pwd salt : Bytes) (iterations : UInt32) (block : Nat) : Bytes :=
  let u := hmacSha256 pwd (salt ++ toBytes 4 block)
  (rounds pwd (iterations.toNat - 1) (u, u)).2

def pbkdf2Sha256 (password salt : Bytes) (iterations dkLen : UInt32) : Bytes :=
  let blocks := (dkLen + 31) / 32
  resize dkLen.toNat
    ((List.range blocks.toNat).flatMap fun i => pbkdf2Block password salt iterations (i + 1))

theorem length_pbkdf2Sha256 (password salt : Bytes) (iterations dkLen : UInt32) :
    (pbkdf2Sha256 password salt iterations dkLen).length = dkLen.toNat :=
  length_resize _ _

end Pbkdf2

end Look
