import SquaredPg.Bytes

namespace SquaredPg.Sha256

def rotright (a b : UInt32) : UInt32 := (a >>> b) ||| (a <<< (32 - b))

def ch (x y z : UInt32) : UInt32 := (x &&& y) ^^^ (~~~x &&& z)

def maj (x y z : UInt32) : UInt32 := (x &&& y) ^^^ (x &&& z) ^^^ (y &&& z)

def ep0 (x : UInt32) : UInt32 := rotright x 2 ^^^ rotright x 13 ^^^ rotright x 22

def ep1 (x : UInt32) : UInt32 := rotright x 6 ^^^ rotright x 11 ^^^ rotright x 25

def sig0 (x : UInt32) : UInt32 := rotright x 7 ^^^ rotright x 18 ^^^ (x >>> 3)

def sig1 (x : UInt32) : UInt32 := rotright x 17 ^^^ rotright x 19 ^^^ (x >>> 10)

def k : List UInt32 := [
  0x428a2f98, 0x71374491, 0xb5c0fbcf, 0xe9b5dba5, 0x3956c25b, 0x59f111f1, 0x923f82a4, 0xab1c5ed5,
  0xd807aa98, 0x12835b01, 0x243185be, 0x550c7dc3, 0x72be5d74, 0x80deb1fe, 0x9bdc06a7, 0xc19bf174,
  0xe49b69c1, 0xefbe4786, 0x0fc19dc6, 0x240ca1cc, 0x2de92c6f, 0x4a7484aa, 0x5cb0a9dc, 0x76f988da,
  0x983e5152, 0xa831c66d, 0xb00327c8, 0xbf597fc7, 0xc6e00bf3, 0xd5a79147, 0x06ca6351, 0x14292967,
  0x27b70a85, 0x2e1b2138, 0x4d2c6dfc, 0x53380d13, 0x650a7354, 0x766a0abb, 0x81c2c92e, 0x92722c85,
  0xa2bfe8a1, 0xa81a664b, 0xc24b8b70, 0xc76c51a3, 0xd192e819, 0xd6990624, 0xf40e3585, 0x106aa070,
  0x19a4c116, 0x1e376c08, 0x2748774c, 0x34b0bcb5, 0x391c0cb3, 0x4ed8aa4a, 0x5b9cca4f, 0x682e6ff3,
  0x748f82ee, 0x78a5636f, 0x84c87814, 0x8cc70208, 0x90befffa, 0xa4506ceb, 0xbef9a3f7, 0xc67178f2]

structure State where
  a : UInt32
  b : UInt32
  c : UInt32
  d : UInt32
  e : UInt32
  f : UInt32
  g : UInt32
  h : UInt32

def word (data : Bytes) : UInt32 :=
  data.foldl (fun w b ↦ (w <<< 8) ||| b.toUInt32) 0

def words : ℕ → Bytes → List UInt32
  | 0, _ => []
  | n + 1, data => word (data.take 4) :: words n (data.drop 4)

/-- The message schedule, newest word first: `m[i]` reads two, seven, fifteen and
sixteen words back. -/
def schedule : ℕ → List UInt32 → List UInt32
  | 0, m => m
  | n + 1, m =>
    schedule n ((sig1 (m.getD 1 0) + m.getD 6 0 + sig0 (m.getD 14 0) + m.getD 15 0) :: m)

def round (s : State) (km : UInt32 × UInt32) : State :=
  let t1 := s.h + ep1 s.e + ch s.e s.f s.g + km.1 + km.2
  let t2 := ep0 s.a + maj s.a s.b s.c
  ⟨t1 + t2, s.a, s.b, s.c, s.d + t1, s.e, s.f, s.g⟩

def transform (s : State) (data : Bytes) : State :=
  let m := (schedule 48 (words 16 data).reverse).reverse
  let r := (k.zip m).foldl round s
  ⟨s.a + r.a, s.b + r.b, s.c + r.c, s.d + r.d, s.e + r.e, s.f + r.f, s.g + r.g, s.h + r.h⟩

/-- `SHA256_CTX`; `data` holds the buffered bytes, the latest first. -/
structure Context where
  data : Bytes
  datalen : ℕ
  bitlen : UInt64
  state : State

def init : Context :=
  ⟨[], 0, 0, ⟨0x6a09e667, 0xbb67ae85, 0x3c6ef372, 0xa54ff53a,
    0x510e527f, 0x9b05688c, 0x1f83d9ab, 0x5be0cd19⟩⟩

def updateByte (ctx : Context) (b : UInt8) : Context :=
  if ctx.datalen + 1 = 64 then
    ⟨[], 0, ctx.bitlen + 512, transform ctx.state (b :: ctx.data).reverse⟩
  else { ctx with data := b :: ctx.data, datalen := ctx.datalen + 1 }

/-- `sha256_update`, for contents below 4 GiB: its counter has 32 bits, and from there on it never
reaches the length. -/
def update (ctx : Context) (bytes : Bytes) : Context := bytes.foldl updateByte ctx

def bigEndian (w : UInt32) : Bytes :=
  [(w >>> 24).toUInt8, (w >>> 16).toUInt8, (w >>> 8).toUInt8, w.toUInt8]

def bigEndian64 (w : UInt64) : Bytes :=
  bigEndian (w >>> 32).toUInt32 ++ bigEndian w.toUInt32

def finalState (ctx : Context) : State :=
  let length := bigEndian64 (ctx.bitlen + UInt64.ofNat ctx.datalen * 8)
  let padded := ctx.data.reverse ++ [0x80]
  if ctx.datalen < 56 then
    transform ctx.state (padded ++ List.replicate (55 - ctx.datalen) 0 ++ length)
  else
    transform (transform ctx.state (padded ++ List.replicate (63 - ctx.datalen) 0))
      (List.replicate 56 0 ++ length)

def final (ctx : Context) : Bytes :=
  let s := finalState ctx
  bigEndian s.a ++ bigEndian s.b ++ bigEndian s.c ++ bigEndian s.d ++
    bigEndian s.e ++ bigEndian s.f ++ bigEndian s.g ++ bigEndian s.h

theorem final_length (ctx : Context) : (final ctx).length = 32 := rfl

end SquaredPg.Sha256

namespace SquaredPg

abbrev Digest := { bytes : Bytes // bytes.length = 32 }

def sha256 (text : Bytes) : Digest :=
  ⟨Sha256.final (Sha256.update Sha256.init text), Sha256.final_length _⟩

def hexDigit (n : ℕ) : UInt8 := (ascii "0123456789abcdef").getD n Ascii.zero

def toHex (digest : Digest) : Bytes :=
  digest.val.flatMap fun b ↦ [hexDigit (b.toNat / 16), hexDigit (b.toNat % 16)]

theorem toHex_length (digest : Digest) : (toHex digest).length = 64 := by
  rw [toHex, List.length_flatMap]
  simp [digest.property]

example : toHex (sha256 (ascii "abc")) =
    ascii "ba7816bf8f01cfea414140de5dae2223b00361a396177a9cb410ff61f20015ad" := by decide +kernel

end SquaredPg
