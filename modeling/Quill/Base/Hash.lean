import Quill.Base.Text

/-!
# Streaming hashes and SHA-256

`StreamingHash` is an incremental hash function: a state that is fed chunks and can be
finalised to hexadecimal text. The only law is that feeding chunks in order gives the
text of feeding their concatenation. `Fed s b` says that the state `s` was fed the
bytes `b`, in some chunks.

`Sha256.streaming` is SHA-256 as FIPS 180-4 defines it, on natural numbers below `2 ^ 32`.
-/

namespace Quill

open Text

/-- An incremental hash whose result only depends on the bytes it was fed. -/
structure StreamingHash where
  State : Type
  new : State
  update : State → Bytes → State
  finalize : State → Hex64
  streaming : ∀ chunks : List Bytes,
    finalize (chunks.foldl update new) = finalize (update new chunks.flatten)

namespace StreamingHash

variable (H : StreamingHash)

/-- The hash of one byte string. -/
def hex (b : Bytes) : Hex64 := H.finalize (H.update H.new b)

/-- The state `s` was fed exactly the bytes `b`. -/
def Fed (s : H.State) (b : Bytes) : Prop :=
  ∃ chunks : List Bytes, s = chunks.foldl H.update H.new ∧ b = chunks.flatten

theorem fed_new : H.Fed H.new [] := ⟨[], rfl, rfl⟩

variable {H}

theorem Fed.update {s : H.State} {b : Bytes} (h : H.Fed s b) (c : Bytes) :
    H.Fed (H.update s c) (b ++ c) := by
  obtain ⟨chunks, rfl, rfl⟩ := h
  exact ⟨chunks ++ [c], by simp, by simp⟩

theorem Fed.finalize {s : H.State} {b : Bytes} (h : H.Fed s b) : H.finalize s = H.hex b := by
  obtain ⟨chunks, rfl, rfl⟩ := h
  exact H.streaming chunks

end StreamingHash

namespace Sha256

/-- `2 ^ 32`. -/
def word : Nat := 4294967296

def rotr (n x : Nat) : Nat := (x >>> n) ||| ((x <<< (32 - n)) % word)

def roundConstants : List Nat := [
  0x428a2f98, 0x71374491, 0xb5c0fbcf, 0xe9b5dba5, 0x3956c25b, 0x59f111f1, 0x923f82a4, 0xab1c5ed5,
  0xd807aa98, 0x12835b01, 0x243185be, 0x550c7dc3, 0x72be5d74, 0x80deb1fe, 0x9bdc06a7, 0xc19bf174,
  0xe49b69c1, 0xefbe4786, 0x0fc19dc6, 0x240ca1cc, 0x2de92c6f, 0x4a7484aa, 0x5cb0a9dc, 0x76f988da,
  0x983e5152, 0xa831c66d, 0xb00327c8, 0xbf597fc7, 0xc6e00bf3, 0xd5a79147, 0x06ca6351, 0x14292967,
  0x27b70a85, 0x2e1b2138, 0x4d2c6dfc, 0x53380d13, 0x650a7354, 0x766a0abb, 0x81c2c92e, 0x92722c85,
  0xa2bfe8a1, 0xa81a664b, 0xc24b8b70, 0xc76c51a3, 0xd192e819, 0xd6990624, 0xf40e3585, 0x106aa070,
  0x19a4c116, 0x1e376c08, 0x2748774c, 0x34b0bcb5, 0x391c0cb3, 0x4ed8aa4a, 0x5b9cca4f, 0x682e6ff3,
  0x748f82ee, 0x78a5636f, 0x84c87814, 0x8cc70208, 0x90befffa, 0xa4506ceb, 0xbef9a3f7, 0xc67178f2]

def initialHash : List Nat := [
  0x6a09e667, 0xbb67ae85, 0x3c6ef372, 0xa54ff53a, 0x510e527f, 0x9b05688c, 0x1f83d9ab, 0x5be0cd19]

/-- The message schedule, newest word first: `n` more words after the words `w`. -/
def schedule : Nat → List Nat → List Nat
  | 0, w => w
  | n + 1, w =>
    let w2 := w.getD 1 0
    let w15 := w.getD 14 0
    let s0 := rotr 7 w15 ^^^ rotr 18 w15 ^^^ (w15 >>> 3)
    let s1 := rotr 17 w2 ^^^ rotr 19 w2 ^^^ (w2 >>> 10)
    schedule n ((w.getD 15 0 + s0 + w.getD 6 0 + s1) % word :: w)

def round (st : List Nat) (kw : Nat × Nat) : List Nat :=
  match st with
  | [a, b, c, d, e, f, g, h] =>
    let s1 := rotr 6 e ^^^ rotr 11 e ^^^ rotr 25 e
    let ch := (e &&& f) ^^^ ((word - 1 - e) &&& g)
    let t1 := h + s1 + ch + kw.1 + kw.2
    let s0 := rotr 2 a ^^^ rotr 13 a ^^^ rotr 22 a
    let maj := (a &&& b) ^^^ (a &&& c) ^^^ (b &&& c)
    [(t1 + s0 + maj) % word, a, b, c, (d + t1) % word, e, f, g]
  | _ => st

def compress (st block : List Nat) : List Nat :=
  let w := (schedule 48 block.reverse).reverse
  List.zipWith (fun x y => (x + y) % word) st ((roundConstants.zip w).foldl round st)

/-- The padded message: a one bit, zeros, and the length in bits as 64 bits. -/
def pad (m : Bytes) : List Nat :=
  m.map UInt8.toNat ++ [0x80] ++ List.replicate ((119 - m.length % 64) % 64) 0 ++
    (List.range 8).map fun i => (8 * m.length) >>> (56 - 8 * i) % 256

def words : List Nat → List Nat
  | a :: b :: c :: d :: rest => (((a * 256 + b) * 256 + c) * 256 + d) :: words rest
  | _ => []

def blocks : Nat → List Nat → List Nat → List Nat
  | 0, _, st => st
  | n + 1, w, st => blocks n (w.drop 16) (compress st (w.take 16))

/-- The eight words of the digest, read as one 256-bit number. -/
def digest (m : Bytes) : Nat :=
  let w := words (pad m)
  (blocks (w.length / 16) w initialHash).foldl (fun acc x => acc * word + x) 0

def hex (m : Bytes) : Hex64 :=
  ⟨hexText 64 (digest m), length_hexText _ _, fun _ => isLowerHex_of_mem_hexText⟩

/-- SHA-256 with the bytes fed so far as its state. -/
def streaming : StreamingHash where
  State := Bytes
  new := []
  update := fun s b => s ++ b
  finalize := hex
  streaming := by
    have h : ∀ (chunks : List Bytes) (s : Bytes),
        chunks.foldl (fun s b => s ++ b) s = s ++ chunks.flatten := by
      intro chunks
      induction chunks with
      | nil => simp
      | cons c cs ih => intro s; simp [ih]
    intro chunks
    rw [h]

/-- The first test vector of FIPS 180-4: the message `abc`. -/
example : (hex [97, 98, 99]).val =
    "ba7816bf8f01cfea414140de5dae2223b00361a396177a9cb410ff61f20015ad".toList := by
  decide +kernel

end Sha256

end Quill
