import Quill.Storage.World

/-!
# The local store and its metadata cache

`LocalStorage` and `BlobMetaCache` of `quill-storage`. A blob is written to a temporary
file under `_uploads` and renamed to its final path; the cache answers for a path
without looking at the disk until the entry is older than the time to live.

The temporary name is computed from the wall clock and the process id (`rand_u64`).
-/

namespace Quill.LocalStorage

open Text Files Cas World

variable {S : Setup} {ε : Type}

/-- The errors of the blob store. -/
inductive StorageError where
  | io (e : IoKind)
  | notFound (digest : Str)
  | digestMismatch (expected got : Str)
  deriving DecidableEq

/-- The number of values of a `u64`. -/
def u64 : Nat := 18446744073709551616

/-- `nanos.rotate_left(13) ^ pid.wrapping_mul(0x9E3779B97F4A7C15)`. -/
def mix (nanos pid : Nat) : Nat :=
  ((nanos <<< 13) % u64 ||| (nanos >>> 51)) ^^^ (pid * 0x9E3779B97F4A7C15 % u64)

/-- The rotation as a sum. -/
theorem rotate_eq {n : Nat} (hn : n < u64) :
    (n <<< 13) % u64 ||| (n >>> 51) = n % 2 ^ 51 * 2 ^ 13 + n / 2 ^ 51 := by
  unfold u64 at hn ⊢
  have hlow : n / 2 ^ 51 < 2 ^ 13 := by omega
  have hhigh : n <<< 13 % 18446744073709551616 = 2 ^ 13 * (n % 2 ^ 51) := by
    rw [Nat.shiftLeft_eq]
    omega
  rw [hhigh, Nat.shiftRight_eq_div_pow, ← Nat.two_pow_add_eq_or_of_lt hlow]
  omega

/-- The mixing loses nothing of the reading. -/
theorem mix_injective {m n pid : Nat} (hm : m < u64) (hn : n < u64) (h : mix m pid = mix n pid) :
    m = n := by
  unfold mix at h
  -- the second operand does not depend on the reading
  have hrot := congrArg (· ^^^ (pid * 0x9E3779B97F4A7C15 % u64)) h
  simp only [Nat.xor_assoc, Nat.xor_self, Nat.xor_zero] at hrot
  rw [rotate_eq hm, rotate_eq hn] at hrot
  unfold u64 at hm hn
  omega

theorem mix_lt {nanos pid : Nat} (h : nanos < u64) : mix nanos pid < 16 ^ 16 := by
  have hpow : (16 : Nat) ^ 16 = 2 ^ 64 := by decide
  rw [hpow]
  unfold mix u64 at *
  apply Nat.xor_lt_two_pow
  · apply Nat.or_lt_two_pow
    · omega
    · rw [Nat.shiftRight_eq_div_pow]
      omega
  · omega

/-- The name of a temporary file. -/
def tmpName (suffix : Nat) : Name :=
  ⟨"tmp-".toList ++ hexText 16 suffix, validName_of_length
    (by simp [length_hexText])
    (by
      intro h
      rcases List.mem_append.mp h with h | h
      · revert h
        decide
      · exact (ne_of_isLowerHex (isLowerHex_of_mem_hexText h)).2.1 rfl)⟩

theorem dot_notMem_tmpName (suffix : Nat) : '.' ∉ (tmpName suffix).val := by
  intro h
  rcases List.mem_append.mp h with h | h
  · revert h
    decide
  · exact (ne_of_isLowerHex (isLowerHex_of_mem_hexText h)).1 rfl

/-- Equal names of temporary files come from equal readings. -/
theorem tmpName_mix_injective {m n pid : Nat}
    (h : tmpName (mix (m % u64) pid) = tmpName (mix (n % u64) pid)) : m % u64 = n % u64 := by
  have hm : m % u64 < u64 := Nat.mod_lt m (by decide)
  have hn : n % u64 < u64 := Nat.mod_lt n (by decide)
  have htext := List.append_cancel_left (congrArg Subtype.val h)
  exact mix_injective hm hn (hexText_injective (mix_lt hm) (mix_lt hn) htext)

/-- `LocalStorage::tempfile_path`. -/
def tempfilePath (repo : Str) : Prog (World S) ε Path := do
  let nanos ← wallNow
  return tmpName (mix (nanos % u64) S.pid) :: uploadsDir S.root repo

/-! ## The cache -/

/-- The entry of the metadata cache, if it is within its lifetime. -/
def cacheGet (repo : Str) (d : Digest) : Prog (World S) ε (Option BlobMeta) := do
  match (← get).metaCache.lookup (repo, d) with
  | none => return none
  | some entry =>
    let now ← instantNow
    return if now - entry.cachedAt < S.metaTtl then some entry else none

/-- An entry of the metadata cache is set. -/
def cacheInsert (repo : Str) (d : Digest) (m : BlobMeta) : Prog (World S) ε Unit :=
  modify fun w => { w with metaCache := w.metaCache.insert (repo, d) m }

/-- An entry of the metadata cache is removed. -/
def cacheInvalidate (repo : Str) (d : Digest) : Prog (World S) ε Unit :=
  modify fun w => { w with metaCache := w.metaCache.erase (repo, d) }

/-! ## Blobs -/

/-- `LocalStorage::blob_meta`. -/
def blobMeta (repo : Str) (d : Digest) : Prog (World S) StorageError (Option BlobMeta) := do
  match ← cacheGet repo d with
  | some m => return some m
  | none =>
    let path := blobPath S.root repo d
    match ← (probeFs (Fs.metadata path)).attempt with
    | .ok (.file b) =>
      let now ← instantNow
      let m : BlobMeta := ⟨path, b.length, now⟩
      cacheInsert repo d m
      return some m
    | .ok .dir => return none
    | .error .notFound => return none
    | .error .other => throw (.io .other)

/-- `LocalStorage::put_blob_buffered`. -/
def putBlobBuffered (repo : Str) (expected : Digest) (bytes : Bytes) :
    Prog (World S) StorageError BlobMeta :=
  let got := S.hash.hex bytes
  if got ≠ expected.hex then
    throw (.digestMismatch expected.toStr ("sha256:".toList ++ got.val))
  else do
    let finalPath := blobPath S.root repo expected
    (onFs (Fs.createDirAll finalPath.tail)).mapError .io
    let tmp ← tempfilePath repo
    (onFs (Fs.createDirAll tmp.tail)).mapError .io
    (onFs (Fs.writeAtomic tmp finalPath bytes)).mapError .io
    recordStored bytes
    let now ← instantNow
    let m : BlobMeta := ⟨finalPath, bytes.length, now⟩
    cacheInsert repo expected m
    return m

/-- `LocalStorage::read_blob_to_bytes`. -/
def readBlobToBytes (m : BlobMeta) : Prog (World S) StorageError Bytes :=
  (onFs (Fs.readFile m.path)).mapError .io

/-- `LocalStorage::delete_blob`. -/
def deleteBlob (repo : Str) (d : Digest) : Prog (World S) StorageError Unit := do
  match ← (probeFs (Fs.removeFile (blobPath S.root repo d))).attempt with
  | .ok () => cacheInvalidate repo d
  | .error .notFound =>
    cacheInvalidate repo d
    throw (.notFound d.toStr)
  | .error .other => throw (.io .other)

/-- `LocalStorage::ensure_repo`. -/
def ensureRepo (repo : Str) : Prog (World S) StorageError Unit :=
  (onFs (ensureRepoDirs S.root repo)).mapError .io

end Quill.LocalStorage
