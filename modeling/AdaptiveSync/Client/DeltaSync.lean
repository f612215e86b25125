import AdaptiveSync.Client.FileOps
import AdaptiveSync.Server.DeltaSyncHandler

/-!
# The client's delta-sync engine

`DeltaSyncEngine` (`client/src/delta_sync.rs`): it cuts a local file into blocks, once to
compute their signatures and once to send the blocks the server asks for. Both cutters use
the block size the engine's `FileOps` was created with. `apply_blocks` puts received blocks
together in a scratch file.

`computeSignatures_handed` and `readRequestedBlocks_handed` give what they return on a file
that can be read: each block is cut where it belongs, and is what one `read` hands over of
it. Where a `read` hands over everything, that is the block (`computeSignatures_eq`,
`readRequestedBlocks_eq`).
-/

namespace AdaptiveSync

open Fs Blocks

/-- `ClientBlockSignature`. -/
structure ClientBlockSignature where
  blockIndex : UInt32
  rollingHash : UInt32
  strongHash : String
  blockOffset : UInt64
  blockSize : UInt32
  deriving DecidableEq

/-- `DeltaSyncEngine`. -/
structure DeltaSyncEngine where
  fileOps : FileOps

/-- The number of blocks of a file, cast to 32 bits. A block size of zero panics. -/
def totalBlocks (fileSize : UInt64) (blockSize : UInt32) : Except ClientError UInt32 :=
  if blockSize = 0 then .error (.panic "attempt to divide by zero")
  else .ok ((fileSize + blockSize.toUInt64 - 1) / blockSize.toUInt64).toUInt32

/-- The size of the block at an offset. -/
def actualSize (fileSize : UInt64) (blockSize : UInt32) (blockOffset : UInt64) : UInt32 :=
  if blockOffset + blockSize.toUInt64 > fileSize then (fileSize - blockOffset).toUInt32
  else blockSize

namespace DeltaSyncEngine

variable (sha256 : Bytes → String) (engine : DeltaSyncEngine) (fs : FileSystem)

/-- `compute_signatures`. -/
def computeSignatures (relativePath : String) : Except ClientError (List ClientBlockSignature) := do
  let fileSize ← engine.fileOps.fileSize fs relativePath
  -- the size the engine was built with, whatever the handshake settled
  let blockSize := engine.fileOps.blockSize
  let total ← totalBlocks fileSize blockSize
  (indices 0 total).mapM fun blockIndex => do
    let blockOffset := blockIndex.toUInt64 * blockSize.toUInt64
    let size := actualSize fileSize blockSize blockOffset
    let data ← engine.fileOps.readBlock fs relativePath blockOffset size
    return ⟨blockIndex, adler32 data, sha256 data, blockOffset, size⟩

/-- `build_signature_request`. -/
def buildSignatureRequest (relativePath : String) (fileSize : UInt64) (blockSize : UInt32)
    (signatures : List ClientBlockSignature) : DeltaSyncSignatureRequest where
  relativePath := relativePath
  fileSize := fileSize
  blockSize := blockSize
  signatures := signatures.map fun sig =>
    ⟨sig.blockIndex, sig.rollingHash, sig.strongHash, sig.blockOffset, sig.blockSize⟩

/-- `read_requested_blocks`. Indices past the end of the file are skipped. -/
def readRequestedBlocks (relativePath : String) (blockIndices : List UInt32) :
    Except ClientError (List DeltaSyncBlockData) := do
  let fileSize ← engine.fileOps.fileSize fs relativePath
  let blockSize := engine.fileOps.blockSize
  -- the server may ask for blocks that only its own file has
  let inside := blockIndices.filter fun i => ¬ i.toUInt64 * blockSize.toUInt64 ≥ fileSize
  inside.mapM fun blockIndex => do
    let blockOffset := blockIndex.toUInt64 * blockSize.toUInt64
    let data ← engine.fileOps.readBlock fs relativePath blockOffset
      (actualSize fileSize blockSize blockOffset)
    return ⟨relativePath, blockIndex, blockOffset, data, sha256 data⟩

/-- The loop of `apply_blocks`. -/
def writeEach (relativePath : String) :
    FileSystem → List (UInt64 × Bytes) → Except ClientError Unit × FileSystem
  | fs, [] => (.ok (), fs)
  | fs, (offset, data) :: blocks =>
    match engine.fileOps.writeBlock fs relativePath offset data with
    | (.error e, fs) => (.error e, fs)
    | (.ok (), fs) => writeEach relativePath fs blocks

/-- `apply_blocks`: how it ended, and the disk after it. -/
def applyBlocks (relativePath : String) (totalSize : UInt64) (blocks : List (UInt64 × Bytes)) :
    Except ClientError String × FileSystem :=
  let path := engine.fileOps.resolvePath relativePath
  let tmpPath := engine.fileOps.tmpPath relativePath
  let made := engine.fileOps.makeParents fs relativePath
  if made.2 = false then (.error (ioError fs "Cannot create dirs" .mkdir path), made.1)
  else
    match made.1.openTruncate tmpPath with
    | none => (.error (ioError fs "Cannot create tmp" .openWrite tmpPath), made.1)
    | some created =>
      match created.setLength tmpPath totalSize.toNat with
      | none => (.error (ioError fs "Cannot pre-allocate" .write tmpPath), created)
      | some allocated =>
        match engine.writeEach relativePath allocated blocks with
        | (.error e, fs) => (.error e, fs)
        | (.ok (), fs) =>
          -- the scratch file is hashed before it is renamed
          match FileOps.readAll fs ("Failed to open " ++ String.ofList tmpPath) "Read error"
              tmpPath with
          | .error e => (.error e, fs)
          | .ok reconstructed =>
            match engine.fileOps.finalizeFile fs relativePath with
            | (.error e, fs) => (.error e, fs)
            | (.ok (), fs) => (.ok (sha256 reconstructed), fs)

end DeltaSyncEngine

/-! ### What the cutters return -/

/-- The signature of block `i` of `c`. -/
def signatureAt (sha256 : Bytes → String) (b : UInt32) (c : Bytes) (i : UInt32) :
    ClientBlockSignature where
  blockIndex := i
  rollingHash := adler32 (block b.toNat c i.toNat)
  strongHash := sha256 (block b.toNat c i.toNat)
  blockOffset := i.toUInt64 * b.toUInt64
  blockSize := UInt32.ofNat (block b.toNat c i.toNat).length

/-- The message that carries block `i` of `c`. -/
def blockDataAt (sha256 : Bytes → String) (p : String) (b : UInt32) (c : Bytes) (i : UInt32) :
    DeltaSyncBlockData where
  relativePath := p
  blockIndex := i
  blockOffset := i.toUInt64 * b.toUInt64
  data := block b.toNat c i.toNat
  strongHash := sha256 (block b.toNat c i.toNat)

/-- Block `i` of `c`, as far as one `read` of the local file hands it over. -/
def DeltaSyncEngine.handed (engine : DeltaSyncEngine) (fs : FileSystem) (p : String) (c : Bytes)
    (i : ℕ) : Bytes :=
  let blk := block engine.fileOps.blockSize.toNat c i
  blk.take (fs.os.delivers (fs.locate (engine.fileOps.resolvePath p))
    (i * engine.fileOps.blockSize.toNat) blk.length)

/-- Where each block is to be written, and what. -/
def writesOf (blocks : List DeltaSyncBlockData) : List (ℕ × Bytes) :=
  blocks.map fun d => (d.blockOffset.toNat, d.data)

theorem totalBlocks_ofNat {b : UInt32} (hb : b ≠ 0) {n : ℕ} (hn : n < maxOffset) :
    ∃ k, totalBlocks (UInt64.ofNat n) b = .ok k ∧ k.toNat = reported b n := by
  -- the two programs count with the same expression
  obtain ⟨k, hk, hk'⟩ := blockCount_ofNat hb hn
  refine ⟨k, ?_, hk'⟩
  unfold blockCount at hk
  rw [if_neg hb] at hk
  rw [totalBlocks, if_neg hb, Except.ok.inj hk]

section Cutting

variable {b : UInt32} {n : ℕ} {i : UInt32}

theorem toNat_offset (h : i.toNat * b.toNat < 2 ^ 64) :
    (i.toUInt64 * b.toUInt64).toNat = i.toNat * b.toNat := by
  rw [UInt64.toNat_mul, UInt32.toNat_toUInt64, UInt32.toNat_toUInt64]
  exact Nat.mod_eq_of_lt h

theorem toNat_mul_lt (i b : UInt32) : i.toNat * b.toNat < 2 ^ 64 :=
  lt_of_lt_of_le (Nat.mul_lt_mul'' i.toNat_lt b.toNat_lt) (by decide)

theorem toNat_actualSize (hn : n < maxOffset) (hi : i.toNat * b.toNat < n) :
    (actualSize (UInt64.ofNat n) b (i.toUInt64 * b.toUInt64)).toNat =
      min b.toNat (n - i.toNat * b.toNat) := by
  have hlt := b.toNat_lt
  have hsize := toNat_ofNat_of_lt hn
  unfold maxOffset at hn
  have hoff := toNat_offset (toNat_mul_lt i b)
  -- the end of the block does not wrap, since the file ends after its start
  have hend : (i.toUInt64 * b.toUInt64 + b.toUInt64).toNat = i.toNat * b.toNat + b.toNat := by
    rw [UInt64.toNat_add, hoff, UInt32.toNat_toUInt64]
    omega
  unfold actualSize
  split
  · next h =>
    rw [gt_iff_lt, UInt64.lt_iff_toNat_lt, hend, hsize] at h
    rw [UInt64.toNat_toUInt32, UInt64.toNat_sub_of_le, hoff, hsize]
    · omega
    · rw [UInt64.le_iff_toNat_le, hoff, hsize]
      omega
  · next h =>
    rw [gt_iff_lt, UInt64.lt_iff_toNat_lt, hend, hsize] at h
    omega

/-- Sending pieces for the blocks of `c` and writing each at its offset is writing them where
the blocks begin. -/
theorem writeAll_pieces (sha256 : Bytes → String) (p : String) (c base : Bytes)
    (piece : ℕ → Bytes) (is : List UInt32) :
    writeAll 0 base (writesOf (is.map fun i => { blockDataAt sha256 p b c i with
        data := piece i.toNat, strongHash := sha256 (piece i.toNat) })) =
      writePieces 0 b.toNat piece base (is.map UInt32.toNat) := by
  unfold writePieces writesOf
  rw [List.map_map, List.map_map]
  congr 1
  refine List.map_congr_left fun i _ => ?_
  simp only [Function.comp_apply, blockDataAt, toNat_offset (toNat_mul_lt i b)]

/-- Sending blocks of `c` and writing each at its offset is writing them back at their own
places. -/
theorem writeAll_writesOf (sha256 : Bytes → String) (p : String) (c base : Bytes)
    (is : List UInt32) :
    writeAll 0 base (writesOf (is.map (blockDataAt sha256 p b c))) =
      writeBlocks 0 b.toNat c base (is.map UInt32.toNat) :=
  writeAll_pieces sha256 p c base _ is

end Cutting

namespace DeltaSyncEngine

variable {engine : DeltaSyncEngine} {fs : FileSystem} {p : String} {c : Bytes}

theorem handed_prefix (engine : DeltaSyncEngine) (fs : FileSystem) (p : String) (c : Bytes)
    (i : ℕ) : engine.handed fs p c i <+: block engine.fileOps.blockSize.toNat c i :=
  List.take_prefix _ _

/-- A `read` that is served in full hands over the block. -/
theorem handed_of_readable (h : engine.fileOps.Readable fs p c) :
    engine.handed fs p c = block engine.fileOps.blockSize.toNat c := by
  funext i
  exact List.take_of_length_le (h.full _ _ _)

/-- Both cutters read what is handed over of block `i`. -/
theorem readBlock_cut (h : engine.fileOps.Found fs p c) {i : UInt32}
    (hi : i.toNat * engine.fileOps.blockSize.toNat < c.length) :
    engine.fileOps.readBlock fs p (i.toUInt64 * engine.fileOps.blockSize.toUInt64)
      (actualSize (UInt64.ofNat c.length) engine.fileOps.blockSize
        (i.toUInt64 * engine.fileOps.blockSize.toUInt64)) =
      .ok (engine.handed fs p c i.toNat) := by
  have hoff := toNat_offset (toNat_mul_lt i engine.fileOps.blockSize)
  have hlen := @length_block _ engine.fileOps.blockSize.toNat c i.toNat
  -- what is asked for is the block
  have hasked : (c.drop (i.toNat * engine.fileOps.blockSize.toNat)).take
      (min engine.fileOps.blockSize.toNat
        (c.length - i.toNat * engine.fileOps.blockSize.toNat)) =
      block engine.fileOps.blockSize.toNat c i.toNat := by
    refine List.take_eq_take_iff.mpr ?_
    simp
  rw [h.readBlock _ (by rw [hoff]; exact lt_trans hi h.length_lt), hoff,
    toNat_actualSize h.length_lt hi, DeltaSyncEngine.handed, hlen, ← hasked, List.take_take,
    Nat.min_comm]

/-- **The signature table.** -/
theorem computeSignatures_handed (sha256 : Bytes → String) (h : engine.fileOps.Found fs p c)
    (hb : engine.fileOps.blockSize ≠ 0) :
    ∃ total : UInt32, total.toNat = reported engine.fileOps.blockSize c.length ∧
      engine.computeSignatures sha256 fs p = .ok ((indices 0 total).map fun i =>
        { signatureAt sha256 engine.fileOps.blockSize c i with
          rollingHash := adler32 (engine.handed fs p c i.toNat)
          strongHash := sha256 (engine.handed fs p c i.toNat) }) := by
  obtain ⟨total, htotal, htotal'⟩ := totalBlocks_ofNat hb h.length_lt
  refine ⟨total, htotal', ?_⟩
  unfold computeSignatures
  simp only [h.fileSize, htotal, Except.ok_bind]
  refine Except.mapM_eq_ok fun i hi => ?_
  -- a count that was cut to 32 bits is still a count of blocks inside the file
  have hin : i.toNat * engine.fileOps.blockSize.toNat < c.length := by
    refine (lt_count_iff (toNat_pos hb) _ _).mp (lt_of_lt_of_le ?_ (reported_le _ _))
    rw [← htotal']
    exact (mem_indices.mp hi).2
  rw [readBlock_cut h hin, Except.ok_bind]
  have hsize : actualSize (UInt64.ofNat c.length) engine.fileOps.blockSize
      (i.toUInt64 * engine.fileOps.blockSize.toUInt64) =
        UInt32.ofNat (block engine.fileOps.blockSize.toNat c i.toNat).length := by
    refine UInt32.toNat_inj.mp ?_
    rw [toNat_actualSize h.length_lt hin, UInt32.toNat_ofNat', length_block]
    have := engine.fileOps.blockSize.toNat_lt
    omega
  rw [hsize]
  rfl

theorem computeSignatures_eq (sha256 : Bytes → String) (h : engine.fileOps.Readable fs p c)
    (hb : engine.fileOps.blockSize ≠ 0) :
    ∃ total : UInt32, total.toNat = reported engine.fileOps.blockSize c.length ∧
      engine.computeSignatures sha256 fs p =
        .ok ((indices 0 total).map (signatureAt sha256 engine.fileOps.blockSize c)) := by
  obtain ⟨total, htotal, hsigs⟩ := computeSignatures_handed sha256 h.toFound hb
  rw [handed_of_readable h] at hsigs
  exact ⟨total, htotal, hsigs⟩

/-- **The blocks sent.** One message for each index inside the file, in the order of the
request. -/
theorem readRequestedBlocks_handed (sha256 : Bytes → String) (h : engine.fileOps.Found fs p c)
    (is : List UInt32) :
    engine.readRequestedBlocks sha256 fs p is =
      .ok ((is.filter fun i => i.toNat * engine.fileOps.blockSize.toNat < c.length).map fun i =>
        { blockDataAt sha256 p engine.fileOps.blockSize c i with
          data := engine.handed fs p c i.toNat
          strongHash := sha256 (engine.handed fs p c i.toNat) }) := by
  have hsize := toNat_ofNat_of_lt h.length_lt
  -- comparing 64-bit offsets is comparing offsets
  have hfilter : (is.filter fun i : UInt32 =>
      ¬ i.toUInt64 * engine.fileOps.blockSize.toUInt64 ≥ UInt64.ofNat c.length) =
        is.filter fun i => i.toNat * engine.fileOps.blockSize.toNat < c.length := by
    refine List.filter_congr fun i _ => decide_eq_decide.mpr ?_
    rw [ge_iff_le, UInt64.le_iff_toNat_le, toNat_offset (toNat_mul_lt _ _), hsize, Nat.not_le]
  unfold readRequestedBlocks
  simp only [h.fileSize, Except.ok_bind]
  rw [hfilter]
  refine Except.mapM_eq_ok fun i hi => ?_
  have hin : i.toNat * engine.fileOps.blockSize.toNat < c.length := by
    simpa using (List.mem_filter.mp hi).2
  rw [readBlock_cut h hin, Except.ok_bind]
  rfl

theorem readRequestedBlocks_eq (sha256 : Bytes → String) (h : engine.fileOps.Readable fs p c)
    (is : List UInt32) :
    engine.readRequestedBlocks sha256 fs p is =
      .ok ((is.filter fun i => i.toNat * engine.fileOps.blockSize.toNat < c.length).map
        (blockDataAt sha256 p engine.fileOps.blockSize c)) := by
  rw [readRequestedBlocks_handed sha256 h.toFound is, handed_of_readable h]
  rfl

end DeltaSyncEngine

end AdaptiveSync
