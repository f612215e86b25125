import Mathlib.Data.Finset.Insert
import AdaptiveSync.Hash
import AdaptiveSync.Server.FileManager

/-!
# The delta-sync handler

`DeltaSyncHandler` (`server/src/delta_sync_handler.cpp`) compares the client's block
signatures with the blocks of the server's file, and merges the blocks the client then
sends.

The merge writes every block to the scratch file `p.tmp` and, on a block its caller
declares final, renames the scratch file over `p`. The scratch file starts from nothing:
blocks that were not requested are never copied into it.

A handler's locks are held by one session at a time here, so they do not block and are not
part of this module.
-/

namespace AdaptiveSync

open Fs
open LexPath (cStr nul)

/-- `DeltaBlockSignature`. -/
structure DeltaBlockSignature where
  blockIndex : UInt32
  rollingHash : UInt32
  strongHash : String
  blockOffset : UInt64
  blockSize : UInt32
  deriving DecidableEq

/-- `DeltaBlockRequest`. -/
structure DeltaBlockRequest where
  relativePath : String
  requestedIndices : List UInt32
  deriving DecidableEq

/-- `DeltaSyncHandler`: the block size it was built with, and for each path the indices
received since its last finalisation. -/
structure DeltaSyncHandler where
  blockSize : UInt32
  inProgress : String → Finset UInt32

/-- The handler of a new session. -/
def DeltaSyncHandler.new (blockSize : UInt32) : DeltaSyncHandler := ⟨blockSize, fun _ => ∅⟩

/-- The number of blocks of a file, cast to 32 bits. -/
def blockCount (fileSize : UInt64) (blockSize : UInt32) : Except Crash UInt32 :=
  if blockSize = 0 then .error .divideByZero
  else .ok ((fileSize + blockSize.toUInt64 - 1) / blockSize.toUInt64).toUInt32

/-- The indices a loop from `lo` below `hi` goes through. -/
def indices (lo hi : UInt32) : List UInt32 :=
  (List.range' lo.toNat (hi.toNat - lo.toNat)).map UInt32.ofNat

/-- `std::min` on 64-bit words. -/
def min64 (x y : UInt64) : UInt64 := if y < x then y else x

/-- `client_map`: of several signatures with one index the last stays. -/
def clientMap (signatures : List DeltaBlockSignature) : UInt32 → Option DeltaBlockSignature :=
  signatures.foldl (fun m sig => Function.update m sig.blockIndex (some sig)) fun _ => none

namespace DeltaSyncHandler

variable (sha256 : Bytes → String) (fm : FileManager)

/-! ### Comparing signatures -/

/-- Block `i` of the server's file is requested: it cannot be read, the client has no
signature for it, or a hash differs. -/
def needed (fs : FileSystem) (relativePath : String) (serverSize : UInt64) (blockSize : UInt32)
    (sigs : UInt32 → Option DeltaBlockSignature) (i : UInt32) : Except Crash Bool := do
  let blockOffset := i.toUInt64 * blockSize.toUInt64
  let actualSize := (min64 blockSize.toUInt64 (serverSize - blockOffset)).toUInt32
  let blockData ← fm.readBlock fs relativePath blockOffset actualSize
  -- a block that cannot be read is asked for
  if blockData.isEmpty then return true
  match sigs i with
  | none => return true
  | some clientSig =>
    return clientSig.rollingHash ≠ adler32 blockData || clientSig.strongHash ≠ sha256 blockData

/-- `handle_signature_request`. -/
def handleSignatureRequest (fs : FileSystem) (relativePath : String) (clientFileSize : UInt64)
    (blockSize : UInt32) (clientSignatures : List DeltaBlockSignature) :
    Except Crash DeltaBlockRequest := do
  if !(← fm.fileExists fs relativePath) then
    -- nothing to compare with: every block of the client's file
    let totalBlocks ← blockCount clientFileSize blockSize
    return ⟨relativePath, indices 0 totalBlocks⟩
  let serverSize ← fm.getFileSize fs relativePath
  let serverBlocks ← blockCount serverSize blockSize
  let differing ← (indices 0 serverBlocks).filterM
    (needed sha256 fm fs relativePath serverSize blockSize (clientMap clientSignatures))
  -- blocks past the end of the server's file
  let clientBlocks ← blockCount clientFileSize blockSize
  return ⟨relativePath, differing ++ indices serverBlocks clientBlocks⟩

/-! ### Merging blocks -/

/-- What one block did: how the call ended, the handler and the disk after it, and whether
the scratch file was renamed over the file (the log line `File finalized`). -/
structure BlockOutcome where
  result : Except Crash StatusCode
  handler : DeltaSyncHandler
  fs : FileSystem
  finalized : Bool

/-- `in_progress_[relative_path][block_index] = true`. -/
def track (h : DeltaSyncHandler) (relativePath : String) (blockIndex : UInt32) :
    DeltaSyncHandler :=
  { h with
    inProgress := Function.update h.inProgress relativePath
      (insert blockIndex (h.inProgress relativePath)) }

/-- `in_progress_.erase(relative_path)`. -/
def untrack (h : DeltaSyncHandler) (relativePath : String) : DeltaSyncHandler :=
  { h with inProgress := Function.update h.inProgress relativePath ∅ }

/-- The part of `handle_block_data` that finalises the file. -/
def finalize (h : DeltaSyncHandler) (fs : FileSystem) (relativePath : String) : BlockOutcome :=
  match fm.tmpPathFor relativePath with
  | .error e => ⟨.error e, h, fs, false⟩
  | .ok tmp =>
    match fs.openRead (cStr tmp) with
    -- no scratch file to check: the call succeeds all the same
    | none => ⟨.ok .ok, h.untrack relativePath, fs, false⟩
    | some node =>
      match FileManager.readToEnd fs tmp node with
      | .error e => ⟨.error e, h, fs, false⟩
      -- the hash of what was read is only printed
      | .ok _ =>
        match fm.atomicRenameTmp fs relativePath with
        | .error e => ⟨.error e, h, fs, false⟩
        | .ok (false, fs) => ⟨.ok .error, h, fs, false⟩
        | .ok (true, fs) => ⟨.ok .ok, h.untrack relativePath, fs, true⟩

/-- `handle_block_data`. -/
def handleBlockData (h : DeltaSyncHandler) (fs : FileSystem) (relativePath : String)
    (blockIndex : UInt32) (blockOffset : UInt64) (data : Bytes) (strongHash : String)
    (isFinalBlock : Bool) : BlockOutcome :=
  -- the block's own hash is checked before anything is touched
  if sha256 data ≠ strongHash then ⟨.ok .checksumMismatch, h, fs, false⟩
  else
    match fm.writeBlockAtomic fs relativePath blockOffset data with
    | .error e => ⟨.error e, h, fs, false⟩
    | .ok (false, fs) => ⟨.ok .error, h, fs, false⟩
    | .ok (true, fs) =>
      let h := h.track relativePath blockIndex
      if isFinalBlock then finalize fm h fs relativePath else ⟨.ok .ok, h, fs, false⟩

end DeltaSyncHandler

/-! ### The comparison, on a file that can be read -/

open Blocks

/-- The signatures are those of `n` pieces, one for each block of the client's file. -/
def Describes (sha256 : Bytes → String) (sigs : UInt32 → Option DeltaBlockSignature)
    (piece : ℕ → Bytes) (n : ℕ) : Prop :=
  ∀ i : UInt32,
    if i.toNat < n then
      ∃ sig, sigs i = some sig ∧ sig.rollingHash = adler32 (piece i.toNat) ∧
        sig.strongHash = sha256 (piece i.toNat)
    else sigs i = none

/-- The hash tells apart the pieces and the blocks of `s` that stand at one index. -/
def Distinguishes (sha256 : Bytes → String) (b : ℕ) (piece : ℕ → Bytes) (n : ℕ) (s : Bytes) :
    Prop :=
  ∀ i < n, i * b < s.length → sha256 (piece i) = sha256 (block b s i) → piece i = block b s i

/-- The hash tells apart the blocks that `c` and `s` both have at one index. -/
def NoCollision (sha256 : Bytes → String) (b : ℕ) (c s : Bytes) : Prop :=
  ∀ i, i * b < c.length → i * b < s.length →
    sha256 (block b c i) = sha256 (block b s i) → block b c i = block b s i

/-- How many blocks of a file of `n` bytes a 32-bit count reports. -/
def reported (b : UInt32) (n : ℕ) : ℕ := count b.toNat n % 2 ^ 32

theorem toNat_pos {b : UInt32} (h : b ≠ 0) : 0 < b.toNat :=
  Nat.pos_of_ne_zero fun hc => h (UInt32.toNat_inj.mp hc)

theorem reported_le (b : UInt32) (n : ℕ) : reported b n ≤ count b.toNat n := Nat.mod_le _ _

theorem NoCollision.distinguishes {sha256 : Bytes → String} {b : UInt32} {c s : Bytes}
    (h : NoCollision sha256 b.toNat c s) (hb : b ≠ 0) :
    Distinguishes sha256 b.toNat (block b.toNat c) (reported b c.length) s := by
  intro i hi his
  exact h i ((lt_count_iff (toNat_pos hb) _ _).mp (lt_of_lt_of_le hi (reported_le _ _))) his

theorem blockCount_ofNat {b : UInt32} (hb : b ≠ 0) {n : ℕ} (hn : n < maxOffset) :
    ∃ k, blockCount (UInt64.ofNat n) b = .ok k ∧ k.toNat = reported b n := by
  refine ⟨_, if_neg hb, ?_⟩
  have hpos := toNat_pos hb
  have hlt := b.toNat_lt
  have hsize := toNat_ofNat_of_lt hn
  unfold maxOffset at hn
  -- a size below `off_t` leaves room for one block, so nothing wraps
  have hadd : (UInt64.ofNat n + b.toUInt64).toNat = n + b.toNat := by
    rw [UInt64.toNat_add, hsize, UInt32.toNat_toUInt64]
    omega
  have hsub : (UInt64.ofNat n + b.toUInt64 - 1).toNat = n + b.toNat - 1 := by
    rw [UInt64.toNat_sub_of_le, hadd]
    · rfl
    · rw [UInt64.le_iff_toNat_le, hadd, show (1 : UInt64).toNat = 1 from rfl]
      omega
  rw [UInt64.toNat_toUInt32, UInt64.toNat_div, hsub, UInt32.toNat_toUInt64]
  rfl

theorem toNat_min64 (x y : UInt64) : (min64 x y).toNat = min x.toNat y.toNat := by
  unfold min64
  split
  · next h => rw [UInt64.lt_iff_toNat_lt] at h; omega
  · next h => rw [UInt64.lt_iff_toNat_lt] at h; omega

theorem map_toNat_indices (lo hi : UInt32) :
    (indices lo hi).map UInt32.toNat = List.range' lo.toNat (hi.toNat - lo.toNat) := by
  unfold indices
  rw [List.map_map]
  refine (List.map_congr_left fun i h => ?_).trans (List.map_id _)
  obtain ⟨hlo, hhi⟩ := List.mem_range'_1.mp h
  have := hi.toNat_lt
  simp only [Function.comp_apply, UInt32.toNat_ofNat', id_eq]
  omega

theorem mem_indices {lo hi i : UInt32} :
    i ∈ indices lo hi ↔ lo.toNat ≤ i.toNat ∧ i.toNat < hi.toNat := by
  have hmem : i ∈ indices lo hi ↔ i.toNat ∈ (indices lo hi).map UInt32.toNat := by
    rw [List.mem_map_of_injective fun a b h => UInt32.toNat_inj.mp h]
  rw [hmem, map_toNat_indices, List.mem_range'_1]
  omega

namespace DeltaSyncHandler

variable {sha256 : Bytes → String} {fm : FileManager} {fs : FileSystem} {p : String}
  {t : LexPath.Text} {b : UInt32} {s : Bytes} {piece : ℕ → Bytes}

/-- One round of the comparison, at a block the server has. -/
theorem needed_eq (hl : fm.Legible fs p t s) (hs : s.length < maxOffset)
    {sigs : UInt32 → Option DeltaBlockSignature} {n : ℕ} (hb : b ≠ 0)
    (hsigs : Describes sha256 sigs piece n) (hcoll : Distinguishes sha256 b.toNat piece n s)
    {i : UInt32} (hi : i.toNat * b.toNat < s.length) :
    needed sha256 fm fs p (UInt64.ofNat s.length) b sigs i =
      .ok (¬ (i.toNat < n ∧ piece i.toNat = block b.toNat s i.toNat)) := by
  have hpos := toNat_pos hb
  have hlt := b.toNat_lt
  have hsize := toNat_ofNat_of_lt hs
  unfold maxOffset at hs
  -- inside the file neither the offset nor the rest of it wraps
  have hoff : (i.toUInt64 * b.toUInt64).toNat = i.toNat * b.toNat := by
    rw [UInt64.toNat_mul, UInt32.toNat_toUInt64, UInt32.toNat_toUInt64]
    omega
  have hsub : (UInt64.ofNat s.length - i.toUInt64 * b.toUInt64).toNat =
      s.length - i.toNat * b.toNat := by
    rw [UInt64.toNat_sub_of_le, hoff, hsize]
    rw [UInt64.le_iff_toNat_le, hoff, hsize]
    omega
  have hmin : (min64 b.toUInt64 (UInt64.ofNat s.length - i.toUInt64 * b.toUInt64)).toUInt32.toNat =
      min b.toNat (s.length - i.toNat * b.toNat) := by
    rw [UInt64.toNat_toUInt32, toNat_min64, hsub, UInt32.toNat_toUInt64]
    omega
  -- so what is read is block `i`, cut at the end of the file
  have hread : fm.readBlock fs p (i.toUInt64 * b.toUInt64)
      (min64 b.toUInt64 (UInt64.ofNat s.length - i.toUInt64 * b.toUInt64)).toUInt32 =
        .ok (block b.toNat s i.toNat) := by
    rw [hl.readBlock _ (by rw [hoff]; unfold maxOffset; omega), hoff, hmin, block]
    refine congrArg Except.ok (List.take_eq_take_iff.mpr ?_)
    simp
  have hne : (block b.toNat s i.toNat).isEmpty = false := by
    rw [List.isEmpty_eq_false_iff]
    exact block_ne_nil hpos hi
  unfold needed
  simp only [hread, Except.ok_bind, hne, Bool.false_eq_true, if_false]
  have hsig := hsigs i
  by_cases hin : i.toNat < n
  · rw [if_pos hin] at hsig
    obtain ⟨sig, hfind, hroll, hstrong⟩ := hsig
    simp only [hfind, hroll, hstrong]
    by_cases heq : piece i.toNat = block b.toNat s i.toNat
    · -- equal blocks have equal hashes
      simp [heq, hin]
      rfl
    · -- the weak hash may agree, the strong one does not
      have hstrong' : sha256 (piece i.toNat) ≠ sha256 (block b.toNat s i.toNat) :=
        fun h => heq (hcoll i.toNat hin hi h)
      simp [heq, hstrong']
      rfl
  · rw [if_neg hin] at hsig
    -- the client's file has no such block
    simp [hsig, hin]
    rfl

/-- **The comparison finds the delta.** Given the signatures of pieces for the blocks of a
file of `n` bytes, the server requests the indices at which its own file does not have the
piece, in order. -/
theorem handleSignatureRequest_of_file (hl : fm.Legible fs p t s) (hs : s.length < maxOffset)
    (hb : b ≠ 0) {n : ℕ} (hn : n < maxOffset) {sigs : List DeltaBlockSignature}
    (hsigs : Describes sha256 (clientMap sigs) piece (reported b n))
    (hcoll : Distinguishes sha256 b.toNat piece (reported b n) s) :
    ∃ is, handleSignatureRequest sha256 fm fs p (UInt64.ofNat n) b sigs = .ok ⟨p, is⟩ ∧
      is.map UInt32.toNat = deltaOf b.toNat piece s (reported b n) (reported b s.length) := by
  obtain ⟨nS, hnS, hnS'⟩ := blockCount_ofNat hb hs
  obtain ⟨nC, hnC, hnC'⟩ := blockCount_ofNat hb hn
  -- no read throws, so the loop is a filter
  have hfilter : (indices 0 nS).filterM
      (needed sha256 fm fs p (UInt64.ofNat s.length) b (clientMap sigs)) =
        .ok ((indices 0 nS).filter fun i => ¬ (i.toNat < reported b n ∧
          piece i.toNat = block b.toNat s i.toNat)) := by
    refine Except.filterM_eq_ok fun i hi => ?_
    refine needed_eq hl hs hb hsigs hcoll ?_
    refine (lt_count_iff (toNat_pos hb) _ _).mp (lt_of_lt_of_le ?_ (reported_le _ _))
    rw [← hnS']
    exact (mem_indices.mp hi).2
  refine ⟨(indices 0 nS).filter (fun i => ¬ (i.toNat < reported b n ∧
    piece i.toNat = block b.toNat s i.toNat)) ++ indices nS nC, ?_, ?_⟩
  · unfold handleSignatureRequest
    simp only [hl.fileExists, hl.getFileSize, hnS, hnC, hfilter, Except.ok_bind, Bool.not_true,
      Bool.false_eq_true, if_false]
    rfl
  · rw [List.map_append, map_toNat_indices, hnS', hnC', deltaOf_eq_append]
    congr 1
    rw [← Function.comp_def (fun i : ℕ => decide ¬ (i < reported b n ∧
        piece i = block b.toNat s i)) UInt32.toNat, ← List.filter_map,
      map_toNat_indices, hnS']
    simp [List.range_eq_range']

/-- A file the server does not have is requested as a whole. -/
theorem handleSignatureRequest_of_none (sha256 : Bytes → String)
    (hres : fm.resolvePath p = .ok t) (hstat : fs.stat (cStr t) = .notFound) (hb : b ≠ 0) {n : ℕ}
    (hn : n < maxOffset) (piece : ℕ → Bytes) (sigs : List DeltaBlockSignature) :
    ∃ is, handleSignatureRequest sha256 fm fs p (UInt64.ofNat n) b sigs = .ok ⟨p, is⟩ ∧
      is.map UInt32.toNat = deltaOf b.toNat piece [] (reported b n) 0 := by
  obtain ⟨nC, hnC, hnC'⟩ := blockCount_ofNat hb hn
  refine ⟨indices 0 nC, ?_, ?_⟩
  · unfold handleSignatureRequest
    simp only [FileManager.fileExists_of_notFound hres hstat, hnC, Except.ok_bind, Bool.not_false,
      if_true]
    rfl
  · rw [map_toNat_indices, hnC', deltaOf_eq_append]
    simp

/-! ### The merge, on a path that can be written -/

/-- The scratch file after a block was written to it. -/
def merged (fs : FileSystem) (t : LexPath.Text) (offset : UInt64) (data : Bytes) : Bytes :=
  writeAt 0 (fs.bytesAt (fs.locate (cTmp t))) offset.toNat data

/-- A block that is not final goes to the scratch file. -/
theorem handleBlockData_of_ready (h : DeltaSyncHandler) (hr : fm.Ready fs p t) (i : UInt32)
    {offset : UInt64} {data : Bytes} (hoff : offset.toNat + data.length < maxOffset) :
    h.handleBlockData sha256 fm fs p i offset data (sha256 data) false =
      ⟨.ok .ok, h.track p i,
        fs.set (fs.locate (cTmp t)) (.file (merged fs t offset data)), false⟩ := by
  simp only [handleBlockData, ne_eq, not_true_eq_false, if_false, hr.writeBlockAtomic hoff]
  rfl

/-- A block that reaches past the last offset is not written. -/
theorem handleBlockData_far (h : DeltaSyncHandler) {fs' : FileSystem} (i : UInt32)
    {offset : UInt64} {data : Bytes} (hfails : fm.writeBlockAtomic fs p offset data =
      .ok (false, fs')) (final : Bool) :
    h.handleBlockData sha256 fm fs p i offset data (sha256 data) final =
      ⟨.ok .error, h, fs', false⟩ := by
  simp only [handleBlockData, ne_eq, not_true_eq_false, if_false, hfails]

/-- A block that is written makes the directories first. -/
theorem handleBlockData_of_writable (h : DeltaSyncHandler) (hw : fm.Writable fs p t) (i : UInt32)
    {offset : UInt64} {data : Bytes} (hoff : offset.toNat + data.length < maxOffset)
    (final : Bool) :
    h.handleBlockData sha256 fm fs p i offset data (sha256 data) final =
      h.handleBlockData sha256 fm (fs.mkdirs (fs.cParent t)).1 p i offset data (sha256 data)
        final := by
  simp only [handleBlockData, ne_eq, not_true_eq_false, if_false, hw.writeBlockAtomic_eq,
    FileManager.Ready.writeBlockAtomic hw hoff]

/-- A final block goes to the scratch file, which then takes the file's place. -/
theorem handleBlockData_final_of_ready (h : DeltaSyncHandler) (hr : fm.Ready fs p t)
    (i : UInt32) {offset : UInt64} {data : Bytes}
    (hoff : offset.toNat + data.length < maxOffset) :
    h.handleBlockData sha256 fm fs p i offset data (sha256 data) true =
      ⟨.ok .ok, (h.track p i).untrack p,
        ((fs.set (fs.locate (cTmp t)) (.file (merged fs t offset data))).remove
          (fs.locate (cTmp t))).set (fs.locate (cStr t)) (.file (merged fs t offset data)),
        true⟩ := by
  -- the block is in the scratch file, which is then there to be renamed
  have hr' : fm.Ready (fs.set (fs.locate (cTmp t)) (.file (merged fs t offset data))) p t :=
    hr.set (Or.inr rfl)
  have hnode : (fs.set (fs.locate (cTmp t)) (.file (merged fs t offset data))).node
      (fs.locate (cTmp t)) = some (.file (merged fs t offset data)) :=
    FileSystem.node_set_self hr.tmp_not_dir
  have hopen := hr'.openRead_tmp_of_file hnode
  simp only [handleBlockData, ne_eq, not_true_eq_false, if_false, hr.writeBlockAtomic hoff,
    if_true]
  rw [← merged]
  simp only [finalize, hr'.tmpPathFor, cStr_append_tmpSuffix, hopen, FileManager.readToEnd,
    hr'.quiet .read _, hr'.atomicRenameTmp hnode, Bool.false_eq_true, if_false]
  rfl

/-- **A block** on a path that can be written: its data goes over the scratch file, and a final
one then moves the scratch file over the file. Where U+0000 cuts the suffix off, the scratch
file is the file. -/
theorem handleBlockData_of_match (h : DeltaSyncHandler) (hw : fm.Writable fs p t) (i : UInt32)
    {offset : UInt64} {data : Bytes} (hoff : offset.toNat + data.length < maxOffset)
    (final : Bool) :
    ∃ fs', h.handleBlockData sha256 fm fs p i offset data (sha256 data) final =
        ⟨.ok .ok, if final then (h.track p i).untrack p else h.track p i, fs', final⟩ ∧
      fm.Ready fs' p t ∧ fs'.os = fs.os ∧
      fs'.node (fs.locate (cStr t)) =
        (if final ∨ nul ∈ t then some (.file (merged fs t offset data))
          else fs.node (fs.locate (cStr t))) ∧
      fs'.node (fs.locate (cTmp t)) =
        if final ∧ nul ∉ t then none else some (.file (merged fs t offset data)) := by
  -- the directories are made first
  generalize hmade : (fs.mkdirs (fs.cParent t)).1 = made
  have hr : fm.Ready made p t := hmade ▸ hw
  have hos : made.os = fs.os := hmade ▸ FileSystem.mkdirs_os _
  have hloc : made.locate = fs.locate := FileSystem.locate_congr hos
  have hmerged : merged made t offset data = merged fs t offset data := by
    rw [merged, merged, hloc, FileSystem.bytesAt, FileSystem.bytesAt, ← hmade, hw.node_mkdirs.2]
  have hr' : fm.Ready (made.set (made.locate (cTmp t))
      (.file (merged made t offset data))) p t := hr.set (.inr rfl)
  rw [handleBlockData_of_writable h hw i hoff, hmade, ← hmerged, ← hloc]
  by_cases hnul : nul ∈ t
  · -- there is one file, which holds the block in either case
    have hsame : made.locate (cTmp t) = made.locate (cStr t) := (locate_cTmp_eq_iff made t).mpr hnul
    rw [hsame]
    simp only [hnul, or_true, not_true_eq_false, and_false, if_true, if_false]
    cases final with
    | false =>
      have hnode := @FileSystem.node_set_self _ _
        (.file (merged made t offset data)) hr.tmp_not_dir
      exact ⟨_, handleBlockData_of_ready h hr i hoff, hr', hos, hsame ▸ hnode, hsame ▸ hnode⟩
    | true =>
      exact ⟨_, handleBlockData_final_of_ready h hr i hoff, hr'.commit _, hos, hr'.node_commit _,
        hr'.node_commit _⟩
  simp only [hnul, or_false, not_false_eq_true, and_true]
  cases final with
  | false =>
    refine ⟨_, handleBlockData_of_ready h hr i hoff, hr', hos, ?_,
      FileSystem.node_set_self hr.tmp_not_dir⟩
    rw [FileSystem.node_set_of_ne (locate_cTmp_ne hnul made).symm, hloc, ← hmade, hw.node_mkdirs.1]
    rfl
  | true =>
    exact ⟨_, handleBlockData_final_of_ready h hr i hoff, hr'.commit _, hos, hr'.node_commit _,
      hr'.node_commit_tmp hnul _⟩

end DeltaSyncHandler

end AdaptiveSync
