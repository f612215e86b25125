import AdaptiveSync.Client.FailedDownload
import AdaptiveSync.Protocol.Delta

/-!
# Cutting a file and putting it together again

`compute_signatures` and `read_requested_blocks` cut a file with the same arithmetic, written
twice. Where a file has fewer than `2 ^ 32` blocks, the signatures tile it, and a block that
is read for sending is the one that the signature with its index is about
(`cutters_tile_and_agree`).

`apply_blocks` is the inverse. It starts its scratch file anew and gives it the length of the
file, so what the local file and the scratch file held before does not matter; the blocks are
written at their offsets, so their order does not matter, nor do repetitions
(`blocks_rebuild_file`). `Rebuildable` is the situation in which its file operations succeed.
-/

namespace AdaptiveSync

open LexPath Fs Blocks

/-! ### The two cutters -/

section Cutters

variable {sha256 : Bytes → String} {engine : DeltaSyncEngine} {fs : FileSystem} {p : String}
  {c : Bytes}

/-- The block is the one the signature describes. -/
structure Matches (c : Bytes) (sig : ClientBlockSignature) (d : DeltaSyncBlockData) : Prop where
  index : d.blockIndex = sig.blockIndex
  offset : d.blockOffset = sig.blockOffset
  length : d.data.length = sig.blockSize.toNat
  hash : d.strongHash = sig.strongHash
  data : d.data = (c.drop sig.blockOffset.toNat).take sig.blockSize.toNat

theorem toNat_blockSize_signatureAt (sha256 : Bytes → String) (b : UInt32) (c : Bytes)
    (i : UInt32) :
    (signatureAt sha256 b c i).blockSize.toNat = (block b.toNat c i.toNat).length := by
  show (UInt32.ofNat (block b.toNat c i.toNat).length).toNat = _
  rw [UInt32.toNat_ofNat']
  apply Nat.mod_eq_of_lt
  rw [length_block]
  exact lt_of_le_of_lt (Nat.min_le_left _ _) b.toNat_lt

theorem matches_blockDataAt (sha256 : Bytes → String) (p : String) (b : UInt32) (c : Bytes)
    (i : UInt32) : Matches c (signatureAt sha256 b c i) (blockDataAt sha256 p b c i) where
  index := rfl
  offset := rfl
  length := (toNat_blockSize_signatureAt sha256 b c i).symm
  hash := rfl
  data := by
    rw [toNat_blockSize_signatureAt]
    show block b.toNat c i.toNat = (c.drop (i.toUInt64 * b.toUInt64).toNat).take _
    rw [toNat_offset (toNat_mul_lt i b), length_block, block]
    refine List.take_eq_take_iff.mpr ?_
    simp

/-- The ranges of the signatures. -/
def ranges (sigs : List ClientBlockSignature) : List (ℕ × ℕ) :=
  sigs.map fun sig => (sig.blockOffset.toNat, sig.blockSize.toNat)

theorem ranges_signatures (sha256 : Bytes → String) (b : UInt32) (c : Bytes) (total : UInt32) :
    ranges ((indices 0 total).map (signatureAt sha256 b c)) =
      (List.range' 0 total.toNat).map fun k => (k * b.toNat, (block b.toNat c k).length) := by
  have hindices : (indices 0 total).map UInt32.toNat = List.range' 0 total.toNat :=
    map_toNat_indices 0 total
  rw [ranges, ← hindices, List.map_map, List.map_map]
  refine List.map_congr_left fun i _ => ?_
  ext
  · exact toNat_offset (toNat_mul_lt i b)
  · exact toNat_blockSize_signatureAt sha256 b c i

/-- The signature with an index is found in its place. -/
theorem getElem?_signatures {total i : UInt32} (sha256 : Bytes → String) (b : UInt32) (c : Bytes)
    (hi : i.toNat < total.toNat) :
    ((indices 0 total).map (signatureAt sha256 b c))[i.toNat]? =
      some (signatureAt sha256 b c i) := by
  have hlen : i.toNat < (List.range' 0 total.toNat).length := by
    rw [List.length_range']
    exact hi
  have hindex : (indices 0 total)[i.toNat]? = some i := by
    show ((List.range' 0 (total.toNat - 0)).map UInt32.ofNat)[i.toNat]? = some i
    rw [Nat.sub_zero, List.getElem?_map, List.getElem?_eq_getElem hlen]
    simp
  rw [List.getElem?_map, hindex]
  rfl

/-- **The two cutters tile the file and agree.** The signatures have the indices from zero on,
and their ranges are non-empty and adjacent and make up the file. For any list of indices the
blocks read are, in order, those of the indices that have a signature, each as its signature
describes it. -/
theorem cutters_tile_and_agree (h : engine.fileOps.Readable fs p c)
    (hb : engine.fileOps.blockSize ≠ 0)
    (hcount : count engine.fileOps.blockSize.toNat c.length < 2 ^ 32) :
    ∃ sigs, engine.computeSignatures sha256 fs p = .ok sigs ∧
      sigs.map (fun sig => sig.blockIndex.toNat) = List.range sigs.length ∧
      Tiles 0 (ranges sigs) c.length ∧
      ∀ is : List UInt32, ∃ blocks, engine.readRequestedBlocks sha256 fs p is = .ok blocks ∧
        List.Forall₂ (fun i d => ∃ sig, sigs[i.toNat]? = some sig ∧ Matches c sig d)
          (is.filter fun i => i.toNat < sigs.length) blocks := by
  obtain ⟨total, htotal, hsigs⟩ := DeltaSyncEngine.computeSignatures_eq sha256 h hb
  -- the count is not cut to 32 bits
  rw [reported, Nat.mod_eq_of_lt hcount] at htotal
  have hlength : ((indices 0 total).map
      (signatureAt sha256 engine.fileOps.blockSize c)).length = total.toNat := by
    have hindices := congrArg List.length (map_toNat_indices 0 total)
    rwa [List.length_map, List.length_range', UInt32.toNat_zero, Nat.sub_zero,
      ← List.length_map (signatureAt sha256 engine.fileOps.blockSize c)] at hindices
  refine ⟨_, hsigs, ?_, ?_, fun is => ⟨_, DeltaSyncEngine.readRequestedBlocks_eq sha256 h is, ?_⟩⟩
  · rw [hlength, List.map_map, List.range_eq_range']
    exact map_toNat_indices 0 total
  · rw [ranges_signatures, htotal]
    have htiles := tiles_blocks (toNat_pos hb) c (count engine.fileOps.blockSize.toNat c.length) 0
      (Nat.zero_add _)
    rwa [Nat.zero_mul, Nat.zero_min] at htiles
  · -- an index has a signature exactly when its block starts inside the file
    have hin : ∀ i : UInt32, i.toNat * engine.fileOps.blockSize.toNat < c.length ↔
        i.toNat < total.toNat := by
      intro i
      rw [htotal, lt_count_iff (toNat_pos hb)]
    rw [hlength]
    simp only [hin]
    refine List.forall₂_map_right_iff.mpr (List.forall₂_same.mpr fun i hi => ?_)
    have hlt : i.toNat < total.toNat := by simpa using (List.mem_filter.mp hi).2
    exact ⟨_, getElem?_signatures sha256 engine.fileOps.blockSize c hlt,
      matches_blockDataAt sha256 p engine.fileOps.blockSize c i⟩

/-- A file of three bytes in blocks of two, of which the second, the first and one past the end
are asked for. -/
theorem cutters_tile_three_bytes :
    ∃ sigs blocks, (DeltaSyncEngine.mk ⟨"c", 2⟩).computeSignatures sha256Hex
        (FileSystem.single ['c'] ['f'] (some [1, 2, 3])) "f" = .ok sigs ∧
      Tiles 0 (ranges sigs) 3 ∧
      (DeltaSyncEngine.mk ⟨"c", 2⟩).readRequestedBlocks sha256Hex
        (FileSystem.single ['c'] ['f'] (some [1, 2, 3])) "f" [1, 0, 7] = .ok blocks := by
  obtain ⟨sigs, hsigs, -, htiles, hblocks⟩ := @cutters_tile_and_agree sha256Hex ⟨⟨"c", 2⟩⟩ _ "f" _
    (readable_single 2 (c := [1, 2, 3]) (by decide)) (by decide) (by decide)
  obtain ⟨blocks, hread, -⟩ := hblocks [1, 0, 7]
  exact ⟨sigs, blocks, hsigs, htiles, hread⟩

end Cutters

/-! ### Writing blocks into the scratch file -/

/-- Every file operation of a rebuild succeeds: the directories above the path can be made,
both the path and its scratch path can hold a file, and the operating system refuses nothing.
What the two hold is left open. -/
structure FileOps.Rebuildable (ops : FileOps) (fs : FileSystem) (p : String) : Prop where
  quiet : fs.Quiet
  opens : ops.OpensTmp fs p
  renames : ¬ ops.RenameRefused fs p

namespace FileOps.Rebuildable

variable {ops : FileOps} {fs : FileSystem} {p : String}

theorem fails_eq_false (h : ops.Rebuildable fs p) (bytes : Bytes) (call : Call) (l : Loc) :
    (ops.withTmp fs p bytes).os.fails call l = false := by
  rw [withTmp_os]
  exact h.quiet call l

/-- The directories are there when the first block is written. -/
theorem makeParents_withTmp (h : ops.Rebuildable fs p) (bytes : Bytes) :
    ops.makeParents (ops.withTmp fs p bytes) p = (ops.withTmp fs p bytes, true) := by
  have hmade := h.opens.1
  have hdir : ∀ l, (ops.makeParents fs p).1.node l = some .dir →
      (ops.withTmp fs p bytes).node l = some .dir := fun l => (h.opens.node_dir_iff l).mpr
  have hbase : (ops.withTmp fs p bytes).base = fs.base := by
    funext t
    rw [FileSystem.base, withTmp_os]
    rfl
  unfold makeParents at hmade hdir ⊢
  split
  · rfl
  · next before _ hcomponent =>
    rw [hcomponent] at hmade hdir
    rw [hbase]
    exact FileSystem.mkdirs_of_dir (hdir _ (FileSystem.node_of_mkdirs hmade))

theorem canOpenWrite_withTmp (h : ops.Rebuildable fs p) (bytes : Bytes) :
    (ops.withTmp fs p bytes).canOpenWrite (ops.tmpPath p) = true := by
  have hset := FileSystem.canOpenWrite_set bytes h.opens.2
  rwa [makeParents_locate] at hset

/-- **One block** is written over the scratch file. -/
theorem writeBlock (h : ops.Rebuildable fs p) (bytes : Bytes) {offset : UInt64} {data : Bytes}
    (hend : offset.toNat + data.length < maxOffset) :
    ops.writeBlock (ops.withTmp fs p bytes) p offset data =
      (.ok (), ops.withTmp fs p (writeAt 0 bytes offset.toNat data)) := by
  have hopen : (ops.withTmp fs p bytes).openCreate (ops.tmpPath p) =
      some (ops.withTmp fs p bytes) := by
    refine FileSystem.openCreate_of_file (b := bytes) (h.canOpenWrite_withTmp bytes) ?_
    rw [withTmp_locate]
    exact h.opens.node_tmp bytes
  have hseek : ¬ maxOffset ≤ offset.toNat := by omega
  have hwrite : (ops.withTmp fs p bytes).pwrite (ops.tmpPath p) offset.toNat data =
      some (ops.withTmp fs p (writeAt 0 bytes offset.toNat data)) := by
    have hfits : ¬ maxOffset ≤ offset.toNat + data.length := by omega
    rw [FileSystem.pwrite, withTmp_locate, h.fails_eq_false,
      FileSystem.bytesAt_of_file (h.opens.node_tmp bytes), withTmp, FileSystem.set_set,
      if_neg (by simp [hfits])]
    rfl
  simp only [FileOps.writeBlock, h.makeParents_withTmp, Bool.true_eq_false, if_false, hopen,
    if_neg hseek, hwrite]

/-- All blocks, in the order they come in. -/
theorem writeEach {engine : DeltaSyncEngine} (h : engine.fileOps.Rebuildable fs p)
    (blocks : List (UInt64 × Bytes)) :
    ∀ bytes : Bytes, (∀ w ∈ blocks, w.1.toNat + w.2.length < maxOffset) →
      engine.writeEach p (engine.fileOps.withTmp fs p bytes) blocks =
        (.ok (), engine.fileOps.withTmp fs p
          (writeAll 0 bytes (blocks.map fun w => (w.1.toNat, w.2)))) := by
  induction blocks with
  | nil => intro bytes _; rfl
  | cons w blocks ih =>
    intro bytes hends
    obtain ⟨offset, data⟩ := w
    have hblock := h.writeBlock bytes (hends (offset, data) List.mem_cons_self)
    rw [DeltaSyncEngine.writeEach, hblock]
    exact ih _ fun w hw => hends w (List.mem_cons_of_mem _ hw)

/-- The scratch file is there to be hashed and renamed. -/
theorem stat_tmp (h : ops.Rebuildable fs p) (bytes : Bytes) :
    (ops.withTmp fs p bytes).stat (ops.tmpPath p) = .file bytes := by
  rw [h.opens.stat, h.quiet]
  rfl

/-- **`apply_blocks`** leaves in the file what the blocks make of a file of zeros of the
announced length, and returns its hash. -/
theorem applyBlocks {engine : DeltaSyncEngine} (h : engine.fileOps.Rebuildable fs p)
    (sha256 : Bytes → String) {totalSize : UInt64} (hsize : totalSize.toNat < maxOffset)
    {blocks : List (UInt64 × Bytes)}
    (hends : ∀ w ∈ blocks, w.1.toNat + w.2.length < maxOffset) {content : Bytes}
    (hcontent : writeAll 0 (resize 0 [] totalSize.toNat)
      (blocks.map fun w => (w.1.toNat, w.2)) = content) :
    engine.applyBlocks sha256 fs p totalSize blocks =
      (.ok (sha256 content), engine.fileOps.renamed fs p content) := by
  have hallocate : (engine.fileOps.withTmp fs p []).setLength (engine.fileOps.tmpPath p)
      totalSize.toNat = some (engine.fileOps.withTmp fs p (resize 0 [] totalSize.toNat)) := by
    rw [FileSystem.setLength, withTmp_locate, h.fails_eq_false,
      FileSystem.bytesAt_of_file (h.opens.node_tmp []), withTmp, FileSystem.set_set]
    exact if_neg (by simp; omega)
  have hread : FileOps.readAll (engine.fileOps.withTmp fs p content)
      ("Failed to open " ++ String.ofList (engine.fileOps.tmpPath p)) "Read error"
      (engine.fileOps.tmpPath p) = .ok content := by
    simp [FileOps.readAll, FileSystem.openRead, h.fails_eq_false, h.stat_tmp]
  have hfinalize : engine.fileOps.finalizeFile (engine.fileOps.withTmp fs p content) p =
      (.ok (), engine.fileOps.renamed fs p content) := by
    simp only [FileOps.finalizeFile, h.stat_tmp, h.opens.rename h.renames, if_true]
  simp only [DeltaSyncEngine.applyBlocks, h.opens.1, Bool.true_eq_false, if_false,
    h.opens.openTruncate, hallocate, h.writeEach blocks _ hends, hcontent, hread, hfinalize]

end FileOps.Rebuildable

/-! ### Cutting and putting together -/

section Rebuild

variable {sha256 : Bytes → String} {source target : DeltaSyncEngine} {fs disk : FileSystem}
  {p q : String} {c : Bytes}

/-- A list of indices that has every block of a file rebuilds it from zeros. -/
theorem writeBlocks_all {b : ℕ} (hb : 0 < b) (c : Bytes) {is : List ℕ}
    (hall : ∀ i, i < count b c.length → i ∈ is) :
    writeBlocks 0 b c (resize 0 [] c.length) is = c := by
  rw [writeBlocks_eq_iff 0 hb _ _ _ (by simp) (.inl (by simp))]
  intro j hj hout
  refine absurd (hall _ ?_) hout
  exact (lt_count_iff hb _ _).mpr (lt_of_le_of_lt (Nat.div_mul_le_self j b) hj)

/-- The pairs that `apply_blocks` is given. -/
def pairs (blocks : List DeltaSyncBlockData) : List (UInt64 × Bytes) :=
  blocks.map fun d => (d.blockOffset, d.data)

/-- **Blocks rebuild the file in any order.** The blocks that `read_requested_blocks` returns
for a list with every index of the file, in any order, with repetitions and with indices past
the end, make `apply_blocks` leave exactly the file and return its hash, whatever the file and
its scratch file held before. -/
theorem blocks_rebuild_file (hread : source.fileOps.Readable fs p c)
    (hb : source.fileOps.blockSize ≠ 0) {is : List UInt32}
    (hall : ∀ i, i < count source.fileOps.blockSize.toNat c.length → ∃ j ∈ is, j.toNat = i)
    (hdisk : target.fileOps.Rebuildable disk q) :
    ∃ blocks disk', source.readRequestedBlocks sha256 fs p is = .ok blocks ∧
      target.applyBlocks sha256 disk q (UInt64.ofNat c.length) (pairs blocks) =
        (.ok (sha256 c), disk') ∧
      disk'.stat (target.fileOps.resolvePath q) = .file c := by
  refine ⟨_, target.fileOps.renamed disk q c,
    DeltaSyncEngine.readRequestedBlocks_eq sha256 hread is, ?_, ?_⟩
  · have hsize := toNat_ofNat_of_lt hread.length_lt
    refine hdisk.applyBlocks sha256 ?_ ?_ ?_
    · rw [hsize]
      exact hread.length_lt
    · -- a block inside the file ends inside it
      intro w hw
      simp only [pairs, List.map_map, List.mem_map, List.mem_filter, decide_eq_true_eq] at hw
      obtain ⟨i, ⟨-, hin⟩, rfl⟩ := hw
      show (i.toUInt64 * source.fileOps.blockSize.toUInt64).toNat +
        (block source.fileOps.blockSize.toNat c i.toNat).length < maxOffset
      have hlt := hread.length_lt
      rw [toNat_offset (toNat_mul_lt _ _), length_block]
      omega
    · have hwrites : (pairs ((is.filter fun i : UInt32 =>
          i.toNat * source.fileOps.blockSize.toNat < c.length).map
            (blockDataAt sha256 p source.fileOps.blockSize c))).map
              (fun w => (w.1.toNat, w.2)) = writesOf ((is.filter fun i : UInt32 =>
          i.toNat * source.fileOps.blockSize.toNat < c.length).map
            (blockDataAt sha256 p source.fileOps.blockSize c)) := by
        unfold pairs writesOf
        rw [List.map_map]
        rfl
      rw [hwrites, writeAll_writesOf, hsize]
      -- every block of the file is among those that are written
      refine writeBlocks_all (toNat_pos hb) c fun i hi => ?_
      obtain ⟨j, hj, rfl⟩ := hall i hi
      refine List.mem_map_of_mem (List.mem_filter.mpr ⟨hj, ?_⟩)
      simpa using (lt_count_iff (toNat_pos hb) _ _).mp hi
  · rw [hdisk.opens.stat_renamed hdisk.renames, hdisk.quiet]
    rfl

/-- A file `f` that holds `9` can be rebuilt. -/
theorem rebuildable_nine :
    FileOps.Rebuildable ⟨"c", 2⟩ (FileSystem.single ['c'] ['f'] (some [9])) "f" where
  quiet := FileSystem.quiet_of_calm rfl
  opens := ⟨by decide, by decide⟩
  renames := by
    rintro (hc | hc)
    · exact absurd hc (by decide)
    · exact hc (by decide)

/-- A file of three bytes is rebuilt over one that holds `9`, its last block first. -/
theorem rebuild_three_bytes :
    ∃ blocks disk', (DeltaSyncEngine.mk ⟨"c", 2⟩).readRequestedBlocks sha256Hex
        (FileSystem.single ['c'] ['f'] (some [1, 2, 3])) "f" [1, 0, 7, 1] = .ok blocks ∧
      (DeltaSyncEngine.mk ⟨"c", 2⟩).applyBlocks sha256Hex
        (FileSystem.single ['c'] ['f'] (some [9])) "f" 3 (pairs blocks) =
          (.ok (sha256Hex [1, 2, 3]), disk') ∧
      disk'.stat "c/f".toList = .file [1, 2, 3] := by
  refine @blocks_rebuild_file sha256Hex ⟨⟨"c", 2⟩⟩ ⟨⟨"c", 2⟩⟩ _ _ "f" "f" [1, 2, 3]
    (readable_single 2 (by decide)) (by decide) [1, 0, 7, 1] ?_ rebuildable_nine
  intro i hi
  have hlt : i < 2 := hi
  obtain rfl | rfl : i = 0 ∨ i = 1 := by omega
  · exact ⟨0, by decide, rfl⟩
  · exact ⟨1, by decide, rfl⟩

end Rebuild

end AdaptiveSync
