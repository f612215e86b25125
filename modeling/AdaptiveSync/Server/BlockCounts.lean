import AdaptiveSync.Server.Escape

/-!
# The block counts of a signature request

`handle_signature_request` divides three times, rounding up, with a block size that comes
from the client's message: the count of the client's blocks when the server does not have
the file, and the counts of the server's and of the client's blocks when it does. The sum
under the division is a 64-bit one and may wrap, and the quotient is cut to 32 bits.

A count that wraps is zero, and a count that is cut is too small (`toNat_blockCount_le`), so
nothing past the two files is ever requested. What goes wrong is the other half: the blocks
past the end of the server's file are requested up to the count of the client's blocks, and
with a count that is too small some of them are not. And a block size of zero, which only
the handshake turns down, traps.

`CountsFit` is the exact condition under which none of this happens (`countsSound_iff`).
-/

namespace AdaptiveSync

open Fs Blocks
open LexPath (cStr)

/-! ### One count -/

section Count

variable {n : UInt64} {b k : UInt32}

/-- The sum under the division is a 64-bit one. -/
theorem toNat_roundUp (hb : b ≠ 0) (n : UInt64) :
    (n + b.toUInt64 - 1).toNat = (n.toNat + b.toNat - 1) % 2 ^ 64 := by
  have hpos := toNat_pos hb
  have hn := n.toNat_lt
  have hlt := b.toNat_lt
  rw [UInt64.toNat_sub, UInt64.toNat_add, UInt32.toNat_toUInt64,
    show (1 : UInt64).toNat = 1 from rfl]
  omega

theorem toNat_blockCount (hb : b ≠ 0) (h : blockCount n b = .ok k) :
    k.toNat = (n.toNat + b.toNat - 1) % 2 ^ 64 / b.toNat % 2 ^ 32 := by
  rw [blockCount, if_neg hb] at h
  rw [← Except.ok.inj h, UInt64.toNat_toUInt32, UInt64.toNat_div, UInt32.toNat_toUInt64,
    toNat_roundUp hb]

/-- A count is never too large. -/
theorem toNat_blockCount_le (hb : b ≠ 0) (h : blockCount n b = .ok k) :
    k.toNat ≤ count b.toNat n.toNat := by
  rw [toNat_blockCount hb h]
  calc (n.toNat + b.toNat - 1) % 2 ^ 64 / b.toNat % 2 ^ 32
      ≤ (n.toNat + b.toNat - 1) % 2 ^ 64 / b.toNat := Nat.mod_le _ _
    _ ≤ count b.toNat n.toNat := Nat.div_le_div_right (Nat.mod_le _ _)

/-- A sum that wraps leaves less than one block. -/
theorem toNat_blockCount_of_wrap (hb : b ≠ 0) (h : blockCount n b = .ok k)
    (hwrap : 2 ^ 64 ≤ n.toNat + b.toNat - 1) : k.toNat = 0 := by
  have hn := n.toNat_lt
  have hlt := b.toNat_lt
  have hsum : (n.toNat + b.toNat - 1) % 2 ^ 64 < b.toNat := by omega
  rw [toNat_blockCount hb h, Nat.div_eq_of_lt hsum, Nat.zero_mod]

/-- **A count is right** exactly when the sum does not wrap and the quotient fits. -/
theorem count_le_toNat_blockCount_iff (hb : b ≠ 0) (h : blockCount n b = .ok k) :
    count b.toNat n.toNat ≤ k.toNat ↔
      n.toNat + b.toNat - 1 < 2 ^ 64 ∧ count b.toNat n.toNat < 2 ^ 32 := by
  have hpos := toNat_pos hb
  constructor
  · intro hle
    refine ⟨?_, lt_of_le_of_lt hle k.toNat_lt⟩
    by_contra hwrap
    rw [toNat_blockCount_of_wrap hb h (Nat.not_lt.mp hwrap)] at hle
    -- a sum that wraps is that of a file which is not empty
    have hlt := b.toNat_lt
    have hfirst : 0 < count b.toNat n.toNat :=
      (lt_count_iff hpos n.toNat 0).mpr (by omega)
    exact absurd hle (Nat.not_le.mpr hfirst)
  · rintro ⟨hfits, hsmall⟩
    rw [toNat_blockCount hb h, Nat.mod_eq_of_lt hfits]
    exact Nat.le_of_eq (Nat.mod_eq_of_lt hsmall).symm

end Count

/-! ### The request -/

section Request

variable {sha256 : Bytes → String} {fm : FileManager} {fs : FileSystem} {path : String}
  {clientFileSize : UInt64} {blockSize : UInt32} {clientSignatures : List DeltaBlockSignature}

/-- What a request asks for: blocks of the server's file that differ, then the blocks from the
count of the server's blocks up to the count of the client's. A file the server does not have
counts as an empty one. -/
theorem handleSignatureRequest_eq (hq : Queryable fm fs path) (hb : blockSize ≠ 0) :
    ∃ serverSize serverBlocks clientBlocks differing,
      fm.getFileSize fs path = .ok serverSize ∧
      blockCount serverSize blockSize = .ok serverBlocks ∧
      blockCount clientFileSize blockSize = .ok clientBlocks ∧
      (∀ j ∈ differing, j ∈ indices 0 serverBlocks) ∧
      DeltaSyncHandler.handleSignatureRequest sha256 fm fs path clientFileSize blockSize
        clientSignatures = .ok ⟨path, differing ++ indices serverBlocks clientBlocks⟩ := by
  obtain ⟨t, hp, hfailed, hdir⟩ := hq
  obtain ⟨kC, hkC⟩ : ∃ k, blockCount clientFileSize blockSize = .ok k := ⟨_, if_neg hb⟩
  cases hs : fs.stat (cStr t) with
  | failed => exact absurd hs hfailed
  | dir => exact absurd hs hdir
  | notFound =>
    have hsize : fm.getFileSize fs path = .ok 0 := by
      simp [FileManager.getFileSize, hp, existsOrThrow, hs]
      rfl
    obtain ⟨kS, hkS⟩ : ∃ k, blockCount 0 blockSize = .ok k := ⟨_, if_neg hb⟩
    -- an empty file has no block
    have hzero : kS = 0 := by
      have hle := toNat_blockCount_le hb hkS
      have hnone : count blockSize.toNat (0 : UInt64).toNat = 0 :=
        Nat.div_eq_of_lt (by have := toNat_pos hb; simp; omega)
      rw [hnone] at hle
      exact UInt32.toNat_inj.mp (Nat.le_zero.mp hle)
    refine ⟨0, kS, kC, [], hsize, hkS, hkC, by simp, ?_⟩
    simp only [DeltaSyncHandler.handleSignatureRequest, FileManager.fileExists, hp, existsOrThrow,
      hs, Except.ok_bind, hkC, hzero, List.nil_append]
    rfl
  | file s =>
    have hsize : fm.getFileSize fs path = .ok (UInt64.ofNat s.length) := by
      simp [FileManager.getFileSize, hp, existsOrThrow, hs]
      rfl
    obtain ⟨kS, hkS⟩ : ∃ k, blockCount (UInt64.ofNat s.length) blockSize = .ok k := ⟨_, if_neg hb⟩
    have hneeded := @needed_returns sha256 fm fs path t hp (UInt64.ofNat s.length)
      blockSize (clientMap clientSignatures)
    choose q hq using hneeded
    refine ⟨_, kS, kC, (indices 0 kS).filter q, hsize, hkS, hkC,
      fun j hj => List.mem_of_mem_filter hj, ?_⟩
    simp only [DeltaSyncHandler.handleSignatureRequest, FileManager.fileExists, hp, existsOrThrow,
      hs, Except.ok_bind, Bool.not_true, Bool.false_eq_true, if_false, hsize, hkS, hkC,
      Except.filterM_eq_ok fun i _ => hq i]
    rfl

end Request

/-- The counts of a request are sound: no division is by zero, and if the request is answered,
every block of the client's file that starts at or past the end of the server's is requested,
and no index past the blocks of both files is. -/
def CountsSound (sha256 : Bytes → String) (fm : FileManager) (fs : FileSystem) (path : String)
    (clientFileSize : UInt64) (blockSize : UInt32)
    (clientSignatures : List DeltaBlockSignature) : Prop :=
  DeltaSyncHandler.handleSignatureRequest sha256 fm fs path clientFileSize blockSize
      clientSignatures ≠ .error .divideByZero ∧
    ∀ request serverSize,
      DeltaSyncHandler.handleSignatureRequest sha256 fm fs path clientFileSize blockSize
        clientSignatures = .ok request →
      fm.getFileSize fs path = .ok serverSize →
        (∀ i : ℕ, i * blockSize.toNat < clientFileSize.toNat →
          serverSize.toNat ≤ i * blockSize.toNat →
            ∃ j ∈ request.requestedIndices, j.toNat = i) ∧
        ∀ j ∈ request.requestedIndices,
          j.toNat < max (count blockSize.toNat clientFileSize.toNat)
            (count blockSize.toNat serverSize.toNat)

/-- The file cannot be looked up, or the block size is not zero, and the client's file has no
more blocks than the server's or its count fits both the 64-bit sum and the 32-bit quotient. -/
def CountsFit (fm : FileManager) (fs : FileSystem) (path : String) (clientFileSize : UInt64)
    (blockSize : UInt32) : Prop :=
  ¬ Queryable fm fs path ∨
    blockSize ≠ 0 ∧ ∀ serverSize, fm.getFileSize fs path = .ok serverSize →
      count blockSize.toNat clientFileSize.toNat ≤ count blockSize.toNat serverSize.toNat ∨
        clientFileSize.toNat + blockSize.toNat - 1 < 2 ^ 64 ∧
          count blockSize.toNat clientFileSize.toNat < 2 ^ 32

section Counts

variable {sha256 : Bytes → String} {fm : FileManager} {fs : FileSystem} {path : String}
  {clientFileSize : UInt64} {blockSize : UInt32} {clientSignatures : List DeltaBlockSignature}

/-- A file that cannot be looked up ends the request before it divides. -/
theorem countsSound_of_not_queryable (hq : ¬ Queryable fm fs path) :
    CountsSound sha256 fm fs path clientFileSize blockSize clientSignatures := by
  have hreturns : ¬ (DeltaSyncHandler.handleSignatureRequest sha256 fm fs path clientFileSize
      blockSize clientSignatures).Returns :=
    fun h => hq (handleSignatureRequest_returns.mp h).1
  refine ⟨?_, fun request _ h _ => absurd ⟨request, h⟩ hreturns⟩
  unfold DeltaSyncHandler.handleSignatureRequest
  cases hp : fm.resolvePath path with
  | error e =>
    -- what is thrown is the refusal of the path
    have hthrown : e ≠ .divideByZero := by
      simp only [FileManager.resolvePath] at hp
      split at hp
      · rw [← Except.error.inj hp]
        simp
      · exact absurd hp (by simp)
    simpa [FileManager.fileExists, hp] using hthrown
  | ok t =>
    cases hs : fs.stat (cStr t) with
    | failed => simp [FileManager.fileExists, hp, existsOrThrow, hs]
    | dir => simp [FileManager.fileExists, FileManager.getFileSize, hp, existsOrThrow, hs]
    | notFound => exact absurd ⟨t, hp, by simp [hs], by simp [hs]⟩ hq
    | file s => exact absurd ⟨t, hp, by simp [hs], by simp [hs]⟩ hq

/-- A block size of zero traps on every file that can be looked up. -/
theorem handleSignatureRequest_zero (hq : Queryable fm fs path) :
    DeltaSyncHandler.handleSignatureRequest sha256 fm fs path clientFileSize 0
      clientSignatures = .error .divideByZero := by
  obtain ⟨t, hp, hfailed, hdir⟩ := hq
  cases hs : fs.stat (cStr t) with
  | failed => exact absurd hs hfailed
  | dir => exact absurd hs hdir
  | notFound =>
    simp [DeltaSyncHandler.handleSignatureRequest, FileManager.fileExists, hp, existsOrThrow, hs,
      blockCount]
  | file s =>
    simp [DeltaSyncHandler.handleSignatureRequest, FileManager.fileExists,
      FileManager.getFileSize, hp, existsOrThrow, hs, blockCount]

/-- On a file that can be looked up, what is requested past the server's blocks ends at the
count of the client's, so the counts are sound exactly when that count is not too small to
matter. -/
theorem countsSound_iff_of_queryable (hq : Queryable fm fs path) (hb : blockSize ≠ 0)
    {serverSize : UInt64} (hsize : fm.getFileSize fs path = .ok serverSize) {clientBlocks : UInt32}
    (hcount : blockCount clientFileSize blockSize = .ok clientBlocks) :
    CountsSound sha256 fm fs path clientFileSize blockSize clientSignatures ↔
      count blockSize.toNat clientFileSize.toNat ≤ count blockSize.toNat serverSize.toNat ∨
        count blockSize.toNat clientFileSize.toNat ≤ clientBlocks.toNat := by
  have hpos := toNat_pos hb
  obtain ⟨S, kS, kC, differing, hS, hkS, hkC, hdiffering, heq⟩ :=
    @handleSignatureRequest_eq sha256 fm fs path clientFileSize blockSize clientSignatures hq hb
  obtain rfl : S = serverSize := Except.ok.inj (hS.symm.trans hsize)
  obtain rfl : kC = clientBlocks := Except.ok.inj (hkC.symm.trans hcount)
  have hserver := toNat_blockCount_le hb hkS
  have hclient := toNat_blockCount_le hb hkC
  constructor
  · rintro ⟨-, hsound⟩
    obtain ⟨hall, -⟩ := hsound _ _ heq hsize
    by_contra hsmall
    rw [not_or, Nat.not_le, Nat.not_le] at hsmall
    obtain ⟨hmore, hcut⟩ := hsmall
    -- the last block of the client's file is past the server's, and is not requested
    have hlast : (count blockSize.toNat clientFileSize.toNat - 1) * blockSize.toNat <
        clientFileSize.toNat := (lt_count_iff hpos _ _).mp (by omega)
    have hpast : S.toNat ≤ (count blockSize.toNat clientFileSize.toNat - 1) * blockSize.toNat := by
      apply Nat.not_lt.mp
      rw [← lt_count_iff hpos]
      omega
    obtain ⟨j, hj, hjeq⟩ := hall _ hlast hpast
    rcases List.mem_append.mp hj with hj | hj
    · have hjlt := (mem_indices.mp (hdiffering j hj)).2
      omega
    · have hjlt := (mem_indices.mp hj).2
      omega
  · intro hfit
    refine ⟨by rw [heq]; simp, fun request serverSize hok hsize' => ?_⟩
    obtain rfl := Except.ok.inj (heq.symm.trans hok)
    obtain rfl : S = serverSize := Except.ok.inj (hsize.symm.trans hsize')
    refine ⟨fun i hi hpast => ?_, fun j hj => ?_⟩
    · have hlt : i < count blockSize.toNat clientFileSize.toNat := (lt_count_iff hpos _ _).mpr hi
      have hle : count blockSize.toNat S.toNat ≤ i := by
        apply Nat.not_lt.mp
        rw [lt_count_iff hpos]
        exact Nat.not_lt.mpr hpast
      have hword := kC.toNat_lt
      have hsmall : i < UInt32.size := by unfold UInt32.size; omega
      have hcast : (UInt32.ofNat i).toNat = i := UInt32.toNat_ofNat_of_lt' hsmall
      refine ⟨UInt32.ofNat i, List.mem_append_right _ (mem_indices.mpr ?_), hcast⟩
      omega
    · apply lt_max_iff.mpr
      rcases List.mem_append.mp hj with hj | hj
      · exact .inr (lt_of_lt_of_le (mem_indices.mp (hdiffering j hj)).2 hserver)
      · exact .inl (lt_of_lt_of_le (mem_indices.mp hj).2 hclient)

end Counts

/-- **Block counts.** For every store, every size, every block size and every list of
signatures, the counts of a request are sound exactly when they fit. -/
theorem countsSound_iff (sha256 : Bytes → String) (fm : FileManager) (fs : FileSystem)
    (path : String) (clientFileSize : UInt64) (blockSize : UInt32)
    (clientSignatures : List DeltaBlockSignature) :
    CountsSound sha256 fm fs path clientFileSize blockSize clientSignatures ↔
      CountsFit fm fs path clientFileSize blockSize := by
  unfold CountsFit
  by_cases hq : Queryable fm fs path
  swap
  · exact iff_of_true (countsSound_of_not_queryable hq) (.inl hq)
  by_cases hb : blockSize = 0
  · subst hb
    refine iff_of_false (fun hsound => hsound.1 (handleSignatureRequest_zero hq)) ?_
    rintro (hno | ⟨hne, -⟩)
    · exact hno hq
    · exact hne rfl
  obtain ⟨S, kS, kC, -, hS, -, hkC, -⟩ :=
    @handleSignatureRequest_eq sha256 fm fs path clientFileSize blockSize clientSignatures hq hb
  rw [countsSound_iff_of_queryable hq hb hS hkC, count_le_toNat_blockCount_iff hb hkC]
  constructor
  · intro hfit
    refine .inr ⟨hb, fun serverSize hsize => ?_⟩
    rwa [← Except.ok.inj (hS.symm.trans hsize)]
  · rintro (hno | ⟨-, hfit⟩)
    · exact absurd hq hno
    · exact hfit S hS

/-- A new file announced with blocks of size zero ends the server; announced as `2 ^ 64 - 1`
bytes in blocks of two, it is not requested at all. -/
theorem not_countsSound_new_file :
    ¬ CountsSound sha256Hex ⟨"s", by decide⟩ (FileSystem.single "s".toList ['f'] none) "f" 1 0 [] ∧
      ¬ CountsSound sha256Hex ⟨"s", by decide⟩ (FileSystem.single "s".toList ['f'] none) "f"
        18446744073709551615 2 [] := by
  have hq : Queryable ⟨"s", by decide⟩ (FileSystem.single "s".toList ['f'] none) "f" :=
    ⟨"s/f".toList, by decide, by decide, by decide⟩
  have hsize : FileManager.getFileSize ⟨"s", by decide⟩ (FileSystem.single "s".toList ['f'] none)
      "f" = .ok 0 := by decide
  constructor
  · exact fun hsound => hsound.1 (handleSignatureRequest_zero hq)
  · rintro ⟨-, hsound⟩
    have hok : DeltaSyncHandler.handleSignatureRequest sha256Hex ⟨"s", by decide⟩
        (FileSystem.single "s".toList ['f'] none) "f" 18446744073709551615 2 [] =
          .ok ⟨"f", []⟩ := by
      decide
    -- not even the first block is
    obtain ⟨j, hj, -⟩ := (hsound _ _ hok hsize).1 0 (by decide) (by decide)
    exact absurd hj (by simp)

end AdaptiveSync
