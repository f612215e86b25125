import AdaptiveSync.Client.DeltaSync

/-!
# The delta is exact and sufficient

The client's engine and the server's handler cut their files independently, in two
languages. Here the two meet: the server is given the signatures the client computed, and
the client is given the indices the server requested.

The server reads each of its blocks to the end of it. The client makes one `read` call for a
block and takes what it gets, so the table it sends describes the pieces handed over, and it
is these that are compared and sent.

* `describes_pieces`: the table the client sends describes its pieces, one by one, to the
  server's lookup;
* `handleSignatureRequest_handed`: hence the indices requested are those of
  `Blocks.deltaOf`, for any two contents, with both counts cut to 32 bits;
* `delta_exact_iff`: with counts that fit, those are the blocks that differ, and they are
  enough, exactly when each `read` hands over its block, or the server happens to have what
  is missing.
-/

namespace AdaptiveSync

open Fs Blocks
open LexPath (cStr)

/-- A signature as it arrives at the handler: copied to its message and from there. -/
def ClientBlockSignature.received (sig : ClientBlockSignature) : DeltaBlockSignature :=
  ⟨sig.blockIndex, sig.rollingHash, sig.strongHash, sig.blockOffset, sig.blockSize⟩

/-- Looking up signatures whose indices are those of a list. -/
theorem clientMap_map (g : UInt32 → DeltaBlockSignature) (hg : ∀ i, (g i).blockIndex = i)
    (l : List UInt32) (i : UInt32) :
    clientMap (l.map g) i = if i ∈ l then some (g i) else none := by
  -- the last writer of slot `i` wins, and every writer of it writes `g i`
  have hfold : ∀ (l : List UInt32) (m : UInt32 → Option DeltaBlockSignature),
      (l.map g).foldl (fun (m : UInt32 → Option DeltaBlockSignature) sig =>
        Function.update m sig.blockIndex (some sig)) m i = if i ∈ l then some (g i) else m i := by
    intro l
    induction l with
    | nil => intro m; simp
    | cons j l ih =>
      intro m
      rw [List.map_cons, List.foldl_cons, ih, hg]
      by_cases hmem : i ∈ l
      · simp [hmem]
      · by_cases hij : i = j
        · simp [hij]
        · simp [hmem, hij]
  exact hfold l _

/-- The client's table describes its pieces. -/
theorem describes_pieces (sha256 : Bytes → String) (b : UInt32) (c : Bytes) (piece : ℕ → Bytes)
    (total : UInt32) :
    Describes sha256
      (clientMap (((indices 0 total).map fun i => { signatureAt sha256 b c i with
          rollingHash := adler32 (piece i.toNat), strongHash := sha256 (piece i.toNat) }).map
        ClientBlockSignature.received)) piece total.toNat := by
  intro i
  rw [List.map_map, clientMap_map _ (fun _ => rfl)]
  split
  · next hi => exact ⟨_, if_pos (mem_indices.mpr ⟨Nat.zero_le _, hi⟩), rfl, rfl⟩
  · next hi => exact if_neg fun h => hi (mem_indices.mp h).2

/-- What the server has at a path: nothing, or a file that fits into the disk's offsets. -/
structure Stored where
  content : Option Bytes
  length_lt : ∀ s ∈ content, s.length < maxOffset

/-- The bytes of the server's file, none when it is absent. -/
def Stored.bytes (s : Stored) : Bytes := s.content.getD []

/-- The server finds `s` at `p`: nothing, for whatever reason, or a file that it can read. -/
structure Offers (fm : FileManager) (fs : FileSystem) (p : String) (t : LexPath.Text)
    (s : Stored) : Prop where
  resolves : fm.resolvePath p = .ok t
  absent : s.content = none → fs.stat (cStr t) = .notFound
  legible : ∀ b, s.content = some b → fm.Legible fs p t b

/-- The server is ready to serve `p`, at which it has `s`. -/
structure Serves (fm : FileManager) (fs : FileSystem) (p : String) (t : LexPath.Text)
    (s : Stored) : Prop extends fm.Ready fs p t where
  node : fs.node (fs.locate (cStr t)) = s.content.map .file

theorem Serves.offers {fm : FileManager} {fs : FileSystem} {p : String} {t : LexPath.Text}
    {s : Stored} (h : Serves fm fs p t s) : Offers fm fs p t s where
  resolves := h.resolves
  absent hnone := h.stat_of_none (by rw [h.node, hnone]; rfl)
  legible b hb := h.toReady.legible (by rw [h.node, hb]; rfl)

section Meeting

variable {sha256 : Bytes → String} {fm : FileManager} {fs fsC : FileSystem} {p : String}
  {t : LexPath.Text} {engine : DeltaSyncEngine} {c : Bytes} {s : Stored}

/-- **The two programs agree on the delta**, of the pieces the client has read. -/
theorem handleSignatureRequest_handed (hC : engine.fileOps.Found fsC p c)
    (hb : engine.fileOps.blockSize ≠ 0) (hS : Offers fm fs p t s)
    (hcoll : Distinguishes sha256 engine.fileOps.blockSize.toNat (engine.handed fsC p c)
      (reported engine.fileOps.blockSize c.length) s.bytes) :
    ∃ sigs is, engine.computeSignatures sha256 fsC p = .ok sigs ∧
      DeltaSyncHandler.handleSignatureRequest sha256 fm fs p (UInt64.ofNat c.length)
        engine.fileOps.blockSize (sigs.map ClientBlockSignature.received) = .ok ⟨p, is⟩ ∧
      is.map UInt32.toNat = deltaOf engine.fileOps.blockSize.toNat (engine.handed fsC p c) s.bytes
        (reported engine.fileOps.blockSize c.length)
        (reported engine.fileOps.blockSize s.bytes.length) := by
  obtain ⟨total, htotal, hsigs⟩ := DeltaSyncEngine.computeSignatures_handed sha256 hC hb
  have hdesc := describes_pieces sha256 engine.fileOps.blockSize c (engine.handed fsC p c) total
  rw [htotal] at hdesc
  obtain ⟨content, hlen⟩ := s
  cases content with
  | none =>
    obtain ⟨is, his, hdelta⟩ := DeltaSyncHandler.handleSignatureRequest_of_none
      sha256 hS.resolves (hS.absent rfl) hb hC.length_lt (engine.handed fsC p c) _
    refine ⟨_, is, hsigs, his, hdelta.trans ?_⟩
    have hzero : reported engine.fileOps.blockSize 0 = 0 := by
      have := toNat_pos hb
      unfold reported count
      rw [Nat.div_eq_of_lt (by omega), Nat.zero_mod]
    exact congrArg _ hzero.symm
  | some s =>
    obtain ⟨is, his, hdelta⟩ := DeltaSyncHandler.handleSignatureRequest_of_file
      (hS.legible s rfl) (hlen s rfl) hb hC.length_lt hdesc hcoll
    exact ⟨_, is, hsigs, his, hdelta⟩

/-- Where each `read` is served in full, it is the delta of the two files. -/
theorem handleSignatureRequest_computed (hC : engine.fileOps.Readable fsC p c)
    (hb : engine.fileOps.blockSize ≠ 0) (hS : Serves fm fs p t s)
    (hcoll : NoCollision sha256 engine.fileOps.blockSize.toNat c s.bytes) :
    ∃ sigs is, engine.computeSignatures sha256 fsC p = .ok sigs ∧
      DeltaSyncHandler.handleSignatureRequest sha256 fm fs p (UInt64.ofNat c.length)
        engine.fileOps.blockSize (sigs.map ClientBlockSignature.received) = .ok ⟨p, is⟩ ∧
      is.map UInt32.toNat = delta engine.fileOps.blockSize.toNat c s.bytes
        (reported engine.fileOps.blockSize c.length)
        (reported engine.fileOps.blockSize s.bytes.length) := by
  have hmeet := @handleSignatureRequest_handed sha256 _ _ _ _ _ engine c s hC.toFound hb hS.offers
  rw [DeltaSyncEngine.handed_of_readable hC] at hmeet
  exact hmeet (hcoll.distinguishes hb)

/-- The delta is exact and sufficient: the requested indices are increasing, they are those at
which the two files do not both have the same block, and the blocks the client sends for them
turn the server's content, cut or extended to the client's length, into the client's. -/
def DeltaExact (sha256 : Bytes → String) (engine : DeltaSyncEngine) (fsC : FileSystem)
    (fm : FileManager) (fs : FileSystem) (p : String) (c s : Bytes) : Prop :=
  ∃ sigs req blocks, engine.computeSignatures sha256 fsC p = .ok sigs ∧
    DeltaSyncHandler.handleSignatureRequest sha256 fm fs p (UInt64.ofNat c.length)
      engine.fileOps.blockSize (sigs.map ClientBlockSignature.received) = .ok req ∧
    req.requestedIndices.Pairwise (· < ·) ∧
    (∀ i : ℕ, i ∈ req.requestedIndices.map UInt32.toNat ↔
      i < max (count engine.fileOps.blockSize.toNat c.length)
          (count engine.fileOps.blockSize.toNat s.length) ∧
        ¬ (i < count engine.fileOps.blockSize.toNat c.length ∧
          i < count engine.fileOps.blockSize.toNat s.length ∧
          block engine.fileOps.blockSize.toNat c i =
            block engine.fileOps.blockSize.toNat s i)) ∧
    engine.readRequestedBlocks sha256 fsC p req.requestedIndices = .ok blocks ∧
    writeAll 0 (resize 0 s c.length) (writesOf blocks) = c

/-- What a `read` has left out of block `i` is made good by the server's file: it has neither
the block nor the piece there, and the rest of the block it has. -/
structure MadeGood (b : ℕ) (piece : ℕ → Bytes) (c s : Bytes) (i : ℕ) : Prop where
  differs : i < count b s.length → block b s i ≠ block b c i ∧ block b s i ≠ piece i
  rest : ∀ j < c.length, j / b = i → (piece i).length ≤ j % b → c.getD j 0 = s.getD j 0

/-- What is written are the pieces at the indices; those past the end are empty. -/
theorem DeltaSyncEngine.writeAll_handed (sha256 : Bytes → String) (p : String)
    (hb : engine.fileOps.blockSize ≠ 0) (is : List UInt32) (base : Bytes) :
    writeAll 0 base (writesOf ((is.filter fun i =>
        i.toNat * engine.fileOps.blockSize.toNat < c.length).map fun i =>
          { blockDataAt sha256 p engine.fileOps.blockSize c i with
            data := engine.handed fsC p c i.toNat
            strongHash := sha256 (engine.handed fsC p c i.toNat) })) =
      writePieces 0 engine.fileOps.blockSize.toNat (engine.handed fsC p c) base
        (is.map UInt32.toNat) := by
  have hmap : (is.filter fun i => i.toNat * engine.fileOps.blockSize.toNat < c.length).map
      UInt32.toNat = (is.map UInt32.toNat).filter
        fun i => i * engine.fileOps.blockSize.toNat < c.length := by
    rw [List.filter_map]
    rfl
  rw [writeAll_pieces, hmap,
    writePieces_filter 0 (toNat_pos hb) (DeltaSyncEngine.handed_prefix engine fsC p c)]

/-- Exactness and sufficiency, of the pieces. -/
theorem deltaExact_iff_pieces (hC : engine.fileOps.Found fsC p c)
    (hb : engine.fileOps.blockSize ≠ 0) (hS : Offers fm fs p t s)
    (hcountC : count engine.fileOps.blockSize.toNat c.length < 2 ^ 32)
    (hcountS : count engine.fileOps.blockSize.toNat s.bytes.length < 2 ^ 32)
    (hcoll : Distinguishes sha256 engine.fileOps.blockSize.toNat (engine.handed fsC p c)
      (count engine.fileOps.blockSize.toNat c.length) s.bytes) :
    DeltaExact sha256 engine fsC fm fs p c s.bytes ↔
      (∀ i, i < count engine.fileOps.blockSize.toNat c.length →
        i < count engine.fileOps.blockSize.toNat s.bytes.length →
          (engine.handed fsC p c i = block engine.fileOps.blockSize.toNat s.bytes i ↔
            block engine.fileOps.blockSize.toNat c i =
              block engine.fileOps.blockSize.toNat s.bytes i)) ∧
      writePieces 0 engine.fileOps.blockSize.toNat (engine.handed fsC p c)
        (resize 0 s.bytes c.length)
        (deltaOf engine.fileOps.blockSize.toNat (engine.handed fsC p c) s.bytes
          (count engine.fileOps.blockSize.toNat c.length)
          (count engine.fileOps.blockSize.toNat s.bytes.length)) = c := by
  have hreportedC : reported engine.fileOps.blockSize c.length = _ := Nat.mod_eq_of_lt hcountC
  have hreportedS : reported engine.fileOps.blockSize s.bytes.length = _ :=
    Nat.mod_eq_of_lt hcountS
  obtain ⟨sigs, is, hsigs, hreq, his⟩ :=
    handleSignatureRequest_handed hC hb hS (hreportedC.symm ▸ hcoll)
  rw [hreportedC, hreportedS] at his
  have hblocks := DeltaSyncEngine.readRequestedBlocks_handed sha256 hC is
  have hsorted := deltaOf_sorted engine.fileOps.blockSize.toNat (engine.handed fsC p c) s.bytes
    (count engine.fileOps.blockSize.toNat c.length)
    (count engine.fileOps.blockSize.toNat s.bytes.length)
  rw [← his, List.pairwise_map] at hsorted
  -- the signatures, the request and the blocks of a run are these
  rw [← deltaOf_exact_iff, ← his, ← DeltaSyncEngine.writeAll_handed sha256 p hb is]
  constructor
  · rintro ⟨sigs', req, blocks, hsigs', hreq', -, hmem, hblocks', hc⟩
    obtain rfl := Except.ok.inj (hsigs.symm.trans hsigs')
    obtain rfl := Except.ok.inj (hreq.symm.trans hreq')
    obtain rfl := Except.ok.inj (hblocks.symm.trans hblocks')
    exact ⟨hmem, hc⟩
  · rintro ⟨hmem, hc⟩
    exact ⟨sigs, _, _, hsigs, hreq, hsorted.imp UInt32.lt_iff_toNat_lt.mpr, hmem, hblocks, hc⟩

/-- **When the delta is exact and sufficient**: exactly when one `read` hands over each block
of the client's file, or the server's file makes good what it leaves out. -/
theorem delta_exact_iff (hC : engine.fileOps.Found fsC p c)
    (hb : engine.fileOps.blockSize ≠ 0) (hS : Offers fm fs p t s)
    (hcountC : count engine.fileOps.blockSize.toNat c.length < 2 ^ 32)
    (hcountS : count engine.fileOps.blockSize.toNat s.bytes.length < 2 ^ 32)
    (hcoll : Distinguishes sha256 engine.fileOps.blockSize.toNat (engine.handed fsC p c)
      (count engine.fileOps.blockSize.toNat c.length) s.bytes) :
    DeltaExact sha256 engine fsC fm fs p c s.bytes ↔
      ∀ i < count engine.fileOps.blockSize.toNat c.length,
        engine.handed fsC p c i = block engine.fileOps.blockSize.toNat c i ∨
          MadeGood engine.fileOps.blockSize.toNat (engine.handed fsC p c) c s.bytes i := by
  have hpos := toNat_pos hb
  rw [deltaExact_iff_pieces hC hb hS hcountC hcountS hcoll,
    writePieces_eq_iff 0 hpos (DeltaSyncEngine.handed_prefix engine fsC p c) (length_resize _ _ _)]
  constructor
  · rintro ⟨hexact, hcells⟩ i hi
    by_cases hfull : engine.handed fsC p c i = block engine.fileOps.blockSize.toNat c i
    · exact .inl hfull
    refine .inr ⟨fun his => ⟨fun hsame => hfull ?_, fun hsame => hfull ?_⟩, ?_⟩
    · -- the block would be requested though the server has it
      exact ((hexact i hi his).mpr hsame.symm).trans hsame
    · -- the block would not be requested though the server has the piece only
      exact hsame.symm.trans ((hexact i hi his).mp hsame.symm).symm
    · rintro j hj rfl hlen
      have hcell := hcells j hj fun hc => absurd hc.2 (Nat.not_lt.mpr hlen)
      rwa [getD_resize 0 s.bytes hj] at hcell
  · intro h
    refine ⟨fun i hi his => ?_, fun j hj hout => ?_⟩
    · obtain hfull | hgood := h i hi
      · rw [hfull]
      · obtain ⟨hblock, hpiece⟩ := hgood.differs his
        exact iff_of_false (Ne.symm hpiece) (Ne.symm hblock)
    · have hin : j / engine.fileOps.blockSize.toNat <
          count engine.fileOps.blockSize.toNat c.length :=
        (lt_count_iff hpos _ _).mpr (lt_of_le_of_lt (Nat.div_mul_le_self j _) hj)
      rw [getD_resize 0 s.bytes hj]
      by_cases hmem : j / engine.fileOps.blockSize.toNat ∈
          deltaOf engine.fileOps.blockSize.toNat (engine.handed fsC p c) s.bytes
            (count engine.fileOps.blockSize.toNat c.length)
            (count engine.fileOps.blockSize.toNat s.bytes.length)
      · -- requested, but the cell is behind the piece
        have hlen := Nat.not_lt.mp fun hlt => hout ⟨hmem, hlt⟩
        obtain hfull | hgood := h _ hin
        · rw [hfull, length_block] at hlen
          -- a whole block reaches to its end or to the end of the file, past the cell
          have hdiv := Nat.div_add_mod j engine.fileOps.blockSize.toNat
          have hmod := Nat.mod_lt j hpos
          rw [Nat.mul_comm] at hdiv
          omega
        · exact hgood.rest j hj rfl hlen
      · -- not requested, so the server has the piece
        rw [mem_deltaOf, not_and, not_not] at hmem
        obtain ⟨-, his, hsame⟩ := hmem (lt_max_of_lt_left hin)
        obtain hfull | hgood := h _ hin
        · exact getD_eq_of_block_eq 0 hpos (hfull.symm.trans hsame)
        · exact absurd hsame.symm (hgood.differs his).2

end Meeting

/-! ### Two disks -/

/-- The server's disk with the file `f` in its storage root `s`. -/
theorem serves_single (s : Stored) :
    Serves ⟨"s", by decide⟩ (FileSystem.single ['s'] ['f'] s.content) "f" "s/f".toList s where
  toReady := .of_single (by decide) (by decide) (by decide) rfl rfl rfl
  node := by
    rw [show FileSystem.locate _ _ = [['s'], ['f']] from by rfl, FileSystem.node_single]
    simp

/-- The server's disk without the file `f`. -/
theorem ready_single_none : (FileManager.mk "s").Ready (FileSystem.single ['s'] ['f'] none) "f"
    "s/f".toList :=
  (serves_single ⟨none, by simp⟩).toReady

/-- The client's disk with the file `f` in its sync root `c`, under an operating system. -/
def clientDisk (os : Os) (c : Bytes) : FileSystem :=
  ⟨(FileSystem.single ['c'] ['f'] (some c)).nodes, os⟩

/-- Where nothing is refused, the file is found. -/
theorem found_clientDisk (b : UInt32) {c : Bytes} (hc : c.length < maxOffset) {os : Os}
    (hcwd : os.cwd = []) (hcalm : ∀ call l, os.fails call l = false) :
    FileOps.Found ⟨"c", b⟩ (clientDisk os c) "f" c where
  quiet := hcalm
  stat := by
    have hpath : FileOps.resolvePath ⟨"c", b⟩ "f" = "c/f".toList := by
      change LexPath.append "c".toList "f".toList = _
      decide
    have hloc : (clientDisk os c).locate "c/f".toList = [['c'], ['f']] := by
      change LexPath.walk true os.cwd _ = _
      rw [hcwd]
      rfl
    have hnode : (clientDisk os c).node [['c'], ['f']] = some (.file c) := by
      have hsingle := FileSystem.node_single ['c'] ['f'] (some c) [['c'], ['f']]
      rw [if_neg (by simp), if_neg (by simp), if_pos rfl] at hsingle
      unfold FileSystem.node at hsingle ⊢
      rw [clientDisk, hcwd]
      exact hsingle
    rw [hpath, FileSystem.stat, hloc, hnode]
    change (if os.fails .stat [['c'], ['f']] = true then Stat.failed else _) = _
    rw [hcalm]
    rfl
  length_lt := hc

/-- The client's disk with the file `f` in its sync root `c`. -/
theorem readable_single (b : UInt32) {c : Bytes} (hc : c.length < maxOffset) :
    FileOps.Readable ⟨"c", b⟩ (FileSystem.single ['c'] ['f'] (some c)) "f" c where
  toFound := found_clientDisk b hc rfl fun _ _ => rfl
  full := FileSystem.fullReads_of_calm rfl

/-- A three-byte file against a two-byte one, in blocks of two. -/
theorem delta_exact_iff_two_three : DeltaExact sha256Hex ⟨⟨"c", 2⟩⟩
    (FileSystem.single ['c'] ['f'] (some [1, 2, 3])) ⟨"s", by decide⟩
    (FileSystem.single ['s'] ['f'] (some [1, 2])) "f" [1, 2, 3] [1, 2] := by
  have hread := @readable_single 2 [1, 2, 3] (by decide)
  have hhanded := @DeltaSyncEngine.handed_of_readable ⟨⟨"c", 2⟩⟩ _ _ _ hread
  have hcoll : Distinguishes sha256Hex 2 (block 2 [1, 2, 3]) (count 2 3) [1, 2] := by
    intro i _ his _
    obtain rfl : i = 0 := by simp at his; omega
    decide
  exact (@delta_exact_iff sha256Hex _ _ _ "f" _ ⟨⟨"c", 2⟩⟩ _ ⟨some [1, 2], by simp [maxOffset]⟩
    hread.toFound (by decide) (serves_single _).offers (by decide) (by decide)
    (hhanded ▸ hcoll)).mpr fun i _ => .inl (by rw [hhanded])

/-- Linux hands over at most `0x7ffff000` bytes with one `read`. -/
def linuxReads : Os := { Os.calm with delivers := fun _ _ n => min n 0x7ffff000 }

/-- Of a block of 2 GiB the last 4096 bytes are not sent. Where they do not begin with a zero,
a server that does not have the file does not get it. -/
theorem not_deltaExact_of_length {c : Bytes} (hlen : c.length = 0x80000000)
    (hlast : c.getD 0x7ffff000 0 ≠ 0) : ¬ DeltaExact sha256Hex ⟨⟨"c", 0x80000000⟩⟩
      (clientDisk linuxReads c) ⟨"s", by decide⟩ (FileSystem.single ['s'] ['f'] none) "f" c [] := by
  intro h
  have hcount : count (UInt32.toNat 0x80000000) c.length < 2 ^ 32 := by
    rw [hlen]
    decide
  have hpieces := (@deltaExact_iff_pieces sha256Hex _ _ _ "f" _ ⟨⟨"c", 0x80000000⟩⟩ c
    ⟨none, by simp⟩ (found_clientDisk _ (by rw [hlen]; decide) rfl fun _ _ => rfl) (by decide)
    (serves_single _).offers hcount (by decide)
    fun i _ hi => absurd hi (Nat.not_lt_zero _)).mp h
  have hshort : ∀ i, (DeltaSyncEngine.handed ⟨⟨"c", 0x80000000⟩⟩ (clientDisk linuxReads c) "f" c
      i).length ≤ 0x7ffff000 :=
    fun i => (List.length_take_le _ _).trans (Nat.min_le_right _ _)
  -- the first byte that is not handed over stays zero
  have hcell := (writePieces_eq_iff 0 (by decide) (DeltaSyncEngine.handed_prefix _ _ _ _)
    (length_resize _ _ _) _).mp hpieces.2 0x7ffff000 (by rw [hlen]; decide)
    fun hc => absurd (lt_of_lt_of_le hc.2 (hshort _)) (by decide)
  rw [getD_resize 0 _ (by rw [hlen]; decide)] at hcell
  exact hlast hcell

/-- A file of 2 GiB, all ones. -/
theorem not_delta_exact_two_gib : ¬ DeltaExact sha256Hex ⟨⟨"c", 0x80000000⟩⟩
    (clientDisk linuxReads (List.replicate 0x80000000 1)) ⟨"s", by decide⟩
    (FileSystem.single ['s'] ['f'] none) "f" (List.replicate 0x80000000 1) [] := by
  refine not_deltaExact_of_length List.length_replicate ?_
  rw [List.getD_replicate _ (by decide)]
  decide

end AdaptiveSync
