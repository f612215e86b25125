import Mathlib.Data.List.GetD
import Mathlib.Order.Lattice
import Mathlib.Tactic.Tauto

/-!
# Cutting a list into blocks, and writing blocks back

`block b l i` is the `i`-th block of `l` when `l` is cut every `b` positions; the
last one may be short. `writeAt z base off data` is a positional write into a file
of cells `base`: the cells `off, off + 1, …` are overwritten, the file grows as
needed, and a gap between its old end and `off` reads as the fill cell `z`. A write
of no cells changes nothing, not even the length.

Everything is stated through `getD · z`, the cell at a position with `z` past the
end: a write then has one equation (`getD_writeAt`) with no case for the gap, and
two files are equal when they have the same length and the same cells
(`ext_getD`).

The two results the rest uses are about writing a selection `is` of the blocks of
`l` back at their own positions:

* `getD_writeBlocks`: the cells in a selected block are those of `l`, the others
  those of the base;
* `writeBlocks_eq_iff`: with the last block selected, the result is `l` exactly
  when the base agrees with `l` outside the selection.
-/

namespace Blocks

variable {α : Type*}

/-! ### Blocks of a list -/

/-- Block `i` of `l`, cut every `b` positions. -/
def block (b : ℕ) (l : List α) (i : ℕ) : List α := (l.drop (i * b)).take b

/-- How many blocks of size `b` cover `n` positions. -/
def count (b n : ℕ) : ℕ := (n + b - 1) / b

theorem lt_count_iff {b : ℕ} (hb : 0 < b) (n i : ℕ) : i < count b n ↔ i * b < n := by
  unfold count
  rw [Nat.lt_iff_add_one_le, Nat.le_div_iff_mul_le hb, Nat.add_mul]
  omega

@[simp] theorem length_block (b : ℕ) (l : List α) (i : ℕ) :
    (block b l i).length = min b (l.length - i * b) := by
  simp [block]

theorem block_eq_nil_iff {b : ℕ} (hb : 0 < b) (l : List α) (i : ℕ) :
    block b l i = [] ↔ l.length ≤ i * b := by
  rw [← List.length_eq_zero_iff, length_block]
  omega

theorem block_ne_nil {b : ℕ} (hb : 0 < b) {l : List α} {i : ℕ} (h : i * b < l.length) :
    block b l i ≠ [] := by
  rw [Ne, block_eq_nil_iff hb]
  omega

/-- A block inside the list is short exactly when it is the one the list ends
strictly inside of. -/
theorem length_block_lt_iff {b : ℕ} (hb : 0 < b) {l : List α} {i : ℕ} (h : i * b < l.length) :
    (block b l i).length < b ↔ i = l.length / b ∧ l.length % b ≠ 0 := by
  have hdiv := Nat.div_add_mod l.length b
  have hmod := Nat.mod_lt l.length hb
  rw [length_block]
  constructor
  · intro hlt
    -- `i * b < length < (i + 1) * b`, so `i` is the quotient
    have hi : l.length / b = i := by
      rw [Nat.div_eq_iff hb]
      omega
    subst hi
    rw [Nat.mul_comm] at h
    exact ⟨rfl, by omega⟩
  · rintro ⟨rfl, hne⟩
    rw [Nat.mul_comm]
    omega

/-- A list that ends strictly inside a block has that block as its last. -/
theorem count_eq_of_mod_ne {b n : ℕ} (hb : 0 < b) (h : n % b ≠ 0) : count b n = n / b + 1 := by
  have hdiv := Nat.div_add_mod n b
  have hmod := Nat.mod_lt n hb
  rw [Nat.mul_comm] at hdiv
  refine le_antisymm (Nat.le_of_not_lt fun hc => ?_) ((lt_count_iff hb n (n / b)).mpr (by omega))
  rw [lt_count_iff hb, Nat.add_mul] at hc
  omega

/-- The ranges, given by offset and length, are non-empty and adjacent, and cover the
positions from `start` up to `stop` and no others. -/
inductive Tiles : ℕ → List (ℕ × ℕ) → ℕ → Prop
  | nil (start : ℕ) : Tiles start [] start
  | cons {start len stop : ℕ} {rest : List (ℕ × ℕ)} (hlen : 0 < len)
      (h : Tiles (start + len) rest stop) : Tiles start ((start, len) :: rest) stop

/-- **The blocks of a list tile it**, from any block on. -/
theorem tiles_blocks {b : ℕ} (hb : 0 < b) (l : List α) (n : ℕ) :
    ∀ i, i + n = count b l.length →
      Tiles (min (i * b) l.length)
        ((List.range' i n).map fun k => (k * b, (block b l k).length)) l.length := by
  induction n with
  | zero =>
    intro i hi
    -- no block is left, so the list has ended
    have hend : l.length ≤ i * b := by
      rw [← Nat.not_lt, ← lt_count_iff hb]
      omega
    rw [Nat.min_eq_right hend]
    exact .nil _
  | succ n ih =>
    intro i hi
    have hin : i * b < l.length := (lt_count_iff hb _ _).mp (by omega)
    have hlen : 0 < (block b l i).length := List.length_pos_iff.mpr (block_ne_nil hb hin)
    -- a block ends where the next one starts, or with the list
    have hnext : i * b + (block b l i).length = min ((i + 1) * b) l.length := by
      rw [length_block, Nat.succ_mul]
      omega
    rw [Nat.min_eq_left hin.le, List.range'_succ, List.map_cons]
    refine .cons hlen ?_
    rw [hnext]
    exact ih (i + 1) (by omega)

/-! ### Cells -/

/-- Two lists are equal when they have the same length and, read with the same
default, the same cells. -/
theorem ext_getD (z : α) {l m : List α} (hlen : l.length = m.length)
    (h : ∀ j, j < l.length → l.getD j z = m.getD j z) : l = m := by
  refine List.ext_getElem hlen fun j h₁ h₂ => ?_
  have := h j h₁
  rwa [List.getD_eq_getElem _ _ h₁, List.getD_eq_getElem _ _ h₂] at this

theorem getD_block (z : α) (b : ℕ) (l : List α) (i k : ℕ) (h : k < b) :
    (block b l i).getD k z = l.getD (i * b + k) z := by
  simp [block, List.getD_eq_getElem?_getD, h]

/-- Two blocks of the same position are equal exactly when the lists end at the
same place inside the block and agree on its cells. -/
theorem getD_eq_of_block_eq (z : α) {b : ℕ} (hb : 0 < b) {l m : List α} {j : ℕ}
    (h : block b l (j / b) = block b m (j / b)) : l.getD j z = m.getD j z := by
  have hj : j / b * b + j % b = j := by rw [Nat.mul_comm]; exact Nat.div_add_mod j b
  have hl := getD_block z b l (j / b) (j % b) (Nat.mod_lt j hb)
  have hm := getD_block z b m (j / b) (j % b) (Nat.mod_lt j hb)
  rw [hj] at hl hm
  rw [← hl, ← hm, h]

/-! ### Positional writes -/

/-- Overwrite the cells of `base` from `off` on with `data`, filling a gap with
`z`. -/
def writeAt (z : α) (base : List α) (off : ℕ) : List α → List α
  | [] => base
  | d :: ds => base.take off ++ List.replicate (off - base.length) z ++ (d :: ds) ++
      base.drop (off + (d :: ds).length)

@[simp] theorem writeAt_nil (z : α) (base : List α) (off : ℕ) : writeAt z base off [] = base := rfl

/-- Writing from the start of nothing. -/
@[simp] theorem writeAt_zero_nil (z : α) (data : List α) : writeAt z [] 0 data = data := by
  cases data with
  | nil => rfl
  | cons d ds => simp [writeAt]

/-- Writing the next cells of a list behind the ones before them. -/
theorem writeAt_take (z : α) {l : List α} {n : ℕ} (h : n ≤ l.length) (k : ℕ) :
    writeAt z (l.take n) n ((l.drop n).take k) = l.take (n + k) := by
  have hlen : (l.take n).length = n := by
    rw [List.length_take]
    exact Nat.min_eq_left h
  cases hnext : (l.drop n).take k with
  | nil => rw [List.take_add, hnext, List.append_nil, writeAt_nil]
  | cons d ds =>
    calc writeAt z (l.take n) n (d :: ds)
        = l.take n ++ [] ++ (d :: ds) ++ [] := by
          rw [writeAt, hlen, Nat.sub_self, List.take_of_length_le (by rw [hlen]),
            List.drop_of_length_le (by rw [hlen]; omega)]
          rfl
      _ = l.take (n + k) := by
          rw [List.take_add, hnext, List.append_nil, List.append_nil]

/-- Writing block `i` behind the blocks before it. -/
theorem writeAt_take_block (z : α) {b : ℕ} {l : List α} {i : ℕ} (h : i * b ≤ l.length) :
    writeAt z (l.take (i * b)) (i * b) (block b l i) = l.take ((i + 1) * b) := by
  rw [Nat.succ_mul]
  exact writeAt_take z h b

theorem writeAt_of_ne_nil (z : α) (base : List α) (off : ℕ) {data : List α} (h : data ≠ []) :
    writeAt z base off data = base.take off ++ List.replicate (off - base.length) z ++ data ++
      base.drop (off + data.length) := by
  cases data with
  | nil => exact absurd rfl h
  | cons d ds => rfl

theorem length_writeAt (z : α) (base : List α) (off : ℕ) {data : List α} (h : data ≠ []) :
    (writeAt z base off data).length = max base.length (off + data.length) := by
  rw [writeAt_of_ne_nil z base off h]
  simp only [List.length_append, List.length_take, List.length_replicate, List.length_drop]
  omega

/-- **The cells after a write.** The gap needs no case of its own, since it reads
as `z` in `base` already. -/
theorem getD_writeAt (z : α) (base : List α) (off : ℕ) (data : List α) (j : ℕ) :
    (writeAt z base off data).getD j z =
      if off ≤ j ∧ j < off + data.length then data.getD (j - off) z else base.getD j z := by
  rcases eq_or_ne data [] with rfl | hne
  · rw [writeAt_nil, if_neg]
    simp
  rw [writeAt_of_ne_nil z base off hne]
  -- old cells and gap together reach up to the write
  have hpre : (base.take off ++ List.replicate (off - base.length) z).length = off := by
    simp only [List.length_append, List.length_take, List.length_replicate]
    omega
  rw [List.append_assoc (_ ++ _)]
  simp only [List.getD_eq_getElem?_getD]
  rcases lt_or_ge j off with hlt | hge
  · -- before the write: the old cells, or the gap
    rw [List.getElem?_append_left (by omega), if_neg (by omega)]
    rcases lt_or_ge j base.length with hb | hb
    · rw [List.getElem?_append_left (by simp; omega), List.getElem?_take, if_pos hlt]
    · rw [List.getElem?_append_right (by simp; omega), List.getElem?_eq_none hb,
        List.getElem?_replicate]
      split <;> rfl
  · -- from the write on: its own cells, then what it left of the old ones
    rw [List.getElem?_append_right (by omega), hpre]
    rcases lt_or_ge j (off + data.length) with hd | hd
    · rw [List.getElem?_append_left (by omega), if_pos ⟨hge, hd⟩]
    · rw [List.getElem?_append_right (by omega), List.getElem?_drop, if_neg (by omega)]
      congr 2
      omega

/-- `l` cut to length `n`, or extended to it with `z`. -/
def resize (z : α) (l : List α) (n : ℕ) : List α := l.take n ++ List.replicate (n - l.length) z

@[simp] theorem length_resize (z : α) (l : List α) (n : ℕ) : (resize z l n).length = n := by
  simp only [resize, List.length_append, List.length_take, List.length_replicate]
  omega

theorem getD_resize (z : α) (l : List α) {n j : ℕ} (h : j < n) :
    (resize z l n).getD j z = l.getD j z := by
  simp only [resize, List.getD_eq_getElem?_getD]
  rcases lt_or_ge j l.length with hl | hl
  · rw [List.getElem?_append_left (by simp; omega), List.getElem?_take, if_pos h]
  · rw [List.getElem?_append_right (by simp; omega), List.getElem?_eq_none hl,
      List.getElem?_replicate]
    split <;> rfl

/-! ### Writing a selection of blocks -/

/-- Write a list of `(offset, data)` pairs, first pair first. -/
def writeAll (z : α) (base : List α) (ws : List (ℕ × List α)) : List α :=
  ws.foldl (fun l w => writeAt z l w.1 w.2) base

@[simp] theorem writeAll_nil (z : α) (base : List α) : writeAll z base [] = base := rfl

@[simp] theorem writeAll_cons (z : α) (base : List α) (w : ℕ × List α)
    (ws : List (ℕ × List α)) :
    writeAll z base (w :: ws) = writeAll z (writeAt z base w.1 w.2) ws := rfl

theorem writeAll_append (z : α) (base : List α) (ws vs : List (ℕ × List α)) :
    writeAll z base (ws ++ vs) = writeAll z (writeAll z base ws) vs := List.foldl_append

/-- Write the pieces whose indices are in `is`, piece `i` where block `i` begins. -/
def writePieces (z : α) (b : ℕ) (piece : ℕ → List α) (base : List α) (is : List ℕ) : List α :=
  writeAll z base (is.map fun i => (i * b, piece i))

/-- Write the blocks of `l` whose indices are in `is`, each at its own place. -/
def writeBlocks (z : α) (b : ℕ) (l base : List α) (is : List ℕ) : List α :=
  writePieces z b (block b l) base is

/-- The cells after writing beginnings of the blocks of `l`. -/
theorem getD_writePieces (z : α) {b : ℕ} (hb : 0 < b) {l : List α} {piece : ℕ → List α}
    (hpiece : ∀ i, piece i <+: block b l i) (is : List ℕ) :
    ∀ (base : List α) (j : ℕ), (writePieces z b piece base is).getD j z =
      if j / b ∈ is ∧ j % b < (piece (j / b)).length then l.getD j z else base.getD j z := by
  induction is with
  | nil => intro base j; simp [writePieces]
  | cons i is ih =>
    intro base j
    have hj : j / b * b + j % b = j := by rw [Nat.mul_comm]; exact Nat.div_add_mod j b
    have hmod := Nat.mod_lt j hb
    have hlen : (piece i).length ≤ b :=
      (hpiece i).length_le.trans (by rw [length_block]; exact Nat.min_le_left _ _)
    -- a cell lies in the range of the piece when it lies in the block, not too far on
    have hrange : (i * b ≤ j ∧ j < i * b + (piece i).length) ↔
        j / b = i ∧ j % b < (piece (j / b)).length := by
      constructor
      · rintro ⟨hle, hlt⟩
        obtain rfl : j / b = i := by rw [Nat.div_eq_iff hb]; omega
        exact ⟨rfl, by omega⟩
      · rintro ⟨rfl, hlt⟩
        omega
    change (writePieces z b piece (writeAt z base (i * b) (piece i)) is).getD j z = _
    rw [ih, getD_writeAt]
    simp only [hrange, List.mem_cons]
    -- a later write of the same cell writes the same value
    by_cases hmem : j / b ∈ is ∧ j % b < (piece (j / b)).length
    · rw [if_pos hmem, if_pos ⟨Or.inr hmem.1, hmem.2⟩]
    · rw [if_neg hmem]
      by_cases hi : j / b = i ∧ j % b < (piece (j / b)).length
      · -- the write just made covers cell `j`
        rw [if_pos hi, if_pos ⟨Or.inl hi.1, hi.2⟩]
        obtain ⟨rfl, hlt⟩ := hi
        obtain ⟨rest, hrest⟩ := hpiece (j / b)
        have hcell := getD_block z b l (j / b) (j % b) hmod
        rw [hj, ← hrest, List.getD_append _ _ _ _ hlt] at hcell
        rw [show j - j / b * b = j % b by omega, hcell]
      · rw [if_neg hi, if_neg (by tauto)]

theorem getD_writeBlocks (z : α) {b : ℕ} (hb : 0 < b) (l : List α) (is : List ℕ) (base : List α)
    (j : ℕ) : (writeBlocks z b l base is).getD j z =
      if j / b ∈ is ∧ j < l.length then l.getD j z else base.getD j z := by
  have hin : j % b < (block b l (j / b)).length ↔ j < l.length := by
    have hj : j / b * b + j % b = j := by rw [Nat.mul_comm]; exact Nat.div_add_mod j b
    have hmod := Nat.mod_lt j hb
    rw [length_block]
    omega
  rw [writeBlocks, getD_writePieces z hb (fun i => List.prefix_rfl)]
  simp only [hin]

/-- Beginnings of blocks of `l` never make a file of its length longer or shorter. -/
theorem length_writePieces (z : α) {b : ℕ} (hb : 0 < b) {l : List α} {piece : ℕ → List α}
    (hpiece : ∀ i, piece i <+: block b l i) (is : List ℕ) :
    ∀ base : List α, base.length = l.length →
      (writePieces z b piece base is).length = l.length := by
  induction is with
  | nil => intro base h; exact h
  | cons i is ih =>
    intro base h
    refine ih (writeAt z base (i * b) (piece i)) ?_
    rcases eq_or_ne (piece i) [] with hnil | hne
    · rw [hnil, writeAt_nil]; exact h
    · rw [length_writeAt z _ _ hne, h]
      have hlen := (hpiece i).length_le
      have hpos := List.length_pos_iff.mpr hne
      rw [length_block] at hlen
      omega

/-- **When beginnings of blocks are enough.** Over a base of the length of `l` they give `l`
exactly when the base has what they leave out. -/
theorem writePieces_eq_iff (z : α) {b : ℕ} (hb : 0 < b) {l base : List α} {piece : ℕ → List α}
    (hpiece : ∀ i, piece i <+: block b l i) (hbase : base.length = l.length) (is : List ℕ) :
    writePieces z b piece base is = l ↔
      ∀ j, j < l.length → ¬ (j / b ∈ is ∧ j % b < (piece (j / b)).length) →
        l.getD j z = base.getD j z := by
  have hlen := length_writePieces z hb hpiece is base hbase
  constructor
  · intro h j hj hout
    have hcell := getD_writePieces z hb hpiece is base j
    rwa [h, if_neg hout] at hcell
  · intro h
    refine ext_getD z hlen fun j hj => ?_
    rw [hlen] at hj
    rw [getD_writePieces z hb hpiece]
    split
    · rfl
    · next hout => exact (h j hj hout).symm

/-- Writing blocks of `l` never makes a file longer than `l` that was not so
already. -/
theorem length_writeBlocks_le (z : α) (b : ℕ) (l : List α) (is : List ℕ) :
    ∀ base : List α, base.length ≤ l.length → (writeBlocks z b l base is).length ≤ l.length := by
  induction is with
  | nil => intro base h; exact h
  | cons i is ih =>
    intro base h
    refine ih (writeAt z base (i * b) (block b l i)) ?_
    -- a block ends no later than `l` does
    rcases eq_or_ne (block b l i) [] with hnil | hne
    · rw [hnil, writeAt_nil]; exact h
    · rw [length_writeAt z _ _ hne]
      have := List.length_pos_iff.mpr hne
      rw [length_block] at *
      omega

/-- A file never shrinks under writes. -/
theorem length_le_writeBlocks (z : α) (b : ℕ) (l : List α) (is : List ℕ) :
    ∀ base : List α, base.length ≤ (writeBlocks z b l base is).length := by
  induction is with
  | nil => intro base; exact le_refl _
  | cons i is ih =>
    intro base
    refine le_trans ?_ (ih (writeAt z base (i * b) (block b l i)))
    rcases eq_or_ne (block b l i) [] with hnil | hne
    · rw [hnil, writeAt_nil]
    · rw [length_writeAt z _ _ hne]
      exact le_max_left _ _

/-- Selecting the block in which `l` ends makes the file at least as long as `l`. -/
theorem le_length_writeBlocks (z : α) {b : ℕ} (hb : 0 < b) (l : List α) (is : List ℕ)
    (hmem : (l.length - 1) / b ∈ is) (base : List α) :
    l.length ≤ (writeBlocks z b l base is).length := by
  rcases Nat.eq_zero_or_pos l.length with h0 | hpos
  · omega
  induction is generalizing base with
  | nil => simp at hmem
  | cons i is ih =>
    change l.length ≤ (writeBlocks z b l (writeAt z base (i * b) (block b l i)) is).length
    rcases List.mem_cons.mp hmem with rfl | hmem
    · -- the block with the last cell of `l` reaches its end, and later writes do not shrink it
      refine le_trans ?_ (length_le_writeBlocks z b l is _)
      have hle : (l.length - 1) / b * b ≤ l.length - 1 := Nat.div_mul_le_self _ _
      have hlt : l.length - 1 < (l.length - 1) / b * b + b := by
        have := Nat.lt_div_mul_add (a := l.length - 1) hb
        exact this
      have hne : block b l ((l.length - 1) / b) ≠ [] := block_ne_nil hb (by omega)
      rw [length_writeAt z _ _ hne, length_block]
      omega
    · exact ih hmem _

/-- **Sufficiency of a selection.** With the last block selected, writing the
selected blocks over a base no longer than `l` gives `l` exactly when the base
agrees with `l` on every cell outside the selection. -/
theorem writeBlocks_eq_iff (z : α) {b : ℕ} (hb : 0 < b) (l base : List α) (is : List ℕ)
    (hbase : base.length ≤ l.length)
    (hlast : base.length = l.length ∨ (l.length - 1) / b ∈ is) :
    writeBlocks z b l base is = l ↔
      ∀ j, j < l.length → j / b ∉ is → l.getD j z = base.getD j z := by
  -- the lengths agree in any case, so only the cells count
  have hlen : (writeBlocks z b l base is).length = l.length := by
    refine le_antisymm (length_writeBlocks_le z b l is base hbase) ?_
    rcases hlast with heq | hmem
    · rw [← heq]; exact length_le_writeBlocks z b l is base
    · exact le_length_writeBlocks z hb l is hmem base
  constructor
  · intro h j hj hout
    have := getD_writeBlocks z hb l is base j
    rw [h, if_neg (fun hc => hout hc.1)] at this
    exact this
  · intro h
    refine ext_getD z hlen fun j hj => ?_
    rw [hlen] at hj
    rw [getD_writeBlocks z hb]
    split
    · rfl
    · next hout =>
      exact (h j hj fun hc => hout ⟨hc, hj⟩).symm

/-- Pieces past the end of `l` are empty, so leaving them out changes nothing. -/
theorem writePieces_filter (z : α) {b : ℕ} (hb : 0 < b) {l : List α} {piece : ℕ → List α}
    (hpiece : ∀ i, piece i <+: block b l i) (is : List ℕ) :
    ∀ base : List α, writePieces z b piece base (is.filter fun i => i * b < l.length) =
      writePieces z b piece base is := by
  induction is with
  | nil => intro base; rfl
  | cons i is ih =>
    intro base
    by_cases hi : i * b < l.length
    · rw [List.filter_cons_of_pos (by simpa using hi)]
      exact ih _
    · have hnil : piece i = [] :=
        List.prefix_nil.mp ((block_eq_nil_iff hb l i).mpr (Nat.not_lt.mp hi) ▸ hpiece i)
      rw [List.filter_cons_of_neg (by simpa using hi), ih]
      change writePieces z b piece base is =
        writePieces z b piece (writeAt z base (i * b) (piece i)) is
      rw [hnil, writeAt_nil]

/-! ### The delta of two lists -/

section Delta

variable [DecidableEq α]

/-- The indices below `max nl nm`, in order, at which there are not both a piece and a block of
`m`, or the two are different; `nl` pieces and `nm` blocks are looked at. -/
def deltaOf (b : ℕ) (piece : ℕ → List α) (m : List α) (nl nm : ℕ) : List ℕ :=
  (List.range (max nl nm)).filter fun i => ¬ (i < nl ∧ i < nm ∧ piece i = block b m i)

/-- The indices below `max nl nm`, in order, at which `l` and `m` do not both have a block,
or have different ones; `nl` and `nm` blocks are looked at. -/
def delta (b : ℕ) (l m : List α) (nl nm : ℕ) : List ℕ := deltaOf b (block b l) m nl nm

theorem mem_deltaOf {b : ℕ} {piece : ℕ → List α} {m : List α} {nl nm i : ℕ} :
    i ∈ deltaOf b piece m nl nm ↔
      i < max nl nm ∧ ¬ (i < nl ∧ i < nm ∧ piece i = block b m i) := by
  simp only [deltaOf, List.mem_filter, List.mem_range, decide_eq_true_eq]

theorem mem_delta {b : ℕ} {l m : List α} {nl nm i : ℕ} :
    i ∈ delta b l m nl nm ↔ i < max nl nm ∧ ¬ (i < nl ∧ i < nm ∧ block b l i = block b m i) :=
  mem_deltaOf

/-- When the delta of the pieces is that of the blocks: a piece is the other list's block exactly
when the block is. -/
theorem deltaOf_exact_iff {b : ℕ} {piece : ℕ → List α} {l m : List α} {nl nm : ℕ} :
    (∀ i, i ∈ deltaOf b piece m nl nm ↔
        i < max nl nm ∧ ¬ (i < nl ∧ i < nm ∧ block b l i = block b m i)) ↔
      ∀ i, i < nl → i < nm → (piece i = block b m i ↔ block b l i = block b m i) := by
  simp only [mem_deltaOf]
  refine forall_congr' fun i => ?_
  constructor
  · intro h hl hm
    have hlt : i < max nl nm := Nat.lt_of_lt_of_le hl (Nat.le_max_left nl nm)
    simpa only [hlt, hl, hm, true_and, not_iff_not] using h
  · intro h
    refine and_congr_right fun _ => not_congr ?_
    exact and_congr_right fun hl => and_congr_right fun hm => h hl hm

theorem deltaOf_sorted (b : ℕ) (piece : ℕ → List α) (m : List α) (nl nm : ℕ) :
    (deltaOf b piece m nl nm).Pairwise (· < ·) :=
  List.pairwise_lt_range.filter _

theorem delta_sorted (b : ℕ) (l m : List α) (nl nm : ℕ) :
    (delta b l m nl nm).Pairwise (· < ·) := deltaOf_sorted b _ m nl nm

/-- A sorted list with a greatest element ends in it. -/
theorem eq_append_of_sorted {l : List ℕ} (hl : l.Pairwise (· < ·)) {m : ℕ} (hm : m ∈ l)
    (hmax : ∀ i ∈ l, i ≤ m) : ∃ init, l = init ++ [m] ∧ ∀ i ∈ init, i < m := by
  obtain ⟨init, rest, rfl⟩ := List.append_of_mem hm
  obtain ⟨-, hrest, hcross⟩ := List.pairwise_append.mp hl
  -- nothing after it can be greater
  have hnil : rest = [] := by
    refine List.eq_nil_iff_forall_not_mem.mpr fun i hi => ?_
    have hlt := (List.pairwise_cons.mp hrest).1 i hi
    have hle := hmax i (by simp [hi])
    omega
  subst hnil
  exact ⟨init, rfl, fun i hi => hcross i hi m (by simp)⟩

/-- The delta as two loops find it: one over the blocks of `m`, one over the pieces past
them. -/
theorem deltaOf_eq_append (b : ℕ) (piece : ℕ → List α) (m : List α) (nl nm : ℕ) :
    deltaOf b piece m nl nm =
      (List.range nm).filter (fun i => ¬ (i < nl ∧ piece i = block b m i)) ++
        List.range' nm (nl - nm) := by
  have hrange : List.range (max nl nm) = List.range nm ++ List.range' nm (nl - nm) := by
    rw [List.range_eq_range', List.range_eq_range', show max nl nm = nm + (nl - nm) by omega,
      ← List.range'_append_1]
    simp
  rw [deltaOf, hrange, List.filter_append]
  congr 1
  · -- below `nm` the test of `m` having a block is idle
    refine List.filter_congr fun i hi => ?_
    simp [List.mem_range.mp hi]
  · -- past `nm` no index is left out
    refine List.filter_eq_self.mpr fun i hi => ?_
    have := (List.mem_range'_1.mp hi).1
    simp only [decide_not, Bool.not_eq_eq_eq_not, Bool.not_true, decide_eq_false_iff_not]
    omega

end Delta

end Blocks
