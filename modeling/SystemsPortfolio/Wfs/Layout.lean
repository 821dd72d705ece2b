/-
SystemsPortfolio/Wfs/Layout.lean

Which of the layouts that `setup_sb` accepts are sound.

The offsets in the superblock are computed in `int`, the size that is compared with
the image in `size_t`.  The two agree as long as no `int` operation overflows
(`setupSb_layout`).  Where one does, the wrapped value moves a region back over the one
before it, while the size that is compared stays what it should be; so the layout is
accepted for a large enough image, and is not sound.
-/
import SystemsPortfolio.Wfs.Disk

namespace SystemsPortfolio.Wfs

variable {inodes blocks : Int} {sz : Nat} {sb : Sb}

/-- A count in the last incomplete group of 32 below 2^31 is rounded up to -2^31, and the
bitmap for it has a negative size. -/
theorem roundup_overflow {n : Int} (h₁ : 2147483616 < n) (h₂ : n < 2 ^ 31) :
    (roundup n 32).tdiv 8 = -268435456 := by
  have hmod : n.tmod 32 = n % 32 := Int.tmod_eq_emod_of_nonneg (by omega)
  have hsum : n + (32 - n % 32) = 2147483648 := by omega
  rw [roundup, hmod, if_neg (by omega), hsum]
  decide

/-- What `setup_sb` stores, in terms of the rounded counts. -/
theorem setupSb_fields (h : setupSb inodes blocks sz = (sb, true)) :
    sb.numInodes = sizeT (roundup inodes 32) ∧
      sb.iBitmapPtr = 48 ∧
      sb.dBitmapPtr = 48 + (roundup inodes 32).tdiv 8 ∧
      sb.iBlocksPtr = sb.dBitmapPtr + (roundup blocks 32).tdiv 8 ∧
      sb.dBlocksPtr = sb.iBlocksPtr + cInt (roundup inodes 32 * 512) := by
  obtain ⟨rfl, -⟩ := Prod.mk.inj h
  exact ⟨rfl, rfl, rfl, rfl, rfl⟩

/-- An inode table of 2^31 bytes or more wraps. -/
theorem cInt_lt {x : Int} (h : 2147483647 < x) : cInt x < x := by
  have hlt : cInt x < (2 ^ 32 + 1) / 2 := Int.bmod_lt (by decide)
  omega

/-- A layout that is accepted is sound if and only if no `int` operation overflowed on the
way: the rounded number of inodes times 512 and the rounded number of blocks are at most
2^31 - 1. -/
theorem accepted_layout_iff (hi : 0 < inodes) (hi' : inodes < 2 ^ 31) (hb : 0 < blocks)
    (hb' : blocks < 2 ^ 31) (h : setupSb inodes blocks sz = (sb, true)) :
    sb.Layout sz ↔ inodes ≤ 4194272 ∧ blocks ≤ 2147483616 := by
  obtain ⟨hnum, hibm, hdbm, hitab, hdata⟩ := setupSb_fields h
  constructor
  · intro hl
    have hdbitmap := hl.dbitmap
    have hitable := hl.itable
    have hdblocks := hl.dblocks
    by_contra hcon
    -- the first overflow of the three possible ones puts a region before its predecessor
    by_cases hround : inodes ≤ 2147483616
    · obtain ⟨k, hk, hle, hlt, hmax⟩ := roundup_spec hi hround
      by_cases hblocks : blocks ≤ 2147483616
      · have hbig : 2147483647 < roundup inodes 32 * 512 := by omega
        have hwrap := cInt_lt hbig
        have hcount : (sb.numInodes : Int) = roundup inodes 32 := by
          rw [hnum]
          exact sizeT_of_nonneg (by omega) (by omega)
        omega
      · rw [roundup_overflow (not_le.mp hblocks) hb'] at hitab
        omega
    · rw [roundup_overflow (not_le.mp hround) hi'] at hdbm
      omega
  · rintro ⟨hinodes, hblocks⟩
    have hround : inodes ≤ 2147483616 := by omega
    obtain ⟨k, hk, hle, hlt, hmax⟩ := roundup_spec hi hround
    have hfit : SetupNoOverflow inodes blocks := ⟨hround, hblocks, by omega⟩
    exact (setupSb_layout hi hb hfit h).2

/-- A file system of 32 inodes and 200 blocks on an image of one megabyte. -/
theorem accepted_layout_iff_small :
    (setupSb 32 200 1048576).2 = true ∧ (setupSb 32 200 1048576).1.Layout 1048576 := by
  have h : setupSb 32 200 1048576 = ((setupSb 32 200 1048576).1, true) := by decide
  exact ⟨by decide, (accepted_layout_iff (by decide) (by decide) (by decide) (by decide) h).mpr
    (by decide)⟩

/-- With 2^22 inodes the table has 2^31 bytes: an image of 3 * 10^9 bytes is accepted, and
the data blocks start before the image does. -/
theorem accepted_layout_overlaps :
    (setupSb 4194304 32 3000000000).2 = true ∧
      (setupSb 4194304 32 3000000000).1.dBlocksPtr < 0 ∧
      ¬ (setupSb 4194304 32 3000000000).1.Layout 3000000000 := by
  have hptr : (setupSb 4194304 32 3000000000).1.dBlocksPtr < 0 := by decide
  have hitab : (0 : Int) < (setupSb 4194304 32 3000000000).1.iBlocksPtr := by decide
  refine ⟨by decide, hptr, fun hl => ?_⟩
  have := hl.dblocks
  omega

end SystemsPortfolio.Wfs
