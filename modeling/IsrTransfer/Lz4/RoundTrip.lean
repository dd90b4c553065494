import IsrTransfer.Lz4.Compressor
import IsrTransfer.Lz4.DecompressRules
import IsrTransfer.WholeFiles

/-!
# LZ4, as the transfers use it

The two functions of `lib/lz4.c` together, on memory that is all zeros to begin with: what they
compute does not depend on that (`ends_lz4CompressDefault`, `lz4DecompressSafe_refines`).  Blocks
of every size that LZ4 takes decompress to themselves, which is what is assumed of LZ4 elsewhere
(`Lz4.RoundTrip`); so everything that is said of transfers under this assumption holds of the LZ4
that they come with (`blocksOk_lz4`).
-/

namespace IsrTransfer

open Buffer Outcome Block

/-- The bytes that were written, none if the result is zero or negative. -/
def lz4Written : Lz4Run (Nat × List UInt8) → Option (List UInt8)
  | .ok r => some (r.2.take r.1)
  | .error _ => none

theorem lz4Written_refines {cap : Nat} {r : Lz4Run (Nat × List UInt8)} {o : Option (List UInt8)}
    (hr : Refines .corrupt (fun r out => r.1 = out.length ∧ Lz4Holds cap out r.2) r o) :
    lz4Written r = o := by
  cases hr with
  | fails => rfl
  | yields h =>
    rw [lz4Written, h.1, ← List.prefix_iff_eq_take.mp h.2.2]

theorem lz4CompressDefault_large {src dst : List UInt8} (hmax : lz4MaxInputSize < src.length) :
    lz4CompressDefault src dst = .error .noRoom := by
  rw [lz4CompressDefault, lz4CompressGeneric]
  exact if_pos hmax

theorem lz4Written_compress_le {src : List UInt8} {cap : Nat} :
    ((lz4Written (lz4CompressDefault src (List.replicate cap 0))).getD []).length ≤ cap := by
  rcases Nat.lt_or_ge lz4MaxInputSize src.length with hlarge | hmax
  · rw [lz4CompressDefault_large hlarge]
    exact Nat.zero_le cap
  · have hends := ends_lz4CompressDefault (List.replicate cap 0) hmax
    rw [List.length_replicate] at hends
    generalize lz4CompressDefault src (List.replicate cap 0) = r at hends ⊢
    cases hends with
    | error he => exact Nat.zero_le cap
    | ok h =>
      obtain ⟨block, _, hdst, _⟩ := h
      exact (List.length_take_le' _ _).trans hdst.1.le

theorem lz4Written_decompress {src : List UInt8} {size : Int} {cap : Nat}
    (hsize : size ≤ src.length) (hneg : size < 0 → src ≠ []) :
    lz4Written (lz4DecompressSafe src size cap (List.replicate cap 0)) =
      content cap (src.take size.toNat) :=
  lz4Written_refines (lz4DecompressSafe_refines hsize hneg List.length_replicate.ge)

/-- `lib/lz4.c`.  To say that a block is longer than its memory is undefined. -/
def lz4 : Lz4 where
  compressDefault src cap := (lz4Written (lz4CompressDefault src (List.replicate cap 0))).getD []
  decompressSafe src size cap :=
    if size ≤ src.length ∧ (size < 0 → src ≠ []) then
      lz4Written (lz4DecompressSafe src size cap (List.replicate cap.toNat 0))
    else none
  compressDefault_le _ _ := lz4Written_compress_le
  decompressSafe_le src size cap out h := by
    split at h
    case isFalse hbad => cases h
    case isTrue hok =>
      rcases Int.lt_or_le cap 0 with hlt | hge
      · rw [lz4DecompressSafe, if_pos hlt] at h
        cases h
      · obtain ⟨cap, rfl⟩ := Int.eq_ofNat_of_zero_le hge
        rw [Int.toNat_natCast] at h
        have hroom : cap ≤ (List.replicate cap (0 : UInt8)).length := List.length_replicate.ge
        have hrefines := lz4DecompressSafe_refines hok.1 hok.2 hroom
        generalize lz4DecompressSafe src size cap (List.replicate cap 0) = r at h hrefines
        generalize content cap (src.take size.toNat) = o at hrefines
        cases hrefines with
        | fails => cases h
        | yields hr =>
          cases h
          refine Int.ofNat_le.mpr ((List.length_take_le' _ _).trans hr.2.1.le)

theorem content_nil {cap : Nat} : content cap [] = none := by
  rw [content]
  split
  · rfl
  · rw [decode_eq_bind]
    rfl

theorem lz4_block {src : List UInt8} {blockSize : Nat} (hmax : blockSize ≤ lz4MaxInputSize)
    (hle : src.length ≤ blockSize) :
    lz4.compressDefault src (lz4CompressBound blockSize) ≠ [] ∧
      lz4.decompressSafe (lz4.compressDefault src (lz4CompressBound blockSize))
        (lz4.compressDefault src (lz4CompressBound blockSize)).length blockSize = some src := by
  have hbound : ¬lz4CompressBound blockSize < lz4CompressBound src.length := by
    rw [lz4CompressBound, lz4CompressBound, if_neg (Nat.not_lt_of_le hmax),
      if_neg (Nat.not_lt_of_le (hle.trans hmax))]
    omega
  have hends := ends_lz4CompressDefault (List.replicate (lz4CompressBound blockSize) 0)
    (hle.trans hmax)
  rw [List.length_replicate] at hends
  have hblock : ∃ block, lz4.compressDefault src (lz4CompressBound blockSize) = block ∧
      content blockSize block = some src := by
    show ∃ block, (lz4Written (lz4CompressDefault src _)).getD [] = block ∧ _
    generalize lz4CompressDefault src (List.replicate (lz4CompressBound blockSize) 0) = r at hends ⊢
    cases hends with
    | error he => exact absurd (of_decide_eq_true he.1) hbound
    | ok h =>
      obtain ⟨block, hn, hdst, hcontent⟩ := h
      refine ⟨block, ?_, hcontent hle⟩
      rw [lz4Written, hn, ← List.prefix_iff_eq_take.mp hdst.2]
      rfl
  obtain ⟨block, hcompress, hcontent⟩ := hblock
  rw [hcompress]
  refine ⟨fun hnil => ?_, ?_⟩
  · rw [hnil, content_nil] at hcontent
    cases hcontent
  · show (if _ then lz4Written _ else none) = _
    rw [if_pos ⟨Int.le_refl _, fun hneg => absurd hneg (Int.not_lt.mpr (Int.natCast_nonneg _))⟩,
      Int.toNat_natCast, lz4Written_decompress (Int.le_refl _)
        (fun hneg => absurd hneg (Int.not_lt.mpr (Int.natCast_nonneg _))), Int.toNat_natCast,
      List.take_length]
    exact hcontent

/-- What transfers assume of LZ4 holds of the one that they come with. -/
theorem blocksOk_lz4 {flags : UInt8} {blockSize : Nat} (hpos : 0 < blockSize)
    (hmax : blockSize ≤ lz4MaxInputSize) : BlocksOk lz4 flags blockSize :=
  fun _ => ⟨hpos, hmax, fun _ _ => lz4_block hmax⟩

/-- **Blocks decompress to themselves**, whatever their size, up to the largest input of LZ4. -/
theorem lz4_roundTrip {blockSize : Nat} (hmax : blockSize ≤ lz4MaxInputSize) :
    lz4.RoundTrip blockSize :=
  fun _ _ => lz4_block hmax

theorem lz4_roundTrip_65536 : lz4.RoundTrip 65536 := lz4_roundTrip (by decide)

end IsrTransfer
