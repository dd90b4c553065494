import IsrTransfer.Lz4.Decompress
import IsrTransfer.Lz4.MemoryRules

/-!
# What the decoder writes for a match

Whichever way a match is copied, the output then begins with the copy at its offset.

A match that overlaps itself repeats its last bytes with the offset as the period, and a copy of
eight bytes at a time is only right if they are taken from at least eight bytes before.  So for
small offsets the source first writes eight bytes in some other way, and goes on from a place that
is a multiple of the offset back: that is what `inc32table` and `dec64table` are for
(`inc32table_spec`, `dec64table_spec`), and by `CopySource` the copy may go on from there in chunks
of eight.  The fast loop instead makes a pattern of eight bytes for the offsets 1, 2 and 4, and
writes it again and again (`holds_lz4FillPattern`).

An offset of zero is not ruled out by the decoder.  It then copies bytes that it has just set to
zero, and so it is a copy like the others, of a byte that is zero (`copyAt_zero`).
-/

namespace IsrTransfer

open Buffer Outcome

section Matches

variable {cap : Nat} {out dst : List UInt8} {d s e n fuel reach offset : Nat}

theorem holds_lz4Memcpy_output (h : Lz4Holds cap (copyTo out offset d) dst)
    (hsource : CopySource out offset reach d s) (hn : n ≤ reach) (hcap : d + n ≤ cap) :
    Yields (lz4Memcpy .output dst d s n) (Lz4Holds cap (copyTo out offset (d + n))) := by
  have hreach := (hsource.mono hn).reach_le
  have hlen : (copyTo out offset d).length = d := length_copyTo hsource.begun
  have hs : s + n ≤ dst.length := by
    rw [h.1]
    omega
  rw [lz4Memcpy, if_pos hreach, ← hsource.append_slice hn, ← h.slice (by omega)]
  refine holds_lz4Write h hlen.symm ?_
  rwa [length_slice hs]

theorem feeds_output (h : CopySource out offset reach d s) :
    Feeds cap reach cap .output (copyTo out offset) d s :=
  fun i _ _ hm hle hdst => holds_lz4Memcpy_output hdst (h.add i) hm hle

theorem lz4CopyBytes_self (h : d + n ≤ dst.length) : lz4CopyBytes dst d d n = .ok dst := by
  induction n generalizing d with
  | zero => rfl
  | succ n ih =>
    have hlen : d < dst.length := by omega
    have hread : lz4Read dst d = .ok dst[d] := by
      rw [lz4Read, List.getElem?_eq_getElem hlen]
      rfl
    have hwrite : lz4Write dst d [dst[d]] = .ok dst := by
      rw [lz4Write, if_pos (by rw [List.length_singleton]; omega), splice, List.singleton_append,
        List.length_singleton, ← List.drop_eq_getElem_cons hlen, List.take_append_drop]
      rfl
    show (lz4Read dst d >>= _) = _
    rw [hread]
    show (lz4Write dst d [dst[d]] >>= _) = _
    rw [hwrite]
    exact ih (by omega)

theorem inc32table_spec : ∀ offset < 8, 0 < offset →
    inc32table offset ≤ offset ∧ offset ∣ 4 + (offset - inc32table offset) := by
  decide

theorem dec64table_spec : ∀ offset < 8, 0 < offset → ∃ m ≤ offset,
    (inc32table offset : Int) - dec64table offset = m ∧ offset ∣ 8 + (offset - m) := by
  decide

theorem copySource_inc32table (h0 : 0 < offset) (h8 : offset < 8) (hle : offset ≤ out.length) :
    CopySource out offset 4 (out.length + 4) (out.length - offset + inc32table offset) := by
  obtain ⟨hinc, hdvd⟩ := inc32table_spec offset h8 h0
  have hback : out.length + 4 - (out.length - offset + inc32table offset) =
      4 + (offset - inc32table offset) := by omega
  refine ⟨h0, hle, Nat.le_add_right _ _, hback ▸ hdvd, ?_, ?_⟩ <;> omega

theorem copySource_dec64table (h0 : 0 < offset) (h8 : offset < 8) (hle : offset ≤ out.length) :
    CopySource out offset 8 (out.length + 8)
      ((out.length - offset + inc32table offset : Nat) - dec64table offset).toNat := by
  obtain ⟨m, hm, heq, hdvd⟩ := dec64table_spec offset h8 h0
  have hs : ((out.length - offset + inc32table offset : Nat) - dec64table offset).toNat =
      out.length - offset + m := by omega
  have hback : out.length + 8 - (out.length - offset + m) = 8 + (offset - m) := by omega
  rw [hs]
  refine ⟨h0, hle, Nat.le_add_right _ _, hback ▸ hdvd, ?_, ?_⟩ <;> omega

/-- A chunk that is no longer than the offset. -/
theorem copySource_far (hn : n ≤ offset) (h0 : 0 < offset) (hle : offset ≤ out.length) :
    CopySource out offset n out.length (out.length - offset) := by
  refine ⟨h0, hle, Nat.le_refl _, ?_, ?_, ?_⟩
  · rw [Nat.sub_sub_self hle]
  · omega
  · omega

/-- A match whose offset is small. -/
theorem holds_lz4SpreadMatch (h : Lz4Holds cap out dst) (h8 : offset < 8)
    (hle : offset ≤ out.length) (hcap : out.length + 8 ≤ cap) :
    Yields (lz4SpreadMatch dst out.length (out.length - offset) offset) (fun r =>
      Lz4Holds cap (copyTo out offset (out.length + 8)) r.1 ∧
        Feeds cap 8 cap .output (copyTo out offset) (out.length + 8) r.2) := by
  have hzeros :
      Yields (lz4Write dst out.length [0, 0, 0, 0]) (Lz4Holds cap (out ++ [0, 0, 0, 0])) :=
    holds_lz4Write h rfl (by simp only [List.length_cons, List.length_nil]; omega)
  refine hzeros.bind fun dst₁ hdst₁ => ?_
  rcases Nat.eq_zero_or_pos offset with rfl | h0
  · -- the match is the zeros that have just been written
    have hcont : ∀ {p}, out.length < p →
        copyTo out 0 p = copyTo (out ++ [default]) 1 p := copyTo_zero
    have hlen : (out ++ [(default : UInt8)]).length = out.length + 1 := List.length_append
    have hsource : CopySource (out ++ [(default : UInt8)]) 1 4 (out.length + 4) out.length := by
      refine ⟨Nat.one_pos, ?_, ?_, Nat.one_dvd _, ?_, ?_⟩ <;> omega
    have hsource' : CopySource (out ++ [(default : UInt8)]) 1 8 (out.length + 8) out.length := by
      refine ⟨Nat.one_pos, ?_, ?_, Nat.one_dvd _, ?_, ?_⟩ <;> omega
    have hself : lz4CopyBytes dst₁ out.length out.length 4 = .ok dst₁ :=
      lz4CopyBytes_self (by rw [hdst₁.1]; omega)
    have hdst₁' : Lz4Holds cap (copyTo out 0 (out.length + 4)) dst₁ := by
      rw [copyTo_add, copyAt_offset_zero]
      exact hdst₁
    show Yields (lz4CopyBytes dst₁ out.length out.length 4 >>= _) _
    rw [hself]
    have hfeeds : Feeds cap 4 cap .output (copyTo out 0) (out.length + 4) out.length :=
      (feeds_output hsource).congr fun hp => hcont (by omega)
    refine (hfeeds.memcpy (n := 4) (Nat.le_refl 4) (by omega) hdst₁').bind fun dst₂ hdst₂ => ?_
    refine .pure ⟨hdst₂, (feeds_output ?_).congr fun hp => hcont (by omega)⟩
    exact hsource'
  · have hsource := copySource_far (n := 1) h0 h0 hle
    have hbegin : Lz4Holds cap (copyTo out offset out.length) dst₁ := by
      rw [copyTo_length]
      exact hdst₁.mono (List.prefix_append _ _)
    refine ((feeds_output hsource).copyBytes Nat.one_pos hbegin (by omega)
      (by omega)).bind fun dst₂ hdst₂ => ?_
    have hinc := copySource_inc32table h0 h8 hle
    refine ((feeds_output hinc).memcpy (n := 4) (Nat.le_refl 4) (by omega) hdst₂).bind
      fun dst₃ hdst₃ => ?_
    exact .pure ⟨hdst₃, feeds_output (copySource_dec64table h0 h8 hle)⟩

theorem feeds_far (hn : n ≤ offset) (h0 : 0 < offset) (hle : offset ≤ out.length) :
    Feeds cap n cap .output (copyTo out offset) out.length (out.length - offset) :=
  feeds_output (copySource_far hn h0 hle)

/-- The first eight bytes of a match, from where on eight at a time can be copied. -/
theorem holds_lz4BeginMatch (h : Lz4Holds cap out dst) (hle : offset ≤ out.length)
    (hcap : out.length + 8 ≤ cap) :
    Yields (lz4BeginMatch dst out.length (out.length - offset) offset) (fun r =>
      Lz4Holds cap (copyTo out offset (out.length + 8)) r.1 ∧
        Feeds cap 8 cap .output (copyTo out offset) (out.length + 8) r.2) := by
  rw [lz4BeginMatch]
  split
  case isTrue h8 => exact holds_lz4SpreadMatch h h8 hle hcap
  case isFalse h8 =>
    have hfeeds : Feeds cap 8 cap .output (copyTo out offset) out.length (out.length - offset) :=
      feeds_far (Nat.le_of_not_lt h8) (by omega) hle
    have hbegin : Lz4Holds cap (copyTo out offset out.length) dst := by rwa [copyTo_length]
    refine (hfeeds.memcpy (Nat.le_refl 8) hcap hbegin).bind fun dst' hdst' => ?_
    exact .pure ⟨hdst', hfeeds.add 8⟩

theorem holds_lz4ShortMatch (h : Lz4Holds cap out dst) (h8 : 8 ≤ offset) (hle : offset ≤ out.length)
    (hcap : out.length + 18 ≤ cap) :
    Yields (lz4ShortMatch dst out.length (out.length - offset))
      (Lz4Holds cap (copyTo out offset (out.length + 18))) := by
  have hfeeds : Feeds cap 8 cap .output (copyTo out offset) out.length (out.length - offset) :=
    feeds_far h8 (by omega) hle
  have hbegin : Lz4Holds cap (copyTo out offset out.length) dst := by rwa [copyTo_length]
  refine (hfeeds.memcpy (Nat.le_refl 8) (by omega) hbegin).bind fun dst₁ hdst₁ => ?_
  refine ((hfeeds.add 8).memcpy (Nat.le_refl 8) (by omega) hdst₁).bind fun dst₂ hdst₂ => ?_
  exact (hfeeds.add 16).memcpy (by decide) hcap hdst₂

theorem holds_lz4MemcpyUsingOffsetBase (h : Lz4Holds cap out dst) (hle : offset ≤ out.length)
    (he : out.length < e) (hcap : out.length + 16 ≤ cap) (hecap : e + 7 ≤ cap) :
    Yields (lz4MemcpyUsingOffsetBase dst out.length (out.length - offset) e offset)
      (Lz4Holds cap (copyTo out offset e)) := by
  refine (holds_lz4BeginMatch h hle (by omega)).bind fun r hr => ?_
  exact hr.2.wildCopy8 prefix_copyTo (Nat.le_refl 8) hr.1 (by omega) hecap (by omega) (by omega)

/-- A loop that writes the same eight bytes again and again. -/
theorem holds_lz4FillPattern {v : List UInt8} {content : Nat → List UInt8} {base i : Nat}
    (hv : ∀ i, content (i + 1) = content i ++ v) (hv8 : v.length = 8)
    (hlen : ∀ i, (content i).length = base + 8 * i) (hdst : Lz4Holds cap (content i) dst)
    (hd : d = base + 8 * i) (he : e + 7 ≤ cap) (hfuel : 0 < fuel) (hf : e < d + fuel) :
    Yields (lz4FillPattern v e fuel dst d) (fun dst' => ∃ j, e ≤ base + 8 * j ∧
      Lz4Holds cap (content j) dst') := by
  induction fuel generalizing dst d i with
  | zero => exact absurd hfuel (Nat.lt_irrefl 0)
  | succ fuel ih =>
    rw [lz4FillPattern]
    split
    case isTrue hlt =>
      have hwrite : Yields (lz4Write dst d v) (Lz4Holds cap (content (i + 1))) := by
        rw [hv]
        exact holds_lz4Write hdst (hd.trans (hlen i).symm) (by omega)
      refine hwrite.bind fun dst' hdst' => ?_
      exact ih hdst' (by omega) (by omega) (by omega)
    case isFalse hge => exact .pure ⟨i, by omega, hdst⟩

/-- A match whose offset divides eight, by its pattern. -/
theorem holds_pattern {v : List UInt8} {times : Nat} (h : Lz4Holds cap out dst) (h0 : 0 < offset)
    (hle : offset ≤ out.length) (htimes : times * offset = 8)
    (hv : v = (List.replicate times (slice out (out.length - offset) offset)).flatten)
    (he : out.length < e) (hcap : out.length + 8 ≤ cap) (hecap : e + 7 ≤ cap) :
    Yields (lz4Write dst out.length v >>= fun dst =>
      lz4FillPattern v e (e - out.length) dst (out.length + 8))
      (Lz4Holds cap (copyTo out offset e)) := by
  have height : copyAt out offset 8 = out ++ v := by rw [hv, ← htimes, copyAt_mul h0 hle]
  have hv8 : v.length = 8 := by
    have hlen := congrArg List.length height
    rw [length_copyAt, List.length_append] at hlen
    omega
  have hstep (i : Nat) : copyAt out offset (8 * (i + 1)) = copyAt out offset (8 * i) ++ v := by
    have hdvd : offset ∣ 8 * i := Dvd.dvd.mul_right ⟨times, by rw [Nat.mul_comm, htimes]⟩ i
    rw [Nat.mul_succ, copyAt_add h0 hle hdvd, height, List.drop_left]
  have hfirst : Yields (lz4Write dst out.length v) (Lz4Holds cap (copyAt out offset (8 * 1))) := by
    rw [Nat.mul_one, height]
    exact holds_lz4Write h rfl (by omega)
  refine hfirst.bind fun dst' hdst' => ?_
  have hd : out.length + 8 = out.length + 8 * 1 := rfl
  have hf : e < out.length + 8 + (e - out.length) := by omega
  have hloop := holds_lz4FillPattern hstep hv8 (fun i => length_copyAt (8 * i)) hdst' hd hecap
    (Nat.sub_pos_of_lt he) hf
  refine hloop.mono fun dst'' hdst'' => ?_
  obtain ⟨j, hj, hholds⟩ := hdst''
  rw [← copyTo_add] at hholds
  exact hholds.mono (prefix_copyTo hj)

theorem holds_lz4MemcpyUsingOffset (h : Lz4Holds cap out dst) (hle : offset ≤ out.length)
    (he : out.length < e) (hcap : out.length + 16 ≤ cap) (hecap : e + 7 ≤ cap) :
    Yields (lz4MemcpyUsingOffset dst out.length (out.length - offset) e offset)
      (Lz4Holds cap (copyTo out offset e)) := by
  have hload {n : Nat} (hn : out.length - offset + n ≤ out.length) :
      lz4Load dst (out.length - offset) n = .ok (slice out (out.length - offset) n) := by
    rw [lz4Load, if_pos (by rw [h.1]; omega), h.slice hn]
    rfl
  rw [lz4MemcpyUsingOffset]
  split
  case isTrue h1 =>
    subst h1
    have hlt : out.length - 1 < out.length := by omega
    have hone : slice out (out.length - 1) 1 = [out[out.length - 1]] := by
      rw [slice, List.drop_eq_getElem_cons hlt, List.take_succ_cons, List.take_zero]
    have hread : lz4Read dst (out.length - 1) = .ok out[out.length - 1] := by
      rw [lz4Read, List.prefix_iff_getElem?.mp h.2 _ hlt]
      rfl
    have htimes : 8 * 1 = 8 := rfl
    rw [hread]
    refine holds_pattern h Nat.one_pos hle htimes ?_ he (by omega) hecap
    rw [hone, List.flatten_replicate_singleton]
  case isFalse h1 =>
    split
    case isTrue h2 =>
      subst h2
      have htimes : 4 * 2 = 8 := rfl
      rw [hload (by omega)]
      refine holds_pattern h Nat.two_pos hle htimes ?_ he (by omega) hecap
      simp only [List.replicate_succ, List.replicate_zero, List.flatten_cons, List.flatten_nil,
        List.append_nil, List.append_assoc]
    case isFalse h2 =>
      split
      case isTrue h4 =>
        subst h4
        have htimes : 2 * 4 = 8 := rfl
        rw [hload (by omega)]
        refine holds_pattern h (by omega) hle htimes ?_ he (by omega) hecap
        simp only [List.replicate_succ, List.replicate_zero, List.flatten_cons, List.flatten_nil,
          List.append_nil]
      case isFalse h4 => exact holds_lz4MemcpyUsingOffsetBase h hle he hcap hecap

end Matches

end IsrTransfer
