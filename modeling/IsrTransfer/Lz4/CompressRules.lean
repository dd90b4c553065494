import IsrTransfer.Lz4.Block
import IsrTransfer.Lz4.MatchFinder
import IsrTransfer.Lz4.MemoryRules

/-!
# What the compressor writes

The literals and the matches are written as the format has them (`Block.encode`).  Where the output
is not limited there is room for every write as long as the output has not grown by more than a
byte for 255 of the input.

A sequence is written in an order that is not that of its bytes.  The token comes first, with the
number of literals, and the length of the match is added to it when the match has been counted
(`yields_lz4AddToToken`); the literals are copied eight bytes at a time, and what the copy writes
too much is written over; of a long length four bytes of 255 are always written ahead
(`yields_lz4MatchLengthLoop`).  So what is said after each step is what the output begins with
(`Lz4Holds`), and the parts of a sequence are put together on lists.

In a limited output every part is preceded by a look at the room that it needs at most.  The
conditions of the source are not all the same, but a part that does not fit ends in `noRoom`, and
this is the only way to fail (`Lz4Limited`).
-/

namespace IsrTransfer

open Buffer Outcome Block

section Writes

variable {cap : Nat} {out dst : List UInt8} {n : Nat}

theorem lz4LengthBytes_eq (n : Nat) :
    lz4LengthBytes n = List.replicate (n / 255) 255 ++ [UInt8.ofNat (n % 255)] := by
  induction n using Nat.strongRecOn with
  | _ n ih =>
    rw [lz4LengthBytes]
    split
    case isTrue hge =>
      have hdiv : n / 255 = (n - 255) / 255 + 1 := by omega
      have hmod : n % 255 = (n - 255) % 255 := by omega
      rw [ih _ (by omega), hdiv, hmod]
      rfl
    case isFalse hlt =>
      rw [Nat.div_eq_of_lt (by omega), Nat.mod_eq_of_lt (by omega)]
      rfl

theorem lz4LengthBytes_runBytes (h : lz4Mask ≤ n) : lz4LengthBytes (n - lz4Mask) = runBytes n := by
  have h15 : 15 ≤ n := h
  rw [lz4LengthBytes_eq, runBytes, if_neg (Nat.not_lt_of_le h15)]
  rfl

theorem length_begun : (out ++ token n 0 :: runBytes n).length =
    out.length + 1 + (runBytes n).length := by
  rw [List.length_append, List.length_cons]
  omega

/-- A token and the rest of the number of literals. -/
theorem yields_lz4EncodeRun (h : Lz4Holds cap out dst)
    (hcap : (out ++ token n 0 :: runBytes n).length ≤ cap) :
    Yields (lz4EncodeRun n out.length dst) (fun r =>
      r.1 = (out ++ token n 0 :: runBytes n).length ∧
        Lz4Holds cap (out ++ token n 0 :: runBytes n) r.2) := by
  have hlen : (out ++ token n 0 :: runBytes n).length = out.length + 1 + (runBytes n).length :=
    length_begun
  have htoken {b : UInt8} (hb : b = token n 0) :
      Yields (lz4Write dst out.length [b]) (Lz4Holds cap (out ++ [token n 0])) := by
    rw [hb]
    exact holds_lz4Write h rfl (by rw [List.length_singleton]; omega)
  rw [lz4EncodeRun]
  split
  case isTrue hlong =>
    have h15 : 15 ≤ n := hlong
    have hb : UInt8.ofNat (16 * lz4Mask) = token n 0 := by
      rw [token, Nat.min_eq_right h15, Nat.min_eq_left (Nat.zero_le _)]
      rfl
    rw [lz4LengthBytes_runBytes hlong]
    refine (htoken hb).bind fun dst₁ hdst₁ => ?_
    have hop : out.length + 1 = (out ++ [token n 0]).length := by
      rw [List.length_append, List.length_singleton]
    have hwrite := holds_lz4Write hdst₁ hop (hlen ▸ hcap)
    refine hwrite.bind fun dst₂ hdst₂ => ?_
    rw [List.append_assoc] at hdst₂
    exact .pure ⟨hlen.symm, hdst₂⟩
  case isFalse hshort =>
    have hlt : n < 15 := Nat.lt_of_not_le hshort
    have hb : UInt8.ofNat (16 * n) = token n 0 := by
      rw [token, Nat.min_eq_left hlt.le, Nat.min_eq_left (Nat.zero_le _)]
      rfl
    rw [runBytes_of_lt hlt] at hlen ⊢
    refine (htoken hb).bind fun dst₁ hdst₁ => .pure ⟨hlen.symm, hdst₁⟩

/-- The token is added to where it stands. -/
theorem yields_lz4AddToToken {b : UInt8} {pre post : List UInt8}
    (h : Lz4Holds cap (pre ++ b :: post) dst) :
    Yields (lz4AddToToken pre.length n dst)
      (Lz4Holds cap (pre ++ (b + UInt8.ofNat n) :: post)) := by
  obtain ⟨hcap, more, hmore⟩ := h
  rw [List.append_assoc, List.cons_append] at hmore
  subst hmore
  have hread : lz4Read (pre ++ b :: (post ++ more)) pre.length = .ok b := by
    rw [lz4Read, List.getElem?_append_right (Nat.le_refl _), Nat.sub_self]
    rfl
  have hlen : pre.length + 1 ≤ (pre ++ b :: (post ++ more)).length := by
    rw [List.length_append, List.length_cons]
    omega
  have hwrite : lz4Write (pre ++ b :: (post ++ more)) pre.length [b + UInt8.ofNat n] =
      .ok (pre ++ (b + UInt8.ofNat n) :: (post ++ more)) := by
    refine (if_pos hlen).trans (congrArg Except.ok ?_)
    rw [splice, List.take_left, List.length_singleton, ← List.drop_drop, List.drop_left]
    rfl
  rw [lz4AddToToken, hread]
  show Yields (lz4Write _ _ _) _
  rw [hwrite]
  refine .pure ⟨?_, more, ?_⟩
  · rwa [List.length_append, List.length_cons] at hcap ⊢
  · rw [List.append_assoc, List.cons_append]

theorem token_add {m k : Nat} (hk : k = min m 15) : token n 0 + UInt8.ofNat k = token n m := by
  rw [hk, token, token, ← UInt8.ofNat_add, Nat.min_eq_left (Nat.zero_le _), Nat.add_zero]

/-- Four bytes of 255 at a time; there are always four of them ahead. -/
theorem yields_lz4MatchLengthLoop {fuel matchCode i : Nat}
    (h : Lz4Holds cap (out ++ List.replicate (i + 4) 255) dst)
    (hcap : out.length + i + 4 * (matchCode / 1020) + 4 ≤ cap) (hfuel : matchCode < fuel) :
    Yields (lz4MatchLengthLoop fuel matchCode (out.length + i) dst) (fun r => ∃ k,
      matchCode = 1020 * k + r.1 ∧ r.1 < 1020 ∧ r.2.1 = out.length + (i + 4 * k) ∧
        Lz4Holds cap (out ++ List.replicate (i + 4 * k + 4) 255) r.2.2) := by
  induction fuel generalizing matchCode i dst with
  | zero => exact absurd hfuel (Nat.not_lt_zero _)
  | succ fuel ih =>
    rw [lz4MatchLengthLoop]
    split
    case isTrue hge =>
      have hop : out.length + i + 4 = (out ++ List.replicate (i + 4) (255 : UInt8)).length := by
        rw [List.length_append, List.length_replicate, Nat.add_assoc]
      have hroom : out.length + i + 4 + (List.replicate 4 (255 : UInt8)).length ≤ cap := by
        rw [List.length_replicate]
        omega
      have hwrite := holds_lz4Write h hop hroom
      rw [List.append_assoc, List.replicate_append_replicate] at hwrite
      refine hwrite.bind fun dst' hdst' => ?_
      rw [Nat.add_assoc]
      refine (ih hdst' (by omega) (by omega)).mono fun r hr => ?_
      obtain ⟨k, hcode, hlt, hop, hholds⟩ := hr
      refine ⟨k + 1, by omega, hlt, by omega, ?_⟩
      rwa [show i + 4 * (k + 1) = i + 4 + 4 * k by omega]
    case isFalse hlt => exact .pure ⟨0, by omega, by omega, rfl, h⟩

theorem yields_lz4EncodeMatchLength {m : Nat} {pre post : List UInt8}
    (h : Lz4Holds cap (pre ++ token n 0 :: post) dst)
    (hcap : (pre ++ token n 0 :: post).length + 4 + (m + 240) / 255 ≤ cap) :
    Yields (lz4EncodeMatchLength m pre.length (pre ++ token n 0 :: post).length dst) (fun r =>
      r.1 = (pre ++ token n m :: (post ++ runBytes m)).length ∧
        Lz4Holds cap (pre ++ token n m :: (post ++ runBytes m)) r.2) := by
  have hlen : (pre ++ token n 0 :: post).length = (pre ++ token n m :: post).length := by
    rw [List.length_append, List.length_append, List.length_cons, List.length_cons]
  have hout : pre ++ token n m :: (post ++ runBytes m) =
      (pre ++ token n m :: post) ++ runBytes m := by
    rw [List.append_assoc, List.cons_append]
  rw [hlen] at hcap
  rw [lz4EncodeMatchLength, hout, hlen]
  split
  case isFalse hshort =>
    have hlt : m < 15 := Nat.lt_of_not_le hshort
    have hadd := yields_lz4AddToToken (n := m) h
    rw [token_add (Nat.min_eq_left hlt.le).symm] at hadd
    rw [runBytes_of_lt hlt, List.append_nil]
    exact hadd.bind fun dst' hdst' => .pure ⟨rfl, hdst'⟩
  case isTrue hlong =>
    have h15 : 15 ≤ m := hlong
    have hadd := yields_lz4AddToToken (n := 15) h
    rw [token_add (Nat.min_eq_right h15).symm] at hadd
    generalize pre ++ token n m :: post = out at hadd hcap ⊢
    refine hadd.bind fun dst₁ hdst₁ => ?_
    have hfour : Yields (lz4Write dst₁ out.length [255, 255, 255, 255])
        (Lz4Holds cap (out ++ List.replicate (0 + 4) 255)) := by
      refine holds_lz4Write hdst₁ rfl ?_
      simp only [List.length_cons, List.length_nil]
      omega
    refine hfour.bind fun dst₂ hdst₂ => ?_
    have hloop : Yields (lz4MatchLengthLoop m (m - lz4Mask) (out.length + 0) dst₂) _ :=
      yields_lz4MatchLengthLoop hdst₂ (by rw [lz4Mask]; omega) (by rw [lz4Mask]; omega)
    refine hloop.bind fun r hr => ?_
    obtain ⟨code, op, dst₃⟩ := r
    obtain ⟨k, hcode, hlt, hop, hdst₃⟩ := hr
    rw [lz4Mask] at hcode
    dsimp only at hcode hlt hop hdst₃ ⊢
    have hbytes : runBytes m =
        List.replicate (4 * k + code / 255) 255 ++ [UInt8.ofNat (code % 255)] := by
      rw [runBytes, if_neg (Nat.not_lt_of_le h15),
        show (m - 15) / 255 = 4 * k + code / 255 by omega,
        show (m - 15) % 255 = code % 255 by omega]
    have hknown : Lz4Holds cap (out ++ List.replicate (4 * k + code / 255) 255) dst₃ := by
      refine hdst₃.mono ((List.prefix_append_right_inj out).mpr ?_)
      obtain ⟨j, hj⟩ : ∃ j, 0 + 4 * k + 4 = 4 * k + code / 255 + j := ⟨4 - code / 255, by omega⟩
      exact ⟨List.replicate j 255, by rw [List.replicate_append_replicate, hj]⟩
    have hop' : op + code / 255 =
        (out ++ List.replicate (4 * k + code / 255) (255 : UInt8)).length := by
      rw [List.length_append, List.length_replicate]
      omega
    have hwrite : Yields (lz4Write dst₃ (op + code / 255) [UInt8.ofNat (code % 255)])
        (Lz4Holds cap (out ++ runBytes m)) := by
      rw [hbytes, ← List.append_assoc]
      refine holds_lz4Write hknown hop' ?_
      rw [List.length_singleton]
      omega
    refine hwrite.bind fun dst₄ hdst₄ => .pure ⟨?_, hdst₄⟩
    rw [hbytes, List.length_append, List.length_append, List.length_replicate,
      List.length_singleton]
    omega

end Writes

section Sequences

variable {src out dst : List UInt8} {cap : Nat} {limitedOutput : Bool}

/-- The only way to fail: where the output is limited, and there is no room. -/
def Lz4Limited (limitedOutput : Bool) (e : Lz4Stop) : Prop := limitedOutput = true ∧ e = .noRoom

/-- There is the room that was looked for, or that was there anyhow. -/
theorem le_of_not_full {need : Nat} (hok : ¬(limitedOutput = true ∧ cap < need))
    (hroom : limitedOutput = false → need ≤ cap) : need ≤ cap := by
  cases limitedOutput with
  | false => exact hroom rfl
  | true => exact Nat.le_of_not_lt fun hlt => hok ⟨rfl, hlt⟩

theorem begun_append {n : Nat} {literals : List UInt8} (hn : literals.length = n) :
    out ++ token n 0 :: runBytes n ++ literals = out ++ encodeLast literals := by
  rw [encodeLast, hn, List.append_assoc, List.cons_append]

theorem length_encodeLast {literals : List UInt8} :
    (encodeLast literals).length = 1 + (runBytes literals.length).length + literals.length := by
  rw [encodeLast, List.length_cons, List.length_append]
  omega

theorem encode_eq {literals : List UInt8} {offset m : Nat} :
    encode literals offset m = token literals.length m :: (runBytes literals.length ++ literals ++
      [UInt8.ofNat offset, UInt8.ofNat (offset / 256)] ++ runBytes m) := by
  rw [encode, List.append_assoc, List.append_assoc]
  rfl

theorem length_encode {literals : List UInt8} {offset m : Nat} :
    (encode literals offset m).length =
      (encodeLast literals).length + 2 + (runBytes m).length := by
  rw [encode_eq, encodeLast]
  simp only [List.length_cons, List.length_append, List.length_nil]
  omega

/-- The literals before a match, of which there may be none. -/
theorem ends_lz4EncodeLiterals {anchor ip : Nat} (h : Lz4Holds cap out dst) (hanchor : anchor ≤ ip)
    (hip : ip + 8 ≤ src.length)
    (hroom : limitedOutput = false →
      out.length + 1 + (ip - anchor) + 8 + (ip - anchor) / 255 ≤ cap) :
    Ends (Lz4Limited limitedOutput)
      (fun r => r.1 = (out ++ encodeLast (slice src anchor (ip - anchor))).length ∧
        Lz4Holds cap (out ++ encodeLast (slice src anchor (ip - anchor))) r.2 ∧ r.1 + 7 ≤ cap)
      (lz4EncodeLiterals src limitedOutput anchor ip out.length dst) := by
  have hslice : (slice src anchor (ip - anchor)).length = ip - anchor := length_slice (by omega)
  have hbytes : 255 * (runBytes (ip - anchor)).length ≤ ip - anchor + 240 := length_runBytes_le
  rw [lz4EncodeLiterals, h.1]
  dsimp only
  split
  case isTrue hfull => exact .error ⟨hfull.1, rfl⟩
  case isFalse hok =>
    have hcap : out.length + 1 + (ip - anchor) + 8 + (ip - anchor) / 255 ≤ cap :=
      le_of_not_full hok hroom
    have hlen : (out ++ token (ip - anchor) 0 :: runBytes (ip - anchor)).length =
        out.length + 1 + (runBytes (ip - anchor)).length := length_begun
    have hshort : ip - anchor < 15 → (runBytes (ip - anchor)).length = 0 :=
      length_runBytes_of_lt
    refine (yields_lz4EncodeRun h (by omega)).ends_bind fun r hr => ?_
    obtain ⟨op, dst₁⟩ := r
    obtain ⟨rfl, hdst₁⟩ := hr
    refine (holds_wildCopy8_literals (s := anchor) hdst₁ (by omega) (by omega) (by omega)).ends_bind
      fun dst₂ hdst₂ => ?_
    have hout : out ++ token (ip - anchor) 0 :: runBytes (ip - anchor) ++
        slice src anchor (ip - anchor) = out ++ encodeLast (slice src anchor (ip - anchor)) :=
      begun_append hslice
    rw [hout] at hdst₂
    have hend : (out ++ token (ip - anchor) 0 :: runBytes (ip - anchor)).length + (ip - anchor) =
        (out ++ encodeLast (slice src anchor (ip - anchor))).length := by
      have hsum := congrArg List.length hout
      rwa [List.length_append, hslice] at hsum
    exact .ok ⟨hend, hdst₂, by omega⟩

/-- What the compressor knows at `_next_match`: the place repeats an earlier one, and may have been
moved back from `top`, up to which the hash table points. -/
structure Lz4Match (src : List UInt8) (tableType : Lz4TableType) (ip m top : Nat)
    (table : List Nat) : Prop where
  lt : m < ip
  near : ip ≤ m + lz4DistanceMax
  le : ip ≤ top
  end_le : top + lz4MfLimit ≤ src.length
  repeats : Repeats src ip m (top - ip + 4)
  table : Lz4Table tableType top table

/-- The match is counted to behind every index in the table. -/
theorem Lz4Match.top_le {tableType : Lz4TableType} {ip m top c : Nat} {table : List Nat}
    (h : Lz4Match src tableType ip m top table)
    (hc : Lz4Counted src (src.length - lz4LastLiterals) 1 (ip + lz4MinMatch) (m + lz4MinMatch) c) :
    top ≤ ip + c := by
  have hend := h.end_le
  have hle := hc.le
  rw [lz4MfLimit] at hend
  rw [lz4LastLiterals, lz4MinMatch] at hle
  by_contra hlt
  refine hc.most (by rw [lz4LastLiterals, lz4MinMatch]; omega) fun k hk => ?_
  rw [Nat.lt_one_iff.mp hk, lz4MinMatch]
  have hbyte := h.repeats (4 + c) (by omega)
  rwa [← Nat.add_assoc, ← Nat.add_assoc] at hbyte

/-- From the offset of a match to the end of its length. -/
theorem ends_lz4EncodeMatch {literals : List UInt8} {ip m : Nat}
    (h : Lz4Holds cap (out ++ encodeLast literals) dst) (hlt : m < ip)
    (hip : ip + lz4MfLimit ≤ src.length) (hop : (out ++ encodeLast literals).length + 2 ≤ cap)
    (hroom : limitedOutput = false → ∀ c, ip + c + 9 ≤ src.length →
      (out ++ encodeLast literals).length + 8 + (c + 240) / 255 ≤ cap) :
    Ends (Lz4Limited limitedOutput)
      (fun r => ∃ c,
        Lz4Counted src (src.length - lz4LastLiterals) 1 (ip + lz4MinMatch) (m + lz4MinMatch) c ∧
        r.1 = ip + c + lz4MinMatch ∧ r.2.1 = (out ++ encode literals (ip - m) c).length ∧
        Lz4Holds cap (out ++ encode literals (ip - m) c) r.2.2 ∧ r.2.1 + 6 ≤ cap)
      (lz4EncodeMatch src limitedOutput ip m out.length (out ++ encodeLast literals).length
        dst) := by
  rw [lz4MfLimit] at hip
  have hoffset : (out ++ encodeLast literals).length +
      [UInt8.ofNat (ip - m), UInt8.ofNat ((ip - m) / 256)].length ≤ cap := hop
  rw [lz4EncodeMatch]
  refine (holds_lz4Write h rfl hoffset).ends_bind fun dst₁ hdst₁ => ?_
  refine (yields_lz4Count (by rw [lz4MinMatch]; omega) (Nat.sub_le _ _)
    (by rw [lz4MinMatch, lz4LastLiterals]; omega)).ends_bind fun c hc => ?_
  have hcle := hc.le
  rw [lz4LastLiterals, lz4MinMatch] at hcle
  rw [hdst₁.1]
  split
  case isTrue hfull => exact .error ⟨hfull.1, rfl⟩
  case isFalse hok =>
    have hcap : (out ++ encodeLast literals).length + 2 + (1 + lz4LastLiterals) +
        (c + 240) / 255 ≤ cap := le_of_not_full hok fun hfree => hroom hfree c (by omega)
    rw [lz4LastLiterals] at hcap
    have hbegun : out ++ encodeLast literals ++
        [UInt8.ofNat (ip - m), UInt8.ofNat ((ip - m) / 256)] =
        out ++ token literals.length 0 :: (runBytes literals.length ++ literals ++
          [UInt8.ofNat (ip - m), UInt8.ofNat ((ip - m) / 256)]) := by
      rw [encodeLast, List.append_assoc, List.cons_append]
    have hlen := congrArg List.length hbegun
    rw [List.length_append] at hlen
    rw [hbegun] at hdst₁
    have hmatch := yields_lz4EncodeMatchLength (m := c) hdst₁ (by
      rw [← hlen]
      simp only [List.length_cons, List.length_nil]
      omega)
    rw [← encode_eq, ← hlen] at hmatch
    refine hmatch.ends_bind fun r hr => ?_
    obtain ⟨op, dst₂⟩ := r
    obtain ⟨hop', hdst₂⟩ := hr
    refine .ok ⟨c, hc, rfl, hop', hdst₂, ?_⟩
    have hbytes : 255 * (runBytes c).length ≤ c + 240 := length_runBytes_le
    dsimp only at hop' ⊢
    rw [hop', List.length_append, length_encode]
    rw [List.length_append] at hcap
    omega

theorem ends_lz4LastLiteralRun {anchor : Nat} (h : Lz4Holds cap out dst)
    (hanchor : anchor ≤ src.length)
    (hroom : limitedOutput = false →
      out.length + 1 + (src.length - anchor) + (src.length - anchor + 240) / 255 ≤ cap) :
    Ends (Lz4Limited limitedOutput)
      (fun r => r.1 = (out ++ encodeLast (src.drop anchor)).length ∧
        Lz4Holds cap (out ++ encodeLast (src.drop anchor)) r.2)
      (lz4LastLiteralRun src limitedOutput anchor out.length dst) := by
  have hdrop : (src.drop anchor).length = src.length - anchor := List.length_drop
  have hslice : slice src anchor (src.length - anchor) = src.drop anchor := by
    rw [slice, ← hdrop, List.take_length]
  have hbytes : 255 * (runBytes (src.length - anchor)).length ≤ src.length - anchor + 240 :=
    length_runBytes_le
  rw [lz4LastLiteralRun, h.1]
  dsimp only
  split
  case isTrue hfull => exact .error ⟨hfull.1, rfl⟩
  case isFalse hok =>
    have hcap : out.length + (src.length - anchor) + 1 +
        (src.length - anchor + 255 - lz4Mask) / 255 ≤ cap := by
      refine le_of_not_full hok fun hfree => ?_
      have hfit := hroom hfree
      rw [lz4Mask]
      omega
    rw [lz4Mask] at hcap
    have hlen : (out ++ token (src.length - anchor) 0 :: runBytes (src.length - anchor)).length =
        out.length + 1 + (runBytes (src.length - anchor)).length := length_begun
    have hout : out ++ token (src.length - anchor) 0 :: runBytes (src.length - anchor) ++
        src.drop anchor = out ++ encodeLast (src.drop anchor) := begun_append hdrop
    refine (yields_lz4EncodeRun h (by omega)).ends_bind fun r hr => ?_
    obtain ⟨op, dst₁⟩ := r
    obtain ⟨rfl, hdst₁⟩ := hr
    have hcopy := holds_lz4Memcpy_block (s := anchor) (n := src.length - anchor) hdst₁ rfl
      (by omega : _ ≤ src.length) (by omega)
    rw [hslice, hout] at hcopy
    refine hcopy.ends_bind fun dst₂ hdst₂ => .ok ⟨?_, hdst₂⟩
    have hsum := congrArg List.length hout
    rwa [List.length_append, hdrop] at hsum

end Sequences

end IsrTransfer
