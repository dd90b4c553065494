import IsrTransfer.Lz4.CompressRules

/-!
# The compressor's invariant

At every label the sequences written so far stand for the input up to `anchor`, and take not more
than 256 bytes for 255 of it (`Lz4Packed`).  At `_next_match` the literals of the next sequence are
written too, and a match is known (`Lz4Match`).

The run is a run of steps from label to label, each of which keeps this and shortens what is left of
the input.

## Steps

`Lz4Good` is the invariant, with a case for each label, and there is one lemma for the way from
each label to the next (`ends_findMatch`, `ends_nextMatch`, `ends_lastLiterals`).  The way to
`_next_match` takes no bytes of the input, and the way from there does; so what is left of the
input is counted twice, and one less at `_next_match` (`lz4Left`).

## Room

If the room is at least `LZ4_compressBound` of the length, no write is looked at, and there has to
be room for all of them.  This follows from the bound on the size of what has been written: an
input of `n` bytes and what it can become differ by `n / 255`, and by sixteen bytes for the ends.
If there is less room, a result of zero is possible, and the only other thing that can go wrong
(`Lz4Limited`).

## The block

In the end there is a block from which the plain decoder gets the input back
(`lz4CompressDefault_content`).  Nothing is said about how good the compression is, nor about which
matches are found.
-/

namespace IsrTransfer

open Buffer Outcome Block

/-- The sequences of `block` stand for the input up to `anchor`. -/
structure Lz4Packed (src block : List UInt8) (anchor : Nat) : Prop where
  stands : ∀ {room : Nat}, src.length ≤ room → Stands room block (src.take anchor)
  size : 255 * block.length ≤ 256 * anchor

inductive Lz4Good (src : List UInt8) (tableType : Lz4TableType) (cap : Nat) :
    Lz4Phase → Lz4State → Prop where
  | findMatch {ip h bound : Nat} {s : Lz4State} {block : List UInt8}
      (packed : Lz4Packed src block s.anchor) (dst : Lz4Holds cap block s.dst)
      (op : s.op = block.length) (table : Lz4Table tableType bound s.table) (bound_lt : bound < ip)
      (hash : h < 2 ^ lz4HashLog tableType) (anchor_lt : s.anchor < ip)
      (end_le : ip + 11 ≤ src.length) : Lz4Good src tableType cap (.findMatch ip h) s
  | nextMatch {ip m top : Nat} {s : Lz4State} {block : List UInt8}
      (packed : Lz4Packed src block s.anchor)
      (dst : Lz4Holds cap (block ++ encodeLast (slice src s.anchor (ip - s.anchor))) s.dst)
      (op : s.op = (block ++ encodeLast (slice src s.anchor (ip - s.anchor))).length)
      (anchor_le : s.anchor ≤ ip) (found : Lz4Match src tableType ip m top s.table)
      (room : s.op + 2 ≤ cap) : Lz4Good src tableType cap (.nextMatch ip m block.length) s
  | lastLiterals {s : Lz4State} {block : List UInt8} (packed : Lz4Packed src block s.anchor)
      (dst : Lz4Holds cap block s.dst) (op : s.op = block.length)
      (end_le : s.anchor + 5 ≤ src.length) : Lz4Good src tableType cap .lastLiterals s

/-- How many labels are still to come, at most. -/
def lz4Left (src : List UInt8) : Lz4Phase → Lz4State → Nat
  | .findMatch _ _, s => 2 * (src.length - s.anchor)
  | .nextMatch _ _ _, s => 2 * (src.length - s.anchor) - 1
  | .lastLiterals, _ => 0

/-- A block that decodes to the whole input is what there is in the end. -/
def Lz4Compressed (src : List UInt8) (cap : Nat) (r : Nat × List UInt8) : Prop :=
  ∃ block, r.1 = block.length ∧ Lz4Holds cap block r.2 ∧
    ∀ {room : Nat}, src.length ≤ room → decode room block [] = some src

section Compressor

variable {src block : List UInt8} {tableType : Lz4TableType} {cap : Nat} {limitedOutput : Bool}

namespace Lz4Good

variable {s : Lz4State} {ip : Nat}

theorem atSearch {h : Nat} (hgood : Lz4Good src tableType cap (.findMatch ip h) s) :
    ∃ block bound, Lz4Packed src block s.anchor ∧ Lz4Holds cap block s.dst ∧
      s.op = block.length ∧ Lz4Table tableType bound s.table ∧ bound < ip ∧
        h < 2 ^ lz4HashLog tableType ∧ s.anchor < ip ∧ ip + 11 ≤ src.length := by
  cases hgood with
  | findMatch packed dst op table bound_lt hash anchor_lt end_le =>
    exact ⟨_, _, packed, dst, op, table, bound_lt, hash, anchor_lt, end_le⟩

theorem atMatch {m t : Nat} (hgood : Lz4Good src tableType cap (.nextMatch ip m t) s) :
    ∃ block top, t = block.length ∧ Lz4Packed src block s.anchor ∧
      Lz4Holds cap (block ++ encodeLast (slice src s.anchor (ip - s.anchor))) s.dst ∧
        s.op = (block ++ encodeLast (slice src s.anchor (ip - s.anchor))).length ∧
          s.anchor ≤ ip ∧ Lz4Match src tableType ip m top s.table ∧ s.op + 2 ≤ cap := by
  cases hgood with
  | nextMatch packed dst op anchor_le found room =>
    exact ⟨_, _, rfl, packed, dst, op, anchor_le, found, room⟩

theorem atLast (hgood : Lz4Good src tableType cap .lastLiterals s) :
    ∃ block, Lz4Packed src block s.anchor ∧ Lz4Holds cap block s.dst ∧
      s.op = block.length ∧ s.anchor + 5 ≤ src.length := by
  cases hgood with
  | lastLiterals packed dst op end_le => exact ⟨_, packed, dst, op, end_le⟩

end Lz4Good

theorem lz4Left_le {phase : Lz4Phase} {s : Lz4State} :
    lz4Left src phase s ≤ 2 * (src.length - s.anchor) := by
  cases phase with
  | findMatch ip h => exact Nat.le_refl _
  | nextMatch ip m t => exact Nat.sub_le _ _
  | lastLiterals => exact Nat.zero_le _

theorem lz4Packed_nil : Lz4Packed src [] 0 :=
  ⟨fun _ => stands_nil, Nat.le_refl _⟩

theorem Lz4Packed.append {anchor ip m c : Nat} (h : Lz4Packed src block anchor)
    (hanchor : anchor ≤ ip) (hlt : m < ip) (hnear : ip ≤ m + lz4DistanceMax)
    (hrep : Repeats src ip m (c + 4)) (hip : ip + 12 ≤ src.length)
    (hend : ip + (c + 4) + 5 ≤ src.length) :
    Lz4Packed src (block ++ encode (slice src anchor (ip - anchor)) (ip - m) c) (ip + c + 4) where
  stands := by
    intro room hroom
    have hout : src.take anchor ++ slice src anchor (ip - anchor) = src.take ip := by
      rw [take_append_slice, Nat.add_sub_cancel' hanchor]
    have hlen : (src.take ip).length = ip := by
      rw [List.length_take]
      omega
    have hcopy : copyAt (src.take ip) (ip - m) (c + 4) = src.take (ip + (c + 4)) := by
      refine copyAt_take (by omega) (Nat.sub_le _ _) (by omega) fun k hk => ?_
      rw [hrep k hk]
      congr 1
      omega
    rw [lz4DistanceMax] at hnear
    have hlen' := hlen
    rw [← hout] at hlen'
    have hoffset : ip - m ≤ (src.take anchor ++ slice src anchor (ip - anchor)).length := by omega
    have hlast :
        (src.take anchor ++ slice src anchor (ip - anchor)).length + (c + 4) + 5 ≤ room := by
      omega
    have hseq := (h.stands hroom).append_encode hoffset (by omega) (by omega) hlast
    rwa [hout, hcopy, ← Nat.add_assoc] at hseq
  size := by
    have hslice : (slice src anchor (ip - anchor)).length = ip - anchor := length_slice (by omega)
    have hsize := h.size
    have hliterals : 255 * (runBytes (ip - anchor)).length ≤ ip - anchor + 240 := length_runBytes_le
    have hmatch : 255 * (runBytes c).length ≤ c + 240 := length_runBytes_le
    have hshort : c < 15 → (runBytes c).length = 0 := length_runBytes_of_lt
    rw [List.length_append, length_encode, length_encodeLast, hslice]
    omega

/-- From the top of the main loop to the next label. -/
theorem ends_findMatch {ip h : Nat} {s : Lz4State}
    (h64 : tableType = .byU16 → src.length < lz464KLimit)
    (hcap : limitedOutput = false → src.length + src.length / 255 + 16 ≤ cap)
    (hgood : Lz4Good src tableType cap (.findMatch ip h) s) :
    Ends (Lz4Limited limitedOutput)
      (fun r => Lz4Good src tableType cap r.1 r.2 ∧
        lz4Left src r.1 r.2 < lz4Left src (.findMatch ip h) s)
      (lz4CompressStep src tableType limitedOutput (.findMatch ip h) s) := by
  obtain ⟨block, bound, hpacked, hdst, hop, htable, hbound, hhash, hanchor, hend⟩ := hgood.atSearch
  have hsize := hpacked.size
  have hfind := yields_lz4FindMatch h64 htable hbound hhash (Nat.le_refl 1) (Nat.le_refl 64) hend
    (by omega : src.length ≤ ip + src.length)
  rw [lz4CompressStep]
  refine hfind.ends_bind fun o ho => ?_
  cases o with
  | none =>
    have hleft : s.anchor + 5 ≤ src.length := by omega
    refine .ok ⟨.lastLiterals hpacked hdst hop hleft, ?_⟩
    show 0 < 2 * (src.length - s.anchor)
    omega
  | some found =>
    obtain ⟨ip₁, m₁, table⟩ := found
    obtain ⟨hle, hend₁, hlt, hnear, hrep, htable₁⟩ := ho _ rfl
    dsimp only at hle hend₁ hlt hnear hrep htable₁ ⊢
    rw [lz4MfLimit] at hend₁
    refine (yields_lz4CatchUp (hanchor.trans_le hle) hlt (by omega) hrep).ends_bind fun r hr => ?_
    obtain ⟨ip₂, m₂⟩ := r
    obtain ⟨hanchor₂, hle₂, hlt₂, hdistance, hrep₂⟩ := hr
    dsimp only at hanchor₂ hle₂ hlt₂ hdistance hrep₂ ⊢
    rw [hop]
    refine (ends_lz4EncodeLiterals hdst hanchor₂ (by omega) fun hfree => ?_).bind fun r hr => ?_
    · have hroom := hcap hfree
      omega
    · obtain ⟨op, dst⟩ := r
      obtain ⟨hop', hdst', hroom⟩ := hr
      have hmatch : Lz4Match src tableType ip₂ m₂ ip₁ table :=
        ⟨hlt₂, by omega, hle₂, hend₁, hrep₂, htable₁⟩
      refine .ok ⟨.nextMatch (s := { s with op := op, dst := dst, table := table }) hpacked hdst'
        hop' hanchor₂ hmatch (by dsimp only at hroom ⊢; omega), ?_⟩
      show 2 * (src.length - s.anchor) - 1 < 2 * (src.length - s.anchor)
      omega

/-- After a match that ended at `ip`, which is where the next one is looked for first. -/
theorem ends_lz4TestNextPosition {top : Nat} {s : Lz4State}
    (h64 : tableType = .byU16 → src.length < lz464KLimit) (hpacked : Lz4Packed src block s.anchor)
    (hdst : Lz4Holds cap block s.dst) (hop : s.op = block.length)
    (htable : Lz4Table tableType top s.table) (htop : top + 4 ≤ s.anchor)
    (hend : s.anchor + 12 ≤ src.length) (hroom : s.op + 6 ≤ cap) :
    Ends (Lz4Limited limitedOutput)
      (fun r => Lz4Good src tableType cap r.1 r.2 ∧ r.2.anchor = s.anchor)
      (lz4TestNextPosition src tableType s.anchor s) := by
  rw [lz4TestNextPosition]
  refine (yields_lz4HashPosition (by omega)).ends_bind fun h₁ hh₁ => ?_
  refine (htable.put hh₁ (by omega : top ≤ s.anchor - 2)).ends_bind fun table₁ htable₁ => ?_
  refine (yields_lz4HashPosition (by omega)).ends_bind fun h₂ hh₂ => ?_
  refine (htable₁.get hh₂).ends_bind fun matchIndex hindex => ?_
  refine (htable₁.put hh₂ (Nat.sub_le s.anchor 2)).ends_bind fun table₂ htable₂ => ?_
  have hprepare : Ends (Lz4Limited limitedOutput)
      (fun r => Lz4Good src tableType cap r.1 r.2 ∧ r.2.anchor = s.anchor)
      (lz4PrepareNextLoop src tableType s.anchor { s with table := table₂ }) := by
    refine (yields_lz4HashPosition (by omega)).ends_bind fun h hh => .ok ⟨?_, rfl⟩
    exact .findMatch (s := { s with table := table₂ }) hpacked hdst hop htable₂
      (Nat.lt_succ_self _) hh (Nat.lt_succ_self _) (by omega)
  split
  case isFalse hfar => exact hprepare
  case isTrue hnear =>
    rw [lz4Load_ok (by omega), lz4Load_ok (by omega)]
    show Ends _ _ (if _ then _ else _)
    split
    case isFalse hne => exact hprepare
    case isTrue heq =>
      have hnone : encodeLast (slice src s.anchor (s.anchor - s.anchor)) = [0] := by
        rw [Nat.sub_self, slice_zero]
        rfl
      have hlen : s.op + 1 = (block ++ [(0 : UInt8)]).length := by
        rw [List.length_append, List.length_singleton, hop]
      have htoken : Yields (lz4Write s.dst s.op [0]) (Lz4Holds cap (block ++ [0])) :=
        holds_lz4Write hdst hop (by rw [List.length_singleton]; omega)
      have hdistance : s.anchor ≤ matchIndex + lz4DistanceMax := by
        rcases hnear with htype | hnear
        · have hsmall := h64 htype
          rw [lz464KLimit, lz4MfLimit] at hsmall
          rw [lz4DistanceMax]
          omega
        · exact hnear
      have hmatch : Lz4Match src tableType s.anchor matchIndex s.anchor table₂ := by
        refine ⟨by omega, hdistance, Nat.le_refl _, hend, ?_, htable₂⟩
        rw [Nat.sub_self]
        exact repeats_of_slice_eq heq
      refine htoken.ends_bind fun dst hdst' => .ok ⟨?_, rfl⟩
      rw [← hnone] at hdst' hlen
      rw [hop]
      rw [hop] at hlen
      exact .nextMatch (s := { s with op := block.length + 1, dst := dst, table := table₂ })
        hpacked hdst' hlen (Nat.le_refl _) hmatch (by dsimp only; omega)

/-- From `_next_match` to the next label. -/
theorem ends_nextMatch {ip m t : Nat} {s : Lz4State}
    (h64 : tableType = .byU16 → src.length < lz464KLimit)
    (hcap : limitedOutput = false → src.length + src.length / 255 + 16 ≤ cap)
    (hgood : Lz4Good src tableType cap (.nextMatch ip m t) s) :
    Ends (Lz4Limited limitedOutput)
      (fun r => Lz4Good src tableType cap r.1 r.2 ∧
        lz4Left src r.1 r.2 < lz4Left src (.nextMatch ip m t) s)
      (lz4CompressStep src tableType limitedOutput (.nextMatch ip m t) s) := by
  obtain ⟨block, top, rfl, hpacked, hdst, hop, hanchor, hmatch, hroom⟩ := hgood.atMatch
  have hend := hmatch.end_le
  have hle := hmatch.le
  have hsize := hpacked.size
  rw [lz4MfLimit] at hend
  have hslice : (slice src s.anchor (ip - s.anchor)).length = ip - s.anchor :=
    length_slice (by omega)
  have hliterals : 255 * (runBytes (ip - s.anchor)).length ≤ ip - s.anchor + 240 :=
    length_runBytes_le
  have hlen : s.op = block.length + (1 + (runBytes (ip - s.anchor)).length + (ip - s.anchor)) := by
    rw [hop, List.length_append, length_encodeLast, hslice]
  rw [hop] at hroom hlen
  rw [lz4CompressStep, hop]
  refine (ends_lz4EncodeMatch hdst hmatch.lt (by rw [lz4MfLimit]; omega) hroom
    fun hfree c hc => ?_).bind fun r hr => ?_
  · have hfit := hcap hfree
    omega
  obtain ⟨ip', op, dst⟩ := r
  obtain ⟨c, hc, hip', hop', hdst', hroom'⟩ := hr
  dsimp only at hip' hop' hdst' hroom'
  subst hip'
  have htop := hmatch.top_le hc
  have hcle := hc.le
  rw [lz4LastLiterals, lz4MinMatch] at hcle
  have hrep : Repeats src ip m (c + 4) := by
    rw [Nat.add_comm]
    exact (hmatch.repeats.mono (by omega)).append hc.repeats
  have hpacked' := hpacked.append hanchor hmatch.lt hmatch.near hrep (by omega) (by omega)
  have hleft : 2 * (src.length - (ip + c + 4)) < 2 * (src.length - s.anchor) - 1 := by omega
  show Ends _ _ (if _ then _ else _)
  split
  case isTrue hlast =>
    exact .ok ⟨.lastLiterals (s := { s with anchor := ip + c + 4, op := op, dst := dst }) hpacked'
      hdst' hop' (by dsimp only; omega), Nat.zero_lt_of_lt hleft⟩
  case isFalse hmore =>
    rw [lz4MfLimit, lz4MinMatch] at hmore
    have htest : Ends (Lz4Limited limitedOutput) _ _ := ends_lz4TestNextPosition
      (s := { s with anchor := ip + c + 4, op := op, dst := dst }) h64 hpacked' hdst' hop'
      hmatch.table (Nat.add_le_add_right htop 4) (by dsimp only; omega) hroom'
    refine htest.mono fun r hr => ⟨hr.1, lz4Left_le.trans_lt ?_⟩
    rw [hr.2]
    exact hleft

/-- From `_last_literals` to the end. -/
theorem ends_lastLiterals {s : Lz4State}
    (hcap : limitedOutput = false → src.length + src.length / 255 + 16 ≤ cap)
    (hgood : Lz4Good src tableType cap .lastLiterals s) :
    Ends (Lz4Limited limitedOutput) (Lz4Compressed src cap)
      (lz4LastLiteralRun src limitedOutput s.anchor s.op s.dst) := by
  obtain ⟨block, hpacked, hdst, hop, hend⟩ := hgood.atLast
  have hsize := hpacked.size
  rw [hop]
  refine (ends_lz4LastLiteralRun hdst (by omega) fun hfree => ?_).mono fun r hr => ?_
  · have hroom := hcap hfree
    omega
  · refine ⟨_, hr.1, hr.2, fun hroom => ?_⟩
    have hdrop : (src.drop s.anchor).length = src.length - s.anchor := List.length_drop
    rw [(hpacked.stands hroom).append_last (by omega), List.take_append_drop]
    rw [List.length_take]
    omega

theorem ends_lz4CompressLoop {fuel : Nat} {phase : Lz4Phase} {s : Lz4State}
    (h64 : tableType = .byU16 → src.length < lz464KLimit)
    (hcap : limitedOutput = false → src.length + src.length / 255 + 16 ≤ cap)
    (hgood : Lz4Good src tableType cap phase s) (hfuel : lz4Left src phase s ≤ fuel) :
    Ends (Lz4Limited limitedOutput) (Lz4Compressed src cap)
      (lz4CompressLoop src tableType limitedOutput fuel phase s) := by
  induction fuel generalizing phase s with
  | zero =>
    cases phase with
    | lastLiterals => exact ends_lastLiterals hcap hgood
    | findMatch ip h =>
      obtain ⟨block, bound, -, -, -, -, -, -, hanchor, hend⟩ := hgood.atSearch
      rw [lz4Left] at hfuel
      omega
    | nextMatch ip m t =>
      obtain ⟨block, top, -, -, -, -, hanchor, hmatch, -⟩ := hgood.atMatch
      have hend := hmatch.end_le
      have hle := hmatch.le
      rw [lz4MfLimit] at hend
      rw [lz4Left] at hfuel
      omega
  | succ fuel ih =>
    cases phase with
    | lastLiterals => exact ends_lastLiterals hcap hgood
    | findMatch ip h =>
      refine (ends_findMatch h64 hcap hgood).bind fun r hr => ih hr.1 ?_
      exact Nat.le_of_lt_succ (hr.2.trans_le hfuel)
    | nextMatch ip m t =>
      refine (ends_nextMatch h64 hcap hgood).bind fun r hr => ih hr.1 ?_
      exact Nat.le_of_lt_succ (hr.2.trans_le hfuel)

/-! ## The whole compressor -/

theorem ends_lz4CompressGenericValidated {dst : List UInt8}
    (h64 : tableType = .byU16 → src.length < lz464KLimit)
    (hcap : limitedOutput = false → src.length + src.length / 255 + 16 ≤ dst.length) :
    Ends (Lz4Limited limitedOutput) (Lz4Compressed src dst.length)
      (lz4CompressGenericValidated src tableType limitedOutput dst) := by
  have hnothing : Lz4Holds dst.length [] dst := ⟨rfl, List.nil_prefix⟩
  rw [lz4CompressGenericValidated]
  split
  case isTrue hshort =>
    refine (ends_lz4LastLiteralRun hnothing (Nat.zero_le _) fun hfree => ?_).mono fun r hr => ?_
    · have hroom := hcap hfree
      rw [List.length_nil]
      omega
    · rw [List.drop_zero, List.nil_append] at hr
      exact ⟨_, hr.1, hr.2, fun hroom => decode_encodeLast hroom⟩
  case isFalse hlong =>
    have hlen : 13 ≤ src.length := Nat.le_of_not_lt hlong
    refine (yields_lz4HashPosition (by omega)).ends_bind fun h₀ hh₀ => ?_
    refine (lz4Table_replicate.put hh₀ (Nat.le_refl 0)).ends_bind fun table htable => ?_
    refine (yields_lz4HashPosition (by omega)).ends_bind fun h₁ hh₁ => ?_
    have hgood : Lz4Good src tableType dst.length (.findMatch 1 h₁)
        { anchor := 0, op := 0, dst := dst, table := table } :=
      .findMatch lz4Packed_nil hnothing rfl htable Nat.one_pos hh₁ Nat.one_pos (by omega)
    exact ends_lz4CompressLoop h64 hcap hgood (Nat.le_refl _)

/-- A block for every input, or no room. -/
theorem ends_lz4CompressDefault (dst : List UInt8) (hmax : src.length ≤ lz4MaxInputSize) :
    Ends (Lz4Limited (decide (dst.length < lz4CompressBound src.length)))
      (fun r => ∃ block, r.1 = block.length ∧ Lz4Holds dst.length block r.2 ∧
        ∀ {room}, src.length ≤ room → content room block = some src)
      (lz4CompressDefault src dst) := by
  have hbound : lz4CompressBound src.length = src.length + src.length / 255 + 16 :=
    if_neg (Nat.not_lt_of_le hmax)
  have hcap : decide (dst.length < lz4CompressBound src.length) = false →
      src.length + src.length / 255 + 16 ≤ dst.length := fun hfree => by
    rw [← hbound]
    exact Nat.le_of_not_lt (of_decide_eq_false hfree)
  have h64 : (if src.length < lz464KLimit then Lz4TableType.byU16 else .byU32) = .byU16 →
      src.length < lz464KLimit := fun htype => by
    by_contra hlarge
    rw [if_neg hlarge] at htype
    cases htype
  rw [lz4CompressDefault, lz4CompressGeneric, if_neg (Nat.not_lt_of_le hmax)]
  split
  case isTrue hzero =>
    have hnil : src = [] := List.length_eq_zero_iff.mp hzero
    split
    case isTrue hfull => exact .error ⟨hfull.1, rfl⟩
    case isFalse hok =>
      have hroom : 0 + [(0 : UInt8)].length ≤ dst.length := by
        rw [List.length_singleton]
        by_cases hfree : decide (dst.length < lz4CompressBound src.length) = false
        · exact Nat.le_trans (by omega) (hcap hfree)
        · have hdst : dst.length ≠ 0 := fun hempty => hok ⟨by simpa using hfree, hempty⟩
          omega
      have hwrite : Yields (lz4Write dst 0 [0]) (Lz4Holds dst.length ([] ++ [0])) :=
        holds_lz4Write ⟨rfl, List.nil_prefix⟩ rfl hroom
      refine hwrite.ends_bind fun dst' hdst' => .ok ⟨[0], rfl, hdst', fun {room} _ => ?_⟩
      subst hnil
      rw [content, if_pos rfl]
      split
      · rfl
      · have hnone : ([] : List UInt8).length ≤ room := Nat.zero_le room
        exact decode_encodeLast hnone
  case isFalse hpos =>
    refine (ends_lz4CompressGenericValidated h64 hcap).mono fun r hr => ?_
    obtain ⟨block, hn, hdst, hdecode⟩ := hr
    refine ⟨block, hn, hdst, fun hroom => ?_⟩
    rw [content, if_neg (by omega)]
    exact hdecode hroom

end Compressor

/-- **The compressor's blocks stand for its input.**  Whatever the input and whatever the output
memory holds before: no access is undefined and the loops end.  Unless the room is less than
`LZ4_compressBound` there is a block, and whenever there is one, the plain decoder gets the input
back from it, into any room that can hold it. -/
theorem lz4CompressDefault_content {src : List UInt8} (dst : List UInt8)
    (hmax : src.length ≤ lz4MaxInputSize) :
    (lz4CompressDefault src dst = .error .noRoom ∧ dst.length < lz4CompressBound src.length) ∨
    ∃ block rest, (block ++ rest).length = dst.length ∧
      lz4CompressDefault src dst = .ok (block.length, block ++ rest) ∧
      ∀ room, src.length ≤ room → content room block = some src := by
  have hends := ends_lz4CompressDefault dst hmax
  generalize lz4CompressDefault src dst = r at hends ⊢
  cases hends with
  | error he => exact Or.inl ⟨congrArg Except.error he.2, of_decide_eq_true he.1⟩
  | ok h =>
    obtain ⟨block, hn, ⟨hlen, rest, hrest⟩, hcontent⟩ := h
    exact Or.inr ⟨block, rest, hrest ▸ hlen, congrArg Except.ok (Prod.ext hn hrest.symm),
      fun room hroom => hcontent hroom⟩

/-- Twenty bytes always fit 36. -/
theorem lz4CompressDefault_twenty :
    ∃ block rest, (block ++ rest).length = 36 ∧
      lz4CompressDefault (List.replicate 20 97) (List.replicate 36 7) =
        .ok (block.length, block ++ rest) ∧
      ∀ room, 20 ≤ room → content room block = some (List.replicate 20 97) := by
  have hmax : (List.replicate 20 (97 : UInt8)).length ≤ lz4MaxInputSize := by decide
  rcases lz4CompressDefault_content (List.replicate 36 7) hmax with ⟨_, hsmall⟩ | hblock
  · exact absurd hsmall (by decide)
  · exact hblock

end IsrTransfer
