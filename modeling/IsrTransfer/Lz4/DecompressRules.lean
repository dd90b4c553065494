import IsrTransfer.Lz4.Block
import IsrTransfer.Lz4.MatchRules
import Mathlib.Data.List.Infix

/-!
# The decoder against the plain one

The decoder is compared with that of `Block`, which works on lists.  Both go from sequence to
sequence; so it is enough to show of one sequence that the two fail together, or go on with the same
rest of the block and the same output (`Lz4Rel`, `refines_lz4SafeSequence`,
`refines_lz4FastSequence`), and the loops are one induction (`refines_lz4DecodeSequences`).

## Reading

`Lz4At` says where the decoder stands: `ip` is the position, and `rest` what is left of the block up
to the length that it is said to have.  The memory may be longer, and reads of bytes that do not
count may go into it, but never beyond its end.  A length is read byte by byte, and before each byte
the decoder looks at how far it is from the end (`refines_readVariableLength`).

## Writing

What the decoder has written is what its output begins with (`Lz4Holds`).  Behind that it may have
written anything, as far as its copies run over.  The fast loop runs over by more than the safe one,
and leaves when the end of the output is near.

## Fast and safe

The two loops, the shortcut and the jumps between them are ways to do the same thing, each with its
own tests of how near the ends are.  A test that fails leads to another way, and only the last of
them says what is corrupt.  So each way is compared with the same step of the plain decoder, under
the conditions in which it is taken.  In one place the ways differ: the last match of a block has to
end five bytes before the output does, and the ways for short lengths do not insist on it.  They are
taken well before the end, and the plain decoder has a flag for them (`matchCopy_lenient`).
-/

namespace IsrTransfer

open Buffer Outcome Block

/-- `rest` is what is left of the block, whose first `srcSize` bytes are in `src`. -/
structure Lz4At (src : List UInt8) (srcSize ip : Nat) (rest : List UInt8) : Prop where
  left : rest <+: src.drop ip
  length : ip + rest.length = srcSize

/-- What the decoder goes on with is what the plain one goes on with. -/
inductive Lz4Rel (src : List UInt8) (srcSize cap : Nat) : Lz4Next → Step → Prop where
  | fast {ip : Nat} {dst rest out : List UInt8} (hat : Lz4At src srcSize ip rest) (hne : rest ≠ [])
      (hdst : Lz4Holds cap out dst) (hcap : out.length + 64 ≤ cap) :
      Lz4Rel src srcSize cap (.fast ip out.length dst) (.next rest out)
  | safe {ip : Nat} {dst rest out : List UInt8} (hat : Lz4At src srcSize ip rest) (hne : rest ≠ [])
      (hdst : Lz4Holds cap out dst) :
      Lz4Rel src srcSize cap (.safe ip out.length dst) (.next rest out)
  | done {dst out : List UInt8} (hdst : Lz4Holds cap out dst) :
      Lz4Rel src srcSize cap (.done out.length dst) (.done out)

section Rules

variable {src rest out dst : List UInt8} {srcSize cap ip : Nat}

namespace Lz4At

theorem read {b : UInt8} (h : Lz4At src srcSize ip (b :: rest)) : lz4Read src ip = .ok b := by
  have hget := List.prefix_iff_getElem?.mp h.left 0 (Nat.zero_lt_succ _)
  rw [List.getElem?_drop, Nat.add_zero] at hget
  rw [lz4Read, hget]
  rfl

theorem drop (h : Lz4At src srcSize ip rest) {n : Nat} (hn : n ≤ rest.length) :
    Lz4At src srcSize (ip + n) (rest.drop n) where
  left := by
    rw [← List.drop_drop]
    exact h.left.drop n
  length := by
    have hlen := h.length
    rw [List.length_drop]
    omega

theorem tail {b : UInt8} (h : Lz4At src srcSize ip (b :: rest)) : Lz4At src srcSize (ip + 1) rest :=
  h.drop (n := 1) (Nat.le_add_left 1 rest.length)

theorem slice_eq (h : Lz4At src srcSize ip rest) {n : Nat} (hn : n ≤ rest.length) :
    slice src ip n = rest.take n :=
  (h.left.take n).eq_of_length (by
    have hle := h.left.length_le
    rw [List.length_take, Nat.min_eq_left hn, List.length_take,
      Nat.min_eq_left (hn.trans hle)]) |>.symm

theorem le_length (h : Lz4At src srcSize ip rest) (hne : rest ≠ []) : srcSize ≤ src.length := by
  have hle := h.left.length_le
  have hlen := h.length
  have hpos := List.length_pos_iff.mpr hne
  rw [List.length_drop] at hle
  omega

end Lz4At

/-- A match has been copied, and the safe loop goes on. -/
theorem refines_safe_match {r : Lz4Run (List UInt8)} {offset n : Nat}
    (hat : Lz4At src srcSize ip rest) (hne : rest ≠ [])
    (hr : Yields r (Lz4Holds cap (copyAt out offset n))) :
    Refines .corrupt (Lz4Rel src srcSize cap)
      (r >>= fun dst => pure (.safe ip (out.length + n) dst))
      (some (.next rest (copyAt out offset n))) := by
  refine hr.refines_bind fun dst hdst => .yields ?_
  have hsafe := Lz4Rel.safe hat hne hdst
  rwa [length_copyAt] at hsafe

/-- A match has been copied, and the fast loop goes on. -/
theorem refines_fast_match {r : Lz4Run (List UInt8)} {offset n : Nat}
    (hat : Lz4At src srcSize ip rest) (hne : rest ≠ [])
    (hr : Yields r (Lz4Holds cap (copyAt out offset n))) (hcap : out.length + n + 64 ≤ cap) :
    Refines .corrupt (Lz4Rel src srcSize cap)
      (r >>= fun dst => pure (.fast ip (out.length + n) dst))
      (some (.next rest (copyAt out offset n))) := by
  refine hr.refines_bind fun dst hdst => .yields ?_
  have hfast := Lz4Rel.fast hat hne hdst (by rwa [length_copyAt])
  rwa [length_copyAt] at hfast

theorem refines_lz4EndMatch {offset n s : Nat} (hat : Lz4At src srcSize ip rest)
    (hne : rest ≠ []) (h : Lz4Holds cap (copyTo out offset (out.length + 8)) dst)
    (hfeeds : Feeds cap 8 cap .output (copyTo out offset) (out.length + 8) s)
    (hle : offset ≤ out.length) :
    Refines .corrupt (Lz4Rel src srcSize cap) (lz4EndMatch ip out.length (n + 4) dst s)
      (matchCopy cap false offset n rest out) := by
  -- whatever is copied, the next sequence begins behind the match
  have hnext : ∀ {r : Lz4Run (List UInt8)} {e : Nat}, out.length + (n + 4) ≤ e →
      Yields r (Lz4Holds cap (copyTo out offset e)) →
      Refines .corrupt (Lz4Rel src srcSize cap)
        (r >>= fun dst => pure (.safe ip (out.length + (n + 4)) dst))
        (some (.next rest (copyAt out offset (n + 4)))) := by
    intro r e he hr
    refine refines_safe_match hat hne (hr.mono fun dst' hdst' => ?_)
    rw [← copyTo_add]
    exact hdst'.mono (prefix_copyTo he)
  rw [lz4EndMatch]
  have hcap8 : out.length + 8 ≤ cap := by
    have hholds := h.length_le
    rwa [length_copyTo (Nat.le_add_right _ _)] at hholds
  rw [h.1]
  split
  case isTrue hnear =>
    split
    case isTrue hpast =>
      rw [matchCopy_of_lt hpast]
      exact .fails
    case isFalse hpast =>
      have hend : out.length + (n + 4) + 5 ≤ cap := Nat.le_of_not_lt hpast
      rw [matchCopy_of_le hle fun _ => hend]
      split
      case isTrue hlimit =>
        have hwild := hfeeds.wildCopy8 prefix_copyTo (Nat.le_refl 8) h (e := cap - 7) (by omega)
          (by omega) (Nat.zero_lt_of_lt hlimit) (by omega)
        have hrest := hfeeds.add (cap - 7 - (out.length + 8))
        rw [Nat.add_sub_cancel' (by omega)] at hrest
        refine hwild.refines_bind fun dst' hdst' => ?_
        refine hnext ?_ (hrest.copyBytes (by decide) hdst' (by omega) (by omega))
        omega
      case isFalse hlimit =>
        refine hnext ?_ (hfeeds.copyBytes (by decide) h (by omega) (by omega))
        omega
  case isFalse hfar =>
    have hend : out.length + (n + 4) + 12 ≤ cap := Nat.le_of_not_lt hfar
    rw [matchCopy_of_le hle fun _ => by omega]
    refine (hfeeds.memcpy (Nat.le_refl 8) (by omega) h).refines_bind fun dst' hdst' => ?_
    split
    case isTrue hlong =>
      exact hnext (Nat.le_refl _) ((hfeeds.add 8).wildCopy8 prefix_copyTo (Nat.le_refl 8) hdst'
        (by omega) (by omega) (by omega) (by omega))
    case isFalse hshort =>
      exact hnext (by omega) (.pure hdst')

theorem refines_lz4SafeMatchCopy {offset n : Nat} (hat : Lz4At src srcSize ip rest)
    (hne : rest ≠ []) (h : Lz4Holds cap out dst) (hcap : out.length + 12 ≤ cap) :
    Refines .corrupt (Lz4Rel src srcSize cap) (lz4SafeMatchCopy ip out.length offset (n + 4) dst)
      (matchCopy cap false offset n rest out) := by
  rw [lz4SafeMatchCopy]
  split
  case isTrue hlt =>
    rw [matchCopy_of_offset hlt]
    exact .fails
  case isFalse hlt =>
    have hle := Nat.le_of_not_lt hlt
    refine (holds_lz4BeginMatch h hle (by omega)).refines_bind fun r hr => ?_
    exact refines_lz4EndMatch hat hne hr.1 hr.2 hle

/-! ## Lengths -/

theorem refines_readVariableLengthLoop {spare fuel : Nat} (length : Nat) (hspare : 0 < spare)
    (hat : Lz4At src srcSize ip rest) (hne : rest ≠ []) (hfuel : rest.length ≤ fuel) :
    Refines .corrupt
      (fun r more => r.1 = length + more.1 ∧ Lz4At src srcSize r.2 more.2 ∧ spare ≤ more.2.length)
      (readVariableLengthLoop src ((srcSize : Int) - spare) fuel ip length)
      (moreLength spare rest) := by
  induction fuel generalizing ip rest length with
  | zero => exact absurd (List.length_eq_zero_iff.mp (Nat.le_zero.mp hfuel)) hne
  | succ fuel ih =>
    obtain ⟨b, rest, rfl⟩ := List.exists_cons_of_ne_nil hne
    have hlen := hat.tail.length
    rw [readVariableLengthLoop, hat.read, moreLength]
    show Refines _ _ (if _ then _ else _) _
    split
    case isTrue hlimit =>
      rw [if_pos (by omega)]
      exact .fails
    case isFalse hlimit =>
      have hleft : spare ≤ rest.length := by omega
      rw [if_neg (Nat.not_lt_of_le hleft)]
      split
      case isTrue hmax =>
        have hrest : rest ≠ [] := List.ne_nil_of_length_pos (hspare.trans_le hleft)
        have hbytes := ih (length + b.toNat) hat.tail hrest (Nat.le_of_succ_le_succ hfuel)
        refine hbytes.map fun r more hr => ?_
        exact ⟨hr.1.trans (Nat.add_assoc _ _ _), hr.2⟩
      case isFalse hmax => exact .yields ⟨rfl, hat.tail, hleft⟩

theorem refines_readVariableLength (spare : Nat) {initialCheck : Bool} (hspare : 0 < spare)
    (hat : Lz4At src srcSize ip rest) (hne : initialCheck = false → rest ≠ []) :
    Refines .corrupt
      (fun r more => r.1 = more.1 ∧ Lz4At src srcSize r.2 more.2 ∧ spare ≤ more.2.length)
      (readVariableLength src ip ((srcSize : Int) - spare) initialCheck)
      (moreLength spare rest) := by
  have hlen := hat.length
  rw [readVariableLength]
  split
  case isTrue hinit =>
    rw [moreLength_of_length_le (by omega)]
    exact .fails
  case isFalse hinit =>
    have hne' : rest ≠ [] := by
      rintro rfl
      cases initialCheck with
      | false => exact hne rfl rfl
      | true =>
        rw [List.length_nil] at hlen
        exact hinit ⟨rfl, by omega⟩
    have hfuel : rest.length ≤ src.length := by
      have hle := hat.left.length_le
      rw [List.length_drop] at hle
      omega
    refine (refines_readVariableLengthLoop 0 hspare hat hne' hfuel).mono
      fun r more hr => ?_
    exact ⟨hr.1.trans (Nat.zero_add _), hr.2⟩

/-! ## Matches -/

theorem refines_lz4CopyMatch {n : Nat} (offset : Nat) (hat : Lz4At src srcSize ip rest)
    (hne : rest ≠ []) (h : Lz4Holds cap out dst) (hcap : out.length + 12 ≤ cap) :
    Refines .corrupt (Lz4Rel src srcSize cap) (lz4CopyMatch src srcSize ip out.length offset n dst)
      ((runLength 4 n rest).bind fun run => matchCopy cap false offset run.1 run.2 out) := by
  rw [lz4CopyMatch, runLength, lz4Mask]
  split
  case isTrue hn =>
    rw [Option.bind_map]
    refine (refines_readVariableLength 4 (by decide) hat fun _ => hne).bind fun r more hr => ?_
    obtain ⟨addl, ip'⟩ := r
    obtain ⟨rfl, hat', hspare⟩ := hr
    have hne' : more.2 ≠ [] := List.ne_nil_of_length_pos (Nat.zero_lt_of_lt hspare)
    exact refines_lz4SafeMatchCopy hat' hne' h hcap
  case isFalse hn => exact refines_lz4SafeMatchCopy hat hne h hcap

/-- A match in the fast loop, far before the end of the output. -/
theorem refines_lz4FastMatchCopy {offset n : Nat} {lenient : Bool} (hat : Lz4At src srcSize ip rest)
    (hne : rest ≠ []) (h : Lz4Holds cap out dst) (hcap : out.length + (n + 4) + 64 < cap) :
    Refines .corrupt (Lz4Rel src srcSize cap) (lz4FastMatchCopy ip out.length offset (n + 4) dst)
      (matchCopy cap lenient offset n rest out) := by
  rw [lz4FastMatchCopy]
  split
  case isTrue hlt =>
    rw [matchCopy_of_offset hlt]
    exact .fails
  case isFalse hlt =>
    have hle := Nat.le_of_not_lt hlt
    have hnext : ∀ {r : Lz4Run (List UInt8)},
        Yields r (Lz4Holds cap (copyTo out offset (out.length + (n + 4)))) →
        Refines .corrupt (Lz4Rel src srcSize cap)
          (r >>= fun dst => pure (.fast ip (out.length + (n + 4)) dst))
          (some (.next rest (copyAt out offset (n + 4)))) := by
      intro r hr
      rw [copyTo_add] at hr
      exact refines_fast_match hat hne hr hcap.le
    rw [matchCopy_of_le hle fun _ => by omega]
    dsimp only
    split
    case isTrue h16 =>
      exact hnext (holds_lz4MemcpyUsingOffset h hle (by omega) (by omega) (by omega))
    case isFalse h16 =>
      have hbegin : Lz4Holds cap (copyTo out offset out.length) dst := by rwa [copyTo_length]
      have hfeeds : Feeds cap 16 cap .output (copyTo out offset) out.length
          (out.length - offset) := feeds_far (by omega) (by omega) hle
      exact hnext (hfeeds.wildCopy32 prefix_copyTo (Nat.le_refl 16) hbegin (by omega) (by omega)
        (by omega) (by omega))

theorem Lz4At.readLE16 {low high : UInt8} (hat : Lz4At src srcSize ip (low :: high :: rest)) :
    lz4ReadLE16 src ip = .ok (low.toNat + 256 * high.toNat) := by
  rw [lz4ReadLE16, hat.read, hat.tail.read]
  rfl

/-- Two bytes stand where there is an offset. -/
theorem exists_offset (h : 2 < rest.length) :
    ∃ low high rest', rest = low :: high :: rest' ∧ rest' ≠ [] := by
  obtain ⟨low, rest₁, rfl⟩ := List.exists_cons_of_length_pos (Nat.zero_lt_of_lt h)
  obtain ⟨high, rest₂, rfl⟩ := List.exists_cons_of_length_pos (l := rest₁) (by
    rw [List.length_cons] at h
    omega)
  refine ⟨low, high, rest₂, rfl, List.ne_nil_of_length_pos ?_⟩
  rw [List.length_cons, List.length_cons] at h
  omega

/-- A short match is copied in one go, by eighteen bytes. -/
theorem holds_shortMatch {offset n : Nat} (h : Lz4Holds cap out dst) (h8 : 8 ≤ offset)
    (hle : offset ≤ out.length) (hn : n < 15) (hcap : out.length + 18 ≤ cap) :
    Yields (lz4ShortMatch dst out.length (out.length - offset))
      (Lz4Holds cap (copyAt out offset (n + 4))) := by
  refine (holds_lz4ShortMatch h h8 hle hcap).mono fun dst' hdst' => ?_
  rw [← copyTo_add]
  exact hdst'.mono (prefix_copyTo (by omega))

theorem refines_lz4FastMatch {token : Nat} {short : Bool} (hat : Lz4At src srcSize ip rest)
    (hleft : 2 < rest.length) (h : Lz4Holds cap out dst) (hcap : out.length + 32 ≤ cap) :
    Refines .corrupt (Lz4Rel src srcSize cap) (lz4FastMatch src srcSize token ip out.length dst)
      (matchStep cap short (token % 16) rest out) := by
  obtain ⟨low, high, rest, rfl, hne⟩ := exists_offset hleft
  have hat' : Lz4At src srcSize (ip + 2) rest := hat.tail.tail
  have hcap' : out.length + 12 ≤ cap := by omega
  rw [lz4FastMatch, hat.readLE16, matchStep, runLength, lz4Mask]
  show Refines _ _ (if _ then _ else _) _
  split
  case isTrue hn =>
    rw [Option.bind_map]
    refine (refines_readVariableLength 4 (by decide) hat' fun _ => hne).bind fun r more hr => ?_
    obtain ⟨addl, ip'⟩ := r
    obtain ⟨rfl, hat'', hspare⟩ := hr
    have hne' : more.2 ≠ [] := List.ne_nil_of_length_pos (Nat.zero_lt_of_lt hspare)
    rw [show (short && token % 16 != 15 && 8 ≤ low.toNat + 256 * high.toNat) = false by
      simp [hn]]
    show Refines _ _ (if _ then _ else _) _
    split
    case isTrue hnear => exact refines_lz4SafeMatchCopy hat'' hne' h hcap'
    case isFalse hfar =>
      refine refines_lz4FastMatchCopy hat'' hne' h ?_
      rw [← h.1]
      exact Nat.lt_of_not_le hfar
  case isFalse hn =>
    have hn15 : token % 16 < 15 := by omega
    have hlenient : ∀ lenient, matchCopy cap lenient (low.toNat + 256 * high.toNat) (token % 16)
        rest out = matchCopy cap false (low.toNat + 256 * high.toNat) (token % 16) rest out :=
      fun lenient => matchCopy_lenient fun _ _ => by omega
    show Refines _ _ (if _ then _ else _) (matchCopy _ _ _ _ _ _)
    rw [hlenient]
    split
    case isTrue hnear => exact refines_lz4SafeMatchCopy hat' hne h hcap'
    case isFalse hfar =>
      have hend : out.length + (token % 16 + 4) + 64 < cap := by
        rw [← h.1]
        exact Nat.lt_of_not_le hfar
      split
      case isTrue hshort =>
        rw [matchCopy_of_le hshort.1 fun _ => by omega]
        have hcopy := holds_shortMatch h hshort.2 hshort.1 hn15 (by omega)
        exact refines_fast_match hat' hne hcopy hend.le
      case isFalse hlong => exact refines_lz4FastMatchCopy hat' hne h hend

/-! ## Literals -/

/-- A match in the safe loop. -/
theorem refines_offset_lz4CopyMatch {n : Nat} (hat : Lz4At src srcSize ip rest)
    (hleft : 2 < rest.length) (h : Lz4Holds cap out dst) (hcap : out.length + 12 ≤ cap) :
    Refines .corrupt (Lz4Rel src srcSize cap)
      (lz4ReadLE16 src ip >>= fun offset =>
        lz4CopyMatch src srcSize (ip + 2) out.length offset n dst)
      (matchStep cap false n rest out) := by
  obtain ⟨low, high, rest, rfl, hne⟩ := exists_offset hleft
  rw [hat.readLE16]
  exact refines_lz4CopyMatch _ hat.tail.tail hne h hcap

/-- Literals are copied, however it is done, and the match that follows them is to be decoded. -/
theorem refines_literals {r : Lz4Run (List UInt8)} {f : List UInt8 → Lz4Run Lz4Next}
    {n length : Nat} {short : Bool} (hat : Lz4At src srcSize ip rest)
    (hleft : length + 2 < rest.length)
    (hlast : short = false → out.length + length + 12 ≤ cap ∧ length + 8 ≤ rest.length)
    (hr : Yields r (Lz4Holds cap (out ++ slice src ip length)))
    (hnext : ∀ {out' dst' : List UInt8}, Lz4At src srcSize (ip + length) (rest.drop length) →
      2 < (rest.drop length).length → out'.length = out.length + length →
      Lz4Holds cap out' dst' →
      Refines .corrupt (Lz4Rel src srcSize cap) (f dst')
        (matchStep cap short n (rest.drop length) out')) :
    Refines .corrupt (Lz4Rel src srcSize cap) (r >>= f)
      (literalStep cap short n length rest out) := by
  rw [hat.slice_eq (by omega)] at hr
  rw [literalStep_of_le hlast]
  refine hr.refines_bind fun dst' hdst' => hnext (hat.drop (by omega)) ?_ ?_ hdst'
  · rw [List.length_drop]
    omega
  · rw [List.length_append, List.length_take, Nat.min_eq_left (by omega)]

theorem refines_lz4SafeLiteralCopy {token length : Nat} (hat : Lz4At src srcSize ip rest)
    (hle : srcSize ≤ src.length) (h : Lz4Holds cap out dst) :
    Refines .corrupt (Lz4Rel src srcSize cap)
      (lz4SafeLiteralCopy src srcSize token length ip out.length dst)
      (literalStep cap false (token % 16) length rest out) := by
  have hlen := hat.length
  rw [lz4SafeLiteralCopy, h.1, lz4MfLimit]
  split
  case isTrue hlast =>
    split
    case isTrue hcorrupt =>
      rw [literalStep_corrupt (by omega) (by omega)]
      exact .fails
    case isFalse hok =>
      have hrest : rest.length = length := by omega
      subst hrest
      rw [literalStep_last (by omega)]
      have hcopy := holds_lz4Memcpy_block (s := ip) (n := rest.length) h rfl
        (hlen.trans_le hle) (by omega)
      rw [hat.slice_eq (Nat.le_refl _), List.take_length] at hcopy
      refine hcopy.refines_bind fun dst' hdst' => .yields ?_
      rw [← List.length_append]
      exact .done hdst'
  case isFalse hlast =>
    have hleft : length + 8 ≤ rest.length := by omega
    have hcopy := holds_wildCopy8_literals (s := ip) (n := length) h
      (by omega : ip + length + 8 ≤ src.length) (by omega) (by omega)
    refine refines_literals hat (by omega) (fun _ => by omega) hcopy
      fun hat' hleft' hout hdst' => ?_
    rw [← hout]
    exact refines_offset_lz4CopyMatch hat' hleft' hdst' (by omega)

/-! ## Sequences

The lemmas have the shape of the program: one for each label, and each says that what follows
the label is the rest of the plain step.  The shortcut and the fast loop write more than they
have to, and need room for it, which is the hypothesis on `cap` that the safe loop does without. -/

theorem refines_lz4ShortcutMatch {token : Nat} (hat : Lz4At src srcSize ip rest)
    (hleft : 2 < rest.length) (h : Lz4Holds cap out dst) (hcap : out.length + 18 ≤ cap) :
    Refines .corrupt (Lz4Rel src srcSize cap) (lz4ShortcutMatch src srcSize token ip out.length dst)
      (matchStep cap true (token % 16) rest out) := by
  obtain ⟨low, high, rest, rfl, hne⟩ := exists_offset hleft
  have hat' : Lz4At src srcSize (ip + 2) rest := hat.tail.tail
  rw [lz4ShortcutMatch, hat.readLE16, matchStep]
  show Refines _ _ (if _ then _ else _) _
  split
  case isTrue hshort =>
    obtain ⟨hn, h8, hle⟩ := hshort
    have hn15 : token % 16 < 15 :=
      Nat.lt_of_le_of_ne (Nat.le_of_lt_succ (Nat.mod_lt _ (by decide))) hn
    rw [runLength_of_ne hn, Option.bind_some, matchCopy_of_le hle fun hstrict => ?_]
    · exact refines_safe_match hat' hne (holds_shortMatch h h8 hle hn15 hcap)
    · simp [h8, hn15.ne] at hstrict
  case isFalse hlong =>
    have hmatch := refines_lz4CopyMatch (n := token % 16) (low.toNat + 256 * high.toNat)
      hat' hne h (by omega)
    have heq : (runLength 4 (token % 16) rest).bind (fun run => matchCopy cap
        (true && token % 16 != 15 && 8 ≤ low.toNat + 256 * high.toNat)
        (low.toNat + 256 * high.toNat) run.1 run.2 out) =
        (runLength 4 (token % 16) rest).bind (fun run => matchCopy cap false
          (low.toNat + 256 * high.toNat) run.1 run.2 out) := by
      congr 1
      ext1 run
      refine matchCopy_lenient fun hlenient hle => absurd ⟨?_, ?_, hle⟩ hlong
      · rintro hn
        simp [hn, lz4Mask] at hlenient
      · simp at hlenient
        exact hlenient.2
    rw [heq]
    exact hmatch

theorem refines_lz4Shortcut {token : Nat} (hat : Lz4At src srcSize ip rest)
    (hleft : 17 ≤ rest.length) (hn : token / 16 < 15) (hle : srcSize ≤ src.length)
    (h : Lz4Holds cap out dst) (hcap : out.length + 32 ≤ cap) :
    Refines .corrupt (Lz4Rel src srcSize cap) (lz4Shortcut src srcSize token ip out.length dst)
      (literalStep cap true (token % 16) (token / 16) rest out) := by
  have hlen := hat.length
  have hcopy := holds_memcpy_literals (s := ip) (n := token / 16) h (by omega)
    (by omega : ip + 16 ≤ src.length) (by omega)
  refine refines_literals hat (by omega) (fun hlast => Bool.noConfusion hlast) hcopy
    fun hat' hleft' hout hdst' => ?_
  rw [← hout]
  exact refines_lz4ShortcutMatch hat' hleft' hdst' (by omega)

theorem refines_lz4SafeSequence (hat : Lz4At src srcSize ip rest) (hne : rest ≠ [])
    (hle : srcSize ≤ src.length) (h : Lz4Holds cap out dst) :
    Refines .corrupt (Lz4Rel src srcSize cap) (lz4SafeSequence src srcSize ip out.length dst)
      (sequenceStep cap rest out) := by
  obtain ⟨token, rest, rfl⟩ := List.exists_cons_of_ne_nil hne
  have hlen := hat.tail.length
  have htoken := token.toNat_lt
  rw [lz4SafeSequence, hat.read, sequenceStep, runLength, lz4Mask, h.1]
  show Refines _ _ (if _ then _ else _) _
  split
  case isTrue hshort =>
    have hcond : (token.toNat / 16 != 15 && 17 ≤ rest.length && out.length + 32 ≤ cap) = true := by
      simp
      omega
    rw [if_neg hshort.1, hcond]
    show Refines _ _ _ (literalStep cap true _ _ rest out)
    exact refines_lz4Shortcut hat.tail (by omega) (by omega) hle h hshort.2.2
  case isFalse hnot =>
    have hcond : (token.toNat / 16 != 15 && 17 ≤ rest.length && out.length + 32 ≤ cap) = false := by
      simp
      omega
    rw [hcond]
    split
    case isTrue hmax =>
      rw [Option.bind_map]
      refine (refines_readVariableLength 15 (by decide) hat.tail
        fun hinit => absurd hinit (by decide)).bind fun r more hr => ?_
      obtain ⟨addl, ip'⟩ := r
      obtain ⟨rfl, hat', hspare⟩ := hr
      exact refines_lz4SafeLiteralCopy hat' hle h
    case isFalse hmax => exact refines_lz4SafeLiteralCopy hat.tail hle h

theorem refines_lz4FastSequence (hat : Lz4At src srcSize ip rest) (hne : rest ≠ [])
    (hle : srcSize ≤ src.length) (h : Lz4Holds cap out dst) (hcap : out.length + 64 ≤ cap) :
    Refines .corrupt (Lz4Rel src srcSize cap) (lz4FastSequence src srcSize ip out.length dst)
      (sequenceStep cap rest out) := by
  obtain ⟨token, rest, rfl⟩ := List.exists_cons_of_ne_nil hne
  have hlen := hat.tail.length
  have htoken := token.toNat_lt
  rw [lz4FastSequence, hat.read, sequenceStep, runLength, lz4Mask]
  show Refines _ _ (if _ then _ else _) _
  split
  case isTrue hmax =>
    have hcond : (token.toNat / 16 != 15 && 17 ≤ rest.length && out.length + 32 ≤ cap) = false := by
      simp [hmax]
    rw [hcond, Option.bind_map]
    refine (refines_readVariableLength 15 (by decide) hat.tail
      fun hinit => absurd hinit (by decide)).bind fun r more hr => ?_
    obtain ⟨addl, ip'⟩ := r
    obtain ⟨rfl, hat', hspare⟩ := hr
    have hlen' : ip' + more.2.length = srcSize := hat'.length
    show Refines _ _ (if _ then _ else _) (literalStep cap false _ _ more.2 out)
    split
    case isTrue hnear => exact refines_lz4SafeLiteralCopy hat' hle h
    case isFalse hfar =>
      rw [h.1] at hfar
      have hcopy := holds_wildCopy32_literals (s := ip') (n := token.toNat / 16 + more.1) h
        (by omega : _ ≤ src.length) (by omega) (by omega)
      show Refines _ _ _ (literalStep cap false _ (token.toNat / 16 + more.1) more.2 out)
      refine refines_literals hat' (by omega) (fun _ => by omega) hcopy
        fun hat'' hleft hout hdst' => ?_
      rw [← hout]
      exact refines_lz4FastMatch hat'' hleft hdst' (by omega)
  case isFalse hmax =>
    rw [Option.bind_some]
    split
    case isTrue hleft =>
      have hcond :
          (token.toNat / 16 != 15 && 17 ≤ rest.length && out.length + 32 ≤ cap) = true := by
        simp
        omega
      rw [hcond]
      show Refines _ _ _ (literalStep cap true _ _ rest out)
      have hcopy := holds_memcpy_literals (s := ip + 1) (n := token.toNat / 16) h (by omega)
        (by omega : _ ≤ src.length) (by omega)
      refine refines_literals hat.tail (by omega) (fun hlast => Bool.noConfusion hlast) hcopy
        fun hat' hleft' hout hdst' => ?_
      rw [← hout]
      exact refines_lz4FastMatch hat' hleft' hdst' (by omega)
    case isFalse hleft =>
      have hcond : (token.toNat / 16 != 15 && 17 ≤ rest.length && out.length + 32 ≤ cap) =
          false := by
        simp
        omega
      rw [hcond]
      exact refines_lz4SafeLiteralCopy hat.tail hle h

/-- Sequence after sequence, in whichever loop. -/
theorem refines_lz4DecodeSequences {fuel : Nat} {next : Lz4Next} {step : Step}
    (hrel : Lz4Rel src srcSize cap next step) (hle : srcSize ≤ src.length)
    (hfuel : ∀ {rest out}, step = .next rest out → rest.length ≤ fuel) :
    Refines .corrupt (fun r out => r.1 = out.length ∧ Lz4Holds cap out r.2)
      (lz4DecodeSequences src srcSize fuel next) (step.finish cap) := by
  induction fuel generalizing next step with
  | zero =>
    cases hrel with
    | fast hat hne hdst hcap =>
      exact absurd (List.eq_nil_of_length_eq_zero (Nat.le_zero.mp (hfuel rfl))) hne
    | safe hat hne hdst =>
      exact absurd (List.eq_nil_of_length_eq_zero (Nat.le_zero.mp (hfuel rfl))) hne
    | done hdst => exact .yields ⟨rfl, hdst⟩
  | succ fuel ih =>
    have hgo {r : Lz4Run Lz4Next} {rest out : List UInt8} (hrest : rest.length ≤ fuel + 1)
        (hr : Refines .corrupt (Lz4Rel src srcSize cap) r (sequenceStep cap rest out)) :
        Refines .corrupt (fun r out => r.1 = out.length ∧ Lz4Holds cap out r.2)
          (r >>= lz4DecodeSequences src srcSize fuel) (Step.finish cap (.next rest out)) := by
      show Refines _ _ _ (decode cap rest out)
      rw [decode_eq_bind]
      refine hr.bind_of_eq fun next' step' hstep hrel' => ih hrel' fun heq => ?_
      subst heq
      exact Nat.le_of_lt_succ ((length_of_sequence hstep).trans_le hrest)
    cases hrel with
    | fast hat hne hdst hcap =>
      exact hgo (hfuel rfl) (refines_lz4FastSequence hat hne hle hdst hcap)
    | safe hat hne hdst => exact hgo (hfuel rfl) (refines_lz4SafeSequence hat hne hle hdst)
    | done hdst => exact .yields ⟨rfl, hdst⟩

theorem refines_lz4DecompressGeneric (hle : srcSize ≤ src.length) (hdst : dst.length = cap) :
    Refines .corrupt (fun r out => r.1 = out.length ∧ Lz4Holds cap out r.2)
      (lz4DecompressGeneric src srcSize dst) (content cap (src.take srcSize)) := by
  have hblock : (src.take srcSize).length = srcSize := by
    rw [List.length_take, Nat.min_eq_left hle]
  have hat : Lz4At src srcSize 0 (src.take srcSize) :=
    ⟨List.take_prefix _ _, (Nat.zero_add _).trans hblock⟩
  rw [lz4DecompressGeneric, content, hdst]
  split
  case isTrue hempty =>
    split
    case isTrue hone =>
      rw [if_neg]
      · exact .fails
      · intro heq
        rw [heq] at hblock
        exact hone (congrArg Nat.cast hblock.symm)
    case isFalse hone =>
      obtain ⟨token, htoken⟩ := List.length_eq_one_iff.mp (hblock.trans (by omega))
      rw [htoken] at hat
      rw [hat.read, htoken]
      show Refines _ _ (if _ then _ else _) _
      split
      case isTrue hzero =>
        rw [if_pos (congrArg (fun b => [b]) hzero)]
        exact .yields ⟨rfl, hdst, List.nil_prefix⟩
      case isFalse hzero =>
        rw [if_neg fun heq => hzero (List.head_eq_of_cons_eq heq)]
        exact .fails
  case isFalse hcap =>
    split
    case isTrue hzero =>
      rw [List.length_eq_zero_iff.mp (hblock.trans (by omega)), decode_eq_bind]
      exact .fails
    case isFalse hpos =>
      have hne : src.take srcSize ≠ [] := List.ne_nil_of_length_pos (by omega)
      have hfuel : ∀ {rest out}, Step.next (src.take srcSize) [] = .next rest out →
          rest.length ≤ src.length + 1 := by
        intro rest out heq
        cases heq
        omega
      have hholds : Lz4Holds cap [] dst := ⟨hdst, List.nil_prefix⟩
      split
      case isTrue hsmall => exact refines_lz4DecodeSequences (.safe hat hne hholds) hle hfuel
      case isFalse hlarge =>
        refine refines_lz4DecodeSequences (.fast hat hne hholds ?_) hle hfuel
        rw [List.length_nil, Nat.zero_add]
        exact Nat.le_of_not_lt hlarge

end Rules

/-- With a negative length nothing is decoded. -/
theorem lz4DecompressGeneric_neg {src dst : List UInt8} {srcSize : Int} (hneg : srcSize < 0)
    (hne : src ≠ []) : lz4DecompressGeneric src srcSize dst = .error .corrupt := by
  obtain ⟨token, src, rfl⟩ := List.exists_cons_of_ne_nil hne
  have hread : lz4Read (token :: src) 0 = .ok token := rfl
  have hlength : readVariableLength (token :: src) 1 (srcSize - 15) true = .error .corrupt :=
    if_pos ⟨rfl, by omega⟩
  have hliteral (length op : Nat) (dst : List UInt8) : lz4SafeLiteralCopy (token :: src) srcSize
      token.toNat length 1 op dst = .error .corrupt := by
    rw [lz4SafeLiteralCopy, if_pos (Or.inr (by omega)), if_pos (Or.inl (by omega))]
    rfl
  have hsafe : lz4SafeSequence (token :: src) srcSize 0 0 dst = .error .corrupt := by
    rw [lz4SafeSequence, hread]
    show (if _ then _ else if _ then _ else _) = _
    rw [if_neg fun hshort => absurd hshort.2.1 (by omega)]
    split
    · rw [hlength]
      rfl
    · exact hliteral _ _ _
  have hfast : lz4FastSequence (token :: src) srcSize 0 0 dst = .error .corrupt := by
    rw [lz4FastSequence, hread]
    show (if _ then _ else if _ then _ else _) = _
    split
    · rw [hlength]
      rfl
    · rw [if_neg (by omega)]
      exact hliteral _ _ _
  rw [lz4DecompressGeneric]
  split
  · exact if_pos (by omega)
  · rw [if_neg (by omega)]
    split
    · rw [lz4DecodeSequences, hsafe]
      rfl
    · rw [lz4DecodeSequences, hfast]
      rfl

theorem lz4DecompressSafe_refines {src dst : List UInt8} {compressedSize : Int} {cap : Nat}
    (hsrc : compressedSize ≤ src.length) (hneg : compressedSize < 0 → src ≠ [])
    (hcap : cap ≤ dst.length) :
    Refines .corrupt (fun r out => r.1 = out.length ∧ Lz4Holds cap out r.2)
      (lz4DecompressSafe src compressedSize cap dst)
      (content cap (src.take compressedSize.toNat)) := by
  have hdst : (dst.take cap).length = cap := by rw [List.length_take, Nat.min_eq_left hcap]
  rw [lz4DecompressSafe, if_neg (by omega), Int.toNat_natCast]
  rcases Int.lt_or_le compressedSize 0 with hlt | hge
  · rw [lz4DecompressGeneric_neg hlt (hneg hlt), Int.toNat_of_nonpos hlt.le, content]
    split
    · exact .fails
    · rw [List.take_zero, decode_eq_bind]
      exact .fails
  · obtain ⟨srcSize, rfl⟩ := Int.eq_ofNat_of_zero_le hge
    exact refines_lz4DecompressGeneric (Int.ofNat_le.mp hsrc) hdst

/-- **The decoder is the plain one.**  Whatever the block, and whatever the output memory holds
before: no access is undefined, the loops end, a block that the plain decoder rejects is rejected,
and for any other the output begins with the content of the block. -/
theorem lz4DecompressSafe_content {src dst : List UInt8} {compressedSize : Int} {cap : Nat}
    (hsrc : compressedSize ≤ src.length) (hneg : compressedSize < 0 → src ≠ [])
    (hcap : cap ≤ dst.length) :
    (content cap (src.take compressedSize.toNat) = none →
      lz4DecompressSafe src compressedSize cap dst = .error .corrupt) ∧
    ∀ out, content cap (src.take compressedSize.toNat) = some out →
      ∃ rest, (out ++ rest).length = cap ∧
        lz4DecompressSafe src compressedSize cap dst = .ok (out.length, out ++ rest) := by
  have hrefines := lz4DecompressSafe_refines hsrc hneg hcap
  generalize lz4DecompressSafe src compressedSize cap dst = r at hrefines ⊢
  generalize content cap (src.take compressedSize.toNat) = o at hrefines ⊢
  cases hrefines with
  | fails => exact ⟨fun _ => rfl, fun out hout => absurd hout (Option.some_ne_none out).symm⟩
  | yields h =>
    obtain ⟨hn, hlen, rest, hrest⟩ := h
    refine ⟨fun hnone => absurd hnone (Option.some_ne_none _), fun out hout => ?_⟩
    cases hout
    exact ⟨rest, hrest ▸ hlen, congrArg Except.ok (Prod.ext hn hrest.symm)⟩

/-- One byte, fourteen times more through a match that overlaps itself, and five literals. -/
def twentyBytes : List UInt8 := [0x1A, 97, 1, 0, 0x50, 97, 97, 97, 97, 97]

theorem content_twentyBytes : content 20 twentyBytes = some (List.replicate 20 97) := by
  have hfirst : sequenceStep 20 twentyBytes [] =
      some (.next [0x50, 97, 97, 97, 97, 97] (List.replicate 15 97)) := by decide
  have hlast : sequenceStep 20 [0x50, 97, 97, 97, 97, 97] (List.replicate 15 97) =
      some (.done (List.replicate 20 97)) := by decide
  rw [content, if_neg (by decide), decode_eq_bind, hfirst, Option.bind_some, Step.finish,
    decode_eq_bind, hlast]
  rfl

theorem lz4DecompressSafe_twentyBytes :
    lz4DecompressSafe twentyBytes 10 20 (List.replicate 30 7) =
      .ok (20, List.replicate 20 97) := by
  have hsrc : (10 : Int) ≤ twentyBytes.length := by decide
  have hcap : 20 ≤ (List.replicate 30 (7 : UInt8)).length := by decide
  obtain ⟨rest, hlen, hresult⟩ :=
    (lz4DecompressSafe_content hsrc (by decide) hcap).2 _ content_twentyBytes
  rw [List.length_append, List.length_replicate, Nat.add_eq_left, List.length_eq_zero_iff] at hlen
  rw [hlen, List.append_nil] at hresult
  exact hresult

end IsrTransfer
