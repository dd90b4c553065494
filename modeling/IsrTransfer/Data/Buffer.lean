import Mathlib.Data.List.GetD
import Mathlib.Data.List.TakeDrop
import Mathlib.Data.Nat.ModEq
import Mathlib.Tactic.Ring

/-!
# Buffers, and copies within them

`slice` reads a part of a buffer and `splice` overwrites one.

A copy *at an offset* appends to a list so many elements, each of them the one that stands
`offset` places before it, which may have been appended by the same copy (`copyAt`): a run of
elements is continued with its own period.  Such a copy may be made in chunks, each of which
copies from a multiple of the offset back (`copyAt_chunk`), as long as a chunk is no longer than
that.

For a program it is more convenient to say how far the copy has come than how many elements have
been appended (`copyTo`), and from where it may be continued, with chunks of which length
(`CopySource`).  Then a chunk leads from one position to the next (`append_slice`), and reading and
writing go on together (`CopySource.add`).
-/

namespace IsrTransfer
namespace Buffer

variable {α : Type} {b c : List α} {i j n : Nat}

/-- `n` elements from `i` on. -/
def slice (b : List α) (i n : Nat) : List α := (b.drop i).take n

/-- `b` with `c` at `i`. -/
def splice (b : List α) (i : Nat) (c : List α) : List α := b.take i ++ (c ++ b.drop (i + c.length))

theorem length_slice (h : i + n ≤ b.length) : (slice b i n).length = n := by
  rw [slice, List.length_take, List.length_drop]
  omega

theorem getElem?_slice (k : Nat) : (slice b i n)[k]? = if k < n then b[i + k]? else none := by
  rw [slice, List.getElem?_take, List.getElem?_drop]

@[simp] theorem slice_zero : slice b i 0 = [] := List.take_zero

theorem slice_add (m : Nat) : slice b i (n + m) = slice b i n ++ slice b (i + n) m := by
  rw [slice, slice, slice, List.take_add, List.drop_drop]

theorem prefix_slice {m : Nat} (h : n ≤ m) : slice b i n <+: slice b i m := by
  obtain ⟨m, rfl⟩ := Nat.exists_eq_add_of_le h
  rw [slice_add]
  exact List.prefix_append _ _

/-- What is read from a beginning of the buffer. -/
theorem slice_take (h : i + n ≤ j) : slice (b.take j) i n = slice b i n := by
  rw [slice, slice, List.drop_take, List.take_take, Nat.min_eq_left (by omega)]

theorem take_append_slice : b.take i ++ slice b i n = b.take (i + n) := List.take_add.symm

theorem length_splice (h : i + c.length ≤ b.length) : (splice b i c).length = b.length := by
  rw [splice, List.length_append, List.length_append, List.length_take, List.length_drop]
  omega

/-- What stands before the end of what is written. -/
theorem take_splice (h : i ≤ b.length) : (splice b i c).take (i + c.length) = b.take i ++ c := by
  have hlen : (b.take i ++ c).length = i + c.length := by
    rw [List.length_append, List.length_take, Nat.min_eq_left h]
  rw [splice, ← List.append_assoc, List.take_left' hlen]

/-! ## Copies at an offset

A match of LZ4 may reach into the bytes that it produces itself, so that its copy is defined
byte by byte.  What is appended has the offset as its period (`getElem?_copyAt`), and that is
why an implementation may copy larger pieces at once, from any multiple of the offset back
(`copyAt_chunk`). -/

section CopyAt

variable [Inhabited α] {out : List α} {offset : Nat}

/-- Append `n` elements, each the one that stands `offset` places before it. -/
def copyAt (out : List α) (offset : Nat) : (n : Nat) → List α
  | 0 => out
  | n + 1 => copyAt out offset n ++ [(copyAt out offset n).getD (out.length + n - offset) default]

@[simp] theorem length_copyAt (n : Nat) : (copyAt out offset n).length = out.length + n := by
  induction n with
  | zero => rfl
  | succ n ih =>
    rw [copyAt, List.length_append, ih]
    rfl

theorem prefix_copyAt (n : Nat) : out <+: copyAt out offset n := by
  induction n with
  | zero => exact List.prefix_rfl
  | succ n ih => exact ih.trans (List.prefix_append _ _)

theorem take_copyAt (n m : Nat) :
    (copyAt out offset (n + m)).take (out.length + n) = copyAt out offset n := by
  induction m with
  | zero =>
    rw [Nat.add_zero, List.take_of_length_le]
    rw [length_copyAt]
  | succ m ih =>
    rw [← Nat.add_assoc, copyAt, List.take_append_of_le_length, ih]
    rw [length_copyAt]
    omega

theorem getElem?_copyAt_of_lt {n k : Nat} (hk : k < out.length) :
    (copyAt out offset n)[k]? = out[k]? := by
  obtain ⟨more, hmore⟩ : out <+: copyAt out offset n := prefix_copyAt n
  rw [← hmore, List.getElem?_append_left hk]

/-- What has been appended has the offset as its period. -/
theorem getElem?_copyAt (h0 : 0 < offset) (hle : offset ≤ out.length) {n k : Nat} (hk : k < n) :
    (copyAt out offset n)[out.length + k]? = out[out.length - offset + k % offset]? := by
  induction n generalizing k with
  | zero => exact absurd hk (Nat.not_lt_zero _)
  | succ n ih =>
    rw [copyAt]
    rcases Nat.lt_succ_iff_lt_or_eq.mp hk with hlt | rfl
    · rw [List.getElem?_append_left (by rw [length_copyAt]; omega), ih hlt]
    -- the last element is the one that stands before by the offset
    have hback : (copyAt out offset k)[out.length + k - offset]? =
        out[out.length - offset + k % offset]? := by
      rcases Nat.lt_or_ge k offset with hlt | hge
      · rw [Nat.mod_eq_of_lt hlt, ← Nat.sub_add_comm hle]
        exact getElem?_copyAt_of_lt (by omega)
      · rw [Nat.add_sub_assoc hge, ih (by omega), ← Nat.mod_eq_sub_mod hge]
    have hsome : out.length - offset + k % offset < out.length := by
      have hmod : k % offset < offset := Nat.mod_lt _ h0
      omega
    rw [List.getElem?_append_right (by rw [length_copyAt]), length_copyAt, Nat.sub_self,
      List.getElem?_cons_zero, List.getD_eq_getElem?_getD, hback, List.getElem?_eq_getElem hsome]
    rfl

/-- **A copy in chunks.**  A chunk that is no longer than a multiple of the offset may be copied
from that far back. -/
theorem copyAt_chunk (h0 : 0 < offset) (hle : offset ≤ out.length) {a n times : Nat}
    (htimes : times * offset ≤ a + offset) (hn : n ≤ times * offset) :
    copyAt out offset a ++ slice (copyAt out offset a) (out.length + a - times * offset) n =
      copyAt out offset (a + n) := by
  have hchunk : (copyAt out offset (a + n)).drop (out.length + a) =
      slice (copyAt out offset a) (out.length + a - times * offset) n := by
    ext1 j
    rw [getElem?_slice, List.getElem?_drop, Nat.add_assoc]
    split
    case isFalse hj =>
      rw [List.getElem?_eq_none]
      rw [length_copyAt]
      omega
    case isTrue hj =>
      rw [getElem?_copyAt h0 hle (Nat.add_lt_add_left hj a)]
      rcases Nat.lt_or_ge (a + j) (times * offset) with hlt | hge
      · -- the byte stands in the first period
        obtain ⟨t, rfl⟩ : ∃ t, times = t + 1 := Nat.exists_eq_succ_of_ne_zero (by
          rintro rfl
          omega)
        rw [Nat.succ_mul] at hlt htimes ⊢
        obtain ⟨x, hx⟩ : ∃ x, a + j = x + t * offset := ⟨a + j - t * offset, by omega⟩
        rw [getElem?_copyAt_of_lt (by omega), hx, Nat.add_mul_mod_self_right,
          Nat.mod_eq_of_lt (by omega)]
        congr 1
        omega
      · obtain ⟨x, hx⟩ : ∃ x, a + j = x + times * offset := ⟨a + j - times * offset, by omega⟩
        rw [hx, Nat.add_mul_mod_self_right, ← getElem?_copyAt (n := a) h0 hle (by omega)]
        congr 1
        omega
  rw [← hchunk, ← take_copyAt a n, List.take_append_drop]

/-- At a multiple of the offset a copy goes on as it began. -/
theorem copyAt_add (h0 : 0 < offset) (hle : offset ≤ out.length) {a : Nat} (ha : offset ∣ a)
    (n : Nat) :
    copyAt out offset (a + n) = copyAt out offset a ++ (copyAt out offset n).drop out.length := by
  have hdrop : (copyAt out offset (a + n)).drop (out.length + a) =
      (copyAt out offset n).drop out.length := by
    ext1 j
    rw [List.getElem?_drop, List.getElem?_drop, Nat.add_assoc]
    rcases Nat.lt_or_ge j n with hlt | hge
    · obtain ⟨times, rfl⟩ := ha
      rw [getElem?_copyAt h0 hle (Nat.add_lt_add_left hlt _), getElem?_copyAt h0 hle hlt,
        Nat.mul_add_mod]
    · rw [List.getElem?_eq_none (by rw [length_copyAt]; omega),
        List.getElem?_eq_none (by rw [length_copyAt]; omega)]
  rw [← hdrop, ← take_copyAt a n, List.take_append_drop]

/-- A copy of whole periods. -/
theorem copyAt_mul (h0 : 0 < offset) (hle : offset ≤ out.length) (times : Nat) :
    copyAt out offset (times * offset) =
      out ++ (List.replicate times (slice out (out.length - offset) offset)).flatten := by
  have hone : (copyAt out offset offset).drop out.length =
      slice out (out.length - offset) offset := by
    have hle' : 1 * offset ≤ 0 + offset := by omega
    have hchunk := copyAt_chunk h0 hle hle' (Nat.one_mul offset).ge
    rw [Nat.zero_add, Nat.add_zero, Nat.one_mul] at hchunk
    rw [← hchunk]
    exact List.drop_left
  induction times with
  | zero =>
    rw [Nat.zero_mul, List.replicate_zero, List.flatten_nil, List.append_nil]
    rfl
  | succ times ih =>
    rw [Nat.succ_mul, copyAt_add h0 hle (Nat.dvd_mul_left offset times), ih, hone,
      List.replicate_succ', List.flatten_append, List.flatten_singleton, List.append_assoc]

theorem copyAt_offset_zero (n : Nat) : copyAt out 0 n = out ++ List.replicate n default := by
  induction n with
  | zero => exact (List.append_nil out).symm
  | succ n ih =>
    have hlast : (copyAt out 0 n).getD (out.length + n - 0) default = default :=
      List.getD_eq_default _ _ (by rw [length_copyAt]; exact Nat.le_refl _)
    rw [copyAt, hlast, ih, List.replicate_succ', List.append_assoc]

/-- A copy at offset zero appends default elements. -/
theorem copyAt_zero (n : Nat) : copyAt out 0 (n + 1) = copyAt (out ++ [default]) 1 n := by
  have hlen : (out ++ [(default : α)]).length = out.length + 1 := List.length_append
  have hperiod : slice (out ++ [default]) ((out ++ [(default : α)]).length - 1) 1 = [default] := by
    rw [hlen, Nat.add_sub_cancel, slice, List.drop_left]
    rfl
  have hmul := copyAt_mul Nat.one_pos (hlen ▸ Nat.le_add_left 1 out.length) n
  rw [Nat.mul_one, hperiod, List.flatten_replicate_singleton] at hmul
  rw [copyAt_offset_zero, hmul, List.append_assoc]
  rfl

/-- A copy that agrees with what is to be continued continues it. -/
theorem copyAt_take {b : List α} {p : Nat} (h0 : 0 < offset) (hp : offset ≤ p)
    (hlen : p + n ≤ b.length) (heq : ∀ k < n, b[p + k]? = b[p + k - offset]?) :
    copyAt (b.take p) offset n = b.take (p + n) := by
  have hlen' : (b.take p).length = p := by
    rw [List.length_take]
    omega
  induction n with
  | zero => rfl
  | succ n ih =>
    have hlt : p + n < b.length := hlen
    rw [copyAt, ih (by omega) (fun k hk => heq k (by omega)), hlen', ← Nat.add_assoc,
      List.take_add_one, List.getElem?_eq_getElem hlt]
    congr 2
    rw [List.getD_eq_getElem?_getD, List.getElem?_take_of_lt (by omega),
      ← heq n (Nat.lt_succ_self n),
      List.getElem?_eq_getElem hlt]
    rfl

/-! ## Copies up to a position -/

/-- The copy at an offset, up to position `p`. -/
def copyTo (out : List α) (offset p : Nat) : List α := copyAt out offset (p - out.length)

@[simp] theorem copyTo_length : copyTo out offset out.length = out := by
  rw [copyTo, Nat.sub_self]
  rfl

theorem copyTo_add (n : Nat) : copyTo out offset (out.length + n) = copyAt out offset n := by
  rw [copyTo, Nat.add_sub_cancel_left]

theorem length_copyTo {p : Nat} (hp : out.length ≤ p) : (copyTo out offset p).length = p := by
  rw [copyTo, length_copyAt, Nat.add_sub_cancel' hp]

theorem prefix_copyTo {p q : Nat} (h : p ≤ q) : copyTo out offset p <+: copyTo out offset q := by
  obtain ⟨m, hm⟩ : ∃ m, q - out.length = p - out.length + m := ⟨q - out.length - (p - out.length),
    by omega⟩
  rw [copyTo, copyTo, hm, ← take_copyAt (p - out.length) m]
  exact List.take_prefix _ _

/-- A copy at offset zero goes on as one at offset one, behind a default element. -/
theorem copyTo_zero {p : Nat} (hp : out.length < p) :
    copyTo out 0 p = copyTo (out ++ [default]) 1 p := by
  obtain ⟨n, rfl⟩ : ∃ n, p = out.length + (n + 1) := ⟨p - out.length - 1, by omega⟩
  rw [copyTo_add, copyAt_zero, copyTo, List.length_append, List.length_singleton]
  congr 1
  omega

/-- Chunks of up to `reach` elements may be copied from `s` to `d`. -/
structure CopySource (out : List α) (offset reach d s : Nat) : Prop where
  pos : 0 < offset
  le_length : offset ≤ out.length
  begun : out.length ≤ d
  multiple : offset ∣ d - s
  reach_le : s + reach ≤ d
  back : out.length ≤ s + offset

namespace CopySource

variable {reach d s : Nat}

omit [Inhabited α] in
theorem add (h : CopySource out offset reach d s) (m : Nat) :
    CopySource out offset reach (d + m) (s + m) where
  pos := h.pos
  le_length := h.le_length
  begun := Nat.le_add_right_of_le h.begun
  multiple := by
    rw [Nat.add_sub_add_right]
    exact h.multiple
  reach_le := by
    have hreach := h.reach_le
    omega
  back := by
    have hback := h.back
    omega

omit [Inhabited α] in
theorem mono (h : CopySource out offset reach d s) (hn : n ≤ reach) :
    CopySource out offset n d s :=
  { h with reach_le := (Nat.add_le_add_left hn s).trans h.reach_le }

/-- The copy goes on with what stands in the source. -/
theorem append_slice (h : CopySource out offset reach d s) (hn : n ≤ reach) :
    copyTo out offset d ++ slice (copyTo out offset d) s n = copyTo out offset (d + n) := by
  have hbegun := h.begun
  have hreach := h.reach_le
  have hback := h.back
  obtain ⟨times, htimes⟩ := h.multiple
  rw [Nat.mul_comm] at htimes
  obtain ⟨a, rfl⟩ := Nat.exists_eq_add_of_le hbegun
  have hle : times * offset ≤ a + offset := by omega
  have hchunk : n ≤ times * offset := by omega
  rw [Nat.add_assoc, copyTo_add, copyTo_add, ← copyAt_chunk h.pos h.le_length hle hchunk]
  congr 2
  omega

end CopySource

end CopyAt

end Buffer
end IsrTransfer
