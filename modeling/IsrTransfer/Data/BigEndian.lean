import Mathlib.Init
import Mathlib.Tactic.Ring

/-!
# Numbers written as big-endian bytes

`toBe w n` is the number `n` in exactly `w` bytes, most significant first, with
what does not fit dropped; `ofBe` reads such bytes back.  The two are inverse up
to the reduction modulo `256 ^ w` (`ofBe_toBe`, `toBe_ofBe`).
-/

namespace IsrTransfer

/-- The number `n` in `w` bytes, most significant byte first. -/
def toBe : Nat → Nat → List UInt8
  | 0, _ => []
  | w + 1, n => UInt8.ofNat (n / 256 ^ w) :: toBe w n

/-- The number that big-endian bytes denote. -/
def ofBe : List UInt8 → Nat
  | [] => 0
  | b :: bs => b.toNat * 256 ^ bs.length + ofBe bs

@[simp] theorem length_toBe (w n : Nat) : (toBe w n).length = w := by
  induction w with
  | zero => rfl
  | succ w ih => rw [toBe, List.length_cons, ih]

@[simp] theorem take_toBe (w n : Nat) : (toBe w n).take w = toBe w n :=
  List.take_of_length_le (Nat.le_of_eq (length_toBe w n))

@[simp] theorem take_toBe_append (w n : Nat) (bs : List UInt8) :
    (toBe w n ++ bs).take w = toBe w n := by
  rw [List.take_append_of_le_length (Nat.le_of_eq (length_toBe w n).symm), take_toBe]

@[simp] theorem drop_toBe_append (w n k : Nat) (bs : List UInt8) :
    (toBe w n ++ bs).drop (w + k) = bs.drop k := by
  have h : (toBe w n).drop (w + k) = [] :=
    List.drop_eq_nil_of_le (by rw [length_toBe]; omega)
  rw [List.drop_append, h, length_toBe, Nat.add_sub_cancel_left, List.nil_append]

theorem ofBe_toBe (w n : Nat) : ofBe (toBe w n) = n % 256 ^ w := by
  induction w with
  | zero => simp [toBe, ofBe, Nat.mod_one]
  | succ w ih =>
    have hb : (UInt8.ofNat (n / 256 ^ w)).toNat = n / 256 ^ w % 256 := by
      simp [UInt8.toNat_ofNat']
    rw [toBe, ofBe, ih, hb, length_toBe, Nat.pow_succ, Nat.mod_mul, Nat.add_comm,
      Nat.mul_comm]

theorem ofBe_toBe_of_lt {w n : Nat} (h : n < 256 ^ w) : ofBe (toBe w n) = n := by
  rw [ofBe_toBe, Nat.mod_eq_of_lt h]

theorem ofBe_lt (bs : List UInt8) : ofBe bs < 256 ^ bs.length := by
  induction bs with
  | nil => simp [ofBe]
  | cons b bs ih =>
    have hb : b.toNat < 256 := b.toNat_lt
    calc ofBe (b :: bs) = b.toNat * 256 ^ bs.length + ofBe bs := rfl
      _ < b.toNat * 256 ^ bs.length + 256 ^ bs.length := Nat.add_lt_add_left ih _
      _ = (b.toNat + 1) * 256 ^ bs.length := by ring
      _ ≤ 256 * 256 ^ bs.length := Nat.mul_le_mul_right _ hb
      _ = 256 ^ (b :: bs).length := by rw [List.length_cons, Nat.pow_succ, Nat.mul_comm]

/-- Only the number modulo `256 ^ w` is written. -/
theorem toBe_mod (w n : Nat) : toBe w (n % 256 ^ w) = toBe w n := by
  suffices h : ∀ v ≤ w, toBe v (n % 256 ^ w) = toBe v n from h w (Nat.le_refl w)
  intro v
  induction v with
  | zero => exact fun _ => rfl
  | succ v ih =>
    intro hv
    have hdvd : 256 ^ w = 256 ^ v * (256 * 256 ^ (w - (v + 1))) := by
      rw [← Nat.mul_assoc, ← Nat.pow_succ, ← Nat.pow_add]
      congr 1
      omega
    have hdiv : n % 256 ^ w / 256 ^ v % 256 = n / 256 ^ v % 256 := by
      rw [hdvd, Nat.mod_mul_right_div_self, Nat.mod_mul_right_mod]
    rw [toBe, toBe, ih (by omega)]
    congr 1
    apply UInt8.toNat_inj.mp
    simpa [UInt8.toNat_ofNat'] using hdiv

/-- Bytes are the big-endian form of the number they denote. -/
theorem toBe_ofBe (bs : List UInt8) : toBe bs.length (ofBe bs) = bs := by
  induction bs with
  | nil => rfl
  | cons b bs ih =>
    have hlt := ofBe_lt bs
    have hpos : 0 < 256 ^ bs.length := Nat.pow_pos (by decide)
    have hdiv : (b.toNat * 256 ^ bs.length + ofBe bs) / 256 ^ bs.length = b.toNat := by
      rw [Nat.add_comm, Nat.add_mul_div_right _ _ hpos, Nat.div_eq_of_lt hlt, Nat.zero_add]
    have htail : toBe bs.length (b.toNat * 256 ^ bs.length + ofBe bs) = bs := by
      rw [← toBe_mod, Nat.mul_comm, Nat.mul_add_mod, Nat.mod_eq_of_lt hlt, ih]
    rw [ofBe, List.length_cons, toBe, hdiv, htail, UInt8.ofNat_toNat]

end IsrTransfer
