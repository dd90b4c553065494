import IsrTransfer.Data.BigEndian
import IsrTransfer.Posix.Calls

/-!
# The protocol's constants and records (`lib/isr.h`)

Every record is packed and every number in it is big-endian, so a record is the concatenation of
its fields' bytes.  Numbers are kept as natural numbers; the width of a field is applied where the
source stores into it, by `toBe`.  Where the source lets a number change its type without storing
it, the conversion has a name: `toInt64`, `toInt32`, `narrowed`.

The last section says that a record which is sent is read back as far as its fields are wide.  A
number that does not fit its field arrives reduced, which is what the results on commands turn
on.

A string is the list of its bytes, and `cstr` is what a C string function sees of a buffer.
-/

namespace IsrTransfer

open Posix

def isrPathMax : Nat := 4096
def isrIoBufsize : Nat := 1024 * 64

/-! ## Codes -/

def isrRecvGo : UInt8 := 0x01
def isrRecvUnable : UInt8 := 0x00

def isrResultOk : UInt8 := 0x00
def isrResultChecksumBad : UInt8 := 0x01
def isrResultOtherFailure : UInt8 := 0xFF

def isrFlagUseCompression : UInt8 := 0x01
def isrFlagOverwrite : UInt8 := 0x02
def isrFlagCreateDirectory : UInt8 := 0x04

def isrCommandSend : UInt8 := 0x01
def isrCommandRecv : UInt8 := 0x00

def isrSendResponseCreating : UInt8 := 0x00
def isrSendResponseOverwriting : UInt8 := 0x01

def isrRecvTypeFile : UInt8 := 0x00
def isrRecvTypeDirectory : UInt8 := 0x01
def isrRecvTypeNotFound : UInt8 := 0x03

/-- `flags & flag`, as a condition. -/
def hasFlag (flags flag : UInt8) : Bool := flags &&& flag != 0

/-! ## Machine words -/

/-- `2 ^ 64`. -/
def word64 : Nat := 18446744073709551616

/-- A 64-bit word read as `int64_t`. -/
def toInt64 (n : Nat) : Int := if n < 9223372036854775808 then n else n - 18446744073709551616

/-- A 32-bit word read as `int`. -/
def toInt32 (n : Nat) : Int := if n < 2147483648 then n else n - 4294967296

/-- `(int)` of an `int64_t`: its lower 32 bits. -/
def narrowed (r : Int) : Int := toInt32 (r % 4294967296).toNat

/-- `_isr_count_byte_values`: the sum of the bytes, in a `uint64_t`. -/
def isrCountByteValues (data : List UInt8) : Nat :=
  data.foldl (fun count b => (count + b.toNat) % word64) 0

/-- The sum of the bytes. -/
def byteSum (data : List UInt8) : Nat := (data.map UInt8.toNat).sum

@[simp] theorem byteSum_nil : byteSum [] = 0 := rfl

@[simp] theorem byteSum_append (a b : List UInt8) :
    byteSum (a ++ b) = byteSum a + byteSum b := by
  simp [byteSum]

theorem isrCountByteValues_eq (data : List UInt8) :
    isrCountByteValues data = byteSum data % word64 := by
  suffices h : ∀ c, data.foldl (fun count b => (count + b.toNat) % word64) (c % word64) =
      (c + byteSum data) % word64 by
    have h0 := h 0
    rw [Nat.zero_mod, Nat.zero_add] at h0
    exact h0
  induction data with
  | nil => exact fun c => rfl
  | cons b data ih =>
    intro c
    have hsum : byteSum (b :: data) = b.toNat + byteSum data := by simp [byteSum]
    rw [List.foldl_cons, Nat.mod_add_mod, ih, hsum, Nat.add_assoc]

/-- A byte is at most 255. -/
theorem byteSum_le (data : List UInt8) : byteSum data ≤ 255 * data.length := by
  induction data with
  | nil => simp
  | cons b data ih =>
    have hb : b.toNat < 256 := b.toNat_lt
    have hsum : byteSum (b :: data) = b.toNat + byteSum data := by simp [byteSum]
    rw [hsum, List.length_cons]
    omega

/-! ## Strings -/

/-- The bytes of a message. -/
def bytesOf (s : String) : List UInt8 := s.toUTF8.data.toList

/-- What a C string function sees of a buffer: everything before the first NUL. -/
def cstr (buf : List UInt8) : List UInt8 := buf.takeWhile (· ≠ 0)

theorem notMem_cstr (buf : List UInt8) : (0 : UInt8) ∉ cstr buf := by
  intro h
  have := List.mem_takeWhile_imp h
  simp at this

theorem cstr_of_notMem {buf : List UInt8} (h : (0 : UInt8) ∉ buf) : cstr buf = buf := by
  unfold cstr
  rw [List.takeWhile_eq_self_iff]
  intro b hb
  have hne : b ≠ 0 := fun h0 => h (h0 ▸ hb)
  simpa using hne

/-! ## Records -/

/-- `isr_send_command_header_t`, in host byte order. -/
structure IsrSendCommandHeader where
  flags : UInt8
  pathLength : Nat
  uncompressedBlockSize : Nat
  effectiveLength : Nat

/-- `sizeof(isr_send_command_header_t)`. -/
def sizeofSendCommandHeader : Nat := 15

/-- The header as it is sent. -/
def IsrSendCommandHeader.bytes (h : IsrSendCommandHeader) : List UInt8 :=
  h.flags :: (toBe 2 h.pathLength ++ toBe 4 h.uncompressedBlockSize ++
    toBe 8 h.effectiveLength)

/-- The header as it is read from a buffer. -/
def IsrSendCommandHeader.ofBytes (buf : List UInt8) : IsrSendCommandHeader where
  flags := buf.headD 0
  pathLength := ofBe ((buf.drop 1).take 2)
  uncompressedBlockSize := ofBe ((buf.drop 3).take 4)
  effectiveLength := ofBe ((buf.drop 7).take 8)

/-- `isr_recv_command_header_t`, in host byte order. -/
structure IsrRecvCommandHeader where
  flags : UInt8
  pathLength : Nat
  uncompressedBlockSize : Nat

/-- `sizeof(isr_recv_command_header_t)`. -/
def sizeofRecvCommandHeader : Nat := 7

/-- The header as it is sent. -/
def IsrRecvCommandHeader.bytes (h : IsrRecvCommandHeader) : List UInt8 :=
  h.flags :: (toBe 2 h.pathLength ++ toBe 4 h.uncompressedBlockSize)

/-- The header as it is read from a buffer. -/
def IsrRecvCommandHeader.ofBytes (buf : List UInt8) : IsrRecvCommandHeader where
  flags := buf.headD 0
  pathLength := ofBe ((buf.drop 1).take 2)
  uncompressedBlockSize := ofBe ((buf.drop 3).take 4)

/-- `isr_response_t`. -/
structure IsrResponse where
  responseType : UInt8
  responseData : List UInt8

/-- `sizeof(isr_response_t)`. -/
def sizeofResponse : Nat := 255

/-- `isr_response_from_error`: the message, cut to 253 bytes and padded with NUL. -/
def isrResponseFromError (errorMessage : List UInt8) : IsrResponse where
  responseType := isrResultOtherFailure
  responseData := errorMessage.take 253 ++
    List.replicate (254 - (errorMessage.take 253).length) 0

/-- `isr_response_from_result`. -/
def isrResponseFromResult (resultType : UInt8) : IsrResponse where
  responseType := resultType
  responseData := List.replicate 254 0

/-- The response as it is sent. -/
def IsrResponse.bytes (r : IsrResponse) : List UInt8 := r.responseType :: r.responseData

/-- The response as it is read from a buffer. -/
def IsrResponse.ofBytes (buf : List UInt8) : IsrResponse where
  responseType := buf.headD 0
  responseData := buf.drop 1

/-- `isr_recv_confirmation_t`, in host byte order. -/
structure IsrRecvConfirmation where
  responseType : UInt8
  effectiveLength : Nat

/-- `sizeof(isr_recv_confirmation_t)`. -/
def sizeofRecvConfirmation : Nat := 9

/-- The confirmation as it is sent. -/
def IsrRecvConfirmation.bytes (c : IsrRecvConfirmation) : List UInt8 :=
  c.responseType :: toBe 8 c.effectiveLength

/-- The confirmation as it is read from a buffer. -/
def IsrRecvConfirmation.ofBytes (buf : List UInt8) : IsrRecvConfirmation where
  responseType := buf.headD 0
  effectiveLength := ofBe ((buf.drop 1).take 8)

@[simp] theorem length_sendCommandHeader (h : IsrSendCommandHeader) :
    h.bytes.length = sizeofSendCommandHeader := by
  simp [IsrSendCommandHeader.bytes, sizeofSendCommandHeader]

@[simp] theorem length_recvCommandHeader (h : IsrRecvCommandHeader) :
    h.bytes.length = sizeofRecvCommandHeader := by
  simp [IsrRecvCommandHeader.bytes, sizeofRecvCommandHeader]

@[simp] theorem length_recvConfirmation (c : IsrRecvConfirmation) :
    c.bytes.length = sizeofRecvConfirmation := by
  simp [IsrRecvConfirmation.bytes, sizeofRecvConfirmation]

@[simp] theorem length_responseFromError (m : List UInt8) :
    (isrResponseFromError m).bytes.length = sizeofResponse := by
  have h : (m.take 253).length ≤ 253 := by simp
  simp only [isrResponseFromError, IsrResponse.bytes, sizeofResponse, List.length_cons,
    List.length_append, List.length_replicate]
  omega

@[simp] theorem length_responseFromResult (t : UInt8) :
    (isrResponseFromResult t).bytes.length = sizeofResponse := by
  simp only [isrResponseFromResult, IsrResponse.bytes, sizeofResponse, List.length_cons,
    List.length_replicate]

/-- What is sent is read back, as far as the fields are wide. -/
theorem ofBytes_sendCommandHeader (h : IsrSendCommandHeader) :
    IsrSendCommandHeader.ofBytes h.bytes =
      ⟨h.flags, h.pathLength % 256 ^ 2, h.uncompressedBlockSize % 256 ^ 4,
        h.effectiveLength % 256 ^ 8⟩ := by
  have hdrop : (toBe 2 h.pathLength ++
      (toBe 4 h.uncompressedBlockSize ++ toBe 8 h.effectiveLength)).drop 6 =
        toBe 8 h.effectiveLength := by
    rw [show 6 = 2 + (4 + 0) from rfl, drop_toBe_append, drop_toBe_append, List.drop_zero]
  have hdrop2 : (toBe 2 h.pathLength ++
      (toBe 4 h.uncompressedBlockSize ++ toBe 8 h.effectiveLength)).drop 2 =
        toBe 4 h.uncompressedBlockSize ++ toBe 8 h.effectiveLength := by
    rw [show 2 = 2 + 0 from rfl, drop_toBe_append, List.drop_zero]
  rw [← ofBe_toBe, ← ofBe_toBe, ← ofBe_toBe]
  simp [IsrSendCommandHeader.ofBytes, IsrSendCommandHeader.bytes, hdrop, hdrop2]

theorem ofBytes_recvCommandHeader (h : IsrRecvCommandHeader) :
    IsrRecvCommandHeader.ofBytes h.bytes =
      ⟨h.flags, h.pathLength % 256 ^ 2, h.uncompressedBlockSize % 256 ^ 4⟩ := by
  have hdrop : (toBe 2 h.pathLength ++ toBe 4 h.uncompressedBlockSize).drop 2 =
      toBe 4 h.uncompressedBlockSize := by
    rw [show 2 = 2 + 0 from rfl, drop_toBe_append, List.drop_zero]
  rw [← ofBe_toBe, ← ofBe_toBe]
  simp [IsrRecvCommandHeader.ofBytes, IsrRecvCommandHeader.bytes, hdrop]

theorem ofBytes_recvConfirmation (c : IsrRecvConfirmation) :
    IsrRecvConfirmation.ofBytes c.bytes =
      ⟨c.responseType, c.effectiveLength % 256 ^ 8⟩ := by
  rw [← ofBe_toBe]
  simp [IsrRecvConfirmation.ofBytes, IsrRecvConfirmation.bytes]

end IsrTransfer
