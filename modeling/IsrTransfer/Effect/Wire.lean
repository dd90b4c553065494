import IsrTransfer.Effect.Program

/-!
# One process and its connection

A networked program issues the operations of its own system and four more: it
connects, sends, receives and closes.  A stream socket promises bytes in order
and nothing about how they are cut up, so a send accepts any non-empty beginning
of the data and a receive hands over any non-empty beginning of what is there.

`Proc` is what such a process sees of the world: its system, the bytes the peer
sends on the current connection (`input`, of which `rx` is still unread), and the
bytes it has sent itself (`tx`).  Which bytes the peer sends is left open: a
connection may bring any.  Two switches say what else may happen.  With `lossy`
every network operation may fail; with `eof` a receive reports the end of the
stream once `rx` is used up, and without it the receive blocks.

A receive names the room left in its buffer as well as the number of bytes it
asks for.  The environment takes no notice of the room; a program that is meant
to stay inside its buffers has to ask for no more.
-/

namespace IsrTransfer
namespace Effect

universe u

/-- The operations of a system, and those on a stream socket.  The replies of the
latter: whether the connection stands, how many bytes were taken, the bytes
received; `none` is an error or the end of the stream. -/
inductive NetOp (Op : Type → Type u) : Type → Type (max 1 u) where
  | connect : NetOp Op Bool
  | send : (data : List UInt8) → NetOp Op (Option Nat)
  | recv : (room len : Nat) → NetOp Op (Option (List UInt8))
  | close : NetOp Op Unit
  | sys : {ρ : Type} → Op ρ → NetOp Op ρ

/-- A process: its system and its side of the connection. -/
structure Proc (σ : Type) where
  sys : σ
  input : List UInt8
  rx : List UInt8
  tx : List UInt8

namespace Proc

variable {Op : Type → Type u} {ρ σ α : Type}

/-- A process at the beginning of a connection on which the peer sends `input`. -/
def start (s : σ) (input : List UInt8) : Proc σ := ⟨s, input, input, []⟩

/-- `data` has been sent. -/
def sent (w : Proc σ) (data : List UInt8) : Proc σ := { w with tx := w.tx ++ data }

/-- `n` bytes have been received. -/
def received (w : Proc σ) (n : Nat) : Proc σ := { w with rx := w.rx.drop n }

/-- The system is now in state `s`. -/
def withSys (w : Proc σ) (s : σ) : Proc σ := { w with sys := s }

section Fields

variable (w : Proc σ) (data data' : List UInt8) (n m : Nat) (s s' : σ)

@[simp] theorem start_sys : (start s data).sys = s := rfl
@[simp] theorem start_input : (start s data).input = data := rfl
@[simp] theorem start_rx : (start s data).rx = data := rfl
@[simp] theorem start_tx : (start s data).tx = [] := rfl
@[simp] theorem sent_sys : (w.sent data).sys = w.sys := rfl
@[simp] theorem sent_input : (w.sent data).input = w.input := rfl
@[simp] theorem sent_rx : (w.sent data).rx = w.rx := rfl
@[simp] theorem sent_tx : (w.sent data).tx = w.tx ++ data := rfl
@[simp] theorem received_sys : (w.received n).sys = w.sys := rfl
@[simp] theorem received_input : (w.received n).input = w.input := rfl
@[simp] theorem received_rx : (w.received n).rx = w.rx.drop n := rfl
@[simp] theorem received_tx : (w.received n).tx = w.tx := rfl
@[simp] theorem withSys_sys : (w.withSys s).sys = s := rfl
@[simp] theorem withSys_input : (w.withSys s).input = w.input := rfl
@[simp] theorem withSys_rx : (w.withSys s).rx = w.rx := rfl
@[simp] theorem withSys_tx : (w.withSys s).tx = w.tx := rfl
@[simp] theorem withSys_self : w.withSys w.sys = w := rfl
@[simp] theorem withSys_withSys : (w.withSys s).withSys s' = w.withSys s' := rfl

@[simp] theorem sent_nil : w.sent [] = w := by simp [sent]

@[simp] theorem sent_sent : (w.sent data).sent data' = w.sent (data ++ data') := by
  simp [sent]

@[simp] theorem received_zero : w.received 0 = w := rfl

@[simp] theorem received_received : (w.received n).received m = w.received (n + m) := by
  simp [received]

/-- What concerns different parts may be done in any order; the system's part is
written innermost, then what was received, then what was sent. -/
@[simp] theorem withSys_sent : (w.sent data).withSys s = (w.withSys s).sent data := rfl

@[simp] theorem withSys_received : (w.received n).withSys s = (w.withSys s).received n := rfl

@[simp] theorem received_sent : (w.sent data).received n = (w.received n).sent data := rfl

end Fields

/-- What a process may experience, its system behaving as `E` says. -/
def step (E : Env Op σ) (lossy eof : Bool) : Env (NetOp Op) (Proc σ)
  | _, w, .sys op, r, w' => ∃ s', E w.sys op r s' ∧ w' = w.withSys s'
  | _, w, .connect, r, w' =>
    (r = true ∧ ∃ input, w' = start w.sys input) ∨ (lossy ∧ r = false ∧ w' = w)
  | _, w, .send data, r, w' =>
    (∃ k, 0 < k ∧ k ≤ data.length ∧ r = some k ∧ w' = w.sent (data.take k)) ∨
      (lossy ∧ r = none ∧ w' = w)
  | _, w, .recv _ len, r, w' =>
    (∃ k, 0 < k ∧ k ≤ len ∧ k ≤ w.rx.length ∧ r = some (w.rx.take k) ∧
        w' = w.received k) ∨
      ((lossy ∨ (eof ∧ w.rx = [])) ∧ r = none ∧ w' = w)
  | _, w, .close, _, w' => w' = w

/-- A receive that waits for bytes that have not come. -/
def Waiting : Guard (NetOp Op) (Proc σ)
  | _, w, .recv _ _ => w.rx = []
  | _, _, _ => False

section Rules

variable {E : Env Op σ} {lossy eof : Bool} {A : Guard (NetOp Op) (Proc σ)} {w : Proc σ}

theorem ensures_sys {op : Op ρ} {Q : ρ → Proc σ → Prop} :
    Ensures (step E lossy eof) A (.perform (.sys op)) Q w ↔
      A w (.sys op) ∧ ∀ r s', E w.sys op r s' → Q r (w.withSys s') := by
  rw [ensures_perform]
  refine and_congr_right fun _ => ⟨fun h r s' hr => h r _ ⟨s', hr, rfl⟩, ?_⟩
  rintro h r w' ⟨s', hr, rfl⟩
  exact h r s' hr

theorem ensures_connect {Q : Bool → Proc σ → Prop} :
    Ensures (step E lossy eof) A (.perform .connect) Q w ↔
      A w .connect ∧ (∀ input, Q true (start w.sys input)) ∧ (lossy → Q false w) := by
  rw [ensures_perform]
  refine and_congr_right fun _ => ⟨fun h => ⟨fun i => h _ _ (Or.inl ⟨rfl, i, rfl⟩),
    fun hl => h _ _ (Or.inr ⟨hl, rfl, rfl⟩)⟩, ?_⟩
  rintro ⟨hok, hfail⟩ r w' (⟨rfl, i, rfl⟩ | ⟨hl, rfl, rfl⟩)
  · exact hok i
  · exact hfail hl

theorem ensures_send {data : List UInt8} {Q : Option Nat → Proc σ → Prop} :
    Ensures (step E lossy eof) A (.perform (.send data)) Q w ↔
      A w (.send data) ∧
        (∀ k, 0 < k → k ≤ data.length → Q (some k) (w.sent (data.take k))) ∧
        (lossy → Q none w) := by
  rw [ensures_perform]
  refine and_congr_right fun _ => ⟨fun h =>
    ⟨fun k h0 hk => h _ _ (Or.inl ⟨k, h0, hk, rfl, rfl⟩),
      fun hl => h _ _ (Or.inr ⟨hl, rfl, rfl⟩)⟩, ?_⟩
  rintro ⟨hok, hfail⟩ r w' (⟨k, h0, hk, rfl, rfl⟩ | ⟨hl, rfl, rfl⟩)
  · exact hok k h0 hk
  · exact hfail hl

theorem ensures_recv {room len : Nat} {Q : Option (List UInt8) → Proc σ → Prop} :
    Ensures (step E lossy eof) A (.perform (.recv room len)) Q w ↔
      A w (.recv room len) ∧
        (∀ k, 0 < k → k ≤ len → k ≤ w.rx.length →
          Q (some (w.rx.take k)) (w.received k)) ∧
        (lossy ∨ (eof ∧ w.rx = []) → Q none w) := by
  rw [ensures_perform]
  refine and_congr_right fun _ => ⟨fun h =>
    ⟨fun k h0 hk hr => h _ _ (Or.inl ⟨k, h0, hk, hr, rfl, rfl⟩),
      fun hl => h _ _ (Or.inr ⟨hl, rfl, rfl⟩)⟩, ?_⟩
  rintro ⟨hok, hfail⟩ r w' (⟨k, h0, hk, hr, rfl, rfl⟩ | ⟨hl, rfl, rfl⟩)
  · exact hok k h0 hk hr
  · exact hfail hl

theorem ensures_close {Q : Unit → Proc σ → Prop} :
    Ensures (step E lossy eof) A (.perform .close) Q w ↔ A w .close ∧ Q () w := by
  rw [ensures_perform]
  refine and_congr_right fun _ => ⟨fun h => h () w rfl, ?_⟩
  rintro h r w' rfl
  exact h

end Rules

end Proc

end Effect
end IsrTransfer
