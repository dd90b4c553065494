import IsrTransfer.Effect.Wire

/-!
# A client and its connections, one after the other

A connection seen from both sides, and what a client makes of the connections that it has had
(`Caller`).  What comes in on a connection is all that the other side will have sent in the
end, which is not known before it has closed; so what is said of a side at some moment is said
for all that is still possible (`Half.Futures`).

A side of a connection (`Half`) counts the bytes of the other that it has received, and keeps
those that it has sent itself.  Nothing is ever removed from a connection, and so what was said on
it can be told when all is over: that is a `Talk`.  A client that connects again begins a new one,
and the one that it leaves is put to the past ones.  There is a talk for the time before the first
connection too, in which nothing was said.

The handler of a server that takes one connection after the other is run alone on what is sent
on each; `Handles` is the history that this makes.  Histories compose as lists of talks do
(`handles_append`), and so the work of a client that makes many connections can be cut into parts,
and what the server does in the meantime is cut in the same way.
-/

namespace IsrTransfer
namespace Effect

universe u

/-! ## Connections -/

/-- One side of a connection: what it has sent, how many of the bytes of the other side it has
received, and whether it has not closed. -/
structure Half where
  sent : List UInt8
  got : Nat
  isOpen : Bool

structure Conn where
  client : Half
  server : Half

/-- A side on which nothing has happened. -/
def Half.new : Half := ⟨[], 0, true⟩

/-- A connection on which nothing has happened. -/
def Conn.new : Conn := ⟨.new, .new⟩

namespace Half

variable {Op : Type → Type u} {σ ρ : Type} {peer h h' : Half} {op : NetOp Op ρ} {r : ρ}
  {lossy : Bool} {all : List UInt8}

/-- What an operation does to its side of a connection, while the other side is `peer`. -/
def step (lossy : Bool) (peer : Half) : Env (NetOp Op) Half
  | _, h, .send data, r, h' =>
    (h.isOpen = true ∧ ∃ n, 0 < n ∧ n ≤ data.length ∧ r = some n ∧
      h' = { h with sent := h.sent ++ data.take n }) ∨ (lossy ∧ r = none ∧ h' = h)
  | _, h, .recv _ len, r, h' =>
    (∃ n, 0 < n ∧ n ≤ len ∧ n ≤ (peer.sent.drop h.got).length ∧
      r = some ((peer.sent.drop h.got).take n) ∧ h' = { h with got := h.got + n }) ∨
    ((lossy ∨ (peer.isOpen = false ∧ peer.sent.drop h.got = [])) ∧ r = none ∧ h' = h)
  | _, h, .close, _, h' => h' = { h with isOpen := false }
  | _, _, .connect, _, _ => False
  | _, _, .sys _, _, _ => False

/-- What this side may have sent in the end. -/
def Futures (h : Half) (all : List UInt8) : Prop :=
  ∃ more, all = h.sent ++ more ∧ (h.isOpen = true ∨ more = [])

theorem futures_sent (h : Half) : h.Futures h.sent := ⟨[], (List.append_nil _).symm, Or.inr rfl⟩

/-- A step leaves no more possible than before. -/
theorem Futures.of_step (hstep : step lossy peer h op r h') (hall : h'.Futures all) :
    h.Futures all := by
  obtain ⟨more, rfl, hmore⟩ := hall
  cases op with
  | send data =>
    rcases hstep with ⟨hopen, n, -, -, -, rfl⟩ | ⟨-, -, rfl⟩
    · exact ⟨data.take n ++ more, List.append_assoc _ _ _, Or.inl hopen⟩
    · exact ⟨more, rfl, hmore⟩
  | recv room len =>
    rcases hstep with ⟨n, -, -, -, -, rfl⟩ | ⟨-, -, rfl⟩ <;> exact ⟨more, rfl, hmore⟩
  | close =>
    obtain rfl := hstep
    exact ⟨more, rfl, Or.inr (hmore.resolve_left (by simp))⟩
  | connect => exact hstep.elim
  | sys op => exact hstep.elim

/-- What a program sees of its side of a connection on which `input` comes in. -/
def view (h : Half) (s : σ) (input : List UInt8) : Proc σ :=
  ⟨s, input, input.drop h.got, h.sent⟩

/-- A step is one of a process on its own, whatever may still come in. -/
theorem procStep_of_step {E : Env Op σ} (s : σ) (hstep : step lossy peer h op r h')
    (hall : peer.Futures all) : Proc.step E lossy true (h.view s all) op r (h'.view s all) := by
  obtain ⟨more, rfl, hmore⟩ := hall
  cases op with
  | send data =>
    rcases hstep with ⟨-, n, h0, hn, rfl, rfl⟩ | ⟨hl, rfl, rfl⟩
    · exact Or.inl ⟨n, h0, hn, rfl, rfl⟩
    · exact Or.inr ⟨hl, rfl, rfl⟩
  | recv room len =>
    rcases hstep with ⟨n, h0, hlen, hle, rfl, rfl⟩ | ⟨hend, rfl, rfl⟩
    · have hgot : h.got ≤ peer.sent.length := by
        rw [List.length_drop] at hle
        omega
      refine Or.inl ⟨n, h0, hlen, ?_, ?_, ?_⟩
      · rw [view, List.drop_append_of_le_length hgot, List.length_append]
        omega
      · rw [view, List.drop_append_of_le_length hgot, List.take_append_of_le_length hle]
      · rw [view, view, Proc.received, List.drop_drop]
    · refine Or.inr ⟨hend.imp id fun hclosed => ⟨rfl, ?_⟩, rfl, rfl⟩
      obtain rfl : more = [] := hmore.resolve_left (by simp [hclosed.1])
      rw [view, List.append_nil]
      exact hclosed.2
  | close =>
    obtain rfl := hstep
    rfl
  | connect => exact hstep.elim
  | sys op => exact hstep.elim

end Half

/-! ## A client on its own -/

/-- The operation has made a connection. -/
def NetOp.Connects {Op : Type → Type u} : {ρ : Type} → NetOp Op ρ → ρ → Bool
  | _, .connect, r => r
  | _, _, _ => false

/-- What has come in on a connection, and what has been sent. -/
structure Talk where
  down : List UInt8
  up : List UInt8

/-- What a client sees of the world, and what came in and was sent on the connections that it
has had before, the last first.  Before the first connection nothing came in and nothing was
sent; this counts as one too. -/
structure Caller (σ : Type) where
  proc : Proc σ
  past : List Talk

namespace Caller

variable {Op : Type → Type u} {σ ρ α : Type}

/-- A client that has not connected. -/
def start (s : σ) : Caller σ := ⟨.start s [], []⟩

/-- The connection that a client has. -/
def talk (c : Caller σ) : Talk := ⟨c.proc.input, c.proc.tx⟩

/-- The connections of a client, the last first. -/
def talks (c : Caller σ) : List Talk := c.talk :: c.past

/-- What a client may experience. -/
def step (E : Env Op σ) (lossy eof : Bool) : Env (NetOp Op) (Caller σ) := fun _ c op r c' =>
  Proc.step E lossy eof c.proc op r c'.proc ∧ c'.past = if op.Connects r then c.talks else c.past

section Rules

variable {E : Env Op σ} {lossy eof : Bool} {p q : Program (NetOp Op) α} {c c' : Caller σ}

/-- A run is one of the process as well. -/
theorem reaches_proc (h : Reaches (step E lossy eof) p c q c') :
    Reaches (Proc.step E lossy eof) p c.proc q c'.proc := by
  induction h with
  | refl => exact .refl _ _
  | step hstep _ ih => exact .step hstep.1 ih

def Connectless : Guard (NetOp Op) (Proc σ) := fun _ _ op =>
  match op with
  | .connect => False
  | _ => True

/-- A program that does not connect goes on on the connection that there is. -/
theorem ensures_of_connectless {Q : α → Proc σ → Prop}
    (h : Ensures (Proc.step E lossy eof) Connectless p Q c.proc) :
    Ensures (step E lossy eof) Anything p (fun a c' => Q a c'.proc ∧ c'.past = c.past) c := by
  induction p generalizing c with
  | ret a => exact ⟨h, rfl⟩
  | call op k ih =>
    refine ⟨trivial, fun r c' hr => ?_⟩
    have hpast : c'.past = c.past := by
      rw [hr.2]
      cases op with
      | connect => exact h.1.elim
      | _ => rfl
    exact (ih r (h.2 r c'.proc hr.1)).mono fun a v hv => ⟨hv.1, hv.2.trans hpast⟩

/-- A program that does not connect only adds to what has been sent. -/
theorem ensures_prefix_of_connectless {Q : α → Proc σ → Prop} {w : Proc σ}
    (h : Ensures (Proc.step E lossy eof) Connectless p Q w) :
    Ensures (Proc.step E lossy eof) Anything p
      (fun a v => Q a v ∧ v.input = w.input ∧ w.tx <+: v.tx) w := by
  induction p generalizing w with
  | ret a => exact ⟨h, rfl, List.prefix_rfl⟩
  | call op k ih =>
    refine ⟨trivial, fun r v hr => ?_⟩
    have hstep : v.input = w.input ∧ w.tx <+: v.tx := by
      cases op with
      | connect => exact h.1.elim
      | send data =>
        rcases hr with ⟨n, -, -, -, rfl⟩ | ⟨-, -, rfl⟩
        · exact ⟨rfl, List.prefix_append _ _⟩
        · exact ⟨rfl, List.prefix_rfl⟩
      | recv room len =>
        rcases hr with ⟨n, -, -, -, -, rfl⟩ | ⟨-, -, rfl⟩ <;> exact ⟨rfl, List.prefix_rfl⟩
      | close =>
        obtain rfl := hr
        exact ⟨rfl, List.prefix_rfl⟩
      | sys op =>
        obtain ⟨s', -, rfl⟩ := hr
        exact ⟨rfl, List.prefix_rfl⟩
    exact (ih r (h.2 r v hr)).mono fun a u hu =>
      ⟨hu.1, hu.2.1.trans hstep.1, hstep.2.trans hu.2.2⟩

theorem ensures_sys {op : Op ρ} {Q : ρ → Caller σ → Prop}
    (h : ∀ r s', E c.proc.sys op r s' → Q r ⟨c.proc.withSys s', c.past⟩) :
    Ensures (step E lossy eof) Anything (.perform (.sys op)) Q c := by
  rw [ensures_perform]
  refine ⟨trivial, ?_⟩
  rintro r ⟨w, past⟩ ⟨⟨s', hs', rfl⟩, rfl⟩
  exact h r s' hs'

theorem ensures_connect {Q : Bool → Caller σ → Prop}
    (hok : ∀ input, Q true ⟨.start c.proc.sys input, c.talks⟩) (hfail : lossy = true → Q false c) :
    Ensures (step E lossy eof) Anything (.perform .connect) Q c := by
  rw [ensures_perform]
  refine ⟨trivial, ?_⟩
  rintro r ⟨w, past⟩ ⟨⟨rfl, input, rfl⟩ | ⟨hl, rfl, rfl⟩, hpast⟩
  · obtain rfl : past = c.talks := hpast
    exact hok input
  · obtain rfl : past = c.past := hpast
    exact hfail hl

end Rules

end Caller

/-! ## The history of a server -/

section Handles

variable {Op : Type → Type u} {σ β : Type}

/-- The handler `q`, run on each connection alone and to its end, leads from `t` to `t'`. -/
inductive Handles (E : Env Op σ) (lossy : Bool) (q : Program (NetOp Op) β) :
    σ → List Talk → σ → Prop where
  | nil (t : σ) : Handles E lossy q t [] t
  | cons {t t' : σ} {e : Talk} {es : List Talk} {r : β} {w : Proc σ} :
      Reaches (Proc.step E lossy true) q (.start t e.up) (.ret r) w → w.tx = e.down →
      Handles E lossy q w.sys es t' → Handles E lossy q t (e :: es) t'

variable {E : Env Op σ} {lossy : Bool} {q : Program (NetOp Op) β} {t t' : σ} {es es' : List Talk}

theorem handles_append : Handles E lossy q t (es ++ es') t' ↔
    ∃ m, Handles E lossy q t es m ∧ Handles E lossy q m es' t' := by
  constructor
  · intro h
    induction es generalizing t with
    | nil => exact ⟨t, .nil t, h⟩
    | cons e es ih =>
      cases h with
      | cons hrun hdown hrest =>
        obtain ⟨m, hm, hm'⟩ := ih hrest
        exact ⟨m, .cons hrun hdown hm, hm'⟩
  · rintro ⟨m, hm, hm'⟩
    induction hm with
    | nil => exact hm'
    | cons hrun hdown _ ih => exact .cons hrun hdown (ih hm')

end Handles

end Effect
end IsrTransfer
