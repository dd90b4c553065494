import IsrTransfer.Effect.Wire
import Mathlib.Logic.Relation

/-!
# Two processes and the connection between them

A client and a server, each a program with a system of its own, and two reliable byte queues.  The
server is a handler that has been started for one connection and waits for it.  Every step is a
step of one of the two; a send appends to a queue, a receive takes from one, and reports the end
of the stream only when the queue is empty and the other side has closed.

Nothing here is about a particular protocol.  `Op` is the type of the calls of the two systems,
and their answers are given by `E` and `E'`.

## From the whole to the parts

Whatever the interleaving, each of the two sees a run of its own (`localRuns`): the client a run
in which the server's bytes so far, and any others after them, are what the peer sends; and the
same for the server.  So a statement about both at once follows from one about each.
`not_deadlocked` is the rule for deadlocks: say of each side what it may have sent and received
when it waits for more, and show that the two do not fit together.

## Running both

`turns` lets the two take turns, with a function that answers their calls, and what it computes is
a run (`run_turns`).  That two sides do get stuck can so be shown by evaluation, since
`Deadlocked` is decidable.
-/

namespace IsrTransfer
namespace Effect

universe u

/-- A client, a server and the bytes in flight. -/
structure Duplex (Op : Type → Type u) (σ α β : Type) where
  client : Program (NetOp Op) α
  clientSys : σ
  server : Program (NetOp Op) β
  serverSys : σ
  toServer : List UInt8
  toClient : List UInt8
  connected : Bool
  clientOpen : Bool
  serverOpen : Bool

namespace Duplex

variable {Op : Type → Type u} {σ α β : Type}

/-- Both are about to begin. -/
def initial (p : Program (NetOp Op) α) (s : σ) (q : Program (NetOp Op) β) (t : σ) :
    Duplex Op σ α β :=
  ⟨p, s, q, t, [], [], false, false, false⟩

/-- A step of either side; `E` is the client's system and `E'` the server's. -/
inductive Step (E E' : Env Op σ) : Duplex Op σ α β → Duplex Op σ α β → Prop where
  | clientSys {d : Duplex Op σ α β} {ρ : Type} {op : Op ρ} {k : ρ → Program (NetOp Op) α}
      {r : ρ} {s : σ} : d.client = .call (.sys op) k → E d.clientSys op r s →
      Step E E' d { d with client := k r, clientSys := s }
  | connect {d : Duplex Op σ α β} {k : Bool → Program (NetOp Op) α} :
      d.client = .call .connect k → d.connected = false →
      Step E E' d
        { d with client := k true, connected := true, clientOpen := true, serverOpen := true }
  | clientSend {d : Duplex Op σ α β} {data : List UInt8} {n : Nat}
      {k : Option Nat → Program (NetOp Op) α} : d.client = .call (.send data) k →
      d.clientOpen = true → 0 < n → n ≤ data.length →
      Step E E' d { d with client := k (some n), toServer := d.toServer ++ data.take n }
  | clientRecv {d : Duplex Op σ α β} {room len n : Nat}
      {k : Option (List UInt8) → Program (NetOp Op) α} : d.client = .call (.recv room len) k →
      d.connected = true → 0 < n → n ≤ len → n ≤ d.toClient.length →
      Step E E' d
        { d with client := k (some (d.toClient.take n)), toClient := d.toClient.drop n }
  | clientEof {d : Duplex Op σ α β} {room len : Nat}
      {k : Option (List UInt8) → Program (NetOp Op) α} : d.client = .call (.recv room len) k →
      d.connected = true → d.serverOpen = false → d.toClient = [] →
      Step E E' d { d with client := k none }
  | clientClose {d : Duplex Op σ α β} {k : Unit → Program (NetOp Op) α} :
      d.client = .call .close k → Step E E' d { d with client := k (), clientOpen := false }
  | serverSys {d : Duplex Op σ α β} {ρ : Type} {op : Op ρ} {k : ρ → Program (NetOp Op) β}
      {r : ρ} {s : σ} : d.server = .call (.sys op) k → d.connected = true →
      E' d.serverSys op r s → Step E E' d { d with server := k r, serverSys := s }
  | serverSend {d : Duplex Op σ α β} {data : List UInt8} {n : Nat}
      {k : Option Nat → Program (NetOp Op) β} : d.server = .call (.send data) k →
      d.connected = true → d.serverOpen = true → 0 < n → n ≤ data.length →
      Step E E' d { d with server := k (some n), toClient := d.toClient ++ data.take n }
  | serverRecv {d : Duplex Op σ α β} {room len n : Nat}
      {k : Option (List UInt8) → Program (NetOp Op) β} : d.server = .call (.recv room len) k →
      d.connected = true → 0 < n → n ≤ len → n ≤ d.toServer.length →
      Step E E' d
        { d with server := k (some (d.toServer.take n)), toServer := d.toServer.drop n }
  | serverEof {d : Duplex Op σ α β} {room len : Nat}
      {k : Option (List UInt8) → Program (NetOp Op) β} : d.server = .call (.recv room len) k →
      d.connected = true → d.clientOpen = false → d.toServer = [] →
      Step E E' d { d with server := k none }
  | serverClose {d : Duplex Op σ α β} {k : Unit → Program (NetOp Op) β} :
      d.server = .call .close k → d.connected = true →
      Step E E' d { d with server := k (), serverOpen := false }

/-- What is left after any number of steps. -/
abbrev Run (E E' : Env Op σ) : Duplex Op σ α β → Duplex Op σ α β → Prop :=
  Relation.ReflTransGen (Step E E')

/-- The next operation is a receive. -/
def Awaits : Program (NetOp Op) α → Prop
  | .call (.recv _ _) _ => True
  | _ => False

/-- Both sides wait to receive, nothing is in flight, and the connection stands. -/
def Deadlocked (d : Duplex Op σ α β) : Prop :=
  d.clientOpen = true ∧ d.serverOpen = true ∧ d.toClient = [] ∧ d.toServer = [] ∧
    Awaits d.client ∧ Awaits d.server

/-! ## Local runs

There is one step lemma, with a case for each thing that either side can do, and the run lemma
by induction.  The bytes that a side has sent are in the other side's input from the beginning
of its run; that it had not sent them yet when the other side began does not show, since no
answer depends on bytes that have not been received. -/

/-- What each side sees of a run.  Before the connection stands, the server has not
begun; afterwards `up` and `down` are the bytes the client and the server have sent, and
each side runs alone with those of the other as its input, and with any others after
them as long as the other side has not closed. -/
inductive LocalRuns (E E' : Env Op σ) (p : Program (NetOp Op) α) (s : σ)
    (q : Program (NetOp Op) β) (t : σ) (d : Duplex Op σ α β) : Prop where
  | before : d.connected = false → d.server = q → d.serverSys = t → d.toServer = [] →
      d.toClient = [] → d.clientOpen = false →
      Reaches (Proc.step E false true) p (Proc.start s []) d.client (Proc.start d.clientSys []) →
      LocalRuns E E' p s q t d
  | after (up down : List UInt8) : d.connected = true →
      (∀ more, d.serverOpen = true ∨ more = [] →
        Reaches (Proc.step E false true) p (Proc.start s []) d.client
          ⟨d.clientSys, down ++ more, d.toClient ++ more, up⟩) →
      (∀ more, d.clientOpen = true ∨ more = [] →
        Reaches (Proc.step E' false true) q (Proc.start t (up ++ more)) d.server
          ⟨d.serverSys, up ++ more, d.toServer ++ more, down⟩) →
      LocalRuns E E' p s q t d

section LocalRuns

variable {E E' : Env Op σ} {p : Program (NetOp Op) α} {s t : σ} {q : Program (NetOp Op) β}

theorem localRuns_step {d d' : Duplex Op σ α β} (h : LocalRuns E E' p s q t d)
    (hstep : Step E E' d d') : LocalRuns E E' p s q t d' := by
  cases h with
  | before hconn hq ht hup hdown hclosed hrun =>
    cases hstep with
    | clientSys hc hr =>
      rw [hc] at hrun
      exact .before hconn hq ht hup hdown hclosed (hrun.snoc ⟨_, hr, rfl⟩)
    | connect hc _ =>
      -- from here on the server may send anything
      rw [hc] at hrun
      refine .after [] [] rfl (fun more _ => ?_) fun more _ => ?_
      · rw [hdown]
        exact hrun.snoc (Or.inl ⟨rfl, more, rfl⟩)
      · rw [hup, hq, ht]
        exact .refl _ _
    | clientSend _ hopen => exact absurd (hclosed.symm.trans hopen) (by decide)
    | clientRecv _ hconn' => exact absurd (hconn.symm.trans hconn') (by decide)
    | clientEof _ hconn' => exact absurd (hconn.symm.trans hconn') (by decide)
    | clientClose hc =>
      rw [hc] at hrun
      exact .before hconn hq ht hup hdown rfl (hrun.snoc rfl)
    | serverSys _ hconn' => exact absurd (hconn.symm.trans hconn') (by decide)
    | serverSend _ hconn' => exact absurd (hconn.symm.trans hconn') (by decide)
    | serverRecv _ hconn' => exact absurd (hconn.symm.trans hconn') (by decide)
    | serverEof _ hconn' => exact absurd (hconn.symm.trans hconn') (by decide)
    | serverClose _ hconn' => exact absurd (hconn.symm.trans hconn') (by decide)
  | after up down hconn hclient hserver =>
    cases hstep with
    | clientSys hc hr =>
      rw [hc] at hclient
      refine .after up down hconn (fun more hm => ?_) hserver
      exact (hclient more hm).snoc ⟨_, hr, rfl⟩
    | connect _ hconn' => exact absurd (hconn.symm.trans hconn') (by decide)
    | @clientSend data n _ hc hopen h0 hn =>
      rw [hc] at hclient
      refine .after (up ++ data.take n) down hconn (fun more hm => ?_) fun more _ => ?_
      · exact (hclient more hm).snoc (Or.inl ⟨_, h0, hn, rfl, rfl⟩)
      · have h := hserver (data.take n ++ more) (Or.inl hopen)
        rwa [← List.append_assoc, ← List.append_assoc] at h
    | @clientRecv _ _ n _ hc _ h0 hn hle =>
      rw [hc] at hclient
      refine .after up down hconn (fun more hm => ?_) hserver
      refine (hclient more hm).snoc (Or.inl ⟨n, h0, hn, ?_, ?_, ?_⟩)
      · rw [List.length_append]
        omega
      · rw [List.take_append_of_le_length hle]
      · rw [Proc.received, List.drop_append_of_le_length hle]
    | clientEof hc _ hclosed hnil =>
      rw [hc] at hclient
      refine .after up down hconn (fun more hm => ?_) hserver
      obtain rfl : more = [] := hm.resolve_left (by simp [hclosed])
      exact (hclient [] (Or.inr rfl)).snoc (Or.inr ⟨Or.inr ⟨rfl, by simp [hnil]⟩, rfl, rfl⟩)
    | clientClose hc =>
      rw [hc] at hclient
      refine .after up down hconn (fun more hm => (hclient more hm).snoc rfl) fun more hm => ?_
      exact hserver more (Or.inr (hm.resolve_left (by simp)))
    | serverSys hc _ hr =>
      rw [hc] at hserver
      exact .after up down hconn hclient fun more hm => (hserver more hm).snoc ⟨_, hr, rfl⟩
    | @serverSend data n _ hc _ hopen h0 hn =>
      rw [hc] at hserver
      refine .after up (down ++ data.take n) hconn (fun more _ => ?_) fun more hm => ?_
      · have h := hclient (data.take n ++ more) (Or.inl hopen)
        rwa [← List.append_assoc, ← List.append_assoc] at h
      · exact (hserver more hm).snoc (Or.inl ⟨_, h0, hn, rfl, rfl⟩)
    | @serverRecv _ _ n _ hc _ h0 hn hle =>
      rw [hc] at hserver
      refine .after up down hconn hclient fun more hm => ?_
      refine (hserver more hm).snoc (Or.inl ⟨n, h0, hn, ?_, ?_, ?_⟩)
      · rw [List.length_append]
        omega
      · rw [List.take_append_of_le_length hle]
      · rw [Proc.received, List.drop_append_of_le_length hle]
    | serverEof hc _ hclosed hnil =>
      rw [hc] at hserver
      refine .after up down hconn hclient fun more hm => ?_
      obtain rfl : more = [] := hm.resolve_left (by simp [hclosed])
      exact (hserver [] (Or.inr rfl)).snoc (Or.inr ⟨Or.inr ⟨rfl, by simp [hnil]⟩, rfl, rfl⟩)
    | serverClose hc _ =>
      rw [hc] at hserver
      refine .after up down hconn (fun more hm => ?_) fun more hm => (hserver more hm).snoc rfl
      exact hclient more (Or.inr (hm.resolve_left (by simp)))

/-- **Every run of the two is a run of each.**  Whatever is shown of one side for all inputs
holds of that side in every interleaving. -/
theorem localRuns {d : Duplex Op σ α β} (h : Run E E' (initial p s q t) d) :
    LocalRuns E E' p s q t d := by
  induction h with
  | refl => exact .before rfl rfl rfl rfl rfl rfl (.refl _ _)
  | tail _ hstep ih => exact localRuns_step ih hstep

/-- What holds where a program waits with nothing left to receive. -/
def Stuck (C : (received sent : List UInt8) → Prop) : Guard (NetOp Op) (Proc σ) :=
  fun _ w op => Proc.Waiting w op → C w.input w.tx

theorem stuck_awaits {C : List UInt8 → List UInt8 → Prop} {Q : α → Proc σ → Prop}
    {p : Program (NetOp Op) α} {w : Proc σ} (h : Here (Stuck C) Q p w) (hp : Awaits p)
    (hrx : w.rx = []) : C w.input w.tx := by
  cases p with
  | ret a => exact hp.elim
  | call op k =>
    cases op with
    | recv room len => exact h hrx
    | connect => exact hp.elim
    | send data => exact hp.elim
    | close => exact hp.elim
    | sys op => exact hp.elim

/-- **The rule for deadlocks.**  When the client waits, `C` holds of what it has received
and sent; when the server waits, `D` does; and no bytes satisfy both. -/
theorem not_deadlocked {C D : List UInt8 → List UInt8 → Prop} {Q : α → Proc σ → Prop}
    {Q' : List UInt8 → β → Proc σ → Prop}
    (hclient : Ensures (Proc.step E false true) (Stuck C) p Q (Proc.start s []))
    (hserver : ∀ up, Ensures (Proc.step E' false true) (Stuck D) q (Q' up) (Proc.start t up))
    (hno : ∀ up down, C down up → D up down → False) {d : Duplex Op σ α β}
    (h : Run E E' (initial p s q t) d) : ¬ Deadlocked d := by
  rintro ⟨hopen, -, hdown, hup, hc, hs⟩
  cases localRuns h with
  | before _ _ _ _ _ hclosed => exact absurd (hclosed.symm.trans hopen) (by decide)
  | after up down _ hrun hrun' =>
    have hrun := hrun [] (Or.inr rfl)
    have hrun' := hrun' [] (Or.inr rfl)
    simp only [List.append_nil] at hrun hrun'
    have hC := stuck_awaits (hclient.of_reaches hrun).here hc hdown
    have hD := stuck_awaits ((hserver up).of_reaches hrun').here hs hup
    exact hno up down hC hD

end LocalRuns

/-! ## Running both

For examples: the two take turns, and the calls of the systems are answered by a function. -/

variable (answer : ⦃ρ : Type⦄ → σ → Op ρ → Option (ρ × σ))

/-- The client's next step, if it has one; calls of the system are answered by
`answer`, and a send or a receive moves all the bytes it can. -/
def clientTurn (d : Duplex Op σ α β) : Option (Duplex Op σ α β) :=
  match d.client with
  | .ret _ => none
  | .call (.sys op) k =>
    (answer d.clientSys op).map fun rs => { d with client := k rs.1, clientSys := rs.2 }
  | .call .connect k =>
    if d.connected = false then
      some { d with client := k true, connected := true, clientOpen := true, serverOpen := true }
    else none
  | .call (.send data) k =>
    if d.clientOpen = true ∧ 0 < data.length then
      some { d with
        client := k (some data.length)
        toServer := d.toServer ++ data.take data.length }
    else none
  | .call (.recv _ len) k =>
    if d.connected = true then
      if d.toClient = [] then
        if d.serverOpen = false then some { d with client := k none } else none
      else if 0 < len then
        some { d with
          client := k (some (d.toClient.take (min len d.toClient.length)))
          toClient := d.toClient.drop (min len d.toClient.length) }
      else none
    else none
  | .call .close k => some { d with client := k (), clientOpen := false }

/-- The server's next step, if it has one. -/
def serverTurn (d : Duplex Op σ α β) : Option (Duplex Op σ α β) :=
  if d.connected = true then
    match d.server with
    | .ret _ => none
    | .call (.sys op) k =>
      (answer d.serverSys op).map fun rs => { d with server := k rs.1, serverSys := rs.2 }
    | .call .connect _ => none
    | .call (.send data) k =>
      if d.serverOpen = true ∧ 0 < data.length then
        some { d with
          server := k (some data.length)
          toClient := d.toClient ++ data.take data.length }
      else none
    | .call (.recv _ len) k =>
      if d.toServer = [] then
        if d.clientOpen = false then some { d with server := k none } else none
      else if 0 < len then
        some { d with
          server := k (some (d.toServer.take (min len d.toServer.length)))
          toServer := d.toServer.drop (min len d.toServer.length) }
      else none
    | .call .close k => some { d with server := k (), serverOpen := false }
  else none

/-- At most `n` turns, the client's first. -/
def turns : (n : Nat) → Duplex Op σ α β → Duplex Op σ α β
  | 0, d => d
  | n + 1, d =>
    match clientTurn answer d with
    | some d' => turns n d'
    | none =>
      match serverTurn answer d with
      | some d' => turns n d'
      | none => d

section Turns

variable {answer : ⦃ρ : Type⦄ → σ → Op ρ → Option (ρ × σ)} {E E' : Env Op σ}
variable {d d' : Duplex Op σ α β}

theorem step_of_clientTurn
    (hE : ∀ (ρ : Type) s (op : Op ρ) r s', answer s op = some (r, s') → E s op r s')
    (h : clientTurn answer d = some d') : Step E E' d d' := by
  unfold clientTurn at h
  split at h
  · exact absurd h (by simp)
  · rename_i op k hc
    obtain ⟨⟨r, s'⟩, hr, rfl⟩ := Option.map_eq_some_iff.mp h
    exact .clientSys hc (hE _ _ _ _ _ hr)
  · rename_i k hc
    split at h
    · obtain rfl := Option.some.inj h
      exact .connect hc ‹_›
    · exact absurd h (by simp)
  · rename_i data k hc
    split at h
    · rename_i hok
      obtain rfl := Option.some.inj h
      exact .clientSend hc hok.1 hok.2 (Nat.le_refl _)
    · exact absurd h (by simp)
  · rename_i room len k hc
    split at h
    · rename_i hconn
      split at h
      · rename_i hnil
        split at h
        · obtain rfl := Option.some.inj h
          exact .clientEof hc hconn ‹_› hnil
        · exact absurd h (by simp)
      · rename_i hne
        split at h
        · obtain rfl := Option.some.inj h
          have hpos : 0 < d.toClient.length := List.length_pos_iff.mpr hne
          exact .clientRecv hc hconn (by omega) (Nat.min_le_left _ _) (Nat.min_le_right _ _)
        · exact absurd h (by simp)
    · exact absurd h (by simp)
  · rename_i k hc
    obtain rfl := Option.some.inj h
    exact .clientClose hc

theorem step_of_serverTurn
    (hE : ∀ (ρ : Type) s (op : Op ρ) r s', answer s op = some (r, s') → E' s op r s')
    (h : serverTurn answer d = some d') : Step E E' d d' := by
  unfold serverTurn at h
  split at h
  · rename_i hconn
    split at h
    · exact absurd h (by simp)
    · rename_i op k hc
      obtain ⟨⟨r, s'⟩, hr, rfl⟩ := Option.map_eq_some_iff.mp h
      exact .serverSys hc hconn (hE _ _ _ _ _ hr)
    · exact absurd h (by simp)
    · rename_i data k hc
      split at h
      · rename_i hok
        obtain rfl := Option.some.inj h
        exact .serverSend hc hconn hok.1 hok.2 (Nat.le_refl _)
      · exact absurd h (by simp)
    · rename_i room len k hc
      split at h
      · rename_i hnil
        split at h
        · obtain rfl := Option.some.inj h
          exact .serverEof hc hconn ‹_› hnil
        · exact absurd h (by simp)
      · rename_i hne
        split at h
        · obtain rfl := Option.some.inj h
          have hpos : 0 < d.toServer.length := List.length_pos_iff.mpr hne
          exact .serverRecv hc hconn (by omega) (Nat.min_le_left _ _) (Nat.min_le_right _ _)
        · exact absurd h (by simp)
    · rename_i k hc
      obtain rfl := Option.some.inj h
      exact .serverClose hc hconn
  · exact absurd h (by simp)

/-- **What is computed is a run**, for every pair of environments that allow the answers. -/
theorem run_turns
    (hE : ∀ (ρ : Type) s (op : Op ρ) r s', answer s op = some (r, s') → E s op r s')
    (hE' : ∀ (ρ : Type) s (op : Op ρ) r s', answer s op = some (r, s') → E' s op r s')
    (n : Nat) : Run E E' d (turns answer n d) := by
  induction n generalizing d with
  | zero => exact .refl
  | succ n ih =>
    rw [turns]
    split
    · rename_i d' hc
      exact .head (step_of_clientTurn hE hc) ih
    · split
      · rename_i d' hs
        exact .head (step_of_serverTurn hE' hs) ih
      · exact .refl

end Turns

instance : DecidablePred (@Awaits Op α) := fun p =>
  match p with
  | .ret _ => isFalse id
  | .call (.recv _ _) _ => isTrue trivial
  | .call (.sys _) _ => isFalse id
  | .call .connect _ => isFalse id
  | .call (.send _) _ => isFalse id
  | .call .close _ => isFalse id

instance (d : Duplex Op σ α β) : Decidable (Deadlocked d) :=
  inferInstanceAs (Decidable (d.clientOpen = true ∧ d.serverOpen = true ∧ d.toClient = [] ∧
    d.toServer = [] ∧ Awaits d.client ∧ Awaits d.server))

end Duplex

end Effect
end IsrTransfer
