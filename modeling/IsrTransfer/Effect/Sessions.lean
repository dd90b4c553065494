import IsrTransfer.Effect.AcceptLoop
import IsrTransfer.Effect.Duplex

/-!
# One session for each connection

Clients that connect once at most, any number of them, and a server that takes one connection
after the other.  Whatever the interleaving, what a client and the server do on their
connection is a run of the two alone, the server beginning where it had ended on the connection
before (`sessions`).  This is more than is known from `AcceptLoop`: there each side runs alone
against bytes, and here the two run against each other, so that a theorem about all complete runs
of a pair (`Duplex.Run`) can be used as it is.

## Where a client is

The connection of a client may be one that the server has not got to, the one that it is at, or
one that it is through with, and a client may go on in all three (`Placed`).  In each of them the
client has had a run with a server that is at its beginning, in the middle, or at its end.  A step
of the server moves the one client that is at its connection (`Placed.server`), the turn to the
next connection moves two of them (`Placed.next`), and for all others nothing changes
(`Placed.congr`).

## Programs that connect once

That a program connects once is a property of its text, which is why it is defined on programs and
not on runs (`Dials`): until it has connected it only uses its system, and afterwards it does
everything but connect.  Connections do not break here, as they do not in `Duplex`; a receive
fails when the other side has closed and everything that it sent has been received.

## The order of the connections

Connections are numbered as they are made, and they keep their numbers (`opened_of_run`).  So the
order of the sessions can be compared with what has happened before what.
-/

namespace IsrTransfer
namespace Effect

universe u

section Only

variable {Op : Type → Type u} {σ ρ α β : Type}

/-! ## Programs that connect once -/

/-- Every operation that the program can come to is such a one. -/
def Only (A : ⦃ρ : Type⦄ → Op ρ → Prop) : Program Op α → Prop
  | .ret _ => True
  | .call op k => A op ∧ ∀ r, Only A (k r)

section Rules

variable {A : ⦃ρ : Type⦄ → Op ρ → Prop} {p : Program Op α} {f : α → Program Op β}

theorem only_pure (a : α) : Only A (pure a : Program Op α) := trivial

theorem only_perform {op : Op ρ} (h : A op) : Only A (.perform op) := ⟨h, fun _ => trivial⟩

theorem Only.bind (h : Only A p) (hf : ∀ a, Only A (f a)) : Only A (p >>= f) := by
  rw [Program.bind_eq]
  induction p with
  | ret a => exact hf a
  | call op k ih => exact ⟨h.1, fun r => ih r (h.2 r)⟩

end Rules

/-- The operation does not connect. -/
def NetOp.Online : ⦃ρ : Type⦄ → NetOp Op ρ → Prop
  | _, .connect => False
  | _, _ => True

/-- Until the program has connected it only uses its system, and afterwards it does not connect
again.  If it does not connect, what it returns satisfies `P`. -/
def Dials (P : α → Prop) : Program (NetOp Op) α → Prop
  | .ret a => P a
  | .call (.sys _) k => ∀ r, Dials P (k r)
  | .call .connect k => Only NetOp.Online (k true)
  | .call _ _ => False

theorem dials_sys {P : α → Prop} {op : Op ρ} {f : ρ → Program (NetOp Op) α}
    (h : ∀ r, Dials P (f r)) : Dials P (.perform (.sys op) >>= f) := h

theorem dials_connect {P : α → Prop} {f : Bool → Program (NetOp Op) α}
    (h : Only NetOp.Online (f true)) : Dials P (.perform .connect >>= f) := h

end Only

namespace Half

variable {Op : Type → Type u} {ρ : Type} {lossy : Bool} {peer h h' : Half} {op : NetOp Op ρ} {r : ρ}

/-- What has been sent stays sent. -/
theorem sent_le_of_step (hstep : step lossy peer h op r h') : h.sent.length ≤ h'.sent.length := by
  cases op with
  | send data =>
    rcases hstep with ⟨-, n, -, -, -, rfl⟩ | ⟨-, -, rfl⟩
    · rw [List.length_append]
      exact Nat.le_add_right _ _
    · exact Nat.le_refl _
  | recv room len =>
    rcases hstep with ⟨n, -, -, -, -, rfl⟩ | ⟨-, -, rfl⟩ <;> exact Nat.le_refl _
  | close =>
    obtain rfl := hstep
    exact Nat.le_refl _
  | connect => exact hstep.elim
  | sys op => exact hstep.elim

/-- No more is received than was sent. -/
theorem got_le_of_step (hle : h.got ≤ peer.sent.length) (hstep : step lossy peer h op r h') :
    h'.got ≤ peer.sent.length := by
  cases op with
  | send data => rcases hstep with ⟨-, n, -, -, -, rfl⟩ | ⟨-, -, rfl⟩ <;> exact hle
  | recv room len =>
    rcases hstep with ⟨n, -, -, hn, -, rfl⟩ | ⟨-, -, rfl⟩
    · rw [List.length_drop] at hn
      show h.got + n ≤ peer.sent.length
      omega
    · exact hle
  | close =>
    obtain rfl := hstep
    exact hle
  | connect => exact hstep.elim
  | sys op => exact hstep.elim

end Half

namespace AcceptLoop

variable {Op : Type → Type u} {σ ι α β : Type}

/-! ## What happens on a connection

A client that connects once takes part in one session, the one on its connection, and what the
two sides do there are steps of a `Duplex`.  `Placed` says where a client is: it has not
connected; or it waits to be served; or the server is at its connection; or the server has been
there. -/

/-- The client `i` on the connection `j`, and a server that is at `q` and `t` there. -/
def duplex (d : AcceptLoop Op σ ι α β) (i : ι) (j : Nat) (q : Program (NetOp Op) β) (t : σ) :
    Duplex Op σ α β where
  client := (d.party i).prog
  clientSys := (d.party i).sys
  server := q
  serverSys := t
  toServer := (d.conn j).client.sent.drop (d.conn j).server.got
  toClient := (d.conn j).server.sent.drop (d.conn j).client.got
  connected := true
  clientOpen := (d.conn j).client.isOpen
  serverOpen := (d.conn j).server.isOpen

/-- Nobody has received more than was sent. -/
def Sound (d : AcceptLoop Op σ ι α β) : Prop :=
  ∀ j, (d.conn j).server.got ≤ (d.conn j).client.sent.length ∧
    (d.conn j).client.got ≤ (d.conn j).server.sent.length

/-- The client's part of a session, from its beginning to where it is on the connection `j`, with
a server that began with `q` at `t` and is at `q'` and `t'`. -/
def Session (E E' : Env Op σ) (p : Program (NetOp Op) α) (s : σ) (q : Program (NetOp Op) β) (t : σ)
    (d : AcceptLoop Op σ ι α β) (i : ι) (j : Nat) (q' : Program (NetOp Op) β) (t' : σ) : Prop :=
  Duplex.Run E E' (.initial p s q t) (d.duplex i j q' t')

inductive Placed (P : α → Prop) (E E' : Env Op σ) (p : Program (NetOp Op) α) (s : σ)
    (q : Program (NetOp Op) β) (d : AcceptLoop Op σ ι α β) (T : Nat → σ) (i : ι) : Prop where
  | before : (d.party i).opened = [] → Dials P (d.party i).prog →
      (∀ t, Duplex.Run E E' (.initial p s q t) (.initial (d.party i).prog (d.party i).sys q t)) →
      Placed P E E' p s q d T i
  | waiting {j : Nat} : (d.party i).opened = [j] → Only NetOp.Online (d.party i).prog →
      d.results.length < j → (∀ t, Session E E' p s q t d i j q t) → Placed P E E' p s q d T i
  | current {j : Nat} : (d.party i).opened = [j] → Only NetOp.Online (d.party i).prog →
      d.results.length = j → Session E E' p s q (T j) d i j d.handler d.sys →
      Placed P E E' p s q d T i
  | served {j : Nat} {r : β} : (d.party i).opened = [j] → Only NetOp.Online (d.party i).prog →
      d.results[j]? = some r → Session E E' p s q (T j) d i j (.ret r) (T (j + 1)) →
      Placed P E E' p s q d T i

section Steps

variable {E E' : Env Op σ} {d d' : AcceptLoop Op σ ι α β} {i : ι} {j : Nat} {ρ : Type}
  {q q' : Program (NetOp Op) β} {t t' : σ} {p : Program (NetOp Op) α} {s : σ} {T : Nat → σ}
  {P : α → Prop}

/-- The client makes a step on the connection. -/
theorem duplexStep_client {op : NetOp Op ρ} {k : ρ → Program (NetOp Op) α} {r : ρ} {x : Half}
    (hsound : d.Sound) (hprog : (d.party i).prog = .call op k)
    (hstep : (d.conn j).server.step false (d.conn j).client op r x)
    (hprog' : (d'.party i).prog = k r) (hsys : (d'.party i).sys = (d.party i).sys)
    (hconn : d'.conn j = { d.conn j with client := x }) :
    Duplex.Step E E' (d.duplex i j q t) (d'.duplex i j q t) := by
  have heq : d'.duplex i j q t =
      { d.duplex i j q t with
        client := k r
        toServer := x.sent.drop (d.conn j).server.got
        toClient := (d.conn j).server.sent.drop x.got
        clientOpen := x.isOpen } := by
    rw [duplex, duplex, hprog', hsys, hconn]
  rw [heq]
  cases op with
  | send data =>
    rcases hstep with ⟨hopen, n, h0, hn, rfl, rfl⟩ | ⟨hlossy, -⟩
    · rw [List.drop_append_of_le_length (hsound j).1]
      exact .clientSend hprog hopen h0 hn
    · exact absurd hlossy (by simp)
  | recv room len =>
    rcases hstep with ⟨n, h0, hlen, hle, rfl, rfl⟩ | ⟨hend, rfl, rfl⟩
    · have h : Duplex.Step E E' (d.duplex i j q t) _ := .clientRecv hprog rfl h0 hlen hle
      rw [show (d.duplex i j q t).toClient = (d.conn j).server.sent.drop (d.conn j).client.got from
        rfl, List.drop_drop] at h
      exact h
    · obtain ⟨hclosed, hnil⟩ := hend.resolve_left (by simp)
      exact .clientEof hprog rfl hclosed hnil
  | close =>
    obtain rfl := hstep
    exact .clientClose hprog
  | connect => exact hstep.elim
  | sys op => exact hstep.elim

/-- The server makes a step on the connection. -/
theorem duplexStep_server {op : NetOp Op ρ} {k : ρ → Program (NetOp Op) β} {r : ρ} {x : Half}
    (hsound : d.Sound) (hstep : (d.conn j).client.step false (d.conn j).server op r x)
    (hparty : d'.party i = d.party i) (hconn : d'.conn j = { d.conn j with server := x }) :
    Duplex.Step E E' (d.duplex i j (.call op k) t) (d'.duplex i j (k r) t) := by
  have heq : d'.duplex i j (k r) t =
      { d.duplex i j (.call op k) t with
        server := k r
        toServer := (d.conn j).client.sent.drop x.got
        toClient := x.sent.drop (d.conn j).client.got
        serverOpen := x.isOpen } := by
    rw [duplex, duplex, hparty, hconn]
  rw [heq]
  cases op with
  | send data =>
    rcases hstep with ⟨hopen, n, h0, hn, rfl, rfl⟩ | ⟨hlossy, -⟩
    · rw [List.drop_append_of_le_length (hsound j).2]
      exact .serverSend rfl rfl hopen h0 hn
    · exact absurd hlossy (by simp)
  | recv room len =>
    rcases hstep with ⟨n, h0, hlen, hle, rfl, rfl⟩ | ⟨hend, rfl, rfl⟩
    · have h : Duplex.Step E E' (d.duplex i j (.call (.recv room len) k) t) _ :=
        .serverRecv rfl rfl h0 hlen hle
      rw [show (d.duplex i j (.call (.recv room len) k) t).toServer =
        (d.conn j).client.sent.drop (d.conn j).server.got from rfl, List.drop_drop] at h
      exact h
    · obtain ⟨hclosed, hnil⟩ := hend.resolve_left (by simp)
      exact .serverEof rfl rfl hclosed hnil
  | close =>
    obtain rfl := hstep
    exact .serverClose rfl rfl
  | connect => exact hstep.elim
  | sys op => exact hstep.elim

theorem duplex_congr (hparty : d'.party i = d.party i) (hconn : d'.conn j = d.conn j) :
    d'.duplex i j q t = d.duplex i j q t := by
  rw [duplex, duplex, hparty, hconn]

/-- A client that has connected does not connect again. -/
theorem Placed.online (h : Placed P E E' p s q d T i) (hne : (d.party i).opened ≠ []) :
    ∃ j, (d.party i).opened = [j] ∧ Only NetOp.Online (d.party i).prog := by
  cases h with
  | before hnil => exact absurd hnil hne
  | @waiting j hopened honline => exact ⟨j, hopened, honline⟩
  | @current j hopened honline => exact ⟨j, hopened, honline⟩
  | @served j r hopened honline => exact ⟨j, hopened, honline⟩

/-- Nothing has happened that the client takes part in. -/
theorem Placed.congr (h : Placed P E E' p s q d T i) (hparty : d'.party i = d.party i)
    (hconn : ∀ j, (d.party i).opened = [j] → d'.conn j = d.conn j)
    (hresults : d'.results = d.results)
    (hat : (d.party i).opened = [d.results.length] → d'.handler = d.handler ∧ d'.sys = d.sys) :
    Placed P E E' p s q d' T i := by
  cases h with
  | before hnil hdials hrun =>
    rw [← hparty] at hnil hdials hrun
    exact .before hnil hdials hrun
  | @waiting j hopened honline hlt hrun =>
    refine .waiting (hparty ▸ hopened) (hparty ▸ honline) (hresults ▸ hlt) fun t => ?_
    rw [Session, duplex_congr hparty (hconn j hopened)]
    exact hrun t
  | @current j hopened honline heq hrun =>
    obtain ⟨hhandler, hsys⟩ := hat (heq ▸ hopened)
    refine .current (hparty ▸ hopened) (hparty ▸ honline) (hresults ▸ heq) ?_
    rw [Session, duplex_congr hparty (hconn j hopened), hhandler, hsys]
    exact hrun
  | @served j r hopened honline hr hrun =>
    refine .served (hparty ▸ hopened) (hparty ▸ honline) (hresults ▸ hr) ?_
    rw [Session, duplex_congr hparty (hconn j hopened)]
    exact hrun

/-- The client makes a step on the connection that it has. -/
theorem Placed.client (h : Placed P E E' p s q d T i) (hne : (d.party i).opened ≠ [])
    (hopened' : (d'.party i).opened = (d.party i).opened)
    (honline' : Only NetOp.Online (d'.party i).prog) (hresults : d'.results = d.results)
    (hhandler : d'.handler = d.handler) (hsys : d'.sys = d.sys)
    (hstep : ∀ j, (d.party i).opened = [j] → ∀ q t,
      Duplex.Step E E' (d.duplex i j q t) (d'.duplex i j q t)) :
    Placed P E E' p s q d' T i := by
  cases h with
  | before hnil => exact absurd hnil hne
  | @waiting j hopened _ hlt hrun =>
    exact .waiting (hopened'.trans hopened) honline' (hresults ▸ hlt) fun t =>
      (hrun t).tail (hstep j hopened _ _)
  | @current j hopened _ heq hrun =>
    refine .current (hopened'.trans hopened) honline' (hresults ▸ heq) ?_
    rw [hhandler, hsys]
    exact hrun.tail (hstep j hopened _ _)
  | @served j r hopened _ hr hrun =>
    exact .served (hopened'.trans hopened) honline' (hresults ▸ hr)
      (hrun.tail (hstep j hopened _ _))

/-- The server makes a step on the connection that it is at. -/
theorem Placed.server (h : Placed P E E' p s q d T i)
    (hat : (d.party i).opened = [d.results.length])
    (hparty : d'.party i = d.party i) (hresults : d'.results = d.results)
    (hstep : Duplex.Step E E' (d.duplex i d.results.length d.handler d.sys)
      (d'.duplex i d.results.length d'.handler d'.sys)) :
    Placed P E E' p s q d' T i := by
  have hj : ∀ {j}, (d.party i).opened = [j] → j = d.results.length := fun hopened =>
    List.singleton_inj.mp (hopened.symm.trans hat)
  cases h with
  | before hnil => exact absurd (hnil.symm.trans hat) (by simp)
  | waiting hopened _ hlt =>
    have heq := hj hopened
    omega
  | current hopened honline heq hrun =>
    subst heq
    refine .current (hparty ▸ hopened) (hparty ▸ honline) (hresults ▸ rfl) ?_
    exact hrun.tail hstep
  | served hopened _ hr =>
    have hlt := (List.getElem?_eq_some_iff.mp hr).1
    have heq := hj hopened
    omega

/-- The server turns to the next connection. -/
theorem Placed.next (h : Placed P E E' p s q d T i) {r : β} (hret : d.handler = .ret r)
    (hparty : d'.party i = d.party i) (hconn : d'.conn = d.conn)
    (hresults : d'.results = d.results ++ [r]) (hhandler : d'.handler = q) (hsys : d'.sys = d.sys) :
    Placed P E E' p s q d' (Function.update T (d.results.length + 1) d.sys) i := by
  have hlen : d'.results.length = d.results.length + 1 := by simp [hresults]
  have hold : ∀ {j}, j ≤ d.results.length →
      Function.update T (d.results.length + 1) d.sys j = T j := fun hj =>
    Function.update_of_ne (by omega) ..
  have hduplex : ∀ {j q t}, d'.duplex i j q t = d.duplex i j q t :=
    duplex_congr hparty (congrFun hconn _)
  cases h with
  | before hnil hdials hrun =>
    rw [← hparty] at hnil hdials hrun
    exact .before hnil hdials hrun
  | @waiting j hopened honline hlt hrun =>
    rcases Nat.lt_or_eq_of_le (Nat.succ_le_of_lt hlt) with hlt' | heq
    · refine .waiting (hparty ▸ hopened) (hparty ▸ honline) (hlen ▸ hlt') fun t => ?_
      rw [Session, hduplex]
      exact hrun t
    · refine .current (hparty ▸ hopened) (hparty ▸ honline) (hlen.trans heq) ?_
      rw [Session, hduplex, hhandler, hsys, ← heq, Function.update_self]
      exact heq ▸ hrun d.sys
  | @current j hopened honline heq hrun =>
    refine .served (r := r) (hparty ▸ hopened) (hparty ▸ honline) ?_ ?_
    · rw [hresults, ← heq, List.getElem?_concat_length]
    · rw [Session, hduplex, hold heq.ge, ← heq, Function.update_self, ← hret]
      exact heq ▸ hrun
  | @served j r' hopened honline hr hrun =>
    have hlt := (List.getElem?_eq_some_iff.mp hr).1
    refine .served (r := r') (hparty ▸ hopened) (hparty ▸ honline) ?_ ?_
    · rw [hresults, List.getElem?_append_left hlt, hr]
    · rw [Session, hduplex, hold hlt.le, hold hlt]
      exact hrun

end Steps

/-! ## Whole runs

`Sessions` says of every client where it is.  The lemmas go through the steps of the accept
loop: a step of one client moves that client on in its session, a step of the server moves the
client it is serving, and nobody else. -/

/-- Every client is where a run of it with the server leads; `T j` is the state in which the
server has turned to connection `j`. -/
structure Sessions (P : α → Prop) (E : ι → Env Op σ) (E' : Env Op σ)
    (p : ι → Program (NetOp Op) α) (s : ι → σ) (q : Program (NetOp Op) β) (t : σ)
    (d : AcceptLoop Op σ ι α β) (T : Nat → σ) : Prop where
  first : T 0 = t
  sound : d.Sound
  idle : d.results.length = d.made → d.handler = q ∧ d.sys = T d.made
  clients : ∀ i, Placed P (E i) E' (p i) (s i) q d T i

section Runs

variable [DecidableEq ι] {E : ι → Env Op σ} {E' : Env Op σ} {p : ι → Program (NetOp Op) α}
  {s : ι → σ} {q : Program (NetOp Op) β} {t : σ} {d d' : AcceptLoop Op σ ι α β} {T : Nat → σ}
  {i : ι} {P : α → Prop}

omit [DecidableEq ι] in
theorem sessions_initial (hp : ∀ i, Dials P (p i)) :
    Sessions P E E' p s q t (initial p s q t) (fun _ => t) where
  first := rfl
  sound _ := ⟨Nat.le_refl _, Nat.le_refl _⟩
  idle _ := ⟨rfl, rfl⟩
  clients i := .before rfl (hp i) fun _ => .refl

omit [DecidableEq ι] in
theorem Sound.setConn (h : d.Sound) {j : Nat} {c : Conn}
    (hc : c.server.got ≤ c.client.sent.length ∧ c.client.got ≤ c.server.sent.length) :
    (d.setConn j c).Sound := by
  intro j'
  by_cases hj : j' = j
  · rw [hj, setConn_same]
    exact hc
  · rw [setConn_other hj]
    exact h j'

/-- A client whose system changes. -/
theorem Sessions.clientSys (h : Sessions P E E' p s q t d T) {ρ : Type} {op : Op ρ}
    {k : ρ → Program (NetOp Op) α} {r : ρ} {s' : σ} (hprog : (d.party i).prog = .call (.sys op) k)
    (hr : E i (d.party i).sys op r s') :
    Sessions P E E' p s q t (d.setParty i { d.party i with prog := k r, sys := s' }) T := by
  refine ⟨h.first, h.sound, h.idle, fun i' => ?_⟩
  by_cases hi : i' = i
  swap
  · exact (h.clients i').congr (setParty_other hi) (fun _ _ => rfl) rfl fun _ => ⟨rfl, rfl⟩
  subst hi
  by_cases hnil : (d.party i').opened = []
  · cases h.clients i' with
    | before _ hdials hrun =>
      rw [hprog] at hdials hrun
      refine .before ?_ ?_ fun t => ?_
      · rw [setParty_same]
        exact hnil
      · rw [setParty_same]
        exact hdials r
      · rw [setParty_same]
        exact (hrun t).tail (.clientSys rfl hr)
    | waiting hopened => exact absurd (hnil.symm.trans hopened) (by simp)
    | current hopened => exact absurd (hnil.symm.trans hopened) (by simp)
    | served hopened => exact absurd (hnil.symm.trans hopened) (by simp)
  · obtain ⟨j, hj, honline⟩ := (h.clients i').online hnil
    rw [hprog] at honline
    refine (h.clients i').client hnil (by rw [setParty_same]) ?_ rfl rfl rfl fun j' hj' q t => ?_
    · rw [setParty_same]
      exact honline.2 r
    · have hstep : Duplex.Step (E i') E' (d.duplex i' j' q t) _ := .clientSys hprog hr
      rw [duplex, duplex, setParty_same]
      exact hstep

theorem Sessions.connect (h : Sessions P E E' p s q t d T) (hserved : d.results.length ≤ d.made)
    (hnew : d.conn d.made = .new) {k : Bool → Program (NetOp Op) α}
    (hprog : (d.party i).prog = .call .connect k) :
    Sessions P E E' p s q t
      { d.setParty i { d.party i with prog := k true, opened := d.made :: (d.party i).opened } with
        made := d.made + 1 } T := by
  generalize hd : { d.setParty i
    { d.party i with prog := k true, opened := d.made :: (d.party i).opened } with
    made := d.made + 1 } = d'
  have hother : ∀ i', i' ≠ i → d'.party i' = d.party i' := by
    intro i' hi
    rw [← hd]
    exact setParty_other hi
  have hparty : d'.party i =
      { d.party i with prog := k true, opened := d.made :: (d.party i).opened } := by
    rw [← hd]
    exact setParty_same
  have hconn : d'.conn = d.conn := by rw [← hd]; rfl
  have hresults : d'.results = d.results := by rw [← hd]; rfl
  have hmade : d'.made = d.made + 1 := by rw [← hd]
  have hhandler : d'.handler = d.handler := by rw [← hd]; rfl
  have hsys : d'.sys = d.sys := by rw [← hd]; rfl
  refine ⟨h.first, fun j => by rw [hconn]; exact h.sound j, fun hidle => ?_, fun i' => ?_⟩
  · rw [hresults, hmade] at hidle
    omega
  by_cases hi : i' = i
  swap
  · exact (h.clients i').congr (hother i' hi) (fun j _ => congrFun hconn j) hresults
      fun _ => ⟨hhandler, hsys⟩
  subst hi
  cases h.clients i' with
  | before hnil hdials hrun =>
    rw [hprog] at hdials hrun
    have hopened : (d'.party i').opened = [d.made] := by rw [hparty, hnil]
    have honline : Only NetOp.Online (d'.party i').prog := by
      rw [hparty]
      exact hdials
    have hsession : ∀ t, Session (E i') E' (p i') (s i') q t d' i' d.made q t := by
      intro t
      refine (hrun t).tail ?_
      have hstep : Duplex.Step (E i') E' (.initial (.call .connect k) (d.party i').sys q t) _ :=
        .connect rfl rfl
      rw [duplex, hparty, hconn, hnew]
      exact hstep
    rcases Nat.lt_or_eq_of_le hserved with hlt | heq
    · exact .waiting hopened honline (hresults ▸ hlt) hsession
    · obtain ⟨hq, ht⟩ := h.idle heq
      refine .current hopened honline (hresults ▸ heq) ?_
      rw [hhandler, hsys, hq, ht]
      exact hsession _
  | waiting _ honline => exact absurd (hprog ▸ honline).1 id
  | current _ honline => exact absurd (hprog ▸ honline).1 id
  | served _ honline => exact absurd (hprog ▸ honline).1 id

/-- A client goes on on its connection. -/
theorem Sessions.client (h : Sessions P E E' p s q t d T)
    (howner : ∀ i i' j, j ∈ (d.party i).opened → j ∈ (d.party i').opened → i = i') {ρ : Type}
    {op : NetOp Op ρ} {k : ρ → Program (NetOp Op) α} {r : ρ} {j : Nat} {js : List Nat} {x : Half}
    (hprog : (d.party i).prog = .call op k) (hopened : (d.party i).opened = j :: js)
    (hstep : (d.conn j).server.step false (d.conn j).client op r x) :
    Sessions P E E' p s q t
      ((d.setParty i { d.party i with prog := k r }).setConn j { d.conn j with client := x })
      T := by
  have hne : (d.party i).opened ≠ [] := by
    rw [hopened]
    exact List.cons_ne_nil _ _
  refine ⟨h.first, ?_, h.idle, fun i' => ?_⟩
  · have hsound : (d.setParty i { d.party i with prog := k r }).Sound := h.sound
    refine hsound.setConn ?_
    exact ⟨(h.sound j).1.trans (Half.sent_le_of_step hstep),
      Half.got_le_of_step (h.sound j).2 hstep⟩
  by_cases hi : i' = i
  swap
  · refine (h.clients i').congr (setParty_other hi) (fun j' hj' => setConn_other ?_) rfl
      fun _ => ⟨rfl, rfl⟩
    rintro rfl
    exact hi (howner i' i j' (hj' ▸ List.mem_singleton_self j') (hopened ▸ List.mem_cons_self))
  subst hi
  have hparty : ((d.setParty i' { d.party i' with prog := k r }).setConn j
      { d.conn j with client := x }).party i' = { d.party i' with prog := k r } := setParty_same
  obtain ⟨j', hj', honline⟩ := (h.clients i').online hne
  rw [hprog] at honline
  refine (h.clients i').client hne (by rw [hparty]) ?_ rfl rfl rfl fun j'' hj'' q t => ?_
  · rw [hparty]
    exact honline.2 r
  · obtain rfl : j = j'' := (List.cons.inj (hopened.symm.trans hj'')).1
    exact duplexStep_client h.sound hprog hstep (by rw [hparty]) (by rw [hparty]) setConn_same

omit [DecidableEq ι] in
/-- The server makes a step in its own system. -/
theorem Sessions.serverSys (h : Sessions P E E' p s q t d T) (hlt : d.results.length < d.made)
    {ρ : Type} {op : Op ρ} {k : ρ → Program (NetOp Op) β} {r : ρ} {t' : σ}
    (hprog : d.handler = .call (.sys op) k) (hr : E' d.sys op r t') :
    Sessions P E E' p s q t { d with handler := k r, sys := t' } T := by
  refine ⟨h.first, h.sound, fun hidle => absurd hidle hlt.ne, fun i => ?_⟩
  by_cases hat : (d.party i).opened = [d.results.length]
  · refine (h.clients i).server hat rfl rfl ?_
    have hstep : Duplex.Step (E i) E' (d.duplex i d.results.length d.handler d.sys) _ :=
      .serverSys hprog rfl hr
    exact hstep
  · exact (h.clients i).congr rfl (fun _ _ => rfl) rfl fun h => absurd h hat

omit [DecidableEq ι] in
/-- The server goes on on the connection. -/
theorem Sessions.server (h : Sessions P E E' p s q t d T) (hlt : d.results.length < d.made)
    {ρ : Type} {op : NetOp Op ρ} {k : ρ → Program (NetOp Op) β} {r : ρ} {x : Half}
    (hprog : d.handler = .call op k)
    (hstep : (d.conn d.results.length).client.step false (d.conn d.results.length).server op r x) :
    Sessions P E E' p s q t ({ d with handler := k r }.setConn d.results.length
      { d.conn d.results.length with server := x }) T := by
  refine ⟨h.first, ?_, fun hidle => absurd hidle hlt.ne, fun i => ?_⟩
  · have hsound : Sound { d with handler := k r } := h.sound
    refine hsound.setConn ?_
    exact ⟨Half.got_le_of_step (h.sound d.results.length).1 hstep,
      (h.sound d.results.length).2.trans (Half.sent_le_of_step hstep)⟩
  by_cases hat : (d.party i).opened = [d.results.length]
  · refine (h.clients i).server hat rfl rfl ?_
    rw [hprog]
    exact duplexStep_server h.sound hstep rfl setConn_same
  · refine (h.clients i).congr rfl (fun j hj => setConn_other ?_) rfl fun h => absurd h hat
    rintro rfl
    exact hat hj

theorem Sessions.step (h : Sessions P E E' p s q t d T)
    (hrun : Run E E' false q (initial p s q t) d) (hstep : Step E E' false q d d') :
    ∃ T', Sessions P E E' p s q t d' T' := by
  obtain ⟨_, hserial⟩ := serialized hrun
  cases hstep with
  | clientSys hprog hr => exact ⟨T, h.clientSys hprog hr⟩
  | connect hprog =>
    exact ⟨T, h.connect hserial.served (hserial.unmade _ (Nat.le_refl _)) hprog⟩
  | unconnected hlossy => exact absurd hlossy (by decide)
  | client hprog hopened hstep => exact ⟨T, h.client hserial.owner hprog hopened hstep⟩
  | serverSys hlt hprog hr => exact ⟨T, h.serverSys hlt hprog hr⟩
  | server hlt hprog hstep => exact ⟨T, h.server hlt hprog hstep⟩
  | @next r hlt hret =>
    refine ⟨Function.update T (d.results.length + 1) d.sys, ?_, h.sound, fun hidle => ?_,
      fun i => (h.clients i).next hret rfl rfl rfl rfl rfl⟩
    · rw [Function.update_of_ne (by omega)]
      exact h.first
    · refine ⟨rfl, ?_⟩
      rw [List.length_append, List.length_singleton] at hidle
      rw [← hidle, Function.update_self]

/-- **Every run is made of sessions.**  The clients are programs that connect once; the
network does not fail. -/
theorem sessions (hp : ∀ i, Dials P (p i)) (h : Run E E' false q (initial p s q t) d) :
    ∃ T, Sessions P E E' p s q t d T := by
  induction h with
  | refl => exact ⟨_, sessions_initial hp⟩
  | tail hrun hstep ih =>
    obtain ⟨T, hT⟩ := ih
    exact hT.step hrun hstep

/-! ## The order of the connections -/

theorem opened_of_step {lossy : Bool} (h : Step E E' lossy q d d') : d.made ≤ d'.made ∧
    ∀ i, ∃ js, (d'.party i).opened = js ++ (d.party i).opened ∧ ∀ j ∈ js, d.made ≤ j := by
  have hsame : ∀ {d' : AcceptLoop Op σ ι α β},
      (∀ i, (d'.party i).opened = (d.party i).opened) → ∀ i, ∃ js : List Nat,
        (d'.party i).opened = js ++ (d.party i).opened ∧ ∀ j ∈ js, d.made ≤ j :=
    fun h i => ⟨[], h i, fun _ hj => absurd hj List.not_mem_nil⟩
  cases h with
  | clientSys => exact ⟨Nat.le_refl _, hsame (opened_setParty rfl)⟩
  | @connect i k =>
    refine ⟨Nat.le_succ _, fun i' => ?_⟩
    by_cases hi : i' = i
    · subst hi
      refine ⟨[d.made], ?_, fun j hj => (List.mem_singleton.mp hj).ge⟩
      show ((d.setParty i' _).party i').opened = _
      rw [setParty_same]
      rfl
    · refine ⟨[], ?_, fun j hj => absurd hj List.not_mem_nil⟩
      show ((d.setParty i _).party i').opened = _
      rw [setParty_other hi]
      rfl
  | unconnected => exact ⟨Nat.le_refl _, hsame (opened_setParty rfl)⟩
  | client => exact ⟨Nat.le_refl _, hsame (opened_setParty rfl)⟩
  | serverSys => exact ⟨Nat.le_refl _, hsame fun _ => rfl⟩
  | server => exact ⟨Nat.le_refl _, hsame fun _ => rfl⟩
  | next => exact ⟨Nat.le_refl _, hsame fun _ => rfl⟩

/-- **Connections keep their numbers**, and those that are made later have greater ones. -/
theorem opened_of_run {lossy : Bool} (h : Run E E' lossy q d d') : d.made ≤ d'.made ∧
    ∀ i, ∃ js, (d'.party i).opened = js ++ (d.party i).opened ∧ ∀ j ∈ js, d.made ≤ j := by
  induction h with
  | refl => exact ⟨Nat.le_refl _, fun i => ⟨[], rfl, fun _ hj => absurd hj List.not_mem_nil⟩⟩
  | tail _ hstep ih =>
    obtain ⟨hmade, hopened⟩ := ih
    obtain ⟨hmade', hopened'⟩ := opened_of_step hstep
    refine ⟨hmade.trans hmade', fun i => ?_⟩
    obtain ⟨js, heq, hjs⟩ := hopened i
    obtain ⟨js', heq', hjs'⟩ := hopened' i
    refine ⟨js' ++ js, by rw [heq', heq, List.append_assoc], fun j hj => ?_⟩
    rcases List.mem_append.mp hj with hj | hj
    · exact hmade.trans (hjs' j hj)
    · exact hjs j hj

end Runs

end AcceptLoop

end Effect
end IsrTransfer
