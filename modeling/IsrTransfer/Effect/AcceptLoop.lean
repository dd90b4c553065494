import IsrTransfer.Effect.Caller
import Mathlib.Data.List.Sort
import Mathlib.Logic.Function.Basic
import Mathlib.Logic.Relation

/-!
# Many clients and a server that takes one connection after the other

Any number of clients, each a program with a system of its own, and a server that runs the
same handler for every connection, in the order in which the connections were made.  A client
may have connected, and have sent what it has to send, long before the server turns to it, and
a client that is done with a connection may go on to the next while the server still works on
the last.  Every step is a step of one client or of the server, in any order; with `lossy` any
operation on a connection may fail besides.

## Serialization

Whatever the interleaving, the server has served the connections one by one: there are states
`T 0`, `T 1`, ... of its system such that the handler for connection `j`, run alone on the
bytes that its client sends, leads from `T j` to `T (j + 1)` and sends what the client
receives (`Serialized.handles`).  And each client has run alone, its connections bringing these
bytes (`Serialized.calls`).

So nothing has to be said about interleavings when it comes to a particular program: what holds
of the runs of a client alone and of the runs of the handler alone holds of all of them together.

## Bytes that are still to come

To run alone a side needs all that comes in on its connection, and while the other side has not
closed, this is not known.  The invariant `Serialized` therefore speaks of every continuation: a
client has run alone with whatever the other sides of its connections may have sent in the end
(`Inputs`).  A step of the other side leaves fewer continuations, so that it keeps what was true
before (`Serialized.of_client`, `Serialized.of_server`), and a step of a side itself is one of
the process alone with each of the continuations (`Half.procStep_of_step`).  What is read off
in the end is the continuation in which nothing more comes.

## Running everything

`turns` computes one of the runs, in which the clients go first and the server last, and a send
or a receive moves all the bytes that it can.  It is there for runs on concrete systems; that it
is a run (`run_turns`) is all that is said about it.
-/

namespace IsrTransfer
namespace Effect

universe u

/-- What the client of a connection has sent, and `down`. -/
def Conn.talk (c : Conn) (down : List UInt8) : Talk := ⟨down, c.client.sent⟩

/-! ## The clients and the server

The state is flat: the programs of the clients, a table of all connections that have been made,
and the server with its position in that table.  Connections have numbers, and the server takes
them in the order of these. -/

/-- A client: its program and its system, and its connections, the last first. -/
structure Party (Op : Type → Type u) (σ α : Type) where
  prog : Program (NetOp Op) α
  sys : σ
  opened : List Nat

/-- The clients, the connections in the order in which they were made, the handler for the
one that the server is at, and the results for those that it has been through. -/
structure AcceptLoop (Op : Type → Type u) (σ ι α β : Type) where
  party : ι → Party Op σ α
  conn : Nat → Conn
  made : Nat
  handler : Program (NetOp Op) β
  sys : σ
  results : List β

namespace AcceptLoop

variable {Op : Type → Type u} {σ ι α β : Type}

def initial (p : ι → Program (NetOp Op) α) (s : ι → σ) (q : Program (NetOp Op) β) (t : σ) :
    AcceptLoop Op σ ι α β :=
  ⟨fun i => ⟨p i, s i, []⟩, fun _ => .new, 0, q, t, []⟩

/-- The connection `j` is now `c`. -/
def setConn (d : AcceptLoop Op σ ι α β) (j : Nat) (c : Conn) : AcceptLoop Op σ ι α β :=
  { d with conn := Function.update d.conn j c }

/-- The client `i` on its own, with `I j` coming in on connection `j`. -/
def caller (d : AcceptLoop Op σ ι α β) (i : ι) (I : Nat → List UInt8) : Caller σ :=
  match (d.party i).opened with
  | [] => .start (d.party i).sys
  | j :: js => ⟨(d.conn j).client.view (d.party i).sys (I j),
      js.map (fun j => (d.conn j).talk (I j)) ++ [⟨[], []⟩]⟩

/-- `I` is what may come in on the connections of the client `i`. -/
def Inputs (d : AcceptLoop Op σ ι α β) (i : ι) (I : Nat → List UInt8) : Prop :=
  ∀ j ∈ (d.party i).opened, (d.conn j).server.Futures (I j)

section Fields

variable {d d' : AcceptLoop Op σ ι α β} {i : ι} {j j' : Nat} {x : Conn} {I : Nat → List UInt8}

@[simp] theorem setConn_same : (d.setConn j x).conn j = x := Function.update_self ..

theorem setConn_other (h : j' ≠ j) : (d.setConn j x).conn j' = d.conn j' :=
  Function.update_of_ne h ..

theorem caller_sys : (d.caller i I).proc.sys = (d.party i).sys := by
  unfold caller
  split <;> rfl

theorem talks_caller : (d.caller i I).talks =
    (d.party i).opened.map (fun j => (d.conn j).talk (I j)) ++ [⟨[], []⟩] := by
  unfold caller
  split
  · next h =>
    rw [h]
    rfl
  · next j js h =>
    rw [h]
    rfl

theorem caller_of_opened {js : List Nat} (h : (d.party i).opened = j :: js) :
    d.caller i I = ⟨(d.conn j).client.view (d.party i).sys (I j),
      js.map (fun j => (d.conn j).talk (I j)) ++ [⟨[], []⟩]⟩ := by
  unfold caller
  rw [h]

/-- What a client sees of the world depends on its system and on its own sides of its
connections. -/
theorem caller_withSys (hopened : (d'.party i).opened = (d.party i).opened)
    (hconn : ∀ j ∈ (d.party i).opened, (d'.conn j).client = (d.conn j).client) :
    d'.caller i I = ⟨(d.caller i I).proc.withSys (d'.party i).sys, (d.caller i I).past⟩ := by
  unfold caller
  rw [hopened]
  cases hjs : (d.party i).opened with
  | nil => rfl
  | cons j js =>
    rw [hjs] at hconn
    have hpast : js.map (fun j => (d'.conn j).talk (I j)) =
        js.map (fun j => (d.conn j).talk (I j)) :=
      List.map_congr_left fun j' hj' => by
        rw [Conn.talk, Conn.talk, hconn j' (List.mem_cons_of_mem _ hj')]
    simp only [hpast, hconn j List.mem_cons_self]
    rfl

theorem caller_congr (hopened : (d'.party i).opened = (d.party i).opened)
    (hsys : (d'.party i).sys = (d.party i).sys)
    (hconn : ∀ j ∈ (d.party i).opened, (d'.conn j).client = (d.conn j).client) :
    d'.caller i I = d.caller i I := by
  rw [caller_withSys hopened hconn, hsys, ← caller_sys (I := I)]
  rfl

end Fields

variable [DecidableEq ι]

/-- The client `i` is now `c`. -/
def setParty (d : AcceptLoop Op σ ι α β) (i : ι) (c : Party Op σ α) : AcceptLoop Op σ ι α β :=
  { d with party := Function.update d.party i c }

@[simp] theorem setParty_same {d : AcceptLoop Op σ ι α β} {i : ι} {c : Party Op σ α} :
    (d.setParty i c).party i = c := Function.update_self ..

theorem setParty_other {d : AcceptLoop Op σ ι α β} {i i' : ι} {c : Party Op σ α} (h : i' ≠ i) :
    (d.setParty i c).party i' = d.party i' := Function.update_of_ne h ..

/-- A client keeps its connections if it is changed in other things. -/
theorem opened_setParty {d : AcceptLoop Op σ ι α β} {i : ι} {c : Party Op σ α}
    (h : c.opened = (d.party i).opened) (i' : ι) :
    ((d.setParty i c).party i').opened = (d.party i').opened := by
  by_cases hi : i' = i
  · subst hi
    rw [setParty_same, h]
  · rw [setParty_other hi]

/-- A step of a client, whose system behaves as `E i` says, or of the server, whose system
behaves as `E'` says and whose handler is `q`. -/
inductive Step (E : ι → Env Op σ) (E' : Env Op σ) (lossy : Bool) (q : Program (NetOp Op) β) :
    AcceptLoop Op σ ι α β → AcceptLoop Op σ ι α β → Prop where
  | clientSys {d : AcceptLoop Op σ ι α β} {i : ι} {ρ : Type} {op : Op ρ}
      {k : ρ → Program (NetOp Op) α} {r : ρ} {s : σ} : (d.party i).prog = .call (.sys op) k →
      E i (d.party i).sys op r s →
      Step E E' lossy q d (d.setParty i { d.party i with prog := k r, sys := s })
  | connect {d : AcceptLoop Op σ ι α β} {i : ι} {k : Bool → Program (NetOp Op) α} :
      (d.party i).prog = .call .connect k →
      Step E E' lossy q d
        { d.setParty i
            { d.party i with prog := k true, opened := d.made :: (d.party i).opened } with
          made := d.made + 1 }
  | unconnected {d : AcceptLoop Op σ ι α β} {i : ι} {k : Bool → Program (NetOp Op) α} :
      lossy = true → (d.party i).prog = .call .connect k →
      Step E E' lossy q d (d.setParty i { d.party i with prog := k false })
  | client {d : AcceptLoop Op σ ι α β} {i : ι} {ρ : Type} {op : NetOp Op ρ}
      {k : ρ → Program (NetOp Op) α} {r : ρ} {j : Nat} {js : List Nat} {x : Half} :
      (d.party i).prog = .call op k → (d.party i).opened = j :: js →
      (d.conn j).server.step lossy (d.conn j).client op r x →
      Step E E' lossy q d
        ((d.setParty i { d.party i with prog := k r }).setConn j { d.conn j with client := x })
  | serverSys {d : AcceptLoop Op σ ι α β} {ρ : Type} {op : Op ρ}
      {k : ρ → Program (NetOp Op) β} {r : ρ} {s : σ} : d.results.length < d.made →
      d.handler = .call (.sys op) k → E' d.sys op r s →
      Step E E' lossy q d { d with handler := k r, sys := s }
  | server {d : AcceptLoop Op σ ι α β} {ρ : Type} {op : NetOp Op ρ}
      {k : ρ → Program (NetOp Op) β} {r : ρ} {x : Half} : d.results.length < d.made →
      d.handler = .call op k →
      (d.conn d.results.length).client.step lossy (d.conn d.results.length).server op r x →
      Step E E' lossy q d ({ d with handler := k r }.setConn d.results.length
        { d.conn d.results.length with server := x })
  | next {d : AcceptLoop Op σ ι α β} {r : β} : d.results.length < d.made → d.handler = .ret r →
      Step E E' lossy q d { d with handler := q, results := d.results ++ [r] }

/-- What is left after any number of steps. -/
abbrev Run (E : ι → Env Op σ) (E' : Env Op σ) (lossy : Bool) (q : Program (NetOp Op) β) :
    AcceptLoop Op σ ι α β → AcceptLoop Op σ ι α β → Prop :=
  Relation.ReflTransGen (Step E E' lossy q)

/-! ## Serialization

`Serialized` is the invariant.  For each client it has a run of that client alone, with the
bytes that have come in as the input of its connections; for each connection that the server has
been through a run of the handler alone, from the state that the handler before has left; and
the same for the handler that is running.  The runs are the same whatever follows on the
connections (`Futures`), so that a step of one party does not disturb the runs of the others. -/

omit [DecidableEq ι] in
/-- How a run looks to each by itself: `T j` is the state in which the server has turned to
connection `j`. -/
structure Serialized (E : ι → Env Op σ) (E' : Env Op σ) (lossy : Bool)
    (p : ι → Program (NetOp Op) α) (s : ι → σ) (q : Program (NetOp Op) β) (t : σ)
    (d : AcceptLoop Op σ ι α β) (T : Nat → σ) : Prop where
  /-- A connection belongs to one client. -/
  below : ∀ i, ∀ j ∈ (d.party i).opened, j < d.made
  sorted : ∀ i, (d.party i).opened.Pairwise (· > ·)
  owner : ∀ i i' j, j ∈ (d.party i).opened → j ∈ (d.party i').opened → i = i'
  owned : ∀ j < d.made, ∃ i, j ∈ (d.party i).opened
  /-- The server takes them in turn. -/
  unmade : ∀ j, d.made ≤ j → d.conn j = .new
  served : d.results.length ≤ d.made
  waiting : ∀ j, d.results.length < j → (d.conn j).server = .new
  /-- Each client runs alone. -/
  clients : ∀ i I, d.Inputs i I → Reaches (Caller.step (E i) lossy true) (p i) (.start (s i))
    (d.party i).prog (d.caller i I)
  /-- Each handler runs alone. -/
  first : T 0 = t
  handled : ∀ j r, d.results[j]? = some r → ∀ input, (d.conn j).client.Futures input →
    Reaches (Proc.step E' lossy true) q (.start (T j) input) (.ret r)
      ((d.conn j).server.view (T (j + 1)) input)
  current : ∀ input, (d.conn d.results.length).client.Futures input →
    Reaches (Proc.step E' lossy true) q (.start (T d.results.length) input) d.handler
      ((d.conn d.results.length).server.view d.sys input)
  idle : d.results.length = d.made → d.sys = T d.results.length

section Serialized

variable {E : ι → Env Op σ} {E' : Env Op σ} {lossy : Bool} {p : ι → Program (NetOp Op) α}
  {s : ι → σ} {q : Program (NetOp Op) β} {t : σ} {d d' : AcceptLoop Op σ ι α β} {T : Nat → σ}
  {i : ι} {I : Nat → List UInt8}

omit [DecidableEq ι] in
theorem serialized_initial : Serialized E E' lossy p s q t (initial p s q t) (fun _ => t) where
  below _ _ h := absurd h List.not_mem_nil
  sorted _ := List.Pairwise.nil
  owner _ _ _ h := absurd h List.not_mem_nil
  owned _ h := absurd h (Nat.not_lt_zero _)
  unmade _ _ := rfl
  served := Nat.le_refl _
  waiting _ _ := rfl
  clients _ _ _ := .refl _ _
  first := rfl
  handled _ _ h := absurd h (by simp [initial])
  current _ _ := .refl _ _
  idle _ := rfl

omit [DecidableEq ι] in
/-- What a client does leaves the server's part as it is, and no more is possible on the
connections than before. -/
theorem Serialized.of_client (h : Serialized E E' lossy p s q t d T)
    (hopened : ∀ i, (d'.party i).opened = (d.party i).opened) (hmade : d'.made = d.made)
    (hhandler : d'.handler = d.handler) (hsys : d'.sys = d.sys) (hresults : d'.results = d.results)
    (hunmade : ∀ j, d.made ≤ j → d'.conn j = d.conn j)
    (hserver : ∀ j, (d'.conn j).server = (d.conn j).server)
    (hfutures : ∀ j all, (d'.conn j).client.Futures all → (d.conn j).client.Futures all)
    (hrun : ∀ i I, d.Inputs i I → Reaches (Caller.step (E i) lossy true) (d.party i).prog
      (d.caller i I) (d'.party i).prog (d'.caller i I)) :
    Serialized E E' lossy p s q t d' T := by
  constructor
  · intro i j hj
    rw [hopened] at hj
    rw [hmade]
    exact h.below i j hj
  · intro i
    rw [hopened]
    exact h.sorted i
  · intro i i' j hj hj'
    rw [hopened] at hj hj'
    exact h.owner i i' j hj hj'
  · intro j hj
    rw [hmade] at hj
    obtain ⟨i, hi⟩ := h.owned j hj
    exact ⟨i, by rwa [hopened]⟩
  · intro j hj
    rw [hmade] at hj
    rw [hunmade j hj]
    exact h.unmade j hj
  · rw [hresults, hmade]
    exact h.served
  · intro j hj
    rw [hresults] at hj
    rw [hserver]
    exact h.waiting j hj
  · intro i I hI
    have hI' : d.Inputs i I := by
      intro j hj
      have hf := hI j (by rwa [hopened])
      rwa [hserver] at hf
    exact (h.clients i I hI').trans (hrun i I hI')
  · exact h.first
  · intro j r hr input hinput
    rw [hresults] at hr
    rw [hserver]
    exact h.handled j r hr input (hfutures j input hinput)
  · intro input hinput
    rw [hresults] at hinput
    rw [hresults, hserver, hhandler, hsys]
    exact h.current input (hfutures _ input hinput)
  · rw [hresults, hmade, hsys]
    exact h.idle

/-- A client whose connections stay as they are. -/
theorem Serialized.setParty (h : Serialized E E' lossy p s q t d T) {c : Party Op σ α}
    (hopened : c.opened = (d.party i).opened)
    (hrun : ∀ I, d.Inputs i I → Reaches (Caller.step (E i) lossy true) (d.party i).prog
      (d.caller i I) c.prog ⟨(d.caller i I).proc.withSys c.sys, (d.caller i I).past⟩) :
    Serialized E E' lossy p s q t (d.setParty i c) T := by
  refine h.of_client (opened_setParty hopened) rfl rfl rfl rfl (fun _ _ => rfl) (fun _ => rfl)
    (fun _ _ hall => hall) fun i' I hI => ?_
  by_cases hi : i' = i
  · subst hi
    rw [caller_withSys (d := d) (opened_setParty hopened i') fun _ _ => rfl, setParty_same]
    exact hrun I hI
  · rw [setParty_other hi, caller_congr (d := d) (opened_setParty hopened i')
      (by rw [setParty_other hi]) fun _ _ => rfl]
    exact .refl _ _

/-- A client goes on on its connection. -/
theorem Serialized.client (h : Serialized E E' lossy p s q t d T) {ρ : Type}
    {op : NetOp Op ρ} {k : ρ → Program (NetOp Op) α} {r : ρ} {j : Nat} {js : List Nat} {x : Half}
    (hprog : (d.party i).prog = .call op k) (hopened : (d.party i).opened = j :: js)
    (hstep : (d.conn j).server.step lossy (d.conn j).client op r x) :
    Serialized E E' lossy p s q t
      ((d.setParty i { d.party i with prog := k r }).setConn j { d.conn j with client := x })
      T := by
  generalize hd : (d.setParty i { d.party i with prog := k r }).setConn j
    { d.conn j with client := x } = d'
  have hj : j ∈ (d.party i).opened := by
    rw [hopened]
    exact List.mem_cons_self
  have hparty : d'.party = (d.setParty i { d.party i with prog := k r }).party := by rw [← hd]; rfl
  have hsame : ∀ i', (d'.party i').opened = (d.party i').opened := by
    rw [hparty]
    exact opened_setParty rfl
  have hconn : d'.conn j = { d.conn j with client := x } := by rw [← hd, setConn_same]
  have hother : ∀ {j'}, j' ≠ j → d'.conn j' = d.conn j' := by
    intro j' hne
    rw [← hd, setConn_other hne]
    rfl
  refine h.of_client hsame (by rw [← hd]; rfl) (by rw [← hd]; rfl) (by rw [← hd]; rfl)
    (by rw [← hd]; rfl) (fun j' hj' => ?_) (fun j' => ?_) (fun j' all hall => ?_)
    fun i' I hI => ?_
  · refine hother fun heq => ?_
    have hlt := h.below i j hj
    omega
  · by_cases hne : j' = j
    · rw [hne, hconn]
    · rw [hother hne]
  · by_cases hne : j' = j
    · rw [hne, hconn] at hall
      rw [hne]
      exact hall.of_step hstep
    · rwa [hother hne] at hall
  · by_cases hi : i' = i
    · subst hi
      have hjs : ∀ j' ∈ js, j' ≠ j := by
        intro j' hj' heq
        have hsorted := h.sorted i'
        rw [hopened] at hsorted
        have hgt := List.rel_of_pairwise_cons hsorted hj'
        omega
      have hpast : js.map (fun j' => (d'.conn j').talk (I j')) =
          js.map (fun j' => (d.conn j').talk (I j')) :=
        List.map_congr_left fun j' hj' => by rw [hother (hjs j' hj')]
      rw [hprog, caller_of_opened hopened, caller_of_opened ((hsame i').trans hopened), hpast,
        hconn, hparty, setParty_same]
      refine .step ⟨Half.procStep_of_step _ hstep (hI j hj), ?_⟩ (.refl _ _)
      cases op with
      | connect => exact hstep.elim
      | sys op => exact hstep.elim
      | _ => rfl
    · have hnot : j ∉ (d.party i').opened := fun hmem => hi (h.owner i' i j hmem hj)
      have hp : d'.party i' = d.party i' := by rw [hparty, setParty_other hi]
      rw [caller_congr (d := d) (hsame i') (by rw [hp]) fun j' hj' => by
        rw [hother fun heq => hnot (heq ▸ hj')], hp]
      exact .refl _ _

theorem Serialized.connect (h : Serialized E E' lossy p s q t d T)
    {k : Bool → Program (NetOp Op) α} (hprog : (d.party i).prog = .call .connect k) :
    Serialized E E' lossy p s q t
      { d.setParty i { d.party i with prog := k true, opened := d.made :: (d.party i).opened } with
        made := d.made + 1 } T := by
  generalize hd : { d.setParty i
    { d.party i with prog := k true, opened := d.made :: (d.party i).opened } with
      made := d.made + 1 } = d'
  have hmade : d'.made = d.made + 1 := by rw [← hd]
  have hconn : d'.conn = d.conn := by rw [← hd]; rfl
  have hresults : d'.results = d.results := by rw [← hd]; rfl
  have hi : d'.party i =
      { d.party i with prog := k true, opened := d.made :: (d.party i).opened } := by
    rw [← hd]
    exact setParty_same
  have hother : ∀ {i'}, i' ≠ i → d'.party i' = d.party i' := by
    intro i' hne
    rw [← hd]
    exact setParty_other hne
  -- what a client has opened it had opened before, or it is the new one
  have hmem : ∀ {i' j}, j ∈ (d'.party i').opened →
      j ∈ (d.party i').opened ∨ i' = i ∧ j = d.made := by
    intro i' j hj
    by_cases hne : i' = i
    · subst hne
      rw [hi] at hj
      exact (List.mem_cons.mp hj).symm.imp id fun heq => ⟨rfl, heq⟩
    · rw [hother hne] at hj
      exact Or.inl hj
  have hkeep : ∀ {i' j}, j ∈ (d.party i').opened → j ∈ (d'.party i').opened := by
    intro i' j hj
    by_cases hne : i' = i
    · subst hne
      rw [hi]
      exact List.mem_cons_of_mem _ hj
    · rwa [hother hne]
  constructor
  case below =>
    intro i' j hj
    rw [hmade]
    rcases hmem hj with hj | ⟨-, rfl⟩
    · exact Nat.lt_succ_of_lt (h.below i' j hj)
    · exact Nat.lt_succ_self _
  case sorted =>
    intro i'
    by_cases hne : i' = i
    · subst hne
      rw [hi]
      exact List.pairwise_cons.mpr ⟨fun j hj => h.below i' j hj, h.sorted i'⟩
    · rw [hother hne]
      exact h.sorted i'
  case owner =>
    intro i₁ i₂ j h₁ h₂
    rcases hmem h₁ with h₁ | ⟨rfl, rfl⟩
    · rcases hmem h₂ with h₂ | ⟨-, rfl⟩
      · exact h.owner i₁ i₂ j h₁ h₂
      · exact absurd (h.below i₁ _ h₁) (Nat.lt_irrefl _)
    · rcases hmem h₂ with h₂ | ⟨rfl, -⟩
      · exact absurd (h.below i₂ _ h₂) (Nat.lt_irrefl _)
      · rfl
  case owned =>
    intro j hj
    rw [hmade] at hj
    rcases Nat.lt_succ_iff_lt_or_eq.mp hj with hj | rfl
    · obtain ⟨i', hi'⟩ := h.owned j hj
      exact ⟨i', hkeep hi'⟩
    · refine ⟨i, ?_⟩
      rw [hi]
      exact List.mem_cons_self
  case unmade =>
    intro j hj
    rw [hmade] at hj
    rw [hconn]
    exact h.unmade j (by omega)
  case served =>
    rw [hresults, hmade]
    exact Nat.le_succ_of_le h.served
  case waiting =>
    intro j hj
    rw [hresults] at hj
    rw [hconn]
    exact h.waiting j hj
  case clients =>
    intro i' I hI
    have hI' : d.Inputs i' I := by
      intro j hj
      have hf := hI j (hkeep hj)
      rwa [hconn] at hf
    have hold := h.clients i' I hI'
    by_cases hne : i' = i
    · subst hne
      have hopened : (d'.party i').opened = d.made :: (d.party i').opened := by rw [hi]
      have htalks : (d.caller i' I).talks = _ := talks_caller
      rw [hprog] at hold
      rw [caller_of_opened hopened, hconn, hi, h.unmade d.made (Nat.le_refl _)]
      refine hold.snoc ⟨Or.inl ⟨rfl, I d.made, ?_⟩, htalks.symm⟩
      rw [caller_sys]
      rfl
    · rw [hother hne, caller_congr (d := d) (by rw [hother hne]) (by rw [hother hne]) fun _ _ => by
        rw [hconn]]
      exact hold
  case first =>
    exact h.first
  case handled =>
    intro j r hr input hinput
    rw [hresults] at hr
    rw [hconn] at hinput ⊢
    exact h.handled j r hr input hinput
  case current =>
    intro input hinput
    have hh : d'.handler = d.handler := by rw [← hd]; rfl
    have hs : d'.sys = d.sys := by rw [← hd]; rfl
    rw [hconn, hresults] at hinput
    rw [hconn, hresults, hh, hs]
    exact h.current input hinput
  case idle =>
    rw [hresults, hmade]
    intro hall
    have hle := h.served
    omega

omit [DecidableEq ι] in
/-- The server goes on with the connection it is at. -/
theorem Serialized.of_server (h : Serialized E E' lossy p s q t d T)
    (hlt : d.results.length < d.made) (hparty : d'.party = d.party) (hmade : d'.made = d.made)
    (hresults : d'.results = d.results)
    (hother : ∀ j, j ≠ d.results.length → d'.conn j = d.conn j)
    (hclient : (d'.conn d.results.length).client = (d.conn d.results.length).client)
    (hfutures : ∀ all, (d'.conn d.results.length).server.Futures all →
      (d.conn d.results.length).server.Futures all)
    (hrun : ∀ input, (d.conn d.results.length).client.Futures input →
      Reaches (Proc.step E' lossy true) d.handler
        ((d.conn d.results.length).server.view d.sys input) d'.handler
        ((d'.conn d.results.length).server.view d'.sys input)) :
    Serialized E E' lossy p s q t d' T := by
  have hclients : ∀ j, (d'.conn j).client = (d.conn j).client := by
    intro j
    by_cases hj : j = d.results.length
    · rw [hj, hclient]
    · rw [hother j hj]
  have hfutures' : ∀ j all, (d'.conn j).server.Futures all → (d.conn j).server.Futures all := by
    intro j all hall
    by_cases hj : j = d.results.length
    · rw [hj] at hall ⊢
      exact hfutures all hall
    · rwa [hother j hj] at hall
  constructor
  · rw [hparty, hmade]
    exact h.below
  · rw [hparty]
    exact h.sorted
  · rw [hparty]
    exact h.owner
  · rw [hparty, hmade]
    exact h.owned
  · intro j hj
    rw [hmade] at hj
    rw [hother j (by omega)]
    exact h.unmade j hj
  · rw [hresults, hmade]
    exact h.served
  · intro j hj
    rw [hresults] at hj
    rw [hother j (by omega)]
    exact h.waiting j hj
  · intro i I hI
    have hI' : d.Inputs i I := fun j hj => hfutures' j _ (hI j (by rwa [hparty]))
    rw [hparty, caller_congr (d := d) (by rw [hparty]) (by rw [hparty]) fun j _ => hclients j]
    exact h.clients i I hI'
  · exact h.first
  · intro j r hr input hinput
    rw [hresults] at hr
    have hj : j < d.results.length := (List.getElem?_eq_some_iff.mp hr).1
    rw [hother j (by omega)] at hinput ⊢
    exact h.handled j r hr input hinput
  · intro input hinput
    rw [hresults, hclient] at hinput
    rw [hresults]
    exact (h.current input hinput).trans (hrun input hinput)
  · rw [hresults, hmade]
    intro hall
    omega

omit [DecidableEq ι] in
/-- The server turns to the next connection. -/
theorem Serialized.next (h : Serialized E E' lossy p s q t d T) {r : β}
    (hlt : d.results.length < d.made) (hret : d.handler = .ret r) :
    Serialized E E' lossy p s q t { d with handler := q, results := d.results ++ [r] }
      (Function.update T (d.results.length + 1) d.sys) := by
  have hlen : (d.results ++ [r]).length = d.results.length + 1 := by simp
  have hT : ∀ j ≤ d.results.length, Function.update T (d.results.length + 1) d.sys j = T j :=
    fun j hj => Function.update_of_ne (by omega) ..
  constructor
  · exact h.below
  · exact h.sorted
  · exact h.owner
  · exact h.owned
  · exact h.unmade
  · simp only [hlen]
    exact hlt
  · intro j hj
    simp only [hlen] at hj
    exact h.waiting j (by omega)
  · exact h.clients
  · rw [hT 0 (Nat.zero_le _)]
    exact h.first
  · intro j r' hr input hinput
    simp only [List.getElem?_append] at hr
    split at hr
    · next hj =>
      rw [hT j (by omega), hT (j + 1) (by omega)]
      exact h.handled j r' hr input hinput
    · next hj =>
      rw [List.getElem?_singleton] at hr
      split at hr
      · obtain rfl := Option.some.inj hr
        obtain rfl : j = d.results.length := by omega
        rw [hT _ (Nat.le_refl _), Function.update_self, ← hret]
        exact h.current input hinput
      · exact absurd hr (by simp)
  · intro input hinput
    simp only [hlen, Function.update_self, h.waiting _ (Nat.lt_succ_self _)]
    exact .refl _ _
  · intro _
    rw [hlen, Function.update_self]

theorem Serialized.step (h : Serialized E E' lossy p s q t d T) (hstep : Step E E' lossy q d d') :
    ∃ T', Serialized E E' lossy p s q t d' T' := by
  cases hstep with
  | @clientSys i ρ op k r s' hprog hr =>
    refine ⟨T, h.setParty rfl fun I _ => ?_⟩
    rw [hprog]
    have hr' : Caller.step (E i) lossy true (d.caller i I) (.sys op) r
        ⟨(d.caller i I).proc.withSys s', (d.caller i I).past⟩ :=
      ⟨⟨s', by rwa [caller_sys], rfl⟩, rfl⟩
    exact .step hr' (.refl _ _)
  | connect hprog => exact ⟨T, h.connect hprog⟩
  | @unconnected i k hlossy hprog =>
    refine ⟨T, h.setParty rfl fun I hI => ?_⟩
    rw [hprog]
    have hr : Caller.step (E i) lossy true (d.caller i I) .connect false
        ⟨(d.caller i I).proc.withSys (d.party i).sys, (d.caller i I).past⟩ :=
      ⟨Or.inr ⟨hlossy, rfl, by rw [← caller_sys (I := I), Proc.withSys_self]⟩, rfl⟩
    exact .step hr (.refl _ _)
  | client hprog hopened hstep => exact ⟨T, h.client hprog hopened hstep⟩
  | @serverSys ρ op k r s' hlt hprog hr =>
    refine ⟨T, h.of_server hlt rfl rfl rfl (fun _ _ => rfl) rfl (fun _ hall => hall)
      fun input _ => ?_⟩
    rw [hprog]
    exact .step ⟨s', hr, rfl⟩ (.refl _ _)
  | @server ρ op k r x hlt hprog hstep =>
    refine ⟨T, h.of_server hlt rfl rfl rfl (fun j hj => setConn_other hj) (by rw [setConn_same])
      (fun all hall => ?_) fun input hinput => ?_⟩
    · rw [setConn_same] at hall
      exact hall.of_step hstep
    · rw [hprog, setConn_same]
      exact .step (Half.procStep_of_step _ hstep hinput) (.refl _ _)
  | next hlt hret => exact ⟨_, h.next hlt hret⟩

/-- **Every run can be taken apart**, into one of each client and one of the handler for each
connection, these one after the other. -/
theorem serialized (h : Run E E' lossy q (initial p s q t) d) :
    ∃ T, Serialized E E' lossy p s q t d T := by
  induction h with
  | refl => exact ⟨_, serialized_initial⟩
  | tail _ hstep ih =>
    obtain ⟨T, hT⟩ := ih
    exact hT.step hstep

/-! ### What it comes to -/

omit [DecidableEq ι] in
/-- What has been sent on connection `j` so far. -/
def talk (d : AcceptLoop Op σ ι α β) (j : Nat) : Talk := (d.conn j).talk (d.conn j).server.sent

omit [DecidableEq ι] in
theorem Serialized.calls (h : Serialized E E' lossy p s q t d T) (i : ι) :
    ∃ c, Reaches (Caller.step (E i) lossy true) (p i) (.start (s i)) (d.party i).prog c ∧
      c.proc.sys = (d.party i).sys ∧ c.talks = (d.party i).opened.map d.talk ++ [⟨[], []⟩] :=
  ⟨_, h.clients i (fun j => (d.conn j).server.sent) fun _ _ => Half.futures_sent _, caller_sys,
    talks_caller⟩

omit [DecidableEq ι] in
/-- The handler has run alone on one connection after the other. -/
theorem Serialized.handles_take (h : Serialized E E' lossy p s q t d T) (n : Nat)
    (hn : n ≤ d.results.length) : Handles E' lossy q t ((List.range n).map d.talk) (T n) := by
  induction n with
  | zero =>
    rw [← h.first]
    exact .nil _
  | succ n ih =>
    rw [List.range_succ, List.map_append, handles_append]
    refine ⟨T n, ih (Nat.le_of_succ_le hn), ?_⟩
    exact .cons (h.handled n _ (List.getElem?_eq_getElem hn) _ (Half.futures_sent _)) rfl (.nil _)

omit [DecidableEq ι] in
theorem Serialized.handles (h : Serialized E E' lossy p s q t d T)
    (hall : d.results.length = d.made) :
    Handles E' lossy q t ((List.range d.made).map d.talk) d.sys := by
  rw [h.idle hall, hall]
  exact h.handles_take d.made hall.ge

omit [DecidableEq ι] in
/-- The connections of the only client there is. -/
theorem Serialized.opened_eq [Unique ι] (h : Serialized E E' lossy p s q t d T) :
    (d.party default).opened = (List.range d.made).reverse := by
  have hsorted : (d.party default).opened.reverse.Pairwise (· < ·) :=
    List.pairwise_reverse.mpr (h.sorted default)
  have hmem : ∀ j, j ∈ (d.party default).opened ↔ j < d.made := by
    refine fun j => ⟨h.below default j, fun hj => ?_⟩
    obtain ⟨i, hi⟩ := h.owned j hj
    rwa [Unique.eq_default i] at hi
  rw [← List.reverse_eq_iff]
  refine List.Perm.eq_of_pairwise' hsorted List.pairwise_lt_range ?_
  have hnodup := hsorted.imp fun h => Nat.ne_of_lt h
  refine (List.perm_ext_iff_of_nodup hnodup List.nodup_range).mpr ?_
  intro j
  rw [List.mem_reverse, hmem, List.mem_range]

end Serialized

/-! ## Running everything

The first of the clients in `is` that can make a step makes it, and the server if none of them
can. This is one schedule of many, and it can be computed. -/

omit [DecidableEq ι] in
/-- What an operation on a connection comes to, unless it has to wait; a send or a receive moves
all the bytes it can. -/
def halfTurn {ρ : Type} (peer h : Half) : NetOp Op ρ → Option (ρ × Half)
  | .send data =>
    if h.isOpen = true ∧ 0 < data.length then
      some (some data.length, { h with sent := h.sent ++ data.take data.length })
    else none
  | .recv _ len =>
    if peer.sent.drop h.got = [] then
      if peer.isOpen = false then some (none, h) else none
    else if 0 < len then
      some (some ((peer.sent.drop h.got).take (min len (peer.sent.drop h.got).length)),
        { h with got := h.got + min len (peer.sent.drop h.got).length })
    else none
  | .close => some ((), { h with isOpen := false })
  | .connect => none
  | .sys _ => none

variable (answer : ⦃ρ : Type⦄ → σ → Op ρ → Option (ρ × σ))

/-- The next step of the client `i`, if it has one; calls of the system are answered by
`answer`. -/
def clientTurn (i : ι) (d : AcceptLoop Op σ ι α β) : Option (AcceptLoop Op σ ι α β) :=
  match (d.party i).prog with
  | .ret _ => none
  | .call (.sys op) k =>
    (answer (d.party i).sys op).map fun rs =>
      d.setParty i { d.party i with prog := k rs.1, sys := rs.2 }
  | .call .connect k =>
    some { d.setParty i
        { d.party i with prog := k true, opened := d.made :: (d.party i).opened } with
      made := d.made + 1 }
  | .call op k =>
    match (d.party i).opened with
    | [] => none
    | j :: _ =>
      (halfTurn (d.conn j).server (d.conn j).client op).map fun rx =>
        (d.setParty i { d.party i with prog := k rx.1 }).setConn j { d.conn j with client := rx.2 }

omit [DecidableEq ι] in
/-- The server's next step, if it has one. -/
def serverTurn (q : Program (NetOp Op) β) (d : AcceptLoop Op σ ι α β) :
    Option (AcceptLoop Op σ ι α β) :=
  if d.results.length < d.made then
    match d.handler with
    | .ret r => some { d with handler := q, results := d.results ++ [r] }
    | .call (.sys op) k =>
      (answer d.sys op).map fun rs => { d with handler := k rs.1, sys := rs.2 }
    | .call op k =>
      (halfTurn (d.conn d.results.length).client (d.conn d.results.length).server op).map fun rx =>
        { d with handler := k rx.1 }.setConn d.results.length
          { d.conn d.results.length with server := rx.2 }
  else none

/-- At most `n` turns, those of the first of the clients first and the server's last. -/
def turns (q : Program (NetOp Op) β) (is : List ι) : (n : Nat) → AcceptLoop Op σ ι α β →
    AcceptLoop Op σ ι α β
  | 0, d => d
  | n + 1, d =>
    match is.findSome? (fun i => clientTurn answer i d) with
    | some d' => turns q is n d'
    | none =>
      match serverTurn answer q d with
      | some d' => turns q is n d'
      | none => d

section Turns

variable {answer : ⦃ρ : Type⦄ → σ → Op ρ → Option (ρ × σ)} {E : ι → Env Op σ} {E' : Env Op σ}
  {lossy : Bool} {q : Program (NetOp Op) β} {d d' : AcceptLoop Op σ ι α β} {i : ι}

omit [DecidableEq ι] in
theorem halfStep_of_halfTurn {peer h h' : Half} {ρ : Type} {op : NetOp Op ρ} {r : ρ}
    (hturn : halfTurn peer h op = some (r, h')) : peer.step lossy h op r h' := by
  cases op with
  | send data =>
    simp only [halfTurn] at hturn
    split at hturn
    · next hok =>
      obtain ⟨rfl, rfl⟩ := Prod.mk.inj (Option.some.inj hturn)
      exact Or.inl ⟨hok.1, _, hok.2, Nat.le_refl _, rfl, rfl⟩
    · exact absurd hturn (by simp)
  | recv room len =>
    simp only [halfTurn] at hturn
    split at hturn
    · next hnil =>
      split at hturn
      · next hclosed =>
        obtain ⟨rfl, rfl⟩ := Prod.mk.inj (Option.some.inj hturn)
        exact Or.inr ⟨Or.inr ⟨hclosed, hnil⟩, rfl, rfl⟩
      · exact absurd hturn (by simp)
    · next hne =>
      split at hturn
      · next hlen =>
        obtain ⟨rfl, rfl⟩ := Prod.mk.inj (Option.some.inj hturn)
        have hpos : 0 < (peer.sent.drop h.got).length := List.length_pos_iff.mpr hne
        exact Or.inl ⟨_, by omega, Nat.min_le_left _ _, Nat.min_le_right _ _, rfl, rfl⟩
      · exact absurd hturn (by simp)
  | close =>
    obtain ⟨rfl, rfl⟩ := Prod.mk.inj (Option.some.inj hturn)
    rfl
  | connect => exact absurd hturn (by simp [halfTurn])
  | sys op => exact absurd hturn (by simp [halfTurn])

theorem step_of_clientTurn
    (hE : ∀ (ρ : Type) s (op : Op ρ) r s', answer s op = some (r, s') → E i s op r s')
    (h : clientTurn answer i d = some d') : Step E E' lossy q d d' := by
  unfold clientTurn at h
  split at h
  · exact absurd h (by simp)
  · next op k hprog =>
    obtain ⟨⟨r, s'⟩, hr, rfl⟩ := Option.map_eq_some_iff.mp h
    exact .clientSys hprog (hE _ _ _ _ _ hr)
  · next k hprog =>
    obtain rfl := Option.some.inj h
    exact .connect hprog
  · next op k hprog =>
    split at h
    · exact absurd h (by simp)
    · next j js hopened =>
      obtain ⟨⟨r, x⟩, hr, rfl⟩ := Option.map_eq_some_iff.mp h
      exact .client hprog hopened (halfStep_of_halfTurn hr)

theorem step_of_serverTurn
    (hE' : ∀ (ρ : Type) s (op : Op ρ) r s', answer s op = some (r, s') → E' s op r s')
    (h : serverTurn answer q d = some d') : Step E E' lossy q d d' := by
  unfold serverTurn at h
  split at h
  · next hlt =>
    split at h
    · next r hret =>
      obtain rfl := Option.some.inj h
      exact .next hlt hret
    · next op k hprog =>
      obtain ⟨⟨r, s'⟩, hr, rfl⟩ := Option.map_eq_some_iff.mp h
      exact .serverSys hlt hprog (hE' _ _ _ _ _ hr)
    · next op k hprog =>
      obtain ⟨⟨r, x⟩, hr, rfl⟩ := Option.map_eq_some_iff.mp h
      exact .server hlt hprog (halfStep_of_halfTurn hr)
  · exact absurd h (by simp)

/-- **What is computed is a run**, for every environment that allows the answers. -/
theorem run_turns
    (hE : ∀ i (ρ : Type) s (op : Op ρ) r s', answer s op = some (r, s') → E i s op r s')
    (hE' : ∀ (ρ : Type) s (op : Op ρ) r s', answer s op = some (r, s') → E' s op r s')
    (is : List ι) (n : Nat) : Run E E' lossy q d (turns answer q is n d) := by
  induction n generalizing d with
  | zero => exact .refl
  | succ n ih =>
    rw [turns]
    split
    · next d' hc =>
      obtain ⟨i, -, hi⟩ := List.exists_of_findSome?_eq_some hc
      exact .head (step_of_clientTurn (hE i) hi) ih
    · split
      · next d' hs => exact .head (step_of_serverTurn hE' hs) ih
      · exact .refl

end Turns

end AcceptLoop

end Effect
end IsrTransfer
