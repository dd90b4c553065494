import IsrTransfer.ClientDials
import IsrTransfer.FileStore

/-!
# Many clients at once

The server takes one connection after the other, but the clients do not wait for each other: any
number of them, each with a request of its own, connect and send while the server is still busy
with another, and may have returned before it gets to them.  When it has been through all
connections that were made, and the clients that made them have returned, it has been a store of
files for all of them together (`concurrent_fileStore`).

## The order of the sessions

What the clients have done can be told one after the other, in the order in which they have
connected; the order in which they return does not matter.  `Linearized` is this account of the
first `n` connections.  Each stands for a session, that is, for a complete run of the client and
of the handler against each other and of nobody else, which begins with the files that the
sessions before it have left, and does what a session by itself should do.  `SessionOf` says
whose it is: the request, what the client has returned and what the handler has returned are
those of the run with everybody in it.

So every upload that succeeded is seen by the downloads after it.  And the order is that of real
time where this means something: a client that connects when another has already connected comes
after it.  A client that has not connected has not succeeded, since every operation connects, and
only once (`Request.dials_program`).

## What is assumed

Files and memory do not fail on either side, nobody else changes what is served, and what the
clients ask for fits into the fields of the messages, as in `FileStore`.  Connections may deliver
in pieces of any size, but they do not break.

## The argument

`AcceptLoop.sessions` takes the run apart: it gives the states of the server between two
connections, and says of each client which connection it has had and that the two have talked
about nothing else on it.  A client that has returned, and whose connection the server is through
with, has thereby had a session (`runs_of_placed`).  Each session is a correct one if it begins
with files as they are promised, and then it leaves such files; so the sessions are found one by
one (`linearized_of_sessions`), by induction on the number of connections.
-/

namespace IsrTransfer

open Effect Posix

variable {ι : Type} {F G : Faults} {L : Lz4} {root : List UInt8} {l : Loc} {t : Sys}
  {req : ι → Request} {fuel : ι → Nat} {fuel' : Nat} {s : ι → Sys}
  {d : AcceptLoop OsOp Sys ι Int Int}

/-- Every operation connects once, and fails if it does not connect at all. -/
theorem Request.dials_program (request : Request) (n : Nat) :
    Dials (· ≠ 0) (request.program L n) := by
  cases request with
  | sendFile remotePath localFile flags blockSize => exact dials_isrCliSendFile _ _ _ _ _ _
  | sendMkdir remotePath => exact dials_isrCliSendMkdir _
  | recv remotePath localDir flags blockSize => exact dials_isrCliRecv _ _ _ _ _ _
  | downloadFile remotePath localPath flags blockSize =>
    exact dials_isrCliDownloadFile _ _ _ _ _ _

/-- `e` is the session of the client `i`, on the connection `j`. -/
structure SessionOf (req : ι → Request) (s : ι → Sys) (d : AcceptLoop OsOp Sys ι Int Int) (i : ι)
    (j : Nat) (e : Session) : Prop where
  opened : (d.party i).opened = [j]
  request : e.request = req i
  client : e.client = s i
  client' : e.client' = (d.party i).sys
  result : (d.party i).prog = .ret e.result
  handled : e.handled = d.results[j]?

/-- The first `n` connections, as complete sessions one after the other that have led the server
from `t` to `t'`. -/
structure Linearized (F G : Faults) (L : Lz4) (root : List UInt8) (l : Loc) (req : ι → Request)
    (s : ι → Sys) (t t' : Sys) (d : AcceptLoop OsOp Sys ι Int Int) (n : Nat) (es : List Session) :
    Prop where
  length : es.length = n
  /-- Each is a run of a client and of the handler against each other, and of nobody else. -/
  runs : ∀ e ∈ es, e.Runs F G L root
  owner : ∀ j e, es[j]? = some e → ∃ i, SessionOf req s d i j e
  /-- Each has done what it should. -/
  correct : ∀ e ∈ es, e.Correct root l
  /-- It has found what the sessions before it have stored. -/
  before : ∀ j e, es[j]? = some e →
    e.server.fs.contents = (es.take j).foldl (Session.apply l) t.fs.contents
  contents : t'.fs.contents = es.foldl (Session.apply l) t.fs.contents

section Linearized

variable {P : Int → Prop} {T : Nat → Sys} {q : Prog Int} {p : ι → Prog Int} {n : Nat}
  {t' t'' : Sys} {es : List Session} {e : Session} {i : ι}

theorem linearized_nil : Linearized F G L root l req s t t d 0 [] where
  length := rfl
  runs _ h := absurd h List.not_mem_nil
  owner _ _ h := absurd h (by simp)
  correct _ h := absurd h List.not_mem_nil
  before _ _ h := absurd h (by simp)
  contents := rfl

theorem Linearized.snoc (h : Linearized F G L root l req s t t' d n es)
    (hrun : e.Runs F G L root) (he : SessionOf req s d i n e) (hcorrect : e.Correct root l)
    (hserver : e.server = t') (hserver' : e.server' = t'') :
    Linearized F G L root l req s t t'' d (n + 1) (es ++ [e]) := by
  have hlast : ∀ {j e'}, (es ++ [e])[j]? = some e' → es[j]? = some e' ∨ j = n ∧ e' = e := by
    intro j e' hj
    rcases Nat.lt_trichotomy j es.length with hlt | heq | hlt
    · exact Or.inl ((List.getElem?_append_left hlt).symm.trans hj)
    · rw [heq, List.getElem?_concat_length] at hj
      exact Or.inr ⟨heq.trans h.length, (Option.some.inj hj).symm⟩
    · rw [List.getElem?_eq_none (by rw [List.length_append]; exact hlt)] at hj
      exact absurd hj (by simp)
  constructor
  · rw [List.length_append, h.length, List.length_singleton]
  · exact List.forall_mem_append.mpr ⟨h.runs, List.forall_mem_singleton.mpr hrun⟩
  · intro j e' hj
    rcases hlast hj with hj | ⟨rfl, rfl⟩
    · exact h.owner j e' hj
    · exact ⟨i, he⟩
  · exact List.forall_mem_append.mpr ⟨h.correct, List.forall_mem_singleton.mpr hcorrect⟩
  · intro j e' hj
    rcases hlast hj with hj | ⟨rfl, rfl⟩
    · rw [List.take_append_of_le_length (List.getElem?_eq_some_iff.mp hj).1.le]
      exact h.before j e' hj
    · rw [← h.length, List.take_left, hserver]
      exact h.contents
  · rw [List.foldl_append, ← h.contents, ← hserver, ← hserver']
    exact hcorrect.contents

/-- The session of a client that the server is through with: it is put together from the states of
the server before and after the connection, and from what the client is now. -/
theorem runs_of_placed (h : AcceptLoop.Placed P (Sys.step F) (Sys.step G)
      ((req i).program L (fuel i)) (s i) (serveConnection L fuel' root) d T i)
    {r : Int} (hopened : (d.party i).opened = [n]) (hn : n < d.results.length)
    (hret : (d.party i).prog = .ret r) : ∃ e : Session, e.Runs F G L root ∧
      SessionOf req s d i n e ∧ e.server = T n ∧ e.server' = T (n + 1) := by
  have hj : ∀ {j}, (d.party i).opened = [j] → j = n := fun hj =>
    List.singleton_inj.mp (hj.symm.trans hopened)
  cases h with
  | before hnil => exact absurd (hnil.symm.trans hopened) (by simp)
  | waiting hopened' _ hlt =>
    obtain rfl := hj hopened'
    omega
  | current hopened' _ heq =>
    obtain rfl := hj hopened'
    omega
  | @served j x hopened' _ hx hrun =>
    obtain rfl := hj hopened'
    refine ⟨⟨req i, s i, (d.party i).sys, r, T j, T (j + 1), some x⟩, ?_, ?_, rfl, rfl⟩
    · exact ⟨fuel i, fuel', _, hrun, hret, rfl, rfl, Or.inr ⟨rfl, x, rfl, rfl⟩⟩
    · exact ⟨hopened', rfl, rfl, rfl, hret, hx.symm⟩

/-- **The connections as sessions**, by induction on their number.  The state in which the
server turns to a connection is the one that the session before has left, so the root is
served there. -/
theorem linearized_of_sessions (hF : F.Quiet) (hG : G.Quiet) (ht : Served root l t)
    (hfit : ∀ i (e : Session), e.request = req i → e.client = s i → e.Fits L)
    (hS : AcceptLoop.Sessions P (fun _ : ι => Sys.step F) (Sys.step G)
      (fun i => (req i).program L (fuel i)) s (serveConnection L fuel' root) t d T)
    (howned : ∀ j < d.made, ∃ i, j ∈ (d.party i).opened)
    (hret : ∀ i, (d.party i).opened ≠ [] → ∃ r, (d.party i).prog = .ret r)
    (hall : d.results.length = d.made) (n : Nat) (hn : n ≤ d.made) :
    ∃ es, Linearized F G L root l req s t (T n) d n es ∧ Served root l (T n) := by
  induction n with
  | zero =>
    rw [hS.first]
    exact ⟨[], linearized_nil, ht⟩
  | succ n ih =>
    obtain ⟨es, hes, hserved⟩ := ih (Nat.le_of_succ_le hn)
    obtain ⟨i, hi⟩ := howned n hn
    have hne : (d.party i).opened ≠ [] := List.ne_nil_of_mem hi
    obtain ⟨j, hopened, -⟩ := (hS.clients i).online hne
    obtain rfl : n = j := by rwa [hopened, List.mem_singleton] at hi
    obtain ⟨r, hr⟩ := hret i hne
    obtain ⟨e, hrun, he, hserver, hserver'⟩ :=
      runs_of_placed (hS.clients i) hopened (hall ▸ hn) hr
    obtain ⟨hcorrect, hserved'⟩ :=
      hrun.halves.correct hF hG (hfit i e he.request he.client) (hserver ▸ hserved)
    exact ⟨es ++ [e], hes.snoc hrun he hcorrect hserver hserver', hserver' ▸ hserved'⟩

end Linearized

/-- **The server is a store of files for many clients at once.**  When all have come to an
end, their sessions are in an order in which each is a correct session on the store that the
one before has left; a client has one connection, or it has none and does not succeed.
Clients come in the order in which they have connected. -/
theorem concurrent_fileStore [DecidableEq ι] (hF : F.Quiet) (hG : G.Quiet) (ht : Served root l t)
    (hfit : ∀ i (e : Session), e.request = req i → e.client = s i → e.Fits L)
    (hrun : AcceptLoop.Run (fun _ => Sys.step F) (Sys.step G) false (serveConnection L fuel' root)
      (.initial (fun i => (req i).program L (fuel i)) s (serveConnection L fuel' root) t) d)
    (hret : ∀ i, (d.party i).opened ≠ [] → ∃ r, (d.party i).prog = .ret r)
    (hall : d.results.length = d.made) :
    (∃ es, Linearized F G L root l req s t d.sys d d.made es) ∧
    (∀ i, (∃ j < d.made, (d.party i).opened = [j]) ∨
      ((d.party i).opened = [] ∧ ∀ r, (d.party i).prog = .ret r → r ≠ 0)) ∧
    (∀ d₁, AcceptLoop.Run (fun _ => Sys.step F) (Sys.step G) false (serveConnection L fuel' root)
        (.initial (fun i => (req i).program L (fuel i)) s (serveConnection L fuel' root) t) d₁ →
      AcceptLoop.Run (fun _ => Sys.step F) (Sys.step G) false (serveConnection L fuel' root) d₁ d →
      ∀ i i' j j', (d₁.party i).opened = [j] → (d₁.party i').opened = [] →
        (d.party i').opened = [j'] → (d.party i).opened = [j] ∧ j < j') := by
  obtain ⟨T, hS⟩ := AcceptLoop.sessions (fun i => (req i).dials_program (fuel i)) hrun
  obtain ⟨_, hserial⟩ := AcceptLoop.serialized hrun
  refine ⟨?_, fun i => ?_, fun d₁ hrun₁ hrun₂ i i' j j' hi hi' hj' => ?_⟩
  · obtain ⟨es, hes, -⟩ := linearized_of_sessions hF hG ht hfit hS hserial.owned hret hall d.made
      (Nat.le_refl _)
    rw [← (hS.idle hall).2] at hes
    exact ⟨es, hes⟩
  · by_cases hnil : (d.party i).opened = []
    · refine Or.inr ⟨hnil, fun r hr => ?_⟩
      cases hS.clients i with
      | before _ hdials =>
        rw [hr] at hdials
        exact hdials
      | waiting hopened => exact absurd (hnil.symm.trans hopened) (by simp)
      | current hopened => exact absurd (hnil.symm.trans hopened) (by simp)
      | served hopened => exact absurd (hnil.symm.trans hopened) (by simp)
    · obtain ⟨j, hopened, -⟩ := (hS.clients i).online hnil
      exact Or.inl ⟨j, hserial.below i j (hopened ▸ List.mem_singleton_self j), hopened⟩
  · obtain ⟨-, hlater⟩ := AcceptLoop.opened_of_run hrun₂
    obtain ⟨_, hserial₁⟩ := AcceptLoop.serialized hrun₁
    have hlt : j < d₁.made := hserial₁.below i j (hi ▸ List.mem_singleton_self j)
    obtain ⟨js, heq, hjs⟩ := hlater i'
    obtain ⟨js', heq', -⟩ := hlater i
    rw [hi', List.append_nil, hj'] at heq
    have hle : d₁.made ≤ j' := hjs j' (heq ▸ List.mem_singleton_self j')
    refine ⟨?_, hlt.trans_le hle⟩
    -- a client connects once
    have hne : (d.party i).opened ≠ [] := by
      rw [heq', hi]
      simp
    obtain ⟨j₁, hopened, -⟩ := (hS.clients i).online hne
    have hmem : j ∈ (d.party i).opened := by
      rw [heq', hi]
      exact List.mem_append_right _ (List.mem_singleton_self j)
    rw [hopened, List.mem_singleton] at hmem
    rw [hopened, hmem]

/-! ## Two clients -/

/-- `/f` is sent, and fetched as `/g` at the same time. -/
def together : Bool → Request
  | false => .sendFile [0x66] [slash, 0x66] isrFlagUseCompression 8
  | true => .downloadFile [0x66] [slash, 0x67] 0 8

def togetherSys : Bool → Sys
  | false => threeBytes
  | true => .initial .empty

/-- The two and an empty server, after at most `n` turns. -/
def playedTogether (n : Nat) : AcceptLoop OsOp Sys Bool Int Int :=
  AcceptLoop.turns (fun _ s op => s.answer op) (serveConnection shortLz4 n [slash]) [false, true] n
    (.initial (fun i => (together i).program shortLz4 n) togetherSys
      (serveConnection shortLz4 n [slash]) (.initial .empty))

theorem fits_together (i : Bool) (e : Session) (hreq : e.request = together i)
    (hclient : e.client = togetherSys i) : e.Fits shortLz4 := by
  cases i with
  | false =>
    constructor
    · rw [hreq]
      decide
    · rw [hreq]
      decide
    · rw [hreq]
      exact fun _ => ⟨by decide, by decide, shortLz4_roundTrip (by decide)⟩
    · rw [hclient]
      rfl
    · intro localFile hsource
      rw [hreq] at hsource
      obtain rfl := Option.some.inj hsource
      rw [hclient]
      constructor
      · intro k hk
        obtain rfl : [[0x66]] = k := Option.some.inj hk
        decide
      · intro content hbytes
        obtain rfl : [1, 2, 3] = content := Option.some.inj hbytes
        decide
  | true =>
    constructor
    · rw [hreq]
      decide
    · rw [hreq]
      decide
    · rw [hreq]
      exact fun h => absurd h (by decide)
    · rw [hclient]
      rfl
    · intro localFile hsource
      rw [hreq] at hsource
      exact absurd (show none = some localFile from hsource) (by simp)

theorem concurrent_fileStore_together :
    (∃ es, Linearized Faults.none Faults.none shortLz4 [slash] [] together togetherSys
      (.initial .empty) (playedTogether 300).sys (playedTogether 300) 2 es) ∧
    ((playedTogether 300).party true).sys.fs.contents [[0x67]] = some [1, 2, 3] := by
  have hrun : AcceptLoop.Run (fun _ => Sys.step Faults.none) (Sys.step Faults.none) false
      (serveConnection shortLz4 300 [slash]) _ (playedTogether 300) :=
    AcceptLoop.run_turns (fun _ _ _ _ _ _ h => Sys.step_of_answer h)
      (fun _ _ _ _ _ h => Sys.step_of_answer h) [false, true] 300
  have hret : ∀ i, returned ((playedTogether 300).party i).prog = some 0 := by decide +kernel
  have hmade : (playedTogether 300).made = 2 := by decide +kernel
  refine ⟨?_, by decide +kernel⟩
  rw [← hmade]
  exact (concurrent_fileStore ⟨rfl, rfl, rfl⟩ ⟨rfl, rfl, rfl⟩ served_empty fits_together hrun
    (fun i _ => ⟨0, eq_ret_of_returned (hret i)⟩) (by decide +kernel)).1

end IsrTransfer
