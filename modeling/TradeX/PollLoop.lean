import TradeX.RequestStream

/-!
# The poll loop

`listenerThread` of `Retransmitter` once more, with the vector `poll_fds` as the source has it : the
listening socket at index 0, the flags that `poll` has written, connections added at the end, and
the loop over the indices, in which a connection that is closed is erased and the index moved back.
Recorded are the calls on each socket.

The loop over the indices is the one over the connections (`run_refines`), each connection is closed
once and not used after that (`connection_closed_once`), and a pass receives once from every
connection that is ready (`ready_received_once`).
-/

namespace TradeX

/-- The listening socket, or a connection by its number. -/
inductive Descriptor
  | server
  | connection (n : ℕ)
  deriving DecidableEq

/-- An entry of `poll_fds`, with the flag `POLLIN` of its `revents`. -/
structure PollFd where
  fd : Descriptor
  revents : Bool

/-- The calls that the server makes on a socket. -/
inductive SocketCall
  | recv
  | shutdown
  | close
  deriving DecidableEq

/-- `listenerThread` : the descriptors that it polls, the connections it has accepted, the slots,
and what it has looked up, sent, received and called. -/
structure PollServer where
  pollFds : List PollFd
  accepted : ℕ
  running : Bool
  slots : ℕ → List UInt8
  lookups : List (ℕ × ℕ)
  sent : List (ℕ × List UInt8)
  pieces : List (ℕ × List UInt8)
  calls : List (Descriptor × SocketCall)

namespace PollServer

open Retransmitter (RecvResult)
open RequestServer (Pass Event)

/-- The server before its first pass. -/
def init (slots : ℕ → List UInt8) : PollServer :=
  ⟨[⟨.server, false⟩], 0, true, slots, [], [], [], []⟩

/-- The thread, with its connections in a list. -/
def view (st : PollServer) (fds : List ℕ) : RequestServer :=
  ⟨fds, st.accepted, st.running, st.slots, st.lookups, st.sent, st.pieces⟩

/-- `recv` for a connection, what is done with its result, and whether it is to be closed. -/
def recv (st : PollServer) (n : ℕ) (result : RecvResult) : Bool × PollServer :=
  let (closes, served) := (st.view []).serve n result
  (closes, { st with
    lookups := served.lookups
    sent := served.sent
    pieces := served.pieces
    calls := st.calls ++ [(.connection n, .recv)] })

/-- The connection at a place of `poll_fds` is closed and erased. -/
def closeAt (st : PollServer) (i n : ℕ) : PollServer :=
  { st with
    pollFds := st.pollFds.eraseIdx i
    calls := st.calls ++ [(.connection n, .close)] }

/-- The connection at index `i` is served. If it is erased, the entries after it move up. -/
def serveAt (st : PollServer) (i n : ℕ) (result : RecvResult) : ℕ × PollServer :=
  let (closes, st) := st.recv n result
  if closes then (i - 1, st.closeAt i n) else (i, st)

/-- The connection of an entry with `POLLIN`, and what `recv` returns for it. -/
def readable (ready : ℕ → Option RecvResult) (e : PollFd) : Option (ℕ × RecvResult) :=
  match e.fd, e.revents with
  | .connection n, true => (ready n).map fun result => (n, result)
  | _, _ => none

/-- The loop over the indices, at index `i`. -/
def serveLoop (ready : ℕ → Option RecvResult) : ℕ → ℕ → ℤ → PollServer →
    Option PollServer
  | 0, i, _, st => if i < st.pollFds.length then none else some st
  | fuel + 1, i, activity, st =>
    match st.pollFds[i]? with
    | none => some st
    | some e =>
      match readable ready e with
      | none => serveLoop ready fuel (i + 1) activity st
      | some (n, result) =>
        let (i, st) := st.serveAt i n result
        if activity - 1 ≤ 0 then some st else serveLoop ready fuel (i + 1) (activity - 1) st

/-- The flags that `poll` writes. -/
def poll (st : PollServer) (p : Pass) : PollServer :=
  { st with pollFds := st.pollFds.map fun e => { e with revents := match e.fd with
      | .server => p.accept.isSome
      | .connection n => (p.ready n).isSome } }

/-- A connection that has been accepted has no flag yet. -/
def accept (st : PollServer) : PollServer :=
  { st with
    pollFds := st.pollFds ++ [⟨.connection st.accepted, false⟩]
    accepted := st.accepted + 1 }

/-- The loop has been left, and every socket is closed. -/
def finish (st : PollServer) : PollServer :=
  { st with
    running := false
    calls := st.calls ++ ((st.pollFds.drop 1).flatMap fun e => [(e.fd, .shutdown),
      (e.fd, .close)]) ++ (st.pollFds.take 1).map fun e => (e.fd, .close) }

/-- A pass of the loop. -/
def pass (st : PollServer) (p : Pass) : Option PollServer :=
  if p.activity < 0 then some (if p.eintr then st else st.finish)
  else
    let st := st.poll p
    if p.activity = 0 ∧ p.done then some st.finish
    else
      match p.accept with
      | none => st.serveLoop p.ready st.pollFds.length 1 p.activity
      | some success =>
        let st := if success then st.accept else st
        if p.activity - 1 ≤ 0 then some st
        else st.serveLoop p.ready st.pollFds.length 1 (p.activity - 1)

/-- A message is stored, or the loop makes a pass. -/
def step (st : PollServer) : Event → Option PollServer
  | .store msg => some { st with slots := Retransmitter.writeSlot st.slots msg }
  | .pass p => if st.running then st.pass p else some st

/-- Stores and passes, one after the other. -/
def run (st : PollServer) (events : List Event) : Option PollServer :=
  events.foldlM step st

/-! ## The loop over the indices -/

/-- The results of `recv` after which a connection is closed. -/
def Closes : RecvResult → Bool
  | .data piece => piece.length = 0
  | .again => false
  | .interrupted | .failed | .closed => true

/-- The calls for a connection in one pass. -/
def callsFor (ready : ℕ → Option RecvResult) (n : ℕ) : List (Descriptor × SocketCall) :=
  match ready n with
  | none => []
  | some result =>
    (.connection n, .recv) :: if Closes result then [(.connection n, .close)] else []

/-- The connections that are received from : the ready ones, until as many have been served as
`poll` has reported. -/
def served (ready : ℕ → Option RecvResult) : List ℕ → ℤ → List ℕ
  | [], _ => []
  | n :: fds, activity =>
    match ready n with
    | none => served ready fds activity
    | some _ => n :: if activity - 1 ≤ 0 then [] else served ready fds (activity - 1)

/-- The entry of a connection, with the flag that `poll` has written. -/
def entry (ready : ℕ → Option RecvResult) (n : ℕ) : PollFd :=
  ⟨.connection n, (ready n).isSome⟩

variable {ready : ℕ → Option RecvResult} {st st' : PollServer} {n : ℕ}

theorem readable_entry : readable ready (entry ready n) =
    (ready n).map fun result => (n, result) := by
  cases h : ready n <;> simp [readable, entry, h]

theorem readable_of_revents {e : PollFd} (h : e.revents = false) : readable ready e = none := by
  unfold readable
  split
  next heq => cases h.symm.trans heq
  next => rfl

theorem serve_fst (rt : RequestServer) (result : RecvResult) :
    (rt.serve n result).1 = Closes result := by
  rcases result with piece | _ | _ | _ | _
  · simp only [RequestServer.serve, Closes]
    split_ifs with hempty <;> simp [hempty]
  all_goals rfl

/-- What a connection gets does not depend on the list. -/
theorem serve_view (fds : List ℕ) (result : RecvResult) :
    (st.view fds).serve n result = (Closes result, (st.recv n result).2.view fds) := by
  rcases result with piece | _ | _ | _ | _
  · simp only [recv, RequestServer.serve, Closes]
    split_ifs with hempty hwhole
    · exact Prod.ext (decide_eq_true hempty).symm rfl
    · exact Prod.ext (decide_eq_false hempty).symm rfl
    · exact Prod.ext (decide_eq_false hempty).symm rfl
  all_goals rfl

/-- Entries without a flag are passed over. -/
theorem serveLoop_skip (activity : ℤ) :
    ∀ {added : List PollFd} {fuel : ℕ} {before : List PollFd},
    st.pollFds = before ++ added → (∀ e ∈ added, e.revents = false) →
    added.length ≤ fuel → serveLoop ready fuel before.length activity st = some st
  | [], fuel, before, hfds, _, _ => by
    rw [List.append_nil] at hfds
    cases fuel with
    | zero => rw [serveLoop, hfds, if_neg (Nat.lt_irrefl _)]
    | succ fuel => rw [serveLoop, hfds, List.getElem?_eq_none (Nat.le_refl _)]
  | e :: added, fuel + 1, before, hfds, hadded, hfuel => by
    have hget : st.pollFds[before.length]? = some e := by simp [hfds]
    have hnext : st.pollFds = (before ++ [e]) ++ added := by simp [hfds]
    rw [serveLoop, hget]
    dsimp only
    rw [readable_of_revents (hadded e List.mem_cons_self)]
    have ih := serveLoop_skip activity hnext
      (fun e' he' => hadded e' (List.mem_cons_of_mem _ he')) (Nat.le_of_succ_le_succ hfuel)
    rwa [List.length_append] at ih

/-- The next index is the one after the entries that are kept. -/
theorem serveAt_spec {before rest : List PollFd} {result : RecvResult} (fds : List ℕ)
    (hfds : st.pollFds = before ++ entry ready n :: rest) (hbefore : 0 < before.length)
    (hready : ready n = some result) :
    ∃ before', 0 < before'.length ∧
      (st.serveAt before.length n result).1 + 1 = before'.length ∧
      (st.serveAt before.length n result).2.pollFds = before' ++ rest ∧
      (st.serveAt before.length n result).2.view fds = (st.recv n result).2.view fds ∧
      (st.serveAt before.length n result).2.calls = st.calls ++ callsFor ready n ∧
      ∀ left : List ℕ, before ++ (if Closes result then left else n :: left).map (entry ready) =
        before' ++ left.map (entry ready) := by
  have hfst : (st.recv n result).1 = Closes result := serve_fst (st.view []) result
  unfold serveAt callsFor
  dsimp only
  rw [hready, hfst]
  dsimp only
  cases hcloses : Closes result with
  | true =>
    refine ⟨before, hbefore, Nat.sub_add_cancel hbefore, ?_, rfl, by simp [closeAt, recv], ?_⟩
    · change st.pollFds.eraseIdx before.length = _
      rw [hfds, List.eraseIdx_append_of_length_le (Nat.le_refl _), Nat.sub_self]
      rfl
    · exact fun left => rfl
  | false =>
    refine ⟨before ++ [entry ready n], by simp, by simp, ?_, rfl, rfl, fun left => by simp⟩
    rw [List.append_assoc]
    exact hfds

/-- From an index on, the loop does what the one over the connections does. -/
theorem serveLoop_eq {added : List PollFd} (hadded : ∀ e ∈ added, e.revents = false)
    (fds : List ℕ) :
    ∀ (old : List ℕ) (activity : ℤ) {fuel : ℕ} {before : List PollFd} {st : PollServer},
    st.pollFds = before ++ (old.map (entry ready) ++ added) → 0 < before.length →
    old.length + added.length ≤ fuel →
    ∃ st', serveLoop ready fuel before.length activity st = some st' ∧
      st'.pollFds = before ++ ((RequestServer.serveAll ready old activity (st.view fds)).1.map
        (entry ready) ++ added) ∧
      st'.view fds = (RequestServer.serveAll ready old activity (st.view fds)).2 ∧
      st'.calls = st.calls ++ (served ready old activity).flatMap (callsFor ready)
  | [], activity, fuel, before, st, hfds, _, hfuel => by
    refine ⟨st, serveLoop_skip activity hfds hadded (by simpa using hfuel), hfds, rfl, ?_⟩
    rw [served, List.flatMap_nil, List.append_nil]
  | n :: old, activity, 0, before, st, hfds, hbefore, hfuel => by
    rw [List.length_cons] at hfuel
    omega
  | n :: old, activity, fuel + 1, before, st, hfds, hbefore, hfuel => by
    have hget : st.pollFds[before.length]? = some (entry ready n) := by simp [hfds]
    have hlen : old.length + added.length ≤ fuel := by
      rw [List.length_cons] at hfuel
      omega
    rw [serveLoop, hget]
    dsimp only
    rw [readable_entry, RequestServer.serveAll, served]
    cases hready : ready n with
    | none =>
      have hnext : st.pollFds =
          (before ++ [entry ready n]) ++ (old.map (entry ready) ++ added) := by
        simp [hfds]
      obtain ⟨st', hloop, hpoll, hview, hcalls⟩ := serveLoop_eq hadded fds old activity hnext
        (by simp) hlen
      refine ⟨st', ?_, ?_, hview, hcalls⟩
      · rwa [List.length_append] at hloop
      · simpa using hpoll
    | some result =>
      obtain ⟨before', hbefore', hindex, hnext, hserved, hcalled, hkept⟩ :=
        serveAt_spec fds hfds hbefore hready
      dsimp only [Option.map_some]
      rw [serve_view, hindex, ← List.append_assoc before, hkept, ← hserved,
        List.append_assoc before']
      split_ifs with hlast
      · exact ⟨_, rfl, hnext, rfl, by rw [hcalled, List.flatMap_singleton]⟩
      · obtain ⟨st', hloop, hpoll, hview, hcalls⟩ :=
          serveLoop_eq hadded fds old (activity - 1) hnext hbefore' hlen
        refine ⟨st', hloop, hpoll, hview, ?_⟩
        rw [hcalls, hcalled, List.flatMap_cons, List.append_assoc]

/-! ## A pass -/

/-- The vector is the list of the connections, after the listening socket. -/
structure Refines (st : PollServer) (rt : RequestServer) : Prop where
  fds : st.pollFds.map PollFd.fd = .server :: rt.pollFds.map .connection
  view : st.view rt.pollFds = rt

/-- The calls when the loop has been left. -/
def cleanup (fds : List ℕ) : List (Descriptor × SocketCall) :=
  (fds.flatMap fun n => [(.connection n, .shutdown), (.connection n, .close)]) ++
    [(.server, .close)]

/-- The calls of a pass. -/
def passCalls (fds : List ℕ) (p : Pass) : List (Descriptor × SocketCall) :=
  if p.activity < 0 then if p.eintr then [] else cleanup fds
  else if p.activity = 0 ∧ p.done then cleanup fds
  else
    match p.accept with
    | none => (served p.ready fds p.activity).flatMap (callsFor p.ready)
    | some _ =>
      if p.activity - 1 ≤ 0 then []
      else (served p.ready fds (p.activity - 1)).flatMap (callsFor p.ready)

variable {rt : RequestServer} {p : Pass}

theorem Refines.poll (h : Refines st rt) :
    (st.poll p).pollFds = ⟨.server, p.accept.isSome⟩ :: rt.pollFds.map (entry p.ready) := by
  have hflags : (st.poll p).pollFds = (st.pollFds.map PollFd.fd).map fun fd => ⟨fd, match fd with
      | .server => p.accept.isSome
      | .connection n => (p.ready n).isSome⟩ := by
    rw [List.map_map]
    rfl
  rw [hflags, h.fds, List.map_cons, List.map_map]
  rfl

/-- Polling changes the flags only. -/
theorem Refines.polled (h : Refines st rt) : Refines (st.poll p) rt := by
  refine ⟨?_, h.view⟩
  rw [h.poll, List.map_cons, List.map_map]
  rfl

theorem Refines.finish (h : Refines st rt) : Refines st.finish { rt with running := false } ∧
    st.finish.calls = st.calls ++ cleanup rt.pollFds := by
  refine ⟨⟨h.fds, ?_⟩, ?_⟩
  · rw [← h.view]
    rfl
  · obtain ⟨e, es, hes, he, hmap⟩ := List.map_eq_cons_iff.1 h.fds
    have hconnections : (es.flatMap fun e => [(e.fd, SocketCall.shutdown), (e.fd, .close)]) =
        rt.pollFds.flatMap fun n => [(.connection n, .shutdown), (.connection n, .close)] := by
      rw [← List.flatMap_map PollFd.fd fun fd => [(fd, SocketCall.shutdown), (fd, .close)], hmap,
        List.flatMap_map]
    simp only [PollServer.finish, hes, List.drop_one, List.tail_cons, List.take_succ_cons,
      List.take_zero, List.map_cons, List.map_nil, he, hconnections, cleanup, List.append_assoc]

/-- The loop over the indices, with the connection that has just been accepted at the end. -/
theorem serveLoop_refines {flag : Bool} {added : List ℕ} (activity : ℤ)
    (hfds : st.pollFds = ⟨.server, flag⟩ ::
      (rt.pollFds.map (entry ready) ++ added.map fun n => ⟨.connection n, false⟩))
    (hview : st.view rt.pollFds = rt) :
    ∃ st', serveLoop ready st.pollFds.length 1 activity st = some st' ∧
      Refines st' (rt.serveReady ready activity added) ∧
      st'.calls = st.calls ++ (served ready rt.pollFds activity).flatMap (callsFor ready) := by
  have hflags : ∀ e ∈ added.map fun n => PollFd.mk (.connection n) false,
      e.revents = false := by simp
  have hfuel : rt.pollFds.length + (added.map fun n => PollFd.mk (.connection n) false).length ≤
      st.pollFds.length := by simp [hfds]
  obtain ⟨st', hloop, hpoll, hview', hcalls⟩ :=
    serveLoop_eq hflags rt.pollFds rt.pollFds activity
    (hfds.trans (List.singleton_append ..).symm) Nat.zero_lt_one hfuel
  rw [hview] at hpoll hview'
  refine ⟨st', hloop, ?_, hcalls⟩
  unfold RequestServer.serveReady
  generalize RequestServer.serveAll ready rt.pollFds activity rt = result at hpoll hview'
  obtain ⟨left, rt'⟩ := result
  dsimp only at hpoll hview' ⊢
  refine ⟨?_, ?_⟩
  · rw [hpoll]
    simp [Function.comp_def, entry]
  · rw [← hview']
    rfl

/-- After `accept` : the new connection is at the end, if there is one. -/
theorem Refines.accepted (h : Refines st rt) (p : Pass) (success : Bool) :
    (if success then (st.poll p).accept else st.poll p).pollFds = ⟨.server, p.accept.isSome⟩ ::
        (rt.pollFds.map (entry p.ready) ++
          (if success then [rt.accepted] else []).map fun n => ⟨.connection n, false⟩) ∧
      (if success then (st.poll p).accept else st.poll p).view rt.pollFds =
        { rt with accepted := rt.accepted + (if success then [rt.accepted] else []).length } ∧
      (if success then (st.poll p).accept else st.poll p).calls = st.calls := by
  have haccepted : st.accepted = rt.accepted := congrArg RequestServer.accepted h.view
  have hview := h.view
  cases success with
  | false =>
    refine ⟨?_, hview, rfl⟩
    change (st.poll p).pollFds = _ :: (_ ++ [])
    rw [h.poll, List.append_nil]
  | true =>
    refine ⟨?_, ?_, rfl⟩
    · change (st.poll p).pollFds ++ [⟨.connection st.accepted, false⟩] = _
      rw [h.poll, haccepted]
      rfl
    · rw [← hview]
      rfl

theorem Refines.pass (h : Refines st rt) (p : Pass) : ∃ st', st.pass p = some st' ∧
    Refines st' (rt.pass p) ∧ st'.calls = st.calls ++ passCalls rt.pollFds p := by
  unfold PollServer.pass RequestServer.pass passCalls
  by_cases herror : p.activity < 0
  · simp only [if_pos herror]
    split_ifs
    · exact ⟨_, rfl, h, (List.append_nil _).symm⟩
    · exact ⟨_, rfl, h.finish⟩
  simp only [if_neg herror]
  by_cases hdone : p.activity = 0 ∧ p.done
  · simp only [if_pos hdone]
    exact ⟨_, rfl, h.polled.finish⟩
  simp only [if_neg hdone]
  cases haccept : p.accept with
  | none =>
    have hfds : (st.poll p).pollFds =
        ⟨.server, p.accept.isSome⟩ :: (rt.pollFds.map (entry p.ready) ++
        ([] : List ℕ).map fun n => ⟨.connection n, false⟩) := by
      rw [h.poll, List.map_nil, List.append_nil]
    exact serveLoop_refines p.activity hfds h.view
  | some success =>
    obtain ⟨hfds, hview, hcalls⟩ := h.accepted p success
    dsimp only
    generalize (if success then (st.poll p).accept else st.poll p) = st₁ at hfds hview hcalls ⊢
    generalize (if success then [rt.accepted] else []) = added at hfds hview ⊢
    rw [← hcalls]
    split_ifs with hlast
    · refine ⟨st₁, rfl, ⟨?_, ?_⟩, (List.append_nil _).symm⟩
      · rw [hfds]
        simp [Function.comp_def, entry]
      · exact congrArg (fun rt' : RequestServer => { rt' with pollFds := rt.pollFds ++ added })
          hview
    · exact serveLoop_refines (p.activity - 1) hfds hview

/-! ## Who is served -/

theorem served_sublist : ∀ (fds : List ℕ) (activity : ℤ),
    (served ready fds activity).Sublist fds
  | [], _ => .slnil
  | n :: fds, activity => by
    rw [served]
    cases ready n with
    | none => exact (served_sublist fds activity).cons n
    | some result =>
      dsimp only
      split_ifs
      · exact (List.nil_sublist fds).cons_cons n
      · exact (served_sublist fds (activity - 1)).cons_cons n

/-- If `poll` has counted them, all that are ready are served. -/
theorem served_eq_filter : ∀ {fds : List ℕ} {activity : ℤ},
    ((fds.filter fun n => (ready n).isSome).length : ℤ) ≤ activity →
    served ready fds activity = fds.filter fun n => (ready n).isSome
  | [], _, _ => rfl
  | n :: fds, activity, hle => by
    rw [served]
    cases hready : ready n with
    | none =>
      have hskip : ((n :: fds).filter fun n => (ready n).isSome) =
          fds.filter fun n => (ready n).isSome := List.filter_cons_of_neg (by simp [hready])
      rw [hskip] at hle ⊢
      exact served_eq_filter hle
    | some result =>
      have hkeep : ((n :: fds).filter fun n => (ready n).isSome) =
          n :: fds.filter fun n => (ready n).isSome := List.filter_cons_of_pos (by simp [hready])
      rw [hkeep] at hle ⊢
      rw [List.length_cons] at hle
      dsimp only
      split_ifs with hlast
      · have hnone : (fds.filter fun n => (ready n).isSome) = [] :=
          List.eq_nil_of_length_eq_zero (by omega)
        rw [hnone]
      · rw [served_eq_filter (by omega)]

/-- The connection is closed in a pass that serves it. -/
def ClosedBy (ready : ℕ → Option RecvResult) (n : ℕ) : Prop :=
  ∃ result, ready n = some result ∧ Closes result = true

/-- What is left of the connections, when those of `S` have been served. -/
structure Left (ready : ℕ → Option RecvResult) (fds S left : List ℕ) : Prop where
  sub : left.Sublist fds
  mem : ∀ m ∈ fds, m ∈ left ↔ ¬(m ∈ S ∧ ClosedBy ready m)

variable {fds S left : List ℕ}

theorem left_all : Left ready fds [] fds :=
  ⟨List.Sublist.refl fds, fun _ hm => ⟨fun _ h => List.not_mem_nil h.1, fun _ => hm⟩⟩

theorem Left.skip (h : Left ready fds S left) (hS : S ⊆ fds) (hnot : n ∉ fds) :
    Left ready (n :: fds) S (n :: left) := by
  refine ⟨h.sub.cons_cons n, fun m hm => ?_⟩
  rcases List.mem_cons.1 hm with rfl | hm
  · exact iff_of_true List.mem_cons_self fun hserved => hnot (hS hserved.1)
  · have hne : m ≠ n := fun heq => hnot (heq ▸ hm)
    rw [List.mem_cons, or_iff_right hne]
    exact h.mem m hm

theorem Left.serve (h : Left ready fds S left) {result : RecvResult}
    (hready : ready n = some result) (hnot : n ∉ fds) :
    Left ready (n :: fds) (n :: S) (if Closes result then left else n :: left) := by
  have hclosed : ClosedBy ready n ↔ Closes result = true :=
    ⟨fun ⟨r, hr, hcloses⟩ => Option.some.inj (hready.symm.trans hr) ▸ hcloses,
      fun hcloses => ⟨result, hready, hcloses⟩⟩
  have hleft : n ∉ left := fun hmem => hnot (h.sub.subset hmem)
  refine ⟨?_, fun m hm => ?_⟩
  · split_ifs
    · exact h.sub.cons n
    · exact h.sub.cons_cons n
  · rcases List.mem_cons.1 hm with rfl | hm
    · rw [hclosed]
      split_ifs with hcloses <;> simp [hcloses, hleft]
    · have hne : m ≠ n := fun heq => hnot (heq ▸ hm)
      rw [List.mem_cons, or_iff_right hne, ← h.mem m hm]
      split_ifs
      · rfl
      · rw [List.mem_cons, or_iff_right hne]

/-- The loop serves and leaves connections, and changes nothing else. -/
theorem left_serveAll : ∀ {fds : List ℕ} (activity : ℤ) (rt : RequestServer), fds.Nodup →
    Left ready fds (served ready fds activity) (RequestServer.serveAll ready fds activity rt).1 ∧
      (RequestServer.serveAll ready fds activity rt).2.accepted = rt.accepted ∧
      (RequestServer.serveAll ready fds activity rt).2.running = rt.running
  | [], _, _, _ => ⟨left_all, rfl, rfl⟩
  | n :: fds, activity, rt, hnodup => by
    obtain ⟨hnot, hnodup⟩ := List.nodup_cons.1 hnodup
    rw [RequestServer.serveAll, served]
    cases hready : ready n with
    | none =>
      obtain ⟨hleft, hsame⟩ := left_serveAll activity rt hnodup
      exact ⟨hleft.skip (served_sublist fds activity).subset hnot, hsame⟩
    | some result =>
      have hserve : (rt.serve n result).2.accepted = rt.accepted ∧
          (rt.serve n result).2.running = rt.running := by
        rcases result with piece | _ | _ | _ | _
        · simp only [RequestServer.serve]
          split_ifs <;> exact ⟨rfl, rfl⟩
        all_goals exact ⟨rfl, rfl⟩
      dsimp only
      rw [serve_fst]
      by_cases hlast : activity - 1 ≤ 0
      · simp only [if_pos hlast]
        exact ⟨left_all.serve hready hnot, hserve⟩
      · obtain ⟨hleft, haccepted, hrunning⟩ :=
          left_serveAll (activity - 1) (rt.serve n result).2 hnodup
        simp only [if_neg hlast]
        exact ⟨hleft.serve hready hnot, haccepted.trans hserve.1, hrunning.trans hserve.2⟩

/-- A pass ends the loop, or serves some of the connections and adds one at most. -/
theorem pass_cases (hnodup : rt.pollFds.Nodup) (p : Pass) :
    rt.pass p = { rt with running := false } ∧ passCalls rt.pollFds p = cleanup rt.pollFds ∨
    ∃ added S left, (added = [] ∨ added = [rt.accepted]) ∧ S.Sublist rt.pollFds ∧
      Left p.ready rt.pollFds S left ∧ (rt.pass p).pollFds = left ++ added ∧
      (rt.pass p).accepted = rt.accepted + added.length ∧ (rt.pass p).running = rt.running ∧
      passCalls rt.pollFds p = S.flatMap (callsFor p.ready) := by
  unfold RequestServer.pass passCalls
  by_cases herror : p.activity < 0
  · simp only [if_pos herror]
    split_ifs
    · exact Or.inr ⟨[], [], rt.pollFds, Or.inl rfl, List.nil_sublist _, left_all,
        (List.append_nil _).symm, rfl, rfl, rfl⟩
    · exact Or.inl ⟨rfl, rfl⟩
  simp only [if_neg herror]
  by_cases hdone : p.activity = 0 ∧ p.done
  · left
    simp only [if_pos hdone, and_self]
  simp only [if_neg hdone]
  refine Or.inr ?_
  cases haccept : p.accept with
  | none =>
    obtain ⟨hleft, haccepted, hrunning⟩ := left_serveAll p.activity rt hnodup
    exact ⟨[], _, _, Or.inl rfl, served_sublist _ _, hleft, rfl, haccepted, hrunning, rfl⟩
  | some success =>
    have hadded : (if success then [rt.accepted] else []) = [] ∨
        (if success then [rt.accepted] else []) = [rt.accepted] := by cases success <;> simp
    dsimp only
    generalize (if success then [rt.accepted] else []) = added at hadded ⊢
    by_cases hlast : p.activity - 1 ≤ 0
    · simp only [if_pos hlast]
      refine ⟨added, [], rt.pollFds, hadded, List.nil_sublist _, left_all, ?_⟩
      simp
    · simp only [if_neg hlast]
      obtain ⟨hleft, haccepted, hrunning⟩ := left_serveAll (p.activity - 1)
        { rt with accepted := rt.accepted + added.length } hnodup
      exact ⟨added, _, _, hadded, served_sublist _ _, hleft, rfl, haccepted, hrunning, rfl⟩

/-! ## The calls on a socket -/

/-- The calls that were made on a descriptor. -/
def callsOn (calls : List (Descriptor × SocketCall)) (fd : Descriptor) : List SocketCall :=
  (calls.filter fun call => call.1 = fd).map Prod.snd

theorem callsOn_append (calls calls' : List (Descriptor × SocketCall)) (fd : Descriptor) :
    callsOn (calls ++ calls') fd = callsOn calls fd ++ callsOn calls' fd := by
  rw [callsOn, List.filter_append, List.map_append]
  rfl

theorem callsOn_self {calls : List (Descriptor × SocketCall)} {fd : Descriptor}
    (h : ∀ call ∈ calls, call.1 = fd) : callsOn calls fd = calls.map Prod.snd := by
  rw [callsOn, List.filter_eq_self.2 fun call hcall => decide_eq_true (h call hcall)]

theorem callsOn_of_ne {calls : List (Descriptor × SocketCall)} {fd : Descriptor}
    (h : ∀ call ∈ calls, call.1 ≠ fd) : callsOn calls fd = [] := by
  rw [callsOn, List.filter_eq_nil_iff.2 fun call hcall => by simpa using h call hcall]
  rfl

/-- Calls for each connection of a list. -/
theorem callsOn_flatMap {f : ℕ → List (Descriptor × SocketCall)}
    (hf : ∀ m, ∀ call ∈ f m, call.1 = .connection m) (n : ℕ) :
    ∀ {l : List ℕ}, l.Nodup →
    callsOn (l.flatMap f) (.connection n) = if n ∈ l then (f n).map Prod.snd else []
  | [], _ => rfl
  | m :: l, hnodup => by
    obtain ⟨hnot, hnodup⟩ := List.nodup_cons.1 hnodup
    rw [List.flatMap_cons, callsOn_append, callsOn_flatMap hf n hnodup]
    rcases eq_or_ne n m with rfl | hne
    · rw [if_neg hnot, if_pos List.mem_cons_self, List.append_nil, callsOn_self (hf n)]
    · have hothers : ∀ call ∈ f m, call.1 ≠ .connection n := fun call hcall heq =>
        hne (Descriptor.connection.inj (heq.symm.trans (hf m call hcall)))
      rw [callsOn_of_ne hothers, List.nil_append]
      exact if_congr (by rw [List.mem_cons, or_iff_right hne]) rfl rfl

theorem callsOn_flatMap_server {f : ℕ → List (Descriptor × SocketCall)}
    (hf : ∀ m, ∀ call ∈ f m, call.1 = .connection m) (l : List ℕ) :
    callsOn (l.flatMap f) .server = [] := by
  refine callsOn_of_ne fun call hcall heq => ?_
  obtain ⟨m, -, hmem⟩ := List.mem_flatMap.1 hcall
  cases heq.symm.trans (hf m call hmem)

theorem callsFor_fst (n : ℕ) : ∀ call ∈ callsFor ready n, call.1 = .connection n := by
  intro call hcall
  unfold callsFor at hcall
  split at hcall
  · cases hcall
  · split_ifs at hcall <;> grind

/-- `recv` has been called, and nothing else. -/
def Receiving (calls : List SocketCall) : Prop :=
  ∀ call ∈ calls, call = .recv

/-- Nothing has been called after `close`, and before it only `recv`, and `shutdown` at the end. -/
def ClosedOnce (calls : List SocketCall) : Prop :=
  ∃ received, Receiving received ∧
    (calls = received ++ [.close] ∨ calls = received ++ [.shutdown, .close])

/-- Every connection that is in the list is open, every other that has been accepted is closed, and
when the loop has been left all of them are. -/
structure Tracked (rt : RequestServer) (calls : List (Descriptor × SocketCall)) : Prop where
  nodup : rt.pollFds.Nodup
  lt : ∀ n ∈ rt.pollFds, n < rt.accepted
  receiving : rt.running = true → ∀ n ∈ rt.pollFds, Receiving (callsOn calls (.connection n))
  closed : ∀ n < rt.accepted, rt.running = false ∨ n ∉ rt.pollFds →
    ClosedOnce (callsOn calls (.connection n))
  fresh : ∀ n, rt.accepted ≤ n → callsOn calls (.connection n) = []
  server : callsOn calls .server = if rt.running then [] else [.close]

theorem tracked_init (slots : ℕ → List UInt8) : Tracked (RequestServer.init slots) [] :=
  ⟨List.nodup_nil, nofun, fun _ => nofun, nofun, fun _ _ => rfl, rfl⟩

variable {calls : List (Descriptor × SocketCall)}

theorem cleanup_fst (n : ℕ) : ∀ call ∈ [(Descriptor.connection n, SocketCall.shutdown),
    (.connection n, .close)], call.1 = .connection n := by
  simp

theorem callsOn_cleanup {fds : List ℕ} (hnodup : fds.Nodup) (n : ℕ) :
    callsOn (cleanup fds) (.connection n) = if n ∈ fds then [.shutdown, .close] else [] := by
  rw [cleanup, callsOn_append, callsOn_flatMap cleanup_fst n hnodup]
  exact List.append_nil _

theorem callsOn_cleanup_server (fds : List ℕ) : callsOn (cleanup fds) .server = [.close] := by
  rw [cleanup, callsOn_append, callsOn_flatMap_server cleanup_fst]
  rfl

/-- The loop is left. -/
theorem Tracked.finish (h : Tracked rt calls) (hrunning : rt.running = true) :
    Tracked { rt with running := false } (calls ++ cleanup rt.pollFds) := by
  refine ⟨h.nodup, h.lt, nofun, fun n hn _ => ?_, fun n hn => ?_, ?_⟩
  · rw [callsOn_append, callsOn_cleanup h.nodup]
    split_ifs with hmem
    · exact ⟨_, h.receiving hrunning n hmem, Or.inr rfl⟩
    · rw [List.append_nil]
      exact h.closed n hn (Or.inr hmem)
  · have hnot : n ∉ rt.pollFds := fun hmem => Nat.not_lt.2 hn (h.lt n hmem)
    rw [callsOn_append, callsOn_cleanup h.nodup, if_neg hnot, List.append_nil]
    exact h.fresh n hn
  · rw [callsOn_append, callsOn_cleanup_server, h.server, hrunning]
    rfl

theorem callsFor_of_closedBy (h : ClosedBy ready n) :
    (callsFor ready n).map Prod.snd = [.recv, .close] := by
  obtain ⟨result, hready, hcloses⟩ := h
  rw [callsFor, hready]
  dsimp only
  rw [if_pos hcloses]
  rfl

theorem receiving_callsFor (h : ¬ClosedBy ready n) :
    Receiving ((callsFor ready n).map Prod.snd) := by
  unfold callsFor
  split
  next => exact nofun
  next result hready =>
    rw [if_neg fun hcloses => h ⟨result, hready, hcloses⟩]
    exact List.forall_mem_singleton.2 rfl

theorem Receiving.append {calls calls' : List SocketCall} (h : Receiving calls)
    (h' : Receiving calls') : Receiving (calls ++ calls') :=
  List.forall_mem_append.2 ⟨h, h'⟩

/-- Some of the connections are served, and one may have been added. -/
theorem Tracked.serve (h : Tracked rt calls) (hrunning : rt.running = true) {rt' : RequestServer}
    {added : List ℕ} (hadded : added = [] ∨ added = [rt.accepted]) (hS : S.Sublist rt.pollFds)
    (hleft : Left ready rt.pollFds S left) (hfds : rt'.pollFds = left ++ added)
    (haccepted : rt'.accepted = rt.accepted + added.length) (hrunning' : rt'.running = rt.running) :
    Tracked rt' (calls ++ S.flatMap (callsFor ready)) := by
  have hcalls : ∀ n, callsOn (calls ++ S.flatMap (callsFor ready)) (.connection n) =
      callsOn calls (.connection n) ++ if n ∈ S then (callsFor ready n).map Prod.snd else [] := by
    intro n
    rw [callsOn_append, callsOn_flatMap callsFor_fst n (h.nodup.sublist hS)]
  have hnew : ∀ n ∈ added, n = rt.accepted ∧ n < rt'.accepted := by
    intro n hn
    rcases hadded with rfl | rfl
    · cases hn
    · obtain rfl := List.mem_singleton.1 hn
      exact ⟨rfl, by rw [haccepted]; exact Nat.lt_succ_self _⟩
  have hnotServed : ∀ n, rt.accepted ≤ n → n ∉ S := fun n hn hmem =>
    Nat.not_lt.2 hn (h.lt n (hS.subset hmem))
  have hle : rt.accepted ≤ rt'.accepted := by
    rw [haccepted]
    exact Nat.le_add_right _ _
  refine ⟨?_, fun n hn => ?_, fun _ n hn => ?_, fun n hn hgone => ?_, fun n hn => ?_, ?_⟩
  · rw [hfds]
    refine List.nodup_append.2 ⟨h.nodup.sublist hleft.sub, ?_, fun n hn m hm => ?_⟩
    · rcases hadded with rfl | rfl
      · exact List.nodup_nil
      · exact List.pairwise_singleton _ _
    · rw [(hnew m hm).1]
      exact Nat.ne_of_lt (h.lt n (hleft.sub.subset hn))
  · rw [hfds] at hn
    rcases List.mem_append.1 hn with hn | hn
    · exact Nat.lt_of_lt_of_le (h.lt n (hleft.sub.subset hn)) hle
    · exact (hnew n hn).2
  · rw [hfds] at hn
    rw [hcalls]
    rcases List.mem_append.1 hn with hn | hn
    · have hmem := hleft.sub.subset hn
      refine (h.receiving hrunning n hmem).append ?_
      split_ifs with hserved
      · exact receiving_callsFor fun hclosed => (hleft.mem n hmem).1 hn ⟨hserved, hclosed⟩
      · exact nofun
    · have hge := Nat.le_of_eq (hnew n hn).1.symm
      rw [h.fresh n hge, if_neg (hnotServed n hge)]
      exact nofun
  · have hgone : n ∉ left ++ added := hfds ▸ hgone.resolve_left (by simp [hrunning', hrunning])
    obtain ⟨hnotLeft, hnotAdded⟩ := not_or.1 (mt List.mem_append.2 hgone)
    have hlt : n < rt.accepted := by
      rcases hadded with rfl | rfl
      · rwa [haccepted] at hn
      · rw [haccepted, List.length_singleton] at hn
        exact Nat.lt_of_le_of_ne (Nat.le_of_lt_succ hn) fun heq =>
          hnotAdded (List.mem_singleton.2 heq)
    rw [hcalls]
    by_cases hmem : n ∈ rt.pollFds
    · -- it was open, so it has been served and closed
      obtain ⟨hserved, hclosed⟩ := not_not.1 (mt (hleft.mem n hmem).2 hnotLeft)
      rw [if_pos hserved, callsFor_of_closedBy hclosed]
      refine ⟨callsOn calls (.connection n) ++ [.recv], ?_, Or.inl (by simp)⟩
      exact (h.receiving hrunning n hmem).append (List.forall_mem_singleton.2 rfl)
    · rw [if_neg fun hserved => hmem (hS.subset hserved), List.append_nil]
      exact h.closed n hlt (Or.inr hmem)
  · have hge := Nat.le_trans hle hn
    rw [hcalls, h.fresh n hge, if_neg (hnotServed n hge)]
    rfl
  · rw [callsOn_append, callsOn_flatMap_server callsFor_fst, List.append_nil, hrunning']
    exact h.server

theorem Tracked.pass (h : Tracked rt calls) (hrunning : rt.running = true) (p : Pass) :
    Tracked (rt.pass p) (calls ++ passCalls rt.pollFds p) := by
  obtain ⟨hpass, hcalls⟩ | ⟨added, S, left, hadded, hS, hleft, hfds, haccepted, hrunning',
    hcalls⟩ :=
    pass_cases h.nodup p
  · rw [hpass, hcalls]
    exact h.finish hrunning
  · rw [hcalls]
    exact h.serve hrunning hadded hS hleft hfds haccepted hrunning'

/-- The thread and what it has called. -/
structure Inv (st : PollServer) (rt : RequestServer) : Prop where
  refines : Refines st rt
  tracked : Tracked rt st.calls

theorem inv_init (slots : ℕ → List UInt8) : Inv (init slots) (RequestServer.init slots) :=
  ⟨⟨rfl, rfl⟩, tracked_init slots⟩

theorem Inv.step (h : Inv st rt) (e : Event) : ∃ st', st.step e = some st' ∧
    Inv st' (rt.step e) := by
  obtain ⟨href, htracked⟩ := h
  rcases e with msg | p
  · refine ⟨_, rfl, ⟨href.fds, ?_⟩, ?_⟩
    · conv_rhs => rw [RequestServer.step, ← href.view]
      rfl
    · exact ⟨htracked.nodup, htracked.lt, htracked.receiving, htracked.closed, htracked.fresh,
        htracked.server⟩
  · have hsame : st.running = rt.running := congrArg RequestServer.running href.view
    rw [PollServer.step, RequestServer.step, hsame]
    split_ifs with hrunning
    · obtain ⟨st', hpass, href', hcalls⟩ := href.pass p
      exact ⟨st', hpass, href', hcalls ▸ htracked.pass hrunning p⟩
    · exact ⟨st, rfl, href, htracked⟩

theorem Inv.run : ∀ (events : List Event) {st : PollServer} {rt : RequestServer}, Inv st rt →
    ∃ st', st.run events = some st' ∧ Inv st' (rt.run events)
  | [], st, _, h => ⟨st, rfl, h⟩
  | e :: events, st, rt, h => by
    obtain ⟨st₁, hstep, h₁⟩ := h.step e
    obtain ⟨st', hrun, h'⟩ := Inv.run events h₁
    refine ⟨st', ?_, h'⟩
    rw [PollServer.run, List.foldlM_cons, hstep]
    exact hrun

/-- The loop over the indices ends in every pass, and does in every run what the one over the
connections does. -/
theorem run_refines (slots : ℕ → List UInt8) (events : List Event) : ∃ st,
    (init slots).run events = some st ∧ Refines st ((RequestServer.init slots).run events) := by
  obtain ⟨st, hrun, hinv⟩ := (inv_init slots).run events
  exact ⟨st, hrun, hinv.refines⟩

theorem Refines.mem_iff (h : Refines st rt) :
    Descriptor.connection n ∈ st.pollFds.map PollFd.fd ↔ n ∈ rt.pollFds := by
  rw [h.fds]
  simp

/-- Two listeners : the first disconnects in the pass in which the second sends a request, and the
loop is left when the feed has ended. -/
def twoListeners : List Event :=
  [.pass ⟨1, false, false, some true, fun _ => none⟩,
    .pass ⟨1, false, false, some true, fun _ => none⟩, .pass ⟨2, false, false, none, fun n =>
      if n = 0 then some .closed else some (.data (RequestServer.requestBytes 5))⟩]

theorem count_callsFor : ((callsFor ready n).map Prod.snd).count .recv =
    if (ready n).isSome then 1 else 0 := by
  unfold callsFor
  split
  next hready => simp [hready]
  next result hready => split_ifs <;> simp_all

/-- Where all that are ready are served. -/
theorem count_served {fds : List ℕ} (hnodup : fds.Nodup) {activity : ℤ}
    (hcount : ((fds.filter fun n => (ready n).isSome).length : ℤ) ≤ activity) (n : ℕ) :
    (callsOn ((served ready fds activity).flatMap (callsFor ready)) (.connection n)).count .recv =
      if n ∈ fds ∧ (ready n).isSome then 1 else 0 := by
  rw [callsOn_flatMap callsFor_fst n (hnodup.sublist (served_sublist fds activity)),
    served_eq_filter hcount]
  by_cases hmem : n ∈ fds.filter fun n => (ready n).isSome
  · obtain ⟨hfd, hready⟩ := List.mem_filter.1 hmem
    rw [if_pos hmem, count_callsFor, if_pos hready, if_pos ⟨hfd, hready⟩]
  · rw [if_neg hmem, if_neg (mt List.mem_filter.2 hmem)]
    rfl

/-- A pass receives once from each connection that `poll` has found ready. -/
theorem count_passCalls {fds : List ℕ} (hnodup : fds.Nodup)
    (hcount : (((if p.accept.isSome then 1 else 0) +
      (fds.filter fun n => (p.ready n).isSome).length : ℕ) : ℤ) ≤ p.activity) (n : ℕ) :
    (callsOn (passCalls fds p) (.connection n)).count .recv =
      if n ∈ fds ∧ (p.ready n).isSome then 1 else 0 := by
  have hnone : (fds.filter fun n => (p.ready n).isSome).length = 0 →
      ¬(n ∈ fds ∧ (p.ready n).isSome = true) := by
    intro hzero hready
    have hpos := List.length_pos_of_mem
        (List.mem_filter (p := fun n => (p.ready n).isSome).2 hready)
    omega
  unfold passCalls
  rw [if_neg (by omega)]
  by_cases hdone : p.activity = 0 ∧ p.done
  · rw [if_pos hdone, callsOn_cleanup hnodup, if_neg (hnone (by omega))]
    split_ifs <;> rfl
  rw [if_neg hdone]
  cases haccept : p.accept with
  | none =>
    rw [haccept] at hcount
    exact count_served hnodup (by simpa using hcount) n
  | some success =>
    rw [haccept, Option.isSome_some, if_pos rfl] at hcount
    dsimp only
    by_cases hlast : p.activity - 1 ≤ 0
    · rw [if_pos hlast, if_neg (hnone (by omega))]
      rfl
    · rw [if_neg hlast]
      exact count_served hnodup (by omega) n

/-- In every run, if `poll` counts at least the entries with the flag : the next pass calls `recv`
once for each connection that is ready, and for no other. -/
theorem ready_received_once {slots : ℕ → List UInt8} {events : List Event}
    (hrun : (init slots).run events = some st) (p : Pass)
    (hcount : ((st.poll p).pollFds.countP PollFd.revents : ℤ) ≤ p.activity) :
    ∃ st', st.pass p = some st' ∧ ∀ n, (callsOn st'.calls (.connection n)).count .recv =
      (callsOn st.calls (.connection n)).count .recv +
        if .connection n ∈ st.pollFds.map PollFd.fd ∧ (p.ready n).isSome then 1 else 0 := by
  obtain ⟨st₀, hrun₀, href, htracked⟩ := (inv_init slots).run events
  obtain rfl := Option.some.inj (hrun₀.symm.trans hrun)
  obtain ⟨st', hpass, -, hcalls⟩ := href.pass p
  have hflags : (st₀.poll p).pollFds.countP PollFd.revents =
      (if p.accept.isSome then 1 else 0) + (((RequestServer.init slots).run events).pollFds.filter
        fun n => (p.ready n).isSome).length := by
    rw [href.poll, List.countP_cons, List.countP_map, List.countP_eq_length_filter, Nat.add_comm]
    rfl
  refine ⟨st', hpass, fun n => ?_⟩
  rw [hcalls, callsOn_append, List.count_append, count_passCalls htracked.nodup (hflags ▸ hcount)]
  simp only [href.mem_iff]

/-- The second listener is received from in the pass in which the first is erased. -/
theorem ready_received_once_twoListeners : ∃ st st',
    (init fun _ => []).run (twoListeners.take 2) = some st ∧
    st.pass ⟨2, false, false, none, fun n => if n = 0 then some .closed else some .again⟩ =
      some st' ∧
    ∀ n, (callsOn st'.calls (.connection n)).count .recv =
      (callsOn st.calls (.connection n)).count .recv +
        if .connection n ∈ st.pollFds.map PollFd.fd ∧
          ((if n = 0 then some RecvResult.closed else some .again).isSome) then 1 else 0 := by
  have hview : ((init fun _ => []).run (twoListeners.take 2)).map (fun st =>
      (st.poll ⟨2, false, false, none, fun n =>
        if n = 0 then some .closed else some .again⟩).pollFds.countP PollFd.revents) =
      some 2 := by decide +kernel
  obtain ⟨st, hrun, hcount⟩ := Option.map_eq_some_iff.1 hview
  obtain ⟨st', hpass, hreceived⟩ := ready_received_once hrun
    ⟨2, false, false, none, fun n => if n = 0 then some .closed else some .again⟩
    (by rw [hcount]; exact Int.le_refl 2)
  exact ⟨st, st', hrun, hpass, hreceived⟩

end PollServer

end TradeX
