import TradeX.Retransmitter

/-!
# Requests in pieces

`listenerThread` of `Retransmitter`, one pass of its loop after the other : `poll` reports, a
connection is accepted, and for each connection that is readable `recv` is called once, for the
eight bytes of a sequence number. A connection is a stream of bytes, and `recv` may return
fewer; the thread keeps nothing of them for the next pass.

So what is looked up for a connection are the pieces of eight bytes (`Logged`), and these are
the numbers requested iff no piece is shorter (`requests_looked_up_iff`).
-/

namespace TradeX

/-- The connections of `poll_fds` after the server socket, each by its number in the order they
were accepted, and whether the thread is in its loop. Recorded are the numbers looked up, the
messages sent, and the bytes that `recv` returned, each with its connection. -/
structure RequestServer where
  pollFds : List ℕ
  accepted : ℕ
  running : Bool
  slots : ℕ → List UInt8
  lookups : List (ℕ × ℕ)
  sent : List (ℕ × List UInt8)
  pieces : List (ℕ × List UInt8)

namespace RequestServer

open Retransmitter (RecvResult slotCount)

/-- What a pass sees : the result of `poll` and whether its error is `EINTR`, the flag `done`,
whether the server socket is readable and then whether `accept` succeeds, and for each
connection that is readable the result of its `recv`. -/
structure Pass where
  activity : ℤ
  eintr : Bool
  done : Bool
  accept : Option Bool
  ready : ℕ → Option RecvResult

/-- `storeThread` stores a message, or `listenerThread` makes a pass. -/
inductive Event
  | store (msg : List UInt8)
  | pass (p : Pass)

/-- The server before its first pass. -/
def init (slots : ℕ → List UInt8) : RequestServer :=
  ⟨[], 0, true, slots, [], [], []⟩

/-- `sizeof(uint64_t)`. -/
def sizeofSeq : ℕ := 8

/-- A request has been read : its slot is looked up, and the message sent if it is the one. -/
def lookup (st : RequestServer) (fd requestedSeq : ℕ) : RequestServer :=
  let cached := st.slots (requestedSeq &&& (slotCount - 1))
  { st with
    lookups := st.lookups ++ [(fd, requestedSeq)]
    sent := if seqNumOf cached = requestedSeq then st.sent ++ [(fd, cached)] else st.sent }

/-- What is done with the result of `recv`, and whether the connection is closed : at the end of
the stream, and after an error that is not `EAGAIN` or `EWOULDBLOCK`. -/
def serve (st : RequestServer) (fd : ℕ) : RecvResult → Bool × RequestServer
  | .data piece =>
    if piece.length = 0 then (true, st)
    else
      let st := { st with pieces := st.pieces ++ [(fd, piece)] }
      if piece.length = sizeofSeq then (false, st.lookup fd (Buffer.fieldAt piece 0 sizeofSeq))
      else (false, st)
  | .again => (false, st)
  | .interrupted | .failed | .closed => (true, st)

/-- The loop over the connections, and those that are left in the list. It ends when it has
served as many as `poll` has reported. -/
def serveAll (ready : ℕ → Option RecvResult) :
    List ℕ → ℤ → RequestServer → List ℕ × RequestServer
  | [], _, st => ([], st)
  | fd :: fds, activity, st =>
    match ready fd with
    | none =>
      let (left, st) := serveAll ready fds activity st
      (fd :: left, st)
    | some result =>
      let (closes, st) := st.serve fd result
      let (left, st) :=
        if activity - 1 ≤ 0 then (fds, st) else serveAll ready fds (activity - 1) st
      (if closes then left else fd :: left, st)

/-- Requests of the connections that were there before the pass. -/
def serveReady (st : RequestServer) (ready : ℕ → Option RecvResult) (activity : ℤ)
    (added : List ℕ) : RequestServer :=
  let (left, st) := serveAll ready st.pollFds activity st
  { st with pollFds := left ++ added }

/-- A pass of the loop. A connection that has just been accepted is not readable in it. -/
def pass (st : RequestServer) (p : Pass) : RequestServer :=
  if p.activity < 0 then
    if p.eintr then st else { st with running := false }
  else if p.activity = 0 ∧ p.done then { st with running := false }
  else
    match p.accept with
    | none => st.serveReady p.ready p.activity []
    | some success =>
      let added := if success then [st.accepted] else []
      let st := { st with accepted := st.accepted + added.length }
      if p.activity - 1 ≤ 0 then { st with pollFds := st.pollFds ++ added }
      else st.serveReady p.ready (p.activity - 1) added

/-- A message is stored, or the loop makes a pass. -/
def step (st : RequestServer) : Event → RequestServer
  | .store msg => { st with slots := Retransmitter.writeSlot st.slots msg }
  | .pass p => if st.running then st.pass p else st

/-- Stores and passes, one after the other. -/
def run (st : RequestServer) (events : List Event) : RequestServer :=
  events.foldl step st

/-- The bytes `missing_packet_request` sends for a sequence number. -/
def requestBytes (seqNum : ℕ) : List UInt8 :=
  Buffer.bytesLE sizeofSeq seqNum

/-! ## What is looked up -/

/-- The numbers looked up are the pieces of eight bytes, and no piece is empty. -/
structure Logged (st : RequestServer) : Prop where
  lookups : st.lookups = (st.pieces.filter fun e => e.2.length = sizeofSeq).map
    fun e => (e.1, Buffer.fieldAt e.2 0 sizeofSeq)
  nonempty : ∀ e ∈ st.pieces, 0 < e.2.length

theorem logged_init (slots : ℕ → List UInt8) : Logged (init slots) :=
  ⟨rfl, fun _ h => absurd h List.not_mem_nil⟩

variable {st : RequestServer}

theorem Logged.serve (h : Logged st) (fd : ℕ) (result : RecvResult) :
    Logged (st.serve fd result).2 := by
  rcases result with piece | _ | _ | _ | _
  · simp only [RequestServer.serve]
    have hadd : piece.length ≠ 0 → ∀ e ∈ st.pieces ++ [(fd, piece)], 0 < e.2.length := by
      intro hpos e he
      rcases List.mem_append.1 he with he | he
      · exact h.nonempty e he
      · rw [List.mem_singleton.1 he]
        exact Nat.pos_of_ne_zero hpos
    split_ifs with hempty hwhole
    · exact h
    · refine ⟨?_, hadd hempty⟩
      simp only [lookup, List.filter_append, List.map_append, ← h.lookups]
      simp [hwhole]
    · refine ⟨?_, hadd hempty⟩
      simp only [List.filter_append, List.map_append, ← h.lookups]
      simp [hwhole]
  all_goals exact h

theorem Logged.serveAll (ready : ℕ → Option RecvResult) : ∀ (fds : List ℕ) (activity : ℤ)
    {st : RequestServer}, Logged st → Logged (serveAll ready fds activity st).2
  | [], _, _, h => h
  | fd :: fds, activity, st, h => by
    rw [RequestServer.serveAll]
    split
    · exact Logged.serveAll ready fds activity h
    · next result _ =>
      have hserved := h.serve fd result
      dsimp only
      split_ifs
      · exact hserved
      · exact Logged.serveAll ready fds (activity - 1) hserved

theorem Logged.serveReady (h : Logged st) (ready : ℕ → Option RecvResult) (activity : ℤ)
    (added : List ℕ) : Logged (st.serveReady ready activity added) := by
  have hall := Logged.serveAll ready st.pollFds activity h
  exact ⟨hall.lookups, hall.nonempty⟩

theorem Logged.pass (h : Logged st) (p : Pass) : Logged (st.pass p) := by
  rw [RequestServer.pass]
  split
  · split
    · exact h
    · exact ⟨h.lookups, h.nonempty⟩
  · split
    · exact ⟨h.lookups, h.nonempty⟩
    · split
      · exact h.serveReady _ _ _
      · dsimp only
        have h' : ∀ n, Logged { st with accepted := n } := fun n => ⟨h.lookups, h.nonempty⟩
        split
        · exact ⟨h.lookups, h.nonempty⟩
        · exact (h' _).serveReady _ _ _

theorem Logged.run (events : List Event) : ∀ {st : RequestServer}, Logged st →
    Logged (st.run events) := by
  induction events with
  | nil => exact fun h => h
  | cons e events ih =>
    intro st h
    refine ih ?_
    rcases e with msg | p
    · exact ⟨h.lookups, h.nonempty⟩
    · rw [step]
      split_ifs
      · exact h.pass p
      · exact h

/-- The numbers looked up for a connection. -/
theorem Logged.ofSource_lookups (h : Logged st) (fd : ℕ) :
    Streams.ofSource st.lookups fd =
      ((Streams.ofSource st.pieces fd).filter fun piece => piece.length = sizeofSeq).map
        fun piece => Buffer.fieldAt piece 0 sizeofSeq := by
  rw [h.lookups, Streams.ofSource_map fun piece => Buffer.fieldAt piece 0 sizeofSeq]
  congr 1
  simp only [Streams.ofSource, List.filter_map, List.filter_filter, Function.comp_def]
  congr 1
  refine List.filter_congr fun e _ => ?_
  exact Bool.and_comm _ _

/-- Pieces of eight bytes that make up the requests are the requests. -/
theorem pieces_eq_requests {requests : List ℕ} {pieces : List (List UInt8)}
    (hstream : pieces.flatten = (requests.map requestBytes).flatten)
    (hpieces : ∀ piece ∈ pieces, piece.length = sizeofSeq) :
    pieces = requests.map requestBytes := by
  have hrequests : ∀ f ∈ requests.map requestBytes, f.length = sizeofSeq := by
    intro f hf
    obtain ⟨seqNum, -, rfl⟩ := List.mem_map.1 hf
    exact Buffer.length_bytesLE _ _
  have hn : 0 < sizeofSeq := by decide
  rw [← Streams.frames_flatten hn hpieces, hstream, Streams.frames_flatten hn hrequests]

/-- A listener's requests, in the pieces that `recv` has returned for its connection in any run :
the numbers requested are looked up, in order, iff every piece is a whole request. -/
theorem requests_looked_up_iff (slots : ℕ → List UInt8) (events : List Event) (fd : ℕ)
    (requests : List ℕ) (hrequests : ∀ seqNum ∈ requests, seqNum < 2 ^ 64)
    (hstream : (Streams.ofSource ((init slots).run events).pieces fd).flatten =
      (requests.map requestBytes).flatten) :
    Streams.ofSource ((init slots).run events).lookups fd = requests ↔
      ∀ piece ∈ Streams.ofSource ((init slots).run events).pieces fd, piece.length =
        sizeofSeq := by
  have h := (logged_init slots).run events
  rw [h.ofSource_lookups]
  generalize hps : Streams.ofSource ((init slots).run events).pieces fd = pieces at hstream ⊢
  constructor
  · intro heq
    refine Streams.forall_length_of_filter (fun piece hpiece => ?_) ?_
    · exact h.nonempty _ (Streams.mem_of_mem_ofSource (hps ▸ hpiece))
    · have hlen := congrArg List.length heq
      rw [List.length_map] at hlen
      rw [hstream, hlen, Streams.length_flatten (n := sizeofSeq), List.length_map]
      intro f hf
      obtain ⟨seqNum, -, rfl⟩ := List.mem_map.1 hf
      exact Buffer.length_bytesLE _ _
  · intro hpieces
    rw [List.filter_eq_self.2 fun piece hpiece => decide_eq_true (hpieces piece hpiece),
      pieces_eq_requests hstream hpieces, List.map_map]
    refine (List.map_congr_left fun seqNum hseq => ?_).trans (List.map_id requests)
    exact Buffer.fieldAt_bytesLE (hrequests seqNum hseq)

/-- A request for number 5 in two pieces, of three and of five bytes. -/
def splitRequest : List Event :=
  [.pass ⟨1, false, false, some true, fun _ => none⟩,
    .pass ⟨1, false, false, none, fun _ => some (.data [5, 0, 0])⟩,
    .pass ⟨1, false, false, none, fun _ => some (.data [0, 0, 0, 0, 0])⟩]

/-- Nothing is looked up. -/
theorem split_request_lost :
    let st := (init fun _ => []).run splitRequest
    (Streams.ofSource st.pieces 0).flatten = ([5].map requestBytes).flatten ∧
      Streams.ofSource st.lookups 0 = [] := by
  decide +kernel

/-- Two requests, each in one piece, with a pass in which `recv` returns nothing. -/
def wholeRequests : List Event :=
  [.pass ⟨1, false, false, some true, fun _ => none⟩,
    .pass ⟨1, false, false, none, fun _ => some (.data (requestBytes 5))⟩,
    .pass ⟨1, false, false, none, fun _ => some .again⟩,
    .pass ⟨1, false, false, none, fun _ => some (.data (requestBytes 300))⟩]

theorem requests_looked_up_whole :
    Streams.ofSource ((init fun _ => []).run wholeRequests).lookups 0 = [5, 300] :=
  (requests_looked_up_iff (fun _ => []) wholeRequests 0 [5, 300] (by decide)
    (by decide +kernel)).2 (by decide +kernel)

end RequestServer

end TradeX
