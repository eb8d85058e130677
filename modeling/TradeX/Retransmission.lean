import TradeX.GapDetection

/-!
# Requesting lost messages

`missing_packet_request` of the client and `listenerThread` of `Retransmitter`, over a
connection that delivers whole requests and replies in order, while `storeThread` stores other
messages in the slots. The client sends one request at a time and waits for its reply. The
retransmitter replies if the slot of the number holds that message, and is silent otherwise.

`never_wedged_iff` : the client never waits for nothing (`Answered`) iff every request comes to a
slot that holds its message (`Cached`).
-/

namespace TradeX

/-- Where `missing_packet_request` is : in `pop`, in the `recv` after the request for a number, or
at its end. -/
inductive RequestPc
  | pop
  | recv (seqNum : ℕ)
  | returned
  deriving DecidableEq, Repr

/-- Both parties, with the requests and the replies in flight between them. -/
structure Retransmission where
  queue : SpscQueue ℕ
  done : Bool
  pc : RequestPc
  isOpen : Bool
  requests : List ℕ
  replies : List (List UInt8)
  retransmitter : Retransmitter

namespace Retransmission

/-- `listener` queues a number, `missing_packet_request` pops one and sends the request, its `recv`
returns; `storeThread` stores a message, `listenerThread` handles a request, or closes the
connection at its end. -/
inductive Action
  | push (seqNum : ℕ)
  | pop
  | recv
  | store (msg : List UInt8)
  | handle
  | close

/-- The client and the server at their start. -/
def init (array : ℕ → ℕ) (retransmitter : Retransmitter) : Retransmission :=
  ⟨.new array, false, .pop, true, [], [], retransmitter⟩

/-- `buffer[seq & (SIZE - 1)]`. -/
def slot (st : Retransmission) (seqNum : ℕ) : List UInt8 :=
  st.retransmitter.slots (seqNum &&& (Retransmitter.slotCount - 1))

/-- A step of the client or of the server, if it can be taken. -/
def step (st : Retransmission) : Action → Option Retransmission
  | .push seqNum => some { st with queue := (st.queue.push Listener.queueBufferSize seqNum).2 }
  | .pop =>
    match st.pc with
    | .pop =>
      match st.queue.pop Listener.queueBufferSize with
      | some (seqNum, queue) =>
        -- what is sent on a closed connection is lost
        some { st with
          queue := queue
          pc := .recv seqNum
          requests := if st.isOpen then st.requests ++ [seqNum] else st.requests }
      | none => some { st with pc := if st.done then .returned else .pop }
    | _ => none
  | .recv =>
    match st.pc with
    | .recv _ =>
      match st.replies with
      | _ :: replies => some { st with pc := .pop, replies := replies }
      -- `recv` waits, or returns 0 at the end of the stream
      | [] => if st.isOpen then none else some { st with pc := .pop, done := true }
    | _ => none
  | .store msg => some { st with retransmitter := st.retransmitter.store msg }
  | .handle =>
    if st.isOpen then
      match st.requests with
      | seqNum :: requests =>
        let cached := st.slot seqNum
        some { st with
          requests := requests
          replies := if seqNumOf cached = seqNum then st.replies ++ [cached] else st.replies }
      | [] => none
    else none
  | .close => if st.isOpen then some { st with isOpen := false, requests := [] } else none

/-- Steps in any order. -/
def run (st : Retransmission) (actions : List Action) : Option Retransmission :=
  actions.foldlM step st

/-! ## The statement -/

/-- If the client waits and the connection is open, its request or the reply is in flight. -/
def Answered (st : Retransmission) : Prop :=
  ∀ seqNum, st.pc = .recv seqNum → st.isOpen →
    seqNum ∈ st.requests ∨ ∃ msg ∈ st.replies, seqNumOf msg = seqNum

/-- A request that is handled comes to a slot that holds its message. -/
def Cached (st : Retransmission) (a : Action) : Prop :=
  a = .handle → st.isOpen → ∀ seqNum ∈ st.requests.head?, seqNumOf (st.slot seqNum) = seqNum

/-! ## One request at a time -/

/-- What may be in flight : nothing, or while the client waits its request or the reply. -/
structure Exchange (st : Retransmission) : Prop where
  closed : st.isOpen = false → st.requests = []
  one : st.requests = [] ∧ st.replies = [] ∨ ∃ seqNum, st.pc = .recv seqNum ∧
    (st.requests = [seqNum] ∧ st.replies = [] ∨
      st.requests = [] ∧ ∃ msg, st.replies = [msg] ∧ seqNumOf msg = seqNum)

variable {st st' : Retransmission} {a : Action}

/-- What a step does to the connection : nothing, or a request is sent, a reply received, a request
handled, or the connection closed. -/
theorem step_cases (hstep : st.step a = some st') :
    (a ≠ .handle ∧ (∀ seqNum, st'.pc = .recv seqNum ↔ st.pc = .recv seqNum) ∧
      st'.isOpen = st.isOpen ∧ st'.requests = st.requests ∧ st'.replies = st.replies) ∨
    (∃ seqNum, a ≠ .handle ∧ st.pc = .pop ∧ st'.pc = .recv seqNum ∧
      st'.isOpen = st.isOpen ∧
      st'.requests = (if st.isOpen then st.requests ++ [seqNum] else st.requests) ∧
      st'.replies = st.replies) ∨
    (∃ seqNum, a ≠ .handle ∧ st.pc = .recv seqNum ∧ st'.pc = .pop ∧
      st'.requests = st.requests ∧
      st'.replies = st.replies.tail ∧ (st.replies = [] → st.isOpen = false)) ∨
    (∃ seqNum requests, a = .handle ∧ st.isOpen = true ∧ st.requests = seqNum :: requests ∧
      st'.pc = st.pc ∧ st'.isOpen = true ∧ st'.requests = requests ∧
      st'.replies = if seqNumOf (st.slot seqNum) = seqNum then st.replies ++ [st.slot seqNum]
        else st.replies) ∨
    (a ≠ .handle ∧ st'.pc = st.pc ∧ st'.isOpen = false ∧ st'.requests = [] ∧
      st'.replies = st.replies) := by
  unfold step at hstep
  split at hstep
  case h_1 =>
    cases hstep
    exact Or.inl ⟨by simp, fun _ => Iff.rfl, rfl, rfl, rfl⟩
  case h_2 =>
    split at hstep
    next hpc =>
      split at hstep
      next =>
        cases hstep
        exact Or.inr (Or.inl ⟨_, by simp, hpc, rfl, rfl, rfl, rfl⟩)
      next =>
        cases hstep
        refine Or.inl ⟨by simp, fun _ => ?_, rfl, rfl, rfl⟩
        rw [hpc]
        dsimp only
        split_ifs <;> simp
    next => cases hstep
  case h_3 =>
    split at hstep
    next hpc =>
      split at hstep
      next hreplies =>
        cases hstep
        exact Or.inr (Or.inr (Or.inl ⟨_, by simp, hpc, rfl, rfl, by rw [hreplies]; rfl,
          fun h => by simp [hreplies] at h⟩))
      next hreplies =>
        split_ifs at hstep with hopen
        cases hstep
        exact Or.inr (Or.inr (Or.inl ⟨_, by simp, hpc, rfl, rfl, by rw [hreplies]; rfl,
          fun _ => by simpa using hopen⟩))
    next => cases hstep
  case h_4 =>
    cases hstep
    exact Or.inl ⟨by simp, fun _ => Iff.rfl, rfl, rfl, rfl⟩
  case h_5 =>
    split_ifs at hstep with hopen
    split at hstep
    next hrequests =>
      cases hstep
      exact Or.inr (Or.inr (Or.inr (Or.inl ⟨_, _, rfl, hopen, hrequests, rfl, hopen, rfl,
        rfl⟩)))
    next => cases hstep
  case h_6 =>
    split_ifs at hstep with hopen
    cases hstep
    exact Or.inr (Or.inr (Or.inr (Or.inr ⟨by simp, rfl, rfl, rfl, rfl⟩)))

theorem exchange_init (array : ℕ → ℕ) (retransmitter : Retransmitter) :
    Exchange (init array retransmitter) :=
  ⟨fun _ => rfl, Or.inl ⟨rfl, rfl⟩⟩

/-- While the client does not wait, nothing is in flight. -/
theorem Exchange.nothing (h : Exchange st) (hpc : st.pc = .pop) :
    st.requests = [] ∧ st.replies = [] := by
  rcases h.one with hnone | ⟨seqNum, hrecv, -⟩
  · exact hnone
  · rw [hpc] at hrecv
    cases hrecv

/-- A request in flight is that of the client that waits, and alone. -/
theorem Exchange.request (h : Exchange st) {seqNum : ℕ} {requests : List ℕ}
    (hst : st.requests = seqNum :: requests) :
    st.pc = .recv seqNum ∧ requests = [] ∧ st.replies = [] := by
  rcases h.one with ⟨hnone, -⟩ | ⟨seqNum', hrecv, ⟨hone, hnone⟩ | ⟨hnone, -⟩⟩
  · rw [hst] at hnone
    cases hnone
  · rw [hst] at hone
    cases hone
    exact ⟨hrecv, rfl, hnone⟩
  · rw [hst] at hnone
    cases hnone

/-- A reply is received, or the end of the stream : nothing is left in flight. -/
theorem Exchange.received (h : Exchange st) (hopen : st.replies = [] → st.isOpen = false) :
    st.requests = [] ∧ st.replies.tail = [] := by
  rcases h.one with ⟨hreq, hrep⟩ | ⟨_, -, ⟨-, hrep⟩ | ⟨hreq, _, hrep, -⟩⟩
  · exact ⟨hreq, by rw [hrep]; rfl⟩
  · exact ⟨h.closed (hopen hrep), by rw [hrep]; rfl⟩
  · exact ⟨hreq, by rw [hrep]; rfl⟩

theorem Exchange.step (h : Exchange st) (hstep : st.step a = some st') : Exchange st' := by
  rcases step_cases hstep with ⟨-, hpc, hopen, hreq, hrep⟩ | ⟨seqNum, -, hpc, hpc', hopen,
    hreq, hrep⟩ |
      ⟨seqNum, -, -, -, hreq, hrep, hopen⟩ | ⟨seqNum, requests, -, -, hst, hpc, hopen, hreq,
        hrep⟩ |
      ⟨-, hpc, -, hreq, hrep⟩
  · exact ⟨by rw [hopen, hreq]; exact h.closed, by simpa only [hpc, hreq, hrep] using h.one⟩
  · obtain ⟨hnone, hnone'⟩ := h.nothing hpc
    rw [hnone, ← hopen] at hreq
    split_ifs at hreq with hst'
    · exact ⟨fun hclosed => absurd hst' (by simp [hclosed]),
        Or.inr ⟨seqNum, hpc', Or.inl ⟨hreq, hrep.trans hnone'⟩⟩⟩
    · exact ⟨fun _ => hreq, Or.inl ⟨hreq, hrep.trans hnone'⟩⟩
  · obtain ⟨hnone, hnone'⟩ := h.received hopen
    exact ⟨fun _ => hreq.trans hnone, Or.inl ⟨hreq.trans hnone, hrep.trans hnone'⟩⟩
  · obtain ⟨hrecv, rfl, hnone⟩ := h.request hst
    rw [hnone] at hrep
    split_ifs at hrep with hcached
    · exact ⟨fun _ => hreq,
        Or.inr ⟨seqNum, hpc.trans hrecv, Or.inr ⟨hreq, _, hrep, hcached⟩⟩⟩
    · exact ⟨fun _ => hreq, Or.inl ⟨hreq, hrep⟩⟩
  · refine ⟨fun _ => hreq, ?_⟩
    rcases h.one with ⟨-, hnone⟩ | ⟨seqNum, hrecv,
      ⟨-, hnone⟩ | ⟨-, msg, hmsg, hseq⟩⟩
    · exact Or.inl ⟨hreq, hrep.trans hnone⟩
    · exact Or.inl ⟨hreq, hrep.trans hnone⟩
    · exact Or.inr ⟨seqNum, hpc.trans hrecv, Or.inr ⟨hreq, msg, hrep.trans hmsg, hseq⟩⟩

/-- A step leaves the client with an answer to wait for iff it is not a request that comes to
another message. -/
theorem Exchange.answered_iff (h : Exchange st) (hans : Answered st)
    (hstep : st.step a = some st') : Answered st' ↔ Cached st a := by
  rcases step_cases hstep with ⟨ha, hpc, hopen, hreq, hrep⟩ | ⟨seqNum, ha, hpc, hpc', hopen,
    hreq, -⟩ |
      ⟨seqNum, ha, -, hpc', -⟩ | ⟨seqNum, requests, rfl, hopen, hst, hpc, hopen', hreq,
        hrep⟩ |
      ⟨ha, hpc, hopen, hreq, hrep⟩
  · refine iff_of_true (fun seqNum hrecv hst' => ?_) fun h => absurd h ha
    rw [hreq, hrep]
    exact hans seqNum ((hpc seqNum).1 hrecv) (hopen ▸ hst')
  · refine iff_of_true (fun seqNum' hrecv hst' => Or.inl ?_) fun h => absurd h ha
    rw [hpc'] at hrecv
    cases hrecv
    rw [hreq, if_pos (hopen ▸ hst')]
    exact List.mem_append_right _ (List.mem_singleton_self _)
  · refine iff_of_true (fun seqNum' hrecv _ => ?_) fun h => absurd h ha
    rw [hpc'] at hrecv
    cases hrecv
  · -- the request has left the connection, and no other is in flight
    obtain ⟨hrecv, rfl, hnone⟩ := h.request hst
    rw [hnone] at hrep
    constructor
    · intro hans' _ _ seqNum' hmem
      rw [hst] at hmem
      cases hmem
      rcases hans' seqNum (hpc.trans hrecv) hopen' with hmem | ⟨msg, hmsg, -⟩
      · rw [hreq] at hmem
        exact absurd hmem List.not_mem_nil
      · rw [hrep] at hmsg
        split_ifs at hmsg with hcached
        · exact hcached
        · exact absurd hmsg List.not_mem_nil
    · intro hcached seqNum' hrecv' _
      rw [hpc, hrecv] at hrecv'
      cases hrecv'
      have hslot := hcached rfl hopen seqNum (by rw [hst]; rfl)
      rw [if_pos hslot] at hrep
      exact Or.inr ⟨_, by rw [hrep]; exact List.mem_singleton_self _, hslot⟩
  · refine iff_of_true (fun seqNum _ hst' => ?_) fun h => absurd h ha
    rw [hopen] at hst'
    cases hst'

/-! ## Whole runs -/

/-- In every state of a run the client that waits has an answer to wait for, iff every request is
handled while its message is in the slot. -/
theorem never_wedged_iff (array : ℕ → ℕ) (retransmitter : Retransmitter)
    (actions : List Action) :
    (∀ pre post st, actions = pre ++ post → (init array retransmitter).run pre = some st →
      Answered st) ↔
      Runs.Always (fun st a st' => step st a = some st') Cached (init array retransmitter)
        actions := by
  have hall : Runs.Always (fun st a st' => step st a = some st') (fun _ _ => True)
      (init array retransmitter) actions := .of_forall_mem fun _ _ _ => trivial
  have hstart : Answered (init array retransmitter) := by
    intro seqNum hrecv
    cases hrecv
  -- a request that would not be answered can be handled
  have hmove : ∀ {st : Retransmission} {a : Action}, Exchange st → True →
      Cached st a ∨ ∃ st', st.step a = some st' := by
    intro st a _ _
    by_cases hhandle : a = .handle ∧ st.isOpen ∧ st.requests ≠ []
    · obtain ⟨rfl, hopen, hne⟩ := hhandle
      obtain ⟨seqNum, requests, hst⟩ := List.exists_cons_of_ne_nil hne
      exact Or.inr (Option.isSome_iff_exists.1 (by simp [step, hopen, hst]))
    · refine Or.inl fun ha hopen seqNum hmem => absurd ⟨ha, hopen, fun hnil => ?_⟩ hhandle
      rw [hnil] at hmem
      cases hmem
  have hiff := Runs.always_iff (R := fun st a st' => step st a = some st') (I := Exchange)
    (G := Answered) (P := Cached) (L := fun _ _ => True) (fun h _ hstep => h.step hstep)
    (fun h _ hstep hans => h.answered_iff hans hstep) hmove (exchange_init array retransmitter)
    hstart hall
  simp only [Runs.steps_iff_some] at hiff
  exact hiff

/-- Message 7 is stored, and then one 2^20 later. A request for message 7 comes to the slot. -/
def evicted : List Action :=
  [.store (List.replicate 32 0 ++ 7 :: List.replicate 31 0),
    .store (List.replicate 32 0 ++ 7 :: 0 :: 16 :: List.replicate 29 0), .push 7, .pop, .handle]

/-- The client waits for a reply that is not sent. -/
theorem request_unanswered : ∃ st,
    (init (fun _ => 0) (.init (fun _ => 0) fun _ => List.replicate 64 0)).run evicted = some st ∧
      st.retransmitter.stored.map seqNumOf = [7, 7 + 2 ^ 20] ∧ st.pc = .recv 7 ∧
      st.isOpen = true ∧ st.requests = [] ∧ st.replies = [] ∧ ¬ Answered st := by
  have hview : ((init (fun _ => 0) (.init (fun _ => 0) fun _ => List.replicate 64 0)).run
      evicted).map
      (fun st => (st.retransmitter.stored.map seqNumOf, st.pc, st.isOpen, st.requests,
        st.replies.length)) = some ([7, 7 + 2 ^ 20], .recv 7, true, [], 0) := by decide +kernel
  obtain ⟨st, hrun, hst⟩ := Option.map_eq_some_iff.1 hview
  simp only [Prod.mk.injEq] at hst
  obtain ⟨hstored, hpc, hopen, hreq, hlen⟩ := hst
  have hrep := List.length_eq_zero_iff.1 hlen
  refine ⟨st, hrun, hstored, hpc, hopen, hreq, hrep, fun hans => ?_⟩
  rcases hans 7 hpc hopen with hmem | ⟨msg, hmem, -⟩
  · rw [hreq] at hmem
    exact absurd hmem List.not_mem_nil
  · rw [hrep] at hmem
    exact absurd hmem List.not_mem_nil

end Retransmission

end TradeX
