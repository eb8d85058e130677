import TradeX.Retransmission
import Mathlib.Data.List.Induction
import Mathlib.Data.List.Perm.Basic

/-!
# Recovering lost messages

`listener` and `missing_packet_request` of a client together with the two threads of the
`Retransmitter`. The client is sent messages that may get lost, and the retransmitter stores all of
them, in order. `listener` queues the numbers it finds missing, one after the other, and the other
thread requests them one at a time.

Of at most `SIZE` messages, with number 0 received and every request handled once its message has
been stored, each number up to the last one received is at any time in one place : received,
recovered, requested, queued, or about to be queued. No request waits for nothing, and what is
recovered is the message that was sent (`recovers`). The numbers that are still missing can always
be recovered (`can_recover`).
-/

namespace TradeX

/-- `missing` are the numbers that `listener` has still to queue for the message it is at, and
`recovered` what the `recv` of `missing_packet_request` has returned. -/
structure Recovery where
  link : Retransmission
  lastSeqNum : ℕ
  missing : List ℕ
  received : List (List UInt8)
  recovered : List (List UInt8)

namespace Recovery

/-- `listener` comes to a message or queues a number, or one of the other threads goes on. -/
inductive Action
  | receive (msg : List UInt8)
  | push
  | link (a : Retransmission.Action)

/-- The listener and its retransmission client at their start. -/
def init (array : ℕ → ℕ) (retransmitter : Retransmitter) : Recovery :=
  ⟨.init array retransmitter, 0, [], [], []⟩

/-- What the `recv` of the client returns. -/
def replied (link : Retransmission) : Retransmission.Action → List (List UInt8)
  | .recv => link.replies.take 1
  | _ => []

/-- A step of the listener, of its client or of the server. -/
def step (st : Recovery) : Action → Option Recovery
  | .receive msg =>
    if st.missing = [] then
      some { st with
        lastSeqNum := seqNumOf msg
        missing := List.range' (add64 st.lastSeqNum 1) (seqNumOf msg - add64 st.lastSeqNum 1)
        received := st.received ++ [msg] }
    else none
  | .push =>
    match st.missing with
    | seqNum :: missing => (st.link.step (.push seqNum)).map fun link =>
        { st with link := link, missing := missing }
    | [] => none
  | .link (.push _) => none
  | .link a => (st.link.step a).map fun link =>
      { st with link := link, recovered := st.recovered ++ replied st.link a }

/-- Steps in any order. -/
def run (st : Recovery) (actions : List Action) : Option Recovery :=
  actions.foldlM step st

/-- Messages get lost and are not reordered, and number 0 is received. The retransmitter stores all
of them in order, and handles a request after the message has been stored. The connection stays
open. -/
def Allowed (msgs : List (List UInt8)) (st : Recovery) : Action → Prop
  | .receive msg => msg ∈ msgs ∧ (st.received = [] → seqNumOf msg = 0) ∧
      (st.received ≠ [] → st.lastSeqNum < seqNumOf msg)
  | .link (.store msg) => st.link.retransmitter.stored ++ [msg] <+: msgs
  | .link .handle =>
      ∀ seqNum ∈ st.link.requests.head?, seqNum < st.link.retransmitter.stored.length
  | .link .close => False
  | _ => True

instance (msgs : List (List UInt8)) (st : Recovery) : (a : Action) → Decidable (Allowed msgs st a)
  | .receive _ => inferInstanceAs (Decidable (_ ∧ _ ∧ _))
  | .push => inferInstanceAs (Decidable True)
  | .link (.store _) => inferInstanceAs (Decidable (_ <+: _))
  | .link .handle => inferInstanceAs (Decidable (∀ seqNum ∈ st.link.requests.head?, _))
  | .link .close => inferInstanceAs (Decidable False)
  | .link (.push _) => inferInstanceAs (Decidable True)
  | .link .pop => inferInstanceAs (Decidable True)
  | .link .recv => inferInstanceAs (Decidable True)

/-- The number after the last one received. -/
def next (st : Recovery) : ℕ :=
  if st.received = [] then 0 else st.lastSeqNum + 1

/-- The number that has been requested. -/
def requested (st : Recovery) : List ℕ :=
  match st.link.pc with
  | .recv seqNum => [seqNum]
  | _ => []

/-! ## The slots -/

/-- Of at most as many messages as there are slots, each is found in its slot. -/
theorem slot_of_stored {slots : ℕ → List UInt8} (l : List (List UInt8)) :
    (∀ k m, l[k]? = some m → seqNumOf m = k) → l.length ≤ Retransmitter.slotCount →
    ∀ {k m}, l[k]? = some m → (l.foldl Retransmitter.writeSlot slots)
      (k % Retransmitter.slotCount) = m := by
  induction l using List.reverseRecOn with
  | nil => exact fun _ _ _ _ h => by simp at h
  | append_singleton l x ih =>
    intro hnum hlen k m hk
    have hx : seqNumOf x = l.length := hnum _ x (by simp)
    rw [List.length_append, List.length_singleton] at hlen
    rw [List.foldl_append, List.foldl_cons, List.foldl_nil, Retransmitter.writeSlot, hx]
    rcases Nat.lt_trichotomy k l.length with hlt | rfl | hgt
    · rw [List.getElem?_append_left hlt] at hk
      have hne : k % Retransmitter.slotCount ≠ l.length % Retransmitter.slotCount := by
        rw [Nat.mod_eq_of_lt (by omega), Nat.mod_eq_of_lt (by omega)]
        exact hlt.ne
      rw [Function.update_of_ne hne]
      refine ih (fun j m' hj => hnum j m' ?_) (by omega) hk
      rw [List.getElem?_append_left (List.getElem?_eq_some_iff.1 hj).1]
      exact hj
    · rw [Function.update_self]
      simpa using hk
    · rw [List.getElem?_eq_none (by simp; omega)] at hk
      cases hk

/-! ## Where the numbers are -/

/-- Each number below `next` is in one place. What has been received, recovered or sent as a reply
are messages of the feed. -/
structure Accounted (slots : ℕ → List UInt8) (msgs : List (List UInt8)) (st : Recovery)
    (queued : List ℕ) : Prop where
  exchange : Retransmission.Exchange st.link
  answered : Retransmission.Answered st.link
  running : st.link.isOpen = true ∧ st.link.done = false ∧ st.link.pc ≠ .returned
  queue : st.link.queue.Holds Listener.queueBufferSize queued
  stored : st.link.retransmitter.stored <+: msgs
  slotted : Retransmitter.Slotted slots st.link.retransmitter
  genuine : ∀ m ∈ st.received ++ st.recovered ++ st.link.replies, m ∈ msgs
  last : st.next ≤ msgs.length
  numbers : ((st.received ++ st.recovered).map seqNumOf ++
    (st.requested ++ queued ++ st.missing)).Perm (List.range st.next)

variable {slots : ℕ → List UInt8} {msgs : List (List UInt8)} {st st' : Recovery}
  {queued : List ℕ}

theorem accounted_init (array : ℕ → ℕ) (memory : ℕ → UInt8) (slots : ℕ → List UInt8)
    (msgs : List (List UInt8)) : Accounted slots msgs (init array (.init memory slots)) [] where
  exchange := Retransmission.exchange_init ..
  answered := fun _ h => by cases h
  running := ⟨rfl, rfl, nofun⟩
  queue := SpscQueue.new_holds array (by decide)
  stored := List.nil_prefix
  slotted := rfl
  genuine := nofun
  last := Nat.zero_le _
  numbers := .refl _

/-- The numbers up to a message that leaves a gap. -/
theorem range_gap {a b : ℕ} (hab : a < b) (hb : b < 2 ^ 64) :
    List.range (b + 1) = List.range (a + 1) ++ List.range' (add64 a 1) (b - add64 a 1) ++ [b] := by
  have hnext : add64 a 1 = a + 1 := Nat.mod_eq_of_lt (by omega)
  have hsplit : List.range' 0 (a + 1) ++ List.range' (0 + (a + 1)) (b - (a + 1)) =
      List.range' 0 (a + 1 + (b - (a + 1))) := List.range'_append_1
  rw [Nat.zero_add, Nat.add_sub_cancel' (Nat.succ_le_of_lt hab)] at hsplit
  rw [List.range_succ, hnext, List.range_eq_range', List.range_eq_range', hsplit]

/-- `listener` comes to a message. -/
theorem Accounted.receive (h : Accounted slots msgs st queued)
    (hnum : ∀ k m, msgs[k]? = some m → seqNumOf m = k) {msg : List UInt8}
    (hallowed : Allowed msgs st (.receive msg)) (hmissing : st.missing = []) :
    Accounted slots msgs { st with
      lastSeqNum := seqNumOf msg
      missing := List.range' (add64 st.lastSeqNum 1) (seqNumOf msg - add64 st.lastSeqNum 1)
      received := st.received ++ [msg] } queued := by
  obtain ⟨hmem, hfirst, hlater⟩ := hallowed
  have hlt : seqNumOf msg < msgs.length := by
    obtain ⟨k, hk⟩ := List.mem_iff_getElem?.1 hmem
    rw [hnum k msg hk]
    exact (List.getElem?_eq_some_iff.1 hk).1
  have hnext : next { st with
      lastSeqNum := seqNumOf msg
      missing := List.range' (add64 st.lastSeqNum 1) (seqNumOf msg - add64 st.lastSeqNum 1)
      received := st.received ++ [msg] } = seqNumOf msg + 1 := if_neg (by simp)
  have hnumbers := h.numbers
  rw [hmissing] at hnumbers
  refine ⟨h.exchange, h.answered, h.running, h.queue, h.stored, h.slotted, fun m hm => ?_, ?_,
    ?_⟩
  · have hcase : m ∈ st.received ++ st.recovered ++ st.link.replies ∨ m = msg := by
      simp only [List.mem_append, List.mem_singleton] at hm ⊢
      tauto
    rcases hcase with hold | rfl
    · exact h.genuine m hold
    · exact hmem
  · rw [hnext]
    exact hlt
  · rw [hnext]
    refine List.perm_iff_count.2 fun a => ?_
    have hcount := List.perm_iff_count.1 hnumbers a
    by_cases hnil : st.received = []
    · have hone : List.range (0 + 1) = [0] := rfl
      rw [hfirst hnil, Nat.zero_sub, hone]
      rw [next, if_pos hnil, List.range_zero] at hcount
      simp only [List.map_append, List.count_append, List.map_cons, List.map_nil, requested,
        List.count_nil, hfirst hnil, List.range'_zero] at hcount ⊢
      omega
    · rw [range_gap (hlater hnil) (Listener.seqNumOf_lt msg)]
      rw [next, if_neg hnil] at hcount
      simp only [List.map_append, List.count_append, List.map_cons, List.map_nil, requested,
        List.count_nil] at hcount ⊢
      omega

/-- The numbers that are not received are fewer than the queue holds. -/
theorem Accounted.room (h : Accounted slots msgs st queued)
    (hlen : msgs.length ≤ Retransmitter.slotCount)
    (hmissing : st.missing ≠ []) : queued.length + 1 < Listener.queueBufferSize := by
  have hlast := h.last
  have hlength := h.numbers.length_eq
  have hpos := List.length_pos_iff.2 hmissing
  simp only [List.length_append, List.length_map, List.length_range] at hlength
  have hreceived : st.received ≠ [] := by
    intro hnil
    rw [next, if_pos hnil] at hlength
    omega
  have hpos' := List.length_pos_iff.2 hreceived
  simp only [Retransmitter.slotCount, Listener.queueBufferSize] at hlen ⊢
  omega

/-- `listener` queues a number. -/
theorem Accounted.push (h : Accounted slots msgs st queued)
    (hlen : msgs.length ≤ Retransmitter.slotCount)
    {seqNum : ℕ} {missing : List ℕ} (hmissing : st.missing = seqNum :: missing)
    {link : Retransmission} (hstep : st.link.step (.push seqNum) = some link) :
    Accounted slots msgs { st with link := link, missing := missing } (queued ++ [seqNum]) := by
  have hroom := h.room hlen (by rw [hmissing]; exact List.cons_ne_nil _ _)
  obtain ⟨queue, hpush, hqueue⟩ := h.queue.push hroom seqNum
  have hanswered := (h.exchange.answered_iff h.answered hstep).2 (fun ha => by cases ha)
  have hexchange := h.exchange.step hstep
  simp only [Retransmission.step, hpush, Option.some.injEq] at hstep
  subst hstep
  refine ⟨hexchange, hanswered, h.running, hqueue, h.stored, h.slotted, h.genuine, h.last, ?_⟩
  refine List.perm_iff_count.2 fun a => ?_
  have hcount := List.perm_iff_count.1 h.numbers a
  rw [hmissing] at hcount
  simp only [List.count_append, List.count_cons, List.count_nil, requested] at hcount ⊢
  change _ = List.count a (List.range st.next)
  omega

/-- `missing_packet_request` pops a number and sends the request. -/
theorem Accounted.request {seqNum : ℕ} (h : Accounted slots msgs st (seqNum :: queued))
    (hpc : st.link.pc = .pop) :
    ∃ link, st.link.step .pop = some link ∧ link.pc = .recv seqNum ∧ link.replies = [] ∧
      link.retransmitter = st.link.retransmitter ∧
        Accounted slots msgs { st with link := link } queued := by
  obtain ⟨hopen, hdone, -⟩ := h.running
  obtain ⟨queue, hpopped, hqueue⟩ := h.queue.pop
  have hnumbers := h.numbers
  rw [requested, hpc] at hnumbers
  have hstep : st.link.step .pop = some { st.link with
      queue := queue, pc := .recv seqNum, requests := st.link.requests ++ [seqNum] } := by
    simp only [Retransmission.step, hpc, hpopped, hopen, if_true]
  exact ⟨_, hstep, rfl, (h.exchange.nothing hpc).2, rfl, h.exchange.step hstep,
    (h.exchange.answered_iff h.answered hstep).2 (fun ha => by cases ha),
    ⟨hopen, hdone, fun hreturned => by cases hreturned⟩, hqueue, h.stored, h.slotted, h.genuine,
    h.last, hnumbers⟩

theorem Accounted.pop (h : Accounted slots msgs st queued) {link : Retransmission}
    (hstep : st.link.step .pop = some link) :
    ∃ queued', Accounted slots msgs { st with link := link } queued' := by
  have hpc : st.link.pc = .pop := by
    simp only [Retransmission.step] at hstep
    split at hstep
    next hpc => exact hpc
    next => cases hstep
  cases queued with
  | nil =>
    -- the queue is empty, and the loop goes on
    have hsame : st.link.step .pop = some st.link := by
      simp only [Retransmission.step, hpc, h.queue.pop_nil]
      rw [if_neg (by simp [h.running.2.1]), ← hpc]
    obtain rfl := Option.some.inj (hsame.symm.trans hstep)
    exact ⟨[], h⟩
  | cons seqNum queued =>
    obtain ⟨_, hlink, -, -, -, h'⟩ := h.request hpc
    obtain rfl := Option.some.inj (hlink.symm.trans hstep)
    exact ⟨queued, h'⟩

/-- `missing_packet_request` receives the reply. -/
theorem Accounted.recv (h : Accounted slots msgs st queued) {link : Retransmission}
    (hstep : st.link.step .recv = some link) :
    Accounted slots msgs { st with
      link := link, recovered := st.recovered ++ st.link.replies.take 1 } queued := by
  have hanswered := (h.exchange.answered_iff h.answered hstep).2 (fun ha => by cases ha)
  have hexchange := h.exchange.step hstep
  obtain ⟨hopen, hdone, -⟩ := h.running
  simp only [Retransmission.step, hopen, if_true] at hstep
  split at hstep
  next seqNum hpc =>
    split at hstep
    next msg replies hreplies =>
      obtain rfl := Option.some.inj hstep
      -- the reply is the one to the request
      have hseq : seqNumOf msg = seqNum := by
        rcases h.exchange.one with ⟨-, hnone⟩ | ⟨seqNum', hrecv,
          ⟨-, hnone⟩ | ⟨-, msg', hone, hseq⟩⟩
        · rw [hnone] at hreplies
          cases hreplies
        · rw [hnone] at hreplies
          cases hreplies
        · rw [hone] at hreplies
          rw [hpc] at hrecv
          cases hreplies
          cases hrecv
          exact hseq
      have hnumbers := h.numbers
      have hgenuine := h.genuine
      rw [requested, hpc] at hnumbers
      rw [hreplies] at hgenuine ⊢
      refine ⟨hexchange, hanswered, ⟨rfl, hdone, fun hreturned => by cases hreturned⟩,
        h.queue, h.stored, h.slotted, fun m hm => hgenuine m ?_, h.last, ?_⟩
      · simp only [List.take_succ_cons, List.take_zero, List.mem_append, List.mem_cons,
          List.not_mem_nil, or_false] at hm ⊢
        tauto
      · refine List.perm_iff_count.2 fun a => ?_
        have hcount := List.perm_iff_count.1 hnumbers a
        simp only [List.take_succ_cons, List.take_zero, List.map_append, List.map_cons,
          List.map_nil, hseq, List.count_append, List.count_nil, requested] at hcount ⊢
        change _ = List.count a (List.range st.next)
        omega
    next => cases hstep
  next => cases hstep

/-- `storeThread` stores the next message. -/
theorem Accounted.store (h : Accounted slots msgs st queued) {msg : List UInt8}
    (hnext : st.link.retransmitter.stored ++ [msg] <+: msgs) {link : Retransmission}
    (hstep : st.link.step (.store msg) = some link) :
    Accounted slots msgs { st with link := link } queued := by
  have hanswered := (h.exchange.answered_iff h.answered hstep).2 (fun ha => by cases ha)
  have hexchange := h.exchange.step hstep
  obtain rfl := Option.some.inj hstep
  exact ⟨hexchange, hanswered, h.running, h.queue, hnext, h.slotted.store msg, h.genuine, h.last,
    h.numbers⟩

/-- A message that has been stored is in its slot. -/
theorem Accounted.slot (h : Accounted slots msgs st queued)
    (hnum : ∀ k m, msgs[k]? = some m → seqNumOf m = k)
    (hlen : msgs.length ≤ Retransmitter.slotCount)
    {seqNum : ℕ} (hlt : seqNum < st.link.retransmitter.stored.length) :
    seqNumOf (st.link.slot seqNum) = seqNum ∧ st.link.slot seqNum ∈ msgs := by
  obtain ⟨rest, hrest⟩ := h.stored
  have hget : st.link.retransmitter.stored[seqNum]? =
      some (st.link.retransmitter.stored[seqNum]) := List.getElem?_eq_getElem hlt
  have hall : ∀ (k : ℕ) m, st.link.retransmitter.stored[k]? = some m → msgs[k]? = some m := by
    intro k m hk
    rw [← hrest, List.getElem?_append_left (List.getElem?_eq_some_iff.1 hk).1, hk]
  have hslot : st.link.slot seqNum = st.link.retransmitter.stored[seqNum] := by
    have hmask : seqNum &&& (Retransmitter.slotCount - 1) = seqNum % Retransmitter.slotCount :=
      Nat.and_two_pow_sub_one_eq_mod _ 20
    rw [Retransmission.slot, hmask, h.slotted]
    refine slot_of_stored _ (fun k m hk => hnum k m (hall k m hk)) (le_trans ?_ hlen) hget
    rw [← hrest, List.length_append]
    exact Nat.le_add_right _ _
  rw [hslot]
  exact ⟨hnum _ _ (hall _ _ hget), List.mem_of_getElem? (hall _ _ hget)⟩

/-- `listenerThread` handles a request whose message has been stored. -/
theorem Accounted.handle (h : Accounted slots msgs st queued)
    (hnum : ∀ k m, msgs[k]? = some m → seqNumOf m = k)
    (hlen : msgs.length ≤ Retransmitter.slotCount)
    (hstored : ∀ seqNum ∈ st.link.requests.head?, seqNum < st.link.retransmitter.stored.length)
    {link : Retransmission} (hstep : st.link.step .handle = some link) :
    Accounted slots msgs { st with link := link } queued := by
  have hslot := fun seqNum hmem => h.slot hnum hlen (hstored seqNum hmem)
  have hanswered := (h.exchange.answered_iff h.answered hstep).2
    fun _ _ seqNum hmem => (hslot seqNum hmem).1
  have hexchange := h.exchange.step hstep
  obtain ⟨hopen, hdone, hpc⟩ := h.running
  simp only [Retransmission.step, hopen, if_true] at hstep
  split at hstep
  next seqNum requests hrequests =>
    obtain ⟨hseq, hmem⟩ := hslot seqNum (by rw [hrequests]; rfl)
    simp only [hseq, if_true] at hstep
    obtain rfl := Option.some.inj hstep
    refine ⟨hexchange, hanswered, ⟨rfl, hdone, hpc⟩, h.queue, h.stored, h.slotted,
      fun m hm => ?_, h.last, h.numbers⟩
    have hcase : m ∈ st.received ++ st.recovered ++ st.link.replies ∨
        m = st.link.slot seqNum := by
      simp only [List.mem_append, List.mem_singleton] at hm ⊢
      tauto
    rcases hcase with hold | rfl
    · exact h.genuine m hold
    · exact hmem
  next => cases hstep

theorem Accounted.step (h : Accounted slots msgs st queued)
    (hnum : ∀ k m, msgs[k]? = some m → seqNumOf m = k)
    (hlen : msgs.length ≤ Retransmitter.slotCount)
    {a : Action} (hallowed : Allowed msgs st a) (hstep : st.step a = some st') :
    ∃ queued', Accounted slots msgs st' queued' := by
  cases a with
  | receive msg =>
    simp only [Recovery.step] at hstep
    split_ifs at hstep with hmissing
    obtain rfl := Option.some.inj hstep
    exact ⟨queued, h.receive hnum hallowed hmissing⟩
  | push =>
    simp only [Recovery.step] at hstep
    split at hstep
    next seqNum missing hmissing =>
      obtain ⟨link, hlink, rfl⟩ := Option.map_eq_some_iff.1 hstep
      exact ⟨_, h.push hlen hmissing hlink⟩
    next => cases hstep
  | link a =>
    cases a with
    | push seqNum => cases hstep
    | recv =>
      obtain ⟨link, hlink, rfl⟩ := Option.map_eq_some_iff.1 hstep
      exact ⟨_, h.recv hlink⟩
    | pop =>
      obtain ⟨link, hlink, rfl⟩ := Option.map_eq_some_iff.1 hstep
      simp only [replied, List.append_nil]
      exact h.pop hlink
    | store msg =>
      simp only [Recovery.step] at hstep
      obtain ⟨link, hlink, rfl⟩ := Option.map_eq_some_iff.1 hstep
      simp only [replied, List.append_nil]
      exact ⟨_, h.store hallowed hlink⟩
    | handle =>
      obtain ⟨link, hlink, rfl⟩ := Option.map_eq_some_iff.1 hstep
      simp only [replied, List.append_nil]
      exact ⟨_, h.handle hnum hlen hallowed hlink⟩
    | close => exact hallowed.elim

/-- Messages of the feed whose numbers are the first ones are its first messages. -/
theorem perm_take {l : List (List UInt8)} {n : ℕ}
    (hnum : ∀ k m, msgs[k]? = some m → seqNumOf m = k)
    (hl : ∀ m ∈ l, m ∈ msgs) (hn : n ≤ msgs.length)
    (hperm : (l.map seqNumOf).Perm (List.range n)) : l.Perm (msgs.take n) := by
  have hself : ∀ m ∈ msgs, msgs.getD (seqNumOf m) [] = m := by
    intro m hm
    obtain ⟨k, hk⟩ := List.mem_iff_getElem?.1 hm
    rw [hnum k m hk, List.getD_eq_getElem?_getD, hk, Option.getD_some]
  have hleft : (l.map seqNumOf).map (fun k => msgs.getD k []) = l := by
    rw [List.map_map]
    exact (List.map_congr_left fun m hm => hself m (hl m hm)).trans (List.map_id l)
  have hright : (List.range n).map (fun k => msgs.getD k []) = msgs.take n := by
    refine List.ext_getElem (by simp [hn]) fun k hk _ => ?_
    have hlt : k < msgs.length := by
      rw [List.length_map, List.length_range] at hk
      omega
    rw [List.getElem_map, List.getElem_range, List.getElem_take, List.getD_eq_getElem?_getD,
      List.getElem?_eq_getElem hlt, Option.getD_some]
  rw [← hleft, ← hright]
  exact hperm.map _

section Run

variable {array : ℕ → ℕ} {memory : ℕ → UInt8} {actions : List Action}

theorem accounted_run (hnum : ∀ k m, msgs[k]? = some m → seqNumOf m = k)
    (hlen : msgs.length ≤ Retransmitter.slotCount)
    (hallowed : Runs.Always (fun st a st' => step st a = some st') (Allowed msgs)
      (init array (.init memory slots)) actions)
    (hrun : (init array (.init memory slots)).run actions = some st) :
    ∃ queued, Accounted slots msgs st queued := by
  refine Runs.Steps.invariant (I := fun st => ∃ queued, Accounted slots msgs st queued) ?_
    ⟨[], accounted_init array memory slots msgs⟩ hallowed (Runs.steps_iff_some.2 hrun)
  rintro st a st' ⟨queued, h⟩ ha hstep
  exact h.step hnum hlen ha hstep

end Run

/-- A feed of at most `SIZE` messages, numbered from 0. In every state of a run in which messages
get lost and are not reordered, number 0 is received and requests are handled after their messages
have been stored : the client that waits has an answer to wait for; what it has received and
recovered are messages of the feed; and these with the numbers it has requested, queued and has
still to queue are the numbers up to the last one received, each once. When nothing is missing any
more, it has the first messages of the feed, each once. -/
theorem recovers (array : ℕ → ℕ) (memory : ℕ → UInt8) (slots : ℕ → List UInt8)
    {msgs : List (List UInt8)} (hnum : ∀ k m, msgs[k]? = some m → seqNumOf m = k)
    (hlen : msgs.length ≤ Retransmitter.slotCount) {actions : List Action}
    (hallowed : Runs.Always (fun st a st' => step st a = some st') (Allowed msgs)
      (init array (.init memory slots)) actions) {st : Recovery}
    (hrun : (init array (.init memory slots)).run actions = some st) :
    Retransmission.Answered st.link ∧ (∀ m ∈ st.received ++ st.recovered, m ∈ msgs) ∧
      ∃ queued, st.link.queue.Holds Listener.queueBufferSize queued ∧
        ((st.received ++ st.recovered).map seqNumOf ++ (st.requested ++ queued ++ st.missing)).Perm
          (List.range st.next) ∧
        (st.requested ++ queued ++ st.missing = [] →
          (st.received ++ st.recovered).Perm (msgs.take st.next)) := by
  obtain ⟨queued, h⟩ := accounted_run hnum hlen hallowed hrun
  have hgenuine : ∀ m ∈ st.received ++ st.recovered, m ∈ msgs :=
    fun m hm => h.genuine m (List.mem_append_left _ hm)
  refine ⟨h.answered, hgenuine, queued, h.queue, h.numbers, fun hnone => ?_⟩
  have hnumbers := h.numbers
  rw [hnone, List.append_nil] at hnumbers
  exact perm_take hnum hgenuine h.last hnumbers

/-- Three messages, all other bytes zero. -/
def threeMessages : List (List UInt8) :=
  [0, 1, 2].map fun k => List.replicate 32 0 ++ k :: List.replicate 31 0

/-- The second message is lost, and requested. -/
def oneLost : List Action :=
  let msg (k : UInt8) := List.replicate 32 0 ++ k :: List.replicate 31 0
  [.receive (msg 0), .link (.store (msg 0)), .receive (msg 2), .push, .link (.store (msg 1)),
    .link .pop]

theorem threeMessages_numbered : ∀ (k : ℕ) m, threeMessages[k]? = some m → seqNumOf m = k
  | 0, m, hk => Option.some.inj hk ▸ by decide
  | 1, m, hk => Option.some.inj hk ▸ by decide
  | 2, m, hk => Option.some.inj hk ▸ by decide
  | k + 3, m, hk => by cases hk

theorem allowed_oneLost : Runs.Always (fun st a st' => step st a = some st') (Allowed threeMessages)
    (init (fun _ => 0) (.init (fun _ => 0) fun _ => List.replicate 64 0)) oneLost :=
  Runs.always_of_allowed (by decide +kernel)

theorem recovers_oneLost : ∃ st queued,
    (init (fun _ => 0) (.init (fun _ => 0) fun _ => List.replicate 64 0)).run oneLost = some st ∧
    st.received.map seqNumOf = [0, 2] ∧ st.requested = [1] ∧ Retransmission.Answered st.link ∧
    ((st.received ++ st.recovered).map seqNumOf ++ (st.requested ++ queued ++ st.missing)).Perm
      (List.range st.next) := by
  have hview : ((init (fun _ => 0) (.init (fun _ => 0) fun _ => List.replicate 64 0)).run
      oneLost).map
      (fun st => (st.received.map seqNumOf, st.requested)) = some ([0, 2], [1]) := by decide +kernel
  obtain ⟨st, hrun, hst⟩ := Option.map_eq_some_iff.1 hview
  obtain ⟨hreceived, hrequested⟩ := Prod.mk.inj hst
  obtain ⟨hanswered, -, queued, -, hnumbers, -⟩ :=
    recovers _ _ _ threeMessages_numbered (by decide) allowed_oneLost hrun
  exact ⟨st, queued, hrun, hreceived, hrequested, hanswered, hnumbers⟩

/-! ## Nothing stays missing -/

/-- The steps that remain until nothing is missing. -/
def toDo (st : Recovery) (queued : List ℕ) : ℕ :=
  4 * st.missing.length + 3 * queued.length + match st.link.pc with
    | .recv _ => if st.link.replies = [] then 2 else 1
    | _ => 0

/-- What goes on while nothing else is received or stored. -/
def Recovers (a : Action) : Prop :=
  a = .push ∨ a = .link .pop ∨ a = .link .recv ∨ a = .link .handle

/-- While something is missing that has been stored, one of the threads can go on with it. -/
theorem Accounted.progress (h : Accounted slots msgs st queued)
    (hnum : ∀ k m, msgs[k]? = some m → seqNumOf m = k)
    (hlen : msgs.length ≤ Retransmitter.slotCount)
    (hstored : st.next ≤ st.link.retransmitter.stored.length)
    (hmissing : st.requested ++ queued ++ st.missing ≠ []) :
    ∃ a st' queued', Recovers a ∧ Allowed msgs st a ∧ st.step a = some st' ∧
      Accounted slots msgs st' queued' ∧ st'.received = st.received ∧
      st'.lastSeqNum = st.lastSeqNum ∧
      st'.link.retransmitter.stored = st.link.retransmitter.stored ∧
      toDo st' queued' < toDo st queued := by
  obtain ⟨hopen, hdone, hreturned⟩ := h.running
  cases hpc : st.link.pc with
  | returned => exact absurd hpc hreturned
  | recv seqNum =>
    rcases h.exchange.one with ⟨hreq, hrep⟩ | ⟨seqNum', hrecv,
      ⟨hreq, hrep⟩ | ⟨hreq, msg, hrep, -⟩⟩
    · rcases h.answered seqNum hpc hopen with hmem | ⟨msg, hmem, -⟩
      · rw [hreq] at hmem
        exact absurd hmem List.not_mem_nil
      · rw [hrep] at hmem
        exact absurd hmem List.not_mem_nil
    · -- the request is in flight
      obtain rfl : seqNum = seqNum' := RequestPc.recv.inj (hpc.symm.trans hrecv)
      have hlt : seqNum < st.next := by
        have hmem := h.numbers.subset (List.mem_append_right _ (List.mem_append_left _
          (List.mem_append_left _ (show seqNum ∈ st.requested by simp [requested, hpc]))))
        exact List.mem_range.1 hmem
      have hallowed : ∀ seqNum' ∈ st.link.requests.head?,
          seqNum' < st.link.retransmitter.stored.length := by
        intro seqNum' hmem
        rw [hreq] at hmem
        cases hmem
        omega
      obtain ⟨hslot, -⟩ := h.slot hnum hlen (hlt.trans_le hstored)
      have hlink : st.link.step .handle = some { st.link with
          isOpen := true, requests := [], replies := [st.link.slot seqNum] } := by
        simp only [Retransmission.step, hopen, hreq, hslot, hrep, if_true, List.nil_append]
      refine ⟨.link .handle, _, queued, Or.inr (Or.inr (Or.inr rfl)), hallowed, ?_,
        h.handle hnum hlen hallowed hlink, rfl, rfl, rfl, ?_⟩
      · simp only [Recovery.step, hlink, Option.map_some, replied, List.append_nil]
      · simp [toDo, hpc, hrep]
    · -- the reply is in flight
      have hlink : st.link.step .recv = some { st.link with pc := .pop, replies := [] } := by
        simp only [Retransmission.step, hpc, hrep]
      refine ⟨.link .recv, _, queued, Or.inr (Or.inr (Or.inl rfl)), trivial, ?_, h.recv hlink,
        rfl, rfl, rfl, ?_⟩
      · simp only [Recovery.step, hlink, Option.map_some, replied]
      · simp [toDo, hpc, hrep]
  | pop =>
    cases queued with
    | cons seqNum queued =>
      obtain ⟨link, hlink, hrecv, hnone, hsame, h'⟩ := h.request hpc
      refine ⟨.link .pop, { st with link := link }, queued, Or.inr (Or.inl rfl), trivial, ?_, h',
        rfl, rfl, by rw [hsame], ?_⟩
      · simp only [Recovery.step, hlink, Option.map_some, replied, List.append_nil]
      · simp only [toDo, hrecv, hnone, hpc, List.length_cons]
        simp only [if_true]
        omega
    | nil =>
      cases hfirst : st.missing with
      | nil => simp [requested, hpc, hfirst] at hmissing
      | cons seqNum missing =>
        obtain ⟨link, hlink⟩ : ∃ link, st.link.step (.push seqNum) = some link := ⟨_, rfl⟩
        refine ⟨.push, _, _, Or.inl rfl, trivial, ?_, h.push hlen hfirst hlink, rfl, rfl, ?_,
          ?_⟩
        · simp only [Recovery.step, hfirst, hlink, Option.map_some]
        · obtain rfl := Option.some.inj hlink
          rfl
        · obtain rfl := Option.some.inj hlink
          simp [toDo, hpc, hfirst]
          omega

/-- In every state of such a run, once the messages up to the last one received have been stored,
what is missing can be recovered while nothing else is received or stored : then the client has the
first messages of the feed, each once. -/
theorem can_recover (array : ℕ → ℕ) (memory : ℕ → UInt8) (slots : ℕ → List UInt8)
    {msgs : List (List UInt8)} (hnum : ∀ k m, msgs[k]? = some m → seqNumOf m = k)
    (hlen : msgs.length ≤ Retransmitter.slotCount) {actions : List Action}
    (hallowed : Runs.Always (fun st a st' => step st a = some st') (Allowed msgs)
      (init array (.init memory slots)) actions) {st : Recovery}
    (hrun : (init array (.init memory slots)).run actions = some st)
    (hstored : st.next ≤ st.link.retransmitter.stored.length) :
    ∃ more st', (∀ a ∈ more, Recovers a) ∧ st.run more = some st' ∧
      st'.received = st.received ∧ (st'.received ++ st'.recovered).Perm (msgs.take st.next) := by
  obtain ⟨queued, h⟩ := accounted_run hnum hlen hallowed hrun
  clear hrun hallowed
  induction hn : toDo st queued using Nat.strong_induction_on generalizing st queued with
  | _ n ih =>
    by_cases hmissing : st.requested ++ queued ++ st.missing = []
    · have hnumbers := h.numbers
      rw [hmissing, List.append_nil] at hnumbers
      exact ⟨[], st, nofun, rfl, rfl, perm_take hnum
        (fun m hm => h.genuine m (List.mem_append_left _ hm)) h.last hnumbers⟩
    · obtain ⟨a, st₁, queued₁, ha, -, hstep, h₁, hreceived, hlast, hsame, hlt⟩ :=
        h.progress hnum hlen hstored hmissing
      have hnext : st₁.next = st.next := by rw [next, next, hreceived, hlast]
      obtain ⟨more, st', hmore, hrun, hreceived', hperm⟩ :=
        ih _ (hn ▸ hlt) (by rw [hnext, hsame]; exact hstored) queued₁ h₁ rfl
      exact ⟨a :: more, st', List.forall_mem_cons.2 ⟨ha, hmore⟩,
        Option.bind_eq_some_iff.2 ⟨st₁, hstep, hrun⟩, hreceived'.trans hreceived,
          hnext ▸ hperm⟩

/-- Once the third message has been stored, the second one can be recovered. -/
theorem can_recover_oneLost : ∃ st more st',
    (init (fun _ => 0) (.init (fun _ => 0) fun _ => List.replicate 64 0)).run
      (oneLost ++ [.link (.store (List.replicate 32 0 ++ 2 :: List.replicate 31 0))]) = some st ∧
    st.recovered = [] ∧ st.run more = some st' ∧
      (st'.received ++ st'.recovered).Perm threeMessages := by
  have hview : ((init (fun _ => 0) (.init (fun _ => 0) fun _ => List.replicate 64 0)).run
      (oneLost ++ [.link (.store (List.replicate 32 0 ++ 2 :: List.replicate 31 0))])).map
      (fun st => (st.recovered.length, st.next, st.link.retransmitter.stored.length)) =
      some (0, 3, 3) := by decide +kernel
  obtain ⟨st, hrun, hst⟩ := Option.map_eq_some_iff.1 hview
  obtain ⟨hnone, hnext, hstored⟩ := by simpa only [Prod.mk.injEq] using hst
  obtain ⟨more, st', -, hmore, -, hperm⟩ := can_recover _ _ _ threeMessages_numbered (by decide)
    (Runs.always_of_allowed (by decide +kernel)) hrun (by rw [hnext, hstored])
  rw [hnext] at hperm
  exact ⟨st, more, st', hrun, List.length_eq_zero_iff.1 hnone, hmore, hperm⟩

end Recovery

end TradeX
