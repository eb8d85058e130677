import TradeX.Packing
import TradeX.SpscQueue

/-!
# Detecting lost messages

`Listener::listener` of the client. It compares the number of each message with that of the
message before, and queues the numbers in between for the thread that requests them. That
thread pops the queue at any time, here `drained k` numbers before the push after `k` others.

A message that arrives late takes the place of the last one too, so the numbers above it are
in between again. `gaps_exact_iff` says of which arrivals the numbers queued are those missed,
each once (`Exact`) : number 0 comes first, and wherever a message leaves a gap to the one
before, that one is the highest so far (`InOrder`).
-/

namespace TradeX

/-- What `listener` does, in order : a message is received, or a number queued. -/
inductive Listener.Event
  | received (seqNum : ℕ)
  | queued (seqNum : ℕ)
  deriving DecidableEq, Repr

/-- `last_seq_num` and the queue of requests, with what has happened so far and the numbers that
`push` has refused. -/
structure Listener where
  lastSeqNum : ℕ
  queue : SpscQueue ℕ
  history : List Listener.Event
  refused : List ℕ

namespace Listener

/-- `queue_buffer_size` of the client. -/
def queueBufferSize : ℕ := 2 ^ 20

/-- The listener at its start. -/
def init (array : ℕ → ℕ) : Listener :=
  ⟨0, .new array, [], []⟩

/-- The number that has been received. -/
def Event.received? : Event → Option ℕ
  | .received seqNum => some seqNum
  | .queued _ => none

/-- The number that has been queued. -/
def Event.queued? : Event → Option ℕ
  | .received _ => none
  | .queued seqNum => some seqNum

/-- The numbers received, in order. -/
def received (st : Listener) : List ℕ :=
  st.history.filterMap Event.received?

/-- The numbers queued, in order. -/
def queued (st : Listener) : List ℕ :=
  st.history.filterMap Event.queued?

/-- The other thread calls `pop` a number of times. -/
def popTimes : ℕ → SpscQueue ℕ → SpscQueue ℕ
  | 0, queue => queue
  | k + 1, queue =>
    match queue.pop queueBufferSize with
    | some (_, queue) => popTimes k queue
    | none => queue

variable (drained : ℕ → ℕ)

/-- `queue.push(std::move(missing))`, whose result is ignored. -/
def pushMissing (st : Listener) (missing : ℕ) : Listener :=
  let queue := popTimes (drained (st.queued.length + st.refused.length)) st.queue
  let result := queue.push queueBufferSize missing
  if result.1 then { st with queue := result.2, history := st.history ++ [.queued missing] }
  else { st with queue := result.2, refused := st.refused ++ [missing] }

/-- The body of the loop over the messages of a datagram. -/
def receive (st : Listener) (msg : List UInt8) : Listener :=
  let seqNum := seqNumOf msg
  let st := { st with history := st.history ++ [.received seqNum] }
  let first := add64 st.lastSeqNum 1
  let st :=
    if seqNum > first then (List.range' first (seqNum - first)).foldl (pushMissing drained) st
    else st
  { st with lastSeqNum := seqNum }

/-- The messages of datagrams, in the order in which the loops come to them. -/
def arrivals (datagrams : List (List UInt8)) : List (List UInt8) :=
  datagrams.flatMap messages

/-- The messages arrive one after the other, and the queue is emptied in between. -/
def run (array : ℕ → ℕ) (msgs : List (List UInt8)) : Listener :=
  msgs.foldl (receive drained) (init array)

/-! ## The statement -/

/-- `s` had not been received when a higher number first arrived. -/
def Missed (received : List ℕ) (s : ℕ) : Prop :=
  ∃ before higher after, received = before ++ higher :: after ∧ s < higher ∧
    (∀ x ∈ before, x ≤ s) ∧ s ∉ before

/-- Every number that was missed has been queued exactly once, and none after it was received. -/
structure Exact (st : Listener) : Prop where
  once : ∀ s, Missed st.received s → st.queued.count s = 1
  unreceived : st.history.Pairwise fun e e' => ∀ s, e = .received s → e' ≠ .queued s

/-- Number 0 comes first. Any other message is at most one above the last one, or above it while
the last one is the highest so far. -/
def InOrder (st : Listener) (seqNum : ℕ) : Prop :=
  (st.received = [] → seqNum = 0) ∧ (seqNum ≤ add64 st.lastSeqNum 1 ∨
    st.lastSeqNum < seqNum ∧ ∀ x ∈ st.received, x ≤ st.lastSeqNum)

/-! ## A message -/

variable {drained : ℕ → ℕ} {st : Listener} {msg : List UInt8} {s : ℕ}

theorem seqNumOf_lt (msg : List UInt8) : seqNumOf msg < 2 ^ 64 :=
  Buffer.fieldAt_lt msg 32 8

/-- The numbers that a message finds missing. -/
def gap (st : Listener) (msg : List UInt8) : List ℕ :=
  List.range' (add64 st.lastSeqNum 1) (seqNumOf msg - add64 st.lastSeqNum 1)

theorem mem_gap : s ∈ st.gap msg ↔ add64 st.lastSeqNum 1 ≤ s ∧ s < seqNumOf msg := by
  rw [gap, List.mem_range'_1]
  omega

theorem nodup_gap : (st.gap msg).Nodup :=
  List.nodup_range'

theorem receive_eq : st.receive drained msg =
    { (st.gap msg).foldl (pushMissing drained)
        { st with history := st.history ++ [.received (seqNumOf msg)] } with
      lastSeqNum := seqNumOf msg } := by
  unfold receive gap
  dsimp only
  split_ifs with h
  · rfl
  · rw [Nat.sub_eq_zero_of_le (Nat.not_lt.1 h)]
    rfl

/-- A push that is not refused extends the history. -/
theorem pushMissing_eq (h : (st.pushMissing drained s).refused = []) : st.refused = [] ∧
    (st.pushMissing drained s).history = st.history ++ [.queued s] := by
  unfold pushMissing at h ⊢
  dsimp only at h ⊢
  split_ifs at h ⊢ with hpush
  · exact ⟨h, rfl⟩
  · simp at h

theorem foldl_pushMissing : ∀ {l : List ℕ} {st : Listener},
    (l.foldl (pushMissing drained) st).refused = [] → st.refused = [] ∧
      (l.foldl (pushMissing drained) st).history = st.history ++ l.map .queued
  | [], st, h => ⟨h, by simp⟩
  | s :: l, st, h => by
    obtain ⟨hroom, hhistory⟩ := foldl_pushMissing (l := l) h
    obtain ⟨hroom', hhistory'⟩ := pushMissing_eq hroom
    refine ⟨hroom', ?_⟩
    rw [List.foldl_cons, hhistory, hhistory']
    simp

/-- With room in the queue, a message is received and the numbers it finds missing are queued. -/
theorem receive_history (h : (st.receive drained msg).refused = []) : st.refused = [] ∧
    (st.receive drained msg).history =
      st.history ++ .received (seqNumOf msg) :: (st.gap msg).map .queued := by
  rw [receive_eq] at h ⊢
  obtain ⟨hroom, hhistory⟩ := foldl_pushMissing h
  exact ⟨hroom, hhistory.trans (by simp)⟩

theorem received_receive (h : (st.receive drained msg).refused = []) :
    (st.receive drained msg).received = st.received ++ [seqNumOf msg] := by
  have hgap : ((st.gap msg).map Event.queued).filterMap Event.received? = [] := by
    simp [List.filterMap_eq_nil_iff, Event.received?]
  unfold received
  rw [(receive_history h).2, List.filterMap_append, List.filterMap_cons, hgap]
  rfl

theorem queued_receive (h : (st.receive drained msg).refused = []) :
    (st.receive drained msg).queued = st.queued ++ st.gap msg := by
  have hgap : ((st.gap msg).map Event.queued).filterMap Event.queued? = st.gap msg := by
    rw [List.filterMap_map]
    exact List.filterMap_some
  unfold queued
  rw [(receive_history h).2, List.filterMap_append, List.filterMap_cons, hgap]
  rfl

theorem mem_received : s ∈ st.received ↔ .received s ∈ st.history := by
  unfold received
  rw [List.mem_filterMap]
  constructor
  · rintro ⟨_ | _, hmem, heq⟩
    · cases heq
      exact hmem
    · cases heq
  · exact fun hmem => ⟨_, hmem, rfl⟩

/-! ## What is missed -/

variable {R : List ℕ} {a : ℕ}

/-- Another message makes missed what lies between it and all the others. -/
theorem missed_concat : Missed (R ++ [a]) s ↔ Missed R s ∨ s < a ∧ ∀ x ∈ R, x < s := by
  constructor
  · rintro ⟨before, higher, after, heq, hlt, hle, hs⟩
    rcases List.eq_nil_or_concat after with rfl | ⟨after', y, rfl⟩
    · obtain ⟨rfl, ha⟩ := List.append_inj' heq rfl
      obtain rfl := List.singleton_inj.1 ha
      exact Or.inr ⟨hlt, fun x hx => Nat.lt_of_le_of_ne (hle x hx) fun h => hs (h ▸ hx)⟩
    · have heq' : R ++ [a] = (before ++ higher :: after') ++ [y] := by simpa using heq
      exact Or.inl ⟨before, higher, after', (List.append_inj' heq' rfl).1, hlt, hle, hs⟩
  · rintro (⟨before, higher, after, rfl, h⟩ | ⟨hlt, hR⟩)
    · exact ⟨before, higher, after ++ [a], by simp, h⟩
    · exact ⟨R, a, [], rfl, hlt, fun x hx => (hR x hx).le, fun hs => Nat.lt_irrefl s (hR s hs)⟩

/-- A number that has not been received is missed if a higher one has. -/
theorem missed_of_lt : ∀ {R : List ℕ} {x : ℕ}, x ∈ R → s < x → s ∉ R → Missed R s
  | y :: R, x, hx, hlt, hs => by
    have hne : s ≠ y := List.ne_of_not_mem_cons hs
    have hsR : s ∉ R := List.not_mem_of_not_mem_cons hs
    rcases Nat.lt_or_ge s y with hy | hy
    · exact ⟨[], y, R, rfl, hy, fun _ h => absurd h List.not_mem_nil, List.not_mem_nil⟩
    · have hxR : x ∈ R := (List.mem_cons.1 hx).resolve_left fun h => by omega
      obtain ⟨before, higher, after, rfl, hhigher, hle, hbefore⟩ := missed_of_lt hxR hlt hsR
      exact ⟨y :: before, higher, after, rfl, hhigher, List.forall_mem_cons.2 ⟨hy, hle⟩,
        List.not_mem_cons_of_ne_of_not_mem hne hbefore⟩

theorem Missed.exists_lt (h : Missed R s) : ∃ x ∈ R, s < x := by
  obtain ⟨before, higher, after, rfl, hlt, -, -⟩ := h
  exact ⟨higher, by simp, hlt⟩

/-! ## One message -/

/-- What holds whatever arrives. -/
structure Recorded (st : Listener) : Prop where
  start : st.received = [] → st.lastSeqNum = 0
  last : st.received ≠ [] → st.lastSeqNum ∈ st.received
  below : ∀ s ∈ st.queued, ∃ x ∈ st.received, s < x

theorem recorded_init (array : ℕ → ℕ) : Recorded (init array) :=
  ⟨fun _ => rfl, fun h => absurd rfl h, fun _ h => absurd h List.not_mem_nil⟩

theorem exact_init (array : ℕ → ℕ) : Exact (init array) := by
  refine ⟨fun s h => ?_, List.Pairwise.nil⟩
  obtain ⟨x, hx, -⟩ := h.exists_lt
  exact absurd hx List.not_mem_nil

theorem lastSeqNum_receive : (st.receive drained msg).lastSeqNum = seqNumOf msg := by
  rw [receive_eq]

theorem Recorded.receive (h : Recorded st) (hroom : (st.receive drained msg).refused = []) :
    Recorded (st.receive drained msg) := by
  have hreceived := received_receive hroom
  refine ⟨fun hnil => ?_, fun _ => ?_, fun s hs => ?_⟩
  · rw [hreceived] at hnil
    exact absurd hnil (by simp)
  · rw [hreceived, lastSeqNum_receive]
    exact List.mem_concat_self
  · rw [hreceived]
    rw [queued_receive hroom] at hs
    rcases List.mem_append.1 hs with hs | hs
    · obtain ⟨x, hx, hlt⟩ := h.below s hs
      exact ⟨x, List.mem_append_left _ hx, hlt⟩
    · exact ⟨seqNumOf msg, List.mem_concat_self, (mem_gap.1 hs).2⟩

/-- What is queued for a message has not been received before. -/
theorem unreceived_receive (hroom : (st.receive drained msg).refused = []) :
    (st.receive drained msg).history.Pairwise (fun e e' => ∀ s, e = .received s →
      e' ≠ .queued s) ↔
      st.history.Pairwise (fun e e' => ∀ s, e = .received s → e' ≠ .queued s) ∧
        ∀ s ∈ st.gap msg, s ∉ st.received := by
  rw [(receive_history hroom).2, List.pairwise_append]
  constructor
  · rintro ⟨h, -, hgap⟩
    refine ⟨h, fun s hs hmem => hgap _ (mem_received.1 hmem) (.queued s) ?_ s rfl rfl⟩
    exact List.mem_cons_of_mem _ (List.mem_map_of_mem hs)
  · rintro ⟨h, hgap⟩
    refine ⟨h, List.pairwise_cons.2 ⟨?_, ?_⟩, ?_⟩
    · -- the message itself is above what is queued
      rintro e' he' s hs rfl
      obtain ⟨s', hs', heq⟩ := List.mem_map.1 he'
      cases heq
      cases hs
      exact absurd (mem_gap.1 hs').2 (Nat.lt_irrefl _)
    · exact List.pairwise_map.2 (List.pairwise_of_forall fun s s' x hx => by cases hx)
    · rintro e he e' he' s rfl rfl
      rcases List.mem_cons.1 he' with heq | he'
      · cases heq
      · obtain ⟨s', hs', heq⟩ := List.mem_map.1 he'
        cases heq
        exact hgap s hs' (mem_received.2 he)

/-- A message in order leaves the numbers queued exact. -/
theorem Exact.receive (h : Exact st) (hst : Recorded st)
    (hroom : (st.receive drained msg).refused = []) (horder : InOrder st (seqNumOf msg)) :
    Exact (st.receive drained msg) := by
  -- what the message makes missed is what it finds missing, and lies above all the others
  have hgap : ∀ s, s ∈ st.gap msg ↔ s < seqNumOf msg ∧ ∀ x ∈ st.received, x < s := by
    intro s
    rw [mem_gap]
    rcases eq_or_ne st.received [] with hnil | hnil
    · have hzero := horder.1 hnil
      omega
    have hlast := hst.last hnil
    have hle : add64 st.lastSeqNum 1 ≤ st.lastSeqNum + 1 := Nat.mod_le _ _
    rcases horder.2 with hnone | ⟨habove, hhighest⟩
    · refine ⟨by omega, fun hs => ?_⟩
      have := hs.2 _ hlast
      omega
    · have hnext : add64 st.lastSeqNum 1 = st.lastSeqNum + 1 :=
        Nat.mod_eq_of_lt (by have := seqNumOf_lt msg; omega)
      rw [hnext]
      constructor
      · exact fun hs => ⟨hs.2, fun x hx => Nat.lt_of_le_of_lt (hhighest x hx) hs.1⟩
      · exact fun hs => ⟨hs.2 _ hlast, hs.1⟩
  refine ⟨fun s hs => ?_, (unreceived_receive hroom).2 ⟨h.unreceived, fun s hs hmem => ?_⟩⟩
  · rw [received_receive hroom] at hs
    rw [queued_receive hroom, List.count_append]
    rcases missed_concat.1 hs with hold | hnew
    · obtain ⟨x, hx, hlt⟩ := hold.exists_lt
      have hnot : s ∉ st.gap msg := fun hs => by
        have := ((hgap s).1 hs).2 x hx
        omega
      rw [h.once s hold, List.count_eq_zero_of_not_mem hnot]
    · have hnot : s ∉ st.queued := fun hs => by
        obtain ⟨x, hx, hlt⟩ := hst.below s hs
        have := hnew.2 x hx
        omega
      rw [List.count_eq_zero_of_not_mem hnot, List.count_eq_one_of_mem nodup_gap ((hgap s).2 hnew)]
  · exact Nat.lt_irrefl s (((hgap s).1 hs).2 s hmem)

/-- If the numbers queued stay exact, the message was in order. -/
theorem Exact.inOrder (h : Exact st) (hst : Recorded st)
    (hroom : (st.receive drained msg).refused = []) (h' : Exact (st.receive drained msg)) :
    InOrder st (seqNumOf msg) := by
  constructor
  · -- number 0 would be missed, and is not queued
    intro hnil
    by_contra hne
    have hmissed : Missed (st.receive drained msg).received 0 := by
      rw [received_receive hroom, hnil]
      exact missed_concat.2 (Or.inr ⟨Nat.pos_of_ne_zero hne,
        fun _ hx => absurd hx List.not_mem_nil⟩)
    have hnot : 0 ∉ (st.receive drained msg).queued := by
      rw [queued_receive hroom, List.mem_append]
      rintro (hs | hs)
      · obtain ⟨x, hx, -⟩ := hst.below 0 hs
        rw [hnil] at hx
        exact absurd hx List.not_mem_nil
      · have := (mem_gap.1 hs).1
        rw [hst.start hnil] at this
        exact absurd this (by decide)
    have hcount := h'.once 0 hmissed
    rw [List.count_eq_zero_of_not_mem hnot] at hcount
    exact absurd hcount Nat.zero_ne_one
  · rcases Nat.lt_or_ge (add64 st.lastSeqNum 1) (seqNumOf msg) with hgap | hgap
    · -- the first number queued has neither been received nor missed before
      have hmem : add64 st.lastSeqNum 1 ∈ st.gap msg := mem_gap.2 ⟨Nat.le_refl _, hgap⟩
      have hnew : add64 st.lastSeqNum 1 ∉ st.received :=
        ((unreceived_receive hroom).1 h'.unreceived).2 _ hmem
      have habove : ∀ x ∈ st.received, x < add64 st.lastSeqNum 1 := by
        intro x hx
        by_contra hle
        have hne : x ≠ add64 st.lastSeqNum 1 := fun heq => hnew (heq ▸ hx)
        have hmissed := missed_of_lt hx (by omega) hnew
        have hcount := h'.once (add64 st.lastSeqNum 1) (by
          rw [received_receive hroom]
          exact missed_concat.2 (Or.inl hmissed))
        rw [queued_receive hroom, List.count_append, h.once _ hmissed,
          List.count_eq_one_of_mem nodup_gap hmem] at hcount
        exact absurd hcount (by decide)
      have hle : add64 st.lastSeqNum 1 ≤ st.lastSeqNum + 1 := Nat.mod_le _ _
      refine Or.inr ⟨?_, fun x hx => ?_⟩
      · rcases eq_or_ne st.received [] with hnil | hnil
        · rw [hst.start hnil] at hgap ⊢
          exact Nat.lt_of_le_of_lt (Nat.zero_le _) hgap
        · exact Nat.lt_trans (habove _ (hst.last hnil)) hgap
      · have := habove x hx
        omega
    · exact Or.inl hgap

/-! ## Whole runs -/

/-- With room for what all the messages find missing, there is room at each of them. -/
theorem refused_foldl : ∀ (msgs : List (List UInt8)) {st : Listener},
    (msgs.foldl (receive drained) st).refused = [] → st.refused = []
  | [], _, h => h
  | _ :: msgs, _, h => (receive_history (refused_foldl msgs h)).1

/-- Whatever arrives, as long as the queue has room, the numbers queued are always exact iff every
message comes in order. -/
theorem gaps_exact_iff (drained : ℕ → ℕ) (array : ℕ → ℕ) (datagrams : List (List UInt8))
    (hroom : (run drained array (arrivals datagrams)).refused = []) :
    (∀ before after, arrivals datagrams = before ++ after →
      Exact (run drained array before)) ↔
      ∀ before msg after, arrivals datagrams = before ++ msg :: after →
        InOrder (run drained array before) (seqNumOf msg) := by
  have hsteps : ∀ {msgs : List (List UInt8)} {st : Listener},
      Runs.Steps (fun a i b => receive drained a i = b) msgs (init array) st ↔
        run drained array msgs = st := Runs.steps_iff_foldl
  have hroom' : Runs.Always (fun a i b => receive drained a i = b)
      (fun st msg => (st.receive drained msg).refused = []) (init array) (arrivals datagrams) := by
    intro before msg after st heq hst
    rw [hsteps] at hst
    subst hst
    rw [heq, run, List.foldl_append] at hroom
    exact refused_foldl after hroom
  have hiff := Runs.always_iff (R := fun a i b => receive drained a i = b) (I := Recorded)
      (G := Exact)
    (P := fun st msg => InOrder st (seqNumOf msg))
    (L := fun st msg => (st.receive drained msg).refused = [])
    (fun h hr hst => hst ▸ h.receive hr)
    (fun h hr hst hex => hst ▸ ⟨hex.inOrder h hr, hex.receive h hr⟩)
    (fun _ _ => Or.inr ⟨_, rfl⟩) (recorded_init array) (exact_init array) hroom'
  constructor
  · intro h before msg after heq
    refine hiff.1 ?_ before msg after _ heq (hsteps.2 rfl)
    intro pre post st hpre hst
    exact hsteps.1 hst ▸ h pre post hpre
  · intro h before after heq
    refine hiff.2 ?_ before after _ heq (hsteps.2 rfl)
    intro pre msg post st hpre hst
    exact hsteps.1 hst ▸ h pre msg post hpre

/-- A datagram of messages with these numbers, all other bytes zero. -/
def datagramOf (seqNums : List UInt8) : List UInt8 :=
  seqNums.flatMap fun k => List.replicate 32 0 ++ k :: List.replicate 31 0

/-- Messages 1 and 2 are lost, then 6. -/
def lossOnly : List (List UInt8) :=
  [datagramOf [0], datagramOf [3, 4], datagramOf [5], datagramOf [7]]

theorem gaps_exact_lossOnly : (arrivals lossOnly).map seqNumOf = [0, 3, 4, 5, 7] ∧
    (run (fun _ => 0) (fun _ => 0) (arrivals lossOnly)).queued = [1, 2, 6] ∧
    ((∀ before after, arrivals lossOnly = before ++ after →
        Exact (run (fun _ => 0) (fun _ => 0) before)) ↔
      ∀ before msg after, arrivals lossOnly = before ++ msg :: after →
        InOrder (run (fun _ => 0) (fun _ => 0) before) (seqNumOf msg)) :=
  ⟨by decide +kernel, by decide +kernel,
    gaps_exact_iff (fun _ => 0) (fun _ => 0) lossOnly (by decide +kernel)⟩

/-- Message 1 overtakes message 0. -/
def firstLate : List (List UInt8) :=
  [datagramOf [1], datagramOf [0]]

/-- Message 1 is late. -/
def oneLate : List (List UInt8) :=
  [datagramOf [0], datagramOf [2], datagramOf [1], datagramOf [3]]

/-- Number 0 is missed and not queued, and number 2 is queued after it has been received. -/
theorem gaps_inexact :
    (Missed (run (fun _ => 0) (fun _ => 0) (arrivals firstLate)).received 0 ∧
      (run (fun _ => 0) (fun _ => 0) (arrivals firstLate)).queued = [] ∧
      ¬ Exact (run (fun _ => 0) (fun _ => 0) (arrivals firstLate))) ∧
    (run (fun _ => 0) (fun _ => 0) (arrivals oneLate)).history =
      [.received 0, .received 2, .queued 1, .received 1, .received 3, .queued 2] ∧
    (run (fun _ => 0) (fun _ => 0) (arrivals oneLate)).refused = [] ∧
    ¬ Exact (run (fun _ => 0) (fun _ => 0) (arrivals oneLate)) := by
  have hfirst : (run (fun _ => 0) (fun _ => 0) (arrivals firstLate)).received = [1, 0] := by
    decide +kernel
  have hnone : (run (fun _ => 0) (fun _ => 0) (arrivals firstLate)).queued = [] := by
    decide +kernel
  have hmissed : Missed (run (fun _ => 0) (fun _ => 0) (arrivals firstLate)).received 0 := by
    rw [hfirst]
    exact ⟨[], 1, [0], rfl, Nat.one_pos, fun _ h => absurd h List.not_mem_nil, List.not_mem_nil⟩
  have hlate : (run (fun _ => 0) (fun _ => 0) (arrivals oneLate)).history =
      [.received 0, .received 2, .queued 1, .received 1, .received 3, .queued 2] := by
    decide +kernel
  refine ⟨⟨hmissed, hnone, fun h => ?_⟩, hlate, by decide +kernel, fun h => ?_⟩
  · have hcount := h.once 0 hmissed
    rw [hnone] at hcount
    exact absurd hcount (by decide)
  · have hpairs := h.unreceived
    rw [hlate] at hpairs
    have hafter := (List.pairwise_cons.1 (List.pairwise_cons.1 hpairs).2).1
    exact hafter (.queued 2) (by simp) 2 rfl rfl

end Listener

end TradeX
