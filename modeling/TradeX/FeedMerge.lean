import TradeX.RingSessions
import TradeX.MarketFeed
import TradeX.Library.Streams

/-!
# Reading the rings in turn

`readThread` of `MarketFeedReader` on the rings of all groups. It goes from ring to ring, reads
from each while there is a new trade but at most ten times, and hands a message for each trade to
the queue. The producers and the other consumers call their functions at any time in between.

While the trades fit the rings, the messages are numbered from 0 in the order in which they are
handed over, and those of one ring are its trades, in order (`readThread_merges`). No ring waits
for long : while a trade of a ring is unread, at most ten trades of each other ring are read before
one of its own (`readThread_fair`).
-/

namespace TradeX

open TradeRing (Op Consistent Follows)

namespace MarketFeedReader

/-- `total_ring_buffer_count`. -/
def totalRingBufferCount : ℕ := 2

theorem zero_lt_totalRingBufferCount : 0 < totalRingBufferCount :=
  Nat.zero_lt_two

theorem one_lt_totalRingBufferCount : 1 < totalRingBufferCount :=
  Nat.one_lt_two

/-- Where `readThread` is : at the test of `flag`, before a call of `any_new_trade` or of
`get_trade` with the number of trades it has read on this visit of the ring, or at its end. -/
inductive ReadPc
  | top
  | ask (ring reads : ℕ)
  | get (ring reads : ℕ)
  | ended
  deriving DecidableEq, Repr

/-- `readThread` is consumer 0 of the rings. `read` are the trades it has read, each with its ring,
and `messages` what it has called `push` with. -/
structure ReadThread where
  rings : ℕ → TradeRing.State
  pc : ReadPc
  seqNum : ℕ
  read : List (ℕ × Trade)
  messages : List MarketDataMessage

namespace ReadThread

/-- The thread before its first pass, with empty rings. -/
def start : ReadThread :=
  ⟨fun _ => .init, .top, 0, [], []⟩

/-- Somebody else calls a function of a ring, or `readThread` goes on. -/
inductive Action
  | call (ring : Fin totalRingBufferCount) (op : Op)
  | pass (flag : Bool)
  | ask
  | get

/-- The call is not one of `readThread`. -/
def Foreign : Op → Prop
  | .add _ => True
  | .anyNew j => j ≠ 0
  | .get j => j ≠ 0

instance : DecidablePred Foreign
  | .add _ => inferInstanceAs (Decidable True)
  | .anyNew _ => inferInstanceAs (Decidable (_ ≠ _))
  | .get _ => inferInstanceAs (Decidable (_ ≠ _))

/-- The ring of a group changes. -/
def setRing (st : ReadThread) (i : ℕ) (ring : TradeRing.State) : ReadThread :=
  { st with rings := Function.update st.rings i ring }

/-- Where the loop over the rings goes after ring `i`. -/
def afterRing (i : ℕ) : ReadPc :=
  if i + 1 < totalRingBufferCount then .ask (i + 1) 0 else .top

/-- A call on a ring by another thread, or a step of `readThread`. -/
def step (st : ReadThread) : Action → Option ReadThread
  | .call i op =>
    if Foreign op then ((st.rings i).step op).toOption.map (st.setRing i) else none
  | .pass flag =>
    match st.pc with
    | .top => some { st with pc := if flag then .ask 0 0 else .ended }
    | _ => none
  | .ask =>
    match st.pc with
    | .ask i reads => ((st.rings i).step (.anyNew 0)).toOption.map fun ring =>
        { st.setRing i ring with
          pc := if ring.answer 0 = some true ∧ reads < 10 then .get i reads else afterRing i }
    | _ => none
  | .get =>
    match st.pc with
    | .get i reads =>
      match TradeRing.getTrade (st.rings i).ring ((st.rings i).consumer 0),
        (st.rings i).step (.get 0) with
      | .ok (trade, _), .ok ring => some { st.setRing i ring with
          pc := .ask i (reads + 1)
          seqNum := add64 st.seqNum 1
          read := st.read ++ [(i, trade)]
          messages := st.messages ++ [formatMarketData st.seqNum trade] }
      | _, _ => none
    | _ => none

/-- Steps in any order. -/
def run (st : ReadThread) (actions : List Action) : Option ReadThread :=
  actions.foldlM step st

/-! ## One step -/

variable {st st' : ReadThread} {a : Action}

/-- What a step does : a call of somebody else, a test of `flag`, a question, or a trade that is
read. -/
theorem step_cases (hstep : st.step a = some st') :
    (∃ i op ring, i < totalRingBufferCount ∧ Foreign op ∧ (st.rings i).Calls op ring ∧
      st' = st.setRing i ring) ∨
    (∃ flag : Bool, st.pc = .top ∧
      st' = { st with pc := if flag then .ask 0 0 else .ended }) ∨
    (∃ i reads ring, st.pc = .ask i reads ∧ (st.rings i).Calls (.anyNew 0) ring ∧
      st' = { st.setRing i ring with
        pc := if ring.answer 0 = some true ∧ reads < 10 then .get i reads else afterRing i }) ∨
    ∃ i reads trade cursor ring, st.pc = .get i reads ∧
      TradeRing.getTrade (st.rings i).ring ((st.rings i).consumer 0) = .ok (trade, cursor) ∧
      (st.rings i).Calls (.get 0) ring ∧
      st' = { st.setRing i ring with
        pc := .ask i (reads + 1)
        seqNum := add64 st.seqNum 1
        read := st.read ++ [(i, trade)]
        messages := st.messages ++ [formatMarketData st.seqNum trade] } := by
  cases a with
  | call i op =>
    simp only [step] at hstep
    split_ifs at hstep with hforeign
    obtain ⟨ring, hring, rfl⟩ := Option.map_eq_some_iff.1 hstep
    exact Or.inl ⟨i, op, ring, i.isLt, hforeign, ok_of_toOption hring, rfl⟩
  | pass flag =>
    simp only [step] at hstep
    split at hstep
    next hpc => exact Or.inr (Or.inl ⟨flag, hpc, (Option.some.inj hstep).symm⟩)
    next => cases hstep
  | ask =>
    simp only [step] at hstep
    split at hstep
    next i reads hpc =>
      obtain ⟨ring, hring, rfl⟩ := Option.map_eq_some_iff.1 hstep
      exact Or.inr (Or.inr (Or.inl ⟨i, reads, ring, hpc, ok_of_toOption hring, rfl⟩))
    next => cases hstep
  | get =>
    simp only [step] at hstep
    split at hstep
    next i reads hpc =>
      split at hstep
      next trade cursor ring hget hring =>
        exact Or.inr (Or.inr (Or.inr
          ⟨i, reads, trade, cursor, ring, hpc, hget, hring, (Option.some.inj hstep).symm⟩))
      next => cases hstep
    next => cases hstep

/-- A call of somebody else leaves what `readThread` has received and has been told. -/
theorem of_foreign {ring ring' : TradeRing.State} {op : Op} (hc : Consistent ring)
    (hop : Foreign op) (hcall : ring.Calls op ring') :
    ring'.received 0 = ring.received 0 ∧ ring'.answer 0 = ring.answer 0 := by
  cases op with
  | add trade =>
    obtain ⟨_, hst, -, -, hrec, hans⟩ := hc.add trade
    obtain rfl := Except.ok.inj (hcall.symm.trans hst)
    rw [hrec, hans]
    exact ⟨rfl, rfl⟩
  | anyNew j =>
    obtain ⟨_, hst, -, -, hrec, hans⟩ := hc.anyNew j
    obtain rfl := Except.ok.inj (hcall.symm.trans hst)
    rw [hrec, hans, Function.update_of_ne (Ne.symm hop)]
    exact ⟨rfl, rfl⟩
  | get j =>
    obtain ⟨_, hst, -, -, hrec, hans⟩ := hc.get j
    obtain rfl := Except.ok.inj (hcall.symm.trans hst)
    rw [hrec, hans, Function.update_of_ne (Ne.symm hop), Function.update_of_ne (Ne.symm hop)]
    exact ⟨rfl, rfl⟩

theorem prefix_published {ring ring' : TradeRing.State} {op : Op} (hcall : ring.Calls op ring') :
    ring.published <+: ring'.published := by
  cases op with
  | add trade =>
    obtain rfl := Except.ok.inj hcall
    exact List.prefix_append _ _
  | anyNew j =>
    obtain rfl := Except.ok.inj hcall
    exact List.prefix_refl _
  | get j =>
    obtain ⟨_, -, hcall⟩ := bind_eq_ok.1 hcall
    obtain rfl := Except.ok.inj hcall
    exact List.prefix_refl _

theorem setRing_rings (st : ReadThread) (i : ℕ) (ring : TradeRing.State) (j : ℕ) :
    (st.setRing i ring).rings j = if j = i then ring else st.rings j :=
  Function.update_apply ..

/-- The rings only grow. -/
theorem published_step (hstep : st.step a = some st') (j : ℕ) :
    (st.rings j).published <+: (st'.rings j).published := by
  have hset : ∀ {i op ring}, (st.rings i).Calls op ring →
      (st.rings j).published <+: ((st.setRing i ring).rings j).published := by
    intro i op ring hcall
    rw [setRing_rings]
    split_ifs with hji
    · rw [hji]
      exact prefix_published hcall
    · exact List.prefix_refl _
  rcases step_cases hstep with ⟨i, op, ring, -, -, hcall, rfl⟩ | ⟨flag, -, rfl⟩ |
    ⟨i, reads, ring, -, hcall, rfl⟩ | ⟨i, reads, trade, cursor, ring, -, -, hcall, rfl⟩
  · exact hset hcall
  · exact List.prefix_refl _
  · exact hset hcall
  · exact hset hcall

theorem published_run : ∀ {actions : List Action} {st : ReadThread}, st.run actions = some st' →
    ∀ j, (st.rings j).published <+: (st'.rings j).published
  | [], st, h, j => by
    obtain rfl := Option.some.inj h
    exact List.prefix_refl _
  | a :: actions, st, h, j => by
    obtain ⟨st₁, hstep, hrun⟩ := Option.bind_eq_some_iff.1 h
    exact (published_step hstep j).trans (published_run hrun j)

/-! ## What the messages are -/

/-- Where `readThread` can be : a trade it goes to read is one it has been told of, and it reads no
more than ten on a visit. -/
def Visits (st : ReadThread) : ReadPc → Prop
  | .ask i reads => i < totalRingBufferCount ∧ reads ≤ 10
  | .get i reads => i < totalRingBufferCount ∧ reads < 10 ∧ (st.rings i).answer 0 = some true
  | _ => True

/-- What has been read of a ring are the first of its trades, and the messages are numbered in the
order in which the trades were read. -/
structure Merged (st : ReadThread) : Prop where
  consistent : ∀ i, Consistent (st.rings i)
  follows : ∀ i, Follows 0 (st.rings i)
  visits : st.Visits st.pc
  source : ∀ i, Streams.ofSource st.read i = (st.rings i).received 0
  messages : st.messages = messagesFrom 0 (st.read.map Prod.snd)
  seqNum : st.seqNum = st.read.length % 2 ^ 64

theorem merged_start : Merged start where
  consistent _ := TradeRing.consistent_init
  follows _ := ⟨List.prefix_refl _, Nat.zero_le _,
    fun h => by simp [start, TradeRing.State.init] at h⟩
  visits := trivial
  source _ := rfl
  messages := rfl
  seqNum := rfl

theorem visits_afterRing (i : ℕ) : st.Visits (afterRing i) := by
  unfold afterRing
  split_ifs with hi
  · exact ⟨hi, Nat.zero_le _⟩
  · trivial

/-- A call on a ring that keeps what its consumers follow. -/
theorem Merged.ring (h : Merged st) {i : ℕ} {op : Op} {ring : TradeRing.State}
    (hop : TradeRing.Obeys 0 (st.rings i) op) (hcall : (st.rings i).Calls op ring) :
    (∀ j, Consistent ((st.setRing i ring).rings j)) ∧
      ∀ j, Follows 0 ((st.setRing i ring).rings j) := by
  obtain ⟨_, hcall', hc, hf⟩ := (h.follows i).step (h.consistent i) hop
  obtain rfl := Except.ok.inj (hcall.symm.trans hcall')
  constructor <;> intro j <;> rw [setRing_rings] <;> split_ifs
  · exact hc
  · exact h.consistent j
  · exact hf
  · exact h.follows j

/-- While the trades fit the ring, every call of somebody else is harmless. -/
theorem obeys_of_foreign {ring ring' : TradeRing.State} {op : Op} (hop : Foreign op)
    (hcall : ring.Calls op ring') (hsize : ring'.published.length ≤ ringSize) :
    TradeRing.Obeys 0 ring op := by
  cases op with
  | add trade =>
    obtain rfl := Except.ok.inj hcall
    simp only [List.length_append, List.length_singleton] at hsize
    change ring.published.length < (ring.received 0).length + ringSize
    omega
  | anyNew j => exact fun hj => absurd hj hop
  | get j => exact fun hj => absurd hj hop

theorem Visits.of_answer {pc : ReadPc} (h : st.Visits pc)
    (hans : ∀ i, (st'.rings i).answer 0 = (st.rings i).answer 0) : st'.Visits pc := by
  cases pc with
  | get i reads => exact ⟨h.1, h.2.1, (hans i).trans h.2.2⟩
  | _ => exact h

/-- A call of somebody else. -/
theorem Merged.foreign (h : Merged st) {i : ℕ} {op : Op} {ring : TradeRing.State}
    (hop : Foreign op)
    (hcall : (st.rings i).Calls op ring) (hsize : ring.published.length ≤ ringSize) :
    Merged (st.setRing i ring) := by
  obtain ⟨hc, hf⟩ := h.ring (obeys_of_foreign hop hcall hsize) hcall
  obtain ⟨hrec, hans⟩ := of_foreign (h.consistent i) hop hcall
  refine ⟨hc, hf, h.visits.of_answer fun j => ?_, fun j => ?_, h.messages, h.seqNum⟩
  · rw [setRing_rings]
    split_ifs with hj
    · rw [hans, hj]
    · rfl
  · refine (h.source j).trans ?_
    rw [setRing_rings]
    split_ifs with hj
    · rw [hrec, hj]
    · rfl

/-- `readThread` asks for a new trade. -/
theorem Merged.ask (h : Merged st) {i reads : ℕ} {ring : TradeRing.State}
    (hpc : st.pc = .ask i reads)
    (hcall : (st.rings i).Calls (.anyNew 0) ring) (hsize : ring.published.length ≤ ringSize) :
    Merged { st.setRing i ring with
      pc := if ring.answer 0 = some true ∧ reads < 10 then .get i reads else afterRing i } := by
  have hvisits := h.visits
  rw [hpc] at hvisits
  have hle := (prefix_published hcall).length_le.trans hsize
  have hobeys : TradeRing.Obeys 0 (st.rings i) (.anyNew 0) :=
    fun _ => TradeRing.answersRight_of_le (h.follows i).received.length_le hle
  obtain ⟨hc, hf⟩ := h.ring hobeys hcall
  refine ⟨hc, hf, ?_, fun j => ?_, h.messages, h.seqNum⟩
  · simp only
    split_ifs with htold
    · refine ⟨hvisits.1, htold.2, ?_⟩
      change ((st.setRing i ring).rings i).answer 0 = _
      rw [setRing_rings, if_pos rfl]
      exact htold.1
    · exact visits_afterRing i
  · obtain ⟨_, hcall', -, -, hrec, -⟩ := (h.consistent i).anyNew 0
    obtain rfl := Except.ok.inj (hcall.symm.trans hcall')
    refine (h.source j).trans ?_
    change _ = ((st.setRing i _).rings j).received 0
    rw [setRing_rings]
    split_ifs with hj
    · rw [hrec, hj]
    · rfl

/-- `readThread` reads a trade and hands its message over. -/
theorem Merged.get (h : Merged st) {i reads : ℕ} {trade : Trade} {cursor : Cursor}
    {ring : TradeRing.State} (hpc : st.pc = .get i reads)
    (hget : TradeRing.getTrade (st.rings i).ring ((st.rings i).consumer 0) = .ok (trade, cursor))
    (hcall : (st.rings i).Calls (.get 0) ring) :
    Merged { st.setRing i ring with
      pc := .ask i (reads + 1)
      seqNum := add64 st.seqNum 1
      read := st.read ++ [(i, trade)]
      messages := st.messages ++ [formatMarketData st.seqNum trade] } := by
  have hvisits := h.visits
  rw [hpc] at hvisits
  obtain ⟨hlt, hreads, htold⟩ := hvisits
  have hobeys : TradeRing.Obeys 0 (st.rings i) (.get 0) := fun _ => htold
  obtain ⟨hc, hf⟩ := h.ring hobeys hcall
  obtain ⟨_, hcall', -, -, hrec, -⟩ := (h.consistent i).get 0
  obtain rfl := Except.ok.inj (hcall.symm.trans hcall')
  have htrade : ((st.rings i).ring (((st.rings i).received 0).length % ringSize)).currTrade =
      trade := by
    have hidx : ((st.rings i).consumer 0).index = ((st.rings i).received 0).length % ringSize := by
      rw [(h.consistent i).consumer]
      rfl
    rw [TradeRing.getTrade] at hget
    split_ifs at hget
    rw [← hidx]
    exact (Prod.mk.inj (Except.ok.inj hget)).1
  refine ⟨hc, hf, ⟨hlt, Nat.succ_le_of_lt hreads⟩, fun j => ?_, ?_, ?_⟩
  · simp only [Streams.ofSource_append, h.source j]
    rw [setRing_rings]
    split_ifs with hj
    · rw [hrec, Function.update_self, htrade, hj]
      simp [Streams.ofSource]
    · simp [Streams.ofSource, Ne.symm hj]
  · have hnext : (0 + (st.read.map Prod.snd).length) % 2 ^ 64 = st.seqNum := by
      rw [h.seqNum, List.length_map, Nat.zero_add]
    simp only [List.map_append, messagesFrom_append _ _ (Nat.two_pow_pos 64), hnext, h.messages]
    rfl
  · simp only [h.seqNum, List.length_append, List.length_singleton, add64, Nat.mod_add_mod]

theorem Merged.step (h : Merged st) (hstep : st.step a = some st')
    (hsize : ∀ i, (st'.rings i).published.length ≤ ringSize) : Merged st' := by
  have hring : ∀ i ring, ((st.setRing i ring).rings i).published.length ≤ ringSize →
      ring.published.length ≤ ringSize := fun i ring h => by rwa [setRing_rings, if_pos rfl] at h
  rcases step_cases hstep with ⟨i, op, ring, -, hop, hcall, rfl⟩ | ⟨flag, hpc, rfl⟩ |
    ⟨i, reads, ring, hpc, hcall, rfl⟩ | ⟨i, reads, trade, cursor, ring, hpc, hget, hcall,
      rfl⟩
  · exact h.foreign hop hcall (hring i ring (hsize i))
  · refine ⟨h.consistent, h.follows, ?_, h.source, h.messages, h.seqNum⟩
    cases flag
    · trivial
    · exact ⟨Nat.zero_lt_succ 1, Nat.zero_le _⟩
  · exact h.ask hpc hcall (hring i ring (hsize i))
  · exact h.get hpc hget hcall

theorem Merged.run : ∀ {actions : List Action} {st : ReadThread}, Merged st →
    st.run actions = some st' → (∀ i, (st'.rings i).published.length ≤ ringSize) →
      Merged st'
  | [], st, h, hrun, _ => by
    obtain rfl := Option.some.inj hrun
    exact h
  | a :: actions, st, h, hrun, hsize => by
    obtain ⟨st₁, hstep, hrest⟩ := Option.bind_eq_some_iff.1 hrun
    exact (h.step hstep fun i => (published_run hrest i).length_le.trans (hsize i)).run hrest hsize

/-- What has been read stays. -/
theorem read_step (hstep : st.step a = some st') : st.read <+: st'.read := by
  rcases step_cases hstep with ⟨i, op, ring, -, -, -, rfl⟩ | ⟨flag, -, rfl⟩ |
    ⟨i, reads, ring, -, -, rfl⟩ | ⟨i, reads, trade, cursor, ring, -, -, -, rfl⟩
  · exact List.prefix_refl _
  · exact List.prefix_refl _
  · exact List.prefix_refl _
  · exact List.prefix_append _ _

theorem read_run : ∀ {actions : List Action} {st : ReadThread}, st.run actions = some st' →
    st.read <+: st'.read
  | [], st, h => by
    obtain rfl := Option.some.inj h
    exact List.prefix_refl _
  | a :: actions, st, h => by
    obtain ⟨st₁, hstep, hrun⟩ := Option.bind_eq_some_iff.1 h
    exact (read_step hstep).trans (read_run hrun)

/-- There are no other rings. -/
theorem published_ring {j : ℕ} (hj : totalRingBufferCount ≤ j) : ∀ {actions : List Action}
    {st : ReadThread}, st.run actions = some st' →
      (st'.rings j).published = (st.rings j).published
  | [], st, h => by
    obtain rfl := Option.some.inj h
    rfl
  | a :: actions, st, h => by
    obtain ⟨st₁, hstep, hrun⟩ := Option.bind_eq_some_iff.1 h
    rw [published_ring hj hrun]
    have hset : ∀ {i op ring}, (st.rings i).Calls op ring →
        (j = i → ring.published = (st.rings i).published) →
        ((st.setRing i ring).rings j).published = (st.rings j).published := by
      intro i op ring hcall hsame
      rw [setRing_rings]
      split_ifs with hji
      · rw [hsame hji, hji]
      · rfl
    rcases step_cases hstep with ⟨i, op, ring, hi, -, hcall, rfl⟩ | ⟨flag, -, rfl⟩ |
      ⟨i, reads, ring, -, hcall, rfl⟩ | ⟨i, reads, trade, cursor, ring, -, -, hcall, rfl⟩
    · exact hset hcall fun hji => absurd (hji ▸ hi) (Nat.not_lt.2 hj)
    · rfl
    · exact hset hcall fun _ => by obtain rfl := Except.ok.inj hcall; rfl
    · refine hset hcall fun _ => ?_
      obtain ⟨_, -, hcall⟩ := bind_eq_ok.1 hcall
      obtain rfl := Except.ok.inj hcall
      rfl

/-- While the trades fit the rings, a run keeps what has been read in order. -/
theorem merged_run {actions : List Action} (hrun : start.run actions = some st)
    (hsize : ∀ i < totalRingBufferCount, (st.rings i).published.length ≤ ringSize) :
    Merged st := by
  refine merged_start.run hrun fun i => ?_
  rcases Nat.lt_or_ge i totalRingBufferCount with hi | hi
  · exact hsize i hi
  · rw [published_ring hi hrun]
    exact Nat.zero_le _

/-- In every run in which the trades fit the rings, the messages that `readThread` has handed over
are those of the trades it has read, numbered 0, 1, 2 and so on; and what it has read of a ring are
the first of the trades of that ring, each once and in order. -/
theorem readThread_merges {actions : List Action} (hrun : start.run actions = some st)
    (hsize : ∀ i < totalRingBufferCount, (st.rings i).published.length ≤ ringSize) :
    st.messages = messagesFrom 0 (st.read.map Prod.snd) ∧
      ∀ i, Streams.ofSource st.read i <+: (st.rings i).published := by
  have h := merged_run hrun hsize
  refine ⟨h.messages, fun i => ?_⟩
  rw [h.source i]
  exact (h.follows i).received

/-- Eleven trades in the first ring and one in the second, and `readThread` begins. -/
def twelveTrades : List Action :=
  List.replicate 11 (.call ⟨0, zero_lt_totalRingBufferCount⟩ (.add TradeRing.zeroTrade)) ++
    [.call ⟨1, one_lt_totalRingBufferCount⟩ (.add TradeRing.zeroTrade), .pass true]

/-- Ten visits of the first ring, and one of the second. -/
def elevenReads : List Action :=
  (List.replicate 10 [.ask, .get]).flatten ++ [.ask, .ask, .get]

theorem readThread_merges_elevenReads :
    ∃ st, start.run (twelveTrades ++ elevenReads) = some st ∧
    st.read.map Prod.fst = [0, 0, 0, 0, 0, 0, 0, 0, 0, 0, 1] ∧
    st.messages = messagesFrom 0 (st.read.map Prod.snd) ∧
    ∀ i, Streams.ofSource st.read i <+: (st.rings i).published := by
  have hview : (start.run (twelveTrades ++ elevenReads)).map (fun st =>
      (st.read.map Prod.fst, (st.rings 0).published.length, (st.rings 1).published.length)) =
      some ([0, 0, 0, 0, 0, 0, 0, 0, 0, 0, 1], 11, 1) := by decide +kernel
  obtain ⟨st, hrun, hst⟩ := Option.map_eq_some_iff.1 hview
  obtain ⟨hread, h₀, h₁⟩ := by simpa using hst
  refine ⟨st, hrun, hread, readThread_merges hrun fun i hi => ?_⟩
  rcases Nat.lt_or_ge i 1 with hlt | hge
  · rw [Nat.lt_one_iff.1 hlt, h₀]
    decide
  · rw [show i = 1 from le_antisymm (Nat.le_of_lt_succ hi) hge, h₁]
    decide

/-! ## No ring waits for long -/

/-- How many trades of other rings can be read before `readThread` comes to ring `j` and is about to
ask there. -/
def wait (j : ℕ) : ReadPc → ℕ
  | .top => 10 * j
  | .ask i reads =>
    if i < j then (10 - reads) + 10 * (j - i - 1)
    else if i = j then if reads < 10 then 0 else 10 * (totalRingBufferCount - 1)
    else (10 - reads) + 10 * (totalRingBufferCount - i - 1) + 10 * j
  | .get i reads =>
    if i < j then (10 - reads) + 10 * (j - i - 1)
    else if i = j then 0
    else (10 - reads) + 10 * (totalRingBufferCount - i - 1) + 10 * j
  | .ended => 0

theorem wait_le {j : ℕ} (hj : j < totalRingBufferCount) {pc : ReadPc} (h : st.Visits pc) :
    wait j pc ≤ 10 * (totalRingBufferCount - 1) := by
  cases pc with
  | top =>
    simp only [wait, totalRingBufferCount] at hj ⊢
    omega
  | ask i reads =>
    obtain ⟨hi, -⟩ := h
    simp only [wait, totalRingBufferCount] at hi hj ⊢
    split_ifs <;> omega
  | get i reads =>
    obtain ⟨hi, -⟩ := h
    simp only [wait, totalRingBufferCount] at hi hj ⊢
    split_ifs <;> omega
  | ended => exact Nat.zero_le _

theorem wait_afterRing {i j reads : ℕ} (hi : i < totalRingBufferCount)
    (hj : j < totalRingBufferCount)
    (hfull : i = j → 10 ≤ reads) : wait j (afterRing i) ≤ wait j (.ask i reads) := by
  unfold afterRing
  by_cases hlast : i + 1 < totalRingBufferCount
  · rw [if_pos hlast]
    simp only [wait, totalRingBufferCount] at hi hj hlast ⊢
    split_ifs <;> omega
  · rw [if_neg hlast]
    simp only [wait, totalRingBufferCount] at hi hj hlast ⊢
    split_ifs <;> omega

/-- While ring `j` has an unread trade, `readThread` comes nearer to it with every trade it reads
elsewhere. -/
theorem Merged.wait_step (h : Merged st) (hstep : st.step a = some st')
    (hsize : ∀ i, (st'.rings i).published.length ≤ ringSize) {j : ℕ}
    (hj : j < totalRingBufferCount)
    (hunread : ((st.rings j).received 0).length < (st.rings j).published.length) :
    ∃ new, st'.read = st.read ++ new ∧
      ((∃ e ∈ new, e.1 = j) ∨ new.length + wait j st'.pc ≤ wait j st.pc) := by
  rcases step_cases hstep with ⟨i, op, ring, -, hop, hcall, rfl⟩ | ⟨flag, hpc, rfl⟩ |
    ⟨i, reads, ring, hpc, hcall, rfl⟩ | ⟨i, reads, trade, cursor, ring, hpc, hget, hcall,
      rfl⟩
  · exact ⟨[], (List.append_nil _).symm, Or.inr (by simp [setRing])⟩
  · refine ⟨[], (List.append_nil _).symm, Or.inr ?_⟩
    cases flag <;> simp only [hpc, wait] <;> simp
    split_ifs <;> omega
  · have hvisits := h.visits
    rw [hpc] at hvisits
    refine ⟨[], (List.append_nil _).symm, Or.inr ?_⟩
    simp only [hpc, List.length_nil, Nat.zero_add]
    split_ifs with htold
    · have hlt := htold.2
      simp only [wait, if_pos hlt]
      exact le_refl _
    · refine wait_afterRing hvisits.1 hj fun hij => ?_
      -- there is a new trade, and the answer says so
      by_contra hlt
      refine htold ⟨?_, Nat.lt_of_not_le hlt⟩
      obtain rfl := Except.ok.inj hcall
      simp only [Function.update_self, Option.some_inj]
      have hiff := (h.consistent i).anyNewTrade_iff (i := 0) (h.follows i).near
      rw [hij] at hiff ⊢
      exact (hiff.2 (Or.inl hunread)).2 hunread
  · have hvisits := h.visits
    rw [hpc] at hvisits
    refine ⟨[(i, trade)], rfl, ?_⟩
    rcases eq_or_ne i j with rfl | hij
    · exact Or.inl ⟨_, List.mem_singleton_self _, rfl⟩
    · obtain ⟨hi, hreads, -⟩ := hvisits
      right
      simp only [hpc, wait, List.length_singleton, totalRingBufferCount] at hi ⊢
      split_ifs <;> omega

/-- What `readThread` has received of a ring is what it has read of it. -/
theorem Merged.unread_step (h : Merged st) (h' : Merged st') (hstep : st.step a = some st')
    {j : ℕ} (hunread : ((st.rings j).received 0).length < (st.rings j).published.length)
    {new : List (ℕ × Trade)} (hread : st'.read = st.read ++ new)
    (hnew : ∀ e ∈ new, e.1 ≠ j) :
    ((st'.rings j).received 0).length < (st'.rings j).published.length := by
  have hnone : Streams.ofSource new j = [] := by
    simpa [Streams.ofSource, List.filter_eq_nil_iff] using hnew
  rw [← h'.source j, hread, Streams.ofSource_append, hnone, List.append_nil, h.source j]
  exact hunread.trans_le (published_step hstep j).length_le

theorem Merged.wait_run {j : ℕ} (hj : j < totalRingBufferCount) : ∀ {actions : List Action}
    {st : ReadThread}, Merged st → st.run actions = some st' →
    (∀ i, (st'.rings i).published.length ≤ ringSize) →
    ((st.rings j).received 0).length < (st.rings j).published.length →
    ∃ new, st'.read = st.read ++ new ∧
      ((∀ e ∈ new, e.1 ≠ j) → new.length + wait j st'.pc ≤ wait j st.pc)
  | [], st, h, hrun, _, _ => by
    obtain rfl := Option.some.inj hrun
    exact ⟨[], (List.append_nil _).symm, fun _ => by simp⟩
  | a :: actions, st, h, hrun, hsize, hunread => by
    obtain ⟨st₁, hstep, hrest⟩ := Option.bind_eq_some_iff.1 hrun
    have hsize₁ : ∀ i, (st₁.rings i).published.length ≤ ringSize :=
      fun i => (published_run hrest i).length_le.trans (hsize i)
    have h₁ := h.step hstep hsize₁
    obtain ⟨new, hread, hcase⟩ := h.wait_step hstep hsize₁ hj hunread
    by_cases hserved : ∃ e ∈ new, e.1 = j
    · obtain ⟨e, he, hej⟩ := hserved
      obtain ⟨later, hlater⟩ := read_run hrest
      exact ⟨new ++ later, by rw [← hlater, hread, List.append_assoc],
        fun hnone => absurd hej (hnone e (List.mem_append_left _ he))⟩
    · have hnone : ∀ e ∈ new, e.1 ≠ j := fun e he hej => hserved ⟨e, he, hej⟩
      have hle := hcase.resolve_left hserved
      obtain ⟨new', hread', hwait⟩ := Merged.wait_run hj h₁ hrest hsize
        (h.unread_step h₁ hstep hunread hread hnone)
      refine ⟨new ++ new', by rw [hread', hread, List.append_assoc], fun hnone' => ?_⟩
      have hle' := hwait fun e he => hnone' e (List.mem_append_right _ he)
      rw [List.length_append]
      omega

/-- No ring is starved. Take any state in which a trade of ring `j` is unread, and anything that
happens then while the trades fit the rings : if `readThread` has read more than ten trades for each
other ring, one of them is of ring `j`. -/
theorem readThread_fair {before after : List Action} (hbefore : start.run before = some st)
    (hafter : st.run after = some st')
    (hsize : ∀ i < totalRingBufferCount, (st'.rings i).published.length ≤ ringSize) {j : ℕ}
    (hj : j < totalRingBufferCount)
    (hunread : ((st.rings j).received 0).length < (st.rings j).published.length) :
    ∃ new, st'.read = st.read ++ new ∧
      (10 * (totalRingBufferCount - 1) < new.length → ∃ e ∈ new, e.1 = j) := by
  have hrun : start.run (before ++ after) = some st' := by
    rw [run, List.foldlM_append]
    exact Option.bind_eq_some_iff.2 ⟨st, hbefore, hafter⟩
  have hall : ∀ i, (st'.rings i).published.length ≤ ringSize := fun i => by
    rcases Nat.lt_or_ge i totalRingBufferCount with hi | hi
    · exact hsize i hi
    · rw [published_ring hi hrun]
      exact Nat.zero_le _
  have h := merged_start.run hbefore fun i => (published_run hafter i).length_le.trans (hall i)
  obtain ⟨new, hread, hwait⟩ := h.wait_run hj hafter hall hunread
  refine ⟨new, hread, fun hlong => ?_⟩
  by_contra hnone
  have hle := hwait fun e he hej => hnone ⟨e, he, hej⟩
  have hbound := wait_le hj h.visits
  omega

/-- The eleventh trade is of the second ring. -/
theorem readThread_fair_elevenReads : ∃ st st' new,
    start.run twelveTrades = some st ∧ st.run elevenReads = some st' ∧
    ((st.rings 1).received 0).length < (st.rings 1).published.length ∧
    st'.read = st.read ++ new ∧ new.length = 11 ∧ ∃ e ∈ new, e.1 = 1 := by
  have hview : (do
      let st ← start.run twelveTrades
      let st' ← st.run elevenReads
      some (((st.rings 1).received 0).length, (st.rings 1).published.length, st.read.length,
        st'.read.length, (st'.rings 0).published.length, (st'.rings 1).published.length)) =
      some (0, 1, 0, 11, 11, 1) := by decide +kernel
  obtain ⟨st, hbefore, hview⟩ := Option.bind_eq_some_iff.1 hview
  obtain ⟨st', hafter, hview⟩ := Option.bind_eq_some_iff.1 hview
  obtain ⟨hreceived, hpublished, hread, hread', h₀, h₁⟩ := by
    simpa only [Option.some.injEq, Prod.mk.injEq] using hview
  have hunread : ((st.rings 1).received 0).length < (st.rings 1).published.length := by
    rw [hreceived, hpublished]
    exact Nat.zero_lt_one
  obtain ⟨new, hnew, hserved⟩ := readThread_fair hbefore hafter (j := 1) (fun i hi => by
    rcases Nat.lt_or_ge i 1 with hlt | hge
    · rw [Nat.lt_one_iff.1 hlt, h₀]
      decide
    · rw [show i = 1 from le_antisymm (Nat.le_of_lt_succ hi) hge, h₁]
      decide) (by decide) hunread
  have hlength : new.length = 11 := by
    have happend := congrArg List.length hnew
    rw [List.length_append, hread, hread', Nat.zero_add] at happend
    exact happend.symm
  exact ⟨st, st', new, hbefore, hafter, hunread, hnew, hlength,
    hserved (by rw [hlength]; decide)⟩

end ReadThread

end MarketFeedReader

end TradeX
