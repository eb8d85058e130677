import TradeX.TradeRing
import Mathlib.Data.List.Induction

/-!
# A ring that is not new

The constructor of `trade_ring_buffer` opens the shared memory object if there is one, and
starts at slot `0` with sequence number `1` whatever the slots hold. A producer whose process
ended without the destructor leaves the object behind (`leftBehind`), and a new producer and
new consumers attach to it (`State.attached`).

A consumer that asks first can then be told of a trade of an earlier run : the slot it looks
at is not empty. It happens exactly when it reads with nothing new to read, before the new
producer has written over every slot the earlier runs used (`InTime`,
`restart_delivers_new_iff`).
-/

namespace TradeX.TradeRing

/-! ## What earlier runs leave -/

/-- The ring after a producer has attached to it, added `trades` and ended. -/
def leave (ring : Slots) (trades : List Trade) : Slots :=
  (trades.foldl (fun (rc : Slots × Cursor) trade => addTrade rc.1 rc.2 trade) (ring, start)).1

/-- The ring after earlier runs of the producer, the first of which created it. -/
def leftBehind (earlier : List (List Trade)) : Slots :=
  earlier.foldl leave zeroed

/-- The number of slots the earlier runs used. -/
def used (earlier : List (List Trade)) : ℕ :=
  earlier.foldl (fun n trades => max n (min trades.length ringSize)) 0

/-- A new producer and new consumers, attached to a ring. -/
def State.attached (ring : Slots) : State :=
  { State.init with ring := ring }

theorem foldl_addTrade (ring : Slots) (trades : List Trade) :
    trades.foldl (fun (rc : Slots × Cursor) trade => addTrade rc.1 rc.2 trade) (ring, start) =
      (Ring.after ringSize ring (slotOf trades) trades.length, cursorAt trades.length) := by
  induction trades using List.reverseRecOn with
  | nil => rfl
  | append_singleton trades trade ih =>
    rw [List.foldl_append, ih, List.foldl_cons, List.foldl_nil, addTrade, List.length_append,
      List.length_singleton, Ring.after_succ, updateIndexAndSeq_cursorAt,
      Ring.after_congr fun j hj => slotOf_append trades trade hj]
    congr 2
    simp [slotOf, cursorAt]

theorem leave_eq (ring : Slots) (trades : List Trade) :
    leave ring trades = Ring.after ringSize ring (slotOf trades) trades.length := by
  rw [leave, foldl_addTrade]

/-- The first `n` slots hold trades of `old`, the others are empty. -/
structure Holds (old : List Trade) (n : ℕ) (ring : Slots) : Prop where
  le : n ≤ ringSize
  even : EvenSlots ring
  full : ∀ i < n, (ring i).currTrade ∈ old ∧ (ring i).seq ≠ 0
  empty : ∀ i, n ≤ i → i < ringSize → (ring i).seq = 0

theorem holds_zeroed : Holds [] 0 zeroed :=
  ⟨Nat.zero_le _, evenSlots_zeroed, fun _ hi => absurd hi (Nat.not_lt_zero _), fun _ _ _ => rfl⟩

theorem slotOf_seq_ne_zero (trades : List Trade) (j : ℕ) : (slotOf trades j).seq ≠ 0 := by
  simp only [slotOf]
  omega

theorem slotOf_mem {trades : List Trade} {j : ℕ} (hj : j < trades.length) :
    (slotOf trades j).currTrade ∈ trades := by
  simp [slotOf, List.getElem?_eq_getElem hj]

/-- A slot that has been written holds one of the writes. -/
theorem after_written (ring : Slots) {trades : List Trade} {i : ℕ} (hi : i < trades.length)
    (hr : i < ringSize) :
    (Ring.after ringSize ring (slotOf trades) trades.length i).currTrade ∈ trades ∧
      (Ring.after ringSize ring (slotOf trades) trades.length i).seq ≠ 0 := by
  obtain ⟨j, -, hj, -, -, hslot⟩ := after_behind ring (slotOf trades) hi
  rw [Nat.mod_eq_of_lt hr] at hslot
  rw [hslot]
  exact ⟨slotOf_mem hj, slotOf_seq_ne_zero _ _⟩

/-- The slots from the producer's on have not been written in the first lap. -/
theorem after_unreached {ring : Slots} {f : ℕ → ItemNode} {k i : ℕ} (hi : k ≤ i)
    (hr : i < ringSize) : Ring.after ringSize ring f k i = ring i := by
  refine Ring.after_unwritten fun j hj => ?_
  rw [Nat.mod_eq_of_lt (by omega)]
  omega

theorem Holds.leave {old : List Trade} {n : ℕ} {ring : Slots} (h : Holds old n ring)
    (trades : List Trade) :
    Holds (old ++ trades) (max n (min trades.length ringSize)) (leave ring trades) := by
  have hle := h.le
  rw [leave_eq]
  refine ⟨by omega, h.even.after _ _, fun i hi => ?_, fun i hi hr => ?_⟩
  · rcases Nat.lt_or_ge i trades.length with hlt | hge
    · obtain ⟨hmem, hseq⟩ := after_written ring hlt (by omega)
      exact ⟨List.mem_append_right _ hmem, hseq⟩
    · rw [after_unreached hge (by omega)]
      obtain ⟨hmem, hseq⟩ := h.full i (by omega)
      exact ⟨List.mem_append_left _ hmem, hseq⟩
  · rw [after_unreached (by omega) hr]
    exact h.empty i (by omega) hr

theorem holds_leftBehind (earlier : List (List Trade)) :
    Holds earlier.flatten (used earlier) (leftBehind earlier) := by
  induction earlier using List.reverseRecOn with
  | nil => exact holds_zeroed
  | append_singleton earlier trades ih =>
    rw [List.flatten_append, List.flatten_singleton, used, List.foldl_append, leftBehind,
      List.foldl_append]
    exact ih.leave trades

/-! ## Reading from it -/

/-- A consumer calls `get_trade` only when `any_new_trade` has told it of a trade. -/
def Gated (st : State) : Op → Prop
  | .get i => st.answer i = some true
  | _ => True

/-- A trade of the new producer waits for the consumer that reads, or the new producer has
written over the `n` slots that earlier runs used. -/
def InTime (n : ℕ) (st : State) : Op → Prop
  | .get i => (st.received i).length < st.published.length ∨ n ≤ st.published.length
  | _ => True

/-- Every trade delivered was added by the new producer. -/
def OnlyNew (st : State) : Prop :=
  ∀ i, ∀ trade ∈ st.received i, trade ∈ st.published

/-- No consumer is ahead of the new producer in its first lap, and none has been told of a
trade in an empty slot. -/
structure Attached (ring₀ : Slots) (st : State) : Prop where
  consistent : ConsistentFrom ring₀ st
  behind : ∀ i, (st.received i).length ≤ st.published.length ∨
    ringSize ≤ st.published.length
  told : ∀ i, st.answer i = some true → (st.ring ((st.received i).length % ringSize)).seq ≠ 0

theorem attached_attached (ring : Slots) : Attached ring (State.attached ring) :=
  ⟨⟨rfl, rfl, fun _ => rfl⟩, fun _ => Or.inl (Nat.zero_le _),
    fun _ h => absurd h (by simp [State.attached, State.init])⟩

namespace Attached

variable {ring₀ : Slots} {st st' : State} {old : List Trade} {n i : ℕ}

/-- A slot below the producer's number of trades holds one of them. -/
theorem new_of_lt (h : Attached ring₀ st)
    (hi : (st.received i).length % ringSize < st.published.length) :
    (st.ring ((st.received i).length % ringSize)).currTrade ∈ st.published := by
  rw [h.consistent.ring]
  exact (after_written _ hi (Nat.mod_lt _ ringSize_pos)).1

/-- A consumer that is told of a trade in time reads a trade of the new producer. -/
theorem inTime_new (hold : Holds old n ring₀) (h : Attached ring₀ st)
    (hgate : Gated st (.get i)) (htime : InTime n st (.get i)) :
    ((st.received i).length < st.published.length ∨ ringSize ≤ st.published.length) ∧
      (st.ring ((st.received i).length % ringSize)).currTrade ∈ st.published := by
  have hreach : (st.received i).length < st.published.length ∨
      ringSize ≤ st.published.length := by
    rcases htime with hlt | hn
    · exact Or.inl hlt
    · rcases h.behind i with hle | hlap
      · -- at the producer's own slot, which is empty in the first lap
        by_contra hno
        have hseq := h.told i hgate
        rw [Nat.mod_eq_of_lt (by omega), h.consistent.ring, after_unreached (by omega) (by omega)]
          at hseq
        exact hseq (hold.empty _ (by omega) (by omega))
      · exact Or.inr hlap
  refine ⟨hreach, h.new_of_lt ?_⟩
  have hmod := Nat.mod_lt (st.received i).length ringSize_pos
  have hle := Nat.mod_le (st.received i).length ringSize
  omega

/-- Out of time it reads a trade of an earlier run. -/
theorem late_old (hold : Holds old n ring₀) (h : Attached ring₀ st)
    (hlate : ¬ InTime n st (.get i)) :
    (st.ring ((st.received i).length % ringSize)).currTrade ∈ old := by
  obtain ⟨hge, hn⟩ := not_or.1 hlate
  have hle := hold.le
  have hbehind := h.behind i
  rw [Nat.mod_eq_of_lt (by omega), h.consistent.ring, after_unreached (by omega) (by omega)]
  exact (hold.full _ (by omega)).1

theorem add (h : Attached ring₀ st) (trade : Trade) (hst : st.Calls (.add trade) st') :
    Attached ring₀ st' ∧ st'.published = st.published ++ [trade] ∧
      st'.received = st.received := by
  obtain ⟨_, hst', hcons, hpub, hrec, hans⟩ := h.consistent.add trade
  obtain rfl := Except.ok.inj (hst.symm.trans hst')
  refine ⟨⟨hcons, fun i => ?_, fun i hi => ?_⟩, hpub, hrec⟩
  · rw [hpub, hrec, List.length_append]
    have := h.behind i
    omega
  · rw [hans] at hi
    rw [hrec]
    have hring : st'.ring = Function.update st.ring st.producer.index
        ⟨trade, 2 * st.producer.nextExpectedSeq + 2⟩ := by
      obtain rfl := Except.ok.inj hst
      rfl
    rw [hring]
    rcases eq_or_ne ((st.received i).length % ringSize) st.producer.index with heq | hne
    · rw [heq, Function.update_self]
      exact Nat.succ_ne_zero _
    · rw [Function.update_of_ne hne]
      exact h.told i hi

theorem anyNew (h : Attached ring₀ st) (j : ℕ) (hst : st.Calls (.anyNew j) st') :
    Attached ring₀ st' ∧ st'.published = st.published ∧ st'.received = st.received := by
  obtain ⟨_, hst', hcons, hpub, hrec, hans⟩ := h.consistent.anyNew j
  obtain rfl := Except.ok.inj (hst.symm.trans hst')
  have hring : st'.ring = st.ring := by
    obtain rfl := Except.ok.inj hst
    rfl
  refine ⟨⟨hcons, fun i => by rw [hpub, hrec]; exact h.behind i, fun i hi => ?_⟩, hpub,
    hrec⟩
  rw [hans] at hi
  rw [hrec, hring]
  rcases eq_or_ne i j with rfl | hij
  · rw [Function.update_self, Option.some_inj, h.consistent.anyNewTrade_eq] at hi
    omega
  · rw [Function.update_of_ne hij] at hi
    exact h.told i hi

theorem get (hold : Holds old n ring₀) (h : Attached ring₀ st) (hst : st.Calls (.get i) st') :
    (Gated st (.get i) → InTime n st (.get i) → Attached ring₀ st') ∧
      st'.published = st.published ∧
      st'.received = Function.update st.received i
        (st.received i ++ [(st.ring ((st.received i).length % ringSize)).currTrade]) := by
  obtain ⟨_, hst', hcons, hpub, hrec, hans⟩ := h.consistent.get hold.even i
  obtain rfl := Except.ok.inj (hst.symm.trans hst')
  refine ⟨fun hgate htime => ⟨hcons, fun j => ?_, fun j hj => ?_⟩, hpub, hrec⟩
  · rw [hpub, hrec]
    rcases eq_or_ne j i with rfl | hji
    · rw [Function.update_self, List.length_append, List.length_singleton]
      exact (inTime_new hold h hgate htime).1
    · rw [Function.update_of_ne hji]
      exact h.behind j
  · rw [hans] at hj
    rcases eq_or_ne j i with rfl | hji
    · rw [Function.update_self] at hj
      simp at hj
    · rw [Function.update_of_ne hji] at hj
      have hring : st'.ring = st.ring := by
        rw [hcons.ring, hpub, h.consistent.ring]
      rw [hrec, Function.update_of_ne hji, hring]
      exact h.told j hj

/-- What a call of a consumer that asks first does, if it is in time. -/
theorem step (hold : Holds old n ring₀) (h : Attached ring₀ st) {op : Op}
    (hgate : Gated st op) (htime : InTime n st op) (hst : st.Calls op st') :
    Attached ring₀ st' ∧ (OnlyNew st → OnlyNew st') := by
  rcases op with trade | j | j
  · obtain ⟨h', hpub, hrec⟩ := h.add trade hst
    refine ⟨h', fun hnew i t ht => ?_⟩
    rw [hrec] at ht
    rw [hpub]
    exact List.mem_append_left _ (hnew i t ht)
  · obtain ⟨h', hpub, hrec⟩ := h.anyNew j hst
    refine ⟨h', fun hnew => ?_⟩
    rw [OnlyNew, hpub, hrec]
    exact hnew
  · obtain ⟨h', hpub, hrec⟩ := h.get hold hst
    refine ⟨h' hgate htime, fun hnew i t ht => ?_⟩
    rw [hrec] at ht
    rw [hpub]
    rcases eq_or_ne i j with rfl | hij
    · rw [Function.update_self] at ht
      rcases List.mem_append.1 ht with hmem | hmem
      · exact hnew i t hmem
      · rw [List.mem_singleton.1 hmem]
        exact (inTime_new hold h hgate htime).2
    · rw [Function.update_of_ne hij] at ht
      exact hnew i t ht

/-- Out of time, it delivers a trade that is not new. -/
theorem not_onlyNew (hold : Holds old n ring₀) (h : Attached ring₀ st) {op : Op}
    (hdisj : ∀ trade ∈ st.published, trade ∉ old) (hlate : ¬ InTime n st op)
    (hst : st.Calls op st') : ¬ OnlyNew st' := by
  rcases op with trade | j | j
  · exact absurd trivial hlate
  · exact absurd trivial hlate
  · obtain ⟨-, hpub, hrec⟩ := h.get hold hst
    intro hnew
    refine hdisj _ ?_ (late_old hold h hlate)
    rw [← hpub]
    refine hnew j _ ?_
    rw [hrec, Function.update_self]
    exact List.mem_append_right _ (List.mem_singleton_self _)

end Attached

/-! ## Every run -/

theorem State.Calls.published_eq {st st' : State} {op : Op} (h : st.Calls op st') :
    st'.published = st.published ++ adds [op] := by
  rcases op with trade | j | j
  · obtain rfl := Except.ok.inj h
    rfl
  · obtain rfl := Except.ok.inj h
    exact (List.append_nil _).symm
  · obtain ⟨_, -, h⟩ := bind_eq_ok.1 h
    obtain rfl := Except.ok.inj h
    exact (List.append_nil _).symm

theorem ConsistentFrom.returns {ring₀ : Slots} {st : State} (heven : EvenSlots ring₀)
    (h : ConsistentFrom ring₀ st) (op : Op) : ∃ st', st.Calls op st' ∧
    ConsistentFrom ring₀ st' := by
  rcases op with trade | j | j
  · obtain ⟨st', hst, h', -⟩ := h.add trade
    exact ⟨st', hst, h'⟩
  · obtain ⟨st', hst, h', -⟩ := h.anyNew j
    exact ⟨st', hst, h'⟩
  · obtain ⟨st', hst, h', -⟩ := h.get heven j
    exact ⟨st', hst, h'⟩

theorem mem_adds {ops : List Op} {op : Op} (hop : op ∈ ops) {trade : Trade}
    (h : trade ∈ adds [op]) : trade ∈ adds ops := by
  obtain ⟨l, l', rfl⟩ := List.append_of_mem hop
  rw [← List.singleton_append, adds_append, adds_append]
  exact List.mem_append_right _ (List.mem_append_left _ h)

/-- A new producer and new consumers that ask first, attached to what earlier runs left
behind. Every call returns. The consumers are given only trades of the new producer in every
run where each read is in time, and, if the new producer adds no trade that an earlier run
added, in no other. -/
theorem restart_delivers_new_iff (earlier : List (List Trade)) (ops : List Op)
    (hgated : Runs.Always State.Calls Gated (State.attached (leftBehind earlier)) ops) :
    (∃ st, (State.attached (leftBehind earlier)).run ops = .ok st) ∧
    (Runs.Always State.Calls (InTime (used earlier)) (State.attached (leftBehind earlier)) ops →
      ∀ pre post st, ops = pre ++ post →
        (State.attached (leftBehind earlier)).run pre = .ok st → OnlyNew st) ∧
    ((∀ trade ∈ adds ops, trade ∉ earlier.flatten) →
      (∀ pre post st, ops = pre ++ post →
        (State.attached (leftBehind earlier)).run pre = .ok st → OnlyNew st) →
      Runs.Always State.Calls (InTime (used earlier))
        (State.attached (leftBehind earlier)) ops) := by
  have hold := holds_leftBehind earlier
  have h0 := attached_attached (leftBehind earlier)
  have hnew : OnlyNew (State.attached (leftBehind earlier)) :=
    fun _ _ h => absurd h (List.not_mem_nil)
  simp only [← State.steps_iff_run]
  refine ⟨?_, fun htime pre post st hlist hpre => ?_, fun hdisj => Iff.mp ?_⟩
  · obtain ⟨st, hst, -⟩ := Runs.Always.exists_steps (I := ConsistentFrom (leftBehind earlier))
      (P := fun _ _ => True) (fun h _ => h.returns hold.even _) h0.consistent
      (.of_forall_mem (l := ops) fun _ _ _ => trivial)
    exact ⟨st, hst⟩
  · subst hlist
    refine (Runs.Steps.invariant (I := fun st => Attached (leftBehind earlier) st ∧ OnlyNew st)
      (P := fun st op => Gated st op ∧ InTime (used earlier) st op) ?_ ⟨h0, hnew⟩
      (hgated.left.and htime.left) hpre).2
    intro st op st' h hop hst
    obtain ⟨h', hnew'⟩ := h.1.step hold hop.1 hop.2 hst
    exact ⟨h', hnew' h.2⟩
  · refine Runs.always_iff_of_kept (G := OnlyNew)
      (I := fun st => Attached (leftBehind earlier) st ∧
        ∀ trade ∈ st.published, trade ∉ earlier.flatten)
      (L := fun st op => Gated st op ∧ ∀ trade ∈ adds [op], trade ∉ earlier.flatten)
      ?_ ?_ ?_ ⟨h0, fun _ h => absurd h (List.not_mem_nil)⟩ hnew
      (hgated.and (.of_forall_mem fun op hop _ trade ht => hdisj trade (mem_adds hop ht)))
    · intro st op st' h hop htime hst
      refine ⟨(h.1.step hold hop.1 htime hst).1, fun trade ht => ?_⟩
      rw [hst.published_eq] at ht
      exact (List.mem_append.1 ht).elim (h.2 trade) (hop.2 trade)
    · intro st op st' h hop hst hst_new
      refine ⟨fun hnew' => ?_, fun htime => (h.1.step hold hop.1 htime hst).2 hst_new⟩
      by_contra hlate
      exact h.1.not_onlyNew hold h.2 hlate hst hnew'
    · intro st op h _
      obtain ⟨st', hst, -⟩ := h.1.consistent.returns hold.even op
      exact Or.inr ⟨st', hst⟩

/-- The earlier run added a trade, and a new consumer asks before the new producer adds one. -/
theorem restart_replays_old :
    let st₀ := State.attached (leftBehind [[{ zeroTrade with tradeId := 7 }]])
    let ops : List Op := [.anyNew 0, .get 0]
    Runs.Always State.Calls Gated st₀ ops ∧
    ∃ st, st₀.run ops = .ok st ∧ st.received 0 = [{ zeroTrade with tradeId := 7 }] ∧
      st.published = [] := by
  intro st₀ ops
  have hgated : Runs.Always State.Calls Gated st₀ ops := by
    refine .cons trivial fun st₁ h₁ => .cons ?_ fun _ _ => .nil _
    obtain rfl := Except.ok.inj h₁
    rfl
  have hget : getTrade st₀.ring (st₀.consumer 0) =
      .ok ({ zeroTrade with tradeId := 7 }, updateIndexAndSeq start) := if_neg (by decide)
  refine ⟨hgated, ?_⟩
  simp only [ops, State.run, List.foldlM_cons, List.foldlM_nil, State.step, hget, bind, Except.bind,
    pure, Except.pure]
  exact ⟨_, rfl, rfl, rfl⟩

/-- After the new producer's first trade it reads that one. -/
theorem restart_first_trade :
    let st₀ := State.attached (leftBehind [[{ zeroTrade with tradeId := 7 }]])
    let ops : List Op := [.add { zeroTrade with tradeId := 8 }, .anyNew 0, .get 0]
    Runs.Always State.Calls Gated st₀ ops ∧
    ∃ st, st₀.run ops = .ok st ∧ OnlyNew st := by
  intro st₀ ops
  have hgated : Runs.Always State.Calls Gated st₀ ops := by
    refine .cons trivial fun st₁ h₁ => .cons trivial fun st₂ h₂ => .cons ?_ fun _ _ =>
      .nil _
    obtain rfl := Except.ok.inj h₁
    obtain rfl := Except.ok.inj h₂
    rfl
  have htime : Runs.Always State.Calls (InTime (used [[{ zeroTrade with tradeId := 7 }]])) st₀
      ops := by
    refine .cons trivial fun st₁ h₁ => .cons trivial fun st₂ h₂ => .cons ?_ fun _ _ =>
      .nil _
    obtain rfl := Except.ok.inj h₁
    obtain rfl := Except.ok.inj h₂
    exact Or.inl Nat.zero_lt_one
  obtain ⟨⟨st, hst⟩, h, -⟩ :=
    restart_delivers_new_iff [[{ zeroTrade with tradeId := 7 }]] ops hgated
  exact ⟨hgated, st, hst, h htime ops [] st (List.append_nil _).symm hst⟩

end TradeX.TradeRing
