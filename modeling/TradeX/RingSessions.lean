import TradeX.GroupTrades
import TradeX.TradeRing

/-!
# A session that fits the ring

While no more than `RING_SIZE` trades are added, no slot of a ring is written twice, and what a
slot holds is the trade a consumer expects there or nothing. So however slow a consumer is, it is
told the truth, and if it reads only when it is told of a trade it receives all of them once and
in order (`received_of_asks`).

A group makes no more trades than it is given orders. A session of at most `RING_SIZE` orders for
each group is therefore delivered in full to every consumer of its rings (`session_delivered`).
-/

namespace TradeX

namespace TradeRing

variable {j : ℕ} {st : State} {ops : List Op}

/-- Consumer `j` calls `get_trade` only when `any_new_trade` has told it of a trade. -/
def Asks (j : ℕ) (st : State) : Op → Prop
  | .get i => i = j → st.answer j = some true
  | _ => True

/-- In the first lap a consumer that is not ahead gets the right answer. -/
theorem answersRight_of_le {k c : ℕ} (hc : c ≤ k) (hk : k ≤ ringSize) : AnswersRight k c := by
  rcases Nat.lt_or_ge c k with hlt | hge
  · exact Or.inl hlt
  · obtain rfl : c = k := le_antisymm hc hge
    refine (answersRight_self c).2 ?_
    simp only [ringSize, seqMod] at hk ⊢
    omega

theorem adds_cons (op : Op) (ops : List Op) :
    (adds (op :: ops)).length = (adds [op]).length + (adds ops).length := by
  rw [← List.length_append, ← adds_append]
  rfl

/-- The number of trades that have been published after a call. -/
theorem Consistent.length_published {op : Op} {st' : State} (h : Consistent st)
    (hst : st.Calls op st') : st'.published.length = st.published.length + (adds [op]).length := by
  cases op with
  | add trade =>
    obtain ⟨_, hst', -, hpub, -⟩ := h.add trade
    obtain rfl := Except.ok.inj (hst.symm.trans hst')
    rw [hpub, List.length_append]
    rfl
  | anyNew i =>
    obtain ⟨_, hst', -, hpub, -⟩ := h.anyNew i
    obtain rfl := Except.ok.inj (hst.symm.trans hst')
    rw [hpub]
    rfl
  | get i =>
    obtain ⟨_, hst', -, hpub, -⟩ := h.get i
    obtain rfl := Except.ok.inj (hst.symm.trans hst')
    rw [hpub]
    rfl

/-- While the trades fit the ring, a consumer that asks is never too far behind and always told
the truth. -/
theorem Follows.obeys : ∀ {ops : List Op} {st : State}, Consistent st → Follows j st →
    st.published.length + (adds ops).length ≤ ringSize →
    Runs.Always State.Calls (Asks j) st ops → ObeysFrom j st ops
  | [], st, _, _, _, _ => .nil st
  | op :: ops, st, hc, h, hsize, hasks => by
    rw [adds_cons] at hsize
    have hop : Obeys j st op := by
      cases op with
      | add trade =>
        have hone : (adds [Op.add trade]).length = 1 := rfl
        change st.published.length < (st.received j).length + ringSize
        omega
      | anyNew i => exact fun _ => answersRight_of_le h.received.length_le (by omega)
      | get i => exact hasks.head
    refine .cons hop fun st' hst => ?_
    obtain ⟨_, hst', hc', h'⟩ := h.step hc hop
    obtain rfl := Except.ok.inj (hst.symm.trans hst')
    refine h'.obeys hc' ?_ (hasks.tail hst)
    rw [hc.length_published hst]
    omega

/-- In the first lap, a consumer that is told there is no new trade has received all of them. -/
theorem Follows.received_eq (hc : Consistent st) (h : Follows j st)
    (hsize : st.published.length ≤ ringSize)
    (hno : anyNewTrade st.ring (st.consumer j) = false) : st.received j = st.published := by
  refine h.received.eq_of_length_le ?_
  have hiff := (hc.anyNewTrade_iff h.near).2 (answersRight_of_le h.received.length_le hsize)
  rw [hno] at hiff
  simpa using hiff

/-- A ring that is given no more trades than it has slots : every consumer that asks before it
reads has received the first of them, and all of them when it is told there is no new one. -/
theorem received_of_asks (hsize : (adds ops).length ≤ ringSize) :
    ∃ st, State.init.run ops = .ok st ∧ Consistent st ∧ st.published = adds ops ∧
      ∀ j, Runs.Always State.Calls (Asks j) State.init ops →
        st.received j <+: adds ops ∧
          (anyNewTrade st.ring (st.consumer j) = false → st.received j = adds ops) := by
  obtain ⟨st, hrun, hcons, hpub, -⟩ := Consistent.run ops consistent_init
  have hk : st.published = adds ops := by simpa [State.init] using hpub
  refine ⟨st, hrun, hcons, hk, fun j hasks => ?_⟩
  have hinit : Follows j State.init :=
    ⟨List.prefix_refl _, Nat.zero_le _, fun ha => by simp [State.init] at ha⟩
  have hobeys := hinit.obeys consistent_init (by simpa [State.init] using hsize) hasks
  obtain ⟨st', hrun', -, h⟩ :=
    Runs.Always.exists_steps (I := fun st => Consistent st ∧ Follows j st)
    (fun h hop => h.2.step h.1 hop) ⟨consistent_init, hinit⟩ hobeys
  obtain rfl : st = st' := Except.ok.inj (hrun.symm.trans (State.steps_iff_run.1 hrun'))
  rw [← hk] at hsize ⊢
  exact ⟨h.received, h.received_eq hcons hsize⟩

end TradeRing

open MatchingEngineDispatcher TradeRing

/-- The trades of a group. -/
def GroupProcessor.trades (g : GroupProcessor) : List Trade :=
  g.published.map fun e => e.trade

/-- A group has made no more trades than it has orders. -/
theorem length_trades_le {nodes : ℕ → ℕ → OrderNode} {lowerLimits upperLimits : ℕ → ℕ}
    {orders : List Order} {d : MatchingEngineDispatcher}
    (h : Shared (Counted nodes lowerLimits upperLimits) orders d) {i : ℕ} (hi : i < groupCount) :
    (d.groups i).trades.length ≤ (orders.filter fun o => groupOf o.symbolId = i).length := by
  obtain ⟨done, horders, hgroups⟩ := h
  obtain ⟨taken, queued, hsplit, hcounted⟩ := hgroups i hi
  have hcount := hcounted.count
  rw [← horders, List.filter_append, ← hsplit, GroupProcessor.trades, List.length_map,
    List.length_append, List.length_append]
  omega

/-- A session of at most `RING_SIZE` orders for each group, in any order in which the threads take
turns, and the ring of a group with any calls of its consumers between those of `add_trade` : a
consumer that asks before it reads has received the first trades of the group, numbered 1, 2, 3 and
so on, and when it is told there is no new one it has received them all. -/
theorem session_delivered (nodes : ℕ → ℕ → OrderNode)
    {lowerLimits upperLimits : ℕ → ℕ}
    (hband : ∀ s < totalSymbols, Band 10000 (lowerLimits s) (upperLimits s))
    (buffer : ℕ → Order) (capacity : ℕ) {orders : List Order} (ho : Orderly orders)
    (hsize : ∀ i < groupCount, (orders.filter fun o => groupOf o.symbolId = i).length ≤
      ringSize) :
    ∃ d₀, initializeEngine buffer capacity (fun s => ⟨nodes s, fun _ => 0⟩)
        lowerLimits upperLimits orders = .ok d₀ ∧
      ∀ schedule d, d₀.run schedule = .ok d → ∀ i < groupCount, ∀ ops : List Op,
        adds ops = (d.groups i).trades →
        ∃ st, State.init.run ops = .ok st ∧
          ∀ j, Runs.Always State.Calls (Asks j) State.init ops →
            st.received j <+: (d.groups i).trades ∧
            (∀ k t, (st.received j)[k]? = some t → t.tradeId = k + 1) ∧
            (anyNewTrade st.ring (st.consumer j) = false →
              st.received j = (d.groups i).trades) := by
  obtain ⟨d₀, hinit, hshared⟩ := shared_counted nodes hband buffer capacity ho
  refine ⟨d₀, hinit, fun schedule d hrun i hi ops hops => ?_⟩
  have hlength : (adds ops).length ≤ ringSize :=
    hops ▸ (length_trades_le (hshared schedule d hrun) hi).trans (hsize i hi)
  obtain ⟨done, -, hgroups⟩ := hshared schedule d hrun
  obtain ⟨taken, queued, -, hcounted⟩ := hgroups i hi
  obtain ⟨st, hst, -, -, hreceived⟩ := received_of_asks hlength
  refine ⟨st, hst, fun j hasks => ?_⟩
  obtain ⟨hpre, hall⟩ := hreceived j hasks
  rw [← hops]
  refine ⟨hpre, fun k t hk => ?_, hall⟩
  have hmem : (adds ops)[k]? = some t := by
    obtain ⟨rest, hrest⟩ := hpre
    rw [← hrest, List.getElem?_append_left (List.getElem?_eq_some_iff.1 hk).1]
    exact hk
  have hlt : k < (adds ops).length := (List.getElem?_eq_some_iff.1 hmem).1
  rw [hops, GroupProcessor.trades, List.getElem?_map, Option.map_eq_some_iff] at hmem
  obtain ⟨e, he, rfl⟩ := hmem
  rw [hcounted.numbered k e he, Nat.mod_eq_of_lt (by simp only [ringSize] at hlength; omega)]
  exact Nat.add_comm _ _

/-- The trade of group 0. -/
def firstTrade : Trade :=
  ⟨1, 0, 100, 4, 1, 1, 5⟩

/-- The one trade of a group goes to a consumer that asks once and reads. -/
theorem session_delivered_twoSymbols : ∃ d₀ d st,
    initializeEngine (fun _ => zeroOrder) 4
      (fun _ => ⟨fun _ => ⟨zeroOrder, 0, 0⟩, fun _ => 0⟩)
      (fun _ => 95) (fun _ => 105) twoSymbols = .ok d₀ ∧
    d₀.run twoSymbolsSchedule = .ok d ∧ (d.groups 0).trades = [firstTrade] ∧
    State.init.run [.add firstTrade, .anyNew 0, .get 0] = .ok st ∧
    st.received 0 = [firstTrade] := by
  obtain ⟨d₀, hinit, h⟩ := session_delivered (fun _ _ => ⟨zeroOrder, 0, 0⟩) band_sample
    (fun _ => zeroOrder) 4 orderly_twoSymbols (by decide)
  have hview : (do
      let d₀ ← initializeEngine (fun _ => zeroOrder) 4
        (fun _ => ⟨fun _ => ⟨zeroOrder, 0, 0⟩, fun _ => 0⟩)
        (fun _ => 95) (fun _ => 105) twoSymbols
      let d ← d₀.run twoSymbolsSchedule
      .ok (d.groups 0).trades) = (.ok [firstTrade] : Except Fault _) := by decide +kernel
  rw [hinit, ok_bind] at hview
  obtain ⟨d, hrun, hd⟩ := bind_eq_ok.1 hview
  have htrades : (d.groups 0).trades = [firstTrade] := Except.ok.inj hd
  obtain ⟨st, hst, hreceived⟩ :=
    h _ d hrun 0 (by decide) [.add firstTrade, .anyNew 0, .get 0] htrades.symm
  have hasks : Runs.Always State.Calls (Asks 0) State.init
      [.add firstTrade, .anyNew 0, .get 0] := by
    refine .cons trivial fun st₁ h₁ => .cons trivial fun st₂ h₂ => .cons ?_ fun _ _ => .nil _
    obtain rfl := Except.ok.inj h₁
    obtain rfl := Except.ok.inj h₂
    exact fun _ => rfl
  have hread : (State.init.run [.add firstTrade, .anyNew 0, .get 0]).map (fun st =>
      anyNewTrade st.ring (st.consumer 0)) = .ok false := by decide +kernel
  rw [hst] at hread
  obtain ⟨-, -, hall⟩ := hreceived 0 hasks
  exact ⟨d₀, d, st, hinit, hrun, htrades, hst, htrades ▸ hall (Except.ok.inj hread)⟩

end TradeX
