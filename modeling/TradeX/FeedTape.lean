import TradeX.FeedMerge
import TradeX.Isolation

/-!
# The feed of a symbol

From the orders to the messages of the feed : the groups process the orders they are given and put
their trades into their rings, and `readThread` reads the rings in turn. In a session that fits the
rings, the messages of a symbol are the trades that the orders of this symbol alone make on its
book, in order, whatever the other symbols and the threads do (`feed_of_symbol`).
-/

namespace TradeX

open MatchingEngineDispatcher MarketFeedReader

/-- A message without the two numbers that depend on other symbols. -/
def MarketDataMessage.ignoringIds (m : MarketDataMessage) : MarketDataMessage :=
  { m with tradeId := 0, seqNum := 0 }

theorem ignoringIds_formatMarketData (seqNum : ℕ) (t : Trade) :
    (formatMarketData seqNum t).ignoringIds = formatMarketData 0 t.ignoringId :=
  rfl

/-- The messages of a symbol are those of its trades. -/
theorem filter_messagesFrom (s : ℕ) : ∀ (seqNum : ℕ) (l : List Trade),
    ((messagesFrom seqNum l).filter (·.symbolId = s)).map MarketDataMessage.ignoringIds =
      (l.filter (·.symbolId = s)).map fun t => formatMarketData 0 t.ignoringId
  | _, [] => rfl
  | seqNum, t :: l => by
    have ih := filter_messagesFrom s (add64 seqNum 1) l
    have hsymbol : (formatMarketData seqNum t).symbolId = t.symbolId := rfl
    rw [messagesFrom]
    by_cases hs : t.symbolId = s
    · rw [List.filter_cons_of_pos (by simpa [hsymbol] using hs),
        List.filter_cons_of_pos (by simpa using hs),
        List.map_cons, List.map_cons, ih, ignoringIds_formatMarketData]
    · rw [List.filter_cons_of_neg (by simpa [hsymbol] using hs),
        List.filter_cons_of_neg (by simpa using hs), ih]

/-- If what comes from a source is of its group, what is of a symbol comes from the source of its
group. -/
theorem filter_ofSource {T : List (ℕ × Trade)} (s : ℕ)
    (h : ∀ i, ∀ t ∈ Streams.ofSource T i, groupOf t.symbolId = i) :
    (T.map Prod.snd).filter (·.symbolId = s) =
      (Streams.ofSource T (groupOf s)).filter (·.symbolId = s) := by
  rw [Streams.ofSource, List.filter_map, List.filter_map, List.filter_filter]
  congr 1
  refine List.filter_congr fun e he => ?_
  by_cases hs : e.2.symbolId = s
  · have hmem : e.2 ∈ Streams.ofSource T e.1 :=
      List.mem_map.2 ⟨e, List.mem_filter.2 ⟨he, decide_eq_true rfl⟩, rfl⟩
    have hgroup := h e.1 e.2 hmem
    rw [hs] at hgroup
    simp [hs, hgroup]
  · simp [hs]

/-- The orders of a symbol are among those of its group. -/
theorem filter_group (s : ℕ) (l : List Order) :
    (l.filter fun o => groupOf o.symbolId = groupOf s).filter (·.symbolId = s) =
      l.filter (·.symbolId = s) := by
  rw [List.filter_filter]
  refine List.filter_congr fun o _ => ?_
  by_cases hs : o.symbolId = s
  · simp [hs]
  · simp [hs]

section Session

variable {lowerLimits upperLimits : ℕ → ℕ} {orders : List Order}

/-- In a session of at most `RING_SIZE` orders for each group, the messages of a symbol that
`readThread` has handed over are, but for the numbers, the first of the trades that some first of
the symbol's orders make alone on the book that `initialize_engine` has made for it. When all orders
have been processed and `readThread` has read the ring of the symbol's group, they are the trades of
all its orders. -/
theorem feed_of_symbol (nodes : ℕ → ℕ → OrderNode)
    (hband : ∀ s < totalSymbols, Band 10000 (lowerLimits s) (upperLimits s))
    (buffer : ℕ → Order) (capacity : ℕ) (ho : Orderly orders)
    (hsymbols : ∀ o ∈ orders, o.symbolId < totalSymbols)
    (hsize : ∀ i < groupCount, (orders.filter fun o => groupOf o.symbolId = i).length ≤
      ringSize) :
    ∃ d₀, initializeEngine buffer capacity (fun s => ⟨nodes s, fun _ => 0⟩)
        lowerLimits upperLimits orders = .ok d₀ ∧
      ∀ schedule d, d₀.run schedule = .ok d →
        ∀ actions st, ReadThread.start.run actions = some st →
        (∀ i < groupCount, (st.rings i).published = (d.groups i).trades) → ∀ s < totalSymbols,
        ∃ done solo, done <+: orders.filter (·.symbolId = s) ∧
          (soloEngine nodes lowerLimits upperLimits s).run done = .ok solo ∧
          (st.messages.filter (·.symbolId = s)).map MarketDataMessage.ignoringIds <+:
            (tradesOf solo.published).map (formatMarketData 0) ∧
          (d.Complete →
            TradeRing.anyNewTrade (st.rings (groupOf s)).ring ((st.rings (groupOf s)).consumer 0) =
              false →
            done = orders.filter (·.symbolId = s) ∧
              (st.messages.filter (·.symbolId = s)).map MarketDataMessage.ignoringIds =
                (tradesOf solo.published).map (formatMarketData 0)) := by
  obtain ⟨d₀, hinit, hinv⟩ :=
    initializeEngine_inv nodes lowerLimits upperLimits buffer capacity orders
  obtain ⟨d₁, hinit₁, hshared⟩ := shared_counted nodes hband buffer capacity ho
  obtain rfl := Except.ok.inj (hinit.symm.trans hinit₁)
  refine ⟨d₀, hinit, fun schedule d hrun actions st hst hrings s hs => ?_⟩
  have hg := groupOf_lt s
  have hlength : ∀ i < totalRingBufferCount, (st.rings i).published.length ≤ ringSize :=
    fun i hi => (hrings i hi).symm ▸
      (length_trades_le (hshared schedule d hrun) hi).trans (hsize i hi)
  have hmerged := ReadThread.merged_run hst hlength
  obtain ⟨dispatched, hinv'⟩ := hinv.run hsymbols hrun
  obtain ⟨taken, queued, hsplit, hgroup⟩ := hinv'.groups _ hg
  obtain ⟨solo, hsolo, -, htrades⟩ := hgroup.solo s hs rfl
  -- the messages of the symbol are the trades that have been read from the ring of its group
  have hread : (st.messages.filter (·.symbolId = s)).map MarketDataMessage.ignoringIds =
      (((st.rings (groupOf s)).received 0).filter (·.symbolId = s)).map
        fun t => formatMarketData 0 t.ignoringId := by
    rw [hmerged.messages, filter_messagesFrom, ← hmerged.source,
      filter_ofSource s fun i t ht => ?_]
    rw [hmerged.source] at ht
    have hmem := (hmerged.follows i).received.subset ht
    rcases Nat.lt_or_ge i totalRingBufferCount with hi | hi
    · rw [hrings i hi] at hmem
      obtain ⟨e, he, rfl⟩ := List.mem_map.1 hmem
      obtain ⟨_, _, -, hgroup'⟩ := hinv'.groups i hi
      exact hgroup'.published e he
    · rw [ReadThread.published_ring hi hst] at hmem
      exact absurd hmem List.not_mem_nil
  have hmade : (tradesOf solo.published).map (formatMarketData 0) =
      ((st.rings (groupOf s)).published.filter (·.symbolId = s)).map
        fun t => formatMarketData 0 t.ignoringId := by
    rw [← htrades, hrings _ hg, GroupProcessor.trades, tradesOf, List.filter_map, List.map_map,
      List.map_map]
    rfl
  have hown : (dispatched.filter fun o => groupOf o.symbolId = groupOf s).filter (·.symbolId = s) =
      dispatched.filter (·.symbolId = s) := filter_group s dispatched
  refine ⟨_, solo, ?_, hsolo, ?_, fun hcomplete hno => ?_⟩
  · have hpre := (List.prefix_append taken queued).filter (·.symbolId = s)
    rw [hsplit, hown] at hpre
    refine hpre.trans ?_
    rw [← hinv'.orders, List.filter_append]
    exact List.prefix_append _ _
  · rw [hread, hmade]
    exact ((hmerged.follows _).received.filter _).map _
  · constructor
    · rcases hgroup.queue.of_pop (hcomplete.2 _ hg) with ⟨rfl, -⟩ | ⟨_, _, _, -, hr, -⟩
      · rw [List.append_nil] at hsplit
        rw [hsplit, hown, ← hinv'.orders, hcomplete.1, List.append_nil]
      · cases hr
    · rw [hread, hmade, (hmerged.follows _).received_eq (hmerged.consistent _) (hlength _ hg) hno]

end Session

/-- The trades of `twoSymbols`, one for each group, and both are read. -/
def twoSymbolsFeed : List ReadThread.Action :=
  [.call ⟨1, one_lt_totalRingBufferCount⟩ (.add ⟨1, 0, 100, 3, 2, 1025, 5⟩), .pass true,
    .ask, .call ⟨0, zero_lt_totalRingBufferCount⟩ (.add ⟨1, 0, 100, 4, 1, 1, 5⟩), .ask,
    .get, .ask, .pass true, .ask, .get]

/-- The message of symbol 1 is that of the trade which the two orders of this symbol make alone. -/
theorem feed_of_symbol_twoSymbols : ∃ d₀ d st done solo,
    initializeEngine (fun _ => zeroOrder) 4
      (fun _ => ⟨fun _ => ⟨zeroOrder, 0, 0⟩, fun _ => 0⟩)
      (fun _ => 95) (fun _ => 105) twoSymbols = .ok d₀ ∧
    d₀.run twoSymbolsSchedule = .ok d ∧ ReadThread.start.run twoSymbolsFeed = some st ∧
    st.messages.map (fun m => (m.seqNum, m.symbolId)) = [(0, 1025), (1, 1)] ∧
    done <+: twoSymbols.filter (·.symbolId = 1) ∧
    (soloEngine (fun _ _ => ⟨zeroOrder, 0, 0⟩) (fun _ => 95) (fun _ => 105) 1).run done =
      .ok solo ∧
    (st.messages.filter (·.symbolId = 1)).map MarketDataMessage.ignoringIds <+:
      (tradesOf solo.published).map (formatMarketData 0) := by
  obtain ⟨d₀, hinit, h⟩ := feed_of_symbol (fun _ _ => ⟨zeroOrder, 0, 0⟩) band_sample
    (fun _ => zeroOrder) 4 orderly_twoSymbols (by decide) (by decide)
  have hview : (do
      let d₀ ← initializeEngine (fun _ => zeroOrder) 4
        (fun _ => ⟨fun _ => ⟨zeroOrder, 0, 0⟩, fun _ => 0⟩)
        (fun _ => 95) (fun _ => 105) twoSymbols
      let d ← d₀.run twoSymbolsSchedule
      .ok ((d.groups 0).trades, (d.groups 1).trades)) =
      (.ok ([⟨1, 0, 100, 4, 1, 1, 5⟩], [⟨1, 0, 100, 3, 2, 1025, 5⟩]) : Except Fault _) := by
    decide +kernel
  rw [hinit, ok_bind] at hview
  obtain ⟨d, hrun, hd⟩ := bind_eq_ok.1 hview
  obtain ⟨htrades₀, htrades₁⟩ := Prod.mk.inj (Except.ok.inj hd)
  have hfeed : (ReadThread.start.run twoSymbolsFeed).map (fun st =>
      (st.messages.map fun m => (m.seqNum, m.symbolId), (st.rings 0).published,
        (st.rings 1).published)) =
      some ([(0, 1025), (1, 1)], [⟨1, 0, 100, 4, 1, 1, 5⟩],
        [⟨1, 0, 100, 3, 2, 1025, 5⟩]) := by
    decide +kernel
  obtain ⟨st, hst, hmessages⟩ := Option.map_eq_some_iff.1 hfeed
  obtain ⟨hmessages, hring₀, hring₁⟩ := by simpa only [Prod.mk.injEq] using hmessages
  obtain ⟨done, solo, hdone, hsolo, hpre, -⟩ := h _ d hrun _ st hst (fun i hi => by
    rcases Nat.lt_or_ge i 1 with hlt | hge
    · rw [Nat.lt_one_iff.1 hlt, hring₀, htrades₀]
    · rw [show i = 1 from le_antisymm (Nat.le_of_lt_succ hi) hge, hring₁, htrades₁]) 1
        (by decide)
  exact ⟨d₀, d, st, done, solo, hinit, hrun, hst, hmessages, hdone, hsolo, hpre⟩

end TradeX
