import TradeX.Dispatcher
import TradeX.Library.Runs

/-!
# Symbols do not disturb each other

Two symbols share a group's queue and its trade ids, and nothing else : the symbols below
`TOTAL_SYMBOLS` are told apart by the group and the book (`symbol_eq`), what a call does to
its book does not depend on the trade id (`processOrder_congr`), and the queues are in order.
So the trades of a symbol are those of its own orders, on a book of its own
(`trades_eq_solo`).
-/

namespace TradeX

/-- A trade, but for its id. -/
def Trade.ignoringId (t : Trade) : Trade :=
  { t with tradeId := 0 }

/-- The trades of executions, but for their ids. -/
def tradesOf (l : List Execution) : List Trade :=
  l.map fun e => e.trade.ignoringId

@[simp] theorem tradesOf_nil : tradesOf [] = [] := rfl

@[simp] theorem tradesOf_append (l l' : List Execution) :
    tradesOf (l ++ l') = tradesOf l ++ tradesOf l' :=
  List.map_append

/-! ## A call and the trade id -/

/-- Executions `l` and `l'` are the same but for the ids of their trades, which are in the
symbol `symbolId`. -/
structure SameTrades (symbolId : ℕ) (l l' : List Execution) : Prop where
  trades : tradesOf l' = tradesOf l
  length : l'.length = l.length
  symbol : ∀ e ∈ l, e.trade.symbolId = symbolId

theorem SameTrades.nil (symbolId : ℕ) : SameTrades symbolId [] [] :=
  ⟨rfl, rfl, fun _ he => absurd he List.not_mem_nil⟩

theorem SameTrades.cons {s : OrderType} {id id' price qty : ℕ} {order head : Order}
    {l l' : List Execution} (h : SameTrades order.symbolId l l') :
    SameTrades order.symbolId (execute s id price qty order head :: l)
      (execute s id' price qty order head :: l') := by
  refine ⟨congrArg₂ List.cons rfl h.trades, congrArg (· + 1) h.length, fun e he => ?_⟩
  rcases List.mem_cons.1 he with rfl | he
  · rfl
  · exact h.symbol e he

/-- A loop with another trade id does the same. -/
theorem matchLoop_congr {s : OrderType} {guard : ℕ → Bool} :
    ∀ {fuel id : ℕ} (id' : ℕ) {best : ℕ}
    {book : OrderBook} {order : Order} {r : MatchResult},
    matchLoop s guard fuel id best book order = .ok r → ∃ r',
      matchLoop s guard fuel id' best book order = .ok r' ∧ r'.book = r.book ∧
        r'.remainder = r.remainder ∧ SameTrades order.symbolId r.executions r'.executions
  | 0, _, _, _, _, _, _, h => by simp [matchLoop] at h
  | fuel + 1, id, id', best, book, order, r, h => by
    rw [matchLoop] at h ⊢
    split_ifs at h ⊢ with hc
    · obtain ⟨head, hhead, h⟩ := bind_eq_ok.1 h
      simp only [hhead, ok_bind]
      split_ifs at h ⊢ with hlt
      · obtain ⟨⟨_, book'⟩, hmod, h⟩ := bind_eq_ok.1 h
        simp only [hmod, ok_bind]
        cases h
        exact ⟨_, rfl, rfl, rfl, (SameTrades.nil _).cons⟩
      · obtain ⟨⟨_, book₁⟩, hremove, h⟩ := bind_eq_ok.1 h
        obtain ⟨⟨best', book₂⟩, hbest, h⟩ := bind_eq_ok.1 h
        obtain ⟨r₁, hloop, h⟩ := bind_eq_ok.1 h
        obtain ⟨r', hloop', hbook, hrem, hsame⟩ := matchLoop_congr (nextTradeId id') hloop
        simp only [hremove, ok_bind, hbest, hloop']
        cases h
        exact ⟨_, rfl, hbook, hrem, SameTrades.cons hsame⟩
    · cases h
      exact ⟨_, rfl, rfl, rfl, .nil _⟩

/-- So does a call. -/
theorem processLimit_congr {t : OrderType} {id : ℕ} (id' : ℕ) {book book' : OrderBook}
    {order : Order} {executions : List Execution}
    (h : processLimit t id book order = .ok (book', executions)) : ∃ executions',
      processLimit t id' book order = .ok (book', executions') ∧
        SameTrades order.symbolId executions executions' := by
  rw [processLimit] at h ⊢
  split_ifs at h ⊢ with hempty
  · exact ⟨_, h, by
      obtain ⟨⟨_, book₁⟩, -, h⟩ := bind_eq_ok.1 h
      cases h
      exact .nil _⟩
  · obtain ⟨⟨best, book₁⟩, hbest, h⟩ := bind_eq_ok.1 h
    simp only [hbest, ok_bind]
    simp only at h
    split_ifs at h ⊢ with hcross
    · obtain ⟨⟨best', book₂⟩, hbest', h⟩ := bind_eq_ok.1 h
      obtain ⟨r, hloop, h⟩ := bind_eq_ok.1 h
      obtain ⟨r', hloop', hbook, hrem, hsame⟩ := matchLoop_congr id' hloop
      simp only [hbest', ok_bind, hloop', hbook, hrem]
      split at h
      next hnone =>
        cases h
        exact ⟨_, rfl, hsame⟩
      next rest hsome =>
        split_ifs at h ⊢ with hrest
        · obtain ⟨⟨_, book₃⟩, hadd, h⟩ := bind_eq_ok.1 h
          simp only [hadd, ok_bind]
          cases h
          exact ⟨_, rfl, hsame⟩
        · cases h
          exact ⟨_, rfl, hsame⟩
    · exact ⟨_, h, by
        obtain ⟨⟨_, book₂⟩, -, h⟩ := bind_eq_ok.1 h
        cases h
        exact .nil _⟩

theorem processMarket_congr {t : OrderType} {id : ℕ} (id' : ℕ) {book book' : OrderBook}
    {order : Order} {executions : List Execution}
    (h : processMarket t id book order = .ok (book', executions)) : ∃ executions',
      processMarket t id' book order = .ok (book', executions') ∧
        SameTrades order.symbolId executions executions' := by
  rw [processMarket] at h ⊢
  split_ifs at h ⊢ with hempty
  · cases h
    exact ⟨_, rfl, .nil _⟩
  · obtain ⟨⟨best, book₁⟩, hbest, h⟩ := bind_eq_ok.1 h
    obtain ⟨r, hloop, h⟩ := bind_eq_ok.1 h
    obtain ⟨r', hloop', hbook, -, hsame⟩ := matchLoop_congr id' hloop
    simp only [hbest, ok_bind, hloop', hbook]
    cases h
    exact ⟨_, rfl, hsame⟩

theorem processOrder_congr {id : ℕ} (id' : ℕ) {book book' : OrderBook} {order : Order}
    {executions : List Execution} (h : processOrder id book order = .ok (book', executions)) :
    ∃ executions', processOrder id' book order = .ok (book', executions') ∧
      SameTrades order.symbolId executions executions' := by
  rw [processOrder] at h ⊢
  split_ifs at h ⊢
  · split at h
    · exact processMarket_congr id' h
    · exact processMarket_congr id' h
  · split at h
    · exact processLimit_congr id' h
    · exact processLimit_congr id' h
  · cases h
    exact ⟨_, rfl, .nil _⟩

/-! ## Symbols, groups and books -/

namespace MatchingEngineDispatcher

theorem groupOf_eq (symbolId : ℕ) : groupOf symbolId = symbolId / maxSymbols % groupCount := by
  have hlt : symbolId / maxSymbols % groupCount < groupCount := Nat.mod_lt _ (by decide)
  rw [groupOf, Nat.shiftRight_eq_div_pow]
  exact if_neg (not_le.2 hlt)

theorem groupOf_lt (symbolId : ℕ) : groupOf symbolId < groupCount := by
  rw [groupOf_eq]
  exact Nat.mod_lt _ (by decide)

/-- A symbol is its group and its book. -/
theorem symbol_eq {s : ℕ} (hs : s < totalSymbols) :
    s = (groupOf s <<< symbolBits) + s % maxSymbols := by
  rw [groupOf_eq, Nat.shiftLeft_eq]
  simp only [totalSymbols, maxSymbols, groupCount, symbolBits] at hs ⊢
  omega

/-- What `initialize_engine` makes of the books of a group. -/
theorem addBooks_eq (mem : ℕ → Storage) (lowerLimits upperLimits : ℕ → ℕ)
    (overhead : ℕ) :
    ∃ m, addBooks mem lowerLimits upperLimits overhead = .ok m ∧ m.maxBooks = maxSymbols ∧
      ∀ i < maxSymbols, m.books i = some (.new (mem (overhead + i)) 10000
        (lowerLimits (overhead + i)) (upperLimits (overhead + i))) := by
  -- the first `n` books
  have hbooks : ∀ n ≤ maxSymbols, ∃ m, (List.range n).foldlM (fun m symbolId =>
      OrderBookManager.addBook m (mem (overhead + symbolId)) symbolId 10000
        (lowerLimits (overhead + symbolId)) (upperLimits (overhead + symbolId)))
      (.new (1 <<< symbolBits)) = .ok m ∧ m.maxBooks = maxSymbols ∧
      ∀ i < n, m.books i = some (.new (mem (overhead + i)) 10000
        (lowerLimits (overhead + i)) (upperLimits (overhead + i))) := by
    intro n
    induction n with
    | zero => exact fun _ => ⟨_, rfl, rfl, fun i hi => absurd hi (Nat.not_lt_zero i)⟩
    | succ n ih =>
      intro hn
      obtain ⟨m, hm, hmax, hm'⟩ := ih (Nat.le_of_succ_le hn)
      rw [List.range_succ, List.foldlM_append, hm, ok_bind]
      refine ⟨m.set n (.new (mem (overhead + n)) 10000 (lowerLimits (overhead + n))
        (upperLimits (overhead + n))), ?_, hmax, fun i hi => ?_⟩
      · rw [List.foldlM_cons, OrderBookManager.addBook, if_neg (by rw [hmax]; omega), ok_bind]
        rfl
      · rcases Nat.lt_succ_iff_lt_or_eq.1 hi with hlt | rfl
        · exact (Function.update_of_ne hlt.ne ..).trans (hm' i hlt)
        · exact Function.update_self ..
  exact hbooks maxSymbols le_rfl

/-! ## A group -/

section Runs

variable {nodes : ℕ → ℕ → OrderNode} {lowerLimits upperLimits : ℕ → ℕ}

/-- The engine of the book that `initialize_engine` makes for a symbol. -/
def soloEngine (nodes : ℕ → ℕ → OrderNode) (lowerLimits upperLimits : ℕ → ℕ)
    (s : ℕ) : EngineState :=
  .init (nodes s) 10000 (lowerLimits s) (upperLimits s)

/-- A group has done with the orders of the symbol what its engine does with them alone. -/
def Solo (nodes : ℕ → ℕ → OrderNode) (lowerLimits upperLimits : ℕ → ℕ)
    (books : ℕ → Option OrderBook) (published : List Execution) (taken : List Order) (s : ℕ) :
    Prop :=
  ∃ st, (soloEngine nodes lowerLimits upperLimits s).run (taken.filter (·.symbolId = s)) =
      .ok st ∧
    books (s % maxSymbols) = some st.book ∧
    tradesOf (published.filter (·.trade.symbolId = s)) = tradesOf st.published

/-- Group `i` has taken orders from its queue and holds others. -/
structure GroupInv (nodes : ℕ → ℕ → OrderNode) (lowerLimits upperLimits : ℕ → ℕ)
    (i : ℕ) (g : GroupProcessor) (taken queued : List Order) : Prop where
  queue : g.groupQueue.Holds queued
  maxBooks : g.bookmanager.maxBooks = maxSymbols
  queued : ∀ o ∈ queued, groupOf o.symbolId = i ∧ o.symbolId < totalSymbols
  published : ∀ e ∈ g.published, groupOf e.trade.symbolId = i
  solo : ∀ s < totalSymbols, groupOf s = i →
    Solo nodes lowerLimits upperLimits g.bookmanager.books g.published taken s

/-- A call for an order of the symbol. -/
theorem Solo.self {books : ℕ → Option OrderBook} {published : List Execution}
    {taken : List Order} {order : Order}
    (h : Solo nodes lowerLimits upperLimits books published taken order.symbolId)
    {book book' : OrderBook} (hbook : books (order.symbolId % maxSymbols) = some book) {id : ℕ}
    {executions : List Execution} (hcall : processOrder id book order = .ok (book', executions)) :
    Solo nodes lowerLimits upperLimits
      (Function.update books (order.symbolId % maxSymbols) (some book')) (published ++ executions)
      (taken ++ [order]) order.symbolId := by
  obtain ⟨st, hrun, hst, htrades⟩ := h
  rw [hbook, Option.some.injEq] at hst
  obtain ⟨executions', hcall', hsame⟩ := processOrder_congr st.tradeId hcall
  refine ⟨⟨book', add64 st.tradeId executions'.length, st.published ++ executions'⟩, ?_,
    Function.update_self .., ?_⟩
  · have hfilter : (taken ++ [order]).filter (·.symbolId = order.symbolId) =
        taken.filter (·.symbolId = order.symbolId) ++ [order] := by
      simp [List.filter_append]
    rw [hfilter, EngineState.run, List.foldlM_append]
    change (soloEngine nodes lowerLimits upperLimits order.symbolId).run _ >>= _ = _
    rw [hrun, ok_bind, List.foldlM_cons, EngineState.step, ← hst, hcall', ok_bind]
    rfl
  · have hfilter : executions.filter (·.trade.symbolId = order.symbolId) = executions :=
      List.filter_eq_self.2 fun e he => by simpa using hsame.symbol e he
    rw [List.filter_append, tradesOf_append, tradesOf_append, htrades, hfilter, hsame.trades]

/-- A call for an order of another symbol of the group. -/
theorem Solo.other {books : ℕ → Option OrderBook} {published : List Execution}
    {taken : List Order} {order : Order} {s : ℕ}
    (h : Solo nodes lowerLimits upperLimits books published taken s) (hs : s < totalSymbols)
    (ho : order.symbolId < totalSymbols) (hgroup : groupOf s = groupOf order.symbolId)
    (hne : s ≠ order.symbolId) {book' : OrderBook} {executions : List Execution}
    (hsymbol : ∀ e ∈ executions, e.trade.symbolId = order.symbolId) :
    Solo nodes lowerLimits upperLimits
      (Function.update books (order.symbolId % maxSymbols) (some book')) (published ++ executions)
      (taken ++ [order]) s := by
  obtain ⟨st, hrun, hst, htrades⟩ := h
  have hindex : s % maxSymbols ≠ order.symbolId % maxSymbols := fun heq =>
    hne (by rw [symbol_eq hs, symbol_eq ho, hgroup, heq])
  refine ⟨st, ?_, (Function.update_of_ne hindex ..).trans hst, ?_⟩
  · have hfilter : (taken ++ [order]).filter (·.symbolId = s) =
        taken.filter (·.symbolId = s) := by
      simp [List.filter_append, hne.symm]
    rw [hfilter, hrun]
  · have hfilter : executions.filter (·.trade.symbolId = s) = [] :=
      List.filter_eq_nil_iff.2 fun e he => by simpa [hsymbol e he] using hne.symm
    rw [List.filter_append, hfilter, List.append_nil, htrades]

/-- A pass of a group's thread. -/
theorem GroupInv.step {i : ℕ} {g g' : GroupProcessor} {taken queued : List Order}
    (h : GroupInv nodes lowerLimits upperLimits i g taken queued) (hstep : g.step = .ok g') :
    ∃ taken' queued', taken' ++ queued' = taken ++ queued ∧
      GroupInv nodes lowerLimits upperLimits i g' taken' queued' := by
  rw [GroupProcessor.step] at hstep
  obtain ⟨r, hpop, hstep⟩ := bind_eq_ok.1 hstep
  rcases h.queue.of_pop hpop with ⟨-, rfl⟩ | ⟨order, queued', queue, rfl, rfl, hqueue⟩
  · cases hstep
    exact ⟨taken, queued, rfl, h⟩
  · obtain ⟨hgroup, hsymbol⟩ := h.queued order List.mem_cons_self
    obtain ⟨book, hget, hstep⟩ := bind_eq_ok.1 hstep
    obtain ⟨⟨book', executions⟩, hcall, hstep⟩ := bind_eq_ok.1 hstep
    cases hstep
    have hbook : g.bookmanager.books (order.symbolId % maxSymbols) = some book := by
      rw [OrderBookManager.get] at hget
      split_ifs at hget
      split at hget
      · cases hget
      · rename_i heq
        cases hget
        exact heq
    obtain ⟨_, -, hsame⟩ := processOrder_congr 0 hcall
    refine ⟨taken ++ [order], queued', by simp, hqueue, h.maxBooks,
      fun o ho => h.queued o (List.mem_cons_of_mem _ ho), fun e he => ?_, fun s hs hgs => ?_⟩
    · rcases List.mem_append.1 he with he | he
      · exact h.published e he
      · rw [hsame.symbol e he, hgroup]
    · rcases eq_or_ne s order.symbolId with rfl | hne
      · exact (h.solo _ hs hgs).self hbook hcall
      · exact (h.solo s hs hgs).other hs hsymbol (hgs.trans hgroup.symm) hne hsame.symbol

/-! ## The dispatcher -/

/-- `done` has been dispatched, and each group has its orders of it. -/
structure Inv (nodes : ℕ → ℕ → OrderNode) (lowerLimits upperLimits : ℕ → ℕ)
    (orders : List Order) (d : MatchingEngineDispatcher) (done : List Order) : Prop where
  orders : done ++ d.orders = orders
  groups : ∀ i < groupCount, ∃ taken queued,
    taken ++ queued = done.filter (fun o => groupOf o.symbolId = i) ∧
      GroupInv nodes lowerLimits upperLimits i (d.groups i) taken queued

variable {orders : List Order} {d d' : MatchingEngineDispatcher} {done : List Order}

/-- If every group has its orders of `done`, in `taken` and `queued`, and the next order is queued
by its group, every group has its orders of `done` and the next. -/
theorem exists_split_concat {P Q : ℕ → List Order → List Order → Prop} {order : Order}
    (h : ∀ i < groupCount, ∃ taken queued,
      taken ++ queued = done.filter (fun o => groupOf o.symbolId = i) ∧ P i taken queued)
    (hown : ∀ taken queued, P (groupOf order.symbolId) taken queued →
      Q (groupOf order.symbolId) taken (queued ++ [order]))
    (hother : ∀ i ≠ groupOf order.symbolId, ∀ taken queued, P i taken queued →
      Q i taken queued) :
    ∀ i < groupCount, ∃ taken queued,
      taken ++ queued = (done ++ [order]).filter (fun o => groupOf o.symbolId = i) ∧
        Q i taken queued := by
  intro i hi
  obtain ⟨taken, queued, hsplit, hP⟩ := h i hi
  rcases eq_or_ne i (groupOf order.symbolId) with rfl | hne
  · refine ⟨taken, queued ++ [order], ?_, hown taken queued hP⟩
    rw [← List.append_assoc, hsplit]
    simp [List.filter_append]
  · refine ⟨taken, queued, ?_, hother i hne taken queued hP⟩
    rw [hsplit]
    simp [List.filter_append, hne.symm]

theorem Inv.dispatchOrder (h : Inv nodes lowerLimits upperLimits orders d done)
    (horders : ∀ o ∈ orders, o.symbolId < totalSymbols) (hstep : d.dispatchOrder = .ok d') :
    ∃ done', Inv nodes lowerLimits upperLimits orders d' done' := by
  rw [MatchingEngineDispatcher.dispatchOrder] at hstep
  split at hstep
  next => cases hstep; exact ⟨done, h⟩
  next order rest heq =>
    obtain ⟨⟨accepted, queue⟩, hpush, hstep⟩ := bind_eq_ok.1 hstep
    cases hstep
    obtain ⟨taken, queued, -, hg⟩ := h.groups _ (groupOf_lt order.symbolId)
    rcases hg.queue.of_push hpush with ⟨rfl, rfl, -⟩ | ⟨rfl, -⟩
    · -- the queue is full : `dispatch_order` tries again
      refine ⟨done, by rw [← h.orders, heq]; rfl, fun i hi => ?_⟩
      rw [Function.update_eq_self]
      exact h.groups i hi
    · have hmem : order ∈ orders := by
        rw [← h.orders, heq]
        simp
      refine ⟨done ++ [order], by rw [← h.orders, heq]; simp,
        exists_split_concat h.groups (fun taken queued hg => ?_) fun i hne taken queued hg => ?_⟩
      · simp only [Function.update_self]
        have hqueue := hg.queue.of_accepted hpush
        refine ⟨hqueue, hg.maxBooks, fun o ho => ?_, hg.published, hg.solo⟩
        rcases List.mem_append.1 ho with ho | ho
        · exact hg.queued o ho
        · rw [List.mem_singleton.1 ho]
          exact ⟨rfl, horders order hmem⟩
      · simp only [Function.update_of_ne hne]
        exact hg

theorem Inv.step (h : Inv nodes lowerLimits upperLimits orders d done)
    (horders : ∀ o ∈ orders, o.symbolId < totalSymbols) {t : Thread}
    (hstep : d.step t = .ok d') : ∃ done', Inv nodes lowerLimits upperLimits orders d' done' := by
  cases t with
  | dispatcher => exact h.dispatchOrder horders hstep
  | group i =>
    obtain ⟨g, hg, hstep⟩ := bind_eq_ok.1 hstep
    cases hstep
    refine ⟨done, h.orders, fun j hj => ?_⟩
    obtain ⟨taken, queued, hsplit, hinv⟩ := h.groups j hj
    rcases eq_or_ne j i with rfl | hne
    · obtain ⟨taken', queued', hsplit', hinv'⟩ := hinv.step hg
      simp only [Function.update_self]
      exact ⟨taken', queued', hsplit'.trans hsplit, hinv'⟩
    · simp only [Function.update_of_ne hne]
      exact ⟨taken, queued, hsplit, hinv⟩

/-- What `initialize_engine` leaves. -/
theorem newGroup_inv (nodes : ℕ → ℕ → OrderNode) (lowerLimits upperLimits : ℕ → ℕ)
    (buffer : ℕ → Order) (capacity i : ℕ) :
    ∃ g, newGroup buffer capacity (fun s => ⟨nodes s, fun _ => 0⟩) lowerLimits upperLimits i =
        .ok g ∧
      GroupInv nodes lowerLimits upperLimits i g [] [] := by
  obtain ⟨m, hm, hmax, hbooks⟩ :=
    addBooks_eq (fun s => ⟨nodes s, fun _ => 0⟩) lowerLimits upperLimits (i <<< symbolBits)
  refine ⟨⟨m, .new buffer capacity, 1, []⟩, by rw [newGroup, hm, ok_bind],
    RingBuffer.new_holds buffer capacity, hmax, by simp, by simp, fun s hs hgroup => ?_⟩
  have hbook := hbooks (s % maxSymbols) (Nat.mod_lt _ (by decide))
  rw [← hgroup, ← symbol_eq hs] at hbook
  exact ⟨soloEngine nodes lowerLimits upperLimits s, rfl, hbook, rfl⟩

theorem initializeEngine_inv (nodes : ℕ → ℕ → OrderNode)
    (lowerLimits upperLimits : ℕ → ℕ)
    (buffer : ℕ → Order) (capacity : ℕ) (orders : List Order) :
    ∃ d, initializeEngine buffer capacity (fun s => ⟨nodes s, fun _ => 0⟩)
        lowerLimits upperLimits orders = .ok d ∧
      Inv nodes lowerLimits upperLimits orders d [] := by
  obtain ⟨g₀, h₀, hinv₀⟩ := newGroup_inv nodes lowerLimits upperLimits buffer capacity 0
  obtain ⟨g₁, h₁, hinv₁⟩ := newGroup_inv nodes lowerLimits upperLimits buffer capacity 1
  refine ⟨_, by rw [initializeEngine, h₀, ok_bind, h₁, ok_bind], rfl, fun i hi => ⟨[], [],
    rfl, ?_⟩⟩
  rcases Nat.lt_or_ge i 1 with hlt | hge
  · rw [Nat.lt_one_iff.1 hlt]
    exact hinv₀
  · rw [show i = 1 from le_antisymm (Nat.le_of_lt_succ hi) hge]
    exact hinv₁

theorem Inv.run {schedule : List Thread} (h : Inv nodes lowerLimits upperLimits orders d done)
    (horders : ∀ o ∈ orders, o.symbolId < totalSymbols) (hrun : d.run schedule = .ok d') :
    ∃ done', Inv nodes lowerLimits upperLimits orders d' done' := by
  have hsteps : Runs.Steps (fun d t d' => MatchingEngineDispatcher.step d t = .ok d') schedule d
      d' :=
    Runs.steps_iff_ok.2 hrun
  exact hsteps.invariant (I := fun d => ∃ done, Inv nodes lowerLimits upperLimits orders d done)
    (P := fun _ _ => True) (fun ⟨_, hinv⟩ _ hstep => hinv.step horders hstep) ⟨done, h⟩
    (.of_forall_mem fun _ _ _ => trivial)

/-- When the queues are empty, every group has taken all its orders. -/
theorem Inv.complete (h : Inv nodes lowerLimits upperLimits orders d done) (hc : d.Complete)
    {i : ℕ} (hi : i < groupCount) : GroupInv nodes lowerLimits upperLimits i (d.groups i)
      (orders.filter fun o => groupOf o.symbolId = i) [] := by
  obtain ⟨taken, queued, hsplit, hg⟩ := h.groups i hi
  have hdone : done = orders := by rw [← h.orders, hc.1, List.append_nil]
  rcases hg.queue.of_pop (hc.2 i hi) with ⟨rfl, -⟩ | ⟨_, _, _, -, hr, -⟩
  · rw [List.append_nil, hdone] at hsplit
    exact hsplit ▸ hg
  · cases hr

/-- The trades of a symbol are published by its group. -/
theorem filter_published {s : ℕ} (h : ∀ i < groupCount, ∀ e ∈ (d.groups i).published,
    groupOf e.trade.symbolId = i) : d.published.filter (·.trade.symbolId = s) =
      (d.groups (groupOf s)).published.filter (·.trade.symbolId = s) := by
  have hother : ∀ i < groupCount, i ≠ groupOf s →
      (d.groups i).published.filter (·.trade.symbolId = s) = [] := fun i hi hne => by
    refine List.filter_eq_nil_iff.2 fun e he => ?_
    have hgroup := h i hi e he
    simp only [decide_eq_true_eq]
    rintro rfl
    exact hne hgroup.symm
  have hlist : d.published = (d.groups 0).published ++ (d.groups 1).published := by
    simp [published, groupCount, List.range_succ]
  have hlt := groupOf_lt s
  rw [hlist, List.filter_append]
  rcases Nat.lt_or_ge (groupOf s) 1 with hzero | hone
  · rw [Nat.lt_one_iff.1 hzero, hother 1 (by decide) (by omega), List.append_nil]
  · have hone : groupOf s = 1 := le_antisymm (Nat.le_of_lt_succ hlt) hone
    rw [hone, hother 0 (by decide) (by omega), List.nil_append]

end Runs

/-- Whatever the bands, the orders and the order in which the threads take turns : when all
orders have been processed, the trades of a symbol are those that its orders alone make on
the book that `initialize_engine` has made for it. -/
theorem trades_eq_solo (nodes : ℕ → ℕ → OrderNode) (lowerLimits upperLimits : ℕ → ℕ)
    (buffer : ℕ → Order) (capacity : ℕ) (orders : List Order)
    (horders : ∀ o ∈ orders, o.symbolId < totalSymbols) :
    ∃ d₀, initializeEngine buffer capacity (fun s => ⟨nodes s, fun _ => 0⟩)
        lowerLimits upperLimits orders = .ok d₀ ∧
      ∀ schedule d, d₀.run schedule = .ok d → d.Complete → ∀ s < totalSymbols, ∃ st,
        (soloEngine nodes lowerLimits upperLimits s).run (orders.filter (·.symbolId = s)) =
        .ok st ∧
          tradesOf (d.published.filter (·.trade.symbolId = s)) = tradesOf st.published := by
  obtain ⟨d₀, hinit, hinv⟩ :=
    initializeEngine_inv nodes lowerLimits upperLimits buffer capacity orders
  refine ⟨d₀, hinit, fun schedule d hrun hcomplete s hs => ?_⟩
  obtain ⟨done, hinv'⟩ := hinv.run horders hrun
  have hgroups := fun i (hi : i < groupCount) => hinv'.complete hcomplete hi
  obtain ⟨st, hst, -, htrades⟩ := (hgroups _ (groupOf_lt s)).solo s hs rfl
  have hfilter : (orders.filter fun o => groupOf o.symbolId = groupOf s).filter (·.symbolId = s) =
      orders.filter (·.symbolId = s) := by
    rw [List.filter_filter]
    refine List.filter_congr fun o _ => ?_
    rcases eq_or_ne o.symbolId s with heq | hne
    · simp [heq]
    · simp [hne]
  rw [hfilter] at hst
  refine ⟨st, hst, ?_⟩
  rw [filter_published fun i hi => (hgroups i hi).published, htrades]

/-- Storage that is all zero. -/
def zeroOrder : Order :=
  ⟨0, .market, 0, 0, 0, .buy, 0, 0, 0⟩

/-- Four orders, of two symbols that share a book index. -/
def twoSymbols : List Order :=
  [⟨1, .limit, 100, 0, 0, .sell, 1, 5, 1⟩, ⟨2, .limit, 100, 0, 0, .sell, 1025, 5, 2⟩,
    ⟨3, .limit, 100, 0, 0, .buy, 1025, 5, 3⟩, ⟨4, .limit, 100, 0, 0, .buy, 1, 5, 4⟩]

/-- The dispatcher and the threads of both groups take turns. -/
def twoSymbolsSchedule : List Thread :=
  let group₀ : Thread := .group ⟨0, by decide⟩
  let group₁ : Thread := .group ⟨1, by decide⟩
  [.dispatcher, .dispatcher, group₁, .dispatcher, group₀, .dispatcher, group₀, group₁]

/-- Each symbol makes one trade. -/
theorem trades_eq_solo_twoSymbols : ∃ d₀ d,
    initializeEngine (fun _ => zeroOrder) 4
      (fun _ => ⟨fun _ => ⟨zeroOrder, 0, 0⟩, fun _ => 0⟩)
      (fun _ => 95) (fun _ => 105) twoSymbols = .ok d₀ ∧
    d₀.run twoSymbolsSchedule = .ok d ∧ d.Complete ∧ d.published.length = 2 ∧
    ∀ s < totalSymbols, ∃ st,
      (soloEngine (fun _ _ => ⟨zeroOrder, 0, 0⟩) (fun _ => 95) (fun _ => 105) s).run
        (twoSymbols.filter (·.symbolId = s)) = .ok st ∧
      tradesOf (d.published.filter (·.trade.symbolId = s)) = tradesOf st.published := by
  obtain ⟨d₀, hinit, h⟩ :=
    trades_eq_solo (fun _ _ => ⟨zeroOrder, 0, 0⟩) (fun _ => 95) (fun _ => 105)
    (fun _ => zeroOrder) 4 twoSymbols (by decide)
  have hview : (do
      let d₀ ← initializeEngine (fun _ => zeroOrder) 4
        (fun _ => ⟨fun _ => ⟨zeroOrder, 0, 0⟩, fun _ => 0⟩)
        (fun _ => 95) (fun _ => 105) twoSymbols
      let d ← d₀.run twoSymbolsSchedule
      .ok (d.orders, d.published.length, (d.groups 0).groupQueue.pop.map Option.isNone,
        (d.groups 1).groupQueue.pop.map Option.isNone)) =
      (.ok ([], 2, .ok true, .ok true) : Except Fault _) := by decide +kernel
  rw [hinit, ok_bind] at hview
  obtain ⟨d, hrun, hd⟩ := bind_eq_ok.1 hview
  obtain ⟨horders, hlength, hpop₀, hpop₁⟩ := by simpa using hd
  have hnone : ∀ {g : GroupProcessor}, g.groupQueue.pop.map Option.isNone = .ok true →
      g.groupQueue.pop = .ok none := fun hpop => by
    obtain ⟨r, hr, hisNone⟩ := map_eq_ok.1 hpop
    rw [hr, Option.isNone_iff_eq_none.1 hisNone]
  have hcomplete : d.Complete := by
    refine ⟨horders, fun i hi => ?_⟩
    rcases Nat.lt_or_ge i 1 with hlt | hge
    · rw [Nat.lt_one_iff.1 hlt]
      exact hnone hpop₀
    · rw [show i = 1 from le_antisymm (Nat.le_of_lt_succ hi) hge]
      exact hnone hpop₁
  exact ⟨d₀, d, hinit, hrun, hcomplete, hlength, h _ d hrun hcomplete⟩

end MatchingEngineDispatcher

end TradeX
