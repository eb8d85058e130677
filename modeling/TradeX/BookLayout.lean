import TradeX.Arena

/-!
# What each book operation does to the queues

`OrderBook.queue b i` is the queue of level `i` read off the pointers of the book, and
`b.WF` says that the pointers, the free list and the order map are in order. Each
operation on a well-formed book has one lemma here : it keeps the book well formed, and
its effect is an equation on `queue`, on the flags and on one `BookSide`. The layers
above never look at a pointer again.
-/

namespace TradeX

/-- The flag of a level is no pointer. -/
theorem PriceQueues.setHeapEntry_same (levels : ℕ → PriceQueues) (i : ℕ) (q : PriceQueues)
    (val : Bool) (j : ℕ) :
    (Function.update levels i (q.setHeapEntry val) j).head = (Function.update levels i q j).head ∧
      (Function.update levels i (q.setHeapEntry val) j).tail =
      (Function.update levels i q j).tail ∧
      (Function.update levels i (q.setHeapEntry val) j).count =
        (Function.update levels i q j).count := by
  rcases eq_or_ne j i with rfl | hj
  · simp [setHeapEntry]
  · simp [hj]

namespace OrderBook

/-- The orders queued at level `i`, first to last. -/
def queue (b : OrderBook) (i : ℕ) : List Order :=
  b.pool.walk (b.priceLevels i).count (b.priceLevels i).head

/-- The flag of level `i`. -/
def flag (b : OrderBook) (i : ℕ) : Bool :=
  (b.priceLevels i).heapEntry

/-- The pointers run through the lists `level` and `free`, the map sends exactly the ids
of the queued orders to their nodes, and every order is at the level of its price. -/
structure Linked (b : OrderBook) (level : ℕ → List ℕ) (free : List ℕ) : Prop extends
    Arena b.pool b.priceLevels level free where
  index : ∀ id k, b.orderMap id = some k ↔
    (∃ i, k ∈ level i) ∧ (b.pool.nodes k).order.orderId = id
  at_level : ∀ {i k}, k ∈ level i →
    i < b.numPriceLevels ∧ b.priceToIndex (b.pool.nodes k).order.price = i

/-- A well-formed book. -/
def WF (b : OrderBook) : Prop :=
  ∃ level free, b.Linked level free

/-- What no operation changes. -/
structure SameFrame (b b' : OrderBook) : Prop where
  lower : b'.lowerLimit = b.lowerLimit
  upper : b'.upperLimit = b.upperLimit
  levels : b'.numPriceLevels = b.numPriceLevels
  capacity : b'.pool.capacity = b.pool.capacity
  sentinel : ∀ s, (b'.side s).defaultBestPrice = (b.side s).defaultBestPrice

theorem SameFrame.refl (b : OrderBook) : SameFrame b b :=
  ⟨rfl, rfl, rfl, rfl, fun _ => rfl⟩

theorem SameFrame.trans {b b' b'' : OrderBook} (h : SameFrame b b') (h' : SameFrame b' b'') :
    SameFrame b b'' :=
  ⟨h'.lower.trans h.lower, h'.upper.trans h.upper, h'.levels.trans h.levels,
    h'.capacity.trans h.capacity, fun s => (h'.sentinel s).trans (h.sentinel s)⟩

theorem SameFrame.priceToIndex {b b' : OrderBook} (h : SameFrame b b') (p : ℕ) :
    b'.priceToIndex p = b.priceToIndex p := by
  unfold OrderBook.priceToIndex
  rw [h.lower]

theorem SameFrame.hasLevel_iff {b b' : OrderBook} (h : SameFrame b b') (i : ℤ) :
    b'.hasLevel i ↔ b.hasLevel i := by
  rw [hasLevel, hasLevel, h.levels]

theorem SameFrame.levelOf {b b' : OrderBook} (h : SameFrame b b') (p : ℕ) :
    b'.levelOf p = b.levelOf p := by
  unfold OrderBook.levelOf
  rw [h.priceToIndex]
  exact if_congr (h.hasLevel_iff _) rfl rfl

theorem sameFrame_setSide (b : OrderBook) (s : OrderType) (t : BookSide)
    (h : t.defaultBestPrice = (b.side s).defaultBestPrice) : SameFrame b (b.setSide s t) := by
  refine ⟨rfl, rfl, rfl, rfl, fun r => ?_⟩
  by_cases hr : r = s
  · subst hr
    simpa [setSide] using h
  · simp [setSide, hr]

/-- A price that has a level has an index. -/
theorem exists_index {b : OrderBook} {p : ℕ} (h : b.hasLevel (b.priceToIndex p)) :
    ∃ i : ℕ, b.priceToIndex p = i ∧ i < b.numPriceLevels := by
  obtain ⟨i, hp⟩ := Int.eq_ofNat_of_zero_le h.1
  have hlt := h.2
  rw [hp] at hlt
  exact ⟨i, hp, Int.ofNat_lt.1 hlt⟩

theorem hasLevel_of_index {b : OrderBook} {p i : ℕ} (hp : b.priceToIndex p = i)
    (hi : i < b.numPriceLevels) : b.hasLevel (b.priceToIndex p) := by
  rw [hp]
  exact ⟨by omega, by omega⟩

theorem levelOf_ok {b : OrderBook} {p i : ℕ} (hp : b.priceToIndex p = i)
    (hi : i < b.numPriceLevels) : b.levelOf p = .ok i := by
  simp [levelOf, hasLevel, hp, hi]

namespace Linked

variable {b : OrderBook} {level : ℕ → List ℕ} {free : List ℕ}

theorem queue_eq (h : b.Linked level free) (i : ℕ) :
    b.queue i = (level i).map fun k => (b.pool.nodes k).order :=
  h.walk_eq i

theorem queue_eq_nil_iff (h : b.Linked level free) (i : ℕ) : b.queue i = [] ↔ level i = [] := by
  rw [h.queue_eq i, List.map_eq_nil_iff]

/-- The node at the head of a level with orders. -/
theorem exists_head (h : b.Linked level free) {i : ℕ} {o : Order} {l : List Order}
    (hq : b.queue i = o :: l) : ∃ k ks, level i = k :: ks ∧ (b.pool.nodes k).order = o ∧
      (ks.map fun k => (b.pool.nodes k).order) = l := by
  rw [h.queue_eq i] at hq
  obtain ⟨k, ks, hl, ho, hks⟩ := List.map_eq_cons_iff.1 hq
  exact ⟨k, ks, hl, ho, hks⟩

/-- Changing only sides and flags changes no pointer. -/
theorem of_same (h : b.Linked level free) {b' : OrderBook} (hpool : b'.pool = b.pool)
    (hmap : b'.orderMap = b.orderMap) (hf : SameFrame b b')
    (hh : ∀ i, (b'.priceLevels i).head = (b.priceLevels i).head)
    (ht : ∀ i, (b'.priceLevels i).tail = (b.priceLevels i).tail)
    (hc : ∀ i, (b'.priceLevels i).count = (b.priceLevels i).count) : b'.Linked level free where
  toArena := hpool ▸ h.toArena.of_same_queues hh ht hc
  index id k := by
    rw [hpool, hmap]
    exact h.index id k
  at_level hk := by
    rw [hpool, hf.levels, hf.priceToIndex]
    exact h.at_level hk

end Linked

variable {b : OrderBook}

theorem WF.isEmpty_iff (h : b.WF) (i : ℕ) :
    (b.priceLevels i).isEmpty = true ↔ b.queue i = [] := by
  obtain ⟨level, free, h⟩ := h
  rw [h.queue_eq_nil_iff, h.toArena.isEmpty_iff]

/-- Changing only sides and flags keeps the book and its queues. -/
theorem WF.of_same (h : b.WF) {b' : OrderBook} (hf : SameFrame b b') (hpool : b'.pool = b.pool)
    (hmap : b'.orderMap = b.orderMap) (hh : ∀ i, (b'.priceLevels i).head = (b.priceLevels i).head)
    (ht : ∀ i, (b'.priceLevels i).tail = (b.priceLevels i).tail)
    (hc : ∀ i, (b'.priceLevels i).count = (b.priceLevels i).count) :
    b'.WF ∧ ∀ i, b'.queue i = b.queue i := by
  obtain ⟨level, free, h⟩ := h
  refine ⟨⟨level, free, h.of_same hpool hmap hf hh ht hc⟩, fun i => ?_⟩
  simp only [queue, hpool, hh i, hc i]

theorem WF.used_le (h : b.WF) : b.pool.used ≤ b.pool.capacity := by
  obtain ⟨level, free, h⟩ := h
  have := h.used
  omega

/-! ## The head of a level -/

section Head

variable {p i : ℕ} {o : Order} {l : List Order}

theorem WF.gethead_ok (h : b.WF) (hq : b.queue i = o :: l) :
    (b.priceLevels i).gethead b.pool = .ok o := by
  obtain ⟨level, free, h⟩ := h
  obtain ⟨k, ks, hl, rfl, -⟩ := h.exists_head hq
  exact h.toArena.gethead_ok hl

theorem WF.headAt_ok (h : b.WF) (hp : b.priceToIndex p = i) (hi : i < b.numPriceLevels)
    (hq : b.queue i = o :: l) : b.headAt p = .ok o := by
  rw [headAt, levelOf_ok hp hi]
  exact h.gethead_ok hq

/-- The quantity of the order in node `k` is set. -/
def setQuantity (b : OrderBook) (k q : ℕ) : OrderBook :=
  { b with pool := b.pool.write k fun n => { n with order := { n.order with quantity := q } } }

theorem order_setQuantity (b : OrderBook) (k q y : ℕ) : ((b.setQuantity k q).pool.nodes y).order =
    if y = k then { (b.pool.nodes k).order with quantity := q } else (b.pool.nodes y).order := by
  by_cases hy : y = k <;> simp [setQuantity, MemPool.nodes_write, hy]

theorem sameFrame_setQuantity (b : OrderBook) (k q : ℕ) : SameFrame b (b.setQuantity k q) :=
  ⟨rfl, rfl, rfl, rfl, fun _ => rfl⟩

theorem Linked.setQuantity {level : ℕ → List ℕ} {free : List ℕ} (h : b.Linked level free)
    (k q : ℕ) : (b.setQuantity k q).Linked level free := by
  have hid : ∀ y, ((b.setQuantity k q).pool.nodes y).order.orderId =
      (b.pool.nodes y).order.orderId := by
    intro y
    by_cases hy : y = k <;> simp [order_setQuantity, hy]
  have hprice : ∀ y, ((b.setQuantity k q).pool.nodes y).order.price =
      (b.pool.nodes y).order.price := by
    intro y
    by_cases hy : y = k <;> simp [order_setQuantity, hy]
  refine ⟨h.toArena.of_same_links (fun y => ?_) (fun y => ?_) rfl rfl rfl, fun id y => ?_,
    fun {j y} hy => ?_⟩
  · by_cases hy : y = k <;> simp [OrderBook.setQuantity, MemPool.nodes_write, hy]
  · by_cases hy : y = k <;> simp [OrderBook.setQuantity, MemPool.nodes_write, hy]
  · rw [hid]
    exact h.index id y
  · rw [hprice, (b.sameFrame_setQuantity k q).priceToIndex]
    exact h.at_level hy

/-- The queues after `setQuantity` of the head of a level. -/
theorem Linked.queue_setQuantity {level : ℕ → List ℕ} {free ks : List ℕ} {k : ℕ}
    (h : b.Linked level free) (hl : level i = k :: ks) (q j : ℕ) :
    (b.setQuantity k q).queue j = if j = i then
      { (b.pool.nodes k).order with quantity := q } :: ks.map fun y => (b.pool.nodes y).order
    else b.queue j := by
  have hk : k ∈ level i := by simp [hl]
  rw [(h.setQuantity k q).queue_eq, h.queue_eq]
  rcases eq_or_ne j i with rfl | hj
  · have hnk : k ∉ ks := (List.nodup_cons.1 (hl ▸ h.level_nodup j)).1
    rw [if_pos rfl, hl, List.map_cons, order_setQuantity, if_pos rfl]
    refine congrArg (List.cons _) (List.map_congr_left fun y hy => ?_)
    have hyk : y ≠ k := fun e => hnk (e ▸ hy)
    rw [order_setQuantity, if_neg hyk]
  · rw [if_neg hj]
    refine List.map_congr_left fun y hy => ?_
    have hyk : y ≠ k := fun e => hj (h.level_unique (e ▸ hy) hk)
    rw [order_setQuantity, if_neg hyk]

/-- `modifyQuantity` sets the quantity of the first order of the level. -/
theorem WF.modifyQuantity_spec (h : b.WF) (hp : b.priceToIndex p = i) (hi : i < b.numPriceLevels)
    (hq : b.queue i = o :: l) (q : ℕ) :
    ∃ b', b.modifyQuantity p q = .ok (true, b') ∧ b'.WF ∧ SameFrame b b' ∧
      (∀ j, b'.queue j = if j = i then { o with quantity := q } :: l else b.queue j) ∧
      b'.priceLevels = b.priceLevels ∧ b'.side = b.side ∧ b'.pool.used = b.pool.used := by
  obtain ⟨level, free, h⟩ := h
  obtain ⟨k, ks, hl, rfl, rfl⟩ := h.exists_head hq
  have hhead : (b.priceLevels i).head = k := by
    have hs := h.level_segment i
    rw [hl] at hs
    exact hs.1
  have hne : (b.priceLevels i).isEmpty = false := by
    rw [← Bool.not_eq_true, h.toArena.isEmpty_iff, hl]
    simp
  have hcap : k < b.pool.capacity := h.toArena.lt_of_mem (i := i) (by simp [hl])
  refine ⟨b.setQuantity k q, ?_, ⟨level, free, h.setQuantity k q⟩,
    b.sameFrame_setQuantity k q, h.queue_setQuantity hl q, rfl, rfl, rfl⟩
  simp [modifyQuantity, hasLevel, hp, hi, hne, hhead, MemPool.modifyNode_ok hcap, bind, Except.bind,
    setQuantity]

end Head

/-! ## Removal -/

section Removal

variable {level : ℕ → List ℕ} {free pre post : List ℕ} {i k : ℕ}

/-- A queued node leaves its level and its order's id the map. -/
theorem Linked.unlink (h : b.Linked level free) (hl : level i = pre ++ k :: post) :
    ∃ q pool, (b.priceLevels i).removeOrder b.pool k = .ok (true, q, pool) ∧
      q.heapEntry = (b.priceLevels i).heapEntry ∧ pool.used + 1 = b.pool.used ∧
      pool.capacity = b.pool.capacity ∧
      ({ b.setLevel i q with
        pool := pool
        orderMap := Function.update b.orderMap (b.pool.nodes k).order.orderId none } :
        OrderBook).Linked (Function.update level i (pre ++ post)) (k :: free) ∧
      ∀ y, (pool.nodes y).order = (b.pool.nodes y).order := by
  obtain ⟨q, pool, hrm, hflag, harena, hord, hcap, hused⟩ := h.toArena.removeOrder_spec hl
  have hk : k ∈ level i := by simp [hl]
  have hmem : ∀ {j y}, y ∈ Function.update level i (pre ++ post) j ↔ y ∈ level j ∧
      y ≠ k := by
    intro j y
    have hnd := h.level_nodup i
    rw [Cells.mem_update]
    by_cases hj : j = i
    · subst hj
      rw [hl] at hnd ⊢
      grind
    · have : y ∈ level j → y ≠ k := fun hy e => hj (h.level_unique (e ▸ hy) hk)
      simpa [hj] using this
  refine ⟨q, pool, hrm, hflag, hused, hcap, ⟨harena, fun id y => ?_, fun {j y} hy => ?_⟩,
    hord⟩
  · simp only [hord, hmem]
    by_cases hid : id = (b.pool.nodes k).order.orderId
    · subst hid
      simp only [Function.update_self, reduceCtorEq, false_iff]
      rintro ⟨⟨j, hy, hyk⟩, he⟩
      have hky := (h.index _ k).2 ⟨⟨i, hk⟩, rfl⟩
      have hyy := (h.index _ y).2 ⟨⟨j, hy⟩, he⟩
      exact hyk (Option.some.inj (hyy.symm.trans hky))
    · rw [Function.update_of_ne hid, h.index id y]
      constructor
      · rintro ⟨⟨j, hy⟩, rfl⟩
        exact ⟨⟨j, hy, fun e => hid (e ▸ rfl)⟩, rfl⟩
      · rintro ⟨⟨j, hy, -⟩, he⟩
        exact ⟨⟨j, hy⟩, he⟩
  · have hold := h.at_level (hmem.1 hy).1
    refine ⟨hold.1, ?_⟩
    rw [hord, ← hold.2]
    unfold priceToIndex
    rfl

/-- The queues after `unlink`. -/
theorem Linked.queue_unlink (h : b.Linked level free) {b' : OrderBook}
    (h' : b'.Linked (Function.update level i (pre ++ post)) (k :: free))
    (hord : ∀ y, (b'.pool.nodes y).order = (b.pool.nodes y).order) (j : ℕ) :
    b'.queue j =
      if j = i then (pre ++ post).map fun k => (b.pool.nodes k).order else b.queue j := by
  rw [h'.queue_eq, h.queue_eq]
  simp only [hord]
  by_cases hj : j = i
  · subst hj
    simp
  · simp [hj]

/-- `removeBuyOrder` and `removeSellOrder` drop the first order of the level and take its
quantity off the total. -/
theorem WF.removeOrder_spec (h : b.WF) (s : OrderType) {p : ℕ} {o : Order} {l : List Order}
    (hp : b.priceToIndex p = i) (hi : i < b.numPriceLevels) (hq : b.queue i = o :: l) :
    ∃ b', b.removeOrder s p = .ok (true, b') ∧ b'.WF ∧ SameFrame b b' ∧
      (∀ j, b'.queue j = if j = i then l else b.queue j) ∧ (∀ j, b'.flag j = b.flag j) ∧
      b'.side = Function.update b.side s
        { b.side s with totalQty := sub64 (b.side s).totalQty o.quantity } ∧
      b'.pool.used + 1 = b.pool.used := by
  have hhead := h.gethead_ok hq
  have hne : (b.priceLevels i).isEmpty = false := by
    rw [← Bool.not_eq_true, h.isEmpty_iff, hq]
    simp
  obtain ⟨level, free, h⟩ := h
  obtain ⟨k, ks, hl, ho, hks⟩ := h.exists_head hq
  have hl' : level i = [] ++ k :: ks := hl
  obtain ⟨q, pool, hrm, hflag, hused, hcap, hlink, hord⟩ := h.unlink hl'
  have hmap : b.orderMap o.orderId = some k :=
    (h.index _ _).2 ⟨⟨i, by simp [hl]⟩, by rw [ho]⟩
  rw [ho] at hlink
  set b₁ : OrderBook := { b.setLevel i q with
    pool := pool, orderMap := Function.update b.orderMap o.orderId none } with hb₁
  set b₂ : OrderBook := b₁.setSide s
    { b.side s with totalQty := sub64 (b.side s).totalQty o.quantity } with hb₂
  have hframe : SameFrame b b₁ := ⟨rfl, rfl, rfl, hcap, fun _ => rfl⟩
  have hframe₂ : SameFrame b₁ b₂ := sameFrame_setSide b₁ s _ rfl
  obtain ⟨hwf, hqueue⟩ := WF.of_same ⟨_, _, hlink⟩ hframe₂ rfl rfl (fun _ => rfl)
    (fun _ => rfl) fun _ => rfl
  refine ⟨b₂, ?_, hwf, hframe.trans hframe₂, fun j => ?_, fun j => ?_, rfl, hused⟩
  · rw [removeOrder, levelOf_ok hp hi]
    simp only [bind, Except.bind, hne, Bool.false_eq_true, if_false, hhead, hmap, hrm, if_true]
    rfl
  · rw [hqueue, h.queue_unlink hlink hord]
    simp only [List.nil_append, hks]
  · by_cases hj : j = i
    · subst hj
      simp [flag, hb₂, hb₁, setSide, setLevel, hflag]
    · simp [flag, hb₂, hb₁, setSide, setLevel, hj]

/-- An id that no queued order has is unknown. -/
theorem WF.cancelOrder_unknown (h : b.WF) {id : ℕ}
    (hid : ∀ i, ∀ o ∈ b.queue i, o.orderId ≠ id) : b.cancelOrder id = .ok (false, b) := by
  obtain ⟨level, free, h⟩ := h
  have hnone : b.orderMap id = none := by
    refine Option.eq_none_iff_forall_ne_some.2 fun k hk => ?_
    obtain ⟨⟨i, hi⟩, ho⟩ := (h.index id k).1 hk
    refine hid i (b.pool.nodes k).order ?_ ho
    rw [h.queue_eq]
    exact List.mem_map.2 ⟨k, hi, rfl⟩
  rw [cancelOrder, hnone]

/-- `cancelOrder` takes a queued order out of its level, and changes nothing else that can be
seen : the level keeps its flag, the heaps their prices and the sides their totals. -/
theorem WF.cancelOrder_spec (h : b.WF) {o : Order} {before after : List Order}
    (hq : b.queue i = before ++ o :: after) :
    ∃ b', b.cancelOrder o.orderId = .ok (true, b') ∧ b'.WF ∧ SameFrame b b' ∧
      (∀ j, b'.queue j = if j = i then before ++ after else b.queue j) ∧
      (∀ j, b'.flag j = b.flag j) ∧ b'.side = b.side ∧ b'.pool.used + 1 = b.pool.used := by
  obtain ⟨level, free, h⟩ := h
  obtain ⟨pre, rest, hl, hpre, hrest⟩ := List.map_eq_append_iff.1 ((h.queue_eq i).symm.trans hq)
  obtain ⟨k, post, rfl, ho, hpost⟩ := List.map_eq_cons_iff.1 hrest
  have hk : k ∈ level i := by simp [hl]
  obtain ⟨q, pool, hrm, hflag, hused, hcap, hlink, hord⟩ := h.unlink hl
  have hmap : b.orderMap o.orderId = some k := (h.index _ _).2 ⟨⟨i, hk⟩, by rw [ho]⟩
  have hlevel : b.levelOf (b.pool.nodes k).order.price = .ok i :=
    levelOf_ok (h.at_level hk).2 (h.at_level hk).1
  have hnode := MemPool.getNode_ok (h.toArena.lt_of_mem hk)
  rw [ho] at hlink
  set b' : OrderBook := { b.setLevel i q with
    pool := pool, orderMap := Function.update b.orderMap o.orderId none } with hb'
  have hcancel : b.cancelOrder o.orderId = .ok (true, b') := by
    rw [cancelOrder, hmap]
    exact bind_eq_ok.2 ⟨_, hnode, bind_eq_ok.2 ⟨_, hlevel, bind_eq_ok.2 ⟨_, hrm, rfl⟩⟩⟩
  refine ⟨b', hcancel, ⟨_, _, hlink⟩, ⟨rfl, rfl, rfl, hcap, fun _ => rfl⟩, fun j => ?_,
    fun j => ?_, rfl, hused⟩
  · rw [h.queue_unlink hlink hord, List.map_append, hpre, hpost]
  · rcases eq_or_ne j i with rfl | hj
    · simp [flag, hb', setLevel, hflag]
    · simp [flag, hb', setLevel, hj]

end Removal

/-! ## Addition -/

section Addition

variable {s : OrderType} {o : Order} {i : ℕ}

/-- An order whose price has no level is refused. -/
theorem addOrder_no_level (h : ¬b.hasLevel (b.priceToIndex o.price)) :
    b.addOrder s o = .ok (false, b) := by
  simp [addOrder, h]

/-- A pool with every node in use has an empty free list. -/
theorem WF.freeHead_eq_nullIdx (h : b.WF) (hfull : b.pool.used = b.pool.capacity) :
    b.pool.freeHead = nullIdx := by
  obtain ⟨level, free, h⟩ := h
  refine h.toArena.freeHead_eq_null_iff.2 (List.length_eq_zero_iff.1 ?_)
  have := h.used
  omega

/-- With no free node the order is refused. -/
theorem WF.addOrder_full (h : b.WF) (hfull : b.pool.used = b.pool.capacity)
    (hp : b.priceToIndex o.price = i) (hi : i < b.numPriceLevels) :
    b.addOrder s o = .ok (false, b) := by
  obtain ⟨level, free, h⟩ := h
  obtain rfl : free = [] := by
    have := h.used
    exact List.length_eq_zero_iff.1 (by omega)
  have hlev := hasLevel_of_index hp hi
  rw [addOrder, if_neg (not_not.2 hlev)]
  simp only [hp, Int.toNat_natCast, h.toArena.insertOrder_full i o, bind, Except.bind, if_true,
    setLevel, Function.update_eq_self]

/-- Only an order whose price has a level, while a node is free, is accepted. -/
theorem WF.addOrder_refused (h : b.WF) (s : OrderType)
    (hno : ¬∃ i : ℕ, b.priceToIndex o.price = i ∧
      i < b.numPriceLevels ∧ b.pool.used < b.pool.capacity) :
        b.addOrder s o = .ok (false, b) := by
  by_cases hlevel : b.hasLevel (b.priceToIndex o.price)
  · obtain ⟨i, hp, hi⟩ := exists_index hlevel
    have hfull : b.pool.capacity ≤ b.pool.used :=
      Nat.not_lt.1 fun hroom => hno ⟨i, hp, hi, hroom⟩
    exact h.addOrder_full (le_antisymm h.used_le hfull) hp hi
  · exact addOrder_no_level hlevel

/-- The book with the order `o` in node `k` at the end of level `i`, whose flag is set. -/
def linkNode (b : OrderBook) (i : ℕ) (q : PriceQueues) (pool : MemPool) (o : Order) (k : ℕ) :
    OrderBook :=
  { b.setLevel i (q.setHeapEntry true) with
    pool := pool
    orderMap := Function.update b.orderMap o.orderId (some k) }

section Link

variable {level : ℕ → List ℕ} {free : List ℕ} {k : ℕ} {q : PriceQueues} {pool : MemPool}

theorem sameFrame_linkNode (hcap : pool.capacity = b.pool.capacity) :
    SameFrame b (b.linkNode i q pool o k) :=
  ⟨rfl, rfl, rfl, hcap, fun _ => rfl⟩

theorem order_of_mem (h : Arena b.pool b.priceLevels level (k :: free))
    (hord : ∀ y, (pool.nodes y).order = if y = k then o else (b.pool.nodes y).order) {j y : ℕ}
    (hy : y ∈ level j) : (pool.nodes y).order = (b.pool.nodes y).order := by
  have hyk : y ≠ k := fun e => h.not_free hy (e ▸ List.mem_cons_self)
  rw [hord, if_neg hyk]

/-- A node of the free list is put at the end of a level. -/
theorem Linked.link (h : b.Linked level (k :: free))
    (harena : Arena pool (Function.update b.priceLevels i q)
      (Function.update level i (level i ++ [k])) free)
    (hord : ∀ y, (pool.nodes y).order = if y = k then o else (b.pool.nodes y).order)
    (hcap : pool.capacity = b.pool.capacity) (hp : b.priceToIndex o.price = i)
    (hi : i < b.numPriceLevels) (hfresh : ∀ j, ∀ o' ∈ b.queue j, o'.orderId ≠ o.orderId) :
    (b.linkNode i q pool o k).Linked (Function.update level i (level i ++ [k])) free := by
  have hold : ∀ {j y}, y ∈ level j → (pool.nodes y).order = (b.pool.nodes y).order :=
    fun hy => order_of_mem h.toArena hord hy
  have hnew : (pool.nodes k).order = o := by rw [hord, if_pos rfl]
  have hmem : ∀ {j y}, y ∈ Function.update level i (level i ++ [k]) j ↔
      y ∈ level j ∨ j = i ∧ y = k := by
    intro j y
    rw [Cells.mem_update]
    by_cases hj : j = i <;> simp [hj]
  have hsame := fun j => PriceQueues.setHeapEntry_same b.priceLevels i q true j
  refine ⟨harena.of_same_queues (fun j => (hsame j).1) (fun j => (hsame j).2.1)
    (fun j => (hsame j).2.2), fun id y => ?_, fun {j y} hy => ?_⟩
  · change Function.update b.orderMap o.orderId (some k) id = some y ↔
      (∃ j, y ∈ Function.update level i (level i ++ [k]) j) ∧
        (pool.nodes y).order.orderId = id
    simp only [hmem]
    rcases eq_or_ne id o.orderId with rfl | hid
    · rw [Function.update_self]
      constructor
      · intro e
        obtain rfl := Option.some.inj e
        exact ⟨⟨i, Or.inr ⟨rfl, rfl⟩⟩, by rw [hnew]⟩
      · rintro ⟨⟨j, hy | ⟨-, rfl⟩⟩, he⟩
        · rw [hold hy] at he
          refine absurd he (hfresh j _ ?_)
          rw [h.queue_eq]
          exact List.mem_map.2 ⟨y, hy, rfl⟩
        · rfl
    · rw [Function.update_of_ne hid, h.index id y]
      constructor
      · rintro ⟨⟨j, hy⟩, he⟩
        exact ⟨⟨j, Or.inl hy⟩, by rw [hold hy, he]⟩
      · rintro ⟨⟨j, hy | ⟨-, rfl⟩⟩, he⟩
        · exact ⟨⟨j, hy⟩, by rw [← hold hy, he]⟩
        · rw [hnew] at he
          exact absurd he.symm hid
  · rw [(sameFrame_linkNode hcap).levels, (sameFrame_linkNode hcap).priceToIndex]
    rcases hmem.1 hy with hy | ⟨rfl, rfl⟩
    · have hyo : ((b.linkNode i q pool o k).pool.nodes y).order = (b.pool.nodes y).order := hold hy
      rw [hyo]
      exact h.at_level hy
    · have hyo : ((b.linkNode j q pool o y).pool.nodes y).order = o := hnew
      rw [hyo]
      exact ⟨hi, hp⟩

/-- The queues after the first free node has been put at the end of level `i`. -/
theorem queue_link (h : Arena b.pool b.priceLevels level (k :: free)) {b' : OrderBook}
    (h' : Arena b'.pool b'.priceLevels (Function.update level i (level i ++ [k])) free)
    (hord : ∀ y, (b'.pool.nodes y).order = if y = k then o else (b.pool.nodes y).order)
    (j : ℕ) : b'.queue j = if j = i then b.queue i ++ [o] else b.queue j := by
  have hold : ∀ j, ((level j).map fun y => (b'.pool.nodes y).order) = b.queue j := by
    intro j
    rw [queue, h.walk_eq]
    exact List.map_congr_left fun y hy => order_of_mem h hord hy
  rw [queue, h'.walk_eq]
  rcases eq_or_ne j i with rfl | hj
  · rw [Function.update_self, if_pos rfl, List.map_append, hold, List.map_singleton, hord,
      if_pos rfl]
  · rw [Function.update_of_ne hj, if_neg hj, hold]

/-- The side `s` after the order `o` has been added to level `i`. -/
def sideAfter (b : OrderBook) (s : OrderType) (i : ℕ) (o : Order) : BookSide :=
  { b.side s with
    nextPrice := if (b.priceLevels i).isEmpty ∧ (b.priceLevels i).heapEntry = false then
        (b.side s).nextPrice.orderedInsert (better s) o.price
      else (b.side s).nextPrice
    totalQty := add64 (b.side s).totalQty o.quantity }

/-- `addBuyOrder` and `addSellOrder` once a node has been found for the order. -/
theorem addOrder_of_insert (hp : b.priceToIndex o.price = i) (hi : i < b.numPriceLevels)
    (hins : (b.priceLevels i).insertOrder b.pool o = .ok (k, q, pool)) (hk : k ≠ nullIdx) :
    b.addOrder s o = .ok (true, (b.linkNode i q pool o k).setSide s (b.sideAfter s i o)) := by
  have hlev := hasLevel_of_index hp hi
  rw [addOrder, if_neg (not_not.2 hlev)]
  simp only [hp, Int.toNat_natCast, hins, bind, Except.bind, if_neg hk]
  rfl

end Link

/-- `addBuyOrder` and `addSellOrder` append the order to its level, set the level's flag,
push its price if the level was empty and unflagged, and add its quantity to the total. -/
theorem WF.addOrder_spec (h : b.WF) (hfree : b.pool.used < b.pool.capacity)
    (hp : b.priceToIndex o.price = i) (hi : i < b.numPriceLevels)
    (hfresh : ∀ j, ∀ o' ∈ b.queue j, o'.orderId ≠ o.orderId) :
    ∃ b', b.addOrder s o = .ok (true, b') ∧ b'.WF ∧ SameFrame b b' ∧
      (∀ j, b'.queue j = if j = i then b.queue i ++ [o] else b.queue j) ∧
      (∀ j, b'.flag j = if j = i then true else b.flag j) ∧
      b'.side = Function.update b.side s
        { b.side s with
          nextPrice := if b.queue i = [] ∧ b.flag i = false then
              (b.side s).nextPrice.orderedInsert (better s) o.price
            else (b.side s).nextPrice
          totalQty := add64 (b.side s).totalQty o.quantity } ∧
      b'.pool.used = b.pool.used + 1 := by
  have hempty := h.isEmpty_iff i
  obtain ⟨level, free, h⟩ := h
  obtain ⟨k, free, rfl⟩ : ∃ k free', free = k :: free' := by
    refine List.exists_cons_of_ne_nil fun hnil => ?_
    have hused := h.used
    rw [hnil, List.length_nil] at hused
    omega
  obtain ⟨q, pool, hins, -, harena, hord, hcap, hused⟩ := h.toArena.insertOrder_spec i o
  have hkn : k ≠ nullIdx := h.toArena.ne_null ((h.cell k).2 (Or.inl List.mem_cons_self))
  set b₁ := b.linkNode i q pool o k with hb₁
  have hlink : b₁.Linked (Function.update level i (level i ++ [k])) free :=
    h.link harena hord hcap hp hi hfresh
  have hframe₁ : SameFrame b b₁ := sameFrame_linkNode hcap
  have hframe₂ : SameFrame b₁ (b₁.setSide s (b.sideAfter s i o)) :=
    sameFrame_setSide b₁ s _ rfl
  obtain ⟨hwf, hqueue⟩ := WF.of_same ⟨_, _, hlink⟩ hframe₂ rfl rfl
    (fun _ => rfl) (fun _ => rfl) fun _ => rfl
  refine ⟨b₁.setSide s (b.sideAfter s i o), addOrder_of_insert hp hi hins hkn, hwf,
    hframe₁.trans hframe₂, fun j => ?_, fun j => ?_, ?_, hused⟩
  · rw [hqueue]
    exact queue_link h.toArena hlink.toArena hord j
  · rcases eq_or_ne j i with rfl | hj
    · simp [flag, hb₁, linkNode, setSide, setLevel, PriceQueues.setHeapEntry]
    · simp [flag, hb₁, linkNode, setSide, setLevel, hj]
  · simp only [← hempty]
    rfl

end Addition

/-! ## Construction -/

/-- From node `a` on, the fresh free list runs through the nodes in order. -/
theorem chain_new (raw : ℕ → OrderNode) (cap : ℕ) : ∀ n a, a + (n + 1) = cap →
    Chain (fun k => ((MemPool.new raw cap).nodes k).next) a (List.range' a (n + 1)) nullIdx
  | 0, a, h => by
    have h1 : ¬a < cap - 1 := by omega
    have h2 : a = cap - 1 := by omega
    simp [Chain, MemPool.new, h2]
  | n + 1, a, h => by
    have h1 : a < cap - 1 := by omega
    rw [List.range'_succ]
    refine ⟨rfl, ?_⟩
    have hnext : ((MemPool.new raw cap).nodes a).next = a + 1 := by simp [MemPool.new, h1]
    simp only [hnext]
    exact chain_new raw cap n (a + 1) (by omega)

theorem new_linked (mem : Storage) {poolSize : ℕ} (lower upper : ℕ) (h0 : 1 ≤ poolSize)
    (h1 : poolSize < 2 ^ 31) :
    (new mem poolSize lower upper).Linked (fun _ => []) (List.range poolSize) := by
  refine ⟨⟨⟨List.nodup_range, fun _ => List.nodup_nil, fun h => absurd h List.not_mem_nil,
    fun h => absurd h List.not_mem_nil, fun k => ?_⟩, ?_, fun _ => ⟨rfl, rfl⟩, fun _ => rfl,
    ?_, h1⟩, fun id k => ?_, fun h => absurd h List.not_mem_nil⟩
  · simp [new, MemPool.new]
  · obtain ⟨n, rfl⟩ : ∃ n, poolSize = n + 1 := ⟨poolSize - 1, by omega⟩
    rw [List.range_eq_range']
    exact chain_new mem.nodes (n + 1) n 0 (by omega)
  · simp [new, MemPool.new]
  · simp [new]

end OrderBook

end TradeX
