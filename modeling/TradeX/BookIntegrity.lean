import TradeX.BookCalls

/-!
# The integrity of the book

Every public operation of `OrderBook`, in any order, on a book kept beside a plain list of its
resting orders by age. A call that returns true does to that list what `effect` says : an
addition puts its order at the end, a removal and a cancel take one out, and `modifyQuantity`
rewrites one where it stands.

`run_integrity` : along every run the pool, the queues, the map and the heaps are in order
(`Integrity`), each level holds its orders by age, and a call that returns false leaves the whole
book as it was.
-/

namespace TradeX

/-- A call of a public operation of the book. `addBuyOrder` and `addSellOrder` are `add .buy` and
`add .sell`, and so on. -/
inductive BookCall
  | add (s : OrderType) (order : Order)
  | remove (s : OrderType) (price : ℕ)
  | cancel (id : ℕ)
  | modifyQuantity (price newQty : ℕ)
  | best (s : OrderType)

/-- The first element that satisfies `P` gives way to what `f` makes of it. -/
def replaceFirst {α : Type} (P : α → Prop) [DecidablePred P] (f : α → List α) :
    List α → List α
  | [] => []
  | a :: l => if P a then f a ++ l else a :: replaceFirst P f l

section ReplaceFirst

variable {α : Type} {P : α → Prop} [DecidablePred P]

theorem replaceFirst_append (f : α → List α) : ∀ {l₁ : List α} {a : α} {l₂ : List α},
    (∀ x ∈ l₁, ¬P x) → P a → replaceFirst P f (l₁ ++ a :: l₂) = l₁ ++ f a ++ l₂
  | [], _, _, _, ha => if_pos ha
  | x :: l₁, _, _, hl, ha => by
    rw [List.cons_append, replaceFirst, if_neg (hl x List.mem_cons_self),
      replaceFirst_append f (fun y hy => hl y (List.mem_cons_of_mem _ hy)) ha]
    rfl

/-- A list with an element that satisfies `P` splits at the first one. -/
theorem exists_first {l : List α} (h : ∃ a ∈ l, P a) :
    ∃ l₁ a l₂, l = l₁ ++ a :: l₂ ∧ P a ∧ ∀ x ∈ l₁, ¬P x := by
  obtain ⟨a, ha⟩ := Option.isSome_iff_exists.1 (List.find?_isSome (p := fun a => decide (P a)).2
    (h.imp fun a ha => ⟨ha.1, decide_eq_true ha.2⟩))
  obtain ⟨hp, l₁, l₂, hl, hfirst⟩ := List.find?_eq_some_iff_append.1 ha
  exact ⟨l₁, a, l₂, hl, of_decide_eq_true hp, fun x hx => by simpa using hfirst x hx⟩

end ReplaceFirst

namespace OrderBook

/-- What a call returns, and the book after it. The best prices are no matter of success. -/
def call (b : OrderBook) : BookCall → Except Fault (Bool × OrderBook)
  | .add s order => b.addOrder s order
  | .remove s price => b.removeOrder s price
  | .cancel id => b.cancelOrder id
  | .modifyQuantity price newQty => b.modifyQuantity price newQty
  | .best s => do
    let (_, b') ← b.bestprice s
    .ok (true, b')

/-- The order is at the level of the price. -/
def SameLevel (b : OrderBook) (price : ℕ) (o : Order) : Prop :=
  b.priceToIndex o.price = b.priceToIndex price

instance (b : OrderBook) (price : ℕ) : DecidablePred (b.SameLevel price) :=
  fun _ => inferInstanceAs (Decidable (_ = _))

/-- What a successful call does to the resting orders, listed by age. -/
def effect (b : OrderBook) (byAge : List Order) : BookCall → List Order
  | .add _ order => byAge ++ [order]
  | .remove _ price => replaceFirst (b.SameLevel price) (fun _ => []) byAge
  | .cancel id => replaceFirst (fun o => o.orderId = id) (fun _ => []) byAge
  | .modifyQuantity price newQty =>
    replaceFirst (b.SameLevel price) (fun o => [{ o with quantity := newQty }]) byAge
  | .best _ => byAge

/-- The pool, the queues, the map and the heaps are in order : each of the nodes is either free or
queued at one level (`Cells`), the free list and the doubly linked queues run through these nodes
and the counts agree (`Arena`), the map has the resting ids and no others (`Linked`), each level
holds its orders by age, and each heap has its sentinel. -/
structure Integrity (b : OrderBook) (poolSize lower upper : ℕ) (byAge : List Order) : Prop where
  capacity : b.pool.capacity = poolSize
  layout : ∃ level free, b.Linked level free
  queue : ∀ i : ℕ, b.queue i = byAge.filter fun o => b.priceToIndex o.price = i
  used : b.pool.used = b.orders.length
  resting : b.orders.Perm byAge
  sentinel : ∀ s, defaultBest lower upper s ∈ (b.side s).nextPrice

end OrderBook

/-- A book, and its resting orders from the oldest to the newest. -/
structure AgedBook where
  book : OrderBook
  byAge : List Order

namespace AgedBook

/-- A book that has just been constructed, with no orders. -/
def start (mem : Storage) (poolSize lower upper : ℕ) : AgedBook :=
  ⟨.new mem poolSize lower upper, []⟩

/-- A call on the book. What it does to the orders is recorded if it returns true. -/
def step (st : AgedBook) (c : BookCall) : Except Fault AgedBook := do
  let (success, book) ← st.book.call c
  .ok ⟨book, if success then st.book.effect st.byAge c else st.byAge⟩

/-- Calls on the book, one after the other. -/
def run (st : AgedBook) (calls : List BookCall) : Except Fault AgedBook :=
  calls.foldlM step st

/-- An id that is added is not resting, and removals are at prices of the band. -/
def Legal (st : AgedBook) : BookCall → Prop
  | .add _ order => ∀ o ∈ st.byAge, o.orderId ≠ order.orderId
  | .remove _ price => st.book.isPriceValid price
  | _ => True

instance (st : AgedBook) : DecidablePred st.Legal
  | .add _ _ => inferInstanceAs (Decidable (∀ _ ∈ _, _))
  | .remove _ _ => inferInstanceAs (Decidable (st.book.isPriceValid _))
  | .cancel _ | .modifyQuantity _ _ | .best _ => inferInstanceAs (Decidable True)

/-! ## The invariant -/

/-- The invariant of the calls. A heap entry that is not the sentinel has a level, so that
`bestprice` can look at it. -/
structure Aged (st : AgedBook) : Prop where
  wf : st.book.WF
  queue : ∀ i : ℕ, st.book.queue i = st.byAge.filter fun o => st.book.priceToIndex o.price = i
  level : ∀ o ∈ st.byAge, st.book.HasLevel o.price
  used : st.book.pool.used = st.byAge.length
  sentinel : ∀ s, (st.book.side s).defaultBestPrice ∈ (st.book.side s).nextPrice
  entry : ∀ s, ∀ p ∈ (st.book.side s).nextPrice, p ≠ (st.book.side s).defaultBestPrice →
    st.book.HasLevel p

variable {st : AgedBook} {b' : OrderBook} {s : OrderType} {i : ℕ}

/-- The orders of level `i` among some. -/
theorem Aged.mem_queue (h : Aged st) {o : Order} :
    o ∈ st.book.queue i ↔ o ∈ st.byAge ∧ st.book.priceToIndex o.price = i := by
  rw [h.queue, List.mem_filter, decide_eq_true_eq]

/-- Every resting order is queued. -/
theorem Aged.exists_queue (h : Aged st) {o : Order} (ho : o ∈ st.byAge) :
    ∃ i, i < st.book.numPriceLevels ∧ st.book.priceToIndex o.price = i ∧
      o ∈ st.book.queue i := by
  obtain ⟨i, hi, hpi⟩ := h.level o ho
  exact ⟨i, hi, hpi, h.mem_queue.2 ⟨ho, hpi⟩⟩

theorem Aged.fresh (h : Aged st) {id : ℕ} (hid : ∀ o ∈ st.byAge, o.orderId ≠ id) :
    ∀ j, ∀ o ∈ st.book.queue j, o.orderId ≠ id :=
  fun _ o ho => hid o (h.mem_queue.1 ho).1

/-! ## Steps -/

/-- A resting order gives way to others of its level, or to none. -/
theorem Aged.replace {o : Order} {l₁ l₂ mid : List Order} (h : Aged st)
    (hl : st.byAge = l₁ ++ o :: l₂) (hi : st.book.priceToIndex o.price = i)
    (hmid : ∀ x ∈ mid, x.price = o.price) (hwf : b'.WF)
    (hframe : OrderBook.SameFrame st.book b') (hqueue : ∀ j, b'.queue j = if j = i then
        (l₁.filter fun o => st.book.priceToIndex o.price = i) ++ mid ++
          (l₂.filter fun o => st.book.priceToIndex o.price = i)
      else st.book.queue j)
    (hused : b'.pool.used = (l₁ ++ mid ++ l₂).length)
    (hheap : ∀ r, (b'.side r).nextPrice = (st.book.side r).nextPrice) :
    Aged ⟨b', l₁ ++ mid ++ l₂⟩ := by
  refine ⟨hwf, fun j => ?_, fun x hx => ?_, hused, fun r => ?_, fun r p hp hne => ?_⟩
  · simp only [hqueue, hframe.priceToIndex, List.filter_append]
    rcases eq_or_ne j i with rfl | hj
    · have hall : (mid.filter fun o => st.book.priceToIndex o.price = j) = mid :=
        List.filter_eq_self.2 fun x hx => by simp [hmid x hx, hi]
      rw [if_pos rfl, hall]
    · have hne : st.book.priceToIndex o.price ≠ j :=
        fun e => hj (by exact_mod_cast e.symm.trans hi)
      have hnone : (mid.filter fun o => st.book.priceToIndex o.price = j) = [] :=
        List.filter_eq_nil_iff.2 fun x hx => by simp [hmid x hx, hne]
      rw [if_neg hj, hnone, h.queue, hl, List.filter_append,
        List.filter_cons_of_neg (by simp [hne]), List.append_nil]
  · have hold : x ∈ st.byAge ∨ x ∈ mid := by
      rw [hl]
      simp only [List.mem_append, List.mem_cons] at hx ⊢
      tauto
    refine hframe.hasLevel ?_
    rcases hold with hx | hx
    · exact h.level x hx
    · rw [hmid x hx]
      exact h.level o (by simp [hl])
  · rw [hheap, hframe.sentinel]
    exact h.sentinel r
  · simp only [hheap, hframe.sentinel] at hp hne
    exact hframe.hasLevel (h.entry r p hp hne)

/-- The levels before the first order of level `i` are others. -/
theorem filter_before_first {b : OrderBook} {p : ℕ} {l : List Order} (hp : b.priceToIndex p = i)
    (hfirst : ∀ x ∈ l, ¬b.SameLevel p x) : (l.filter fun o => b.priceToIndex o.price = i) =
    [] :=
  List.filter_eq_nil_iff.2 fun x hx h => hfirst x hx ((of_decide_eq_true h).trans hp.symm)

/-- A level is empty, or its queue starts with the oldest order at it. -/
theorem Aged.first_cases (h : Aged st) {p : ℕ} (hp : st.book.priceToIndex p = i) :
    st.book.queue i = [] ∨ ∃ l₁ o l₂, st.byAge = l₁ ++ o :: l₂ ∧
      st.book.SameLevel p o ∧ (∀ x ∈ l₁, ¬st.book.SameLevel p x) ∧
      (l₁.filter fun o => st.book.priceToIndex o.price = i) = [] ∧
      st.book.queue i = o :: l₂.filter fun o => st.book.priceToIndex o.price = i := by
  rcases em (∃ o ∈ st.byAge, st.book.SameLevel p o) with hex | hnone
  · obtain ⟨l₁, o, l₂, hl, ho, hfirst⟩ := exists_first hex
    have hbefore := filter_before_first hp hfirst
    refine Or.inr ⟨l₁, o, l₂, hl, ho, hfirst, hbefore, ?_⟩
    rw [h.queue, hl, List.filter_append, hbefore, List.filter_cons,
      if_pos (decide_eq_true (ho.trans hp))]
    rfl
  · rw [h.queue]
    exact Or.inl (filter_before_first hp fun x hx hx' => hnone ⟨x, hx, hx'⟩)

/-- What a call does : it returns, and either it returns false and leaves the book as it was, or
it does what `effect` says. -/
def Done (st : AgedBook) (c : BookCall) : Prop :=
  st.book.call c = .ok (false, st.book) ∨
    ∃ b', st.book.call c = .ok (true, b') ∧ Aged ⟨b', st.book.effect st.byAge c⟩ ∧
      OrderBook.SameFrame st.book b'

/-- An addition keeps what is in the heaps, and the one price that may come is its own. -/
theorem mem_heap_of_add {b : OrderBook} {o : Order} {push : Prop} [Decidable push] {qty : ℕ}
    (hside : b'.side = Function.update b.side s
      { b.side s with
        nextPrice := if push then (b.side s).nextPrice.orderedInsert (better s) o.price
          else (b.side s).nextPrice
        totalQty := qty }) (r : OrderType) (p : ℕ) :
    (p ∈ (b.side r).nextPrice → p ∈ (b'.side r).nextPrice) ∧
      (p ∈ (b'.side r).nextPrice → p = o.price ∨ p ∈ (b.side r).nextPrice) := by
  rw [hside]
  rcases eq_or_ne r s with rfl | hr
  · rw [Function.update_self]
    split_ifs
    · rw [List.mem_orderedInsert]
      exact ⟨Or.inr, id⟩
    · exact ⟨id, Or.inr⟩
  · rw [Function.update_of_ne hr]
    exact ⟨id, Or.inr⟩

theorem Aged.concat {o : Order} (h : Aged st) (hp : st.book.priceToIndex o.price = i)
    (hi : i < st.book.numPriceLevels) (hwf : b'.WF) (hframe : OrderBook.SameFrame st.book b')
    (hqueue : ∀ j, b'.queue j = if j = i then st.book.queue i ++ [o] else st.book.queue j)
    (hused : b'.pool.used = st.book.pool.used + 1)
    (hkeep : ∀ r p, p ∈ (st.book.side r).nextPrice → p ∈ (b'.side r).nextPrice)
    (hnew : ∀ r p, p ∈ (b'.side r).nextPrice → p = o.price ∨
      p ∈ (st.book.side r).nextPrice) :
    Aged ⟨b', st.byAge ++ [o]⟩ := by
  have hlevel : st.book.HasLevel o.price := ⟨i, hi, hp⟩
  refine ⟨hwf, fun j => ?_, fun x hx => ?_, ?_, fun r => ?_, fun r p hpr hne => ?_⟩
  · simp only [hqueue, hframe.priceToIndex, List.filter_append, h.queue]
    rcases eq_or_ne j i with rfl | hj
    · simp [hp]
    · have hne : st.book.priceToIndex o.price ≠ j :=
        fun e => hj (by exact_mod_cast e.symm.trans hp)
      simp [hj, hne]
  · refine hframe.hasLevel ?_
    rcases List.mem_append.1 hx with hx | hx
    · exact h.level x hx
    · rw [List.mem_singleton.1 hx]
      exact hlevel
  · rw [hused, h.used, List.length_append, List.length_singleton]
  · rw [hframe.sentinel]
    exact hkeep r _ (h.sentinel r)
  · refine hframe.hasLevel ?_
    simp only [hframe.sentinel] at hne
    rcases hnew r p hpr with rfl | hold
    · exact hlevel
    · exact h.entry r p hold hne

theorem Aged.done_add (h : Aged st) {o : Order} (hlegal : st.Legal (.add s o)) :
    st.Done (.add s o) := by
  by_cases hroom : ∃ i : ℕ, st.book.priceToIndex o.price = i ∧ i < st.book.numPriceLevels ∧
      st.book.pool.used < st.book.pool.capacity
  · obtain ⟨i, hp, hi, hroom⟩ := hroom
    obtain ⟨b', hadd, hwf, hframe, hq, -, hside, hused⟩ :=
      h.wf.addOrder_spec (s := s) hroom hp hi (h.fresh hlegal)
    have hheap := mem_heap_of_add hside
    exact Or.inr ⟨b', hadd, h.concat hp hi hwf hframe hq hused (fun r p => (hheap r p).1)
      fun r p => (hheap r p).2, hframe⟩
  · exact Or.inl (h.wf.addOrder_refused s hroom)

theorem Aged.done_remove (h : Aged st) {p : ℕ} (hp : st.book.priceToIndex p = i)
    (hi : i < st.book.numPriceLevels) : st.Done (.remove s p) := by
  rcases h.first_cases hp with hnil | ⟨l₁, o, l₂, hl, ho, hfirst, hbefore, hq⟩
  · refine Or.inl ?_
    rw [OrderBook.call, OrderBook.removeOrder, OrderBook.levelOf_ok hp hi]
    exact if_pos ((h.wf.isEmpty_iff i).2 hnil)
  · obtain ⟨b', hrm, hwf, hframe, hqueue, -, hside, hused⟩ := h.wf.removeOrder_spec s hp hi hq
    have heffect : st.book.effect st.byAge (.remove s p) = l₁ ++ [] ++ l₂ := by
      rw [OrderBook.effect, hl, replaceFirst_append _ hfirst ho]
    refine Or.inr ⟨b', hrm, heffect ▸ h.replace hl (ho.trans hp) (by simp) hwf hframe ?_ ?_ ?_,
      hframe⟩
    · rw [hbefore]
      exact hqueue
    · have := h.used
      simp only [hl, List.length_append, List.length_cons, List.length_nil] at this ⊢
      omega
    · intro r
      rcases eq_or_ne r s with rfl | hr
      · rw [hside, Function.update_self]
      · rw [hside, Function.update_of_ne hr]

theorem Aged.done_cancel (h : Aged st) (id : ℕ) : st.Done (.cancel id) := by
  rcases em (∃ o ∈ st.byAge, o.orderId = id) with hex | hnone
  · obtain ⟨l₁, o, l₂, hl, ho, hfirst⟩ := exists_first hex
    have heffect : st.book.effect st.byAge (.cancel id) = l₁ ++ [] ++ l₂ := by
      rw [OrderBook.effect, hl, replaceFirst_append _ hfirst ho]
    obtain ⟨i, hi, hp, -⟩ := h.exists_queue (o := o) (by simp [hl])
    have hq : st.book.queue i = (l₁.filter fun o => st.book.priceToIndex o.price = i) ++
        o :: l₂.filter fun o => st.book.priceToIndex o.price = i := by
      rw [h.queue, hl, List.filter_append, List.filter_cons, if_pos (decide_eq_true hp)]
    obtain ⟨b', hcancel, hwf, hframe, hqueue, -, hside, hused⟩ := h.wf.cancelOrder_spec hq
    rw [ho] at hcancel
    refine Or.inr ⟨b', hcancel, heffect ▸ h.replace hl hp (by simp) hwf hframe ?_ ?_ ?_,
      hframe⟩
    · rw [List.append_nil]
      exact hqueue
    · have := h.used
      simp only [hl, List.length_append, List.length_cons, List.length_nil] at this ⊢
      omega
    · exact fun r => by rw [hside]
  · exact Or.inl (h.wf.cancelOrder_unknown (h.fresh fun o ho hid => hnone ⟨o, ho, hid⟩))

theorem Aged.done_modifyQuantity (h : Aged st) (p newQty : ℕ) :
    st.Done (.modifyQuantity p newQty) := by
  rcases em (st.book.hasLevel (st.book.priceToIndex p)) with hlevel | hlevel
  · obtain ⟨i, hp, hi⟩ := OrderBook.exists_index hlevel
    rcases h.first_cases hp with hnil | ⟨l₁, o, l₂, hl, ho, hfirst, hbefore, hq⟩
    · refine Or.inl ?_
      have hempty : (st.book.priceLevels (st.book.priceToIndex p).toNat).isEmpty = true := by
        rw [hp]
        exact (h.wf.isEmpty_iff i).2 hnil
      rw [OrderBook.call, OrderBook.modifyQuantity, if_neg (not_not.2 hlevel), if_pos hempty]
    · obtain ⟨b', hmod, hwf, hframe, hqueue, -, hside, hused⟩ :=
        h.wf.modifyQuantity_spec hp hi hq newQty
      have heffect : st.book.effect st.byAge (.modifyQuantity p newQty) =
          l₁ ++ [{ o with quantity := newQty }] ++ l₂ := by
        rw [OrderBook.effect, hl, replaceFirst_append _ hfirst ho]
      refine Or.inr ⟨b', hmod, heffect ▸ h.replace hl (ho.trans hp) (by simp) hwf hframe ?_ ?_
        ?_, hframe⟩
      · rw [hbefore]
        exact hqueue
      · rw [hused, h.used, hl]
        simp
      · exact fun r => by rw [hside]
  · refine Or.inl ?_
    rw [OrderBook.call, OrderBook.modifyQuantity, if_pos hlevel]

theorem Aged.done_best (h : Aged st) (s : OrderType) : st.Done (.best s) := by
  obtain ⟨p, b', dropped, tl, hbest, hc⟩ :=
    h.wf.bestprice_spec _ rfl (h.sentinel s) (h.entry s)
  refine Or.inr ⟨b', ?_, ⟨hc.wf, fun j => ?_, fun x hx => ?_, hc.used.trans h.used,
    fun r => hc.sentinel_mem (h.sentinel r), fun r q hq hne => ?_⟩, hc.frame⟩
  · rw [OrderBook.call, hbest]
    rfl
  · simp only [hc.queue, hc.frame.priceToIndex]
    exact h.queue j
  · exact hc.frame.hasLevel (h.level x hx)
  · simp only [hc.frame.sentinel] at hne
    exact hc.frame.hasLevel (h.entry r q (hc.mem_of_mem hq) hne)

/-! ## Runs -/

section Runs

variable {mem : Storage} {poolSize lower upper : ℕ}

/-- A price of a narrow band has a level. -/
theorem hasLevel_of_valid {b : OrderBook} {p : ℕ} (hle : lower ≤ upper)
    (hwidth : upper - lower < 2 ^ 31) (hupper : upper < 2 ^ 64)
    (hframe : OrderBook.SameFrame (.new mem poolSize lower upper) b)
    (hv : b.isPriceValid p) : b.HasLevel p := by
  have hlow : b.lowerLimit = lower := hframe.lower
  have hup : b.upperLimit = upper := hframe.upper
  have hn : b.numPriceLevels = upper - lower + 1 := by
    rw [hframe.levels]
    simp only [OrderBook.new, add64, sub64]
    omega
  obtain ⟨h1, h2⟩ := hv
  exact ⟨p - b.lowerLimit, by omega, OrderBook.priceToIndex_eq h1 (by omega)⟩

theorem Aged.done (h : Aged st) (hle : lower ≤ upper) (hwidth : upper - lower < 2 ^ 31)
    (hupper : upper < 2 ^ 64) (hframe : OrderBook.SameFrame (.new mem poolSize lower upper) st.book)
    {c : BookCall} (hlegal : st.Legal c) : st.Done c := by
  cases c with
  | add s o => exact h.done_add hlegal
  | remove s p =>
    obtain ⟨i, hi, hp⟩ := hasLevel_of_valid hle hwidth hupper hframe hlegal
    exact h.done_remove hp hi
  | cancel id => exact h.done_cancel id
  | modifyQuantity p newQty => exact h.done_modifyQuantity p newQty
  | best s => exact h.done_best s

theorem aged_start (mem : Storage) (lower upper : ℕ) (h0 : 1 ≤ poolSize)
    (h1 : poolSize < 2 ^ 31) : Aged (start mem poolSize lower upper) := by
  refine ⟨⟨_, _, OrderBook.new_linked mem lower upper h0 h1⟩, fun _ => rfl,
    fun o ho => absurd ho List.not_mem_nil, rfl, fun s => List.mem_singleton.2 rfl,
    fun s p hp hne => absurd (List.mem_singleton.1 hp) hne⟩

theorem Aged.orders_perm (h : Aged st) : st.book.orders.Perm st.byAge := by
  have hfib : st.book.orders = (List.range st.book.numPriceLevels).flatMap fun i =>
      st.byAge.filter fun o => (st.book.priceToIndex o.price).toNat = i := by
    refine List.flatMap_congr fun i _ => ?_
    rw [h.queue]
    refine List.filter_congr fun o ho => ?_
    obtain ⟨j, -, hj⟩ := h.level o ho
    simp only [hj, Int.toNat_natCast, decide_eq_decide]
    omega
  rw [hfib]
  refine flatMap_filter_perm (fun o : Order => (st.book.priceToIndex o.price).toNat) _ _ fun o ho =>
    ?_
  obtain ⟨j, hj, hpj⟩ := h.level o ho
  rw [hpj, Int.toNat_natCast]
  exact hj

theorem Aged.integrity (h : Aged st)
    (hframe : OrderBook.SameFrame (.new mem poolSize lower upper) st.book) :
    st.book.Integrity poolSize lower upper st.byAge := by
  refine ⟨hframe.capacity, h.wf, h.queue, h.used.trans h.orders_perm.length_eq.symm,
    h.orders_perm, fun s => ?_⟩
  have hs := h.sentinel s
  rwa [hframe.sentinel s] at hs

/-- Along every run of legal calls every call returns, the book is in order, and a call that returns
false changes nothing. -/
theorem run_integrity (mem : Storage) {poolSize lower upper : ℕ} (calls : List BookCall)
    (h0 : 1 ≤ poolSize) (h1 : poolSize < 2 ^ 31) (hle : lower ≤ upper)
    (hwidth : upper - lower < 2 ^ 31) (hupper : upper < 2 ^ 64)
    (hlegal : Runs.Always (fun st c st' => step st c = .ok st') Legal
      (start mem poolSize lower upper) calls) :
    ∃ st, (start mem poolSize lower upper).run calls = .ok st ∧
      st.book.Integrity poolSize lower upper st.byAge ∧
      ∀ c, st.Legal c → ∃ success b', st.book.call c = .ok (success, b') ∧
        (success = false → b' = st.book) := by
  have hstep : ∀ {st : AgedBook} {c : BookCall}, (Aged st ∧
      OrderBook.SameFrame (.new mem poolSize lower upper) st.book) → st.Legal c →
      ∃ st', st.step c = .ok st' ∧ Aged st' ∧
        OrderBook.SameFrame (.new mem poolSize lower upper) st'.book := by
    rintro st c ⟨h, hframe⟩ hc
    rcases h.done hle hwidth hupper hframe hc with hcall | ⟨b', hcall, h', hframe'⟩
    · exact ⟨st, by rw [step, hcall]; rfl, h, hframe⟩
    · exact ⟨⟨b', st.book.effect st.byAge c⟩, by
        rw [step, hcall]; rfl, h', hframe.trans hframe'⟩
  obtain ⟨st, hrun, h, hframe⟩ := Runs.Always.exists_steps hstep
    ⟨aged_start mem lower upper h0 h1, .refl _⟩ hlegal
  refine ⟨st, Runs.steps_iff_ok.1 hrun, h.integrity hframe, fun c hc => ?_⟩
  rcases h.done hle hwidth hupper hframe hc with hcall | ⟨b', hcall, -⟩
  · exact ⟨false, _, hcall, fun _ => rfl⟩
  · exact ⟨true, b', hcall, fun hf => absurd hf (by simp)⟩

end Runs

/-- Orders leave at the head, in the middle and at the tail of a level, and nodes are used again. -/
def patchCalls : List BookCall :=
  [.add .buy (SidedBook.unitOrder 1 .buy 100), .add .buy (SidedBook.unitOrder 2 .buy 100),
    .add .buy (SidedBook.unitOrder 3 .buy 100), .add .sell (SidedBook.unitOrder 4 .sell 101),
    .add .buy (SidedBook.unitOrder 5 .buy 100), .cancel 2,
      .add .buy (SidedBook.unitOrder 2 .buy 100),
    .modifyQuantity 100 7, .remove .buy 102, .cancel 3, .cancel 2, .cancel 9, .remove .sell 101,
    .best .sell, .add .sell (SidedBook.unitOrder 6 .sell 100)]

theorem run_integrity_patchCalls : ∃ st,
    (start ⟨fun _ => ⟨SidedBook.unitOrder 0 .buy 0, 0, 0⟩, fun _ => 0⟩ 4 95 105).run
    patchCalls = .ok st ∧ (st.byAge.map fun o => (o.orderId, o.quantity)) = [(1, 7), (6, 1)] ∧
    st.book.Integrity 4 95 105 st.byAge := by
  obtain ⟨st, hrun, hint, -⟩ := run_integrity
    ⟨fun _ => ⟨SidedBook.unitOrder 0 .buy 0, 0, 0⟩, fun _ => 0⟩ patchCalls
    (show 1 ≤ 4 by decide) (by decide) (show 95 ≤ 105 by decide) (by decide) (by decide)
    (Runs.always_of_allowed_ok (by decide +kernel))
  have hview : ((start ⟨fun _ => ⟨SidedBook.unitOrder 0 .buy 0, 0, 0⟩, fun _ => 0⟩ 4 95
      105).run patchCalls).map (fun st => st.byAge.map fun o => (o.orderId, o.quantity)) =
      .ok [(1, 7), (6, 1)] := by decide +kernel
  rw [hrun] at hview
  exact ⟨st, hrun, Except.ok.inj hview, hint⟩

end AgedBook

end TradeX
