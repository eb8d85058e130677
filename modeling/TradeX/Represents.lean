import TradeX.BookLayout
import TradeX.PriceTime

/-!
# The book represents two priority lists

`Represents b R` ties a book to the two lists of `PriceTime` : the queue of a level holds
the orders of that price, a level is flagged iff it has orders, each heap holds its
sentinel and the prices of its side once each, and the totals are the sums of the resting
quantities. Each operation the matching loops use has one lemma : `bestprice` reads the
first order of a list, a full fill drops it (`fillHead_spec`), a partial fill shrinks it
(`shrinkHead_spec`), and `addOrder` inserts (`insert_spec`). All three change the list of one
side at one price, and `Changed` says what is to be shown of the book then.

`Fits b s p` is what the representation needs of the price of a resting order : it has a
level of its own and the sentinel of its side is worse.

At an end of the 64-bit range the sentinel of a side is a price of the band, and an order may rest
there. The level then keeps its flag when it is empty, and the heap has the sentinel more than
once. The lemmas are proved of books that represent two lists up to this (`RepresentsUpTo`), where
`edges` says whether an order may rest at a sentinel; with `edges` false they are the lemmas of
`Represents` (`represents_iff`).
-/

namespace TradeX

open PriceTime

/-! ## The priority order -/

theorem better_refl (s : OrderType) (p : ℕ) : better s p p := by
  cases s <;> exact le_refl p

theorem better_trans {s : OrderType} {p q r : ℕ} (h : better s p q) (h' : better s q r) :
    better s p r := by
  cases s
  · exact le_trans h' h
  · exact le_trans h h'

theorem better_antisymm {s : OrderType} {p q : ℕ} (h : better s p q) (h' : better s q p) :
    p = q := by
  cases s
  · exact le_antisymm h' h
  · exact le_antisymm h h'

theorem better_total (s : OrderType) (p q : ℕ) : better s p q ∨ better s q p := by
  cases s
  · exact le_total q p
  · exact le_total p q

/-- A price a resting order can be found at. -/
structure OrderBook.Fits (b : OrderBook) (s : OrderType) (p : ℕ) : Prop where
  valid : b.isPriceValid p
  index : b.priceToIndex p = (p - b.lowerLimit : ℕ)
  level : p - b.lowerLimit < b.numPriceLevels
  better_sentinel : better s p (b.side s).defaultBestPrice
  ne_sentinel : p ≠ (b.side s).defaultBestPrice

/-- A price a resting order can be found at, the sentinel of its side only if `edges`. -/
structure OrderBook.FitsUpTo (edges : Prop) (b : OrderBook) (s : OrderType) (p : ℕ) : Prop where
  valid : b.isPriceValid p
  index : b.priceToIndex p = (p - b.lowerLimit : ℕ)
  level : p - b.lowerLimit < b.numPriceLevels
  better_sentinel : better s p (b.side s).defaultBestPrice
  at_sentinel : p = (b.side s).defaultBestPrice → edges

theorem OrderBook.fits_iff {b : OrderBook} {s : OrderType} {p : ℕ} :
    b.Fits s p ↔ b.FitsUpTo False s p :=
  ⟨fun h => ⟨h.valid, h.index, h.level, h.better_sentinel, h.ne_sentinel⟩,
    fun h => ⟨h.valid, h.index, h.level, h.better_sentinel, h.at_sentinel⟩⟩

theorem OrderBook.SameFrame.fitsUpTo {edges : Prop} {b b' : OrderBook}
    (h : OrderBook.SameFrame b b')
    {s : OrderType} {p : ℕ} (hf : OrderBook.FitsUpTo edges b s p) :
    OrderBook.FitsUpTo edges b' s p := by
  refine ⟨?_, ?_, ?_, ?_, ?_⟩
  · have := hf.valid
    rwa [OrderBook.isPriceValid, h.lower, h.upper]
  · rw [h.priceToIndex, h.lower, hf.index]
  · rw [h.lower, h.levels]
    exact hf.level
  · rw [h.sentinel]
    exact hf.better_sentinel
  · rw [h.sentinel]
    exact hf.at_sentinel

/-! ## The representation -/

/-- The resting orders of a list are of side `s`, have units left and fit the book. -/
def RestingOn (b : OrderBook) (s : OrderType) (o : Order) : Prop :=
  o.type = s ∧ 0 < o.quantity ∧ o.InRange ∧ b.Fits s o.price

/-- The book holds the orders of `R` : those of each price in the queue of its level, in order,
with the heaps, the flags, the totals and the pool as they should be. -/
structure Represents (b : OrderBook) (R : Book) : Prop where
  wf : b.WF
  queue : ∀ i, b.queue i = R.at (b.lowerLimit + i)
  flag : ∀ i, b.flag i = true ↔ b.queue i ≠ []
  heap_sorted : ∀ s, (b.side s).nextPrice.Pairwise fun p q => better s p q ∧ p ≠ q
  heap_mem : ∀ s p, p ∈ (b.side s).nextPrice ↔
    p = (b.side s).defaultBestPrice ∨ ∃ o ∈ R s, o.price = p
  total : ∀ s, (b.side s).totalQty = ((R s).map Order.quantity).sum
  used : b.pool.used = R.size
  sorted : ∀ s, (R s).Pairwise fun o o' => better s o.price o'.price
  resting : ∀ s, ∀ o ∈ R s, RestingOn b s o
  uncrossed : ∀ o ∈ R .buy, ∀ o' ∈ R .sell, o.price < o'.price

/-- The resting orders of a list, at a sentinel only if `edges`. -/
def RestsUpTo (edges : Prop) (b : OrderBook) (s : OrderType) (o : Order) : Prop :=
  o.type = s ∧ 0 < o.quantity ∧ o.InRange ∧ OrderBook.FitsUpTo edges b s o.price

/-- `Represents`, but orders may rest at the sentinels if `edges`. -/
structure RepresentsUpTo (edges : Prop) (b : OrderBook) (R : Book) : Prop where
  wf : b.WF
  queue : ∀ i, b.queue i = R.at (b.lowerLimit + i)
  flagged : ∀ i, b.queue i ≠ [] → b.flag i = true
  stale : ∀ i, b.flag i = true → b.queue i = [] →
    edges ∧ ∃ s, b.lowerLimit + i = (b.side s).defaultBestPrice
  heap_sorted : ∀ s, (b.side s).nextPrice.Pairwise fun p q =>
    better s p q ∧ (p = q → p = (b.side s).defaultBestPrice ∧ edges)
  heap_mem : ∀ s p, p ∈ (b.side s).nextPrice ↔
    p = (b.side s).defaultBestPrice ∨ ∃ o ∈ R s, o.price = p
  total : ∀ s, (b.side s).totalQty = ((R s).map Order.quantity).sum
  used : b.pool.used = R.size
  sorted : ∀ s, (R s).Pairwise fun o o' => better s o.price o'.price
  resting : ∀ s, ∀ o ∈ R s, RestsUpTo edges b s o
  uncrossed : ∀ o ∈ R .buy, ∀ o' ∈ R .sell, o.price < o'.price

theorem Represents.upTo {b : OrderBook} {R : Book} (h : Represents b R) (edges : Prop) :
    RepresentsUpTo edges b R := by
  refine ⟨h.wf, h.queue, fun i => (h.flag i).2, fun i hf hn => absurd hn ((h.flag i).1 hf),
    fun s => ?_, h.heap_mem, h.total, h.used, h.sorted, fun s o ho => ?_, h.uncrossed⟩
  · exact (h.heap_sorted s).imp fun hpq => ⟨hpq.1, fun heq => absurd heq hpq.2⟩
  · obtain ⟨htype, hpos, hrange, hf⟩ := h.resting s o ho
    exact ⟨htype, hpos, hrange, hf.valid, hf.index, hf.level, hf.better_sentinel,
      fun heq => absurd heq hf.ne_sentinel⟩

/-- Where no order may rest at a sentinel, `RepresentsUpTo` is `Represents`. -/
theorem represents_iff {b : OrderBook} {R : Book} : Represents b R ↔
    RepresentsUpTo False b R := by
  refine ⟨fun h => h.upTo False, fun h => ?_⟩
  refine ⟨h.wf, h.queue, fun i => ⟨fun hf hn => (h.stale i hf hn).1, h.flagged i⟩,
    fun s => ?_, h.heap_mem, h.total, h.used, h.sorted, fun s o ho => ?_, h.uncrossed⟩
  · exact (h.heap_sorted s).imp fun hpq => ⟨hpq.1, fun heq => (hpq.2 heq).2⟩
  · obtain ⟨htype, hpos, hrange, hf⟩ := h.resting s o ho
    exact ⟨htype, hpos, hrange, OrderBook.fits_iff.2 hf⟩

/-- The price of the first resting order, or the sentinel. -/
def bestOf (b : OrderBook) (s : OrderType) : List Order → ℕ
  | [] => (b.side s).defaultBestPrice
  | o :: _ => o.price

theorem bestOf_of_frame {b b' : OrderBook} (h : OrderBook.SameFrame b b') (s : OrderType) :
    ∀ l : List Order, bestOf b' s l = bestOf b s l
  | [] => h.sentinel s
  | _ :: _ => rfl

namespace RepresentsUpTo

variable {edges : Prop} {b : OrderBook} {R : Book} {s : OrderType} {o : Order} {l : List Order}

/-- Orders of opposite sides never rest at one price. -/
theorem price_ne (h : RepresentsUpTo edges b R) {o' : Order} (ho : o ∈ R s)
    (ho' : o' ∈ R s.opposite) : o'.price ≠ o.price := by
  cases s with
  | buy => exact (h.uncrossed o ho o' ho').ne'
  | sell => exact (h.uncrossed o' ho' o ho).ne

end RepresentsUpTo

theorem mem_at {R : Book} {p : ℕ} {o : Order} : o ∈ R.at p ↔ ∃ s, o ∈ R s ∧
    o.price = p := by
  rw [Book.at, List.mem_filter, List.mem_append, decide_eq_true_iff]
  constructor
  · rintro ⟨ho | ho, hp⟩
    · exact ⟨.buy, ho, hp⟩
    · exact ⟨.sell, ho, hp⟩
  · rintro ⟨s, ho, hp⟩
    cases s with
    | buy => exact ⟨Or.inl ho, hp⟩
    | sell => exact ⟨Or.inr ho, hp⟩

/-- The orders at a price are those of the side that rests there. -/
theorem at_eq_filter {R : Book} (s : OrderType) {p : ℕ}
    (h : ∀ o ∈ R s.opposite, o.price ≠ p) : R.at p = (R s).filter fun o => o.price = p := by
  have hnil : ((R s.opposite).filter fun o => decide (o.price = p)) = [] := by
    simpa [List.filter_eq_nil_iff] using h
  cases s <;> simp only [OrderType.opposite] at hnil <;> simp [Book.at, hnil]

theorem at_update {R : Book} (s : OrderType) (l : List Order) {p : ℕ}
    (h : ∀ o ∈ R s.opposite, o.price ≠ p) :
    Book.at (Function.update R s l) p = l.filter fun o => o.price = p := by
  rw [at_eq_filter s (by simpa using h), Function.update_self]

/-- A change of the list of side `s` that keeps the orders at `p` keeps the queue at `p`. -/
theorem at_update_same {R : Book} (s : OrderType) (l : List Order) {p : ℕ}
    (h : (l.filter fun o => o.price = p) = (R s).filter fun o => o.price = p) :
    Book.at (Function.update R s l) p = R.at p := by
  cases s <;> simp [Book.at, h]

theorem size_update (R : Book) (s : OrderType) (l : List Order) :
    Book.size (Function.update R s l) = l.length + (R s.opposite).length := by
  cases s <;> simp [Book.size]
  omega

theorem size_eq (R : Book) (s : OrderType) : R.size = (R s).length + (R s.opposite).length := by
  cases s <;> simp [Book.size]
  omega

/-! ## The best price -/

/-- The best element of a sorted heap is its top. -/
theorem eq_cons_of_best {s : OrderType} {heap : List ℕ} {p : ℕ} (hs : heap.Pairwise (better s))
    (hp : p ∈ heap) (hbest : ∀ q ∈ heap, better s p q) : ∃ tl, heap = p :: tl := by
  cases heap with
  | nil => exact absurd hp List.not_mem_nil
  | cons t tl =>
    rcases List.mem_cons.1 hp with rfl | hp'
    · exact ⟨tl, rfl⟩
    · have htp := (List.pairwise_cons.1 hs).1 p hp'
      exact ⟨tl, congrArg (· :: tl) (better_antisymm htp (hbest t List.mem_cons_self))⟩

namespace RepresentsUpTo

variable {edges : Prop} {b : OrderBook} {R : Book} {s : OrderType} {o : Order} {l : List Order}

theorem mem_queue (h : RepresentsUpTo edges b R) {i : ℕ} :
    o ∈ b.queue i ↔ ∃ s, o ∈ R s ∧ o.price = b.lowerLimit + i := by
  rw [h.queue, mem_at]

theorem better_of_mem (h : RepresentsUpTo edges b R) (hR : R s = o :: l) {o' : Order}
    (ho' : o' ∈ R s) : better s o.price o'.price := by
  have hs := h.sorted s
  rw [hR] at hs ho'
  rcases List.mem_cons.1 ho' with rfl | ho'
  · exact better_refl s _
  · exact (List.pairwise_cons.1 hs).1 o' ho'

theorem heap_better (h : RepresentsUpTo edges b R) (s : OrderType) :
    (b.side s).nextPrice.Pairwise (better s) :=
  (h.heap_sorted s).imp And.left

theorem heap_nil (h : RepresentsUpTo edges b R) (hR : R s = []) :
    ∃ tl, (b.side s).nextPrice = (b.side s).defaultBestPrice :: tl := by
  refine eq_cons_of_best (h.heap_better s) ((h.heap_mem s _).2 (Or.inl rfl)) fun q hq => ?_
  rcases (h.heap_mem s q).1 hq with rfl | ⟨o, ho, -⟩
  · exact better_refl s _
  · rw [hR] at ho
    exact absurd ho List.not_mem_nil

theorem heap_cons (h : RepresentsUpTo edges b R) (hR : R s = o :: l) :
    ∃ tl, (b.side s).nextPrice = o.price :: tl := by
  refine eq_cons_of_best (h.heap_better s)
    ((h.heap_mem s _).2 (Or.inr ⟨o, hR ▸ List.mem_cons_self, rfl⟩)) fun q hq => ?_
  rcases (h.heap_mem s q).1 hq with rfl | ⟨o', ho', rfl⟩
  · exact (h.resting s o (hR ▸ List.mem_cons_self)).2.2.2.better_sentinel
  · exact h.better_of_mem hR ho'

/-- The level of the first resting order starts with it. -/
theorem queue_head (h : RepresentsUpTo edges b R) (hR : R s = o :: l) :
    b.queue (o.price - b.lowerLimit) = o :: l.filter fun o' => o'.price = o.price := by
  have ho : o ∈ R s := hR ▸ List.mem_cons_self
  have hv := (h.resting s o ho).2.2.2.valid
  have hi : b.lowerLimit + (o.price - b.lowerLimit) = o.price := Nat.add_sub_cancel' hv.1
  rw [h.queue, hi, at_eq_filter s fun o' ho' => h.price_ne ho ho', hR]
  simp

/-- It is what the matching loops read at its price. -/
theorem headAt_first (h : RepresentsUpTo edges b R) (hR : R s = o :: l) :
    b.headAt o.price = .ok o := by
  have hf := (h.resting s o (hR ▸ List.mem_cons_self)).2.2.2
  exact h.wf.headAt_ok hf.index hf.level (h.queue_head hR)

end RepresentsUpTo

/-- `cleanTop` stops at once at the sentinel or at a level with orders. -/
theorem OrderBook.bestprice_of_top {b : OrderBook} {s : OrderType} {p : ℕ} {tl : List ℕ}
    (hheap : (b.side s).nextPrice = p :: tl)
    (hstop : p = (b.side s).defaultBestPrice ∨
      ∃ i, b.levelOf p = .ok i ∧ (b.priceLevels i).isEmpty = false) :
    b.bestprice s = .ok (p, b) := by
  have hclean : b.cleanTop s (p :: tl) b.priceLevels = .ok (p :: tl, b.priceLevels) := by
    rw [OrderBook.cleanTop]
    split_ifs with hp
    · rfl
    · obtain ⟨i, hi, hne⟩ := hstop.resolve_left hp
      rw [hi]
      simp [bind, Except.bind, hne]
  rw [OrderBook.bestprice, hheap, hclean]
  simp only [bind, Except.bind]
  rw [← hheap, OrderBook.setSide, Function.update_eq_self]

/-- The book after `cleanTop` has popped the top `p` of a heap, whose level is `i`. -/
def OrderBook.popTop (b : OrderBook) (s : OrderType) (i : ℕ) (tl : List ℕ) : OrderBook :=
  { b.setSide s { b.side s with nextPrice := tl } with
    priceLevels := Function.update b.priceLevels i ((b.priceLevels i).setHeapEntry false) }

theorem OrderBook.sameFrame_popTop (b : OrderBook) (s : OrderType) (i : ℕ) (tl : List ℕ) :
    SameFrame b (b.popTop s i tl) :=
  ⟨rfl, rfl, rfl, rfl,
    (OrderBook.sameFrame_setSide b s { b.side s with nextPrice := tl } rfl).sentinel⟩

theorem OrderBook.WF.of_popTop {b : OrderBook} (h : b.WF) (s : OrderType) (i : ℕ)
    (tl : List ℕ) : (b.popTop s i tl).WF ∧ (∀ j, (b.popTop s i tl).queue j = b.queue j) ∧
      ∀ j, (b.popTop s i tl).flag j = true ↔ b.flag j = true ∧ j ≠ i := by
  have hsame := fun j => PriceQueues.setHeapEntry_same b.priceLevels i (b.priceLevels i) false j
  simp only [Function.update_eq_self] at hsame
  obtain ⟨hwf, hq⟩ := h.of_same (b.sameFrame_popTop s i tl) rfl rfl (fun j => (hsame j).1)
    (fun j => (hsame j).2.1) fun j => (hsame j).2.2
  refine ⟨hwf, hq, fun j => ?_⟩
  rcases eq_or_ne j i with rfl | hj
  · simp [OrderBook.flag, OrderBook.popTop, PriceQueues.setHeapEntry]
  · simp [OrderBook.flag, OrderBook.popTop, hj]

theorem OrderBook.cleanTop_congr {b b' : OrderBook} (h : SameFrame b b') (s : OrderType) :
    ∀ (heap : List ℕ) (levels : ℕ → PriceQueues), b'.cleanTop s heap levels =
      b.cleanTop s heap levels
  | [], _ => rfl
  | p :: heap, levels => by
    simp only [cleanTop, h.sentinel, h.levelOf, cleanTop_congr h s heap]

/-- A top whose level is empty is popped. -/
theorem OrderBook.bestprice_pop {b : OrderBook} {s : OrderType} {p i : ℕ} {tl : List ℕ}
    (hheap : (b.side s).nextPrice = p :: tl) (hp : p ≠ (b.side s).defaultBestPrice)
    (hi : b.levelOf p = .ok i) (hempty : (b.priceLevels i).isEmpty = true) :
    b.bestprice s = (b.popTop s i tl).bestprice s := by
  have hside : (b.popTop s i tl).side s = { b.side s with nextPrice := tl } := by
    simp [popTop, setSide]
  simp only [bestprice, hheap, hside, cleanTop_congr (b.sameFrame_popTop s i tl)]
  rw [cleanTop, if_neg hp, hi]
  simp only [bind, Except.bind, hempty, if_true]
  simp [popTop, setSide]

/-- The best price of a side is the price of its first resting order, or the sentinel. -/
theorem RepresentsUpTo.bestprice_eq {edges : Prop} {b : OrderBook} {R : Book}
    (h : RepresentsUpTo edges b R) (s : OrderType) :
    b.bestprice s = .ok (bestOf b s (R s), b) := by
  cases hR : R s with
  | nil =>
    obtain ⟨tl, htl⟩ := h.heap_nil hR
    exact OrderBook.bestprice_of_top htl (Or.inl rfl)
  | cons o l =>
    obtain ⟨tl, htl⟩ := h.heap_cons hR
    have hf := (h.resting s o (hR ▸ List.mem_cons_self)).2.2.2
    refine OrderBook.bestprice_of_top htl
      (Or.inr ⟨_, OrderBook.levelOf_ok hf.index hf.level, ?_⟩)
    rw [← Bool.not_eq_true, h.wf.isEmpty_iff, h.queue_head hR]
    simp

/-! ## Totals -/

theorem sub64_add (a c : ℕ) (ha : a < 2 ^ 64) : sub64 (c + a) c = a := by
  unfold sub64
  omega

theorem add64_eq {a c : ℕ} (h : a + c < 2 ^ 64) : add64 a c = a + c :=
  Nat.mod_eq_of_lt h

/-- Fewer than `2 ^ 31` quantities of 32 bits sum to less than `2 ^ 63`. -/
theorem sum_quantity_le (l : List Order) (h : ∀ o ∈ l, o.InRange) :
    (l.map Order.quantity).sum ≤ l.length * 2 ^ 32 := by
  induction l with
  | nil => simp
  | cons o l ih =>
    have ho : o.quantity < 2 ^ 32 := h o List.mem_cons_self
    have := ih fun o' ho' => h o' (List.mem_cons_of_mem _ ho')
    simp only [List.map_cons, List.sum_cons, List.length_cons]
    omega

namespace RepresentsUpTo

variable {edges : Prop} {b : OrderBook} {R : Book} {s : OrderType} {o : Order} {l : List Order}

theorem sum_lt (h : RepresentsUpTo edges b R) (s : OrderType) :
    ((R s).map Order.quantity).sum < 2 ^ 63 := by
  have hle := sum_quantity_le (R s) fun o ho => (h.resting s o ho).2.2.1
  have hused := h.wf.used_le
  have hcap : b.pool.capacity < 2 ^ 31 := by
    obtain ⟨level, free, hl⟩ := h.wf
    exact hl.capacity_lt
  have hsize := size_eq R s
  rw [h.used] at hused
  omega

theorem total_eq_zero_iff (h : RepresentsUpTo edges b R) (s : OrderType) :
    b.getTotalQty s = 0 ↔ R s = [] := by
  rw [OrderBook.getTotalQty, h.total s]
  constructor
  · intro h0
    cases hR : R s with
    | nil => rfl
    | cons o l =>
      have := (h.resting s o (hR ▸ List.mem_cons_self)).2.1
      rw [hR] at h0
      simp at h0
      omega
  · intro hR
    simp [hR]

theorem not_crossing (h : RepresentsUpTo edges b R) {o' : Order} (ho : o ∈ R s)
    (ho' : o' ∈ R s.opposite) :
    ¬better s.opposite o'.price o.price := by
  cases s with
  | buy => exact Nat.not_le_of_lt (h.uncrossed o ho o' ho')
  | sell => exact Nat.not_le_of_lt (h.uncrossed o' ho' o ho)

end RepresentsUpTo

/-! ## Changing a list at one price -/

/-- The book `b'` has the list `l` on side `s`, which is that of `b` but for the price `p`. -/
structure Changed (edges : Prop) (b b' : OrderBook) (R : Book) (s : OrderType) (p : ℕ)
    (l : List Order) : Prop where
  wf : b'.WF
  frame : OrderBook.SameFrame b b'
  other : b'.side s.opposite = b.side s.opposite
  low : b.lowerLimit ≤ p
  apart : ∀ o ∈ R s.opposite, o.price ≠ p
  queue : ∀ j, b'.queue j =
    if j = p - b.lowerLimit then l.filter fun o => o.price = p else b.queue j
  same : ∀ q, q ≠ p → (l.filter fun o => o.price = q) = (R s).filter fun o => o.price = q
  flagged : ∀ j, b'.queue j ≠ [] → b'.flag j = true
  stale : ∀ j, b'.flag j = true → b'.queue j = [] →
    edges ∧ ∃ r, b.lowerLimit + j = (b.side r).defaultBestPrice
  heap_sorted : (b'.side s).nextPrice.Pairwise fun p q =>
    better s p q ∧ (p = q → p = (b.side s).defaultBestPrice ∧ edges)
  heap_mem : ∀ q, q ∈ (b'.side s).nextPrice ↔
    q = (b.side s).defaultBestPrice ∨ ∃ o ∈ l, o.price = q
  total : (b'.side s).totalQty = (l.map Order.quantity).sum
  used : b'.pool.used + (R s).length = b.pool.used + l.length
  sorted : l.Pairwise fun o o' => better s o.price o'.price
  resting : ∀ o ∈ l, RestsUpTo edges b s o
  uncrossed : ∀ o ∈ l, ∀ o' ∈ R s.opposite, ¬better s.opposite o'.price o.price

namespace Changed

variable {edges : Prop} {b b' : OrderBook} {R : Book} {s : OrderType} {p : ℕ} {l : List Order}

theorem queue_eq (hc : Changed edges b b' R s p l) (h : RepresentsUpTo edges b R) (j : ℕ) :
    b'.queue j = Book.at (Function.update R s l) (b.lowerLimit + j) := by
  have hlow := hc.low
  rw [hc.queue j]
  by_cases hj : j = p - b.lowerLimit
  · have hp : b.lowerLimit + j = p := by omega
    rw [if_pos hj, hp, at_update s l hc.apart]
  · rw [if_neg hj, h.queue j, at_update_same s l (hc.same _ (by omega))]

theorem uncrossed_update (hc : Changed edges b b' R s p l) : ∀ o ∈ Function.update R s l .buy,
    ∀ o' ∈ Function.update R s l .sell, o.price < o'.price := by
  cases s with
  | buy =>
    intro o ho o' ho'
    exact Nat.lt_of_not_le (hc.uncrossed o (by simpa using ho) o' (by simpa using ho'))
  | sell =>
    intro o ho o' ho'
    exact Nat.lt_of_not_le (hc.uncrossed o' (by simpa using ho') o (by simpa using ho))

theorem represents (hc : Changed edges b b' R s p l) (h : RepresentsUpTo edges b R) :
    RepresentsUpTo edges b' (Function.update R s l) := by
  refine ⟨hc.wf, fun j => ?_, hc.flagged, fun j hf hn => ?_, fun r => ?_, fun r q => ?_,
    fun r => ?_, ?_, fun r => ?_, fun r o ho => ?_, hc.uncrossed_update⟩
  · rw [hc.frame.lower]
    exact hc.queue_eq h j
  · simp only [hc.frame.lower, hc.frame.sentinel]
    exact hc.stale j hf hn
  · rcases OrderType.eq_or_eq_opposite s r with rfl | rfl
    · rw [hc.frame.sentinel]
      exact hc.heap_sorted
    · rw [hc.other]
      exact h.heap_sorted _
  · rcases OrderType.eq_or_eq_opposite s r with rfl | rfl
    · rw [hc.heap_mem, hc.frame.sentinel, Function.update_self]
    · rw [hc.other, h.heap_mem]
      simp
  · rcases OrderType.eq_or_eq_opposite s r with rfl | rfl
    · rw [hc.total, Function.update_self]
    · rw [hc.other, h.total]
      simp
  · have hu := h.used
    have hused := hc.used
    rw [size_eq R s] at hu
    rw [size_update]
    omega
  · rcases OrderType.eq_or_eq_opposite s r with rfl | rfl
    · rw [Function.update_self]
      exact hc.sorted
    · simpa using h.sorted s.opposite
  · have hr : RestsUpTo edges b r o := by
      rcases OrderType.eq_or_eq_opposite s r with rfl | rfl
      · exact hc.resting o (by simpa using ho)
      · exact h.resting _ o (by simpa using ho)
    exact ⟨hr.1, hr.2.1, hr.2.2.1, hc.frame.fitsUpTo hr.2.2.2⟩

end Changed

/-! ## Filling the first order -/

namespace RepresentsUpTo

variable {edges : Prop} {b : OrderBook} {R : Book} {s : OrderType} {o : Order} {l : List Order}

/-- Dropping the first order of a side : what is left to show of the new book is its flags
and the heap of that side. -/
theorem drop (h : RepresentsUpTo edges b R) (hR : R s = o :: l) {b' : OrderBook} (hwf : b'.WF)
    (hframe : OrderBook.SameFrame b b')
    (hq : ∀ j, b'.queue j = if j = o.price - b.lowerLimit then
      l.filter fun o' => o'.price = o.price else b.queue j)
    (hflagged : ∀ j, b'.queue j ≠ [] → b'.flag j = true)
    (hstale : ∀ j, b'.flag j = true → b'.queue j = [] →
      edges ∧ ∃ r, b.lowerLimit + j = (b.side r).defaultBestPrice)
    (hsorted : (b'.side s).nextPrice.Pairwise fun p q =>
      better s p q ∧ (p = q → p = (b.side s).defaultBestPrice ∧ edges))
    (hmem : ∀ p, p ∈ (b'.side s).nextPrice ↔
      p = (b.side s).defaultBestPrice ∨ ∃ o' ∈ l, o'.price = p)
    (htotal : (b'.side s).totalQty = sub64 (b.side s).totalQty o.quantity)
    (hother : b'.side s.opposite = b.side s.opposite)
    (hused : b'.pool.used + 1 = b.pool.used) : RepresentsUpTo edges b' (Function.update R s l) := by
  have ho : o ∈ R s := hR ▸ List.mem_cons_self
  have hl : ∀ {o'}, o' ∈ l → o' ∈ R s := fun ho' => hR ▸ List.mem_cons_of_mem _ ho'
  have hsortedR := h.sorted s
  rw [hR] at hsortedR
  have hc : Changed edges b b' R s o.price l :=
    { wf := hwf
      frame := hframe
      other := hother
      low := (h.resting s o ho).2.2.2.valid.1
      apart := fun o' ho' => h.price_ne ho ho'
      queue := hq
      same := fun q hne => by simp [hR, hne.symm]
      flagged := hflagged
      stale := hstale
      heap_sorted := hsorted
      heap_mem := hmem
      total := by
        have hlt := h.sum_lt s
        rw [htotal, h.total, hR]
        rw [hR] at hlt
        simp only [List.map_cons, List.sum_cons] at hlt ⊢
        exact sub64_add _ _ (by omega)
      used := by
        rw [hR, List.length_cons]
        omega
      sorted := hsortedR.of_cons
      resting := fun o' ho' => h.resting s o' (hl ho')
      uncrossed := fun o' ho' o₂ ho₂ => h.not_crossing (hl ho') ho₂ }
  exact hc.represents h

/-- The heap below the price of the first order, when it was the only one at its price. -/
theorem mem_heap_tail (h : RepresentsUpTo edges b R) (hR : R s = o :: l) {tl : List ℕ}
    (htl : (b.side s).nextPrice = o.price :: tl) (hne : o.price ≠ (b.side s).defaultBestPrice)
    (hlast : ∀ o' ∈ l, o'.price ≠ o.price) (p : ℕ) :
    p ∈ tl ↔ p = (b.side s).defaultBestPrice ∨ ∃ o' ∈ l, o'.price = p := by
  have hnd : o.price ∉ tl := by
    have hs := h.heap_sorted s
    rw [htl] at hs
    intro hp
    exact hne (((List.pairwise_cons.1 hs).1 _ hp).2 rfl).1
  have hm := h.heap_mem s p
  rw [htl, hR] at hm
  by_cases hp : p = o.price
  · subst hp
    constructor
    · exact fun hp => absurd hp hnd
    · rintro (hp | ⟨o', ho', hp⟩)
      · exact absurd hp hne
      · exact absurd hp (hlast o' ho')
  · simpa [hp, Ne.symm hp] using hm

end RepresentsUpTo

/-- The book `b'` is `b` without the first order of side `s`, before its heap is looked at. -/
structure HeadRemoved (b b' : OrderBook) (s : OrderType) (o : Order) (l : List Order) : Prop where
  wf : b'.WF
  frame : OrderBook.SameFrame b b'
  queue : ∀ j, b'.queue j = if j = o.price - b.lowerLimit then
    l.filter fun o' => o'.price = o.price else b.queue j
  flag : ∀ j, b'.flag j = b.flag j
  side : b'.side s = { b.side s with totalQty := sub64 (b.side s).totalQty o.quantity }
  other : b'.side s.opposite = b.side s.opposite
  used : b'.pool.used + 1 = b.pool.used
  level : b'.levelOf o.price = .ok (o.price - b.lowerLimit)

namespace RepresentsUpTo

variable {edges : Prop} {b b₁ : OrderBook} {R : Book} {s : OrderType} {o : Order} {l : List Order}

theorem exists_headRemoved (h : RepresentsUpTo edges b R) (hR : R s = o :: l) :
    ∃ b₁, b.removeOrder s o.price = .ok (true, b₁) ∧ HeadRemoved b b₁ s o l := by
  have hf := (h.resting s o (hR ▸ List.mem_cons_self)).2.2.2
  obtain ⟨b₁, hrm, hwf, hframe, hq, hflag, hside, hused⟩ :=
    h.wf.removeOrder_spec s hf.index hf.level (h.queue_head hR)
  refine ⟨b₁, hrm, hwf, hframe, hq, hflag, ?_, ?_, hused, ?_⟩
  · rw [hside, Function.update_self]
  · rw [hside]
    simp
  · exact OrderBook.levelOf_ok ((hframe.priceToIndex _).trans hf.index)
      (hframe.levels ▸ hf.level)

/-- The level is empty : its price is popped and its flag cleared. -/
theorem bestprice_of_last (h : RepresentsUpTo edges b R) (hR : R s = o :: l)
    (hr : HeadRemoved b b₁ s o l)
    (hne : o.price ≠ (b.side s).defaultBestPrice) (hlast : ∀ o' ∈ l, o'.price ≠ o.price) :
    ∃ b₂, b₁.bestprice s = .ok (bestOf b s l, b₂) ∧ OrderBook.SameFrame b b₂ ∧
      (∀ j, b₂.flag j = true → b.flag j = true) ∧
      RepresentsUpTo edges b₂ (Function.update R s l) := by
  obtain ⟨tl, htl⟩ := h.heap_cons hR
  have hheap : (b₁.side s).nextPrice = o.price :: tl := by rw [hr.side, ← htl]
  have hnil : (l.filter fun o' => decide (o'.price = o.price)) = [] := by
    simpa [List.filter_eq_nil_iff] using hlast
  have hempty : (b₁.priceLevels (o.price - b.lowerLimit)).isEmpty = true := by
    rw [hr.wf.isEmpty_iff, hr.queue, if_pos rfl, hnil]
  set b₂ := b₁.popTop s (o.price - b.lowerLimit) tl with hb₂
  have hframe₂ : b₁.SameFrame b₂ := b₁.sameFrame_popTop s (o.price - b.lowerLimit) tl
  obtain ⟨hwf₂, hq₂, hflag₂⟩ := hr.wf.of_popTop s (o.price - b.lowerLimit) tl
  have hside₂ : b₂.side s = { b₁.side s with nextPrice := tl } := by
    simp [hb₂, OrderBook.popTop, OrderBook.setSide]
  have hrep : RepresentsUpTo edges b₂ (Function.update R s l) := by
    refine h.drop hR hwf₂ (hr.frame.trans hframe₂) (fun j => (hq₂ j).trans (hr.queue j))
      (fun j hne => ?_) (fun j hf hn => ?_) ?_ ?_ ?_ ?_ hr.used
    · rw [hq₂, hr.queue] at hne
      have hj : j ≠ o.price - b.lowerLimit := fun hj => by simp [hj, hnil] at hne
      rw [if_neg hj] at hne
      rw [hflag₂, hr.flag]
      exact ⟨h.flagged j hne, hj⟩
    · rw [hflag₂, hr.flag] at hf
      rw [hq₂, hr.queue, if_neg hf.2] at hn
      exact h.stale j hf.1 hn
    · have hs := h.heap_sorted s
      rw [htl] at hs
      rw [hside₂]
      exact hs.of_cons
    · rw [hside₂]
      exact h.mem_heap_tail hR htl hne hlast
    · rw [hside₂, hr.side]
    · simp [hb₂, OrderBook.popTop, OrderBook.setSide, hr.other]
  refine ⟨b₂, ?_, hr.frame.trans hframe₂, fun j hf => hr.flag j ▸ ((hflag₂ j).1 hf).1,
    hrep⟩
  rw [OrderBook.bestprice_pop hheap (by rw [hr.frame.sentinel]; exact hne) hr.level hempty,
    hrep.bestprice_eq s, Function.update_self]
  exact congrArg (fun p => Except.ok (p, b₂)) (bestOf_of_frame (hr.frame.trans hframe₂) s l)

/-- The next order is at the price of the first, if any is; the sentinel is the worst price. -/
theorem bestOf_tail (h : RepresentsUpTo edges b R) (hR : R s = o :: l)
    (hstay : o.price = (b.side s).defaultBestPrice ∨ ∃ o' ∈ l, o'.price = o.price) :
    bestOf b s l = o.price := by
  cases l with
  | nil =>
    refine (hstay.resolve_right ?_).symm
    rintro ⟨o', ho', -⟩
    exact List.not_mem_nil ho'
  | cons o₁ l =>
    have ho₁ : o₁ ∈ R s := by simp [hR]
    have h₁ := h.better_of_mem hR ho₁
    have hs := h.sorted s
    rw [hR] at hs
    rcases hstay with hsent | ⟨o', ho', hp⟩
    · have hworst := (h.resting s o₁ ho₁).2.2.2.better_sentinel
      rw [← hsent] at hworst
      exact better_antisymm hworst h₁
    · rcases List.mem_cons.1 ho' with rfl | ho'
      · exact hp
      · have h₂ := (List.pairwise_cons.1 hs.of_cons).1 o' ho'
        rw [hp] at h₂
        exact better_antisymm h₂ h₁

/-- Another order waits at the same price, or it is the sentinel : the top stays. -/
theorem bestprice_of_stay (h : RepresentsUpTo edges b R) (hR : R s = o :: l)
    (hr : HeadRemoved b b₁ s o l)
    (hstay : o.price = (b.side s).defaultBestPrice ∨ ∃ o' ∈ l, o'.price = o.price) :
    b₁.bestprice s = .ok (bestOf b s l, b₁) ∧
      RepresentsUpTo edges b₁ (Function.update R s l) := by
  have hf := (h.resting s o (hR ▸ List.mem_cons_self)).2.2.2
  obtain ⟨tl, htl⟩ := h.heap_cons hR
  have hheap : (b₁.side s).nextPrice = o.price :: tl := by rw [hr.side, ← htl]
  have hmore : (∃ o' ∈ l, o'.price = o.price) →
      (l.filter fun o' => decide (o'.price = o.price)) ≠ [] := by
    rintro ⟨o', ho', hp⟩ hnil
    exact List.filter_eq_nil_iff.1 hnil o' ho' (decide_eq_true hp)
  refine ⟨?_, h.drop hR hr.wf hr.frame hr.queue (fun j hne => ?_) (fun j hfl hn => ?_) ?_
    (fun p => ?_) ?_ hr.other hr.used⟩
  · rw [h.bestOf_tail hR hstay]
    refine OrderBook.bestprice_of_top hheap (hstay.imp (fun hsent => ?_) fun ho' => ?_)
    · rw [hr.frame.sentinel, hsent]
    · refine ⟨_, hr.level, ?_⟩
      rw [← Bool.not_eq_true, hr.wf.isEmpty_iff, hr.queue, if_pos rfl]
      exact hmore ho'
  · rw [hr.flag]
    refine h.flagged j ?_
    by_cases hj : j = o.price - b.lowerLimit
    · rw [hj, h.queue_head hR]
      exact List.cons_ne_nil _ _
    · rwa [hr.queue, if_neg hj] at hne
  · by_cases hj : j = o.price - b.lowerLimit
    · rw [hr.queue, if_pos hj] at hn
      have hsent := hstay.resolve_right fun ho' => hmore ho' hn
      have hlow := hf.valid.1
      exact ⟨hf.at_sentinel hsent, s, by omega⟩
    · rw [hr.flag] at hfl
      rw [hr.queue, if_neg hj] at hn
      exact h.stale j hfl hn
  · rw [hheap, ← htl]
    exact h.heap_sorted s
  · rw [hheap, ← htl, h.heap_mem, hR]
    constructor
    · rintro (rfl | ⟨o₁, ho₁, rfl⟩)
      · exact Or.inl rfl
      · rcases List.mem_cons.1 ho₁ with rfl | ho₁
        · exact hstay
        · exact Or.inr ⟨o₁, ho₁, rfl⟩
    · rintro (rfl | ⟨o₁, ho₁, rfl⟩)
      · exact Or.inl rfl
      · exact Or.inr ⟨o₁, List.mem_cons_of_mem _ ho₁, rfl⟩
  · rw [hr.side]

/-- Removing the first order of a side and asking for the best price. No level gets a flag. -/
theorem fillHead_spec (h : RepresentsUpTo edges b R) (hR : R s = o :: l) :
    ∃ b₁ b₂, b.removeOrder s o.price = .ok (true, b₁) ∧
      b₁.bestprice s = .ok (bestOf b s l, b₂) ∧ OrderBook.SameFrame b b₂ ∧
      (∀ j, b₂.flag j = true → b.flag j = true) ∧
      RepresentsUpTo edges b₂ (Function.update R s l) := by
  obtain ⟨b₁, hrm, hr⟩ := h.exists_headRemoved hR
  by_cases hstay : o.price = (b.side s).defaultBestPrice ∨ ∃ o' ∈ l, o'.price = o.price
  · obtain ⟨hbest, hrep⟩ := h.bestprice_of_stay hR hr hstay
    exact ⟨b₁, b₁, hrm, hbest, hr.frame, fun j hf => hr.flag j ▸ hf, hrep⟩
  · push Not at hstay
    obtain ⟨b₂, hbest, hframe, hflag, hrep⟩ := h.bestprice_of_last hR hr hstay.1 hstay.2
    exact ⟨b₁, b₂, hrm, hbest, hframe, hflag, hrep⟩

/-- A partial fill of the first order of a side by `q` units. No flag changes. -/
theorem shrinkHead_spec (h : RepresentsUpTo edges b R) (hR : R s = o :: l) {q : ℕ}
    (hq : q < o.quantity) : ∃ b', b.modifyQuantity o.price (o.quantity - q) = .ok (true, b') ∧
      OrderBook.SameFrame b (b'.decreaseTotalQty s q) ∧
      (∀ j, (b'.decreaseTotalQty s q).flag j = b.flag j) ∧
      RepresentsUpTo edges (b'.decreaseTotalQty s q)
        (Function.update R s ({ o with quantity := o.quantity - q } :: l)) := by
  have ho : o ∈ R s := hR ▸ List.mem_cons_self
  have hf := (h.resting s o ho).2.2.2
  obtain ⟨b₁, hmod, hwf, hframe, hqueue, hlevels, hside, hused⟩ :=
    h.wf.modifyQuantity_spec hf.index hf.level (h.queue_head hR) (o.quantity - q)
  set b₂ := b₁.decreaseTotalQty s q with hb₂
  have hframe₂ : b₁.SameFrame b₂ := b₁.sameFrame_setSide s _ rfl
  obtain ⟨hwf₂, hq₂⟩ := hwf.of_same hframe₂ rfl rfl (fun _ => rfl) (fun _ => rfl)
    fun _ => rfl
  have hside_s : b₂.side s = { b.side s with totalQty := sub64 (b.side s).totalQty q } := by
    simp [hb₂, OrderBook.decreaseTotalQty, OrderBook.setSide, hside]
  have hother : b₂.side s.opposite = b.side s.opposite := by
    simp [hb₂, OrderBook.decreaseTotalQty, OrderBook.setSide, hside]
  have hs := h.sorted s
  rw [hR] at hs
  have hl : ∀ {o'}, o' ∈ l → o' ∈ R s := fun ho' => hR ▸ List.mem_cons_of_mem _ ho'
  have hflag : ∀ j, b₂.flag j = b.flag j := fun j => by
    simp [OrderBook.flag, hb₂, OrderBook.decreaseTotalQty, OrderBook.setSide, hlevels]
  have hlevel : ∀ j, b.queue j = [] → j ≠ o.price - b.lowerLimit := by
    rintro j hn rfl
    rw [h.queue_head hR] at hn
    exact List.cons_ne_nil _ _ hn
  have hc : Changed edges b b₂ R s o.price ({ o with quantity := o.quantity - q } :: l) :=
    { wf := hwf₂
      frame := hframe.trans hframe₂
      other := hother
      low := hf.valid.1
      apart := fun o' ho' => h.price_ne ho ho'
      queue := fun j => by
        rw [hq₂, hqueue]
        simp
      same := fun p hne => by simp [hR, hne.symm]
      flagged := fun j hne => by
        rw [hflag]
        refine h.flagged j fun hn => hne ?_
        rw [hq₂, hqueue, if_neg (hlevel j hn), hn]
      stale := fun j hfl hn => by
        rw [hflag] at hfl
        have hj : j ≠ o.price - b.lowerLimit := fun hj => by simp [hq₂, hqueue, hj] at hn
        rw [hq₂, hqueue, if_neg hj] at hn
        exact h.stale j hfl hn
      heap_sorted := by
        rw [hside_s]
        exact h.heap_sorted s
      heap_mem := fun p => by
        rw [hside_s]
        simpa [hR] using h.heap_mem s p
      total := by
        have hlt := h.sum_lt s
        rw [hside_s]
        simp only [h.total, hR, List.map_cons, List.sum_cons] at hlt ⊢
        have hsplit : o.quantity + (l.map Order.quantity).sum =
            q + (o.quantity - q + (l.map Order.quantity).sum) := by omega
        rw [hsplit]
        exact sub64_add _ _ (by omega)
      used := by
        rw [hR, List.length_cons, List.length_cons]
        exact congrArg (· + (l.length + 1)) hused
      sorted := List.pairwise_cons.2 ⟨(List.pairwise_cons.1 hs).1, hs.of_cons⟩
      resting := fun o' ho' => by
        rcases List.mem_cons.1 ho' with rfl | ho'
        · have hr := h.resting s o ho
          exact ⟨hr.1, Nat.sub_pos_of_lt hq, lt_of_le_of_lt (Nat.sub_le _ _) hr.2.2.1, hf⟩
        · exact h.resting s o' (hl ho')
      uncrossed := fun o' ho' o₂ ho₂ => by
        rcases List.mem_cons.1 ho' with rfl | ho'
        · have hno := h.not_crossing ho ho₂
          exact hno
        · exact h.not_crossing (hl ho') ho₂ }
  exact ⟨b₁, hmod, hframe.trans hframe₂, hflag, hc.represents h⟩

end RepresentsUpTo

/-! ## Resting an order -/

namespace PriceTime

theorem mem_insert {s : OrderType} {o o' : Order} {l : List Order} :
    o' ∈ insert s o l ↔ o' = o ∨ o' ∈ l :=
  List.mem_orderedInsert _

theorem insert_cons (s : OrderType) (o a : Order) (l : List Order) :
    insert s o (a :: l) = if better s a.price o.price then a :: insert s o l else o :: a :: l := by
  rw [insert, List.orderedInsert_cons, ite_not]
  rfl

theorem pairwise_insert {s : OrderType} (o : Order) : ∀ {l : List Order},
    l.Pairwise (fun o o' => better s o.price o'.price) →
      (insert s o l).Pairwise fun o o' => better s o.price o'.price
  | [], _ => List.pairwise_singleton _ _
  | a :: l, h => by
    have ha := (List.pairwise_cons.1 h).1
    rw [insert_cons]
    split_ifs with hc
    · refine List.pairwise_cons.2 ⟨fun o' ho' => ?_, pairwise_insert o h.of_cons⟩
      rcases mem_insert.1 ho' with rfl | ho'
      · exact hc
      · exact ha o' ho'
    · have hao : better s o.price a.price := (better_total s _ _).resolve_right hc
      refine List.pairwise_cons.2 ⟨fun o' ho' => ?_, h⟩
      rcases List.mem_cons.1 ho' with rfl | ho'
      · exact hao
      · exact better_trans hao (ha o' ho')

/-- An order goes behind the others at its price and leaves the other prices alone. -/
theorem filter_insert {s : OrderType} (o : Order) (p : ℕ) : ∀ {l : List Order},
    l.Pairwise (fun o o' => better s o.price o'.price) →
      ((insert s o l).filter fun o' => o'.price = p) =
        (l.filter fun o' => o'.price = p) ++ if o.price = p then [o] else []
  | [], _ => by
    by_cases hp : o.price = p <;> simp [insert, hp]
  | a :: l, h => by
    have ha := (List.pairwise_cons.1 h).1
    rw [insert_cons]
    by_cases hc : better s a.price o.price
    · rw [if_pos hc, List.filter_cons, filter_insert o p h.of_cons, List.filter_cons]
      split_ifs <;> simp
    · have hnone : ∀ o' ∈ a :: l, o'.price ≠ o.price := by
        intro o' ho' e
        rcases List.mem_cons.1 ho' with rfl | ho'
        · exact hc (e ▸ better_refl s _)
        · exact hc (e ▸ ha o' ho')
      rw [if_neg hc, List.filter_cons]
      by_cases hp : o.price = p
      · have hnil : ((a :: l).filter fun o' => decide (o'.price = p)) = [] := by
          rw [List.filter_eq_nil_iff]
          intro o' ho'
          simpa [← hp] using hnone o' ho'
        simp [hnil, hp]
      · simp [hp]

theorem length_insert (s : OrderType) (o : Order) (l : List Order) :
    (insert s o l).length = l.length + 1 :=
  List.orderedInsert_length _ _ _

theorem sum_insert (s : OrderType) (o : Order) (l : List Order) :
    ((insert s o l).map Order.quantity).sum = (l.map Order.quantity).sum + o.quantity := by
  have := ((List.perm_orderedInsert (fun o o' => ¬better s o'.price o.price) o l).map
    Order.quantity).sum_nat
  simp only [List.map_cons, List.sum_cons] at this
  rw [insert, this]
  omega

end PriceTime

/-- A price keeps a heap sorted, if only the prices in `E` may come twice. -/
theorem pairwise_push_of {s : OrderType} {E : ℕ → Prop} {p : ℕ} : ∀ {heap : List ℕ},
    (p ∈ heap → E p) → heap.Pairwise (fun p q => better s p q ∧ (p = q → E p)) →
      (heap.orderedInsert (better s) p).Pairwise fun p q => better s p q ∧ (p = q → E p)
  | [], _, _ => List.pairwise_singleton _ _
  | a :: heap, hp, h => by
    have ha := (List.pairwise_cons.1 h).1
    rw [List.orderedInsert_cons]
    split_ifs with hc
    · refine List.pairwise_cons.2 ⟨fun q hq => ⟨?_, fun e => hp (e ▸ hq)⟩, h⟩
      rcases List.mem_cons.1 hq with rfl | hq'
      · exact hc
      · exact better_trans hc (ha q hq').1
    · refine List.pairwise_cons.2 ⟨fun q hq => ?_, pairwise_push_of (fun hq =>
        hp (List.mem_cons_of_mem _ hq)) h.of_cons⟩
      rcases (List.mem_orderedInsert _).1 hq with rfl | hq
      · exact ⟨(better_total s _ _).resolve_left hc,
          fun e => e ▸ hp (e ▸ List.mem_cons_self)⟩
      · exact ha q hq

/-- A new price keeps a heap strictly sorted. -/
theorem pairwise_push {s : OrderType} {p : ℕ} {heap : List ℕ} (hp : p ∉ heap)
    (h : heap.Pairwise fun p q => better s p q ∧ p ≠ q) :
    (heap.orderedInsert (better s) p).Pairwise fun p q => better s p q ∧ p ≠ q :=
  pairwise_push_of (E := fun _ => False) hp h

namespace RepresentsUpTo

variable {edges : Prop} {b : OrderBook} {R : Book} {t : OrderType} {o : Order}

/-- The orders of the level that an order goes to. -/
theorem queue_of_resting (h : RepresentsUpTo edges b R) (ho : RestsUpTo edges b t o)
    (hopp : ∀ o' ∈ R t.opposite, o'.price ≠ o.price) :
    b.queue (o.price - b.lowerLimit) = (R t).filter fun o' => o'.price = o.price := by
  have hlow : b.lowerLimit ≤ o.price := ho.2.2.2.valid.1
  rw [h.queue, Nat.add_sub_cancel' hlow, at_eq_filter t hopp]

/-- The heap of a side after an order is added : its price is in it, unless the level was flagged
for the other side. -/
theorem push_spec (h : RepresentsUpTo edges b R) (ho : RestsUpTo edges b t o)
    (hopp : ∀ o' ∈ R t.opposite, o'.price ≠ o.price)
    (hseen : edges → o.price = (b.side t.opposite).defaultBestPrice →
      b.flag (o.price - b.lowerLimit) = true → b.queue (o.price - b.lowerLimit) ≠ [])
        {heap : List ℕ}
    (hheap : heap = if b.queue (o.price - b.lowerLimit) = [] ∧
        b.flag (o.price - b.lowerLimit) = false then
      (b.side t).nextPrice.orderedInsert (better t) o.price else (b.side t).nextPrice) :
    (heap.Pairwise fun p q =>
        better t p q ∧ (p = q → p = (b.side t).defaultBestPrice ∧ edges)) ∧
      ∀ p, p ∈ heap ↔ p = o.price ∨ p ∈ (b.side t).nextPrice := by
  have hqueue := h.queue_of_resting ho hopp
  have hf := ho.2.2.2
  rw [hheap]
  split_ifs with hpush
  · refine ⟨pairwise_push_of (fun hin => ?_) (h.heap_sorted t),
      fun p => List.mem_orderedInsert _⟩
    rcases (h.heap_mem t _).1 hin with hp | ⟨o', ho', hp⟩
    · exact ⟨hp, hf.at_sentinel hp⟩
    · have hnil := hqueue.symm.trans hpush.1
      exact absurd (decide_eq_true hp) (List.filter_eq_nil_iff.1 hnil o' ho')
  · have hin : o.price ∈ (b.side t).nextPrice := by
      rw [h.heap_mem]
      by_cases hnil : b.queue (o.price - b.lowerLimit) = []
      · -- a level that is empty and flagged is that of a sentinel
        have hflag : b.flag (o.price - b.lowerLimit) = true := by
          rw [← Bool.not_eq_false]
          exact fun hf => hpush ⟨hnil, hf⟩
        obtain ⟨hedges, r, hr⟩ := h.stale _ hflag hnil
        rw [Nat.add_sub_cancel' hf.valid.1] at hr
        rcases OrderType.eq_or_eq_opposite t r with rfl | rfl
        · exact Or.inl hr
        · exact absurd hnil (hseen hedges hr hflag)
      · obtain ⟨o', ho'⟩ := List.exists_mem_of_ne_nil _ hnil
        rw [hqueue, List.mem_filter, decide_eq_true_iff] at ho'
        exact Or.inr ⟨o', ho'⟩
    refine ⟨h.heap_sorted t, fun p => ⟨Or.inr, ?_⟩⟩
    rintro (rfl | hp)
    · exact hin
    · exact hp

/-- An order that does not cross the book is inserted in its list. -/
theorem insert_spec (h : RepresentsUpTo edges b R) (ho : RestsUpTo edges b t o)
    (hfresh : ∀ r, ∀ o' ∈ R r, o'.orderId ≠ o.orderId)
    (hcross : ∀ o' ∈ R t.opposite, ¬better t.opposite o'.price o.price)
    (hseen : edges → o.price = (b.side t.opposite).defaultBestPrice →
      b.flag (o.price - b.lowerLimit) = true → b.queue (o.price - b.lowerLimit) ≠ [])
    (hfree : R.size < b.pool.capacity) :
    ∃ b', b.addOrder t o = .ok (true, b') ∧ OrderBook.SameFrame b b' ∧
      RepresentsUpTo edges b' (Function.update R t (PriceTime.insert t o (R t))) := by
  have hf := ho.2.2.2
  have hopp : ∀ o' ∈ R t.opposite, o'.price ≠ o.price := fun o' ho' e =>
    hcross o' ho' (e ▸ better_refl _ _)
  have hids : ∀ j, ∀ o' ∈ b.queue j, o'.orderId ≠ o.orderId := by
    intro j o' ho'
    obtain ⟨r, hr, -⟩ := h.mem_queue.1 ho'
    exact hfresh r o' hr
  obtain ⟨b', hadd, hwf, hframe, hq, hflag, hside, hused⟩ :=
    h.wf.addOrder_spec (s := t) (h.used ▸ hfree) hf.index hf.level hids
  have hheap := congrArg BookSide.nextPrice (congrFun hside t)
  rw [Function.update_self] at hheap
  obtain ⟨hsorted, hmem⟩ := h.push_spec ho hopp hseen hheap
  have hc : Changed edges b b' R t o.price (PriceTime.insert t o (R t)) :=
    { wf := hwf
      frame := hframe
      other := by
        rw [hside]
        simp
      low := hf.valid.1
      apart := hopp
      queue := fun j => by
        rw [hq, filter_insert o _ (h.sorted t), if_pos rfl, ← h.queue_of_resting ho hopp]
      same := fun p hne => by
        rw [filter_insert o _ (h.sorted t), if_neg hne.symm, List.append_nil]
      flagged := fun j hne => by
        rw [hflag]
        split_ifs with hj
        · rfl
        · rw [hq, if_neg hj] at hne
          exact h.flagged j hne
      stale := fun j hfl hn => by
        have hj : j ≠ o.price - b.lowerLimit := fun hj => by simp [hq, hj] at hn
        rw [hflag, if_neg hj] at hfl
        rw [hq, if_neg hj] at hn
        exact h.stale j hfl hn
      heap_sorted := hsorted
      heap_mem := fun p => by
        rw [hmem, h.heap_mem]
        simp only [PriceTime.mem_insert]
        constructor
        · rintro (rfl | rfl | ⟨o', ho', rfl⟩)
          · exact Or.inr ⟨o, Or.inl rfl, rfl⟩
          · exact Or.inl rfl
          · exact Or.inr ⟨o', Or.inr ho', rfl⟩
        · rintro (rfl | ⟨o', rfl | ho', rfl⟩)
          · exact Or.inr (Or.inl rfl)
          · exact Or.inl rfl
          · exact Or.inr (Or.inr ⟨o', ho', rfl⟩)
      total := by
        have hlt := h.sum_lt t
        have hquantity : o.quantity < 2 ^ 32 := ho.2.2.1
        rw [hside, Function.update_self, PriceTime.sum_insert]
        simp only [h.total]
        exact add64_eq (by omega)
      used := by
        rw [PriceTime.length_insert, hused]
        omega
      sorted := pairwise_insert o (h.sorted t)
      resting := fun o' ho' => by
        rcases PriceTime.mem_insert.1 ho' with rfl | ho'
        · exact ho
        · exact h.resting t o' ho'
      uncrossed := fun o' ho' o₂ ho₂ => by
        rcases PriceTime.mem_insert.1 ho' with rfl | ho'
        · exact hcross o₂ ho₂
        · exact h.not_crossing ho' ho₂ }
  exact ⟨b', hadd, hframe, hc.represents h⟩

end RepresentsUpTo

/-! ## Away from the sentinels -/

namespace Represents

variable {b : OrderBook} {R : Book} {s : OrderType} {o : Order} {l : List Order}

theorem price_ne (h : Represents b R) {o' : Order} (ho : o ∈ R s) (ho' : o' ∈ R s.opposite) :
    o'.price ≠ o.price :=
  (represents_iff.1 h).price_ne ho ho'

theorem headAt_first (h : Represents b R) (hR : R s = o :: l) : b.headAt o.price = .ok o :=
  (represents_iff.1 h).headAt_first hR

theorem bestprice_eq (h : Represents b R) (s : OrderType) :
    b.bestprice s = .ok (bestOf b s (R s), b) :=
  (represents_iff.1 h).bestprice_eq s

theorem total_eq_zero_iff (h : Represents b R) (s : OrderType) : b.getTotalQty s = 0 ↔ R s = [] :=
  (represents_iff.1 h).total_eq_zero_iff s

/-- Removing the first order of a side and asking for the best price. -/
theorem fillHead_spec (h : Represents b R) (hR : R s = o :: l) :
    ∃ b₁ b₂, b.removeOrder s o.price = .ok (true, b₁) ∧
      b₁.bestprice s = .ok (bestOf b s l, b₂) ∧ OrderBook.SameFrame b b₂ ∧
      Represents b₂ (Function.update R s l) := by
  obtain ⟨b₁, b₂, hrm, hbest, hframe, -, hrep⟩ := (represents_iff.1 h).fillHead_spec hR
  exact ⟨b₁, b₂, hrm, hbest, hframe, represents_iff.2 hrep⟩

end Represents

end TradeX
