import TradeX.BookCalls

/-!
# Best prices under cancellation

Neither a cancel nor a removal cleans up behind itself : the price of a level they empty
stays in the heap of its side, and the level keeps its flag, until the price comes to the top
of that heap. There is one flag for the two sides. An order that goes to an empty level which
is still flagged is not pushed, and if the old price is in the other heap, `bestprice` never
finds it (`sell_unseen`). `run_bestprice_exact` says that this is all that goes wrong.
-/

namespace TradeX

namespace SidedBook

variable {st st' : SidedBook} {s : OrderType} {o : Order} {i : ℕ}

/-! ## What is exact -/

/-- The price just outside the band, on the side away from the other orders. -/
def sentinelOf (lower upper : ℕ) : OrderType → ℕ
  | .buy => lower - 1
  | .sell => upper + 1

/-- `p` is the best price at which an order of side `s` rests, or the sentinel if none does. -/
def IsBest (st : SidedBook) (s : OrderType) (sentinel p : ℕ) : Prop :=
  (∃ o ∈ st.resting s, o.price = p ∧ ∀ o' ∈ st.resting s, better s p o'.price) ∨
    st.resting s = [] ∧ p = sentinel

/-- The calls are in order : ids are fresh, prices are in the band, no order crosses the other
side, and orders are removed where their side rests. -/
def Legal (st : SidedBook) : BookOp → Prop
  | .add s order => (∀ o ∈ st.book.orders, o.orderId ≠ order.orderId) ∧
      st.book.isPriceValid order.price ∧
      ∀ o ∈ st.resting s.opposite, ¬ better s.opposite o.price order.price
  | .remove s price => ∃ o ∈ st.resting s, o.price = price
  | _ => True

/-- Level `i` is not an empty one that is flagged for an entry of the other heap, nor one with
orders of another price. -/
def OwnLevel (st : SidedBook) (s : OrderType) (order : Order) (i : ℕ) : Prop :=
  (st.book.queue i = [] → st.book.flag i = true →
    order.price ∈ (st.book.side s).nextPrice) ∧ ∀ o ∈ st.book.queue i, o.price = order.price

/-- An order that the book has room for goes to a level of its own. -/
def OwnEntry (st : SidedBook) : BookOp → Prop
  | .add s order => st.book.pool.used < st.book.pool.capacity →
      ∀ i ∈ (st.book.levelOf order.price).toOption, st.OwnLevel s order i
  | _ => True

instance (st : SidedBook) : ∀ op, Decidable (st.Legal op)
  | .add _ _ => inferInstanceAs (Decidable (_ ∧ _ ∧ _))
  | .remove _ _ => inferInstanceAs (Decidable (∃ o ∈ _, _))
  | .cancel _ => inferInstanceAs (Decidable True)
  | .best _ => inferInstanceAs (Decidable True)

instance (st : SidedBook) (s : OrderType) (order : Order) (i : ℕ) :
    Decidable (st.OwnLevel s order i) :=
  inferInstanceAs (Decidable ((_ → _ → _) ∧ ∀ o ∈ _, _))

instance (st : SidedBook) : ∀ op, Decidable (st.OwnEntry op)
  | .add _ _ => inferInstanceAs (Decidable (_ → ∀ i ∈ _, _))
  | .remove _ _ => inferInstanceAs (Decidable True)
  | .cancel _ => inferInstanceAs (Decidable True)
  | .best _ => inferInstanceAs (Decidable True)

/-- A price in a heap that is not its sentinel. -/
def Entry (st : SidedBook) (s : OrderType) (p : ℕ) : Prop :=
  p ∈ (st.book.side s).nextPrice ∧ p ≠ (st.book.side s).defaultBestPrice

/-- Every resting order has its price in the heap of its side, and no two entries of the heaps
have one level. -/
structure Indexed (st : SidedBook) : Prop where
  wf : st.book.WF
  band : ∀ s p, st.book.isPriceValid p → better s p (st.book.side s).defaultBestPrice ∧
    p ≠ (st.book.side s).defaultBestPrice
  sentinel : ∀ s, (st.book.side s).defaultBestPrice ∈ (st.book.side s).nextPrice
  sorted : ∀ s, (st.book.side s).nextPrice.Pairwise fun p q => better s p q ∧ p ≠ q
  entry : ∀ {s p}, st.Entry s p → ∃ i : ℕ, i < st.book.numPriceLevels ∧
    st.book.priceToIndex p = i ∧ st.book.flag i = true
  unique : ∀ {s p s' p'}, st.Entry s p → st.Entry s' p' →
    st.book.priceToIndex p = st.book.priceToIndex p' → s = s' ∧ p = p'
  resting : ∀ i, ∀ o ∈ st.book.queue i, st.book.isPriceValid o.price ∧
    o.price ∈ (st.book.side (st.sideOf o.orderId)).nextPrice

theorem Indexed.entry_of_mem (h : Indexed st) (ho : o ∈ st.book.queue i) :
    st.Entry (st.sideOf o.orderId) o.price :=
  ⟨(h.resting i o ho).2, (h.band _ _ (h.resting i o ho).1).2⟩

/-- Taking an order out leaves its entry behind. -/
theorem Indexed.of_taken (h : Indexed st) {charged : Option OrderType}
    (ht : Taken st st' i o charged) : Indexed st' := by
  have hentry : ∀ {s p}, st'.Entry s p → st.Entry s p := by
    intro s p hp
    rwa [Entry, ht.heap, ht.frame.sentinel] at hp
  refine ⟨ht.wf, fun s p hp => ?_, fun s => ?_, fun s => ?_, fun {s p} hp => ?_,
    fun hp hp' hidx => ?_, fun j o' ho' => ?_⟩
  · rw [ht.frame.sentinel]
    exact h.band s p ((ht.frame.isPriceValid_iff p).1 hp)
  · rw [ht.frame.sentinel, ht.heap]
    exact h.sentinel s
  · rw [ht.heap]
    exact h.sorted s
  · obtain ⟨j, hj, hidx, hflag⟩ := h.entry (hentry hp)
    exact ⟨j, ht.frame.levels ▸ hj, (ht.frame.priceToIndex p).trans hidx,
      (ht.flag j).trans hflag⟩
  · rw [ht.frame.priceToIndex, ht.frame.priceToIndex] at hidx
    exact h.unique (hentry hp) (hentry hp') hidx
  · rw [ht.frame.isPriceValid_iff, ht.heap, ht.sideOf]
    exact h.resting j o' (ht.mem_of_mem ho')

/-- The price of an order is in the heap of its side when the order has been added. -/
theorem Indexed.mem_heap_of_added (h : Indexed st) (ha : Added st st' s o i)
    (hlegal : st.Legal (.add s o)) (hown : st.OwnEntry (.add s o)) :
    o.price ∈ (st'.book.side s).nextPrice := by
  rw [ha.side, Function.update_self]
  simp only
  split_ifs with hpush
  · exact (List.mem_orderedInsert _).2 (Or.inl rfl)
  · have hlevel : i ∈ (st.book.levelOf o.price).toOption := by
      rw [OrderBook.levelOf_ok ha.index ha.level]
      rfl
    obtain ⟨hempty, hsame⟩ := hown ha.room i hlevel
    cases hq : st.book.queue i with
    | nil =>
      have hflag : st.book.flag i = true := by
        rw [← Bool.not_eq_false]
        exact fun hf => hpush ⟨hq, hf⟩
      exact hempty hq hflag
    | cons o' l =>
      -- an order of the other side at this price would be crossed
      have ho' : o' ∈ st.book.queue i := hq ▸ List.mem_cons_self
      have hprice := hsame o' ho'
      rcases OrderType.eq_or_eq_opposite s (st.sideOf o'.orderId) with hside | hside
      · rw [← hprice, ← hside]
        exact (h.resting i o' ho').2
      · have hcross := hlegal.2.2 o' ((mem_resting h.wf).2 ⟨⟨i, ho'⟩, hside⟩)
        rw [hprice] at hcross
        exact absurd (better_refl _ _) hcross

/-- What is pushed has no entry yet, since its level is not flagged. -/
theorem Indexed.not_entry (h : Indexed st) (hflag : st.book.flag i = false) {p : ℕ}
    (hp : st.Entry s p) : st.book.priceToIndex p ≠ i := by
  intro hpi
  obtain ⟨j, -, hpj, hj⟩ := h.entry hp
  obtain rfl : j = i := by exact_mod_cast hpj.symm.trans hpi
  simp [hflag] at hj

theorem Added.mem_heap (ha : Added st st' s o i) (hmem : o.price ∈ (st'.book.side s).nextPrice)
    (r : OrderType) (p : ℕ) : p ∈ (st'.book.side r).nextPrice ↔
      p ∈ (st.book.side r).nextPrice ∨ r = s ∧ p = o.price := by
  rcases eq_or_ne r s with rfl | hr
  · rw [ha.side, Function.update_self] at hmem ⊢
    simp only at hmem ⊢
    split_ifs at hmem ⊢
    · simp [List.mem_orderedInsert, or_comm]
    · grind
  · rw [ha.side, Function.update_of_ne hr]
    simp [hr]

/-- The entry of an added order is the only one of its level. -/
theorem Indexed.entry_of_added (h : Indexed st) (ha : Added st st' s o i)
    (hlegal : st.Legal (.add s o)) (hown : st.OwnEntry (.add s o)) {r : OrderType} {p : ℕ}
    (hp : st.Entry r p) (hpi : st.book.priceToIndex p = st.book.priceToIndex o.price) :
    r = s ∧ p = o.price := by
  have hmem := h.mem_heap_of_added ha hlegal hown
  rw [ha.side, Function.update_self] at hmem
  simp only at hmem
  split_ifs at hmem with hc
  · exact absurd (hpi.trans ha.index) (h.not_entry hc.2 hp)
  · exact h.unique hp ⟨hmem, (h.band s _ hlegal.2.1).2⟩ hpi

theorem Indexed.sorted_of_added (h : Indexed st) (ha : Added st st' s o i)
    (hlegal : st.Legal (.add s o)) (r : OrderType) :
    (st'.book.side r).nextPrice.Pairwise fun p q => better r p q ∧ p ≠ q := by
  rcases eq_or_ne r s with rfl | hr
  · rw [ha.side, Function.update_self]
    simp only
    split_ifs with hc
    · have hnot : o.price ∉ (st.book.side r).nextPrice := fun hin =>
        h.not_entry hc.2 ⟨hin, (h.band r _ hlegal.2.1).2⟩ ha.index
      exact pairwise_push hnot (h.sorted r)
    · exact h.sorted r
  · rw [ha.side, Function.update_of_ne hr]
    exact h.sorted r

theorem Indexed.of_added (h : Indexed st) (ha : Added st st' s o i)
    (hlegal : st.Legal (.add s o)) (hown : st.OwnEntry (.add s o)) : Indexed st' := by
  have hmem := h.mem_heap_of_added ha hlegal hown
  have hheap := ha.mem_heap hmem
  have hidx : ∀ p, st'.book.priceToIndex p = st.book.priceToIndex p := ha.frame.priceToIndex
  have hentry : ∀ {r p}, st'.Entry r p → st.Entry r p ∨ r = s ∧ p = o.price := by
    intro r p hp
    rw [Entry, hheap, ha.frame.sentinel] at hp
    exact hp.1.imp_left fun hp' => ⟨hp', hp.2⟩
  refine ⟨ha.wf, fun r p hp => ?_, fun r => ?_, h.sorted_of_added ha hlegal, fun {r p} hp => ?_,
    fun {r p r' p'} hp hp' hpp => ?_, fun j o' ho' => ?_⟩
  · rw [ha.frame.sentinel]
    exact h.band r p ((ha.frame.isPriceValid_iff p).1 hp)
  · rw [ha.frame.sentinel, hheap]
    exact Or.inl (h.sentinel r)
  · rw [hidx, ha.frame.levels]
    rcases hentry hp with hp | ⟨-, rfl⟩
    · obtain ⟨j, hj, hpj, hflag⟩ := h.entry hp
      refine ⟨j, hj, hpj, ?_⟩
      rw [ha.flag]
      split_ifs
      · rfl
      · exact hflag
    · exact ⟨i, ha.level, ha.index, by rw [ha.flag, if_pos rfl]⟩
  · rw [hidx, hidx] at hpp
    rcases hentry hp with hp | ⟨rfl, rfl⟩
    · rcases hentry hp' with hp' | ⟨rfl, rfl⟩
      · exact h.unique hp hp' hpp
      · exact h.entry_of_added ha hlegal hown hp hpp
    · rcases hentry hp' with hp' | ⟨rfl, rfl⟩
      · obtain ⟨rfl, rfl⟩ := h.entry_of_added ha hlegal hown hp' hpp.symm
        exact ⟨rfl, rfl⟩
      · exact ⟨rfl, rfl⟩
  · rw [ha.frame.isPriceValid_iff, ha.sideOf]
    rcases ha.mem_queue.1 ho' with ho' | ⟨-, rfl⟩
    · have hid : o'.orderId ≠ o.orderId := hlegal.1 o' (h.wf.mem_orders.2 ⟨j, ho'⟩)
      rw [Function.update_of_ne hid, hheap]
      exact ⟨(h.resting j o' ho').1, Or.inl (h.resting j o' ho').2⟩
    · rw [Function.update_self]
      exact ⟨hlegal.2.1, hmem⟩

section Best

variable {b' : OrderBook} {p : ℕ} {dropped tl : List ℕ}

/-- An entry that is dropped, or the top, has no second entry at its level. -/
theorem Indexed.of_cleaned (h : Indexed st) (hc : OrderBook.Cleaned st.book b' s p dropped tl) :
    Indexed { st with book := b' } := by
  have hidx : ∀ q, b'.priceToIndex q = st.book.priceToIndex q := hc.frame.priceToIndex
  have hdropped : ∀ {q}, q ∈ dropped → st.Entry s q := fun hq =>
    ⟨hc.heap ▸ List.mem_append_left _ hq, (hc.dropped _ hq).1⟩
  have hheap : ∀ {r q}, q ∈ (b'.side r).nextPrice ↔
      q ∈ (st.book.side r).nextPrice ∧ (r = s → q ∉ dropped) := hc.mem_heap (h.sorted s)
  have hentry : ∀ {r q}, SidedBook.Entry { st with book := b' } r q → st.Entry r q := by
    intro r q hq
    obtain ⟨hmem, hne⟩ := hq
    rw [hc.frame.sentinel] at hne
    exact ⟨(hheap.1 hmem).1, hne⟩
  refine ⟨hc.wf, fun r q hq => ?_, fun r => ?_, hc.heap_sorted h.sorted, fun {r q} hq => ?_,
    fun hq hq' hqq => ?_, fun j o ho => ?_⟩
  · simp only [hc.frame.sentinel]
    exact h.band r q ((hc.frame.isPriceValid_iff q).1 hq)
  · simp only [hc.frame.sentinel]
    refine hheap.2 ⟨h.sentinel r, ?_⟩
    rintro rfl hd
    exact (hc.dropped _ hd).1 rfl
  · obtain ⟨j, hj, hqj, hflag⟩ := h.entry (hentry hq)
    refine ⟨j, hc.frame.levels ▸ hj, (hidx q).trans hqj,
      (hc.flag j).2 ⟨hflag, fun q' hq' hq'j => ?_⟩⟩
    obtain ⟨hrs, rfl⟩ := h.unique (hentry hq) (hdropped hq') (hqj.trans hq'j.symm)
    exact (hheap.1 hq.1).2 hrs hq'
  · simp only [hidx] at hqq
    exact h.unique (hentry hq) (hentry hq') hqq
  · simp only at ho ⊢
    rw [hc.queue] at ho
    refine ⟨(hc.frame.isPriceValid_iff _).2 (h.resting j o ho).1,
      hheap.2 ⟨(h.resting j o ho).2, fun _ hd => ?_⟩⟩
    -- a dropped price has no orders
    have hnil := (hc.dropped _ hd).2 j (h.wf.levelOf_eq ho).2
    rw [hnil] at ho
    exact List.not_mem_nil ho

theorem Indexed.isBest (h : Indexed st) (hc : OrderBook.Cleaned st.book b' s p dropped tl) :
    IsBest st s (st.book.side s).defaultBestPrice p := by
  -- the prices of the resting orders are not dropped, so they are not better than the top
  have hbetter : ∀ o ∈ st.resting s, better s p o.price := by
    intro o ho
    obtain ⟨⟨i, hi⟩, hside⟩ := (mem_resting h.wf).1 ho
    have hin := ((h.of_cleaned hc).resting i o ((hc.queue i).symm ▸ hi)).2
    have hs := (h.of_cleaned hc).sorted s
    simp only [hside, hc.side, Function.update_self] at hin hs
    rcases List.mem_cons.1 hin with heq | htl
    · exact heq ▸ better_refl s _
    · exact ((List.pairwise_cons.1 hs).1 _ htl).1
  rcases eq_or_ne p (st.book.side s).defaultBestPrice with htop | hp
  · refine Or.inr ⟨List.eq_nil_iff_forall_not_mem.2 fun o ho => ?_, htop⟩
    obtain ⟨⟨i, hi⟩, hside⟩ := (mem_resting h.wf).1 ho
    obtain ⟨hb, hn⟩ := h.band s o.price (h.resting i o hi).1
    exact hn (better_antisymm hb (htop ▸ hbetter o ho))
  · obtain ⟨i, hpi, hne⟩ := hc.top.resolve_left hp
    obtain ⟨o, ho⟩ := List.exists_mem_of_ne_nil _ hne
    have hentry : st.Entry s p := ⟨hc.heap ▸ by simp, hp⟩
    obtain ⟨hside, hprice⟩ := h.unique (h.entry_of_mem ho) hentry
      ((h.wf.levelOf_eq ho).2.trans hpi.symm)
    exact Or.inl ⟨o, (mem_resting h.wf).2 ⟨⟨i, ho⟩, hside⟩, hprice, hbetter⟩

/-- `bestbuyprice` and `bestsellprice` are exact. -/
theorem Indexed.bestprice (h : Indexed st) (s : OrderType) :
    ∃ p b', st.book.bestprice s = .ok (p, b') ∧ Indexed { st with book := b' } ∧
      IsBest st s (st.book.side s).defaultBestPrice p ∧ OrderBook.SameFrame st.book b' := by
  obtain ⟨p, b', dropped, tl, hbest, hc⟩ := h.wf.bestprice_spec _ rfl (h.sentinel s)
    fun q hq hne => by
      obtain ⟨i, hi, hqi, -⟩ := h.entry ⟨hq, hne⟩
      exact ⟨i, hi, hqi⟩
  exact ⟨p, b', hbest, h.of_cleaned hc, h.isBest hc, hc.frame⟩

end Best

theorem Indexed.step (h : Indexed st) {op : BookOp} (hlegal : st.Legal op) (hown : st.OwnEntry op) :
    ∃ st', st.step op = .ok st' ∧ Indexed st' ∧ OrderBook.SameFrame st.book st'.book := by
  cases op with
  | add s o =>
    rcases step_add h.wf hlegal.1 with hstep | ⟨st', i, hstep, ha⟩
    · exact ⟨st, hstep, h, .refl _⟩
    · exact ⟨st', hstep, h.of_added ha hlegal hown, ha.frame⟩
  | remove s price =>
    -- all orders at the level have this price, and the first one goes
    obtain ⟨o, ho, rfl⟩ := hlegal
    obtain ⟨⟨i, hi⟩, -⟩ := (mem_resting h.wf).1 ho
    obtain ⟨hlt, hidx⟩ := h.wf.levelOf_eq hi
    obtain ⟨o', l, hq⟩ := List.exists_cons_of_ne_nil (List.ne_nil_of_mem hi)
    obtain ⟨st', hstep, ht⟩ := step_remove (s := s) h.wf hidx hlt hq
    exact ⟨st', hstep, h.of_taken ht, ht.frame⟩
  | cancel id =>
    rcases step_cancel h.wf id with ⟨-, hstep⟩ | ⟨st', i, o, -, hstep, ht⟩
    · exact ⟨st, hstep, h, .refl _⟩
    · exact ⟨st', hstep, h.of_taken ht, ht.frame⟩
  | best s =>
    obtain ⟨p, b', hbest, h', -, hframe⟩ := h.bestprice s
    refine ⟨{ st with book := b' }, ?_, h', hframe⟩
    simp only [SidedBook.step, hbest, ok_bind]

theorem indexed_start (mem : Storage) {poolSize lower upper : ℕ} (h0 : 1 ≤ poolSize)
    (h1 : poolSize < 2 ^ 31) (hlower : 1 ≤ lower) (hupper : upper < 2 ^ 64 - 1) :
    Indexed (start mem poolSize lower upper) := by
  have hside : ∀ s, (start mem poolSize lower upper).book.side s =
      ⟨[OrderBook.defaultBest lower upper s], OrderBook.defaultBest lower upper s,
        mem.totalQty s⟩ := fun _ => rfl
  have hentry : ∀ {s p}, ¬ (start mem poolSize lower upper).Entry s p := by
    rintro s p ⟨hp, hne⟩
    rw [hside] at hp hne
    exact hne (List.mem_singleton.1 hp)
  refine ⟨⟨_, _, OrderBook.new_linked mem lower upper h0 h1⟩, fun s p hp => ?_, fun s => ?_,
    fun s => ?_, fun hp => absurd hp hentry, fun hp => absurd hp hentry,
    fun i o ho => absurd ho List.not_mem_nil⟩
  · obtain ⟨hlow, hup⟩ := hp
    change lower ≤ p at hlow
    change p ≤ upper at hup
    rw [hside]
    cases s <;> simp only [OrderBook.defaultBest, better] <;> split_ifs <;> omega
  · rw [hside]
    exact List.mem_singleton.2 rfl
  · rw [hside]
    exact List.pairwise_singleton _ _

/-- In every run whose additions meet `OwnEntry` the best prices are exact. -/
theorem run_bestprice_exact (mem : Storage) {poolSize lower upper : ℕ} {ops : List BookOp}
    (h0 : 1 ≤ poolSize) (h1 : poolSize < 2 ^ 31) (hlower : 1 ≤ lower)
    (hupper : upper < 2 ^ 64 - 1)
    (hlegal : Runs.Always (fun st op st' => step st op = .ok st') Legal
      (start mem poolSize lower upper) ops)
    (hown : Runs.Always (fun st op st' => step st op = .ok st') OwnEntry
      (start mem poolSize lower upper) ops) :
    ∃ st, (start mem poolSize lower upper).run ops = .ok st ∧ ∀ s, ∃ p b',
      st.book.bestprice s = .ok (p, b') ∧ IsBest st s (sentinelOf lower upper s) p := by
  have hstep : ∀ {st : SidedBook} {op : BookOp}, (Indexed st ∧
      OrderBook.SameFrame (start mem poolSize lower upper).book st.book) →
      st.Legal op ∧ st.OwnEntry op → ∃ st', st.step op = .ok st' ∧ Indexed st' ∧
      OrderBook.SameFrame (start mem poolSize lower upper).book st'.book := by
    rintro st op ⟨h, hframe⟩ ⟨hlegal, hown⟩
    obtain ⟨st', hst', h', hframe'⟩ := h.step hlegal hown
    exact ⟨st', hst', h', hframe.trans hframe'⟩
  obtain ⟨st, hrun, h, hframe⟩ := Runs.Always.exists_steps hstep
    ⟨indexed_start mem h0 h1 hlower hupper, .refl _⟩ (hlegal.and hown)
  refine ⟨st, steps_iff_run.1 hrun, fun s => ?_⟩
  obtain ⟨p, b', hbest, -, hexact, -⟩ := h.bestprice s
  have hsentinel : (st.book.side s).defaultBestPrice = sentinelOf lower upper s := by
    rw [hframe.sentinel]
    cases s with
    | buy => exact if_pos hlower
    | sell => exact if_neg hupper.ne
  exact ⟨p, b', hbest, hsentinel ▸ hexact⟩

/-- Cancels that leave entries behind : one is used again by its own side, and one dropped by
`bestbuyprice` before a sell order comes to its level. -/
def cancelOps : List BookOp :=
  [.add .buy (unitOrder 1 .buy 102), .add .buy (unitOrder 2 .buy 101), .cancel 2,
    .add .buy (unitOrder 3 .buy 101), .cancel 1, .best .buy, .add .sell (unitOrder 4 .sell 102),
    .cancel 7, .remove .buy 101]

theorem run_bestprice_exact_cancelOps : ∃ st, sampleStart.run cancelOps = .ok st ∧
    ((st.resting .sell).map Order.price) = [102] ∧
    ∀ s, ∃ p b', st.book.bestprice s = .ok (p, b') ∧
      IsBest st s (sentinelOf 95 105 s) p := by
  have hlegal : Runs.Always (fun st op st' => step st op = .ok st') Legal sampleStart cancelOps :=
    Runs.always_of_allowed_ok (by decide +kernel)
  obtain ⟨st, hrun, hbest⟩ := run_bestprice_exact
    ⟨fun _ => ⟨⟨0, .market, 0, 0, 0, .buy, 0, 0, 0⟩, 0, 0⟩, fun _ => 0⟩
    (show 1 ≤ 4 by decide) (by decide) (show 1 ≤ 95 by decide) (show 105 < 2 ^ 64 - 1 by decide)
    hlegal (Runs.always_of_allowed_ok (by decide +kernel))
  have hview : (sampleStart.run cancelOps).map (fun st => (st.resting .sell).map Order.price) =
      .ok [102] := by decide +kernel
  have hrun' : sampleStart.run cancelOps = .ok st := hrun
  rw [hrun'] at hview
  exact ⟨st, hrun', Except.ok.inj hview, hbest⟩

/-- A sell order at a level whose buy order has been cancelled. -/
def unseenOps : List BookOp :=
  [.add .buy (unitOrder 1 .buy 100), .cancel 1, .add .sell (unitOrder 2 .sell 100)]

/-- The sell order rests at 100 and `bestsellprice` returns the sentinel. -/
theorem sell_unseen : ∃ st b',
    Runs.Always (fun st op st' => step st op = .ok st') Legal sampleStart unseenOps ∧
    sampleStart.run unseenOps = .ok st ∧ st.book.bestsellprice = .ok (106, b') ∧
    (st.resting .sell).map Order.price = [100] ∧
    ¬ IsBest st .sell (sentinelOf 95 105 .sell) 106 := by
  have hview : (do
      let st ← sampleStart.run unseenOps
      let best ← st.book.bestsellprice
      .ok (best.1, (st.resting .sell).map Order.price)) = (.ok (106, [100]) : Except Fault _) := by
    decide +kernel
  obtain ⟨st, hrun, hview⟩ := bind_eq_ok.1 hview
  obtain ⟨⟨p, b'⟩, hbest, hview⟩ := bind_eq_ok.1 hview
  obtain ⟨rfl, hprices⟩ := Prod.mk.inj (Except.ok.inj hview)
  refine ⟨st, b', Runs.always_of_allowed_ok (by decide +kernel), hrun, hbest, hprices, ?_⟩
  rintro (⟨o, ho, hp, -⟩ | ⟨hnil, -⟩)
  · have hmem := List.mem_map_of_mem (f := Order.price) ho
    rw [hprices, hp] at hmem
    exact absurd hmem (by decide)
  · rw [hnil] at hprices
    exact absurd hprices (by decide)

end SidedBook

end TradeX
