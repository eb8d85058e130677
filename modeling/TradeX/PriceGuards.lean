import TradeX.EngineRuns

/-!
# The two guards on a price

`isPriceValid` compares a price with the limits of the band. `addBuyOrder`, `addSellOrder` and
`modifyQuantity` look at `priceToIndex` instead, which keeps 32 bits of the price : in a band of at
most `2 ^ 31` prices it takes a price for the valid price that is equal to it modulo `2 ^ 32`, if
there is one (`Open.hasLevel_iff`). The guards agree on a price iff it is no such copy of a valid
price (`Open.guardsAgree_iff`).
-/

namespace TradeX

namespace OrderBook

variable {b : OrderBook} {price : ℕ}

/-- A book of a narrow band, as the constructor makes it and the operations keep it, with a free
node. -/
structure Open (b : OrderBook) : Prop where
  lower_le : b.lowerLimit ≤ b.upperLimit
  width_lt : b.upperLimit - b.lowerLimit < 2 ^ 31
  levels : b.numPriceLevels = b.upperLimit - b.lowerLimit + 1
  links : ∃ level free, Arena b.pool b.priceLevels level free
  free : b.pool.freeHead ≠ nullIdx

theorem WF.isOpen (h : b.WF) {mem : Storage} {poolSize lower upper : ℕ} (hle : lower ≤ upper)
    (hw : upper - lower < 2 ^ 31) (hf : SameFrame (new mem poolSize lower upper) b)
    (hfree : b.pool.freeHead ≠ nullIdx) : b.Open := by
  have hlow : b.lowerLimit = lower := hf.lower
  have hup : b.upperLimit = upper := hf.upper
  obtain ⟨level, free, h⟩ := h
  refine ⟨by omega, by omega, ?_, ⟨level, free, h.toArena⟩, hfree⟩
  rw [hf.levels, numPriceLevels_new mem poolSize hle (by omega), hlow, hup]

/-! ## What `priceToIndex` sees -/

/-- Only 32 bits of the price. -/
theorem priceToIndex_congr {p : ℕ} (h : price % 2 ^ 32 = p % 2 ^ 32) :
    b.priceToIndex price = b.priceToIndex p := by
  have hmod : (price : ℤ) % (0x100000000 : ℕ) = p % (0x100000000 : ℕ) := by omega
  have hcast : Int.bmod price 0x100000000 = Int.bmod p 0x100000000 := by
    rw [← Int.emod_bmod price, hmod, Int.emod_bmod]
  unfold priceToIndex
  rw [hcast]

/-- The index of a price is that of the valid price it is a copy of. -/
theorem Open.priceToIndex_eq (h : b.Open) {p : ℕ} (hp : b.isPriceValid p)
    (hmod : price % 2 ^ 32 = p % 2 ^ 32) : b.priceToIndex price = (p - b.lowerLimit : ℕ) := by
  have hw := h.width_lt
  obtain ⟨h1, h2⟩ := hp
  rw [priceToIndex_congr hmod]
  exact OrderBook.priceToIndex_eq h1 (by omega)

/-- An index is that of the price it makes with the lower limit, modulo `2 ^ 32`. -/
theorem mod_of_priceToIndex {i : ℕ} (h : b.priceToIndex price = i) :
    price % 2 ^ 32 = (b.lowerLimit + i) % 2 ^ 32 := by
  unfold priceToIndex at h
  simp only [Int.bmod_def] at h
  omega

theorem Open.hasLevel_iff (h : b.Open) : b.hasLevel (b.priceToIndex price) ↔
    ∃ p, b.isPriceValid p ∧ price % 2 ^ 32 = p % 2 ^ 32 := by
  have hlevels := h.levels
  constructor
  · intro hlevel
    obtain ⟨i, hi, hlt⟩ := exists_index hlevel
    have hle := h.lower_le
    exact ⟨b.lowerLimit + i, ⟨by omega, by omega⟩, mod_of_priceToIndex hi⟩
  · rintro ⟨p, hp, hmod⟩
    have hindex := h.priceToIndex_eq hp hmod
    obtain ⟨h1, h2⟩ := hp
    exact hasLevel_of_index hindex (by omega)

/-! ## Adding -/

/-- An order whose price has a level is appended to that level, whatever its id. -/
theorem Open.addOrder_spec (h : b.Open) (s : OrderType) {order : Order} {i : ℕ}
    (hi : b.priceToIndex order.price = i) (hlt : i < b.numPriceLevels) :
    ∃ b', b.addOrder s order = .ok (true, b') ∧
      ∀ j, b'.queue j = if j = i then b.queue i ++ [order] else b.queue j := by
  obtain ⟨level, free, harena⟩ := h.links
  obtain ⟨k, free, rfl⟩ := List.exists_cons_of_ne_nil (mt harena.freeHead_eq_null_iff.2 h.free)
  obtain ⟨q, pool, hins, -, harena', hord, -, -⟩ := harena.insertOrder_spec i order
  have hk : k ≠ nullIdx := harena.ne_null ((harena.cell k).2 (Or.inl List.mem_cons_self))
  have hsame := fun j => PriceQueues.setHeapEntry_same b.priceLevels i q true j
  have hlinks : Arena pool (Function.update b.priceLevels i (q.setHeapEntry true))
      (Function.update level i (level i ++ [k])) free :=
    harena'.of_same_queues (fun j => (hsame j).1) (fun j => (hsame j).2.1) fun j => (hsame j).2.2
  exact ⟨_, addOrder_of_insert hi hlt hins hk, queue_link harena hlinks hord⟩

/-! ## The guards -/

/-- What is promised of a price. `addBuyOrder` and `addSellOrder` accept an order at it iff it is
valid, and then queue it at the level of its distance from the lower limit, and `modifyQuantity`
returns true only if it is valid. -/
structure GuardsAgree (b : OrderBook) (price : ℕ) : Prop where
  add : ∀ s order, order.price = price →
    ∃ accepted b', b.addOrder s order = .ok (accepted, b') ∧
    (accepted = true ↔ b.isPriceValid price) ∧
    (accepted = true → ∀ j, b'.queue j =
      if j = price - b.lowerLimit then b.queue j ++ [order] else b.queue j)
  modify : ∀ newQty b', b.modifyQuantity price newQty = .ok (true, b') → b.isPriceValid price

/-- The price is not a valid price, but has its last 32 bits. -/
def CopiesValid (b : OrderBook) (price : ℕ) : Prop :=
  ∃ p, b.isPriceValid p ∧ p ≠ price ∧ price % 2 ^ 32 = p % 2 ^ 32

/-- Only a price that has a level can be changed. -/
theorem hasLevel_of_modifyQuantity {newQty : ℕ} {b' : OrderBook}
    (h : b.modifyQuantity price newQty = .ok (true, b')) : b.hasLevel (b.priceToIndex price) := by
  by_contra hno
  rw [modifyQuantity, if_pos hno] at h
  cases h

/-- In a narrow band no valid price is a copy of another. -/
theorem Open.not_copiesValid (h : b.Open) (hp : b.isPriceValid price) : ¬b.CopiesValid price := by
  rintro ⟨p, ⟨h1, h2⟩, hne, hmod⟩
  have hw := h.width_lt
  obtain ⟨h1', h2'⟩ := hp
  omega

/-- A price that is no copy of a valid one has a level iff it is valid. -/
theorem Open.hasLevel_iff_valid (h : b.Open) (hcopy : ¬b.CopiesValid price) :
    b.hasLevel (b.priceToIndex price) ↔ b.isPriceValid price := by
  rw [h.hasLevel_iff]
  constructor
  · rintro ⟨p, hp, hmod⟩
    rcases eq_or_ne p price with rfl | hne
    · exact hp
    · exact absurd ⟨p, hp, hne, hmod⟩ hcopy
  · intro hp
    exact ⟨price, hp, rfl⟩

/-- An order at a copy of a valid price is accepted. -/
theorem Open.not_guardsAgree (h : b.Open) (hcopy : b.CopiesValid price) :
    ¬b.GuardsAgree price := by
  intro hagree
  obtain ⟨p, hp, -, hmod⟩ := id hcopy
  obtain ⟨i, hi, hlt⟩ := exists_index (h.hasLevel_iff.2 ⟨p, hp, hmod⟩)
  have hindex : b.priceToIndex (limitOrder 1 .buy price 1).price = i := hi
  obtain ⟨b₁, hadd, -⟩ := h.addOrder_spec .buy hindex hlt
  obtain ⟨accepted, b', hadd', hvalid, -⟩ := hagree.add .buy (limitOrder 1 .buy price 1) rfl
  obtain ⟨rfl, -⟩ := Prod.mk.inj (Except.ok.inj (hadd.symm.trans hadd'))
  exact h.not_copiesValid (hvalid.1 rfl) hcopy

/-- The guards agree on a price iff it is no copy of a valid one. -/
theorem Open.guardsAgree_iff (h : b.Open) (price : ℕ) : b.GuardsAgree price ↔
    ¬b.CopiesValid price := by
  constructor
  · exact fun hagree hcopy => h.not_guardsAgree hcopy hagree
  · intro hcopy
    have hiff := h.hasLevel_iff_valid hcopy
    refine ⟨fun s order hprice => ?_, fun newQty b' hmodify => ?_⟩
    · subst hprice
      by_cases hp : b.isPriceValid order.price
      · have hi := h.priceToIndex_eq hp rfl
        have hlevels := h.levels
        obtain ⟨h1, h2⟩ := hp
        obtain ⟨b', hadd, hqueue⟩ := h.addOrder_spec s hi (by omega)
        refine ⟨true, b', hadd, iff_of_true rfl ⟨h1, h2⟩, fun _ j => ?_⟩
        rw [hqueue]
        split_ifs with hj
        · rw [hj]
        · rfl
      · refine ⟨false, b, addOrder_no_level (mt hiff.1 hp), iff_of_false Bool.false_ne_true hp,
          ?_⟩
        exact fun h => absurd h Bool.false_ne_true
    · exact hiff.1 (hasLevel_of_modifyQuantity hmodify)

/-- A book of the six prices from 100 on, with nothing in it. -/
def sixPrices : OrderBook :=
  new ⟨zeroNodes, fun _ => 0⟩ 4 100 105

theorem sixPrices_open : sixPrices.Open :=
  WF.isOpen ⟨_, _, new_linked _ _ _ (by decide) (by decide)⟩ (by decide) (by decide)
    (SameFrame.refl _) (by decide)

/-- A valid price, and one far above the band with the last bits of 50. -/
theorem guardsAgree_sixPrices :
    sixPrices.Open ∧ sixPrices.GuardsAgree 105 ∧ sixPrices.GuardsAgree (2 ^ 32 + 50) := by
  have hcopy : ∀ price ∈ [105, 2 ^ 32 + 50], ¬sixPrices.CopiesValid price := by
    rintro price hprice ⟨p, ⟨h1, h2⟩, hne, hmod⟩
    change 100 ≤ p at h1
    change p ≤ 105 at h2
    simp only [List.mem_cons, List.not_mem_nil, or_false] at hprice
    omega
  exact ⟨sixPrices_open, (sixPrices_open.guardsAgree_iff _).2 (hcopy _ (by decide)),
    (sixPrices_open.guardsAgree_iff _).2 (hcopy _ (by decide))⟩

/-- An order at `2 ^ 32 + 100` is accepted, and queued with the orders at 100. -/
theorem copy_accepted :
    ¬sixPrices.isPriceValid (2 ^ 32 + 100) ∧ ¬sixPrices.GuardsAgree (2 ^ 32 + 100) ∧
    ∀ s, ∃ b', sixPrices.addOrder s (limitOrder 1 .buy (2 ^ 32 + 100) 1) = .ok (true, b') ∧
      b'.queue 0 = [limitOrder 1 .buy (2 ^ 32 + 100) 1] := by
  have hvalid : sixPrices.isPriceValid 100 := by decide
  have hmod : (2 ^ 32 + 100) % 2 ^ 32 = 100 % 2 ^ 32 := by decide
  have hi : sixPrices.priceToIndex (limitOrder 1 .buy (2 ^ 32 + 100) 1).price = (0 : ℕ) :=
    sixPrices_open.priceToIndex_eq hvalid hmod
  refine ⟨by decide, fun h => ?_, fun s => ?_⟩
  · exact sixPrices_open.not_guardsAgree ⟨100, hvalid, by decide, hmod⟩ h
  · obtain ⟨b', hadd, hqueue⟩ := sixPrices_open.addOrder_spec s hi (by decide)
    exact ⟨b', hadd, by rw [hqueue, if_pos rfl]; rfl⟩

end OrderBook

end TradeX
