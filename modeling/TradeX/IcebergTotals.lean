import TradeX.SliceRegistry
import TradeX.EngineRuns

/-!
# How much of an iceberg is sent

The quantities of an iceberg come from the wire, and `send_slice` subtracts what is filled from
the quantity without looking which is larger, so an iceberg that comes with more filled than it
has is sent for ever. And `check_fill` does not ask whether a trade has filled anything, so a
trade of no units makes it send the next slice beside the first (`over_sent`).

Otherwise the slices of an iceberg never exceed its quantity (`run_sent_le`), also where the
filled quantity it comes with is not a multiple of the display quantity : then the first slice
is given up as soon as a multiple is reached, and what was sent before the live slice is still
at most the quantity that was filled when it was sent (`Serving.covered`).
-/

namespace TradeX

namespace Oms

variable {std : StdHeap ClientOrder} {st st' : Oms} {o : ClientOrder} {id p q g x : ℕ}
  {legs legs' : List (ℕ × ℕ)} {accepted : List ClientOrder}

/-! ## What a run may be given -/

namespace Session

/-- A leg is of an order that is not a slice, or of a slice that has been sent, and not beyond
its quantity. -/
def LegPublished (foreign : ℕ → Prop) (s : Session) (e : Event) (leg : ℕ × ℕ) : Prop :=
  foreign leg.1 ∨ ∃ d ∈ s.oms.slices, d.order.orderId = leg.1 ∧
    traded (s.legs ++ legsOfEvent e) leg.1 ≤ d.order.quantity

/-- The quantities of an iceberg are any `uint32_t`s, its id is its own, and the trades are those
of the engine. -/
structure Received (std : StdHeap ClientOrder) (foreign : ℕ → Prop) (s : Session) (e : Event) :
    Prop where
  inRange : ∀ o ∈ icebergOf s.oms e,
    o.quantity < 2 ^ 32 ∧ o.displayQuantity < 2 ^ 32 ∧ o.filledQuantity < 2 ^ 32
  distinct : ∀ o ∈ icebergOf s.oms e, o.clientOrderId ∉ idsOf s.accepted
  legs : ∀ leg ∈ legsOfEvent e, LegPublished foreign s e leg
  apart : ∀ s', s.step std e = .ok s' → ∀ id ∈ s'.oms.sliceIds, ¬foreign id

instance (foreign : ℕ → Prop) [DecidablePred foreign] (s : Session) (e : Event)
    (leg : ℕ × ℕ) : Decidable (LegPublished foreign s e leg) :=
  inferInstanceAs (Decidable (_ ∨ _))

instance (std : StdHeap ClientOrder) (foreign : ℕ → Prop) [DecidablePred foreign] (s : Session)
    (e : Event) : Decidable (Received std foreign s e) :=
  decidable_of_iff ((∀ o ∈ icebergOf s.oms e,
      o.quantity < 2 ^ 32 ∧ o.displayQuantity < 2 ^ 32 ∧ o.filledQuantity < 2 ^ 32) ∧
      (∀ o ∈ icebergOf s.oms e, o.clientOrderId ∉ idsOf s.accepted) ∧
      (∀ leg ∈ legsOfEvent e, LegPublished foreign s e leg) ∧
      ∀ s' ∈ (s.step std e).toOption, ∀ id ∈ s'.oms.sliceIds, ¬foreign id)
    ⟨fun h => ⟨h.1, h.2.1, h.2.2.1, fun s' hs' => h.2.2.2 s' (by rw [hs']; rfl)⟩,
      fun h => ⟨h.inRange, h.distinct, h.legs, fun s' hs' => h.apart s' (ok_of_toOption hs')⟩⟩

/-- A leg of no units does not find the parent of its id at the end of a slice. -/
def Unfilled (st : Oms) (id : ℕ) : Prop :=
  ∀ p ∈ st.childToParent id, isIceberg id → ¬SliceFilled (st.iceberg p)

instance (st : Oms) (id : ℕ) : Decidable (Unfilled st id) :=
  inferInstanceAs (Decidable (∀ _ ∈ _, _))

/-- An iceberg that is sent does not come with more filled than it has, and no trade of no units
finds a parent at the end of a slice. -/
def Guarded (s : Session) : Event → Prop
  | .order newOrder => ∀ o ∈ icebergOf s.oms (.order newOrder),
      o.isActive = false ∨ o.displayQuantity = 0 ∨ o.filledQuantity ≤ o.quantity
  | .trade t => t.quantity = 0 → Unfilled s.oms t.buyOrderId ∧
      ∀ st₁ ∈ (s.oms.checkLeg t.buyOrderId t.quantity).toOption, Unfilled st₁ t.sellOrderId
  | .price _ _ => True

instance (s : Session) : (e : Event) → Decidable (Guarded s e)
  | .order _ => inferInstanceAs (Decidable (∀ _ ∈ _, _))
  | .trade _ => inferInstanceAs (Decidable (_ → _ ∧ ∀ _ ∈ _, _))
  | .price _ _ => .isTrue trivial

/-- And the ids of slices do not come round : there are two left, as many as a trade can take. -/
def Guards (s : Session) (e : Event) : Prop :=
  s.Guarded e ∧ s.oms.slices.length + 2 ≤ 2 ^ 64

instance (s : Session) (e : Event) : Decidable (Guards s e) :=
  inferInstanceAs (Decidable (_ ∧ _))

end Session

/-! ## The state of a parent -/

/-- The parent `o` has the live slice `c`, which was sent when `g` was filled, and has filled it
by `x` since. -/
structure Serving (o : ClientOrder) (legs : List (ℕ × ℕ)) (st : Oms) (before : List Order)
    (c : Order) (g x : ℕ) : Prop where
  slices : st.slicesOf o.clientOrderId = before ++ [c]
  child : ∀ id, st.childToParent id = some o.clientOrderId ↔ id = c.orderId
  size : c.quantity = min o.displayQuantity (o.quantity - g)
  level : g ≤ o.quantity
  covered : totalQuantity before ≤ g
  aligned : o.displayQuantity ∣ g ∨ totalQuantity before = 0
  counted : x ≤ traded legs c.orderId
  record : ∃ r, st.activeIcebergs o.clientOrderId = some r ∧
    r.clientOrderId = o.clientOrderId ∧
    r.quantity = o.quantity ∧ r.displayQuantity = o.displayQuantity ∧ r.filledQuantity = g + x

/-- No slice is live. -/
structure Idle (o : ClientOrder) (st : Oms) : Prop where
  noChild : ∀ id, st.childToParent id ≠ some o.clientOrderId
  total_le : totalQuantity (st.slicesOf o.clientOrderId) ≤ o.quantity

/-- The display quantity is zero, and so are the slices. -/
structure Blank (o : ClientOrder) (st : Oms) : Prop where
  total : totalQuantity (st.slicesOf o.clientOrderId) = 0
  record : (st.iceberg o.clientOrderId).displayQuantity = 0

/-- Where an iceberg is : no slice of it is live, its slices are of zero units, or one is being
filled. -/
def Standing (o : ClientOrder) (legs : List (ℕ × ℕ)) (st : Oms) : Prop :=
  Idle o st ∨ Blank o st ∨ ∃ before c g x, Serving o legs st before c g x

/-- What has been sent is at most the quantity. -/
theorem Standing.total_le (h : Standing o legs st) :
    totalQuantity (st.slicesOf o.clientOrderId) ≤ o.quantity := by
  rcases h with h | h | ⟨before, c, g, x, h⟩
  · exact h.total_le
  · rw [h.total]
    exact Nat.zero_le _
  · have hsize := h.size
    have hlevel := h.level
    have hcovered := h.covered
    rw [h.slices, totalQuantity_append, totalQuantity_singleton]
    omega

theorem Standing.of_unchanged (h : Standing o legs st)
    (hu : Unchanged o.clientOrderId legs st legs' st') : Standing o legs' st' := by
  rcases h with h | h | ⟨before, c, g, x, h⟩
  · refine Or.inl ⟨fun id hid => h.noChild id ((hu.child id).1 hid), ?_⟩
    rw [hu.slicesOf]
    exact h.total_le
  · refine Or.inr (Or.inl ⟨?_, ?_⟩)
    · rw [hu.slicesOf]
      exact h.total
    · rw [iceberg, hu.parent]
      exact h.record
  · refine Or.inr (Or.inr ⟨before, c, g, x, hu.slicesOf.trans h.slices,
      fun id => (hu.child id).trans (h.child id), h.size, h.level, h.covered, h.aligned, ?_, ?_⟩)
    · rw [hu.traded c (by simp [h.slices])]
      exact h.counted
    · rw [hu.parent]
      exact h.record

/-- When the live slice counts as filled, what has been sent is at most what is filled. -/
theorem Serving.covered_next {before : List Order} {c : Order} (h : Serving o legs st before c g x)
    (hpos : 0 < x) (hx : x ≤ c.quantity)
    (hfilled : (g + x) % o.displayQuantity = 0 ∨ g + x = o.quantity) :
    totalQuantity (before ++ [c]) ≤ g + x ∧
      (g + x ≠ o.quantity → o.displayQuantity ∣ g + x) := by
  have hsize := h.size
  have hcovered := h.covered
  have hlevel := h.level
  have hle : x ≤ o.displayQuantity := by omega
  refine ⟨?_, fun hne => Nat.dvd_of_mod_eq_zero (hfilled.resolve_right hne)⟩
  rw [totalQuantity_append, totalQuantity_singleton]
  rcases hfilled with hmod | hfull
  · rcases h.aligned with ⟨k, rfl⟩ | hnone
    · -- from a multiple to the next : the slice is full
      rw [Nat.mul_add_mod] at hmod
      rcases hle.lt_or_eq with hlt | heq
      · rw [Nat.mod_eq_of_lt hlt] at hmod
        omega
      · omega
    · -- the first slice : it is at most the display quantity
      have hdisplay := Nat.le_of_dvd (by omega) (Nat.dvd_of_mod_eq_zero hmod)
      omega
  · omega

/-! ## Sending a slice -/

/-- Nothing happens to the other parents. -/
theorem Keyed.sendSlice_unchanged (h : Keyed accepted st) (hp : p ∈ idsOf accepted)
    (hbound : (st.sendSlice p).slices.length ≤ 2 ^ 64) (legs : List (ℕ × ℕ)) {p' : ℕ}
    (hne : p' ≠ p) : Unchanged p' legs st legs (st.sendSlice p) := by
  obtain ⟨parent, hparent, rfl⟩ := h.records p hp
  rcases sendSlice_cases hparent with heq | heq | ⟨-, -, heq⟩ <;> rw [heq] at hbound ⊢
  · exact ⟨rfl, fun _ => Iff.rfl, rfl, fun _ _ => rfl⟩
  · exact setIceberg_unchanged hne st _ legs
  · rw [length_slices_afterSlice] at hbound
    exact afterSlice_unchanged hne (h.fresh hbound) _ legs

/-- The parent when `send_slice` is called, with `g` filled : what has been sent is at most
that. -/
structure Between (o : ClientOrder) (st : Oms) (g : ℕ) : Prop where
  noChild : ∀ id, st.childToParent id ≠ some o.clientOrderId
  level : g ≤ o.quantity
  covered : totalQuantity (st.slicesOf o.clientOrderId) ≤ g
  aligned : g ≠ o.quantity →
    o.displayQuantity ∣ g ∨ totalQuantity (st.slicesOf o.clientOrderId) = 0
  record : ∃ r, st.activeIcebergs o.clientOrderId = some r ∧
    r.clientOrderId = o.clientOrderId ∧
    r.quantity = o.quantity ∧ r.displayQuantity = o.displayQuantity ∧ r.filledQuantity = g

theorem Between.sendSlice (h : Between o st g) (hq : o.quantity < 2 ^ 32)
    (legs : List (ℕ × ℕ)) : Standing o legs (st.sendSlice o.clientOrderId) := by
  obtain ⟨r, hr, hid, hquantity, hdisplay, hfilled⟩ := h.record
  have hidle : Idle o st := ⟨h.noChild, h.covered.trans h.level⟩
  rcases sendSlice_cases hr with heq | heq | ⟨-, hremaining, heq⟩ <;> rw [heq]
  · exact Or.inl hidle
  · exact Or.inl ⟨hidle.noChild, hidle.total_le⟩
  · rw [hquantity, hfilled, sub32_of_le h.level hq] at hremaining ⊢
    rw [hdisplay]
    refine Or.inr (Or.inr ⟨_, st.sliceOrder r (min o.displayQuantity (o.quantity - g)), g, 0, ?_,
      fun id => ?_, rfl, h.level, h.covered, h.aligned (by omega), Nat.zero_le _, r, hr, hid,
      hquantity, hdisplay, hfilled⟩)
    · rw [← hid]
      exact slicesOf_afterSlice_self st r _
    · simp only [Oms.afterSlice, sliceOrder]
      rcases eq_or_ne id st.nextChildOrderId with rfl | hne
      · simp
      · rw [Function.update_of_ne hne]
        exact iff_of_false (h.noChild id) hne

/-! ## A leg of a trade -/

/-- The invariant of a session. -/
structure Totals (accepted : List ClientOrder) (legs : List (ℕ × ℕ)) (st : Oms) : Prop where
  keyed : Keyed accepted st
  bound : st.slices.length ≤ 2 ^ 64
  inRange : ∀ o ∈ accepted, o.quantity < 2 ^ 32
  standing : ∀ o ∈ accepted, Standing o legs st

/-- A leg that is ignored. -/
theorem Totals.ignored (h : Totals accepted legs st) (id q : ℕ) :
    Totals accepted (legs ++ [(id, q)]) st := by
  refine ⟨h.keyed, h.bound, h.inRange, fun o ho => ?_⟩
  rcases h.standing o ho with hidle | hblank | ⟨before, c, g, x, hs⟩
  · exact Or.inl hidle
  · exact Or.inr (Or.inl hblank)
  · refine Or.inr (Or.inr ⟨before, c, g, x, hs.slices, hs.child, hs.size, hs.level, hs.covered,
      hs.aligned, hs.counted.trans ?_, hs.record⟩)
    rw [traded_append]
    exact Nat.le_add_right _ _

/-- A registered slice is the live slice of its parent. -/
theorem Totals.exists_serving (h : Totals accepted legs st) {d : Dispatch} (hd : d ∈ st.slices)
    (hchild : st.childToParent d.order.orderId = some p)
    (hdisplay : (st.iceberg p).displayQuantity ≠ 0) : ∃ o ∈ accepted, o.clientOrderId = p ∧
      ∃ before g x, Serving o legs st before d.order g x := by
  obtain ⟨o, ho, rfl⟩ := List.mem_map.1 (h.keyed.parent_mem hchild)
  refine ⟨o, ho, rfl, ?_⟩
  rcases h.standing o ho with hidle | hblank | ⟨before, c, g, x, hs⟩
  · exact absurd hchild (hidle.noChild _)
  · exact absurd hblank.record hdisplay
  · have hmem : c ∈ st.slicesOf o.clientOrderId := by simp [hs.slices]
    obtain ⟨d', hd', -, rfl⟩ := mem_slicesOf.1 hmem
    have heq := h.keyed.eq_of_orderId h.bound hd hd' ((hs.child _).1 hchild)
    exact ⟨before, g, x, heq ▸ hs⟩

/-- The slice fills by `q`. -/
theorem Serving.fill {before : List Order} {c : Order} (h : Serving o legs st before c g x)
    (hrange : o.quantity < 2 ^ 32) (hle : traded legs c.orderId + q ≤ c.quantity) :
    Serving o (legs ++ [(c.orderId, q)]) (st.fill o.clientOrderId q) before c g (x + q) := by
  obtain ⟨r, hr, hid, hquantity, hdisplay, hfilled⟩ := h.record
  have hsize := h.size
  have hlevel := h.level
  have hcounted := h.counted
  have hsum : add32 (g + x) q = g + (x + q) := by
    rw [add32, Nat.mod_eq_of_lt (by omega), Nat.add_assoc]
  refine ⟨h.slices, h.child, h.size, h.level, h.covered, h.aligned, ?_, _,
    Function.update_self .., ?_⟩
  · rw [traded_leg_self]
    exact Nat.add_le_add_right hcounted q
  · rw [iceberg_eq hr, hfilled, hsum]
    exact ⟨hid, hquantity, hdisplay, rfl⟩

theorem Serving.sliceFilled_iff {before : List Order} {c : Order}
    (h : Serving o legs st before c g x) : SliceFilled (st.iceberg o.clientOrderId) ↔
      (g + x) % o.displayQuantity = 0 ∨ g + x = o.quantity := by
  obtain ⟨r, hr, -, hquantity, hdisplay, hfilled⟩ := h.record
  rw [iceberg_eq hr, SliceFilled, hquantity, hdisplay, hfilled]

/-- The slice counts as filled, and is taken out of the registry. -/
theorem Serving.between {before : List Order} {c : Order} (h : Serving o legs st before c g x)
    (hpos : 0 < x) (hx : x ≤ c.quantity) (hfilled : SliceFilled (st.iceberg o.clientOrderId)) :
    Between o (st.unregister c.orderId) (g + x) := by
  have hsize := h.size
  have hlevel := h.level
  have hslices : (st.unregister c.orderId).slicesOf o.clientOrderId = before ++ [c] := h.slices
  obtain ⟨hcovered, hdvd⟩ := h.covered_next hpos hx (h.sliceFilled_iff.1 hfilled)
  refine ⟨fun id hid => ?_, by omega, ?_, fun hne => Or.inl (hdvd hne), h.record⟩
  · simp only [unregister] at hid
    rcases eq_or_ne id c.orderId with rfl | hne
    · rw [Function.update_self] at hid
      cases hid
    · rw [Function.update_of_ne hne] at hid
      exact hne ((h.child id).1 hid)
  · rw [hslices]
    exact hcovered

/-- Nothing happens to the other parents when a slice fills. -/
theorem Totals.fill_unchanged (h : Totals accepted legs st) {d : Dispatch} (hd : d ∈ st.slices)
    {p' : ℕ} (hne : p' ≠ d.client.clientOrderId) (q : ℕ) :
    Unchanged p' legs st (legs ++ [(d.order.orderId, q)]) (st.fill d.client.clientOrderId q) := by
  refine ⟨rfl, fun _ => Iff.rfl, Function.update_of_ne hne .., fun c hc => ?_⟩
  obtain ⟨d', hd', hp', rfl⟩ := mem_slicesOf.1 hc
  refine traded_leg_of_ne (fun heq => hne ?_) legs q
  rw [← hp', h.keyed.eq_of_orderId h.bound hd' hd heq]

theorem Totals.checkLeg (h : Totals accepted legs st)
    (hleg : id ∉ st.sliceIds ∨ ∃ d ∈ st.slices, d.order.orderId = id ∧
      traded legs id + q ≤ d.order.quantity)
    (hzero : q = 0 → Session.Unfilled st id) (hok : st.checkLeg id q = .ok st')
    (hbound' : st'.slices.length ≤ 2 ^ 64) : Totals accepted (legs ++ [(id, q)]) st' := by
  have hkeyed := h.keyed.checkLeg hok
  rcases checkLeg_cases hok with ⟨rfl, -⟩ | ⟨p, hchild, hbit, hdisplay, hcase⟩
  · exact h.ignored id q
  obtain ⟨d, hd, rfl, rfl⟩ := h.keyed.children id p hchild
  have hle : traded legs d.order.orderId + q ≤ d.order.quantity := by
    rcases hleg with hforeign | ⟨d', hd', hid, hle⟩
    · exact absurd (List.mem_map_of_mem hd) hforeign
    · rwa [h.keyed.eq_of_orderId h.bound hd' hd hid] at hle
  obtain ⟨o, ho, hp, before, g, x, hs⟩ := h.exists_serving hd hchild hdisplay
  have hfill := hs.fill (h.inRange o ho) hle
  -- the others have other ids
  have hothers : ∀ o' ∈ accepted, o' ≠ o → o'.clientOrderId ≠ d.client.clientOrderId :=
    fun o' ho' hne heq =>
      hne (List.inj_on_of_nodup_map h.keyed.distinct ho' ho (heq.trans hp.symm))
  rw [← hp] at hchild hcase hothers
  refine ⟨hkeyed, hbound', h.inRange, fun o' ho' => ?_⟩
  rcases hcase with ⟨-, rfl⟩ | ⟨hfilled, rfl⟩
  · rcases eq_or_ne o' o with rfl | hne
    · exact Or.inr (Or.inr ⟨before, d.order, g, x + q, hfill⟩)
    · refine (h.standing o' ho').of_unchanged ?_
      rw [hp]
      exact h.fill_unchanged hd (hp ▸ hothers o' ho' hne) q
  · have hpos : 0 < x + q := by
      refine Nat.pos_of_ne_zero fun hnone => ?_
      obtain ⟨rfl, rfl⟩ := Nat.add_eq_zero_iff.1 hnone
      exact hzero rfl _ hchild hbit (hs.sliceFilled_iff.2 (hfill.sliceFilled_iff.1 hfilled))
    have hx : x + q ≤ d.order.quantity := (Nat.add_le_add_right hs.counted q).trans hle
    rcases eq_or_ne o' o with rfl | hne
    · exact (hfill.between hpos hx hfilled).sendSlice (h.inRange o' ho) _
    · have hne := hothers o' ho' hne
      have hfilled := (h.standing o' ho').of_unchanged (h.fill_unchanged hd (hp ▸ hne) q)
      have hmem := h.keyed.parent_mem hchild
      have hchild' : (st.fill o.clientOrderId q).childToParent d.order.orderId =
          some o.clientOrderId := hchild
      rw [← hp] at hfilled
      exact (hfilled.of_unchanged (unregister_unchanged hchild' hne _)).of_unchanged
        (((h.keyed.fill hmem).unregister _).sendSlice_unchanged hmem hbound' _ hne)

theorem Totals.checkFill {t : Trade} (h : Totals accepted legs st)
    (hlegs : ∀ leg ∈ legsOf t, leg.1 ∉ st'.sliceIds ∨
      ∃ d ∈ st.slices, d.order.orderId = leg.1 ∧
      traded (legs ++ legsOf t) leg.1 ≤ d.order.quantity)
    (hzero : t.quantity = 0 → Session.Unfilled st t.buyOrderId ∧
      ∀ st₁ ∈ (st.checkLeg t.buyOrderId t.quantity).toOption,
        Session.Unfilled st₁ t.sellOrderId)
    (hok : st.checkFill t = .ok st') (hbound' : st'.slices.length ≤ 2 ^ 64) :
    Totals accepted (legs ++ legsOf t) st' := by
  rw [checkFill_eq, bind_eq_ok] at hok
  obtain ⟨st₁, hbuy, hsell⟩ := hok
  have hext := extends_checkLeg hbuy
  have hext' := extends_checkLeg hsell
  have hsplit : legs ++ legsOf t =
      legs ++ [(t.buyOrderId, t.quantity)] ++ [(t.sellOrderId, t.quantity)] := by
    rw [List.append_assoc]
    rfl
  rw [hsplit] at hlegs ⊢
  have h₁ : Totals accepted (legs ++ [(t.buyOrderId, t.quantity)]) st₁ := by
    refine h.checkLeg ?_ (fun hnone => (hzero hnone).1) hbuy (hext'.length_le.trans hbound')
    rcases hlegs (t.buyOrderId, t.quantity) (by simp [legsOf]) with hid | ⟨d, hd, hid, hle⟩
    · exact Or.inl fun hmem => hid (hext'.mem_sliceIds (hext.mem_sliceIds hmem))
    · rw [traded_append, traded_leg_self] at hle
      exact Or.inr ⟨d, hd, hid, (Nat.le_add_right _ _).trans hle⟩
  refine h₁.checkLeg ?_ (fun hnone => (hzero hnone).2 st₁ (by rw [hbuy]; rfl)) hsell hbound'
  rcases hlegs (t.sellOrderId, t.quantity) (by simp [legsOf]) with hid | ⟨d, hd, hid, hle⟩
  · exact Or.inl fun hmem => hid (hext'.mem_sliceIds hmem)
  · rw [traded_leg_self] at hle
    exact Or.inr ⟨d, hext.mem_slices hd, hid, hle⟩

/-! ## The other events -/

theorem Totals.of_sameIcebergs (h : Totals accepted legs st) (hs : SameIcebergs st st') :
    Totals accepted legs st' := by
  refine ⟨h.keyed.of_sameIcebergs hs, hs.slices ▸ h.bound, h.inRange, fun o ho =>
    (h.standing o ho).of_unchanged ⟨?_, fun id => ?_, ?_, fun _ _ => rfl⟩⟩
  · rw [slicesOf, slicesOf, hs.slices]
  · rw [hs.children]
  · rw [hs.icebergs]

/-- No slice has been sent for an iceberg with a new id. -/
theorem Keyed.slicesOf_new (h : Keyed accepted st) (hnew : p ∉ idsOf accepted) :
    st.slicesOf p = [] := by
  refine List.eq_nil_iff_forall_not_mem.2 fun c hc => ?_
  obtain ⟨d, hd, hp, -⟩ := mem_slicesOf.1 hc
  exact hnew (hp ▸ h.owned d hd)

/-- The iceberg that is accepted. -/
theorem Keyed.standing_new (h : Keyed accepted st) (hnew : o.clientOrderId ∉ idsOf accepted)
    (hrange : o.quantity < 2 ^ 32)
    (hguard : o.isActive = false ∨ o.displayQuantity = 0 ∨ o.filledQuantity ≤ o.quantity)
    (legs : List (ℕ × ℕ)) :
    Standing o legs ((st.setIceberg o.clientOrderId o).sendSlice o.clientOrderId) := by
  have hslices : (st.setIceberg o.clientOrderId o).slicesOf o.clientOrderId = [] :=
    h.slicesOf_new hnew
  have hnoChild : ∀ id, (st.setIceberg o.clientOrderId o).childToParent id ≠
      some o.clientOrderId :=
    fun id hid => hnew (h.parent_mem hid)
  have hrecord : (st.setIceberg o.clientOrderId o).activeIcebergs o.clientOrderId = some o :=
    Function.update_self ..
  rcases hguard with hinactive | hdisplay | hfilled
  · have hsend : (st.setIceberg o.clientOrderId o).sendSlice o.clientOrderId =
        st.setIceberg o.clientOrderId o := by
      rw [Oms.sendSlice, iceberg_eq hrecord, setIceberg_self hrecord, if_pos (by simp [hinactive])]
    rw [hsend]
    refine Or.inl ⟨hnoChild, ?_⟩
    rw [hslices]
    exact Nat.zero_le _
  · rcases sendSlice_cases hrecord with heq | heq | ⟨-, -, heq⟩ <;> rw [heq]
    · exact Or.inr (Or.inl ⟨by rw [hslices]; rfl, by rw [iceberg_eq hrecord, hdisplay]⟩)
    · refine Or.inr (Or.inl ⟨?_, ?_⟩)
      · change totalQuantity ((st.setIceberg o.clientOrderId o).slicesOf o.clientOrderId) = 0
        rw [hslices]
        rfl
      · rw [iceberg_eq (Function.update_self ..)]
        exact hdisplay
    · refine Or.inr (Or.inl ⟨?_, ?_⟩)
      · rw [slicesOf_afterSlice_self, hslices, hdisplay, Nat.zero_min]
        rfl
      · change ((st.setIceberg o.clientOrderId o).iceberg o.clientOrderId).displayQuantity = 0
        rw [iceberg_eq hrecord, hdisplay]
  · have hbetween : Between o (st.setIceberg o.clientOrderId o) o.filledQuantity := by
      refine ⟨hnoChild, hfilled, ?_, fun _ => Or.inr ?_, o, hrecord, rfl, rfl, rfl, rfl⟩
      · rw [hslices]
        exact Nat.zero_le _
      · rw [hslices]
        rfl
    exact hbetween.sendSlice hrange legs

theorem Totals.accept (h : Totals accepted legs st) (hnew : o.clientOrderId ∉ idsOf accepted)
    (hrange : o.quantity < 2 ^ 32)
    (hguard : o.isActive = false ∨ o.displayQuantity = 0 ∨ o.filledQuantity ≤ o.quantity)
    (hbound' : ((st.setIceberg o.clientOrderId o).sendSlice o.clientOrderId).slices.length ≤
      2 ^ 64) :
    Totals (accepted ++ [o]) legs
      ((st.setIceberg o.clientOrderId o).sendSlice o.clientOrderId) := by
  refine ⟨h.keyed.accept hnew, hbound', fun o' ho' => ?_, fun o' ho' => ?_⟩
  · rcases List.mem_append.1 ho' with ho' | ho'
    · exact h.inRange o' ho'
    · rwa [List.mem_singleton.1 ho']
  · rcases List.mem_append.1 ho' with ho' | ho'
    · have hne : o'.clientOrderId ≠ o.clientOrderId :=
        fun heq => hnew (heq ▸ List.mem_map_of_mem ho')
      exact ((h.standing o' ho').of_unchanged (setIceberg_unchanged hne st o legs)).of_unchanged
        ((h.keyed.register hnew).sendSlice_unchanged (Keyed.mem_idsOf_append_self accepted o)
          hbound' legs hne)
    · rw [List.mem_singleton.1 ho']
      exact h.keyed.standing_new hnew hrange hguard legs

/-! ## Whole runs -/

namespace Session

variable {foreign : ℕ → Prop} {s s' : Session} {e : Event}

theorem step_ok (h : s.step std e = .ok s') : s.oms.step std e = .ok s'.oms ∧
    s'.accepted = s.accepted ++ icebergOf s.oms e ∧ s'.legs = s.legs ++ legsOfEvent e := by
  rw [step, bind_eq_ok] at h
  obtain ⟨oms, homs, h⟩ := h
  rw [← Except.ok.inj h]
  exact ⟨homs, rfl, rfl⟩

theorem totals_step (h : Totals s.accepted s.legs s.oms) (hreceived : s.Received std foreign e)
    (hguards : s.Guards e) (hstep : s.step std e = .ok s') :
    Totals s'.accepted s'.legs s'.oms := by
  obtain ⟨hok, haccepted, hlegs⟩ := step_ok hstep
  have hbound := (length_step_le hok).trans hguards.2
  rw [haccepted, hlegs]
  rcases icebergOf_cases s.oms e with hnone | ⟨newOrder, o, rfl, hone⟩
  · rw [hnone, List.append_nil]
    rcases e with newOrder | t | ⟨slot, ltp⟩
    · rw [← Except.ok.inj hok]
      change Totals _ (s.legs ++ []) _
      rw [List.append_nil]
      exact h.of_sameIcebergs (sameIcebergs_receive std s.oms newOrder hnone)
    · refine h.checkFill (fun leg hleg => ?_) hguards.1 hok hbound
      refine (hreceived.legs leg hleg).imp_left fun hforeign hmem => ?_
      exact hreceived.apart s' hstep leg.1 hmem hforeign
    · rw [← Except.ok.inj hok]
      change Totals _ (s.legs ++ []) _
      rw [List.append_nil]
      exact h.of_sameIcebergs (sameIcebergs_pollPrice std s.oms slot ltp)
  · have hmem : o ∈ icebergOf s.oms (.order newOrder) := by simp [hone]
    rw [Oms.step, receive_iceberg std hone, Except.ok.injEq] at hok
    rw [← hok] at hbound ⊢
    rw [hone]
    change Totals _ (s.legs ++ []) _
    rw [List.append_nil]
    exact h.accept (hreceived.distinct o hmem) (hreceived.inRange o hmem).1
      (hguards.1 o hmem) hbound

theorem totals_start (symbolLookupTable : ℕ → ℤ) (bootTimestamp : ℕ)
    (clock uninit : ℕ → ℕ) :
    Totals [] [] (.init symbolLookupTable bootTimestamp clock uninit) :=
  ⟨.init symbolLookupTable bootTimestamp clock uninit, Nat.zero_le _,
    fun _ ho => absurd ho List.not_mem_nil, fun _ ho => absurd ho List.not_mem_nil⟩

/-- In every run in which no iceberg that is sent comes with more filled than it has, no trade of
no units finds a parent at the end of a slice, and the ids of slices do not come round, the slices
of each iceberg have at most its quantity. -/
theorem run_sent_le (std : StdHeap ClientOrder) (foreign : ℕ → Prop)
    (symbolLookupTable : ℕ → ℤ) (bootTimestamp : ℕ) (clock uninit : ℕ → ℕ)
    {events : List Event}
    (hreceived : Runs.Always (fun s e s' => step std s e = .ok s') (Received std foreign)
      (start (.init symbolLookupTable bootTimestamp clock uninit)) events)
    (hguards : Runs.Always (fun s e s' => step std s e = .ok s') Guards
      (start (.init symbolLookupTable bootTimestamp clock uninit)) events)
    (hrun : (start (.init symbolLookupTable bootTimestamp clock uninit)).run std events = .ok s) :
    ∀ o ∈ s.accepted, totalQuantity (s.oms.slicesOf o.clientOrderId) ≤ o.quantity := by
  have hsteps := Runs.steps_iff_ok.2 hrun
  have h : Totals s.accepted s.legs s.oms :=
    Runs.Steps.invariant (I := fun s => Totals s.accepted s.legs s.oms)
      (P := fun s e => s.Received std foreign e ∧ s.Guards e)
      (fun h hallowed hstep => totals_step h hallowed.1 hallowed.2 hstep)
      (totals_start symbolLookupTable bootTimestamp clock uninit) (hreceived.and hguards) hsteps
  exact fun o ho => (h.standing o ho).total_le

/-- One of five units is filled when it comes, so its slices are given up at the multiples of
two. -/
def begunIceberg : ClientOrder :=
  { plainIceberg 1 5 2 with filledQuantity := 1 }

/-- The iceberg comes, and its slices are filled. -/
def begunRun : List Event :=
  [.order begunIceberg, .trade (sliceTrade (2 ^ 63 + 1) 1), .trade (sliceTrade (2 ^ 63 + 1) 1),
    .trade (sliceTrade (2 ^ 63 + 2) 2)]

theorem run_sent_le_begunRun : ∃ s, (start plainOms).run (.sorting _) begunRun = .ok s ∧
    s.accepted = [begunIceberg] ∧
    (s.oms.slicesOf 1).map Order.quantity = [2, 2, 1] ∧
    ∀ o ∈ s.accepted, totalQuantity (s.oms.slicesOf o.clientOrderId) ≤ o.quantity := by
  have hview : ((start plainOms).run (.sorting _) begunRun).map (fun s =>
      (s.accepted, (s.oms.slicesOf 1).map Order.quantity)) = .ok ([begunIceberg], [2, 2, 1]) := by
    decide +kernel
  obtain ⟨s, hrun, hview⟩ := map_eq_ok.1 hview
  obtain ⟨haccepted, hslices⟩ := Prod.mk.inj hview
  refine ⟨s, hrun, haccepted, hslices, run_sent_le _ (· = 7) _ _ _ _
    (Runs.always_of_allowed_ok ?_) (Runs.always_of_allowed_ok ?_) hrun⟩ <;> decide +kernel

/-- It has five units, and six of them are filled. -/
def overFilled : ClientOrder :=
  { plainIceberg 1 5 10 with filledQuantity := 6 }

/-- It buys, in one slice. -/
def oneSlice : ClientOrder :=
  { plainIceberg 1 5 5 with type := .buy }

/-- An order of no units is first in the book. -/
def emptyFirst : List Event :=
  [.order (plainLimit 7 .sell 100 0), .order (plainLimit 8 .sell 100 5), .order oneSlice]

/-- The trade of the slice with the order of no units. -/
def emptyTrade : Trade :=
  ⟨1, 2, 100, 2 ^ 63 + 1, 7, 0, 0⟩

/-- What is left of the iceberg that is overfilled is almost `2 ^ 32`, and a slice of ten units is
sent for it. For the other one two slices of five units are sent, since the first trade that the
engine makes of the first slice is of no units. -/
theorem over_sent :
    (∃ s, (start plainOms).run (.sorting _) [.order overFilled] = .ok s ∧
      Runs.Always (fun s e s' => step (.sorting _) s e = .ok s') (Received (.sorting _) (· = 7))
        (start plainOms) [.order overFilled] ∧
      overFilled ∈ s.accepted ∧
      overFilled.quantity < totalQuantity (s.oms.slicesOf overFilled.clientOrderId)) ∧
    ∃ s s' engine, (start plainOms).run (.sorting _) emptyFirst = .ok s ∧
      (EngineState.init zeroNodes 4 80 110).run (s.oms.dispatched.map Dispatch.order) =
        .ok engine ∧
      engine.published.head?.map Execution.trade = some emptyTrade ∧
      s.step (.sorting _) (.trade emptyTrade) = .ok s' ∧
      Runs.Always (fun s e s' => step (.sorting _) s e = .ok s')
        (Received (.sorting _) (fun id => id = 7 ∨ id = 8)) (start plainOms)
        (emptyFirst ++ [.trade emptyTrade]) ∧
      oneSlice ∈ s'.accepted ∧
      oneSlice.quantity < totalQuantity (s'.oms.slicesOf oneSlice.clientOrderId) := by
  constructor
  · have hview : ((start plainOms).run (.sorting _) [.order overFilled]).map (fun s =>
        decide (overFilled ∈ s.accepted ∧
          overFilled.quantity < totalQuantity (s.oms.slicesOf overFilled.clientOrderId))) =
        .ok true := by decide +kernel
    obtain ⟨s, hrun, hview⟩ := map_eq_ok.1 hview
    exact ⟨s, hrun, Runs.always_of_allowed_ok (by decide +kernel), of_decide_eq_true hview⟩
  · have hview : ((start plainOms).run (.sorting _) emptyFirst).map (fun s =>
        (((EngineState.init zeroNodes 4 80 110).run (s.oms.dispatched.map Dispatch.order)).map
          fun engine => engine.published.head?.map Execution.trade,
        (s.step (.sorting _) (.trade emptyTrade)).map fun s' => decide (oneSlice ∈ s'.accepted ∧
          oneSlice.quantity < totalQuantity (s'.oms.slicesOf oneSlice.clientOrderId)))) =
        .ok (.ok (some emptyTrade), .ok true) := by decide +kernel
    obtain ⟨s, hrun, hview⟩ := map_eq_ok.1 hview
    obtain ⟨hengine, hstep⟩ := Prod.mk.inj hview
    obtain ⟨engine, hengine, htrade⟩ := map_eq_ok.1 hengine
    obtain ⟨s', hstep, hsent⟩ := map_eq_ok.1 hstep
    exact ⟨s, s', engine, hrun, hengine, htrade, hstep,
      Runs.always_of_allowed_ok (by decide +kernel), of_decide_eq_true hsent⟩

end Session

end Oms

end TradeX
