import TradeX.Oms
import TradeX.Library.Runs
import Mathlib.Data.Nat.Bitwise

/-!
# The life cycle of an iceberg

An iceberg order is sent to the engine in slices, one at a time; `check_fill` takes a slice
for filled when the parent's filled quantity is a multiple of the display quantity or the
whole quantity. `LifeCycle` is what this should amount to, and `run_lifeCycle` proves it for
every run in which the trades are those of the slices : the slices before the live one are
full, so their sum is a multiple of the display quantity (`Live.aligned`), and the live one
is at most the display quantity.

The ids of the slices are counted up from `ICEBERG_BIT | 1` in 64 bits, so the slice after
`2 ^ 63 - 1` of them has an id without the `ICEBERG_BIT`, and its trades are ignored
(`lifeCycle_broken`).
-/

namespace TradeX

namespace Oms

variable {st st' : Oms} {o : ClientOrder} {id p q : ℕ} {legs : List (ℕ × ℕ)}

/-! ## What has been sent and traded -/

/-- The dispatches of slices. -/
def slices (st : Oms) : List Dispatch :=
  st.dispatched.filter fun d => d.site = .slice

/-- The ids of the slices that have been sent. -/
def sliceIds (st : Oms) : List ℕ :=
  st.slices.map fun d => d.order.orderId

/-- The slices of a parent. -/
def slicesOf (st : Oms) (parentId : ℕ) : List Order :=
  (st.slices.filter fun d => d.client.clientOrderId = parentId).map fun d => d.order

/-- The total quantity of orders. -/
def totalQuantity (orders : List Order) : ℕ :=
  (orders.map fun order => order.quantity).sum

/-- The quantity that an id has traded, from the legs of the trades. -/
def traded (legs : List (ℕ × ℕ)) (id : ℕ) : ℕ :=
  ((legs.filter fun leg => leg.1 = id).map fun leg => leg.2).sum

/-- The legs of a trade : the ids and what they trade. -/
def legsOf (t : Trade) : List (ℕ × ℕ) :=
  [(t.buyOrderId, t.quantity), (t.sellOrderId, t.quantity)]

theorem traded_append (legs legs' : List (ℕ × ℕ)) (id : ℕ) :
    traded (legs ++ legs') id = traded legs id + traded legs' id := by
  simp [traded]

theorem traded_singleton_self (id q : ℕ) : traded [(id, q)] id = q := by
  simp [traded]

theorem traded_singleton_of_ne {id' : ℕ} (h : id ≠ id') : traded [(id, q)] id' = 0 := by
  simp [traded, h]

/-- An id that no leg has has traded nothing. -/
theorem traded_eq_zero (h : ∀ leg ∈ legs, leg.1 ≠ id) : traded legs id = 0 := by
  rw [traded, List.filter_eq_nil_iff.2 fun leg hleg => by simpa using h leg hleg]
  rfl

@[simp] theorem totalQuantity_nil : totalQuantity [] = 0 := rfl

@[simp] theorem totalQuantity_append (l l' : List Order) :
    totalQuantity (l ++ l') = totalQuantity l + totalQuantity l' := by
  simp [totalQuantity]

@[simp] theorem totalQuantity_singleton (c : Order) : totalQuantity [c] = c.quantity := by
  simp [totalQuantity]

/-! ## The life cycle -/

/-- What holds of an accepted iceberg `o`, when the trades had `legs`. -/
structure LifeCycle (o : ClientOrder) (legs : List (ℕ × ℕ)) (st : Oms) : Prop where
  quantity : (st.iceberg o.clientOrderId).quantity = o.quantity
  oneChild : ∀ id id', st.childToParent id = some o.clientOrderId →
    st.childToParent id' = some o.clientOrderId → id = id'
  filled_eq : (st.iceberg o.clientOrderId).filledQuantity =
    ((st.slicesOf o.clientOrderId).map fun c => traded legs c.orderId).sum
  filled_le : (st.iceberg o.clientOrderId).filledQuantity ≤ o.quantity
  slice : ∀ c ∈ st.slicesOf o.clientOrderId, 1 ≤ c.quantity ∧
    c.quantity ≤ o.displayQuantity
  sent_le : totalQuantity (st.slicesOf o.clientOrderId) ≤ o.quantity
  /-- What has been sent is what has been filled and the unfilled part of the live slice. -/
  sent_eq : (∃ c ∈ st.slicesOf o.clientOrderId,
      st.childToParent c.orderId = some o.clientOrderId ∧
      traded legs c.orderId ≤ c.quantity ∧
      totalQuantity (st.slicesOf o.clientOrderId) =
        (st.iceberg o.clientOrderId).filledQuantity + (c.quantity - traded legs c.orderId)) ∨
    (∀ id, st.childToParent id ≠ some o.clientOrderId) ∧
      totalQuantity (st.slicesOf o.clientOrderId) = (st.iceberg o.clientOrderId).filledQuantity
  complete : (st.iceberg o.clientOrderId).filledQuantity = o.quantity →
    (st.iceberg o.clientOrderId).isActive = false ∧
      ∀ id, st.childToParent id ≠ some o.clientOrderId

/-- An iceberg as a client should send it. The quantities are `uint32_t`s. -/
structure WellFormed (o : ClientOrder) : Prop where
  isActive : o.isActive = true
  filledQuantity : o.filledQuantity = 0
  quantity : 0 < o.quantity ∧ o.quantity < 2 ^ 32
  displayQuantity : 0 < o.displayQuantity ∧ o.displayQuantity < 2 ^ 32

instance (o : ClientOrder) : Decidable (WellFormed o) :=
  decidable_of_iff (o.isActive = true ∧ o.filledQuantity = 0 ∧
      (0 < o.quantity ∧ o.quantity < 2 ^ 32) ∧ 0 < o.displayQuantity ∧
        o.displayQuantity < 2 ^ 32)
    ⟨fun h => ⟨h.1, h.2.1, h.2.2.1, h.2.2.2⟩,
      fun h => ⟨h.isActive, h.filledQuantity, h.quantity, h.displayQuantity⟩⟩

/-! ## Runs -/

/-- The system, with the icebergs it has accepted and the legs of the trades it has read. -/
structure Session where
  oms : Oms
  accepted : List ClientOrder
  legs : List (ℕ × ℕ)

namespace Session

variable (std : StdHeap ClientOrder)

/-- A session in which nothing has come. -/
def start (oms : Oms) : Session :=
  ⟨oms, [], []⟩

/-- The iceberg that an event brings in. -/
def icebergOf (oms : Oms) : Event → List ClientOrder
  | .order newOrder =>
    if (oms.withSymbolId newOrder).symbolId ≠ 2 ^ 32 - 1 ∧
      newOrder.executionType = .iceberg then
      [oms.withSymbolId newOrder]
    else []
  | _ => []

/-- The legs that an event brings. -/
def legsOfEvent : Event → List (ℕ × ℕ)
  | .trade t => legsOf t
  | _ => []

/-- A step of the thread, which notes the icebergs that are accepted and the legs of trades. -/
def step (s : Session) (e : Event) : Except Fault Session := do
  let oms ← s.oms.step std e
  .ok ⟨oms, s.accepted ++ icebergOf s.oms e, s.legs ++ legsOfEvent e⟩

/-- Steps of the thread, one after the other. -/
def run (s : Session) (events : List Event) : Except Fault Session :=
  events.foldlM (step std) s

/-- A leg is of an order that is not a slice, or of a slice that has been sent, which it
fills by a positive quantity and not beyond its own. -/
def LegAllowed (foreign : ℕ → Prop) (s : Session) (e : Event) (leg : ℕ × ℕ) : Prop :=
  foreign leg.1 ∨ 0 < leg.2 ∧ ∃ d ∈ s.oms.slices, d.order.orderId = leg.1 ∧
    traded (s.legs ++ legsOfEvent e) leg.1 ≤ d.order.quantity

/-- What a run may be given, when the ids that orders other than slices carry are
`foreign`. -/
structure Allowed (foreign : ℕ → Prop) (s : Session) (e : Event) : Prop where
  wellFormed : ∀ o ∈ icebergOf s.oms e, WellFormed o
  distinct : ∀ o ∈ icebergOf s.oms e,
    o.clientOrderId ∉ s.accepted.map ClientOrder.clientOrderId
  legs : ∀ leg ∈ legsOfEvent e, LegAllowed foreign s e leg
  apart : ∀ s', s.step std e = .ok s' → ∀ id ∈ s'.oms.sliceIds, ¬foreign id

instance (foreign : ℕ → Prop) [DecidablePred foreign] (s : Session) (e : Event)
    (leg : ℕ × ℕ) : Decidable (LegAllowed foreign s e leg) :=
  inferInstanceAs (Decidable (_ ∨ _ ∧ _))

instance (foreign : ℕ → Prop) [DecidablePred foreign] (s : Session) (e : Event) :
    Decidable (Allowed std foreign s e) :=
  decidable_of_iff ((∀ o ∈ icebergOf s.oms e, WellFormed o) ∧
      (∀ o ∈ icebergOf s.oms e,
        o.clientOrderId ∉ s.accepted.map ClientOrder.clientOrderId) ∧
      (∀ leg ∈ legsOfEvent e, LegAllowed foreign s e leg) ∧
      ∀ s' ∈ (s.step std e).toOption, ∀ id ∈ s'.oms.sliceIds, ¬foreign id)
    ⟨fun h => ⟨h.1, h.2.1, h.2.2.1, fun s' hs' => h.2.2.2 s' (by rw [hs']; rfl)⟩,
      fun h => ⟨h.wellFormed, h.distinct, h.legs, fun s' hs' => h.apart s' (by
        cases hstep : s.step std e <;> simp_all [Except.toOption])⟩⟩

end Session

/-! ## Sending a slice -/

/-- The order that `send_slice` dispatches. -/
def sliceOrder (st : Oms) (parent : ClientOrder) (quantity : ℕ) : Order where
  orderId := st.nextChildOrderId
  executionType := .limit
  price := parent.price
  timestamp := st.getCurrentTimestamp
  traderId := parent.traderId
  type := parent.type
  symbolId := parent.symbolId
  quantity := quantity
  clientOrderId := st.nextChildOrderId

/-- The state after `send_slice` has dispatched a slice of `quantity`. -/
def afterSlice (st : Oms) (parentId : ℕ) (parent : ClientOrder) (quantity : ℕ) : Oms :=
  { st with
    nextChildOrderId := add64 st.nextChildOrderId 1
    childToParent := Function.update st.childToParent st.nextChildOrderId (some parentId)
    dispatched := st.dispatched ++ [⟨.slice, parent, st.sliceOrder parent quantity⟩] }

theorem iceberg_eq {parent : ClientOrder} (hp : st.activeIcebergs p = some parent) :
    st.iceberg p = parent := by
  rw [iceberg, hp, Option.getD_some]

theorem setIceberg_self {parent : ClientOrder} (hp : st.activeIcebergs p = some parent) :
    st.setIceberg p parent = st := by
  rw [setIceberg, ← hp, Function.update_eq_self]

theorem sub32_of_le {a b : ℕ} (h : b ≤ a) (ha : a < 2 ^ 32) : sub32 a b = a - b := by
  rw [sub32]
  omega

/-- A parent that is not filled gets a slice. -/
theorem sendSlice_of_lt {parent : ClientOrder} (hp : st.activeIcebergs p = some parent)
    (hactive : parent.isActive = true) (hlt : parent.filledQuantity < parent.quantity)
    (hq : parent.quantity < 2 ^ 32) : st.sendSlice p = st.afterSlice p parent
      (min parent.displayQuantity (parent.quantity - parent.filledQuantity)) := by
  have hrem : sub32 parent.quantity parent.filledQuantity ≠ 0 := by
    rw [sub32_of_le hlt.le hq]
    omega
  simp only [sendSlice, iceberg_eq hp, setIceberg_self hp, hactive, hrem]
  rw [sub32_of_le hlt.le hq]
  rfl

/-- A parent that is filled is closed. -/
theorem sendSlice_of_filled {parent : ClientOrder} (hp : st.activeIcebergs p = some parent)
    (hactive : parent.isActive = true) (heq : parent.filledQuantity = parent.quantity)
    (hq : parent.quantity < 2 ^ 32) :
    st.sendSlice p = st.setIceberg p { parent with isActive := false } := by
  have hrem : sub32 parent.quantity parent.filledQuantity = 0 := by
    rw [sub32_of_le heq.le hq]
    omega
  simp only [sendSlice, iceberg_eq hp, setIceberg_self hp, hactive, hrem]
  rfl

theorem slices_afterSlice (st : Oms) (p : ℕ) (parent : ClientOrder) (q : ℕ) :
    (st.afterSlice p parent q).slices =
    st.slices ++ [⟨.slice, parent, st.sliceOrder parent q⟩] := by
  simp [slices, afterSlice]

theorem sliceIds_afterSlice (st : Oms) (p : ℕ) (parent : ClientOrder) (q : ℕ) :
    (st.afterSlice p parent q).sliceIds = st.sliceIds ++ [st.nextChildOrderId] := by
  simp [sliceIds, slices_afterSlice, sliceOrder]

theorem length_slices_afterSlice (st : Oms) (p : ℕ) (parent : ClientOrder) (q : ℕ) :
    (st.afterSlice p parent q).slices.length = st.slices.length + 1 := by
  rw [slices_afterSlice, List.length_append, List.length_singleton]

/-- The counter goes on with the slices. -/
theorem counter_afterSlice (h : st.nextChildOrderId = (icebergBit + 1 + st.slices.length) % 2 ^ 64)
    (p : ℕ) (parent : ClientOrder) (q : ℕ) : (st.afterSlice p parent q).nextChildOrderId =
      (icebergBit + 1 + (st.afterSlice p parent q).slices.length) % 2 ^ 64 := by
  have hnext : (st.afterSlice p parent q).nextChildOrderId = add64 st.nextChildOrderId 1 := rfl
  rw [length_slices_afterSlice, hnext, h, add64, Nat.mod_add_mod, Nat.add_assoc]

/-- What holds of the slices before and of the new one holds of all. -/
theorem forall_slices_afterSlice {P : Dispatch → Prop} {p q : ℕ} {parent : ClientOrder}
    (h : ∀ d ∈ st.slices, P d) (hnew : P ⟨.slice, parent, st.sliceOrder parent q⟩) :
    ∀ d ∈ (st.afterSlice p parent q).slices, P d := by
  intro d hd
  rw [slices_afterSlice] at hd
  rcases List.mem_append.1 hd with hd | hd
  · exact h d hd
  · rwa [List.mem_singleton.1 hd]

theorem slicesOf_afterSlice_self (st : Oms) (parent : ClientOrder) (q : ℕ) :
    (st.afterSlice parent.clientOrderId parent q).slicesOf parent.clientOrderId =
      st.slicesOf parent.clientOrderId ++ [st.sliceOrder parent q] := by
  simp [slicesOf, slices_afterSlice]

theorem slicesOf_afterSlice_of_ne {p' : ℕ} {parent : ClientOrder}
    (h : p' ≠ parent.clientOrderId) (st : Oms) (q : ℕ) :
    (st.afterSlice parent.clientOrderId parent q).slicesOf p' = st.slicesOf p' := by
  simp [slicesOf, slices_afterSlice, h.symm]

/-! ## What the calls do -/

/-- `filled_quantity` of a parent grows by `q`. -/
def fill (st : Oms) (p q : ℕ) : Oms :=
  st.setIceberg p { st.iceberg p with filledQuantity := add32 (st.iceberg p).filledQuantity q }

/-- An id is taken out of the registry. -/
def unregister (st : Oms) (id : ℕ) : Oms :=
  { st with childToParent := Function.update st.childToParent id none }

/-- The test of `check_fill`. -/
def SliceFilled (parent : ClientOrder) : Prop :=
  parent.filledQuantity % parent.displayQuantity = 0 ∨ parent.filledQuantity = parent.quantity

instance (parent : ClientOrder) : Decidable (SliceFilled parent) :=
  inferInstanceAs (Decidable (_ ∨ _))

/-- A parent that there is gets nothing, or is closed, or gets a slice. -/
theorem sendSlice_cases {parent : ClientOrder} (hp : st.activeIcebergs p = some parent) :
    st.sendSlice p = st ∨
    st.sendSlice p = st.setIceberg p { parent with isActive := false } ∨
    parent.isActive = true ∧ sub32 parent.quantity parent.filledQuantity ≠ 0 ∧
      st.sendSlice p = st.afterSlice p parent
        (min parent.displayQuantity (sub32 parent.quantity parent.filledQuantity)) := by
  simp only [sendSlice, iceberg_eq hp, setIceberg_self hp]
  split_ifs with hactive hremaining
  · exact Or.inr (Or.inl rfl)
  · exact Or.inr (Or.inr ⟨hactive, hremaining, rfl⟩)
  · exact Or.inl rfl

/-- A leg of an id without a parent is ignored, else it fills the parent, and if the slice counts
as filled, the next one is sent. -/
theorem checkLeg_cases (h : st.checkLeg id q = .ok st') :
    st' = st ∧ (¬isIceberg id ∨ st.childToParent id = none) ∨
      ∃ p, st.childToParent id = some p ∧ isIceberg id ∧
        (st.iceberg p).displayQuantity ≠ 0 ∧
        (¬SliceFilled ((st.fill p q).iceberg p) ∧ st' = st.fill p q ∨
          SliceFilled ((st.fill p q).iceberg p) ∧
            st' = ((st.fill p q).unregister id).sendSlice p) := by
  rw [checkLeg] at h
  split_ifs at h with hbit
  · rw [processIcebergLeg] at h
    split at h
    next hnone => exact Or.inl ⟨(Except.ok.inj h).symm, Or.inr hnone⟩
    next p hchild =>
      have hparent : (st.fill p q).iceberg p = { st.iceberg p with
          filledQuantity := add32 (st.iceberg p).filledQuantity q } :=
        iceberg_eq (Function.update_self ..)
      simp only at h
      split_ifs at h with hzero hfilled
      · refine Or.inr ⟨p, hchild, hbit, hzero, Or.inr ⟨?_, (Except.ok.inj h).symm⟩⟩
        rw [hparent]
        exact hfilled
      · refine Or.inr ⟨p, hchild, hbit, hzero, Or.inl ⟨?_, (Except.ok.inj h).symm⟩⟩
        rw [hparent]
        exact hfilled
  · exact Or.inl ⟨(Except.ok.inj h).symm, Or.inl hbit⟩

/-! ## The state of a parent -/

/-- A slice that has been filled. -/
structure FullSlice (o : ClientOrder) (legs : List (ℕ × ℕ)) (c : Order) : Prop where
  traded : traded legs c.orderId = c.quantity
  bounds : 1 ≤ c.quantity ∧ c.quantity ≤ o.displayQuantity

/-- The parent has the live slice `c`, and the slices before it are full. -/
structure Live (o : ClientOrder) (legs : List (ℕ × ℕ)) (st : Oms) (full : List Order)
    (c : Order) : Prop where
  slices : st.slicesOf o.clientOrderId = full ++ [c]
  filled : ∀ x ∈ full, FullSlice o legs x
  aligned : o.displayQuantity ∣ totalQuantity full
  room : totalQuantity full < o.quantity
  size : c.quantity = min o.displayQuantity (o.quantity - totalQuantity full)
  short : traded legs c.orderId < c.quantity
  child : ∀ id, st.childToParent id = some o.clientOrderId ↔ id = c.orderId
  parent : st.activeIcebergs o.clientOrderId =
    some { o with filledQuantity := totalQuantity full + traded legs c.orderId }

/-- The parent is filled. -/
structure Finished (o : ClientOrder) (legs : List (ℕ × ℕ)) (st : Oms) : Prop where
  full : ∀ x ∈ st.slicesOf o.clientOrderId, FullSlice o legs x
  total : totalQuantity (st.slicesOf o.clientOrderId) = o.quantity
  noChild : ∀ id, st.childToParent id ≠ some o.clientOrderId
  parent : st.activeIcebergs o.clientOrderId =
    some { o with filledQuantity := o.quantity, isActive := false }

/-- An iceberg is live or finished. -/
def Status (o : ClientOrder) (legs : List (ℕ × ℕ)) (st : Oms) : Prop :=
  (∃ full c, Live o legs st full c) ∨ Finished o legs st

/-- The parent when `send_slice` is called : all its slices are full. -/
structure Ready (o : ClientOrder) (legs : List (ℕ × ℕ)) (st : Oms) : Prop where
  full : ∀ x ∈ st.slicesOf o.clientOrderId, FullSlice o legs x
  total_le : totalQuantity (st.slicesOf o.clientOrderId) ≤ o.quantity
  aligned : totalQuantity (st.slicesOf o.clientOrderId) ≠ o.quantity →
    o.displayQuantity ∣ totalQuantity (st.slicesOf o.clientOrderId)
  noChild : ∀ id, st.childToParent id ≠ some o.clientOrderId
  parent : st.activeIcebergs o.clientOrderId =
    some { o with filledQuantity := totalQuantity (st.slicesOf o.clientOrderId) }

/-- Nothing happens to a parent. -/
structure Unchanged (p : ℕ) (legs : List (ℕ × ℕ)) (st : Oms) (legs' : List (ℕ × ℕ))
    (st' : Oms) : Prop where
  slicesOf : st'.slicesOf p = st.slicesOf p
  child : ∀ id, st'.childToParent id = some p ↔ st.childToParent id = some p
  parent : st'.activeIcebergs p = st.activeIcebergs p
  traded : ∀ c ∈ st.slicesOf p, traded legs' c.orderId = traded legs c.orderId

theorem setIceberg_unchanged {p' : ℕ} (hne : p' ≠ p) (st : Oms) (o : ClientOrder)
    (legs : List (ℕ × ℕ)) : Unchanged p' legs st legs (st.setIceberg p o) :=
  ⟨rfl, fun _ => Iff.rfl, Function.update_of_ne hne .., fun _ _ => rfl⟩

theorem unregister_unchanged (hchild : st.childToParent id = some p) {p' : ℕ} (hne : p' ≠ p)
    (legs : List (ℕ × ℕ)) : Unchanged p' legs st legs (st.unregister id) := by
  refine ⟨rfl, fun id' => ?_, rfl, fun _ _ => rfl⟩
  simp only [unregister]
  rcases eq_or_ne id' id with rfl | hid
  · rw [Function.update_self, hchild]
    simp [hne.symm]
  · rw [Function.update_of_ne hid]

/-- A slice with a new id is sent for another parent. -/
theorem afterSlice_unchanged {p' : ℕ} {parent : ClientOrder} (hne : p' ≠ parent.clientOrderId)
    (hfresh : st.childToParent st.nextChildOrderId = none) (q : ℕ) (legs : List (ℕ × ℕ)) :
    Unchanged p' legs st legs (st.afterSlice parent.clientOrderId parent q) := by
  refine ⟨slicesOf_afterSlice_of_ne hne st q, fun id => ?_, rfl, fun _ _ => rfl⟩
  simp only [afterSlice]
  rcases eq_or_ne id st.nextChildOrderId with rfl | hold
  · rw [Function.update_self, hfresh]
    simp [hne.symm]
  · rw [Function.update_of_ne hold]

theorem FullSlice.of_traded_eq {c : Order} {legs' : List (ℕ × ℕ)} (h : FullSlice o legs c)
    (heq : Oms.traded legs' c.orderId = Oms.traded legs c.orderId) : FullSlice o legs' c :=
  ⟨heq.trans h.traded, h.bounds⟩

theorem Status.of_unchanged {legs' : List (ℕ × ℕ)} (h : Status o legs st)
    (hu : Unchanged o.clientOrderId legs st legs' st') : Status o legs' st' := by
  rcases h with ⟨full, c, h⟩ | h
  · have hmem : ∀ x ∈ full, x ∈ st.slicesOf o.clientOrderId := fun x hx => by
      rw [h.slices]
      exact List.mem_append_left _ hx
    have hc : traded legs' c.orderId = traded legs c.orderId := hu.traded c (by simp [h.slices])
    refine Or.inl ⟨full, c, hu.slicesOf.trans h.slices,
      fun x hx => (h.filled x hx).of_traded_eq (hu.traded x (hmem x hx)), h.aligned, h.room, h.size,
      hc ▸ h.short, fun id => (hu.child id).trans (h.child id), ?_⟩
    rw [hu.parent, h.parent, hc]
  · refine Or.inr ⟨fun x hx => ?_, ?_, fun id hid => h.noChild id ((hu.child id).1 hid),
      hu.parent.trans h.parent⟩
    · rw [hu.slicesOf] at hx
      exact (h.full x hx).of_traded_eq (hu.traded x hx)
    · rw [hu.slicesOf]
      exact h.total

theorem sum_traded_of_full {full : List Order} (h : ∀ x ∈ full, FullSlice o legs x) :
    (full.map fun c => traded legs c.orderId).sum = totalQuantity full := by
  rw [totalQuantity, List.map_congr_left fun x hx => (h x hx).traded]

/-- A parent in one of the two states is as it should be. -/
theorem Status.lifeCycle (h : Status o legs st) (hwf : WellFormed o) : LifeCycle o legs st := by
  rcases h with ⟨full, c, h⟩ | h
  · have hice := iceberg_eq h.parent
    have hsize := h.size
    have hroom := h.room
    have hshort := h.short
    have hpos := hwf.displayQuantity.1
    refine ⟨by rw [hice], fun id id' hid hid' => ?_, ?_, ?_, fun x hx => ?_, ?_, Or.inl ?_,
      fun hfilled => ?_⟩
    · rw [(h.child id).1 hid, (h.child id').1 hid']
    · rw [hice, h.slices, List.map_append, List.sum_append, sum_traded_of_full h.filled]
      simp
    · rw [hice]
      simp only
      omega
    · rw [h.slices] at hx
      rcases List.mem_append.1 hx with hx | hx
      · exact (h.filled x hx).bounds
      · rw [List.mem_singleton.1 hx]
        omega
    · rw [h.slices, totalQuantity_append, totalQuantity_singleton]
      omega
    · refine ⟨c, by simp [h.slices], (h.child _).2 rfl, hshort.le, ?_⟩
      rw [hice, h.slices, totalQuantity_append, totalQuantity_singleton]
      simp only
      omega
    · rw [hice] at hfilled
      simp only at hfilled
      omega
  · have hice := iceberg_eq h.parent
    refine ⟨by rw [hice], fun id _ hid => absurd hid (h.noChild id), ?_, ?_,
      fun x hx => (h.full x hx).bounds, h.total.le, Or.inr ⟨h.noChild, ?_⟩,
        fun _ => ⟨?_, h.noChild⟩⟩
    · rw [hice, sum_traded_of_full h.full, h.total]
    · rw [hice]
    · rw [hice, h.total]
    · rw [hice]

/-! ## The state of all parents -/

/-- How the ids of slices are given out, and whose they are. -/
structure Registered (foreign : ℕ → Prop) (accepted : List ClientOrder)
    (legs : List (ℕ × ℕ)) (st : Oms) : Prop where
  counter : st.nextChildOrderId = (icebergBit + 1 + st.slices.length) % 2 ^ 64
  ids : st.sliceIds = (List.range st.slices.length).map (icebergBit + 1 + ·)
  distinct : (accepted.map ClientOrder.clientOrderId).Nodup
  wellFormed : ∀ o ∈ accepted, WellFormed o
  owned : ∀ d ∈ st.slices, d.client.clientOrderId ∈ accepted.map ClientOrder.clientOrderId
  children : ∀ id p, st.childToParent id = some p →
    p ∈ accepted.map ClientOrder.clientOrderId ∧ id ∈ st.sliceIds
  legs : ∀ leg ∈ legs, leg.1 ∈ st.sliceIds ∨ foreign leg.1

/-- The ids of slices that have the `ICEBERG_BIT`. -/
def maxSlices : ℕ := 2 ^ 63 - 1

variable {foreign : ℕ → Prop} {accepted : List ClientOrder}

namespace Registered

/-- The next id is not in use. -/
theorem fresh (h : Registered foreign accepted legs st) (hlt : st.slices.length < maxSlices) :
    st.nextChildOrderId = icebergBit + 1 + st.slices.length ∧
      st.nextChildOrderId ∉ st.sliceIds := by
  have hnext : st.nextChildOrderId = icebergBit + 1 + st.slices.length := by
    rw [h.counter, Nat.mod_eq_of_lt]
    simp only [icebergBit, maxSlices] at hlt ⊢
    omega
  refine ⟨hnext, fun hmem => ?_⟩
  rw [h.ids, hnext] at hmem
  obtain ⟨j, hj, heq⟩ := List.mem_map.1 hmem
  have := List.mem_range.1 hj
  omega

/-- A fresh id has no parent. -/
theorem childToParent_fresh (h : Registered foreign accepted legs st)
    (hlt : st.slices.length < maxSlices) : st.childToParent st.nextChildOrderId = none := by
  cases hchild : st.childToParent st.nextChildOrderId with
  | none => rfl
  | some p => exact absurd (h.children _ p hchild).2 (h.fresh hlt).2

/-- Parents with one id are one parent. -/
theorem eq_of_clientOrderId (h : Registered foreign accepted legs st) {o o' : ClientOrder}
    (ho : o ∈ accepted) (ho' : o' ∈ accepted) (heq : o.clientOrderId = o'.clientOrderId) :
    o = o' :=
  List.inj_on_of_nodup_map h.distinct ho ho' heq

/-- Slices with one id are one slice. -/
theorem eq_of_orderId (h : Registered foreign accepted legs st) {d d' : Dispatch}
    (hd : d ∈ st.slices) (hd' : d' ∈ st.slices) (heq : d.order.orderId = d'.order.orderId) :
    d = d' := by
  have hnodup : st.sliceIds.Nodup := by
    rw [h.ids]
    exact List.nodup_range.map fun a b hab => Nat.add_left_cancel hab
  exact List.inj_on_of_nodup_map hnodup hd hd' heq

/-- The ids of slices have the `ICEBERG_BIT`. -/
theorem isIceberg (h : Registered foreign accepted legs st)
    (hbound : st.slices.length ≤ maxSlices) (hid : id ∈ st.sliceIds) : isIceberg id := by
  rw [h.ids] at hid
  obtain ⟨j, hj, rfl⟩ := List.mem_map.1 hid
  have hj := List.mem_range.1 hj
  have hlt : j + 1 < 2 ^ 63 := by
    simp only [maxSlices] at hbound
    omega
  have hand : (icebergBit + 1 + j) &&& icebergBit = icebergBit := by
    rw [icebergBit, Nat.and_two_pow, Nat.add_assoc, Nat.add_comm 1 j,
      Nat.testBit_two_pow_add_eq, Nat.testBit_lt_two_pow hlt]
    rfl
  rw [TradeX.isIceberg, hand]
  decide

theorem of_same (h : Registered foreign accepted legs st) {legs' : List (ℕ × ℕ)}
    (hnext : st'.nextChildOrderId = st.nextChildOrderId) (hslices : st'.slices = st.slices)
    (hchild : ∀ id p, st'.childToParent id = some p → st.childToParent id = some p)
    (hlegs : ∀ leg ∈ legs', leg.1 ∈ st.sliceIds ∨ foreign leg.1) :
    Registered foreign accepted legs' st' := by
  have hids : st'.sliceIds = st.sliceIds := by rw [sliceIds, sliceIds, hslices]
  refine ⟨?_, ?_, h.distinct, h.wellFormed, ?_, fun id p hid => ?_, fun leg hleg => ?_⟩
  · rw [hnext, hslices]
    exact h.counter
  · rw [hids, hslices]
    exact h.ids
  · rw [hslices]
    exact h.owned
  · rw [hids]
    exact h.children id p (hchild id p hid)
  · rw [hids]
    exact hlegs leg hleg

theorem afterSlice (h : Registered foreign accepted legs st) {parent : ClientOrder}
    (hlt : st.slices.length < maxSlices)
    (hparent : parent.clientOrderId ∈ accepted.map ClientOrder.clientOrderId) :
    Registered foreign accepted legs (st.afterSlice parent.clientOrderId parent q) where
  counter := counter_afterSlice h.counter ..
  ids := by
    rw [sliceIds_afterSlice, length_slices_afterSlice, List.range_succ, List.map_append, ← h.ids,
      (h.fresh hlt).1]
    rfl
  distinct := h.distinct
  wellFormed := h.wellFormed
  owned := forall_slices_afterSlice h.owned hparent
  children id p hid := by
    rw [sliceIds_afterSlice]
    simp only [Oms.afterSlice] at hid
    rcases eq_or_ne id st.nextChildOrderId with rfl | hne
    · rw [Function.update_self, Option.some.injEq] at hid
      exact ⟨hid ▸ hparent, by simp⟩
    · rw [Function.update_of_ne hne] at hid
      obtain ⟨hp, hmem⟩ := h.children id p hid
      exact ⟨hp, List.mem_append_left _ hmem⟩
  legs leg hleg := by
    rw [sliceIds_afterSlice]
    exact (h.legs leg hleg).imp_left (List.mem_append_left _)

end Registered

/-- The invariant of a session. -/
structure Inv (foreign : ℕ → Prop) (accepted : List ClientOrder) (legs : List (ℕ × ℕ))
    (st : Oms) : Prop where
  registered : Registered foreign accepted legs st
  status : ∀ o ∈ accepted, Status o legs st

/-- The fresh id has not traded. -/
theorem Registered.traded_fresh (h : Registered foreign accepted legs st)
    (hlt : st.slices.length < maxSlices) (hapart : ¬foreign st.nextChildOrderId) :
    traded legs st.nextChildOrderId = 0 := by
  refine traded_eq_zero fun leg hleg heq => ?_
  rcases h.legs leg hleg with hmem | hforeign
  · exact (h.fresh hlt).2 (heq ▸ hmem)
  · exact hapart (heq ▸ hforeign)

/-- A parent that is ready gets a live slice. -/
theorem Ready.afterSlice (h : Ready o legs st) (hreg : Registered foreign accepted legs st)
    (hwf : WellFormed o) (hlt : st.slices.length < maxSlices)
    (hapart : ¬foreign st.nextChildOrderId)
    (hroom : totalQuantity (st.slicesOf o.clientOrderId) < o.quantity) {parent : ClientOrder}
    (hparent : parent = { o with filledQuantity := totalQuantity (st.slicesOf o.clientOrderId) }) :
    Live o legs (st.afterSlice o.clientOrderId parent (min o.displayQuantity
      (o.quantity - totalQuantity (st.slicesOf o.clientOrderId)))) (st.slicesOf o.clientOrderId)
      (st.sliceOrder parent (min o.displayQuantity
        (o.quantity - totalQuantity (st.slicesOf o.clientOrderId)))) := by
  have hid : parent.clientOrderId = o.clientOrderId := by rw [hparent]
  have htraded := hreg.traded_fresh hlt hapart
  refine ⟨?_, h.full, h.aligned hroom.ne, hroom, rfl, ?_, fun id => ?_, ?_⟩
  · rw [← hid]
    exact slicesOf_afterSlice_self st parent _
  · simp only [sliceOrder, htraded]
    have := hwf.displayQuantity.1
    omega
  · simp only [Oms.afterSlice, sliceOrder]
    rcases eq_or_ne id st.nextChildOrderId with rfl | hne
    · simp
    · rw [Function.update_of_ne hne]
      exact iff_of_false (h.noChild id) hne
  · simp only [sliceOrder, htraded]
    exact h.parent

/-- A parent whose slices fill it is finished. -/
theorem Ready.finished (h : Ready o legs st)
    (htotal : totalQuantity (st.slicesOf o.clientOrderId) = o.quantity) {parent : ClientOrder}
    (hparent : parent = { o with filledQuantity := totalQuantity (st.slicesOf o.clientOrderId) }) :
    Finished o legs (st.setIceberg o.clientOrderId { parent with isActive := false }) := by
  refine ⟨h.full, htotal, h.noChild, ?_⟩
  simp [setIceberg, hparent, htotal]

/-- `send_slice` for a parent that is ready. -/
theorem Registered.sendSlice (hreg : Registered foreign accepted legs st) (ho : o ∈ accepted)
    (hready : Ready o legs st)
    (hothers : ∀ o' ∈ accepted, o'.clientOrderId ≠ o.clientOrderId → Status o' legs st)
    (hbound : (st.sendSlice o.clientOrderId).slices.length ≤ maxSlices)
    (hapart : ∀ id ∈ (st.sendSlice o.clientOrderId).sliceIds, ¬foreign id) :
    Inv foreign accepted legs (st.sendSlice o.clientOrderId) := by
  have hwf := hreg.wellFormed o ho
  obtain ⟨parent, hparent⟩ : ∃ parent, parent =
      { o with filledQuantity := totalQuantity (st.slicesOf o.clientOrderId) } := ⟨_, rfl⟩
  have hget : st.activeIcebergs o.clientOrderId = some parent := hparent ▸ hready.parent
  have hactive : parent.isActive = true := by rw [hparent]; exact hwf.isActive
  have hid : parent.clientOrderId = o.clientOrderId := by rw [hparent]
  have hq : parent.quantity < 2 ^ 32 := by rw [hparent]; exact hwf.quantity.2
  rcases hready.total_le.lt_or_eq with hroom | htotal
  · have heq := sendSlice_of_lt hget hactive (by rw [hparent]; exact hroom) hq
    have hqty : min parent.displayQuantity (parent.quantity - parent.filledQuantity) =
        min o.displayQuantity (o.quantity - totalQuantity (st.slicesOf o.clientOrderId)) := by
      rw [hparent]
    rw [hqty] at heq
    rw [heq] at hbound hapart ⊢
    rw [length_slices_afterSlice] at hbound
    have hfresh : ¬foreign st.nextChildOrderId := by
      refine hapart _ ?_
      rw [sliceIds_afterSlice]
      simp
    refine ⟨hid ▸ hreg.afterSlice hbound (hid ▸ List.mem_map_of_mem ho), fun o' ho' => ?_⟩
    rcases eq_or_ne o'.clientOrderId o.clientOrderId with hsame | hne
    · rw [hreg.eq_of_clientOrderId ho' ho hsame]
      exact Or.inl ⟨_, _, hready.afterSlice hreg hwf hbound hfresh hroom hparent⟩
    · rw [← hid] at hne ⊢
      exact (hothers o' ho' (hid ▸ hne)).of_unchanged
        (afterSlice_unchanged hne (hreg.childToParent_fresh hbound) _ legs)
  · rw [sendSlice_of_filled hget hactive (by rw [hparent]; exact htotal) hq]
    refine ⟨hreg.of_same rfl rfl (fun _ _ hid => hid) hreg.legs, fun o' ho' => ?_⟩
    rcases eq_or_ne o'.clientOrderId o.clientOrderId with hsame | hne
    · rw [hreg.eq_of_clientOrderId ho' ho hsame]
      exact Or.inr (hready.finished htotal hparent)
    · exact (hothers o' ho' hne).of_unchanged (setIceberg_unchanged hne st _ legs)

/-! ## A leg of a trade -/

theorem mem_slicesOf {c : Order} :
    c ∈ st.slicesOf p ↔ ∃ d ∈ st.slices, d.client.clientOrderId = p ∧ d.order = c := by
  simp [slicesOf, and_assoc]

theorem traded_leg_of_ne {id' : ℕ} (h : id' ≠ id) (legs : List (ℕ × ℕ)) (q : ℕ) :
    traded (legs ++ [(id, q)]) id' = traded legs id' := by
  rw [traded_append, traded_singleton_of_ne h.symm, Nat.add_zero]

theorem traded_leg_self (legs : List (ℕ × ℕ)) (id q : ℕ) :
    traded (legs ++ [(id, q)]) id = traded legs id + q := by
  rw [traded_append, traded_singleton_self]

/-- An id that is not a slice's has no parent. -/
theorem Registered.childToParent_eq_none (h : Registered foreign accepted legs st)
    (hid : id ∉ st.sliceIds) : st.childToParent id = none := by
  cases hchild : st.childToParent id with
  | none => rfl
  | some p => exact absurd (h.children id p hchild).2 hid

/-- A leg of another order changes nothing. -/
theorem Inv.checkLeg_of_foreign (h : Inv foreign accepted legs st) (hid : id ∉ st.sliceIds)
    (hforeign : foreign id) :
    st.checkLeg id q = .ok st ∧ Inv foreign accepted (legs ++ [(id, q)]) st := by
  constructor
  · rw [checkLeg, processIcebergLeg, h.registered.childToParent_eq_none hid]
    exact ite_self _
  · refine ⟨h.registered.of_same rfl rfl (fun _ _ hc => hc) fun leg hleg => ?_, fun o ho =>
      (h.status o ho).of_unchanged ⟨rfl, fun _ => Iff.rfl, rfl, fun c hc => ?_⟩⟩
    · rcases List.mem_append.1 hleg with hleg | hleg
      · exact h.registered.legs leg hleg
      · rw [List.mem_singleton.1 hleg]
        exact Or.inr hforeign
    · obtain ⟨d, hd, -, rfl⟩ := mem_slicesOf.1 hc
      refine traded_leg_of_ne (fun heq => hid ?_) legs q
      exact heq ▸ List.mem_map_of_mem hd

/-- The test of `check_fill` finds out whether the live slice is full. -/
theorem Live.filled_iff {full : List Order} {c : Order} {x : ℕ} (h : Live o legs st full c)
    (hpos : 0 < x) (hx : x ≤ c.quantity) :
    ((totalQuantity full + x) % o.displayQuantity = 0 ∨ totalQuantity full + x = o.quantity) ↔
      x = c.quantity := by
  obtain ⟨k, hk⟩ := h.aligned
  have hroom := h.room
  have hsize := h.size
  rw [hk] at hroom hsize ⊢
  rw [Nat.mul_add_mod]
  have hle : x ≤ o.displayQuantity := by omega
  constructor
  · rintro (hmod | hfull)
    · rcases hle.lt_or_eq with hlt | rfl
      · rw [Nat.mod_eq_of_lt hlt] at hmod
        omega
      · omega
    · omega
  · rintro rfl
    rcases Nat.le_total o.displayQuantity (o.quantity - o.displayQuantity * k) with hd | hd
    · refine Or.inl ?_
      rw [hsize, Nat.min_eq_left hd, Nat.mod_self]
    · exact Or.inr (by omega)

/-- A leg of a slice : it is the live slice of its parent. -/
theorem Inv.exists_live (h : Inv foreign accepted legs st) {d : Dispatch} (hd : d ∈ st.slices)
    (hopen : traded legs d.order.orderId < d.order.quantity) : ∃ o ∈ accepted, ∃ full,
      d.client.clientOrderId = o.clientOrderId ∧ Live o legs st full d.order := by
  obtain ⟨o, ho, hid⟩ := List.mem_map.1 (h.registered.owned d hd)
  have hmem : d.order ∈ st.slicesOf o.clientOrderId := mem_slicesOf.2 ⟨d, hd, hid.symm, rfl⟩
  rcases h.status o ho with ⟨full, c, hlive⟩ | hfin
  · rw [hlive.slices] at hmem
    rcases List.mem_append.1 hmem with hfull | hc
    · exact absurd (hlive.filled _ hfull).traded hopen.ne
    · rw [List.mem_singleton] at hc
      exact ⟨o, ho, full, hid.symm, hc ▸ hlive⟩
  · exact absurd (hfin.full _ hmem).traded hopen.ne

/-- The full slices of a parent, after a leg of its live slice. -/
theorem Inv.full_of_leg (h : Inv foreign accepted legs st) {d : Dispatch} {full : List Order}
    (hd : d ∈ st.slices) (hlive : Live o legs st full d.order) {x : Order} (hx : x ∈ full) :
    FullSlice o (legs ++ [(d.order.orderId, q)]) x := by
  have hmem : x ∈ st.slicesOf o.clientOrderId := by
    rw [hlive.slices]
    exact List.mem_append_left _ hx
  obtain ⟨d', hd', -, rfl⟩ := mem_slicesOf.1 hmem
  refine (hlive.filled _ hx).of_traded_eq (traded_leg_of_ne (fun heq => ?_) legs q)
  -- the live slice is not full, so it is not among the full ones
  rw [h.registered.eq_of_orderId hd' hd heq] at hx
  exact absurd (hlive.filled _ hx).traded hlive.short.ne

/-- A parent whose live slice is full is ready for the next. -/
theorem Live.ready {full : List Order} {c : Order} {legs' : List (ℕ × ℕ)}
    (h : Live o legs st full c) (hwf : WellFormed o)
    (hslices : st'.slicesOf o.clientOrderId = st.slicesOf o.clientOrderId)
    (hnoChild : ∀ id, st'.childToParent id ≠ some o.clientOrderId)
    (hparent : st'.activeIcebergs o.clientOrderId =
      some { o with filledQuantity := totalQuantity full + c.quantity })
    (hfull : ∀ x ∈ full, FullSlice o legs' x) (hc : traded legs' c.orderId = c.quantity) :
    Ready o legs' st' := by
  have hsize := h.size
  have hroom := h.room
  have hpos := hwf.displayQuantity.1
  have hslices' : st'.slicesOf o.clientOrderId = full ++ [c] := hslices.trans h.slices
  refine ⟨fun x hx => ?_, ?_, fun hne => ?_, hnoChild, ?_⟩
  · rw [hslices'] at hx
    rcases List.mem_append.1 hx with hx | hx
    · exact hfull x hx
    · rw [List.mem_singleton.1 hx]
      exact ⟨hc, by omega, by omega⟩
  · rw [hslices', totalQuantity_append, totalQuantity_singleton]
    omega
  · rw [hslices', totalQuantity_append, totalQuantity_singleton] at hne ⊢
    -- it was not the last slice, so it had the display quantity
    have hdisplay : c.quantity = o.displayQuantity := by omega
    rw [hdisplay]
    exact Nat.dvd_add h.aligned (Nat.dvd_refl _)
  · rw [hslices', totalQuantity_append, totalQuantity_singleton]
    exact hparent

/-- The record of a parent whose live slice fills by `q`. -/
theorem Live.fill_parent {full : List Order} {c : Order} (h : Live o legs st full c)
    (hwf : WellFormed o) (hle : traded legs c.orderId + q ≤ c.quantity) :
    (st.fill o.clientOrderId q).activeIcebergs o.clientOrderId = some { o with
      filledQuantity := totalQuantity full + (traded legs c.orderId + q) } := by
  have hsize := h.size
  have hroom := h.room
  have hquantity := hwf.quantity.2
  have hsum : add32 (totalQuantity full + traded legs c.orderId) q =
      totalQuantity full + (traded legs c.orderId + q) := by
    rw [add32, Nat.mod_eq_of_lt (by omega), Nat.add_assoc]
  rw [fill, iceberg_eq h.parent, hsum]
  exact Function.update_self ..

/-- Nothing happens to the other parents when a slice fills. -/
theorem Inv.fill_unchanged (h : Inv foreign accepted legs st) {d : Dispatch} (hd : d ∈ st.slices)
    {p' : ℕ} (hne : p' ≠ d.client.clientOrderId) (q : ℕ) :
    Unchanged p' legs st (legs ++ [(d.order.orderId, q)]) (st.fill d.client.clientOrderId q) := by
  refine ⟨rfl, fun _ => Iff.rfl, Function.update_of_ne hne .., fun c hc => ?_⟩
  obtain ⟨d', hd', hid, rfl⟩ := mem_slicesOf.1 hc
  refine traded_leg_of_ne (fun heq => hne ?_) legs q
  rw [← hid, h.registered.eq_of_orderId hd' hd heq]

theorem Registered.legs_concat (h : Registered foreign accepted legs st) (hid : id ∈ st.sliceIds)
    (q : ℕ) : ∀ leg ∈ legs ++ [(id, q)], leg.1 ∈ st.sliceIds ∨ foreign leg.1 := by
  intro leg hleg
  rcases List.mem_append.1 hleg with hleg | hleg
  · exact h.legs leg hleg
  · rw [List.mem_singleton.1 hleg]
    exact Or.inl hid

section Leg

variable {d : Dispatch} {full : List Order}

/-- The slice stays live. -/
theorem Inv.fill_slice (h : Inv foreign accepted legs st) (hd : d ∈ st.slices)
    (ho : o ∈ accepted) (hid : d.client.clientOrderId = o.clientOrderId)
    (hlive : Live o legs st full d.order)
    (hlt : traded legs d.order.orderId + q < d.order.quantity) :
    Inv foreign accepted (legs ++ [(d.order.orderId, q)]) (st.fill o.clientOrderId q) := by
  have hlegs := h.registered.legs_concat (List.mem_map_of_mem hd) q
  refine ⟨h.registered.of_same rfl rfl (fun _ _ hchild => hchild) hlegs, fun o' ho' => ?_⟩
  rcases eq_or_ne o'.clientOrderId o.clientOrderId with hsame | hne
  · rw [h.registered.eq_of_clientOrderId ho' ho hsame]
    refine Or.inl ⟨full, d.order, hlive.slices, fun x hx => h.full_of_leg hd hlive hx,
      hlive.aligned, hlive.room, hlive.size, ?_, hlive.child, ?_⟩
    · rwa [traded_leg_self]
    · rw [traded_leg_self]
      exact hlive.fill_parent (h.registered.wellFormed o ho) hlt.le
  · rw [← hid] at hne ⊢
    exact (h.status o' ho').of_unchanged (h.fill_unchanged hd hne q)

/-- The slice is full : `send_slice` finds the parent ready. -/
theorem Inv.finish_slice (h : Inv foreign accepted legs st) (hd : d ∈ st.slices)
    (ho : o ∈ accepted) (hid : d.client.clientOrderId = o.clientOrderId)
    (hlive : Live o legs st full d.order)
    (hfull : traded legs d.order.orderId + q = d.order.quantity)
    (hst' : st' = ((st.fill o.clientOrderId q).unregister d.order.orderId).sendSlice
      o.clientOrderId)
    (hbound' : st'.slices.length ≤ maxSlices) (hapart' : ∀ id ∈ st'.sliceIds, ¬foreign id) :
    Inv foreign accepted (legs ++ [(d.order.orderId, q)]) st' := by
  subst hst'
  have hwf := h.registered.wellFormed o ho
  have hlegs := h.registered.legs_concat (List.mem_map_of_mem hd) q
  have hparent := hlive.fill_parent hwf hfull.le
  rw [hfull] at hparent
  have hnoChild : ∀ id,
      ((st.fill o.clientOrderId q).unregister d.order.orderId).childToParent id ≠
        some o.clientOrderId := fun id => by
    simp only [unregister]
    rcases eq_or_ne id d.order.orderId with rfl | hne
    · simp
    · rw [Function.update_of_ne hne]
      exact fun hchild => hne ((hlive.child id).1 hchild)
  have hready : Ready o (legs ++ [(d.order.orderId, q)])
      ((st.fill o.clientOrderId q).unregister d.order.orderId) :=
    hlive.ready hwf rfl hnoChild hparent (fun x hx => h.full_of_leg hd hlive hx)
      (by rw [traded_leg_self, hfull])
  refine Registered.sendSlice (h.registered.of_same rfl rfl (fun id p hchild => ?_) hlegs) ho hready
    (fun o' ho' hne => ?_) hbound' hapart'
  · simp only [unregister] at hchild
    rcases eq_or_ne id d.order.orderId with rfl | hne
    · simp at hchild
    · rwa [Function.update_of_ne hne] at hchild
  · have hchild : (st.fill o.clientOrderId q).childToParent d.order.orderId =
        some o.clientOrderId :=
      (hlive.child _).2 rfl
    have hfill := h.fill_unchanged hd (hid ▸ hne) q
    rw [hid] at hfill
    exact ((h.status o' ho').of_unchanged hfill).of_unchanged (unregister_unchanged hchild hne _)

theorem Inv.checkLeg_of_slice (h : Inv foreign accepted legs st)
    (hbound : st.slices.length ≤ maxSlices) (hd : d ∈ st.slices) (hq : 0 < q)
    (hle : traded legs d.order.orderId + q ≤ d.order.quantity)
    (hok : st.checkLeg d.order.orderId q = .ok st') (hbound' : st'.slices.length ≤ maxSlices)
    (hapart' : ∀ id ∈ st'.sliceIds, ¬foreign id) :
    Inv foreign accepted (legs ++ [(d.order.orderId, q)]) st' := by
  obtain ⟨o, ho, full, hid, hlive⟩ := h.exists_live hd (by omega)
  have hmem : d.order.orderId ∈ st.sliceIds := List.mem_map_of_mem hd
  have hlivechild := (hlive.child d.order.orderId).2 rfl
  rcases checkLeg_cases hok with ⟨-, hbit | hnone⟩ | ⟨p, hchild, -, -, hcase⟩
  · exact absurd (h.registered.isIceberg hbound hmem) hbit
  · rw [hlivechild] at hnone
    cases hnone
  · obtain rfl := Option.some.inj (hlivechild.symm.trans hchild)
    have hfilled : SliceFilled ((st.fill o.clientOrderId q).iceberg o.clientOrderId) ↔
        traded legs d.order.orderId + q = d.order.quantity := by
      rw [iceberg_eq (hlive.fill_parent (h.registered.wellFormed o ho) hle)]
      exact hlive.filled_iff (by omega) hle
    rcases hcase with ⟨hnot, rfl⟩ | ⟨hfull, hst'⟩
    · exact h.fill_slice hd ho hid hlive (lt_of_le_of_ne hle (mt hfilled.2 hnot))
    · exact h.finish_slice hd ho hid hlive (hfilled.1 hfull) hst' hbound' hapart'

end Leg

/-! ## Slices are only added -/

/-- The slices of `st'` are those of `st` and more. -/
def Extends (st st' : Oms) : Prop :=
  ∃ new, st'.slices = st.slices ++ new

theorem Extends.refl (st : Oms) : Extends st st :=
  ⟨[], (List.append_nil _).symm⟩

theorem Extends.trans {st₁ st₂ st₃ : Oms} (h : Extends st₁ st₂)
    (h' : Extends st₂ st₃) : Extends st₁ st₃ := by
  obtain ⟨new, hnew⟩ := h
  obtain ⟨new', hnew'⟩ := h'
  exact ⟨new ++ new', by rw [hnew', hnew, List.append_assoc]⟩

theorem Extends.length_le (h : Extends st st') : st.slices.length ≤ st'.slices.length := by
  obtain ⟨new, hnew⟩ := h
  rw [hnew, List.length_append]
  exact Nat.le_add_right _ _

theorem Extends.mem_slices (h : Extends st st') {d : Dispatch} (hd : d ∈ st.slices) :
    d ∈ st'.slices := by
  obtain ⟨new, hnew⟩ := h
  rw [hnew]
  exact List.mem_append_left _ hd

theorem Extends.mem_sliceIds (h : Extends st st') (hid : id ∈ st.sliceIds) :
    id ∈ st'.sliceIds := by
  obtain ⟨d, hd, rfl⟩ := List.mem_map.1 hid
  exact List.mem_map_of_mem (h.mem_slices hd)

theorem extends_sendSlice (st : Oms) (p : ℕ) : Extends st (st.sendSlice p) := by
  simp only [sendSlice]
  split_ifs
  · exact .refl st
  · exact ⟨_, List.filter_append ..⟩
  · exact .refl st

theorem extends_checkLeg (h : st.checkLeg id q = .ok st') : Extends st st' := by
  rcases checkLeg_cases h with ⟨rfl, -⟩ | ⟨p, -, -, -, ⟨-, rfl⟩ | ⟨-, rfl⟩⟩
  · exact .refl st'
  · exact .refl st
  · exact extends_sendSlice ((st.fill p q).unregister id) p

theorem checkFill_eq (st : Oms) (t : Trade) : st.checkFill t =
    st.checkLeg t.buyOrderId t.quantity >>= fun st => st.checkLeg t.sellOrderId t.quantity := by
  rw [checkFill]
  split_ifs with h
  · rw [checkLeg, if_neg h.1, ok_bind, checkLeg, if_neg h.2]
  · rfl

theorem extends_checkFill {t : Trade} (h : st.checkFill t = .ok st') : Extends st st' := by
  rw [checkFill_eq, bind_eq_ok] at h
  obtain ⟨st₁, hbuy, hsell⟩ := h
  exact (extends_checkLeg hbuy).trans (extends_checkLeg hsell)

/-! ## A trade -/

theorem Inv.checkLeg (h : Inv foreign accepted legs st) (hbound : st.slices.length ≤ maxSlices)
    (hapart : ∀ id ∈ st.sliceIds, ¬foreign id)
    (hleg : foreign id ∨ 0 < q ∧ ∃ d ∈ st.slices, d.order.orderId = id ∧
      traded legs id + q ≤ d.order.quantity)
    (hok : st.checkLeg id q = .ok st') (hbound' : st'.slices.length ≤ maxSlices)
    (hapart' : ∀ id ∈ st'.sliceIds, ¬foreign id) :
    Inv foreign accepted (legs ++ [(id, q)]) st' := by
  rcases hleg with hforeign | ⟨hq, d, hd, rfl, hle⟩
  · obtain ⟨hsame, hinv⟩ :=
      h.checkLeg_of_foreign (q := q) (fun hid => hapart id hid hforeign) hforeign
    rw [hsame, Except.ok.injEq] at hok
    exact hok ▸ hinv
  · exact h.checkLeg_of_slice hbound hd hq hle hok hbound' hapart'

theorem Inv.checkFill {t : Trade} (h : Inv foreign accepted legs st)
    (hapart : ∀ id ∈ st.sliceIds, ¬foreign id)
    (hlegs : ∀ leg ∈ legsOf t, foreign leg.1 ∨ 0 < leg.2 ∧ ∃ d ∈ st.slices,
      d.order.orderId = leg.1 ∧ traded (legs ++ legsOf t) leg.1 ≤ d.order.quantity)
    (hok : st.checkFill t = .ok st') (hbound' : st'.slices.length ≤ maxSlices)
    (hapart' : ∀ id ∈ st'.sliceIds, ¬foreign id) :
    Inv foreign accepted (legs ++ legsOf t) st' := by
  rw [checkFill_eq, bind_eq_ok] at hok
  obtain ⟨st₁, hbuy, hsell⟩ := hok
  have hext := extends_checkLeg hbuy
  have hext' := extends_checkLeg hsell
  have hbound₁ := hext'.length_le.trans hbound'
  have hapart₁ : ∀ id ∈ st₁.sliceIds, ¬foreign id :=
    fun id hid => hapart' id (hext'.mem_sliceIds hid)
  have hsplit : legs ++ legsOf t =
      legs ++ [(t.buyOrderId, t.quantity)] ++ [(t.sellOrderId, t.quantity)] := by
    rw [List.append_assoc]
    rfl
  rw [hsplit] at hlegs ⊢
  have h₁ := h.checkLeg (hext.length_le.trans hbound₁) hapart
    ((hlegs (t.buyOrderId, t.quantity) (by simp [legsOf])).imp_right ?_) hbuy hbound₁ hapart₁
  · refine h₁.checkLeg hbound₁ hapart₁
      ((hlegs (t.sellOrderId, t.quantity) (by simp [legsOf])).imp_right ?_) hsell hbound' hapart'
    rintro ⟨hq, d, hd, hid, hle⟩
    rw [traded_leg_self] at hle
    exact ⟨hq, d, hext.mem_slices hd, hid, hle⟩
  · rintro ⟨hq, d, hd, hid, hle⟩
    rw [traded_append, traded_leg_self] at hle
    exact ⟨hq, d, hd, hid, (Nat.le_add_right _ _).trans hle⟩

/-! ## The other events -/

/-- Nothing happens to any iceberg. -/
structure SameIcebergs (st st' : Oms) : Prop where
  next : st'.nextChildOrderId = st.nextChildOrderId
  children : st'.childToParent = st.childToParent
  icebergs : st'.activeIcebergs = st.activeIcebergs
  slices : st'.slices = st.slices

theorem SameIcebergs.refl (st : Oms) : SameIcebergs st st :=
  ⟨rfl, rfl, rfl, rfl⟩

theorem SameIcebergs.trans {st₁ st₂ st₃ : Oms} (h : SameIcebergs st₁ st₂)
    (h' : SameIcebergs st₂ st₃) : SameIcebergs st₁ st₃ :=
  ⟨h'.next.trans h.next, h'.children.trans h.children, h'.icebergs.trans h.icebergs,
    h'.slices.trans h.slices⟩

theorem SameIcebergs.sliceIds (h : SameIcebergs st st') : st'.sliceIds = st.sliceIds := by
  rw [Oms.sliceIds, Oms.sliceIds, h.slices]

theorem Inv.of_sameIcebergs (h : Inv foreign accepted legs st) (hs : SameIcebergs st st') :
    Inv foreign accepted legs st' := by
  refine ⟨h.registered.of_same hs.next hs.slices (fun id p hid => ?_) h.registered.legs,
    fun o ho => (h.status o ho).of_unchanged ⟨?_, fun id => ?_, ?_, fun _ _ => rfl⟩⟩
  · rwa [hs.children] at hid
  · rw [slicesOf, slicesOf, hs.slices]
  · rw [hs.children]
  · rw [hs.icebergs]

/-- A dispatch that is not a slice. -/
theorem sameIcebergs_dispatch {site : DispatchSite} (hsite : site ≠ .slice) (n : ℕ)
    (client : ClientOrder) (order : Order) :
    SameIcebergs st ({ st with nextOmsOrderId := n }.dispatch site client order) := by
  refine ⟨rfl, rfl, rfl, ?_⟩
  simp [slices, dispatch, hsite]

theorem sameIcebergs_triggerStops : ∀ (stops : List ClientOrder) (st : Oms),
    SameIcebergs st (stops.foldl triggerStop st)
  | [], st => .refl st
  | _ :: stops, st => (sameIcebergs_dispatch (by decide) _ _ _).trans
      (sameIcebergs_triggerStops stops _)

theorem sameIcebergs_pollPrice (std : StdHeap ClientOrder) (st : Oms) (slot currentLtp : ℕ) :
    SameIcebergs st (st.pollPrice std slot currentLtp) := by
  rw [pollPrice]
  split_ifs
  · obtain ⟨h₁, h₂, h₃, h₄⟩ := sameIcebergs_triggerStops _ _
    exact ⟨h₁, h₂, h₃, h₄⟩
  · exact .refl st

theorem sameIcebergs_receive (std : StdHeap ClientOrder) (st : Oms) (newOrder : ClientOrder)
    (h : Session.icebergOf st (.order newOrder) = []) :
    SameIcebergs st (st.receive std newOrder) := by
  simp only [Session.icebergOf] at h
  split_ifs at h with hice
  rw [receive]
  split_ifs with hsym
  · split
    next htype => exact absurd ⟨hsym, htype⟩ hice
    next => exact ⟨rfl, rfl, rfl, rfl⟩
    next => exact sameIcebergs_dispatch (by decide) _ _ _
    next =>
      rw [sendLimit]
      split_ifs
      · exact sameIcebergs_dispatch (by decide) _ _ _
      · exact .refl st
  · exact .refl st

/-- An iceberg that is accepted. -/
theorem Inv.accept (h : Inv foreign accepted legs st) (hwf : WellFormed o)
    (hnew : o.clientOrderId ∉ accepted.map ClientOrder.clientOrderId)
    (hbound' : ((st.setIceberg o.clientOrderId o).sendSlice o.clientOrderId).slices.length ≤
      maxSlices)
    (hapart' : ∀ id ∈ ((st.setIceberg o.clientOrderId o).sendSlice o.clientOrderId).sliceIds,
      ¬foreign id) :
    Inv foreign (accepted ++ [o]) legs
      ((st.setIceberg o.clientOrderId o).sendSlice o.clientOrderId) := by
  have hreg := h.registered
  have hnone : st.slicesOf o.clientOrderId = [] := by
    refine List.eq_nil_iff_forall_not_mem.2 fun c hc => ?_
    obtain ⟨d, hd, hid, -⟩ := mem_slicesOf.1 hc
    exact hnew (hid ▸ hreg.owned d hd)
  have hne : ∀ o' ∈ accepted, o'.clientOrderId ≠ o.clientOrderId := fun o' ho' heq =>
    hnew (heq ▸ List.mem_map_of_mem ho')
  have hmem : ∀ {p}, p ∈ accepted.map ClientOrder.clientOrderId →
      p ∈ (accepted ++ [o]).map ClientOrder.clientOrderId := fun hp => by
    rw [List.map_append]
    exact List.mem_append_left _ hp
  refine Registered.sendSlice (o := o) ⟨hreg.counter, hreg.ids, ?_, ?_,
    fun d hd => hmem (hreg.owned d hd),
    fun id p hid => ⟨hmem (hreg.children id p hid).1, (hreg.children id p hid).2⟩, hreg.legs⟩
    (by simp) ⟨?_, ?_, fun _ => ?_, fun id hid => hnew (hreg.children id _ hid).1, ?_⟩
    (fun o' ho' hne' => ?_) hbound' hapart'
  · rw [List.map_append]
    exact hreg.distinct.append (List.nodup_singleton _) fun p hp hp' => hnew (by
      rw [List.map_singleton, List.mem_singleton] at hp'
      exact hp' ▸ hp)
  · intro o' ho'
    rcases List.mem_append.1 ho' with ho' | ho'
    · exact hreg.wellFormed o' ho'
    · rwa [List.mem_singleton.1 ho']
  · change ∀ x ∈ st.slicesOf o.clientOrderId, _
    simp [hnone]
  · change totalQuantity (st.slicesOf o.clientOrderId) ≤ _
    simp [hnone]
  · change _ ∣ totalQuantity (st.slicesOf o.clientOrderId)
    simp [hnone]
  · change _ = some { o with filledQuantity := totalQuantity (st.slicesOf o.clientOrderId) }
    simp [setIceberg, hnone, ← hwf.filledQuantity]
  · rcases List.mem_append.1 ho' with ho' | ho'
    · exact (h.status o' ho').of_unchanged (setIceberg_unchanged hne' st o legs)
    · exact absurd (by rw [List.mem_singleton.1 ho']) hne'

/-! ## Calls return -/

/-- The parents of slices have a display quantity. -/
def Displayed (st : Oms) : Prop :=
  ∀ id p, st.childToParent id = some p →
    ∃ parent, st.activeIcebergs p = some parent ∧ 0 < parent.displayQuantity

theorem Displayed.setIceberg (h : Displayed st) (ho : 0 < o.displayQuantity) :
    Displayed (st.setIceberg p o) := by
  intro id p' hid
  rcases eq_or_ne p' p with rfl | hne
  · exact ⟨o, Function.update_self .., ho⟩
  · obtain ⟨parent, hparent, hpos⟩ := h id p' hid
    exact ⟨parent, (Function.update_of_ne hne ..).trans hparent, hpos⟩

theorem Displayed.sendSlice (h : Displayed st) (hp : 0 < (st.iceberg p).displayQuantity) :
    Displayed (st.sendSlice p) := by
  have hset := h.setIceberg (p := p) hp
  simp only [Oms.sendSlice]
  split_ifs
  · exact hset.setIceberg hp
  · intro id p' hid
    simp only [dispatch] at hid
    rcases eq_or_ne id (st.setIceberg p (st.iceberg p)).nextChildOrderId with rfl | hne
    · rw [Function.update_self, Option.some.injEq] at hid
      subst hid
      exact ⟨_, Function.update_self .., hp⟩
    · rw [Function.update_of_ne hne] at hid
      exact hset id p' hid
  · exact hset

theorem Displayed.checkLeg (h : Displayed st) (id q : ℕ) :
    ∃ st', st.checkLeg id q = .ok st' ∧ Displayed st' := by
  rw [Oms.checkLeg, processIcebergLeg]
  split_ifs
  · split
    next => exact ⟨st, rfl, h⟩
    next p hid =>
      obtain ⟨parent, hparent, hpos⟩ := h id p hid
      simp only [iceberg_eq hparent, if_neg hpos.ne']
      have hset : Displayed (st.setIceberg p { parent with
          filledQuantity := add32 parent.filledQuantity q }) := h.setIceberg hpos
      split_ifs
      · refine ⟨_, rfl, Displayed.sendSlice (fun id' p' hid' => ?_) ?_⟩
        · simp only at hid'
          rcases eq_or_ne id' id with rfl | hne
          · simp at hid'
          · rw [Function.update_of_ne hne] at hid'
            exact hset id' p' hid'
        · rw [iceberg_eq (Function.update_self ..)]
          exact hpos
      · exact ⟨_, rfl, hset⟩
  · exact ⟨st, rfl, h⟩

theorem Displayed.checkFill (h : Displayed st) (t : Trade) :
    ∃ st', st.checkFill t = .ok st' ∧ Displayed st' := by
  obtain ⟨st₁, hbuy, h₁⟩ := h.checkLeg t.buyOrderId t.quantity
  obtain ⟨st', hsell, h'⟩ := h₁.checkLeg t.sellOrderId t.quantity
  refine ⟨st', ?_, h'⟩
  rw [checkFill_eq, hbuy, ok_bind, hsell]

theorem Displayed.of_sameIcebergs (h : Displayed st) (hs : SameIcebergs st st') :
    Displayed st' := by
  intro id p hid
  rw [hs.children] at hid
  rw [hs.icebergs]
  exact h id p hid

/-! ## Sessions -/

namespace Session

variable {std : StdHeap ClientOrder} {s s' : Session} {e : Event}

/-- The invariant of a session, as long as the ids of slices have not wrapped around. -/
structure Sound (foreign : ℕ → Prop) (s : Session) : Prop where
  displayed : Displayed s.oms
  inv : s.oms.slices.length ≤ maxSlices →
    Inv foreign s.accepted s.legs s.oms ∧ ∀ id ∈ s.oms.sliceIds, ¬foreign id

theorem step_eq_ok {oms : Oms} (h : s.oms.step std e = .ok oms) : s.step std e =
    .ok ⟨oms, s.accepted ++ icebergOf s.oms e, s.legs ++ legsOfEvent e⟩ := by
  rw [step, h, ok_bind]

/-- The event is an accepted iceberg. -/
theorem receive_iceberg (std : StdHeap ClientOrder) {oms : Oms} {newOrder : ClientOrder}
    (h : icebergOf oms (.order newOrder) = [o]) : oms.receive std newOrder =
      (oms.setIceberg o.clientOrderId o).sendSlice o.clientOrderId := by
  simp only [icebergOf] at h
  split_ifs at h with hice
  rw [List.cons.injEq] at h
  rw [receive, if_pos hice.1, ← h.1]
  have htype : (oms.withSymbolId newOrder).executionType = .iceberg := hice.2
  rw [htype]

theorem icebergOf_cases (oms : Oms) (e : Event) : icebergOf oms e = [] ∨
    ∃ newOrder o, e = .order newOrder ∧ icebergOf oms e = [o] := by
  rcases e with newOrder | t | ⟨slot, ltp⟩
  · simp only [icebergOf]
    split_ifs
    · exact Or.inr ⟨newOrder, _, rfl, rfl⟩
    · exact Or.inl rfl
  · exact Or.inl rfl
  · exact Or.inl rfl

/-- The step of an event that brings in no iceberg and is no trade. -/
theorem sound_of_sameIcebergs {oms : Oms} (h : Sound foreign s) (hs : SameIcebergs s.oms oms)
    (hok : s.oms.step std e = .ok oms) (hice : icebergOf s.oms e = [])
    (hlegs : legsOfEvent e = []) : ∃ s', s.step std e = .ok s' ∧ Sound foreign s' := by
  refine ⟨_, step_eq_ok hok, h.displayed.of_sameIcebergs hs, fun hbound => ?_⟩
  simp only [hice, hlegs, List.append_nil, hs.slices, hs.sliceIds] at hbound ⊢
  exact ⟨(h.inv hbound).1.of_sameIcebergs hs, (h.inv hbound).2⟩

theorem sound_step (h : Sound foreign s) (hallowed : Allowed std foreign s e) :
    ∃ s', s.step std e = .ok s' ∧ Sound foreign s' := by
  rcases icebergOf_cases s.oms e with hnone | ⟨newOrder, o, rfl, hone⟩
  · rcases e with newOrder | t | ⟨slot, ltp⟩
    · exact sound_of_sameIcebergs h (sameIcebergs_receive std _ _ hnone) rfl hnone rfl
    · obtain ⟨oms, hok, hdisplayed⟩ := h.displayed.checkFill t
      have hstep : s.step std (.trade t) = .ok ⟨oms, s.accepted ++ [], s.legs ++ legsOf t⟩ :=
        step_eq_ok hok
      refine ⟨_, hstep, hdisplayed, fun hbound => ?_⟩
      obtain ⟨hinv, hapart⟩ := h.inv ((extends_checkFill hok).length_le.trans hbound)
      have hapart' := hallowed.apart _ hstep
      refine ⟨?_, hapart'⟩
      rw [List.append_nil]
      exact hinv.checkFill hapart hallowed.legs hok hbound hapart'
    · exact sound_of_sameIcebergs h (sameIcebergs_pollPrice std _ _ _) rfl hnone rfl
  · have hwf := hallowed.wellFormed o (by simp [hone])
    have hok : s.oms.step std (.order newOrder) =
        .ok ((s.oms.setIceberg o.clientOrderId o).sendSlice o.clientOrderId) := by
      rw [Oms.step, receive_iceberg std hone]
    have hstep := step_eq_ok hok
    rw [hone] at hstep
    have hset : (s.oms.setIceberg o.clientOrderId o).iceberg o.clientOrderId = o :=
      iceberg_eq (Function.update_self ..)
    have hdisplay := hwf.displayQuantity.1
    refine ⟨_, hstep, (h.displayed.setIceberg hdisplay).sendSlice (by rwa [hset]),
      fun hbound => ?_⟩
    have hext : Extends s.oms ((s.oms.setIceberg o.clientOrderId o).sendSlice o.clientOrderId) :=
      extends_sendSlice (s.oms.setIceberg o.clientOrderId o) _
    obtain ⟨hinv, -⟩ := h.inv (hext.length_le.trans hbound)
    have hapart' := hallowed.apart _ hstep
    refine ⟨?_, hapart'⟩
    change Inv foreign _ (s.legs ++ []) _
    rw [List.append_nil]
    exact hinv.accept hwf (hallowed.distinct o (by simp [hone])) hbound hapart'

/-- Every event of a run is allowed where it comes. -/
def Fair (std : StdHeap ClientOrder) (foreign : ℕ → Prop) : Session → List Event → Prop :=
  Runs.Always (fun s e s' => s.step std e = .ok s') (Allowed std foreign)

theorem sound_start (foreign : ℕ → Prop) (symbolLookupTable : ℕ → ℤ) (bootTimestamp : ℕ)
    (clock uninit : ℕ → ℕ) :
    Sound foreign (start (.init symbolLookupTable bootTimestamp clock uninit)) where
  displayed _ _ h := by simp [start, Oms.init] at h
  inv _ := by
    have hcounter : icebergBit ||| 1 = (icebergBit + 1) % 2 ^ 64 := by decide
    refine ⟨⟨⟨hcounter, rfl, List.nodup_nil, ?_, ?_, ?_, ?_⟩, ?_⟩, ?_⟩
    all_goals simp [start, Oms.init, sliceIds, slices]

theorem sound_run {events : List Event} (h : Sound foreign s) (hfair : Fair std foreign s events) :
    ∃ s', s.run std events = .ok s' ∧ Sound foreign s' := by
  obtain ⟨s', hsteps, hs'⟩ := Runs.Always.exists_steps sound_step h hfair
  exact ⟨s', Runs.steps_iff_ok.1 hsteps, hs'⟩

theorem extends_step (h : s.step std e = .ok s') : Extends s.oms s'.oms := by
  rw [step, bind_eq_ok] at h
  obtain ⟨oms, hok, heq⟩ := h
  rw [Except.ok.injEq] at heq
  subst heq
  rcases icebergOf_cases s.oms e with hnone | ⟨newOrder, o, rfl, hone⟩
  · rcases e with newOrder | t | ⟨slot, ltp⟩
    · rw [Oms.step, Except.ok.injEq] at hok
      exact hok ▸ ⟨[], by rw [(sameIcebergs_receive std _ _ hnone).slices, List.append_nil]⟩
    · exact extends_checkFill hok
    · rw [Oms.step, Except.ok.injEq] at hok
      exact hok ▸ ⟨[], by rw [(sameIcebergs_pollPrice std _ _ _).slices, List.append_nil]⟩
  · rw [Oms.step, receive_iceberg std hone, Except.ok.injEq] at hok
    exact hok ▸ extends_sendSlice (s.oms.setIceberg o.clientOrderId o) _

theorem extends_run {events : List Event} (h : s.run std events = .ok s') :
    Extends s.oms s'.oms := by
  have hsteps : Runs.Steps (fun s e s' => s.step std e = .ok s') events s s' :=
    Runs.steps_iff_ok.2 h
  exact hsteps.invariant (I := fun s₁ => Extends s.oms s₁.oms) (P := fun _ _ => True)
    (fun hs _ hstep => hs.trans (extends_step hstep)) (.refl _)
    (.of_forall_mem fun _ _ _ => trivial)

/-- Accepted icebergs stay accepted. -/
theorem mem_accepted_run {events : List Event} (h : s.run std events = .ok s')
    (ho : o ∈ s.accepted) : o ∈ s'.accepted := by
  have hsteps : Runs.Steps (fun s e s' => s.step std e = .ok s') events s s' :=
    Runs.steps_iff_ok.2 h
  refine hsteps.invariant (I := fun s₁ => o ∈ s₁.accepted) (P := fun _ _ => True)
    (fun {s₁ e s₂} hs _ hstep => ?_) ho (.of_forall_mem fun _ _ _ => trivial)
  rw [step, bind_eq_ok] at hstep
  obtain ⟨oms, -, heq⟩ := hstep
  rw [Except.ok.injEq] at heq
  exact heq ▸ List.mem_append_left _ hs

end Session

/-! ## The life cycle of every parent -/

theorem slicesOf_of_extends (h : Extends st st') (p : ℕ) :
    ∃ new, st'.slicesOf p = st.slicesOf p ++ new := by
  obtain ⟨new, hnew⟩ := h
  exact ⟨_, by rw [slicesOf, slicesOf, hnew, List.filter_append, List.map_append]⟩

/-- A parent that has been filled is sent no further slice. -/
theorem slicesOf_eq_of_filled (h : LifeCycle o legs st) {legs' : List (ℕ × ℕ)}
    (h' : LifeCycle o legs' st') (hext : Extends st st')
    (hfilled : (st.iceberg o.clientOrderId).filledQuantity = o.quantity) :
    st'.slicesOf o.clientOrderId = st.slicesOf o.clientOrderId := by
  obtain ⟨new, hnew⟩ := slicesOf_of_extends hext o.clientOrderId
  have hsent : totalQuantity (st.slicesOf o.clientOrderId) = o.quantity := by
    rcases h.sent_eq with ⟨c, -, hchild, -⟩ | ⟨-, hsent⟩
    · exact absurd hchild ((h.complete hfilled).2 _)
    · rw [hsent, hfilled]
  have hle := h'.sent_le
  rw [hnew, totalQuantity_append, hsent] at hle
  cases new with
  | nil => rw [hnew, List.append_nil]
  | cons c new =>
    have hc := (h'.slice c (by simp [hnew])).1
    rw [← List.singleton_append, totalQuantity_append, totalQuantity_singleton] at hle
    omega

/-- In every fair run, the system does not fault, and as long as at most `maxSlices` slices
have been sent, every iceberg that has been accepted goes through its life cycle. -/
theorem run_lifeCycle (std : StdHeap ClientOrder) (foreign : ℕ → Prop)
    (symbolLookupTable : ℕ → ℤ) (bootTimestamp : ℕ) (clock uninit : ℕ → ℕ)
    (pre post : List Event)
    (hfair : Session.Fair std foreign
      (.start (.init symbolLookupTable bootTimestamp clock uninit)) (pre ++ post)) :
    ∃ s s', (Session.start (.init symbolLookupTable bootTimestamp clock uninit)).run std pre =
      .ok s ∧
      s.run std post = .ok s' ∧ (s'.oms.slices.length ≤ maxSlices → ∀ o ∈ s.accepted,
        LifeCycle o s.legs s.oms ∧ LifeCycle o s'.legs s'.oms ∧
        ((s.oms.iceberg o.clientOrderId).filledQuantity = o.quantity →
          s'.oms.slicesOf o.clientOrderId = s.oms.slicesOf o.clientOrderId)) := by
  obtain ⟨s', hrun, hs'⟩ := Session.sound_run (Session.sound_start foreign _ _ _ _) hfair
  obtain ⟨s, hpre, hs⟩ := Session.sound_run (Session.sound_start foreign _ _ _ _) hfair.left
  have hpost : s.run std post = .ok s' := by
    rw [Session.run, List.foldlM_append, bind_eq_ok] at hrun
    obtain ⟨s₁, hpre₁, hpost⟩ := hrun
    rw [show s₁ = s from Except.ok.inj (hpre₁.symm.trans hpre)] at hpost
    exact hpost
  have hext := Session.extends_run hpost
  refine ⟨s, s', hpre, hpost, fun hbound o ho => ?_⟩
  have hinv := (hs.inv (hext.length_le.trans hbound)).1
  have hinv' := (hs'.inv hbound).1
  have hwf := hinv.registered.wellFormed o ho
  have hlife := (hinv.status o ho).lifeCycle hwf
  have hlife' := (hinv'.status o (Session.mem_accepted_run hpost ho)).lifeCycle hwf
  exact ⟨hlife, hlife', slicesOf_eq_of_filled hlife hlife' hext⟩

/-- An iceberg of a symbol with an empty name. -/
def plainIceberg (clientOrderId quantity displayQuantity : ℕ) : ClientOrder :=
  ⟨clientOrderId, 100, 0, [], 0, 0, .sell, quantity, displayQuantity, 0, .iceberg, true⟩

/-- A limit order of a symbol with an empty name. -/
def plainLimit (clientOrderId : ℕ) (type : OrderType) (price quantity : ℕ) : ClientOrder :=
  ⟨clientOrderId, price, 0, [], 0, 0, type, quantity, 0, 0, .limit, true⟩

/-- A trade of a slice with an order that is none. -/
def sliceTrade (childId quantity : ℕ) : Trade :=
  ⟨1, 0, 100, 7, childId, 0, quantity⟩

/-- A system whose symbols all have the id zero. -/
def plainOms : Oms :=
  .init (fun _ => 0) 0 (fun n => n) fun n => n

/-- Three units in two slices. -/
theorem run_lifeCycle_twoSlices : ∃ s s',
    (Session.start plainOms).run (.sorting _)
      [.order (plainIceberg 1 3 2), .trade (sliceTrade (2 ^ 63 + 1) 2)] = .ok s ∧
    s.run (.sorting _) [.trade (sliceTrade (2 ^ 63 + 2) 1)] = .ok s' ∧
    (s'.oms.slices.length ≤ maxSlices → ∀ o ∈ s.accepted,
      LifeCycle o s.legs s.oms ∧ LifeCycle o s'.legs s'.oms ∧
      ((s.oms.iceberg o.clientOrderId).filledQuantity = o.quantity →
        s'.oms.slicesOf o.clientOrderId = s.oms.slicesOf o.clientOrderId)) := by
  refine run_lifeCycle _ (· = 7) _ _ _ _ _ _ (Runs.always_of_allowed_ok ?_)
  decide +kernel

/-! ## When the ids wrap around -/

/-- Icebergs of one unit each. -/
def manyIcebergs (n : ℕ) : List Event :=
  (List.range n).map fun i => .order (plainIceberg i 1 1)

theorem manyIcebergs_succ (n : ℕ) :
    manyIcebergs (n + 1) = manyIcebergs n ++ [.order (plainIceberg n 1 1)] := by
  rw [manyIcebergs, List.range_succ, List.map_append]
  rfl

/-- The state after `n` icebergs of one unit. -/
structure Loaded (n : ℕ) (s : Session) : Prop where
  accepted : s.accepted.map ClientOrder.clientOrderId = List.range n
  legs : s.legs = []
  table : s.oms.symbolLookupTable = fun _ => 0
  next : s.oms.nextChildOrderId = (icebergBit + 1 + n) % 2 ^ 64
  ids : s.oms.sliceIds = (List.range n).map fun i => (icebergBit + 1 + i) % 2 ^ 64

/-- The session after one more. -/
def afterIceberg (n : ℕ) (s : Session) : Session where
  oms := (s.oms.setIceberg n (plainIceberg n 1 1)).afterSlice n (plainIceberg n 1 1) 1
  accepted := s.accepted ++ [plainIceberg n 1 1]
  legs := s.legs

theorem Loaded.icebergOf {n : ℕ} {s : Session} (h : Loaded n s) :
    Session.icebergOf s.oms (.order (plainIceberg n 1 1)) = [plainIceberg n 1 1] := by
  have hid : s.oms.findSymbolId (plainIceberg n 1 1).symbol = 0 := by
    rw [findSymbolId, findId, h.table]
    change ((if 880000 ≤ findHash [] then -1 else 0 : ℤ) % 2 ^ 32).toNat = 0
    decide
  have hsym : s.oms.withSymbolId (plainIceberg n 1 1) = plainIceberg n 1 1 := by
    rw [withSymbolId, hid]
    rfl
  rw [Session.icebergOf, hsym, if_pos ⟨(show 0 ≠ 2 ^ 32 - 1 by decide), rfl⟩]

theorem Loaded.step {n : ℕ} {s : Session} (h : Loaded n s) :
    s.step (.sorting _) (.order (plainIceberg n 1 1)) = .ok (afterIceberg n s) := by
  have hget : (s.oms.setIceberg n (plainIceberg n 1 1)).activeIcebergs n =
      some (plainIceberg n 1 1) := Function.update_self ..
  have hok : s.oms.step (.sorting _) (.order (plainIceberg n 1 1)) =
      .ok (afterIceberg n s).oms := by
    rw [Oms.step, Session.receive_iceberg _ h.icebergOf]
    exact congrArg Except.ok (sendSlice_of_lt hget rfl (show 0 < 1 by decide)
      (show 1 < 2 ^ 32 by decide))
  rw [Session.step_eq_ok hok, h.icebergOf]
  exact congrArg Except.ok (by rw [afterIceberg]; simp [Session.legsOfEvent])

theorem Loaded.next_loaded {n : ℕ} {s : Session} (h : Loaded n s) :
    Loaded (n + 1) (afterIceberg n s) where
  accepted := by
    rw [afterIceberg, List.map_append, h.accepted, List.range_succ]
    rfl
  legs := h.legs
  table := h.table
  next := by
    rw [afterIceberg]
    simp only [afterSlice, setIceberg, h.next, add64, Nat.mod_add_mod, Nat.add_assoc]
  ids := by
    rw [afterIceberg, sliceIds_afterSlice, List.range_succ, List.map_append, ← h.ids]
    exact congrArg _ (congrArg (fun id => [id]) h.next)

/-- The ids of the first slices are not small. -/
theorem sliceId_ne {n : ℕ} (h : n < 2 ^ 63) : (icebergBit + 1 + n) % 2 ^ 64 ≠ 7 := by
  rw [icebergBit]
  omega

theorem Loaded.allowed {n : ℕ} {s : Session} (h : Loaded n s) (hn : n < 2 ^ 63) :
    Session.Allowed (.sorting _) (· = 7) s (.order (plainIceberg n 1 1)) := by
  refine ⟨fun o ho => ?_, fun o ho => ?_, fun leg hleg => absurd hleg List.not_mem_nil,
    fun s' hs' id hid => ?_⟩
  · rw [h.icebergOf, List.mem_singleton] at ho
    rw [ho]
    have hone : 0 < 1 ∧ 1 < 2 ^ 32 := by decide
    exact ⟨rfl, rfl, hone, hone⟩
  · rw [h.icebergOf, List.mem_singleton] at ho
    rw [ho, h.accepted]
    exact fun hmem => absurd (List.mem_range.1 hmem) (lt_irrefl n)
  · rw [Except.ok.inj (hs'.symm.trans h.step), h.next_loaded.ids] at hid
    obtain ⟨i, hi, rfl⟩ := List.mem_map.1 hid
    exact sliceId_ne (by have := List.mem_range.1 hi; omega)

theorem manyIcebergs_loaded : ∀ n ≤ 2 ^ 63, ∃ s,
    Runs.Steps (fun s e s' => s.step (.sorting _) e = .ok s') (manyIcebergs n)
      (Session.start plainOms) s ∧
    Session.Fair (.sorting _) (· = 7) (.start plainOms) (manyIcebergs n) ∧ Loaded n s
  | 0, _ => ⟨_, rfl, .nil _, rfl, rfl, rfl, by decide, rfl⟩
  | n + 1, hn => by
    obtain ⟨s, hsteps, hfair, h⟩ := manyIcebergs_loaded n (Nat.le_of_succ_le hn)
    rw [manyIcebergs_succ]
    refine ⟨_, Runs.steps_append.2 ⟨s, hsteps, _, h.step, rfl⟩, hfair.concat fun s' hs' => ?_,
      h.next_loaded⟩
    have heq : s' = s :=
      Except.ok.inj ((Runs.steps_iff_ok.1 hs').symm.trans (Runs.steps_iff_ok.1 hsteps))
    exact heq ▸ h.allowed hn

/-- A trade of a slice without the `ICEBERG_BIT` is ignored. -/
theorem Loaded.step_trade {n : ℕ} {s : Session} :
    (afterIceberg n s).step (.sorting _) (.trade (sliceTrade 0 1)) =
      .ok { afterIceberg n s with legs := s.legs ++ legsOf (sliceTrade 0 1) } := by
  have hok : (afterIceberg n s).oms.step (.sorting _) (.trade (sliceTrade 0 1)) =
      .ok (afterIceberg n s).oms := by
    rw [Oms.step, checkFill, if_pos (by decide)]
  rw [Session.step_eq_ok hok]
  simp [Session.icebergOf, Session.legsOfEvent, afterIceberg]

theorem Loaded.allowed_trade {n : ℕ} {s : Session} (h : Loaded n s) (hn : n < 2 ^ 63)
    (hzero : s.oms.nextChildOrderId = 0) :
    Session.Allowed (.sorting _) (· = 7) (afterIceberg n s) (.trade (sliceTrade 0 1)) := by
  refine ⟨fun o ho => absurd ho List.not_mem_nil, fun o ho => absurd ho List.not_mem_nil,
    fun leg hleg => ?_, fun s' hs' id hid => ?_⟩
  · simp only [Session.legsOfEvent, legsOf, List.mem_cons, List.not_mem_nil, or_false] at hleg
    rcases hleg with rfl | rfl
    · exact Or.inl rfl
    · refine Or.inr ⟨Nat.one_pos, ⟨.slice, plainIceberg n 1 1,
        (s.oms.setIceberg n (plainIceberg n 1 1)).sliceOrder (plainIceberg n 1 1) 1⟩, ?_, hzero,
          ?_⟩
      · simp [afterIceberg, slices_afterSlice]
      · rw [afterIceberg, h.legs]
        exact (show traded (legsOf (sliceTrade 0 1)) 0 ≤ 1 by decide)
  · rw [Except.ok.inj (hs'.symm.trans Loaded.step_trade)] at hid
    simp only [h.next_loaded.ids] at hid
    obtain ⟨i, hi, rfl⟩ := List.mem_map.1 hid
    exact sliceId_ne (by have := List.mem_range.1 hi; omega)

theorem Loaded.not_lifeCycle {n : ℕ} {s : Session} (h : Loaded n s)
    (hzero : s.oms.nextChildOrderId = 0) :
    ¬LifeCycle (plainIceberg n 1 1) (s.legs ++ legsOf (sliceTrade 0 1))
      (afterIceberg n s).oms := by
  intro hlife
  have hfilled := hlife.filled_eq
  have hget : (afterIceberg n s).oms.activeIcebergs n = some (plainIceberg n 1 1) :=
    Function.update_self ..
  rw [h.legs, List.nil_append, show (plainIceberg n 1 1).clientOrderId = n from rfl,
    iceberg_eq hget, afterIceberg] at hfilled
  have hslices := slicesOf_afterSlice_self (s.oms.setIceberg n (plainIceberg n 1 1))
    (plainIceberg n 1 1) 1
  rw [show (plainIceberg n 1 1).clientOrderId = n from rfl] at hslices
  simp only [hslices, List.map_append, List.sum_append] at hfilled
  simp only [List.map_cons, List.map_nil, List.sum_singleton, sliceOrder, setIceberg,
    hzero] at hfilled
  have hone : traded (legsOf (sliceTrade 0 1)) 0 = 1 := by decide
  rw [hone] at hfilled
  exact absurd hfilled (Nat.succ_ne_zero _).symm

/-- One iceberg more than there are ids with the `ICEBERG_BIT`, and a trade of its slice. -/
theorem not_lifeCycle_of_wrap {n : ℕ} (hn : n < 2 ^ 63)
    (hzero : (icebergBit + 1 + n) % 2 ^ 64 = 0) :
    Session.Fair (.sorting _) (· = 7) (.start plainOms)
      (manyIcebergs (n + 1) ++ [.trade (sliceTrade 0 1)]) ∧
    ∃ s, (Session.start plainOms).run (.sorting _)
        (manyIcebergs (n + 1) ++ [.trade (sliceTrade 0 1)]) = .ok s ∧
      ∃ o ∈ s.accepted, ¬LifeCycle o s.legs s.oms := by
  obtain ⟨s, hsteps, -, h⟩ := manyIcebergs_loaded n hn.le
  have hnext : s.oms.nextChildOrderId = 0 := h.next.trans hzero
  have hsteps' : Runs.Steps (fun s e s' => s.step (.sorting _) e = .ok s') (manyIcebergs (n + 1))
      (Session.start plainOms) (afterIceberg n s) := by
    rw [manyIcebergs_succ]
    exact Runs.steps_append.2 ⟨s, hsteps, _, h.step, rfl⟩
  obtain ⟨-, -, hfair', -⟩ := manyIcebergs_loaded (n + 1) hn
  refine ⟨hfair'.concat fun s' hs' => ?_, _, Runs.steps_iff_ok.1 (Runs.steps_append.2
    ⟨_, hsteps', _, Loaded.step_trade, rfl⟩), plainIceberg n 1 1, ?_, h.not_lifeCycle hnext⟩
  · have heq : s' = afterIceberg n s :=
      Except.ok.inj ((Runs.steps_iff_ok.1 hs').symm.trans (Runs.steps_iff_ok.1 hsteps'))
    exact heq ▸ h.allowed_trade hn hnext
  · exact List.mem_append_right _ (List.mem_singleton_self _)

/-- One iceberg more than there are ids with the `ICEBERG_BIT`, and a trade of its slice. -/
theorem lifeCycle_broken :
    Session.Fair (.sorting _) (· = 7) (.start plainOms)
      (manyIcebergs (maxSlices + 1) ++ [.trade (sliceTrade 0 1)]) ∧
    ∃ s, (Session.start plainOms).run (.sorting _)
        (manyIcebergs (maxSlices + 1) ++ [.trade (sliceTrade 0 1)]) = .ok s ∧
      ∃ o ∈ s.accepted, ¬LifeCycle o s.legs s.oms :=
  not_lifeCycle_of_wrap (by decide) (by decide)

end Oms

end TradeX
