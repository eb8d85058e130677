import TradeX.SliceRegistry
import TradeX.EngineRuns

/-!
# Whose fills they are

The trades of the engine name orders by their `client_order_id`. That of a slice is an id of the
system, and that of any other order is what its client has chosen, so `check_fill` can take the
trade of an order for that of a slice (`fill_stolen`), and an iceberg can come with the id of
another and take its place.

Here a trade comes with the orders that have made it (`Party`), and each slice with the iceberg
it was sent for (`Ledger`). `run_attributed` says that an iceberg is filled by the trades of its
own slices only, in every run without such ids.
-/

namespace TradeX

namespace Oms

/-- The order that a side of a trade is of : a slice, by its number, or an order that is none. -/
inductive Party
  | slice (j : ℕ)
  | ordinary
  deriving DecidableEq

/-- An event, with the orders that have made a trade. -/
inductive LedgerEvent
  | order (newOrder : ClientOrder)
  | trade (t : Trade) (buyer seller : Party)
  | price (slot currentLtp : ℕ)

/-- What the thread is given of it. -/
def LedgerEvent.event : LedgerEvent → Event
  | .order newOrder => .order newOrder
  | .trade t _ _ => .trade t
  | .price slot currentLtp => .price slot currentLtp

/-- The number of the last iceberg that has come with an id. -/
def latest (accepted : List ClientOrder) (id : ℕ) : Option ℕ :=
  (List.range accepted.length).reverse.find? fun k =>
    accepted[k]?.map ClientOrder.clientOrderId = some id

/-- The system, the icebergs it has accepted, and the number of the iceberg that each slice was
sent for. -/
structure Ledger where
  oms : Oms
  accepted : List ClientOrder
  owners : List (Option ℕ)

/-- An id is that of a party. -/
def IsParty (st : Oms) (id : ℕ) : Party → Prop
  | .slice j => st.slices[j]?.map (fun d => d.order.clientOrderId) = some id
  | .ordinary => ∃ d ∈ st.dispatched, d.site ≠ .slice ∧ d.order.clientOrderId = id

instance (st : Oms) (id : ℕ) : (party : Party) → Decidable (IsParty st id party)
  | .slice _ => inferInstanceAs (Decidable (_ = _))
  | .ordinary => inferInstanceAs (Decidable (∃ _ ∈ _, _ ∧ _))

/-- `check_fill` takes an id for that of a slice. -/
def Taken (st : Oms) (id : ℕ) : Prop :=
  isIceberg id ∧ st.childToParent id ≠ none

instance (st : Oms) (id : ℕ) : Decidable (Taken st id) :=
  inferInstanceAs (Decidable (_ ∧ _))

namespace Ledger

/-- A ledger with no icebergs and no slices. -/
def start (oms : Oms) : Ledger :=
  ⟨oms, [], []⟩

/-- A step of the thread, which notes the icebergs that are accepted and whose slices are sent. -/
def step (std : StdHeap ClientOrder) (s : Ledger) (e : LedgerEvent) : Except Fault Ledger := do
  let oms ← s.oms.step std e.event
  let accepted := s.accepted ++ Session.icebergOf s.oms e.event
  .ok ⟨oms, accepted, s.owners ++
    (oms.slices.drop s.oms.slices.length).map fun d => latest accepted d.client.clientOrderId⟩

/-- Steps of the thread, one after the other. -/
def run (std : StdHeap ClientOrder) (s : Ledger) (events : List LedgerEvent) :
    Except Fault Ledger :=
  events.foldlM (step std) s

/-- The trades are of orders that have been dispatched. -/
def Published (s : Ledger) : LedgerEvent → Prop
  | .trade t buyer seller => IsParty s.oms t.buyOrderId buyer ∧ IsParty s.oms t.sellOrderId seller
  | _ => True

instance (s : Ledger) : (e : LedgerEvent) → Decidable (Published s e)
  | .order _ => .isTrue trivial
  | .trade _ _ _ => inferInstanceAs (Decidable (_ ∧ _))
  | .price _ _ => .isTrue trivial

/-- A party is a slice of the `k`-th iceberg. -/
def owns (s : Ledger) (k : ℕ) : Party → Bool
  | .slice j => s.owners[j]? = some (some k)
  | .ordinary => false

/-- What the slices of the `k`-th iceberg trade. -/
def ownLegs (s : Ledger) (k : ℕ) : LedgerEvent → List ℕ
  | .trade t buyer seller => ([buyer, seller].filter (s.owns k)).map fun _ => t.quantity
  | _ => []

/-- What the record of an order says has been filled. -/
def filledOf (s : Ledger) (o : ClientOrder) : ℕ :=
  (s.oms.iceberg o.clientOrderId).filledQuantity

/-- The quantities that icebergs are filled by are those of trades of their own slices, and no
slice of an iceberg is sent for anything else. -/
structure Attributed (s : Ledger) (e : LedgerEvent) (s' : Ledger) : Prop where
  filled : ∀ k o, s.accepted[k]? = some o →
    ∃ counted : List ℕ, counted.Sublist (s.ownLegs k e) ∧
    s'.filledOf o = counted.foldl add32 (s.filledOf o)
  sent : ∀ k, k < s.accepted.length → s.ownLegs k e = [] →
    s'.owners.count (some k) = s.owners.count (some k)

/-- No iceberg comes with the id of another, and no other order trades under an id that
`check_fill` takes for a slice's. -/
def Apart (s : Ledger) : LedgerEvent → Prop
  | .order newOrder => ∀ o ∈ Session.icebergOf s.oms (.order newOrder),
      o.clientOrderId ∉ idsOf s.accepted
  | .trade t buyer seller => (buyer = .ordinary → ¬Taken s.oms t.buyOrderId) ∧
      (seller = .ordinary → ∀ st₁ ∈ (s.oms.checkLeg t.buyOrderId t.quantity).toOption,
        ¬Taken st₁ t.sellOrderId)
  | .price _ _ => True

instance (s : Ledger) : (e : LedgerEvent) → Decidable (Apart s e)
  | .order _ => inferInstanceAs (Decidable (∀ _ ∈ _, _))
  | .trade _ _ _ => inferInstanceAs (Decidable ((_ → _) ∧ (_ → ∀ _ ∈ _, _)))
  | .price _ _ => .isTrue trivial

/-- And the ids of slices do not come round : there are two left, as many as a trade can take. -/
def Clear (s : Ledger) (e : LedgerEvent) : Prop :=
  s.Apart e ∧ s.oms.slices.length + 2 ≤ 2 ^ 64

instance (s : Ledger) (e : LedgerEvent) : Decidable (Clear s e) :=
  inferInstanceAs (Decidable (_ ∧ _))

end Ledger

/-! ## What a leg does -/

variable {std : StdHeap ClientOrder} {st st' st₁ : Oms} {o : ClientOrder} {id q k : ℕ}
  {p : Option ℕ} {accepted : List ClientOrder}

/-- Only the parent `p`, if any, is filled or sent slices. -/
structure Elsewhere (p : Option ℕ) (st st' : Oms) : Prop where
  filled : ∀ p', p ≠ some p' →
    (st'.iceberg p').filledQuantity = (st.iceberg p').filledQuantity
  slices : ∃ new, st'.slices = st.slices ++ new ∧ ∀ d ∈ new, p = some d.client.clientOrderId

theorem Elsewhere.refl (p : Option ℕ) (st : Oms) : Elsewhere p st st :=
  ⟨fun _ _ => rfl, [], (List.append_nil _).symm, fun _ hd => absurd hd List.not_mem_nil⟩

theorem Elsewhere.trans (h : Elsewhere p st st₁) (h' : Elsewhere p st₁ st') :
    Elsewhere p st st' := by
  obtain ⟨new, hnew, hp⟩ := h.slices
  obtain ⟨new', hnew', hp'⟩ := h'.slices
  refine ⟨fun p' hp' => (h'.filled p' hp').trans (h.filled p' hp'), new ++ new', ?_,
    fun d hd => ?_⟩
  · rw [hnew', hnew, List.append_assoc]
  · exact (List.mem_append.1 hd).elim (hp d) (hp' d)

theorem elsewhere_of_sameIcebergs (h : SameIcebergs st st') : Elsewhere p st st' := by
  refine ⟨fun p' _ => ?_, [], by rw [h.slices, List.append_nil], fun _ hd =>
    absurd hd List.not_mem_nil⟩
  rw [iceberg, iceberg, h.icebergs]

theorem elsewhere_setIceberg (st : Oms) (p : ℕ) (o : ClientOrder) :
    Elsewhere (some p) st (st.setIceberg p o) := by
  refine ⟨fun p' hp' => ?_, [], (List.append_nil _).symm,
    fun _ hd => absurd hd List.not_mem_nil⟩
  have hne : p' ≠ p := fun heq => hp' (by rw [heq])
  rw [iceberg, iceberg, setIceberg]
  simp only [Function.update_of_ne hne]

/-- `send_slice` does not change what is filled. -/
theorem sendSlice_spec {p : ℕ} {parent : ClientOrder} (hp : st.activeIcebergs p = some parent)
    (hid : parent.clientOrderId = p) : Elsewhere (some p) st (st.sendSlice p) ∧
      ((st.sendSlice p).iceberg p).filledQuantity = parent.filledQuantity := by
  rcases sendSlice_cases hp with heq | heq | ⟨-, -, heq⟩ <;> rw [heq]
  · exact ⟨.refl _ st, by rw [iceberg_eq hp]⟩
  · refine ⟨elsewhere_setIceberg st p _, ?_⟩
    rw [iceberg_eq (Function.update_self ..)]
  · refine ⟨⟨fun _ _ => rfl, _, slices_afterSlice .., fun d hd => ?_⟩, ?_⟩
    · rw [List.mem_singleton.1 hd, ← hid]
    · rw [iceberg_eq (show (st.afterSlice p parent _).activeIcebergs p = some parent from hp)]

/-- A leg is ignored, or it fills the parent of its id and does nothing elsewhere. -/
theorem Keyed.checkLeg_spec (h : Keyed accepted st) (hok : st.checkLeg id q = .ok st') :
    st' = st ∨ ∃ p, Taken st id ∧ st.childToParent id = some p ∧
      Elsewhere (some p) st st' ∧
      (st'.iceberg p).filledQuantity = add32 (st.iceberg p).filledQuantity q := by
  rcases checkLeg_cases hok with ⟨rfl, -⟩ | ⟨p, hchild, hbit, -, hcases⟩
  · exact Or.inl rfl
  · obtain ⟨parent, hparent, hid⟩ := h.records p (h.parent_mem hchild)
    have htaken : Taken st id := ⟨hbit, by rw [hchild]; exact nofun⟩
    have hfill : (st.fill p q).activeIcebergs p = some { parent with
        filledQuantity := add32 parent.filledQuantity q } := by
      rw [Oms.fill, iceberg_eq hparent]
      exact Function.update_self ..
    have helse : Elsewhere (some p) st (st.fill p q) := elsewhere_setIceberg st p _
    refine Or.inr ⟨p, htaken, hchild, ?_⟩
    rw [iceberg_eq hparent]
    rcases hcases with ⟨-, rfl⟩ | ⟨-, rfl⟩
    · exact ⟨helse, by rw [iceberg_eq hfill]⟩
    · have hunreg : Elsewhere (some p) (st.fill p q) ((st.fill p q).unregister id) :=
        ⟨fun _ _ => rfl, [], (List.append_nil _).symm, fun _ hd => absurd hd List.not_mem_nil⟩
      have hparent' : ((st.fill p q).unregister id).activeIcebergs p = some { parent with
          filledQuantity := add32 parent.filledQuantity q } := hfill
      obtain ⟨hsend, hfilled⟩ := sendSlice_spec hparent' hid
      exact ⟨(helse.trans hunreg).trans hsend, hfilled⟩

/-- What a leg of a party does : it fills the parent of the slice, if the party is one. -/
theorem Keyed.checkLeg_party (h : Keyed accepted st) (hbound : st.slices.length ≤ 2 ^ 64)
    {party : Party} (hparty : ∀ j, party = .slice j → IsParty st id (.slice j))
    (hapart : party = .ordinary → ¬Taken st id)
    (hok : st.checkLeg id q = .ok st') : ∃ p : Option ℕ, Elsewhere p st st' ∧
    ∀ p', p = some p' →
      (st'.iceberg p').filledQuantity = add32 (st.iceberg p').filledQuantity q ∧
      ∃ j d, party = .slice j ∧ st.slices[j]? = some d ∧ d.client.clientOrderId = p' := by
  rcases h.checkLeg_spec hok with rfl | ⟨p, htaken, hchild, helse, hfilled⟩
  · exact ⟨none, .refl _ _, nofun⟩
  · refine ⟨some p, helse, fun p' hp' => ?_⟩
    obtain rfl := Option.some.inj hp'
    refine ⟨hfilled, ?_⟩
    cases party with
    | ordinary => exact absurd htaken (hapart rfl)
    | slice j =>
      obtain ⟨d, hd, rfl⟩ := Option.map_eq_some_iff.1 (hparty j rfl)
      have hmem := List.mem_of_getElem? hd
      rw [h.clientIds d hmem] at hchild
      exact ⟨j, d, rfl, hd, h.parent_eq hbound hmem hchild⟩

/-! ## Numbers of icebergs -/

theorem latest_some (h : latest accepted id = some k) :
    accepted[k]?.map ClientOrder.clientOrderId = some id := by
  have hk := List.find?_some h
  exact of_decide_eq_true hk

theorem mem_idsOf_of_getElem? (ho : accepted[k]? = some o) : o.clientOrderId ∈ idsOf accepted :=
  List.mem_map_of_mem (List.mem_of_getElem? ho)

/-- Icebergs with one id are one iceberg. -/
theorem index_eq (hdistinct : (idsOf accepted).Nodup) {k' : ℕ} {o' : ClientOrder}
    (ho : accepted[k]? = some o) (ho' : accepted[k']? = some o')
    (heq : o.clientOrderId = o'.clientOrderId) : k = k' := by
  have hid : (idsOf accepted)[k]? = some o.clientOrderId := by
    rw [idsOf, List.getElem?_map, ho]; rfl
  have hid' : (idsOf accepted)[k']? = some o.clientOrderId := by
    rw [idsOf, List.getElem?_map, ho', heq]
    rfl
  obtain ⟨hk, hget⟩ := List.getElem?_eq_some_iff.1 hid
  obtain ⟨hk', hget'⟩ := List.getElem?_eq_some_iff.1 hid'
  exact (hdistinct.getElem_inj_iff).1 (hget.trans hget'.symm)

/-- The last iceberg with an id is the one with that id. -/
theorem exists_latest (h : id ∈ idsOf accepted) : ∃ k o, latest accepted id = some k ∧
    accepted[k]? = some o ∧ o.clientOrderId = id := by
  obtain ⟨o, ho, rfl⟩ := List.mem_map.1 h
  obtain ⟨k, hk, hget⟩ := List.getElem_of_mem ho
  cases hlatest : latest accepted o.clientOrderId with
  | none =>
    have hnone := List.find?_eq_none.1 hlatest k (List.mem_reverse.2 (List.mem_range.2 hk))
    rw [List.getElem?_eq_getElem hk, hget] at hnone
    simp at hnone
  | some j =>
    obtain ⟨o', ho', hid⟩ := Option.map_eq_some_iff.1 (latest_some hlatest)
    exact ⟨j, o', rfl, ho', hid⟩

namespace Ledger

variable {s s' : Ledger} {e : LedgerEvent}

/-- Each slice is known to be sent for the iceberg whose id its parent had. -/
structure Inv (s : Ledger) : Prop where
  keyed : Keyed s.accepted s.oms
  bound : s.oms.slices.length ≤ 2 ^ 64
  length : s.owners.length = s.oms.slices.length
  owner : ∀ (j : ℕ) (d : Dispatch), s.oms.slices[j]? = some d →
    ∃ (k : ℕ) (o : ClientOrder), s.owners[j]? = some (some k) ∧ s.accepted[k]? = some o ∧
      o.clientOrderId = d.client.clientOrderId

theorem inv_start (symbolLookupTable : ℕ → ℤ) (bootTimestamp : ℕ)
    (clock uninit : ℕ → ℕ) :
    Inv (start (.init symbolLookupTable bootTimestamp clock uninit)) :=
  ⟨.init .., Nat.zero_le _, rfl, fun _ _ hd => absurd hd (by simp [start, Oms.init, slices])⟩

/-- A slice of the parent of an iceberg is owned by it. -/
theorem Inv.owns (h : Inv s) {j : ℕ} {d : Dispatch} (hd : s.oms.slices[j]? = some d)
    (ho : s.accepted[k]? = some o) (hid : d.client.clientOrderId = o.clientOrderId) :
    s.owns k (.slice j) = true := by
  obtain ⟨k', o', howner, ho', hid'⟩ := h.owner j d hd
  have hk : k' = k := index_eq h.keyed.distinct ho' ho (hid'.trans hid)
  rw [Ledger.owns, howner, hk]
  simp

/-- The step of the system that a step of the ledger is. -/
theorem step_ok (h : s.step std e = .ok s') : s.oms.step std e.event = .ok s'.oms ∧
    s'.accepted = s.accepted ++ Session.icebergOf s.oms e.event ∧
    s'.owners = s.owners ++ (s'.oms.slices.drop s.oms.slices.length).map fun d =>
      latest s'.accepted d.client.clientOrderId := by
  obtain ⟨oms, hok, heq⟩ := bind_eq_ok.1 h
  rw [← Except.ok.inj heq]
  exact ⟨hok, rfl, rfl⟩

theorem Apart.newId (h : s.Apart e) : ∀ o ∈ Session.icebergOf s.oms e.event,
    o.clientOrderId ∉ idsOf s.accepted := by
  cases e with
  | order newOrder => exact h
  | trade t buyer seller => exact fun o ho => absurd ho List.not_mem_nil
  | price slot currentLtp => exact fun o ho => absurd ho List.not_mem_nil

theorem extends_step (hstep : s.step std e = .ok s') : Extends s.oms s'.oms := by
  have hok : Session.step std ⟨s.oms, [], []⟩ e.event = .ok ⟨s'.oms, _, _⟩ :=
    Session.step_eq_ok (step_ok hstep).1
  exact Session.extends_step hok

theorem Inv.step (h : Inv s) (hclear : s.Clear e) (hstep : s.step std e = .ok s') : Inv s' := by
  obtain ⟨hok, haccepted, howners⟩ := step_ok hstep
  obtain ⟨new, hnew⟩ := extends_step hstep
  have hkeyed : Keyed s'.accepted s'.oms := haccepted ▸ h.keyed.step hclear.1.newId hok
  have hdrop : s'.oms.slices.drop s.oms.slices.length = new := by rw [hnew, List.drop_left]
  rw [hdrop] at howners
  refine ⟨hkeyed, (length_step_le hok).trans hclear.2, ?_, fun j d hd => ?_⟩
  · rw [howners, hnew, List.length_append, List.length_append, List.length_map, h.length]
  · rcases Nat.lt_or_ge j s.oms.slices.length with hj | hj
    · rw [hnew, List.getElem?_append_left hj] at hd
      obtain ⟨k, o, howner, ho, hid⟩ := h.owner j d hd
      refine ⟨k, o, ?_, ?_, hid⟩
      · rw [howners, List.getElem?_append_left (by rw [h.length]; exact hj)]
        exact howner
      · rw [haccepted, List.getElem?_append_left (List.getElem?_eq_some_iff.1 ho).1]
        exact ho
    · have hmem := List.mem_of_getElem? hd
      rw [hnew, List.getElem?_append_right hj] at hd
      obtain ⟨k, o, hlatest, ho, hid⟩ := exists_latest (hkeyed.owned d hmem)
      refine ⟨k, o, ?_, ho, hid⟩
      rw [howners, List.getElem?_append_right (by rw [h.length]; exact hj), h.length,
        List.getElem?_map, hd, ← hlatest]
      rfl

/-- No slice of an iceberg is sent if all that is sent is for others. -/
theorem count_owners (hstep : s.step std e = .ok s') {new : List Dispatch}
    (hnew : s'.oms.slices = s.oms.slices ++ new) (ho : s.accepted[k]? = some o)
    (hothers : ∀ d ∈ new, d.client.clientOrderId ≠ o.clientOrderId) :
    s'.owners.count (some k) = s.owners.count (some k) := by
  obtain ⟨-, haccepted, howners⟩ := step_ok hstep
  rw [hnew, List.drop_left] at howners
  have hzero : (new.map fun d => latest s'.accepted d.client.clientOrderId).count (some k) = 0 := by
    refine List.count_eq_zero.2 fun hmem => ?_
    obtain ⟨d, hd, hlatest⟩ := List.mem_map.1 hmem
    have hid := latest_some hlatest
    rw [haccepted, List.getElem?_append_left (List.getElem?_eq_some_iff.1 ho).1, ho] at hid
    exact hothers d hd (Option.some.inj hid).symm
  rw [howners, List.count_append, hzero, Nat.add_zero]

/-- A step that is not a trade, and does nothing to the icebergs that there are. -/
theorem attributed_of_elsewhere (hstep : s.step std e = .ok s') (helse : Elsewhere p s.oms s'.oms)
    (hothers : ∀ p', p = some p' → p' ∉ idsOf s.accepted) : Attributed s e s' := by
  obtain ⟨new, hnew, hp⟩ := helse.slices
  refine ⟨fun k o ho => ⟨[], List.nil_sublist _, ?_⟩, fun k hk _ => ?_⟩
  · exact helse.filled _ fun hp' => hothers _ hp' (mem_idsOf_of_getElem? ho)
  · have ho := List.getElem?_eq_getElem hk
    refine count_owners hstep hnew ho fun d hd heq => ?_
    exact hothers _ (hp d hd) (heq ▸ mem_idsOf_of_getElem? ho)

/-- What a side of a trade fills an iceberg by. -/
def countedLeg (p : Option ℕ) (o : ClientOrder) (q : ℕ) : List ℕ :=
  if p = some o.clientOrderId then [q] else []

/-- A side of a trade fills only the iceberg that it is a slice of. -/
theorem filled_leg {p : Option ℕ} (helse : Elsewhere p st st')
    (hfilled : ∀ p', p = some p' →
      (st'.iceberg p').filledQuantity = add32 (st.iceberg p').filledQuantity q) (o : ClientOrder) :
    (st'.iceberg o.clientOrderId).filledQuantity =
      (countedLeg p o q).foldl add32 (st.iceberg o.clientOrderId).filledQuantity := by
  rw [countedLeg]
  split_ifs with hp
  · exact hfilled _ hp
  · exact helse.filled _ hp

theorem sublist_ownLegs {t : Trade} {buyer seller : Party} {p p' : Option ℕ}
    (hbuyer : p = some o.clientOrderId → s.owns k buyer = true)
    (hseller : p' = some o.clientOrderId → s.owns k seller = true) :
    (countedLeg p o t.quantity ++ countedLeg p' o t.quantity).Sublist
      (s.ownLegs k (.trade t buyer seller)) := by
  have hsplit : s.ownLegs k (.trade t buyer seller) =
      (if s.owns k buyer then [t.quantity] else []) ++
        if s.owns k seller then [t.quantity] else [] := by
    rw [ownLegs, List.filter_cons, List.filter_cons]
    split_ifs <;> rfl
  have hleg : ∀ {p : Option ℕ} {b : Bool}, (p = some o.clientOrderId → b = true) →
      (countedLeg p o t.quantity).Sublist (if b then [t.quantity] else []) := by
    intro p b hb
    rw [countedLeg]
    split_ifs with hp hb'
    · exact .refl _
    · exact absurd (hb hp) hb'
    · exact List.nil_sublist _
    · exact .refl _
  rw [hsplit]
  exact (hleg hbuyer).append (hleg hseller)

/-- A slice stays where it is. -/
theorem isParty_of_append {new : List Dispatch} (hnew : st'.slices = st.slices ++ new) {j : ℕ}
    (h : IsParty st id (.slice j)) : IsParty st' id (.slice j) := by
  obtain ⟨d, hd, hid⟩ := Option.map_eq_some_iff.1 h
  refine Option.map_eq_some_iff.2 ⟨d, ?_, hid⟩
  rw [hnew, List.getElem?_append_left (List.getElem?_eq_some_iff.1 hd).1]
  exact hd

/-- A trade of orders that have been dispatched. -/
theorem Inv.trade (h : Inv s) {t : Trade} {buyer seller : Party}
    (hpublished : s.Published (.trade t buyer seller)) (hclear : s.Clear (.trade t buyer seller))
    (hstep : s.step std (.trade t buyer seller) = .ok s') :
    Attributed s (.trade t buyer seller) s' := by
  have hfill : s.oms.checkFill t = .ok s'.oms := (step_ok hstep).1
  rw [checkFill_eq, bind_eq_ok] at hfill
  obtain ⟨st₁, hbuy, hsell⟩ := hfill
  have hbound := (length_step_le (step_ok hstep).1).trans hclear.2
  obtain ⟨p, helse, hp⟩ := h.keyed.checkLeg_party h.bound
    (fun j hj => hj ▸ hpublished.1) hclear.1.1 hbuy
  obtain ⟨new, hnew, hnewp⟩ := helse.slices
  have hslice : ∀ j, seller = .slice j → IsParty s.oms t.sellOrderId (.slice j) :=
    fun j hj => hj ▸ hpublished.2
  obtain ⟨p', helse', hp'⟩ := (h.keyed.checkLeg hbuy).checkLeg_party
    ((extends_checkLeg hsell).length_le.trans hbound)
    (fun j hj => isParty_of_append hnew (hslice j hj))
    (fun hord => hclear.1.2 hord st₁ (by rw [hbuy]; rfl)) hsell
  obtain ⟨new', hnew', hnewp'⟩ := helse'.slices
  have hbuyer : ∀ {k o}, s.accepted[k]? = some o → p = some o.clientOrderId →
      s.owns k buyer = true := by
    intro k o ho hpo
    obtain ⟨-, j, d, rfl, hd, hid⟩ := hp _ hpo
    exact h.owns hd ho hid
  have hseller : ∀ {k o}, s.accepted[k]? = some o → p' = some o.clientOrderId →
      s.owns k seller = true := by
    intro k o ho hpo
    obtain ⟨-, j, d, rfl, hd, hid⟩ := hp' _ hpo
    obtain ⟨d', hd', -⟩ := Option.map_eq_some_iff.1 (hslice j rfl)
    rw [hnew, List.getElem?_append_left (List.getElem?_eq_some_iff.1 hd').1] at hd
    exact h.owns hd ho hid
  refine ⟨fun k o ho => ⟨_, sublist_ownLegs (hbuyer ho) (hseller ho), ?_⟩,
    fun k hk hnone => ?_⟩
  · rw [List.foldl_append, filledOf,
      filledOf, ← filled_leg helse (fun p₁ h₁ => (hp p₁ h₁).1) o]
    exact filled_leg helse' (fun p₁ h₁ => (hp' p₁ h₁).1) o
  · have ho := List.getElem?_eq_getElem hk
    have hall : s'.oms.slices = s.oms.slices ++ (new ++ new') := by
      rw [hnew', hnew, List.append_assoc]
    have hsub := sublist_ownLegs (t := t) (hbuyer ho) (hseller ho)
    rw [hnone, List.sublist_nil, List.append_eq_nil_iff] at hsub
    refine count_owners hstep hall ho fun d hd heq => ?_
    rcases List.mem_append.1 hd with hd | hd
    · have hleg := hsub.1
      rw [countedLeg, if_pos (by rw [hnewp d hd, heq])] at hleg
      cases hleg
    · have hleg := hsub.2
      rw [countedLeg, if_pos (by rw [hnewp' d hd, heq])] at hleg
      cases hleg

/-- A step is attributed to the icebergs whose slices trade. -/
theorem Inv.attributed (h : Inv s) (hpublished : s.Published e) (hclear : s.Clear e)
    (hstep : s.step std e = .ok s') : Attributed s e s' := by
  have hok := (step_ok hstep).1
  cases e with
  | trade t buyer seller => exact h.trade hpublished hclear hstep
  | price slot currentLtp =>
    have hsame := sameIcebergs_pollPrice std s.oms slot currentLtp
    rw [Except.ok.inj hok] at hsame
    exact attributed_of_elsewhere (p := none) hstep (elsewhere_of_sameIcebergs hsame) nofun
  | order newOrder =>
    rcases Session.icebergOf_cases s.oms (.order newOrder) with hnone | ⟨_, o, -, hone⟩
    · have hsame := sameIcebergs_receive std s.oms newOrder hnone
      rw [Except.ok.inj hok] at hsame
      exact attributed_of_elsewhere (p := none) hstep (elsewhere_of_sameIcebergs hsame) nofun
    · have hnew : o.clientOrderId ∉ idsOf s.accepted := hclear.1 o (by rw [hone]; simp)
      have hparent : (s.oms.setIceberg o.clientOrderId o).activeIcebergs o.clientOrderId = some o :=
        Function.update_self ..
      have helse := (elsewhere_setIceberg s.oms o.clientOrderId o).trans
        (sendSlice_spec hparent rfl).1
      have homs : s.oms.receive std newOrder = s'.oms := Except.ok.inj hok
      rw [Session.receive_iceberg std hone] at homs
      rw [homs] at helse
      exact attributed_of_elsewhere hstep helse fun p' hp' => Option.some.inj hp' ▸ hnew

/-- In every run in which no iceberg comes with the id of another, no other order trades under
the id of a slice, and the ids of slices have not come round, each iceberg is filled by trades
of its own slices only, and its slices are sent for these only. -/
theorem run_attributed (std : StdHeap ClientOrder) (symbolLookupTable : ℕ → ℤ)
    (bootTimestamp : ℕ) (clock uninit : ℕ → ℕ) {events : List LedgerEvent}
    (hpublished : Runs.Always (fun s e s' => step std s e = .ok s') Published
      (start (.init symbolLookupTable bootTimestamp clock uninit)) events)
    (hclear : Runs.Always (fun s e s' => step std s e = .ok s') Clear
      (start (.init symbolLookupTable bootTimestamp clock uninit)) events)
    {pre post : List LedgerEvent} (hevents : events = pre ++ e :: post)
    (hpre : (start (.init symbolLookupTable bootTimestamp clock uninit)).run std pre = .ok s)
    (hstep : s.step std e = .ok s') : Attributed s e s' := by
  subst hevents
  have hpre := Runs.steps_iff_ok.2 hpre
  have h : Inv s :=
    Runs.Steps.invariant (I := Inv) (P := Clear) (fun h hclear hstep => h.step hclear hstep)
      (inv_start symbolLookupTable bootTimestamp clock uninit) hclear.left hpre
  exact h.attributed (hpublished pre e post s rfl hpre) (hclear pre e post s rfl hpre) hstep

/-- Three units in two slices, bought by one order. -/
def boughtSlices : List LedgerEvent :=
  [.order (plainIceberg 1 3 2), .order (plainLimit 7 .buy 100 3),
    .trade (sliceTrade (2 ^ 63 + 1) 2) .ordinary (.slice 0)]

theorem run_attributed_boughtSlices : ∃ s s',
    (start plainOms).run (.sorting _) boughtSlices = .ok s ∧
    s.step (.sorting _) (.trade (sliceTrade (2 ^ 63 + 2) 1) .ordinary (.slice 1)) = .ok s' ∧
    s'.filledOf (plainIceberg 1 3 2) = 3 ∧
    Attributed s (.trade (sliceTrade (2 ^ 63 + 2) 1) .ordinary (.slice 1)) s' := by
  have hview : (((start plainOms).run (.sorting _) boughtSlices) >>= fun s =>
      (s.step (.sorting _) (.trade (sliceTrade (2 ^ 63 + 2) 1) .ordinary (.slice 1))).map fun s' =>
        s'.filledOf (plainIceberg 1 3 2)) = .ok 3 := by decide +kernel
  obtain ⟨s, hrun, hview⟩ := bind_eq_ok.1 hview
  obtain ⟨s', hstep, hfilled⟩ := map_eq_ok.1 hview
  refine ⟨s, s', hrun, hstep, hfilled, run_attributed _ _ _ _ _
    (Runs.always_of_allowed_ok (l := boughtSlices ++
      [.trade (sliceTrade (2 ^ 63 + 2) 1) .ordinary (.slice 1)]) ?_)
    (Runs.always_of_allowed_ok ?_) rfl hrun hstep⟩ <;> decide +kernel

/-- An iceberg, and a buy order and a sell order that trade with each other below its price. The
client of the buy order has chosen the id of the slice. -/
def chosenId : List LedgerEvent :=
  [.order (plainIceberg 1 3 2), .order (plainLimit (2 ^ 63 + 1) .buy 90 2),
    .order (plainLimit 7 .sell 90 2)]

/-- The trade of the two orders. -/
def chosenTrade : Trade :=
  ⟨1, 2, 90, 2 ^ 63 + 1, 7, 0, 2⟩

/-- The trade that the engine makes of the orders that have been dispatched fills the iceberg,
and its second slice is sent, although the first has not traded. -/
theorem fill_stolen : ∃ s s' engine, (start plainOms).run (.sorting _) chosenId = .ok s ∧
    (EngineState.init zeroNodes 4 80 110).run (s.oms.dispatched.map Dispatch.order) = .ok engine ∧
    engine.published.map Execution.trade = [chosenTrade] ∧
    s.Published (.trade chosenTrade .ordinary .ordinary) ∧
    s.step (.sorting _) (.trade chosenTrade .ordinary .ordinary) = .ok s' ∧
    s.filledOf (plainIceberg 1 3 2) = 0 ∧ s'.filledOf (plainIceberg 1 3 2) = 2 ∧
    ¬Attributed s (.trade chosenTrade .ordinary .ordinary) s' := by
  have hview : ((start plainOms).run (.sorting _) chosenId).map (fun s =>
      (((EngineState.init zeroNodes 4 80 110).run (s.oms.dispatched.map Dispatch.order)).map
        fun engine => engine.published.map Execution.trade,
      decide (s.Published (.trade chosenTrade .ordinary .ordinary)),
      (s.step (.sorting _) (.trade chosenTrade .ordinary .ordinary)).map fun s' =>
        s'.filledOf (plainIceberg 1 3 2),
      s.filledOf (plainIceberg 1 3 2), s.accepted)) =
      .ok (.ok [chosenTrade], true, .ok 2, 0, [plainIceberg 1 3 2]) := by decide +kernel
  obtain ⟨s, hrun, hview⟩ := map_eq_ok.1 hview
  simp only [Prod.mk.injEq, decide_eq_true_eq] at hview
  obtain ⟨hengine, hpublished, hstep, hbefore, haccepted⟩ := hview
  obtain ⟨engine, hengine, htrades⟩ := map_eq_ok.1 hengine
  obtain ⟨s', hstep, hafter⟩ := map_eq_ok.1 hstep
  refine ⟨s, s', engine, hrun, hengine, htrades, hpublished, hstep, hbefore, hafter,
    fun h => ?_⟩
  -- no slice is a party of the trade
  obtain ⟨counted, hcounted, hfilled⟩ :=
    h.filled 0 (plainIceberg 1 3 2) (by rw [haccepted]; rfl)
  rw [List.sublist_nil.1 hcounted, hafter] at hfilled
  exact absurd (hfilled.trans hbefore) (by decide)

end Ledger

end Oms

end TradeX
