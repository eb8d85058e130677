import TradeX.Oms
import Mathlib.Logic.Relation

/-!
# The ids of the dispatched orders

The market, limit and stop-loss paths take their ids from `next_oms_order_id`, which starts at the
time of the boot, and the slices of icebergs from `next_child_order_id`, which starts above
`ICEBERG_BIT`. Whatever the thread is given, all it does to the counters and to what is
dispatched is to issue ids one after the other (`Issues`). As long as neither counter reaches
the other's range the ids are distinct (`Issues.nodup`).
-/

namespace TradeX

namespace Oms

/-- The two counters and the calls of `dispatch_order`. -/
structure Issued where
  nextOmsOrderId : ℕ
  nextChildOrderId : ℕ
  dispatched : List Dispatch

/-- The counters of a system and what it has dispatched. -/
def issued (st : Oms) : Issued :=
  ⟨st.nextOmsOrderId, st.nextChildOrderId, st.dispatched⟩

/-- An order is dispatched under the next id of one of the counters. -/
inductive Issue : Issued → Issued → Prop
  | oms (c : Issued) (d : Dispatch) (h : d.order.orderId = c.nextOmsOrderId) :
    Issue c ⟨add64 c.nextOmsOrderId 1, c.nextChildOrderId, c.dispatched ++ [d]⟩
  | child (c : Issued) (d : Dispatch) (h : d.order.orderId = c.nextChildOrderId) :
    Issue c ⟨c.nextOmsOrderId, add64 c.nextChildOrderId 1, c.dispatched ++ [d]⟩

/-- From one state to the other ids are issued, one after the other. -/
def Issues (st st' : Oms) : Prop :=
  Relation.ReflTransGen Issue st.issued st'.issued

namespace Issues

theorem of_eq {st st' : Oms} (h : st'.issued = st.issued) : Issues st st' := by
  rw [Issues, h]

theorem refl (st : Oms) : Issues st st :=
  .of_eq rfl

theorem trans {st st' st'' : Oms} (h : Issues st st') (h' : Issues st' st'') : Issues st st'' :=
  Relation.ReflTransGen.trans h h'

/-- A dispatch under `next_oms_order_id++`. -/
theorem oms (st : Oms) (site : DispatchSite) (client : ClientOrder) {order : Order}
    (h : order.orderId = st.nextOmsOrderId) :
    Issues st ({ st with nextOmsOrderId := add64 st.nextOmsOrderId 1 }.dispatch site client
      order) :=
  .single (.oms st.issued ⟨site, client, order⟩ h)

theorem sendSlice (st : Oms) (parentId : ℕ) : Issues st (st.sendSlice parentId) := by
  unfold Oms.sendSlice
  dsimp only
  split_ifs
  · exact .of_eq rfl
  · exact .single (.child st.issued ⟨.slice, _, _⟩ rfl)
  · exact .of_eq rfl

theorem processIcebergLeg {st st' : Oms} {childId tradedQty : ℕ}
    (h : st.processIcebergLeg childId tradedQty = .ok st') : Issues st st' := by
  unfold Oms.processIcebergLeg at h
  split at h
  · obtain rfl := Except.ok.inj h
    exact .refl st
  · dsimp only at h
    split_ifs at h
    · obtain rfl := Except.ok.inj h
      refine Issues.trans ?_ (Issues.sendSlice _ _)
      exact .of_eq rfl
    · obtain rfl := Except.ok.inj h
      exact .of_eq rfl

theorem checkLeg {st st' : Oms} {id tradedQty : ℕ} (h : st.checkLeg id tradedQty = .ok st') :
    Issues st st' := by
  unfold Oms.checkLeg at h
  split_ifs at h
  · exact .processIcebergLeg h
  · obtain rfl := Except.ok.inj h
    exact .refl st

theorem checkFill {st st' : Oms} {trade : Trade} (h : st.checkFill trade = .ok st') :
    Issues st st' := by
  unfold Oms.checkFill at h
  split_ifs at h
  · obtain rfl := Except.ok.inj h
    exact .refl st
  · obtain ⟨st₁, hbuy, hsell⟩ := bind_eq_ok.1 h
    exact (Issues.checkLeg hbuy).trans (.checkLeg hsell)

theorem triggerStops : ∀ (stops : List ClientOrder) (st : Oms),
    Issues st (stops.foldl triggerStop st)
  | [], st => .refl st
  | stop :: stops, st => (Issues.oms st .stopLoss stop rfl).trans (triggerStops stops _)

theorem pollPrice (std : StdHeap ClientOrder) (st : Oms) (slot currentLtp : ℕ) :
    Issues st (st.pollPrice std slot currentLtp) := by
  unfold Oms.pollPrice
  split_ifs
  · have htrigger : Issues st (st.checkAndTriggerSL std slot currentLtp) := by
      refine Issues.trans ?_ (triggerStops _ _)
      exact .of_eq rfl
    exact htrigger.trans (.of_eq rfl)
  · exact .refl st

theorem receive (std : StdHeap ClientOrder) (st : Oms) (newOrder : ClientOrder) :
    Issues st (st.receive std newOrder) := by
  unfold Oms.receive
  dsimp only
  split_ifs
  · split
    · refine Issues.trans ?_ (Issues.sendSlice _ _)
      exact .of_eq rfl
    · exact .of_eq rfl
    · exact .oms st _ _ rfl
    · unfold sendLimit
      split_ifs
      · exact .oms st _ _ rfl
      · exact .refl st
  · exact .refl st

/-! ## Distinct ids -/

/-- The calls so far are still there. -/
theorem prefix_dispatched {c c' : Issued} (h : Relation.ReflTransGen Issue c c') :
    c.dispatched <+: c'.dispatched := by
  induction h with
  | refl => exact List.prefix_refl _
  | tail _ hissue ih =>
    rcases hissue with ⟨d, -⟩ | ⟨d, -⟩ <;> exact ih.trans (List.prefix_append _ _)

end Issues

/-- What has been issued since the boot : `n` ids of the first counter and `m` of the second, all
different. -/
structure Apart (boot n m : ℕ) (c : Issued) : Prop where
  oms : c.nextOmsOrderId = boot + n
  child : c.nextChildOrderId = icebergBit + 1 + m
  length : c.dispatched.length = n + m
  range : ∀ d ∈ c.dispatched, d.order.orderId < boot + n ∨
    icebergBit < d.order.orderId ∧ d.order.orderId < icebergBit + 1 + m
  nodup : (c.dispatched.map fun d => d.order.orderId).Nodup

theorem nodup_concat {l : List Dispatch} {d : Dispatch} (h : (l.map fun d => d.order.orderId).Nodup)
    (hd : ∀ d' ∈ l, d'.order.orderId ≠ d.order.orderId) :
    ((l ++ [d]).map fun d => d.order.orderId).Nodup := by
  rw [List.map_append, List.nodup_append]
  refine ⟨h, List.nodup_singleton _, fun id hid id' hid' => ?_⟩
  obtain ⟨d', hd', rfl⟩ := List.mem_map.1 hid
  rw [List.map_singleton, List.mem_singleton] at hid'
  exact hid' ▸ hd d' hd'

/-- An order is dispatched under an id that one of the counters has moved past. -/
theorem Apart.concat {boot n m n' m' oms child : ℕ} {c : Issued} (h : Apart boot n m c)
    {d : Dispatch} (hn : n ≤ n') (hm : m ≤ m') (hcount : n' + m' = n + m + 1)
    (homs : oms = boot + n') (hchild : child = icebergBit + 1 + m')
    (hin : d.order.orderId < boot + n' ∨
      icebergBit < d.order.orderId ∧ d.order.orderId < icebergBit + 1 + m')
    (hout : ∀ id, id < boot + n ∨ icebergBit < id ∧ id < icebergBit + 1 + m →
      id ≠ d.order.orderId) :
    Apart boot n' m' ⟨oms, child, c.dispatched ++ [d]⟩ := by
  refine ⟨homs, hchild, ?_, fun d' hd' => ?_,
    nodup_concat h.nodup fun d' hd' => hout _ (h.range d' hd')⟩
  · rw [List.length_append, List.length_singleton, h.length, hcount]
  · rcases List.mem_append.1 hd' with hd' | hd'
    · have := h.range d' hd'
      omega
    · rw [List.mem_singleton.1 hd']
      exact hin

/-- The counters stay in their ranges while fewer than `2 ^ 62` ids are issued. -/
theorem Apart.issue {boot n m : ℕ} {c c' : Issued} (h : Apart boot n m c) (hboot : boot < 2 ^ 62)
    (hissue : Issue c c') (hlt : c'.dispatched.length < 2 ^ 62) : ∃ n' m',
    Apart boot n' m' c' := by
  have hlength := h.length
  have hbit : icebergBit = 2 ^ 63 := rfl
  rcases hissue with ⟨d, hd⟩ | ⟨d, hd⟩
  · rw [List.length_append, List.length_singleton] at hlt
    rw [h.oms] at hd
    refine ⟨n + 1, m, h.concat (Nat.le_succ n) le_rfl (by omega) ?_ h.child (Or.inl (by omega))
      fun id hid => by omega⟩
    rw [h.oms, add64]
    omega
  · rw [List.length_append, List.length_singleton] at hlt
    rw [h.child] at hd
    refine ⟨n, m + 1, h.concat le_rfl (Nat.le_succ m) (by omega) h.oms ?_ (Or.inr (by omega))
      fun id hid => by omega⟩
    rw [h.child, add64]
    omega

/-- All ids issued since the boot are distinct. -/
theorem Issues.nodup {symbolLookupTable : ℕ → ℤ} {boot : ℕ} {clock uninit : ℕ → ℕ}
    {st : Oms} (h : Issues (init symbolLookupTable boot clock uninit) st) (hboot : boot < 2 ^ 62)
    (hlt : st.dispatched.length < 2 ^ 62) :
    (st.dispatched.map fun d => d.order.orderId).Nodup := by
  have hinit : Apart boot 0 0 (init symbolLookupTable boot clock uninit).issued := by
    have hchild : icebergBit ||| 1 = icebergBit + 1 + 0 := by decide
    exact ⟨rfl, hchild, rfl, fun d hd => absurd hd List.not_mem_nil, List.nodup_nil⟩
  have hapart : ∀ {c : Issued},
      Relation.ReflTransGen Issue (init symbolLookupTable boot clock uninit).issued c →
        c.dispatched.length < 2 ^ 62 → ∃ n m, Apart boot n m c := by
    intro c hc
    induction hc with
    | refl => exact fun _ => ⟨0, 0, hinit⟩
    | tail _ hissue ih =>
      intro hlt
      have hle := (Issues.prefix_dispatched (.single hissue)).length_le
      obtain ⟨n, m, hc⟩ := ih (lt_of_le_of_lt hle hlt)
      exact hc.issue hboot hissue hlt
  obtain ⟨n, m, hst⟩ := hapart h hlt
  exact hst.nodup

end Oms

end TradeX
