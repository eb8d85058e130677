import TradeX.Icebergs

/-!
# The registry of slices

`child_to_parent` says whose slice an id is, and `active_icebergs` has the parents by the ids
their clients have chosen. `Keyed` is what the calls keep of the two when no two icebergs have
one id, whatever the quantities of the icebergs are and whatever trades come : an id in the
registry is that of a slice that was sent for that parent. Up to `2 ^ 64` slices their ids are
distinct.
-/

namespace TradeX

namespace Oms

variable {std : StdHeap ClientOrder} {st st' : Oms} {o : ClientOrder} {id p q : ℕ}
  {accepted : List ClientOrder}

/-! ## How many slices are sent -/

theorem length_sendSlice_le (st : Oms) (p : ℕ) :
    (st.sendSlice p).slices.length ≤ st.slices.length + 1 := by
  simp only [sendSlice]
  split_ifs
  · exact Nat.le_succ _
  · rw [slices, dispatch, List.filter_append, List.length_append]
    exact Nat.le_refl _
  · exact Nat.le_succ _

theorem length_checkLeg_le (h : st.checkLeg id q = .ok st') :
    st'.slices.length ≤ st.slices.length + 1 := by
  rcases checkLeg_cases h with ⟨rfl, -⟩ | ⟨p, -, -, -, ⟨-, rfl⟩ | ⟨-, rfl⟩⟩
  · exact Nat.le_succ _
  · exact Nat.le_succ _
  · exact length_sendSlice_le _ p

/-- A step sends at most two slices, one for each leg of a trade. -/
theorem length_step_le {e : Event} (h : st.step std e = .ok st') :
    st'.slices.length ≤ st.slices.length + 2 := by
  rcases e with newOrder | t | ⟨slot, ltp⟩
  · rw [← Except.ok.inj h]
    rcases Session.icebergOf_cases st (.order newOrder) with hnone | ⟨_, o, heq, hone⟩
    · rw [(sameIcebergs_receive std st newOrder hnone).slices]
      exact Nat.le_add_right _ _
    · rw [Session.receive_iceberg std hone]
      exact (length_sendSlice_le _ _).trans (Nat.le_succ _)
  · rw [Oms.step, checkFill_eq, bind_eq_ok] at h
    obtain ⟨st₁, hbuy, hsell⟩ := h
    exact (length_checkLeg_le hsell).trans (Nat.succ_le_succ (length_checkLeg_le hbuy))
  · rw [← Except.ok.inj h, (sameIcebergs_pollPrice std st slot ltp).slices]
    exact Nat.le_add_right _ _

/-! ## Whose slice an id is -/

/-- The ids of the icebergs. -/
def idsOf (accepted : List ClientOrder) : List ℕ :=
  accepted.map ClientOrder.clientOrderId

/-- The ids of the slices are consecutive, and each slice has its parent in the maps. -/
structure Keyed (accepted : List ClientOrder) (st : Oms) : Prop where
  counter : st.nextChildOrderId = (icebergBit + 1 + st.slices.length) % 2 ^ 64
  ids : st.sliceIds = (List.range st.slices.length).map fun i => (icebergBit + 1 + i) % 2 ^ 64
  clientIds : ∀ d ∈ st.slices, d.order.clientOrderId = d.order.orderId
  distinct : (idsOf accepted).Nodup
  owned : ∀ d ∈ st.slices, d.client.clientOrderId ∈ idsOf accepted
  children : ∀ id p, st.childToParent id = some p →
    ∃ d ∈ st.slices, d.order.orderId = id ∧ d.client.clientOrderId = p
  records : ∀ p ∈ idsOf accepted, ∃ r, st.activeIcebergs p = some r ∧ r.clientOrderId = p

namespace Keyed

theorem init (symbolLookupTable : ℕ → ℤ) (bootTimestamp : ℕ) (clock uninit : ℕ → ℕ) :
    Keyed [] (.init symbolLookupTable bootTimestamp clock uninit) where
  counter := by
    change icebergBit ||| 1 = (icebergBit + 1) % 2 ^ 64
    decide
  ids := rfl
  clientIds _ hd := absurd hd List.not_mem_nil
  distinct := List.nodup_nil
  owned _ hd := absurd hd List.not_mem_nil
  children _ _ hchild := absurd hchild (Option.some_ne_none _).symm
  records _ hp := absurd hp List.not_mem_nil

/-- Up to `2 ^ 64` slices have distinct ids. -/
theorem eq_of_orderId (h : Keyed accepted st) (hbound : st.slices.length ≤ 2 ^ 64)
    {d d' : Dispatch}
    (hd : d ∈ st.slices) (hd' : d' ∈ st.slices) (heq : d.order.orderId = d'.order.orderId) :
    d = d' := by
  have hnodup : st.sliceIds.Nodup := by
    rw [h.ids]
    refine List.Nodup.map_on (fun i hi j hj hij => ?_) List.nodup_range
    have hi := List.mem_range.1 hi
    have hj := List.mem_range.1 hj
    omega
  exact List.inj_on_of_nodup_map hnodup hd hd' heq

/-- The parent of a registered slice is the one it was sent for. -/
theorem parent_eq (h : Keyed accepted st) (hbound : st.slices.length ≤ 2 ^ 64) {d : Dispatch}
    (hd : d ∈ st.slices) (hchild : st.childToParent d.order.orderId = some p) :
    d.client.clientOrderId = p := by
  obtain ⟨d', hd', hid, hp⟩ := h.children _ p hchild
  rwa [h.eq_of_orderId hbound hd hd' hid.symm]

/-- The next id is not that of a slice, and has no parent. -/
theorem fresh (h : Keyed accepted st) (hlt : st.slices.length < 2 ^ 64) :
    st.childToParent st.nextChildOrderId = none := by
  refine Option.eq_none_iff_forall_not_mem.2 fun p hchild => ?_
  obtain ⟨d, hd, hid, -⟩ := h.children _ p hchild
  have hmem : st.nextChildOrderId ∈ st.sliceIds := hid ▸ List.mem_map_of_mem hd
  rw [h.ids, h.counter] at hmem
  obtain ⟨i, hi, heq⟩ := List.mem_map.1 hmem
  have hi := List.mem_range.1 hi
  omega

theorem parent_mem (h : Keyed accepted st) (hchild : st.childToParent id = some p) :
    p ∈ idsOf accepted := by
  obtain ⟨d, hd, -, rfl⟩ := h.children id p hchild
  exact h.owned d hd

theorem of_sameIcebergs (h : Keyed accepted st) (hs : SameIcebergs st st') :
    Keyed accepted st' where
  counter := by rw [hs.next, hs.slices, h.counter]
  ids := by rw [hs.sliceIds, hs.slices, h.ids]
  clientIds := by rw [hs.slices]; exact h.clientIds
  distinct := h.distinct
  owned := by rw [hs.slices]; exact h.owned
  children := by rw [hs.slices, hs.children]; exact h.children
  records := by rw [hs.icebergs]; exact h.records

/-- The record of a parent is replaced. -/
theorem setIceberg (h : Keyed accepted st) (ho : o.clientOrderId = p) :
    Keyed accepted (st.setIceberg p o) where
  counter := h.counter
  ids := h.ids
  clientIds := h.clientIds
  distinct := h.distinct
  owned := h.owned
  children := h.children
  records p' hp' := by
    rcases eq_or_ne p' p with rfl | hne
    · exact ⟨o, Function.update_self .., ho⟩
    · obtain ⟨r, hr, hid⟩ := h.records p' hp'
      exact ⟨r, (Function.update_of_ne hne ..).trans hr, hid⟩

theorem unregister (h : Keyed accepted st) (id : ℕ) : Keyed accepted (st.unregister id) where
  counter := h.counter
  ids := h.ids
  clientIds := h.clientIds
  distinct := h.distinct
  owned := h.owned
  children id' p hchild := by
    rcases eq_or_ne id' id with rfl | hne
    · exact absurd ((Function.update_self ..).symm.trans hchild) nofun
    · exact h.children id' p ((Function.update_of_ne hne ..).symm.trans hchild)
  records := h.records

theorem afterSlice (h : Keyed accepted st) {parent : ClientOrder}
    (hp : parent.clientOrderId ∈ idsOf accepted) :
    Keyed accepted (st.afterSlice parent.clientOrderId parent q) where
  counter := counter_afterSlice h.counter ..
  ids := by
    rw [sliceIds_afterSlice, length_slices_afterSlice, List.range_succ, List.map_append, ← h.ids,
      h.counter]
    rfl
  clientIds := forall_slices_afterSlice h.clientIds rfl
  distinct := h.distinct
  owned := forall_slices_afterSlice h.owned hp
  children id p hchild := by
    rw [slices_afterSlice]
    simp only [Oms.afterSlice] at hchild
    rcases eq_or_ne id st.nextChildOrderId with rfl | hne
    · rw [Function.update_self, Option.some.injEq] at hchild
      exact ⟨_, List.mem_append_right _ (List.mem_singleton_self _), rfl, hchild⟩
    · rw [Function.update_of_ne hne] at hchild
      obtain ⟨d, hd, hid⟩ := h.children id p hchild
      exact ⟨d, List.mem_append_left _ hd, hid⟩
  records := h.records

theorem sendSlice (h : Keyed accepted st) (hp : p ∈ idsOf accepted) :
    Keyed accepted (st.sendSlice p) := by
  obtain ⟨parent, hparent, rfl⟩ := h.records p hp
  rcases sendSlice_cases hparent with heq | heq | ⟨-, -, heq⟩ <;> rw [heq]
  · exact h
  · exact h.setIceberg rfl
  · exact h.afterSlice hp

theorem fill (h : Keyed accepted st) (hp : p ∈ idsOf accepted) :
    Keyed accepted (st.fill p q) := by
  obtain ⟨parent, hparent, hid⟩ := h.records p hp
  refine h.setIceberg ?_
  rw [iceberg_eq hparent]
  exact hid

theorem checkLeg (h : Keyed accepted st) (hok : st.checkLeg id q = .ok st') :
    Keyed accepted st' := by
  rcases checkLeg_cases hok with ⟨rfl, -⟩ | ⟨p, hchild, -, -, ⟨-, rfl⟩ | ⟨-, rfl⟩⟩
  · exact h
  · exact h.fill (h.parent_mem hchild)
  · exact ((h.fill (h.parent_mem hchild)).unregister id).sendSlice (h.parent_mem hchild)

theorem checkFill (h : Keyed accepted st) {t : Trade} (hok : st.checkFill t = .ok st') :
    Keyed accepted st' := by
  rw [checkFill_eq, bind_eq_ok] at hok
  obtain ⟨st₁, hbuy, hsell⟩ := hok
  exact (h.checkLeg hbuy).checkLeg hsell

theorem mem_idsOf_append_self (accepted : List ClientOrder) (o : ClientOrder) :
    o.clientOrderId ∈ idsOf (accepted ++ [o]) := by
  simp [idsOf]

/-- An iceberg with an id of its own is put among the others. -/
theorem register (h : Keyed accepted st) (hnew : o.clientOrderId ∉ idsOf accepted) :
    Keyed (accepted ++ [o]) (st.setIceberg o.clientOrderId o) := by
  have hids : idsOf (accepted ++ [o]) = idsOf accepted ++ [o.clientOrderId] := by
    rw [idsOf, List.map_append]
    rfl
  have h' := h.setIceberg (p := o.clientOrderId) (o := o) rfl
  refine ⟨h.counter, h.ids, h.clientIds, ?_, fun d hd => ?_, h.children, fun p hp => ?_⟩
  · rw [hids]
    exact List.nodup_append_comm.1 (List.nodup_cons.2 ⟨hnew, h.distinct⟩)
  · rw [hids]
    exact List.mem_append_left _ (h.owned d hd)
  · rw [hids] at hp
    rcases List.mem_append.1 hp with hp | hp
    · exact h'.records p hp
    · rw [List.mem_singleton.1 hp]
      exact ⟨o, Function.update_self .., rfl⟩

/-- And its first slice is sent. -/
theorem accept (h : Keyed accepted st) (hnew : o.clientOrderId ∉ idsOf accepted) :
    Keyed (accepted ++ [o]) ((st.setIceberg o.clientOrderId o).sendSlice o.clientOrderId) :=
  (h.register hnew).sendSlice (mem_idsOf_append_self accepted o)

/-- A step, if no iceberg comes with an id that another has. -/
theorem step (h : Keyed accepted st) {e : Event}
    (hnew : ∀ o ∈ Session.icebergOf st e, o.clientOrderId ∉ idsOf accepted)
    (hok : st.step std e = .ok st') : Keyed (accepted ++ Session.icebergOf st e) st' := by
  rcases Session.icebergOf_cases st e with hnone | ⟨newOrder, o, rfl, hone⟩
  · rw [hnone, List.append_nil]
    rcases e with newOrder | t | ⟨slot, ltp⟩
    · rw [← Except.ok.inj hok]
      exact h.of_sameIcebergs (sameIcebergs_receive std st newOrder hnone)
    · exact h.checkFill hok
    · rw [← Except.ok.inj hok]
      exact h.of_sameIcebergs (sameIcebergs_pollPrice std st slot ltp)
  · rw [Oms.step, Session.receive_iceberg std hone, Except.ok.injEq] at hok
    rw [hone, ← hok]
    exact h.accept (hnew o (by simp [hone]))

end Keyed

end Oms

end TradeX
