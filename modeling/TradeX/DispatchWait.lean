import TradeX.GroupTrades
import Mathlib.Algebra.Order.BigOperators.Group.Finset
import Mathlib.Algebra.BigOperators.Ring.Finset

/-!
# How long `dispatch_order` waits

`dispatch_order` tries again until the queue of the group has room, and until then the thread of
the order management system reads no trade. A group's thread never waits for it : `add_trade`
overwrites. So every step of a group's thread and every try leaves the system as it is or uses up
some of its work (`Serving.spend`), and if both do nothing, a queue is full and empty.

With a queue of even capacity, `dispatch_order` waits for at most four rounds of the threads for
each order that has been dispatched (`dispatch_waits`).
-/

namespace TradeX

open MatchingEngineDispatcher

namespace System

/-- What a group's thread has to do : three for an order in its queue, two for an order in its books
or a trade it has to publish, one for a price it has to store. -/
def load (g : GroupThread) : ℕ :=
  3 * g.processor.groupQueue.size + 2 * g.processor.resting + 2 * g.pending.length +
    g.unstored.elim 0 fun _ => 1

/-- What the threads have to do before nothing waits. -/
def work (sys : System) : ℕ :=
  4 * sys.outbox.length + ∑ i ∈ Finset.range groupCount, load (sys.groups i)

/-- An action of the thread of group `i`. -/
def OfGroup (i : ℕ) : Action → Prop
  | .take j => (j : ℕ) = i
  | .publish j => (j : ℕ) = i
  | .store j => (j : ℕ) = i
  | .fault j _ => (j : ℕ) = i
  | _ => False

/-- An action while `dispatch_order` has not returned : one of its tries, or an action of a
group. -/
def Waits (a : Action) : Prop :=
  a = .enqueue ∨ ∃ i < groupCount, OfGroup i a

/-- In a round every group's thread takes a turn, and so does `dispatch_order`. -/
def Round (r : List Action) : Prop :=
  .enqueue ∈ r ∧ (∀ i < groupCount, ∃ a ∈ r, OfGroup i a) ∧ ∀ a ∈ r, Waits a

/-- The action does nothing : the queue is full, or empty. -/
def Idle (sys : System) : Action → Prop
  | .enqueue => ∃ order outbox, sys.outbox = order :: outbox ∧
      let queue := (sys.groups (groupOf order.symbolId)).processor.groupQueue
      queue.size + 1 = RingBuffer.slotCount queue.capacity
  | .take i => (sys.groups i).processor.groupQueue.size = 0
  | _ => False

section Run

variable {nodes : ℕ → ℕ → OrderNode} {lowerLimits upperLimits : ℕ → ℕ}
  {std : StdHeap ClientOrder}
  {oms₀ : Oms} {capacity : ℕ} {sys sys' : System} {enqueued : List Order} {i : ℕ}

/-- A group's trades, the orders in its books and those in its queue are no more than the orders it
has been given, and the trades that it has to publish or to store are among its trades. -/
structure Tallied (capacity : ℕ) (g : GroupThread) (given : ℕ) : Prop where
  capacity : g.processor.groupQueue.capacity = capacity
  count : g.processor.published.length + g.processor.resting + g.processor.groupQueue.size ≤ given
  pending : g.pending.length + (g.unstored.elim 0 fun _ => 1) ≤ g.processor.published.length

/-- The orders `enqueued` have been put into the queues, and the groups have kept count of them. -/
structure Serving (nodes : ℕ → ℕ → OrderNode) (lowerLimits upperLimits : ℕ → ℕ)
    (oms₀ : Oms) (capacity : ℕ) (sys : System) (enqueued : List Order) : Prop where
  feeding : Feeding nodes lowerLimits upperLimits oms₀ sys enqueued
  running : ∀ i < groupCount, (sys.groups i).halted = false
  tallied : ∀ i < groupCount,
    Tallied capacity (sys.groups i) (enqueued.filter fun o => groupOf o.symbolId = i).length

theorem sum_load_setGroup (sys : System) (hi : i < groupCount) (t : GroupThread) :
    ∑ j ∈ Finset.range groupCount, load ((sys.setGroup i t).groups j) + load (sys.groups i) =
      ∑ j ∈ Finset.range groupCount, load (sys.groups j) + load t := by
  have hself : (sys.setGroup i t).groups i = t := Function.update_self ..
  have hchange := Counts.sum_change (Finset.mem_range.2 hi)
    (f := fun j => load ((sys.setGroup i t).groups j)) (g := fun j => load (sys.groups j))
    fun j hj => congrArg load (Function.update_of_ne hj ..)
  rwa [hself] at hchange

/-- An action that leaves a group's thread with less to do. -/
theorem work_lt (hi : i < groupCount) {t : GroupThread}
    (hgroups : sys'.groups = Function.update sys.groups i t) (hbox : sys'.outbox = sys.outbox)
    (hload : load t < load (sys.groups i)) : work sys' < work sys := by
  have hchange := sum_load_setGroup sys hi t
  simp only [System.setGroup, ← hgroups] at hchange
  rw [work, work, hbox]
  omega

/-- An action that changes one group's thread. -/
theorem Serving.setGroup (h : Serving nodes lowerLimits upperLimits oms₀ capacity sys enqueued)
    (hfeeding : Feeding nodes lowerLimits upperLimits oms₀ sys' enqueued) {t : GroupThread}
    (hgroups : sys'.groups = Function.update sys.groups i t) (hrunning : t.halted = false)
    (htallied : Tallied capacity t (enqueued.filter fun o => groupOf o.symbolId = i).length) :
    Serving nodes lowerLimits upperLimits oms₀ capacity sys' enqueued := by
  refine ⟨hfeeding, fun j hj => ?_, fun j hj => ?_⟩
  · rw [hgroups]
    rcases eq_or_ne j i with rfl | hne
    · rw [Function.update_self, hrunning]
    · rw [Function.update_of_ne hne, h.running j hj]
  · rw [hgroups]
    rcases eq_or_ne j i with rfl | hne
    · rw [Function.update_self]
      exact htallied
    · rw [Function.update_of_ne hne]
      exact h.tallied j hj

/-! ## What the actions do -/

/-- The thread with another queue. -/
def withQueue (g : GroupThread) (queue : RingBuffer Order) : GroupThread :=
  { g with processor := { g.processor with groupQueue := queue } }

theorem load_withQueue (g : GroupThread) (queue : RingBuffer Order) :
    load (withQueue g queue) + 3 * g.processor.groupQueue.size = load g + 3 * queue.size := by
  change 3 * queue.size + 2 * g.processor.resting + _ + _ + _ = _
  simp only [load, withQueue]
  omega

/-- What a try leaves : the queue of the order's group, and the orders that wait. -/
def tried (sys : System) (order : Order) (queue : RingBuffer Order) (outbox : List Order) :
    System :=
  { sys.setGroup (groupOf order.symbolId)
      (withQueue (sys.groups (groupOf order.symbolId)) queue) with
    outbox := outbox }

/-- A try of `dispatch_order`. -/
theorem enqueue_cases (hstep : sys.enqueue = some sys') :
    ∃ order outbox accepted queue, sys.outbox = order :: outbox ∧
      (sys.groups (groupOf order.symbolId)).processor.groupQueue.push order =
      .ok (accepted, queue) ∧
      sys' = sys.tried order queue (if accepted then outbox else order :: outbox) := by
  unfold System.enqueue at hstep
  split at hstep
  next => cases hstep
  next order outbox hbox =>
    dsimp only at hstep
    split at hstep
    next => cases hstep
    next accepted queue hpush =>
      exact ⟨order, outbox, accepted, queue, hbox, hpush, (Option.some.inj hstep).symm⟩

/-- A try that finds room for the order. -/
theorem Serving.accepted (h : Serving nodes lowerLimits upperLimits oms₀ capacity sys enqueued)
    {order : Order} {outbox : List Order} {queue : RingBuffer Order}
    (hbox : sys.outbox = order :: outbox)
    (hpush : (sys.groups (groupOf order.symbolId)).processor.groupQueue.push order =
      .ok (true, queue))
    (hfeeding : Feeding nodes lowerLimits upperLimits oms₀ (sys.tried order queue outbox)
      (enqueued ++ [order])) :
    Serving nodes lowerLimits upperLimits oms₀ capacity (sys.tried order queue outbox)
        (enqueued ++ [order]) ∧
      work (sys.tried order queue outbox) < work sys := by
  have hg := groupOf_lt order.symbolId
  obtain ⟨taken, queued, -, hfed⟩ := h.feeding.groups _ hg
  have hsize : queue.size = (sys.groups (groupOf order.symbolId)).processor.groupQueue.size +
      1 := by
    rw [(hfed.queue.of_accepted hpush).size_eq, hfed.queue.size_eq, List.length_append]
    rfl
  have htallied := h.tallied _ hg
  refine ⟨⟨hfeeding, fun j hj => ?_, fun j hj => ?_⟩, ?_⟩
  · simp only [tried, System.setGroup]
    rcases eq_or_ne j (groupOf order.symbolId) with rfl | hne
    · rw [Function.update_self]
      exact h.running _ hj
    · rw [Function.update_of_ne hne]
      exact h.running j hj
  · simp only [tried, System.setGroup, List.filter_append, List.length_append]
    rcases eq_or_ne j (groupOf order.symbolId) with rfl | hne
    · have hcount := htallied.count
      have hone : [order].filter (fun o => groupOf o.symbolId = groupOf order.symbolId) = [order] :=
        List.filter_cons_of_pos (by simp)
      rw [Function.update_self, hone, List.length_singleton]
      refine ⟨(RingBuffer.capacity_of_push hpush).trans htallied.capacity, ?_, htallied.pending⟩
      change (sys.groups (groupOf order.symbolId)).processor.published.length +
        (sys.groups (groupOf order.symbolId)).processor.resting + queue.size ≤ _
      omega
    · have hnone : [order].filter (fun o => groupOf o.symbolId = j) = [] :=
        List.filter_cons_of_neg (by simpa using hne.symm)
      rw [Function.update_of_ne hne, hnone]
      exact h.tallied j hj
  · have hchange := sum_load_setGroup sys hg
      (withQueue (sys.groups (groupOf order.symbolId)) queue)
    have hload := load_withQueue (sys.groups (groupOf order.symbolId)) queue
    simp only [work, tried, hbox, List.length_cons]
    omega

theorem Serving.enqueue (h : Serving nodes lowerLimits upperLimits oms₀ capacity sys enqueued)
    (hstep : sys.enqueue = some sys') :
    (∃ enqueued', Serving nodes lowerLimits upperLimits oms₀ capacity sys' enqueued') ∧
      (sys' = sys ∧ Idle sys .enqueue ∨ work sys' < work sys) := by
  obtain ⟨enqueued', hfeeding'⟩ := h.feeding.enqueue hstep
  obtain ⟨order, outbox, accepted, queue, hbox, hpush, rfl⟩ := enqueue_cases hstep
  obtain ⟨taken, queued, -, hfed⟩ := h.feeding.groups _ (groupOf_lt order.symbolId)
  rcases hfed.queue.of_push hpush with ⟨rfl, rfl, hfull⟩ | ⟨rfl, -⟩
  · have hsame : sys.tried order (sys.groups (groupOf order.symbolId)).processor.groupQueue
        (if false = true then outbox else order :: outbox) = sys := by
      simp only [tried, System.setGroup, withQueue, Function.update_eq_self]
      rw [if_neg Bool.false_ne_true, ← hbox]
    rw [hsame]
    refine ⟨⟨enqueued, h⟩, Or.inl ⟨rfl, order, outbox, hbox, ?_⟩⟩
    simp only [hfed.queue.size_eq]
    exact hfull
  · have hbefore := h.feeding.dispatched
    have hafter : sys.dispatchedOrders = enqueued' ++ outbox := hfeeding'.dispatched
    rw [hbox] at hbefore
    obtain rfl : enqueued' = enqueued ++ [order] :=
      List.append_cancel_right (hafter.symm.trans (hbefore.trans (List.append_cons ..)))
    obtain ⟨hserving, hwork⟩ := h.accepted hbox hpush hfeeding'
    exact ⟨⟨_, hserving⟩, Or.inr hwork⟩

/-- A pass of a group's thread that finds an order, or not. -/
theorem Serving.take (h : Serving nodes lowerLimits upperLimits oms₀ capacity sys enqueued)
    (hband : ∀ s < totalSymbols, Band 10000 (lowerLimits s) (upperLimits s)) {i : Fin groupCount}
    (ho : Orderly sys.dispatchedOrders) (hstep : sys.take i = some sys') :
    Serving nodes lowerLimits upperLimits oms₀ capacity sys' enqueued ∧
      (sys' = sys ∧ Idle sys (.take i) ∨ work sys' < work sys) := by
  have hfeeding' := h.feeding.take hband i.isLt ho hstep
  obtain ⟨taken, queued, hsplit, hfed⟩ := h.feeding.groups _ i.isLt
  have htallied := h.tallied _ i.isLt
  unfold System.take at hstep
  dsimp only at hstep
  split_ifs at hstep with hbusy
  simp only [not_or, not_not] at hbusy
  obtain ⟨-, hpending, hunstored⟩ := hbusy
  split at hstep
  next => cases hstep
  next processor hprocessor =>
    obtain rfl := Option.some.inj hstep
    rcases hfed.pass hband i.isLt (h.feeding.orderly ho hsplit) hprocessor with ⟨rfl, rfl⟩ |
      ⟨order, queued', executions, rfl, hfed', hpub, -, -, -, hresting, hcapacity⟩
    · have hsame : sys.setGroup i { sys.groups i with
          pending := ((sys.groups i).processor.published.drop
            (sys.groups i).processor.published.length).map fun e => e.trade } = sys := by
        rw [List.drop_length, List.map_nil, ← hpending]
        exact congrArg (fun groups => { sys with groups := groups }) (Function.update_eq_self ..)
      simp only at hsame ⊢
      rw [hsame]
      exact ⟨h, Or.inl ⟨rfl, hfed.queue.size_eq⟩⟩
    · have hsize : (sys.groups i).processor.groupQueue.size = processor.groupQueue.size + 1 := by
        rw [hfed.queue.size_eq, hfed'.queue.size_eq, List.length_cons]
      have hcount := htallied.count
      have hnew : ((processor.published.drop (sys.groups i).processor.published.length).map
          fun e => e.trade).length = executions.length := by
        rw [hpub, List.drop_left, List.length_map]
      have hlength := congrArg List.length hpub
      rw [List.length_append] at hlength
      refine ⟨h.setGroup hfeeding' rfl (h.running _ i.isLt) ⟨hcapacity.trans htallied.capacity,
        ?_, ?_⟩, Or.inr ?_⟩
      · simp only
        omega
      · simp only [hunstored, hnew, Option.elim_none]
        omega
      · refine work_lt i.isLt rfl rfl ?_
        simp only [load, hnew, hpending, hunstored, List.length_nil, Option.elim_none]
        omega

/-- `publish_trade`. -/
theorem Serving.publish (h : Serving nodes lowerLimits upperLimits oms₀ capacity sys enqueued)
    (hi : i < groupCount) (hstep : sys.publish i = some sys') :
    Serving nodes lowerLimits upperLimits oms₀ capacity sys' enqueued ∧
      work sys' < work sys := by
  unfold System.publish at hstep
  dsimp only at hstep
  split at hstep
  next t pending hpending hunstored =>
    obtain rfl := Option.some.inj hstep
    have htallied := h.tallied i hi
    refine ⟨h.setGroup (h.feeding.of_same rfl rfl (processor_setGroup rfl)) rfl (h.running i hi)
      ⟨htallied.capacity, htallied.count, ?_⟩, work_lt hi rfl rfl ?_⟩
    · have hle := htallied.pending
      simp only [hpending, hunstored, List.length_cons, Option.elim_none,
        Option.elim_some] at hle ⊢
      omega
    · simp only [load, hpending, hunstored, List.length_cons, Option.elim_none, Option.elim_some]
      omega
  next => cases hstep

/-- The store of a price. -/
theorem Serving.store (h : Serving nodes lowerLimits upperLimits oms₀ capacity sys enqueued)
    (hi : i < groupCount) (hstep : sys.store i = some sys') :
    Serving nodes lowerLimits upperLimits oms₀ capacity sys' enqueued ∧
      work sys' < work sys := by
  unfold System.store at hstep
  dsimp only at hstep
  split at hstep
  next t hunstored =>
    obtain rfl := Option.some.inj hstep
    have htallied := h.tallied i hi
    refine ⟨h.setGroup (h.feeding.of_same rfl rfl (processor_setGroup rfl)) rfl (h.running i hi)
      ⟨htallied.capacity, htallied.count, ?_⟩, work_lt hi rfl rfl ?_⟩
    · have hle := htallied.pending
      simp only [hunstored, Option.elim_none, Option.elim_some] at hle ⊢
      omega
    · simp only [load, hunstored, Option.elim_none, Option.elim_some]
      omega
  next => cases hstep

theorem oms_of_waits {a : Action} (ha : Waits a) (hstep : sys.step std a = some sys') :
    sys'.oms = sys.oms := by
  rcases step_cases hstep with hinternal | ⟨i, -, hstore⟩ | hfirst
  · exact hinternal.oms
  · unfold System.store at hstore
    dsimp only at hstore
    split at hstore
    · obtain rfl := Option.some.inj hstore
      rfl
    · cases hstore
  · rcases ha with rfl | ⟨i, -, hof⟩
    · cases hfirst
    · cases a with
      | receive _ | consume _ | poll | enqueue => exact hof.elim
      | _ => cases hfirst

/-- The first thread does something else only when nothing waits. -/
theorem waits_or_goes_on {a : Action} (hstep : sys.step std a = some sys') :
    Waits a ∨ sys.outbox = [] ∧ sys.omsStep std a = some sys' := by
  cases a with
  | enqueue => exact Or.inl (Or.inl rfl)
  | take i | publish i | store i => exact Or.inl (Or.inr ⟨i, i.isLt, rfl⟩)
  | fault i published => exact Or.inl (Or.inr ⟨i, i.isLt, rfl⟩)
  | _ =>
    simp only [System.step] at hstep
    split_ifs at hstep with hbox
    exact Or.inr ⟨hbox, hstep⟩

/-- While `dispatch_order` waits, an action does nothing or uses up work. -/
theorem Serving.spend (h : Serving nodes lowerLimits upperLimits oms₀ capacity sys enqueued)
    (hband : ∀ s < totalSymbols, Band 10000 (lowerLimits s) (upperLimits s))
    (ho : Orderly sys.dispatchedOrders) {a : Action} (ha : Waits a)
    (hstep : sys.step std a = some sys') :
    (∃ enqueued', Serving nodes lowerLimits upperLimits oms₀ capacity sys' enqueued') ∧
      sys'.oms = sys.oms ∧ (sys' = sys ∧ Idle sys a ∨ work sys' < work sys) := by
  have homs := oms_of_waits ha hstep
  cases a with
  | enqueue =>
    obtain ⟨hserving, hcase⟩ := h.enqueue hstep
    exact ⟨hserving, homs, hcase⟩
  | take i =>
    obtain ⟨hserving, hcase⟩ := h.take hband ho hstep
    exact ⟨⟨_, hserving⟩, homs, hcase⟩
  | fault i published =>
    have hnone := h.feeding.not_fault hband i.isLt ho published
    cases hnone.symm.trans hstep
  | publish i =>
    obtain ⟨hserving, hlt⟩ := h.publish i.isLt hstep
    exact ⟨⟨_, hserving⟩, homs, Or.inr hlt⟩
  | store i =>
    obtain ⟨hserving, hlt⟩ := h.store i.isLt hstep
    exact ⟨⟨_, hserving⟩, homs, Or.inr hlt⟩
  | _ => rcases ha with hne | ⟨i, -, hof⟩ <;> [cases hne; exact hof.elim]

/-- Every action keeps count. -/
theorem Serving.step (h : Serving nodes lowerLimits upperLimits oms₀ capacity sys enqueued)
    (hband : ∀ s < totalSymbols, Band 10000 (lowerLimits s) (upperLimits s))
    (ho : Orderly sys.dispatchedOrders) {a : Action} (hstep : sys.step std a = some sys') :
    ∃ enqueued', Serving nodes lowerLimits upperLimits oms₀ capacity sys' enqueued' := by
  rcases waits_or_goes_on hstep with ha | ⟨hbox, hfirst⟩
  · exact (h.spend hband ho ha hstep).1
  · obtain ⟨oms, pc, rfl, hissues⟩ := issues_omsStep hfirst
    exact ⟨enqueued, h.feeding.goOn hbox hissues pc, h.running, h.tallied⟩

/-- If a try does nothing, the group it waits for does not. -/
theorem Serving.not_idle (h : Serving nodes lowerLimits upperLimits oms₀ capacity sys enqueued)
    (heven : 2 ∣ capacity) (htry : Idle sys .enqueue) :
    ∃ i < groupCount, ∀ a, OfGroup i a → ¬Idle sys a := by
  obtain ⟨order, outbox, -, hfull⟩ := htry
  have hg := groupOf_lt order.symbolId
  have htwo : 2 ∣ RingBuffer.slotCount capacity := Nat.dvd_gcd heven ⟨2 ^ 31, rfl⟩
  refine ⟨_, hg, fun a hof hidle => ?_⟩
  cases a with
  | take i =>
    have hempty : (sys.groups i).processor.groupQueue.size = 0 := hidle
    rw [show (i : ℕ) = groupOf order.symbolId from hof] at hempty
    simp only [hempty, (h.tallied _ hg).capacity] at hfull
    omega
  | receive _ | consume _ | poll | enqueue => exact hof
  | _ => exact hidle

/-- The work is bounded by the orders that have been dispatched. -/
theorem Serving.work_le (h : Serving nodes lowerLimits upperLimits oms₀ capacity sys enqueued) :
    work sys ≤ 4 * sys.oms.dispatched.length := by
  have hload : ∑ i ∈ Finset.range groupCount, load (sys.groups i) ≤
      ∑ i ∈ Finset.range groupCount,
        3 * (enqueued.filter fun o => groupOf o.symbolId = i).length := by
    refine Finset.sum_le_sum fun i hi => ?_
    have htallied := h.tallied i (Finset.mem_range.1 hi)
    have hcount := htallied.count
    have hpending := htallied.pending
    rw [load]
    omega
  have hsum := Counts.sum_length_filter_le (fun o : Order => groupOf o.symbolId) groupCount enqueued
  have hdispatched := congrArg List.length h.feeding.dispatched
  rw [dispatchedOrders, List.length_map, List.length_append] at hdispatched
  rw [← Finset.mul_sum] at hload
  rw [work]
  omega

/-- A group's thread can always go on. -/
theorem Serving.can_move (h : Serving nodes lowerLimits upperLimits oms₀ capacity sys enqueued)
    (hband : ∀ s < totalSymbols, Band 10000 (lowerLimits s) (upperLimits s))
    (ho : Orderly sys.dispatchedOrders) (hpos : 0 < capacity) (hi : i < groupCount) :
    ∃ sys', sys.take i = some sys' ∨ sys.publish i = some sys' ∨ sys.store i = some sys' := by
  obtain ⟨taken, queued, hsplit, hfed⟩ := h.feeding.groups i hi
  cases hunstored : (sys.groups i).unstored with
  | some t => exact ⟨_, Or.inr (Or.inr (by rw [System.store, hunstored]))⟩
  | none =>
    cases hpending : (sys.groups i).pending with
    | cons t pending => exact ⟨_, Or.inr (Or.inl (by rw [System.publish, hpending, hunstored]))⟩
    | nil =>
      obtain ⟨r, hpop⟩ := hfed.queue.pop_returns ((h.tallied i hi).capacity.symm ▸ hpos)
      obtain ⟨g', -, -, hg', -⟩ := hfed.step hband hi (h.feeding.orderly ho hsplit) hpop
      have htake : ∃ sys', sys.take i = some sys' := by
        unfold System.take
        simp [h.running i hi, hpending, hunstored, hg']
      exact htake.imp fun _ => Or.inl

theorem Serving.can_try (h : Serving nodes lowerLimits upperLimits oms₀ capacity sys enqueued)
    (hpos : 0 < capacity) (hbox : sys.outbox ≠ []) : ∃ sys', sys.enqueue = some sys' := by
  obtain ⟨order, outbox, hbox⟩ := List.exists_cons_of_ne_nil hbox
  have hg := groupOf_lt order.symbolId
  obtain ⟨taken, queued, -, hfed⟩ := h.feeding.groups _ hg
  obtain ⟨r, hpush⟩ := hfed.queue.push_returns ((h.tallied _ hg).capacity.symm ▸ hpos) order
  unfold System.enqueue
  simp only [hbox, hpush]
  exact ⟨_, rfl⟩

/-- The action of a group's thread that can go on. -/
theorem exists_ofGroup (hi : i < groupCount)
    (h : sys.take i = some sys' ∨ sys.publish i = some sys' ∨ sys.store i = some sys') :
    ∃ a, OfGroup i a ∧ sys.step std a = some sys' := by
  rcases h with h | h | h
  · exact ⟨.take ⟨i, hi⟩, rfl, h⟩
  · exact ⟨.publish ⟨i, hi⟩, rfl, h⟩
  · exact ⟨.store ⟨i, hi⟩, rfl, h⟩

/-- The orders that wait can all be enqueued. -/
theorem Serving.can_finish (h : Serving nodes lowerLimits upperLimits oms₀ capacity sys enqueued)
    (hband : ∀ s < totalSymbols, Band 10000 (lowerLimits s) (upperLimits s))
    (ho : Orderly sys.dispatchedOrders) (hpos : 0 < capacity) (heven : 2 ∣ capacity) :
    ∃ actions sys', (∀ a ∈ actions, Waits a) ∧ sys.run std actions = some sys' ∧
      sys'.outbox = [] ∧ sys'.oms = sys.oms := by
  induction hn : work sys using Nat.strong_induction_on generalizing sys enqueued with
  | _ n ih =>
    -- after a step that uses up work, the rest follows
    have hgo : ∀ a sys₁, Waits a → sys.step std a = some sys₁ → ¬Idle sys a →
        ∃ actions sys', (∀ a ∈ actions, Waits a) ∧ sys.run std actions = some sys' ∧
          sys'.outbox = [] ∧ sys'.oms = sys.oms := by
      intro a sys₁ ha hstep hbusy
      obtain ⟨⟨enqueued₁, h₁⟩, homs, hcase⟩ := h.spend hband ho ha hstep
      have hlt := hcase.resolve_left fun hidle => hbusy hidle.2
      obtain ⟨actions, sys', hall, hrun, hbox, homs'⟩ :=
        ih _ (hn ▸ hlt) h₁ (by rwa [dispatchedOrders, homs]) rfl
      exact ⟨a :: actions, sys', List.forall_mem_cons.2 ⟨ha, hall⟩,
        Option.bind_eq_some_iff.2 ⟨sys₁, hstep, hrun⟩, hbox, homs'.trans homs⟩
    by_cases hbox : sys.outbox = []
    · exact ⟨[], sys, List.forall_mem_nil _, rfl, hbox, rfl⟩
    · obtain ⟨sys₁, htry⟩ := h.can_try hpos hbox
      by_cases hidle : Idle sys .enqueue
      · obtain ⟨i, hi, hbusy⟩ := h.not_idle heven hidle
        obtain ⟨sys₂, hmove⟩ := h.can_move hband ho hpos hi
        obtain ⟨a, hof, hstep⟩ : ∃ a, OfGroup i a ∧ sys.step std a = some sys₂ :=
          exists_ofGroup hi hmove
        exact hgo a sys₂ (Or.inr ⟨i, hi, hof⟩) hstep (hbusy a hof)
      · exact hgo .enqueue sys₁ (Or.inl rfl) htry hidle

/-- Rounds of the threads use up the work. -/
theorem Serving.rounds_le (h : Serving nodes lowerLimits upperLimits oms₀ capacity sys enqueued)
    (hband : ∀ s < totalSymbols, Band 10000 (lowerLimits s) (upperLimits s))
    (ho : Orderly sys.dispatchedOrders) (heven : 2 ∣ capacity) {rounds : List (List Action)}
    (hrounds : ∀ r ∈ rounds, Round r) (hrun : sys.run std rounds.flatten = some sys') :
    rounds.length ≤ work sys := by
  refine Runs.Steps.rounds_le (R := fun sys a sys' => sys.step std a = some sys') (A := Waits)
    (Q := Round) (I := fun s => s.oms = sys.oms ∧
      ∃ enqueued, Serving nodes lowerLimits upperLimits oms₀ capacity s enqueued) ?_ ?_ ?_
    ⟨rfl, enqueued, h⟩ (fun r hr => ⟨hrounds r hr, (hrounds r hr).2.2⟩)
      (Runs.steps_iff_some.2 hrun)
  · rintro st a st' ⟨homs, enqueued', h'⟩ ha hstep
    obtain ⟨hserving, homs', -⟩ := h'.spend hband (by rwa [dispatchedOrders, homs]) ha hstep
    exact ⟨homs'.trans homs, hserving⟩
  · rintro st a st' ⟨homs, enqueued', h'⟩ ha hstep
    obtain ⟨-, -, hcase⟩ := h'.spend hband (by rwa [dispatchedOrders, homs]) ha hstep
    exact hcase.imp_left fun hidle => hidle.1
  · rintro st r ⟨homs, enqueued', h'⟩ ⟨henqueue, hturns, hwaits⟩ hsame
    have hidle : ∀ a ∈ r, Idle st a := fun a ha => by
      obtain ⟨-, -, hcase⟩ :=
        h'.spend hband (by rwa [dispatchedOrders, homs]) (hwaits a ha) (hsame a ha)
      exact (hcase.resolve_right (lt_irrefl _)).2
    obtain ⟨i, hi, hbusy⟩ := h'.not_idle heven (hidle _ henqueue)
    obtain ⟨a, ha, hof⟩ := hturns i hi
    exact hbusy a hof (hidle a ha)

/-- A run whose dispatched orders are orderly keeps count. -/
theorem Serving.run (hband : ∀ s < totalSymbols, Band 10000 (lowerLimits s) (upperLimits s))
    (ho : Orderly sys'.dispatchedOrders) : ∀ {actions : List Action} {sys : System}
    {enqueued : List Order}, Serving nodes lowerLimits upperLimits oms₀ capacity sys enqueued →
    sys.run std actions = some sys' →
      ∃ enqueued', Serving nodes lowerLimits upperLimits oms₀ capacity sys' enqueued'
  | [], sys, enqueued, h, hrun => by
    obtain rfl := Option.some.inj hrun
    exact ⟨enqueued, h⟩
  | a :: actions, sys, enqueued, h, hrun => by
    have hpre := prefix_dispatchedOrders (issues_run hrun)
    obtain ⟨sys₁, hstep, hrest⟩ := Option.bind_eq_some_iff.1 hrun
    obtain ⟨enqueued₁, h₁⟩ := h.step hband (ho.sublist hpre.sublist) hstep
    exact Serving.run hband ho h₁ hrest

end Run

/-- While the ids last, the dispatched orders are orderly. -/
theorem orderly_dispatched {std : StdHeap ClientOrder} {symbolLookupTable : ℕ → ℤ}
    {bootTimestamp : ℕ} {clock uninit : ℕ → ℕ} {groups : ℕ → GroupProcessor}
    (hboot : bootTimestamp < 2 ^ 62) {actions : List Action} {sys : System}
    (hrun : (start (Oms.init symbolLookupTable bootTimestamp clock uninit) groups).run std actions =
      some sys)
    (hcount : sys.oms.dispatched.length < 2 ^ 62)
    (hquantity : ∀ d ∈ sys.oms.dispatched, 0 < d.order.quantity ∧ d.order.quantity < 2 ^ 32) :
    Orderly sys.dispatchedOrders := by
  have hids := (issues_run hrun).nodup hboot hcount
  refine ⟨?_, fun o ho => ?_, fun o ho => ?_⟩
  · rw [dispatchedOrders, List.map_map]
    exact hids
  · obtain ⟨d, hd, rfl⟩ := List.mem_map.1 ho
    exact (hquantity d hd).1
  · obtain ⟨d, hd, rfl⟩ := List.mem_map.1 ho
    exact (hquantity d hd).2

/-- In every state that the system reaches, with queues of even capacity, while fewer than `2 ^ 62`
ids have been issued and the dispatched quantities are positive : a group's thread can go on; the
orders that wait can all be enqueued while the first thread does nothing else; and if all threads
take turns, this takes no more than four rounds for each order that has been dispatched. -/
theorem dispatch_waits (std : StdHeap ClientOrder) (symbolLookupTable : ℕ → ℤ)
    {bootTimestamp : ℕ} (clock uninit : ℕ → ℕ) {nodes : ℕ → ℕ → OrderNode}
    {lowerLimits upperLimits : ℕ → ℕ} {buffer : ℕ → Order} {capacity : ℕ}
    (hpos : 0 < capacity) (heven : 2 ∣ capacity) {groups : ℕ → GroupProcessor}
    (hgroups : ∀ i < groupCount, newGroup buffer capacity (fun s => ⟨nodes s, fun _ => 0⟩)
      lowerLimits upperLimits i = .ok (groups i))
    (hband : ∀ s < totalSymbols, Band 10000 (lowerLimits s) (upperLimits s))
    (hboot : bootTimestamp < 2 ^ 62) {actions : List Action} {sys : System}
    (hrun : (start (Oms.init symbolLookupTable bootTimestamp clock uninit) groups).run std actions =
      some sys)
    (hcount : sys.oms.dispatched.length < 2 ^ 62)
    (hquantity : ∀ d ∈ sys.oms.dispatched, 0 < d.order.quantity ∧ d.order.quantity < 2 ^ 32) :
    (∀ i < groupCount, ∃ sys',
      sys.take i = some sys' ∨ sys.publish i = some sys' ∨ sys.store i = some sys') ∧
    (∃ waiting sys', (∀ a ∈ waiting, Waits a) ∧ sys.run std waiting = some sys' ∧
      sys'.outbox = [] ∧ sys'.oms = sys.oms) ∧
    ∀ (rounds : List (List Action)) sys', (∀ r ∈ rounds, Round r) →
      sys.run std rounds.flatten = some sys' →
      rounds.length ≤ 4 * sys.oms.dispatched.length := by
  have ho := orderly_dispatched hboot hrun hcount hquantity
  have hstart : Serving nodes lowerLimits upperLimits
      (Oms.init symbolLookupTable bootTimestamp clock uninit) capacity
      (start (Oms.init symbolLookupTable bootTimestamp clock uninit) groups) [] := by
    refine ⟨⟨.refl _, rfl, fun i hi => ⟨[], [], rfl, fed_newGroup (hgroups i hi)⟩⟩,
      fun _ _ => rfl, fun i hi => ?_⟩
    have hcounted := counted_newGroup (hgroups i hi)
    have hcount : (groups i).published.length + (groups i).resting ≤ 0 := hcounted.count
    have hempty : (groups i).groupQueue.size = 0 := hcounted.fed.queue.size_eq
    obtain ⟨m, -, hg⟩ := bind_eq_ok.1 (hgroups i hi)
    have hqueue : (groups i).groupQueue.capacity = capacity := by
      rw [← Except.ok.inj hg]
      rfl
    refine ⟨hqueue, ?_, Nat.zero_le _⟩
    simpa [System.start, hempty] using hcount
  obtain ⟨enqueued, h⟩ := hstart.run hband ho hrun
  refine ⟨fun i hi => h.can_move hband ho hpos hi, h.can_finish hband ho hpos heven, ?_⟩
  intro rounds sys' hrounds hrun'
  exact (h.rounds_le hband ho heven hrounds hrun').trans h.work_le

/-- An order that has been dispatched and waits. -/
def oneOrder : List Action :=
  [.receive (some ⟨7, 100, 0, [65], 0, 0, .sell, 10, 0, 0, .limit, true⟩)]

/-- One round is enough for it. -/
def oneRound : List (List Action) :=
  [[.take ⟨1, one_lt_groupCount⟩, .enqueue, .take ⟨0, zero_lt_groupCount⟩]]

theorem dispatch_waits_oneOrder : ∃ sys sys',
    (start (Oms.init (fun _ => 1) 0 id id) sampleGroups).run (.sorting _) oneOrder = some sys ∧
    sys.outbox.length = 1 ∧ sys.run (.sorting _) oneRound.flatten = some sys' ∧
    (∃ waiting sys₁, (∀ a ∈ waiting, Waits a) ∧
      sys.run (.sorting _) waiting = some sys₁ ∧
      sys₁.outbox = [] ∧ sys₁.oms = sys.oms) ∧
    oneRound.length ≤ 4 * sys.oms.dispatched.length := by
  have hview : (do
      let sys ← (start (Oms.init (fun _ => 1) 0 id id) sampleGroups).run (.sorting _) oneOrder
      let _ ← sys.run (.sorting _) oneRound.flatten
      some (sys.oms.dispatched.map fun d => d.order.quantity, sys.outbox.length)) =
        some ([10], 1) := by
    decide +kernel
  obtain ⟨sys, hrun, hview⟩ := Option.bind_eq_some_iff.1 hview
  obtain ⟨sys', hrun', hview⟩ := Option.bind_eq_some_iff.1 hview
  obtain ⟨hquantities, hbox⟩ := Prod.mk.inj (Option.some.inj hview)
  obtain ⟨d, hdispatched, hquantity⟩ := List.map_eq_singleton_iff.1 hquantities
  have hgroups : ∀ i < groupCount, newGroup (fun _ => zeroOrder) 4
      (fun _ => ⟨fun _ => ⟨zeroOrder, 0, 0⟩, fun _ => 0⟩) (fun _ => 95) (fun _ => 105) i =
        .ok (sampleGroups i) := by
    intro i _
    obtain ⟨g, hg, -⟩ := newGroup_inv (fun _ _ => ⟨zeroOrder, 0, 0⟩) (fun _ => 95)
      (fun _ => 105) (fun _ => zeroOrder) 4 i
    rw [sampleGroups, hg, Except.toOption, Option.getD_some]
  obtain ⟨-, hfinish, hrounds⟩ :=
    dispatch_waits _ _ _ _ (by decide) (by decide) hgroups band_sample
    (by decide) hrun (by simp [hdispatched]) fun d' hd => by
      rw [hdispatched, List.mem_singleton] at hd
      rw [hd, hquantity]
      decide
  refine ⟨sys, sys', hrun, hbox, hrun', hfinish, hrounds oneRound sys' (fun r hr => ?_) hrun'⟩
  rw [List.mem_singleton.1 hr]
  refine ⟨by simp, fun i hi => ?_, fun a ha => ?_⟩
  · rcases Nat.lt_or_ge i 1 with hlt | hge
    · exact ⟨.take ⟨0, zero_lt_groupCount⟩, by simp, (Nat.lt_one_iff.1 hlt).symm⟩
    · exact ⟨.take ⟨1, one_lt_groupCount⟩, by simp, le_antisymm hge (Nat.le_of_lt_succ hi)⟩
  · simp only [List.mem_cons, List.not_mem_nil, or_false] at ha
    rcases ha with rfl | rfl | rfl
    · exact Or.inr ⟨1, by decide, rfl⟩
    · exact Or.inl rfl
    · exact Or.inr ⟨0, by decide, rfl⟩

/-! ## An odd capacity -/

section Odd

variable {std : StdHeap ClientOrder} {groups : ℕ → GroupProcessor} {sys sys' : System}

/-- No order has been taken from those that wait, and the groups are as they were. -/
structure Untouched (groups : ℕ → GroupProcessor) (sys : System) : Prop where
  waiting : sys.dispatchedOrders = sys.outbox
  groups : ∀ i < groupCount, sys.groups i = ⟨groups i, [], none, false⟩
  executed : sys.executed = []

/-- A buffer of odd capacity is full and empty. -/
theorem advance_zero_of_odd {capacity : ℕ} (hodd : ¬2 ∣ capacity) :
    RingBuffer.advance capacity 0 = 0 := by
  have hone : RingBuffer.slotCount capacity = 1 := by
    obtain ⟨k, -, hk⟩ := (Nat.dvd_prime_pow Nat.prime_two).1
      (show RingBuffer.slotCount capacity ∣ 2 ^ 32 from Nat.gcd_dvd_right ..)
    cases k with
    | zero => exact hk
    | succ k => exact absurd ((hk ▸ dvd_pow_self 2 k.succ_ne_zero).trans
        (Nat.gcd_dvd_left ..)) hodd
  rw [RingBuffer.advance_eq (hone ▸ Nat.zero_lt_one), hone]

theorem Untouched.step {capacity : ℕ} (hodd : ¬2 ∣ capacity)
    (hqueue : ∀ i < groupCount, ∃ buffer, (groups i).groupQueue = .new buffer capacity)
    (h : Untouched groups sys) {a : Action} (hstep : sys.step std a = some sys') :
    Untouched groups sys' := by
  cases a with
  | enqueue =>
    obtain ⟨order, outbox, accepted, queue, hbox, hpush, rfl⟩ := enqueue_cases hstep
    have hg := groupOf_lt order.symbolId
    obtain ⟨buffer, hnew⟩ := hqueue _ hg
    rw [h.groups _ hg, hnew] at hpush
    obtain ⟨rfl, rfl⟩ := Prod.mk.inj (Except.ok.inj
      ((if_pos (advance_zero_of_odd hodd)).symm.trans hpush))
    refine ⟨h.waiting.trans hbox, fun j hj => ?_, h.executed⟩
    simp only [tried, System.setGroup]
    rcases eq_or_ne j (groupOf order.symbolId) with rfl | hne
    · rw [Function.update_self, h.groups _ hj, withQueue, ← hnew]
    · rw [Function.update_of_ne hne, h.groups j hj]
  | take i =>
    obtain ⟨buffer, hnew⟩ := hqueue _ i.isLt
    have hidle : (groups i).step = .ok (groups i) := by
      rw [GroupProcessor.step, hnew]
      rfl
    simp only [System.step, System.take, h.groups _ i.isLt, hidle] at hstep
    obtain rfl := Option.some.inj ((if_neg (by simp)).symm.trans hstep)
    refine ⟨h.waiting, fun j hj => ?_, h.executed⟩
    simp only [System.setGroup, List.drop_length, List.map_nil]
    rcases eq_or_ne j i with rfl | hne
    · rw [Function.update_self]
    · rw [Function.update_of_ne hne, h.groups j hj]
  | fault i published =>
    obtain ⟨buffer, hnew⟩ := hqueue _ i.isLt
    have hidle : (groups i).step = .ok (groups i) := by
      rw [GroupProcessor.step, hnew]
      rfl
    simp [System.step, System.fault, h.groups _ i.isLt, hidle] at hstep
  | publish i => simp [System.step, System.publish, h.groups _ i.isLt] at hstep
  | store i => simp [System.step, System.store, h.groups _ i.isLt] at hstep
  | _ =>
    simp only [System.step] at hstep
    split_ifs at hstep with hbox
    obtain ⟨oms, pc, rfl, -⟩ := issues_omsStep hstep
    have hnone : sys.oms.dispatched = [] := List.map_eq_nil_iff.1 (h.waiting.trans hbox)
    refine ⟨?_, h.groups, h.executed⟩
    rw [System.goOn, dispatchedOrders, hnone]
    rfl

theorem Untouched.run {capacity : ℕ} (hodd : ¬2 ∣ capacity)
    (hqueue : ∀ i < groupCount, ∃ buffer, (groups i).groupQueue = .new buffer capacity)
    (h : Untouched groups sys) {actions : List Action} (hrun : sys.run std actions = some sys') :
    Untouched groups sys' ∧ (sys.outbox ≠ [] → sys'.outbox = sys.outbox) := by
  refine Runs.Steps.invariant (R := fun sys a sys' => sys.step std a = some sys')
    (P := fun _ _ => True)
    (I := fun s => Untouched groups s ∧ (sys.outbox ≠ [] → s.outbox = sys.outbox)) ?_
    ⟨h, fun _ => rfl⟩ (.of_forall_mem fun _ _ _ => trivial) (Runs.steps_iff_some.2 hrun)
  rintro st a st' ⟨hst, hsame⟩ - hstep
  have hst' := hst.step hodd hqueue hstep
  refine ⟨hst', fun hbox => ?_⟩
  rcases waits_or_goes_on hstep with ha | ⟨hempty, -⟩
  · rw [← hst'.waiting, dispatchedOrders, oms_of_waits ha hstep, ← hsame hbox, ← hst.waiting,
      dispatchedOrders]
  · exact absurd ((hsame hbox).symm.trans hempty) hbox

end Odd

/-- With queues of odd capacity, an order that has been dispatched never leaves `dispatch_order`, so
the first thread does nothing else from then on, and there is never a trade. -/
theorem waits_forever_of_odd (std : StdHeap ClientOrder) (symbolLookupTable : ℕ → ℤ)
    (bootTimestamp : ℕ) (clock uninit : ℕ → ℕ) {mem : ℕ → Storage}
    {lowerLimits upperLimits : ℕ → ℕ} {buffer : ℕ → Order} {capacity : ℕ}
    (hodd : ¬2 ∣ capacity)
    {groups : ℕ → GroupProcessor} (hgroups : ∀ i < groupCount,
      newGroup buffer capacity mem lowerLimits upperLimits i = .ok (groups i))
    {actions : List Action} {sys : System}
    (hrun : (start (Oms.init symbolLookupTable bootTimestamp clock uninit) groups).run std actions =
      some sys) :
    sys.outbox = sys.oms.dispatched.map (fun d => d.order) ∧ sys.executed = [] ∧
      (sys.outbox ≠ [] → ∀ later sys', sys.run std later = some sys' →
        sys'.outbox = sys.outbox ∧ sys'.executed = []) := by
  have hqueue : ∀ i < groupCount, ∃ buffer, (groups i).groupQueue = .new buffer capacity := by
    intro i hi
    obtain ⟨m, -, hg⟩ := bind_eq_ok.1 (hgroups i hi)
    exact ⟨buffer, by rw [← Except.ok.inj hg]⟩
  have hstart : Untouched groups
      (start (Oms.init symbolLookupTable bootTimestamp clock uninit) groups) :=
    ⟨rfl, fun _ _ => rfl, rfl⟩
  obtain ⟨h, -⟩ := hstart.run hodd hqueue hrun
  refine ⟨h.waiting.symm, h.executed, fun hbox later sys' hlater => ?_⟩
  obtain ⟨h', hsame⟩ := h.run hodd hqueue hlater
  exact ⟨hsame hbox, h'.executed⟩

/-- A queue of capacity 3. -/
theorem waits_forever_of_odd_three : ∃ groups sys,
    (∀ i < groupCount, newGroup (fun _ => zeroOrder) 3
      (fun _ => ⟨fun _ => ⟨zeroOrder, 0, 0⟩, fun _ => 0⟩) (fun _ => 95) (fun _ => 105) i =
        .ok (groups i)) ∧
    (start (Oms.init (fun _ => 1) 0 id id) groups).run (.sorting _) oneOrder = some sys ∧
    sys.outbox.length = 1 ∧ sys.executed = [] ∧
    ∀ later sys', sys.run (.sorting _) later = some sys' → sys'.outbox = sys.outbox := by
  have hnew : ∀ i, ∃ g, newGroup (fun _ => zeroOrder) 3
      (fun _ => ⟨fun _ => ⟨zeroOrder, 0, 0⟩, fun _ => 0⟩) (fun _ => 95) (fun _ => 105) i =
        .ok g := by
    intro i
    obtain ⟨g, hg, -⟩ := newGroup_inv (fun _ _ => ⟨zeroOrder, 0, 0⟩) (fun _ => 95)
      (fun _ => 105) (fun _ => zeroOrder) 3 i
    exact ⟨g, hg⟩
  choose groups hgroups using hnew
  have hbox : ∃ sys, (start (Oms.init (fun _ => 1) 0 id id) groups).run (.sorting _) oneOrder =
      some sys ∧ sys.outbox.length = 1 := ⟨_, rfl, rfl⟩
  obtain ⟨sys, hrun, hlength⟩ := hbox
  obtain ⟨-, hnone, hforever⟩ :=
    waits_forever_of_odd _ _ _ _ _ (by decide) (fun i _ => hgroups i) hrun
  refine ⟨groups, sys, fun i _ => hgroups i, hrun, hlength, hnone, fun later sys' hlater => ?_⟩
  exact (hforever (List.length_pos_iff.1 (hlength ▸ Nat.zero_lt_one)) later sys' hlater).1

end System

end TradeX
