import TradeX.SliceRegistry
import TradeX.StopLoss

/-!
# The division of `check_fill`

`check_fill` divides by the display quantity of the parent, and nothing looks at that when an
iceberg comes. An iceberg without a display quantity is sent a slice of no units, which rests
in the book, and trades with the first order that reaches it (`division_reached`).

`run_noDivision` says that only such icebergs do harm : if each iceberg has a display quantity,
or is sent no slice and has none from an earlier order with its id, then no trade whatever
reaches the division with zero, in any state of the system.
-/

namespace TradeX

namespace Oms

variable {std : StdHeap ClientOrder} {st st' : Oms} {o newOrder : ClientOrder} {p : ℕ}

/-- The iceberg that an order brings in has a display quantity, or it is sent no slice and there
is none of its id. -/
def Shown (st : Oms) (newOrder : ClientOrder) : Prop :=
  ∀ o ∈ Session.icebergOf st (.order newOrder), 0 < o.displayQuantity ∨
    (o.isActive = false ∨ sub32 o.quantity o.filledQuantity = 0) ∧
      ∀ id, st.childToParent id ≠ some o.clientOrderId

/-- No leg is divided by zero. -/
theorem Displayed.checkFill_ne (h : Displayed st) (t : Trade) :
    st.checkFill t ≠ .error .divisionByZero := by
  obtain ⟨st', hok, -⟩ := h.checkFill t
  rw [hok]
  nofun

/-- A record that no slice belongs to may be anything. -/
theorem Displayed.setIceberg_of_noChild (h : Displayed st)
    (hno : ∀ id, st.childToParent id ≠ some p) : Displayed (st.setIceberg p o) := by
  intro id p' hid
  have hne : p' ≠ p := fun heq => hno id (heq ▸ hid)
  obtain ⟨parent, hparent, hpos⟩ := h id p' hid
  exact ⟨parent, (Function.update_of_ne hne ..).trans hparent, hpos⟩

theorem Displayed.accept (h : Displayed st)
    (ho : 0 < o.displayQuantity ∨
      (o.isActive = false ∨ sub32 o.quantity o.filledQuantity = 0) ∧
      ∀ id, st.childToParent id ≠ some o.clientOrderId) :
    Displayed ((st.setIceberg o.clientOrderId o).sendSlice o.clientOrderId) := by
  have hrecord : (st.setIceberg o.clientOrderId o).activeIcebergs o.clientOrderId = some o :=
    Function.update_self ..
  rcases ho with hpos | ⟨hnone, hno⟩
  · refine (h.setIceberg hpos).sendSlice ?_
    rwa [iceberg_eq hrecord]
  · have hset : Displayed (st.setIceberg o.clientOrderId o) := h.setIceberg_of_noChild hno
    rcases sendSlice_cases hrecord with heq | heq | ⟨hactive, hremaining, -⟩
    · rwa [heq]
    · rw [heq]
      exact hset.setIceberg_of_noChild hno
    · rcases hnone with hinactive | hzero
      · rw [hactive] at hinactive
        cases hinactive
      · exact absurd hzero hremaining

/-- A step of the thread, if the iceberg it brings in is shown. -/
theorem Displayed.step (h : Displayed st) {e : Event}
    (hshown : ∀ newOrder, e = .order newOrder → st.Shown newOrder)
    (hok : st.step std e = .ok st') : Displayed st' := by
  rcases e with newOrder | t | ⟨slot, ltp⟩
  · rw [← Except.ok.inj hok]
    rcases Session.icebergOf_cases st (.order newOrder) with hnone | ⟨_, o, -, hone⟩
    · exact h.of_sameIcebergs (sameIcebergs_receive std st newOrder hnone)
    · rw [Session.receive_iceberg std hone]
      exact h.accept (hshown newOrder rfl o (by simp [hone]))
  · obtain ⟨st₁, hok₁, h₁⟩ := h.checkFill t
    rw [← Except.ok.inj (hok₁.symm.trans hok)]
    exact h₁
  · rw [← Except.ok.inj hok]
    exact h.of_sameIcebergs (sameIcebergs_pollPrice std st slot ltp)

/-- An order that is no iceberg, or has a display quantity. -/
theorem shown_of_pos (st : Oms) (h : newOrder.executionType = .iceberg →
    0 < newOrder.displayQuantity) : st.Shown newOrder := by
  intro o ho
  simp only [Session.icebergOf] at ho
  split_ifs at ho with hice
  · rw [List.mem_singleton.1 ho]
    exact Or.inl (h hice.2)
  · exact absurd ho List.not_mem_nil

end Oms

namespace System

variable {std : StdHeap ClientOrder} {sys sys' : System} {a : Action}

theorem store_oms {i : ℕ} (hstep : sys.store i = some sys') : sys'.oms = sys.oms := by
  simp only [System.store] at hstep
  split at hstep
  · rw [← Option.some.inj hstep]
    rfl
  · cases hstep

/-- A step of the system leaves the first thread's state alone, or is a step of that on what the
action gives it. -/
theorem step_oms (hstep : sys.step std a = some sys') : sys'.oms = sys.oms ∨
    ∃ e, sys.oms.step std e = .ok sys'.oms ∧
      ∀ newOrder, e = .order newOrder → a = .receive (some newOrder) := by
  rcases step_cases hstep with hi | ⟨i, -, hstore⟩ | homs
  · exact Or.inl hi.oms
  · exact Or.inl (store_oms hstore)
  · obtain ⟨oms, pc, rfl, hcase⟩ := omsStep_cases homs
    rcases hcase with rfl | ⟨newOrder, rfl, rfl⟩ | ⟨t, -, hok⟩ | ⟨slot, -, rfl⟩
    · exact Or.inl rfl
    · refine Or.inr ⟨.order newOrder, rfl, fun newOrder' heq => ?_⟩
      rw [Oms.Event.order.inj heq]
    · refine Or.inr ⟨.trade t, hok, fun newOrder heq => ?_⟩
      cases heq
    · refine Or.inr ⟨.price slot (sys.lastPrice slot), rfl, fun newOrder heq => ?_⟩
      cases heq

/-- The order that the first thread takes is shown. -/
def Shown (sys : System) (a : Action) : Prop :=
  ∀ newOrder, a = .receive (some newOrder) → sys.oms.Shown newOrder

theorem displayed_step (h : sys.oms.Displayed) (hshown : sys.Shown a)
    (hstep : sys.step std a = some sys') : sys'.oms.Displayed := by
  rcases step_oms hstep with heq | ⟨e, hok, hreceive⟩
  · rwa [heq]
  · exact h.step (fun newOrder he => hshown newOrder (hreceive newOrder he)) hok

/-- In every run in which the icebergs that are taken have a display quantity, or are sent no
slice and have none, no trade makes `check_fill` divide by zero, wherever the run leads. -/
theorem run_noDivision (std : StdHeap ClientOrder) (symbolLookupTable : ℕ → ℤ)
    (bootTimestamp : ℕ) (clock uninit : ℕ → ℕ) (groups : ℕ → GroupProcessor)
    {actions : List Action}
    (hshown : Runs.Always (fun sys a sys' => System.step std sys a = some sys') Shown
      (start (.init symbolLookupTable bootTimestamp clock uninit) groups) actions)
    (hrun : (start (.init symbolLookupTable bootTimestamp clock uninit) groups).run std actions =
      some sys) (t : Trade) : sys.oms.checkFill t ≠ .error .divisionByZero := by
  have hsteps := Runs.steps_iff_some.2 hrun
  have h0 : (start (.init symbolLookupTable bootTimestamp clock uninit) groups).oms.Displayed :=
    fun _ _ hchild => absurd hchild nofun
  have h : sys.oms.Displayed :=
    Runs.Steps.invariant (I := fun sys => sys.oms.Displayed) (P := Shown)
      (fun h hshown hstep => displayed_step h hshown hstep) h0 hshown hsteps
  exact h.checkFill_ne t

/-! ## A slice that trades -/

/-- An iceberg of five units in `AAPL`. -/
def slicedOrder (displayQuantity : ℕ) : ClientOrder :=
  { clientOrder 1 [65, 65, 80, 76] .sell .iceberg with displayQuantity := displayQuantity }

/-- An iceberg comes, and its first slice is enqueued. -/
def icebergActions (displayQuantity : ℕ) : List Action :=
  [.receive (some (slicedOrder displayQuantity)), .enqueue]

/-- A buy that trades with what comes first. -/
def fillActions : List Action :=
  [.receive (some (clientOrder 3 [65, 65, 80, 76] .buy .limit)), .enqueue,
    .take ⟨0, Nat.two_pos⟩,
    .take ⟨0, Nat.two_pos⟩, .take ⟨0, Nat.two_pos⟩, .publish ⟨0, Nat.two_pos⟩]

/-- An iceberg, a sell order behind its slice, and a buy order. -/
def sliceSession (displayQuantity : ℕ) : List Action :=
  icebergActions displayQuantity ++ round ++ (sellActions [65, 65, 80, 76] ++ round) ++ fillActions

/-- What is seen of a session : that its rounds can begin, that the first thread is at the first
ring, and what it does with the trades that have been published. -/
def sliceView (displayQuantity : ℕ) : Option (Bool × List (ℕ × Except Fault (List ℕ))) := do
  let d ← initialDispatcher.toOption
  let sys₁ ← (sessionStart d).run (.sorting _) (icebergActions displayQuantity)
  let sys₂ ← { sys₁ with pc := .receive }.run (.sorting _) (sellActions [65, 65, 80, 76])
  let sys₃ ← { sys₂ with pc := .receive }.run (.sorting _) fillActions
  some (decide ((sys₁.outbox = [] ∧ sys₁.pc = .consume 0) ∧
    (sys₂.outbox = [] ∧ sys₂.pc = .consume 0) ∧
      sys₃.outbox = [] ∧ sys₃.pc = .consume 0),
    sys₃.executed.map fun t => (t.quantity, (sys₃.oms.checkFill t).map fun st =>
      st.slices.map fun d => d.order.quantity))

theorem of_sliceView {displayQuantity : ℕ} {view : List (ℕ × Except Fault (List ℕ))}
    (h : sliceView displayQuantity = some (true, view)) : ∃ d sys, initialDispatcher = .ok d ∧
      (sessionStart d).run (.sorting _) (sliceSession displayQuantity) = some sys ∧
      sys.outbox = [] ∧ sys.pc = .consume 0 ∧
      (sys.executed.map fun t => (t.quantity, (sys.oms.checkFill t).map fun st =>
        st.slices.map fun d => d.order.quantity)) = view := by
  simp only [sliceView, Option.bind_eq_bind, Option.bind_eq_some_iff, Option.some.injEq,
    Prod.mk.injEq, decide_eq_true_eq] at h
  obtain ⟨d, hd, sys₁, hrun₁, sys₂, hrun₂, sys₃, hrun₃, ⟨h₁, h₂, h₃⟩,
    hview⟩ := h
  have hquiet₁ : ∀ a ∈ icebergActions displayQuantity, ∀ i,
      a ≠ .store i := by simp [icebergActions]
  have hquiet₂ : ∀ a ∈ sellActions [65, 65, 80, 76], ∀ i,
      a ≠ .store i := by simp [sellActions]
  have hseen : Seen (sessionStart d) := fun _ => rfl
  obtain ⟨hrun₁, hseen₁⟩ := hseen.run_round hquiet₁ hrun₁ h₁.1 h₁.2
  obtain ⟨hrun₂, -⟩ := hseen₁.run_round hquiet₂ hrun₂ h₂.1 h₂.2
  refine ⟨d, sys₃, ok_of_toOption hd, ?_, h₃.1, h₃.2, hview⟩
  exact Runs.steps_iff_some.1 (Runs.steps_append.2 ⟨_, Runs.steps_append.2
    ⟨_, Runs.steps_iff_some.2 hrun₁, Runs.steps_iff_some.2 hrun₂⟩,
      Runs.steps_iff_some.2 hrun₃⟩)

theorem shown_sliceSession {displayQuantity : ℕ} (h : 0 < displayQuantity) :
    ∀ a ∈ sliceSession displayQuantity, ∀ sys : System, sys.Shown a := by
  rintro a ha sys newOrder rfl
  refine Oms.shown_of_pos _ fun hice => ?_
  simp only [sliceSession, icebergActions, sellActions, fillActions, round, List.mem_append,
    List.mem_cons, List.not_mem_nil, List.mem_replicate, Action.receive.injEq, Option.some.injEq,
    reduceCtorEq, and_false, or_false] at ha
  rcases ha with (rfl | rfl) | rfl
  · exact h
  · cases hice
  · cases hice

theorem sliceView_two : sliceView 2 = some (true, [(2, .ok [2, 2])]) := by
  decide +kernel

/-- A slice of two units trades, and the next one is sent. -/
theorem run_noDivision_sliceSession : ∃ d sys, initialDispatcher = .ok d ∧
    (sessionStart d).run (.sorting _) (sliceSession 2) = some sys ∧
    (sys.executed.map fun t => t.quantity) = [2] ∧
    ∀ t, sys.oms.checkFill t ≠ .error .divisionByZero := by
  obtain ⟨d, sys, hd, hrun, -, -, hview⟩ := of_sliceView sliceView_two
  refine ⟨d, sys, hd, hrun, ?_, run_noDivision (.sorting _) twoSymbolTable 0 (fun n => n)
    (fun n => n) d.groups (.of_forall_mem (shown_sliceSession (by decide))) hrun⟩
  have hquantity := congrArg (List.map Prod.fst) hview
  rwa [List.map_map] at hquantity

theorem sliceView_zero : sliceView 0 = some (true, [(0, .error .divisionByZero)]) := by
  decide +kernel

/-- The slice of an iceberg without a display quantity has no units. It trades with a buy order,
since there is a sell order behind it, and the trade that the first thread is about to read makes
it divide by zero. -/
theorem division_reached : ∃ d sys, initialDispatcher = .ok d ∧
    (sessionStart d).run (.sorting _) (sliceSession 0) = some sys ∧
    sys.outbox = [] ∧ sys.pc = .consume 0 ∧
    ∃ t ∈ sys.executed, sys.oms.checkFill t = .error .divisionByZero := by
  obtain ⟨d, sys, hd, hrun, hbox, hpc, hview⟩ := of_sliceView sliceView_zero
  refine ⟨d, sys, hd, hrun, hbox, hpc, ?_⟩
  have hmem : (0, Except.error Fault.divisionByZero) ∈ sys.executed.map fun t => (t.quantity,
      (sys.oms.checkFill t).map fun st => st.slices.map fun d => d.order.quantity) := by
    rw [hview]
    exact List.mem_singleton_self _
  obtain ⟨t, ht, heq⟩ := List.mem_map.1 hmem
  refine ⟨t, ht, ?_⟩
  have hfault := (Prod.mk.inj heq).2
  cases hfill : sys.oms.checkFill t with
  | ok st => rw [hfill] at hfault; cases hfault
  | error fault =>
    rw [hfill] at hfault
    exact congrArg Except.error (Except.error.inj hfault)

end System

end TradeX
