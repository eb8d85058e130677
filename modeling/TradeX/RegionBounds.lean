import TradeX.TradeProcessor

/-!
# Records at the end of a region

`writerThread` tests whether a region is full after it has copied a trade, and `fileSize` is
not a multiple of the size of a trade : a region has room for `wholeRecords` of them, and the
next one is cut off at the end of the file. Here trades arrive in the ring while the two
threads take their steps, and the writer waits in its loop when there is none.

In the first region the offset is the size of the trades copied so far (`Filling`), so all
copies of a run are inside when no more trades arrive than one region has room for, and with
more there is a run where one is not (`copies_inside_iff`).
-/

namespace TradeX.TradeProcessor

/-- A trade is added to the ring, or a thread takes a step. -/
inductive Event
  | trade
  | thread (t : Thread)
  deriving DecidableEq

/-- The threads, and the number of trades that have been added to the ring. -/
structure Fed where
  arrived : ℕ
  threads : State

namespace Fed

/-- The constructor, with no trade in the ring. -/
def init (array array' : ℕ → ℕ) : Fed :=
  ⟨0, State.init array array'⟩

/-- `writerThread` waits for a trade. -/
def Waits (fd : Fed) : Prop :=
  fd.threads.writer.pc = .loop ∧ fd.threads.writer.tradeCounter < maxTradesPerTP ∧
    fd.arrived ≤ fd.threads.writer.tradeCounter

instance (fd : Fed) : Decidable fd.Waits :=
  inferInstanceAs (Decidable (_ ∧ _ ∧ _))

/-- A trade arrives, or a thread takes a step. -/
def step (fd : Fed) : Event → Fed
  | .trade => { fd with arrived := fd.arrived + 1 }
  | .thread .writer => if fd.Waits then fd else { fd with threads := fd.threads.writerStep }
  | .thread .persister => { fd with threads := fd.threads.persisterStep }

/-- Arrivals and steps in any order. -/
def run (fd : Fed) (events : List Event) : Fed :=
  events.foldl step fd

theorem run_append (fd : Fed) (l l' : List Event) : fd.run (l ++ l') = (fd.run l).run l' :=
  List.foldl_append ..

/-- The next step of `writerThread` calls `get_trade` with a place in `region`. -/
def Copies (fd : Fed) (region : ℕ) : Prop :=
  fd.threads.writer.memRegion = some region ∧
    (fd.threads.writer.pc = .copy ∨ fd.threads.writer.pc = .loop ∧
      fd.threads.writer.tradeCounter < maxTradesPerTP ∧
      fd.threads.writer.tradeCounter < fd.arrived)

theorem Copies.step_eq {fd : Fed} {region : ℕ} (h : fd.Copies region) :
    fd.step (.thread .writer) = { fd with threads := fd.threads.copyTrade region } := by
  obtain ⟨hr, hpc | ⟨hpc, hlt, harr⟩⟩ := h
  · rw [step, if_neg fun hw => absurd (hpc.symm.trans hw.1) (by simp)]
    simp only [State.writerStep, hpc, hr]
  · rw [step, if_neg fun hw => absurd hw.2.2 (Nat.not_le.2 harr)]
    simp only [State.writerStep, hpc, hr, if_pos hlt]

/-- The bytes of every trade copied in a run are inside the region's file. -/
def CopiesInside (fd : Fed) (events : List Event) : Prop :=
  ∀ pre post region, events = pre ++ .thread .writer :: post → (fd.run pre).Copies region →
    (fd.run pre).threads.writer.writeOffset + sizeofTrade ≤ fileSize

end Fed

/-- The trades added to the ring. -/
def arrivals (events : List Event) : ℕ :=
  events.count .trade

/-- The whole records a region has room for. -/
def wholeRecords : ℕ :=
  fileSize / sizeofTrade

theorem wholeRecords_lt :
    sizeofTrade * wholeRecords < fileSize ∧ fileSize < sizeofTrade * (wholeRecords + 1) := by
  decide

/-! ## The first region -/

/-- While no more trades have arrived than a region has room for, the writer is at its first
region, after the trades copied so far. -/
structure Filling (fd : Fed) : Prop where
  arrived : fd.threads.writer.tradeCounter ≤ fd.arrived
  copying : fd.threads.writer.pc = .copy → fd.threads.writer.tradeCounter < fd.arrived
  place : fd.arrived ≤ wholeRecords →
    (fd.threads.writer.pc = .loop ∨ fd.threads.writer.pc = .copy) ∧
      (fd.threads.writer.memRegion = none → fd.threads.writer.tradeCounter = 0) ∧
      (fd.threads.writer.memRegion ≠ none →
        fd.threads.writer.writeOffset = sizeofTrade * fd.threads.writer.tradeCounter)

theorem filling_init (array array' : ℕ → ℕ) : Filling (Fed.init array array') where
  arrived := Nat.zero_le _
  copying h := by simp [Fed.init, State.init] at h
  place _ := ⟨Or.inl rfl, fun _ => rfl, fun h => absurd rfl h⟩

namespace Filling

variable {fd : Fed}

/-- A copy is of a trade that has arrived. -/
theorem lt_of_copies (h : Filling fd) {region : ℕ} (hc : fd.Copies region) :
    fd.threads.writer.tradeCounter < fd.arrived :=
  hc.2.elim h.copying fun hloop => hloop.2.2

theorem copy (h : Filling fd) {region : ℕ} (hc : fd.Copies region) :
    Filling { fd with threads := fd.threads.copyTrade region } := by
  have hlt := h.lt_of_copies hc
  refine ⟨hlt, fun hpc => ?_, fun hroom => ?_⟩
  · simp only [State.copyTrade] at hpc
    split_ifs at hpc
  · obtain ⟨-, -, hoff⟩ := h.place hroom
    have hoff := hoff (by rw [hc.1]; simp)
    refine ⟨Or.inl ?_, fun hr => by simp [State.copyTrade] at hr, fun _ => ?_⟩
    · refine if_neg (Nat.not_le.2 ?_)
      rw [hoff, ← Nat.mul_succ]
      exact lt_of_le_of_lt (Nat.mul_le_mul_left _ (Nat.le_trans hlt hroom)) wholeRecords_lt.1
    · simp only [State.copyTrade, hoff, Nat.mul_succ]

/-- A step that counts nothing, when more trades have arrived than the region has room for. -/
theorem beyond (h : Filling fd) (hmany : wholeRecords < fd.arrived) {st : State}
    (hcounter : st.writer.tradeCounter = fd.threads.writer.tradeCounter)
    (hpc : st.writer.pc ≠ .copy) : Filling { fd with threads := st } :=
  ⟨hcounter ▸ h.arrived, fun hcopy => absurd hcopy hpc,
    fun hroom => absurd hroom (Nat.not_le.2 hmany)⟩

/-- The writer takes its first region. -/
theorem take (h : Filling fd) (hpc : fd.threads.writer.pc = .loop)
    (hr : fd.threads.writer.memRegion = none)
    (hlt : fd.threads.writer.tradeCounter < maxTradesPerTP)
    (harr : fd.threads.writer.tradeCounter < fd.arrived) :
    Filling { fd with threads := fd.threads.writerStep } := by
  unfold State.writerStep
  simp only [hpc, hr, if_pos hlt]
  split
  next => exact h
  next region q hget =>
    refine ⟨h.arrived, fun _ => harr, fun hroom => ⟨Or.inr rfl, fun hnone => by simp at hnone,
      fun _ => ?_⟩⟩
    simp only [(h.place hroom).2.1 hr, Nat.mul_zero]

theorem writer (h : Filling fd) (hstep : ¬ fd.Waits) :
    Filling { fd with threads := fd.threads.writerStep } := by
  rcases hpc : fd.threads.writer.pc with _ | _ | _ | _ | _ | _
  case loop =>
    by_cases hlt : fd.threads.writer.tradeCounter < maxTradesPerTP
    · have harr : fd.threads.writer.tradeCounter < fd.arrived :=
        Nat.not_le.1 fun hle => hstep ⟨hpc, hlt, hle⟩
      cases hr : fd.threads.writer.memRegion with
      | none => exact h.take hpc hr hlt harr
      | some region =>
        have hc : fd.Copies region := ⟨hr, Or.inr ⟨hpc, hlt, harr⟩⟩
        simpa only [State.writerStep, hpc, hr, if_pos hlt] using h.copy hc
    · have hmany : wholeRecords < fd.arrived :=
        lt_of_lt_of_le (by decide) ((Nat.not_lt.1 hlt).trans h.arrived)
      unfold State.writerStep
      simp only [hpc, if_neg hlt]
      exact h.beyond hmany rfl (by simp)
  case copy =>
    cases hr : fd.threads.writer.memRegion with
    | none => simpa only [State.writerStep, hpc, hr] using h
    | some region => simpa only [State.writerStep, hpc, hr] using h.copy ⟨hr, Or.inl hpc⟩
  all_goals
    have hmany : wholeRecords < fd.arrived := by
      by_contra hno
      have hplace := (h.place (Nat.not_lt.1 hno)).1
      simp [hpc] at hplace
    unfold State.writerStep
    simp only [hpc]
  case full =>
    split
    next => exact h.beyond hmany rfl (by simp)
    next => exact h
  all_goals exact h.beyond hmany rfl (by simp [hpc])

theorem step (h : Filling fd) (e : Event) : Filling (fd.step e) := by
  rcases e with _ | t
  · exact ⟨Nat.le_succ_of_le h.arrived, fun hpc => Nat.lt_succ_of_lt (h.copying hpc),
      fun hroom => h.place (Nat.le_of_succ_le hroom)⟩
  · cases t with
    | writer =>
      rw [Fed.step]
      split_ifs with hwaits
      · exact h
      · exact h.writer hwaits
    | persister =>
      have hw := persisterStep_writer fd.threads
      exact ⟨by rw [Fed.step, hw]; exact h.arrived, by rw [Fed.step, hw]; exact h.copying,
        by rw [Fed.step, hw]; exact h.place⟩

/-- A copy is inside the file when no more trades have arrived than the region has room for. -/
theorem inside (h : Filling fd) (hroom : fd.arrived ≤ wholeRecords) {region : ℕ}
    (hc : fd.Copies region) : fd.threads.writer.writeOffset + sizeofTrade ≤ fileSize := by
  have hlt := h.lt_of_copies hc
  rw [(h.place hroom).2.2 (by rw [hc.1]; simp), ← Nat.mul_succ]
  exact (Nat.mul_le_mul_left _ (Nat.le_trans hlt hroom)).trans wholeRecords_lt.1.le

end Filling

theorem filling_run {fd : Fed} (h : Filling fd) (events : List Event) :
    Filling (fd.run events) := by
  induction events generalizing fd with
  | nil => exact h
  | cons e events ih => exact ih (h.step e)

theorem arrived_run (fd : Fed) (events : List Event) :
    (fd.run events).arrived = fd.arrived + arrivals events := by
  induction events generalizing fd with
  | nil => rfl
  | cons e events ih =>
    have hstep : (fd.step e).arrived = fd.arrived + arrivals [e] := by
      rcases e with _ | t
      · rfl
      · cases t with
        | writer =>
          rw [Fed.step]
          split_ifs <;> rfl
        | persister => rfl
    have hcons : arrivals (e :: events) = arrivals [e] + arrivals events := by
      rw [← List.singleton_append]
      exact List.count_append
    rw [hcons, ← Nat.add_assoc, ← hstep]
    exact ih _

/-! ## A run that reaches the end of the region -/

/-- The trades arrive, and the writer takes a region and copies `j` of them. -/
def fillRegion (n j : ℕ) : List Event :=
  List.replicate n .trade ++ List.replicate (j + 1) (.thread .writer)

theorem run_trades (fd : Fed) (n : ℕ) :
    fd.run (List.replicate n .trade) = { fd with arrived := fd.arrived + n } := by
  induction n generalizing fd with
  | zero => rfl
  | succ n ih =>
    rw [List.replicate_succ, Fed.run, List.foldl_cons]
    refine (ih _).trans ?_
    rw [Fed.step, Nat.add_right_comm, Nat.add_assoc]

theorem run_fillRegion (array array' : ℕ → ℕ) {n : ℕ} (hn : wholeRecords < n) :
    ∀ {j : ℕ}, j ≤ wholeRecords →
    ∃ region, ((Fed.init array array').run (fillRegion n j)).Copies region ∧
      ((Fed.init array array').run (fillRegion n j)).threads.writer.tradeCounter = j ∧
      ((Fed.init array array').run (fillRegion n j)).threads.writer.writeOffset = sizeofTrade * j
  | 0, _ => by
    have hrange : List.range (memRegions - 1) = 0 :: List.range' 1 30 := rfl
    obtain ⟨q, hget, -⟩ := (hrange ▸ allRegions_holds array).pop
    have hstep : (Fed.init array array').threads.writerStep =
        { State.init array array' with rbWrite := q, writer := ⟨.copy, some 0, 0, 0⟩ } := by
      simp only [Fed.init, State.init, State.writerStep, getRegion, hget]
      exact if_pos (by decide)
    have hwaits : ¬ Fed.Waits { Fed.init array array' with arrived := 0 + n } := fun hw =>
      absurd hw.2.2 (by simp [Fed.init, State.init]; omega)
    rw [fillRegion, Fed.run_append, run_trades, Fed.run, List.replicate_one, List.foldl_cons,
      List.foldl_nil, Fed.step, show (Fed.init array array').arrived = 0 from rfl, if_neg hwaits,
        hstep]
    exact ⟨0, ⟨rfl, Or.inl rfl⟩, rfl, rfl⟩
  | j + 1, hj => by
    obtain ⟨region, hc, hcounter, hoff⟩ := run_fillRegion array array' hn (Nat.le_of_succ_le hj)
    have hrun : (Fed.init array array').run (fillRegion n (j + 1)) =
        ((Fed.init array array').run (fillRegion n j)).step (.thread .writer) := by
      rw [fillRegion, List.replicate_succ', ← List.append_assoc, Fed.run_append]
      rfl
    have harr : ((Fed.init array array').run (fillRegion n j)).arrived = n := by
      rw [arrived_run]
      simp [Fed.init, arrivals, fillRegion, List.count_replicate]
    rw [hrun, hc.step_eq]
    refine ⟨region, ⟨rfl, Or.inr ⟨if_neg (Nat.not_le.2 ?_), ?_, ?_⟩⟩, ?_, ?_⟩
    · rw [hoff, ← Nat.mul_succ]
      exact lt_of_le_of_lt (Nat.mul_le_mul_left _ hj) wholeRecords_lt.1
    · simp only [State.copyTrade, hcounter]
      exact lt_of_le_of_lt hj (by decide)
    · simp only [State.copyTrade, hcounter, harr]
      exact lt_of_le_of_lt hj hn
    · simp only [State.copyTrade, hcounter]
    · simp only [State.copyTrade, hoff, Nat.mul_succ]

/-- In every run with `n` trades every copy is inside its region, exactly when `n` is at most
the number of whole records a region has room for. -/
theorem copies_inside_iff (n : ℕ) :
    (∀ array array' events, arrivals events = n →
      (Fed.init array array').CopiesInside events) ↔ n ≤ wholeRecords := by
  constructor
  · intro h
    by_contra hn
    obtain ⟨region, hc, -, hoff⟩ := run_fillRegion id id (Nat.not_le.1 hn) le_rfl
    have hinside := h id id (fillRegion n wholeRecords ++ [.thread .writer])
      (by simp [arrivals, fillRegion, List.count_replicate]) _ [] region rfl hc
    rw [hoff, ← Nat.mul_succ] at hinside
    exact absurd hinside (Nat.not_le.2 wholeRecords_lt.2)
  · rintro hn array array' events rfl pre post region rfl hc
    refine (filling_run (filling_init array array') pre).inside ?_ hc
    rw [arrived_run]
    refine le_trans ?_ hn
    rw [Fed.init, Nat.zero_add]
    exact (List.sublist_append_left _ _).count_le _

/-- With 1563 trades the last one is copied to offset 74976 of a file of 75000 bytes. -/
theorem last_record_cut :
    let fd := (Fed.init id id).run (fillRegion 1563 1562)
    ∃ region, fd.Copies region ∧ fd.threads.writer.writeOffset = 74976 ∧
      fileSize < fd.threads.writer.writeOffset + sizeofTrade := by
  have hlast : sizeofTrade * 1562 = 74976 := rfl
  obtain ⟨region, hc, -, hoff⟩ :=
    run_fillRegion id id (n := 1563) (j := 1562) (by decide) (by decide)
  rw [hlast] at hoff
  refine ⟨region, hc, hoff, ?_⟩
  rw [hoff]
  decide

end TradeX.TradeProcessor
