import TradeX.SpscQueue
import TradeX.Library.Runs
import Mathlib.Data.Finset.Prod

/-!
# The trade processor

`TradeProcessor::writerThread` and `persistenceThread`, one step for each call of
`get_region`, `give_region`, `get_trade` and `msync` and for each access to `t2done`, in any
order. The constructor hands out `mem_regions - 1` regions, each the map of a file of
`fileSize` bytes. The writer fills a region with trades, one after the other, until the
offset has reached `fileSize`, and passes it on; the persister passes it back.

A region is the number of its file, and what is in the files is recorded by the number of
the call of `get_trade` that wrote it. A region takes 1563 trades before it is passed on, so
all of them take 48453; the 50000 trades of a day do not fit (`trade_lost`).
-/

namespace TradeX

namespace TradeProcessor

/-- `mem_regions`. -/
def memRegions : ℕ := 32

/-- `max_trades_in_a_day`. -/
def maxTradesInADay : ℕ := 100000

/-- `total_ring_buffer_count`. -/
def totalRingBufferCount : ℕ := 2

/-- `maxTradesPerTP`. -/
def maxTradesPerTP : ℕ := maxTradesInADay / totalRingBufferCount

/-- `sizeof(matching_engine::Trade)`. -/
def sizeofTrade : ℕ := 48

/-- `fileSize`. -/
def fileSize : ℕ := maxTradesPerTP * sizeofTrade / memRegions

/-- A queue of regions. -/
abbrev RegionQueue := SpscQueue ℕ

/-- `get_region`. -/
def getRegion : RegionQueue → Option (ℕ × RegionQueue) :=
  SpscQueue.pop memRegions

/-- `give_region`. What `push` returns is not looked at. -/
def giveRegion (q : RegionQueue) (region : ℕ) : RegionQueue :=
  (q.push memRegions region).2

/-- The queue of the constructor with a file name : it gives itself `mem_regions - 1`
regions. -/
@[irreducible] def allRegions (array : ℕ → ℕ) : RegionQueue :=
  (List.range (memRegions - 1)).foldl giveRegion (.new array)

/-- Where `writerThread` is : in its loop, about to copy a trade, about to pass on a region
that is full, after the loop, before the store to `t2done`, or returned. -/
inductive WriterPc
  | loop
  | copy
  | full
  | closing
  | finishing
  | done
  deriving DecidableEq

/-- Where the writer is, and its local variables. -/
structure Writer where
  pc : WriterPc
  memRegion : Option ℕ
  writeOffset : ℕ
  tradeCounter : ℕ

/-- Where `persistenceThread` is : before the load of `t2done`, before `get_region`, before the
`msync` of a region, before it gives it back, taking the remaining regions, before it gives one
of them back, before the `msync` of one, unmapping, or returned. -/
inductive PersisterPc
  | loop
  | get
  | sync (region : ℕ)
  | giveBack (region : ℕ)
  | drain
  | drainGive (region : ℕ)
  | drainSync (region : ℕ)
  | cleanup
  | done
  deriving DecidableEq

/-- The two threads and what they share. `files r o` is the number of the trade whose record
was last written at offset `o` of region `r`. -/
structure State where
  rbWrite : RegionQueue
  rbPersist : RegionQueue
  t2done : Bool
  writer : Writer
  persister : PersisterPc
  files : ℕ → ℕ → Option ℕ

/-- The constructor, with arrays that hold anything. -/
def State.init (array array' : ℕ → ℕ) : State where
  rbWrite := allRegions array
  rbPersist := .new array'
  t2done := false
  writer := ⟨.loop, none, 0, 0⟩
  persister := .loop
  files _ _ := none

/-- `get_trade` into the region, and the counters. -/
def State.copyTrade (st : State) (region : ℕ) : State :=
  let w := st.writer
  { st with
    files := Function.update st.files region
      (Function.update (st.files region) w.writeOffset (some w.tradeCounter))
    writer :=
      { pc := if fileSize ≤ w.writeOffset + sizeofTrade then .full else .loop
        memRegion := some region
        writeOffset := w.writeOffset + sizeofTrade
        tradeCounter := w.tradeCounter + 1 } }

/-- A step of `writerThread`, when there is a new trade if it waits for one. -/
def State.writerStep (st : State) : State :=
  let w := st.writer
  match w.pc with
  | .loop =>
    if w.tradeCounter < maxTradesPerTP then
      match w.memRegion with
      | some region => st.copyTrade region
      | none =>
        match getRegion st.rbWrite with
        | none => st
        | some (region, q) => { st with
            rbWrite := q
            writer := { w with pc := .copy, memRegion := some region, writeOffset := 0 } }
    else { st with writer := { w with pc := .closing } }
  | .copy =>
    match w.memRegion with
    | some region => st.copyTrade region
    | none => st
  | .full =>
    match w.memRegion with
    | some region => { st with
        rbPersist := giveRegion st.rbPersist region
        writer := { w with pc := .loop, memRegion := none } }
    | none => st
  | .closing => { st with
      rbPersist := match w.memRegion with
        | some region => giveRegion st.rbPersist region
        | none => st.rbPersist
      writer := { w with pc := .finishing } }
  | .finishing => { st with t2done := true, writer := { w with pc := .done } }
  | .done => st

/-- A step of `persistenceThread`. -/
def State.persisterStep (st : State) : State :=
  match st.persister with
  | .loop =>
    if st.t2done then { st with persister := .drain } else { st with persister := .get }
  | .get =>
    match getRegion st.rbPersist with
    | none => { st with persister := .loop }
    | some (region, q) => { st with rbPersist := q, persister := .sync region }
  | .sync region => { st with persister := .giveBack region }
  | .giveBack region => { st with rbWrite := giveRegion st.rbWrite region, persister := .loop }
  | .drain =>
    match getRegion st.rbPersist with
    | none => { st with persister := .cleanup }
    | some (region, q) => { st with rbPersist := q, persister := .drainGive region }
  | .drainGive region => { st with
      rbWrite := giveRegion st.rbWrite region
      persister := .drainSync region }
  | .drainSync _ => { st with persister := .drain }
  | .cleanup =>
    match getRegion st.rbWrite with
    | none => { st with persister := .done }
    | some (_, q) => { st with rbWrite := q }
  | .done => st

/-- The two threads. -/
inductive Thread
  | writer
  | persister
  deriving DecidableEq

/-- A step of a thread. -/
def State.step (st : State) : Thread → State
  | .writer => st.writerStep
  | .persister => st.persisterStep

/-- The threads take turns in any order. -/
def State.run (st : State) (schedule : List Thread) : State :=
  schedule.foldl State.step st

/-- Both threads have returned. -/
def State.Complete (st : State) : Prop :=
  st.writer.pc = .done ∧ st.persister = .done

/-! ## Where trades are written -/

/-- The queue holds regions. -/
def Regions (q : RegionQueue) : Prop :=
  ∃ l, q.Holds memRegions l ∧ ∀ r ∈ l, r < memRegions - 1

theorem Regions.get {q q' : RegionQueue} {region : ℕ} (h : Regions q)
    (hget : getRegion q = some (region, q')) : Regions q' ∧ region < memRegions - 1 := by
  obtain ⟨l, hl, hmem⟩ := h
  cases l with
  | nil =>
    rw [getRegion, hl.pop_nil] at hget
    simp at hget
  | cons r l =>
    obtain ⟨q₁, hpop, hl₁⟩ := hl.pop
    rw [getRegion, hpop, Option.some.injEq, Prod.mk.injEq] at hget
    obtain ⟨rfl, rfl⟩ := hget
    exact ⟨⟨l, hl₁, fun r hr => hmem r (List.mem_cons_of_mem _ hr)⟩,
      hmem _ List.mem_cons_self⟩

theorem Regions.give {q : RegionQueue} {region : ℕ} (h : Regions q)
    (hr : region < memRegions - 1) : Regions (giveRegion q region) := by
  obtain ⟨l, hl, hmem⟩ := h
  have hlt : l.length < memRegions := by
    obtain ⟨k, hk⟩ := hl
    exact hk.slots.lt
  rcases Nat.eq_or_lt_of_le (Nat.succ_le_of_lt hlt) with hfull | hroom
  · refine ⟨l, ?_, hmem⟩
    rw [giveRegion, hl.push_full hfull]
    exact hl
  · obtain ⟨q', hpush, hl'⟩ := hl.push hroom region
    refine ⟨l ++ [region], ?_, fun r hr' => ?_⟩
    · rw [giveRegion, hpush]
      exact hl'
    · rcases List.mem_append.1 hr' with hr' | hr'
      · exact hmem r hr'
      · rwa [List.mem_singleton.1 hr']

theorem regions_new (array : ℕ → ℕ) : Regions (.new array) :=
  ⟨[], SpscQueue.new_holds array (by decide), fun r hr => absurd hr List.not_mem_nil⟩

theorem allRegions_holds (array : ℕ → ℕ) :
    (allRegions array).Holds memRegions (List.range (memRegions - 1)) := by
  have hnew := SpscQueue.new_holds (n := memRegions) array (by decide)
  unfold allRegions
  exact hnew.foldl_push (by decide)

theorem regions_allRegions (array : ℕ → ℕ) : Regions (allRegions array) :=
  ⟨_, allRegions_holds array, fun _ hr => List.mem_range.1 hr⟩

theorem fileSize_pos : 0 < fileSize := by
  decide

/-- The writer's region and its offset : before a copy the offset is inside the file. -/
structure WriterInside (w : Writer) : Prop where
  region : ∀ r, w.memRegion = some r → r < memRegions - 1
  aligned : w.writeOffset % sizeofTrade = 0
  inside : w.memRegion ≠ none → w.pc = .loop ∨ w.pc = .copy → w.writeOffset < fileSize
  counter : w.pc = .closing ∨ w.pc = .finishing ∨ w.pc = .done →
    w.tradeCounter = maxTradesPerTP
  below : w.tradeCounter ≤ maxTradesPerTP ∧ (w.pc = .copy → w.tradeCounter < maxTradesPerTP)

/-- The region in the persister's hand. -/
def PersisterPc.region : PersisterPc → Option ℕ
  | sync r | giveBack r | drainGive r | drainSync r => some r
  | _ => none

/-- Regions are regions, and trades are at whole records that begin inside a file. -/
structure Inside (st : State) : Prop where
  rbWrite : Regions st.rbWrite
  rbPersist : Regions st.rbPersist
  writer : WriterInside st.writer
  persister : ∀ r, st.persister.region = some r → r < memRegions - 1
  files : ∀ r o i, st.files r o = some i →
    r < memRegions - 1 ∧ o % sizeofTrade = 0 ∧ o < fileSize

theorem writerInside_start : WriterInside ⟨.loop, none, 0, 0⟩ where
  region _ h := by simp at h
  aligned := rfl
  inside h := absurd rfl h
  counter h := by simp at h
  below := ⟨Nat.zero_le _, fun h => by simp at h⟩

theorem inside_init (array array' : ℕ → ℕ) : Inside (State.init array array') :=
  ⟨regions_allRegions array, regions_new array', writerInside_start,
    fun _ h => by simp [State.init, PersisterPc.region] at h,
    fun _ _ _ h => by simp [State.init] at h⟩

theorem Inside.copyTrade {st : State} {region : ℕ} (h : Inside st)
    (hr : st.writer.memRegion = some region) (hpc : st.writer.pc = .loop ∨ st.writer.pc = .copy)
    (hlt : st.writer.tradeCounter < maxTradesPerTP) : Inside (st.copyTrade region) where
  rbWrite := h.rbWrite
  rbPersist := h.rbPersist
  writer := by
    have hreg := h.writer.region region hr
    have hal := h.writer.aligned
    refine ⟨fun r hr' => ?_, ?_, fun _ hloop => ?_, fun hend => ?_, ?_⟩
    · rwa [← Option.some.inj hr']
    · simp only [State.copyTrade, sizeofTrade] at hal ⊢
      omega
    · simp only [State.copyTrade] at hloop ⊢
      split_ifs at hloop with hfull
      · simp at hloop
      · omega
    · simp only [State.copyTrade] at hend
      split_ifs at hend <;> simp at hend
    · simp only [State.copyTrade]
      refine ⟨hlt, fun hcopy => ?_⟩
      split_ifs at hcopy
  persister := h.persister
  files r o i hi := by
    simp only [State.copyTrade] at hi
    rcases eq_or_ne r region with rfl | hrr
    · rw [Function.update_self] at hi
      rcases eq_or_ne o st.writer.writeOffset with rfl | ho
      · exact ⟨h.writer.region r hr, h.writer.aligned, h.writer.inside (by rw [hr]; simp) hpc⟩
      · rw [Function.update_of_ne ho] at hi
        exact h.files r o i hi
    · rw [Function.update_of_ne hrr] at hi
      exact h.files r o i hi

theorem Inside.writerStep {st : State} (h : Inside st) : Inside st.writerStep := by
  have hw := h.writer
  unfold State.writerStep
  simp only
  split
  next hpc =>
    split_ifs with hlt
    · split
      next region hr => exact h.copyTrade hr (Or.inl hpc) hlt
      next hr =>
        split
        next => exact h
        next region q hget =>
          obtain ⟨hq, hreg⟩ := h.rbWrite.get hget
          refine ⟨hq, h.rbPersist, ⟨fun r hr' => ?_, rfl, fun _ _ => fileSize_pos, ?_, ?_⟩,
            h.persister, h.files⟩
          · rwa [← Option.some.inj hr']
          · simp
          · exact ⟨hw.below.1, fun _ => hlt⟩
    · refine ⟨h.rbWrite, h.rbPersist, ⟨hw.region, hw.aligned, ?_, fun _ => ?_, ?_⟩,
        h.persister, h.files⟩
      · simp
      · exact le_antisymm hw.below.1 (not_lt.1 hlt)
      · exact ⟨hw.below.1, by simp⟩
  next hpc =>
    split
    next region hr => exact h.copyTrade hr (Or.inr hpc) (hw.below.2 hpc)
    next => exact h
  next hpc =>
    split
    next region hr =>
      refine ⟨h.rbWrite, h.rbPersist.give (hw.region region hr), ⟨?_, hw.aligned, ?_, ?_, ?_⟩,
        h.persister, h.files⟩
      · simp
      · exact fun hne => absurd rfl hne
      · simp
      · exact ⟨hw.below.1, by simp⟩
    next => exact h
  next hpc =>
    refine ⟨h.rbWrite, ?_, ⟨hw.region, hw.aligned, ?_, fun _ => hw.counter (Or.inl hpc), ?_⟩,
      h.persister, h.files⟩
    · simp only
      split
      next region hr => exact h.rbPersist.give (hw.region region hr)
      next => exact h.rbPersist
    · simp
    · exact ⟨hw.below.1, by simp⟩
  next hpc =>
    refine ⟨h.rbWrite, h.rbPersist, ⟨hw.region, hw.aligned, ?_,
      fun _ => hw.counter (Or.inr (Or.inl hpc)), ?_⟩, h.persister, h.files⟩
    · simp
    · exact ⟨hw.below.1, by simp⟩
  next => exact h

/-- The persister goes on with no region in its hand. -/
theorem Inside.withoutRegion {st : State} (h : Inside st) {pc : PersisterPc}
    (hpc : pc.region = none) : Inside { st with persister := pc } :=
  ⟨h.rbWrite, h.rbPersist, h.writer, fun _ hr => absurd (hpc.symm.trans hr) (by simp), h.files⟩

theorem Inside.persisterStep {st : State} (h : Inside st) : Inside st.persisterStep := by
  have hp := h.persister
  unfold State.persisterStep
  split
  next =>
    split_ifs
    · exact h.withoutRegion rfl
    · exact h.withoutRegion rfl
  next =>
    split
    next => exact h.withoutRegion rfl
    next region q hget =>
      obtain ⟨hq, hreg⟩ := h.rbPersist.get hget
      exact ⟨h.rbWrite, hq, h.writer, fun r hr => by rwa [← Option.some.inj hr], h.files⟩
  next region hpc =>
    exact ⟨h.rbWrite, h.rbPersist, h.writer, fun r hr => hp r (by rw [hpc]; exact hr), h.files⟩
  next region hpc =>
    exact ⟨h.rbWrite.give (hp region (by rw [hpc]; rfl)), h.rbPersist, h.writer,
      fun _ hr => by simp [PersisterPc.region] at hr, h.files⟩
  next hpc =>
    split
    next => exact h.withoutRegion rfl
    next region q hget =>
      obtain ⟨hq, hreg⟩ := h.rbPersist.get hget
      exact ⟨h.rbWrite, hq, h.writer, fun r hr => by rwa [← Option.some.inj hr], h.files⟩
  next region hpc =>
    exact ⟨h.rbWrite.give (hp region (by rw [hpc]; rfl)), h.rbPersist, h.writer,
      fun r hr => hp r (by rw [hpc]; exact hr), h.files⟩
  next => exact h.withoutRegion rfl
  next hpc =>
    split
    next => exact h.withoutRegion rfl
    next region q hget => exact ⟨(h.rbWrite.get hget).1, h.rbPersist, h.writer, hp, h.files⟩
  next => exact h

theorem Inside.run : ∀ (schedule : List Thread) {st : State}, Inside st →
    Inside (st.run schedule)
  | [], _, h => h
  | .writer :: schedule, _, h => Inside.run schedule h.writerStep
  | .persister :: schedule, _, h => Inside.run schedule h.persisterStep

/-! ## The files are too small -/

/-- The records that begin inside a file. -/
def recordsPerFile : ℕ := (fileSize + sizeofTrade - 1) / sizeofTrade

/-- There are fewer records in the files than trades in a day. -/
theorem records_lt : (memRegions - 1) * recordsPerFile < maxTradesPerTP := by
  decide

/-- So not all trades are in the files. -/
theorem Inside.trade_missing {st : State} (h : Inside st) :
    ∃ i < maxTradesPerTP, ∀ r o, st.files r o ≠ some i := by
  by_contra hall
  push Not at hall
  choose! region offset hfile using hall
  -- the trades are at different records
  have hinj : Set.InjOn (fun i => (region i, offset i / sizeofTrade))
      (Finset.range maxTradesPerTP : Set ℕ) := by
    intro i hi j hj hij
    obtain ⟨hr, ho⟩ := Prod.mk.inj hij
    have hi' := hfile i (by simpa using hi)
    have hj' := hfile j (by simpa using hj)
    have hal := (h.files _ _ _ hi').2.1
    have hal' := (h.files _ _ _ hj').2.1
    have hoff : offset i = offset j := by
      simp only [sizeofTrade] at ho hal hal'
      omega
    rw [hr, hoff, hj'] at hi'
    exact (Option.some.inj hi').symm
  have hmaps : Set.MapsTo (fun i => (region i, offset i / sizeofTrade))
      (Finset.range maxTradesPerTP : Set ℕ)
      (Finset.range (memRegions - 1) ×ˢ Finset.range recordsPerFile : Finset (ℕ × ℕ)) := by
    intro i hi
    obtain ⟨hr, hal, hlt⟩ := h.files _ _ _ (hfile i (by simpa using hi))
    refine Finset.mem_coe.2 (Finset.mem_product.2 ⟨Finset.mem_range.2 hr,
      Finset.mem_range.2 ?_⟩)
    simp only [recordsPerFile, sizeofTrade] at hal ⊢
    omega
  have hcard := Finset.card_le_card_of_injOn _ hmaps hinj
  rw [Finset.card_range, Finset.card_product, Finset.card_range, Finset.card_range] at hcard
  exact absurd records_lt (not_lt.2 hcard)

theorem persisterStep_writer (st : State) : st.persisterStep.writer = st.writer := by
  simp only [State.persisterStep]
  split
  · split_ifs <;> rfl
  · split <;> rfl
  · rfl
  · rfl
  · split <;> rfl
  · rfl
  · rfl
  · split <;> rfl
  · rfl

/-- A step that counts a trade writes it. -/
theorem step_counter (st : State) (t : Thread) :
    (st.step t).writer.tradeCounter = st.writer.tradeCounter ∨
      (st.step t).writer.tradeCounter = st.writer.tradeCounter + 1 ∧
        ∃ r o, (st.step t).files r o = some st.writer.tradeCounter := by
  have hcopy : ∀ region,
      (st.copyTrade region).writer.tradeCounter = st.writer.tradeCounter + 1 ∧
        ∃ r o, (st.copyTrade region).files r o = some st.writer.tradeCounter := fun region =>
    ⟨rfl, region, st.writer.writeOffset, by simp [State.copyTrade]⟩
  cases t with
  | writer =>
    simp only [State.step, State.writerStep]
    split
    · split_ifs
      · split
        · exact Or.inr (hcopy _)
        · split <;> exact Or.inl rfl
      · exact Or.inl rfl
    · split
      · exact Or.inr (hcopy _)
      · exact Or.inl rfl
    · split <;> exact Or.inl rfl
    · exact Or.inl rfl
    · exact Or.inl rfl
    · exact Or.inl rfl
  | persister =>
    exact Or.inl (by rw [State.step, persisterStep_writer])

/-- Every trade that has been counted was in a file at some time. -/
theorem run_written (st : State) (hst : st.writer.tradeCounter = 0) (schedule : List Thread) :
    ∀ i < (st.run schedule).writer.tradeCounter,
      ∃ n r o, (st.run (schedule.take n)).files r o = some i := by
  induction schedule using List.reverseRecOn with
  | nil =>
    intro i hi
    exact absurd (hst ▸ hi) (Nat.not_lt_zero i)
  | append_singleton schedule t ih =>
    intro i hi
    have hrun : st.run (schedule ++ [t]) = (st.run schedule).step t := List.foldl_concat ..
    have hearlier : i < (st.run schedule).writer.tradeCounter →
        ∃ n r o, (st.run ((schedule ++ [t]).take n)).files r o = some i := fun hlt => by
      obtain ⟨n, r, o, hn⟩ := ih i hlt
      refine ⟨min n schedule.length, r, o, ?_⟩
      rwa [List.take_append_of_le_length (Nat.min_le_right _ _), ← List.take_eq_take_min]
    rw [hrun] at hi
    rcases step_counter (st.run schedule) t with hsame | ⟨hnext, r, o, hfile⟩
    · exact hearlier (hsame ▸ hi)
    · rw [hnext] at hi
      rcases Nat.lt_succ_iff_lt_or_eq.1 hi with hlt | rfl
      · exact hearlier hlt
      · refine ⟨(schedule ++ [t]).length, r, o, ?_⟩
        rwa [List.take_length, hrun]

/-- In every complete run, whatever the order of the steps, all trades of the day have been
read, and one of them was written into a file and is in no file in the end. -/
theorem trade_lost (array array' : ℕ → ℕ) (schedule : List Thread)
    (hdone : ((State.init array array').run schedule).Complete) :
    ((State.init array array').run schedule).writer.tradeCounter = maxTradesPerTP ∧
      ∃ i < maxTradesPerTP,
        (∃ n r o, ((State.init array array').run (schedule.take n)).files r o = some i) ∧
        ∀ r o, ((State.init array array').run schedule).files r o ≠ some i := by
  have h := Inside.run schedule (inside_init array array')
  have hcounter := h.writer.counter (Or.inr (Or.inr hdone.1))
  obtain ⟨i, hi, hmissing⟩ := h.trade_missing
  exact ⟨hcounter, i, hi, run_written _ rfl schedule i (hcounter ▸ hi), hmissing⟩

/-! ## A complete run -/

/-- Some order of steps leads from `st` to `st'`. -/
def Reaches (st st' : State) : Prop :=
  ∃ schedule, st.run schedule = st'

theorem Reaches.refl (st : State) : Reaches st st :=
  ⟨[], rfl⟩

theorem Reaches.trans {st₁ st₂ st₃ : State} (h : Reaches st₁ st₂)
    (h' : Reaches st₂ st₃) : Reaches st₁ st₃ := by
  obtain ⟨s, rfl⟩ := h
  obtain ⟨s', rfl⟩ := h'
  exact ⟨s ++ s', List.foldl_append⟩

theorem reaches_of_writerStep {st st' : State} (h : st.writerStep = st') : Reaches st st' :=
  ⟨[.writer], h⟩

theorem reaches_of_persisterStep {st st' : State} (h : st.persisterStep = st') : Reaches st st' :=
  ⟨[.persister], h⟩

/-- What the writer does not touch while it fills a region. -/
structure SameQueues (st st' : State) : Prop where
  rbWrite : st'.rbWrite = st.rbWrite
  rbPersist : st'.rbPersist = st.rbPersist
  t2done : st'.t2done = st.t2done
  persister : st'.persister = st.persister

theorem SameQueues.refl (st : State) : SameQueues st st :=
  ⟨rfl, rfl, rfl, rfl⟩

theorem SameQueues.trans {st₁ st₂ st₃ : State} (h : SameQueues st₁ st₂)
    (h' : SameQueues st₂ st₃) : SameQueues st₁ st₃ :=
  ⟨h'.rbWrite.trans h.rbWrite, h'.rbPersist.trans h.rbPersist, h'.t2done.trans h.t2done,
    h'.persister.trans h.persister⟩

/-- `n` more trades in a region that has room for them. -/
theorem reaches_copies {region c : ℕ} : ∀ (n : ℕ) {st : State} {o : ℕ},
    st.writer = ⟨.loop, some region, o, c⟩ → 0 < o → o + sizeofTrade * n < fileSize →
    c + n ≤ maxTradesPerTP → ∃ st', Reaches st st' ∧ SameQueues st st' ∧
      st'.writer = ⟨.loop, some region, o + sizeofTrade * n, c + n⟩
  | 0, st, o, hw, _, _, _ => ⟨st, .refl st, .refl st, hw⟩
  | n + 1, st, o, hw, ho, hroom, hc => by
    rw [Nat.mul_succ] at hroom
    obtain ⟨st₁, hreach, hsame, hw₁⟩ := reaches_copies n hw ho (by omega) (by omega)
    have hstep : st₁.writerStep = st₁.copyTrade region := by
      simp only [State.writerStep, hw₁, if_pos (show c + n < maxTradesPerTP by omega)]
    refine ⟨st₁.copyTrade region, hreach.trans (reaches_of_writerStep hstep),
      hsame.trans ⟨rfl, rfl, rfl, rfl⟩, ?_⟩
    simp only [State.copyTrade, hw₁, Nat.mul_succ, Writer.mk.injEq]
    exact ⟨if_neg (by omega), trivial, by omega, by omega⟩

/-- The writer takes a region and copies the first trade into it. -/
theorem reaches_first {st : State} {region c o : ℕ} {q : RegionQueue}
    (hw : st.writer = ⟨.loop, none, o, c⟩) (hget : getRegion st.rbWrite = some (region, q))
    (hc : c < maxTradesPerTP) : ∃ st', Reaches st st' ∧
      SameQueues { st with rbWrite := q } st' ∧
      st'.writer = ⟨.loop, some region, sizeofTrade, c + 1⟩ := by
  have hclaim : st.writerStep =
      { st with rbWrite := q, writer := ⟨.copy, some region, 0, c⟩ } := by
    simp only [State.writerStep, hw, if_pos hc, hget]
  set st₁ : State := { st with rbWrite := q, writer := ⟨.copy, some region, 0, c⟩ }
  have hcopy : st₁.writerStep = st₁.copyTrade region := rfl
  exact ⟨st₁.copyTrade region,
    (reaches_of_writerStep hclaim).trans (reaches_of_writerStep hcopy), ⟨rfl, rfl, rfl, rfl⟩,
      rfl⟩

/-- The writer fills a region and passes it on. -/
theorem reaches_session {st : State} {region c o : ℕ} {W P : List ℕ}
    (hw : st.writer = ⟨.loop, none, o, c⟩) (hW : st.rbWrite.Holds memRegions (region :: W))
    (hP : st.rbPersist.Holds memRegions P) (hroom : P.length + 1 < memRegions)
    (hc : c + recordsPerFile ≤ maxTradesPerTP) : ∃ st', Reaches st st' ∧
      (∃ o', st'.writer = ⟨.loop, none, o', c + recordsPerFile⟩) ∧
      st'.rbWrite.Holds memRegions W ∧ st'.rbPersist.Holds memRegions (P ++ [region]) ∧
      st'.t2done = st.t2done ∧ st'.persister = st.persister := by
  have hrec : recordsPerFile = 1563 := rfl
  obtain ⟨q, hget, hq⟩ := hW.pop
  obtain ⟨st₁, hreach₁, hsame₁, hw₁⟩ := reaches_first hw hget (by omega)
  obtain ⟨st₂, hreach₂, hsame₂, hw₂⟩ :=
    reaches_copies 1561 hw₁ (by decide) (by decide) (by omega)
  have hstep₂ : st₂.writerStep = st₂.copyTrade region := by
    simp only [State.writerStep, hw₂, if_pos (show c + 1 + 1561 < maxTradesPerTP by omega)]
  have hsame := hsame₁.trans hsame₂
  have hpush : st₂.rbPersist.Holds memRegions P := hsame.rbPersist ▸ hP
  obtain ⟨q', hgive, hq'⟩ := hpush.push hroom region
  have hw₃ : (st₂.copyTrade region).writer =
      ⟨.full, some region, sizeofTrade + sizeofTrade * 1561 + sizeofTrade,
        c + 1 + 1561 + 1⟩ := by
    simp only [State.copyTrade, hw₂]
    rfl
  have hstep₃ : (st₂.copyTrade region).writerStep = { st₂.copyTrade region with
      rbPersist := q'
      writer := ⟨.loop, none, sizeofTrade + sizeofTrade * 1561 + sizeofTrade,
        c + 1 + 1561 + 1⟩ } := by
    simp only [State.writerStep, hw₃]
    simp only [State.copyTrade, giveRegion, hgive]
  refine ⟨_, ((hreach₁.trans hreach₂).trans (reaches_of_writerStep hstep₂)).trans
    (reaches_of_writerStep hstep₃),
    ⟨sizeofTrade + sizeofTrade * 1561 + sizeofTrade, ?_⟩, ?_, hq', hsame.t2done,
      hsame.persister⟩
  · rw [hrec]
  · exact (show st₂.rbWrite = q from hsame.rbWrite) ▸ hq

/-- The writer fills all regions that wait for it. -/
theorem reaches_sessions : ∀ (W : List ℕ) {st : State} {P : List ℕ} {c o : ℕ},
    st.writer = ⟨.loop, none, o, c⟩ → st.rbWrite.Holds memRegions W →
    st.rbPersist.Holds memRegions P → P.length + W.length < memRegions →
    c + W.length * recordsPerFile ≤ maxTradesPerTP → ∃ st', Reaches st st' ∧
      (∃ o', st'.writer = ⟨.loop, none, o', c + W.length * recordsPerFile⟩) ∧
      st'.rbWrite.Holds memRegions [] ∧ st'.rbPersist.Holds memRegions (P ++ W) ∧
      st'.t2done = st.t2done ∧ st'.persister = st.persister
  | [], st, P, c, o, hw, hW, hP, _, _ => by
    refine ⟨st, .refl st, ⟨o, ?_⟩, hW, ?_, rfl, rfl⟩
    · rw [hw, List.length_nil, Nat.zero_mul, Nat.add_zero]
    · rwa [List.append_nil]
  | region :: W, st, P, c, o, hw, hW, hP, hroom, hc => by
    rw [List.length_cons] at hroom hc
    have hmul : (W.length + 1) * recordsPerFile = W.length * recordsPerFile + recordsPerFile :=
      Nat.succ_mul _ _
    obtain ⟨st₁, hreach₁, ⟨o₁, hw₁⟩, hW₁, hP₁, hdone₁, hpers₁⟩ :=
      reaches_session hw hW hP (by omega) (by omega)
    obtain ⟨st', hreach, ⟨o', hw'⟩, hW', hP', hdone, hpers⟩ :=
      reaches_sessions W hw₁ hW₁ hP₁
      (by rw [List.length_append, List.length_singleton]; omega) (by omega)
    refine ⟨st', hreach₁.trans hreach, ⟨o', ?_⟩, hW', ?_, hdone.trans hdone₁,
      hpers.trans hpers₁⟩
    · rw [hw', List.length_cons, hmul, Nat.add_assoc, Nat.add_comm recordsPerFile]
    · rwa [List.append_assoc] at hP'

/-- The persister gives a region back. -/
theorem reaches_recycle {st : State} {region : ℕ} {P : List ℕ} (hpc : st.persister = .loop)
    (hdone : st.t2done = false) (hP : st.rbPersist.Holds memRegions (region :: P))
    (hW : st.rbWrite.Holds memRegions []) : ∃ st', Reaches st st' ∧ st'.writer = st.writer ∧
      st'.rbWrite.Holds memRegions [region] ∧
      st'.rbPersist.Holds memRegions P ∧ st'.t2done = false ∧ st'.persister = .loop := by
  obtain ⟨q, hget, hq⟩ := hP.pop
  obtain ⟨q', hgive, hq'⟩ := hW.push (by decide) region
  have h₀ : st.persisterStep = { st with persister := .get } := by
    simp only [State.persisterStep, hpc, hdone, Bool.false_eq_true, if_false]
  have h₁ : State.persisterStep { st with persister := .get } =
      { st with rbPersist := q, persister := .sync region } := by
    simp only [State.persisterStep, getRegion, hget]
  have h₂ : State.persisterStep { st with rbPersist := q, persister := .sync region } =
      { st with rbPersist := q, persister := .giveBack region } := rfl
  have h₃ : State.persisterStep { st with rbPersist := q, persister := .giveBack region } =
      { st with rbPersist := q, rbWrite := q', persister := .loop } := by
    simp only [State.persisterStep, giveRegion, hgive]
  exact ⟨_, (((reaches_of_persisterStep h₀).trans (reaches_of_persisterStep h₁)).trans
    (reaches_of_persisterStep h₂)).trans (reaches_of_persisterStep h₃), rfl, hq', hq, hdone,
      rfl⟩

/-- The last region that the writer takes is not filled when the day ends. -/
theorem reaches_lastSession {st : State} {region c o n : ℕ} {P : List ℕ}
    (hw : st.writer = ⟨.loop, none, o, c⟩) (hW : st.rbWrite.Holds memRegions [region])
    (hP : st.rbPersist.Holds memRegions P) (hroom : P.length + 1 < memRegions)
    (hc : c + 1 + n = maxTradesPerTP) (hn : sizeofTrade + sizeofTrade * n < fileSize) :
    ∃ st', Reaches st st' ∧ st'.writer.pc = .done ∧ st'.t2done = true ∧
      st'.rbWrite.Holds memRegions [] ∧ st'.rbPersist.Holds memRegions (P ++ [region]) ∧
      st'.persister = st.persister := by
  obtain ⟨q, hget, hq⟩ := hW.pop
  obtain ⟨st₁, hreach₁, hsame₁, hw₁⟩ := reaches_first hw hget (by omega)
  obtain ⟨st₂, hreach₂, hsame₂, hw₂⟩ := reaches_copies n hw₁ (by decide) hn (by omega)
  have hsame := hsame₁.trans hsame₂
  rw [hc] at hw₂
  have hP₂ : st₂.rbPersist.Holds memRegions P := hsame.rbPersist ▸ hP
  obtain ⟨q', hgive, hq'⟩ := hP₂.push hroom region
  set w : Writer := ⟨.closing, some region, sizeofTrade + sizeofTrade * n, maxTradesPerTP⟩
  have h₁ : st₂.writerStep = { st₂ with writer := w } := by
    simp only [State.writerStep, hw₂, lt_irrefl, if_false, w]
  have h₂ : State.writerStep { st₂ with writer := w } =
      { st₂ with rbPersist := q', writer := { w with pc := .finishing } } := by
    simp only [State.writerStep, w, giveRegion, hgive]
  have h₃ : State.writerStep
      { st₂ with rbPersist := q', writer := { w with pc := .finishing } } =
      { st₂ with rbPersist := q', t2done := true, writer := { w with pc := .done } } := rfl
  refine ⟨_, (((hreach₁.trans hreach₂).trans (reaches_of_writerStep h₁)).trans
    (reaches_of_writerStep h₂)).trans (reaches_of_writerStep h₃), rfl, rfl, ?_, hq',
    hsame.persister⟩
  exact (show st₂.rbWrite = q from hsame.rbWrite) ▸ hq

/-- The persister gives the remaining regions back. -/
theorem reaches_drain : ∀ (P : List ℕ) {st : State} {W : List ℕ}, st.persister = .drain →
    st.rbPersist.Holds memRegions P → st.rbWrite.Holds memRegions W →
    W.length + P.length < memRegions → ∃ st', Reaches st st' ∧ st'.writer = st.writer ∧
      st'.persister = .cleanup ∧ st'.rbWrite.Holds memRegions (W ++ P)
  | [], st, W, hpc, hP, hW, _ => by
    have hstep : st.persisterStep = { st with persister := .cleanup } := by
      simp only [State.persisterStep, hpc, getRegion, hP.pop_nil]
    refine ⟨_, reaches_of_persisterStep hstep, rfl, rfl, ?_⟩
    rwa [List.append_nil]
  | region :: P, st, W, hpc, hP, hW, hroom => by
    rw [List.length_cons] at hroom
    obtain ⟨q, hget, hq⟩ := hP.pop
    obtain ⟨q', hgive, hq'⟩ := hW.push (by omega) region
    have h₁ : st.persisterStep = { st with rbPersist := q, persister := .drainGive region } := by
      simp only [State.persisterStep, hpc, getRegion, hget]
    have h₂ : State.persisterStep { st with rbPersist := q, persister := .drainGive region } =
        { st with rbPersist := q, rbWrite := q', persister := .drainSync region } := by
      simp only [State.persisterStep, giveRegion, hgive]
    set st₁ : State := { st with rbPersist := q, rbWrite := q', persister := .drain }
    have h₃ : State.persisterStep
        { st with rbPersist := q, rbWrite := q', persister := .drainSync region } = st₁ := rfl
    obtain ⟨st', hreach, hw, hpc', hW'⟩ :=
      reaches_drain P (show st₁.persister = .drain from rfl)
      hq hq' (by rw [List.length_append, List.length_singleton]; omega)
    refine ⟨st', (((reaches_of_persisterStep h₁).trans (reaches_of_persisterStep h₂)).trans
      (reaches_of_persisterStep h₃)).trans hreach, hw, hpc', ?_⟩
    rwa [List.append_assoc] at hW'

/-- The persister unmaps the regions and returns. -/
theorem reaches_cleanup : ∀ (W : List ℕ) {st : State}, st.persister = .cleanup →
    st.rbWrite.Holds memRegions W → ∃ st', Reaches st st' ∧ st'.writer = st.writer ∧
      st'.persister = .done
  | [], st, hpc, hW => by
    have hstep : st.persisterStep = { st with persister := .done } := by
      simp only [State.persisterStep, hpc, getRegion, hW.pop_nil]
    exact ⟨_, reaches_of_persisterStep hstep, rfl, rfl⟩
  | region :: W, st, hpc, hW => by
    obtain ⟨q, hget, hq⟩ := hW.pop
    have hstep : st.persisterStep = { st with rbWrite := q } := by
      simp only [State.persisterStep, hpc, getRegion, hget]
    obtain ⟨st', hreach, hw, hdone⟩ := reaches_cleanup W
      (show State.persister { st with rbWrite := q } = .cleanup from hpc) hq
    exact ⟨st', (reaches_of_persisterStep hstep).trans hreach, hw, hdone⟩

/-- There are complete runs : the writer fills all regions, the persister gives one of them
back, and the rest of the day goes into it. -/
theorem exists_complete (array array' : ℕ → ℕ) :
    ∃ schedule, ((State.init array array').run schedule).Complete := by
  have hlen : (List.range (memRegions - 1)).length = 31 := List.length_range
  have hstart : (State.init array array').writer = ⟨.loop, none, 0, 0⟩ := rfl
  obtain ⟨st₁, hreach₁, ⟨o₁, hw₁⟩, hW₁, hP₁, hdone₁, hpers₁⟩ :=
    reaches_sessions _ hstart (allRegions_holds array) (SpscQueue.new_holds array' (by decide))
      (by rw [hlen]; decide) (by rw [hlen]; decide)
  rw [hlen] at hw₁
  rw [List.nil_append, show List.range (memRegions - 1) = 0 :: List.range' 1 30 from rfl] at hP₁
  obtain ⟨st₂, hreach₂, hw₂, hW₂, hP₂, -, hpers₂⟩ :=
    reaches_recycle hpers₁ hdone₁ hP₁ hW₁
  obtain ⟨st₃, hreach₃, hwdone, ht2done, hW₃, hP₃, hpers₃⟩ :=
    reaches_lastSession (n := 1546) (hw₂.trans hw₁) hW₂ hP₂ (by decide) (by decide)
      (by decide)
  have hstep₃ : st₃.persisterStep = { st₃ with persister := .drain } := by
    simp only [State.persisterStep, hpers₃, hpers₂, ht2done, if_true]
  obtain ⟨st₄, hreach₄, hw₄, hpers₄, hW₄⟩ :=
    reaches_drain _ (show State.persister { st₃ with persister := .drain } = .drain from rfl)
      hP₃ hW₃ (by decide)
  obtain ⟨st₅, hreach₅, hw₅, hpers₅⟩ := reaches_cleanup _ hpers₄ hW₄
  obtain ⟨schedule, hrun⟩ := (((hreach₁.trans hreach₂).trans hreach₃).trans
    (reaches_of_persisterStep hstep₃)).trans (hreach₄.trans hreach₅)
  refine ⟨schedule, ?_, hrun ▸ hpers₅⟩
  rw [hrun, hw₅, hw₄]
  exact hwdone

/-- There is such a day. -/
theorem exists_trade_lost : ∃ schedule, ((State.init id id).run schedule).Complete ∧
    ((State.init id id).run schedule).writer.tradeCounter = maxTradesPerTP ∧
      ∃ i < maxTradesPerTP,
        (∃ n r o, ((State.init id id).run (schedule.take n)).files r o = some i) ∧
        ∀ r o, ((State.init id id).run schedule).files r o ≠ some i := by
  obtain ⟨schedule, hdone⟩ := exists_complete id id
  exact ⟨schedule, hdone, trade_lost id id schedule hdone⟩

/-- So it is not so that the trades of the day are in the files when both threads have
returned. -/
theorem not_durable : ¬ ∀ schedule, ((State.init id id).run schedule).Complete →
    ∀ i < maxTradesPerTP, ∃ r o, ((State.init id id).run schedule).files r o = some i := by
  intro hall
  obtain ⟨schedule, hdone⟩ := exists_complete id id
  obtain ⟨i, hi, hmissing⟩ := (Inside.run schedule (inside_init id id)).trade_missing
  obtain ⟨r, o, hfile⟩ := hall schedule hdone i hi
  exact hmissing r o hfile

end TradeProcessor

end TradeX
