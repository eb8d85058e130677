import TradeX.RegionOwnership

/-!
# Whole calls on the queues of regions

In `TradeProcessor.State` a call of `get_region` or `give_region` is one step; in `RegionThreads`
every load and store of it is. A call that runs to its end with no other step in between does what
the one step does, so whatever the threads of `State` can do, those of `RegionThreads` can
(`Matches.run`). In particular there is a day at whose end both have returned, and what
`persist_before_reuse` says of that end is so.
-/

namespace TradeX

namespace TradeProcessor

/-- Where the writer is, in its own steps. -/
def Writer.place (w : Writer) : WriterAt :=
  match w.pc with
  | .loop => .loop w.memRegion
  | .copy => .copy (w.memRegion.getD 0)
  | .full => .full (w.memRegion.getD 0)
  | .closing => .closing w.memRegion
  | .finishing => .finishing
  | .done => .returned

/-- Where the persister is, in its own steps. -/
def PersisterPc.place : PersisterPc → PersisterAt
  | .loop => .loop
  | .get => .get
  | .sync region => .sync region
  | .giveBack region => .synced region
  | .drain => .drain
  | .drainGive region => .drained region
  | .drainSync region => .drainSync region
  | .cleanup => .cleanup
  | .done => .returned

/-! ## A call on a queue -/

/-- The steps `next` of a call lead to one after which it has `returned`. -/
inductive Calls (next : QueueThreads ℕ → Option (QueueThreads ℕ))
    (returned : QueueThreads ℕ → Prop) : QueueThreads ℕ → QueueThreads ℕ → Prop
  | last {t t'} (h : next t = some t') (hret : returned t') : Calls next returned t t'
  | cons {t t₁ t'} (h : next t = some t₁) (hret : ¬returned t₁)
      (hrest : Calls next returned t₁ t') : Calls next returned t t'

/-- The array and the counters are those of `q`, and `push` is not called. -/
structure Shows (q : RegionQueue) (t : QueueThreads ℕ) : Prop where
  array : t.array = q.array
  head : t.head = q.head
  tail : t.tail = q.tail
  producer : ∃ result, t.producer = .outside result

/-- `pop` is not called. -/
def Unclaimed (t : QueueThreads ℕ) : Prop :=
  ∃ result, t.consumer = .outside result

/-- `push` has returned. -/
def Given (t : QueueThreads ℕ) : Prop :=
  t.producer.result? ≠ none

/-- `pop` has returned. -/
def Taken (t : QueueThreads ℕ) : Prop :=
  t.consumer.result? ≠ none

/-- What `get_region` leaves of a queue that was `q`. -/
inductive Gets (q : RegionQueue) (t : QueueThreads ℕ) : Prop
  | empty (hget : getRegion q = none) (hshows : Shows q t) (hconsumer : t.consumer = .outside none)
  | found (region : ℕ) (q' : RegionQueue) (hget : getRegion q = some (region, q'))
      (hshows : Shows q' t) (hconsumer : t.consumer = .outside (some region))

section calls

variable {q : RegionQueue} {t : QueueThreads ℕ}

/-- `get_region` is called. -/
theorem Shows.call (h : Shows q t) (hout : Unclaimed t) :
    ∃ t₁, t.callPop = some t₁ ∧ Shows q t₁ ∧ t₁.consumer = .called := by
  obtain ⟨result, hconsumer⟩ := hout
  refine ⟨{ t with consumer := .called }, ?_, ⟨h.array, h.head, h.tail, h.producer⟩, rfl⟩
  rw [QueueThreads.callPop, hconsumer]

/-- A whole call of `give_region`. -/
theorem Shows.give (h : Shows q t) (region : ℕ) :
    ∃ t₁ t', t.callPush region = some t₁ ∧
      Calls (·.produce regionIndexing) Given t₁ t' ∧
      Shows (giveRegion q region) t' ∧ t'.consumer = t.consumer := by
  obtain ⟨array, head, tail, producer, consumer, accepted, popped⟩ := t
  obtain ⟨rfl, rfl, rfl, result, hproducer⟩ := h
  obtain rfl : producer = .outside result := hproducer
  have hnot : ∀ {array head tail consumer accepted popped} {pc : ProducerPc ℕ},
      pc.result? = none → ¬Given ⟨array, head, tail, pc, consumer, accepted, popped⟩ :=
    fun hpc hgiven => hgiven hpc
  by_cases hfull : add64 q.tail 1 % memRegions = q.head % memRegions
  · refine ⟨_, ⟨q.array, q.head, q.tail, .outside false, consumer, accepted, popped⟩, rfl,
      .cons rfl (hnot rfl) (.last ?_ ?_), ⟨?_, ?_, ?_, _, rfl⟩, rfl⟩
    · exact if_pos hfull
    · simp [Given, ProducerPc.result?]
    all_goals simp [giveRegion, SpscQueue.push, hfull]
  · refine ⟨_, ⟨Function.update q.array (q.tail % memRegions) region, q.head, add64 q.tail 1,
      .outside true, consumer, accepted ++ [region], popped⟩, rfl, .cons rfl (hnot rfl)
      (.cons (if_neg hfull) (hnot rfl) (.cons rfl (hnot rfl) (.last rfl ?_))),
      ⟨?_, ?_, ?_, _, rfl⟩, rfl⟩
    · simp [Given, ProducerPc.result?]
    all_goals simp [giveRegion, SpscQueue.push, hfull]

/-- A whole call of `get_region`, once it has been called. -/
theorem Shows.get (h : Shows q t) (hcalled : t.consumer = .called) :
    ∃ t', Calls (·.consume regionIndexing) Taken t t' ∧ Gets q t' := by
  obtain ⟨array, head, tail, producer, consumer, accepted, popped⟩ := t
  obtain ⟨rfl, rfl, rfl, hproducer⟩ := h
  obtain rfl : consumer = .called := hcalled
  have hnot : ∀ {array head tail producer accepted popped} {pc : ConsumerPc ℕ},
      pc.result? = none → ¬Taken ⟨array, head, tail, producer, pc, accepted, popped⟩ :=
    fun hpc htaken => htaken hpc
  by_cases hempty : q.head = q.tail
  · refine ⟨⟨q.array, q.head, q.tail, producer, .outside none, accepted, popped⟩,
      .cons rfl (hnot rfl) (.last (if_pos hempty) ?_),
        .empty ?_ ⟨rfl, rfl, rfl, hproducer⟩ rfl⟩
    · simp [Taken, ConsumerPc.result?]
    · rw [getRegion, SpscQueue.pop, if_neg (not_not.2 hempty.symm)]
  · refine ⟨⟨q.array, add64 q.head 1, q.tail, producer, .outside (some _), accepted,
      popped ++ [_]⟩, .cons rfl (hnot rfl)
      (.cons (if_neg hempty) (hnot rfl) (.cons rfl (hnot rfl) (.last rfl ?_))),
      .found (q.array (q.head % memRegions)) { q with head := add64 q.head 1 } ?_
        ⟨rfl, rfl, rfl, hproducer⟩ rfl⟩
    · simp [Taken, ConsumerPc.result?]
    · rw [getRegion, SpscQueue.pop, if_pos (Ne.symm hempty)]

end calls

namespace RegionThreads

/-- Some steps of the threads lead from `st` to `st'`. -/
def Reaches (st st' : RegionThreads) : Prop :=
  ∃ schedule, st.run schedule = st'

theorem Reaches.trans {st₁ st₂ st₃ : RegionThreads} (h : Reaches st₁ st₂)
    (h' : Reaches st₂ st₃) : Reaches st₁ st₃ := by
  obtain ⟨schedule, rfl⟩ := h
  obtain ⟨schedule', rfl⟩ := h'
  exact ⟨schedule ++ schedule', List.foldl_append⟩

theorem reaches_writerStep {st st' : RegionThreads} (h : st.writerStep = some st') :
    Reaches st st' :=
  ⟨[.writer], by rw [run, List.foldl_cons, step, h]; rfl⟩

theorem reaches_persisterStep {st st' : RegionThreads} (h : st.persisterStep = some st') :
    Reaches st st' :=
  ⟨[.persister], by rw [run, List.foldl_cons, step, h]; rfl⟩

/-- The steps of a call are steps of the thread that makes it, which is in the call until it has
returned. -/
theorem reaches_calls {next : QueueThreads ℕ → Option (QueueThreads ℕ)}
    {returned : QueueThreads ℕ → Prop} (during after : QueueThreads ℕ → RegionThreads)
    (hstep : ∀ {t t'}, next t = some t' → Reaches (during t) (after t'))
    (hduring : ∀ {t}, ¬returned t → after t = during t)
    {t t' : QueueThreads ℕ} (h : Calls next returned t t') : Reaches (during t) (after t') := by
  induction h with
  | last hnext _ => exact hstep hnext
  | cons hnext hret _ ih => exact (hduring hret ▸ hstep hnext).trans ih

variable {st : RegionThreads} {q : RegionQueue} {region : ℕ}

/-- The writer gives a region and goes on at `next`. -/
theorem reaches_writerGive (giving next : WriterAt) (h : Shows q st.rbPersist)
    (hcall : st.writerStep = (st.rbPersist.callPush region).map fun t =>
      { st with rbPersist := t, writer := giving })
    (hgiving : ∀ t : QueueThreads ℕ, { st with rbPersist := t, writer := giving }.writerStep =
      (t.produce regionIndexing).map
        ({ st with rbPersist := t, writer := giving }.writerGive region next)) :
    ∃ t refused, Reaches st { st with rbPersist := t, writer := next, refused := refused } ∧
      Shows (giveRegion q region) t ∧ t.consumer = st.rbPersist.consumer := by
  obtain ⟨t₁, t, hcalled, hcalls, hshows, hconsumer⟩ := h.give region
  obtain ⟨result, hresult⟩ := hshows.producer
  refine ⟨t, st.refuse result region, ?_, hshows, hconsumer⟩
  have hgives := reaches_calls (fun t => { st with rbPersist := t, writer := giving })
    ({ st with writer := giving }.writerGive region next)
    (fun hstep => reaches_writerStep (by rw [hgiving, hstep, Option.map_some]; rfl))
    (fun hret => by rw [writerGive, not_not.1 hret]) hcalls
  rw [writerGive, hresult] at hgives
  exact (reaches_writerStep (by rw [hcall, hcalled, Option.map_some])).trans hgives

/-- The persister gives a region back and goes on at `next`. -/
theorem reaches_persisterGive (giving next : PersisterAt) (h : Shows q st.rbWrite)
    (hcall : st.persisterStep = (st.rbWrite.callPush region).map fun t =>
      { st with rbWrite := t, persister := giving })
    (hgiving : ∀ t : QueueThreads ℕ,
      { st with rbWrite := t, persister := giving }.persisterStep = (t.produce regionIndexing).map
        ({ st with rbWrite := t, persister := giving }.persisterGive region next)) :
    ∃ t refused, Reaches st { st with rbWrite := t, persister := next, refused := refused } ∧
      Shows (giveRegion q region) t ∧ t.consumer = st.rbWrite.consumer := by
  obtain ⟨t₁, t, hcalled, hcalls, hshows, hconsumer⟩ := h.give region
  obtain ⟨result, hresult⟩ := hshows.producer
  refine ⟨t, st.refuse result region, ?_, hshows, hconsumer⟩
  have hgives := reaches_calls (fun t => { st with rbWrite := t, persister := giving })
    ({ st with persister := giving }.persisterGive region next)
    (fun hstep => reaches_persisterStep (by rw [hgiving, hstep, Option.map_some]; rfl))
    (fun hret => by rw [persisterGive, not_not.1 hret]) hcalls
  rw [persisterGive, hresult] at hgives
  exact (reaches_persisterStep (by rw [hcall, hcalled, Option.map_some])).trans hgives

/-- The writer is in `get_region`. -/
theorem reaches_writerGet (h : Shows q st.rbWrite) (hcalled : st.rbWrite.consumer = .called)
    (hgetting : ∀ t : QueueThreads ℕ, { st with rbWrite := t }.writerStep =
      (t.consume regionIndexing).map { st with rbWrite := t }.writerGet) :
    ∃ t, Reaches st (st.writerGet t) ∧ Gets q t := by
  obtain ⟨t, hcalls, hgets⟩ := h.get hcalled
  refine ⟨t, ?_, hgets⟩
  exact reaches_calls (fun t => { st with rbWrite := t }) st.writerGet
    (fun hstep => reaches_writerStep (by rw [hgetting, hstep, Option.map_some]; rfl))
    (fun hret => by rw [writerGet, not_not.1 hret]) hcalls

/-- The persister is in `get_region` of `rb_persist`, and goes on at `found` or at `empty`. -/
theorem reaches_persisterGet {found : ℕ → PersisterAt} {empty : PersisterAt}
    (h : Shows q st.rbPersist) (hcalled : st.rbPersist.consumer = .called)
    (hgetting : ∀ t : QueueThreads ℕ, { st with rbPersist := t }.persisterStep =
      (t.consume regionIndexing).map ({ st with rbPersist := t }.persisterGet found empty)) :
    ∃ t, Reaches st (st.persisterGet found empty t) ∧ Gets q t := by
  obtain ⟨t, hcalls, hgets⟩ := h.get hcalled
  refine ⟨t, ?_, hgets⟩
  exact reaches_calls (fun t => { st with rbPersist := t }) (st.persisterGet found empty)
    (fun hstep => reaches_persisterStep (by rw [hgetting, hstep, Option.map_some]; rfl))
    (fun hret => by rw [persisterGet, not_not.1 hret]) hcalls

/-- The persister is in `get_region` of `rb_write`. -/
theorem reaches_cleanupGet (h : Shows q st.rbWrite) (hcalled : st.rbWrite.consumer = .called)
    (hgetting : ∀ t : QueueThreads ℕ, { st with rbWrite := t }.persisterStep =
      (t.consume regionIndexing).map { st with rbWrite := t }.cleanupGet) :
    ∃ t, Reaches st (st.cleanupGet t) ∧ Gets q t := by
  obtain ⟨t, hcalls, hgets⟩ := h.get hcalled
  refine ⟨t, ?_, hgets⟩
  exact reaches_calls (fun t => { st with rbWrite := t }) st.cleanupGet
    (fun hstep => reaches_persisterStep (by rw [hgetting, hstep, Option.map_some]; rfl))
    (fun hret => by rw [RegionThreads.cleanupGet, not_not.1 hret]) hcalls

/-! ## Steps and runs -/

/-- The threads are where those of `c` are, between two calls on the queues or, at `get`, at the
beginning of one. -/
structure Matches (c : State) (st : RegionThreads) : Prop where
  rbWrite : Shows c.rbWrite st.rbWrite
  rbPersist : Shows c.rbPersist st.rbPersist
  unclaimed : Unclaimed st.rbWrite
  called : c.persister = .get → st.rbPersist.consumer = .called
  outside : c.persister ≠ .get → Unclaimed st.rbPersist
  t2done : st.t2done = c.t2done
  writer : st.writer = c.writer.place
  writeOffset : st.writeOffset = c.writer.writeOffset
  tradeCounter : st.tradeCounter = c.writer.tradeCounter
  persister : st.persister = c.persister.place

namespace Matches

variable {c : State}

theorem copyTrade (h : Matches c st) (region : ℕ) :
    Matches (c.copyTrade region) (st.copyTrade region) where
  rbWrite := h.rbWrite
  rbPersist := h.rbPersist
  unclaimed := h.unclaimed
  called := h.called
  outside := h.outside
  t2done := h.t2done
  writer := by
    simp only [RegionThreads.copyTrade, State.copyTrade, Writer.place, h.writeOffset]
    split_ifs <;> rfl
  writeOffset := by simp only [RegionThreads.copyTrade, State.copyTrade, h.writeOffset]
  tradeCounter := by simp only [RegionThreads.copyTrade, State.copyTrade, h.tradeCounter]
  persister := h.persister

/-- The writer gives the region in its hand, and both go on. -/
theorem writerGive (h : Matches c st) {w : Writer} (giving : WriterAt)
    (hcall : st.writerStep = (st.rbPersist.callPush region).map fun t =>
      { st with rbPersist := t, writer := giving })
    (hgiving : ∀ t : QueueThreads ℕ, { st with rbPersist := t, writer := giving }.writerStep =
      (t.produce regionIndexing).map
        ({ st with rbPersist := t, writer := giving }.writerGive region w.place))
    (hoffset : w.writeOffset = c.writer.writeOffset)
    (hcounter : w.tradeCounter = c.writer.tradeCounter) :
    ∃ st', Reaches st st' ∧
      Matches { c with rbPersist := giveRegion c.rbPersist region, writer := w } st' := by
  obtain ⟨t, refused, hreach, hshows, hconsumer⟩ :=
    reaches_writerGive giving w.place h.rbPersist hcall hgiving
  exact ⟨_, hreach, h.rbWrite, hshows, h.unclaimed, fun hget => hconsumer.trans (h.called hget),
    fun hget => (h.outside hget).imp fun _ hout => hconsumer.trans hout, h.t2done, rfl,
    h.writeOffset.trans hoffset.symm, h.tradeCounter.trans hcounter.symm, h.persister⟩

/-- The writer calls `get_region`. -/
theorem writerGet (h : Matches c st) (hpc : c.writer.pc = .loop) (hnone : c.writer.memRegion = none)
    (hlt : c.writer.tradeCounter < maxTradesPerTP) :
    ∃ st', Reaches st st' ∧ Matches c.writerStep st' := by
  have hplace : c.writer.place = .loop none := by rw [Writer.place, hpc, hnone]
  have hw : st.writer = .loop none := h.writer.trans hplace
  obtain ⟨t₁, hpop, hshows, hcalled⟩ := h.rbWrite.call h.unclaimed
  have hcall : st.writerStep = some { st with rbWrite := t₁, writer := .get } := by
    rw [RegionThreads.writerStep, hw]
    simp only
    rw [if_pos (h.tradeCounter ▸ hlt), hpop, Option.map_some]
  obtain ⟨t, hreach, hgets⟩ := reaches_writerGet
    (show Shows c.rbWrite { st with rbWrite := t₁, writer := .get }.rbWrite from hshows) hcalled
    fun _ => rfl
  refine ⟨_, (reaches_writerStep hcall).trans hreach, ?_⟩
  rw [State.writerStep]
  simp only [hpc, hnone, if_pos hlt]
  cases hgets with
  | empty hget hshows hconsumer =>
    rw [hget, RegionThreads.writerGet, hconsumer]
    exact ⟨hshows, h.rbPersist, ⟨_, hconsumer⟩, h.called, h.outside, h.t2done,
      hplace.symm, h.writeOffset, h.tradeCounter, h.persister⟩
  | found region q hget hshows hconsumer =>
    rw [hget, RegionThreads.writerGet, hconsumer]
    exact ⟨hshows, h.rbPersist, ⟨_, hconsumer⟩, h.called, h.outside, h.t2done, rfl, rfl,
      h.tradeCounter, h.persister⟩

/-- A step of the writer. -/
theorem writerStep (h : Matches c st) : ∃ st', Reaches st st' ∧ Matches c.writerStep st' := by
  have hw := h.writer
  have hcounter := h.tradeCounter
  have hstay : ∃ st', Reaches st st' ∧ Matches c st' := ⟨st, ⟨[], rfl⟩, h⟩
  unfold Writer.place at hw
  cases hpc : c.writer.pc with
  | loop =>
    rw [hpc] at hw
    by_cases hlt : c.writer.tradeCounter < maxTradesPerTP
    · cases hmem : c.writer.memRegion with
      | some region =>
        rw [State.writerStep]
        simp only [hpc, hmem, if_pos hlt]
        refine ⟨_, reaches_writerStep ?_, h.copyTrade region⟩
        rw [RegionThreads.writerStep, hw, hmem]
        exact if_pos (hcounter ▸ hlt)
      | none => exact h.writerGet hpc hmem hlt
    · rw [State.writerStep]
      simp only [hpc, if_neg hlt]
      refine ⟨{ st with writer := .closing c.writer.memRegion }, reaches_writerStep ?_, ?_⟩
      · rw [RegionThreads.writerStep, hw]
        exact if_neg (hcounter ▸ hlt)
      · exact ⟨h.rbWrite, h.rbPersist, h.unclaimed, h.called, h.outside, h.t2done, rfl,
          h.writeOffset, hcounter, h.persister⟩
  | copy =>
    rw [State.writerStep]
    simp only [hpc]
    rw [hpc] at hw
    cases hmem : c.writer.memRegion with
    | some region =>
      refine ⟨_, reaches_writerStep ?_, h.copyTrade region⟩
      rw [RegionThreads.writerStep, hw, hmem]
      rfl
    | none => exact hstay
  | full =>
    rw [State.writerStep]
    simp only [hpc]
    rw [hpc] at hw
    cases hmem : c.writer.memRegion with
    | some region =>
      refine h.writerGive (.give region) ?_ (fun _ => rfl) rfl rfl
      rw [RegionThreads.writerStep, hw, hmem]
      rfl
    | none => exact hstay
  | closing =>
    rw [State.writerStep]
    simp only [hpc]
    rw [hpc] at hw
    cases hmem : c.writer.memRegion with
    | some region =>
      refine h.writerGive (.lastGive region) ?_ (fun _ => rfl) rfl rfl
      rw [RegionThreads.writerStep, hw, hmem]
    | none =>
      refine ⟨{ st with writer := .finishing }, reaches_writerStep ?_, ?_⟩
      · rw [RegionThreads.writerStep, hw, hmem]
      · exact ⟨h.rbWrite, h.rbPersist, h.unclaimed, h.called, h.outside, h.t2done, rfl,
          h.writeOffset, hcounter, h.persister⟩
  | finishing =>
    rw [State.writerStep]
    simp only [hpc]
    rw [hpc] at hw
    refine ⟨{ st with t2done := true, writer := .returned }, reaches_writerStep ?_, ?_⟩
    · rw [RegionThreads.writerStep, hw]
    · exact ⟨h.rbWrite, h.rbPersist, h.unclaimed, h.called, h.outside, rfl, rfl,
        h.writeOffset, hcounter, h.persister⟩
  | done =>
    rw [State.writerStep]
    simp only [hpc]
    exact hstay

/-- The persister goes on with nothing in the queues changed. -/
theorem persisterMoves (h : Matches c st) {p : PersisterPc} (hp : p ≠ .get)
    (hc : c.persister ≠ .get) {st' : RegionThreads} (hstep : st.persisterStep = some st')
    (hst' : ∃ dirty synced,
      st' = { st with dirty := dirty, synced := synced, persister := p.place }) :
    ∃ st', Reaches st st' ∧ Matches { c with persister := p } st' := by
  obtain ⟨dirty, synced, rfl⟩ := hst'
  exact ⟨_, reaches_persisterStep hstep, h.rbWrite, h.rbPersist, h.unclaimed,
    fun hget => absurd hget hp, fun _ => h.outside hc, h.t2done, h.writer, h.writeOffset,
    h.tradeCounter, rfl⟩

/-- The persister calls `get_region` of `rb_persist`, where `st` is at the call. -/
theorem persisterGet (h : Matches c st) (pc : PersisterAt) {t₁ : QueueThreads ℕ}
    {found : ℕ → PersisterPc} {empty : PersisterPc} (hshows : Shows c.rbPersist t₁)
    (hcalled : t₁.consumer = .called)
    (hreach : Reaches st { st with rbPersist := t₁, persister := pc })
    (hgetting : ∀ t : QueueThreads ℕ,
      { st with rbPersist := t, persister := pc }.persisterStep =
      (t.consume regionIndexing).map ({ st with rbPersist := t, persister := pc }.persisterGet
        (fun region => (found region).place) empty.place))
    (hfound : ∀ region, found region ≠ .get) (hempty : empty ≠ .get) :
    ∃ st', Reaches st st' ∧ Matches (match getRegion c.rbPersist with
      | none => { c with persister := empty }
      | some (region, q) => { c with rbPersist := q, persister := found region }) st' := by
  obtain ⟨t, hgot, hgets⟩ := reaches_persisterGet
    (show Shows c.rbPersist { st with rbPersist := t₁, persister := pc }.rbPersist from hshows)
    hcalled hgetting
  refine ⟨_, hreach.trans hgot, ?_⟩
  cases hgets with
  | empty hget hshows hconsumer =>
    rw [hget, RegionThreads.persisterGet, hconsumer]
    exact ⟨h.rbWrite, hshows, h.unclaimed, fun hget => absurd hget hempty,
      fun _ => ⟨_, hconsumer⟩, h.t2done, h.writer, h.writeOffset, h.tradeCounter, rfl⟩
  | found region q hget hshows hconsumer =>
    rw [hget, RegionThreads.persisterGet, hconsumer]
    exact ⟨h.rbWrite, hshows, h.unclaimed, fun hget => absurd hget (hfound region),
      fun _ => ⟨_, hconsumer⟩, h.t2done, h.writer, h.writeOffset, h.tradeCounter, rfl⟩

/-- The persister gives the region in its hand, and both go on. -/
theorem persisterGive (h : Matches c st) {p : PersisterPc} (giving : PersisterAt)
    (hcall : st.persisterStep = (st.rbWrite.callPush region).map fun t =>
      { st with rbWrite := t, persister := giving })
    (hgiving : ∀ t : QueueThreads ℕ,
      { st with rbWrite := t, persister := giving }.persisterStep = (t.produce regionIndexing).map
        ({ st with rbWrite := t, persister := giving }.persisterGive region p.place))
    (hp : p ≠ .get) (hc : c.persister ≠ .get) :
    ∃ st', Reaches st st' ∧
      Matches { c with rbWrite := giveRegion c.rbWrite region, persister := p } st' := by
  obtain ⟨t, refused, hreach, hshows, hconsumer⟩ :=
    reaches_persisterGive giving p.place h.rbWrite hcall hgiving
  exact ⟨_, hreach, hshows, h.rbPersist, h.unclaimed.imp fun _ hout => hconsumer.trans hout,
    fun hget => absurd hget hp, fun _ => h.outside hc, h.t2done, h.writer, h.writeOffset,
    h.tradeCounter, rfl⟩

/-- The persister calls `get_region` of `rb_write`, and unmaps what it gets. -/
theorem cleanup (h : Matches c st) (hpc : c.persister = .cleanup) :
    ∃ st', Reaches st st' ∧ Matches c.persisterStep st' := by
  have hp : st.persister = .cleanup := by rw [h.persister, hpc, PersisterPc.place]
  have hout : Unclaimed st.rbPersist := h.outside (by rw [hpc]; simp)
  obtain ⟨t₁, hpop, hshows, hcalled⟩ := h.rbWrite.call h.unclaimed
  have hcall : st.persisterStep = some { st with rbWrite := t₁, persister := .cleanupGet } := by
    rw [RegionThreads.persisterStep, hp]
    simp only [hpop, Option.map_some]
  obtain ⟨t, hreach, hgets⟩ := reaches_cleanupGet
    (show Shows c.rbWrite { st with rbWrite := t₁, persister := .cleanupGet }.rbWrite from hshows)
    hcalled fun _ => rfl
  rw [State.persisterStep]
  simp only [hpc]
  cases hgets with
  | empty hget hshows hconsumer =>
    rw [RegionThreads.cleanupGet, hconsumer] at hreach
    rw [hget]
    exact ⟨_, (reaches_persisterStep hcall).trans hreach, hshows, h.rbPersist, ⟨_, hconsumer⟩,
      fun hget => by simp at hget, fun _ => hout, h.t2done, h.writer, h.writeOffset, h.tradeCounter,
      rfl⟩
  | found region q hget hshows hconsumer =>
    rw [RegionThreads.cleanupGet, hconsumer] at hreach
    rw [hget]
    exact ⟨_, ((reaches_persisterStep hcall).trans hreach).trans (reaches_persisterStep rfl),
      hshows, h.rbPersist, ⟨_, hconsumer⟩, fun hget => by simp at hget, fun _ => hout, h.t2done,
      h.writer, h.writeOffset, h.tradeCounter, rfl⟩

/-- A step of the persister. -/
theorem persisterStep (h : Matches c st) : ∃ st', Reaches st st' ∧
    Matches c.persisterStep st' := by
  have hp := h.persister
  cases hpc : c.persister with
  | loop =>
    rw [hpc] at hp
    have hout : Unclaimed st.rbPersist := h.outside (by rw [hpc]; simp)
    rw [State.persisterStep]
    simp only [hpc]
    split_ifs with hdone
    · refine h.persisterMoves (by simp) (by rw [hpc]; simp) ?_ ⟨st.dirty, st.synced, rfl⟩
      rw [RegionThreads.persisterStep, hp]
      exact if_pos (h.t2done.trans hdone)
    · obtain ⟨t₁, hpop, hshows, hcalled⟩ := h.rbPersist.call hout
      refine ⟨{ st with rbPersist := t₁, persister := .get }, reaches_persisterStep ?_, h.rbWrite,
        hshows, h.unclaimed, fun _ => hcalled, fun hget => absurd rfl hget, h.t2done, h.writer,
        h.writeOffset, h.tradeCounter, rfl⟩
      rw [RegionThreads.persisterStep, hp]
      simp only [PersisterPc.place, h.t2done, hdone, hpop, Option.map_some, if_false,
        Bool.false_eq_true]
  | get =>
    rw [hpc] at hp
    rw [State.persisterStep]
    simp only [hpc]
    have hsame : st = { st with rbPersist := st.rbPersist, persister := .get } := by
      rw [← show st.persister = .get from hp]
    exact h.persisterGet .get h.rbPersist (h.called hpc) ⟨[], hsame⟩ (fun _ => rfl)
      (fun _ => by simp) (by simp)
  | sync region =>
    rw [hpc] at hp
    rw [State.persisterStep]
    simp only [hpc]
    refine h.persisterMoves (by simp) (by rw [hpc]; simp) ?_
      ⟨(st.msync region).dirty, (st.msync region).synced, rfl⟩
    rw [RegionThreads.persisterStep, hp]
    rfl
  | giveBack region =>
    rw [hpc] at hp
    rw [State.persisterStep]
    simp only [hpc]
    refine h.persisterGive (.give region) ?_ (fun _ => rfl) (by simp) (by rw [hpc]; simp)
    rw [RegionThreads.persisterStep, hp]
    rfl
  | drain =>
    rw [hpc] at hp
    have hout : Unclaimed st.rbPersist := h.outside (by rw [hpc]; simp)
    rw [State.persisterStep]
    simp only [hpc]
    obtain ⟨t₁, hpop, hshows, hcalled⟩ := h.rbPersist.call hout
    refine h.persisterGet .drainGet hshows hcalled (reaches_persisterStep ?_) (fun _ => rfl)
      (fun _ => by simp) (by simp)
    rw [RegionThreads.persisterStep, hp]
    simp only [PersisterPc.place, hpop, Option.map_some]
  | drainGive region =>
    rw [hpc] at hp
    rw [State.persisterStep]
    simp only [hpc]
    refine h.persisterGive (.drainGive region) ?_ (fun _ => rfl) (by simp) (by rw [hpc]; simp)
    rw [RegionThreads.persisterStep, hp]
    rfl
  | drainSync region =>
    rw [hpc] at hp
    rw [State.persisterStep]
    simp only [hpc]
    refine h.persisterMoves (by simp) (by rw [hpc]; simp) ?_
      ⟨(st.msync region).dirty, (st.msync region).synced, rfl⟩
    rw [RegionThreads.persisterStep, hp]
    rfl
  | cleanup => exact h.cleanup hpc
  | done =>
    rw [State.persisterStep]
    simp only [hpc]
    exact ⟨st, ⟨[], rfl⟩, h⟩

/-- Whatever the threads do with whole calls, they can do load by load and store by store. -/
theorem run : ∀ (schedule : List Thread) {c : State} {st : RegionThreads}, Matches c st →
    ∃ st', Reaches st st' ∧ Matches (c.run schedule) st'
  | [], _, st, h => ⟨st, ⟨[], rfl⟩, h⟩
  | .writer :: schedule, _, _, h => by
    obtain ⟨st₁, hreach₁, h₁⟩ := h.writerStep
    obtain ⟨st', hreach, h'⟩ := run schedule h₁
    exact ⟨st', hreach₁.trans hreach, h'⟩
  | .persister :: schedule, _, _, h => by
    obtain ⟨st₁, hreach₁, h₁⟩ := h.persisterStep
    obtain ⟨st', hreach, h'⟩ := run schedule h₁
    exact ⟨st', hreach₁.trans hreach, h'⟩

theorem init (array array' : ℕ → ℕ) : Matches (.init array array') (.init array array') where
  rbWrite := ⟨rfl, rfl, rfl, _, rfl⟩
  rbPersist := ⟨rfl, rfl, rfl, _, rfl⟩
  unclaimed := ⟨_, rfl⟩
  called h := by simp [State.init] at h
  outside _ := ⟨_, rfl⟩
  t2done := rfl
  writer := rfl
  writeOffset := rfl
  tradeCounter := rfl
  persister := rfl

end Matches

/-- There is a day at whose end both threads have returned. -/
theorem exists_returned (array array' : ℕ → ℕ) : ∃ schedule,
    ((init array array').run schedule).writer = .returned ∧
    ((init array array').run schedule).persister = .returned ∧
    ((init array array').run schedule).tradeCounter = maxTradesPerTP := by
  obtain ⟨coarse, hdone⟩ := exists_complete array array'
  have hinside := (Inside.run coarse (inside_init array array')).writer
  obtain ⟨_, ⟨schedule, rfl⟩, h⟩ := (Matches.init array array').run coarse
  refine ⟨schedule, ?_, ?_, ?_⟩
  · rw [h.writer, Writer.place, hdone.1]
  · rw [h.persister, hdone.2, PersisterPc.place]
  · rw [h.tradeCounter, hinside.counter (Or.inr (Or.inr hdone.1))]

/-- At the end of such a day every region that was given to the persister has been synced, and the
31 regions have been unmapped. -/
theorem persist_before_reuse_day : ∃ schedule,
    ((init id id).run schedule).persister = .returned ∧
    ((init id id).run schedule).tradeCounter = maxTradesPerTP ∧
    ((init id id).run schedule).synced = ((init id id).run schedule).rbPersist.accepted ∧
    (∀ region, ((init id id).run schedule).dirty region = false) ∧
    ((init id id).run schedule).unmapped.Perm (List.range (memRegions - 1)) := by
  obtain ⟨schedule, -, hpersister, hcounter⟩ := exists_returned id id
  obtain ⟨-, -, -, hend⟩ := persist_before_reuse id id schedule
  exact ⟨schedule, hpersister, hcounter, hend hpersister⟩

end RegionThreads

end TradeProcessor

end TradeX
