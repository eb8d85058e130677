import TradeX.TradeProcessor
import TradeX.QueueThreads

/-!
# Who has a region

`writerThread` and `persistenceThread` once more, now with every load and store of the two
queues as a step of its own, and with what has become of each region : whether it holds trades
that have been written since its last `msync`, which regions have been through `msync` and which
have been unmapped, and what `give_region` has refused.

A region is always in exactly one place (`Owned`), so neither queue is ever full when a region
is given. In its last pass over `rb_persist` the persister gives a region back before the
`msync`, but then the writer has ended (`persist_before_reuse`).
-/

namespace TradeX

namespace TradeProcessor

/-- Where `writerThread` is : at the loop with or without a region, in `get_region`, before the
first trade in a region, with a region that is full, in `give_region`, after the loop, in the last
`give_region`, before the store to `t2done`, or returned. -/
inductive WriterAt
  | loop (memRegion : Option ℕ)
  | get
  | copy (region : ℕ)
  | full (region : ℕ)
  | give (region : ℕ)
  | closing (memRegion : Option ℕ)
  | lastGive (region : ℕ)
  | finishing
  | returned
  deriving DecidableEq, Repr

/-- Where `persistenceThread` is : at the loop, in `get_region`, before the `msync` of a region,
after it, in `give_region`; the same for the remaining regions, where the `msync` comes last; at
the loop that unmaps, in its `get_region`, before `munmap`, or returned. -/
inductive PersisterAt
  | loop
  | get
  | sync (region : ℕ)
  | synced (region : ℕ)
  | give (region : ℕ)
  | drain
  | drainGet
  | drained (region : ℕ)
  | drainGive (region : ℕ)
  | drainSync (region : ℕ)
  | cleanup
  | cleanupGet
  | unmap (region : ℕ)
  | returned
  deriving DecidableEq, Repr

/-- The threads and what they share. -/
structure RegionThreads where
  rbWrite : QueueThreads ℕ
  rbPersist : QueueThreads ℕ
  t2done : Bool
  writer : WriterAt
  writeOffset : ℕ
  tradeCounter : ℕ
  persister : PersisterAt
  dirty : ℕ → Bool
  synced : List ℕ
  unmapped : List ℕ
  refused : List ℕ

/-- The indices of the queues of regions. -/
def regionIndexing : Indexing :=
  SpscQueue.indexing memRegions

namespace RegionThreads

/-- The constructor, with arrays that hold anything. -/
def init (array array' : ℕ → ℕ) : RegionThreads where
  rbWrite := ⟨(allRegions array).array, (allRegions array).head, (allRegions array).tail,
    .outside true, .outside none, List.range (memRegions - 1), []⟩
  rbPersist := .init array'
  t2done := false
  writer := .loop none
  writeOffset := 0
  tradeCounter := 0
  persister := .loop
  dirty _ := false
  synced := []
  unmapped := []
  refused := []

/-- `get_trade` into the region, and the counters. -/
def copyTrade (st : RegionThreads) (region : ℕ) : RegionThreads :=
  { st with
    dirty := Function.update st.dirty region true
    writer :=
      if fileSize ≤ st.writeOffset + sizeofTrade then .full region else .loop (some region)
    writeOffset := st.writeOffset + sizeofTrade
    tradeCounter := st.tradeCounter + 1 }

/-- `msync`. -/
def msync (st : RegionThreads) (region : ℕ) : RegionThreads :=
  { st with dirty := Function.update st.dirty region false, synced := st.synced ++ [region] }

/-- What `give_region` has not taken. -/
def refuse (st : RegionThreads) (result : Bool) (region : ℕ) : List ℕ :=
  if result then st.refused else st.refused ++ [region]

/-- A step of `get_region` of the writer. -/
def writerGet (st : RegionThreads) (rbWrite : QueueThreads ℕ) : RegionThreads :=
  match rbWrite.consumer.result? with
  | some (some region) => { st with rbWrite := rbWrite, writer := .copy region, writeOffset := 0 }
  | some none => { st with rbWrite := rbWrite, writer := .loop none }
  | none => { st with rbWrite := rbWrite }

/-- A step of `give_region` of the writer, which goes on at `next`. -/
def writerGive (st : RegionThreads) (region : ℕ) (next : WriterAt)
    (rbPersist : QueueThreads ℕ) : RegionThreads :=
  match rbPersist.producer.result? with
  | some result => { st with
      rbPersist := rbPersist
      writer := next
      refused := st.refuse result region }
  | none => { st with rbPersist := rbPersist }

/-- A step of `writerThread`, when there is a new trade if it waits for one. -/
def writerStep (st : RegionThreads) : Option RegionThreads :=
  match st.writer with
  | .loop memRegion =>
    if st.tradeCounter < maxTradesPerTP then
      match memRegion with
      | some region => some (st.copyTrade region)
      | none => st.rbWrite.callPop.map fun q => { st with rbWrite := q, writer := .get }
    else some { st with writer := .closing memRegion }
  | .get => (st.rbWrite.consume regionIndexing).map st.writerGet
  | .copy region => some (st.copyTrade region)
  | .full region =>
    (st.rbPersist.callPush region).map fun q => { st with rbPersist := q, writer := .give region }
  | .give region =>
    (st.rbPersist.produce regionIndexing).map (st.writerGive region (.loop none))
  | .closing memRegion =>
    match memRegion with
    | some region => (st.rbPersist.callPush region).map fun q =>
        { st with rbPersist := q, writer := .lastGive region }
    | none => some { st with writer := .finishing }
  | .lastGive region =>
    (st.rbPersist.produce regionIndexing).map (st.writerGive region .finishing)
  | .finishing => some { st with t2done := true, writer := .returned }
  | .returned => none

/-- A step of `get_region` of the persister on `rb_persist`, which goes on at `found` or at
`empty`. -/
def persisterGet (st : RegionThreads) (found : ℕ → PersisterAt) (empty : PersisterAt)
    (rbPersist : QueueThreads ℕ) : RegionThreads :=
  match rbPersist.consumer.result? with
  | some (some region) => { st with rbPersist := rbPersist, persister := found region }
  | some none => { st with rbPersist := rbPersist, persister := empty }
  | none => { st with rbPersist := rbPersist }

/-- A step of `give_region` of the persister. -/
def persisterGive (st : RegionThreads) (region : ℕ) (next : PersisterAt)
    (rbWrite : QueueThreads ℕ) : RegionThreads :=
  match rbWrite.producer.result? with
  | some result => { st with
      rbWrite := rbWrite
      persister := next
      refused := st.refuse result region }
  | none => { st with rbWrite := rbWrite }

/-- A step of `get_region` of the persister on `rb_write`. -/
def cleanupGet (st : RegionThreads) (rbWrite : QueueThreads ℕ) : RegionThreads :=
  match rbWrite.consumer.result? with
  | some (some region) => { st with rbWrite := rbWrite, persister := .unmap region }
  | some none => { st with rbWrite := rbWrite, persister := .returned }
  | none => { st with rbWrite := rbWrite }

/-- A step of `persistenceThread`. It has no region whenever it loads `t2done`. -/
def persisterStep (st : RegionThreads) : Option RegionThreads :=
  match st.persister with
  | .loop =>
    if st.t2done then some { st with persister := .drain }
    else st.rbPersist.callPop.map fun q => { st with rbPersist := q, persister := .get }
  | .get => (st.rbPersist.consume regionIndexing).map (st.persisterGet .sync .loop)
  | .sync region => some { st.msync region with persister := .synced region }
  | .synced region =>
    (st.rbWrite.callPush region).map fun q => { st with rbWrite := q, persister := .give region }
  | .give region => (st.rbWrite.produce regionIndexing).map (st.persisterGive region .loop)
  | .drain => st.rbPersist.callPop.map fun q => { st with rbPersist := q, persister := .drainGet }
  | .drainGet => (st.rbPersist.consume regionIndexing).map (st.persisterGet .drained .cleanup)
  | .drained region =>
    (st.rbWrite.callPush region).map fun q =>
      { st with rbWrite := q, persister := .drainGive region }
  | .drainGive region =>
    (st.rbWrite.produce regionIndexing).map (st.persisterGive region (.drainSync region))
  | .drainSync region => some { st.msync region with persister := .drain }
  | .cleanup => st.rbWrite.callPop.map fun q => { st with rbWrite := q, persister := .cleanupGet }
  | .cleanupGet => (st.rbWrite.consume regionIndexing).map st.cleanupGet
  | .unmap region => some { st with unmapped := st.unmapped ++ [region], persister := .cleanup }
  | .returned => none

/-- A thread takes a step, if it can. -/
def step (st : RegionThreads) : Thread → RegionThreads
  | .writer => st.writerStep.getD st
  | .persister => st.persisterStep.getD st

/-- The threads take steps in any order. -/
def run (st : RegionThreads) (schedule : List Thread) : RegionThreads :=
  schedule.foldl step st

end RegionThreads

/-! ## Places -/

/-- The region in the writer's hand, from the end of `get_region` to that of `give_region`. -/
def WriterAt.hand : WriterAt → List ℕ
  | .loop memRegion => memRegion.toList
  | .get => []
  | .copy region => [region]
  | .full region => [region]
  | .give region => [region]
  | .closing memRegion => memRegion.toList
  | .lastGive region => [region]
  | .finishing => []
  | .returned => []

/-- The region in the persister's hand. -/
def PersisterAt.hand : PersisterAt → List ℕ
  | .sync region => [region]
  | .synced region => [region]
  | .give region => [region]
  | .drained region => [region]
  | .drainGive region => [region]
  | .unmap region => [region]
  | _ => []

/-- The region that the writer gives. -/
def WriterAt.giving : WriterAt → Option ℕ
  | .give region => some region
  | .lastGive region => some region
  | _ => none

/-- The region that the persister gives. -/
def PersisterAt.giving : PersisterAt → Option ℕ
  | .give region => some region
  | .drainGive region => some region
  | _ => none

/-- The region that the persister has taken from `rb_persist` and not yet synced. -/
def PersisterAt.unsynced : PersisterAt → Option ℕ
  | .sync region => some region
  | .drained region => some region
  | .drainGive region => some region
  | .drainSync region => some region
  | _ => none

/-- The persister has left its first loop. -/
def PersisterAt.draining : PersisterAt → Bool
  | .loop => false
  | .get => false
  | .sync _ => false
  | .synced _ => false
  | .give _ => false
  | _ => true

/-- The persister has left its second loop. -/
def PersisterAt.cleaning : PersisterAt → Bool
  | .cleanup => true
  | .cleanupGet => true
  | .unmap _ => true
  | .returned => true
  | _ => false

theorem PersisterAt.mem_hand {p : PersisterAt} {r : ℕ} (h : p.unsynced = some r) :
    r ∈ p.hand ∨ p.draining = true := by
  cases p <;> simp_all [unsynced, hand, draining]

theorem PersisterAt.draining_of_cleaning {p : PersisterAt} (h : p.cleaning = true) :
    p.draining = true := by
  cases p <;> simp_all [cleaning, draining]

/-- In how many places a region is. -/
def RegionThreads.places (st : RegionThreads) (region : ℕ) : ℕ :=
  st.rbWrite.waiting.count region + st.writer.hand.count region +
    st.rbPersist.waiting.count region + st.persister.hand.count region + st.unmapped.count region

/-! ## Custody

What the threads do with regions, apart from how the queues work. -/

/-- What the queues hold, where the threads are, and what has become of the regions; `claimed` are
those that the persister has taken from `rb_persist`. -/
structure Custody where
  toWrite : List ℕ
  toPersist : List ℕ
  claimed : List ℕ
  writer : WriterAt
  persister : PersisterAt
  t2done : Bool
  dirty : ℕ → Bool
  synced : List ℕ
  unmapped : List ℕ

namespace Custody

/-- What a step of a thread can do with regions. -/
inductive Step : Custody → Custody → Prop
  | writerMoves {c : Custody} {w : WriterAt} (hhand : w.hand = c.writer.hand)
      (hcopy : ∀ r, w ≠ .copy r) (hw : w ≠ .returned) (hc : c.writer ≠ .returned) :
      Step c { c with writer := w }
  | writerGets {c : Custody} {r : ℕ} {l : List ℕ} (hc : c.writer = .get)
      (hl : c.toWrite = r :: l) : Step c { c with toWrite := l, writer := .copy r }
  | writerCopies {c : Custody} {r : ℕ} {w : WriterAt} (hc : c.writer.hand = [r])
      (hhand : w.hand = [r]) (hcopy : ∀ r, w ≠ .copy r) :
      Step c { c with writer := w, dirty := Function.update c.dirty r true }
  | writerGives {c : Custody} {r : ℕ} {w : WriterAt} (hc : c.writer.hand = [r])
      (hhand : w.hand = []) (hcopy : ∀ r, w ≠ .copy r) (hw : w ≠ .returned) :
      Step c { c with toPersist := c.toPersist ++ [r], writer := w }
  | writerEnds {c : Custody} (hc : c.writer = .finishing) :
      Step c { c with t2done := true, writer := .returned }
  | persisterMoves {c : Custody} {p : PersisterAt} (hhand : p.hand = c.persister.hand)
      (hunsynced : p.unsynced = c.persister.unsynced) (hdraining : p.draining =
        c.persister.draining)
      (hcleaning : p.cleaning = c.persister.cleaning) (hp : p ≠ .returned) :
      Step c { c with persister := p }
  | persisterLeaves {c : Custody} (hc : c.persister = .loop) (hdone : c.t2done = true) :
      Step c { c with persister := .drain }
  | persisterGets {c : Custody} {r : ℕ} {l : List ℕ} {p : PersisterAt} (hl : c.toPersist =
      r :: l) (hhand : p.hand = r :: c.persister.hand) (hc : c.persister.unsynced = none)
      (hunsynced : p.unsynced = some r) (hdraining : p.draining = c.persister.draining)
      (hcleaning : p.cleaning = false) :
      Step c { c with toPersist := l, persister := p, claimed := c.claimed ++ [r] }
  | persisterSyncs {c : Custody} {r : ℕ} {p : PersisterAt} (hc : c.persister.unsynced = some r)
      (hhand : p.hand = c.persister.hand) (hunsynced : p.unsynced = none)
      (hdraining : p.draining = c.persister.draining) (hcleaning : p.cleaning = false) :
      Step c { c with
        persister := p
        dirty := Function.update c.dirty r false
        synced := c.synced ++ [r] }
  | persisterGives {c : Custody} {r : ℕ} {p : PersisterAt} (hc : c.persister.hand = [r])
      (hhand : p.hand = []) (hunsynced : p.unsynced = c.persister.unsynced)
      (hdraining : p.draining = c.persister.draining) (hcleaning : p.cleaning = false) :
      Step c { c with toWrite := c.toWrite ++ [r], persister := p }
  | persisterDrained {c : Custody} (hc : c.persister = .drainGet) (hl : c.toPersist = []) :
      Step c { c with persister := .cleanup }
  | cleanupGets {c : Custody} {r : ℕ} {l : List ℕ} (hc : c.persister = .cleanupGet)
      (hl : c.toWrite = r :: l) : Step c { c with toWrite := l, persister := .unmap r }
  | cleanupUnmaps {c : Custody} {r : ℕ} (hc : c.persister = .unmap r) :
      Step c { c with unmapped := c.unmapped ++ [r], persister := .cleanup }
  | cleanupEnds {c : Custody} (hc : c.persister = .cleanupGet) (hl : c.toWrite = []) :
      Step c { c with persister := .returned }

/-- Every region is in exactly one place. -/
def Once (c : Custody) : Prop :=
  ∀ r, c.toWrite.count r + c.writer.hand.count r + c.toPersist.count r + c.persister.hand.count
    r + c.unmapped.count r = if r < memRegions - 1 then 1 else 0

/-- How far the threads have come. -/
structure Phases (c : Custody) : Prop where
  done : c.t2done = true ↔ c.writer = .returned
  draining : c.persister.draining = true → c.t2done = true
  cleaning : c.persister.cleaning = true → c.toPersist = []
  returned : c.persister = .returned → c.toWrite = []

/-- What has been synced. -/
structure Synced (c : Custody) : Prop where
  fresh : ∀ r, c.writer = .copy r → c.dirty r = false
  dirty : ∀ r, c.dirty r = true →
    r ∈ c.writer.hand ∨ r ∈ c.toPersist ∨ c.persister.unsynced = some r
  claimed : c.claimed = c.synced ++ c.persister.unsynced.toList

variable {c c' : Custody}

theorem Once.step (h : Once c) (hstep : Step c c') : Once c' := by
  intro r
  have hr := h r
  cases hstep <;>
    simp_all only [WriterAt.hand, PersisterAt.hand, List.count_append, List.count_cons,
      List.count_nil] <;>
    omega

/-- The writer has ended if the persister has left its first loop. -/
theorem Phases.writer_returned (h : Phases c) (hdraining : c.persister.draining = true) :
    c.writer = .returned :=
  h.done.1 (h.draining hdraining)

theorem ne_returned_of_hand {w : WriterAt} {r : ℕ} (h : w.hand = [r]) : w ≠ .returned := by
  rintro rfl
  cases h

/-- What the persister does before it cleans up. -/
theorem Phases.early (h : Phases c) (hw : c'.writer = c.writer) (hdone : c'.t2done = c.t2done)
    (hdraining : c'.persister.draining = c.persister.draining)
    (hcleaning : c'.persister.cleaning = false) : Phases c' := by
  refine ⟨by rw [hw, hdone]; exact h.done, fun hp => ?_, fun hp => ?_, fun hp => ?_⟩
  · rw [hdone]
    exact h.draining (hdraining ▸ hp)
  · exact absurd (hcleaning.symm.trans hp) Bool.false_ne_true
  · rw [hp] at hcleaning
    cases hcleaning

/-- What the persister does when it cleans up. -/
theorem Phases.late (h : Phases c) (hw : c'.writer = c.writer) (hdone : c'.t2done = c.t2done)
    (hdraining : c.persister.draining = true) (hl : c'.toPersist = [])
    (hreturned : c'.persister = .returned → c'.toWrite = []) : Phases c' := by
  refine ⟨by rw [hw, hdone]; exact h.done, fun _ => ?_, fun _ => hl, hreturned⟩
  rw [hdone]
  exact h.draining hdraining

theorem Phases.step (h : Phases c) (hstep : Step c c') : Phases c' := by
  have hdone := h.done
  cases hstep with
  | writerMoves hhand hcopy hw hc =>
    exact ⟨by simp_all, h.draining, h.cleaning, h.returned⟩
  | writerGets hc hl =>
    refine ⟨by simp_all, h.draining, h.cleaning, fun hp => ?_⟩
    rw [h.returned hp] at hl
    cases hl
  | writerCopies hc hhand hcopy =>
    have hne := ne_returned_of_hand hc
    have hne' := ne_returned_of_hand hhand
    exact ⟨by simp_all, h.draining, h.cleaning, h.returned⟩
  | writerGives hc hhand hcopy hw =>
    -- the persister is still in one of its first loops
    have hne := ne_returned_of_hand hc
    refine ⟨by simp_all, h.draining, fun hp => ?_, h.returned⟩
    exact absurd (h.writer_returned (PersisterAt.draining_of_cleaning hp)) hne
  | writerEnds hc => exact ⟨by simp, fun _ => rfl, h.cleaning, h.returned⟩
  | persisterMoves hhand hunsynced hdraining hcleaning hp =>
    exact ⟨hdone, fun hp => h.draining (hdraining ▸ hp),
      fun hp => h.cleaning (hcleaning ▸ hp), fun hp' => absurd hp' hp⟩
  | persisterLeaves hc hdone' =>
    exact ⟨hdone, fun _ => hdone', fun hp => (by cases hp), fun hp => (by cases hp)⟩
  | persisterGets hl hhand hc hunsynced hdraining hcleaning =>
    exact h.early rfl rfl hdraining hcleaning
  | persisterSyncs hc hhand hunsynced hdraining hcleaning =>
    exact h.early rfl rfl hdraining hcleaning
  | persisterGives hc hhand hunsynced hdraining hcleaning =>
    exact h.early rfl rfl hdraining hcleaning
  | persisterDrained hc hl => exact h.late rfl rfl (by rw [hc]; rfl) hl fun hp => by cases hp
  | cleanupGets hc hl =>
    exact h.late rfl rfl (by rw [hc]; rfl) (h.cleaning (by rw [hc]; rfl)) fun hp => by cases hp
  | cleanupUnmaps hc =>
    exact h.late rfl rfl (by rw [hc]; rfl) (h.cleaning (by rw [hc]; rfl)) fun hp => by cases hp
  | cleanupEnds hc hl =>
    exact h.late rfl rfl (by rw [hc]; rfl) (h.cleaning (by rw [hc]; rfl)) fun _ => hl

/-- A region in `rb_write` has no trades that have not been synced, while the writer can get it. -/
theorem Synced.clean (h : Synced c) (honce : Once c) (hphases : Phases c) {r : ℕ}
    (hr : r ∈ c.toWrite) (hw : c.writer ≠ .returned) : c.dirty r = false := by
  by_contra hdirty
  have hcount := honce r
  have hmem := List.count_pos_iff.2 hr
  have hle : (if r < memRegions - 1 then 1 else 0) ≤ 1 := by split_ifs <;> omega
  rcases h.dirty r (by simpa using hdirty) with hhand | hpersist | hunsynced
  · have := List.count_pos_iff.2 hhand
    omega
  · have := List.count_pos_iff.2 hpersist
    omega
  · rcases PersisterAt.mem_hand hunsynced with hhand | hdraining
    · have := List.count_pos_iff.2 hhand
      omega
    · exact hw (hphases.writer_returned hdraining)

/-- What the persister does with regions it has synced. -/
theorem Synced.same (h : Synced c) (hw : c'.writer = c.writer) (hdirty : c'.dirty = c.dirty)
    (hl : c'.toPersist = c.toPersist) (hclaimed : c'.claimed = c.claimed)
    (hsynced : c'.synced = c.synced) (hunsynced : c'.persister.unsynced = c.persister.unsynced) :
    Synced c' := by
  refine ⟨fun r hr => ?_, fun r hr => ?_, ?_⟩
  · rw [hdirty]
    exact h.fresh r (hw ▸ hr)
  · rw [hw, hl, hunsynced]
    exact h.dirty r (hdirty ▸ hr)
  · rw [hclaimed, hsynced, hunsynced]
    exact h.claimed

theorem Synced.step (h : Synced c) (honce : Once c) (hphases : Phases c) (hstep : Step c c') :
    Synced c' := by
  cases hstep with
  | writerMoves hhand hcopy hw hc =>
    exact ⟨fun r hr => absurd hr (hcopy r),
      fun r hr => by rw [hhand]; exact h.dirty r hr, h.claimed⟩
  | writerGets hc hl =>
    refine ⟨fun r hr => ?_, fun r hr => ?_, h.claimed⟩
    · cases hr
      exact h.clean honce hphases (by rw [hl]; exact List.mem_cons_self) (by rw [hc]; simp)
    · have hold := h.dirty r hr
      rw [hc] at hold
      exact Or.inr (hold.resolve_left List.not_mem_nil)
  | @writerCopies region w hc hhand hcopy =>
    refine ⟨fun r hr => absurd hr (hcopy r), fun r hr => ?_, h.claimed⟩
    rw [hhand]
    rcases eq_or_ne r region with rfl | hne
    · exact Or.inl (List.mem_singleton_self r)
    · simp only [Function.update_of_ne hne] at hr
      exact hc ▸ h.dirty r hr
  | writerGives hc hhand hcopy hw =>
    refine ⟨fun r hr => absurd hr (hcopy r), fun r hr => Or.inr ?_, h.claimed⟩
    have hold := h.dirty r hr
    rw [hc] at hold
    rcases hold with hmem | hmem | hmem
    · exact Or.inl (List.mem_append_right _ hmem)
    · exact Or.inl (List.mem_append_left _ hmem)
    · exact Or.inr hmem
  | writerEnds hc =>
    refine ⟨fun r hr => (by cases hr), fun r hr => ?_, h.claimed⟩
    have hold := h.dirty r hr
    rwa [hc] at hold
  | @persisterGets region l p hl hhand hc hunsynced hdraining hcleaning =>
    have hold := h.claimed
    rw [hc, Option.toList_none, List.append_nil] at hold
    refine ⟨h.fresh, fun r hr => ?_, by rw [hunsynced, hold]; rfl⟩
    have hdirty := h.dirty r hr
    rw [hl, hc] at hdirty
    rw [hunsynced]
    rcases hdirty with hmem | hmem | hmem
    · exact Or.inl hmem
    · rcases List.mem_cons.1 hmem with rfl | hmem
      · exact Or.inr (Or.inr rfl)
      · exact Or.inr (Or.inl hmem)
    · cases hmem
  | @persisterSyncs region p hc hhand hunsynced hdraining hcleaning =>
    have hold := h.claimed
    rw [hc] at hold
    refine ⟨fun r hr => ?_, fun r hr => ?_, ?_⟩
    · rcases eq_or_ne r region with rfl | hne
      · exact Function.update_self ..
      · exact (Function.update_of_ne hne ..).trans (h.fresh r hr)
    · rcases eq_or_ne r region with rfl | hne
      · simp only [Function.update_self] at hr
        cases hr
      · simp only [Function.update_of_ne hne] at hr
        rcases h.dirty r hr with hmem | hmem | hmem
        · exact Or.inl hmem
        · exact Or.inr (Or.inl hmem)
        · rw [hc] at hmem
          exact absurd (Option.some.inj hmem).symm hne
    · rw [hunsynced, Option.toList_none, List.append_nil]
      exact hold
  | persisterMoves hhand hunsynced hdraining hcleaning hp =>
    exact h.same rfl rfl rfl rfl rfl hunsynced
  | persisterGives hc hhand hunsynced hdraining hcleaning =>
    exact h.same rfl rfl rfl rfl rfl hunsynced
  | persisterLeaves hc hdone => exact h.same rfl rfl rfl rfl rfl (by rw [hc]; rfl)
  | persisterDrained hc hl => exact h.same rfl rfl rfl rfl rfl (by rw [hc]; rfl)
  | cleanupGets hc hl => exact h.same rfl rfl rfl rfl rfl (by rw [hc]; rfl)
  | cleanupUnmaps hc => exact h.same rfl rfl rfl rfl rfl (by rw [hc]; rfl)
  | cleanupEnds hc hl => exact h.same rfl rfl rfl rfl rfl (by rw [hc]; rfl)

/-- What holds of the regions in every state. -/
structure Safe (c : Custody) : Prop where
  once : Once c
  phases : Phases c
  synced : Synced c

theorem Safe.step (h : Safe c) (hstep : Step c c') : Safe c' :=
  ⟨h.once.step hstep, h.phases.step hstep, h.synced.step h.once h.phases hstep⟩

/-- As many regions as there are, each at most once, are at most as many. -/
theorem length_le_of_count {l : List ℕ} {m : ℕ}
    (h : ∀ r, l.count r ≤ if r < m then 1 else 0) : l.length ≤ m := by
  have hnodup : l.Nodup := List.nodup_iff_count_le_one.2 fun r => (h r).trans
    (by split_ifs <;> omega)
  have hsub : l ⊆ List.range m := fun r hr => by
    have hpos := List.count_pos_iff.2 hr
    have hle := h r
    rw [List.mem_range]
    split_ifs at hle with hlt
    · exact hlt
    · omega
  simpa using (List.subperm_of_subset hnodup hsub).length_le

/-- Next to a region in the writer's hand, the others leave room in `rb_persist`. -/
theorem Once.room_persist (h : Once c) {r : ℕ} (hc : c.writer.hand = [r]) :
    c.toPersist.length + 1 < memRegions := by
  have hle : (r :: c.toPersist).length ≤ memRegions - 1 := length_le_of_count fun x => by
    have hx := h x
    rw [hc] at hx
    rw [← hx]
    simp only [List.count_cons, List.count_nil]
    omega
  exact Nat.lt_of_le_of_lt hle (by decide)

/-- Next to a region in the persister's hand, the others leave room in `rb_write`. -/
theorem Once.room_write (h : Once c) {r : ℕ} (hc : c.persister.hand = [r]) :
    c.toWrite.length + 1 < memRegions := by
  have hle : (r :: c.toWrite).length ≤ memRegions - 1 := length_le_of_count fun x => by
    have hx := h x
    rw [hc] at hx
    rw [← hx]
    simp only [List.count_cons, List.count_nil]
    omega
  exact Nat.lt_of_le_of_lt hle (by decide)

end Custody

/-! ## The threads keep custody -/

open QueueThreads

namespace RegionThreads

/-- What the queues hold and where the threads are. -/
def custody (st : RegionThreads) : Custody where
  toWrite := st.rbWrite.waiting
  toPersist := st.rbPersist.waiting
  claimed := st.rbPersist.popped
  writer := st.writer
  persister := st.persister
  t2done := st.t2done
  dirty := st.dirty
  synced := st.synced
  unmapped := st.unmapped

/-- The queues work, and never refuse a region. -/
structure Queues (st : RegionThreads) : Prop where
  write : st.rbWrite.Sound regionIndexing memRegions fun k => k % 2 ^ 64
  writeRoomy : st.rbWrite.Roomy memRegions fun k => k % 2 ^ 64
  givingBack : st.rbWrite.producer.item = st.persister.giving
  persist : st.rbPersist.Sound regionIndexing memRegions fun k => k % 2 ^ 64
  persistRoomy : st.rbPersist.Roomy memRegions fun k => k % 2 ^ 64
  giving : st.rbPersist.producer.item = st.writer.giving
  taken : st.refused = []

/-- The queues are sound, and every region is where it should be. -/
structure Owned (st : RegionThreads) : Prop where
  queues : Queues st
  safe : st.custody.Safe

variable {st st' : RegionThreads} {q : QueueThreads ℕ} {region : ℕ}

theorem counts : Counts regionIndexing memRegions fun k => k % 2 ^ 64 :=
  SpscQueue.counts (by decide)

theorem Owned.of_step (h : Owned st) (hqueues : Queues st')
    (hstep : Custody.Step st.custody st'.custody) : Owned st' :=
  ⟨hqueues, h.safe.step hstep⟩

/-- A step within a call on `rb_write`. -/
theorem Owned.withWrite (h : Owned st)
    (hsound : q.Sound regionIndexing memRegions fun k => k % 2 ^ 64)
    (hroomy : q.Roomy memRegions fun k => k % 2 ^ 64)
    (hitem : q.producer.item = st.rbWrite.producer.item)
    (hwaiting : q.waiting = st.rbWrite.waiting) : Owned { st with rbWrite := q } := by
  refine ⟨{ h.queues with
    write := hsound, writeRoomy := hroomy, givingBack := hitem.trans h.queues.givingBack }, ?_⟩
  have hc : custody { st with rbWrite := q } = st.custody := by
    simp only [custody, hwaiting]
  rw [hc]
  exact h.safe

/-- A step within a call on `rb_persist`. -/
theorem Owned.withPersist (h : Owned st)
    (hsound : q.Sound regionIndexing memRegions fun k => k % 2 ^ 64)
    (hroomy : q.Roomy memRegions fun k => k % 2 ^ 64)
    (hitem : q.producer.item = st.rbPersist.producer.item)
    (hwaiting : q.waiting = st.rbPersist.waiting) (hpopped : q.popped = st.rbPersist.popped) :
    Owned { st with rbPersist := q } := by
  refine ⟨{ h.queues with
    persist := hsound, persistRoomy := hroomy, giving := hitem.trans h.queues.giving }, ?_⟩
  have hc : custody { st with rbPersist := q } = st.custody := by
    simp only [custody, hwaiting, hpopped]
  rw [hc]
  exact h.safe

/-! ### The writer -/

/-- The writer is between its calls. -/
theorem Owned.writerMoves (h : Owned st) {w : WriterAt} (hhand : w.hand = st.writer.hand)
    (hgiving : w.giving = st.writer.giving) (hcopy : ∀ r, w ≠ .copy r) (hw : w ≠ .returned)
    (hc : st.writer ≠ .returned) : Owned { st with writer := w } :=
  h.of_step { h.queues with giving := h.queues.giving.trans hgiving.symm }
    (.writerMoves hhand hcopy hw hc)

theorem Owned.copyTrade (h : Owned st) (hhand : st.writer.hand = [region])
    (hgiving : st.writer.giving = none) : Owned (st.copyTrade region) := by
  refine h.of_step { h.queues with giving := h.queues.giving.trans ?_ }
    (.writerCopies (c := st.custody) hhand ?_ ?_)
  · rw [hgiving]
    unfold RegionThreads.copyTrade
    dsimp only
    split_ifs <;> rfl
  · unfold RegionThreads.copyTrade
    dsimp only
    split_ifs <;> rfl
  · intro r
    unfold RegionThreads.copyTrade
    dsimp only
    split_ifs <;> simp

theorem Owned.writerGet (h : Owned st) (hpc : st.writer = .get)
    (hq : st.rbWrite.consume regionIndexing = some q) : Owned (st.writerGet q) := by
  have hsound := h.queues.write.consume counts hq
  obtain ⟨hacc, hproducer⟩ := consume_same hq
  have hroomy := h.queues.writeRoomy.of_same hproducer hacc
  have hitem : q.producer.item = st.rbWrite.producer.item := by rw [hproducer]
  unfold RegionThreads.writerGet
  rcases h.queues.write.consume_cases counts hq with
    ⟨hres, hwaiting, -⟩ | ⟨hres, -, hwaiting, -⟩ | ⟨r, hres, hwaiting, -⟩
  all_goals rw [hres]
  · exact h.withWrite hsound hroomy hitem hwaiting
  · exact (h.withWrite hsound hroomy hitem hwaiting).writerMoves (by rw [hpc]; rfl)
      (by rw [hpc]; rfl) (by simp) (by simp) (by rw [hpc]; simp)
  · refine h.of_step { h.queues with
      write := hsound, writeRoomy := hroomy, givingBack := hitem.trans h.queues.givingBack
      giving := h.queues.giving.trans (by rw [hpc]; rfl) } ?_
    exact .writerGets (c := st.custody) hpc hwaiting

/-- The writer calls `give_region`. -/
theorem Owned.writerCalls (h : Owned st) (hhand : st.writer.hand = [region]) {next : WriterAt}
    (hnext : next.hand = [region]) (hgiving : next.giving = some region)
    (hcopy : ∀ r, next ≠ .copy r) (hq : st.rbPersist.callPush region = some q) :
    Owned { st with rbPersist := q, writer := next } := by
  have hsound := h.queues.persist.callPush hq
  obtain rfl := callPush_eq hq
  refine h.of_step { h.queues with
    persist := hsound, persistRoomy := roomy_called rfl, giving := hgiving.symm } ?_
  exact .writerMoves (c := st.custody) (hnext.trans hhand.symm) hcopy
    (Custody.ne_returned_of_hand hnext) (Custody.ne_returned_of_hand hhand)

theorem Owned.writerGive (h : Owned st) (hhand : st.writer.hand = [region])
    (hgiving : st.writer.giving = some region) {next : WriterAt} (hnext : next.hand = [])
    (hnone : next.giving = none) (hcopy : ∀ r, next ≠ .copy r) (hw : next ≠ .returned)
    (hq : st.rbPersist.produce regionIndexing = some q) : Owned (st.writerGive region next q) := by
  have hsound := h.queues.persist.produce counts hq
  have hitem := h.queues.giving.trans hgiving
  obtain ⟨hroomy, hpopped, -, hcases⟩ := h.queues.persist.produce_roomy counts rfl
    h.queues.persistRoomy hitem (h.safe.once.room_persist hhand) hq
  unfold RegionThreads.writerGive
  rcases hcases with ⟨hres, hitem', hacc⟩ | ⟨hres, hacc⟩
  · rw [hres]
    refine h.withPersist hsound hroomy (hitem'.trans hitem.symm) ?_ hpopped
    rw [waiting, waiting, hacc, hpopped]
  · have hwaiting : q.waiting = st.rbPersist.waiting ++ [region] :=
      waiting_eq (by rw [hacc, h.queues.persist.accepted_eq, List.append_assoc]) hpopped
    have hstep := Custody.Step.writerGives (c := st.custody) hhand hnext hcopy hw
    rw [show q.producer.result? = some true by rw [hres]; rfl]
    refine h.of_step { h.queues with
      persist := hsound, persistRoomy := hroomy, giving := by rw [hres, hnone]; rfl } ?_
    simpa only [custody, hwaiting, hpopped] using hstep

theorem Owned.writerStep (h : Owned st) (hstep : st.writerStep = some st') : Owned st' := by
  unfold RegionThreads.writerStep at hstep
  split at hstep
  next memRegion hpc =>
    split_ifs at hstep
    · split at hstep
      next region =>
        cases hstep
        exact h.copyTrade (by rw [hpc]; rfl) (by rw [hpc]; rfl)
      next =>
        obtain ⟨q, hq, rfl⟩ := Option.map_eq_some_iff.1 hstep
        have hsound := h.queues.write.callPop hq
        obtain rfl := callPop_eq hq
        exact (h.withWrite hsound (h.queues.writeRoomy.of_same rfl rfl) rfl rfl).writerMoves
          (by rw [hpc]; rfl) (by rw [hpc]; rfl) (by simp) (by simp) (by rw [hpc]; simp)
    · cases hstep
      exact h.writerMoves (by rw [hpc]; rfl) (by rw [hpc]; rfl) (by simp) (by simp)
        (by rw [hpc]; simp)
  next hpc =>
    obtain ⟨q, hq, rfl⟩ := Option.map_eq_some_iff.1 hstep
    exact h.writerGet hpc hq
  next region hpc =>
    cases hstep
    exact h.copyTrade (by rw [hpc]; rfl) (by rw [hpc]; rfl)
  next region hpc =>
    obtain ⟨q, hq, rfl⟩ := Option.map_eq_some_iff.1 hstep
    exact h.writerCalls (by rw [hpc]; rfl) rfl rfl (by simp) hq
  next region hpc =>
    obtain ⟨q, hq, rfl⟩ := Option.map_eq_some_iff.1 hstep
    exact h.writerGive (by rw [hpc]; rfl) (by rw [hpc]; rfl) rfl rfl (by simp) (by simp) hq
  next memRegion hpc =>
    split at hstep
    next region =>
      obtain ⟨q, hq, rfl⟩ := Option.map_eq_some_iff.1 hstep
      exact h.writerCalls (by rw [hpc]; rfl) rfl rfl (by simp) hq
    next =>
      cases hstep
      exact h.writerMoves (by rw [hpc]; rfl) (by rw [hpc]; rfl) (by simp) (by simp)
        (by rw [hpc]; simp)
  next region hpc =>
    obtain ⟨q, hq, rfl⟩ := Option.map_eq_some_iff.1 hstep
    exact h.writerGive (by rw [hpc]; rfl) (by rw [hpc]; rfl) rfl rfl (by simp) (by simp) hq
  next hpc =>
    cases hstep
    exact h.of_step { h.queues with giving := h.queues.giving.trans (by rw [hpc]; rfl) }
      (.writerEnds (c := st.custody) hpc)
  next => cases hstep

/-! ### The persister -/

/-- The persister is between its calls. -/
theorem Owned.persisterMoves (h : Owned st) {p : PersisterAt} (hhand : p.hand = st.persister.hand)
    (hgiving : p.giving = st.persister.giving) (hunsynced : p.unsynced = st.persister.unsynced)
    (hdraining : p.draining = st.persister.draining)
    (hcleaning : p.cleaning = st.persister.cleaning)
    (hp : p ≠ .returned) : Owned { st with persister := p } :=
  h.of_step { h.queues with givingBack := h.queues.givingBack.trans hgiving.symm }
    (.persisterMoves hhand hunsynced hdraining hcleaning hp)

/-- The persister calls `get_region` of `rb_persist`. -/
theorem Owned.persisterCallsGet (h : Owned st) {p : PersisterAt}
    (hhand : p.hand = st.persister.hand) (hgiving : p.giving = st.persister.giving)
    (hunsynced : p.unsynced = st.persister.unsynced)
    (hdraining : p.draining = st.persister.draining)
    (hcleaning : p.cleaning = st.persister.cleaning)
    (hp : p ≠ .returned) (hq : st.rbPersist.callPop = some q) :
    Owned { st with rbPersist := q, persister := p } := by
  have hsound := h.queues.persist.callPop hq
  obtain rfl := callPop_eq hq
  exact (h.withPersist hsound (h.queues.persistRoomy.of_same rfl rfl) rfl rfl rfl).persisterMoves
    hhand hgiving hunsynced hdraining hcleaning hp

theorem Owned.persisterGet (h : Owned st) {found : ℕ → PersisterAt} {empty : PersisterAt}
    (hhand : st.persister.hand = []) (hgiving : st.persister.giving = none)
    (hunsynced : st.persister.unsynced = none) (hfound : ∀ r, (found r).hand = [r] ∧
      (found r).giving = none ∧ (found r).unsynced = some r ∧
      (found r).draining = st.persister.draining ∧ (found r).cleaning = false)
    (hempty : empty.giving = none ∧ ∀ c : Custody, c.persister = st.persister →
      c.toPersist = [] → Custody.Step c { c with persister := empty })
    (hq : st.rbPersist.consume regionIndexing = some q) :
    Owned (st.persisterGet found empty q) := by
  have hsound := h.queues.persist.consume counts hq
  obtain ⟨hacc, hproducer⟩ := consume_same hq
  have hroomy := h.queues.persistRoomy.of_same hproducer hacc
  have hitem : q.producer.item = st.rbPersist.producer.item := by rw [hproducer]
  unfold RegionThreads.persisterGet
  rcases h.queues.persist.consume_cases counts hq with ⟨hres, hwaiting, hpopped⟩ |
      ⟨hres, hnone, hwaiting, hpopped⟩ | ⟨r, hres, hwaiting, hpopped⟩
  all_goals rw [hres]
  · exact h.withPersist hsound hroomy hitem hwaiting hpopped
  · have h' := h.withPersist hsound hroomy hitem hwaiting hpopped
    refine h'.of_step { h'.queues with
      givingBack := h.queues.givingBack.trans (hgiving.trans hempty.1.symm) } ?_
    exact hempty.2 (custody { st with rbPersist := q }) rfl (hwaiting.trans hnone)
  · obtain ⟨hhand', hgiving', hunsynced', hdraining', hcleaning'⟩ := hfound r
    refine h.of_step { h.queues with
      persist := hsound, persistRoomy := hroomy, giving := hitem.trans h.queues.giving
      givingBack := h.queues.givingBack.trans (hgiving.trans hgiving'.symm) } ?_
    have hstep := Custody.Step.persisterGets (c := st.custody) (p := found r) hwaiting
      (hhand'.trans (by rw [show st.custody.persister = st.persister from rfl, hhand])) hunsynced
      hunsynced' hdraining' hcleaning'
    simpa only [custody, hpopped] using hstep

theorem Owned.msync (h : Owned st) (hunsynced : st.persister.unsynced = some region)
    {p : PersisterAt} (hhand : p.hand = st.persister.hand)
    (hgiving : p.giving = st.persister.giving) (hnone : p.unsynced = none)
    (hdraining : p.draining = st.persister.draining)
    (hcleaning : p.cleaning = false) : Owned { st.msync region with persister := p } :=
  h.of_step { h.queues with givingBack := h.queues.givingBack.trans hgiving.symm }
    (.persisterSyncs (c := st.custody) hunsynced hhand hnone hdraining hcleaning)

/-- The persister calls `give_region`. -/
theorem Owned.persisterCalls (h : Owned st) {p : PersisterAt} (hhand : p.hand = st.persister.hand)
    (hgiving : p.giving = some region) (hunsynced : p.unsynced = st.persister.unsynced)
    (hdraining : p.draining = st.persister.draining)
    (hcleaning : p.cleaning = st.persister.cleaning)
    (hp : p ≠ .returned) (hq : st.rbWrite.callPush region = some q) :
    Owned { st with rbWrite := q, persister := p } := by
  have hsound := h.queues.write.callPush hq
  obtain rfl := callPush_eq hq
  exact h.of_step { h.queues with
    write := hsound, writeRoomy := roomy_called rfl, givingBack := hgiving.symm }
    (.persisterMoves (c := st.custody) hhand hunsynced hdraining hcleaning hp)

theorem Owned.persisterGive (h : Owned st) (hhand : st.persister.hand = [region])
    (hgiving : st.persister.giving = some region) {next : PersisterAt} (hnext : next.hand = [])
    (hnone : next.giving = none) (hunsynced : next.unsynced = st.persister.unsynced)
    (hdraining : next.draining = st.persister.draining) (hcleaning : next.cleaning = false)
    (hq : st.rbWrite.produce regionIndexing = some q) :
    Owned (st.persisterGive region next q) := by
  have hsound := h.queues.write.produce counts hq
  have hitem := h.queues.givingBack.trans hgiving
  obtain ⟨hroomy, hpopped, -, hcases⟩ := h.queues.write.produce_roomy counts rfl
    h.queues.writeRoomy hitem (h.safe.once.room_write hhand) hq
  unfold RegionThreads.persisterGive
  rcases hcases with ⟨hres, hitem', hacc⟩ | ⟨hres, hacc⟩
  · rw [hres]
    refine h.withWrite hsound hroomy (hitem'.trans hitem.symm) ?_
    rw [waiting, waiting, hacc, hpopped]
  · have hwaiting : q.waiting = st.rbWrite.waiting ++ [region] :=
      waiting_eq (by rw [hacc, h.queues.write.accepted_eq, List.append_assoc]) hpopped
    have hstep := Custody.Step.persisterGives (c := st.custody) hhand hnext hunsynced hdraining
      hcleaning
    rw [show q.producer.result? = some true by rw [hres]; rfl]
    refine h.of_step { h.queues with
      write := hsound, writeRoomy := hroomy, givingBack := by rw [hres, hnone]; rfl } ?_
    simpa only [custody, hwaiting] using hstep

theorem Owned.cleanupGet (h : Owned st) (hpc : st.persister = .cleanupGet)
    (hq : st.rbWrite.consume regionIndexing = some q) : Owned (st.cleanupGet q) := by
  have hsound := h.queues.write.consume counts hq
  obtain ⟨hacc, hproducer⟩ := consume_same hq
  have hroomy := h.queues.writeRoomy.of_same hproducer hacc
  have hitem : q.producer.item = st.rbWrite.producer.item := by rw [hproducer]
  have hnone : q.producer.item = none := by
    rw [hitem, h.queues.givingBack, hpc]
    rfl
  unfold RegionThreads.cleanupGet
  rcases h.queues.write.consume_cases counts hq with
    ⟨hres, hwaiting, -⟩ | ⟨hres, hnil, hwaiting, -⟩ | ⟨r, hres, hwaiting, -⟩
  all_goals rw [hres]
  · exact h.withWrite hsound hroomy hitem hwaiting
  · have h' := h.withWrite hsound hroomy hitem hwaiting
    exact h'.of_step { h'.queues with givingBack := hnone }
      (.cleanupEnds (c := custody { st with rbWrite := q }) hpc (hwaiting.trans hnil))
  · exact h.of_step { h.queues with write := hsound, writeRoomy := hroomy, givingBack := hnone }
      (.cleanupGets (c := st.custody) hpc hwaiting)

theorem Owned.persisterStep (h : Owned st) (hstep : st.persisterStep = some st') : Owned st' := by
  unfold RegionThreads.persisterStep at hstep
  split at hstep
  next hpc =>
    split_ifs at hstep with hdone
    · cases hstep
      exact h.of_step { h.queues with givingBack := h.queues.givingBack.trans (by rw [hpc]; rfl) }
        (.persisterLeaves (c := st.custody) hpc hdone)
    · obtain ⟨q, hq, rfl⟩ := Option.map_eq_some_iff.1 hstep
      exact h.persisterCallsGet (by rw [hpc]; rfl) (by rw [hpc]; rfl) (by rw [hpc]; rfl)
        (by rw [hpc]; rfl) (by rw [hpc]; rfl) (by simp) hq
  next hpc =>
    obtain ⟨q, hq, rfl⟩ := Option.map_eq_some_iff.1 hstep
    refine h.persisterGet (by rw [hpc]; rfl) (by rw [hpc]; rfl) (by rw [hpc]; rfl)
      (fun r => ⟨rfl, rfl, rfl, by rw [hpc]; rfl, rfl⟩) ⟨rfl, fun c hc _ => ?_⟩ hq
    rw [hpc] at hc
    exact .persisterMoves (by rw [hc]; rfl) (by rw [hc]; rfl) (by rw [hc]; rfl) (by rw [hc]; rfl)
      (by simp)
  next region hpc =>
    cases hstep
    exact h.msync (by rw [hpc]; rfl) (by rw [hpc]; rfl) (by rw [hpc]; rfl) rfl (by rw [hpc]; rfl)
      rfl
  next region hpc =>
    obtain ⟨q, hq, rfl⟩ := Option.map_eq_some_iff.1 hstep
    exact h.persisterCalls (by rw [hpc]; rfl) rfl (by rw [hpc]; rfl) (by rw [hpc]; rfl)
      (by rw [hpc]; rfl) (by simp) hq
  next region hpc =>
    obtain ⟨q, hq, rfl⟩ := Option.map_eq_some_iff.1 hstep
    exact h.persisterGive (by rw [hpc]; rfl) (by rw [hpc]; rfl) rfl rfl (by rw [hpc]; rfl)
      (by rw [hpc]; rfl) rfl hq
  next hpc =>
    obtain ⟨q, hq, rfl⟩ := Option.map_eq_some_iff.1 hstep
    exact h.persisterCallsGet (by rw [hpc]; rfl) (by rw [hpc]; rfl) (by rw [hpc]; rfl)
      (by rw [hpc]; rfl) (by rw [hpc]; rfl) (by simp) hq
  next hpc =>
    obtain ⟨q, hq, rfl⟩ := Option.map_eq_some_iff.1 hstep
    exact h.persisterGet (by rw [hpc]; rfl) (by rw [hpc]; rfl) (by rw [hpc]; rfl)
      (fun r => ⟨rfl, rfl, rfl, by rw [hpc]; rfl, rfl⟩)
      ⟨rfl, fun c hc hnil => .persisterDrained (hc.trans hpc) hnil⟩ hq
  next region hpc =>
    obtain ⟨q, hq, rfl⟩ := Option.map_eq_some_iff.1 hstep
    exact h.persisterCalls (by rw [hpc]; rfl) rfl (by rw [hpc]; rfl) (by rw [hpc]; rfl)
      (by rw [hpc]; rfl) (by simp) hq
  next region hpc =>
    obtain ⟨q, hq, rfl⟩ := Option.map_eq_some_iff.1 hstep
    exact h.persisterGive (by rw [hpc]; rfl) (by rw [hpc]; rfl) rfl rfl (by rw [hpc]; rfl)
      (by rw [hpc]; rfl) rfl hq
  next region hpc =>
    cases hstep
    exact h.msync (by rw [hpc]; rfl) (by rw [hpc]; rfl) (by rw [hpc]; rfl) rfl (by rw [hpc]; rfl)
      rfl
  next hpc =>
    obtain ⟨q, hq, rfl⟩ := Option.map_eq_some_iff.1 hstep
    have hsound := h.queues.write.callPop hq
    obtain rfl := callPop_eq hq
    exact (h.withWrite hsound (h.queues.writeRoomy.of_same rfl rfl) rfl rfl).persisterMoves
      (by rw [hpc]; rfl) (by rw [hpc]; rfl) (by rw [hpc]; rfl) (by rw [hpc]; rfl) (by rw [hpc]; rfl)
      (by simp)
  next hpc =>
    obtain ⟨q, hq, rfl⟩ := Option.map_eq_some_iff.1 hstep
    exact h.cleanupGet hpc hq
  next region hpc =>
    cases hstep
    exact h.of_step { h.queues with givingBack := h.queues.givingBack.trans (by rw [hpc]; rfl) }
      (.cleanupUnmaps (c := st.custody) hpc)
  next => cases hstep

/-! ## Whole runs -/

theorem Owned.step (h : Owned st) (thread : Thread) : Owned (st.step thread) := by
  cases thread with
  | writer =>
    rw [RegionThreads.step]
    cases hstep : st.writerStep with
    | none => exact h
    | some st' => exact h.writerStep hstep
  | persister =>
    rw [RegionThreads.step]
    cases hstep : st.persisterStep with
    | none => exact h
    | some st' => exact h.persisterStep hstep

theorem Owned.run : ∀ (schedule : List Thread) {st : RegionThreads}, Owned st →
    Owned (st.run schedule)
  | [], _, h => h
  | thread :: schedule, _, h => Owned.run schedule (h.step thread)

theorem head_allRegions (array : ℕ → ℕ) : (allRegions array).head = 0 := by
  unfold allRegions
  exact SpscQueue.head_foldl_push _ _

theorem queues_init (array array' : ℕ → ℕ) : Queues (init array array') where
  write := by
    have hhead := head_allRegions array
    obtain ⟨hslots, htail⟩ := (allRegions_holds array).slots_zero hhead
    exact ⟨⟨List.range (memRegions - 1), rfl, hslots⟩, hhead, htail, trivial, trivial⟩
  writeRoomy _ _ hloaded := by cases hloaded
  givingBack := rfl
  persist := sound_init counts array'
  persistRoomy _ _ hloaded := by cases hloaded
  giving := rfl
  taken := rfl

theorem safe_init (array array' : ℕ → ℕ) : (init array array').custody.Safe where
  once _ := List.count_range
  phases := ⟨by simp [custody, init], fun h => (by cases h), fun h => (by cases h),
    fun h => (by cases h)⟩
  synced := ⟨fun _ h => (by cases h), fun _ h => (by cases h), rfl⟩

/-- In every order of the steps each region is in exactly one place, `give_region` takes every
region, and the writer gets no region with trades that have not been through `msync`. When
`persistenceThread` has returned, what the writer has handed over has been through `msync` and
every region has been unmapped once. -/
theorem persist_before_reuse (array array' : ℕ → ℕ) (schedule : List Thread) :
    (∀ region < memRegions - 1, ((init array array').run schedule).places region = 1) ∧
    ((init array array').run schedule).refused = [] ∧
    (∀ region, ((init array array').run schedule).writer = .copy region →
      ((init array array').run schedule).dirty region = false) ∧
    (((init array array').run schedule).persister = .returned →
      ((init array array').run schedule).synced =
        ((init array array').run schedule).rbPersist.accepted ∧
      (∀ region, ((init array array').run schedule).dirty region = false) ∧
      ((init array array').run schedule).unmapped.Perm (List.range (memRegions - 1))) := by
  have h : Owned ((init array array').run schedule) :=
    Owned.run schedule ⟨queues_init array array', safe_init array array'⟩
  generalize (init array array').run schedule = st at h
  have honce : ∀ region, st.places region = if region < memRegions - 1 then 1 else 0 :=
    h.safe.once
  refine ⟨fun region hlt => (honce region).trans (if_pos hlt), h.queues.taken,
    h.safe.synced.fresh, fun hpc => ?_⟩
  have hwriter : st.writer = .returned :=
    h.safe.phases.writer_returned (by rw [show st.custody.persister = _ from hpc]; rfl)
  have hwrite : st.rbWrite.waiting = [] := h.safe.phases.returned hpc
  have hpersist : st.rbPersist.waiting = [] :=
    h.safe.phases.cleaning (by rw [show st.custody.persister = _ from hpc]; rfl)
  have hclaimed : st.rbPersist.popped = st.synced ++ st.persister.unsynced.toList :=
    h.safe.synced.claimed
  refine ⟨?_, fun region => ?_, List.perm_iff_count.2 fun region => ?_⟩
  · rw [h.queues.persist.accepted_eq, hpersist, hclaimed, hpc]
    simp [PersisterAt.unsynced]
  · by_contra hdirty
    have hplace := h.safe.synced.dirty region (Bool.eq_true_of_not_eq_false hdirty)
    simp [custody, hwriter, hpersist, hpc, WriterAt.hand, PersisterAt.unsynced] at hplace
  · have hcount := honce region
    simp only [places, hwrite, hwriter, hpersist, hpc, WriterAt.hand, PersisterAt.hand,
      List.count_nil, Nat.zero_add] at hcount
    rw [hcount, List.count_range]

end RegionThreads

end TradeProcessor

end TradeX
