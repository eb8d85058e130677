import TradeX.OrderBook
import TradeX.Library.Segment

/-!
# The pool and the queues it holds

`Arena pool levels level free` ties the pointers of a pool and of an array of price levels
to two lists of node indices : `free` is the free list, and `level i` the nodes queued at
level `i`, first to last. Every node of the pool is in exactly one of them.

`insertOrder_spec` and `removeOrder_spec` are all that the rest of the development uses
about the pointers : an insertion moves the first free node to the end of a level, and a
removal, at the head, in the middle or at the tail, moves a node back to the front of the
free list. Neither touches the orders of the other nodes.
-/

namespace TradeX

/-! ## Reading and writing nodes -/

namespace MemPool

/-- The pool after a write to node `k`. -/
def write (p : MemPool) (k : ℕ) (f : OrderNode → OrderNode) : MemPool :=
  { p with nodes := Function.update p.nodes k (f (p.nodes k)) }

theorem nodes_write (p : MemPool) (k : ℕ) (f : OrderNode → OrderNode) (j : ℕ) :
    (p.write k f).nodes j = if j = k then f (p.nodes k) else p.nodes j := by
  simp [write, Function.update_apply]

@[simp] theorem capacity_write (p : MemPool) (k : ℕ) (f : OrderNode → OrderNode) :
    (p.write k f).capacity = p.capacity := rfl

@[simp] theorem freeHead_write (p : MemPool) (k : ℕ) (f : OrderNode → OrderNode) :
    (p.write k f).freeHead = p.freeHead := rfl

@[simp] theorem used_write (p : MemPool) (k : ℕ) (f : OrderNode → OrderNode) :
    (p.write k f).used = p.used := rfl

theorem modifyNode_ok {p : MemPool} {k : ℕ} (h : k < p.capacity) (f : OrderNode → OrderNode) :
    p.modifyNode k f = .ok (p.write k f) :=
  if_pos h

theorem getNode_ok {p : MemPool} {k : ℕ} (h : k < p.capacity) : p.getNode k = .ok (p.nodes k) :=
  if_pos h

/-- The orders of `n` nodes, following `next` from node `k`. -/
def walk (p : MemPool) : ℕ → ℕ → List Order
  | 0, _ => []
  | n + 1, k => (p.nodes k).order :: p.walk n (p.nodes k).next

theorem walk_of_chain (p : MemPool) : ∀ {a : ℕ} {l : List ℕ} {b : ℕ},
    Chain (fun k => (p.nodes k).next) a l b → p.walk l.length a = l.map fun k => (p.nodes k).order
  | _, [], _, _ => rfl
  | _, x :: l, _, ⟨ha, h⟩ => by
    subst ha
    simp only [List.length_cons, walk, List.map_cons]
    rw [p.walk_of_chain h]

end MemPool

/-! ## The layout -/

/-- Every index below `capacity` is in exactly one of the lists `free` and `level i`. -/
structure Cells (capacity : ℕ) (level : ℕ → List ℕ) (free : List ℕ) : Prop where
  free_nodup : free.Nodup
  level_nodup : ∀ i, (level i).Nodup
  level_unique : ∀ {i j k}, k ∈ level i → k ∈ level j → i = j
  not_free : ∀ {i k}, k ∈ level i → k ∉ free
  cell : ∀ k, k < capacity ↔ k ∈ free ∨ ∃ i, k ∈ level i

namespace Cells

variable {c : ℕ} {level : ℕ → List ℕ} {free : List ℕ} {k i : ℕ} {pre post : List ℕ}

theorem mem_update {l : List ℕ} {j y : ℕ} :
    y ∈ Function.update level i l j ↔ j = i ∧ y ∈ l ∨ j ≠ i ∧ y ∈ level j := by
  by_cases h : j = i
  · subst h
    simp
  · simp [h]

/-- The first free cell moves to the end of a level. -/
theorem take (h : Cells c level (k :: free)) (i : ℕ) :
    Cells c (Function.update level i (level i ++ [k])) free := by
  have hk := List.nodup_cons.1 h.free_nodup
  have hklev : ∀ j, k ∉ level j := fun j hj => h.not_free hj List.mem_cons_self
  have hmem : ∀ {j y}, y ∈ Function.update level i (level i ++ [k]) j ↔
      y ∈ level j ∨ j = i ∧ y = k := by
    intro j y
    rw [mem_update]
    by_cases hj : j = i <;> simp [hj]
  refine ⟨hk.2, fun j => ?_, fun {j₁ j₂ y} h₁ h₂ => ?_, fun {j y} hy => ?_, fun y => ?_⟩
  · by_cases hj : j = i
    · subst hj
      rw [Function.update_self, List.nodup_append]
      refine ⟨h.level_nodup j, List.nodup_singleton k, fun y hy z hz => ?_⟩
      rintro rfl
      exact hklev j (List.mem_singleton.1 hz ▸ hy)
    · simpa [hj] using h.level_nodup j
  · rw [hmem] at h₁ h₂
    by_cases hy : y = k
    · subst hy
      simp only [hklev, false_or] at h₁ h₂
      exact h₁.1.trans h₂.1.symm
    · simp only [hy, and_false, or_false] at h₁ h₂
      exact h.level_unique h₁ h₂
  · rcases hmem.1 hy with hy | ⟨-, rfl⟩
    · exact fun hf => h.not_free hy (List.mem_cons_of_mem _ hf)
    · exact hk.1
  · simp only [h.cell y, hmem, List.mem_cons]
    grind

/-- A cell of a level moves to the front of the free list. -/
theorem give (h : Cells c level free) (hl : level i = pre ++ k :: post) :
    Cells c (Function.update level i (pre ++ post)) (k :: free) := by
  have hnd := h.level_nodup i
  have hki : k ∈ level i := by simp [hl]
  have hmem : ∀ {j y}, y ∈ Function.update level i (pre ++ post) j ↔ y ∈ level j ∧
      y ≠ k := by
    intro j y
    rw [mem_update]
    by_cases hj : j = i
    · subst hj
      rw [hl] at hnd ⊢
      grind
    · have : y ∈ level j → y ≠ k := fun hy e => hj (h.level_unique (e ▸ hy) hki)
      simpa [hj] using this
  refine ⟨List.nodup_cons.2 ⟨h.not_free hki, h.free_nodup⟩, fun j => ?_, fun h₁ h₂ => ?_,
    fun {j y} hy => ?_, fun y => ?_⟩
  · by_cases hj : j = i
    · subst hj
      rw [hl] at hnd
      rw [Function.update_self]
      grind
    · simpa [hj] using h.level_nodup j
  · exact h.level_unique (hmem.1 h₁).1 (hmem.1 h₂).1
  · have := hmem.1 hy
    simp [this.2, h.not_free this.1]
  · simp only [h.cell y, hmem, List.mem_cons]
    grind

end Cells

/-- The pointers of the pool and of the levels run through the cells of the lists. -/
structure Arena (pool : MemPool) (levels : ℕ → PriceQueues) (level : ℕ → List ℕ)
    (free : List ℕ) : Prop extends Cells pool.capacity level free where
  free_chain : Chain (fun k => (pool.nodes k).next) pool.freeHead free nullIdx
  level_segment : ∀ i, Segment (fun k => (pool.nodes k).next) (fun k => (pool.nodes k).back)
    nullIdx (levels i).head (level i) (levels i).tail nullIdx
  level_count : ∀ i, (levels i).count = (level i).length
  used : pool.used + free.length = pool.capacity
  capacity_lt : pool.capacity < 2 ^ 31

namespace Arena

variable {pool : MemPool} {levels : ℕ → PriceQueues} {level : ℕ → List ℕ}
  {free : List ℕ} {k : ℕ}

theorem lt_of_mem (h : Arena pool levels level free) {i k : ℕ} (hk : k ∈ level i) :
    k < pool.capacity :=
  (h.cell k).2 (Or.inr ⟨i, hk⟩)

theorem ne_null (h : Arena pool levels level free) {k : ℕ} (hk : k < pool.capacity) :
    k ≠ nullIdx := by
  have := h.capacity_lt
  unfold nullIdx
  omega

theorem head_eq_null_iff (h : Arena pool levels level free) (i : ℕ) :
    (levels i).head = nullIdx ↔ level i = [] := by
  have hs := h.level_segment i
  cases hl : level i with
  | nil =>
    rw [hl] at hs
    simp [hs.2.symm]
  | cons x l =>
    rw [hl] at hs
    have := h.ne_null (h.lt_of_mem (hl ▸ List.mem_cons_self : x ∈ level i))
    simp [hs.1, this]

theorem isEmpty_iff (h : Arena pool levels level free) (i : ℕ) :
    (levels i).isEmpty = true ↔ level i = [] := by
  rw [PriceQueues.isEmpty, h.level_count i]
  simp

/-- The queue of a level read off its pointers. -/
theorem walk_eq (h : Arena pool levels level free) (i : ℕ) :
    pool.walk (levels i).count (levels i).head = (level i).map fun k => (pool.nodes k).order := by
  rw [h.level_count i]
  exact pool.walk_of_chain (h.level_segment i).chain

theorem gethead_ok (h : Arena pool levels level free) {i k : ℕ} {l : List ℕ}
    (hl : level i = k :: l) : (levels i).gethead pool = .ok (pool.nodes k).order := by
  have hs := h.level_segment i
  rw [hl] at hs
  have hk : k < pool.capacity := h.lt_of_mem (hl ▸ List.mem_cons_self)
  simp [PriceQueues.gethead, hs.1, MemPool.getNode_ok hk, bind, Except.bind]

theorem freeHead_eq_null_iff (h : Arena pool levels level free) :
    pool.freeHead = nullIdx ↔ free = [] := by
  have hc := h.free_chain
  cases free with
  | nil => simp [show nullIdx = pool.freeHead from hc]
  | cons k free =>
    have := h.ne_null ((h.cell k).2 (Or.inl List.mem_cons_self))
    simp [hc.1, this]

/-- Changing only orders changes no pointer. -/
theorem of_same_links (h : Arena pool levels level free) {pool' : MemPool}
    (hn : ∀ k, (pool'.nodes k).next = (pool.nodes k).next)
    (hb : ∀ k, (pool'.nodes k).back = (pool.nodes k).back)
    (hf : pool'.freeHead = pool.freeHead) (hu : pool'.used = pool.used)
    (hc : pool'.capacity = pool.capacity) : Arena pool' levels level free where
  toCells := hc ▸ h.toCells
  free_chain := hf ▸ h.free_chain.congr fun x _ => hn x
  level_segment i := (h.level_segment i).congr (fun x _ => hn x) fun x _ => hb x
  level_count := h.level_count
  used := hu ▸ hc ▸ h.used
  capacity_lt := hc ▸ h.capacity_lt

/-- The flag of a level is no pointer. -/
theorem of_same_queues (h : Arena pool levels level free) {levels' : ℕ → PriceQueues}
    (hh : ∀ i, (levels' i).head = (levels i).head)
    (ht : ∀ i, (levels' i).tail = (levels i).tail)
    (hc : ∀ i, (levels' i).count = (levels i).count) : Arena pool levels' level free where
  toCells := h.toCells
  free_chain := h.free_chain
  level_segment i := hh i ▸ ht i ▸ h.level_segment i
  level_count i := (hc i).trans (h.level_count i)
  used := h.used
  capacity_lt := h.capacity_lt

/-! ## Insertion -/

theorem insertOrder_full (h : Arena pool levels level []) (i : ℕ) (order : Order) :
    (levels i).insertOrder pool order = .ok (nullIdx, levels i, pool) := by
  have hf := h.freeHead_eq_null_iff.2 rfl
  simp [PriceQueues.insertOrder, MemPool.allocate, hf, bind, Except.bind]

/-- The pool after `allocate` has taken `k` off the free list and `insertOrder` has filled
it, before `k` is linked into a level. -/
private def taken (pool : MemPool) (k : ℕ) (order : Order) : MemPool :=
  { (pool.write k fun _ => ⟨order, nullIdx, nullIdx⟩) with
    freeHead := (pool.nodes k).next, used := pool.used + 1 }

/-- `insertOrder` as writes to the pool : the first free node is filled and, if the level
has orders, linked after its tail. -/
theorem insertOrder_eq (h : Arena pool levels level (k :: free)) (i : ℕ) (order : Order) :
    (levels i).insertOrder pool order =
      if level i = [] then
        .ok (k, { levels i with head := k, tail := k, count := (levels i).count + 1 },
          taken pool k order)
      else
        .ok (k, { levels i with tail := k, count := (levels i).count + 1 },
          ((taken pool k order).write (levels i).tail fun n => { n with next := k }).write k
            fun n => { n with back := (levels i).tail }) := by
  have hk : k < pool.capacity := (h.cell k).2 (Or.inl List.mem_cons_self)
  have hkn := h.ne_null hk
  have hfree : pool.freeHead = k := h.free_chain.1
  have htaken : (pool.allocate >>= fun r => r.2.modifyNode r.1 fun n => { n with order := order }) =
      .ok (taken pool k order) := by
    simp [MemPool.allocate, hfree, hkn, MemPool.getNode_ok hk, bind, Except.bind,
      MemPool.modifyNode, hk, taken, MemPool.write]
  have halloc : ∃ p, pool.allocate = .ok (k, p) := by
    simp [MemPool.allocate, hfree, hkn, MemPool.getNode_ok hk, MemPool.modifyNode_ok hk, bind,
      Except.bind]
  obtain ⟨p, hp⟩ := halloc
  rw [hp] at htaken
  simp only [bind, Except.bind] at htaken
  simp only [PriceQueues.insertOrder, hp, bind, Except.bind, if_neg hkn, htaken,
    h.head_eq_null_iff i]
  split_ifs with hl
  · rfl
  · have htail : (levels i).tail < pool.capacity :=
      h.lt_of_mem ((h.level_segment i).last_mem hl)
    rw [MemPool.modifyNode_ok (p := taken pool k order) htail]
    simp only
    rw [MemPool.modifyNode_ok (by exact hk)]

/-- Linking the first free node `k` after the tail of level `i`. -/
theorem link (h : Arena pool levels level (k :: free)) (i : ℕ) {pool' : MemPool}
    {q : PriceQueues}
    (hn : ∀ y, (pool'.nodes y).next =
      if y = k then nullIdx else if level i ≠ [] ∧ y = (levels i).tail then k
      else (pool.nodes y).next)
    (hb : ∀ y, (pool'.nodes y).back =
      if y = k then (levels i).tail else (pool.nodes y).back)
    (hf : pool'.freeHead = (pool.nodes k).next) (hu : pool'.used = pool.used + 1)
    (hc : pool'.capacity = pool.capacity) (hhead : q.head = if level i = [] then k else
      (levels i).head) (htail : q.tail = k) (hcount : q.count = (levels i).count + 1) :
    Arena pool' (Function.update levels i q) (Function.update level i (level i ++ [k])) free := by
  have hkfree : k ∉ free := (List.nodup_cons.1 h.free_nodup).1
  have hklev : ∀ j, k ∉ level j := fun j hj => h.not_free hj List.mem_cons_self
  have hlast : level i ≠ [] → (levels i).tail ∈ level i := (h.level_segment i).last_mem
  -- cells outside level `i` other than `k` keep their links
  have hother : ∀ y, y ≠ k → y ∉ level i →
      (pool'.nodes y).next = (pool.nodes y).next := by
    intro y hyk hy
    rw [hn, if_neg hyk, if_neg]
    rintro ⟨hne, rfl⟩
    exact hy (hlast hne)
  refine ⟨hc ▸ h.toCells.take i, ?_, ?_, ?_, ?_, hc ▸ h.capacity_lt⟩
  · rw [hf]
    refine h.free_chain.2.congr fun y hy => hother y ?_ fun hy' =>
      h.not_free hy' (List.mem_cons_of_mem _ hy)
    rintro rfl
    exact hkfree hy
  · intro j
    by_cases hj : j = i
    · subst hj
      simp only [Function.update_self]
      rw [hhead, htail]
      by_cases hl : level j = []
      · have hs := h.level_segment j
        rw [hl] at hs ⊢
        simp [Segment, hn, hb, hs.1]
      · rw [if_neg hl]
        refine (h.level_segment j).snoc hl (h.level_nodup j) (by simp [hb]) (by simp [hn]) ?_ ?_ ?_
        · have hne : (levels j).tail ≠ k := fun e => hklev j (e ▸ hlast hl)
          simp [hn, hne, hl]
        · intro y hy hyt
          have hyk : y ≠ k := fun e => hklev j (e ▸ hy)
          simp [hn, hyk, hyt]
        · intro y hy
          have hyk : y ≠ k := fun e => hklev j (e ▸ hy)
          simp [hb, hyk]
    · simp only [Function.update_of_ne hj]
      have hyk : ∀ y ∈ level j, y ≠ k := fun y hy e => hklev j (e ▸ hy)
      refine (h.level_segment j).congr (fun y hy => hother y (hyk y hy) fun hy' => ?_)
        fun y hy => by simp [hb, hyk y hy]
      exact hj (h.level_unique hy hy')
  · intro j
    by_cases hj : j = i
    · subst hj
      simp [hcount, h.level_count j]
    · simp [Function.update_of_ne hj, h.level_count j]
  · have := h.used
    simp only [List.length_cons] at this
    omega

/-- An insertion moves the first free node, filled with the order, to the end of the
level. -/
theorem insertOrder_spec (h : Arena pool levels level (k :: free)) (i : ℕ) (order : Order) :
    ∃ q pool', (levels i).insertOrder pool order = .ok (k, q, pool') ∧
      q.heapEntry = (levels i).heapEntry ∧
      Arena pool' (Function.update levels i q) (Function.update level i (level i ++ [k])) free ∧
      (∀ y, (pool'.nodes y).order = if y = k then order else (pool.nodes y).order) ∧
      pool'.capacity = pool.capacity ∧ pool'.used = pool.used + 1 := by
  have htail : level i ≠ [] → (levels i).tail ≠ k := fun hl e =>
    h.not_free ((h.level_segment i).last_mem hl) (e ▸ List.mem_cons_self)
  rw [h.insertOrder_eq i order]
  split_ifs with hl
  · have hs := h.level_segment i
    rw [hl] at hs
    refine ⟨_, _, rfl, rfl, h.link i ?_ ?_ rfl rfl rfl ?_ rfl rfl, ?_, rfl, rfl⟩
    · intro y
      by_cases hy : y = k <;> simp [taken, MemPool.nodes_write, hy, hl]
    · intro y
      by_cases hy : y = k <;> simp [taken, MemPool.nodes_write, hy, hs.1]
    · simp [hl]
    · intro y
      by_cases hy : y = k <;> simp [taken, MemPool.nodes_write, hy]
  · have ht := htail hl
    refine ⟨_, _, rfl, rfl, h.link i ?_ ?_ rfl rfl rfl ?_ rfl rfl, ?_, rfl, rfl⟩
    · intro y
      by_cases hy : y = k
      · simp [taken, MemPool.nodes_write, hy, ht.symm]
      · by_cases hyt : y = (levels i).tail <;>
          simp [taken, MemPool.nodes_write, hy, hyt, hl, ht]
    · intro y
      by_cases hy : y = k
      · simp [MemPool.nodes_write, hy]
      · by_cases hyt : y = (levels i).tail <;> simp [taken, MemPool.nodes_write, hy, hyt, ht]
    · simp [hl]
    · intro y
      by_cases hy : y = k
      · simp [taken, MemPool.nodes_write, hy, ht.symm]
      · by_cases hyt : y = (levels i).tail <;> simp [taken, MemPool.nodes_write, hy, hyt, ht]

/-! ## Removal -/

section Removal

variable {i : ℕ} {pre post : List ℕ}

/-- What the pointers of a queued node say about its place in the queue. -/
theorem neighbours (h : Arena pool levels level free) (hl : level i = pre ++ k :: post) :
    (k = (levels i).head ↔ pre = []) ∧ (k = (levels i).tail ↔ post = []) ∧
      ((pool.nodes k).next = nullIdx ↔ post = []) ∧
      (pre = [] → (pool.nodes k).back = nullIdx) ∧
      (pre ≠ [] → (pool.nodes k).back ∈ pre) ∧
      (post ≠ [] → (pool.nodes k).next ∈ post) := by
  have hs := h.level_segment i
  have hnd := h.level_nodup i
  rw [hl] at hs hnd
  obtain ⟨m, c, hpre, hck, hm, hpost⟩ := segment_append.1 hs
  subst hck
  have hcpre : c ∉ pre := fun hc => (List.nodup_append.1 hnd).2.2 c hc c List.mem_cons_self rfl
  have hcpost : c ∉ post := (List.nodup_cons.1 (List.nodup_append.1 hnd).2.1).1
  have hcap : ∀ y ∈ post, y ≠ nullIdx :=
    fun y hy => h.ne_null (h.lt_of_mem (i := i) (by simp [hl, hy]))
  refine ⟨?_, ?_, ?_, ?_, ?_, ?_⟩
  · cases pre with
    | nil => simp [hpre.2]
    | cons x pre =>
      have : c ≠ x := fun e => hcpre (e ▸ List.mem_cons_self)
      simp [hpre.1, this]
  · constructor
    · intro e
      by_contra hne
      exact hcpost (e ▸ hpost.last_mem hne)
    · rintro rfl
      exact hpost.1.symm
  · cases post with
    | nil => simp [hpost.2]
    | cons x post =>
      have := hcap x List.mem_cons_self
      simp [show (pool.nodes c).next = x from hpost.1, this]
  · rintro rfl
    exact hm.trans hpre.1
  · intro hne
    exact (show (pool.nodes c).back = m from hm) ▸ hpre.last_mem hne
  · intro hne
    obtain ⟨x, post, rfl⟩ := List.exists_cons_of_ne_nil hne
    exact (show (pool.nodes c).next = x from hpost.1) ▸ List.mem_cons_self

/-- The two pointer patches of `removeOrder` : the node before `k` is redirected and the
node after it rebound. -/
theorem patch_spec (h : Arena pool levels level free) (hl : level i = pre ++ k :: post) :
    ∃ pool₁ pool₂,
      (levels i).patchHead pool k (pool.nodes k).back (pool.nodes k).next =
        .ok (if pre = [] then (pool.nodes k).next else (levels i).head, pool₁) ∧
      (levels i).patchTail pool₁ k (pool.nodes k).back (pool.nodes k).next =
        .ok (if post = [] then (pool.nodes k).back else (levels i).tail, pool₂) ∧
      (∀ y, (pool₂.nodes y).next = if pre ≠ [] ∧
        y = (pool.nodes k).back then (pool.nodes k).next else (pool.nodes y).next) ∧
      (∀ y, (pool₂.nodes y).back = if post ≠ [] ∧
        y = (pool.nodes k).next then (pool.nodes k).back else (pool.nodes y).back) ∧
      (∀ y, (pool₂.nodes y).order = (pool.nodes y).order) ∧
      pool₂.freeHead = pool.freeHead ∧ pool₂.used = pool.used ∧
      pool₂.capacity = pool.capacity := by
  obtain ⟨hhead, htail, hnext, hback, hprev, hsucc⟩ := h.neighbours hl
  have hltpre : pre ≠ [] → (pool.nodes k).back < pool.capacity := fun hne =>
    h.lt_of_mem (i := i) (by simp [hl, hprev hne])
  have hltpost : post ≠ [] → (pool.nodes k).next < pool.capacity := fun hne =>
    h.lt_of_mem (i := i) (by simp [hl, hsucc hne])
  unfold PriceQueues.patchHead PriceQueues.patchTail
  simp only [hhead, htail, hnext]
  by_cases hpre : pre = [] <;> by_cases hpost : post = []
  · refine ⟨pool, pool, ?_, ?_, ?_⟩
    · simp [hpre, hpost]
    · simp [hpost]
    · simp [hpre, hpost]
  · have hlt := hltpost hpost
    refine ⟨pool.write (pool.nodes k).next fun n => { n with back := nullIdx },
      (pool.write (pool.nodes k).next fun n => { n with back := nullIdx }).write
        (pool.nodes k).next fun n => { n with back := (pool.nodes k).back }, ?_, ?_, ?_⟩
    · simp [hpre, hpost, MemPool.modifyNode_ok hlt, bind, Except.bind]
    · simp [hpost, MemPool.modifyNode_ok (p := pool.write _ _) hlt, bind, Except.bind]
    · refine ⟨fun y => ?_, fun y => ?_, fun y => ?_, rfl, rfl, rfl⟩ <;>
        by_cases hy : y = (pool.nodes k).next <;>
        simp [MemPool.nodes_write, hy, hpre, hpost]
  · have hlt := hltpre hpre
    refine ⟨pool.write (pool.nodes k).back fun n => { n with next := (pool.nodes k).next },
      pool.write (pool.nodes k).back fun n => { n with next := (pool.nodes k).next }, ?_, ?_, ?_⟩
    · simp [hpre, MemPool.modifyNode_ok hlt, bind, Except.bind]
    · simp [hpost]
    · refine ⟨fun y => ?_, fun y => ?_, fun y => ?_, rfl, rfl, rfl⟩ <;>
        by_cases hy : y = (pool.nodes k).back <;>
        simp [MemPool.nodes_write, hy, hpre, hpost]
  · have hlt := hltpre hpre
    have hlt' := hltpost hpost
    refine ⟨pool.write (pool.nodes k).back fun n => { n with next := (pool.nodes k).next },
      (pool.write (pool.nodes k).back fun n => { n with next := (pool.nodes k).next }).write
        (pool.nodes k).next fun n => { n with back := (pool.nodes k).back }, ?_, ?_, ?_⟩
    · simp [hpre, MemPool.modifyNode_ok hlt, bind, Except.bind]
    · simp [hpost, MemPool.modifyNode_ok (p := pool.write _ _) hlt', bind, Except.bind]
    · refine ⟨fun y => ?_, fun y => ?_, fun y => ?_, rfl, rfl, rfl⟩ <;>
        by_cases hy : y = (pool.nodes k).back <;>
        by_cases hy' : y = (pool.nodes k).next <;>
        simp_all [MemPool.nodes_write]

/-- A pool with a queued node is in use. -/
theorem used_pos (h : Arena pool levels level free) (hk : k ∈ level i) : 0 < pool.used := by
  have hnodup : (k :: free).Nodup := List.nodup_cons.2 ⟨h.not_free hk, h.free_nodup⟩
  have hsub : ∀ y ∈ k :: free, y ∈ List.range pool.capacity := by
    intro y hy
    rcases List.mem_cons.1 hy with rfl | hy
    · exact List.mem_range.2 (h.lt_of_mem hk)
    · exact List.mem_range.2 ((h.cell y).2 (Or.inl hy))
  have hlen := (List.subperm_of_subset hnodup hsub).length_le
  rw [List.length_cons, List.length_range] at hlen
  have hused := h.used
  omega

/-- Moving the node `k` of level `i` to the front of the free list. -/
theorem unlink (h : Arena pool levels level free) (hl : level i = pre ++ k :: post)
    {pool' : MemPool} {q : PriceQueues}
    (hn : ∀ y, (pool'.nodes y).next = if y = k then pool.freeHead
      else if pre ≠ [] ∧ y = (pool.nodes k).back then (pool.nodes k).next else
        (pool.nodes y).next)
    (hb : ∀ y, (pool'.nodes y).back =
      if post ≠ [] ∧ y = (pool.nodes k).next then (pool.nodes k).back else (pool.nodes y).back)
    (hf : pool'.freeHead = k) (hu : pool'.used + 1 = pool.used)
    (hc : pool'.capacity = pool.capacity)
    (hhead : q.head = if pre = [] then (pool.nodes k).next else (levels i).head)
    (htail : q.tail = if post = [] then (pool.nodes k).back else (levels i).tail)
    (hcount : q.count = (levels i).count - 1) :
    Arena pool' (Function.update levels i q) (Function.update level i (pre ++ post))
      (k :: free) := by
  obtain ⟨-, -, -, -, hprev, hsucc⟩ := h.neighbours hl
  have hmem : k ∈ level i := by simp [hl]
  have hnd : (pre ++ k :: post).Nodup := hl ▸ h.level_nodup i
  -- cells outside level `i` keep their links
  have hother : ∀ y, y ∉ level i → (pool'.nodes y).next = (pool.nodes y).next ∧
      (pool'.nodes y).back = (pool.nodes y).back := by
    intro y hy
    have hyk : y ≠ k := fun e => hy (e ▸ hmem)
    rw [hn, hb, if_neg hyk, if_neg, if_neg]
    · exact ⟨rfl, rfl⟩
    · rintro ⟨hne, rfl⟩
      exact hy (by simp [hl, hsucc hne])
    · rintro ⟨hne, rfl⟩
      exact hy (by simp [hl, hprev hne])
  refine ⟨hc ▸ h.toCells.give hl, ?_, ?_, ?_, ?_, hc ▸ h.capacity_lt⟩
  · refine ⟨hf, ?_⟩
    simp only [hn k, if_true]
    exact h.free_chain.congr fun y hy => (hother y fun hy' => h.not_free hy' hy).1
  · intro j
    rcases eq_or_ne j i with rfl | hj
    · simp only [Function.update_self]
      rw [hhead, htail]
      have hyk : ∀ y ∈ pre ++ post, y ≠ k := by grind
      refine Segment.unlink (hl ▸ h.level_segment j) hnd (fun y hy => ?_) fun y hy => ?_
      · simp [hn, hyk y hy]
      · simp [hb]
    · simp only [Function.update_of_ne hj]
      have hout : ∀ y ∈ level j, y ∉ level i := fun y hy hy' => hj (h.level_unique hy hy')
      exact (h.level_segment j).congr (fun y hy => (hother y (hout y hy)).1)
        fun y hy => (hother y (hout y hy)).2
  · intro j
    rcases eq_or_ne j i with rfl | hj
    · simp only [Function.update_self, hcount, h.level_count j, hl, List.length_append,
        List.length_cons]
      omega
    · simp [Function.update_of_ne hj, h.level_count j]
  · have hused := h.used
    rw [List.length_cons]
    omega

/-- The pool after `deallocate` has put `k` on the free list. -/
private def given (pool : MemPool) (k : ℕ) : MemPool :=
  { pool.write k (fun n => { n with next := pool.freeHead }) with
    freeHead := k, used := pool.used - 1 }

/-- A removal moves the node from its place in the level to the front of the free list. -/
theorem removeOrder_spec (h : Arena pool levels level free) (hl : level i = pre ++ k :: post) :
    ∃ q pool', (levels i).removeOrder pool k = .ok (true, q, pool') ∧
      q.heapEntry = (levels i).heapEntry ∧
      Arena pool' (Function.update levels i q) (Function.update level i (pre ++ post))
        (k :: free) ∧
      (∀ y, (pool'.nodes y).order = (pool.nodes y).order) ∧
      pool'.capacity = pool.capacity ∧ pool'.used + 1 = pool.used := by
  obtain ⟨pool₁, pool₂, h₁, h₂, hn, hb, ho, hf, hu, hc⟩ := h.patch_spec hl
  have hmem : k ∈ level i := by simp [hl]
  have hk := h.lt_of_mem hmem
  have hkn := h.ne_null hk
  have hdealloc : pool₂.deallocate k = .ok (given pool₂ k) := by
    simp [given, MemPool.deallocate, hkn, MemPool.modifyNode_ok (p := pool₂) (hc ▸ hk), bind,
      Except.bind]
  have hnodes : ∀ y, (given pool₂ k).nodes y =
      if y = k then { pool₂.nodes k with next := pool.freeHead } else pool₂.nodes y := by
    intro y
    rw [← hf]
    exact pool₂.nodes_write k (fun n => { n with next := pool₂.freeHead }) y
  have hused : (given pool₂ k).used + 1 = pool.used := by
    have hpos := h.used_pos hmem
    change pool₂.used - 1 + 1 = pool.used
    omega
  refine ⟨{ levels i with
      head := if pre = [] then (pool.nodes k).next else (levels i).head
      tail := if post = [] then (pool.nodes k).back else (levels i).tail
      count := (levels i).count - 1 }, given pool₂ k, ?_, rfl,
    h.unlink hl (fun y => ?_) (fun y => ?_) rfl hused hc rfl rfl rfl, fun y => ?_, hc, hused⟩
  · simp only [PriceQueues.removeOrder, if_neg hkn, MemPool.getNode_ok hk, h₁, h₂, hdealloc,
      bind, Except.bind]
  · by_cases hy : y = k <;> simp [hnodes, hy, hn]
  · by_cases hy : y = k <;> simp [hnodes, hy, hb]
  · by_cases hy : y = k <;> simp [hnodes, hy, ho]

end Removal

end Arena

end TradeX
