import Mathlib.Data.List.Sort

/-!
# Heaps in a vector

`std::push_heap` and `std::pop_heap` on a whole vector. The standard leaves open where
elements that compare equal go, so a `StdHeap` is any pair of functions that keeps its
contract; `StdHeap.sorting` is one that keeps the vector sorted.
-/

variable {α : Type} {comp : α → α → Bool} {v : List α}

/-- `std::is_heap` : no element is above its parent. -/
def IsHeap (comp : α → α → Bool) (v : List α) : Prop :=
  ∀ i a b, 0 < i → v[(i - 1) / 2]? = some a → v[i]? = some b → comp a b = false

/-- What the standard asks of a comparison. -/
abbrev IsComparison (comp : α → α → Bool) : Prop :=
  IsStrictWeakOrder α (fun a b => comp a b)

/-- The heap functions of a standard library. -/
structure StdHeap (α : Type) where
  pushHeap : (α → α → Bool) → List α → List α
  popHeap : (α → α → Bool) → List α → List α
  /-- Elements are moved, none is lost. -/
  pushHeap_perm : ∀ comp v, (pushHeap comp v).Perm v
  /-- The last element is put where it belongs. -/
  isHeap_pushHeap : ∀ comp v a, IsComparison comp → IsHeap comp v →
    IsHeap comp (pushHeap comp (v ++ [a]))
  /-- The front goes to the end. -/
  popHeap_perm : ∀ comp a v, ∃ v', popHeap comp (a :: v) = v' ++ [a] ∧ v'.Perm v
  /-- What stands before it is a heap. -/
  isHeap_popHeap : ∀ comp a v, IsComparison comp → IsHeap comp (a :: v) →
    IsHeap comp (popHeap comp (a :: v)).dropLast

/-! ## Sorted vectors -/

/-- `a` is not below `b`. -/
def NotBelow (comp : α → α → Bool) (a b : α) : Prop :=
  comp a b = false

instance (comp : α → α → Bool) : DecidableRel (NotBelow comp) :=
  fun a b => inferInstanceAs (Decidable (comp a b = false))

theorem notBelow_total (h : IsComparison comp) (a b : α) :
    NotBelow comp a b ∨ NotBelow comp b a := by
  simp only [NotBelow, ← Bool.not_eq_true]
  by_contra hab
  push Not at hab
  exact h.irrefl a (h.trans a b a hab.1 hab.2)

theorem notBelow_trans (h : IsComparison comp) {a b c : α} (hab : NotBelow comp a b)
    (hbc : NotBelow comp b c) : NotBelow comp a c := by
  simp only [NotBelow, ← Bool.not_eq_true] at hab hbc ⊢
  intro hac
  -- `b` is below `c` or equivalent to it; in both cases `a` would be below `b`
  by_cases hcb : comp c b = true
  · exact hab (h.trans a c b hac hcb)
  · by_cases hba : comp b a = true
    · exact hbc (h.trans b a c hba hac)
    · exact (h.incomp_trans a b c ⟨hab, hba⟩ ⟨hbc, hcb⟩).1 hac

theorem notBelow_refl (h : IsComparison comp) (a : α) : NotBelow comp a a :=
  Bool.eq_false_iff.2 (h.irrefl a)

/-- No element is above the root. -/
theorem IsHeap.root (hv : IsHeap comp v) (h : IsComparison comp) {a : α} (ha : v[0]? = some a) :
    ∀ (i : ℕ) (b : α), v[i]? = some b → NotBelow comp a b
  | 0, b, hb => by
    rw [ha, Option.some.injEq] at hb
    exact hb ▸ notBelow_refl h a
  | i + 1, b, hb => by
    have hlt : (i + 1 - 1) / 2 < v.length := by
      have := (List.getElem?_eq_some_iff.1 hb).1
      omega
    have hparent := List.getElem?_eq_getElem hlt
    exact notBelow_trans h (hv.root h ha ((i + 1 - 1) / 2) _ hparent)
      (hv (i + 1) _ b (Nat.succ_pos i) hparent hb)

theorem isHeap_of_pairwise (h : v.Pairwise (NotBelow comp)) : IsHeap comp v := by
  intro i a b hi ha hb
  obtain ⟨hlt, rfl⟩ := List.getElem?_eq_some_iff.1 ha
  obtain ⟨hlt', rfl⟩ := List.getElem?_eq_some_iff.1 hb
  exact List.pairwise_iff_getElem.1 h _ _ hlt hlt' (by omega)

theorem isHeap_insertionSort (h : IsComparison comp) (v : List α) :
    IsHeap comp (v.insertionSort (NotBelow comp)) := by
  have : Std.Total (NotBelow comp) := ⟨notBelow_total h⟩
  have : IsTrans α (NotBelow comp) := ⟨fun _ _ _ => notBelow_trans h⟩
  exact isHeap_of_pairwise (List.pairwise_insertionSort _ v)

/-- The vector is sorted by each push and each pop. -/
def StdHeap.sorting (α : Type) : StdHeap α where
  pushHeap comp v := v.insertionSort (NotBelow comp)
  popHeap comp v := match v with
    | [] => []
    | a :: v => v.insertionSort (NotBelow comp) ++ [a]
  pushHeap_perm _ v := List.perm_insertionSort _ v
  isHeap_pushHeap _ v a h _ := isHeap_insertionSort h (v ++ [a])
  popHeap_perm _ _ v := ⟨_, rfl, List.perm_insertionSort _ v⟩
  isHeap_popHeap _ _ v h _ := by
    rw [List.dropLast_concat]
    exact isHeap_insertionSort h v
