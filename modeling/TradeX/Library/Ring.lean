import Mathlib.Logic.Function.Basic
import Mathlib.Data.Nat.ModEq
import Mathlib.Tactic.SplitIfs

/-!
# Rings of slots

A ring of `n` slots written in turn : write `j` goes to slot `j % n`. `Ring.after init f k`
is what the ring holds after writes `f 0`, ..., `f (k - 1)`. A slot holds the latest write
that went to it (`after_latest`), or what it held at first (`after_unwritten`); there is no
third case (`after_cases`).

A queue in a ring holds its items in consecutive slots (`Slots`) : an item is put into the
slot after the last (`Slots.push`) and taken from the first (`Slots.pop`).
-/

namespace Ring

variable {α : Type*} {n : ℕ} {init f g : ℕ → α}

/-- The slots after `k` writes. -/
def after (n : ℕ) (init f : ℕ → α) : ℕ → ℕ → α
  | 0 => init
  | k + 1 => Function.update (after n init f k) (k % n) (f k)

theorem after_succ (k : ℕ) :
    after n init f (k + 1) = Function.update (after n init f k) (k % n) (f k) :=
  rfl

/-- Only the first `k` writes matter. -/
theorem after_congr : ∀ {k : ℕ}, (∀ j < k, f j = g j) → after n init f k = after n init g k
  | 0, _ => rfl
  | k + 1, h => by
    rw [after_succ, after_succ, after_congr fun j hj => h j (Nat.lt_succ_of_lt hj),
      h k (Nat.lt_succ_self k)]

/-- Two writes of one lap go to different slots. -/
theorem mod_ne_of_lt {c k : ℕ} (hc : c < k) (hk : k < c + n) : k % n ≠ c % n := by
  intro h
  have hdvd : n ∣ k - c := (Nat.modEq_iff_dvd' hc.le).1 h.symm
  have hle := Nat.le_of_dvd (Nat.sub_pos_of_lt hc) hdvd
  omega

/-- For a lap a slot holds what was written to it. -/
theorem after_latest {c : ℕ} : ∀ {k : ℕ}, c < k → k ≤ c + n →
    after n init f k (c % n) = f c
  | k + 1, hc, hk => by
    rw [after_succ]
    rcases Nat.eq_or_lt_of_le (Nat.le_of_lt_succ hc) with rfl | hlt
    · rw [Function.update_self]
    · rw [Function.update_of_ne (mod_ne_of_lt hlt (by omega)).symm]
      exact after_latest hlt (by omega)

/-- A slot that no write went to holds what it held at first. -/
theorem after_unwritten {i : ℕ} : ∀ {k : ℕ}, (∀ j < k, j % n ≠ i) →
    after n init f k i = init i
  | 0, _ => rfl
  | k + 1, h => by
    rw [after_succ, Function.update_of_ne (h k (Nat.lt_succ_self k)).symm]
    exact after_unwritten fun j hj => h j (Nat.lt_succ_of_lt hj)

/-- A slot holds its latest write, less than a lap old, or what it held at first. -/
theorem after_cases {i : ℕ} (hi : i < n) : ∀ (k : ℕ),
    after n init f k i = init i ∨
      ∃ j < k, j % n = i ∧ k ≤ j + n ∧ after n init f k i = f j
  | 0 => Or.inl rfl
  | k + 1 => by
    rw [after_succ]
    rcases eq_or_ne (k % n) i with rfl | hk
    · exact Or.inr ⟨k, Nat.lt_succ_self k, rfl, by omega, Function.update_self _ _ _⟩
    · rw [Function.update_of_ne hk.symm]
      refine (after_cases hi k).imp_right ?_
      rintro ⟨j, hj, hji, hle, heq⟩
      have hne : k ≠ j + n := fun h => hk (by rw [h, Nat.add_mod_right, hji])
      exact ⟨j, by omega, hji, by omega, heq⟩

/-- The slot of a write `c` that is still to come : it holds the write whole laps before,
the last of them that has been made, or what it held at first. -/
theorem after_pending (hn : 0 < n) {k c : ℕ} (hk : k ≤ c) :
    after n init f k (c % n) =
      if n * ((c - k) / n + 1) ≤ c then f (c - n * ((c - k) / n + 1)) else init (c % n) := by
  have hdiv := Nat.div_add_mod (c - k) n
  have hmod := Nat.mod_lt (c - k) hn
  have hmul : n * ((c - k) / n + 1) = n * ((c - k) / n) + n := Nat.mul_succ _ _
  split_ifs with hle
  · have hlast : after n init f k ((c - n * ((c - k) / n + 1)) % n) =
        f (c - n * ((c - k) / n + 1)) := after_latest (by omega) (by omega)
    rwa [Nat.sub_mul_mod hle] at hlast
  · refine after_unwritten fun j hj hjc => ?_
    have hdvd : n ∣ c - j := (Nat.modEq_iff_dvd' (by omega)).1 hjc
    obtain ⟨m, hm⟩ := hdvd
    -- `c - j` is a whole number of laps, and more than `(c - k) / n` of them
    have hlt : (c - k) / n < m := by
      rw [Nat.div_lt_iff_lt_mul hn, Nat.mul_comm, ← hm]
      omega
    have := Nat.mul_le_mul_left n (Nat.succ_le_of_lt hlt)
    simp only [Nat.succ_eq_add_one] at this
    omega

/-! ## Queues -/

/-- The items of `l` are in the slots from slot `h % n` on. -/
structure Slots (n h : ℕ) (array : ℕ → α) (l : List α) : Prop where
  lt : l.length < n
  item : ∀ j < l.length, l[j]? = some (array ((h + j) % n))

namespace Slots

variable {h : ℕ} {array : ℕ → α} {l : List α} {a : α}

theorem empty (hn : 0 < n) (h : ℕ) (array : ℕ → α) : Slots n h array [] :=
  ⟨hn, fun j hj => absurd hj (Nat.not_lt_zero j)⟩

/-- Writing the slot after the last leaves the items alone. -/
theorem write (hs : Slots n h array l) (a : α) :
    Slots n h (Function.update array ((h + l.length) % n) a) l := by
  refine ⟨hs.lt, fun j hj => ?_⟩
  have hlt := hs.lt
  have hne : (h + j) % n ≠ (h + l.length) % n := (mod_ne_of_lt (by omega) (by omega)).symm
  rw [Function.update_of_ne hne, hs.item j hj]

/-- The slot after the last becomes the last. -/
theorem concat (hs : Slots n h array l) (hroom : l.length + 1 < n)
    (ha : array ((h + l.length) % n) = a) : Slots n h array (l ++ [a]) := by
  refine ⟨by rwa [List.length_append, List.length_singleton], fun j hj => ?_⟩
  rw [List.length_append, List.length_singleton] at hj
  rcases Nat.lt_succ_iff_lt_or_eq.1 hj with hlt | rfl
  · rw [List.getElem?_append_left hlt, hs.item j hlt]
  · rw [ha, List.getElem?_concat_length]

theorem push (hs : Slots n h array l) (hroom : l.length + 1 < n) (a : α) :
    Slots n h (Function.update array ((h + l.length) % n) a) (l ++ [a]) :=
  (hs.write a).concat hroom (Function.update_self ..)

theorem pop (hs : Slots n h array (a :: l)) :
    array (h % n) = a ∧ Slots n (h + 1) array l := by
  have hlen := hs.lt
  rw [List.length_cons] at hlen
  refine ⟨?_, by omega, fun j hj => ?_⟩
  · have h0 := hs.item 0 (by simp)
    simpa using h0.symm
  · have hj' := hs.item (j + 1) (by rw [List.length_cons]; omega)
    rw [Nat.add_right_comm, Nat.add_assoc]
    simpa using hj'

end Slots

end Ring
