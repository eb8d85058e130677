import Mathlib.Data.List.Count

/-!
# Bounded queues

A queue is called to `push` an item or to `pop` one, and answers. `Fifo.call n` are the calls
of a list that has room for fewer than `n` items : this is what a queue of `n` slots is for.
A queue with states of its own refines it (`Refines`) if each of its calls returns what the
list returns; then every sequence of calls gets the answers of the list (`Refines.answers`),
and two queues that refine the same list cannot be told apart.

The number of items held can be read off the answers (`held_listAnswers`).
-/

namespace Fifo

variable {α σ ε : Type} {n : ℕ}

/-- What is asked of a queue. -/
inductive Call (α : Type)
  | push (item : α)
  | pop

/-- What a queue answers. -/
inductive Answer (α : Type)
  | pushed (accepted : Bool)
  | popped (item : Option α)
  deriving DecidableEq

/-- A call of a list with room for fewer than `n` items. -/
def call (n : ℕ) (l : List α) : Call α → Answer α × List α
  | .push item => if l.length + 1 < n then (.pushed true, l ++ [item]) else (.pushed false, l)
  | .pop =>
    match l with
    | [] => (.popped none, [])
    | item :: l => (.popped (some item), l)

/-- The answers of the list, and the list at the end. -/
def listAnswers (n : ℕ) : List α → List (Call α) → List (Answer α) × List α
  | l, [] => ([], l)
  | l, c :: calls =>
    let rest := listAnswers n (call n l c).2 calls
    ((call n l c).1 :: rest.1, rest.2)

/-- The answers of a queue whose calls may fail, and its state at the end. -/
def answers (step : σ → Call α → Except ε (Answer α × σ)) :
    σ → List (Call α) → Except ε (List (Answer α) × σ)
  | s, [] => .ok ([], s)
  | s, c :: calls =>
    match step s c with
    | .error e => .error e
    | .ok (a, s) =>
      match answers step s calls with
      | .error e => .error e
      | .ok (as, s) => .ok (a :: as, s)

/-- In a state that stands for `l` the queue answers as `l` does, and goes to one that stands for
what `l` becomes. -/
def Refines (step : σ → Call α → Except ε (Answer α × σ)) (n : ℕ)
    (R : σ → List α → Prop) : Prop :=
  ∀ (s : σ) (l : List α) (c : Call α), R s l →
    ∃ s', step s c = .ok ((call n l c).1, s') ∧ R s' (call n l c).2

theorem Refines.answers {step : σ → Call α → Except ε (Answer α × σ)}
    {R : σ → List α → Prop}
    (h : Refines step n R) : ∀ (calls : List (Call α)) {s : σ} {l : List α}, R s l →
      ∃ s', Fifo.answers step s calls = .ok ((listAnswers n l calls).1, s') ∧
        R s' (listAnswers n l calls).2
  | [], s, _, hR => ⟨s, rfl, hR⟩
  | c :: calls, s, l, hR => by
    obtain ⟨s₁, hstep, hR₁⟩ := h s l c hR
    obtain ⟨s', hcalls, hR'⟩ := h.answers calls hR₁
    refine ⟨s', ?_, hR'⟩
    simp only [Fifo.answers, hstep, hcalls, listAnswers]

/-! ## The number of items held -/

/-- The item has been accepted. -/
def Answer.accepted : Answer α → Bool
  | .pushed accepted => accepted
  | .popped _ => false

/-- An item has been taken. -/
def Answer.taken : Answer α → Bool
  | .pushed _ => false
  | .popped item => item.isSome

/-- The pushes that were accepted less the pops that gave an item. -/
def held (as : List (Answer α)) : ℕ :=
  as.countP Answer.accepted - as.countP Answer.taken

/-- A call makes the list longer by what it accepts and shorter by what it gives. -/
theorem length_call (l : List α) (c : Call α) :
    l.length + (call n l c).1.accepted.toNat =
      (call n l c).2.length + (call n l c).1.taken.toNat := by
  cases c with
  | push item =>
    simp only [call]
    split_ifs <;> simp [Answer.accepted, Answer.taken]
  | pop => cases l <;> simp [call, Answer.accepted, Answer.taken]

theorem countP_cons_toNat (p : Answer α → Bool) (a : Answer α) (as : List (Answer α)) :
    (a :: as).countP p = as.countP p + (p a).toNat := by
  rw [List.countP_cons]
  cases p a <;> rfl

theorem length_listAnswers : ∀ (calls : List (Call α)) (l : List α),
    l.length + (listAnswers n l calls).1.countP Answer.accepted =
      (listAnswers n l calls).2.length + (listAnswers n l calls).1.countP Answer.taken
  | [], l => rfl
  | c :: calls, l => by
    have hcall := length_call (n := n) l c
    have hrest := length_listAnswers calls (call n l c).2
    simp only [listAnswers, countP_cons_toNat]
    omega

/-- A queue that was empty holds what it has accepted and not given back. -/
theorem held_listAnswers (calls : List (Call α)) :
    held (listAnswers n [] calls).1 = (listAnswers n [] calls).2.length := by
  have h := length_listAnswers (n := n) calls []
  rw [List.length_nil, Nat.zero_add] at h
  rw [held, h, Nat.add_sub_cancel]

/-- Pushes that all fit are accepted. -/
theorem listAnswers_replicate (item : α) : ∀ (k : ℕ) (l : List α), l.length + k < n →
    (listAnswers n l (List.replicate k (.push item))).2.length = l.length + k
  | 0, _, _ => rfl
  | k + 1, l, h => by
    have hroom : l.length + 1 < n := by omega
    have hcall : (call n l (.push item)).2 = l ++ [item] := by rw [call, if_pos hroom]
    have hrest := listAnswers_replicate item k (l ++ [item])
    rw [List.length_append, List.length_singleton] at hrest
    rw [List.replicate_succ, listAnswers, hcall, hrest (by omega)]
    omega

end Fifo
