import Mathlib.Data.Nat.Notation

/-!
# Runs of a transition system

A transition system is a relation `R st i st'` : step `i` leads from `st` to `st'`.
`Steps R l st st'` is a run that takes the steps `l`, and `Always R P st l` says that every
step of a run of `l` is taken in a state where `P` allows it. An invariant that the allowed
steps keep holds at the end of every run (`Steps.invariant`); if the allowed steps can also
always be taken, the run exists (`Always.exists_steps`). A potential that the steps lower bounds
the rounds of a run (`Steps.rounds_le`).

A fold is a run of its step (`steps_iff_foldl`), and one in `Except` or `Option` a run of the
relation "the step returns" (`steps_iff_ok`, `steps_iff_some`), and whether its steps are allowed
can be found out by running it (`always_of_allowed`).
-/

namespace Runs

variable {σ ι ε : Type} {R : σ → ι → σ → Prop} {P : σ → ι → Prop}

/-- A run that takes the steps of a list. -/
def Steps (R : σ → ι → σ → Prop) : List ι → σ → σ → Prop
  | [], st, st' => st = st'
  | i :: l, st, st' => ∃ st₁, R st i st₁ ∧ Steps R l st₁ st'

theorem steps_append : ∀ {l l' : List ι} {st st' : σ},
    Steps R (l ++ l') st st' ↔ ∃ st₁, Steps R l st st₁ ∧ Steps R l' st₁ st'
  | [], l', st, st' => by simp [Steps]
  | i :: l, l', st, st' => by
    constructor
    · rintro ⟨st₁, hi, h⟩
      obtain ⟨st₂, hl, hl'⟩ := steps_append.1 h
      exact ⟨st₂, ⟨st₁, hi, hl⟩, hl'⟩
    · rintro ⟨st₂, ⟨st₁, hi, hl⟩, hl'⟩
      exact ⟨st₁, hi, steps_append.2 ⟨st₂, hl, hl'⟩⟩

/-- Every step of a run of `l` from `st` is allowed where it is taken. -/
def Always (R : σ → ι → σ → Prop) (P : σ → ι → Prop) (st : σ) (l : List ι) :
    Prop :=
  ∀ pre i post st', l = pre ++ i :: post → Steps R pre st st' → P st' i

namespace Always

variable {st st' : σ} {i : ι} {l l' : List ι}

theorem head (h : Always R P st (i :: l)) : P st i :=
  h [] i l st rfl rfl

theorem tail (h : Always R P st (i :: l)) (hi : R st i st') : Always R P st' l := by
  intro pre j post st'' heq hpre
  exact h (i :: pre) j post st'' (by rw [heq]; rfl) ⟨st', hi, hpre⟩

theorem left (h : Always R P st (l ++ l')) : Always R P st l := by
  intro pre j post st' heq hpre
  exact h pre j (post ++ l') st' (by rw [heq]; simp) hpre

theorem nil (st : σ) : Always R P st [] := by
  intro pre j post st' heq
  simp at heq

/-- A run is allowed if its first step is, and what follows is wherever that leads. -/
theorem cons (hi : P st i) (h : ∀ st', R st i st' → Always R P st' l) :
    Always R P st (i :: l) := by
  rintro (_ | ⟨j, pre⟩) k post st'' heq hpre
  · obtain ⟨rfl, -⟩ := List.cons.inj heq
    exact (show st = st'' from hpre) ▸ hi
  · obtain ⟨rfl, heq'⟩ := List.cons.inj heq
    obtain ⟨st₁, hst₁, hpre'⟩ := hpre
    exact h st₁ hst₁ pre k post st'' heq' hpre'

/-- A run can be extended by one that is allowed where it leads. -/
theorem append (h : Always R P st l) (h' : ∀ st', Steps R l st st' → Always R P st' l') :
    Always R P st (l ++ l') := by
  intro pre i post st' heq hpre
  rcases List.append_eq_append_iff.1 heq with ⟨mid, rfl, hmid⟩ | ⟨mid, rfl, hmid⟩
  · obtain ⟨st₁, hl, hst'⟩ := steps_append.1 hpre
    exact h' st₁ hl mid i post st' hmid hst'
  · cases mid with
    | nil =>
      rw [List.append_nil] at h'
      exact h' st' hpre [] i post st' (by simpa using hmid.symm) rfl
    | cons j mid =>
      obtain ⟨rfl, rfl⟩ := List.cons.inj hmid
      exact h pre i mid st' rfl hpre

/-- A run can be extended by a step that is allowed where it leads. -/
theorem concat (h : Always R P st l) (hi : ∀ st', Steps R l st st' → P st' i) :
    Always R P st (l ++ [i]) :=
  h.append fun st' hst' => .cons (hi st' hst') fun _ _ => .nil _

theorem and {Q : σ → ι → Prop} (h : Always R P st l) (h' : Always R Q st l) :
    Always R (fun st i => P st i ∧ Q st i) st l :=
  fun pre i post st' heq hpre => ⟨h pre i post st' heq hpre, h' pre i post st' heq hpre⟩

theorem of_forall_mem (h : ∀ i ∈ l, ∀ st, P st i) : Always R P st l := by
  rintro pre i post st' rfl _
  exact h i (by simp) st'

/-- Allowed steps that can always be taken from states of an invariant, and keep it, make a
run. -/
theorem exists_steps {I : σ → Prop}
    (hstep : ∀ {st : σ} {i : ι}, I st → P st i → ∃ st', R st i st' ∧ I st') :
    ∀ {l : List ι} {st : σ}, I st → Always R P st l → ∃ st', Steps R l st st' ∧ I st'
  | [], st, h, _ => ⟨st, rfl, h⟩
  | i :: l, st, h, hl => by
    obtain ⟨st₁, hst₁, h₁⟩ := hstep h hl.head
    obtain ⟨st', hst', h'⟩ := exists_steps hstep h₁ (hl.tail hst₁)
    exact ⟨st', ⟨st₁, hst₁, hst'⟩, h'⟩

end Always

/-- What allowed steps keep holds at the end of a run of them. -/
theorem Steps.invariant {I : σ → Prop}
    (hstep : ∀ {st : σ} {i : ι} {st' : σ}, I st → P st i → R st i st' → I st') :
    ∀ {l : List ι} {st st' : σ}, I st → Always R P st l → Steps R l st st' → I st'
  | [], _, _, h, _, rfl => h
  | _ :: _, _, _, h, hl, ⟨_, hst₁, hst'⟩ =>
    invariant hstep (hstep h hl.head hst₁) (hl.tail hst₁) hst'

/-- What holds of a state at the start holds along a run iff every step is one that keeps it.
The steps that do not can be taken. The invariant need only be kept by the steps that do. -/
theorem always_iff_of_kept {I G : σ → Prop} {L : σ → ι → Prop}
    (hI : ∀ {st : σ} {i : ι} {st' : σ}, I st → L st i → P st i → R st i st' → I st')
    (hiff : ∀ {st : σ} {i : ι} {st' : σ}, I st → L st i → R st i st' → G st →
      (G st' ↔ P st i))
    (hmove : ∀ {st : σ} {i : ι}, I st → L st i → P st i ∨ ∃ st', R st i st')
    {st₀ : σ} {l : List ι} (h0 : I st₀) (hg : G st₀) (hl : Always R L st₀ l) :
    (∀ pre post st, l = pre ++ post → Steps R pre st₀ st → G st) ↔
    Always R P st₀ l := by
  constructor
  · intro hG
    induction l generalizing st₀ with
    | nil => exact .nil _
    | cons i l ih =>
      have hi : P st₀ i := by
        refine (hmove h0 hl.head).elim id fun hnext => ?_
        obtain ⟨st', hst'⟩ := hnext
        exact (hiff h0 hl.head hst' hg).1 (hG [i] l st' rfl ⟨st', hst', rfl⟩)
      refine .cons hi fun st' hst' => ?_
      refine ih (hI h0 hl.head hi hst') ((hiff h0 hl.head hst' hg).2 hi) (hl.tail hst') ?_
      intro pre post st hlist hpre
      exact hG (i :: pre) post st (by rw [hlist]; rfl) ⟨st', hst', hpre⟩
  · intro hP pre post st hlist hpre
    subst hlist
    refine (Steps.invariant (I := fun st => I st ∧ G st) (P := fun st i => L st i ∧ P st i) ?_
      ⟨h0, hg⟩ (hl.left.and hP.left) hpre).2
    intro st i st' h hi hst'
    exact ⟨hI h.1 hi.1 hi.2 hst', (hiff h.1 hi.1 hst' h.2).2 hi.2⟩

/-- What holds of a state at the start holds along a run iff every step is one that keeps it.
The steps that do not can be taken. -/
theorem always_iff {I G : σ → Prop} {L : σ → ι → Prop}
    (hI : ∀ {st : σ} {i : ι} {st' : σ}, I st → L st i → R st i st' → I st')
    (hiff : ∀ {st : σ} {i : ι} {st' : σ}, I st → L st i → R st i st' → G st →
      (G st' ↔ P st i))
    (hmove : ∀ {st : σ} {i : ι}, I st → L st i → P st i ∨ ∃ st', R st i st')
    {st₀ : σ} {l : List ι} (h0 : I st₀) (hg : G st₀) (hl : Always R L st₀ l) :
    (∀ pre post st, l = pre ++ post → Steps R pre st₀ st → G st) ↔ Always R P st₀ l :=
  always_iff_of_kept (I := I) (fun h hL _ hR => hI h hL hR) hiff hmove h0 hg hl

/-! ## Rounds -/

section Rounds

variable {I : σ → Prop} {A : ι → Prop} {Φ : σ → ℕ}

/-- If every step leaves the state or lowers a potential, so does a run; and one that leaves the
state consists of steps that do. -/
theorem Steps.same_or_lower
    (hkeep : ∀ {st : σ} {i : ι} {st' : σ}, I st → A i → R st i st' → I st')
    (hlower : ∀ {st : σ} {i : ι} {st' : σ}, I st → A i → R st i st' → st' = st ∨
      Φ st' < Φ st) :
    ∀ {l : List ι} {st st' : σ}, I st → (∀ i ∈ l, A i) → Steps R l st st' →
      I st' ∧ ((∀ i ∈ l, R st i st) ∨ Φ st' < Φ st) ∧ Φ st' ≤ Φ st
  | [], _, _, h, _, rfl => ⟨h, Or.inl nofun, Nat.le_refl _⟩
  | i :: l, st, st', h, hA, ⟨st₁, hi, hl⟩ => by
    have hAi := hA i List.mem_cons_self
    obtain ⟨h', hcase, hle⟩ := same_or_lower hkeep hlower (hkeep h hAi hi)
      (fun j hj => hA j (List.mem_cons_of_mem _ hj)) hl
    refine ⟨h', ?_⟩
    rcases hlower h hAi hi with rfl | hlt
    · exact ⟨hcase.imp_left fun hsame => List.forall_mem_cons.2 ⟨hi, hsame⟩, hle⟩
    · exact ⟨Or.inr (Nat.lt_of_le_of_lt hle hlt), Nat.le_of_lt (Nat.lt_of_le_of_lt hle hlt)⟩

/-- A run goes in rounds. Every step leaves the state or lowers a potential, and no round consists
of steps that leave the state : then there are no more rounds than the potential says. -/
theorem Steps.rounds_le {Q : List ι → Prop}
    (hkeep : ∀ {st : σ} {i : ι} {st' : σ}, I st → A i → R st i st' → I st')
    (hlower : ∀ {st : σ} {i : ι} {st' : σ}, I st → A i → R st i st' → st' = st ∨
      Φ st' < Φ st)
    (hround : ∀ {st : σ} {r : List ι}, I st → Q r → ¬∀ i ∈ r, R st i st) :
    ∀ {rounds : List (List ι)} {st st' : σ}, I st →
      (∀ r ∈ rounds, Q r ∧ ∀ i ∈ r, A i) →
      Steps R rounds.flatten st st' → rounds.length ≤ Φ st
  | [], _, _, _, _, _ => Nat.zero_le _
  | r :: rounds, st, st', h, hrounds, hrun => by
    obtain ⟨hQ, hA⟩ := hrounds r List.mem_cons_self
    obtain ⟨st₁, hr, hrest⟩ :=
      steps_append.1 (show Steps R (r ++ rounds.flatten) st st' from hrun)
    obtain ⟨h₁, hcase, -⟩ :=
      Steps.same_or_lower (R := R) (I := I) (Φ := Φ) hkeep hlower h hA hr
    have hle := rounds_le hkeep hlower hround h₁
      (fun r hr => hrounds r (List.mem_cons_of_mem _ hr)) hrest
    have hlt := hcase.resolve_left (hround h hQ)
    exact Nat.succ_le_of_lt (Nat.lt_of_le_of_lt hle hlt)

end Rounds

/-! ## Checking a run -/

/-- Every step of a run of `l` from `st` is allowed, by running it. -/
def allowed (step : σ → ι → Option σ) (P : σ → ι → Prop)
    [∀ st i, Decidable (P st i)] : σ → List ι → Bool
  | _, [] => true
  | st, i :: l => decide (P st i) && match step st i with
    | none => true
    | some st' => allowed step P st' l

theorem always_of_allowed {step : σ → ι → Option σ} [∀ st i, Decidable (P st i)] :
    ∀ {l : List ι} {st : σ}, allowed step P st l = true →
      Always (fun a i b => step a i = some b) P st l
  | [], st, _ => .nil st
  | i :: l, st, h => by
    obtain ⟨hi, hl⟩ := Bool.and_eq_true_iff.1 h
    refine .cons (of_decide_eq_true hi) fun st' hst => always_of_allowed ?_
    simpa [hst] using hl

theorem always_of_allowed_ok {step : σ → ι → Except ε σ} [∀ st i, Decidable (P st i)]
    {l : List ι} {st : σ} (h : allowed (fun st i => (step st i).toOption) P st l = true) :
    Always (fun a i b => step a i = .ok b) P st l := by
  have hiff : ∀ a i b, (step a i).toOption = some b ↔ step a i = .ok b := fun a i b => by
    cases step a i <;> simp [Except.toOption]
  simpa only [hiff] using always_of_allowed h

/-! ## Folds -/

theorem steps_iff_foldl {step : σ → ι → σ} : ∀ {l : List ι} {st st' : σ},
    Steps (fun a i b => step a i = b) l st st' ↔ l.foldl step st = st'
  | [], st, st' => Iff.rfl
  | i :: l, st, st' => by
    rw [List.foldl_cons, Steps]
    exact ⟨fun h => by obtain ⟨_, rfl, h⟩ := h; exact steps_iff_foldl.1 h,
      fun h => ⟨step st i, rfl, steps_iff_foldl.2 h⟩⟩

theorem steps_iff_ok {step : σ → ι → Except ε σ} : ∀ {l : List ι} {st st' : σ},
    Steps (fun a i b => step a i = .ok b) l st st' ↔ l.foldlM step st = .ok st'
  | [], st, st' => by simp [Steps, pure, Except.pure]
  | i :: l, st, st' => by
    rw [List.foldlM_cons, Steps]
    cases hst : step st i with
    | error e => simp [bind, Except.bind]
    | ok st₁ =>
      simp only [Except.ok.injEq, bind, Except.bind]
      constructor
      · rintro ⟨_, rfl, h⟩
        exact steps_iff_ok.1 h
      · exact fun h => ⟨st₁, rfl, steps_iff_ok.2 h⟩

theorem steps_iff_some {step : σ → ι → Option σ} : ∀ {l : List ι} {st st' : σ},
    Steps (fun a i b => step a i = some b) l st st' ↔ l.foldlM step st = some st'
  | [], st, st' => by simp [Steps]
  | i :: l, st, st' => by
    rw [List.foldlM_cons, Steps]
    cases hst : step st i with
    | none => simp
    | some st₁ =>
      simp only [Option.some.injEq, Option.bind_eq_bind, Option.bind_some]
      constructor
      · rintro ⟨_, rfl, h⟩
        exact steps_iff_some.1 h
      · exact fun h => ⟨st₁, rfl, steps_iff_some.2 h⟩

end Runs
