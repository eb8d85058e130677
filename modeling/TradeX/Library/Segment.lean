import Mathlib.Data.List.Basic
import Mathlib.Data.List.Nodup
import Mathlib.Logic.Function.Basic

/-!
# Linked segments in an arena

An intrusive list lives in an arena of cells : each cell holds the index of the cell
after it (`next`) and, in a doubly linked list, of the cell before it (`back`).
`Chain next a l b` says that following `next` from `a` visits the cells `l` and arrives
at `b`. `Segment next back p a l q b` says the same and that `back` leads the other way,
leaving the segment at `p`; `q` is its last cell.

A list is a segment from and to the null index. The lemmas say how a segment splits,
that cells outside it may change (`Segment.congr`), and what the pointer patches of an
append (`Segment.snoc`) and of a removal in any position (`Segment.unlink`) give.
-/

namespace TradeX

variable {ι : Type*}

/-! ## Singly linked -/

/-- Following `next` from `a` visits `l` and arrives at `b`. -/
def Chain (next : ι → ι) : ι → List ι → ι → Prop
  | a, [], b => b = a
  | a, x :: l, b => a = x ∧ Chain next (next x) l b

theorem Chain.congr {next next' : ι → ι} :
    ∀ {a : ι} {l : List ι} {b : ι}, Chain next a l b → (∀ x ∈ l, next' x = next x) →
      Chain next' a l b
  | _, [], _, h, _ => h
  | _, x :: _, _, ⟨ha, h⟩, heq => by
    refine ⟨ha, ?_⟩
    rw [heq x List.mem_cons_self]
    exact h.congr fun y hy => heq y (List.mem_cons_of_mem _ hy)

/-! ## Doubly linked -/

/-- Following `next` from `a` visits `l` and arrives at `b`; `back` leads from each cell
to the one before it, and from the first to `p`. The last cell is `q`, or `p` if there is
none. -/
def Segment (next back : ι → ι) : ι → ι → List ι → ι → ι → Prop
  | p, a, [], q, b => q = p ∧ b = a
  | p, a, x :: l, q, b => a = x ∧ back x = p ∧ Segment next back x (next x) l q b

section Segment

variable {next next' back back' : ι → ι}

theorem Segment.chain : ∀ {p a : ι} {l : List ι} {q b : ι}, Segment next back p a l q b →
    Chain next a l b
  | _, _, [], _, _, h => h.2
  | _, _, _ :: _, _, _, h => ⟨h.1, h.2.2.chain⟩

/-- A segment depends only on the links of its own cells. -/
theorem Segment.congr : ∀ {p a : ι} {l : List ι} {q b : ι}, Segment next back p a l q b →
    (∀ x ∈ l, next' x = next x) → (∀ x ∈ l, back' x = back x) →
    Segment next' back' p a l q b
  | _, _, [], _, _, h, _, _ => h
  | _, _, x :: _, _, _, ⟨ha, hp, h⟩, hn, hb => by
    refine ⟨ha, (hb x List.mem_cons_self).trans hp, ?_⟩
    rw [hn x List.mem_cons_self]
    exact h.congr (fun y hy => hn y (List.mem_cons_of_mem _ hy))
      fun y hy => hb y (List.mem_cons_of_mem _ hy)

/-- A segment splits at every cell of its list. -/
theorem segment_append : ∀ {p a : ι} {l₁ l₂ : List ι} {q b : ι},
    Segment next back p a (l₁ ++ l₂) q b ↔
      ∃ m c, Segment next back p a l₁ m c ∧ Segment next back m c l₂ q b
  | p, a, [], l₂, q, b => by
    constructor
    · intro h
      exact ⟨p, a, ⟨rfl, rfl⟩, h⟩
    · rintro ⟨m, c, ⟨rfl, rfl⟩, h⟩
      exact h
  | p, a, x :: l₁, l₂, q, b => by
    constructor
    · rintro ⟨ha, hp, h⟩
      obtain ⟨m, c, h₁, h₂⟩ := segment_append.1 h
      exact ⟨m, c, ⟨ha, hp, h₁⟩, h₂⟩
    · rintro ⟨m, c, ⟨ha, hp, h₁⟩, h₂⟩
      exact ⟨ha, hp, segment_append.2 ⟨m, c, h₁, h₂⟩⟩

/-- The last cell of a nonempty segment is one of its cells. -/
theorem Segment.last_mem : ∀ {p a : ι} {l : List ι} {q b : ι}, Segment next back p a l q b →
    l ≠ [] → q ∈ l
  | _, _, [], _, _, _, h => absurd rfl h
  | _, _, [x], _, _, ⟨_, _, h⟩, _ => by
    rw [h.1]
    exact List.mem_cons_self
  | _, _, _ :: y :: l, _, _, ⟨_, _, h⟩, _ =>
    List.mem_cons_of_mem _ (h.last_mem (List.cons_ne_nil y l))

variable [DecidableEq ι]

/-- Redirecting the last cell of a nonempty segment moves its end. -/
theorem Segment.redirect : ∀ {p a : ι} {l : List ι} {q b : ι} (c : ι),
    Segment next back p a l q b → l ≠ [] → l.Nodup →
      Segment (Function.update next q c) back p a l q c
  | _, _, [], _, _, _, _, hne, _ => absurd rfl hne
  | _, _, [x], _, _, c, ⟨ha, hp, h⟩, _, _ => by
    obtain ⟨rfl, -⟩ := h
    exact ⟨ha, hp, rfl, by simp⟩
  | _, _, x :: y :: l, q, _, c, ⟨ha, hp, h⟩, _, hnd => by
    rw [List.nodup_cons] at hnd
    have hq : x ≠ q := fun e => hnd.1 (e ▸ h.last_mem (List.cons_ne_nil y l))
    refine ⟨ha, hp, ?_⟩
    rw [Function.update_of_ne hq]
    exact h.redirect c (List.cons_ne_nil y l) hnd.2

/-- Rebinding the first cell of a nonempty segment moves its start. -/
theorem Segment.rebind {p a : ι} {l : List ι} {q b : ι} (m : ι)
    (h : Segment next back p a l q b) (hne : l ≠ []) (hnd : l.Nodup) :
    Segment next (Function.update back a m) m a l q b := by
  cases l with
  | nil => exact absurd rfl hne
  | cons x l =>
    obtain ⟨rfl, -, h⟩ := h
    rw [List.nodup_cons] at hnd
    refine ⟨rfl, by simp, h.congr (fun _ _ => rfl) fun y hy => ?_⟩
    refine Function.update_of_ne ?_ _ _
    rintro rfl
    exact hnd.1 hy

/-- Appending a cell `k` : the last cell is redirected to it and it points back. -/
theorem Segment.snoc {p a : ι} {l : List ι} {q b k : ι} (h : Segment next back p a l q b)
    (hne : l ≠ []) (hnd : l.Nodup) (hb : back' k = q) (hn : next' k = b) (hq : next' q = k)
    (hn' : ∀ x ∈ l, x ≠ q → next' x = next x) (hb' : ∀ x ∈ l, back' x = back x) :
    Segment next' back' p a (l ++ [k]) k b := by
  refine segment_append.2 ⟨q, k, (h.redirect k hne hnd).congr (fun x hx => ?_) hb', rfl, hb, ?_⟩
  · by_cases hxq : x = q
    · rw [hxq, hq, Function.update_self]
    · rw [hn' x hx hxq, Function.update_of_ne hxq]
  · rw [hn]
    exact ⟨rfl, rfl⟩

/-- Removing a cell : the cell before it, if there is one, is redirected past it, and
the cell after it is rebound. -/
theorem Segment.unlink {p a : ι} {pre post : List ι} {x q b : ι}
    (h : Segment next back p a (pre ++ x :: post) q b) (hnd : (pre ++ x :: post).Nodup)
    (hn : ∀ y ∈ pre ++ post, next' y = if pre ≠ [] ∧ y = back x then next x else next y)
    (hb : ∀ y ∈ pre ++ post, back' y = if post ≠ [] ∧ y = next x then back x else back y) :
    Segment next' back' p (if pre = [] then next x else a) (pre ++ post)
      (if post = [] then back x else q) b := by
  obtain ⟨m, c, hpre, hxc, hm, hpost⟩ := segment_append.1 h
  subst hxc
  have hdisj : ∀ y ∈ pre, y ∉ post := fun y hy hy' =>
    (List.nodup_append.1 hnd).2.2 y hy y (List.mem_cons_of_mem _ hy') rfl
  have hndpre := (List.nodup_append.1 hnd).1
  have hndpost := (List.nodup_cons.1 (List.nodup_append.1 hnd).2.1).2
  rw [segment_append]
  refine ⟨m, next c, ?_, ?_⟩
  · by_cases hne : pre = []
    · subst hne
      obtain ⟨rfl, rfl⟩ := hpre
      simp [Segment]
    · rw [if_neg hne]
      refine (hpre.redirect (next c) hne hndpre).congr (fun y hy => ?_) fun y hy => ?_
      · rw [hn y (List.mem_append_left _ hy)]
        by_cases hym : y = back c
        · rw [if_pos ⟨hne, hym⟩, hym, hm, Function.update_self]
        · rw [if_neg (fun hc => hym hc.2), Function.update_of_ne (hm ▸ hym)]
      · rw [hb y (List.mem_append_left _ hy), if_neg]
        rintro ⟨hpn, rfl⟩
        obtain ⟨z, zs, rfl⟩ := List.exists_cons_of_ne_nil hpn
        exact hdisj _ hy (hpost.1 ▸ List.mem_cons_self)
  · by_cases hne : post = []
    · subst hne
      obtain ⟨-, rfl⟩ := hpost
      simp [Segment, hm]
    · rw [if_neg hne]
      refine (hpost.rebind m hne hndpost).congr (fun y hy => ?_) fun y hy => ?_
      · rw [hn y (List.mem_append_right _ hy), if_neg]
        rintro ⟨hpn, rfl⟩
        exact hdisj _ (hm ▸ hpre.last_mem hpn) hy
      · rw [hb y (List.mem_append_right _ hy)]
        by_cases hyn : y = next c
        · rw [if_pos ⟨hne, hyn⟩, hyn, hm, Function.update_self]
        · rw [if_neg (fun hc => hyn hc.2), Function.update_of_ne hyn]

end Segment

end TradeX
