import Mathlib.Data.List.Basic
import Mathlib.Algebra.Ring.Nat

/-!
# Streams

A stream is cut into consecutive frames of one size, and what is left over at its end is
dropped (`frames`). Frames that have come in whole are the first of a stream's frames,
whatever follows them (`frames_flatten_append`).

`IsInterleaving F l` : the list `l` can be told apart into the lists `F i`, each in its own
order. A list whose parts are the beginnings of the `F i` is the beginning of one
(`exists_interleaving`).
-/

namespace Streams

variable {α : Type*}

/-! ## Frames -/

/-- The frames of size `n` of a stream. -/
def frames (n : ℕ) (l : List α) : List (List α) :=
  (List.range (l.length / n)).map fun k => (l.drop (k * n)).take n

theorem frames_of_lt {n : ℕ} {l : List α} (h : l.length < n) : frames n l = [] := by
  rw [frames, Nat.div_eq_of_lt h]
  rfl

theorem frames_cons {n : ℕ} (hn : 0 < n) {f : List α} (hf : f.length = n) (l : List α) :
    frames n (f ++ l) = f :: frames n l := by
  have hlen : (f ++ l).length / n = l.length / n + 1 := by
    rw [List.length_append, hf, Nat.add_div_left _ hn]
  rw [frames, hlen, List.range_succ_eq_map, List.map_cons, List.map_map, Nat.zero_mul,
    List.drop_zero, List.take_left' hf]
  refine congrArg (f :: ·) (List.map_congr_left fun k _ => ?_)
  have hdrop : (f ++ l).drop ((k + 1) * n) = l.drop (k * n) := by
    rw [Nat.succ_mul, Nat.add_comm, ← List.drop_drop, List.drop_left' hf]
  simp only [Function.comp_apply, Nat.succ_eq_add_one, hdrop]

theorem frames_flatten_append {n : ℕ} (hn : 0 < n) : ∀ {F : List (List α)},
    (∀ f ∈ F, f.length = n) → ∀ l, frames n (F.flatten ++ l) = F ++ frames n l
  | [], _, l => rfl
  | f :: F, hF, l => by
    rw [List.flatten_cons, List.append_assoc, frames_cons hn (hF f List.mem_cons_self),
      frames_flatten_append hn (fun g hg => hF g (List.mem_cons_of_mem _ hg)) l]
    rfl

theorem frames_flatten {n : ℕ} (hn : 0 < n) {F : List (List α)}
    (hF : ∀ f ∈ F, f.length = n) : frames n F.flatten = F := by
  have hnil : frames n ([] : List α) = [] := frames_of_lt hn
  have h := frames_flatten_append hn hF []
  rwa [hnil, List.append_nil, List.append_nil] at h

theorem length_flatten {n : ℕ} : ∀ {F : List (List α)}, (∀ f ∈ F, f.length = n) →
    F.flatten.length = F.length * n
  | [], _ => (Nat.zero_mul n).symm
  | f :: F, hF => by
    rw [List.flatten_cons, List.length_append, hF f List.mem_cons_self,
      length_flatten fun g hg => hF g (List.mem_cons_of_mem _ hg), List.length_cons, Nat.succ_mul,
      Nat.add_comm]

theorem flatten_drop {n : ℕ} : ∀ {F : List (List α)}, (∀ f ∈ F, f.length = n) → ∀ i,
    F.flatten.drop (i * n) = (F.drop i).flatten
  | [], _, i => by simp
  | f :: F, hF, 0 => by simp
  | f :: F, hF, i + 1 => by
    have hf : f.length = n := hF f List.mem_cons_self
    rw [List.flatten_cons, Nat.succ_mul, Nat.add_comm, ← List.drop_drop, List.drop_left' hf,
      flatten_drop (fun g hg => hF g (List.mem_cons_of_mem _ hg)) i]
    rfl

theorem flatten_take {n : ℕ} : ∀ {F : List (List α)}, (∀ f ∈ F, f.length = n) → ∀ i,
    F.flatten.take (i * n) = (F.take i).flatten
  | [], _, i => by simp
  | f :: F, hF, 0 => by simp
  | f :: F, hF, i + 1 => by
    have hf : f.length = n := hF f List.mem_cons_self
    rw [List.flatten_cons, Nat.succ_mul, Nat.add_comm, List.take_add, List.take_left' hf,
      List.drop_left' hf, flatten_take (fun g hg => hF g (List.mem_cons_of_mem _ hg)) i]
    rfl

theorem length_of_mem_frames {n : ℕ} {l f : List α} (hf : f ∈ frames n l) : f.length = n := by
  obtain ⟨k, hk, rfl⟩ := List.mem_map.1 hf
  have hlt : k < l.length / n := List.mem_range.1 hk
  have hle : (k + 1) * n ≤ l.length :=
    Nat.le_trans (Nat.mul_le_mul_right n hlt) (Nat.div_mul_le_self _ _)
  rw [Nat.succ_mul] at hle
  rw [List.length_take, List.length_drop]
  omega

/-- What is left over at the end of a stream. -/
def leftover (n : ℕ) (l : List α) : List α :=
  l.drop (l.length / n * n)

theorem length_leftover (n : ℕ) (l : List α) : (leftover n l).length = l.length % n := by
  rw [leftover, List.length_drop, Nat.mod_eq_sub_div_mul]

theorem flatten_frames_take (n : ℕ) (l : List α) : ∀ k, k * n ≤ l.length →
    ((List.range k).map fun k => (l.drop (k * n)).take n).flatten = l.take (k * n)
  | 0, _ => by simp
  | k + 1, hk => by
    rw [Nat.succ_mul] at hk ⊢
    rw [List.range_succ, List.map_append, List.flatten_append, flatten_frames_take n l k (by omega),
      List.take_add]
    simp

/-- A stream is its frames and what is left over. -/
theorem flatten_frames_append_leftover (n : ℕ) (l : List α) :
    (frames n l).flatten ++ leftover n l = l := by
  rw [frames, flatten_frames_take n l _ (Nat.div_mul_le_self _ _), leftover, List.take_append_drop]

/-- The frames of a stream that goes on : those it had, and those of what was left over with
what has been added. -/
theorem frames_append {n : ℕ} (hn : 0 < n) (l l' : List α) :
    frames n (l ++ l') = frames n l ++ frames n (leftover n l ++ l') := by
  conv_lhs => rw [← flatten_frames_append_leftover n l, List.append_assoc]
  exact frames_flatten_append hn (fun f hf => length_of_mem_frames hf) _

theorem leftover_append (n : ℕ) (l l' : List α) :
    leftover n (l ++ l') = leftover n (leftover n l ++ l') := by
  have hle : l.length / n * n ≤ l.length := Nat.div_mul_le_self _ _
  have hlen : (l ++ l').length = (leftover n l ++ l').length + l.length / n * n := by
    simp only [leftover, List.length_append, List.length_drop]
    omega
  rcases Nat.eq_zero_or_pos n with rfl | hn
  · simp [leftover]
  · have hdiv : (l ++ l').length / n * n =
        l.length / n * n + (leftover n l ++ l').length / n * n := by
      rw [hlen, Nat.add_mul_div_right _ _ hn, Nat.add_mul, Nat.add_comm]
    rw [leftover, hdiv, ← List.drop_drop, List.drop_append_of_le_length hle]
    rfl

/-! ## Pieces -/

/-- The pieces of one length are part of the stream. -/
theorem filter_length_mul_le (n : ℕ) : ∀ F : List (List α),
    (F.filter fun f => f.length = n).length * n ≤ F.flatten.length
  | [] => by simp
  | f :: F => by
    have ih := filter_length_mul_le n F
    rw [List.flatten_cons, List.length_append]
    by_cases hf : f.length = n
    · rw [List.filter_cons_of_pos (by simpa using hf), List.length_cons, Nat.succ_mul]
      omega
    · rw [List.filter_cons_of_neg (by simpa using hf)]
      omega

/-- If they are all of it, and none is empty, there are no others. -/
theorem forall_length_of_filter {n : ℕ} :
    ∀ {F : List (List α)}, (∀ f ∈ F, 0 < f.length) →
    F.flatten.length ≤ (F.filter fun f => f.length = n).length * n → ∀ f ∈ F, f.length = n
  | [], _, _ => fun f hf => absurd hf List.not_mem_nil
  | f :: F, hpos, hle => by
    have hF := filter_length_mul_le n F
    have hf := hpos f List.mem_cons_self
    rw [List.flatten_cons, List.length_append] at hle
    by_cases hn : f.length = n
    · rw [List.filter_cons_of_pos (by simpa using hn), List.length_cons, Nat.succ_mul] at hle
      have hrest : F.flatten.length ≤ (F.filter fun g => g.length = n).length * n := by omega
      have ih := forall_length_of_filter (fun g hg => hpos g (List.mem_cons_of_mem _ hg)) hrest
      exact List.forall_mem_cons.2 ⟨hn, ih⟩
    · rw [List.filter_cons_of_neg (by simpa using hn)] at hle
      omega

/-! ## Interleavings -/

/-- What comes from source `i`, of a list with sources. -/
def ofSource (T : List (ℕ × α)) (i : ℕ) : List α :=
  (T.filter fun e => e.1 = i).map Prod.snd

/-- The list is an interleaving of the lists `F i`. -/
def IsInterleaving (F : ℕ → List α) (l : List α) : Prop :=
  ∃ T : List (ℕ × α), T.map Prod.snd = l ∧ ∀ i, ofSource T i = F i

theorem ofSource_append (T T' : List (ℕ × α)) (i : ℕ) :
    ofSource (T ++ T') i = ofSource T i ++ ofSource T' i := by
  rw [ofSource, List.filter_append, List.map_append]
  rfl

theorem ofSource_map {β : Type*} (f : α → β) (T : List (ℕ × α)) (i : ℕ) :
    ofSource (T.map fun e => (e.1, f e.2)) i = (ofSource T i).map f := by
  simp only [ofSource, List.filter_map, List.map_map, Function.comp_def]

theorem mem_of_mem_ofSource {T : List (ℕ × α)} {i : ℕ} {a : α} (h : a ∈ ofSource T i) :
    (i, a) ∈ T := by
  obtain ⟨e, he, rfl⟩ := List.mem_map.1 h
  obtain ⟨hmem, hsource⟩ := List.mem_filter.1 he
  rwa [← of_decide_eq_true hsource]

theorem ofSource_map_self (i : ℕ) (l : List α) : ofSource (l.map fun a => (i, a)) i = l := by
  simp [ofSource, List.filter_map, Function.comp_def]

theorem ofSource_map_of_ne {i j : ℕ} (h : j ≠ i) (l : List α) :
    ofSource (l.map fun a => (j, a)) i = [] := by
  simp [ofSource, List.filter_map, Function.comp_def, h]

/-- One list after the other. -/
theorem ofSource_flatMap (R : ℕ → List α) (i : ℕ) : ∀ N,
    ofSource ((List.range N).flatMap fun j => (R j).map fun a => (j, a)) i =
      if i < N then R i else []
  | 0 => rfl
  | N + 1 => by
    rw [List.range_succ, List.flatMap_append, ofSource_append, ofSource_flatMap R i N,
      List.flatMap_singleton]
    rcases eq_or_ne N i with rfl | hne
    · rw [if_neg (Nat.lt_irrefl _), ofSource_map_self, if_pos (Nat.lt_succ_self _),
        List.nil_append]
    · rw [ofSource_map_of_ne hne, List.append_nil]
      exact if_congr ⟨fun h => by omega, fun h => by omega⟩ rfl rfl

/-- A list whose parts are beginnings of the lists `F i` can be completed to an interleaving. -/
theorem exists_interleaving {F : ℕ → List α} {N : ℕ} {T : List (ℕ × α)}
    (hT : ∀ i, ofSource T i <+: F i) (hN : ∀ i, N ≤ i → F i = []) :
    ∃ l, IsInterleaving F l ∧ T.map Prod.snd <+: l := by
  choose R hR using hT
  refine ⟨_, ⟨T ++ (List.range N).flatMap fun j => (R j).map fun a => (j, a), rfl,
    fun i => ?_⟩, ?_⟩
  · rw [ofSource_append, ofSource_flatMap, ← hR i]
    split_ifs with hi
    · rfl
    · have hnil := hR i
      rw [hN i (Nat.le_of_not_lt hi), List.append_eq_nil_iff] at hnil
      rw [hnil.2]
  · rw [List.map_append]
    exact List.prefix_append _ _

end Streams
