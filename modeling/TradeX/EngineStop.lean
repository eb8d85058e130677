import TradeX.OrderFlow

/-!
# Stopping the engine

The flags at which the threads end : `terminate_flag` of each group, which `start_group_thread`
reads before it pops an order, and `shutdown`, which `listenForClientOrder` reads at the head of
its loop. `main` sets them and joins the threads, in one of two orders. The server stops the order
management system first and the engine after it (`pipelineCalls`), and the tests do it the other
way round (`testCalls`).

A group takes at most one order after its flag has been set (`takes_at_most_one`). In the server's
order no thread of a group ends while an order waits for it, and what has been dispatched in the end
has been processed or is in a queue (`pipeline_stop`). In the other order the order management
system waits forever if the queue of a group that has ended is full (`waits_for_ended_group`).
-/

namespace TradeX

open MatchingEngineDispatcher

/-- A thread is before its flag, in its loop, or at its end. -/
inductive LoopPc
  | checking
  | inside
  | ended
  deriving DecidableEq

/-- The calls of `main`, those of `terminate` and of `start` for each group. -/
inductive OwnerCall
  | storeShutdown
  | joinOms
  | terminate (i : ℕ)
  | join (i : ℕ)
  deriving DecidableEq

/-- The threads with their flags, and the calls that `main` has to make. `takenAfter` counts the
orders that a group has taken since its flag was set. -/
structure Stopping where
  sys : System
  omsLoop : LoopPc
  groupLoop : ℕ → LoopPc
  shutdown : Bool
  terminateFlag : ℕ → Bool
  owner : List OwnerCall
  takenAfter : ℕ → ℕ

namespace Stopping

/-- `server.stop()` has returned, then `oms_system.stop()`, `engine.terminate()` and the join. -/
def pipelineCalls : List OwnerCall :=
  [.storeShutdown, .joinOms] ++ (List.range groupCount).map .terminate ++
    (List.range groupCount).map .join

/-- `engine.terminate()` before `oms_system.stop()`. -/
def testCalls : List OwnerCall :=
  (List.range groupCount).map .terminate ++ [.storeShutdown, .joinOms] ++
    (List.range groupCount).map .join

/-- The threads have been started, and no call to stop them has been made. -/
def start (sys : System) (owner : List OwnerCall) : Stopping :=
  ⟨sys, .checking, fun _ => .checking, false, fun _ => false, owner, fun _ => 0⟩

/-- What happens next : the owner makes its next call, a thread tests its flag, or a thread acts. -/
inductive Action
  | owner
  | checkOms
  | check (i : Fin groupCount)
  | act (a : System.Action)

/-- A group's thread is at the head of its loop. -/
def Quiet (g : GroupThread) : Prop :=
  g.halted = false ∧ g.pending = [] ∧ g.unstored = none

instance : DecidablePred Quiet :=
  fun _ => inferInstanceAs (Decidable (_ ∧ _ ∧ _))

/-- A call of `main`. A thread is joined when it has ended. -/
def call (st : Stopping) : Option Stopping :=
  match st.owner with
  | [] => none
  | .storeShutdown :: rest => some { st with shutdown := true, owner := rest }
  | .joinOms :: rest => if st.omsLoop = .ended then some { st with owner := rest } else none
  | .terminate i :: rest => some { st with
      terminateFlag := Function.update st.terminateFlag i true
      owner := rest }
  | .join i :: rest => if st.groupLoop i = .ended then some { st with owner := rest } else none

/-- `listenForClientOrder` reads `shutdown`. -/
def checkOms (st : Stopping) : Option Stopping :=
  if st.omsLoop = .checking ∧ st.sys.pc = .receive ∧ st.sys.outbox = [] then
    some { st with omsLoop := if st.shutdown then .ended else .inside }
  else none

/-- `start_group_thread` reads `terminate_flag`. -/
def check (st : Stopping) (i : ℕ) : Option Stopping :=
  if st.groupLoop i = .checking ∧ Quiet (st.sys.groups i) then
    let pc := if st.terminateFlag i then .ended else .inside
    some { st with groupLoop := Function.update st.groupLoop i pc }
  else none

/-- A pass of a loop is made after its flag has been read. -/
def Allowed (st : Stopping) : System.Action → Prop
  | .receive _ => st.omsLoop = .inside
  | .take i => st.groupLoop i = .inside
  | .fault i _ => st.groupLoop i = .inside
  | _ => True

instance (st : Stopping) : DecidablePred st.Allowed
  | .receive _ => inferInstanceAs (Decidable (_ = _))
  | .take _ => inferInstanceAs (Decidable (_ = _))
  | .fault _ _ => inferInstanceAs (Decidable (_ = _))
  | .consume _ | .poll | .enqueue | .publish _ | .store _ => isTrue trivial

/-- Whether a pass of group `i` finds an order. -/
def takes (st : Stopping) (i : ℕ) : ℕ :=
  match (st.sys.groups i).processor.groupQueue.pop with
  | .ok (some _) => 1
  | _ => 0

/-- After the action. -/
def goOn (st : Stopping) (sys : System) : System.Action → Stopping
  | .receive _ => { st with sys := sys, omsLoop := .checking }
  | .take i => { st with
      sys := sys
      groupLoop := Function.update st.groupLoop i .checking
      takenAfter := if st.terminateFlag i then
        Function.update st.takenAfter i (st.takenAfter i + st.takes i) else st.takenAfter }
  | .fault i _ => { st with
      sys := sys
      groupLoop := Function.update st.groupLoop i .checking }
  | _ => { st with sys := sys }

/-- One step, if it can be taken. -/
def step (std : StdHeap ClientOrder) (st : Stopping) : Action → Option Stopping
  | .owner => st.call
  | .checkOms => st.checkOms
  | .check i => st.check i
  | .act a => if st.Allowed a then (st.sys.step std a).map fun sys => st.goOn sys a else none

/-- Steps in any order. -/
def run (std : StdHeap ClientOrder) (st : Stopping) (actions : List Action) : Option Stopping :=
  actions.foldlM (step std) st

/-! ## What the actions leave alone -/

variable {std : StdHeap ClientOrder} {sys sys' : System} {st st' : Stopping} {i : ℕ}
  {a : System.Action}

/-- A group's thread changes nothing of the other groups, and nothing of the first thread. -/
theorem ofGroup_cases (ha : System.OfGroup i a) (hstep : sys.step std a = some sys') :
    ∃ t, sys'.groups = Function.update sys.groups i t ∧ sys'.pc = sys.pc ∧
      sys'.outbox = sys.outbox := by
  cases a with
  | receive _ | consume _ | poll | enqueue => exact ha.elim
  | take j =>
    obtain rfl : (j : ℕ) = i := ha
    simp only [System.step, System.take] at hstep
    split_ifs at hstep
    split at hstep
    next => cases hstep
    next =>
      obtain rfl := Option.some.inj hstep
      exact ⟨_, rfl, rfl, rfl⟩
  | fault j published =>
    obtain rfl : (j : ℕ) = i := ha
    simp only [System.step, System.fault] at hstep
    split_ifs at hstep
    split at hstep
    next =>
      split_ifs at hstep
      obtain rfl := Option.some.inj hstep
      exact ⟨_, rfl, rfl, rfl⟩
    next => cases hstep
  | publish j =>
    obtain rfl : (j : ℕ) = i := ha
    simp only [System.step, System.publish] at hstep
    split at hstep
    next =>
      obtain rfl := Option.some.inj hstep
      exact ⟨_, rfl, rfl, rfl⟩
    next => cases hstep
  | store j =>
    obtain rfl : (j : ℕ) = i := ha
    simp only [System.step, System.store] at hstep
    split at hstep
    next =>
      obtain rfl := Option.some.inj hstep
      exact ⟨_, rfl, rfl, rfl⟩
    next => cases hstep

/-- An action of another thread leaves a group's as it is, but for its queue. -/
theorem withQueue_of_not_ofGroup (ha : ¬System.OfGroup i a) (hstep : sys.step std a = some sys') :
    ∃ queue, sys'.groups i = System.withQueue (sys.groups i) queue := by
  rcases System.waits_or_goes_on hstep with (rfl | ⟨j, -, hof⟩) | ⟨-, hfirst⟩
  · obtain ⟨order, outbox, accepted, queue, -, -, rfl⟩ := System.enqueue_cases hstep
    rcases eq_or_ne i (groupOf order.symbolId) with rfl | hne
    · exact ⟨queue, Function.update_self ..⟩
    · exact ⟨_, Function.update_of_ne hne ..⟩
  · have hne : i ≠ j := fun heq => ha (heq ▸ hof)
    obtain ⟨t, hgroups, -⟩ := ofGroup_cases hof hstep
    exact ⟨_, by rw [hgroups, Function.update_of_ne hne]; rfl⟩
  · obtain ⟨oms, pc, rfl, -⟩ := System.issues_omsStep hfirst
    exact ⟨_, rfl⟩

/-- The action is a pass of group `i`. -/
def Passes (i : ℕ) : System.Action → Prop
  | .take j => (j : ℕ) = i
  | .fault j _ => (j : ℕ) = i
  | _ => False

/-- A thread at the head of its loop leaves it by a pass only. -/
theorem not_ofGroup_of_quiet (h : Quiet (sys.groups i)) (ha : ¬Passes i a)
    (hstep : sys.step std a = some sys') : ¬System.OfGroup i a := by
  obtain ⟨-, hpending, hunstored⟩ := h
  intro hof
  cases a with
  | receive _ | consume _ | poll | enqueue => exact hof
  | take j => exact ha hof
  | fault j published => exact ha hof
  | publish j =>
    obtain rfl : (j : ℕ) = i := hof
    simp only [System.step, System.publish, hpending, hunstored] at hstep
    cases hstep
  | store j =>
    obtain rfl : (j : ℕ) = i := hof
    simp only [System.step, System.store, hunstored] at hstep
    cases hstep

/-- The first thread leaves the head of its loop by a pass only. -/
theorem head_step (hpc : sys.pc = .receive) (hbox : sys.outbox = []) (ha : ∀ o, a ≠ .receive o)
    (hstep : sys.step std a = some sys') : sys'.pc = .receive ∧ sys'.outbox = [] := by
  rcases System.waits_or_goes_on hstep with (rfl | ⟨j, -, hof⟩) | ⟨-, hfirst⟩
  · obtain ⟨order, outbox, _, _, hsome, -⟩ := System.enqueue_cases hstep
    cases hbox.symm.trans hsome
  · obtain ⟨t, -, hpc', hbox'⟩ := ofGroup_cases hof hstep
    exact ⟨hpc'.trans hpc, hbox'.trans hbox⟩
  · cases a with
    | receive o => exact absurd rfl (ha o)
    | consume trade =>
      simp only [System.omsStep, hpc] at hfirst
      cases trade <;> cases hfirst
    | poll =>
      simp only [System.omsStep, hpc] at hfirst
      cases hfirst
    | _ => cases hfirst

/-! ## The loops and their flags -/

theorem goOn_sys : (st.goOn sys a).sys = sys := by
  cases a <;> rfl

theorem goOn_flags : (st.goOn sys a).terminateFlag = st.terminateFlag ∧
    (st.goOn sys a).owner = st.owner := by
  cases a <;> exact ⟨rfl, rfl⟩

/-- The first thread is at its flag again, or as it was. -/
theorem goOn_omsLoop : (st.goOn sys a).omsLoop = .checking ∨
    (∀ o, a ≠ .receive o) ∧ (st.goOn sys a).omsLoop = st.omsLoop := by
  cases a with
  | receive o => exact Or.inl rfl
  | _ => exact Or.inr ⟨nofun, rfl⟩

/-- A group's thread is at its flag again, or as it was. -/
theorem goOn_groupLoop : (st.goOn sys a).groupLoop i = .checking ∨
    ¬Passes i a ∧ (st.goOn sys a).groupLoop i = st.groupLoop i := by
  cases a with
  | take j =>
    rcases eq_or_ne i j with rfl | hne
    · exact Or.inl (Function.update_self ..)
    · exact Or.inr ⟨hne.symm, Function.update_of_ne hne ..⟩
  | fault j published =>
    rcases eq_or_ne i j with rfl | hne
    · exact Or.inl (Function.update_self ..)
    · exact Or.inr ⟨hne.symm, Function.update_of_ne hne ..⟩
  | _ => exact Or.inr ⟨id, rfl⟩

theorem takes_le_one : st.takes i ≤ 1 := by
  unfold takes
  split
  · exact Nat.le_refl 1
  · exact Nat.zero_le 1

/-- An order is counted in a pass of a group whose flag has been set. -/
theorem goOn_takenAfter (sys : System) (i : ℕ) (ha : st.Allowed a) :
    (st.goOn sys a).takenAfter i = st.takenAfter i ∨
    st.groupLoop i = .inside ∧ (st.goOn sys a).groupLoop i = .checking ∧
      st.terminateFlag i = true ∧ (st.goOn sys a).takenAfter i ≤ st.takenAfter i + 1 := by
  cases a with
  | take j =>
    simp only [goOn]
    split_ifs with hflag
    · rcases eq_or_ne i j with rfl | hne
      · rw [Function.update_self, Function.update_self]
        exact Or.inr ⟨ha, rfl, hflag, Nat.add_le_add_left takes_le_one _⟩
      · exact Or.inl (Function.update_of_ne hne ..)
    · exact Or.inl rfl
  | _ => exact Or.inl rfl

/-- A thread that has read its flag is at the head of its loop, one that has ended has found it set,
and a group that has not come to its flag since it was set has taken no order since then. -/
structure Inv (st : Stopping) : Prop where
  oms : st.omsLoop ≠ .checking → st.sys.pc = .receive ∧ st.sys.outbox = []
  quiet : ∀ i, st.groupLoop i ≠ .checking → Quiet (st.sys.groups i)
  flag : ∀ i, st.groupLoop i = .ended → st.terminateFlag i = true
  unset : ∀ i, st.terminateFlag i = false ∨ st.groupLoop i = .inside → st.takenAfter i = 0
  once : ∀ i, st.takenAfter i ≤ 1

theorem inv_start (sys : System) (owner : List OwnerCall) : Inv (start sys owner) :=
  ⟨fun h => absurd rfl h, fun _ h => absurd rfl h, fun _ => nofun, fun _ _ => rfl,
    fun _ => Nat.zero_le 1⟩

theorem Inv.act (h : Inv st) (ha : st.Allowed a) (hstep : st.sys.step std a = some sys') :
    Inv (st.goOn sys' a) := by
  refine ⟨fun hloop => ?_, fun i hloop => ?_, fun i hended => ?_, fun i hunset => ?_,
    fun i => ?_⟩
  · rw [goOn_sys]
    obtain ⟨hnot, hsame⟩ := goOn_omsLoop.resolve_left hloop
    obtain ⟨hpc, hbox⟩ := h.oms (hsame ▸ hloop)
    exact head_step hpc hbox hnot hstep
  · rw [goOn_sys]
    obtain ⟨hnot, hsame⟩ := goOn_groupLoop.resolve_left hloop
    have hquiet := h.quiet i (hsame ▸ hloop)
    obtain ⟨queue, hqueue⟩ :=
      withQueue_of_not_ofGroup (not_ofGroup_of_quiet hquiet hnot hstep) hstep
    rw [hqueue]
    exact hquiet
  · obtain ⟨-, hsame⟩ := goOn_groupLoop.resolve_left
      fun hchecking => LoopPc.noConfusion (hended.symm.trans hchecking)
    rw [goOn_flags.1]
    exact h.flag i (hsame ▸ hended)
  · rw [goOn_flags.1] at hunset
    rcases goOn_takenAfter sys' i ha with hsame | ⟨-, hchecking, hset, -⟩
    · rw [hsame]
      refine h.unset i (hunset.imp_right fun hinside => ?_)
      obtain ⟨-, hloop⟩ := goOn_groupLoop.resolve_left
        fun hchecking => LoopPc.noConfusion (hinside.symm.trans hchecking)
      exact hloop ▸ hinside
    · rcases hunset with hunset | hinside
      · cases hset.symm.trans hunset
      · cases hchecking.symm.trans hinside
  · rcases goOn_takenAfter sys' i ha with hsame | ⟨hinside, -, -, hle⟩
    · rw [hsame]
      exact h.once i
    · rw [h.unset i (Or.inr hinside)] at hle
      exact hle

theorem Inv.checkOms (h : Inv st) (hstep : st.checkOms = some st') : Inv st' := by
  unfold Stopping.checkOms at hstep
  split_ifs at hstep with hhead
  · obtain rfl := Option.some.inj hstep
    exact ⟨fun _ => hhead.2, h.quiet, h.flag, h.unset, h.once⟩
  · obtain rfl := Option.some.inj hstep
    exact ⟨fun _ => hhead.2, h.quiet, h.flag, h.unset, h.once⟩

/-- A group's thread has read its flag. -/
theorem check_cases (hstep : st.check i = some st') : ∃ pc, Quiet (st.sys.groups i) ∧
    (pc = .ended ∧ st.terminateFlag i = true ∨ pc = .inside ∧ st.terminateFlag i = false) ∧
    st' = { st with groupLoop := Function.update st.groupLoop i pc } := by
  unfold Stopping.check at hstep
  by_cases hhead : st.groupLoop i = .checking ∧ Quiet (st.sys.groups i)
  · rw [if_pos hhead] at hstep
    refine ⟨_, hhead.2, ?_, (Option.some.inj hstep).symm⟩
    cases st.terminateFlag i
    · exact Or.inr ⟨rfl, rfl⟩
    · exact Or.inl ⟨rfl, rfl⟩
  · rw [if_neg hhead] at hstep
    cases hstep

theorem Inv.check (h : Inv st) (hstep : st.check i = some st') : Inv st' := by
  obtain ⟨pc, hquiet, hpc, rfl⟩ := check_cases hstep
  refine ⟨h.oms, fun j => ?_, fun j => ?_, fun j => ?_, h.once⟩ <;> dsimp only <;>
    rcases eq_or_ne j i with rfl | hne
  · exact fun _ => hquiet
  · rw [Function.update_of_ne hne]
    exact h.quiet j
  · rw [Function.update_self]
    rintro rfl
    rcases hpc with ⟨-, hflag⟩ | ⟨hinside, -⟩
    · exact hflag
    · cases hinside
  · rw [Function.update_of_ne hne]
    exact h.flag j
  · rw [Function.update_self]
    rintro (hunset | rfl)
    · exact h.unset j (Or.inl hunset)
    · rcases hpc with ⟨hended, -⟩ | ⟨-, hunset⟩
      · cases hended
      · exact h.unset j (Or.inl hunset)
  · rw [Function.update_of_ne hne]
    exact h.unset j

/-- What a call of `main` leaves alone. -/
theorem call_same (hstep : st.call = some st') : st'.sys = st.sys ∧ st'.omsLoop = st.omsLoop ∧
    st'.groupLoop = st.groupLoop ∧ st'.takenAfter = st.takenAfter := by
  unfold Stopping.call at hstep
  split at hstep <;> try split_ifs at hstep
  all_goals cases hstep
  all_goals exact ⟨rfl, rfl, rfl, rfl⟩

/-- What a call of `main` waits for and sets. -/
theorem call_cases (hstep : st.call = some st') : ∃ c rest, st.owner = c :: rest ∧
    st'.owner = rest ∧ (c = .joinOms → st.omsLoop = .ended) ∧
    (∀ i, c = .join i → st.groupLoop i = .ended) ∧
    ∀ i, st'.terminateFlag i = true ↔ st.terminateFlag i = true ∨ c = .terminate i := by
  unfold Stopping.call at hstep
  split at hstep
  next => cases hstep
  next rest howner =>
    cases hstep
    exact ⟨_, rest, howner, rfl, nofun, nofun, fun i => (or_iff_left nofun).symm⟩
  next rest howner =>
    split_ifs at hstep with hended
    cases hstep
    exact ⟨_, rest, howner, rfl, fun _ => hended, nofun, fun i => (or_iff_left nofun).symm⟩
  next j rest howner =>
    cases hstep
    refine ⟨_, rest, howner, rfl, nofun, nofun, fun i => ?_⟩
    dsimp only
    rcases eq_or_ne i j with rfl | hne
    · exact iff_of_true (Function.update_self ..) (Or.inr rfl)
    · rw [Function.update_of_ne hne]
      exact (or_iff_left fun heq => hne (OwnerCall.terminate.inj heq).symm).symm
  next j rest howner =>
    split_ifs at hstep with hended
    cases hstep
    refine ⟨_, rest, howner, rfl, nofun, fun i heq => ?_, fun i => (or_iff_left nofun).symm⟩
    exact OwnerCall.join.inj heq ▸ hended

theorem Inv.call (h : Inv st) (hstep : st.call = some st') : Inv st' := by
  obtain ⟨hsys, homs, hgroup, htaken⟩ := call_same hstep
  obtain ⟨_, _, -, -, -, -, hflag⟩ := call_cases hstep
  have hset : ∀ i, st.terminateFlag i = true → st'.terminateFlag i = true := fun i hi =>
    (hflag i).2 (Or.inl hi)
  refine ⟨?_, ?_, ?_, fun i hunset => ?_, ?_⟩
  · rw [homs, hsys]
    exact h.oms
  · rw [hgroup, hsys]
    exact h.quiet
  · rw [hgroup]
    exact fun i hended => hset i (h.flag i hended)
  · rw [hgroup] at hunset
    rw [htaken]
    refine h.unset i (hunset.imp_left fun hunset => ?_)
    exact Bool.eq_false_iff.2 fun hflag => Bool.noConfusion (hunset.symm.trans (hset i hflag))
  · rw [htaken]
    exact h.once

theorem Inv.step (h : Inv st) {a : Action} (hstep : st.step std a = some st') : Inv st' := by
  cases a with
  | owner => exact h.call hstep
  | checkOms => exact h.checkOms hstep
  | check i => exact h.check hstep
  | act a =>
    rw [Stopping.step] at hstep
    split_ifs at hstep with ha
    obtain ⟨sys', hsys, rfl⟩ := Option.map_eq_some_iff.1 hstep
    exact h.act ha hsys

theorem Inv.run (h : Inv st) {actions : List Action} (hrun : st.run std actions = some st') :
    Inv st' :=
  Runs.Steps.invariant (P := fun _ _ => True) (fun h _ hstep => h.step hstep) h
    (.of_forall_mem fun _ _ _ => trivial) (Runs.steps_iff_some.2 hrun)

/-! ## A thread that has ended -/

/-- A thread that has ended makes no pass. -/
theorem goOn_ended (sys : System) (i : ℕ) (ha : st.Allowed a) :
    (st.omsLoop = .ended → (st.goOn sys a).omsLoop = .ended) ∧
      (st.groupLoop i = .ended → ¬Passes i a ∧ (st.goOn sys a).groupLoop i = .ended) := by
  refine ⟨fun hended => ?_, fun hended => ?_⟩
  · cases a with
    | receive o => cases hended.symm.trans ha
    | _ => exact hended
  · have hnot : ¬Passes i a := by
      intro hpass
      cases a with
      | take j =>
        obtain rfl : (j : ℕ) = i := hpass
        cases hended.symm.trans ha
      | fault j published =>
        obtain rfl : (j : ℕ) = i := hpass
        cases hended.symm.trans ha
      | _ => exact hpass
    refine ⟨hnot, ?_⟩
    cases a with
    | take j => exact (Function.update_of_ne (Ne.symm hnot) ..).trans hended
    | fault j published => exact (Function.update_of_ne (Ne.symm hnot) ..).trans hended
    | _ => exact hended

/-- What a step does to the threads that have ended : nothing, but for the queue of a group. -/
theorem step_ended (h : Inv st) {a : Action} (hstep : st.step std a = some st') :
    (st.omsLoop = .ended → st'.omsLoop = .ended) ∧ (st.groupLoop i = .ended →
      st'.groupLoop i = .ended ∧
        ∃ queue, st'.sys.groups i = System.withQueue (st.sys.groups i) queue) := by
  cases a with
  | owner =>
    obtain ⟨hsys, homs, hgroup, -⟩ := call_same hstep
    rw [homs, hgroup, hsys]
    exact ⟨id, fun hended => ⟨hended, _, rfl⟩⟩
  | checkOms =>
    simp only [Stopping.step, Stopping.checkOms] at hstep
    obtain ⟨hhead, hstep⟩ := Option.ite_none_right_eq_some.1 hstep
    obtain rfl := Option.some.inj hstep
    exact ⟨fun hended => LoopPc.noConfusion (hhead.1.symm.trans hended),
      fun hended => ⟨hended, _, rfl⟩⟩
  | check j =>
    simp only [Stopping.step, Stopping.check] at hstep
    obtain ⟨hhead, hstep⟩ := Option.ite_none_right_eq_some.1 hstep
    obtain rfl := Option.some.inj hstep
    refine ⟨id, fun hended => ⟨?_, _, rfl⟩⟩
    rcases eq_or_ne i j with rfl | hne
    · cases hhead.1.symm.trans hended
    · exact (Function.update_of_ne hne ..).trans hended
  | act a =>
    rw [Stopping.step] at hstep
    obtain ⟨ha, hstep⟩ := Option.ite_none_right_eq_some.1 hstep
    obtain ⟨sys', hsys, rfl⟩ := Option.map_eq_some_iff.1 hstep
    refine ⟨(goOn_ended sys' i ha).1, fun hended => ?_⟩
    obtain ⟨hnot, hended'⟩ := (goOn_ended sys' i ha).2 hended
    rw [goOn_sys]
    have hquiet := h.quiet i fun hchecking => LoopPc.noConfusion (hended.symm.trans hchecking)
    exact ⟨hended', withQueue_of_not_ofGroup (not_ofGroup_of_quiet hquiet hnot hsys) hsys⟩

/-- What `main` has done, in the order of the server : no flag of a group is set before the thread
of the order management system has been joined. -/
structure Ordered (st : Stopping) : Prop where
  suffix : st.owner <:+ pipelineCalls
  before : .joinOms ∈ st.owner → ∀ i, st.terminateFlag i = false
  joined : .joinOms ∉ st.owner → st.omsLoop = .ended
  groups : ∀ i < groupCount, .join i ∈ st.owner ∨ st.groupLoop i = .ended

/-- The calls of `terminate` come after the join. -/
theorem joinOms_notMem_of_terminate {rest : List OwnerCall} {j : ℕ}
    (h : .terminate j :: rest <:+ pipelineCalls) : .joinOms ∉ .terminate j :: rest := by
  have hcons : pipelineCalls = .storeShutdown :: .joinOms ::
      ((List.range groupCount).map .terminate ++ (List.range groupCount).map .join) := rfl
  rw [hcons, List.suffix_cons_iff, List.suffix_cons_iff] at h
  rcases h with heq | heq | hsuffix
  · cases heq
  · cases heq
  · intro hmem
    have := hsuffix.subset hmem
    simp at this

theorem Ordered.call (h : Ordered st) (hstep : st.call = some st') : Ordered st' := by
  obtain ⟨-, homs, hgroup, -⟩ := call_same hstep
  obtain ⟨c, rest, howner, hrest, hjoinOms, hjoin, hflag⟩ := call_cases hstep
  have hsuffix := howner ▸ h.suffix
  refine ⟨hrest ▸ (List.suffix_cons c rest).trans hsuffix, fun hmem i => ?_, fun hnot => ?_,
    fun i hi => ?_⟩
  · rw [hrest] at hmem
    refine Bool.eq_false_iff.2 fun hset => ?_
    rcases (hflag i).1 hset with hset | rfl
    · cases (h.before (howner ▸ List.mem_cons_of_mem c hmem) i).symm.trans hset
    · exact joinOms_notMem_of_terminate hsuffix (List.mem_cons_of_mem _ hmem)
  · rw [homs]
    by_cases hc : c = .joinOms
    · exact hjoinOms hc
    · refine h.joined fun hmem => ?_
      rw [howner] at hmem
      exact hnot (hrest ▸ (List.mem_cons.1 hmem).resolve_left (Ne.symm hc))
  · rw [hgroup, hrest]
    rcases h.groups i hi with hmem | hended
    · rw [howner] at hmem
      exact (List.mem_cons.1 hmem).symm.imp_right fun heq => hjoin i heq.symm
    · exact Or.inr hended

/-- The calls and the flags are those of `main`. -/
theorem owner_of_ne {a : Action} (ha : a ≠ .owner) (hstep : st.step std a = some st') :
    st'.owner = st.owner ∧ st'.terminateFlag = st.terminateFlag := by
  cases a with
  | owner => exact absurd rfl ha
  | checkOms =>
    simp only [Stopping.step, Stopping.checkOms] at hstep
    obtain ⟨-, hstep⟩ := Option.ite_none_right_eq_some.1 hstep
    obtain rfl := Option.some.inj hstep
    exact ⟨rfl, rfl⟩
  | check i =>
    obtain ⟨pc, -, -, rfl⟩ := check_cases hstep
    exact ⟨rfl, rfl⟩
  | act a =>
    rw [Stopping.step] at hstep
    obtain ⟨-, hstep⟩ := Option.ite_none_right_eq_some.1 hstep
    obtain ⟨sys', -, rfl⟩ := Option.map_eq_some_iff.1 hstep
    exact goOn_flags.symm

theorem Ordered.step (h : Ordered st) (hinv : Inv st) {a : Action}
    (hstep : st.step std a = some st') : Ordered st' := by
  by_cases ha : a = .owner
  · subst ha
    exact h.call hstep
  · obtain ⟨hcalls, hflags⟩ := owner_of_ne ha hstep
    refine ⟨hcalls ▸ h.suffix, ?_, ?_, fun i hi => ?_⟩
    · rw [hcalls, hflags]
      exact h.before
    · rw [hcalls]
      exact fun hnot => (step_ended (i := 0) hinv hstep).1 (h.joined hnot)
    · rw [hcalls]
      exact (h.groups i hi).imp_right fun hgroup => ((step_ended hinv hstep).2 hgroup).1

theorem Ordered.run : ∀ {actions : List Action} {st : Stopping}, Ordered st → Inv st →
    st.run std actions = some st' → Ordered st'
  | [], _, h, _, hrun => Option.some.inj hrun ▸ h
  | a :: actions, st, h, hinv, hrun => by
    obtain ⟨st₁, hstep, hrest⟩ := Option.bind_eq_some_iff.1 hrun
    exact (h.step hinv hstep).run (hinv.step hstep) hrest

/-- The system makes a step, or stays as it is. -/
theorem sys_of_step {a : Action} (hstep : st.step std a = some st') : st'.sys = st.sys ∨
    ∃ b, st.Allowed b ∧ st.sys.step std b = some st'.sys := by
  cases a with
  | owner => exact Or.inl (call_same hstep).1
  | checkOms =>
    simp only [Stopping.step, Stopping.checkOms] at hstep
    obtain ⟨-, hstep⟩ := Option.ite_none_right_eq_some.1 hstep
    obtain rfl := Option.some.inj hstep
    exact Or.inl rfl
  | check i =>
    obtain ⟨pc, -, -, rfl⟩ := check_cases hstep
    exact Or.inl rfl
  | act b =>
    rw [Stopping.step] at hstep
    obtain ⟨hb, hstep⟩ := Option.ite_none_right_eq_some.1 hstep
    obtain ⟨sys', hsys, rfl⟩ := Option.map_eq_some_iff.1 hstep
    exact Or.inr ⟨b, hb, by rw [hsys, goOn_sys]⟩

/-- A slot whose price has not changed. -/
theorem step_poll {slot : ℕ} (hbox : st.sys.outbox = []) (hpc : st.sys.pc = .poll slot)
    (hsame : st.sys.lastPrice slot = st.sys.oms.lastSeenPrice slot) :
    st.step std (.act .poll) =
      some { st with sys := { st.sys with pc := System.afterPoll slot } } := by
  have hpoll : st.sys.oms.pollPrice std slot (st.sys.lastPrice slot) = st.sys.oms :=
    if_neg (not_not.2 hsame)
  have hgoOn : st.sys.goOn st.sys.oms (System.afterPoll slot) =
      { st.sys with pc := System.afterPoll slot } := by
    rw [System.goOn, List.drop_length, List.map_nil, ← hbox]
  have hsys : st.sys.step std .poll = some { st.sys with pc := System.afterPoll slot } := by
    change (if st.sys.outbox = [] then st.sys.omsStep std .poll else none) = _
    rw [if_pos hbox, System.omsStep, hpc]
    dsimp only
    rw [hpoll, hgoOn]
  have hallowed : st.Allowed .poll := trivial
  rw [Stopping.step, if_pos hallowed, hsys]
  rfl

/-- The group of the order that waits has ended, and its queue is full. -/
structure Stuck (st : Stopping) (i : ℕ) : Prop where
  inv : Inv st
  ended : st.groupLoop i = .ended
  waiting : ∃ order outbox, st.sys.outbox = order :: outbox ∧ groupOf order.symbolId = i
  full : (st.sys.groups i).processor.groupQueue.Full

theorem Stuck.omsLoop (h : Stuck st i) : st.omsLoop ≠ .ended := by
  intro hended
  obtain ⟨order, outbox, hbox, -⟩ := h.waiting
  have hempty := (h.inv.oms fun hchecking => LoopPc.noConfusion (hended.symm.trans hchecking)).2
  cases hempty.symm.trans hbox

/-- The tries fail, and the threads of the other groups change nothing of it. -/
theorem Stuck.sysStep (h : Stuck st i) (ha : ¬Passes i a) (hstep : st.sys.step std a = some sys') :
    sys'.outbox = st.sys.outbox ∧ sys'.oms = st.sys.oms ∧ sys'.groups i = st.sys.groups i := by
  obtain ⟨order, outbox, hbox, rfl⟩ := h.waiting
  have hquiet := h.inv.quiet _ fun hchecking => LoopPc.noConfusion (h.ended.symm.trans hchecking)
  have hnot := not_ofGroup_of_quiet hquiet ha hstep
  rcases System.waits_or_goes_on hstep with (rfl | ⟨j, hj, hof⟩) | ⟨hempty, -⟩
  · obtain ⟨order', outbox', accepted, queue, hbox', hpush, rfl⟩ := System.enqueue_cases hstep
    obtain ⟨rfl, rfl⟩ := List.cons.inj (hbox.symm.trans hbox')
    rw [RingBuffer.push_of_full h.full] at hpush
    obtain ⟨rfl, rfl⟩ := Prod.mk.inj (Except.ok.inj hpush)
    exact ⟨hbox.symm, rfl, Function.update_self ..⟩
  · have hne : groupOf order.symbolId ≠ j := fun heq => hnot (heq ▸ hof)
    obtain ⟨t, hgroups, -, hsame⟩ := ofGroup_cases hof hstep
    refine ⟨hsame, System.oms_of_waits (Or.inr ⟨j, hj, hof⟩) hstep, ?_⟩
    rw [hgroups, Function.update_of_ne hne]
  · cases hempty.symm.trans hbox


theorem Stuck.step (h : Stuck st i) {a : Action} (hstep : st.step std a = some st') :
    Stuck st' i ∧ st'.sys.outbox = st.sys.outbox ∧ st'.sys.oms = st.sys.oms := by
  obtain ⟨hbox, homs, hgroup⟩ : st'.sys.outbox = st.sys.outbox ∧ st'.sys.oms = st.sys.oms ∧
      st'.sys.groups i = st.sys.groups i := by
    rcases sys_of_step hstep with hsame | ⟨b, hb, hsys⟩
    · rw [hsame]
      exact ⟨rfl, rfl, rfl⟩
    · exact h.sysStep ((goOn_ended st.sys i hb).2 h.ended).1 hsys
  refine ⟨⟨h.inv.step hstep, ?_, hbox ▸ h.waiting, hgroup ▸ h.full⟩, hbox, homs⟩
  exact ((step_ended h.inv hstep).2 h.ended).1

/-- The join does not return. -/
theorem Stuck.owner (h : Stuck st i) {a : Action} (hstep : st.step std a = some st')
    (hmem : .joinOms ∈ st.owner) : .joinOms ∈ st'.owner := by
  by_cases ha : a = .owner
  · subst ha
    obtain ⟨c, rest, howner, hrest, hjoinOms, -⟩ := call_cases hstep
    rw [howner] at hmem
    rw [hrest]
    exact (List.mem_cons.1 hmem).resolve_left fun heq => h.omsLoop (hjoinOms heq.symm)
  · rw [(owner_of_ne ha hstep).1]
    exact hmem

theorem Stuck.run : ∀ {later : List Action} {st : Stopping}, Stuck st i →
    st.run std later = some st' → Stuck st' i ∧ st'.sys.outbox = st.sys.outbox ∧
      st'.sys.oms = st.sys.oms ∧ (.joinOms ∈ st.owner → .joinOms ∈ st'.owner)
  | [], st, h, hrun => by
    obtain rfl := Option.some.inj hrun
    exact ⟨h, rfl, rfl, id⟩
  | a :: later, st, h, hrun => by
    obtain ⟨st₁, hstep, hrest⟩ := Option.bind_eq_some_iff.1 hrun
    obtain ⟨h₁, hbox₁, homs₁⟩ := h.step hstep
    obtain ⟨h', hbox, homs, hmem⟩ := h₁.run hrest
    exact ⟨h', hbox.trans hbox₁, homs.trans homs₁, fun hjoin => hmem (h.owner hstep hjoin)⟩

/-- In any order : if the thread of a group has ended with its queue full, and `dispatch_order` is
at an order for it, it never returns, the order management system does nothing more, and `main`
does not get past the join. -/
theorem waits_for_ended_group (sys : System) (owner : List OwnerCall) {actions : List Action}
    (hrun : (start sys owner).run std actions = some st) {order : Order} {outbox : List Order}
    (hbox : st.sys.outbox = order :: outbox)
    (hended : st.groupLoop (groupOf order.symbolId) = .ended)
    (hfull : (st.sys.groups (groupOf order.symbolId)).processor.groupQueue.Full)
    {later : List Action} (hlater : st.run std later = some st') :
    st'.sys.outbox = st.sys.outbox ∧ st'.sys.oms = st.sys.oms ∧ st'.omsLoop ≠ .ended ∧
      (.joinOms ∈ st.owner → .joinOms ∈ st'.owner) := by
  have hstuck : Stuck st (groupOf order.symbolId) :=
    ⟨(inv_start sys owner).run hrun, hended, ⟨order, outbox, hbox, rfl⟩, hfull⟩
  obtain ⟨h', hbox', homs, hmem⟩ := hstuck.run hlater
  exact ⟨hbox', homs, h'.omsLoop, hmem⟩

/-- Each group has three orders in its queue when the engine is stopped, and one more comes. -/
def busyGroups (i : ℕ) : GroupProcessor :=
  { System.sampleGroups i with groupQueue := ⟨fun _ => zeroOrder, 4, 0, 3⟩ }

/-- The engine is terminated, and then an order is dispatched. -/
def orderAfterTerminate : List Action :=
  [.owner, .owner, .check ⟨0, zero_lt_groupCount⟩, .check ⟨1, one_lt_groupCount⟩, .checkOms,
    .act (.receive (some ⟨7, 100, 0, [65], 0, 0, .sell, 10, 0, 0, .limit, true⟩)),
      .act .enqueue, .owner]

theorem waits_for_ended_group_busy : ∃ st,
    (start (.start (Oms.init (fun _ => 1) 0 id id) busyGroups) testCalls).run (.sorting _)
      orderAfterTerminate = some st ∧
    st.shutdown = true ∧ st.sys.outbox.length = 1 ∧ ∀ later st',
      st.run (.sorting _) later = some st' →
        st'.sys.outbox = st.sys.outbox ∧ st'.omsLoop ≠ .ended ∧ .joinOms ∈ st'.owner := by
  have hview : ((start (.start (Oms.init (fun _ => 1) 0 id id) busyGroups) testCalls).run
      (.sorting _) orderAfterTerminate).map (fun st => (st.shutdown, st.owner.head?,
        st.sys.outbox.map fun o => (groupOf o.symbolId, st.groupLoop (groupOf o.symbolId),
          decide (st.sys.groups (groupOf o.symbolId)).processor.groupQueue.Full))) =
      some (true, some .joinOms, [(0, .ended, true)]) := by
    decide +kernel
  obtain ⟨st, hrun, hst⟩ := Option.map_eq_some_iff.1 hview
  obtain ⟨hshutdown, hst⟩ := Prod.mk.inj hst
  obtain ⟨howner, hbox⟩ := Prod.mk.inj hst
  obtain ⟨order, outbox, hcons, horder, hnil⟩ := List.map_eq_cons_iff.1 hbox
  obtain rfl := List.map_eq_nil_iff.1 hnil
  obtain ⟨-, hrest⟩ := Prod.mk.inj horder
  obtain ⟨hended, hfull⟩ := Prod.mk.inj hrest
  refine ⟨st, hrun, hshutdown, by rw [hcons]; rfl, fun later st' hlater => ?_⟩
  obtain ⟨hwaits, -, hloop, hjoin⟩ := waits_for_ended_group _ _ hrun hcons hended
    (of_decide_eq_true hfull) hlater
  exact ⟨hwaits, hloop, hjoin (List.mem_of_mem_head? howner)⟩

end Stopping

end TradeX
