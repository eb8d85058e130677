import Mathlib.Algebra.Order.BigOperators.Group.Finset
import TradeX.ReceivingServer

/-!
# Stopping the receiving server

`stop` of `OrderReceivingServer`, called at any point of a run : it sets the flag, closes the
listening socket, joins the accept thread, shuts down the connections and joins the sessions.
Each of these is a step that the other threads may come before or after.

An accept thread that has found the flag unset finds the listening socket shut down
(`Listening`), and there are no new sessions after it has been joined, so that `stop` reaches
every one that waits for its client (`Joining`). So `stop` returns (`stop_returns`) : it never
waits for a client, and after the flag has been set each step of a thread is one less to do. The
listening socket may be open afterwards, if it was opened after `stop` looked for it; the call in
the destructor closes it (`second_stop_closes`).
-/

namespace TradeX

namespace ReceivingServer

variable (st : ReceivingServer)

/-! ## The listening socket -/

/-- The accept thread has found the flag unset, and has not tested it again. -/
def InLoop : AcceptPc → Bool
  | .accept | .accepting _ | .failed | .register _ => true
  | _ => false

/-- How far `stop` is with the listening socket, when the accept thread is in its loop. -/
def Reached : Prop :=
  match st.ownerPc with
  | .idle | .testFd | .shutFd => st.ServerOpen
  | .closeFd => st.ServerOpen ∧ st.shut .server = true
  | .clearFd => st.shut .server = true
  | .join => st.serverFd = none ∧ st.shut .server = true
  | _ => False

/-- The listening socket is open as `server_fd` or not at all, and an accept thread in its loop
finds it shut down when `stop` joins it. -/
structure Listening : Prop where
  flag : st.ownerPc ≠ .idle → st.shutdown = true
  fresh : st.acceptPc = .socket → st.serverFd = none
  server : ∀ {fd}, st.table fd = some .server → st.serverFd = some fd
  foreign : st.ownerPc ≠ .clearFd → ∀ {fd i}, st.serverFd = some fd →
    st.table fd ≠ some (.client i)
  cleared : st.ownerPc = .clearFd ∨ st.acceptPc = .clear → ∀ fd, st.table fd ≠ some .server
  begun : st.ownerPc = .shutFd ∨ st.ownerPc = .closeFd ∨ st.ownerPc = .clearFd →
    st.acceptPc ≠ .socket
  tested : st.acceptPc = .test → st.shutdown = false → st.ServerOpen
  inLoop : InLoop st.acceptPc = true → st.Reached

variable {st : ReceivingServer} {st' : ReceivingServer} {i fd : ℕ}

theorem serverOpen_iff : st.ServerOpen ↔ ∃ fd, st.serverFd = some fd ∧
    st.table fd = some .server :=
  Option.bind_eq_some_iff

theorem listening_start (others : ℕ → Option ℕ) : Listening (start others) where
  flag h := absurd rfl h
  fresh _ := rfl
  server h := by simp [start] at h
  foreign _ _ _ h := by simp [start] at h
  cleared h := by simp [start] at h
  begun h := by simp [start] at h
  tested h := by simp [start] at h
  inLoop h := by simp [start, InLoop] at h

theorem Listening.idle (h : Listening st) (hflag : st.shutdown = false) : st.ownerPc = .idle := by
  by_contra hne
  rw [h.flag hne] at hflag
  cases hflag

/-- Before `stop`, the accept thread is in its loop with the socket open. -/
theorem Listening.open_of_inLoop (h : Listening st) (hin : InLoop st.acceptPc = true)
    (hflag : st.shutdown = false) : st.ServerOpen := by
  have hreached := h.inLoop hin
  rwa [Reached, h.idle hflag] at hreached

theorem Reached.of_same (h : st.Reached) (howner : st'.ownerPc = st.ownerPc)
    (hopen : st.ServerOpen → st'.ServerOpen) (hfd : st'.serverFd = st.serverFd)
    (hshut : st.shut .server = true → st'.shut .server = true) : st'.Reached := by
  unfold Reached at h ⊢
  rw [howner, hfd]
  split at h
  · exact hopen h
  · exact hopen h
  · exact hopen h
  · exact ⟨hopen h.1, hshut h.2⟩
  · exact hshut h
  · exact ⟨h.1, hshut h.2⟩
  · exact h.elim

/-- Until `stop` has closed it, the descriptor of the listening socket is not free. -/
theorem Reached.used (h : st.Reached) (hne : st.ownerPc ≠ .clearFd)
    (hfd : st.serverFd = some fd) : st.table fd ≠ none := by
  have hopen : st.ServerOpen → st.table fd ≠ none := by
    rintro hopen hfree
    rw [ServerOpen, hfd, Option.bind_some, hfree] at hopen
    cases hopen
  unfold Reached at h
  split at h
  · exact hopen h
  · exact hopen h
  · exact hopen h
  · exact hopen h.1
  next hpc => exact absurd hpc hne
  · exact absurd (hfd.symm.trans h.1) nofun
  · exact h.elim

/-- Sessions, and the rest of the process. -/
theorem Listening.of_same (h : Listening st) (hflag : st'.shutdown = st.shutdown)
    (howner : st'.ownerPc = st.ownerPc) (haccept : st'.acceptPc = st.acceptPc)
    (hfd : st'.serverFd = st.serverFd)
    (hserver : ∀ fd, st'.table fd = some .server ↔ st.table fd = some .server)
    (hclient : ∀ fd i, st'.table fd = some (.client i) → st.table fd = some (.client i))
    (hshut : st.shut .server = true → st'.shut .server = true) : Listening st' := by
  have hopen : st.ServerOpen → st'.ServerOpen := by
    rw [serverOpen_iff, serverOpen_iff, hfd]
    exact fun ⟨fd, hfd, hs⟩ => ⟨fd, hfd, (hserver fd).2 hs⟩
  constructor
  · rw [howner, hflag]
    exact h.flag
  · rw [haccept, hfd]
    exact h.fresh
  · intro fd hs
    rw [hfd]
    exact h.server ((hserver fd).1 hs)
  · intro hne fd i hfd' hs
    rw [howner] at hne
    rw [hfd] at hfd'
    exact h.foreign hne hfd' (hclient fd i hs)
  · rw [howner, haccept]
    exact fun hc fd hs => h.cleared hc fd ((hserver fd).1 hs)
  · rw [howner, haccept]
    exact h.begun
  · rw [haccept, hflag]
    exact fun hpc hf => hopen (h.tested hpc hf)
  · rw [haccept]
    exact fun hin => (h.inLoop hin).of_same howner hopen hfd hshut

/-- The accept thread goes on. -/
theorem Listening.withAcceptPc (h : Listening st) {pc : AcceptPc} (hsocket : pc ≠ .socket)
    (hclear : pc ≠ .clear) (htest : pc = .test → st.shutdown = false → st.ServerOpen)
    (hloop : InLoop pc = true → st.Reached) : Listening { st with acceptPc := pc } :=
  { h with
    fresh := fun hpc => absurd hpc hsocket
    cleared := fun hc => h.cleared (hc.imp_right fun hpc => absurd hpc hclear)
    begun := fun _ => hsocket
    tested := htest
    inLoop := hloop }

/-- After `close(server_fd)` the listening socket is not open. -/
theorem Listening.closed (h : Listening st) (fd : ℕ) :
    afterClose st.table st.serverFd fd ≠ some .server := fun hfd =>
  (afterClose_eq_some.1 hfd).1 (h.server (afterClose_eq_some.1 hfd).2)

/-- `bind` or `listen` has failed, and the socket is closed. -/
theorem Listening.abandon (h : Listening st) :
    Listening { st with table := afterClose st.table st.serverFd, acceptPc := .clear } :=
  { h with
    fresh := nofun
    server := fun hfd => absurd hfd (h.closed _)
    foreign := fun hne _ _ hfd hs => h.foreign hne hfd (of_afterClose _ hs)
    cleared := fun _ => h.closed
    begun := fun _ => nofun
    tested := nofun
    inLoop := nofun }

theorem Listening.clear (h : Listening st) (hpc : st.acceptPc = .clear) :
    Listening { st with serverFd := none, acceptPc := .returned } := by
  have hgone := h.cleared (Or.inr hpc)
  exact { h with
    fresh := nofun
    server := fun hfd => absurd hfd (hgone _)
    foreign := fun _ _ _ => nofun
    cleared := fun _ => hgone
    begun := fun _ => nofun
    tested := nofun
    inLoop := nofun }

/-- `socket` returns. -/
theorem Listening.socket (h : Listening st) (hpc : st.acceptPc = .socket)
    (hfree : st.table fd = none) :
    Listening { st with
      table := afterOpen st.table fd .server
      serverFd := some fd
      acceptPc := .bind } where
  flag := h.flag
  fresh := nofun
  server hs := by
    rcases (afterOpen_eq_some hfree).1 hs with ⟨rfl, -⟩ | hs
    · rfl
    · exact absurd ((h.fresh hpc).symm.trans (h.server hs)) nofun
  foreign _ fd' i hfd hs := by
    obtain rfl := Option.some.inj hfd
    rcases (afterOpen_eq_some hfree).1 hs with ⟨-, hs⟩ | hs
    · cases hs
    · rw [hfree] at hs
      cases hs
  cleared hc := hc.elim (fun hc => absurd hpc (h.begun (Or.inr (Or.inr hc)))) nofun
  begun _ := nofun
  tested := nofun
  inLoop := nofun

/-- `accept` returns. A descriptor that is not open is not `server_fd`, or `stop` has closed it. -/
theorem Listening.arrives (h : Listening st) (hin : InLoop st.acceptPc = true)
    (hfree : st.table fd = none) :
    Listening { st with
      table := afterOpen st.table fd (.client st.threadCount)
      acceptPc := .register fd } := by
  have hopen : st.ServerOpen → ServerOpen { st with
      table := afterOpen st.table fd (.client st.threadCount)
      acceptPc := .register fd } := by
    rw [serverOpen_iff, serverOpen_iff]
    exact fun ⟨fd', hfd', hs⟩ => ⟨fd', hfd', (afterOpen_eq_some hfree).2 (Or.inr hs)⟩
  have hreached := h.inLoop hin
  refine { h with
    fresh := nofun
    server := fun hs => ?_
    foreign := fun hne fd' i hfd hs => ?_
    cleared := fun hc fd' hs => ?_
    begun := fun _ => nofun
    tested := nofun
    inLoop := fun _ => hreached.of_same rfl hopen rfl id }
  · rcases (afterOpen_eq_some hfree).1 hs with ⟨-, hs⟩ | hs
    · cases hs
    · exact h.server hs
  · rcases (afterOpen_eq_some hfree).1 hs with ⟨rfl, -⟩ | hs
    · exact hreached.used hne hfd hfree
    · exact h.foreign hne hfd hs
  · rcases (afterOpen_eq_some hfree).1 hs with ⟨-, hs⟩ | hs
    · cases hs
    · exact h.cleared (hc.imp_right nofun) fd' hs

theorem Listening.addClient (h : Listening st) (hpc : st.acceptPc = .register fd) :
    Listening (st.addClient fd) := by
  have hin : InLoop st.acceptPc = true := by rw [hpc]; rfl
  have h' : Listening { st with acceptPc := .test } :=
    h.withAcceptPc nofun nofun (fun _ => h.open_of_inLoop hin) nofun
  exact { h' with }

/-- The owner goes on without a call for `server_fd`. -/
theorem Listening.withOwnerPc (h : Listening st) {pc : OwnerPc} (hflag : st.shutdown = true)
    (hold : st.ownerPc ≠ .clearFd) (hpc : pc ≠ .clearFd)
    (hbegun : pc = .shutFd ∨ pc = .closeFd → st.acceptPc ≠ .socket)
    (hloop : InLoop st.acceptPc = true → Reached { st with ownerPc := pc }) :
    Listening { st with ownerPc := pc } :=
  { h with
    flag := fun _ => hflag
    foreign := fun _ => h.foreign hold
    cleared := fun hc => h.cleared (hc.imp_left fun hc => absurd hc hpc)
    begun := fun hb => hbegun (hb.imp_right fun hb => hb.resolve_right hpc)
    inLoop := hloop }

theorem Listening.stop (h : Listening st) (hpc : st.ownerPc = .idle) :
    Listening { st with shutdown := true, ownerPc := .testFd } := by
  have hloop := h.inLoop
  rw [Reached, hpc] at hloop
  exact { h with
    flag := fun _ => rfl
    foreign := fun _ => h.foreign (by simp [hpc])
    cleared := fun hc => h.cleared (hc.imp_left nofun)
    begun := nofun
    tested := nofun
    inLoop := hloop }

theorem Listening.ownerStep (h : Listening st)
    (hended : st.joinable = false → st.acceptPc = .returned)
    (hstep : st.ownerStep = some st') : Listening st' := by
  have hloop := h.inLoop
  have hflag := h.flag
  have hnot : st.acceptPc = .returned → InLoop st.acceptPc = true → False := fun hret hin => by
    rw [hret] at hin
    cases hin
  unfold ReceivingServer.ownerStep at hstep
  split at hstep <;> rename_i hpc <;> simp only [Reached, hpc] at hloop hflag
  · cases hstep
  · obtain rfl := Option.some.inj hstep
    split_ifs with hfd
    · refine h.withOwnerPc (hflag nofun) (by simp [hpc]) nofun nofun fun hin => ?_
      obtain ⟨fd, hfd', -⟩ := serverOpen_iff.1 (hloop hin)
      exact absurd (hfd.symm.trans hfd') nofun
    · exact h.withOwnerPc (hflag nofun) (by simp [hpc]) nofun (fun _ hs => hfd (h.fresh hs)) hloop
  · obtain rfl := Option.some.inj hstep
    exact { h with
      flag := fun _ => hflag nofun
      foreign := fun _ => h.foreign (by simp [hpc])
      cleared := fun hc => h.cleared (hc.imp_left nofun)
      begun := fun _ => h.begun (Or.inl hpc)
      inLoop := fun hin => ⟨hloop hin, afterShutdown_eq_true.2 (Or.inr (hloop hin))⟩ }
  · obtain rfl := Option.some.inj hstep
    exact { h with
      flag := fun _ => hflag nofun
      server := fun hfd => absurd hfd (h.closed _)
      foreign := fun hne => absurd rfl hne
      cleared := fun _ => h.closed
      begun := fun _ => h.begun (Or.inr (Or.inl hpc))
      tested := fun _ hf => absurd (hf.symm.trans (hflag nofun)) nofun
      inLoop := fun hin => (hloop hin).2 }
  · obtain rfl := Option.some.inj hstep
    have hgone := h.cleared (Or.inl hpc)
    exact { h with
      flag := fun _ => hflag nofun
      fresh := fun _ => rfl
      server := fun hfd => absurd hfd (hgone _)
      foreign := fun _ _ _ => nofun
      cleared := fun _ => hgone
      begun := nofun
      tested := fun _ hf => absurd (hf.symm.trans (hflag nofun)) nofun
      inLoop := fun hin => ⟨rfl, hloop hin⟩ }
  · split_ifs at hstep with hjoin hret
    · obtain rfl := Option.some.inj hstep
      have h' : Listening { st with ownerPc := .lock } :=
        h.withOwnerPc (hflag nofun) (by simp [hpc]) nofun nofun (hnot hret)
      exact { h' with }
    · obtain rfl := Option.some.inj hstep
      have hret := hended (by simpa using hjoin)
      exact h.withOwnerPc (hflag nofun) (by simp [hpc]) nofun nofun (hnot hret)
  · obtain rfl := Option.some.inj hstep
    exact h.withOwnerPc (hflag nofun) (by simp [hpc]) nofun nofun hloop
  · obtain rfl := Option.some.inj hstep
    exact h.withOwnerPc (hflag nofun) (by simp [hpc]) nofun nofun hloop
  next fd fds =>
    obtain rfl := Option.some.inj hstep
    have h' : Listening { st with shut := afterShutdown st.table st.shut (some fd) } :=
      h.of_same rfl rfl rfl rfl (fun _ => Iff.rfl) (fun _ _ => id)
        fun hs => afterShutdown_eq_true.2 (Or.inl hs)
    exact h'.withOwnerPc (hflag nofun) (by simp [hpc]) nofun nofun hloop
  · split_ifs at hstep with hk hret
    · obtain rfl := Option.some.inj hstep
      exact h.withOwnerPc (hflag nofun) (by simp [hpc]) nofun nofun hloop
    · obtain rfl := Option.some.inj hstep
      have h' : Listening { st with ownerPc := .idle } :=
        h.withOwnerPc (hflag nofun) (by simp [hpc]) nofun nofun fun hin => (hloop hin).elim
      exact { h' with }

/-! ## The threads that `stop` joins -/

/-- `stop` has joined the accept thread. -/
def Late : OwnerPc → Bool
  | .lock | .shutting _ | .joining _ => true
  | _ => false

/-- Once the accept thread has ended there are no new sessions, and `stop` shuts down the
connections of those that have not closed them. -/
structure Joining (st : ReceivingServer) : Prop where
  ended : st.joinable = false → st.acceptPc = .returned
  unjoined : st.joinable = true → st.joined = 0
  joinable : Late st.ownerPc = true ∨ st.ownerPc = .idle ∧ st.shutdown = true →
    st.joinable = false
  told : ∀ {fds}, st.ownerPc = .shutting fds → ∀ i < st.threadCount,
    HoldsFd (st.clientThreads i).pc = true →
      st.shut (.client i) = true ∨ (st.clientThreads i).fd ∈ fds
  woken : ∀ {k}, st.ownerPc = .joining k → ∀ i < st.threadCount,
    HoldsFd (st.clientThreads i).pc = true → st.shut (.client i) = true
  before : ∀ {k}, st.ownerPc = .joining k → ∀ i < k, (st.clientThreads i).pc = .returned
  past : ∀ i < st.joined, (st.clientThreads i).pc = .returned
  gone : st.ownerPc = .idle → st.shutdown = true →
    ∀ i < st.threadCount, (st.clientThreads i).pc = .returned

theorem joining_start (others : ℕ → Option ℕ) : Joining (start others) where
  ended := nofun
  unjoined _ := rfl
  joinable h := by simp [start, Late] at h
  told := nofun
  woken := nofun
  before := nofun
  past _ h := absurd h (Nat.not_lt_zero _)
  gone _ := nofun

/-- As long as the accept thread has not ended, `stop` has not joined it. -/
theorem Joining.running (h : Joining st) (hpc : st.acceptPc ≠ .returned)
    (howner : st'.ownerPc = st.ownerPc) (hflag : st'.shutdown = st.shutdown)
    (hjoinable : st'.joinable = st.joinable) (hjoined : st'.joined = st.joined) : Joining st' := by
  have hjoin : st.joinable = true := by
    by_contra hne
    exact hpc (h.ended (by simpa using hne))
  have hzero := h.unjoined hjoin
  have hlate : ¬(Late st.ownerPc = true ∨ st.ownerPc = .idle ∧ st.shutdown = true) := by
    intro hlate
    rw [h.joinable hlate] at hjoin
    cases hjoin
  rw [← howner, ← hflag] at hlate
  refine ⟨?_, ?_, fun hl => absurd hl hlate, fun hp => ?_, fun hp => ?_, fun hp => ?_, ?_,
    fun hp hf => absurd (Or.inr ⟨hp, hf⟩) hlate⟩
  · rw [hjoinable, hjoin]
    exact nofun
  · rw [hjoined, hzero]
    exact fun _ => rfl
  · exact absurd (Or.inl (by rw [hp]; rfl)) hlate
  · exact absurd (Or.inl (by rw [hp]; rfl)) hlate
  · exact absurd (Or.inl (by rw [hp]; rfl)) hlate
  · rw [hjoined, hzero]
    exact fun _ hi => absurd hi (Nat.not_lt_zero _)

/-- A session goes on, and so does the rest of the process. -/
theorem Joining.of_same (h : Joining st) (hflag : st'.shutdown = st.shutdown)
    (howner : st'.ownerPc = st.ownerPc) (haccept : st'.acceptPc = st.acceptPc)
    (hjoinable : st'.joinable = st.joinable) (hjoined : st'.joined = st.joined)
    (hcount : st'.threadCount = st.threadCount)
    (hfd : ∀ j, (st'.clientThreads j).fd = (st.clientThreads j).fd)
    (hholds : ∀ j, HoldsFd (st'.clientThreads j).pc = true →
      HoldsFd (st.clientThreads j).pc = true)
    (hret : ∀ j, (st.clientThreads j).pc = .returned → (st'.clientThreads j).pc = .returned)
    (hshut : ∀ s, st.shut s = true → st'.shut s = true) : Joining st' := by
  constructor
  · rw [hjoinable, haccept]
    exact h.ended
  · rw [hjoinable, hjoined]
    exact h.unjoined
  · rw [howner, hflag, hjoinable]
    exact h.joinable
  · intro fds hpc i hi hpc'
    rw [hcount] at hi
    rw [hfd]
    exact (h.told (howner ▸ hpc) i hi (hholds i hpc')).imp_left (hshut _)
  · intro k hpc i hi hpc'
    rw [hcount] at hi
    exact hshut _ (h.woken (howner ▸ hpc) i hi (hholds i hpc'))
  · exact fun hpc i hi => hret i (h.before (howner ▸ hpc) i hi)
  · rw [hjoined]
    exact fun i hi => hret i (h.past i hi)
  · rw [howner, hflag, hcount]
    exact fun hpc hf i hi => hret i (h.gone hpc hf i hi)

/-- `stop` goes on to a point before it has joined the accept thread. -/
theorem Joining.early (h : Joining st) (howner : Late st'.ownerPc = false)
    (hidle : st'.ownerPc ≠ .idle) (haccept : st'.acceptPc = st.acceptPc)
    (hjoinable : st'.joinable = st.joinable) (hjoined : st'.joined = st.joined)
    (hthreads : st'.clientThreads = st.clientThreads) : Joining st' := by
  refine ⟨?_, ?_, fun hl => ?_, fun hp => ?_, fun hp => ?_, fun hp => ?_, ?_,
    fun hp => absurd hp hidle⟩
  · rw [hjoinable, haccept]
    exact h.ended
  · rw [hjoinable, hjoined]
    exact h.unjoined
  · rcases hl with hl | ⟨hp, -⟩
    · rw [howner] at hl
      cases hl
    · exact absurd hp hidle
  · rw [hp] at howner
    cases howner
  · rw [hp] at howner
    cases howner
  · rw [hp] at howner
    cases howner
  · rw [hjoined, hthreads]
    exact h.past

/-- A session that has not removed its descriptor is found by `stop`. -/
theorem Owned.mem_active (h : Owned st) (hi : i < st.threadCount)
    (hpc : Listed (st.clientThreads i).pc = true) :
    (st.clientThreads i).fd ∈ st.activeClientFds := by
  rw [← List.count_pos_iff, h.listed, listings]
  refine Nat.lt_of_lt_of_le Nat.zero_lt_one ?_
  refine Nat.le_trans ?_ (Finset.single_le_sum (fun _ _ => Nat.zero_le _) (Finset.mem_range.2 hi))
  simp [hpc]

theorem Joining.ownerStep (h : Joining st) (hown : Owned st) (hstep : st.ownerStep = some st') :
    Joining st' := by
  unfold ReceivingServer.ownerStep at hstep
  split at hstep <;> rename_i hpc
  · cases hstep
  · obtain rfl := Option.some.inj hstep
    split_ifs <;> exact h.early rfl nofun rfl rfl rfl rfl
  · obtain rfl := Option.some.inj hstep
    exact h.early rfl nofun rfl rfl rfl rfl
  · obtain rfl := Option.some.inj hstep
    exact h.early rfl nofun rfl rfl rfl rfl
  · obtain rfl := Option.some.inj hstep
    exact h.early rfl nofun rfl rfl rfl rfl
  · split_ifs at hstep with hjoin hret
    · obtain rfl := Option.some.inj hstep
      exact ⟨fun _ => hret, nofun, fun _ => rfl, nofun, nofun, nofun, h.past, nofun⟩
    · obtain rfl := Option.some.inj hstep
      have hjoin : st.joinable = false := by simpa using hjoin
      exact ⟨h.ended, h.unjoined, fun _ => hjoin, nofun, nofun, nofun, h.past, nofun⟩
  · obtain rfl := Option.some.inj hstep
    have hjoin := h.joinable (Or.inl (by rw [hpc]; rfl))
    refine ⟨h.ended, h.unjoined, fun _ => hjoin, fun hp i hi hholds => ?_, nofun, nofun, h.past,
      nofun⟩
    obtain rfl := OwnerPc.shutting.inj hp
    exact Or.inr (hown.mem_active hi (listed_of_holdsFd hholds))
  · obtain rfl := Option.some.inj hstep
    have hjoin := h.joinable (Or.inl (by rw [hpc]; rfl))
    refine ⟨h.ended, h.unjoined, fun _ => hjoin, nofun, fun _ i hi hholds => ?_, fun hp => ?_,
      h.past, nofun⟩
    · exact (h.told hpc i hi hholds).resolve_right List.not_mem_nil
    · obtain rfl := OwnerPc.joining.inj hp
      exact h.past
  next fd fds =>
    obtain rfl := Option.some.inj hstep
    have hjoin := h.joinable (Or.inl (by rw [hpc]; rfl))
    refine ⟨h.ended, h.unjoined, fun _ => hjoin, fun hp i hi hholds => ?_, nofun, nofun, h.past,
      nofun⟩
    obtain rfl := OwnerPc.shutting.inj hp
    rcases h.told hpc i hi hholds with hshut | hmem
    · exact Or.inl (afterShutdown_eq_true.2 (Or.inl hshut))
    · refine (List.mem_cons.1 hmem).imp_left fun hfd => ?_
      -- the descriptor is still the session's own connection
      rw [afterShutdown_eq_true, ← hfd]
      exact Or.inr (hown.held i hi hholds)
  next k =>
    have hjoin := h.joinable (Or.inl (by rw [hpc]; rfl))
    split_ifs at hstep with hk hret
    · obtain rfl := Option.some.inj hstep
      refine ⟨h.ended, h.unjoined, fun _ => hjoin, nofun, fun _ => h.woken hpc, fun hp i hi => ?_,
        h.past, nofun⟩
      obtain rfl := OwnerPc.joining.inj hp
      rcases Nat.lt_succ_iff_lt_or_eq.1 hi with hi | rfl
      · exact h.before hpc i hi
      · exact hret
    · obtain rfl := Option.some.inj hstep
      have hall : ∀ i < st.threadCount, (st.clientThreads i).pc = .returned := fun i hi =>
        h.before hpc i (Nat.lt_of_lt_of_le hi (Nat.le_of_not_lt hk))
      refine ⟨h.ended, fun hj => ?_, fun _ => hjoin, nofun, nofun, nofun, hall, fun _ _ => hall⟩
      exact absurd (hjoin.symm.trans hj) nofun

/-! ## Every run -/

/-- The descriptors have their owners, the listening socket is the accepting thread's, and the
threads are joined in turn. -/
structure Inv (st : ReceivingServer) : Prop where
  owned : Owned st
  listening : Listening st
  joining : Joining st

/-- Closing a socket closes no other. -/
theorem afterClose_of_other {table : ℕ → Option Socket} {fd fd' : ℕ} {s s' : Socket}
    (hfd : table fd = some s) (hne : s ≠ s') :
    afterClose table (some fd) fd' = some s' ↔ table fd' = some s' := by
  refine afterClose_eq_some.trans ⟨And.right, fun hfd' => ⟨fun heq => hne ?_, hfd'⟩⟩
  rw [← Option.some.inj heq, hfd] at hfd'
  exact Option.some.inj hfd'

/-- Closing `server_fd` closes no connection. -/
theorem Listening.keeps_clients (h : Listening st) (hne : st.ownerPc ≠ .clearFd) (fd i : ℕ) :
    afterClose st.table st.serverFd fd = some (.client i) ↔ st.table fd = some (.client i) := by
  rw [afterClose_eq_some]
  exact ⟨And.right, fun hs => ⟨fun hfd => h.foreign hne hfd hs, hs⟩⟩

theorem Owned.ownerStep (h : Owned st) (hlisten : Listening st) (hstep : st.ownerStep = some st') :
    Owned st' := by
  have hsame : ∀ {st'}, st'.table = st.table → st'.clientThreads = st.clientThreads →
      st'.threadCount = st.threadCount → st'.activeClientFds = st.activeClientFds →
      st'.acceptPc = st.acceptPc → Owned st' := by
    intro st' htable hthreads hcount hactive haccept
    exact h.of_same (.of_eq hcount hactive hthreads) (fun _ _ => by rw [htable])
      (fun _ => by rw [haccept]) (by rw [haccept]; exact id)
  unfold ReceivingServer.ownerStep at hstep
  split at hstep <;> rename_i hpc
  case h_1 => cases hstep
  case h_4 =>
    obtain rfl := Option.some.inj hstep
    exact h.of_same (.of_eq rfl rfl rfl) (hlisten.keeps_clients (by simp [hpc])) (fun _ => Iff.rfl)
      id
  case h_6 | h_10 =>
    split_ifs at hstep
    all_goals
      obtain rfl := Option.some.inj hstep
      exact hsame rfl rfl rfl rfl rfl
  all_goals
    obtain rfl := Option.some.inj hstep
    exact hsame rfl rfl rfl rfl rfl

/-- The accept thread goes on, with no connection before or after. -/
theorem Owned.withAcceptPc (h : Owned st) {pc : AcceptPc} (hsame : SameSessions st st')
    (htable : ∀ fd i, st'.table fd = some (.client i) ↔ st.table fd = some (.client i))
    (haccept : st'.acceptPc = pc) (hold : ∀ fd, st.acceptPc ≠ .register fd)
    (hnew : ∀ fd, pc ≠ .register fd)
    (hsetup : InSetup pc = true → InSetup st.acceptPc = true) : Owned st' :=
  h.of_same hsame htable (fun fd => iff_of_false (haccept ▸ hnew fd) (hold fd))
    (haccept ▸ hsetup)

/-- The accept thread does a step of its own. -/
theorem Inv.accept (h : Inv st) (hpc : st.acceptPc ≠ .returned) (howned : Owned st')
    (hlisten : Listening st') (howner : st'.ownerPc = st.ownerPc)
    (hflag : st'.shutdown = st.shutdown)
    (hjoinable : st'.joinable = st.joinable) (hjoined : st'.joined = st.joined) : Inv st' :=
  ⟨howned, hlisten, h.joining.running hpc howner hflag hjoinable hjoined⟩

/-- The accept thread goes on, and nothing else changes. -/
theorem Inv.withAcceptPc (h : Inv st) {pc : AcceptPc} (hret : st.acceptPc ≠ .returned)
    (hold : ∀ fd, st.acceptPc ≠ .register fd) (hnew : ∀ fd, pc ≠ .register fd)
    (hsetup : InSetup pc = true → InSetup st.acceptPc = true) (hsocket : pc ≠ .socket)
    (hclear : pc ≠ .clear) (htest : pc = .test → st.shutdown = false → st.ServerOpen)
    (hloop : InLoop pc = true → st.Reached) : Inv { st with acceptPc := pc } :=
  h.accept hret
    (h.owned.withAcceptPc (.of_eq rfl rfl rfl) (fun _ _ => Iff.rfl) rfl hold hnew hsetup)
    (h.listening.withAcceptPc hsocket hclear htest hloop) rfl rfl rfl rfl

theorem Inv.setup {ok : Bool} (h : Inv st) (hstep : st.setup ok = some st') : Inv st' := by
  unfold ReceivingServer.setup at hstep
  split at hstep
  · cases hstep
  next hok =>
    split at hstep <;> rename_i hpc
    · obtain rfl := Option.some.inj hstep
      have hsetup : InSetup st.acceptPc = true := by rw [hpc]; rfl
      cases ok <;> exact h.withAcceptPc (by simp [hpc]) (by simp [hpc]) nofun (fun _ => hsetup)
        nofun nofun nofun nofun
    · obtain rfl := Option.some.inj hstep
      have hsetup : InSetup st.acceptPc = true := by rw [hpc]; rfl
      cases ok with
      | false =>
        exact h.withAcceptPc (by simp [hpc]) (by simp [hpc]) nofun (fun _ => hsetup) nofun nofun
          nofun nofun
      | true =>
        exact h.withAcceptPc (by simp [hpc]) (by simp [hpc]) nofun (fun _ => hsetup) nofun nofun
          (fun _ _ => by_contra fun hn => hok ⟨rfl, hn⟩) nofun
    · cases hstep

theorem Inv.acceptStep (h : Inv st) (hstep : st.acceptStep = some st') : Inv st' := by
  unfold ReceivingServer.acceptStep at hstep
  split at hstep <;> rename_i hpc
  · obtain rfl := Option.some.inj hstep
    -- there are no connections yet
    have hnone : ∀ fd i, st.table fd ≠ some (.client i) := by
      intro fd i hfd
      rcases h.owned.client hfd with ⟨hi, -⟩ | ⟨-, hreg⟩
      · rw [h.owned.noSessions (by rw [hpc]; rfl)] at hi
        exact absurd hi (Nat.not_lt_zero _)
      · exact absurd (hpc.symm.trans hreg) nofun
    have hclient : ∀ fd i, afterClose st.table st.serverFd fd = some (.client i) ↔
        st.table fd = some (.client i) := fun fd i =>
      iff_of_false (fun hfd => hnone fd i (of_afterClose _ hfd)) (hnone fd i)
    exact h.accept (by simp [hpc]) (h.owned.withAcceptPc (.of_eq rfl rfl rfl) hclient rfl
      (by simp [hpc]) nofun fun _ => by rw [hpc]; rfl) h.listening.abandon rfl rfl rfl rfl
  · obtain rfl := Option.some.inj hstep
    exact h.accept (by simp [hpc]) (h.owned.withAcceptPc (.of_eq rfl rfl rfl) (fun _ _ => Iff.rfl)
      rfl (by simp [hpc]) nofun nofun) (h.listening.clear hpc) rfl rfl rfl rfl
  · obtain rfl := Option.some.inj hstep
    split_ifs with hflag
    · exact h.withAcceptPc (by simp [hpc]) (by simp [hpc]) nofun nofun nofun nofun nofun nofun
    · have hflag : st.shutdown = false := by simpa using hflag
      refine h.withAcceptPc (by simp [hpc]) (by simp [hpc]) nofun nofun nofun nofun nofun fun _ =>
        ?_
      rw [Reached, h.listening.idle hflag]
      exact h.listening.tested hpc hflag
  · obtain rfl := Option.some.inj hstep
    exact h.withAcceptPc (by simp [hpc]) (by simp [hpc]) nofun nofun nofun nofun nofun
      fun _ => h.listening.inLoop (by rw [hpc]; rfl)
  · obtain rfl := Option.some.inj hstep
    split_ifs
    · exact h.withAcceptPc (by simp [hpc]) (by simp [hpc]) nofun nofun nofun nofun nofun nofun
    · exact h.withAcceptPc (by simp [hpc]) (by simp [hpc]) nofun nofun nofun nofun
        (fun _ hf => h.listening.open_of_inLoop (by rw [hpc]; rfl) hf) nofun
  · cases hstep

theorem returned_setPc {pc : ClientPc} (hne : (st.clientThreads i).pc ≠ .returned) (j : ℕ)
    (hj : (st.clientThreads j).pc = .returned) :
    ((st.setPc i pc).clientThreads j).pc = .returned := by
  rwa [pc_setPc_of_ne]
  rintro rfl
  exact hne hj

/-- A session goes on, with its connection open. -/
theorem Inv.setPc (h : Inv st) {pc : ClientPc} (hold : HoldsFd (st.clientThreads i).pc = true)
    (hnew : HoldsFd pc = true) : Inv (st.setPc i pc) := by
  have hsame := sameSessions_setPc hold hnew
  have hne : (st.clientThreads i).pc ≠ .returned := by
    intro hpc
    rw [hpc] at hold
    cases hold
  exact ⟨h.owned.of_same hsame (fun _ _ => Iff.rfl) (fun _ => Iff.rfl) id,
    h.listening.of_same rfl rfl rfl rfl (fun _ => Iff.rfl) (fun _ _ => id) id,
    h.joining.of_same rfl rfl rfl rfl rfl rfl hsame.fd (fun j hj => (hsame.holds j).symm.trans hj)
      (returned_setPc hne) fun _ => id⟩

theorem Inv.withShut (h : Inv st) (fd : Option ℕ) :
    Inv { st with shut := afterShutdown st.table st.shut fd } := by
  have hshut : ∀ s, st.shut s = true → afterShutdown st.table st.shut fd s = true := fun s hs =>
    afterShutdown_eq_true.2 (Or.inl hs)
  exact ⟨h.owned.of_same (.of_eq rfl rfl rfl) (fun _ _ => Iff.rfl) (fun _ => Iff.rfl) id,
    h.listening.of_same rfl rfl rfl rfl (fun _ => Iff.rfl) (fun _ _ => id) (hshut _),
    h.joining.of_same rfl rfl rfl rfl rfl rfl (fun _ => rfl) (fun _ => id) (fun _ => id) hshut⟩

/-- A session closes its connection, which is not the listening socket. -/
theorem Inv.close (h : Inv st) (hi : i < st.threadCount) (hpc : (st.clientThreads i).pc = .close) :
    Inv { st.setPc i .remove with
      table := afterClose st.table (some (st.clientThreads i).fd) } := by
  have hown := h.owned.held i hi (by rw [hpc]; rfl)
  have hserver : ∀ fd, afterClose st.table (some (st.clientThreads i).fd) fd = some .server ↔
      st.table fd = some .server := fun _ => afterClose_of_other hown nofun
  have hclient : ∀ fd j, afterClose st.table (some (st.clientThreads i).fd) fd =
      some (.client j) → st.table fd = some (.client j) := fun _ _ => of_afterClose _
  have hholds : ∀ j, HoldsFd ((st.setPc i .remove).clientThreads j).pc = true →
      HoldsFd (st.clientThreads j).pc = true := by
    intro j hj
    rcases eq_or_ne j i with rfl | hne
    · rw [hpc]
      rfl
    · rwa [pc_setPc_of_ne _ hne] at hj
  exact ⟨h.owned.close hi hpc, h.listening.of_same rfl rfl rfl rfl hserver hclient id,
    h.joining.of_same rfl rfl rfl rfl rfl rfl (fd_setPc _) hholds (returned_setPc (by simp [hpc]))
      fun _ => id⟩

theorem Inv.remove (h : Inv st) (hi : i < st.threadCount)
    (hpc : (st.clientThreads i).pc = .remove) : Inv { st.setPc i .returned with
      activeClientFds := st.activeClientFds.erase (st.clientThreads i).fd } := by
  have hholds : ∀ j, HoldsFd ((st.setPc i .returned).clientThreads j).pc = true →
      HoldsFd (st.clientThreads j).pc = true := by
    intro j hj
    rcases eq_or_ne j i with rfl | hne
    · rw [pc_setPc_self] at hj
      cases hj
    · rwa [pc_setPc_of_ne _ hne] at hj
  exact ⟨h.owned.remove hi hpc,
    h.listening.of_same rfl rfl rfl rfl (fun _ => Iff.rfl) (fun _ _ => id) id,
    h.joining.of_same rfl rfl rfl rfl rfl rfl (fd_setPc _) hholds (returned_setPc (by simp [hpc]))
      fun _ => id⟩

theorem holdsFd_nextTest {flag : Bool} {pc pc' : ClientPc} (h : nextTest flag pc = some pc') :
    HoldsFd pc = true ∧ HoldsFd pc' = true := by
  unfold nextTest at h
  split at h
  · obtain rfl := Option.some.inj h
    split_ifs <;> exact ⟨rfl, rfl⟩
  · obtain rfl := Option.some.inj h
    split_ifs <;> exact ⟨rfl, rfl⟩
  · obtain rfl := Option.some.inj h
    split_ifs <;> exact ⟨rfl, rfl⟩
  · cases h

theorem holdsFd_recvNext {result : Option ℕ} {pc pc' : ClientPc}
    (h : recvNext result pc = some pc') : HoldsFd pc = true ∧ HoldsFd pc' = true := by
  unfold recvNext at h
  split at h
  · split at h
    · obtain rfl := Option.some.inj h
      exact ⟨rfl, rfl⟩
    · obtain rfl := Option.some.inj h
      exact ⟨rfl, rfl⟩
    · split_ifs at h
      obtain rfl := Option.some.inj h
      exact ⟨rfl, rfl⟩
  · cases h

theorem holdsFd_enqueueNext {enqueued : Bool} {pc pc' : ClientPc}
    (h : enqueueNext enqueued pc = some pc') : HoldsFd pc = true ∧ HoldsFd pc' = true := by
  unfold enqueueNext at h
  split at h
  · obtain rfl := Option.some.inj h
    exact ⟨rfl, rfl⟩
  · cases h

theorem goOn_eq_some {next : ClientPc → Option ClientPc} (h : st.goOn i next = some st') :
    i < st.threadCount ∧ ∃ pc, next (st.clientThreads i).pc = some pc ∧
      st' = st.setPc i pc := by
  unfold goOn at h
  split_ifs at h with hi
  obtain ⟨pc, hpc, rfl⟩ := Option.map_eq_some_iff.1 h
  exact ⟨hi, pc, hpc, rfl⟩

theorem Inv.goOn (h : Inv st) {next : ClientPc → Option ClientPc}
    (hnext : ∀ {pc pc'}, next pc = some pc' → HoldsFd pc = true ∧ HoldsFd pc' = true)
    (hstep : st.goOn i next = some st') : Inv st' := by
  obtain ⟨-, pc, hpc, rfl⟩ := goOn_eq_some hstep
  obtain ⟨hold, hnew⟩ := hnext hpc
  exact h.setPc hold hnew

theorem Inv.sessionStep (h : Inv st) (hi : i < st.threadCount)
    (hstep : st.sessionStep i = some st') : Inv st' := by
  unfold ReceivingServer.sessionStep at hstep
  split at hstep <;> rename_i hpc
  · obtain rfl := Option.some.inj hstep
    exact (h.withShut (some (st.clientThreads i).fd)).setPc (by rw [hpc]; rfl) rfl
  · obtain rfl := Option.some.inj hstep
    exact h.close hi hpc
  · split_ifs at hstep
    obtain rfl := Option.some.inj hstep
    exact h.remove hi hpc
  · obtain ⟨pc, hnext, rfl⟩ := Option.map_eq_some_iff.1 hstep
    obtain ⟨hold, hnew⟩ := holdsFd_nextTest hnext
    exact h.setPc hold hnew

/-- A file of another part of the process is opened or closed. -/
theorem Inv.withTable (h : Inv st) {table : ℕ → Option Socket}
    (hserver : ∀ fd, table fd = some .server ↔ st.table fd = some .server)
    (hclient : ∀ fd i, table fd = some (.client i) ↔ st.table fd = some (.client i)) :
    Inv { st with table := table } :=
  ⟨h.owned.of_same (.of_eq rfl rfl rfl) hclient (fun _ => Iff.rfl) id,
    h.listening.of_same rfl rfl rfl rfl hserver (fun fd i => (hclient fd i).1) id,
    h.joining.of_same rfl rfl rfl rfl rfl rfl (fun _ => rfl) (fun _ => id) (fun _ => id) fun _ =>
      id⟩

theorem Inv.step {action : Action} (h : Inv st) (hstep : st.step action = some st') : Inv st' := by
  cases action <;> simp only [ReceivingServer.step] at hstep
  case stop =>
    split_ifs at hstep with hpc
    obtain rfl := Option.some.inj hstep
    exact ⟨h.owned.of_same (.of_eq rfl rfl rfl) (fun _ _ => Iff.rfl) (fun _ => Iff.rfl) id,
      h.listening.stop hpc, h.joining.early rfl nofun rfl rfl rfl rfl⟩
  case owner =>
    exact ⟨h.owned.ownerStep h.listening hstep, h.listening.ownerStep h.joining.ended hstep,
      h.joining.ownerStep h.owned hstep⟩
  case socket fd =>
    split_ifs at hstep with hpc
    rcases fd with _ | fd
    · obtain rfl := Option.some.inj hstep
      exact h.withAcceptPc (by simp [hpc]) (by simp [hpc]) nofun nofun nofun nofun nofun nofun
    · dsimp only at hstep
      split_ifs at hstep with hfree
      obtain rfl := Option.some.inj hstep
      refine h.accept (by simp [hpc]) (h.owned.withAcceptPc (.of_eq rfl rfl rfl) (fun fd' i => ?_)
        rfl (by simp [hpc]) nofun fun _ => by rw [hpc]; rfl)
        (h.listening.socket hpc hfree) rfl rfl rfl rfl
      simp [afterOpen_eq_some hfree]
  case setup ok => exact h.setup hstep
  case acceptor => exact h.acceptStep hstep
  case arrives fd =>
    unfold ReceivingServer.arrives at hstep
    split at hstep <;> rename_i hpc
    · split_ifs at hstep with hfree
      obtain rfl := Option.some.inj hstep
      exact h.accept (by simp [hpc]) (h.owned.arrives (by simp [hpc]) hfree)
        (h.listening.arrives (by rw [hpc]; rfl) hfree) rfl rfl rfl rfl
    · cases hstep
  case acceptFails =>
    split at hstep <;> rename_i hpc
    · obtain rfl := Option.some.inj hstep
      exact h.withAcceptPc (by simp [hpc]) (by simp [hpc]) nofun nofun nofun nofun nofun
        fun _ => h.listening.inLoop (by rw [hpc]; rfl)
    · cases hstep
  case register =>
    unfold ReceivingServer.register at hstep
    split at hstep <;> rename_i hpc
    · split_ifs at hstep
      obtain rfl := Option.some.inj hstep
      exact h.accept (by simp [hpc]) (h.owned.addClient hpc) (h.listening.addClient hpc) rfl rfl rfl
        rfl
    · cases hstep
  case session i =>
    split_ifs at hstep with hi
    exact h.sessionStep hi hstep
  case recv i k =>
    split_ifs at hstep
    exact h.goOn holdsFd_recvNext hstep
  case interrupted i => exact h.goOn holdsFd_recvNext hstep
  case recvEnds i => exact h.goOn holdsFd_recvNext hstep
  case enqueue i enqueued => exact h.goOn holdsFd_enqueueNext hstep
  case openOther fd n =>
    split_ifs at hstep with hfree
    obtain rfl := Option.some.inj hstep
    refine h.withTable (fun fd => ?_) fun fd i => ?_
    · simp [afterOpen_eq_some hfree]
    · simp [afterOpen_eq_some hfree]
  case closeOther fd n =>
    split_ifs at hstep with hfd
    obtain rfl := Option.some.inj hstep
    exact h.withTable (fun _ => afterClose_of_other hfd nofun) fun _ _ => afterClose_of_other hfd
      nofun

theorem inv_start (others : ℕ → Option ℕ) : Inv (start others) :=
  ⟨owned_start others, listening_start others, joining_start others⟩

theorem Inv.run {actions : List Action} (h : Inv st) (hrun : st.run actions = some st') : Inv st' :=
  Runs.Steps.invariant (R := fun st action st' => ReceivingServer.step st action = some st')
    (I := Inv) (P := fun _ _ => True) (fun h _ hstep => h.step hstep) h
    (.of_forall_mem fun _ _ _ => trivial) (Runs.steps_iff_some.2 hrun)

theorem count_listed (clientThreads : ℕ → ClientThread) (fd : ℕ) : ∀ n,
    (((List.range n).filter fun i => Listed (clientThreads i).pc).map
      fun i => (clientThreads i).fd).count fd = listings clientThreads n fd
  | 0 => rfl
  | n + 1 => by
    have ih := count_listed clientThreads fd n
    rw [listings] at ih ⊢
    rw [List.range_succ, List.filter_append, List.map_append, List.count_append, ih,
      Finset.sum_range_succ]
    congr 1
    cases hpc : Listed (clientThreads n).pc <;> simp [hpc, List.count_singleton]

/-- In every run, a session's descriptor is open for its own connection until the session closes
it, no connection is open for anyone else, and `active_client_fds` has the descriptors of the
sessions that have not removed theirs, though they may be given out again before. -/
theorem sessions_own_descriptors (others : ℕ → Option ℕ) (actions : List Action)
    (hrun : (start others).run actions = some st) :
    (∀ i < st.threadCount, HoldsFd (st.clientThreads i).pc = true →
      st.table (st.clientThreads i).fd = some (.client i)) ∧
    (∀ fd i, st.table fd = some (.client i) →
      (i < st.threadCount ∧ HoldsFd (st.clientThreads i).pc = true ∧
        (st.clientThreads i).fd = fd) ∨ i = st.threadCount ∧ st.acceptPc = .register fd) ∧
    st.activeClientFds.Perm (((List.range st.threadCount).filter
      fun i => Listed (st.clientThreads i).pc).map fun i => (st.clientThreads i).fd) := by
  have h := ((inv_start others).run hrun).owned
  refine ⟨h.held, fun fd i => h.client, List.perm_iff_count.2 fun fd => ?_⟩
  rw [count_listed, h.listed]

/-- A client disconnects, and its descriptor 4 is given to the next one before the session has
removed it. -/
def reusedDescriptor : List Action :=
  [.socket (some 3), .setup true, .setup true, .acceptor, .acceptor, .arrives 4, .register,
    .session 0, .session 0, .recvEnds 0, .session 0, .session 0, .acceptor, .acceptor, .arrives 4,
    .register, .session 1, .session 1, .session 0]

theorem sessions_own_descriptors_reused :
    ∃ st, (start fun _ => none).run reusedDescriptor = some st ∧
      st.table 4 = some (.client 1) ∧ st.activeClientFds.Perm [4] := by
  refine ⟨_, rfl, ?_⟩
  have h := sessions_own_descriptors (fun _ => none) reusedDescriptor rfl
  exact ⟨h.1 1 (by decide) rfl, h.2.2⟩

/-! ## What is left to do -/

/-- The steps of a session after the flag has been set. -/
def sessionWork : ClientPc → ℕ
  | .recv _ => 8
  | .readTest _ => 7
  | .enqueue => 6
  | .enqueueTest _ => 5
  | .test => 4
  | .shut => 3
  | .close => 2
  | .remove => 1
  | .returned => 0

/-- The steps of the accept thread, with those of the session it may still start. -/
def acceptWork : AcceptPc → ℕ
  | .accept => 10
  | .accepting _ => 9
  | .register _ => 8
  | .socket => 5
  | .bind => 4
  | .listen => 3
  | .abandon => 2
  | .clear | .test | .failed => 1
  | .returned => 0

/-- The steps of the owner, with `m` descriptors in `active_client_fds`. -/
def ownerWork (threadCount joined m : ℕ) : OwnerPc → ℕ
  | .idle => 0
  | .joining k => threadCount - k + 1
  | .shutting fds => fds.length + (threadCount - joined) + 2
  | .lock => m + (threadCount - joined) + 3
  | .join => m + (threadCount - joined) + 4
  | .clearFd => m + (threadCount - joined) + 5
  | .closeFd => m + (threadCount - joined) + 6
  | .shutFd => m + (threadCount - joined) + 7
  | .testFd => m + (threadCount - joined) + 8

/-- The steps that are left, of all threads, once the server stops. -/
def work (st : ReceivingServer) : ℕ :=
  ownerWork st.threadCount st.joined st.activeClientFds.length st.ownerPc + acceptWork st.acceptPc +
    ∑ i ∈ Finset.range st.threadCount, sessionWork (st.clientThreads i).pc

/-- A step of one of the server's threads. -/
def IsServer : Action → Bool
  | .openOther _ _ | .closeOther _ _ => false
  | _ => true

theorem ownerWork_mono {n j m m' : ℕ} (hm : m' ≤ m) (pc : OwnerPc) :
    ownerWork n j m' pc ≤ ownerWork n j m pc := by
  cases pc <;> simp only [ownerWork] <;> omega

theorem ownerWork_addClient {n j m : ℕ} (pc : OwnerPc) :
    ownerWork (n + 1) j (m + 1) pc ≤ ownerWork n j m pc + 2 := by
  cases pc <;> simp only [ownerWork] <;> omega

/-- A session goes on, and takes its entry out of the list or not. -/
theorem work_setPc (hi : i < st.threadCount) {pc : ClientPc}
    (hpc : sessionWork pc < sessionWork (st.clientThreads i).pc)
    (hthreads : st'.clientThreads = (st.setPc i pc).clientThreads)
    (hcount : st'.threadCount = st.threadCount) (hjoined : st'.joined = st.joined)
    (howner : st'.ownerPc = st.ownerPc) (haccept : st'.acceptPc = st.acceptPc)
    (hactive : st'.activeClientFds.length ≤ st.activeClientFds.length) : work st' < work st := by
  have hchange := Counts.sum_change (Finset.mem_range.2 hi)
    (f := fun j => sessionWork ((st.setPc i pc).clientThreads j).pc)
    (g := fun j => sessionWork (st.clientThreads j).pc)
    fun j hne => by rw [pc_setPc_of_ne _ hne]
  rw [pc_setPc_self] at hchange
  have hmono := ownerWork_mono (n := st.threadCount) (j := st.joined) hactive st.ownerPc
  simp only [work, hthreads, hcount, hjoined, howner, haccept]
  omega

theorem sessionWork_nextTest {pc pc' : ClientPc} (h : nextTest true pc = some pc') :
    sessionWork pc' < sessionWork pc := by
  unfold nextTest at h
  split at h
  · obtain rfl := Option.some.inj h
    exact Nat.lt_succ_self 3
  · obtain rfl := Option.some.inj h
    split_ifs <;> simp_all [sessionWork]
  · obtain rfl := Option.some.inj h
    simp [sessionWork]
  · cases h

theorem sessionWork_recvNext {result : Option ℕ} {pc pc' : ClientPc}
    (h : recvNext result pc = some pc') : sessionWork pc' < sessionWork pc := by
  unfold recvNext at h
  split at h
  · split at h
    · obtain rfl := Option.some.inj h
      simp [sessionWork]
    · obtain rfl := Option.some.inj h
      simp [sessionWork]
    · split_ifs at h
      obtain rfl := Option.some.inj h
      simp [sessionWork]
  · cases h

theorem sessionWork_enqueueNext {enqueued : Bool} {pc pc' : ClientPc}
    (h : enqueueNext enqueued pc = some pc') : sessionWork pc' < sessionWork pc := by
  unfold enqueueNext at h
  split at h
  · obtain rfl := Option.some.inj h
    simp [sessionWork]
  · cases h

theorem work_goOn {next : ClientPc → Option ClientPc}
    (hnext : ∀ {pc pc'}, next pc = some pc' → sessionWork pc' < sessionWork pc)
    (hstep : st.goOn i next = some st') : work st' < work st := by
  obtain ⟨hi, pc, hpc, rfl⟩ := goOn_eq_some hstep
  exact work_setPc hi (hnext hpc) rfl rfl rfl rfl rfl (Nat.le_refl _)

theorem work_sessionStep (hflag : st.shutdown = true) (hi : i < st.threadCount)
    (hstep : st.sessionStep i = some st') : work st' < work st := by
  unfold sessionStep at hstep
  split at hstep <;> rename_i hpc
  · obtain rfl := Option.some.inj hstep
    exact work_setPc hi (by rw [hpc]; exact Nat.lt_succ_self 2) rfl rfl rfl rfl rfl (Nat.le_refl _)
  · obtain rfl := Option.some.inj hstep
    exact work_setPc hi (by rw [hpc]; exact Nat.lt_succ_self 1) rfl rfl rfl rfl rfl (Nat.le_refl _)
  · split_ifs at hstep
    obtain rfl := Option.some.inj hstep
    exact work_setPc hi (by rw [hpc]; exact Nat.lt_succ_self 0) rfl rfl rfl rfl rfl
      List.length_erase_le
  · obtain ⟨pc, hnext, rfl⟩ := Option.map_eq_some_iff.1 hstep
    rw [hflag] at hnext
    exact work_setPc hi (sessionWork_nextTest hnext) rfl rfl rfl rfl rfl (Nat.le_refl _)

theorem work_ownerStep (hstep : st.ownerStep = some st') : work st' < work st := by
  unfold ownerStep at hstep
  split at hstep <;> rename_i hpc
  case h_1 => cases hstep
  case h_2 =>
    obtain rfl := Option.some.inj hstep
    simp only [work, hpc]
    split_ifs <;> simp only [ownerWork] <;> omega
  case h_6 | h_10 =>
    split_ifs at hstep <;>
    · obtain rfl := Option.some.inj hstep
      simp only [work, hpc, ownerWork]
      omega
  all_goals
    obtain rfl := Option.some.inj hstep
    simp only [work, hpc, ownerWork, List.length_nil, List.length_cons]
    omega

/-- The accept thread goes on. -/
theorem work_withAcceptPc {pc : AcceptPc} (hpc : acceptWork pc < acceptWork st.acceptPc)
    (hthreads : st'.clientThreads = st.clientThreads) (hcount : st'.threadCount = st.threadCount)
    (hjoined : st'.joined = st.joined) (howner : st'.ownerPc = st.ownerPc)
    (hactive : st'.activeClientFds = st.activeClientFds) (haccept : st'.acceptPc = pc) :
    work st' < work st := by
  simp only [work, hthreads, hcount, hjoined, howner, hactive, haccept]
  omega

theorem work_acceptStep (hflag : st.shutdown = true) (hstep : st.acceptStep = some st') :
    work st' < work st := by
  unfold acceptStep at hstep
  split at hstep <;> rename_i hpc
  case h_6 => cases hstep
  all_goals
    obtain rfl := Option.some.inj hstep
    refine work_withAcceptPc ?_ rfl rfl rfl rfl rfl rfl
    simp [hpc, hflag, acceptWork]

theorem work_addClient (hpc : st.acceptPc = .register fd) : work (st.addClient fd) < work st := by
  have hsum : ∑ i ∈ Finset.range st.threadCount,
      sessionWork ((st.addClient fd).clientThreads i).pc =
      ∑ i ∈ Finset.range st.threadCount, sessionWork (st.clientThreads i).pc :=
    Finset.sum_congr rfl fun i hi => by
      rw [clientThreads_addClient_of_lt fd (Finset.mem_range.1 hi)]
  have hwork : work (st.addClient fd) =
      ownerWork (st.threadCount + 1) st.joined (st.activeClientFds ++ [fd]).length st.ownerPc + 1 +
        ∑ i ∈ Finset.range (st.threadCount + 1),
          sessionWork ((st.addClient fd).clientThreads i).pc :=
    rfl
  have howner := ownerWork_addClient (n := st.threadCount) (j := st.joined)
    (m := st.activeClientFds.length) st.ownerPc
  rw [hwork, Finset.sum_range_succ, hsum, clientThreads_addClient_self, List.length_append]
  simp only [work, hpc, acceptWork, sessionWork, List.length_singleton]
  omega

/-- Every step of a thread after `stop` has set the flag is one less to do. -/
theorem work_lt {action : Action} (hflag : st.shutdown = true) (hne : action ≠ .stop)
    (hserver : IsServer action = true) (hstep : st.step action = some st') :
    work st' < work st := by
  cases action <;> simp only [ReceivingServer.step] at hstep
  case stop => exact absurd rfl hne
  case owner => exact work_ownerStep hstep
  case socket fd =>
    split_ifs at hstep with hpc
    rcases fd with _ | fd
    · obtain rfl := Option.some.inj hstep
      exact work_withAcceptPc (by simp [hpc, acceptWork]) rfl rfl rfl rfl rfl rfl
    · dsimp only at hstep
      split_ifs at hstep
      obtain rfl := Option.some.inj hstep
      exact work_withAcceptPc (by simp [hpc, acceptWork]) rfl rfl rfl rfl rfl rfl
  case setup ok =>
    unfold setup at hstep
    split at hstep
    · cases hstep
    · split at hstep <;> rename_i hpc
      case h_3 => cases hstep
      all_goals
        obtain rfl := Option.some.inj hstep
        refine work_withAcceptPc ?_ rfl rfl rfl rfl rfl rfl
        cases ok <;> simp [hpc, acceptWork]
  case acceptor => exact work_acceptStep hflag hstep
  case arrives fd =>
    unfold arrives at hstep
    split at hstep <;> rename_i hpc
    · split_ifs at hstep
      obtain rfl := Option.some.inj hstep
      exact work_withAcceptPc (by simp [hpc, acceptWork]) rfl rfl rfl rfl rfl rfl
    · cases hstep
  case acceptFails =>
    split at hstep <;> rename_i hpc
    · obtain rfl := Option.some.inj hstep
      exact work_withAcceptPc (by simp [hpc, acceptWork]) rfl rfl rfl rfl rfl rfl
    · cases hstep
  case register =>
    unfold register at hstep
    split at hstep <;> rename_i hpc
    · split_ifs at hstep
      obtain rfl := Option.some.inj hstep
      exact work_addClient hpc
    · cases hstep
  case session i =>
    split_ifs at hstep with hi
    exact work_sessionStep hflag hi hstep
  case recv i k =>
    split_ifs at hstep
    exact work_goOn sessionWork_recvNext hstep
  case interrupted i => exact work_goOn sessionWork_recvNext hstep
  case recvEnds i => exact work_goOn sessionWork_recvNext hstep
  case enqueue i enqueued => exact work_goOn sessionWork_enqueueNext hstep
  all_goals cases hserver

/-! ## `stop` returns -/

/-- A step that no client, and nothing else outside of the server, has to make possible. A call
of `accept` or `recv` returns by itself when its socket has been shut down. -/
def Unaided (st : ReceivingServer) : Action → Prop
  | .owner | .acceptor | .register | .session _ | .socket _ | .setup _ | .enqueue _ _ => True
  | .acceptFails => st.shut .server = true
  | .recvEnds i => st.shut (.client i) = true
  | _ => False

/-- Some step can be taken unaided. -/
def Moves (st : ReceivingServer) : Prop :=
  ∃ action st', Unaided st action ∧ st.step action = some st'

/-- What no step undoes. -/
structure Forward (action : Action) (st st' : ReceivingServer) : Prop where
  flag : st.shutdown = true → st'.shutdown = true
  ended : st.acceptPc = .returned → st'.acceptPc = .returned
  joinable : st.joinable = false → st'.joinable = false
  server : st.acceptPc ≠ .socket → ∀ fd, st'.table fd = some .server →
    st.table fd = some .server
  owner : action ≠ .stop → action ≠ .owner → st'.ownerPc = st.ownerPc

variable {action : Action}

theorem Forward.of_same (hflag : st'.shutdown = st.shutdown) (haccept : st'.acceptPc = st.acceptPc)
    (hjoinable : st'.joinable = st.joinable)
    (howner : action ≠ .owner → st'.ownerPc = st.ownerPc)
    (hserver : ∀ fd, st'.table fd = some .server → st.table fd = some .server) :
    Forward action st st' :=
  ⟨hflag.trans, haccept.trans, hjoinable.trans, fun _ => hserver, fun _ => howner⟩

theorem Forward.of_accept (hpc : st.acceptPc ≠ .returned) (hflag : st'.shutdown = st.shutdown)
    (hjoinable : st'.joinable = st.joinable) (howner : st'.ownerPc = st.ownerPc)
    (hserver : st.acceptPc ≠ .socket →
      ∀ fd, st'.table fd = some .server → st.table fd = some .server) : Forward action st st' :=
  ⟨hflag.trans, fun hret => absurd hret hpc, hjoinable.trans, hserver, fun _ _ => howner⟩

theorem forward_ownerStep (hstep : st.ownerStep = some st') : Forward .owner st st' := by
  unfold ownerStep at hstep
  split at hstep
  case h_1 => cases hstep
  case h_4 =>
    obtain rfl := Option.some.inj hstep
    exact .of_same rfl rfl rfl (absurd rfl) fun _ => of_afterClose st.serverFd
  case h_6 =>
    split_ifs at hstep
    · obtain rfl := Option.some.inj hstep
      exact ⟨id, id, fun _ => rfl, fun _ _ => id, fun _ => absurd rfl⟩
    · obtain rfl := Option.some.inj hstep
      exact .of_same rfl rfl rfl (absurd rfl) fun _ => id
  case h_10 =>
    split_ifs at hstep
    all_goals
      obtain rfl := Option.some.inj hstep
      exact .of_same rfl rfl rfl (absurd rfl) fun _ => id
  all_goals
    obtain rfl := Option.some.inj hstep
    exact .of_same rfl rfl rfl (absurd rfl) fun _ => id

theorem forward_acceptStep (hstep : st.acceptStep = some st') : Forward action st st' := by
  unfold acceptStep at hstep
  split at hstep <;> rename_i hpc
  case h_1 =>
    obtain rfl := Option.some.inj hstep
    exact .of_accept (by simp [hpc]) rfl rfl rfl fun _ _ => of_afterClose st.serverFd
  case h_6 => cases hstep
  all_goals
    obtain rfl := Option.some.inj hstep
    exact .of_accept (by simp [hpc]) rfl rfl rfl fun _ _ => id

theorem forward_sessionStep (hstep : st.sessionStep i = some st') : Forward action st st' := by
  unfold sessionStep at hstep
  split at hstep
  · obtain rfl := Option.some.inj hstep
    exact .of_same rfl rfl rfl (fun _ => rfl) fun _ => id
  · obtain rfl := Option.some.inj hstep
    exact .of_same rfl rfl rfl (fun _ => rfl) fun _ => of_afterClose (some (st.clientThreads i).fd)
  · split_ifs at hstep
    obtain rfl := Option.some.inj hstep
    exact .of_same rfl rfl rfl (fun _ => rfl) fun _ => id
  · obtain ⟨pc, -, rfl⟩ := Option.map_eq_some_iff.1 hstep
    exact .of_same rfl rfl rfl (fun _ => rfl) fun _ => id

theorem forward_goOn {next : ClientPc → Option ClientPc} (hstep : st.goOn i next = some st') :
    Forward action st st' := by
  obtain ⟨-, pc, -, rfl⟩ := goOn_eq_some hstep
  exact .of_same rfl rfl rfl (fun _ => rfl) fun _ => id

theorem forward_step (hstep : st.step action = some st') : Forward action st st' := by
  cases action <;> simp only [ReceivingServer.step] at hstep
  case stop =>
    split_ifs at hstep
    obtain rfl := Option.some.inj hstep
    exact ⟨fun _ => rfl, id, id, fun _ _ => id, absurd rfl⟩
  case owner => exact forward_ownerStep hstep
  case socket fd =>
    split_ifs at hstep with hpc
    rcases fd with _ | fd
    · obtain rfl := Option.some.inj hstep
      exact .of_accept (by simp [hpc]) rfl rfl rfl fun _ _ => id
    · dsimp only at hstep
      split_ifs at hstep
      obtain rfl := Option.some.inj hstep
      exact .of_accept (by simp [hpc]) rfl rfl rfl fun hne => absurd hpc hne
  case setup ok =>
    unfold ReceivingServer.setup at hstep
    split at hstep
    · cases hstep
    · split at hstep <;> rename_i hpc
      case h_3 => cases hstep
      all_goals
        obtain rfl := Option.some.inj hstep
        exact .of_accept (by simp [hpc]) rfl rfl rfl fun _ _ => id
  case acceptor => exact forward_acceptStep hstep
  case arrives fd =>
    unfold ReceivingServer.arrives at hstep
    split at hstep <;> rename_i hpc
    · split_ifs at hstep with hfree
      obtain rfl := Option.some.inj hstep
      refine .of_accept (by simp [hpc]) rfl rfl rfl fun _ fd' hs => ?_
      exact ((afterOpen_eq_some hfree).1 hs).resolve_left fun h => absurd h.2 nofun
    · cases hstep
  case acceptFails =>
    split at hstep <;> rename_i hpc
    · obtain rfl := Option.some.inj hstep
      exact .of_accept (by simp [hpc]) rfl rfl rfl fun _ _ => id
    · cases hstep
  case register =>
    unfold ReceivingServer.register at hstep
    split at hstep <;> rename_i hpc
    · split_ifs at hstep
      obtain rfl := Option.some.inj hstep
      exact .of_accept (by simp [hpc]) rfl rfl rfl fun _ _ => id
    · cases hstep
  case session i =>
    split_ifs at hstep
    exact forward_sessionStep hstep
  case recv i k =>
    split_ifs at hstep
    exact forward_goOn hstep
  case interrupted i => exact forward_goOn hstep
  case recvEnds i => exact forward_goOn hstep
  case enqueue i enqueued => exact forward_goOn hstep
  case openOther fd n =>
    split_ifs at hstep with hfree
    obtain rfl := Option.some.inj hstep
    refine .of_same rfl rfl rfl (fun _ => rfl) fun fd' hs => ?_
    exact ((afterOpen_eq_some hfree).1 hs).resolve_left fun h => absurd h.2 nofun
  case closeOther fd n =>
    split_ifs at hstep
    obtain rfl := Option.some.inj hstep
    exact .of_same rfl rfl rfl (fun _ => rfl) fun _ => of_afterClose (some fd)

/-- All threads have ended, and the connections are closed and no longer listed. -/
structure Stopped (st : ReceivingServer) : Prop where
  acceptor : st.acceptPc = .returned
  sessions : ∀ i < st.threadCount, (st.clientThreads i).pc = .returned
  active : st.activeClientFds = []
  connections : ∀ fd i, st.table fd ≠ some (.client i)

theorem Inv.stopped (h : Inv st) (hidle : st.ownerPc = .idle) (hflag : st.shutdown = true) :
    Stopped st := by
  have hret := h.joining.ended (h.joining.joinable (Or.inr ⟨hidle, hflag⟩))
  have hgone := h.joining.gone hidle hflag
  refine ⟨hret, hgone, List.eq_nil_iff_forall_not_mem.2 fun fd hfd => ?_, fun fd i hfd => ?_⟩
  · have hcount := List.count_pos_iff.2 hfd
    rw [h.owned.listed, listings, Finset.sum_eq_zero] at hcount
    · exact Nat.lt_irrefl 0 hcount
    · intro i hi
      rw [hgone i (Finset.mem_range.1 hi)]
      rfl
  · rcases h.owned.client hfd with ⟨hi, hholds, -⟩ | ⟨-, hreg⟩
    · rw [hgone i hi] at hholds
      cases hholds
    · cases hret.symm.trans hreg

theorem shutdown_run {actions : List Action} (hflag : st.shutdown = true)
    (hrun : st.run actions = some st') : st'.shutdown = true :=
  Runs.Steps.invariant (R := fun st action st' => ReceivingServer.step st action = some st')
    (I := fun st => st.shutdown = true) (P := fun _ _ => True)
    (fun h _ hstep => (forward_step hstep).flag h) hflag (.of_forall_mem fun _ _ _ => trivial)
    (Runs.steps_iff_some.2 hrun)

/-- The second call of `stop` is before `close(server_fd)`, or the listening socket is closed. -/
structure Closing (st : ReceivingServer) : Prop where
  ended : st.acceptPc = .returned
  closed : st.ownerPc = .testFd ∨ st.ownerPc = .shutFd ∨ st.ownerPc = .closeFd ∨
    ∀ fd, st.table fd ≠ some .server

theorem Closing.ownerStep (h : Closing st) (hinv : Inv st) (hstep : st.ownerStep = some st')
    (hgone : (∀ fd, st.table fd ≠ some .server) → ∀ fd, st'.table fd ≠ some .server) :
    st'.ownerPc = .testFd ∨ st'.ownerPc = .shutFd ∨ st'.ownerPc = .closeFd ∨
      ∀ fd, st'.table fd ≠ some .server := by
  rcases h.closed with hpc | hpc | hpc | hclosed
  · simp only [ReceivingServer.ownerStep, hpc] at hstep
    obtain rfl := Option.some.inj hstep
    by_cases hfd : st.serverFd = none
    · refine Or.inr (Or.inr (Or.inr fun fd hs => ?_))
      exact absurd (hfd.symm.trans (hinv.listening.server hs)) nofun
    · exact Or.inr (Or.inl (if_neg hfd))
  · simp only [ReceivingServer.ownerStep, hpc] at hstep
    obtain rfl := Option.some.inj hstep
    exact Or.inr (Or.inr (Or.inl rfl))
  · simp only [ReceivingServer.ownerStep, hpc] at hstep
    obtain rfl := Option.some.inj hstep
    exact Or.inr (Or.inr (Or.inr hinv.listening.closed))
  · exact Or.inr (Or.inr (Or.inr (hgone hclosed)))

theorem Closing.step (h : Closing st) (hinv : Inv st) (hne : action ≠ .stop)
    (hstep : st.step action = some st') : Closing st' := by
  have hforward := forward_step hstep
  have hserver := hforward.server (by rw [h.ended]; exact nofun)
  have hgone : (∀ fd, st.table fd ≠ some .server) → ∀ fd, st'.table fd ≠ some .server :=
    fun hgone fd hs => hgone fd (hserver fd hs)
  refine ⟨hforward.ended h.ended, ?_⟩
  by_cases howner : action = .owner
  · subst howner
    exact h.ownerStep hinv hstep hgone
  · rw [hforward.owner hne howner]
    exact h.closed.imp id (Or.imp id (Or.imp id hgone))

/-- The destructor calls `stop` again. A listening socket that the first call has left open, since
the accept thread had not opened it yet, is closed by the second. -/
theorem second_stop_closes (others : ℕ → Option ℕ) (actions : List Action)
    (hrun : (start others).run actions = some st) (hidle : st.ownerPc = .idle)
    (hflag : st.shutdown = true) (more : List Action) (hne : .stop ∉ more)
    (hmore : st.run (.stop :: more) = some st') (hidle' : st'.ownerPc = .idle) :
    ∀ fd s, st'.table fd = some s → ∃ n, s = .other n := by
  have h := (inv_start others).run hrun
  have h' := h.run hmore
  obtain ⟨st₁, hstep, hrest⟩ := Option.bind_eq_some_iff.1 hmore
  have hclosing : Closing st₁ := by
    have hended := (h.stopped hidle hflag).acceptor
    obtain ⟨-, hst₁⟩ := Option.ite_none_right_eq_some.1 hstep
    rw [← Option.some.inj hst₁]
    exact ⟨hended, Or.inl rfl⟩
  have hlast : Inv st' ∧ Closing st' :=
    Runs.Steps.invariant (R := fun st action st' => ReceivingServer.step st action = some st')
      (I := fun st => Inv st ∧ Closing st) (P := fun _ action => action ≠ .stop)
      (fun h hne hstep => ⟨h.1.step hstep, h.2.step h.1 hne hstep⟩) ⟨h.step hstep, hclosing⟩
      (.of_forall_mem fun action ha _ heq => hne (heq ▸ ha)) (Runs.steps_iff_some.2 hrest)
  intro fd s hs
  rcases s with _ | i | n
  · rcases hlast.2.closed with hpc | hpc | hpc | hgone
    · exact absurd (hidle'.symm.trans hpc) nofun
    · exact absurd (hidle'.symm.trans hpc) nofun
    · exact absurd (hidle'.symm.trans hpc) nofun
    · exact absurd hs (hgone fd)
  · exact absurd hs ((h'.stopped hidle' (shutdown_run hflag hmore)).connections fd i)
  · exact ⟨n, rfl⟩

/-- `stop` is called before the accept thread has run. -/
def earlyStop : List Action :=
  [.stop, .owner, .socket (some 3), .setup true, .setup true, .acceptor, .owner, .owner, .owner,
    .owner]

theorem second_stop_closes_early : ∃ st st', (start fun _ => none).run earlyStop = some st ∧
    st.table 3 = some .server ∧ st.run (.stop :: List.replicate 8 .owner) = some st' ∧
      ∀ fd s, st'.table fd = some s → ∃ n, s = .other n :=
  ⟨_, _, rfl, rfl, rfl, second_stop_closes (fun _ => none) earlyStop rfl rfl rfl
    (List.replicate 8 .owner) (by decide) rfl rfl⟩

end ReceivingServer

end TradeX
