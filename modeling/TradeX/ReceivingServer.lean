import TradeX.OrderIngest
import TradeX.Library.Counts

/-!
# The receiving server

The threads of `OrderReceivingServer` in any order : `acceptLoop`, a `clientSession` for each
connection it has accepted, and the owner of the server, which calls `stop`. A thread's calls of
the system are steps of their own, so that `stop` may find the socket at every point of its
life. A descriptor is a number, and one that has been closed is given to the next socket that is
opened, of this server or of another part of the process, even while it is still in
`active_client_fds`.

`Owned` says which socket each number stands for, in every run : a session's number is its own
connection until the session closes it, and `active_client_fds` has a number as often as there
are sessions with it.
-/

namespace TradeX

/-- What an open descriptor stands for : the listening socket, the connection of a session, or a
file of another part of the process. -/
inductive Socket
  | server
  | client (i : ℕ)
  | other (n : ℕ)
  deriving DecidableEq

/-- Where `acceptLoop` is : before `socket`, `bind` or `listen`, before it closes the socket
after one of them has failed and before it forgets it, at the test of `shutdown`, before and in
`accept`, after a call that has failed, with a connection to register, or at its end. -/
inductive AcceptPc
  | socket
  | bind
  | listen
  | abandon
  | clear
  | test
  | accept
  | accepting (fd : Option ℕ)
  | failed
  | register (fd : ℕ)
  | returned
  deriving DecidableEq

/-- Where `clientSession` is : at the test of `shutdown`, at the test in `readExact` or in `recv`
with the number of bytes received, at the test of the inner loop with `enqueued`, before
`enqueueClientOrder`, before `shutdown`, `close` and `removeClientFd`, or at its end. -/
inductive ClientPc
  | test
  | readTest (received : ℕ)
  | recv (received : ℕ)
  | enqueueTest (enqueued : Bool)
  | enqueue
  | shut
  | close
  | remove
  | returned
  deriving DecidableEq

/-- Where the owner is in `stop` : nowhere, at the test of `server_fd` and the three calls for
it, before it joins `accept_thread`, before it takes `client_mutex`, with the connections that it
has still to shut down, or with the number of the thread to join. -/
inductive OwnerPc
  | idle
  | testFd
  | shutFd
  | closeFd
  | clearFd
  | join
  | lock
  | shutting (fds : List ℕ)
  | joining (k : ℕ)
  deriving DecidableEq

/-- A thread of `client_threads`, with its `client_fd`. -/
structure ClientThread where
  pc : ClientPc
  fd : ℕ

/-- The server, with the descriptors of the process and the sockets that have been shut down.
`server_fd` is `none` for -1, `joinable` is that of `accept_thread`, and `joined` is the number of
threads that `client_threads` no longer has. -/
structure ReceivingServer where
  shutdown : Bool
  serverFd : Option ℕ
  activeClientFds : List ℕ
  table : ℕ → Option Socket
  shut : Socket → Bool
  acceptPc : AcceptPc
  joinable : Bool
  ownerPc : OwnerPc
  clientThreads : ℕ → ClientThread
  threadCount : ℕ
  joined : ℕ

namespace ReceivingServer

/-- The server when `start` has returned, and what the process has open then. -/
def start (others : ℕ → Option ℕ) : ReceivingServer where
  shutdown := false
  serverFd := none
  activeClientFds := []
  table fd := (others fd).map .other
  shut _ := false
  acceptPc := .socket
  joinable := true
  ownerPc := .idle
  clientThreads _ := ⟨.returned, 0⟩
  threadCount := 0
  joined := 0

/-- A call of `stop`, a step of a thread that does not depend on the system, a result of the
system, and files that the rest of the process opens and closes. -/
inductive Action
  | stop
  | owner
  | socket (fd : Option ℕ)
  | setup (ok : Bool)
  | acceptor
  | arrives (fd : ℕ)
  | acceptFails
  | register
  | session (i : ℕ)
  | recv (i k : ℕ)
  | interrupted (i : ℕ)
  | recvEnds (i : ℕ)
  | enqueue (i : ℕ) (enqueued : Bool)
  | openOther (fd n : ℕ)
  | closeOther (fd n : ℕ)
  deriving DecidableEq

variable (st : ReceivingServer)

/-! ## Calls of the system -/

/-- The sockets that have been shut down, after `::shutdown` with `SHUT_RDWR`. The call fails if
the descriptor is not open. -/
def afterShutdown (table : ℕ → Option Socket) (shut : Socket → Bool) (fd : Option ℕ) :
    Socket → Bool :=
  match fd.bind table with
  | some s => Function.update shut s true
  | none => shut

/-- The descriptors after `::close`. -/
def afterClose (table : ℕ → Option Socket) : Option ℕ → ℕ → Option Socket
  | some fd => Function.update table fd none
  | none => table

/-- The descriptors after one has been given to a socket. -/
def afterOpen (table : ℕ → Option Socket) (fd : ℕ) (s : Socket) : ℕ → Option Socket :=
  Function.update table fd (some s)

/-- The listening socket is open, as `server_fd`. -/
def ServerOpen : Prop :=
  st.serverFd.bind st.table = some .server

instance : Decidable st.ServerOpen :=
  inferInstanceAs (Decidable (_ = _))

/-! ## The owner -/

/-- The owner has `client_mutex`. -/
def HasMutex : OwnerPc → Bool
  | .shutting _ => true
  | _ => false

/-- `stop`, after it has set the flag. -/
def ownerStep : Option ReceivingServer :=
  match st.ownerPc with
  | .idle => none
  | .testFd => some { st with ownerPc := if st.serverFd = none then .join else .shutFd }
  | .shutFd => some { st with
    shut := afterShutdown st.table st.shut st.serverFd
    ownerPc := .closeFd }
  | .closeFd => some { st with
    table := afterClose st.table st.serverFd
    ownerPc := .clearFd }
  | .clearFd => some { st with serverFd := none, ownerPc := .join }
  | .join =>
    if st.joinable = true then
      if st.acceptPc = .returned then some { st with joinable := false, ownerPc := .lock }
      else none
    else some { st with ownerPc := .lock }
  | .lock => some { st with ownerPc := .shutting st.activeClientFds }
  | .shutting [] => some { st with ownerPc := .joining st.joined }
  | .shutting (fd :: fds) => some { st with
    shut := afterShutdown st.table st.shut (some fd)
    ownerPc := .shutting fds }
  | .joining k =>
    if k < st.threadCount then
      if (st.clientThreads k).pc = .returned then some { st with ownerPc := .joining (k + 1) }
      else none
    else some { st with joined := st.threadCount, ownerPc := .idle }

/-! ## The accept thread -/

/-- `acceptLoop` between two results of the system. -/
def acceptStep : Option ReceivingServer :=
  match st.acceptPc with
  | .abandon => some { st with
    table := afterClose st.table st.serverFd
    acceptPc := .clear }
  | .clear => some { st with serverFd := none, acceptPc := .returned }
  | .test => some { st with acceptPc := if st.shutdown then .returned else .accept }
  | .accept => some { st with acceptPc := .accepting st.serverFd }
  | .failed => some { st with acceptPc := if st.shutdown then .returned else .test }
  | _ => none

/-- `bind` or `listen` returns. It fails if the socket is not open any more. -/
def setup (ok : Bool) : Option ReceivingServer :=
  if ok = true ∧ ¬st.ServerOpen then none
  else
    match st.acceptPc with
    | .bind => some { st with acceptPc := if ok then .listen else .abandon }
    | .listen => some { st with acceptPc := if ok then .test else .abandon }
    | _ => none

/-- `accept` returns a new descriptor. -/
def arrives (fd : ℕ) : Option ReceivingServer :=
  match st.acceptPc with
  | .accepting (some _) =>
    if st.table fd = none then
      some { st with
        table := afterOpen st.table fd (.client st.threadCount)
        acceptPc := .register fd }
    else none
  | _ => none

/-- The connection is put into `active_client_fds`, and its thread is started. -/
def addClient (fd : ℕ) : ReceivingServer :=
  { st with
    activeClientFds := st.activeClientFds ++ [fd]
    clientThreads := Function.update st.clientThreads st.threadCount ⟨.test, fd⟩
    threadCount := st.threadCount + 1
    acceptPc := .test }

/-- The accepted client is registered, under the mutex. -/
def register : Option ReceivingServer :=
  match st.acceptPc with
  | .register fd => if HasMutex st.ownerPc then none else some (st.addClient fd)
  | _ => none

/-! ## The sessions -/

/-- A session goes on. -/
def setPc (i : ℕ) (pc : ClientPc) : ReceivingServer :=
  { st with clientThreads := Function.update st.clientThreads i ⟨pc, (st.clientThreads i).fd⟩ }

/-- The tests of `clientSession` and `readExact`. -/
def nextTest (shutdown : Bool) : ClientPc → Option ClientPc
  | .test => some (if shutdown then .shut else .readTest 0)
  | .readTest received =>
    some (if received < sizeofClientOrder ∧ shutdown = false then .recv received
      else if received = sizeofClientOrder then .enqueueTest false else .shut)
  | .enqueueTest enqueued =>
    some (if shutdown = false ∧ enqueued = false then .enqueue else .test)
  | _ => none

/-- `clientSession` between two results of the system. `removeClientFd` erases the first entry
that is the descriptor. -/
def sessionStep (i : ℕ) : Option ReceivingServer :=
  match (st.clientThreads i).pc with
  | .shut => some { st.setPc i .close with
    shut := afterShutdown st.table st.shut (some (st.clientThreads i).fd) }
  | .close => some { st.setPc i .remove with
    table := afterClose st.table (some (st.clientThreads i).fd) }
  | .remove =>
    if HasMutex st.ownerPc then none
    else some { st.setPc i .returned with
      activeClientFds := st.activeClientFds.erase (st.clientThreads i).fd }
  | pc => (nextTest st.shutdown pc).map (st.setPc i)

/-- `recv` returns : `k` bytes, `EINTR` (`none`), or the end of the stream or another error. -/
def recvNext (result : Option ℕ) : ClientPc → Option ClientPc
  | .recv received =>
    match result with
    | none => some (.readTest received)
    | some 0 => some .shut
    | some k => if received + k ≤ sizeofClientOrder then some (.readTest (received + k)) else none
  | _ => none

/-- Where a session is after `enqueueClientOrder`. -/
def enqueueNext (enqueued : Bool) : ClientPc → Option ClientPc
  | .enqueue => some (.enqueueTest enqueued)
  | _ => none

/-- A session goes on with a result. -/
def goOn (i : ℕ) (next : ClientPc → Option ClientPc) : Option ReceivingServer :=
  if i < st.threadCount then (next (st.clientThreads i).pc).map (st.setPc i) else none

/-- A step of a thread, if it can be taken. -/
def step : Action → Option ReceivingServer
  | .stop =>
    if st.ownerPc = .idle then some { st with shutdown := true, ownerPc := .testFd } else none
  | .owner => st.ownerStep
  | .socket fd =>
    if st.acceptPc = .socket then
      match fd with
      | none => some { st with acceptPc := .returned }
      | some fd =>
        if st.table fd = none then
          some { st with
            table := afterOpen st.table fd .server
            serverFd := some fd
            acceptPc := .bind }
        else none
    else none
  | .setup ok => st.setup ok
  | .acceptor => st.acceptStep
  | .arrives fd => st.arrives fd
  | .acceptFails =>
    match st.acceptPc with
    | .accepting _ => some { st with acceptPc := .failed }
    | _ => none
  | .register => st.register
  | .session i => if i < st.threadCount then st.sessionStep i else none
  | .recv i k => if 0 < k then st.goOn i (recvNext (some k)) else none
  | .interrupted i => st.goOn i (recvNext none)
  | .recvEnds i => st.goOn i (recvNext (some 0))
  | .enqueue i enqueued => st.goOn i (enqueueNext enqueued)
  | .openOther fd n =>
    if st.table fd = none then some { st with table := afterOpen st.table fd (.other n) } else none
  | .closeOther fd n =>
    if st.table fd = some (.other n) then some { st with table := afterClose st.table (some fd) }
    else none

/-- Steps in any order. -/
def run (actions : List Action) : Option ReceivingServer :=
  actions.foldlM step st

/-! ## Descriptors -/

/-- The session has not closed its connection. -/
def HoldsFd : ClientPc → Bool
  | .remove | .returned => false
  | _ => true

/-- The session's descriptor is in `active_client_fds`. -/
def Listed : ClientPc → Bool
  | .returned => false
  | _ => true

/-- No call of `accept` has been made. -/
def InSetup : AcceptPc → Bool
  | .socket | .bind | .listen | .abandon | .clear => true
  | _ => false

/-- The number of sessions, of the first `n`, whose descriptor is listed as `fd`. -/
def listings (clientThreads : ℕ → ClientThread) (n fd : ℕ) : ℕ :=
  ∑ i ∈ Finset.range n,
    if Listed (clientThreads i).pc = true ∧ (clientThreads i).fd = fd then 1 else 0

/-- A session's descriptor is its own connection until it is closed, and is open for nothing
else; and `active_client_fds` has it as often as there are sessions with it. -/
structure Owned : Prop where
  held : ∀ i < st.threadCount, HoldsFd (st.clientThreads i).pc = true →
    st.table (st.clientThreads i).fd = some (.client i)
  client : ∀ {fd i}, st.table fd = some (.client i) →
    (i < st.threadCount ∧ HoldsFd (st.clientThreads i).pc = true ∧
      (st.clientThreads i).fd = fd) ∨ i = st.threadCount ∧ st.acceptPc = .register fd
  registers : ∀ {fd}, st.acceptPc = .register fd → st.table fd = some (.client st.threadCount)
  listed : ∀ fd, st.activeClientFds.count fd = listings st.clientThreads st.threadCount fd
  noSessions : InSetup st.acceptPc = true → st.threadCount = 0

variable {st : ReceivingServer} {st' : ReceivingServer} {i fd : ℕ}

theorem afterShutdown_eq_true {table : ℕ → Option Socket} {shut : Socket → Bool}
    {fd : Option ℕ}
    {s : Socket} : afterShutdown table shut fd s = true ↔ shut s = true ∨
    fd.bind table = some s := by
  rcases h : fd.bind table with _ | s'
  · simp [afterShutdown, h]
  · rcases eq_or_ne s s' with rfl | hne
    · simp [afterShutdown, h]
    · simp [afterShutdown, h, Function.update_of_ne hne, hne.symm]

theorem afterClose_eq_some {table : ℕ → Option Socket} {fd : Option ℕ} {fd' : ℕ}
    {s : Socket} : afterClose table fd fd' = some s ↔ fd ≠ some fd' ∧ table fd' = some s := by
  rcases fd with _ | fd
  · simp [afterClose]
  · rcases eq_or_ne fd' fd with rfl | hne
    · simp [afterClose]
    · simp [afterClose, Function.update_of_ne hne, hne.symm]

/-- `close` opens nothing. -/
theorem of_afterClose {table : ℕ → Option Socket} (fd : Option ℕ) {fd' : ℕ} {s : Socket}
    (h : afterClose table fd fd' = some s) : table fd' = some s :=
  (afterClose_eq_some.1 h).2

theorem afterOpen_eq_some {table : ℕ → Option Socket} {fd fd' : ℕ} {s s' : Socket}
    (hfree : table fd = none) :
    afterOpen table fd s fd' = some s' ↔ fd' = fd ∧ s' = s ∨ table fd' = some s' := by
  rcases eq_or_ne fd' fd with rfl | hne
  · simp [afterOpen, hfree, eq_comm]
  · simp [afterOpen, hne]

theorem owned_start (others : ℕ → Option ℕ) : Owned (start others) where
  held _ hi := absurd hi (Nat.not_lt_zero _)
  client h := by simp [start] at h
  registers h := by simp [start] at h
  listed _ := rfl
  noSessions _ := rfl

/-- The sessions have the same descriptors, open and listed as before. -/
structure SameSessions (st st' : ReceivingServer) : Prop where
  count : st'.threadCount = st.threadCount
  active : st'.activeClientFds = st.activeClientFds
  fd : ∀ i, (st'.clientThreads i).fd = (st.clientThreads i).fd
  holds : ∀ i, HoldsFd (st'.clientThreads i).pc = HoldsFd (st.clientThreads i).pc
  listed : ∀ i, Listed (st'.clientThreads i).pc = Listed (st.clientThreads i).pc

theorem SameSessions.of_eq (hcount : st'.threadCount = st.threadCount)
    (hactive : st'.activeClientFds = st.activeClientFds)
    (hthreads : st'.clientThreads = st.clientThreads) : SameSessions st st' :=
  ⟨hcount, hactive, fun i => by rw [hthreads], fun i => by rw [hthreads],
    fun i => by rw [hthreads]⟩

theorem clientThreads_setPc (pc : ClientPc) : (st.setPc i pc).clientThreads =
    Function.update st.clientThreads i ⟨pc, (st.clientThreads i).fd⟩ := rfl

theorem fd_setPc (pc : ClientPc) (j : ℕ) :
    ((st.setPc i pc).clientThreads j).fd = (st.clientThreads j).fd := by
  rw [clientThreads_setPc]
  rcases eq_or_ne j i with rfl | hne
  · rw [Function.update_self]
  · rw [Function.update_of_ne hne]

theorem pc_setPc_self (pc : ClientPc) : ((st.setPc i pc).clientThreads i).pc = pc := by
  rw [clientThreads_setPc, Function.update_self]

theorem pc_setPc_of_ne (pc : ClientPc) {j : ℕ} (hne : j ≠ i) :
    ((st.setPc i pc).clientThreads j).pc = (st.clientThreads j).pc := by
  rw [clientThreads_setPc, Function.update_of_ne hne]

theorem listed_of_holdsFd {pc : ClientPc} (h : HoldsFd pc = true) : Listed pc = true := by
  cases pc <;> first | rfl | cases h

/-- A session goes on, with its connection open. -/
theorem sameSessions_setPc {pc : ClientPc} (hold : HoldsFd (st.clientThreads i).pc = true)
    (hnew : HoldsFd pc = true) : SameSessions st (st.setPc i pc) where
  count := rfl
  active := rfl
  fd := fd_setPc pc
  holds j := by
    rcases eq_or_ne j i with rfl | hne
    · rw [pc_setPc_self, hold, hnew]
    · rw [pc_setPc_of_ne pc hne]
  listed j := by
    rcases eq_or_ne j i with rfl | hne
    · rw [pc_setPc_self, listed_of_holdsFd hold, listed_of_holdsFd hnew]
    · rw [pc_setPc_of_ne pc hne]

/-- The connections and the sessions are as they were. -/
theorem Owned.of_same (h : Owned st) (hsame : SameSessions st st')
    (htable : ∀ fd i, st'.table fd = some (.client i) ↔ st.table fd = some (.client i))
    (hregister : ∀ fd, st'.acceptPc = .register fd ↔ st.acceptPc = .register fd)
    (hsetup : InSetup st'.acceptPc = true → InSetup st.acceptPc = true) : Owned st' where
  held i hi hpc := by
    rw [hsame.holds] at hpc
    rw [hsame.fd, htable]
    exact h.held i (hsame.count ▸ hi) hpc
  client hfd := by
    rw [hsame.holds, hsame.fd, hsame.count, hregister]
    exact h.client ((htable _ _).1 hfd)
  registers hpc := by
    rw [hsame.count, htable]
    exact h.registers ((hregister _).1 hpc)
  listed fd := by simp only [hsame.active, h.listed, listings, hsame.count, hsame.listed, hsame.fd]
  noSessions hpc := by rw [hsame.count, h.noSessions (hsetup hpc)]

/-- A session closes its connection. -/
theorem Owned.close (h : Owned st) (hi : i < st.threadCount)
    (hpc : (st.clientThreads i).pc = .close) :
    Owned { st.setPc i .remove with
      table := afterClose st.table (some (st.clientThreads i).fd) } := by
  have hown := h.held i hi (by rw [hpc]; rfl)
  have hother : ∀ {fd j}, st.table fd = some (.client j) → j ≠ i →
      some (st.clientThreads i).fd ≠ some fd := by
    intro fd j hfd hne heq
    rw [← Option.some.inj heq, hown] at hfd
    exact hne (Socket.client.inj (Option.some.inj hfd)).symm
  refine ⟨fun j hj hholds => ?_, fun {fd j} hfd => ?_, fun {fd} hreg => ?_, fun fd => ?_,
    h.noSessions⟩
  · rcases eq_or_ne j i with rfl | hne
    · rw [pc_setPc_self] at hholds
      cases hholds
    · rw [pc_setPc_of_ne _ hne] at hholds
      have hfd := h.held j hj hholds
      rw [fd_setPc]
      exact afterClose_eq_some.2 ⟨hother hfd hne, hfd⟩
  · change afterClose st.table (some (st.clientThreads i).fd) fd = _ at hfd
    obtain ⟨hne, hfd⟩ := afterClose_eq_some.1 hfd
    refine (h.client hfd).imp_left fun ⟨hj, hholds, heq⟩ => ?_
    have hji : j ≠ i := fun hji => hne (by rw [← heq, hji])
    refine ⟨hj, ?_, (fd_setPc ..).trans heq⟩
    rwa [pc_setPc_of_ne _ hji]
  · have hfd := h.registers hreg
    exact afterClose_eq_some.2 ⟨hother hfd (Nat.ne_of_gt hi), hfd⟩
  · refine (h.listed fd).trans (Finset.sum_congr rfl fun j _ => ?_)
    rw [fd_setPc]
    rcases eq_or_ne j i with rfl | hne
    · rw [pc_setPc_self, hpc]
      rfl
    · rw [pc_setPc_of_ne _ hne]

/-- A session removes its descriptor, or the equal one of another session. -/
theorem Owned.remove (h : Owned st) (hi : i < st.threadCount)
    (hpc : (st.clientThreads i).pc = .remove) :
    Owned { st.setPc i .returned with
      activeClientFds := st.activeClientFds.erase (st.clientThreads i).fd } := by
  have hholds : ∀ j, HoldsFd ((st.setPc i .returned).clientThreads j).pc =
      HoldsFd (st.clientThreads j).pc := by
    intro j
    rcases eq_or_ne j i with rfl | hne
    · rw [pc_setPc_self, hpc]
      rfl
    · rw [pc_setPc_of_ne _ hne]
  refine ⟨fun j hj hj' => ?_, fun {fd j} hfd => ?_, h.registers, fun fd => ?_, h.noSessions⟩
  · rw [hholds] at hj'
    rw [fd_setPc]
    exact h.held j hj hj'
  · rw [hholds, fd_setPc]
    exact h.client hfd
  · have hchange : listings (st.setPc i .returned).clientThreads st.threadCount fd + _ =
        listings st.clientThreads st.threadCount fd + _ :=
      Counts.sum_change (Finset.mem_range.2 hi) fun j hne => by rw [pc_setPc_of_ne _ hne, fd_setPc]
    rw [pc_setPc_self, fd_setPc, hpc] at hchange
    simp only [Listed, true_and, Bool.false_eq_true, false_and, if_false] at hchange
    change (st.activeClientFds.erase (st.clientThreads i).fd).count fd =
      listings (st.setPc i .returned).clientThreads st.threadCount fd
    rw [List.count_erase, h.listed]
    simp only [beq_iff_eq]
    omega

/-- `accept` returns a descriptor that was not open. -/
theorem Owned.arrives (h : Owned st) (hpc : ∀ fd, st.acceptPc ≠ .register fd)
    (hfree : st.table fd = none) :
    Owned { st with
      table := afterOpen st.table fd (.client st.threadCount)
      acceptPc := .register fd } := by
  refine ⟨fun j hj hholds => ?_, fun {fd' j} hfd' => ?_, fun {fd'} hreg => ?_, h.listed, nofun⟩
  · exact (afterOpen_eq_some hfree).2 (Or.inr (h.held j hj hholds))
  · rcases (afterOpen_eq_some hfree).1 hfd' with ⟨rfl, hj⟩ | hfd'
    · exact Or.inr ⟨Socket.client.inj hj, rfl⟩
    · exact (h.client hfd').imp_right fun ⟨_, hreg⟩ => absurd hreg (hpc fd')
  · obtain rfl := AcceptPc.register.inj hreg
    exact (afterOpen_eq_some hfree).2 (Or.inl ⟨rfl, rfl⟩)

theorem clientThreads_addClient_of_lt (fd : ℕ) (hi : i < st.threadCount) :
    (st.addClient fd).clientThreads i = st.clientThreads i :=
  Function.update_of_ne (Nat.ne_of_lt hi) ..

theorem clientThreads_addClient_self (fd : ℕ) :
    (st.addClient fd).clientThreads st.threadCount = ⟨.test, fd⟩ :=
  Function.update_self ..

/-- The connection's thread is started. -/
theorem Owned.addClient (h : Owned st) (hpc : st.acceptPc = .register fd) :
    Owned (st.addClient fd) := by
  refine ⟨fun j hj hholds => ?_, fun {fd' j} hfd' => ?_, nofun, fun fd' => ?_, nofun⟩
  · rcases Nat.lt_succ_iff_lt_or_eq.1 hj with hj | rfl
    · rw [clientThreads_addClient_of_lt fd hj] at hholds ⊢
      exact h.held j hj hholds
    · rw [clientThreads_addClient_self]
      exact h.registers hpc
  · refine Or.inl ?_
    rcases h.client hfd' with ⟨hj, hholds, heq⟩ | ⟨rfl, hreg⟩
    · rw [clientThreads_addClient_of_lt fd hj]
      exact ⟨Nat.lt_succ_of_lt hj, hholds, heq⟩
    · rw [clientThreads_addClient_self]
      exact ⟨Nat.lt_succ_self _, rfl, AcceptPc.register.inj (hpc.symm.trans hreg)⟩
  · change (st.activeClientFds ++ [fd]).count fd' =
      listings (st.addClient fd).clientThreads (st.threadCount + 1) fd'
    have hsame : listings (st.addClient fd).clientThreads st.threadCount fd' =
        listings st.clientThreads st.threadCount fd' :=
      Finset.sum_congr rfl fun j hj => by
        rw [clientThreads_addClient_of_lt fd (Finset.mem_range.1 hj)]
    rw [listings, Finset.sum_range_succ, clientThreads_addClient_self, ← listings, hsame,
      ← h.listed, List.count_append, List.count_singleton]
    simp [Listed]

end ReceivingServer

end TradeX
