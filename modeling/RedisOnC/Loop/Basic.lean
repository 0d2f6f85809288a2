import RedisOnC.Avl.Basic
import RedisOnC.Conn.Basic
import RedisOnC.Lib.Ring
import RedisOnC.Lib.WhileLoop

/-!
# The main loop

The event loop of `server.cpp`: the table `fd2conn`, the list of idle connections, the timers and
the order in which one round of the loop goes through them. A connection is served by
`connection_io` as it is modelled for a single connection; here it gets its descriptor, the time of
its last activity and its place in the list.

A pointer is good as long as it is allocated, so a use of a null pointer, of a pointer that is
freed or of an index behind the end of `fd2conn` is an error of its own. The clock, the results of
`poll` and `accept`, the addresses from `malloc` and the results of `recv` and `send` are given with
the events.
-/

namespace RedisOnC

/-- The address of a `DList`: `&g_data.idle_list`, or `&conn->idle_list`. -/
inductive IdleNode
  | head
  | conn (p : Ptr)
deriving DecidableEq

/-- `struct Conn`, with the fields that the main loop adds to a connection. -/
structure Client where
  fd : ℕ
  conn : Conn
  idleStart : ℕ

/-- The database, the connections on the heap with the addresses that are live, and the rest of
`g_data`. -/
structure Server (D : Type) where
  db : D
  client : Ptr → Client
  clients : List Ptr
  fd2conn : List (Option Ptr)
  links : RingLinks IdleNode

/-- Why the main loop stops: a bad pointer or index, or a fault of the connection it serves. -/
inductive LoopFault
  | wild
  | conn (f : Fault)

variable {D : Type}

/-! ## The clock -/

/-- `struct timespec`. -/
structure Timespec where
  sec : ℕ
  nsec : ℕ

/-- `get_monotonic_usec`, for what `clock_gettime` has stored. -/
def getMonotonicUsec (tv : Timespec) : ℕ := (tv.sec * 1000000 + tv.nsec / 1000) % 2 ^ 64

/-- `k_idle_timeout_ms`. -/
def kIdleTimeoutMs : ℕ := 5 * 1000

/-! ## The list of idle connections -/

/-- The node may be read and written. -/
def Server.Good (s : Server D) : IdleNode → Prop
  | .head => True
  | .conn p => p ∈ s.clients

instance (s : Server D) (a : IdleNode) : Decidable (s.Good a) :=
  match a with
  | .head => inferInstanceAs (Decidable True)
  | .conn p => inferInstanceAs (Decidable (p ∈ s.clients))

def dlistDetach (s : Server D) (node : IdleNode) : Option (Server D) :=
  if s.Good node ∧ s.Good (s.links.prev node) ∧ s.Good (s.links.next node) then
    some { s with links := s.links.detach node }
  else none

def dlistInsertBefore (s : Server D) (target rookie : IdleNode) : Option (Server D) :=
  if s.Good target ∧ s.Good rookie ∧ s.Good (s.links.prev target) then
    some { s with links := s.links.insertBefore target rookie }
  else none

/-! ## Connections -/

variable (handle : D → List Bytes → Option (D × Bytes))

/-- `connection_io`, with the time that it reads from the clock. -/
def timedConnectionIo (s : Server D) (p : Ptr) (nowUs : ℕ) (recvs : List RecvResult)
    (sends : List SendResult) : Outcome LoopFault (Server D) Unit :=
  if p ∉ s.clients then .stop .wild s
  else
    let s := { s with
      client := Function.update s.client p { s.client p with idleStart := nowUs } }
    (Outcome.ofOption .wild s do
      let s ← dlistDetach s (.conn p)
      dlistInsertBefore s .head (.conn p)).bind fun s _ ↦
    match connectionIo handle
        { conn := (s.client p).conn, db := s.db, recvs := recvs, sends := sends } with
    | .ret _ w => .ret () { s with
        db := w.db
        client := Function.update s.client p { s.client p with conn := w.conn } }
    | .stop f _ => .stop (.conn f) s

def connPut (fd2conn : List (Option Ptr)) (fd : ℕ) (conn : Ptr) : List (Option Ptr) :=
  let fd2conn := if fd2conn.length ≤ fd then
    fd2conn ++ List.replicate (fd + 1 - fd2conn.length) none else fd2conn
  fd2conn.set fd (some conn)

/-- `accept_new_conn`, for the descriptor that `accept` returns and the address that `malloc`
returns. Without memory the descriptor is closed again. -/
def acceptNewConn (s : Server D) (connfd : ℕ) (mem : Option Ptr) (nowUs : ℕ) :
    Option (Server D) :=
  match mem with
  | none => some s
  | some p => do
    let s := { s with
      clients := p :: s.clients
      client := Function.update s.client p
        { fd := connfd
          conn := { (s.client p).conn with
            state := .req, rbufSize := 0, wbufSize := 0, wbufSent := 0 }
          idleStart := nowUs } }
    let s ← dlistInsertBefore s .head (.conn p)
    some { s with fd2conn := connPut s.fd2conn connfd p }

def connDone (s : Server D) (p : Ptr) : Option (Server D) :=
  if p ∈ s.clients ∧ (s.client p).fd < s.fd2conn.length then do
    let s := { s with fd2conn := s.fd2conn.set (s.client p).fd none }
    let s ← dlistDetach s (.conn p)
    some { s with clients := s.clients.erase p }
  else none

/-! ## Timers -/

/-- `next_us`, a `uint64_t`. -/
def nextUs (s : Server D) (p : Ptr) : ℕ := ((s.client p).idleStart + kIdleTimeoutMs * 1000) % 2 ^ 64

/-- `next_timer_ms`. The list is empty if the head is linked to itself. -/
def nextTimerMs (s : Server D) (nowUs : ℕ) : Option ℕ :=
  match s.links.next .head with
  | .head => some 10000
  | .conn p =>
    if p ∉ s.clients then none
    else if nextUs s p ≤ nowUs then some 0
    else some ((nextUs s p - nowUs) / 1000 % 2 ^ 32)

/-- One round of the loop in `process_timers`. -/
def processTimersStep (nowUs : ℕ) (s : Server D) : Option (Server D ⊕ Server D) :=
  match s.links.next .head with
  | .head => some (.inr s)
  | .conn p =>
    if p ∉ s.clients then none
    else if (nowUs + 1000) % 2 ^ 64 ≤ nextUs s p then some (.inr s)
    else do
      let s ← connDone s p
      some (.inl s)

def processTimers (s : Server D) (nowUs : ℕ) : Option (Server D) :=
  whileLoop (processTimersStep nowUs) s

/-! ## The loop -/

/-- A `struct pollfd` of a connection. It asks for `POLLIN` or for `POLLOUT`, and for `POLLERR`. -/
structure PollFd where
  fd : ℕ
  pollin : Bool

/-- The `poll_args` behind the listening descriptor. -/
def pollArgs (s : Server D) : Option (List PollFd) :=
  (s.fd2conn.filterMap id).mapM fun p ↦
    if p ∈ s.clients then some ⟨(s.client p).fd, (s.client p).conn.state = .req⟩ else none

/-- The body of the loop over `poll_args`, for a descriptor with events. -/
def serveFd (s : Server D) (fd : ℕ) (nowUs : ℕ) (recvs : List RecvResult)
    (sends : List SendResult) : Outcome LoopFault (Server D) Unit :=
  match s.fd2conn[fd]? with
  | some (some p) =>
    (timedConnectionIo handle s p nowUs recvs sends).bind fun _ s ↦
      if (s.client p).conn.state = .fin then
        (Outcome.ofOption .wild s (connDone s p)).bind fun s _ ↦ .ret () s
      else .ret () s
  | _ => .stop .wild s

/-- Where the main loop is: before `poll`, in the loop over `poll_args` with the descriptors that
have events, or before `accept_new_conn`. -/
inductive Phase
  | poll
  | serve (args : List PollFd) (listening : Bool)
  | accept

/-- The server, where its main loop is, and the last time it read from the clock. -/
structure Loop (D : Type) where
  server : Server D
  phase : Phase
  clock : ℕ

/-- What the surroundings answer: `poll` with the descriptors that have events, `recv` and `send`
for a connection that is served, the clock for `process_timers`, and `accept` and `malloc`. -/
inductive Event
  | poll (tv : Timespec) (active : ℕ → Bool) (listening : Bool)
  | io (tv : Timespec) (recvs : List RecvResult) (sends : List SendResult)
  | timers (tv : Timespec)
  | accept (tv : Timespec) (connfd : ℕ) (mem : Option Ptr)

/-- What the clock has stored. -/
def Event.tv : Event → Timespec
  | .poll tv _ _ => tv
  | .io tv _ _ => tv
  | .timers tv => tv
  | .accept tv _ _ => tv

/-- The part of the main loop up to the next event. -/
def Loop.step (l : Loop D) (e : Event) : Outcome LoopFault (Loop D) Unit :=
  let nowUs := getMonotonicUsec e.tv
  match l.phase, e with
  | .poll, .poll _ active listening =>
    (Outcome.ofOption .wild l do
      let args ← pollArgs l.server
      let _timeoutMs ← nextTimerMs l.server nowUs
      some args).bind fun args l ↦
    .ret () { l with phase := .serve (args.filter fun a ↦ active a.fd) listening, clock := nowUs }
  | .serve (a :: args) listening, .io _ recvs sends =>
    match serveFd handle l.server a.fd nowUs recvs sends with
    | .ret _ s => .ret () { server := s, phase := .serve args listening, clock := nowUs }
    | .stop f s => .stop f { l with server := s }
  | .serve [] listening, .timers _ =>
    (Outcome.ofOption .wild l (processTimers l.server nowUs)).bind fun s _ ↦
      .ret () { server := s, phase := if listening then .accept else .poll, clock := nowUs }
  | .accept, .accept _ connfd mem =>
    (Outcome.ofOption .wild l (acceptNewConn l.server connfd mem nowUs)).bind fun s _ ↦
      .ret () { server := s, phase := .poll, clock := nowUs }
  | _, _ => .ret () l

/-- What holds of the surroundings: the clock does not go back, `accept` returns a descriptor that
is not open, and `malloc` an address that is not in use. -/
def Loop.Allows (l : Loop D) (e : Event) : Prop :=
  l.clock ≤ getMonotonicUsec e.tv ∧
    match l.phase, e with
    | .poll, .poll .. => True
    | .serve (_ :: _) _, .io .. => True
    | .serve [] _, .timers _ => True
    | .accept, .accept _ connfd mem =>
      (∀ p ∈ l.server.clients, (l.server.client p).fd ≠ connfd) ∧
        ∀ p, mem = some p → p ∉ l.server.clients
    | _, _ => False

/-- The server when it enters the main loop. -/
def Server.init (db : D) (client : Ptr → Client) (links : RingLinks IdleNode) : Server D :=
  { db := db, client := client, clients := [], fd2conn := [], links := links.init .head }

/-- The states that the main loop gets to. -/
inductive Loop.Reachable : Loop D → Prop
  | init (db : D) (client : Ptr → Client) (links : RingLinks IdleNode) :
    Reachable { server := Server.init db client links, phase := .poll, clock := 0 }
  | step {l l' : Loop D} {e : Event} : Reachable l → l.Allows e → l.step handle e = .ret () l' →
    Reachable l'

end RedisOnC
