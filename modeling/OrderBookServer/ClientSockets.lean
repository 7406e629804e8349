import OrderBookServer.CachePool
import OrderBookServer.Runs

/-!
The sockets of src/core/system_io/https_server_io: objects of a pool that a connection gets when
it comes in and gives back when it is closed, and the handlers of requests, which keep a pointer
to the object that the request was read from.
-/
namespace OrderBookServer.ClientSockets

/-- A session goes by its number; there is one for each wrapper that was made. -/
structure TlsWrapper where
  session : ℕ
  handshakeDone : Bool
deriving DecidableEq

structure HttpsClientSocket where
  fd : ℤ
  tlsWrapper : Option TlsWrapper
deriving DecidableEq

/-- Neither `init` nor `clear` concerns the descriptor or the session. -/
instance : Pooled HttpsClientSocket := {}

def HttpsClientSocket.new : HttpsClientSocket := ⟨-1, none⟩

/-- The coroutine of a request that is suspended. The session is the one that the request was
read from. -/
structure Handler where
  socket : ℕ
  session : ℕ
deriving DecidableEq

/-- Where the response to a request of a session was written, if anywhere, and whether that
session was closed by then. -/
structure Response where
  session : ℕ
  writtenTo : Option ℕ
  isClosed : Bool
deriving DecidableEq

/-- `registered` are the objects that epoll knows, `wrappers` the sessions whose wrapper was made
and is not deleted. -/
structure State where
  pool : PoolBuffer HttpsClientSocket
  registered : List ℕ
  made : ℕ
  wrappers : List ℕ
  handlers : List Handler
  responses : List Response

/-- What `handle_read` finds: too little to go on, the rest of a handshake or of a request, or that
the connection is lost. -/
inductive Found
  | little
  | rest
  | lost

/-- A connection comes in, where each call that can fail tells its result; a registered object has
something to read, or an error; a handler is resumed and comes to its end. -/
inductive Action
  | incoming (accept : Option ℕ) (fcntl attach : Bool)
  | handleRead (o : ℕ) (found : Found)
  | resume (i : ℕ)

def init (n : ℕ) : State := ⟨.new n .new, [], 0, [], [], []⟩

namespace State

variable (s : State)

def socket (o : ℕ) : HttpsClientSocket := s.pool.data o

def setSocket (o : ℕ) (socket : HttpsClientSocket) : State :=
  { s with pool := { s.pool with data := Function.update s.pool.data o socket } }

def setSslContext (o : ℕ) : State :=
  { s.setSocket o { s.socket o with tlsWrapper := some ⟨s.made, false⟩ } with
    made := s.made + 1
    wrappers := s.wrappers ++ [s.made] }

/-- The descriptor, or -1 where `accept` or `fcntl` fails. -/
def generateFd (accept : Option ℕ) (fcntl : Bool) : ℤ :=
  match accept with
  | none => -1
  | some fd => if fcntl then fd else -1

/-- `release` of the object deletes its wrapper. -/
def release (n o : ℕ) : State :=
  match (s.socket o).tlsWrapper with
  | none => { s with pool := s.pool.release n o }
  | some w =>
    { s with
      pool := (s.setSocket o { s.socket o with tlsWrapper := none }).pool.release n o
      wrappers := s.wrappers.erase w.session }

def delFd (n : ℕ) (fd : ℤ) (o : ℕ) : State :=
  if fd ≠ -1 then { s.release n o with registered := s.registered.erase o } else s

def startLivingSystemIoObject (n o : ℕ) (accept : Option ℕ) (fcntl attach : Bool) : State :=
  let fd := generateFd accept fcntl
  let opened := s.setSocket o { s.socket o with fd := fd }
  if fd < 0 then opened
  else
    let added := { opened with registered := s.registered ++ [o] }
    if attach then added else added.delFd n fd o

/-- `handle_read` of the server socket. -/
def incoming (n : ℕ) (accept : Option ℕ) (fcntl attach : Bool) : Except PoolError State :=
  match s.pool.acquire n with
  | .error e => .error e
  | .ok (o, pool) =>
    .ok ((({ s with pool := pool } : State).setSslContext o).startLivingSystemIoObject n o
      accept fcntl attach)

/-- `handle_read` of a client socket, and `del_fd` where it returns -1. A socket without a wrapper
is a null pointer. -/
def handleRead (n o : ℕ) (found : Found) : Option State :=
  match (s.socket o).tlsWrapper with
  | none => none
  | some w =>
    match found with
    | .little => some s
    | .lost => some (s.delFd n (s.socket o).fd o)
    | .rest =>
      if w.handshakeDone then some { s with handlers := s.handlers ++ [⟨o, w.session⟩] }
      else some (s.setSocket o
        { s.socket o with tlsWrapper := some { w with handshakeDone := true } })

/-- The session that `write_to_socket_io` writes to. -/
def writesTo (o : ℕ) : Option ℕ :=
  match (s.socket o).tlsWrapper with
  | none => none
  | some w => if w.handshakeDone then some w.session else none

/-- The end of `execute_request`. -/
def respond (h : Handler) : State :=
  { s with
    responses := s.responses ++
      [⟨h.session, s.writesTo h.socket, decide (h.session ∉ s.wrappers)⟩] }

end State

def State.step (n : ℕ) (s : State) : Action → Option State
  | .incoming accept fcntl attach => (s.incoming n accept fcntl attach).toOption
  | .handleRead o found => if o ∈ s.registered then s.handleRead n o found else none
  | .resume i =>
    match s.handlers[i]? with
    | none => none
    | some h => some { s.respond h with handlers := s.handlers.eraseIdx i }

end OrderBookServer.ClientSockets
