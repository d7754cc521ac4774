import MyMio.Event.Ready

/-! # `TcpConnection`

`src/net/connection.rs` over `src/net/mod.rs` (`TryRead`, `TryWrite`). The connection's fields are the
code's; its three buffers are always `Some`, so the `Option` is dropped. What is outside the code
comes in as the answers an operation is given: what each `read` and the one `write` it makes on the
non-blocking socket return, how much of the buffer each `read_job` consumes, and what `writ_job`
returns. A `Session` adds what the outside has seen: the bytes the socket accepted and the callbacks
that ran, in order.

`BytesMut` is the list of its bytes: `put` appends, `split` empties the buffer and returns its
content, `advance` drops a prefix.
-/

namespace MyMio
set_option autoImplicit false

abbrev BytesMut := List UInt8

namespace BytesMut

def put (buf bytes : BytesMut) : BytesMut := buf ++ bytes

/-- The content, and what is left in the buffer. -/
def split (buf : BytesMut) : BytesMut × BytesMut := (buf, [])

def advance (buf : BytesMut) (cnt : ℕ) : BytesMut := buf.drop cnt

end BytesMut

/-! ## The non-blocking socket -/

/-- What `write` answers for the chunk it is given: a count, `WouldBlock`, or another error. -/
inductive WriteResult
  | ok (cnt : ℕ)
  | wouldBlock
  | err
  deriving DecidableEq, Repr

/-- What `read` answers: the bytes it delivers (none at end of file), `WouldBlock`, or another error. -/
inductive ReadResult
  | ok (bytes : BytesMut)
  | wouldBlock
  | err
  deriving DecidableEq, Repr

/-- One turn of the read loop: the socket's answer, and how many bytes of its buffer the `read_job`
of that turn consumes. -/
structure ReadTurn where
  result : ReadResult
  consumed : ℕ
  deriving DecidableEq, Repr

inductive Shutdown
  | read
  | write
  | both
  deriving DecidableEq, Repr

/-! ## State -/

structure TcpConnection where
  readBuffer : BytesMut
  writeBufferSending : BytesMut
  writeBufferWaiting : BytesMut
  readEnabled : Bool
  writeEnabled : Bool
  readTriggered : Bool
  writeTriggered : Bool
  closed : Bool
  deriving DecidableEq, Repr

def TcpConnection.new : TcpConnection where
  readBuffer := []
  writeBufferSending := []
  writeBufferWaiting := []
  readEnabled := true
  writeEnabled := true
  readTriggered := false
  writeTriggered := false
  closed := false

/-- A callback of the connection, or its `close_stream`. `read` carries the buffer `read_job` saw. -/
inductive JobCall
  | read (buf : BytesMut)
  | writ
  | close
  | deregister
  deriving DecidableEq, Repr

structure Session where
  conn : TcpConnection
  accepted : BytesMut
  calls : List JobCall
  deriving DecidableEq, Repr

def Session.new : Session := ⟨TcpConnection.new, [], []⟩

/-! ## Closing -/

def TcpConnection.setEnabled (c : TcpConnection) (enable : Bool) : TcpConnection :=
  { c with readEnabled := enable, writeEnabled := enable }

def handleClose (s : Session) : Session :=
  if s.conn.closed then s
  else { s with
    conn := { s.conn.setEnabled false with closed := true }
    calls := s.calls ++ [.close, .deregister] }

/-! ## Reading -/

/-- `try_read_buf` with an `Ok` answer, then `read_job` on the buffer. -/
def readJob (s : Session) (bytes : BytesMut) (consumed : ℕ) : Session :=
  let buf := s.conn.readBuffer.put bytes
  { s with
    conn := { s.conn with readBuffer := buf.advance consumed }
    calls := s.calls ++ [.read buf] }

/-- `handle_read`. `none` when the answers run out before the loop ends. -/
def handleRead (s : Session) : List ReadTurn → Option Session
  | [] => none
  | ⟨.wouldBlock, _⟩ :: _ => some { s with conn := { s.conn with readTriggered := false } }
  | ⟨.ok bytes, consumed⟩ :: turns =>
    let s := readJob s bytes consumed
    if 0 < bytes.length then handleRead s turns
    else some (handleClose { s with conn := { s.conn with readTriggered := false } })
  | ⟨.err, _⟩ :: _ => some (handleClose { s with conn := { s.conn with readTriggered := false } })

/-! ## Writing -/

/-- The head of `write_data`: the bytes it takes out of the buffers to write, and the connection
without them. -/
def takeChunk (c : TcpConnection) : BytesMut × TcpConnection :=
  if 0 < c.writeBufferSending.length then
    let (bufTmp, left) := c.writeBufferSending.split
    (bufTmp, { c with writeBufferSending := left })
  else if 0 < c.writeBufferWaiting.length then
    let (bufTmp, left) := c.writeBufferWaiting.split
    (bufTmp, { c with writeBufferWaiting := left })
  else ([], c)

/-- `write_data`. The chunk lives in a local buffer; what the socket leaves of it after the write
is dropped when the function returns. -/
def writeData (s : Session) (answer : WriteResult) (writJob : Bool) : Session :=
  let (buf, conn) := takeChunk s.conn
  if buf.length = 0 then { s with conn := conn }
  else
    match answer with
    | .wouldBlock => { s with conn := { conn with writeTriggered := false } }
    | .ok cnt =>
      let s := { s with conn := conn, accepted := s.accepted ++ buf.take cnt }
      if 0 < (buf.advance cnt).length then s
      else
        let s := { s with
          conn := { conn with writeTriggered := false }
          calls := s.calls ++ [.writ] }
        if writJob then s else handleClose s
    | .err => handleClose { s with conn := { conn with writeTriggered := false } }

/-- `send`: the new session and the count it returns. -/
def send (s : Session) (bytes : BytesMut) (answer : WriteResult) (writJob : Bool) : Session × ℕ :=
  if s.conn.writeEnabled = false then (s, 0)
  else if bytes.length = 0 then (s, 0)
  else
    let waiting := s.conn.writeBufferWaiting.put bytes
    (writeData { s with conn := { s.conn with writeBufferWaiting := waiting } } answer writJob,
      bytes.length)

def handleWrite (s : Session) (answer : WriteResult) (writJob : Bool) : Session :=
  if s.conn.writeBufferWaiting.length = 0 ∧ s.conn.writeBufferSending.length = 0 then s
  else writeData s answer writJob

/-! ## Events -/

/-- `handle_event`. The three parts run in order on the event word, each whatever the ones before
it did to the connection. -/
def handleEvent (s : Session) (event : Usize) (reads : List ReadTurn) (answer : WriteResult)
    (writJob : Bool) : Option Session :=
  let ready := readyFromUsize event
  let read := if ready.isReadable then
      handleRead { s with conn := { s.conn with readTriggered := true } } reads
    else some s
  read.map fun s =>
    let s := if ready.isWritable then
        handleWrite { s with conn := { s.conn with writeTriggered := true } } answer writJob
      else s
    if ready.isError || ready.isHup then
      handleClose { s with conn := { s.conn with readTriggered := true, writeTriggered := true } }
    else s

/-- `shutdown`, up to the system call it ends with. -/
def shutdown (s : Session) (how : Shutdown) : Session :=
  match how with
  | .read => { s with conn := { s.conn with readEnabled := false } }
  | .write => { s with conn := { s.conn with writeEnabled := false } }
  | .both => { s with conn := s.conn.setEnabled false }

end MyMio
