import MyMio.Foundations.EdgeTriggered
import MyMio.Net.ReadStream

/-! # Nothing waits unread

Connections are registered edge-triggered. `epoll_wait` reports such a socket once when something has
arrived, with what it finds there at that moment, and not again until something else arrives. So an
event must not be lost, and `handle_read` has to go on until the socket would block. Here the socket
and what `epoll` knows of it are part of the state; more may arrive between any two reads.

Whatever the peer sends to a connection that is open and registered, either an event is on its way
that makes it read, or it has been read and handed to `read_job` (`nothing_unread`).
-/

namespace MyMio
set_option autoImplicit false

open EdgeTriggered StepSystem

/-! ## The socket -/

/-- The bytes that have arrived and not been read, and whether the stream ends behind them. -/
structure SocketInput where
  input : BytesMut
  fin : Bool
  deriving DecidableEq, Repr

inductive Arrival
  | bytes (b : BytesMut)
  | fin
  deriving DecidableEq, Repr

def Arrival.payload : Arrival → BytesMut
  | .bytes b => b
  | .fin => []

namespace SocketInput

def readable (s : SocketInput) : Bool := !s.input.isEmpty || s.fin

def arrive (s : SocketInput) : Arrival → SocketInput
  | .bytes b => { s with input := s.input ++ b }
  | .fin => { s with fin := true }

/-- What a `read` that answers so leaves behind; `none` if it cannot answer so. -/
def read (s : SocketInput) : ReadResult → Option SocketInput
  | .ok bytes =>
    if bytes = [] then if s.input = [] ∧ s.fin = true then some s else none
    else if bytes <+: s.input then some { s with input := s.input.drop bytes.length }
    else none
  | .wouldBlock => if s.readable then none else some s
  | .err => some s

/-- The reads of one loop, each after what has arrived since the one before. -/
def serve (s : SocketInput) (turns : List (List Arrival × ReadTurn)) : Option SocketInput :=
  EdgeTriggered.serve arrive (fun s turn => s.read turn.result) s turns

end SocketInput

/-- The read loop is left after this turn. -/
def ReadTurn.ends (turn : ReadTurn) : Bool :=
  match turn.result with
  | .ok bytes => bytes.isEmpty
  | .wouldBlock | .err => true

/-- What `handle_event` reads for this event: the turns of one loop, or nothing. -/
def ReadsFor (event : Usize) (turns : List ReadTurn) : Bool :=
  if (readyFromUsize event).isReadable then EndsAtLast ReadTurn.ends turns else turns.isEmpty

/-! ## A connection on its socket -/

/-- The ghost `sent` is all that the peer has sent since the connection was made. -/
structure Reception where
  socket : SocketInput
  edge : Edge Usize
  registered : Bool
  intake : Intake
  sent : BytesMut
  deriving DecidableEq, Repr

inductive ReceptionOp
  | arrive (a : Arrival)
  /-- something else happens to the socket -/
  | wake
  | register
  /-- `epoll_wait` reports the socket with this readiness -/
  | report (event : Usize)
  /-- `epoll_wait` finds nothing to report -/
  | lapse
  /-- `io_process` calls the job of the next event -/
  | handle (turns : List (List Arrival × ReadTurn)) (answer : WriteResult) (writJob : Bool)
  | send (bytes : BytesMut) (answer : WriteResult) (writJob : Bool)
  | shutdown (how : Shutdown)
  deriving DecidableEq, Repr

def Reception.closed (s : Reception) : Bool := s.intake.run.conn.closed

def receptionStep (s : Reception) : ReceptionOp → Option Reception
  | .arrive a =>
    some { s with socket := s.socket.arrive a, edge := s.edge.raise, sent := s.sent ++ a.payload }
  | .wake => some { s with edge := s.edge.raise }
  | .register =>
    some { s with registered := true, edge := if s.socket.readable then s.edge.raise else s.edge }
  | .report event =>
    -- `close_stream` has taken the socket of a closed connection out of the interest list
    if s.registered = true ∧ s.closed = false ∧ s.edge.raised = true ∧
        (s.socket.readable = true → (readyFromUsize event).isReadable = true) then
      some { s with edge := s.edge.report event }
    else none
  | .lapse =>
    if s.socket.readable then none else some { s with edge := { s.edge with raised := false } }
  | .handle turns answer writJob =>
    match s.edge.reported with
    | [] => none
    | event :: rest =>
      if ReadsFor event (turns.map Prod.snd) then
        (s.socket.serve turns).bind fun socket =>
          (intakeStep s.intake (.handleEvent event (turns.map Prod.snd) answer writJob)).map fun intake =>
            { s with
              socket := socket
              edge := ⟨s.edge.raised || turns.any fun turn => !turn.1.isEmpty, rest⟩
              intake := intake
              sent := s.sent ++ turns.flatMap fun turn => turn.1.flatMap Arrival.payload }
      else none
  | .send bytes answer writJob =>
    (intakeStep s.intake (.send bytes answer writJob)).map fun intake => { s with intake := intake }
  | .shutdown how =>
    -- a socket shut down for reading is at its end, which wakes whoever polls it
    (intakeStep s.intake (.shutdown how)).map fun intake =>
      { s with
        socket := if how = .write then s.socket else { s.socket with fin := true }
        edge := s.edge.raise
        intake := intake }

/-- A connection before anything is registered or read. -/
structure Reception.Starts (s : Reception) : Prop where
  intake : s.intake = .new
  registered : s.registered = false
  sent : s.sent = s.socket.input

/-! ## The read loop on the socket -/

section Loop
variable {s s' : SocketInput} {turns : List (List Arrival × ReadTurn)}

def ReadTurn.delivered (turn : ReadTurn) : BytesMut :=
  match turn.result with
  | .ok bytes => bytes
  | .wouldBlock | .err => []

theorem read_input {turn : ReadTurn} (h : s.read turn.result = some s') :
    turn.delivered ++ s'.input = s.input := by
  obtain ⟨result, consumed⟩ := turn
  cases result with
  | ok bytes =>
    simp only [SocketInput.read] at h
    split at h
    · rename_i hnil
      split at h
      · obtain rfl := Option.some.inj h
        exact congrArg (· ++ s.input) hnil
      · cases h
    · split at h
      · rename_i hprefix
        obtain rfl := Option.some.inj h
        obtain ⟨rest, hrest⟩ := hprefix
        show bytes ++ s.input.drop bytes.length = s.input
        rw [← hrest, List.drop_left]
      · cases h
  | wouldBlock =>
    simp only [SocketInput.read] at h
    split at h
    · cases h
    · obtain rfl := Option.some.inj h
      rfl
  | err =>
    obtain rfl := Option.some.inj h
    rfl

/-- The calls of `read_job` in one loop are given what its reads deliver. -/
theorem received_readCalls {turns : List ReadTurn} (h : EndsAtLast ReadTurn.ends turns = true)
    (session : Session) : received (readCalls session turns) = turns.flatMap ReadTurn.delivered := by
  induction turns generalizing session with
  | nil => cases h
  | cons turn turns ih =>
    obtain ⟨result, consumed⟩ := turn
    cases result with
    | ok bytes =>
      show bytes ++ received (if 0 < bytes.length then _ else []) = bytes ++ _
      apply congrArg (bytes ++ ·)
      by_cases hb : bytes = []
      · obtain rfl := eq_nil_of_ends h (by simp [ReadTurn.ends, hb])
        simp [hb, received]
      · rw [if_pos (List.length_pos_iff.mpr hb)]
        exact ih (endsAtLast_cons h (by simp [ReadTurn.ends, hb])) _
    | wouldBlock | err =>
      obtain rfl := eq_nil_of_ends h rfl
      rfl

/-- The loop reads what was there and has arrived since, from the front. -/
theorem serve_received (hloop : EndsAtLast ReadTurn.ends (turns.map Prod.snd) = true)
    (h : s.serve turns = some s') (session : Session) :
    received (readCalls session (turns.map Prod.snd)) ++ s'.input =
      s.input ++ turns.flatMap fun turn => turn.1.flatMap Arrival.payload := by
  rw [received_readCalls hloop, List.flatMap_map]
  refine serve_fifo SocketInput.input Arrival.payload ReadTurn.delivered (fun s a => ?_)
    (fun _ _ _ => read_input) h
  cases a with
  | bytes b => rfl
  | fin => exact (List.append_nil _).symm

/-- `handle_read` closes the connection unless its last read would block. -/
theorem handleRead_last {turns : List ReadTurn} (hloop : EndsAtLast ReadTurn.ends turns = true)
    {session session' : Session} (hread : handleRead session turns = some session') :
    (∃ turn, turns.getLast? = some turn ∧ turn.result = .wouldBlock) ∨ session'.conn.closed = true := by
  induction turns generalizing session with
  | nil => cases hloop
  | cons turn turns ih =>
    obtain ⟨result, consumed⟩ := turn
    cases result with
    | ok bytes =>
      simp only [handleRead] at hread
      split at hread
      · rename_i hpos
        have hnext := endsAtLast_cons hloop (by simpa [ReadTurn.ends] using List.length_pos_iff.mp hpos)
        rcases ih hnext hread with hlast | hclosed
        · obtain ⟨turn, hturn, hresult⟩ := hlast
          refine .inl ⟨turn, ?_, hresult⟩
          cases turns with
          | nil => cases hturn
          | cons t turns => exact hturn
        · exact .inr hclosed
      · obtain rfl := Option.some.inj hread
        exact .inr (handleClose_closed _)
    | wouldBlock =>
      obtain rfl := eq_nil_of_ends hloop rfl
      exact .inl ⟨_, rfl, rfl⟩
    | err =>
      obtain rfl := Option.some.inj hread
      exact .inr (handleClose_closed _)

/-- The loop is left with nothing to read, or with the connection closed. -/
theorem serve_dry (hloop : EndsAtLast ReadTurn.ends (turns.map Prod.snd) = true)
    (h : s.serve turns = some s') {session session' : Session}
    (hread : handleRead session (turns.map Prod.snd) = some session') :
    s'.readable = false ∨ session'.conn.closed = true := by
  rcases handleRead_last hloop hread with hlast | hclosed
  · obtain ⟨turn, hturn, hresult⟩ := hlast
    obtain ⟨m, last, hlast, -, hanswer⟩ := serve_last hloop h
    obtain rfl := Option.some.inj (hturn.symm.trans hlast)
    rw [hresult] at hanswer
    simp only [SocketInput.read] at hanswer
    split at hanswer
    · cases hanswer
    · rename_i hdry
      obtain rfl := Option.some.inj hanswer
      exact .inl (by simpa using hdry)
  · exact .inr hclosed

end Loop

/-! ## What stays closed -/

section Closed
variable {s : Session} {answer : WriteResult} {writJob : Bool}

theorem writeData_closed (h : s.conn.closed = true) : (writeData s answer writJob).conn.closed = true := by
  have hchunk : (takeChunk s.conn).2.closed = true := (takeChunk_closed s.conn).trans h
  unfold writeData
  dsimp only
  split
  · exact hchunk
  · split
    · exact hchunk
    · split
      · exact hchunk
      · split
        · exact hchunk
        · exact handleClose_closed _
    · exact handleClose_closed _

theorem handleEvent_closed {event : Usize} {reads : List ReadTurn} {session : Session}
    (h : handleEvent s event reads answer writJob = some session) :
    (s.conn.closed = true → session.conn.closed = true) ∧
      ((readyFromUsize event).isReadable = true → ∃ m, handleRead { s with
        conn := { s.conn with readTriggered := true } } reads = some m ∧
          (m.conn.closed = true → session.conn.closed = true)) := by
  obtain ⟨m, hread, rfl⟩ := Option.map_eq_some_iff.mp h
  have hwrite : m.conn.closed = true → (if (readyFromUsize event).isWritable then
      handleWrite { m with conn := { m.conn with writeTriggered := true } } answer writJob
      else m).conn.closed = true := by
    intro hm
    split
    · unfold handleWrite
      split
      · exact hm
      · exact writeData_closed hm
    · exact hm
  have hlast : ∀ t : Session, t.conn.closed = true →
      (if (readyFromUsize event).isError || (readyFromUsize event).isHup then
        handleClose { t with conn := { t.conn with readTriggered := true, writeTriggered := true } }
      else t).conn.closed = true := by
    intro t ht
    split
    · exact handleClose_closed _
    · exact ht
  refine ⟨fun hs => hlast _ (hwrite ?_), fun hreadable => ?_⟩
  · split at hread
    · exact (handleRead_frame reads hread).closed hs
    · obtain rfl := Option.some.inj hread
      exact hs
  · rw [if_pos hreadable] at hread
    exact ⟨m, hread, fun hm => hlast _ (hwrite hm)⟩

theorem send_closed {bytes : BytesMut} (h : s.conn.closed = true) :
    (send s bytes answer writJob).1.conn.closed = true := by
  unfold send
  split
  · exact h
  · split
    · exact h
    · exact writeData_closed (s := { s with conn := { s.conn with
        writeBufferWaiting := s.conn.writeBufferWaiting.put bytes } }) h

end Closed

/-! ## Runs -/

/-- The event makes the connection read. -/
def Reads (event : Usize) : Prop := (readyFromUsize event).isReadable = true

structure Reception.Ok (s : Reception) : Prop where
  intake : s.intake.Ok
  received : received s.intake.reads ++ s.socket.input = s.sent
  told : s.registered = true → s.socket.readable = true → s.closed = true ∨ s.edge.Tells Reads

section Runs
variable {s s' : Reception}

theorem Reception.Ok.call {op : ConnOp} {intake : Intake} {socket : SocketInput} {edge : Edge Usize} (h : s.Ok)
    (hs : intakeStep s.intake op = some intake) (hreads : readsOf s.intake.run.session op = [])
    (hinput : socket.input = s.socket.input)
    (htold : s.registered = true → socket.readable = true →
      intake.run.conn.closed = true ∨ edge.Tells Reads) :
    Reception.Ok { s with socket := socket, edge := edge, intake := intake } := by
  refine ⟨intakeStep_ok h.intake hs, ?_, htold⟩
  obtain ⟨run, -, rfl⟩ := Option.map_eq_some_iff.mp hs
  show MyMio.received (s.intake.reads ++ readsOf s.intake.run.session op) ++ socket.input = s.sent
  rw [hreads, List.append_nil, hinput]
  exact h.received

theorem received_append (reads reads' : List ReadCall) :
    received (reads ++ reads') = received reads ++ received reads' := List.flatMap_append ..

/-- **An event that is handled** makes the connection read all there is, unless it tells of something
else, and then the one that tells is still on its way. -/
theorem Reception.Ok.handle {turns : List (List Arrival × ReadTurn)} {answer : WriteResult} {writJob : Bool}
    (h : s.Ok) (hs : receptionStep s (.handle turns answer writJob) = some s') : s'.Ok := by
  simp only [receptionStep] at hs
  split at hs
  · cases hs
  rename_i event rest hreported
  split at hs
  · rename_i hturns
    unfold ReadsFor at hturns
    obtain ⟨socket, hserve, hs⟩ := Option.bind_eq_some_iff.mp hs
    obtain ⟨intake, hintake, rfl⟩ := Option.map_eq_some_iff.mp hs
    have hok := intakeStep_ok h.intake hintake
    obtain ⟨run, hrun, rfl⟩ := Option.map_eq_some_iff.mp hintake
    obtain ⟨session, hsession, rfl⟩ := Option.map_eq_some_iff.mp hrun
    obtain ⟨hkeeps, hloop⟩ := handleEvent_closed hsession
    have hreads : readsOf s.intake.run.session (.handleEvent event (turns.map Prod.snd) answer writJob) =
      if (readyFromUsize event).isReadable then readCalls s.intake.run.session (turns.map Prod.snd)
      else [] := rfl
    by_cases hreadable : (readyFromUsize event).isReadable = true
    · rw [if_pos hreadable] at hturns hreads
      refine ⟨hok, ?_, fun _ hsome => .inl ?_⟩
      · show MyMio.received (s.intake.reads ++ readsOf _ _) ++ socket.input = s.sent ++ _
        rw [hreads, received_append, List.append_assoc, serve_received hturns hserve, ← List.append_assoc,
          h.received]
      · obtain ⟨m, hm, hclosed⟩ := hloop hreadable
        exact hclosed ((serve_dry hturns hserve hm).resolve_left (by rw [hsome]; decide))
    · rw [if_neg hreadable] at hturns hreads
      obtain rfl := List.map_eq_nil_iff.mp (List.isEmpty_iff.mp hturns)
      obtain rfl := Option.some.inj hserve
      refine ⟨hok, ?_, fun hregistered hsome => ?_⟩
      · show MyMio.received (s.intake.reads ++ readsOf _ _) ++ s.socket.input = s.sent ++ []
        rw [hreads, List.append_nil, List.append_nil]
        exact h.received
      · rcases h.told hregistered hsome with hclosed | htells
        · exact .inl (hkeeps hclosed)
        · have hedge : s.edge = ⟨s.edge.raised, event :: rest⟩ := by rw [← hreported]
          rw [hedge] at htells
          show _ ∨ (Edge.mk (s.edge.raised || false) rest).Tells Reads
          rw [Bool.or_false]
          exact .inr (htells.next.resolve_left hreadable)
  · cases hs

theorem receptionStep_ok {op : ReceptionOp} (h : s.Ok) (hs : receptionStep s op = some s') : s'.Ok := by
  cases op with
  | arrive a =>
    obtain rfl := Option.some.inj hs
    refine ⟨h.intake, ?_, fun _ _ => .inr Edge.tells_raise⟩
    show MyMio.received s.intake.reads ++ (s.socket.arrive a).input = s.sent ++ a.payload
    rw [← h.received, List.append_assoc]
    cases a with
    | bytes b => rfl
    | fin => exact congrArg _ (List.append_nil _).symm
  | wake =>
    obtain rfl := Option.some.inj hs
    exact ⟨h.intake, h.received, fun _ _ => .inr Edge.tells_raise⟩
  | register =>
    obtain rfl := Option.some.inj hs
    refine ⟨h.intake, h.received, fun _ hsome => .inr ?_⟩
    have hsome : s.socket.readable = true := hsome
    show (if s.socket.readable then s.edge.raise else s.edge).Tells Reads
    rw [if_pos hsome]
    exact Edge.tells_raise
  | report event =>
    simp only [receptionStep] at hs
    split at hs
    · rename_i hguard
      obtain rfl := Option.some.inj hs
      exact ⟨h.intake, h.received, fun _ hsome => .inr (Edge.tells_report (hguard.2.2.2 hsome))⟩
    · cases hs
  | lapse =>
    simp only [receptionStep] at hs
    split at hs
    · cases hs
    · rename_i hdry
      obtain rfl := Option.some.inj hs
      exact ⟨h.intake, h.received, fun _ hsome => absurd hsome hdry⟩
  | handle turns answer writJob => exact h.handle hs
  | send bytes answer writJob =>
    simp only [receptionStep] at hs
    obtain ⟨intake, hintake, rfl⟩ := Option.map_eq_some_iff.mp hs
    refine h.call hintake rfl rfl fun hregistered hsome => (h.told hregistered hsome).imp_left fun hclosed => ?_
    obtain ⟨run, hrun, rfl⟩ := Option.map_eq_some_iff.mp hintake
    obtain rfl := Option.some.inj hrun
    exact send_closed hclosed
  | shutdown how =>
    simp only [receptionStep] at hs
    obtain ⟨intake, hintake, rfl⟩ := Option.map_eq_some_iff.mp hs
    refine h.call hintake rfl ?_ fun _ _ => .inr Edge.tells_raise
    split <;> rfl

theorem Reception.Starts.ok (h : s.Starts) : s.Ok := by
  refine ⟨?_, ?_, fun hregistered => ?_⟩
  · rw [h.intake]
    exact intake_ok (.start rfl)
  · rw [h.intake, h.sent]
    rfl
  · rw [h.registered] at hregistered
    cases hregistered

end Runs

/-- **Nothing waits unread.** In every run of a connection and its edge-triggered socket, with whatever
arrives between any two steps and any two reads: while the connection is registered and not closed, and
no event that makes it read is on its way, the socket holds nothing, its stream has not ended, and all
that the peer has sent is what the calls of `read_job` have taken, followed by the read buffer. -/
theorem nothing_unread (s : Reception) (hs : Reachable receptionStep Reception.Starts s)
    (hregistered : s.registered = true) (hopen : s.closed = false) (hquiet : ¬ s.edge.Tells Reads) :
    s.socket.input = [] ∧ s.socket.fin = false ∧
      s.sent = eaten s.intake.reads ++ s.intake.run.conn.readBuffer := by
  have h : s.Ok := hs.invariant (fun _ hinit => hinit.ok) fun _ _ _ h hstep => receptionStep_ok h hstep
  have hdry : s.socket.readable = false := by
    cases hr : s.socket.readable with
    | false => rfl
    | true =>
      rcases h.told hregistered hr with hclosed | htells
      · exact absurd (hopen.symm.trans hclosed) (by decide)
      · exact absurd htells hquiet
  simp only [SocketInput.readable, Bool.or_eq_false_iff, Bool.not_eq_false', List.isEmpty_iff] at hdry
  refine ⟨hdry.1, hdry.2, ?_⟩
  rw [← h.received, hdry.1, List.append_nil]
  exact h.intake.flows.left

def nothingReceived : Reception := ⟨⟨[], false⟩, ⟨false, []⟩, false, .new, []⟩

/-- Two bytes before the event is handled, one more between the reads. -/
theorem nothing_unread_three : ∃ s : Reception, s.sent = [1, 2, 3] ∧ s.socket.input = [] ∧
    s.socket.fin = false ∧ s.sent = eaten s.intake.reads ++ s.intake.run.conn.readBuffer := by
  obtain ⟨s, hs, hview⟩ : ∃ s, run receptionStep nothingReceived [.register, .arrive (.bytes [1, 2]), .report 1,
      .handle [([], ⟨.ok [1], 1⟩), ([.bytes [3]], ⟨.ok [2, 3], 0⟩), ([], ⟨.wouldBlock, 0⟩)] .wouldBlock true,
      .lapse] = some s ∧ (s.sent, s.registered, s.closed, s.edge) = ([1, 2, 3], true, false, ⟨false, []⟩) :=
    Option.map_eq_some_iff.mp (by decide +kernel)
  simp only [Prod.mk.injEq] at hview
  obtain ⟨hsent, hregistered, hopen, hedge⟩ := hview
  have hquiet : ¬ s.edge.Tells Reads := by
    rw [hedge]
    rintro (hraised | ⟨e, he, -⟩)
    · cases hraised
    · cases he
  have hstart : nothingReceived.Starts := ⟨rfl, rfl, rfl⟩
  exact ⟨s, hsent, nothing_unread s ((Reachable.start hstart).run hs) hregistered hopen hquiet⟩

end MyMio
