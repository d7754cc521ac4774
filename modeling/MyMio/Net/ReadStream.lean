import MyMio.Net.Conservation

/-! # Incoming bytes of a connection

`handle_read` appends what it reads to `read_buffer`, and `read_job` takes a prefix of the buffer away.
At each call of `read_job` the buffer is what the calls before have left of all that was read before
them, and then the bytes just read (`read_stream_intact`). The loop is only left when the socket would
block, or with the connection closed.

The ghosts are the calls of `read_job` in order, each with the bytes just read, the buffer and how much
of it was taken.
-/

namespace MyMio
set_option autoImplicit false

open StepSystem

/-! ## The calls of `read_job` -/

structure ReadCall where
  bytes : BytesMut
  buf : BytesMut
  consumed : ℕ
  deriving DecidableEq, Repr

def ReadCall.taken (c : ReadCall) : BytesMut := c.buf.take c.consumed

/-- All bytes that have been read. -/
def received (reads : List ReadCall) : BytesMut := reads.flatMap ReadCall.bytes

/-- All bytes that calls of `read_job` have taken. -/
def eaten (reads : List ReadCall) : BytesMut := reads.flatMap ReadCall.taken

/-- The calls that `handle_read` makes. -/
def readCalls (s : Session) : List ReadTurn → List ReadCall
  | ⟨.ok bytes, consumed⟩ :: turns =>
    ⟨bytes, s.conn.readBuffer.put bytes, consumed⟩ ::
      if 0 < bytes.length then readCalls (readJob s bytes consumed) turns else []
  | _ => []

def readsOf (s : Session) : ConnOp → List ReadCall
  | .handleEvent event turns _ _ =>
    if (readyFromUsize event).isReadable then readCalls s turns else []
  | .send _ _ _ | .shutdown _ => []

/-- The buffer a callback was given, for `read_job`. -/
def JobCall.readBuf : JobCall → Option BytesMut
  | .read buf => some buf
  | _ => none

/-! ## Runs -/

structure Intake where
  run : Run
  reads : List ReadCall
  deriving DecidableEq, Repr

def Intake.new : Intake := ⟨Run.new, []⟩

def intakeStep (s : Intake) (op : ConnOp) : Option Intake :=
  (connStep s.run op).map fun run => ⟨run, s.reads ++ readsOf s.run.session op⟩

/-- Each call is given what the calls before it have left, then the bytes just read; `rest` is what all
of them have left. -/
structure Flows (reads : List ReadCall) (rest : BytesMut) : Prop where
  left : received reads = eaten reads ++ rest
  given : ∀ before c after, reads = before ++ c :: after →
    ∃ rest, received before = eaten before ++ rest ∧ c.buf = rest ++ c.bytes

section Flows
variable {reads before after : List ReadCall} {c c' : ReadCall} {rest : BytesMut}

theorem flows_nil : Flows [] [] where
  left := rfl
  given before c after h := by
    cases before <;> cases h

theorem split_snoc (h : reads ++ [c'] = before ++ c :: after) :
    reads = before ∧ c' = c ∨ ∃ after', reads = before ++ c :: after' := by
  rcases List.append_eq_append_iff.mp h with ⟨xs, hbefore, hxs⟩ | ⟨xs, hreads, hxs⟩
  · cases xs with
    | nil =>
      rw [List.append_nil] at hbefore
      exact .inl ⟨hbefore.symm, (List.cons.inj hxs).1⟩
    | cons x xs =>
      have hlen := congrArg List.length hxs
      simp at hlen
  · cases xs with
    | nil =>
      rw [List.append_nil] at hreads
      exact .inl ⟨hreads, (List.cons.inj hxs).1.symm⟩
    | cons x xs =>
      obtain ⟨rfl, -⟩ := List.cons.inj hxs
      exact .inr ⟨xs, hreads⟩

theorem Flows.call (h : Flows reads rest) (bytes : BytesMut) (consumed : ℕ) :
    Flows (reads ++ [⟨bytes, rest.put bytes, consumed⟩]) ((rest.put bytes).advance consumed) where
  left := by
    unfold received eaten
    rw [List.flatMap_append, List.flatMap_append, List.append_assoc]
    show received reads ++ _ = eaten reads ++ _
    rw [h.left]
    simp only [List.flatMap_cons, List.flatMap_nil, List.append_nil, List.append_assoc]
    apply congrArg (eaten reads ++ ·)
    exact (List.take_append_drop consumed (rest ++ bytes)).symm
  given before c after hsplit := by
    rcases split_snoc hsplit with ⟨rfl, rfl⟩ | ⟨after', hreads⟩
    · exact ⟨rest, h.left, rfl⟩
    · exact h.given before c after' hreads

end Flows

structure Intake.Ok (s : Intake) : Prop where
  calls : s.run.session.calls.filterMap JobCall.readBuf = s.reads.map ReadCall.buf
  flows : Flows s.reads s.run.conn.readBuffer

/-! ## What leaves the read buffer alone -/

/-- The input side of `s'` is that of `s`. -/
structure InputFrame (s s' : Session) : Prop where
  buffer : s'.conn.readBuffer = s.conn.readBuffer
  calls : s'.calls.filterMap JobCall.readBuf = s.calls.filterMap JobCall.readBuf

theorem InputFrame.refl (s : Session) : InputFrame s s := ⟨rfl, rfl⟩

theorem InputFrame.trans {s t u : Session} (h₁ : InputFrame s t) (h₂ : InputFrame t u) :
    InputFrame s u := ⟨h₂.buffer.trans h₁.buffer, h₂.calls.trans h₁.calls⟩

theorem InputFrame.after {s t u : Session} (h : InputFrame t u)
    (hbuffer : t.conn.readBuffer = s.conn.readBuffer)
    (hcalls : t.calls.filterMap JobCall.readBuf = s.calls.filterMap JobCall.readBuf) :
    InputFrame s u := InputFrame.trans ⟨hbuffer, hcalls⟩ h

theorem handleClose_input (s : Session) : InputFrame s (handleClose s) := by
  unfold handleClose
  split
  · exact .refl s
  · exact ⟨rfl, by simp [JobCall.readBuf, List.filterMap_append]⟩

theorem takeChunk_input (c : TcpConnection) : (takeChunk c).2.readBuffer = c.readBuffer := by
  unfold takeChunk
  split
  · rfl
  · split <;> rfl

theorem writeData_input (s : Session) (answer : WriteResult) (writJob : Bool) :
    InputFrame s (writeData s answer writJob) := by
  have hchunk := takeChunk_input s.conn
  unfold writeData
  dsimp only
  split
  · exact ⟨hchunk, rfl⟩
  · split
    · exact ⟨hchunk, rfl⟩
    · split
      · exact ⟨hchunk, rfl⟩
      · have hwrit : (s.calls ++ [JobCall.writ]).filterMap JobCall.readBuf =
            s.calls.filterMap JobCall.readBuf := by simp [JobCall.readBuf, List.filterMap_append]
        split
        · exact ⟨hchunk, hwrit⟩
        · exact (handleClose_input _).after hchunk hwrit
    · exact (handleClose_input _).after hchunk rfl

theorem handleWrite_input (s : Session) (answer : WriteResult) (writJob : Bool) :
    InputFrame s (handleWrite s answer writJob) := by
  unfold handleWrite
  split
  · exact .refl s
  · exact writeData_input s answer writJob

theorem send_input (s : Session) (bytes : BytesMut) (answer : WriteResult) (writJob : Bool) :
    InputFrame s (send s bytes answer writJob).1 := by
  unfold send
  split
  · exact .refl s
  · split
    · exact .refl s
    · exact (writeData_input _ answer writJob).after rfl rfl

theorem shutdown_input (s : Session) (how : Shutdown) : InputFrame s (shutdown s how) := by
  cases how <;> exact ⟨rfl, rfl⟩

/-! ## The read loop -/

/-- **The read loop** makes its calls one after the other on what the ones before have left. -/
theorem handleRead_flows {turns : List ReadTurn} {s s' : Session} {reads : List ReadCall}
    (hcalls : s.calls.filterMap JobCall.readBuf = reads.map ReadCall.buf)
    (hflows : Flows reads s.conn.readBuffer) (h : handleRead s turns = some s') :
    s'.calls.filterMap JobCall.readBuf = (reads ++ readCalls s turns).map ReadCall.buf ∧
      Flows (reads ++ readCalls s turns) s'.conn.readBuffer := by
  induction turns generalizing s reads with
  | nil => cases h
  | cons turn turns ih =>
    obtain ⟨result, consumed⟩ := turn
    cases result with
    | wouldBlock =>
      obtain rfl := Option.some.inj h
      simp only [readCalls, List.append_nil]
      exact ⟨hcalls, hflows⟩
    | err =>
      obtain rfl := Option.some.inj h
      have hclose := handleClose_input { s with conn := { s.conn with readTriggered := false } }
      simp only [readCalls, List.append_nil]
      rw [hclose.calls, hclose.buffer]
      exact ⟨hcalls, hflows⟩
    | ok bytes =>
      have hcalls₁ : (readJob s bytes consumed).calls.filterMap JobCall.readBuf =
          (reads ++ [(⟨bytes, s.conn.readBuffer.put bytes, consumed⟩ : ReadCall)]).map
            ReadCall.buf := by
        rw [List.map_append, ← hcalls]
        exact List.filterMap_append ..
      have hflows₁ := hflows.call bytes consumed
      simp only [handleRead] at h
      simp only [readCalls]
      by_cases hpos : 0 < bytes.length
      · rw [if_pos hpos] at h ⊢
        rw [List.append_cons]
        exact ih hcalls₁ hflows₁ h
      · rw [if_neg hpos] at h ⊢
        obtain rfl := Option.some.inj h
        have hclose := handleClose_input { readJob s bytes consumed with
          conn := { (readJob s bytes consumed).conn with readTriggered := false } }
        rw [hclose.calls, hclose.buffer]
        exact ⟨hcalls₁, hflows₁⟩

/-- The socket has said that it would block, after some bytes or none. -/
def Blocks (turns : List ReadTurn) : Prop :=
  ∃ before consumed after, turns = before ++ ⟨.wouldBlock, consumed⟩ :: after ∧
    ∀ turn ∈ before, ∃ bytes, turn.result = .ok bytes ∧ 0 < bytes.length

/-- The read loop ends when the socket would block, or closes the connection. -/
theorem handleRead_drains {turns : List ReadTurn} {s s' : Session}
    (h : handleRead s turns = some s') : Blocks turns ∨ s'.conn.closed = true := by
  induction turns generalizing s with
  | nil => cases h
  | cons turn turns ih =>
    obtain ⟨result, consumed⟩ := turn
    cases result with
    | wouldBlock => exact .inl ⟨[], consumed, turns, rfl, by simp⟩
    | err =>
      obtain rfl := Option.some.inj h
      exact .inr (handleClose_closed _)
    | ok bytes =>
      simp only [handleRead] at h
      split at h
      · rename_i hpos
        refine (ih h).imp_left ?_
        rintro ⟨before, n, after, rfl, hbefore⟩
        refine ⟨⟨.ok bytes, consumed⟩ :: before, n, after, rfl, fun turn hturn => ?_⟩
        rcases List.mem_cons.mp hturn with rfl | hturn
        · exact ⟨bytes, rfl, hpos⟩
        · exact hbefore turn hturn
      · obtain rfl := Option.some.inj h
        exact .inr (handleClose_closed _)

/-! ## Whole runs -/

theorem readCalls_triggered (s : Session) (turns : List ReadTurn) :
    readCalls { s with conn := { s.conn with readTriggered := true } } turns = readCalls s turns := by
  have hsame : ∀ (turns : List ReadTurn) (s t : Session), s.conn.readBuffer = t.conn.readBuffer →
      readCalls s turns = readCalls t turns := by
    intro turns
    induction turns with
    | nil => exact fun _ _ _ => rfl
    | cons turn turns ih =>
      intro s t hbuffer
      obtain ⟨result, consumed⟩ := turn
      cases result with
      | wouldBlock | err => rfl
      | ok bytes =>
        have hnext : (readJob s bytes consumed).conn.readBuffer =
            (readJob t bytes consumed).conn.readBuffer := by
          unfold readJob
          rw [hbuffer]
        simp only [readCalls]
        rw [hbuffer, ih _ _ hnext]
  exact hsame turns _ _ rfl

theorem Intake.Ok.framed {run run' : Run} {reads : List ReadCall} (h : Intake.Ok ⟨run, reads⟩)
    (hf : InputFrame run.session run'.session) : Intake.Ok ⟨run', reads⟩ := by
  refine ⟨hf.calls.trans h.calls, ?_⟩
  show Flows reads run'.session.conn.readBuffer
  rw [hf.buffer]
  exact h.flows

theorem Intake.Ok.read {s : Intake} (h : s.Ok) {event : Usize} {turns : List ReadTurn} {m : Session}
    (answer : WriteResult) (writJob : Bool)
    (hread : (if (readyFromUsize event).isReadable then
        handleRead { s.run.session with conn := { s.run.conn with readTriggered := true } } turns
      else some s.run.session) = some m) :
    Intake.Ok ⟨⟨m, s.run.sent⟩,
      s.reads ++ readsOf s.run.session (.handleEvent event turns answer writJob)⟩ := by
  have hloop : readsOf s.run.session (.handleEvent event turns answer writJob) =
      if (readyFromUsize event).isReadable then readCalls s.run.session turns else [] := rfl
  rw [hloop]
  split at hread
  · rename_i hreadable
    rw [if_pos hreadable, ← readCalls_triggered]
    have hloop := handleRead_flows
      (s := { s.run.session with conn := { s.run.conn with readTriggered := true } }) h.calls h.flows hread
    exact ⟨hloop.1, hloop.2⟩
  · rename_i hreadable
    obtain rfl := Option.some.inj hread
    rw [if_neg hreadable, List.append_nil]
    exact ⟨h.calls, h.flows⟩

theorem intakeStep_ok {s s' : Intake} {op : ConnOp} (h : s.Ok) (hs : intakeStep s op = some s') :
    s'.Ok := by
  obtain ⟨run, hrun, rfl⟩ := Option.map_eq_some_iff.mp hs
  cases op with
  | send bytes answer writJob =>
    obtain rfl := Option.some.inj hrun
    show Intake.Ok ⟨_, s.reads ++ []⟩
    rw [List.append_nil]
    exact h.framed (send_input s.run.session bytes answer writJob)
  | shutdown how =>
    obtain rfl := Option.some.inj hrun
    show Intake.Ok ⟨_, s.reads ++ []⟩
    rw [List.append_nil]
    exact h.framed (shutdown_input s.run.session how)
  | handleEvent event turns answer writJob =>
    obtain ⟨session, hsession, rfl⟩ := Option.map_eq_some_iff.mp hrun
    obtain ⟨m, hread, rfl⟩ := Option.map_eq_some_iff.mp hsession
    have hm := h.read answer writJob hread
    have hwrite : InputFrame m (if (readyFromUsize event).isWritable then
        handleWrite { m with conn := { m.conn with writeTriggered := true } } answer writJob
        else m) := by
      split
      · exact (handleWrite_input _ answer writJob).after rfl rfl
      · exact .refl m
    refine hm.framed (hwrite.trans ?_)
    dsimp only
    generalize (if (readyFromUsize event).isWritable then
      handleWrite { m with conn := { m.conn with writeTriggered := true } } answer writJob
      else m) = w
    split
    · exact (handleClose_input _).after rfl rfl
    · exact .refl w

theorem intake_ok {s : Intake} (hs : Reachable intakeStep (· = Intake.new) s) : s.Ok :=
  hs.invariant (fun _ hinit => hinit ▸ ⟨rfl, flows_nil⟩) fun _ _ _ h hstep => intakeStep_ok h hstep

/-- **The incoming stream is intact.** In every run, each call of `read_job` is given what the calls
before it have left of all bytes read before, followed by the bytes just read, and what all calls have
left is in the buffer; and `handle_read` only returns once the socket would block, or with the
connection closed. -/
theorem read_stream_intact (s : Intake) (hs : Reachable intakeStep (· = Intake.new) s) :
    s.run.session.calls.filterMap JobCall.readBuf = s.reads.map ReadCall.buf ∧
      received s.reads = eaten s.reads ++ s.run.conn.readBuffer ∧
      (∀ before c after, s.reads = before ++ c :: after →
        ∃ rest, received before = eaten before ++ rest ∧ c.buf = rest ++ c.bytes) ∧
      ∀ turns session, handleRead s.run.session turns = some session →
        Blocks turns ∨ session.conn.closed = true := by
  have h := intake_ok hs
  exact ⟨h.calls, h.flows.left, h.flows.given, fun turns session hread => handleRead_drains hread⟩

/-- Two events: three bytes of which one is taken, then two more and the end of the stream. -/
theorem read_stream_intact_two : ∃ s : Intake,
    s.reads.map ReadCall.buf = [[1, 2, 3], [2, 3, 4, 5], [5]] ∧ s.run.conn.closed = true ∧
      received s.reads = eaten s.reads ++ s.run.conn.readBuffer := by
  obtain ⟨s, hs, hreads, hclosed⟩ : ∃ s : Intake,
      run intakeStep Intake.new
        [.handleEvent 1 [⟨.ok [1, 2, 3], 1⟩, ⟨.wouldBlock, 0⟩] .wouldBlock true,
          .handleEvent 1 [⟨.ok [4, 5], 3⟩, ⟨.ok [], 0⟩] .wouldBlock true] = some s ∧
      s.reads.map ReadCall.buf = [[1, 2, 3], [2, 3, 4, 5], [5]] ∧ s.run.conn.closed = true :=
    ⟨_, rfl, rfl, rfl⟩
  exact ⟨s, hreads, hclosed, (read_stream_intact s (Reachable.run (.start rfl) hs)).2.1⟩

end MyMio
