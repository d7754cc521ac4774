import Mathlib.Data.List.Flatten
import MyMio.Foundations.StepSystem
import MyMio.Net.Connection

/-! # Outgoing bytes of a connection

`Conserved` says that what the socket accepted, then `write_buffer_sending`, then
`write_buffer_waiting` are together exactly the bytes `send` accepted, in order. `write_data` takes
the chunk it writes out of the buffers into a local one and never puts an unwritten rest back, so a
run keeps `Conserved` exactly when every write takes its whole chunk, and keeps it as long as the
connection is open exactly when every write does or ends in an error, which closes the connection
(`conserved_iff_whole_chunks`); one short write, or `WouldBlock`, loses the rest for good.

The write buffers are touched by `write_data` and `send` only (`OutputFrame`), and since nothing is
ever put into `write_buffer_sending`, the chunk is always the whole of `write_buffer_waiting`. Between
two calls both are empty (`Idle`), so that only `send` ever writes.
-/

namespace MyMio
set_option autoImplicit false

open StepSystem

/-! ## Runs of a connection -/

/-- A session and the bytes of every `send` that returned a positive count, in order. -/
structure Run where
  session : Session
  sent : BytesMut
  deriving DecidableEq, Repr

namespace Run

def new : Run := ⟨Session.new, []⟩

abbrev conn (r : Run) : TcpConnection := r.session.conn

end Run

/-- The calls on a connection, each with the answers the socket and `writ_job` give during it. -/
inductive ConnOp
  | send (bytes : BytesMut) (answer : WriteResult) (writJob : Bool)
  | handleEvent (event : Usize) (reads : List ReadTurn) (answer : WriteResult) (writJob : Bool)
  | shutdown (how : Shutdown)
  deriving DecidableEq, Repr

def connStep (r : Run) : ConnOp → Option Run
  | .send bytes answer writJob =>
    let (session, len) := send r.session bytes answer writJob
    some ⟨session, if 0 < len then r.sent ++ bytes else r.sent⟩
  | .handleEvent event reads answer writJob =>
    (handleEvent r.session event reads answer writJob).map fun session => ⟨session, r.sent⟩
  | .shutdown how => some ⟨shutdown r.session how, r.sent⟩

/-- Nothing accepted by `send` is lost, duplicated or reordered. -/
def Conserved (r : Run) : Prop :=
  r.session.accepted ++ r.conn.writeBufferSending ++ r.conn.writeBufferWaiting = r.sent

instance (r : Run) : Decidable (Conserved r) := inferInstanceAs (Decidable (_ = _))

/-! ## The chunk a call writes -/

/-- The bytes `send` moves into `write_buffer_waiting` in this call. -/
def takenIn (c : TcpConnection) : ConnOp → BytesMut
  | .send bytes _ _ => if c.writeEnabled then bytes else []
  | _ => []

/-- Whether the call reaches `write_data`, if there is something to write. -/
def writes (c : TcpConnection) : ConnOp → Bool
  | .send bytes _ _ => c.writeEnabled && decide (0 < bytes.length)
  | .handleEvent event _ _ _ => (readyFromUsize event).isWritable
  | .shutdown _ => false

/-- The chunk the call offers to the socket; empty when it makes no write. -/
def offered (c : TcpConnection) (op : ConnOp) : BytesMut :=
  if writes c op then
    (takeChunk { c with writeBufferWaiting := c.writeBufferWaiting.put (takenIn c op) }).1
  else []

/-- How many bytes an answer of `write` accepts. -/
def WriteResult.count : WriteResult → ℕ
  | .ok cnt => cnt
  | _ => 0

/-- How many bytes the socket's answer in this call accepts. -/
def accepts : ConnOp → ℕ
  | .send _ answer _ => answer.count
  | .handleEvent _ _ answer _ => answer.count
  | .shutdown _ => 0

/-- The socket takes the whole chunk it is offered in this call. -/
def WholeChunk (r : Run) (op : ConnOp) : Prop := (offered r.conn op).length ≤ accepts op

instance (r : Run) (op : ConnOp) : Decidable (WholeChunk r op) := Nat.decLe _ _

/-- The write of this call ends in an error other than `WouldBlock`. -/
def failed : ConnOp → Bool
  | .send _ answer _ | .handleEvent _ _ answer _ => decide (answer = .err)
  | .shutdown _ => false

def WholeOrFailed (r : Run) (op : ConnOp) : Prop := WholeChunk r op ∨ failed op = true

instance (r : Run) (op : ConnOp) : Decidable (WholeOrFailed r op) := inferInstanceAs (Decidable (_ ∨ _))

/-- Whenever the connection is open in the run, nothing has been lost. -/
def ConservedWhileOpen (ops : List ConnOp) : Prop :=
  ∀ n r, run connStep Run.new (ops.take n) = some r → r.conn.closed = false → Conserved r

/-! ## What leaves the write buffers alone -/

/-- A closed connection does not send. -/
def TcpConnection.Disabled (c : TcpConnection) : Prop := c.closed = true → c.writeEnabled = false

/-- The output side of `s` is that of `s'`, and a closed connection stays closed. -/
structure OutputFrame (s s' : Session) : Prop where
  sending : s'.conn.writeBufferSending = s.conn.writeBufferSending
  waiting : s'.conn.writeBufferWaiting = s.conn.writeBufferWaiting
  accepted : s'.accepted = s.accepted
  closed : s.conn.closed = true → s'.conn.closed = true
  disabled : s.conn.Disabled → s'.conn.Disabled

theorem OutputFrame.refl (s : Session) : OutputFrame s s := ⟨rfl, rfl, rfl, id, id⟩

theorem OutputFrame.trans {s t u : Session} (h₁ : OutputFrame s t) (h₂ : OutputFrame t u) :
    OutputFrame s u :=
  ⟨h₂.sending.trans h₁.sending, h₂.waiting.trans h₁.waiting, h₂.accepted.trans h₁.accepted,
    fun h => h₂.closed (h₁.closed h), fun h => h₂.disabled (h₁.disabled h)⟩

theorem handleClose_closed (s : Session) : (handleClose s).conn.closed = true := by
  unfold handleClose
  split
  · assumption
  · rfl

theorem handleClose_frame (s : Session) : OutputFrame s (handleClose s) := by
  unfold handleClose TcpConnection.setEnabled
  split
  · exact .refl s
  · exact ⟨rfl, rfl, rfl, fun _ => rfl, fun _ _ => rfl⟩

theorem readJob_frame (s : Session) (bytes : BytesMut) (consumed : ℕ) :
    OutputFrame s (readJob s bytes consumed) := ⟨rfl, rfl, rfl, id, id⟩

theorem triggered_frame (s : Session) (read write : Bool) :
    OutputFrame s { s with conn := { s.conn with readTriggered := read, writeTriggered := write } } :=
  ⟨rfl, rfl, rfl, id, id⟩

theorem handleRead_frame (turns : List ReadTurn) {s s' : Session}
    (h : handleRead s turns = some s') : OutputFrame s s' := by
  induction turns generalizing s with
  | nil => simp [handleRead] at h
  | cons turn turns ih =>
    obtain ⟨result, consumed⟩ := turn
    cases result with
    | wouldBlock =>
      obtain rfl := Option.some.inj h
      exact triggered_frame s false s.conn.writeTriggered
    | err =>
      obtain rfl := Option.some.inj h
      exact (triggered_frame s false s.conn.writeTriggered).trans (handleClose_frame _)
    | ok bytes =>
      have hjob := readJob_frame s bytes consumed
      simp only [handleRead] at h
      split at h
      · exact hjob.trans (ih h)
      · obtain rfl := Option.some.inj h
        exact (hjob.trans (triggered_frame _ false s.conn.writeTriggered)).trans (handleClose_frame _)

/-! ## What one write does -/

theorem takeChunk_idle {c : TcpConnection} (hs : c.writeBufferSending = []) :
    takeChunk c = (c.writeBufferWaiting, { c with writeBufferWaiting := [] }) := by
  obtain ⟨rb, snd, wait, re, we, rt, wt, cl⟩ := c
  obtain rfl : snd = [] := hs
  cases wait <;> simp [takeChunk, BytesMut.split]

theorem takeChunk_closed (c : TcpConnection) : (takeChunk c).2.closed = c.closed := by
  unfold takeChunk
  split
  · rfl
  · split <;> rfl

/-- `write_data` while nothing is in `write_buffer_sending`: the waiting bytes are the chunk, they
leave the buffer whatever the socket answers, and the connection is not reopened. -/
structure WriteSpec (s s' : Session) (answer : WriteResult) : Prop where
  sending : s'.conn.writeBufferSending = []
  waiting : s'.conn.writeBufferWaiting = []
  accepted : s'.accepted = s.accepted ++ s.conn.writeBufferWaiting.take answer.count
  closed : s.conn.closed = true → s'.conn.closed = true
  disabled : s.conn.Disabled → s'.conn.Disabled

theorem writeData_spec (s : Session) (answer : WriteResult) (writJob : Bool)
    (hs : s.conn.writeBufferSending = []) : WriteSpec s (writeData s answer writJob) answer := by
  unfold writeData
  rw [takeChunk_idle hs]
  by_cases hw : s.conn.writeBufferWaiting = []
  · simp only [hw, List.length_nil, if_true]
    exact ⟨hs, rfl, by simp [hw], id, id⟩
  · have hlen : s.conn.writeBufferWaiting.length ≠ 0 := by simpa using hw
    simp only [hlen, if_false]
    cases answer with
    | wouldBlock => exact ⟨hs, rfl, by simp [WriteResult.count], id, id⟩
    | err =>
      have hf := handleClose_frame { s with
        conn := { s.conn with writeBufferWaiting := [], writeTriggered := false } }
      exact ⟨hf.sending.trans hs, hf.waiting, hf.accepted.trans (by simp [WriteResult.count]), hf.closed,
        hf.disabled⟩
    | ok cnt =>
      dsimp only
      split
      · exact ⟨hs, rfl, rfl, id, id⟩
      · split
        · exact ⟨hs, rfl, rfl, id, id⟩
        · have hf := handleClose_frame { s with
            conn := { s.conn with writeBufferWaiting := [], writeTriggered := false }
            accepted := s.accepted ++ s.conn.writeBufferWaiting.take cnt
            calls := s.calls ++ [.writ] }
          exact ⟨hf.sending.trans hs, hf.waiting, hf.accepted, hf.closed, hf.disabled⟩

theorem handleWrite_spec (s : Session) (answer : WriteResult) (writJob : Bool)
    (hs : s.conn.writeBufferSending = []) : WriteSpec s (handleWrite s answer writJob) answer := by
  unfold handleWrite
  split
  · rename_i hempty
    have hw : s.conn.writeBufferWaiting = [] := List.eq_nil_of_length_eq_zero hempty.1
    exact ⟨hs, hw, by simp [hw], id, id⟩
  · exact writeData_spec s answer writJob hs

/-! ## What one call does -/

theorem offered_idle {c : TcpConnection} (hs : c.writeBufferSending = []) (op : ConnOp) :
    offered c op = if writes c op then c.writeBufferWaiting ++ takenIn c op else [] := by
  unfold offered
  rw [takeChunk_idle (c := { c with writeBufferWaiting := c.writeBufferWaiting.put (takenIn c op) }) hs]
  rfl

/-- One call while nothing is in `write_buffer_sending`: the accepted bytes grow by what the socket
takes of the offered chunk, and the chunk is no longer in a buffer. -/
structure CallSpec (r r' : Run) (op : ConnOp) : Prop where
  sending : r'.conn.writeBufferSending = []
  waiting : r'.conn.writeBufferWaiting = if writes r.conn op then [] else r.conn.writeBufferWaiting
  accepted : r'.session.accepted = r.session.accepted ++ (offered r.conn op).take (accepts op)
  sent : r'.sent = r.sent ++ takenIn r.conn op
  closed : r.conn.closed = true → r'.conn.closed = true
  disabled : r.conn.Disabled → r'.conn.Disabled

theorem send_spec {r r' : Run} {bytes : BytesMut} {answer : WriteResult} {writJob : Bool}
    (hs : r.conn.writeBufferSending = []) (h : connStep r (.send bytes answer writJob) = some r') :
    CallSpec r r' (.send bytes answer writJob) := by
  have hoff := offered_idle hs (.send bytes answer writJob)
  by_cases hout : r.conn.writeEnabled = false ∨ bytes = []
  · have hw : writes r.conn (.send bytes answer writJob) = false := by
      rcases hout with hen | hb
      · simp [writes, hen]
      · simp [writes, hb]
    have hstep : connStep r (.send bytes answer writJob) = some ⟨r.session, r.sent⟩ := by
      rcases hout with hen | hb
      · simp [connStep, send, hen]
      · simp [connStep, send, hb]
    obtain rfl := Option.some.inj (hstep.symm.trans h)
    refine ⟨hs, by rw [hw]; rfl, by simp [hoff, hw], ?_, id, id⟩
    rcases hout with hen | hb
    · simp [takenIn, hen]
    · simp [takenIn, hb]
  · obtain ⟨hen, hb⟩ := not_or.mp hout
    have hpos : 0 < bytes.length := List.length_pos_iff.mpr hb
    have hw : writes r.conn (.send bytes answer writJob) = true := by simp_all [writes]
    have ht : takenIn r.conn (.send bytes answer writJob) = bytes := by simp_all [takenIn]
    have hwrite := writeData_spec
      { r.session with conn := { r.conn with
        writeBufferWaiting := r.conn.writeBufferWaiting.put bytes } } answer writJob hs
    have hstep : connStep r (.send bytes answer writJob) = some ⟨writeData
        { r.session with conn := { r.conn with
          writeBufferWaiting := r.conn.writeBufferWaiting.put bytes } } answer writJob,
        r.sent ++ bytes⟩ := by
      simp_all [connStep, send]
    obtain rfl := Option.some.inj (hstep.symm.trans h)
    refine ⟨hwrite.sending, by rw [hw]; exact hwrite.waiting, ?_, by rw [ht], hwrite.closed,
      hwrite.disabled⟩
    rw [hoff, hw, ht]
    exact hwrite.accepted

theorem handleEvent_spec {r r' : Run} {event : Usize} {reads : List ReadTurn} {answer : WriteResult}
    {writJob : Bool} (hs : r.conn.writeBufferSending = [])
    (h : connStep r (.handleEvent event reads answer writJob) = some r') :
    CallSpec r r' (.handleEvent event reads answer writJob) := by
  obtain ⟨s', hs', rfl⟩ := Option.map_eq_some_iff.mp h
  have hoff := offered_idle hs (.handleEvent event reads answer writJob)
  simp only [takenIn, List.append_nil] at hoff
  obtain ⟨s₁, hread, rfl⟩ := Option.map_eq_some_iff.mp hs'
  have hf₁ : OutputFrame r.session s₁ := by
    split at hread
    · exact (triggered_frame _ true r.conn.writeTriggered).trans (handleRead_frame reads hread)
    · obtain rfl := Option.some.inj hread
      exact OutputFrame.refl _
  have hlast : ∀ s : Session, OutputFrame s
      (if (readyFromUsize event).isError || (readyFromUsize event).isHup then
        handleClose { s with conn := { s.conn with readTriggered := true, writeTriggered := true } }
      else s) := by
    intro s
    split
    · have hf := handleClose_frame
        { s with conn := { s.conn with readTriggered := true, writeTriggered := true } }
      exact ⟨hf.sending, hf.waiting, hf.accepted, hf.closed, hf.disabled⟩
    · exact OutputFrame.refl s
  cases hw : (readyFromUsize event).isWritable with
  | false =>
    have hf := hf₁.trans (hlast s₁)
    refine ⟨hf.sending.trans hs, ?_, ?_, by simp [takenIn], hf.closed, hf.disabled⟩
    · simpa [writes, hw] using hf.waiting
    · simpa [hoff, writes, hw] using hf.accepted
  | true =>
    have hwrite := handleWrite_spec
      { s₁ with conn := { s₁.conn with writeTriggered := true } } answer writJob
      (hf₁.sending.trans hs)
    have hf := hlast (handleWrite { s₁ with conn := { s₁.conn with writeTriggered := true } }
      answer writJob)
    refine ⟨hf.sending.trans hwrite.sending, ?_, ?_, by simp [takenIn],
      fun hc => hf.closed (hwrite.closed (hf₁.closed hc)),
      fun hd => hf.disabled (hwrite.disabled (hf₁.disabled hd))⟩
    · simpa [writes, hw] using hf.waiting.trans hwrite.waiting
    · have hwr : writes r.conn (.handleEvent event reads answer writJob) = true := hw
      rw [hoff, hwr]
      calc _ = s₁.accepted ++ s₁.conn.writeBufferWaiting.take answer.count :=
            hf.accepted.trans hwrite.accepted
        _ = r.session.accepted ++ r.conn.writeBufferWaiting.take answer.count := by
          rw [hf₁.accepted, hf₁.waiting]

theorem connStep_spec {r r' : Run} {op : ConnOp} (hs : r.conn.writeBufferSending = [])
    (h : connStep r op = some r') : CallSpec r r' op := by
  cases op with
  | send bytes answer writJob => exact send_spec hs h
  | handleEvent event reads answer writJob => exact handleEvent_spec hs h
  | shutdown how =>
    obtain rfl := Option.some.inj h
    have hoff := offered_idle hs (.shutdown how)
    cases how with
    | read => exact ⟨hs, rfl, by simp [hoff, writes, shutdown], by simp [takenIn], id, id⟩
    | write | both =>
      exact ⟨hs, rfl, by simp [hoff, writes, shutdown], by simp [takenIn], id, fun _ _ => rfl⟩

/-! ## Between two calls -/

/-- Nothing is left in the write buffers, and a closed connection does not send. -/
structure Idle (s : Session) : Prop where
  sending : s.conn.writeBufferSending = []
  waiting : s.conn.writeBufferWaiting = []
  disabled : s.conn.Disabled

theorem idle_new : Idle Session.new := ⟨rfl, rfl, fun h => by cases h⟩

theorem Idle.frame {s s' : Session} (h : Idle s) (hf : OutputFrame s s') : Idle s' :=
  ⟨hf.sending.trans h.sending, hf.waiting.trans h.waiting, hf.disabled h.disabled⟩

theorem connStep_idle {r r' : Run} {op : ConnOp} (h : Idle r.session) (hs : connStep r op = some r') :
    Idle r'.session := by
  have c := connStep_spec h.sending hs
  refine ⟨c.sending, ?_, c.disabled h.disabled⟩
  have hwaiting : r.conn.writeBufferWaiting = [] := h.waiting
  show r'.conn.writeBufferWaiting = []
  rw [c.waiting, hwaiting, ite_self]

theorem Idle.handleWrite {s : Session} (h : Idle s) (answer : WriteResult) (writJob : Bool) :
    handleWrite s answer writJob = s :=
  if_pos ⟨congrArg List.length h.waiting, congrArg List.length h.sending⟩

/-- A call whose chunk is not taken whole is a `send` on an open connection. -/
theorem Idle.send_of_partial {r : Run} {op : ConnOp} (h : Idle r.session) (hw : ¬ WholeChunk r op) :
    r.conn.closed = false ∧ ∃ bytes answer writJob, op = .send bytes answer writJob ∧
      r.conn.writeEnabled = true ∧ answer.count < bytes.length := by
  have hwaiting : r.conn.writeBufferWaiting = [] := h.waiting
  have hoff := offered_idle h.sending op
  rw [hwaiting, List.nil_append] at hoff
  have hpos : accepts op < (offered r.conn op).length := Nat.lt_of_not_le hw
  rw [hoff] at hpos
  cases op with
  | handleEvent event reads answer writJob => simp [takenIn] at hpos
  | shutdown how => simp [takenIn] at hpos
  | send bytes answer writJob =>
    have hen : r.conn.writeEnabled = true := by
      by_contra hen
      simp [takenIn, hen] at hpos
    refine ⟨?_, bytes, answer, writJob, rfl, hen, ?_⟩
    · cases hc : r.conn.closed with
      | false => rfl
      | true => cases hen.symm.trans (h.disabled hc)
    · by_cases hb : bytes = []
      · simp [takenIn, hb] at hpos
      · simpa [takenIn, writes, accepts, hen, List.length_pos_iff.mpr hb] using hpos

/-- A write that leaves bytes behind closes the connection exactly if it has failed. -/
theorem writeData_partial (s : Session) {answer : WriteResult} (writJob : Bool)
    (hs : s.conn.writeBufferSending = []) (hopen : s.conn.closed = false)
    (hpos : answer.count < s.conn.writeBufferWaiting.length) :
    (writeData s answer writJob).conn.closed = decide (answer = .err) := by
  have hlen : s.conn.writeBufferWaiting.length ≠ 0 := by omega
  unfold writeData
  rw [takeChunk_idle hs]
  simp only [hlen, if_false]
  cases answer with
  | wouldBlock => exact hopen
  | err => exact handleClose_closed _
  | ok cnt =>
    have hrest : 0 < (s.conn.writeBufferWaiting.advance cnt).length := by
      change cnt < _ at hpos
      unfold BytesMut.advance
      rw [List.length_drop]
      omega
    simp only [hrest, if_true]
    exact hopen

theorem Idle.closed_of_partial {r r' : Run} {op : ConnOp} (h : Idle r.session) (hw : ¬ WholeChunk r op)
    (hs : connStep r op = some r') : r'.conn.closed = failed op := by
  obtain ⟨hopen, bytes, answer, writJob, rfl, hen, hpos⟩ := h.send_of_partial hw
  have hwaiting : r.conn.writeBufferWaiting = [] := h.waiting
  have hlen : bytes.length ≠ 0 := by omega
  obtain rfl := Option.some.inj hs
  show (send r.session bytes answer writJob).1.conn.closed = _
  unfold send
  rw [if_neg (by simp [hen]), if_neg hlen]
  refine writeData_partial _ writJob h.sending hopen ?_
  rw [hwaiting]
  exact hpos

/-! ## One call and the stream -/

/-- Some accepted byte is neither with the socket nor in a buffer any more. -/
def Short (r : Run) : Prop :=
  r.session.accepted.length + r.conn.writeBufferWaiting.length < r.sent.length

theorem Conserved.length_eq {r : Run} (hs : r.conn.writeBufferSending = []) (h : Conserved r) :
    r.session.accepted.length + r.conn.writeBufferWaiting.length = r.sent.length := by
  simpa [hs] using congrArg List.length h

theorem takenIn_eq_nil {c : TcpConnection} {op : ConnOp} (h : writes c op = false) :
    takenIn c op = [] := by
  cases op with
  | send bytes answer writJob =>
    simp only [writes, takenIn] at h ⊢
    split
    · simpa [*] using h
    · rfl
  | handleEvent => rfl
  | shutdown => rfl

theorem CallSpec.conserved {r r' : Run} {op : ConnOp} (c : CallSpec r r' op)
    (hs : r.conn.writeBufferSending = []) (hr : Conserved r) (hw : WholeChunk r op) :
    Conserved r' := by
  have hacc := c.accepted
  rw [List.take_of_length_le hw, offered_idle hs] at hacc
  have hstream : r.session.accepted ++ r.conn.writeBufferWaiting = r.sent := by
    simpa [Conserved, hs] using hr
  unfold Conserved
  rw [c.sending, c.waiting, c.sent, hacc, ← hstream]
  cases hwr : writes r.conn op with
  | true => simp
  | false => simp [takenIn_eq_nil hwr]

/-- The bytes a call accounts for: none appear from nowhere, and a chunk not taken whole goes
missing. -/
theorem CallSpec.length {r r' : Run} {op : ConnOp} (c : CallSpec r r' op)
    (hs : r.conn.writeBufferSending = []) :
    r'.session.accepted.length + r'.conn.writeBufferWaiting.length +
        ((offered r.conn op).length - accepts op) + r.sent.length =
      r.session.accepted.length + r.conn.writeBufferWaiting.length + r'.sent.length := by
  rw [c.accepted, c.waiting, c.sent, offered_idle hs]
  cases hwr : writes r.conn op with
  | true =>
    simp only [if_true, List.length_append, List.length_take, List.length_nil]
    omega
  | false => simp [takenIn_eq_nil hwr]

theorem CallSpec.short {r r' : Run} {op : ConnOp} (c : CallSpec r r' op)
    (hs : r.conn.writeBufferSending = []) (h : Short r) : Short r' := by
  have := c.length hs
  unfold Short at *
  omega

theorem CallSpec.short_of_partial {r r' : Run} {op : ConnOp} (c : CallSpec r r' op)
    (hs : r.conn.writeBufferSending = []) (hr : Conserved r) (hw : ¬ WholeChunk r op) :
    Short r' := by
  have hlen := c.length hs
  have hall := hr.length_eq hs
  unfold Short WholeChunk at *
  omega

theorem run_short {ops : List ConnOp} {r r' : Run} (hs : r.conn.writeBufferSending = [])
    (h : run connStep r ops = some r') (hshort : Short r) :
    r'.conn.writeBufferSending = [] ∧ Short r' := by
  refine run_invariant (P := fun m => m.conn.writeBufferSending = [] ∧ Short m)
    (fun m op m' ⟨hs, hshort⟩ hstep => ?_) ⟨hs, hshort⟩ h
  have c := connStep_spec hs hstep
  exact ⟨c.sending, c.short hs hshort⟩

theorem run_conserved_iff {ops : List ConnOp} {r r' : Run} (hs : r.conn.writeBufferSending = [])
    (hr : Conserved r) (h : run connStep r ops = some r') :
    Conserved r' ↔ Along connStep WholeChunk r ops := by
  induction ops generalizing r with
  | nil =>
    obtain rfl : r = r' := by simpa using h
    exact ⟨fun _ => trivial, fun _ => hr⟩
  | cons op ops ih =>
    obtain ⟨m, hm, hrun⟩ := run_cons h
    have c := connStep_spec hs hm
    by_cases hw : WholeChunk r op
    · rw [ih c.sending (c.conserved hs hr hw) hrun, along_cons_iff hm]
      exact (and_iff_right hw).symm
    · obtain ⟨hs', hshort⟩ := run_short c.sending hrun (c.short_of_partial hs hr hw)
      refine ⟨fun hc => ?_, fun ha => absurd ha.1 hw⟩
      exact absurd (hc.length_eq hs') (Nat.ne_of_lt hshort)

/-! ## The stream while the connection is open -/

theorem run_closed {ops : List ConnOp} {r r' : Run} (hidle : Idle r.session)
    (h : run connStep r ops = some r') (hc : r.conn.closed = true) : r'.conn.closed = true :=
  (run_invariant (P := fun m => Idle m.session ∧ m.conn.closed = true)
    (fun _ _ _ ⟨hidle, hc⟩ hstep =>
      ⟨connStep_idle hidle hstep, (connStep_spec hidle.sending hstep).closed hc⟩) ⟨hidle, hc⟩ h).2

theorem along_of_closed {ops : List ConnOp} {r : Run} (hidle : Idle r.session)
    (hc : r.conn.closed = true) : Along connStep WholeOrFailed r ops := by
  induction ops generalizing r with
  | nil => trivial
  | cons op ops ih =>
    refine ⟨.inl ?_, fun m hm => ih (connStep_idle hidle hm) ((connStep_spec hidle.sending hm).closed hc)⟩
    by_contra hw
    cases hc.symm.trans (hidle.send_of_partial hw).1

/-- A run of calls keeps the stream while the connection is open, or loses bytes of it while it is. -/
theorem run_open_iff {ops : List ConnOp} {r r' : Run} (hidle : Idle r.session) (hr : Conserved r)
    (h : run connStep r ops = some r') :
    (∀ n m, run connStep r (ops.take n) = some m → m.conn.closed = false → Conserved m) ↔
      Along connStep WholeOrFailed r ops := by
  induction ops generalizing r with
  | nil =>
    refine iff_of_true (fun n m hm _ => ?_) trivial
    obtain rfl : r = m := by simpa using hm
    exact hr
  | cons op ops ih =>
    obtain ⟨m, hm, hrun⟩ := run_cons h
    have c := connStep_spec hidle.sending hm
    have hidle' := connStep_idle hidle hm
    rw [along_cons_iff hm, run_take_cons_iff (P := fun m => m.conn.closed = false → Conserved m) hm]
    by_cases hw : WholeChunk r op
    · rw [ih hidle' (c.conserved hidle.sending hr hw) hrun]
      exact and_congr_left fun _ => iff_of_true (fun _ => hr) (.inl hw)
    · have hclosed := hidle.closed_of_partial hw hm
      cases hf : failed op with
      | true =>
        rw [hf] at hclosed
        refine iff_of_true ⟨fun _ => hr, fun n m₂ hm₂ hopen => ?_⟩
          ⟨.inr hf, along_of_closed hidle' hclosed⟩
        cases hopen.symm.trans (run_closed hidle' hm₂ hclosed)
      | false =>
        rw [hf] at hclosed
        refine iff_of_false (fun hall => ?_) fun hall => hall.1.elim hw fun he => ?_
        · have hconserved := hall.2 0 m rfl hclosed
          exact absurd (hconserved.length_eq c.sending)
            (Nat.ne_of_lt (c.short_of_partial hidle.sending hr hw))
        · rw [hf] at he
          cases he

/-! ## The stream of a connection -/

/-- **Conservation.** After any run of calls on a new connection, nothing sent is lost, duplicated
or reordered if and only if the socket took the whole chunk of every write of the run; and nothing is as
long as the connection is open if and only if it took the whole chunk of every write that did not fail. -/
theorem conserved_iff_whole_chunks (ops : List ConnOp) (r : Run)
    (h : run connStep Run.new ops = some r) :
    (Conserved r ↔ Along connStep WholeChunk Run.new ops) ∧
      (ConservedWhileOpen ops ↔ Along connStep WholeOrFailed Run.new ops) :=
  ⟨run_conserved_iff rfl rfl h, run_open_iff idle_new rfl h⟩

/-- Two sends taken whole, then one that fails, and a writable event with nothing to write. -/
theorem conserved_iff_whole_chunks_two_sends :
    ConservedWhileOpen [.send [1, 2] (.ok 2) true, .send [3] (.ok 1) true, .send [4] .err true,
      .handleEvent 2 [] .wouldBlock true] :=
  (conserved_iff_whole_chunks _ ⟨⟨{ TcpConnection.new with
      readEnabled := false
      writeEnabled := false
      writeTriggered := true
      closed := true }, [1, 2, 3], [.writ, .writ, .close, .deregister]⟩, [1, 2, 3, 4]⟩
    (by decide)).2.mpr (by decide)

/-- The socket takes one byte of two: the connection is open, and the second byte is nowhere. -/
theorem short_write_loses_rest :
    ∃ r, run connStep Run.new [.send [1, 2] (.ok 1) true] = some r ∧ r.conn.closed = false ∧
      ¬ Conserved r :=
  ⟨⟨⟨TcpConnection.new, [1], []⟩, [1, 2]⟩, by decide⟩

/-! ## What a short write loses -/

/-- The chunks the calls of a run offer to the socket, each with what its answer accepts. -/
def chunks (r : Run) : List ConnOp → List (BytesMut × ℕ)
  | [] => []
  | op :: ops =>
    (offered r.conn op, accepts op) ::
      match connStep r op with
      | some r' => chunks r' ops
      | none => []

theorem chunks_cons {r r' : Run} {op : ConnOp} (h : connStep r op = some r') (ops : List ConnOp) :
    chunks r (op :: ops) = (offered r.conn op, accepts op) :: chunks r' ops := by
  rw [chunks, h]

/-- The bytes of a call go from `send` to the chunk or stay in the buffer. -/
theorem CallSpec.stream {r r' : Run} {op : ConnOp} (c : CallSpec r r' op)
    (hs : r.conn.writeBufferSending = []) :
    offered r.conn op ++ r'.conn.writeBufferWaiting = r.conn.writeBufferWaiting ++ takenIn r.conn op := by
  rw [c.waiting, offered_idle hs]
  cases hwr : writes r.conn op with
  | true => simp
  | false => simp [takenIn_eq_nil hwr]

/-- What `send` has taken in the run is in the chunks, then in the buffer; the socket has a prefix of each
chunk. -/
theorem run_chunks {ops : List ConnOp} {r r' : Run} (hs : r.conn.writeBufferSending = [])
    (h : run connStep r ops = some r') :
    (∃ taken, r'.sent = r.sent ++ taken ∧
      (chunks r ops).flatMap Prod.fst ++ r'.conn.writeBufferWaiting =
        r.conn.writeBufferWaiting ++ taken) ∧
      r'.session.accepted =
        r.session.accepted ++ (chunks r ops).flatMap fun chunk => chunk.1.take chunk.2 := by
  induction ops generalizing r with
  | nil =>
    obtain rfl : r = r' := by simpa using h
    exact ⟨⟨[], by simp [chunks]⟩, by simp [chunks]⟩
  | cons op ops ih =>
    obtain ⟨m, hm, hrun⟩ := run_cons h
    have c := connStep_spec hs hm
    obtain ⟨⟨taken, hsent, hstream⟩, haccepted⟩ := ih c.sending hrun
    rw [chunks_cons hm, List.flatMap_cons, List.flatMap_cons]
    refine ⟨⟨takenIn r.conn op ++ taken, ?_, ?_⟩, ?_⟩
    · rw [hsent, c.sent, List.append_assoc]
    · rw [List.append_assoc, hstream, ← List.append_assoc, c.stream hs, List.append_assoc]
    · rw [haccepted, c.accepted, List.append_assoc]

/-- **What is lost.** After any run of calls on a new connection, with any short writes and errors: all that
`send` has taken is the chunks offered to the socket, then the waiting buffer, in order; and the socket
has accepted a prefix of each chunk, so that a byte is never repeated, and never overtakes another. -/
theorem losses_are_chunk_rests (ops : List ConnOp) (r : Run) (h : run connStep Run.new ops = some r) :
    (chunks Run.new ops).flatMap Prod.fst ++ r.conn.writeBufferWaiting = r.sent ∧
      r.session.accepted = ((chunks Run.new ops).flatMap fun chunk => chunk.1.take chunk.2) ∧
      (r.session.accepted ++ r.conn.writeBufferWaiting).Sublist r.sent := by
  obtain ⟨⟨taken, hsent, hstream⟩, haccepted⟩ := run_chunks rfl h
  have hsent : r.sent = taken := hsent
  have hstream : (chunks Run.new ops).flatMap Prod.fst ++ r.conn.writeBufferWaiting = r.sent :=
    hstream.trans hsent.symm
  have haccepted : r.session.accepted = (chunks Run.new ops).flatMap fun chunk => chunk.1.take chunk.2 :=
    haccepted
  refine ⟨hstream, haccepted, ?_⟩
  rw [haccepted, ← hstream]
  exact (List.Sublist.flatMap_right _ fun chunk _ => List.take_sublist chunk.2 chunk.1).append_right _

/-- One byte of two, then nothing of one. -/
theorem losses_are_chunk_rests_two : ∃ r : Run, r.sent = [1, 2, 3] ∧ r.session.accepted = [1] ∧
    (r.session.accepted ++ r.conn.writeBufferWaiting).Sublist r.sent := by
  let r : Run := ⟨⟨TcpConnection.new, [1], []⟩, [1, 2, 3]⟩
  have hrun : run connStep Run.new [.send [1, 2] (.ok 1) true, .send [3] .wouldBlock true] = some r := by
    decide
  exact ⟨r, rfl, rfl, (losses_are_chunk_rests _ r hrun).2.2⟩

end MyMio
