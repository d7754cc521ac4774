import MyMio.Net.Conservation

/-! # Closing a connection

`close_job` runs once at most, since `handle_close` looks at `closed` first. `read_job` is not guarded:
`handle_read` goes on reading on a connection that has been closed. `writ_job` is not either, but only
`send` calls it, which a closed connection refuses; the write buffers are empty when an event comes
(`Idle`). So a run leaves the callbacks of closed connections alone exactly if no read on one delivers
anything (`close_final_iff`).

`watch` reads the callbacks of a run in order.
-/

namespace MyMio
set_option autoImplicit false

open StepSystem

/-! ## The order of the callbacks -/

def JobCall.isJob : JobCall → Bool
  | .read _ | .writ => true
  | _ => false

/-- `close_job` has run once at most, and neither of the other two after it. -/
def CloseFinal (calls : List JobCall) : Prop :=
  calls.count .close ≤ 1 ∧ ∀ before after, calls = before ++ .close :: after →
    ∀ c ∈ after, c.isJob = false

/-- What a reader of the callbacks has seen. -/
inductive Watch
  | opened
  | closed
  | broken
  deriving DecidableEq, Repr

namespace Watch

def next : Watch → JobCall → Watch
  | .opened, .close => .closed
  | .closed, .close | .closed, .read _ | .closed, .writ => .broken
  | w, _ => w

def reads (w : Watch) (calls : List JobCall) : Watch := calls.foldl next w

theorem reads_append (w : Watch) (xs ys : List JobCall) :
    w.reads (xs ++ ys) = (w.reads xs).reads ys := List.foldl_append

theorem reads_broken (calls : List JobCall) : Watch.broken.reads calls = .broken := by
  induction calls with
  | nil => rfl
  | cons c calls ih => exact ih

theorem reads_closed (calls : List JobCall) :
    Watch.closed.reads calls ≠ .broken ↔
      calls.count .close = 0 ∧ ∀ c ∈ calls, c.isJob = false := by
  induction calls with
  | nil => simp [reads]
  | cons c calls ih =>
    have hbroken : Watch.broken.reads calls = .broken := reads_broken calls
    cases c with
    | deregister =>
      change Watch.closed.reads calls ≠ .broken ↔ _
      rw [ih]
      simp [JobCall.isJob]
    | close =>
      change Watch.broken.reads calls ≠ .broken ↔ _
      simp [hbroken]
    | read buf =>
      change Watch.broken.reads calls ≠ .broken ↔ _
      simp [hbroken, JobCall.isJob]
    | writ =>
      change Watch.broken.reads calls ≠ .broken ↔ _
      simp [hbroken, JobCall.isJob]

/-- A callback that is not `close_job` does not matter before the first `close_job`. -/
theorem closeFinal_cons {c : JobCall} {calls : List JobCall} (hc : c ≠ .close) :
    CloseFinal (c :: calls) ↔ CloseFinal calls := by
  unfold CloseFinal
  rw [List.count_cons_of_ne (fun h => hc h)]
  refine and_congr_right fun _ => ⟨fun h before after he => ?_, fun h before after he => ?_⟩
  · exact h (c :: before) after (by rw [he]; rfl)
  · cases before with
    | nil => exact absurd (List.cons.inj he).1 hc
    | cons d before => exact h before after (List.cons.inj he).2

theorem closeFinal_close {calls : List JobCall} :
    CloseFinal (.close :: calls) ↔ calls.count .close = 0 ∧ ∀ c ∈ calls, c.isJob = false := by
  unfold CloseFinal
  rw [List.count_cons_self]
  refine ⟨fun ⟨hcount, hfinal⟩ => ⟨by omega, hfinal [] calls rfl⟩, fun ⟨hcount, hjobs⟩ =>
    ⟨by omega, fun before after he => ?_⟩⟩
  cases before with
  | nil =>
    obtain rfl := (List.cons.inj he).2
    exact hjobs
  | cons d before =>
    intro c hc
    apply hjobs
    rw [(List.cons.inj he).2]
    exact List.mem_append_right _ (List.mem_cons_of_mem _ hc)

theorem reads_opened (calls : List JobCall) :
    Watch.opened.reads calls ≠ .broken ↔ CloseFinal calls := by
  induction calls with
  | nil => simp [reads, CloseFinal]
  | cons c calls ih =>
    cases c with
    | close =>
      change Watch.closed.reads calls ≠ .broken ↔ _
      rw [reads_closed, closeFinal_close]
    | deregister | read | writ =>
      rw [closeFinal_cons (by simp), ← ih]
      rfl

end Watch

/-- What the reader has seen of a session. -/
def watch (s : Session) : Watch := Watch.opened.reads s.calls

/-! ## When a step calls back -/

/-- The read loop calls `read_job`: its first read delivers bytes or the end of the stream. -/
def delivers : List ReadTurn → Bool
  | ⟨.ok _, _⟩ :: _ => true
  | _ => false

/-- The call does not run `read_job` on a connection that has been closed before. -/
def LeavesClosed (r : Run) : ConnOp → Prop
  | .handleEvent event reads _ _ =>
    r.conn.closed = true → (readyFromUsize event).isReadable = true → delivers reads = false
  | .send _ _ _ | .shutdown _ => True

instance (r : Run) (op : ConnOp) : Decidable (LeavesClosed r op) :=
  match op with
  | .handleEvent _ _ _ _ => inferInstanceAs (Decidable (_ → _ → _))
  | .send _ _ _ | .shutdown _ => .isTrue trivial

/-! ## The parts of a call -/

/-- The reader agrees with `closed`. -/
def Watched (s : Session) : Prop := watch s = if s.conn.closed then .closed else .opened

theorem Watched.opened {s : Session} (h : Watched s) (hc : s.conn.closed = false) :
    watch s = .opened := by
  rw [show watch s = _ from h, hc]
  rfl

theorem Watched.closed {s : Session} (h : Watched s) (hc : s.conn.closed = true) :
    watch s = .closed := by
  rw [show watch s = _ from h, hc]
  rfl

theorem Watched.frame {s s' : Session} (h : Watched s) (hcalls : s'.calls = s.calls)
    (hc : s'.conn.closed = s.conn.closed) : Watched s' := by
  unfold Watched watch
  rw [hcalls, hc]
  exact h

theorem watch_append (s : Session) (conn : TcpConnection) (accepted : BytesMut)
    (new : List JobCall) : watch ⟨conn, accepted, s.calls ++ new⟩ = (watch s).reads new :=
  Watch.reads_append ..

theorem Watched.handleClose {s : Session} (h : Watched s) : Watched (handleClose s) := by
  unfold MyMio.handleClose
  split
  next => exact h
  next hopen =>
    show watch _ = .closed
    rw [watch_append, h.opened (Bool.eq_false_iff.mpr hopen)]
    rfl

theorem Watched.readJob {s : Session} (h : Watched s) (hc : s.conn.closed = false)
    (bytes : BytesMut) (consumed : ℕ) : Watched (readJob s bytes consumed) := by
  show watch _ = if s.conn.closed then _ else _
  unfold MyMio.readJob
  rw [watch_append, h.opened hc, hc]
  rfl

theorem Watched.handleRead {s s' : Session} {turns : List ReadTurn} (h : Watched s)
    (hc : s.conn.closed = false) (hs : handleRead s turns = some s') : Watched s' := by
  induction turns generalizing s with
  | nil => cases hs
  | cons turn turns ih =>
    obtain ⟨result, consumed⟩ := turn
    cases result with
    | wouldBlock =>
      cases hs
      exact h.frame rfl rfl
    | err =>
      cases hs
      exact Watched.handleClose (h.frame rfl rfl)
    | ok bytes =>
      have hjob : Watched (MyMio.readJob s bytes consumed) := h.readJob hc bytes consumed
      rw [MyMio.handleRead] at hs
      split at hs
      next => exact ih hjob hc hs
      next =>
        cases hs
        exact Watched.handleClose (hjob.frame rfl rfl)

/-! ## What has run stays on record -/

theorem broken_of_grows {s s' : Session} (hp : s.calls <+: s'.calls) (hb : watch s = .broken) :
    watch s' = .broken := by
  obtain ⟨new, hnew⟩ := hp
  unfold watch at *
  rw [← hnew, Watch.reads_append, hb]
  exact Watch.reads_broken new

theorem handleClose_grows {s : Session} {calls : List JobCall} (hs : s.calls = calls) :
    calls <+: (handleClose s).calls := by
  rw [← hs]
  unfold handleClose
  split
  · exact List.prefix_rfl
  · exact List.prefix_append ..

theorem handleRead_grows {s s' : Session} {turns : List ReadTurn}
    (hs : handleRead s turns = some s') : s.calls <+: s'.calls := by
  induction turns generalizing s with
  | nil => cases hs
  | cons turn turns ih =>
    obtain ⟨result, consumed⟩ := turn
    cases result with
    | wouldBlock =>
      cases hs
      exact List.prefix_rfl
    | err =>
      cases hs
      exact handleClose_grows rfl
    | ok bytes =>
      have hjob : s.calls <+: (readJob s bytes consumed).calls := List.prefix_append ..
      rw [handleRead] at hs
      split at hs
      next => exact hjob.trans (ih hs)
      next =>
        cases hs
        exact hjob.trans (handleClose_grows rfl)

theorem writeData_grows (s : Session) (answer : WriteResult) (writJob : Bool) :
    s.calls <+: (writeData s answer writJob).calls := by
  unfold writeData
  dsimp only
  split
  · exact List.prefix_rfl
  · cases answer with
    | wouldBlock => exact List.prefix_rfl
    | err => exact handleClose_grows rfl
    | ok cnt =>
      dsimp only
      split
      · exact List.prefix_rfl
      · split
        · exact List.prefix_append ..
        · exact (List.prefix_append s.calls [.writ]).trans (handleClose_grows rfl)

/-! ## One call -/

/-- A read loop on a closed connection that delivers something runs `read_job`. -/
theorem handleRead_closed {s s' : Session} {turns : List ReadTurn} (h : Watched s)
    (hc : s.conn.closed = true) (hs : handleRead s turns = some s') :
    if delivers turns then watch s' = .broken else Watched s' := by
  cases turns with
  | nil => cases hs
  | cons turn turns =>
    obtain ⟨result, consumed⟩ := turn
    cases result with
    | wouldBlock =>
      cases hs
      exact h.frame rfl rfl
    | err =>
      cases hs
      exact Watched.handleClose (h.frame rfl rfl)
    | ok bytes =>
      show watch s' = .broken
      have hjob : watch (readJob s bytes consumed) = .broken := by
        unfold readJob
        rw [watch_append, h.closed hc]
        rfl
      refine broken_of_grows ?_ hjob
      rw [handleRead] at hs
      split at hs
      next => exact handleRead_grows hs
      next =>
        cases hs
        exact handleClose_grows rfl

theorem Watched.writeData {s : Session} (h : Watched s) (answer : WriteResult) (writJob : Bool)
    (hs : s.conn.writeBufferSending = []) (hopen : s.conn.closed = false) :
    Watched (writeData s answer writJob) := by
  unfold MyMio.writeData
  rw [takeChunk_idle hs]
  dsimp only
  split
  next => exact h.frame rfl rfl
  next =>
    cases answer with
    | wouldBlock => exact h.frame rfl rfl
    | err => exact Watched.handleClose (h.frame rfl rfl)
    | ok cnt =>
      dsimp only
      split
      next => exact h.frame rfl rfl
      next =>
        have hwrit : Watched ⟨{ s.conn with writeBufferWaiting := [], writeTriggered := false },
            s.accepted ++ s.conn.writeBufferWaiting.take cnt, s.calls ++ [.writ]⟩ := by
          show watch _ = if s.conn.closed then _ else _
          rw [watch_append, h.opened hopen, hopen]
          rfl
        split
        next => exact hwrit
        next => exact hwrit.handleClose

theorem Watched.send {s : Session} (h : Watched s) (hidle : Idle s) (bytes : BytesMut)
    (answer : WriteResult) (writJob : Bool) : Watched (send s bytes answer writJob).1 := by
  unfold MyMio.send
  split
  next => exact h
  next henabled =>
    split
    next => exact h
    next =>
      have hput : Watched { s with conn := { s.conn with
          writeBufferWaiting := s.conn.writeBufferWaiting.put bytes } } := h.frame rfl rfl
      have hopen : s.conn.closed = false := by
        cases hc : s.conn.closed with
        | false => rfl
        | true => exact absurd (hidle.disabled hc) henabled
      exact hput.writeData answer writJob hidle.sending hopen

theorem Watched.shutdown {s : Session} (h : Watched s) (how : Shutdown) :
    Watched (shutdown s how) := by
  cases how <;> exact h.frame rfl rfl

/-- The part of an event after the read part: nothing is written. -/
def afterRead (s : Session) (ready : Ready) : Session :=
  let s := if ready.isWritable then { s with conn := { s.conn with writeTriggered := true } } else s
  if ready.isError || ready.isHup then
    handleClose { s with conn := { s.conn with readTriggered := true, writeTriggered := true } }
  else s

theorem Watched.afterRead {s : Session} (h : Watched s) (ready : Ready) : Watched (afterRead s ready) := by
  unfold MyMio.afterRead
  dsimp only
  split <;> split
  · exact Watched.handleClose (h.frame rfl rfl)
  · exact Watched.handleClose (h.frame rfl rfl)
  · exact h.frame rfl rfl
  · exact h

theorem afterRead_grows (s : Session) (ready : Ready) : s.calls <+: (afterRead s ready).calls := by
  unfold afterRead
  dsimp only
  split <;> split
  · exact handleClose_grows rfl
  · exact handleClose_grows rfl
  · exact List.prefix_rfl
  · exact List.prefix_rfl

theorem handleEvent_idle {s s' : Session} {event : Usize} {reads : List ReadTurn} {answer : WriteResult}
    {writJob : Bool} (hidle : Idle s) (hs : handleEvent s event reads answer writJob = some s') :
    ∃ m, s' = afterRead m (readyFromUsize event) ∧
      (if (readyFromUsize event).isReadable = true then
        handleRead { s with conn := { s.conn with readTriggered := true } } reads
      else some s) = some m := by
  obtain ⟨m, hm, rfl⟩ := Option.map_eq_some_iff.mp hs
  have hframe : OutputFrame s m := by
    split at hm
    · exact (triggered_frame s true s.conn.writeTriggered).trans (handleRead_frame reads hm)
    · obtain rfl := Option.some.inj hm
      exact .refl s
  have hwrite := ((hidle.frame hframe).frame
    (triggered_frame m m.conn.readTriggered true)).handleWrite answer writJob
  refine ⟨m, ?_, hm⟩
  dsimp only
  rw [hwrite]
  rfl

/-- An event keeps the record, or breaks it for good. -/
theorem handleEvent_watch {r r' : Run} {event : Usize} {reads : List ReadTurn}
    {answer : WriteResult} {writJob : Bool} (h : Watched r.session) (hidle : Idle r.session)
    (hs : connStep r (.handleEvent event reads answer writJob) = some r') :
    if LeavesClosed r (.handleEvent event reads answer writJob) then Watched r'.session
    else watch r'.session = .broken := by
  obtain ⟨s', hs', rfl⟩ := Option.map_eq_some_iff.mp hs
  obtain ⟨m, rfl, hm⟩ := handleEvent_idle hidle hs'
  show if LeavesClosed r (.handleEvent event reads answer writJob) then
    Watched (afterRead m (readyFromUsize event)) else watch (afterRead m (readyFromUsize event)) = .broken
  split at hm
  next hr =>
    have htriggered : Watched { r.session with conn := { r.conn with readTriggered := true } } :=
      h.frame rfl rfl
    cases hc : r.conn.closed with
    | true =>
      have hclosed := handleRead_closed htriggered hc hm
      cases hd : delivers reads with
      | true =>
        rw [hd] at hclosed
        have hbad : ¬ LeavesClosed r (.handleEvent event reads answer writJob) := fun hok => by
          cases hd.symm.trans (hok hc hr)
        rw [if_neg hbad]
        exact broken_of_grows (afterRead_grows m _) hclosed
      | false =>
        rw [hd] at hclosed
        have hok : LeavesClosed r (.handleEvent event reads answer writJob) := fun _ _ => hd
        rw [if_pos hok]
        exact Watched.afterRead hclosed _
    | false =>
      have hok : LeavesClosed r (.handleEvent event reads answer writJob) := fun he => by
        cases hc.symm.trans he
      rw [if_pos hok]
      exact (htriggered.handleRead hc hm).afterRead _
  next hr =>
    obtain rfl := Option.some.inj hm
    have hok : LeavesClosed r (.handleEvent event reads answer writJob) := fun _ he => absurd he hr
    rw [if_pos hok]
    exact h.afterRead _

/-- **One call** keeps the record, or breaks it for good. -/
theorem connStep_watch {r r' : Run} {op : ConnOp} (h : Watched r.session) (hidle : Idle r.session)
    (hs : connStep r op = some r') :
    if LeavesClosed r op then Watched r'.session else watch r'.session = .broken := by
  cases op with
  | handleEvent event reads answer writJob => exact handleEvent_watch h hidle hs
  | send bytes answer writJob =>
    obtain rfl := Option.some.inj hs
    exact h.send hidle bytes answer writJob
  | shutdown how =>
    obtain rfl := Option.some.inj hs
    exact h.shutdown how

theorem connStep_grows {r r' : Run} {op : ConnOp} (hidle : Idle r.session)
    (hs : connStep r op = some r') : r.session.calls <+: r'.session.calls := by
  cases op with
  | handleEvent event reads answer writJob =>
    obtain ⟨s', hs', rfl⟩ := Option.map_eq_some_iff.mp hs
    obtain ⟨m, rfl, hm⟩ := handleEvent_idle hidle hs'
    have hread : r.session.calls <+: m.calls := by
      split at hm
      next =>
        have htriggered := handleRead_grows hm
        exact htriggered
      next =>
        cases hm
        exact List.prefix_rfl
    exact hread.trans (afterRead_grows m _)
  | send bytes answer writJob =>
    obtain rfl := Option.some.inj hs
    show r.session.calls <+: (send r.session bytes answer writJob).1.calls
    unfold send
    split
    · exact List.prefix_rfl
    · split
      · exact List.prefix_rfl
      · exact writeData_grows { r.session with conn := { r.conn with
          writeBufferWaiting := r.conn.writeBufferWaiting.put bytes } } answer writJob
  | shutdown how =>
    obtain rfl := Option.some.inj hs
    cases how <;> exact List.prefix_rfl

/-! ## Runs -/

theorem run_grows {ops : List ConnOp} {r r' : Run} (hidle : Idle r.session)
    (hrun : run connStep r ops = some r') : r.session.calls <+: r'.session.calls :=
  (run_invariant (P := fun m => Idle m.session ∧ r.session.calls <+: m.session.calls)
    (fun _ _ _ ⟨hidle, hgrown⟩ hstep =>
      ⟨connStep_idle hidle hstep, hgrown.trans (connStep_grows hidle hstep)⟩)
    ⟨hidle, List.prefix_rfl⟩ hrun).2

theorem run_watch {ops : List ConnOp} {r r' : Run} (h : Watched r.session) (hidle : Idle r.session)
    (hrun : run connStep r ops = some r') :
    watch r'.session ≠ .broken ↔ Along connStep LeavesClosed r ops := by
  induction ops generalizing r with
  | nil =>
    obtain rfl : r = r' := by simpa using hrun
    refine iff_of_true ?_ trivial
    rw [show watch r.session = _ from h]
    split <;> decide
  | cons op ops ih =>
    obtain ⟨m, hm, hrest⟩ := run_cons hrun
    have hstep := connStep_watch h hidle hm
    have hidle' := connStep_idle hidle hm
    rw [along_cons_iff hm]
    split at hstep
    next hok =>
      rw [ih hstep hidle' hrest]
      exact (and_iff_right hok).symm
    next hbad =>
      have hlast := broken_of_grows (run_grows hidle' hrest) hstep
      exact ⟨fun hne => absurd hlast hne, fun hrun => absurd hrun.1 hbad⟩

/-- **When close is final.** In a run of calls on a new connection `close_job` runs once at most and
no other callback after it, exactly if no event runs `read_job` on a connection that has been closed
before. -/
theorem close_final_iff (ops : List ConnOp) (r : Run) (hrun : run connStep Run.new ops = some r) :
    CloseFinal r.session.calls ↔ Along connStep LeavesClosed Run.new ops := by
  rw [← Watch.reads_opened]
  exact run_watch (r := Run.new) rfl idle_new hrun

/-- A hang-up closes the connection, and a stale event after it finds nothing to read. -/
theorem close_final_hup : CloseFinal [.close, .deregister] :=
  (close_final_iff [.handleEvent 8 [] .wouldBlock true,
      .handleEvent 1 [⟨.wouldBlock, 0⟩] .wouldBlock true]
    ⟨⟨⟨[], [], [], false, false, false, true, true⟩, [], [.close, .deregister]⟩, []⟩
    (by decide)).mpr (by decide)

/-- The same, with bytes left to read: `read_job` runs after `close_job`. -/
theorem read_after_close : ∃ r, run connStep Run.new [.handleEvent 8 [] .wouldBlock true,
    .handleEvent 1 [⟨.ok [7], 1⟩, ⟨.wouldBlock, 0⟩] .wouldBlock true] = some r ∧
      r.session.calls = [.close, .deregister, .read [7]] ∧ ¬ CloseFinal r.session.calls := by
  refine ⟨⟨⟨⟨[], [], [], false, false, false, true, true⟩, [], [.close, .deregister, .read [7]]⟩, []⟩,
    by decide, rfl, fun h => ?_⟩
  have hjob := h.2 [] [.deregister, .read [7]] rfl (.read [7]) (by simp)
  cases hjob

end MyMio
