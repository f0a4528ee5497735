import Phorklift.Request

/-! The sending side and the timers of an HTTP/1 connection, under its event handlers. -/

namespace Phorklift

/-- A new connection is all zeroes, so it is `reading`. -/
inductive ConnectionState
  | reading
  | writing
  | idle
  | closed
  deriving DecidableEq

inductive TimerGroup
  | recv
  | keepalive
  | send
  deriving DecidableEq

/-- What a connection's debug log tells, with the data; `writeLen` is `none` for a socket error. -/
inductive ConnectionEvent
  | appended (data : Bytes)
  | wrote (data : Bytes) (writeLen : Option Nat)
  | switched (state : ConnectionState)
  /-- the connection is closed because its last response is complete -/
  | completed
  deriving DecidableEq

/-- What a connection reads of its request. -/
structure Http1Request where
  state : RequestState
  version : Nat
  deriving DecidableEq

/-- `recvTimer` and `sendTimer` are the groups they are armed in; `sendBuffer` holds the first
`send_buf_len` bytes of the buffer; `deferred` is being in the defer list. -/
structure Connection where
  request : Option Http1Request
  state : ConnectionState
  recvTimer : Option TimerGroup
  sendTimer : Option TimerGroup
  sendBuffer : Option Bytes
  deferred : Bool
  log : List ConnectionEvent
  deriving DecidableEq

inductive FlushRet
  | ok
  | again
  | error
  deriving DecidableEq

namespace Connection

def note (c : Connection) (e : ConnectionEvent) : Connection := { c with log := c.log ++ [e] }

/-- `phl_connection_on_accept` -/
def accepted : Connection := ⟨none, .reading, none, none, none, false, []⟩

/-- `phl_connection_close`: the request it closes finds the connection closed. -/
def phlConnectionClose (writeLen : Option Nat) (c : Connection) : Connection :=
  if c.state = .closed then c
  else
    let c := match c.sendBuffer with
      | none => c
      | some data => c.note (.wrote data writeLen)
    { c with
      request := none
      state := .closed
      recvTimer := none
      sendTimer := none
      sendBuffer := none
      deferred := true }

def phlConnectionFlush (writeLen : Option Nat) (c : Connection) : FlushRet × Connection :=
  if c.state = .closed then (.error, c)
  else match c.sendBuffer with
    | none | some [] => (.ok, c)
    | some data =>
      match writeLen with
      | none => (.error, (c.note (.wrote data none)).phlConnectionClose none)
      | some n =>
        let c := { c.note (.wrote data (some n)) with sendBuffer := some (data.drop n) }
        if n < data.length then (.again, { c with sendTimer := some .send })
        else (.ok, { c with sendTimer := none })

def phlConnectionDeferRoutine (writeLen : Option Nat) (c : Connection) : Connection :=
  match ({ c with deferred := false } : Connection).phlConnectionFlush writeLen with
  | (.ok, c) => { c with sendBuffer := none }
  | (_, c) => c

def phlConnectionMakeSpace (bufSize size : Nat) (writeLen : Option Nat) (c : Connection) :
    Space × Connection :=
  if c.state = .closed then (.error, c)
  else if bufSize < size then (.error, c)
  else
    let c := { c with deferred := true }
    match c.sendBuffer with
    | none => (.space bufSize, { c with sendBuffer := some [] })
    | some data =>
      if size ≤ bufSize - data.length then (.space (bufSize - data.length), c)
      else match c.phlConnectionFlush writeLen with
        | (.error, c) => (.flushFailed, c)
        | (_, c) =>
          let available := bufSize - (c.sendBuffer.getD []).length
          if size ≤ available then (.space available, c) else (.again, c)

def phlConnectionSetState (state : ConnectionState) (c : Connection) : Connection :=
  if c.state = .closed then c
  else if c.state = state then c
  else
    let c := { c.note (.switched state) with state := state }
    match state with
    | .reading => { c with recvTimer := some .recv }
    | .writing => { c with sendTimer := none }
    | .idle => { c with recvTimer := some .keepalive }
    | .closed => c

def phlHttp1SetState (c : Connection) : Connection :=
  match c.request with
  | none => c.phlConnectionSetState .idle
  | some r =>
    if r.state.index < RequestState.responseHeaders1.index then c.phlConnectionSetState .reading
    else c.phlConnectionSetState .writing

/-- `phl_http1_request_close`; the event is noted where the response is complete. -/
def phlHttp1RequestClose (r : Http1Request) (writeLen : Option Nat) (c : Connection) : Connection :=
  let c := { c with request := none }
  if r.state ≠ .done then c.phlConnectionClose writeLen
  else if r.version = 0 then (c.phlConnectionClose writeLen).note .completed
  else c.phlConnectionSetState .idle

/-- What a response appends after `phl_connection_make_space`, if there is room. -/
def respond (bufSize size : Nat) (writeLen : Option Nat) (data : Bytes) (c : Connection) :
    Connection :=
  match c.phlConnectionMakeSpace bufSize size writeLen with
  | (.space available, c) =>
    if data.length ≤ available then
      { c.note (.appended data) with sendBuffer := some (c.sendBuffer.getD [] ++ data) }
    else c
  | (_, c) => c

/-- A new request, where `phl_http1_on_readable` finds none. -/
def withRequest (c : Connection) : Connection :=
  { c with request := some (c.request.getD ⟨.receiveHeaders, 0⟩) }

end Connection

/-- The event handler that runs; `elsewhere` is a call of `phl_request_run` from another event, as
from the upstream. -/
inductive ConnHandler
  | outside
  | onReadable
  | onWritable
  | elsewhere
  deriving DecidableEq

/-- The steps of the event handlers, with the result of `loop_stream_write`, and those of
`phl_request_run` within a handler. -/
inductive Act
  | readable
  | readAgain
  | writable (writeLen : Option Nat)
  | elsewhere
  | handled
  | defer (writeLen : Option Nat)
  /-- timeouts, and the client's closing -/
  | close
  | advance (r : Http1Request)
  | respond (size : Nat) (writeLen : Option Nat) (data : Bytes)
  | requestClose (writeLen : Option Nat)
  deriving DecidableEq

structure Handling where
  c : Connection
  handler : ConnHandler
  deriving DecidableEq

namespace Handling

/-- The step, where it can be made. -/
def step (bufSize : Nat) (s : Handling) : Act → Option Handling
  | .readable =>
    if s.handler = .outside ∧ s.c.state ≠ .closed then some ⟨s.c.withRequest, .onReadable⟩ else none
  | .readAgain =>
    if s.handler = .onReadable ∧ s.c.state ≠ .closed then
      some ⟨s.c.phlHttp1SetState.withRequest, .onReadable⟩
    else none
  | .writable writeLen =>
    if s.handler = .outside ∧ s.c.state ≠ .closed then
      match s.c.phlConnectionFlush writeLen with
      | (.ok, c) => some ⟨c, if c.request.isSome then .onWritable else .outside⟩
      | (_, c) => some ⟨c, .outside⟩
    else none
  | .elsewhere =>
    if s.handler = .outside ∧ s.c.request.isSome then some ⟨s.c, .elsewhere⟩ else none
  | .handled =>
    match s.handler with
    | .outside => none
    | .onReadable | .onWritable => some ⟨s.c.phlHttp1SetState, .outside⟩
    | .elsewhere => some ⟨s.c, .outside⟩
  | .defer writeLen =>
    if s.handler = .outside ∧ s.c.deferred = true ∧ s.c.state ≠ .closed then
      some ⟨s.c.phlConnectionDeferRoutine writeLen, .outside⟩
    else none
  | .close =>
    if s.handler = .outside then some ⟨s.c.phlConnectionClose none, .outside⟩ else none
  | .advance r =>
    if s.handler ≠ .outside ∧ s.c.request.isSome then
      some { s with c := { s.c with request := some r } }
    else none
  | .respond size writeLen data =>
    if s.handler ≠ .outside ∧ s.c.request.isSome then
      some { s with c := s.c.respond bufSize size writeLen data }
    else none
  | .requestClose writeLen =>
    match s.handler, s.c.request with
    | .outside, _ | _, none => none
    | _, some r => some { s with c := s.c.phlHttp1RequestClose r writeLen }

/-- The state after some steps, each of them allowed. -/
def run (ok : Handling → Act → Bool) (bufSize : Nat) : Handling → List Act → Option Handling
  | s, [] => some s
  | s, a :: acts =>
    if ok s a then (s.step bufSize a).bind fun s => s.run ok bufSize acts else none

def accepted : Handling := ⟨.accepted, .outside⟩

theorem run_invariant {ok : Handling → Act → Bool} {bufSize : Nat} {I : Handling → Prop}
    (keep : ∀ s a t, I s → ok s a = true → s.step bufSize a = some t → I t) {s t : Handling}
    {acts : List Act} (h : s.run ok bufSize acts = some t) (hs : I s) : I t := by
  induction acts generalizing s with
  | nil =>
    cases h
    exact hs
  | cons a acts ih =>
    unfold run at h
    split at h
    next hok =>
      obtain ⟨s', hstep, hrun⟩ := Option.bind_eq_some_iff.mp h
      exact ih hrun (keep s a s' hs hok hstep)
    next => cases h

end Handling

/-- A closed connection has no request any more. -/
def Connection.Detached (c : Connection) : Prop := c.state = .closed → c.request = none

section Detached

open Connection

variable {c : Connection} {writeLen : Option Nat} {state : ConnectionState}

@[simp] theorem close_state : (c.phlConnectionClose writeLen).state = .closed := by
  unfold phlConnectionClose
  split
  next h => exact h
  next => rfl

theorem close_detached (h : c.Detached) : (c.phlConnectionClose writeLen).Detached := by
  unfold phlConnectionClose
  split
  next => exact h
  next => exact fun _ => rfl

theorem flush_detached (h : c.Detached) : (c.phlConnectionFlush writeLen).2.Detached := by
  unfold phlConnectionFlush
  split
  next => exact h
  next =>
    split
    next => exact h
    next => exact h
    next =>
      split
      next => exact close_detached h
      next =>
        dsimp only
        split
        next => exact h
        next => exact h

theorem defer_detached (h : c.Detached) : (c.phlConnectionDeferRoutine writeLen).Detached := by
  have hflush := @flush_detached { c with deferred := false } writeLen h
  unfold phlConnectionDeferRoutine
  split
  next hc' =>
    rw [hc'] at hflush
    exact hflush
  next hc' =>
    rw [hc'] at hflush
    exact hflush

/-- Whatever the connection and the flush behind it keep is kept by making space. -/
theorem makeSpace_keeps {bufSize size : Nat} {P : Connection → Prop} (hkeep : P c)
    (hdefer : P { c with deferred := true })
    (hnew : c.sendBuffer = none → P { c with deferred := true, sendBuffer := some [] })
    (hflush : P (phlConnectionFlush writeLen { c with deferred := true }).2) :
    P (c.phlConnectionMakeSpace bufSize size writeLen).2 := by
  unfold phlConnectionMakeSpace
  split
  next => exact hkeep
  next =>
    split
    next => exact hkeep
    next =>
      dsimp only
      split
      next hbuffer => exact hnew hbuffer
      next =>
        split
        next => exact hdefer
        next =>
          split
          next hc' =>
            rw [hc'] at hflush
            exact hflush
          next hc' =>
            rw [hc'] at hflush
            split
            next => exact hflush
            next => exact hflush

theorem respond_detached {bufSize size : Nat} {data : Bytes} (h : c.Detached) :
    (c.respond bufSize size writeLen data).Detached := by
  have hflush := @flush_detached { c with deferred := true } writeLen h
  have hspace : (c.phlConnectionMakeSpace bufSize size writeLen).2.Detached :=
    makeSpace_keeps h h (fun _ => h) hflush
  unfold Connection.respond
  split
  next hc' =>
    rw [hc'] at hspace
    split
    next => exact hspace
    next => exact hspace
  next hc' =>
    rw [hc'] at hspace
    exact hspace

theorem setState_detached (hne : state ≠ .closed) (h : c.Detached) :
    (c.phlConnectionSetState state).Detached := by
  unfold phlConnectionSetState
  split
  next => exact h
  next =>
    split
    next => exact h
    next =>
      cases state with
      | closed => exact absurd rfl hne
      | reading | writing | idle => exact nofun

theorem http1SetState_detached (h : c.Detached) : c.phlHttp1SetState.Detached := by
  unfold phlHttp1SetState
  split
  next => exact setState_detached nofun h
  next =>
    split
    next => exact setState_detached nofun h
    next => exact setState_detached nofun h

theorem requestClose_detached {r : Http1Request} :
    (c.phlHttp1RequestClose r writeLen).Detached := by
  have hnone : Detached { c with request := none } := fun _ => rfl
  unfold phlHttp1RequestClose
  dsimp only
  split
  next => exact close_detached hnone
  next =>
    split
    next => exact @close_detached _ writeLen hnone
    next => exact setState_detached nofun hnone

theorem http1SetState_open (hopen : c.state ≠ .closed) : c.phlHttp1SetState.state ≠ .closed := by
  have hset : ∀ state, state ≠ .closed → (c.phlConnectionSetState state).state ≠ .closed := by
    intro state hne
    unfold phlConnectionSetState
    rw [if_neg hopen]
    split
    next => exact hopen
    next =>
      cases state with
      | closed => exact absurd rfl hne
      | reading | writing | idle => exact nofun
  unfold phlHttp1SetState
  split
  next => exact hset .idle nofun
  next =>
    split
    next => exact hset .reading nofun
    next => exact hset .writing nofun

end Detached

/-- What a step does to the connection. -/
inductive Moved (bufSize : Nat) (c : Connection) : Act → Connection → Prop
  | same {a} : Moved bufSize c a c
  | request {a} (r : Option Http1Request) : (c.state = .closed → r = none) →
    Moved bufSize c a { c with request := r }
  | setState {a} : Moved bufSize c a c.phlHttp1SetState
  | nextRequest {a} (r : Option Http1Request) : c.phlHttp1SetState.state ≠ .closed →
    Moved bufSize c a { c.phlHttp1SetState with request := r }
  | flush (writeLen : Option Nat) :
    Moved bufSize c (.writable writeLen) (c.phlConnectionFlush writeLen).2
  | defer (writeLen : Option Nat) :
    Moved bufSize c (.defer writeLen) (c.phlConnectionDeferRoutine writeLen)
  | close : Moved bufSize c .close (c.phlConnectionClose none)
  | respond (size : Nat) (writeLen : Option Nat) (data : Bytes) :
    Moved bufSize c (.respond size writeLen data) (c.respond bufSize size writeLen data)
  | requestClose (writeLen : Option Nat) {r : Http1Request} : c.request = some r →
    Moved bufSize c (.requestClose writeLen) (c.phlHttp1RequestClose r writeLen)

theorem step_moved {bufSize : Nat} {s t : Handling} {a : Act} (hs : s.c.Detached)
    (h : s.step bufSize a = some t) : Moved bufSize s.c a t.c := by
  cases a with
  | readable =>
    obtain ⟨hopen, h⟩ := Option.ite_none_right_eq_some.mp h
    cases h
    exact .request _ fun hclosed => absurd hclosed hopen.2
  | readAgain =>
    obtain ⟨hopen, h⟩ := Option.ite_none_right_eq_some.mp h
    cases h
    exact .nextRequest _ (http1SetState_open hopen.2)
  | writable writeLen =>
    unfold Handling.step at h
    dsimp only at h
    split at h
    next =>
      split at h
      next c hflush =>
        cases h
        have hmoved := @Moved.flush bufSize s.c writeLen
        rw [hflush] at hmoved
        exact hmoved
      next c _ hflush =>
        cases h
        have hmoved := @Moved.flush bufSize s.c writeLen
        rw [hflush] at hmoved
        exact hmoved
    next => cases h
  | elsewhere =>
    obtain ⟨-, h⟩ := Option.ite_none_right_eq_some.mp h
    cases h
    exact .same
  | handled =>
    unfold Handling.step at h
    dsimp only at h
    split at h
    next => cases h
    next =>
      cases h
      exact .setState
    next =>
      cases h
      exact .setState
    next =>
      cases h
      exact .same
  | defer writeLen =>
    obtain ⟨-, h⟩ := Option.ite_none_right_eq_some.mp h
    cases h
    exact .defer writeLen
  | close =>
    obtain ⟨-, h⟩ := Option.ite_none_right_eq_some.mp h
    cases h
    exact .close
  | advance r =>
    obtain ⟨hsome, h⟩ := Option.ite_none_right_eq_some.mp h
    cases h
    refine .request _ fun hclosed => ?_
    rw [hs hclosed] at hsome
    cases hsome.2
  | respond size writeLen data =>
    obtain ⟨-, h⟩ := Option.ite_none_right_eq_some.mp h
    cases h
    exact .respond size writeLen data
  | requestClose writeLen =>
    unfold Handling.step at h
    dsimp only at h
    split at h
    next => cases h
    next => cases h
    next r hr _ =>
      cases h
      exact .requestClose writeLen hr

theorem moved_detached {bufSize : Nat} {c c' : Connection} {a : Act} (hc : c.Detached)
    (h : Moved bufSize c a c') : c'.Detached := by
  cases h with
  | same => exact hc
  | request r hr => exact hr
  | setState => exact http1SetState_detached hc
  | nextRequest r hopen => exact fun hclosed => absurd hclosed hopen
  | flush => exact flush_detached hc
  | defer => exact defer_detached hc
  | close => exact close_detached hc
  | respond => exact respond_detached hc
  | requestClose => exact requestClose_detached

end Phorklift
