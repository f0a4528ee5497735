import Phorklift.EventLoop
import Phorklift.KeepAlive

/-! What the read loop of a connection does with its buffer. -/

namespace Phorklift

open Transition

section Model

/-- The limits of `network.recv_buffer_size`. -/
abbrev RecvBufferSize := {n : Nat // 4096 ≤ n ∧ n < 2 ^ 31}

/-- A library that gives no bytes of a stream after `loop_stream_close`. -/
abbrev LawfulLoop := {lib : EventLoop.LoopLib // lib.Lawful}

/-- What the read loop itself does with the memory of `recv_buffer`. -/
inductive BufferUse
  | compacted
  | read
  | released
  deriving DecidableEq

/-- `recv` is what is between the start of the buffer and `recv_buf_end`. -/
structure RecvSide where
  /-- `recv_buffer` is not NULL -/
  recvBuffer : Bool
  recv : Bytes
  recvBufPos : Nat
  closed : Bool
  /-- each use, with whether the connection was closed by then -/
  uses : List (BufferUse × Bool)
  deriving DecidableEq

/-- What a handler makes of the bytes in the buffer. -/
structure Handled where
  consumed : Nat
  closes : Bool
  deriving DecidableEq

/-- A read that gives bytes, and what the handler makes of all that is in the buffer then. -/
structure ReadRound where
  data : Bytes
  handled : Handled
  deriving DecidableEq

namespace RecvSide

def use (u : BufferUse) (c : RecvSide) : RecvSide := { c with uses := c.uses ++ [(u, c.closed)] }

/-- The bytes from `recv_buf_pos` to `recv_buf_end`. -/
def unread (c : RecvSide) : Nat := c.recv.length - c.recvBufPos

/-- The part of `phl_connection_close` that is about the buffer. -/
def phlConnectionClose (c : RecvSide) : RecvSide := { c with closed := true }

/-- The bytes are moved to the start of the buffer. -/
def compact (c : RecvSide) : RecvSide :=
  if c.recvBufPos = c.recv.length then { c with recvBufPos := 0, recv := [] }
  else if c.recvBufPos ≠ 0 then
    { c.use .compacted with recvBufPos := 0, recv := c.recv.drop c.recvBufPos }
  else c

/-- The loop ends with a read that gives no bytes. -/
def leave (readLen : Int) (c : RecvSide) : RecvSide :=
  if readLen < 0 then c.phlConnectionClose
  else if c.recvBufPos = c.recv.length then { c.use .released with recvBuffer := false }
  else c

/-- `phl_http1_on_readable` or `phl_http2_on_readable` -/
def handle (h : Handled) (c : RecvSide) : Option RecvSide :=
  if h.consumed ≤ c.unread then
    some { c with recvBufPos := c.recvBufPos + h.consumed, closed := c.closed || h.closes }
  else none

/-- The loop of `phl_connection_on_readable`: so many reads give bytes, and `last` is what the
stream gives after them. A stream that a handler has closed is read once more. -/
def readLoop (n : RecvBufferSize) (lib : LawfulLoop) (last : {n : Int // n ≤ 0}) :
    List ReadRound → RecvSide → Option RecvSide
  | [], c =>
    let c := c.compact
    some (c.leave (if c.closed then lib.1.readClosed else last.1))
  | b :: rounds, c =>
    let c := c.compact
    if c.closed = false ∧ b.data ≠ [] ∧ b.data.length ≤ n.1 - c.recv.length then
      ({ c.use .read with recv := c.recv ++ b.data }.handle b.handled).bind
        (readLoop n lib last rounds)
    else none

def phlConnectionOnReadable (n : RecvBufferSize) (lib : LawfulLoop) (last : {n : Int // n ≤ 0})
    (rounds : List ReadRound) (c : RecvSide) : Option RecvSide :=
  readLoop n lib last rounds { c with recvBuffer := true }

end RecvSide

inductive RecvAct
  | readable (rounds : List ReadRound) (last : {n : Int // n ≤ 0})
  /-- what timers and upstreams make of the connection and the bytes in its buffer -/
  | elsewhere (h : Handled)

/-- A stream that has been closed is not readable. -/
def recvStep (n : RecvBufferSize) (lib : LawfulLoop) (c : RecvSide) : RecvAct → Option RecvSide
  | .readable rounds last =>
    if c.closed = false then c.phlConnectionOnReadable n lib last rounds else none
  | .elsewhere h => c.handle h

/-- A connection as `calloc` leaves it. -/
def RecvStart (c : RecvSide) : Prop := c = ⟨false, [], 0, false, []⟩

/-- The read loop has touched the buffer of an open connection only. -/
def TouchesOpen (c : RecvSide) : Prop := ∀ u ∈ c.uses, u.2 = false

/-- A handler that closes the connection, with `n` bytes in the buffer that are not read before the
loop goes round, has taken none of them, or it has taken all and the next read of the stream
fails. -/
def ClosesAside (lib : LawfulLoop) : List ReadRound → Nat → Prop
  | [], _ => True
  | b :: rounds, n =>
    (b.handled.closes = true → b.handled.consumed = 0 ∨
      b.handled.consumed = n + b.data.length ∧ lib.1.readClosed < 0) ∧
    ClosesAside lib rounds (n + b.data.length - b.handled.consumed)

/-- What the handlers of an act may do for the loop to leave the buffer alone. -/
def ActClosesAside (lib : LawfulLoop) (c : RecvSide) : RecvAct → Prop
  | .readable rounds _ => ClosesAside lib rounds c.unread
  | .elsewhere _ => True

end Model

section Loop

variable {n : RecvBufferSize} {lib : LawfulLoop} {last : {n : Int // n ≤ 0}} {c c' : RecvSide}
  {rounds : List ReadRound} {u : BufferUse}

theorem touchesOpen_use : TouchesOpen (c.use u) ↔ TouchesOpen c ∧ c.closed = false := by
  unfold TouchesOpen RecvSide.use
  constructor
  · intro h
    have hlast := h (u, c.closed) (List.mem_append_right _ (List.mem_singleton.mpr rfl))
    exact ⟨fun v hv => h v (List.mem_append_left _ hv), hlast⟩
  · rintro ⟨h, hopen⟩ v hv
    rcases List.mem_append.mp hv with hv | hv
    · exact h v hv
    · rw [List.mem_singleton.mp hv]
      exact hopen

/-- The buffer with what was unread at its start. -/
structure Compacted (c c' : RecvSide) : Prop where
  recvBufPos : c'.recvBufPos = 0
  length : c'.recv.length = c.unread
  closed : c'.closed = c.closed

theorem compact_compacted (hpos : c.recvBufPos ≤ c.recv.length) : Compacted c c.compact := by
  unfold RecvSide.compact
  split
  next hall =>
    refine ⟨rfl, ?_, rfl⟩
    show 0 = c.recv.length - c.recvBufPos
    omega
  next hsome =>
    split
    next => exact ⟨rfl, List.length_drop, rfl⟩
    next hzero =>
      have hfirst := not_not.mp hzero
      refine ⟨hfirst, ?_, rfl⟩
      show c.recv.length = c.recv.length - c.recvBufPos
      omega

/-- On a closed connection nothing may be left to move. -/
theorem touchesOpen_compact : TouchesOpen c.compact ↔
    TouchesOpen c ∧ (c.closed = true → c.recvBufPos = c.recv.length ∨ c.recvBufPos = 0) := by
  unfold RecvSide.compact
  split
  next hall => exact (and_iff_left fun _ => .inl hall).symm
  next hsome =>
    split
    next hne =>
      have huse : TouchesOpen (c.use .compacted) ↔ _ := touchesOpen_use
      show TouchesOpen (c.use .compacted) ↔ _
      rw [huse]
      apply and_congr_right
      intro _
      constructor
      · intro hopen hclosed
        rw [hopen] at hclosed
        cases hclosed
      · intro hclosed
        by_contra hnot
        rcases hclosed (by simpa using hnot) with h | h
        · exact hsome h
        · exact hne h
    next hzero => exact (and_iff_left fun _ => .inr (not_not.mp hzero)).symm

theorem touchesOpen_compact_open (hopen : c.closed = false) (h : TouchesOpen c) :
    TouchesOpen c.compact := by
  refine touchesOpen_compact.mpr ⟨h, fun hclosed => ?_⟩
  rw [hopen] at hclosed
  cases hclosed

theorem touchesOpen_leave {readLen : Int} : TouchesOpen (c.leave readLen) ↔
    TouchesOpen c ∧ (c.closed = true → readLen < 0 ∨ c.recvBufPos ≠ c.recv.length) := by
  unfold RecvSide.leave
  split
  next hneg => exact (and_iff_left fun _ => .inl hneg).symm
  next hzero =>
    split
    next hall =>
      show TouchesOpen (c.use .released) ↔ _
      rw [touchesOpen_use]
      apply and_congr_right
      intro _
      constructor
      · intro hopen hclosed
        rw [hopen] at hclosed
        cases hclosed
      · intro hclosed
        by_contra hnot
        rcases hclosed (by simpa using hnot) with h | h
        · exact hzero h
        · exact h hall
    next hsome => exact (and_iff_left fun _ => .inr hsome).symm

theorem leave_ordered {readLen : Int} (h : c.recvBufPos ≤ c.recv.length) :
    (c.leave readLen).recvBufPos ≤ (c.leave readLen).recv.length := by
  unfold RecvSide.leave
  split
  next => exact h
  next =>
    split
    next => exact h
    next => exact h

/-- The round after a handler has closed the connection. -/
theorem touchesOpen_last (hclosed : c.closed = true) (hpos : c.recvBufPos ≤ c.recv.length)
    (hne : 0 < c.recv.length) (h : TouchesOpen c) :
    TouchesOpen (c.compact.leave lib.1.readClosed) ↔
      c.recvBufPos = 0 ∨ c.recvBufPos = c.recv.length ∧ lib.1.readClosed < 0 := by
  have hcompact := compact_compacted hpos
  have hlength : c.compact.recv.length = c.recv.length - c.recvBufPos := hcompact.length
  rw [touchesOpen_leave, touchesOpen_compact, hcompact.closed, hcompact.recvBufPos, hlength]
  constructor
  · rintro ⟨⟨-, hcompacts⟩, hreleases⟩
    rcases hcompacts hclosed with hall | hzero
    · refine .inr ⟨hall, ?_⟩
      rcases hreleases hclosed with hneg | hsome
      · exact hneg
      · omega
    · exact .inl hzero
  · rintro (hzero | ⟨hall, hneg⟩)
    · exact ⟨⟨h, fun _ => .inr hzero⟩, fun _ => .inr (by omega)⟩
    · exact ⟨⟨h, fun _ => .inl hall⟩, fun _ => .inl hneg⟩

theorem handle_touches {h : Handled} (hc : TouchesOpen c) (hpos : c.recvBufPos ≤ c.recv.length)
    (hhandle : c.handle h = some c') : TouchesOpen c' ∧ c'.recvBufPos ≤ c'.recv.length := by
  unfold RecvSide.handle RecvSide.unread at hhandle
  split at hhandle
  next hle =>
    cases Option.some.inj hhandle
    refine ⟨hc, ?_⟩
    show c.recvBufPos + h.consumed ≤ c.recv.length
    omega
  next => cases hhandle

/-- A round that a handler has had, from what was unread before it. -/
structure RoundHandled (c c' : RecvSide) (b : ReadRound) : Prop where
  length : c'.recv.length = c.unread + b.data.length
  recvBufPos : c'.recvBufPos = b.handled.consumed
  closed : c'.closed = b.handled.closes
  ordered : c'.recvBufPos ≤ c'.recv.length
  touches : TouchesOpen c'

theorem handle_handled {b : ReadRound} (hopen : c.closed = false)
    (hpos : c.recvBufPos ≤ c.recv.length) (h : TouchesOpen c)
    (hhandle : { c.compact.use .read with recv := c.compact.recv ++ b.data }.handle b.handled =
      some c') : RoundHandled c c' b := by
  have hcompact := compact_compacted hpos
  have hopen1 : c.compact.closed = false := by rw [hcompact.closed, hopen]
  have hread : TouchesOpen (c.compact.use .read) :=
    touchesOpen_use.mpr ⟨touchesOpen_compact_open hopen h, hopen1⟩
  have hstart : c.compact.recvBufPos ≤ (c.compact.recv ++ b.data).length := by
    rw [hcompact.recvBufPos]
    exact Nat.zero_le _
  obtain ⟨htouches, hordered⟩ := handle_touches (c := { c.compact.use .read with
    recv := c.compact.recv ++ b.data }) hread hstart hhandle
  unfold RecvSide.handle at hhandle
  split at hhandle
  next =>
    have hc' := (Option.some.inj hhandle).symm
    refine ⟨?_, ?_, ?_, hordered, htouches⟩
    · rw [hc']
      show (c.compact.recv ++ b.data).length = _
      rw [List.length_append, hcompact.length]
    · rw [hc']
      show c.compact.recvBufPos + b.handled.consumed = _
      rw [hcompact.recvBufPos, Nat.zero_add]
    · rw [hc']
      show (c.compact.closed || b.handled.closes) = _
      rw [hopen1, Bool.false_or]
  next => cases hhandle

/-- The rounds of the loop, on a connection that is open at its start. By induction on them: the
handler that closes the connection has the last one. -/
theorem readLoop_touches (hopen : c.closed = false) (hpos : c.recvBufPos ≤ c.recv.length)
    (h : TouchesOpen c) (hloop : c.readLoop n lib last rounds = some c') :
    c'.recvBufPos ≤ c'.recv.length ∧ (TouchesOpen c' ↔ ClosesAside lib rounds c.unread) := by
  induction rounds generalizing c with
  | nil =>
    cases Option.some.inj hloop
    have hcompact := compact_compacted hpos
    have hstart : c.compact.recvBufPos ≤ c.compact.recv.length := by
      rw [hcompact.recvBufPos]
      exact Nat.zero_le _
    refine ⟨leave_ordered hstart, iff_of_true ?_ trivial⟩
    refine touchesOpen_leave.mpr ⟨touchesOpen_compact_open hopen h, fun hclosed => ?_⟩
    rw [hcompact.closed, hopen] at hclosed
    cases hclosed
  | cons b rounds ih =>
    unfold RecvSide.readLoop at hloop
    dsimp only at hloop
    split at hloop
    next hfits =>
      obtain ⟨-, hdata, -⟩ := hfits
      obtain ⟨c2, hhandle, hloop⟩ := Option.bind_eq_some_iff.mp hloop
      have hround := handle_handled hopen hpos h hhandle
      have hunread : c2.unread = c.unread + b.data.length - b.handled.consumed := by
        show c2.recv.length - c2.recvBufPos = _
        rw [hround.length, hround.recvBufPos]
      rw [ClosesAside]
      cases hcloses : b.handled.closes with
      | false =>
        have hopen2 : c2.closed = false := by rw [hround.closed, hcloses]
        obtain ⟨hordered, hiff⟩ := ih hopen2 hround.ordered hround.touches hloop
        rw [hunread] at hiff
        exact ⟨hordered, hiff.trans (and_iff_right fun hc => by cases hc).symm⟩
      | true =>
        have hclosed2 : c2.closed = true := by rw [hround.closed, hcloses]
        have hcompact2 := compact_compacted hround.ordered
        cases rounds with
        | nil =>
          cases Option.some.inj hloop
          have hsome : 0 < c2.recv.length := by
            have hread := List.length_pos_iff.mpr hdata
            rw [hround.length]
            omega
          have hlast : TouchesOpen (c2.compact.leave lib.1.readClosed) ↔ _ :=
            touchesOpen_last hclosed2 hround.ordered hsome hround.touches
          have hstart : c2.compact.recvBufPos ≤ c2.compact.recv.length := by
            rw [hcompact2.recvBufPos]
            exact Nat.zero_le _
          rw [hround.recvBufPos, hround.length] at hlast
          rw [hcompact2.closed, hclosed2, if_pos rfl]
          refine ⟨leave_ordered hstart, hlast.trans ?_⟩
          constructor
          · exact fun h => ⟨fun _ => h, trivial⟩
          · exact fun h => h.1 rfl
        | cons b' rounds =>
          unfold RecvSide.readLoop at hloop
          dsimp only at hloop
          rw [hcompact2.closed, hclosed2, if_neg (fun h => by cases h.1)] at hloop
          cases hloop
    next => cases hloop

theorem recvStep_touches {a : RecvAct} (hpos : c.recvBufPos ≤ c.recv.length) (h : TouchesOpen c)
    (hstep : recvStep n lib c a = some c') :
    c'.recvBufPos ≤ c'.recv.length ∧ (TouchesOpen c' ↔ ActClosesAside lib c a) := by
  cases a with
  | readable rounds last =>
    unfold recvStep at hstep
    dsimp only at hstep
    split at hstep
    next hopen =>
      exact readLoop_touches (c := { c with recvBuffer := true }) hopen hpos h hstep
    next => cases hstep
  | elsewhere handled =>
    obtain ⟨htouches, hordered⟩ := handle_touches h hpos hstep
    exact ⟨hordered, iff_of_true htouches trivial⟩

/-- In a run the read loop leaves the buffer of a closed connection alone exactly where no handler
closes the connection with a part of the bytes taken, or with all of them where the library does
not fail the next read. -/
theorem read_loop_touches_open {acts : List RecvAct} (hstart : RecvStart c)
    (h : runActs (recvStep n lib) acts c = some c') :
    ActsKeep (recvStep n lib) TouchesOpen acts c ↔
      ActsMeet (recvStep n lib) (ActClosesAside lib) acts c := by
  have hpos : c.recvBufPos ≤ c.recv.length := by
    rw [hstart]
    exact Nat.zero_le 0
  have htouches : TouchesOpen c := by
    rw [hstart]
    exact List.forall_mem_nil _
  exact actsKeep_iff_of_step (fun _ _ _ hpos ht hstep => recvStep_touches hpos ht hstep) hpos
    htouches h

end Loop

section Examples

/-- What `phl_http1_on_readable` has made of its bytes. -/
def Conn.handled {W V : Type} (data : Bytes) (before after : Conn W V) : Handled :=
  ⟨(before.w.recv ++ data).length - after.w.recv.length, after.w.connClosed⟩

/-- A library that fails the reads of a closed stream. -/
def failingLoop : LawfulLoop := ⟨⟨-1⟩, ⟨by decide⟩⟩

def recvNew : RecvSide := ⟨false, [], 0, false, []⟩

/-- A request line of HTTP/1.1, or one of HTTP/1.0. -/
def requestLineOf (line : Bytes) : Option RequestLine :=
  if (bytes "HTTP/1.0").isSuffixOf line then
    (requestLine (line.dropLast ++ bytes "1")).map fun v => { v with version := 0 }
  else requestLine line

def answering10 : Env Unit Unit :=
  { answering with lib.httpRequestLine := lineParser ⟨[], [], 0⟩ requestLineOf }

/-- A request of HTTP/1.0 with an empty line after it. -/
def trailed : Bytes := bytes "GET / HTTP/1.0" ++ crlf ++ crlf ++ crlf

/-- A request that arrives in two reads and is handled. -/
theorem read_loop_touches_open_request : ∃ c',
    runActs (recvStep ⟨4096, by decide⟩ failingLoop)
      [.readable [⟨bytes "GET / HTTP", ⟨0, false⟩⟩, ⟨bytes "/1.1" ++ crlf ++ crlf, ⟨18, false⟩⟩]
        ⟨0, by decide⟩, .elsewhere ⟨0, true⟩] recvNew = some c' ∧
    (ActsKeep (recvStep ⟨4096, by decide⟩ failingLoop) TouchesOpen
        [.readable [⟨bytes "GET / HTTP", ⟨0, false⟩⟩, ⟨bytes "/1.1" ++ crlf ++ crlf, ⟨18, false⟩⟩]
          ⟨0, by decide⟩, .elsewhere ⟨0, true⟩] recvNew ↔
      ActsMeet (recvStep ⟨4096, by decide⟩ failingLoop) (ActClosesAside failingLoop)
        [.readable [⟨bytes "GET / HTTP", ⟨0, false⟩⟩, ⟨bytes "/1.1" ++ crlf ++ crlf, ⟨18, false⟩⟩]
          ⟨0, by decide⟩, .elsewhere ⟨0, true⟩] recvNew) := by
  have hrun : (runActs (recvStep ⟨4096, by decide⟩ failingLoop)
      [.readable [⟨bytes "GET / HTTP", ⟨0, false⟩⟩, ⟨bytes "/1.1" ++ crlf ++ crlf, ⟨18, false⟩⟩]
        ⟨0, by decide⟩, .elsewhere ⟨0, true⟩] recvNew).isSome = true := by
    decide +kernel
  obtain ⟨c', hrun⟩ := Option.isSome_iff_exists.mp hrun
  exact ⟨c', hrun, read_loop_touches_open rfl hrun⟩

/-- The response to a request of HTTP/1.0 ends, and the connection is closed with two bytes of the
same read left. The loop then moves them in the buffer that has been freed. -/
theorem read_loop_moves_freed : ∃ after : Conn Unit Unit,
    Conn.runs answering10 (fun _ => true) 11
        ((newConn answering10 []).phlHttp1OnReadable answering10 trailed []) = some after ∧
      Conn.handled trailed (newConn answering10 []) after = ⟨18, true⟩ ∧
      ∃ c', runActs (recvStep ⟨4096, by decide⟩ failingLoop)
          [.readable [⟨trailed, Conn.handled trailed (newConn answering10 []) after⟩]
            ⟨0, by decide⟩] recvNew = some c' ∧
        c'.uses = [(.read, false), (.compacted, true)] ∧ ¬TouchesOpen c' := by
  have hrun : ((Conn.runs answering10 (fun _ => true) 11
      ((newConn answering10 []).phlHttp1OnReadable answering10 trailed [])).map
        (Conn.handled trailed (newConn answering10 []))) = some ⟨18, true⟩ := by
    rfl
  obtain ⟨after, hafter, hhandled⟩ := Option.map_eq_some_iff.mp hrun
  refine ⟨after, hafter, hhandled, ?_⟩
  rw [hhandled]
  have huses : (runActs (recvStep ⟨4096, by decide⟩ failingLoop)
      [.readable [⟨trailed, ⟨18, true⟩⟩] ⟨0, by decide⟩] recvNew).map (·.uses) =
        some [(.read, false), (.compacted, true)] := by
    decide +kernel
  obtain ⟨c', hc', huses⟩ := Option.map_eq_some_iff.mp huses
  refine ⟨c', hc', huses, fun h => ?_⟩
  have hmoved : (BufferUse.compacted, true) ∈ c'.uses := by
    rw [huses]
    decide
  cases h _ hmoved

end Examples

end Phorklift
