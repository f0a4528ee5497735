import Phorklift.ChunkedPack
import Phorklift.Connection

/-! The bounds of the send buffer, of client connections and of the fake ones of subrequests. -/

namespace Phorklift

open Transition

section Model

/-- `network.send_buffer_size` as its limits allow it. -/
abbrev SendBufferSize := {n : Int // 4096 ≤ n ∧ n < 2 ^ 31}

/-- Whether a connection has a `loop_stream`, or is that of a subrequest. -/
inductive ConnKind
  | stream
  | subr (detached : Bool)
  deriving DecidableEq

/-- What the writers of a connection do, for the record: `memory` is the size of the memory that
`send_buffer` points to, `none` where there is none. -/
inductive SendEvent
  /-- `phl_connection_make_space(c, size)` returns `r`, positive -/
  | granted (size r len : Int) (memory : Option Int)
  | stored (pos count : Int) (memory : Option Int)
  /-- a field of the connection is used after it has been freed -/
  | stale
  deriving DecidableEq

/-- `sendBuffer` is the size it was allocated with, `none` where it is NULL. -/
structure SendSide where
  kind : ConnKind
  isHttp2 : Bool
  closed : Bool
  freed : Bool
  sendBuffer : Option Int
  sendBufLen : Int
  log : List SendEvent
  deriving DecidableEq

/-- What is decided outside: what `loop_stream_write` returns; what is at the place of the
connection after the father has closed the subrequest, where it does; whether `malloc` gives
memory. -/
structure SendOutcome where
  writeLen : Int
  closes : Option (Option Int × Int)
  mallocs : Bool
  deriving DecidableEq

namespace SendSide

def note (c : SendSide) (e : SendEvent) : SendSide := { c with log := c.log ++ [e] }

/-- The memory that the send buffer is in. -/
def memory (c : SendSide) : Option Int :=
  if c.closed ∨ c.freed then none else c.sendBuffer

def store (pos : Int) (count : Nat) (c : SendSide) : SendSide :=
  c.note (.stored pos count c.memory)

def phlConnectionClose (c : SendSide) : SendSide := { c with closed := true }

def phlConnectionFlush (o : SendOutcome) (c : SendSide) : FlushRet × SendSide :=
  if c.closed then (.error, c)
  else if c.sendBuffer = none ∨ c.sendBufLen = 0 then (.ok, c)
  else match c.kind with
    | .subr true => (.ok, { c with sendBufLen := 0 })
    | .subr false =>
      match o.closes with
      | none => (.again, c)
      | some (sendBuffer, sendBufLen) =>
        (.again, { c with freed := true, sendBuffer := sendBuffer, sendBufLen := sendBufLen })
    | .stream =>
      if o.writeLen < 0 then (.error, c.phlConnectionClose)
      else
        let c := { c with sendBufLen := c.sendBufLen - o.writeLen }
        if 0 < c.sendBufLen then (.again, c) else (.ok, c)

def phlConnectionDeferRoutine (o : SendOutcome) (c : SendSide) : SendSide :=
  if c.closed then { c with freed := true }
  else match c.phlConnectionFlush o with
    | (.ok, c) => { c with sendBuffer := none }
    | (_, c) => c

def bufSize (n : SendBufferSize) (c : SendSide) : Int :=
  if c.isHttp2 then toInt (n.1 + 9) else n.1

/-- Every use of a field counts where the connection has been freed. -/
def use (c : SendSide) : SendSide := if c.freed then c.note .stale else c

def phlConnectionMakeSpace (n : SendBufferSize) (size : Int) (o : SendOutcome) (c : SendSide) :
    Int × SendSide :=
  if c.closed then (phlError, c)
  else if c.bufSize n < size then (phlError, c)
  else match c.sendBuffer with
    | none =>
      -- no `malloc` takes what a negative size is converted to
      if o.mallocs = true ∧ 0 ≤ c.bufSize n then
        (c.bufSize n, { c with sendBuffer := some (c.bufSize n), sendBufLen := 0 })
      else (phlError, { c with sendBufLen := 0 })
    | some _ =>
      let available := c.bufSize n - c.sendBufLen
      if size ≤ available then (available, c)
      else match c.phlConnectionFlush o with
        | (.error, c) => (phlError, c)
        | (_, c) =>
          let c := c.use
          let available := c.bufSize n - c.sendBufLen
          (if size ≤ available then available else phlAgain, c)

/-- `phl_connection_make_space`, with a positive result on record. -/
def reserve (n : SendBufferSize) (size : Int) (o : SendOutcome) (c : SendSide) : Int × SendSide :=
  let made := c.phlConnectionMakeSpace n size o
  (made.1, if 0 < made.1 then made.2.note (.granted size made.1 made.2.sendBufLen made.2.memory)
    else made.2)

/-- What is appended at the end of the buffer. -/
def append (count : Nat) (c : SendSide) : SendSide :=
  { c.store c.sendBufLen count with sendBufLen := c.sendBufLen + count }

/-- `phl_http1_response_headers`: `text` bytes and a NUL that the next bytes go over. -/
def phlHttp1ResponseHeaders (text : Nat) (c : SendSide) : SendSide :=
  { c.store c.sendBufLen (text + 1) with sendBufLen := c.sendBufLen + text }

/-- Where the payload of a piece goes, and the room for it. -/
def packfix (r : Request) (available : Int) (c : SendSide) : Nat × Int :=
  if r.isHttp2 then (c.sendBufLen.toNat + 9, available - 9)
  else phlHttp1ResponseBodyPackfix r c.sendBufLen.toNat available

/-- The packed length, and the stores around a payload. -/
def pack (r : Request) (payload length : Nat) (isLast : Bool) : Nat × List (Nat × Nat) :=
  if r.isHttp2 then (length + 9, [(payload - 9, 9)])
  else
    let packed := phlHttp1ResponseBodyPack r payload length isLast
    (packed.1, packed.2.map fun w => (w.pos, w.data.length))

def stores (ws : List (Nat × Nat)) (c : SendSide) : SendSide :=
  ws.foldl (fun c w => c.store w.1 w.2) c

end SendSide

/-- What a round of `phl_request_response_body` meets: the stream's window, the bytes that the
source writes, and the length that the filters leave, `none` for an error. -/
structure PieceRound where
  window : Nat
  made : Nat
  kept : Option Nat
  isLast : Bool

namespace SendSide

/-- The room offered to the source and the filters. -/
def bodyRoom (r : Request) (b : PieceRound) (room : Int) : Int :=
  if r.isHttp2 = true ∧ (b.window : Int) < room then b.window else room

/-- A round of `phl_request_response_body` from `phl_connection_make_space` on; it is none where the
source or a filter takes more than it was offered. -/
def phlRequestResponseBody (r : Request) (b : PieceRound) (available : Int) (c : SendSide) :
    Option SendSide :=
  if r.isHttp2 = true ∧ b.window = 0 then some c
  else
    let place := c.packfix r available
    let bufLen := bodyRoom r b place.2
    if (b.made : Int) ≤ bufLen ∧ ∀ kept ∈ b.kept, (kept : Int) ≤ bufLen then
      let c := c.store place.1 b.made
      match b.kept with
      | none => some c
      | some kept =>
        let packed := pack r place.1 kept b.isLast
        let c := (c.store place.1 kept).stores packed.2
        some { c with sendBufLen := c.sendBufLen + packed.1 }
    else none

end SendSide

/-- The calls that come to a connection, each with what is decided outside. -/
inductive SendSideAct
  /-- a call of `phl_connection_make_space` with nothing after it -/
  | makeSpace (size : Int) (o : SendOutcome)
  | http1Headers (size : Int) (text : Nat) (o : SendOutcome)
  /-- `phl_http2_response_headers`, whose frames take `count` bytes -/
  | http2Headers (size : Int) (count : Nat) (o : SendOutcome)
  | body (r : Request) (b : PieceRound) (o : SendOutcome)
  /-- `phl_http2_response_body_finish` -/
  | finish (o : SendOutcome)
  /-- `phl_http2_hook_control_frame` -/
  | control (len : Nat) (o : SendOutcome)
  /-- `phl_connection_on_writable` -/
  | flush (o : SendOutcome)
  | defer (o : SendOutcome)
  | close
  /-- `phl_request_subr_detach` -/
  | detach
  /-- `phl_request_subr_close`, from elsewhere than a flush -/
  | subrClose

namespace SendSideAct

def outcome : SendSideAct → Option SendOutcome
  | makeSpace _ o | http1Headers _ _ o | http2Headers _ _ o | body _ _ o | finish o | control _ o
  | flush o | defer o => some o
  | _ => none

/-- The size that is asked for. -/
def size : SendSideAct → Option Int
  | makeSpace size _ => some size
  | http1Headers size _ _ => some size
  | http2Headers size _ _ => some size
  | body _ _ _ => some 4096
  | finish _ => some 9
  | control len _ => some len
  | _ => none

/-- What is written after the space has been given. -/
def write : SendSideAct → Int → SendSide → Option SendSide
  | http1Headers size text _, _, c =>
    if c.isHttp2 = false ∧ (text : Int) + 1 ≤ size then some (c.phlHttp1ResponseHeaders text)
    else none
  | http2Headers size count _, _, c =>
    if c.isHttp2 = true ∧ (count : Int) ≤ size then some (c.append count) else none
  | body r b _, available, c =>
    if r.isHttp2 = c.isHttp2 then c.phlRequestResponseBody r b available else none
  | finish _, _, c => some (c.append 9)
  | control len _, _, c => some (c.append len)
  | _, _, c => some c

end SendSideAct

/-- A call, where it can come: not to a connection that has been freed, and with a socket that takes
no more than it is given. -/
def sendSideStep (n : SendBufferSize) (c : SendSide) (a : SendSideAct) : Option SendSide :=
  if c.freed = false ∧ a.outcome.all (fun o => decide (o.writeLen ≤ c.sendBufLen)) then
    match a, a.size, a.outcome with
    | _, some size, some o =>
      let made := c.reserve n size o
      if made.1 < 0 then some made.2 else a.write made.1 made.2
    | .flush _, _, some o => if c.kind = .stream then some (c.phlConnectionFlush o).2 else none
    | .defer _, _, some o => some (c.phlConnectionDeferRoutine o)
    | .close, _, _ => if c.kind = .stream then some c.phlConnectionClose else none
    | .detach, _, _ => if c.kind = .subr false then some { c with kind := .subr true } else none
    | .subrClose, _, _ => if c.kind = .stream then none else some { c with freed := true }
    | _, _, _ => none
  else none

/-- A connection as `calloc` leaves it. -/
def SendSideStart (c : SendSide) : Prop :=
  c.closed = false ∧ c.freed = false ∧ c.sendBuffer = none ∧ c.sendBufLen = 0 ∧ c.log = [] ∧
    (c.kind ≠ .stream → c.isHttp2 = false)

/-- What may be on record. -/
def SendEvent.Inside : SendEvent → Prop
  | granted size r len memory => size ≤ r ∧ memory = some (len + r)
  | stored pos count memory => ∃ m, memory = some m ∧ 0 ≤ pos ∧ pos + count ≤ m
  | stale => False

/-- The bounds of the buffer, while there is one, and of all that has been done in it. -/
structure InBounds (n : SendBufferSize) (c : SendSide) : Prop where
  log : ∀ e ∈ c.log, e.Inside
  bounds : c.closed = false → c.freed = false →
    0 ≤ c.sendBufLen ∧ c.sendBufLen ≤ c.sendBuffer.getD 0 ∧
      ∀ m, c.sendBuffer = some m → m = c.bufSize n

/-- If the call has to flush the connection of a subrequest that its father waits for, the father
does not close the subrequest meanwhile. -/
def KeepsSubrequest (n : SendBufferSize) (c : SendSide) (a : SendSideAct) : Prop :=
  ∀ size o, a.size = some size → a.outcome = some o → c.closed = false → c.kind = .subr false →
    c.sendBuffer ≠ none → c.sendBufLen ≠ 0 → c.bufSize n - c.sendBufLen < size →
      size ≤ c.bufSize n → o.closes = none

end Model

section Space

variable {n : SendBufferSize} {c c' : SendSide} {o : SendOutcome} {size r : Int}

theorem InBounds.note {e : SendEvent} (h : InBounds n c) (he : e.Inside) :
    InBounds n (c.note e) := by
  refine ⟨?_, h.bounds⟩
  intro e' hmem
  rcases List.mem_append.mp hmem with hmem | hmem
  · exact h.log e' hmem
  · obtain rfl := List.mem_singleton.mp hmem
    exact he

/-- What a flush of an open connection comes to. -/
inductive Flushed (c : SendSide) (o : SendOutcome) : FlushRet → SendSide → Prop
  | failed : Flushed c o .error c.phlConnectionClose
  | freed (buffer : Option Int) (len : Int) (hkind : c.kind = .subr false)
    (hsome : c.sendBuffer ≠ none) (hne : c.sendBufLen ≠ 0)
    (hcloses : o.closes = some (buffer, len)) :
    Flushed c o .again { c with freed := true, sendBuffer := buffer, sendBufLen := len }
  | kept (ret : FlushRet) (len : Int) (hret : ret ≠ .error) (hlow : 0 ≤ len)
    (hhigh : len ≤ c.sendBufLen) (hok : ret = .ok → len = 0) :
    Flushed c o ret { c with sendBufLen := len }

theorem flush_flushed (hopen : c.closed = false) (hlow : 0 ≤ c.sendBufLen)
    (hhigh : c.sendBufLen ≤ c.sendBuffer.getD 0) (hwrite : o.writeLen ≤ c.sendBufLen) :
    Flushed c o (c.phlConnectionFlush o).1 (c.phlConnectionFlush o).2 := by
  unfold SendSide.phlConnectionFlush
  rw [if_neg (by rw [hopen]; decide)]
  split
  next hempty =>
    refine .kept .ok c.sendBufLen (by decide) hlow (Int.le_refl _) ?_
    intro _
    rcases hempty with hnone | hzero
    · rw [hnone] at hhigh
      exact Int.le_antisymm hhigh hlow
    · exact hzero
  next hfull =>
    obtain ⟨hsome, hne⟩ := not_or.mp hfull
    split
    next hkind =>
      exact .kept .ok 0 (by decide) (Int.le_refl 0) hlow fun _ => rfl
    next hkind =>
      split
      next hcloses =>
        exact .kept .again c.sendBufLen (by decide) hlow (Int.le_refl _) fun h => by cases h
      next buffer len hcloses => exact .freed buffer len hkind hsome hne hcloses
    next hkind =>
      split
      next => exact .failed
      next hnonneg =>
        dsimp only
        split
        next hmore =>
          exact .kept .again _ (by decide) (by omega) (by omega) fun h => by cases h
        next hdone =>
          exact .kept .ok _ (by decide) (by omega) (by omega) fun _ => by omega

/-- An open connection with `r` bytes left in its buffer. -/
structure Room (n : SendBufferSize) (c : SendSide) (r : Int) (c' : SendSide) : Prop where
  closed : c'.closed = false
  freed : c'.freed = false
  isHttp2 : c'.isHttp2 = c.isHttp2
  log : c'.log = c.log
  sendBuffer : c'.sendBuffer = some (c.bufSize n)
  low : 0 ≤ c'.sendBufLen
  sum : c'.sendBufLen + r = c.bufSize n
  pos : 0 ≤ r

/-- What `phl_connection_make_space` comes to on an open connection. -/
inductive Spaced (n : SendBufferSize) (c : SendSide) (size : Int) : Int → SendSide → Prop
  | refused (r : Int) (c' : SendSide) (hr : r < 0) (hc' : InBounds n c') : Spaced n c size r c'
  | given (r : Int) (c' : SendSide) (hroom : Room n c r c') (hsize : size ≤ r) :
    Spaced n c size r c'

theorem bufSize_lt (n : SendBufferSize) (c : SendSide) : c.bufSize n < 2 ^ 31 := by
  have hsmall := n.2.2
  unfold SendSide.bufSize toInt
  split
  next =>
    rw [Int.bmod_def]
    omega
  next => exact hsmall

theorem use_of_live (hlive : c.freed = false) : c.use = c := by
  unfold SendSide.use
  rw [hlive]
  rfl

theorem makeSpace_spaced (hopen : c.closed = false) (hlive : c.freed = false) (h : InBounds n c)
    (hwrite : o.writeLen ≤ c.sendBufLen)
    (hkeeps : c.kind = .subr false → c.sendBuffer ≠ none → c.sendBufLen ≠ 0 →
      c.bufSize n - c.sendBufLen < size → size ≤ c.bufSize n → o.closes = none) :
    Spaced n c size (c.phlConnectionMakeSpace n size o).1
      (c.phlConnectionMakeSpace n size o).2 := by
  have herror : phlError < 0 := by decide
  obtain ⟨hlow, hhigh, hbuffer⟩ := h.bounds hopen hlive
  unfold SendSide.phlConnectionMakeSpace
  rw [if_neg (by rw [hopen]; decide)]
  split
  next => exact .refused _ _ herror h
  next hfits =>
    split
    next hnone =>
      split
      next hmalloc =>
        exact .given _ _ ⟨hopen, hlive, rfl, rfl, rfl, Int.le_refl 0, Int.zero_add _, hmalloc.2⟩
          (Int.not_lt.mp hfits)
      next =>
        refine .refused _ _ herror ⟨h.log, fun _ _ => ⟨Int.le_refl 0, ?_, hbuffer⟩⟩
        dsimp only
        rw [hnone]
        exact Int.le_refl 0
    next m hsome =>
      obtain rfl := hbuffer m hsome
      have hbound := hhigh
      rw [hsome, Option.getD_some] at hbound
      dsimp only
      split
      next hroom =>
        exact .given _ _ ⟨hopen, hlive, rfl, rfl, hsome, hlow, by dsimp only; omega,
          Int.sub_nonneg.mpr hbound⟩ hroom
      next hfull =>
        have hflush := flush_flushed hopen hlow hhigh hwrite
        split
        next c' heq =>
          rw [heq] at hflush
          dsimp only at hflush ⊢
          refine .refused _ _ herror ?_
          cases hflush with
          | failed => exact ⟨h.log, fun hclosed => by cases hclosed⟩
          | kept ret len hret => exact absurd rfl hret
        next ret c' hne heq =>
          rw [heq] at hflush
          dsimp only at hflush ⊢
          cases hflush with
          | failed => exact (hne rfl).elim
          | freed buffer len hkind hsome' hlen hcloses =>
            have hnone := hkeeps hkind hsome' hlen (Int.not_le.mp hfull) (Int.not_lt.mp hfits)
            rw [hnone] at hcloses
            cases hcloses
          | kept ret len hret hlow' hhigh' =>
            rw [use_of_live (by exact hlive)]
            split
            next hroom =>
              have hleft : len ≤ c.bufSize n := Int.le_trans hhigh' hbound
              exact .given _ _ ⟨hopen, hlive, rfl, rfl, hsome, hlow',
                add_sub_cancel len (c.bufSize n), Int.sub_nonneg.mpr hleft⟩ hroom
            next =>
              exact .refused _ _ (by decide)
                ⟨h.log, fun _ _ => ⟨hlow', Int.le_trans hhigh' hhigh, hbuffer⟩⟩

/-- The father closes the subrequest in the flush: `phl_connection_make_space` goes on with a
connection that has been freed. -/
theorem makeSpace_stale {left : Option Int × Int} (hopen : c.closed = false)
    (hkind : c.kind = .subr false) (hsome : c.sendBuffer ≠ none) (hlen : c.sendBufLen ≠ 0)
    (hfull : c.bufSize n - c.sendBufLen < size) (hsize : size ≤ c.bufSize n)
    (hcloses : o.closes = some left) :
    .stale ∈ (c.phlConnectionMakeSpace n size o).2.log := by
  unfold SendSide.phlConnectionMakeSpace
  rw [if_neg (by rw [hopen]; decide), if_neg (Int.not_lt.mpr hsize)]
  split
  next hnone => exact absurd hnone hsome
  next =>
    have hflush : c.phlConnectionFlush o =
        (.again, { c with freed := true, sendBuffer := left.1, sendBufLen := left.2 }) := by
      unfold SendSide.phlConnectionFlush
      rw [if_neg (by rw [hopen]; decide), if_neg (not_or.mpr ⟨hsome, hlen⟩), hkind, hcloses]
    rw [hflush]
    dsimp only
    rw [if_neg (Int.not_le.mpr hfull)]
    exact List.mem_append_right _ (List.mem_singleton_self _)

end Space

section Write

variable {n : SendBufferSize} {c c' : SendSide} {o : SendOutcome} {size r : Int}

/-- An open connection whose buffer has `r` more bytes than are in use. -/
structure SpaceLeft (n : SendBufferSize) (r : Int) (c : SendSide) : Prop where
  inBounds : InBounds n c
  closed : c.closed = false
  freed : c.freed = false
  sendBuffer : c.sendBuffer = some (c.sendBufLen + r)

theorem SpaceLeft.low (h : SpaceLeft n r c) : 0 ≤ c.sendBufLen :=
  (h.inBounds.bounds h.closed h.freed).1

theorem SpaceLeft.memory (h : SpaceLeft n r c) : c.memory = some (c.sendBufLen + r) := by
  unfold SendSide.memory
  rw [if_neg (by rw [h.closed, h.freed]; decide), h.sendBuffer]

theorem SpaceLeft.store {pos : Int} {count : Nat} (h : SpaceLeft n r c) (hpos : 0 ≤ pos)
    (hend : pos + count ≤ c.sendBufLen + r) : SpaceLeft n r (c.store pos count) :=
  ⟨h.inBounds.note ⟨_, h.memory, hpos, hend⟩, h.closed, h.freed, h.sendBuffer⟩

theorem SpaceLeft.stores {ws : List (Nat × Nat)} (h : SpaceLeft n r c)
    (hws : ∀ w ∈ ws, (w.1 + w.2 : Int) ≤ c.sendBufLen + r) :
    SpaceLeft n r (c.stores ws) ∧ (c.stores ws).sendBufLen = c.sendBufLen := by
  unfold SendSide.stores
  induction ws generalizing c with
  | nil => exact ⟨h, rfl⟩
  | cons w ws ih =>
    have hstore := h.store (Int.natCast_nonneg w.1) (hws w List.mem_cons_self)
    exact ih hstore fun w' hmem => hws w' (List.mem_cons_of_mem _ hmem)

theorem SpaceLeft.advance {count : Nat} (h : SpaceLeft n r c) (hcount : (count : Int) ≤ r) :
    InBounds n { c with sendBufLen := c.sendBufLen + count } := by
  have hlow := h.low
  obtain ⟨-, -, hbuffer⟩ := h.inBounds.bounds h.closed h.freed
  refine ⟨h.inBounds.log, fun _ _ => ⟨?_, ?_, hbuffer⟩⟩
  · dsimp only
    omega
  · dsimp only
    rw [h.sendBuffer, Option.getD_some]
    omega

theorem SpaceLeft.append {count : Nat} (h : SpaceLeft n r c) (hcount : (count : Int) ≤ r) :
    InBounds n (c.append count) :=
  (h.store h.low (by omega)).advance hcount

/-- Where the payload goes and what is packed around it, when the payload is no longer than its
room. -/
theorem sendPack_inside {req : Request} {kept : Nat} {isLast : Bool} (hlow : 0 ≤ c.sendBufLen)
    (hr : r < 2 ^ 31) (hkept : (kept : Int) ≤ (c.packfix req r).2) :
    ((c.packfix req r).1 + kept : Int) ≤ c.sendBufLen + r ∧
    (∀ w ∈ (SendSide.pack req (c.packfix req r).1 kept isLast).2,
      (w.1 + w.2 : Int) ≤ c.sendBufLen + r) ∧
    ((SendSide.pack req (c.packfix req r).1 kept isLast).1 : Int) ≤ r := by
  have hlen : (c.sendBufLen.toNat : Int) = c.sendBufLen := Int.toNat_of_nonneg hlow
  unfold SendSide.packfix at hkept ⊢
  unfold SendSide.pack
  by_cases hhttp2 : req.isHttp2 = true
  · rw [if_pos hhttp2] at hkept ⊢
    rw [if_pos hhttp2]
    dsimp only at hkept ⊢
    refine ⟨by omega, fun w hmem => ?_, by omega⟩
    obtain rfl := List.mem_singleton.mp hmem
    dsimp only
    omega
  · rw [if_neg hhttp2] at hkept ⊢
    rw [if_neg hhttp2]
    by_cases hchunked : phlHttp1ResponseIsChunked req = true
    · rw [packfix_chunked hchunked] at hkept ⊢
      rw [pack_chunked hchunked]
      have hsize : (sizeField kept).length = 8 := sizeField_length (by omega)
      have htail := pieceTail_length kept isLast
      dsimp only at hkept ⊢
      refine ⟨by omega, fun w hmem => ?_, by omega⟩
      rcases List.mem_cons.mp hmem with rfl | hmem
      · dsimp only
        rw [List.length_append, hsize]
        simp only [List.length_cons, List.length_nil]
        omega
      rcases List.mem_cons.mp hmem with rfl | hmem
      · dsimp only
        simp only [List.length_cons, List.length_nil]
        omega
      obtain rfl := List.mem_singleton.mp hmem
      dsimp only
      omega
    · unfold phlHttp1ResponseBodyPackfix at hkept ⊢
      unfold phlHttp1ResponseBodyPack
      have hplain := Bool.eq_false_of_not_eq_true hchunked
      rw [if_pos hplain] at hkept ⊢
      rw [if_pos hplain]
      dsimp only at hkept ⊢
      exact ⟨by omega, fun w hmem => absurd hmem List.not_mem_nil, by omega⟩

theorem bodyRoom_le (req : Request) (b : PieceRound) (room : Int) :
    SendSide.bodyRoom req b room ≤ room := by
  unfold SendSide.bodyRoom
  split
  next h => exact Int.le_of_lt h.2
  next => exact Int.le_refl room

theorem SpaceLeft.body {req : Request} {b : PieceRound} (h : SpaceLeft n r c) (hr : r < 2 ^ 31)
    (hbody : c.phlRequestResponseBody req b r = some c') : InBounds n c' := by
  have hroom := bodyRoom_le req b (c.packfix req r).2
  unfold SendSide.phlRequestResponseBody at hbody
  split at hbody
  next =>
    cases hbody
    exact h.inBounds
  next =>
    dsimp only at hbody
    split at hbody
    next hoffer =>
      obtain ⟨hmade, hkept⟩ := hoffer
      obtain ⟨hplace, -, -⟩ := @sendPack_inside c r req b.made b.isLast h.low hr
        (Int.le_trans hmade hroom)
      have hsource := h.store (Int.natCast_nonneg (c.packfix req r).1) hplace
      split at hbody
      next =>
        cases hbody
        exact hsource.inBounds
      next kept hsome =>
        cases hbody
        obtain ⟨hplace, hstores, hlength⟩ := @sendPack_inside c r req kept b.isLast h.low hr
          (Int.le_trans (hkept kept hsome) hroom)
        have hfiltered := hsource.store (Int.natCast_nonneg (c.packfix req r).1) hplace
        exact (hfiltered.stores hstores).1.advance hlength
    next => cases hbody

/-- What may come after space has been given stays inside it. -/
theorem write_inBounds {a : SendSideAct} (h : SpaceLeft n r c) (hsize : a.size = some size)
    (hle : size ≤ r) (hr : r < 2 ^ 31) (hwrite : a.write r c = some c') : InBounds n c' := by
  have hlow := h.low
  cases a with
  | makeSpace =>
    cases hwrite
    exact h.inBounds
  | http1Headers size text o =>
    cases hsize
    simp only [SendSideAct.write] at hwrite
    split at hwrite
    next hfits =>
      cases hwrite
      exact (h.store h.low (by omega)).advance (by omega)
    next => cases hwrite
  | http2Headers size count o =>
    cases hsize
    simp only [SendSideAct.write] at hwrite
    split at hwrite
    next hfits =>
      cases hwrite
      exact h.append (Int.le_trans hfits.2 hle)
    next => cases hwrite
  | body req b o =>
    simp only [SendSideAct.write] at hwrite
    split at hwrite
    next => exact h.body hr hwrite
    next => cases hwrite
  | finish o =>
    cases hsize
    cases hwrite
    exact h.append hle
  | control len o =>
    cases hsize
    cases hwrite
    exact h.append hle
  | _ => cases hsize

theorem mem_stores {e : SendEvent} (ws : List (Nat × Nat)) (he : e ∈ c.log) :
    e ∈ (c.stores ws).log := by
  unfold SendSide.stores
  induction ws generalizing c with
  | nil => exact he
  | cons w ws ih => exact ih (List.mem_append_left _ he)

/-- Nothing is taken off the record. -/
theorem write_log {a : SendSideAct} {e : SendEvent} (hwrite : a.write r c = some c')
    (he : e ∈ c.log) : e ∈ c'.log := by
  have hstore (pos : Int) (count : Nat) : e ∈ (c.store pos count).log := List.mem_append_left _ he
  cases a with
  | http1Headers size text o =>
    simp only [SendSideAct.write] at hwrite
    split at hwrite
    next =>
      cases hwrite
      exact hstore _ _
    next => cases hwrite
  | http2Headers size count o =>
    simp only [SendSideAct.write] at hwrite
    split at hwrite
    next =>
      cases hwrite
      exact hstore _ _
    next => cases hwrite
  | body req b o =>
    simp only [SendSideAct.write] at hwrite
    unfold SendSide.phlRequestResponseBody at hwrite
    dsimp only at hwrite
    split at hwrite
    next =>
      split at hwrite
      next =>
        cases hwrite
        exact he
      next =>
        split at hwrite
        next =>
          split at hwrite
          next =>
            cases hwrite
            exact hstore _ _
          next =>
            cases hwrite
            exact mem_stores _ (List.mem_append_left _ (hstore _ _))
        next => cases hwrite
    next => cases hwrite
  | finish o =>
    cases hwrite
    exact hstore _ _
  | control len o =>
    cases hwrite
    exact hstore _ _
  | _ =>
    cases hwrite
    exact he

theorem reserve_ready (hlive : c.freed = false) (h : InBounds n c)
    (hwrite : o.writeLen ≤ c.sendBufLen)
    (hkeeps : c.closed = false → c.kind = .subr false → c.sendBuffer ≠ none → c.sendBufLen ≠ 0 →
      c.bufSize n - c.sendBufLen < size → size ≤ c.bufSize n → o.closes = none) :
    (c.reserve n size o).1 < 0 ∧ InBounds n (c.reserve n size o).2 ∨
      size ≤ (c.reserve n size o).1 ∧ (c.reserve n size o).1 < 2 ^ 31 ∧
        SpaceLeft n (c.reserve n size o).1 (c.reserve n size o).2 := by
  have hspaced : Spaced n c size (c.phlConnectionMakeSpace n size o).1
      (c.phlConnectionMakeSpace n size o).2 := by
    by_cases hclosed : c.closed = false
    · exact makeSpace_spaced hclosed hlive h hwrite (hkeeps hclosed)
    · unfold SendSide.phlConnectionMakeSpace
      rw [if_pos (by simpa using hclosed)]
      exact .refused _ _ (show phlError < 0 by decide) h
  have hlarge := bufSize_lt n c
  unfold SendSide.reserve
  dsimp only
  generalize (c.phlConnectionMakeSpace n size o).1 = r at *
  generalize (c.phlConnectionMakeSpace n size o).2 = c' at *
  cases hspaced with
  | refused hr hc' =>
    rw [if_neg (by omega)]
    exact .inl ⟨hr, hc'⟩
  | given hroom hsize =>
    have hlow := hroom.low
    have hsum := hroom.sum
    have hbounds : InBounds n c' := by
      refine ⟨by rw [hroom.log]; exact h.log, fun _ _ => ⟨hroom.low, ?_, ?_⟩⟩
      · rw [hroom.sendBuffer, Option.getD_some, ← hsum]
        have hpos := hroom.pos
        omega
      · intro m hm
        rw [hroom.sendBuffer] at hm
        unfold SendSide.bufSize at hm ⊢
        rw [hroom.isHttp2]
        exact (Option.some.inj hm).symm
    have hready : SpaceLeft n r c' :=
      ⟨hbounds, hroom.closed, hroom.freed, by rw [hsum, hroom.sendBuffer]⟩
    refine .inr ⟨hsize, by omega, ?_⟩
    split
    next =>
      exact ⟨hbounds.note ⟨hsize, hready.memory⟩, hroom.closed, hroom.freed, hready.sendBuffer⟩
    next => exact hready

end Write

section Steps

variable {n : SendBufferSize} {c c' : SendSide} {a : SendSideAct}

/-- A call that asks for space keeps the bounds exactly where its flush keeps the subrequest. -/
theorem space_iff {size : Int} {o : SendOutcome} (hsize : a.size = some size)
    (houtcome : a.outcome = some o) (hlive : c.freed = false) (h : InBounds n c)
    (hwrite : o.writeLen ≤ c.sendBufLen)
    (hstep : (if (c.reserve n size o).1 < 0 then some (c.reserve n size o).2
      else a.write (c.reserve n size o).1 (c.reserve n size o).2) = some c') :
    InBounds n c' ↔ KeepsSubrequest n c a := by
  constructor
  · intro hbounds size' o' hsize' houtcome' hopen hkind hsome hlen hfull hfits
    obtain rfl := Option.some.inj (hsize.symm.trans hsize')
    obtain rfl := Option.some.inj (houtcome.symm.trans houtcome')
    cases hcloses : o.closes with
    | none => rfl
    | some left =>
      have hstale := makeSpace_stale hopen hkind hsome hlen hfull hfits hcloses
      have hreserve : .stale ∈ (c.reserve n size o).2.log := by
        unfold SendSide.reserve
        dsimp only
        split
        next => exact List.mem_append_left _ hstale
        next => exact hstale
      have hrecord : .stale ∈ c'.log := by
        split at hstep
        next =>
          cases hstep
          exact hreserve
        next => exact write_log hstep hreserve
      exact (hbounds.log _ hrecord).elim
  · intro hkeeps
    have hready := reserve_ready hlive h hwrite (hkeeps size o hsize houtcome)
    rcases hready with ⟨hneg, hbounds⟩ | ⟨hle, hlt, hready⟩
    · rw [if_pos hneg] at hstep
      cases hstep
      exact hbounds
    · have hlow := hready.low
      split at hstep
      next =>
        cases hstep
        exact hready.inBounds
      next => exact write_inBounds hready hsize hle hlt hstep

theorem flushed_inBounds {ret : FlushRet} {o : SendOutcome} (h : InBounds n c)
    (hopen : c.closed = false) (hlive : c.freed = false) (hflush : Flushed c o ret c') :
    InBounds n c' := by
  obtain ⟨-, hhigh, hbuffer⟩ := h.bounds hopen hlive
  cases hflush with
  | failed => exact ⟨h.log, fun hclosed => by cases hclosed⟩
  | freed => exact ⟨h.log, fun _ hfreed => by cases hfreed⟩
  | kept ret len hret hlow hle => exact ⟨h.log, fun _ _ => ⟨hlow, Int.le_trans hle hhigh, hbuffer⟩⟩

theorem flush_inBounds {o : SendOutcome} (hlive : c.freed = false) (h : InBounds n c)
    (hwrite : o.writeLen ≤ c.sendBufLen) : InBounds n (c.phlConnectionFlush o).2 := by
  by_cases hopen : c.closed = false
  · obtain ⟨hlow, hhigh, -⟩ := h.bounds hopen hlive
    exact flushed_inBounds h hopen hlive (flush_flushed hopen hlow hhigh hwrite)
  · unfold SendSide.phlConnectionFlush
    rw [if_pos (by simpa using hopen)]
    exact h

/-- The buffer that is freed is empty. -/
theorem defer_inBounds {o : SendOutcome} (hlive : c.freed = false) (h : InBounds n c)
    (hwrite : o.writeLen ≤ c.sendBufLen) : InBounds n (c.phlConnectionDeferRoutine o) := by
  unfold SendSide.phlConnectionDeferRoutine
  split
  next => exact ⟨h.log, fun _ hfreed => by cases hfreed⟩
  next hopen =>
    have hopen : c.closed = false := by simpa using hopen
    obtain ⟨hlow, hhigh, -⟩ := h.bounds hopen hlive
    have hflush := flush_flushed hopen hlow hhigh hwrite
    split
    next c' heq =>
      rw [heq] at hflush
      dsimp only at hflush
      cases hflush with
      | kept ret len hret hlow hle hzero =>
        obtain rfl := hzero rfl
        exact ⟨h.log, fun _ _ => ⟨hlow, Int.le_refl 0, fun m hm => by cases hm⟩⟩
    next ret c' hne heq =>
      rw [heq] at hflush
      exact flushed_inBounds h hopen hlive hflush

theorem sendSideStep_iff (h : InBounds n c) (hstep : sendSideStep n c a = some c') :
    InBounds n c' ↔ KeepsSubrequest n c a := by
  unfold sendSideStep at hstep
  split at hstep
  next hallowed =>
    obtain ⟨hlive, hwrite⟩ := hallowed
    cases a with
    | makeSpace size o => exact space_iff rfl rfl hlive h (of_decide_eq_true hwrite) hstep
    | http1Headers size text o => exact space_iff rfl rfl hlive h (of_decide_eq_true hwrite) hstep
    | http2Headers size count o => exact space_iff rfl rfl hlive h (of_decide_eq_true hwrite) hstep
    | body req b o => exact space_iff rfl rfl hlive h (of_decide_eq_true hwrite) hstep
    | finish o => exact space_iff rfl rfl hlive h (of_decide_eq_true hwrite) hstep
    | control len o => exact space_iff rfl rfl hlive h (of_decide_eq_true hwrite) hstep
    | flush o =>
      refine iff_of_true ?_ fun size o hsize => by cases hsize
      dsimp only [SendSideAct.size, SendSideAct.outcome] at hstep
      split at hstep
      next =>
        cases hstep
        exact flush_inBounds hlive h (of_decide_eq_true hwrite)
      next => cases hstep
    | defer o =>
      refine iff_of_true ?_ fun size o hsize => by cases hsize
      cases hstep
      exact defer_inBounds hlive h (of_decide_eq_true hwrite)
    | close =>
      refine iff_of_true ?_ fun size o hsize => by cases hsize
      dsimp only [SendSideAct.size, SendSideAct.outcome] at hstep
      split at hstep
      next =>
        cases hstep
        exact ⟨h.log, fun hclosed => by cases hclosed⟩
      next => cases hstep
    | detach =>
      refine iff_of_true ?_ fun size o hsize => by cases hsize
      dsimp only [SendSideAct.size, SendSideAct.outcome] at hstep
      split at hstep
      next =>
        cases hstep
        exact ⟨h.log, h.bounds⟩
      next => cases hstep
    | subrClose =>
      refine iff_of_true ?_ fun size o hsize => by cases hsize
      dsimp only [SendSideAct.size, SendSideAct.outcome] at hstep
      split at hstep
      next => cases hstep
      next =>
        cases hstep
        exact ⟨h.log, fun _ hfreed => by cases hfreed⟩
  next => cases hstep

theorem start_inBounds (h : SendSideStart c) : InBounds n c := by
  obtain ⟨-, -, hnone, hzero, hlog, -⟩ := h
  refine ⟨by rw [hlog]; exact fun e he => absurd he List.not_mem_nil, fun _ _ => ⟨?_, ?_, ?_⟩⟩
  · rw [hzero]
  · rw [hzero, hnone]
    exact Int.le_refl 0
  · rw [hnone]
    exact fun m hm => by cases hm

/-- All that is done with a send buffer stays inside it, and its space is what has been promised,
all along a run, exactly where no flush in `phl_connection_make_space` frees the connection of a
subrequest. -/
theorem send_buffer_bounds {acts : List SendSideAct} (hstart : SendSideStart c)
    (hrun : runActs (sendSideStep n) acts c = some c') :
    ActsKeep (sendSideStep n) (InBounds n) acts c ↔
      ActsMeet (sendSideStep n) (KeepsSubrequest n) acts c := by
  refine actsKeep_iff_of_step (I := fun _ => True) ?_ trivial (start_inBounds hstart) hrun
  intro c a c' _ hbounds hstep
  exact ⟨trivial, sendSideStep_iff hbounds hstep⟩

end Steps

section Examples

/-- The connection of a subrequest that its father waits for. -/
def subrequestSide : SendSide := ⟨.subr false, false, false, false, none, 0, []⟩

def clientSide : SendSide := { subrequestSide with kind := .stream }

def smallBuffer : SendBufferSize := ⟨4096, by decide⟩

/-- A request as a subrequest makes it, whose response is not chunked. -/
def plainRequest : Request := { chunkedRequest with req := Req.init }

/-- Nothing fails outside, and the socket takes so many bytes. -/
def takes (writeLen : Int) : SendOutcome := ⟨writeLen, none, true⟩

/-- A piece of the body of `len` bytes, more of which is to come. -/
def wholePiece (len : Nat) : PieceRound := ⟨65535, len, some len, false⟩

/-- A response of a header and a chunk, of which the socket takes a part. -/
theorem send_buffer_bounds_client : ∃ c', runActs (sendSideStep ⟨8192, by decide⟩)
    [.http1Headers 120 80 (takes 0), .body chunkedRequest (wholePiece 5) (takes 0),
      .flush (takes 60), .defer (takes 37), .close] clientSide = some c' ∧
    (ActsKeep (sendSideStep ⟨8192, by decide⟩) (InBounds ⟨8192, by decide⟩)
        [.http1Headers 120 80 (takes 0), .body chunkedRequest (wholePiece 5) (takes 0),
          .flush (takes 60), .defer (takes 37), .close] clientSide ↔
      ActsMeet (sendSideStep ⟨8192, by decide⟩) (KeepsSubrequest ⟨8192, by decide⟩)
        [.http1Headers 120 80 (takes 0), .body chunkedRequest (wholePiece 5) (takes 0),
          .flush (takes 60), .defer (takes 37), .close] clientSide) := by
  have hrun : (runActs (sendSideStep ⟨8192, by decide⟩)
      [.http1Headers 120 80 (takes 0), .body chunkedRequest (wholePiece 5) (takes 0),
        .flush (takes 60), .defer (takes 37), .close] clientSide).isSome = true := by
    decide +kernel
  obtain ⟨c', hrun⟩ := Option.isSome_iff_exists.mp hrun
  exact ⟨c', hrun, send_buffer_bounds ⟨rfl, rfl, rfl, rfl, rfl, fun _ => rfl⟩ hrun⟩

/-- A subrequest has filled its buffer. The flush for its next piece runs the father, whose script
goes on, closes the subrequest and starts another one, whose connection is where the old one was:
4096 bytes are granted where no buffer is, and written to. -/
theorem send_buffer_freed : SendSideStart subrequestSide ∧
    ∃ c', runActs (sendSideStep smallBuffer) [.body plainRequest (wholePiece 4096) (takes 0),
        .body plainRequest (wholePiece 5) ⟨0, some (none, 0), true⟩] subrequestSide = some c' ∧
      c'.log = [.granted 4096 4096 0 (some 4096), .stored 0 4096 (some 4096),
        .stored 0 4096 (some 4096), .stale, .granted 4096 4096 0 none, .stored 0 5 none,
        .stored 0 5 none] ∧
      ¬InBounds smallBuffer c' := by
  refine ⟨⟨rfl, rfl, rfl, rfl, rfl, fun _ => rfl⟩, ?_⟩
  have hlog : (runActs (sendSideStep smallBuffer) [.body plainRequest (wholePiece 4096) (takes 0),
      .body plainRequest (wholePiece 5) ⟨0, some (none, 0), true⟩] subrequestSide).map (·.log) =
        some [.granted 4096 4096 0 (some 4096), .stored 0 4096 (some 4096),
          .stored 0 4096 (some 4096), .stale, .granted 4096 4096 0 none, .stored 0 5 none,
          .stored 0 5 none] := by
    decide +kernel
  obtain ⟨c', hrun, hlog⟩ := Option.map_eq_some_iff.mp hlog
  refine ⟨c', hrun, hlog, fun hbounds => ?_⟩
  have hstale : SendEvent.stale ∈ c'.log := by
    rw [hlog]
    decide
  exact hbounds.log _ hstale

end Examples

end Phorklift
