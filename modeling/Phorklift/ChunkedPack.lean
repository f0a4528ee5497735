import Phorklift.ChunkedBody
import Phorklift.RequestSteps
import Phorklift.Transition

/-! The chunks that an HTTP/1 response writes into the send buffer. -/

namespace Phorklift

open Transition

/-- Bytes stored from an offset of the send buffer on. -/
structure Store where
  pos : Nat
  data : Bytes
  deriving DecidableEq

def Store.apply (mem : Bytes) (w : Store) : Bytes :=
  mem.take w.pos ++ w.data ++ mem.drop (w.pos + w.data.length)

/-- `%-8x` -/
def sizeField (n : Nat) : Bytes :=
  Http.hexadecimal n ++ List.replicate (8 - (Http.hexadecimal n).length) 32

/-- The position and the length that are left for the payload. -/
def phlHttp1ResponseBodyPackfix (r : Request) (bufPos : Nat) (bufLen : Int) : Nat × Int :=
  if phlHttp1ResponseIsChunked r = false then (bufPos, bufLen) else (bufPos + 10, bufLen - 17)

/-- The length of the packed piece and what is written for it, in order. -/
def phlHttp1ResponseBodyPack (r : Request) (payload length : Nat) (isLast : Bool) :
    Nat × List Store :=
  if phlHttp1ResponseIsChunked r = false then (length, [])
  else
    -- the NUL that ends what `sprintf` prints is then replaced by LF
    let prefixed : List Store := [⟨payload - 10, sizeField length ++ [13, 0]⟩, ⟨payload - 1, [10]⟩]
    if length ≠ 0 ∧ isLast = true then
      (length + 17, prefixed ++ [⟨payload + length, crlf ++ [48] ++ crlf ++ crlf⟩])
    else (length + 12, prefixed ++ [⟨payload + length, crlf⟩])

/-- The send buffer while a response body is sent: `mem` is the memory from its start on, `wire`
what the socket has taken, and `stores` what the packing wrote, each with the space that the
request had for it. -/
structure PackBuffer where
  mem : Bytes
  len : Nat
  wire : Bytes
  stores : List (Store × Nat × Nat)

inductive PackAct
  /-- the socket takes some bytes -/
  | flush (writeLen : Nat)
  /-- an empty buffer is freed and another one allocated -/
  | renew (mem : Bytes)
  /-- the filters leave `room` where the payload goes and return `length` -/
  | piece (room : Bytes) (length : Nat) (isLast : Bool)

namespace PackBuffer

/-- All the bytes appended so far. -/
def stream (b : PackBuffer) : Bytes := b.wire ++ b.mem.take b.len

/-- The end of a round of `phl_request_response_body`, with `available` bytes from
`phl_connection_make_space`. -/
def pack (r : Request) (available : Nat) (room : Bytes) (length : Nat) (isLast : Bool)
    (b : PackBuffer) : PackBuffer :=
  let payload := (phlHttp1ResponseBodyPackfix r b.len available).1
  let packed := phlHttp1ResponseBodyPack r payload length isLast
  { b with
    mem := packed.2.foldl Store.apply (Store.apply b.mem ⟨payload, room⟩)
    len := b.len + packed.1
    stores := b.stores ++ packed.2.map fun w => (w, b.len, b.len + available) }

def step (r : Request) (bufSize : Nat) (b : PackBuffer) : PackAct → Option PackBuffer
  | .flush writeLen =>
    if writeLen ≤ b.len then some { b with
      mem := Store.apply b.mem ⟨0, (b.mem.take b.len).drop writeLen⟩
      len := b.len - writeLen
      wire := b.wire ++ b.mem.take writeLen }
    else none
  | .renew mem => if b.len = 0 ∧ bufSize ≤ mem.length then some { b with mem := mem } else none
  | .piece room length isLast =>
    let available := bufSize - b.len
    let bufLen := (phlHttp1ResponseBodyPackfix r b.len available).2
    if 4096 ≤ available ∧ (room.length : Int) = bufLen ∧ length ≤ room.length then
      some (b.pack r available room length isLast)
    else none

/-- A buffer of `send_buffer_size`, an `int`, before any piece. -/
structure Allocated (bufSize : Nat) (b : PackBuffer) : Prop where
  small : bufSize < 2 ^ 31
  len : b.len ≤ bufSize
  mem : bufSize ≤ b.mem.length

end PackBuffer

/-- The pieces that are packed, with `is_last`. -/
def PackAct.piece? : PackAct → Option (Bytes × Bool)
  | .piece room length isLast => some (room.take length, isLast)
  | _ => none

/-- The bytes of one piece. -/
def packedPiece (p : Bytes × Bool) : Bytes :=
  if p.2 then Http.lastChunk sizeField p.1 else Http.chunk sizeField p.1

/-- A store inside the space that the request had for it. -/
def StoredInside (w : Store × Nat × Nat) : Prop :=
  w.2.1 ≤ w.1.pos ∧ w.1.pos + w.1.data.length ≤ w.2.2

section Stores

variable {u v old data : Bytes}

/-- A store replaces as many bytes as it has. -/
theorem store_append (h : old.length = data.length) :
    Store.apply (u ++ (old ++ v)) ⟨u.length, data⟩ = u ++ (data ++ v) := by
  have hdrop : (u ++ (old ++ v)).drop (u.length + data.length) = v := by
    rw [← h, ← List.length_append, ← List.append_assoc, List.drop_left]
  unfold Store.apply
  dsimp only
  rw [List.take_left, hdrop, List.append_assoc]

theorem sizeLine_sizeField : Http.SizeLine sizeField := by
  intro n
  have hblank : ∀ c ∈ List.replicate (8 - (Http.hexadecimal n).length) (32 : UInt8), c = 32 :=
    fun c hc => List.eq_of_mem_replicate hc
  refine ⟨fun h => ?_, Http.chunkSize_hexadecimal n hblank⟩
  rcases List.mem_append.mp h with h | h
  · have hhex := Http.hexValue_of_mem_hexadecimal h
    cases hhex
  · have h32 := hblank 13 h
    cases h32

/-- The size of a piece that fits an `int` has eight columns. -/
theorem sizeField_length {n : Nat} (h : n < 2 ^ 31) : (sizeField n).length = 8 := by
  have hdigits := Http.hexadecimal_length (n := n) (k := 8) (by omega) (by omega)
  unfold sizeField
  rw [List.length_append, List.length_replicate]
  omega

end Stores

section Pack

variable {r : Request} {bufSize available length : Nat} {room : Bytes} {isLast : Bool}
  {b : PackBuffer}

theorem packfix_chunked (hc : phlHttp1ResponseIsChunked r = true) (bufPos : Nat) (bufLen : Int) :
    phlHttp1ResponseBodyPackfix r bufPos bufLen = (bufPos + 10, bufLen - 17) := by
  unfold phlHttp1ResponseBodyPackfix
  rw [if_neg (by simp [hc])]

/-- The room of an HTTP/1 response is what `phl_http1_response_body_packfix` leaves. -/
theorem responseBodyRoom_http1 {W V : Type} (env : Env W V) (bufLen : Nat) (w : World W V)
    (h : w.r.isHttp2 = false) :
    responseBodyRoom env bufLen w = (phlHttp1ResponseBodyPackfix w.r 0 bufLen).2.toNat := by
  unfold responseBodyRoom phlHttp1ResponseBodyPackfix
  rw [if_neg (by simp [h])]
  cases phlHttp1ResponseIsChunked w.r with
  | true =>
    show bufLen - 17 = ((bufLen : Int) - 17).toNat
    omega
  | false => rfl

/-- What follows the payload of a piece. -/
def pieceTail (length : Nat) (isLast : Bool) : Bytes :=
  if length ≠ 0 ∧ isLast = true then crlf ++ [48] ++ crlf ++ crlf else crlf

theorem pieceTail_length (length : Nat) (isLast : Bool) : (pieceTail length isLast).length ≤ 7 := by
  unfold pieceTail
  split <;> decide

theorem pack_chunked (hc : phlHttp1ResponseIsChunked r = true) (payload : Nat) :
    phlHttp1ResponseBodyPack r payload length isLast =
      (length + 10 + (pieceTail length isLast).length,
        [⟨payload - 10, sizeField length ++ [13, 0]⟩, ⟨payload - 1, [10]⟩,
          ⟨payload + length, pieceTail length isLast⟩]) := by
  unfold phlHttp1ResponseBodyPack pieceTail
  rw [if_neg (by simp [hc])]
  dsimp only
  split <;> rfl

theorem packedPiece_eq (h : length ≤ room.length) : packedPiece (room.take length, isLast) =
    sizeField length ++ [13, 10] ++ (room.take length ++ pieceTail length isLast) := by
  have hlen : (room.take length).length = length := by
    rw [List.length_take]
    omega
  have hnil : room.take length = [] ↔ length = 0 := by
    rw [← List.length_eq_zero_iff, hlen]
  unfold packedPiece pieceTail Http.lastChunk Http.chunk
  rw [hlen]
  cases isLast with
  | false => simp [Http.crlf, crlf]
  | true =>
    by_cases h0 : length = 0
    · simp [h0, Http.crlf, crlf]
    · simp [h0, hnil, Http.crlf, crlf]

/-- What the buffer holds after a piece: the bytes before it, the piece, and as many bytes more as
there were. -/
theorem pack_mem (hc : phlHttp1ResponseIsChunked r = true) (isLast : Bool) (hsmall : room.length < 2 ^ 31)
    (hmem : b.len + available ≤ b.mem.length) (hroom : room.length + 17 = available)
    (hle : length ≤ room.length) : ∃ rest, (b.pack r available room length isLast).mem =
        b.mem.take b.len ++ (packedPiece (room.take length, isLast) ++ rest) ∧
      (packedPiece (room.take length, isLast) ++ rest).length = (b.mem.drop b.len).length := by
  obtain ⟨before, hbefore⟩ : ∃ before, b.mem.take b.len = before := ⟨_, rfl⟩
  obtain ⟨front, hfront⟩ : ∃ front, (b.mem.drop b.len).take 10 = front := ⟨_, rfl⟩
  obtain ⟨old, hold⟩ : ∃ old, ((b.mem.drop b.len).drop 10).take room.length = old := ⟨_, rfl⟩
  obtain ⟨after, hafter⟩ : ∃ after, ((b.mem.drop b.len).drop 10).drop room.length = after :=
    ⟨_, rfl⟩
  have hbeforeLen : before.length = b.len := by
    rw [← hbefore, List.length_take]
    omega
  have hfrontLen : front.length = 10 := by
    rw [← hfront, List.length_take, List.length_drop]
    omega
  have holdLen : old.length = room.length := by
    rw [← hold, List.length_take, List.length_drop, List.length_drop]
    omega
  have hafterLen : 7 ≤ after.length := by
    rw [← hafter, List.length_drop, List.length_drop, List.length_drop]
    omega
  have hdropEq : b.mem.drop b.len = front ++ (old ++ after) := by
    rw [← hfront, ← hold, ← hafter, List.take_append_drop, List.take_append_drop]
  have hmemEq : b.mem = before ++ (front ++ (old ++ after)) := by
    rw [← hdropEq, ← hbefore, List.take_append_drop]
  have hfield : (sizeField length).length = 8 := sizeField_length (by omega)
  have htail := pieceTail_length length isLast
  have hfilled : Store.apply b.mem ⟨b.len + 10, room⟩ = before ++ (front ++ (room ++ after)) := by
    have h := store_append (u := before ++ front) (v := after) holdLen
    rw [List.length_append, hbeforeLen, hfrontLen] at h
    simpa [hmemEq] using h
  have hsize : Store.apply (before ++ (front ++ (room ++ after)))
      ⟨b.len + 10 - 10, sizeField length ++ [13, 0]⟩ =
        before ++ (sizeField length ++ [13, 0] ++ (room ++ after)) := by
    have hdata : front.length = (sizeField length ++ [13, 0]).length := by
      rw [List.length_append, hfield, hfrontLen]
      rfl
    have h := store_append (u := before) (v := room ++ after) hdata
    rwa [hbeforeLen] at h
  have hlf : Store.apply (before ++ (sizeField length ++ [13, 0] ++ (room ++ after)))
      ⟨b.len + 10 - 1, [10]⟩ = before ++ (sizeField length ++ [13, 10] ++ (room ++ after)) := by
    have hone : [(0 : UInt8)].length = [(10 : UInt8)].length := rfl
    have h := store_append (u := before ++ (sizeField length ++ [13])) (v := room ++ after) hone
    have hpos : (before ++ (sizeField length ++ [13])).length = b.len + 10 - 1 := by
      rw [List.length_append, List.length_append, hbeforeLen, hfield]
      rfl
    rw [hpos] at h
    simpa using h
  -- the tail replaces as many bytes after the payload
  have hends : Store.apply (before ++ (sizeField length ++ [13, 10] ++ (room ++ after)))
      ⟨b.len + 10 + length, pieceTail length isLast⟩ =
        before ++ (sizeField length ++ [13, 10] ++ (room.take length ++ (pieceTail length isLast ++
          (room.drop length ++ after).drop (pieceTail length isLast).length))) := by
    have hdata : ((room.drop length ++ after).take (pieceTail length isLast).length).length =
        (pieceTail length isLast).length := by
      rw [List.length_take, List.length_append]
      omega
    have h := store_append (u := before ++ (sizeField length ++ [13, 10] ++ room.take length))
      (v := (room.drop length ++ after).drop (pieceTail length isLast).length) hdata
    have hpos : (before ++ (sizeField length ++ [13, 10] ++ room.take length)).length =
        b.len + 10 + length := by
      simp only [List.length_append, List.length_take, hbeforeLen, hfield, List.length_cons,
        List.length_nil]
      omega
    have hsplit : room ++ after = room.take length ++ (room.drop length ++ after) := by
      rw [← List.append_assoc, List.take_append_drop]
    rw [hpos, List.take_append_drop] at h
    rw [hsplit]
    simpa using h
  have hpacked : (b.pack r available room length isLast).mem =
      b.mem.take b.len ++ (packedPiece (room.take length, isLast) ++
        (room.drop length ++ after).drop (pieceTail length isLast).length) := by
    unfold PackBuffer.pack
    dsimp only
    rw [packfix_chunked hc, pack_chunked hc, packedPiece_eq hle, hbefore]
    simp only [List.foldl_cons, List.foldl_nil]
    rw [hfilled, hsize, hlf, hends]
    simp only [List.append_assoc]
  refine ⟨_, hpacked, ?_⟩
  rw [packedPiece_eq hle, hdropEq]
  simp only [List.length_append, List.length_take, List.length_drop, List.length_cons,
    List.length_nil, hfield, hfrontLen, holdLen]
  omega

theorem packedPiece_length (h : length ≤ room.length) (hsmall : room.length < 2 ^ 31) :
    (packedPiece (room.take length, isLast)).length =
      length + 10 + (pieceTail length isLast).length := by
  have hfield : (sizeField length).length = 8 := sizeField_length (by omega)
  rw [packedPiece_eq h]
  simp only [List.length_append, List.length_take, List.length_cons, List.length_nil, hfield]
  omega

theorem pack_stream (hc : phlHttp1ResponseIsChunked r = true) (hsmall : room.length < 2 ^ 31)
    (hmem : b.len + available ≤ b.mem.length) (hroom : room.length + 17 = available)
    (hle : length ≤ room.length) : (b.pack r available room length isLast).stream =
      b.stream ++ packedPiece (room.take length, isLast) := by
  obtain ⟨rest, hpacked, -⟩ := pack_mem hc isLast hsmall hmem hroom hle
  have hlen : (b.pack r available room length isLast).len =
      b.len + (packedPiece (room.take length, isLast)).length := by
    rw [packedPiece_length hle hsmall]
    unfold PackBuffer.pack
    dsimp only
    rw [pack_chunked hc]
  have hbefore : (b.mem.take b.len).length = b.len := by
    rw [List.length_take]
    omega
  have htake : (b.pack r available room length isLast).mem.take
      (b.pack r available room length isLast).len =
        b.mem.take b.len ++ packedPiece (room.take length, isLast) := by
    rw [hlen, hpacked, ← List.append_assoc]
    apply List.take_left'
    rw [List.length_append, hbefore]
  unfold PackBuffer.stream
  rw [htake, ← List.append_assoc]
  rfl

theorem pack_inside (hc : phlHttp1ResponseIsChunked r = true) (hsmall : room.length < 2 ^ 31)
    (hroom : room.length + 17 = available) (hle : length ≤ room.length)
    (hb : ∀ w ∈ b.stores, StoredInside w) :
    ∀ w ∈ (b.pack r available room length isLast).stores, StoredInside w := by
  have hfield : (sizeField length).length = 8 := sizeField_length (by omega)
  have htail := pieceTail_length length isLast
  intro w hw
  unfold PackBuffer.pack at hw
  dsimp only at hw
  rw [packfix_chunked hc, pack_chunked hc] at hw
  rcases List.mem_append.mp hw with hw | hw
  · exact hb w hw
  · simp only [List.map_cons, List.map_nil, List.mem_cons, List.not_mem_nil, or_false] at hw
    rcases hw with rfl | rfl | rfl
    · simp only [StoredInside, List.length_append, hfield, List.length_cons, List.length_nil]
      omega
    · simp only [StoredInside, List.length_cons, List.length_nil]
      omega
    · simp only [StoredInside]
      omega

end Pack

section Run

variable {r : Request} {bufSize : Nat} {b b' : PackBuffer} {acts : List PackAct} {act : PackAct}

theorem flush_stream {writeLen : Nat} (hle : writeLen ≤ b.len) (hmem : b.len ≤ b.mem.length) :
    b.mem.take writeLen ++ (Store.apply b.mem ⟨0, (b.mem.take b.len).drop writeLen⟩).take
      (b.len - writeLen) = b.mem.take b.len := by
  have hlen : ((b.mem.take b.len).drop writeLen).length = b.len - writeLen := by
    rw [List.length_drop, List.length_take]
    omega
  have hmoved : (Store.apply b.mem ⟨0, (b.mem.take b.len).drop writeLen⟩).take (b.len - writeLen) =
      (b.mem.take b.len).drop writeLen := by
    unfold Store.apply
    rw [List.take_zero, List.nil_append]
    exact List.take_left' hlen
  have htake : b.mem.take writeLen = (b.mem.take b.len).take writeLen := by
    rw [List.take_take, Nat.min_eq_left hle]
  rw [hmoved, htake, List.take_append_drop]

/-- A step appends the bytes of its piece, inside the space that it has. -/
theorem packStep_keeps (hc : phlHttp1ResponseIsChunked r = true) (hb : b.Allocated bufSize)
    (hinside : ∀ w ∈ b.stores, StoredInside w) (h : b.step r bufSize act = some b') :
    b'.Allocated bufSize ∧ (∀ w ∈ b'.stores, StoredInside w) ∧
      b'.stream = b.stream ++ (act.piece?.map packedPiece).getD [] := by
  have hlen := hb.len
  have hmem := hb.mem
  have hsmall := hb.small
  cases act with
  | flush writeLen =>
    obtain ⟨hle, h⟩ := Option.ite_none_right_eq_some.mp h
    cases h
    refine ⟨⟨hsmall, ?_, ?_⟩, hinside, ?_⟩
    · dsimp only
      omega
    · simp only [Store.apply, List.length_append, List.length_take, List.length_drop]
      omega
    · have hstream := flush_stream hle (by omega)
      unfold PackBuffer.stream
      dsimp only
      rw [List.append_assoc, hstream]
      simp [PackAct.piece?]
  | renew mem =>
    obtain ⟨⟨hzero, hnew⟩, h⟩ := Option.ite_none_right_eq_some.mp h
    cases h
    refine ⟨⟨hsmall, hlen, hnew⟩, hinside, ?_⟩
    unfold PackBuffer.stream
    simp [hzero, PackAct.piece?]
  | piece room length isLast =>
    obtain ⟨⟨hspace, hroom, hle⟩, h⟩ := Option.ite_none_right_eq_some.mp h
    rw [packfix_chunked hc] at hroom
    have hroomLen : room.length + 17 = bufSize - b.len := by omega
    have hroomSmall : room.length < 2 ^ 31 := by omega
    have hspaceMem : b.len + (bufSize - b.len) ≤ b.mem.length := by omega
    have htail := pieceTail_length length isLast
    obtain ⟨rest, hpacked, hpackedLen⟩ :=
      pack_mem hc isLast hroomSmall hspaceMem hroomLen hle
    cases h
    refine ⟨⟨hsmall, ?_, ?_⟩, pack_inside hc hroomSmall hroomLen hle hinside,
      pack_stream hc hroomSmall hspaceMem hroomLen hle⟩
    · unfold PackBuffer.pack
      dsimp only
      rw [pack_chunked hc]
      dsimp only
      omega
    · rw [hpacked, List.length_append, hpackedLen, List.length_take, List.length_drop]
      omega

theorem packRun_keeps (hc : phlHttp1ResponseIsChunked r = true) (hb : b.Allocated bufSize)
    (hinside : ∀ w ∈ b.stores, StoredInside w)
    (h : runActs (PackBuffer.step r bufSize) acts b = some b') :
    (∀ w ∈ b'.stores, StoredInside w) ∧
      b'.stream = b.stream ++ (acts.filterMap PackAct.piece?).flatMap packedPiece := by
  induction acts generalizing b with
  | nil =>
    cases h
    exact ⟨hinside, (List.append_nil _).symm⟩
  | cons act acts ih =>
    obtain ⟨c, hstep, hrest⟩ := Option.bind_eq_some_iff.mp h
    obtain ⟨hc', hin, hstream⟩ := packStep_keeps hc hb hinside hstep
    obtain ⟨hin', hstream'⟩ := ih hc' hin hrest
    refine ⟨hin', ?_⟩
    rw [hstream', hstream, List.append_assoc]
    cases hp : act.piece? with
    | none => simp [hp]
    | some p => simp [hp]

/-- What is sent between two states is the chunked coding of `body`, to its end. -/
structure SentChunked (b b' : PackBuffer) (body : Bytes) : Prop where
  decoded : ∃ sent, b'.stream = b.stream ++ sent ∧ Http.dechunk sent = some (body, [])
  inside : ∀ w ∈ b'.stores, StoredInside w

/-- The pieces are read back exactly when none but the last one is empty: an empty piece is the
chunk that ends the body. -/
theorem responseBodyPack_chunked_iff {pieces : List Bytes} {last : Bytes}
    (hc : phlHttp1ResponseIsChunked r = true) (hb : b.Allocated bufSize) (hnew : b.stores = [])
    (hrun : runActs (PackBuffer.step r bufSize) acts b = some b')
    (hpieces : acts.filterMap PackAct.piece? =
      pieces.map (fun data => (data, false)) ++ [(last, true)]) :
    SentChunked b b' (pieces.flatten ++ last) ↔ ∀ data ∈ pieces, data ≠ [] := by
  have hinside : ∀ w ∈ b.stores, StoredInside w := by simp [hnew]
  obtain ⟨hin, hstream⟩ := packRun_keeps hc hb hinside hrun
  have hbytes : (acts.filterMap PackAct.piece?).flatMap packedPiece =
      pieces.flatMap (Http.chunk sizeField) ++ Http.lastChunk sizeField last := by
    rw [hpieces, List.flatMap_append, List.flatMap_map]
    simp [packedPiece]
  rw [hbytes] at hstream
  constructor
  · rintro ⟨⟨sent, hsent, hdecoded⟩, -⟩
    rw [hstream] at hsent
    have heq := List.append_cancel_left hsent
    rw [← heq] at hdecoded
    exact (Http.dechunk_iff sizeLine_sizeField).mp hdecoded
  · intro hne
    exact ⟨⟨_, hstream, (Http.dechunk_iff sizeLine_sizeField).mpr hne⟩, hin⟩

/-- A request of HTTP/1.1 whose response has no length. -/
def chunkedRequest : Request where
  req := { Req.init with version := 1 }
  resp := Resp.init
  state := .responseBody
  closed := false
  isBroken := false
  redirects := 0
  filterIndexs := fun _ => 0
  namedPath := none
  father := .none
  isHttp2 := false
  confHost := none
  confPath := none

/-- A new buffer of 4113 bytes. -/
def newBuffer : PackBuffer := ⟨List.replicate 4113 0, 0, [], []⟩

/-- A piece that leaves the rest of the room as it was. -/
def packText (data : Bytes) (isLast : Bool) : PackAct :=
  .piece (data ++ List.replicate (4096 - data.length) 0) data.length isLast

theorem newBuffer_allocated : newBuffer.Allocated 4113 := by
  refine ⟨by decide, by decide, ?_⟩
  show 4113 ≤ (List.replicate 4113 (0 : UInt8)).length
  rw [List.length_replicate]

theorem responseBodyPack_chunked_iff_hi :
    ∃ b, runActs (PackBuffer.step chunkedRequest 4113)
        [packText [104, 105] false, .flush 14, packText [] true] newBuffer = some b ∧
      (SentChunked newBuffer b (([[104, 105]] : List Bytes).flatten ++ []) ↔
        ∀ data ∈ ([[104, 105]] : List Bytes), data ≠ []) := by
  have hruns : (runActs (PackBuffer.step chunkedRequest 4113)
      [packText [104, 105] false, .flush 14, packText [] true] newBuffer).isSome = true := by
    decide +kernel
  obtain ⟨b, hrun⟩ := Option.isSome_iff_exists.mp hruns
  exact ⟨b, hrun, responseBodyPack_chunked_iff rfl newBuffer_allocated rfl hrun rfl⟩

/-- A filter that holds back its first piece ends the body before the second one. -/
theorem empty_piece_ends_body :
    ∃ b, runActs (PackBuffer.step chunkedRequest 4113)
        [packText [] false, .flush 12, packText [104, 105] true] newBuffer = some b ∧
      ¬SentChunked newBuffer b [104, 105] := by
  have hruns : (runActs (PackBuffer.step chunkedRequest 4113)
      [packText [] false, .flush 12, packText [104, 105] true] newBuffer).isSome = true := by
    decide +kernel
  obtain ⟨b, hrun⟩ := Option.isSome_iff_exists.mp hruns
  obtain ⟨-, hstream⟩ := packRun_keeps rfl newBuffer_allocated nofun hrun
  refine ⟨b, hrun, ?_⟩
  rintro ⟨⟨sent, hsent, hdecoded⟩, -⟩
  rw [hsent] at hstream
  have hbytes : sent = [([], false), ([104, 105], true)].flatMap packedPiece :=
    List.append_cancel_left hstream
  rw [hbytes] at hdecoded
  revert hdecoded
  decide

end Run

end Phorklift
