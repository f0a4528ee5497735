import Phorklift.BodyProducers
import Phorklift.ChunkedPack
import Phorklift.FileRead

/-! The body that passes through the gzip filter, over a compressor with the contract of zlib. -/

namespace Phorklift

def zOk : Int := 0
def zStreamEnd : Int := 1
def zBufError : Int := -5

/-- `Z_NO_FLUSH` and `Z_FINISH` -/
inductive ZFlush
  | noFlush
  | finish
  deriving DecidableEq

/-- What a call of `deflate` returns, writes at `next_out` and leaves. -/
structure Deflated (S : Type) where
  ret : Int
  out : Bytes
  availIn : Nat
  stream : S

/-- `phl_gzip_conf` as far as `deflateInit2` takes it. -/
structure GzipConf where
  level : Nat
  windowBits : Nat
  memLevel : Nat

/-- What the filter uses of zlib. `inflates` is what its users go by: whether a gzip stream
inflates to a body. -/
structure Zlib (S : Type) where
  /-- `deflateInit2(zs, level, Z_DEFLATED, windowBits, memLevel, Z_DEFAULT_STRATEGY)`; none is an
  error. -/
  deflateInit2 : Nat → Nat → Nat → Option S
  /-- the input, `avail_out` and the flush mode -/
  deflate : S → Bytes → Nat → ZFlush → Deflated S
  deflateBound : Nat → Nat
  inflates : Bytes → Bytes → Prop

namespace Zlib

variable {S : Type} (z : Zlib S)

def gzipInit (conf : GzipConf) : Option S :=
  z.deflateInit2 conf.level (conf.windowBits + 16) conf.memLevel

/-- A stream in the middle of a body, with what it has taken and what it has written. -/
inductive Open (s₀ : S) : S → Bytes → Bytes → Prop
  | init : Open s₀ s₀ [] []
  | call {s : S} {taken out : Bytes} (data : Bytes) (room : Nat) : Open s₀ s taken out →
      (z.deflate s data room .noFlush).ret = zOk →
      Open s₀ (z.deflate s data room .noFlush).stream
        (taken ++ data.take (data.length - (z.deflate s data room .noFlush).availIn))
        (out ++ (z.deflate s data room .noFlush).out)

/-- The documented behaviour. -/
structure Lawful : Prop where
  out_le : ∀ s data room flush, (z.deflate s data room flush).out.length ≤ room
  /-- `Z_NO_FLUSH` is `Z_OK` where there is progress to make, -/
  noFlush_ok : ∀ {conf s₀ s taken out}, z.gzipInit conf = some s₀ → z.Open s₀ s taken out →
    ∀ data room, data ≠ [] → z.deflateBound (taken.length + data.length) ≤ room →
    (z.deflate s data room .noFlush).ret = zOk
  /-- and never ends the stream. -/
  noFlush_ne : ∀ s data room, (z.deflate s data room .noFlush).ret ≠ zStreamEnd
  /-- A body of which all is given at once ends where the room is `deflateBound`. -/
  finish_end : ∀ {conf s₀}, z.gzipInit conf = some s₀ →
    ∀ data room, z.deflateBound data.length ≤ room →
    (z.deflate s₀ data room .finish).ret = zStreamEnd
  /-- The end of a stream comes when all has been taken and written. -/
  end_inflates : ∀ {conf s₀ s taken out}, z.gzipInit conf = some s₀ → z.Open s₀ s taken out →
    ∀ data room, (z.deflate s data room .finish).ret = zStreamEnd →
    (z.deflate s data room .finish).availIn = 0 ∧
      z.inflates (out ++ (z.deflate s data room .finish).out) (taken ++ data)

end Zlib

/-- The log line of a failed call. -/
structure GzipLog where
  ret : Int
  dataLen : Nat
  bufLen : Nat
  availIn : Nat
  availOut : Nat
  deriving DecidableEq

/-- The state is the ctx of the module, `zs`. -/
def phlGzipFilterResponseBody {S : Type} (z : Zlib S) : BodyFilter (Option S) GzipLog :=
  fun _ data bufLen isLast zs =>
    match zs with
    | none => ⟨.ok data, isLast, none, []⟩
    | some s =>
      let d := z.deflate s data bufLen (if isLast then .finish else .noFlush)
      let availOut := bufLen - d.out.length
      if d.ret ≠ zStreamEnd then
        ⟨.error ⟨phlError, phlError_neg⟩, isLast, some d.stream,
          [⟨d.ret, data.length, bufLen, d.availIn, availOut⟩]⟩
      else ⟨.ok d.out, isLast, some d.stream, []⟩

/-- The pieces of a body in order, each with the room for it, and the last one. -/
structure BodyPieces where
  front : List (Bytes × Nat)
  last : Bytes × Nat

namespace BodyPieces

def body (b : BodyPieces) : Bytes := (b.front.map Prod.fst).flatten ++ b.last.1

/-- The calls of the filter: data, `buf_len` and `is_last`. -/
def calls (b : BodyPieces) : List (Bytes × Nat × Bool) :=
  b.front.map (fun piece => (piece.1, piece.2, false)) ++ [(b.last.1, b.last.2, true)]

/-- Every buffer has room for the whole compressed body. -/
def Roomy {S : Type} (z : Zlib S) (b : BodyPieces) : Prop :=
  ∀ piece ∈ b.calls, z.deflateBound b.body.length ≤ piece.2.1

instance {S : Type} (z : Zlib S) (b : BodyPieces) : Decidable (b.Roomy z) :=
  inferInstanceAs (Decidable (∀ piece ∈ b.calls, z.deflateBound b.body.length ≤ piece.2.1))

end BodyPieces

/-- The outputs of the filters over the calls; the first error ends them. -/
def filteredBody {W V : Type} (modules : List (BodyFilter W V)) (r : Request) :
    List (Bytes × Nat × Bool) → W → Except Failure (List Bytes)
  | [], _ => .ok []
  | (data, bufLen, isLast) :: calls, e =>
    let piece := phlModuleFilterResponseBody r bufLen modules data isLast e []
    match piece.data with
    | .error n => .error n
    | .ok out => (filteredBody modules r calls piece.env).map (out :: ·)

/-- The filter returns no error on the body and its outputs inflate to it. -/
def GzipsBody {S : Type} (z : Zlib S) (r : Request) (s : S) (b : BodyPieces) : Prop :=
  ∃ outs, filteredBody [phlGzipFilterResponseBody z] r b.calls (some s) = .ok outs ∧
    z.inflates outs.flatten b.body

section Filter

variable {S : Type} {z : Zlib S} {s : S} {r : Request}

/-- The test for the end of the stream is also made where it cannot be there yet. -/
theorem gzip_refuses_piece (h : z.Lawful) (data : Bytes) (bufLen : Nat) :
    (phlGzipFilterResponseBody z r data bufLen false (some s)).data =
      .error ⟨phlError, phlError_neg⟩ := by
  have hret : (z.deflate s data bufLen .noFlush).ret ≠ zStreamEnd := h.noFlush_ne s data bufLen
  unfold phlGzipFilterResponseBody
  dsimp only
  rw [if_neg Bool.false_ne_true, if_pos hret]

theorem gzip_ends_body {conf : GzipConf} (h : z.Lawful) (hs : z.gzipInit conf = some s)
    (data : Bytes) (bufLen : Nat) (hroom : z.deflateBound data.length ≤ bufLen) :
    ∃ out, (phlGzipFilterResponseBody z r data bufLen true (some s)).data = .ok out ∧
      z.inflates out data := by
  have hret : (z.deflate s data bufLen .finish).ret = zStreamEnd := h.finish_end hs data bufLen hroom
  have hend := h.end_inflates hs .init data bufLen hret
  refine ⟨(z.deflate s data bufLen .finish).out, ?_, by simpa using hend.2⟩
  unfold phlGzipFilterResponseBody
  dsimp only
  rw [if_pos rfl, if_neg (Classical.not_not.mpr hret)]

/-- A body of one piece is compressed and one of several pieces fails at the first of them. -/
theorem gzip_body_iff {conf : GzipConf} (h : z.Lawful) (hs : z.gzipInit conf = some s)
    (r : Request) (b : BodyPieces) (hroom : b.Roomy z) : GzipsBody z r s b ↔ b.front = [] := by
  obtain ⟨front, last⟩ := b
  unfold GzipsBody
  cases front with
  | nil =>
    refine iff_of_true ?_ rfl
    have hlast : z.deflateBound last.1.length ≤ last.2 :=
      hroom (last.1, last.2, true) List.mem_cons_self
    obtain ⟨out, hout, hinflates⟩ := gzip_ends_body (r := r) h hs last.1 last.2 hlast
    refine ⟨[out], ?_, by simpa [BodyPieces.body] using hinflates⟩
    simp [BodyPieces.calls, filteredBody, phlModuleFilterResponseBody, hout, Except.map]
  | cons piece front =>
    refine iff_of_false ?_ (List.cons_ne_nil piece front)
    rintro ⟨outs, hok, -⟩
    have hfail := gzip_refuses_piece (s := s) (r := r) h piece.1 piece.2
    simp [BodyPieces.calls, filteredBody, phlModuleFilterResponseBody, hfail] at hok

end Filter

/-! ### A compressor that meets the contract -/

def crcBit (c : UInt32) : UInt32 :=
  if c % 2 = 1 then (c >>> 1) ^^^ 0xedb88320 else c >>> 1

/-- The check value at the end of a gzip stream. -/
def crc32 (s : Bytes) : UInt32 :=
  (s.foldl (fun c b => crcBit^[8] (c ^^^ b.toUInt32)) 0xffffffff) ^^^ 0xffffffff

example : crc32 (bytes "a") = 0xe8b7be43 := by decide

def littleEndian (n width : Nat) : Bytes :=
  (List.range width).map fun i => UInt8.ofNat (n / 256 ^ i)

/-- Blocks without compression, of 65535 bytes each but the last. -/
def storedBlocks : Nat → Bytes → Bytes
  | 0, s => 1 :: (littleEndian s.length 2 ++ littleEndian (65535 - s.length) 2 ++ s)
  | n + 1, s =>
    0 :: (littleEndian 65535 2 ++ littleEndian 0 2 ++ s.take 65535) ++ storedBlocks n (s.drop 65535)

theorem storedBlocks_length (n : Nat) (s : Bytes) (hs : 65535 * n ≤ s.length) :
    (storedBlocks n s).length = s.length + 5 * (n + 1) := by
  induction n generalizing s with
  | zero =>
    simp only [storedBlocks, littleEndian, List.length_append, List.length_cons, List.length_map,
      List.length_range]
    omega
  | succ n ih =>
    have hrest := ih (s.drop 65535) (by simp only [List.length_drop]; omega)
    simp only [storedBlocks, littleEndian, List.length_append, List.length_cons, List.length_map,
      List.length_range, List.length_take, List.length_drop] at hrest ⊢
    omega

def gzipHeader : Bytes := [0x1f, 0x8b, 8, 0, 0, 0, 0, 0, 4, 3]

/-- What follows the header: one literal is compressed and everything else is stored. -/
def gzipRest (s : Bytes) : Bytes :=
  (if s = bytes "a" then [0x4b, 4, 0] else storedBlocks (s.length / 65535) s) ++
    littleEndian (crc32 s).toNat 4 ++ littleEndian s.length 4

def gzipBound (n : Nat) : Nat := n + (n + 7) / 8 + (n + 63) / 64 + 5 + 18

theorem gzipRest_length (s : Bytes) : (gzipRest s).length + 10 ≤ gzipBound s.length := by
  unfold gzipRest gzipBound
  split
  next ha => subst ha; decide
  next =>
    have hblocks := storedBlocks_length (s.length / 65535) s (Nat.mul_div_le s.length 65535)
    simp only [littleEndian, List.length_append, hblocks, List.length_map, List.length_range]
    omega

example : gzipHeader ++ gzipRest (bytes "a") =
    [0x1f, 0x8b, 8, 0, 0, 0, 0, 0, 4, 3, 0x4b, 4, 0, 0x43, 0xbe, 0xb7, 0xe8, 1, 0, 0, 0] := by
  decide

/-- What a stream has taken, and whether the header is written. -/
structure GzipStream where
  taken : Bytes
  begun : Bool

def GzipStream.header (s : GzipStream) : Bytes := if s.begun then [] else gzipHeader

/-- It takes all of its input or, where there is no room, nothing. -/
def gzipDeflate (s : GzipStream) (data : Bytes) (room : Nat) : ZFlush → Deflated GzipStream
  | .noFlush =>
    if room < s.header.length ∨ data = [] ∧ s.header = [] then ⟨zBufError, [], data.length, s⟩
    else ⟨zOk, s.header, 0, ⟨s.taken ++ data, true⟩⟩
  | .finish =>
    let out := s.header ++ gzipRest (s.taken ++ data)
    if room < out.length then ⟨zBufError, [], data.length, s⟩
    else ⟨zStreamEnd, out, 0, ⟨s.taken ++ data, true⟩⟩

def gzipZlib : Zlib GzipStream where
  deflateInit2 level windowBits memLevel :=
    if level ≤ 9 ∧ 24 < windowBits ∧ windowBits ≤ 31 ∧ 1 ≤ memLevel ∧ memLevel ≤ 9 then
      some ⟨[], false⟩ else none
  deflate := gzipDeflate
  deflateBound := gzipBound
  inflates out body := out = gzipHeader ++ gzipRest body

theorem gzipZlib_init {conf : GzipConf} {s : GzipStream} (h : gzipZlib.gzipInit conf = some s) :
    s = ⟨[], false⟩ := by
  unfold Zlib.gzipInit gzipZlib at h
  dsimp only at h
  split at h
  · exact (Option.some.inj h).symm
  · cases h

/-- An open stream holds what it has taken, and the header is what it has written. -/
theorem gzipZlib_open {s : GzipStream} {taken out : Bytes}
    (h : gzipZlib.Open ⟨[], false⟩ s taken out) : s.taken = taken ∧ out ++ s.header = gzipHeader := by
  induction h with
  | init => exact ⟨rfl, rfl⟩
  | @call s taken out data room _ hret ih =>
    obtain ⟨htaken, hout⟩ := ih
    change (gzipDeflate s data room .noFlush).ret = zOk at hret
    change (gzipDeflate s data room .noFlush).stream.taken =
        taken ++ data.take (data.length - (gzipDeflate s data room .noFlush).availIn) ∧
      out ++ (gzipDeflate s data room .noFlush).out ++
        (gzipDeflate s data room .noFlush).stream.header = gzipHeader
    unfold gzipDeflate at hret ⊢
    dsimp only at hret ⊢
    split at hret
    next => exact absurd hret (show zBufError ≠ zOk by decide)
    next hroom =>
      rw [if_neg hroom]
      dsimp only
      refine ⟨by rw [htaken, Nat.sub_zero, List.take_length], ?_⟩
      rw [hout]
      exact List.append_nil _

theorem gzipZlib_lawful : gzipZlib.Lawful where
  out_le s data room flush := by
    change (gzipDeflate s data room flush).out.length ≤ room
    cases flush with
    | noFlush =>
      unfold gzipDeflate
      dsimp only
      split
      next => exact Nat.zero_le room
      next hroom =>
        have hle : ¬ room < s.header.length := fun hlt => hroom (.inl hlt)
        exact Nat.le_of_not_lt hle
    | finish =>
      unfold gzipDeflate
      dsimp only
      split
      next => exact Nat.zero_le room
      next hroom => exact Nat.le_of_not_lt hroom
  noFlush_ok {conf s₀ s taken out} hinit hopen data room hdata hroom := by
    change (gzipDeflate s data room .noFlush).ret = zOk
    have hheader : s.header.length ≤ 10 := by
      unfold GzipStream.header
      split
      · exact Nat.zero_le 10
      · exact Nat.le_refl 10
    have hbound : 10 ≤ room := by
      have hle : gzipBound (taken.length + data.length) ≤ room := hroom
      unfold gzipBound at hle
      omega
    have hroom : ¬ (room < s.header.length ∨ data = [] ∧ s.header = []) := by
      rintro (hlt | hnil)
      · omega
      · exact hdata hnil.1
    unfold gzipDeflate
    dsimp only
    rw [if_neg hroom]
  noFlush_ne s data room := by
    change (gzipDeflate s data room .noFlush).ret ≠ zStreamEnd
    unfold gzipDeflate
    dsimp only
    split
    · exact show zBufError ≠ zStreamEnd by decide
    · exact show zOk ≠ zStreamEnd by decide
  finish_end {conf s₀} hinit data room hroom := by
    obtain rfl := gzipZlib_init hinit
    change (gzipDeflate ⟨[], false⟩ data room .finish).ret = zStreamEnd
    have hlen := gzipRest_length data
    have hle : gzipBound data.length ≤ room := hroom
    have hroom : ¬ room < ((GzipStream.mk [] false).header ++ gzipRest ([] ++ data)).length := by
      rw [List.nil_append, List.length_append]
      have hheader : (GzipStream.mk [] false).header.length = 10 := rfl
      omega
    unfold gzipDeflate
    dsimp only
    rw [if_neg hroom]
  end_inflates {conf s₀ s taken out} hinit hopen data room hret := by
    obtain rfl := gzipZlib_init hinit
    obtain ⟨htaken, hout⟩ := gzipZlib_open hopen
    change (gzipDeflate s data room .finish).ret = zStreamEnd at hret
    change (gzipDeflate s data room .finish).availIn = 0 ∧
      out ++ (gzipDeflate s data room .finish).out = gzipHeader ++ gzipRest (taken ++ data)
    unfold gzipDeflate at hret ⊢
    dsimp only at hret ⊢
    split at hret
    next => exact absurd hret (show zBufError ≠ zStreamEnd by decide)
    next hroom =>
      rw [if_neg hroom]
      dsimp only
      refine ⟨rfl, ?_⟩
      rw [← List.append_assoc, hout, htaken]

theorem gzip_body_iff_one :
    GzipsBody gzipZlib chunkedRequest ⟨[], false⟩ ⟨[], (bytes "a", 64)⟩ ↔
      (BodyPieces.mk [] (bytes "a", 64)).front = [] := by
  have hs : gzipZlib.gzipInit ⟨1, 15, 8⟩ = some ⟨[], false⟩ := rfl
  exact gzip_body_iff gzipZlib_lawful hs chunkedRequest _ (by decide)

/-- A body whose length is not announced ends in an empty piece, and the one before it fails. -/
theorem gzip_body_fails :
    ∃ b : BodyPieces, b.body = bytes "a" ∧ b.Roomy gzipZlib ∧
      filteredBody [phlGzipFilterResponseBody gzipZlib] chunkedRequest b.calls
        (some ⟨[], false⟩) = .error ⟨phlError, phlError_neg⟩ ∧
      ¬ GzipsBody gzipZlib chunkedRequest ⟨[], false⟩ b := by
  have hfails : filteredBody [phlGzipFilterResponseBody gzipZlib] chunkedRequest
      (BodyPieces.calls ⟨[(bytes "a", 64)], (bytes "", 64)⟩) (some ⟨[], false⟩) =
        .error ⟨phlError, phlError_neg⟩ := by
    rfl
  refine ⟨⟨[(bytes "a", 64)], (bytes "", 64)⟩, by decide, by decide, hfails, ?_⟩
  rintro ⟨outs, hok, -⟩
  rw [hfails] at hok
  cases hok

end Phorklift
