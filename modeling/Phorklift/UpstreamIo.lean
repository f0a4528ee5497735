import Phorklift.UpstreamPool
import Mathlib.Data.List.DropRight

/-! The bytes of an upstream connection across calls that send and receive a part of them. -/

namespace Phorklift

open Transition

inductive WriteRet
  | ok
  | again
  | error
  deriving DecidableEq

structure UpstreamOutput where
  prewriteLen : Nat
  /-- what the socket has taken -/
  sent : Bytes
  deriving DecidableEq

namespace UpstreamOutput

/-- What is left of the request. -/
def rest (o : UpstreamOutput) (data : Bytes) : Bytes :=
  if 0 < o.prewriteLen then data.drop o.prewriteLen else data

/-- `none` where the stream would take more bytes than it is given. -/
def phlUpstreamConnectionWrite (o : UpstreamOutput) (data : Bytes) :
    StreamIo → Option (UpstreamOutput × WriteRet)
  | .blocked => some (o, .again)
  | .fails => some (o, .error)
  | .bytes n =>
    let data := o.rest data
    if n ≤ data.length then
      if n ≠ data.length then some (⟨n, o.sent ++ data.take n⟩, .again)
      else some (⟨0, o.sent ++ data⟩, .ok)
    else none

/-- Calls with the same buffer, the last of which returns `PHL_OK`. -/
def callsUntilOk (data : Bytes) : List StreamIo → UpstreamOutput → Option UpstreamOutput
  | [], _ => none
  | io :: ios, o =>
    match o.phlUpstreamConnectionWrite data io with
    | some (o, .again) => callsUntilOk data ios o
    | some (o, .ok) => if ios.isEmpty then some o else none
    | _ => none

end UpstreamOutput

/-- What each write of the stream takes. -/
def StreamIo.taken : List StreamIo → List Nat :=
  List.filterMap fun
    | .bytes n => some n
    | _ => none

/-- No short write but the last takes anything. The last write of all is the one that completes. -/
def ShortOnce (ios : List StreamIo) : Prop :=
  ∀ n ∈ (StreamIo.taken ios).dropLast.dropLast, n = 0

namespace UpstreamInput

/-- `loop_stream_read` behind what the call has drained from the preread buffer. -/
def readSocket (i : UpstreamInput) (drained : List UpstreamByte) (bufLen : Nat) :
    StreamIo → Option (List UpstreamByte) × UpstreamInput
  | .fails => (none, i)
  | .blocked => (some drained, i)
  | .bytes k =>
    (some (drained ++ i.unread.take (min k bufLen)),
      { i with unread := i.unread.drop (min k bufLen) })

/-- `none` for `PHL_ERROR`, and no bytes for `PHL_AGAIN`. -/
def phlUpstreamConnectionRead (i : UpstreamInput) (bufLen : Nat) (io : StreamIo) :
    Option (List UpstreamByte) × UpstreamInput :=
  match i.preread with
  | none => i.readSocket [] bufLen io
  | some pre =>
    if bufLen < pre.length then
      (some (pre.take bufLen), { i with preread := some (pre.drop bufLen) })
    else
      let i := { i with preread := none }
      if bufLen = pre.length then (some pre, i)
      else i.readSocket pre (bufLen - pre.length) io

end UpstreamInput

/-- A reader of a connection, with what it has made of the bytes. -/
structure UpstreamReader where
  input : UpstreamInput
  /-- what was read before, less what was pushed back -/
  consumed : List UpstreamByte
  /-- what the last read has returned, a suffix of which may be pushed back -/
  last : List UpstreamByte
  /-- what had been delivered at each `PHL_ERROR`, and what was still to be received -/
  errors : List (List UpstreamByte × List UpstreamByte)
  /-- the assertion in `phl_upstream_connection_read_notfinish` has failed -/
  aborted : Bool

inductive ReaderAct
  | read (bufLen : Nat) (io : StreamIo)
  /-- the last `n` bytes of the last read are pushed back -/
  | notfinish (n : Nat)

def UpstreamReader.start (stream : List UpstreamByte) : UpstreamReader :=
  ⟨⟨none, stream⟩, [], [], [], false⟩

def readerStep (w : UpstreamReader) : ReaderAct → Option UpstreamReader
  | .read bufLen io =>
    if w.aborted ∨ bufLen = 0 then none
    else
      let got := w.input.phlUpstreamConnectionRead bufLen io
      let w := { w with input := got.2, consumed := w.consumed ++ w.last }
      match got.1 with
      | some last => some { w with last := last }
      | none => some { w with last := [], errors := w.errors ++ [(w.consumed, w.input.unread)] }
  | .notfinish n =>
    if w.aborted ∨ w.last.length < n then none
    else
      let finished := w.last.length - n
      match w.input.readNotfinish (w.last.drop finished) with
      | none => some { w with aborted := true }
      | some input =>
        some { w with input := input, consumed := w.consumed ++ w.last.take finished, last := [] }

/-- Each byte of the stream is consumed, pushed back or still to come, in this order, and all that
came before an error had been delivered. -/
structure InOrder (stream : List UpstreamByte) (w : UpstreamReader) : Prop where
  alive : w.aborted = false
  order : w.consumed ++ w.last ++ w.input.all = stream
  errors : ∀ e ∈ w.errors, e.1 ++ e.2 = stream

/-- The socket does not fail in a call that has drained the preread buffer, and nothing is pushed
back while there is still something in it. -/
def ReadsApart (w : UpstreamReader) : ReaderAct → Prop
  | .read bufLen .fails => ∀ pre, w.input.preread = some pre → bufLen ≤ pre.length
  | .read _ _ => True
  | .notfinish n => n = 0 ∨ w.input.preread = none

section Write

variable {data : Bytes} {o o' : UpstreamOutput} {io : StreamIo} {ios : List StreamIo} {n : Nat}

open UpstreamOutput

theorem UpstreamOutput.rest_eq (o : UpstreamOutput) (data : Bytes) :
    o.rest data = data.drop o.prewriteLen := by
  unfold rest
  split
  next => rfl
  next h =>
    have hzero : o.prewriteLen = 0 := by omega
    rw [hzero, List.drop_zero]

/-- The lengths are those of the write of the pool. -/
theorem UpstreamOutput.write_lengths {conn : UpstreamConnection} {r : Nat}
    (h : conn.prewriteLen = o.prewriteLen) :
    (o.phlUpstreamConnectionWrite data (.bytes n)).map (fun x => (x.1.prewriteLen, x.2 = .ok)) =
      (Phorklift.phlUpstreamConnectionWrite conn r data.length n).map
        fun x => (x.1.prewriteLen, x.2 = true) := by
  unfold UpstreamOutput.phlUpstreamConnectionWrite Phorklift.phlUpstreamConnectionWrite
  simp only [rest_eq, List.length_drop, h]
  by_cases hle : n ≤ data.length - o.prewriteLen
  · by_cases hlt : n = data.length - o.prewriteLen
    · simp [hlt]
    · simp [hle, hlt]
  · simp [hle]

/-- What a call can do in calls that end in `PHL_OK`. -/
theorem callsUntilOk_cases (h : callsUntilOk data (io :: ios) o = some o') :
    (io = .blocked ∧ callsUntilOk data ios o = some o') ∨
    (∃ n, io = .bytes n ∧ n < (data.drop o.prewriteLen).length ∧
      callsUntilOk data ios ⟨n, o.sent ++ (data.drop o.prewriteLen).take n⟩ = some o') ∨
    ∃ n, io = .bytes n ∧ ios = [] ∧ o' = ⟨0, o.sent ++ data.drop o.prewriteLen⟩ := by
  unfold callsUntilOk at h
  cases io with
  | blocked => exact .inl ⟨rfl, h⟩
  | fails => cases h
  | bytes n =>
    unfold UpstreamOutput.phlUpstreamConnectionWrite at h
    simp only [rest_eq] at h
    by_cases hle : n ≤ (data.drop o.prewriteLen).length
    · rw [if_pos hle] at h
      by_cases hne : n ≠ (data.drop o.prewriteLen).length
      · rw [if_pos hne] at h
        exact .inr (.inl ⟨n, rfl, by omega, h⟩)
      · rw [if_neg hne] at h
        obtain ⟨hend, h⟩ := Option.ite_none_right_eq_some.mp h
        exact .inr (.inr ⟨n, rfl, List.isEmpty_iff.mp hend, (Option.some.inj h).symm⟩)
    · rw [if_neg hle] at h
      cases h

theorem callsUntilOk_taken (h : callsUntilOk data ios o = some o') :
    StreamIo.taken ios ≠ [] := by
  induction ios generalizing o with
  | nil => cases h
  | cons io ios ih =>
    rcases callsUntilOk_cases h with ⟨rfl, h⟩ | ⟨n, rfl, -, -⟩ | ⟨n, rfl, -, -⟩
    · exact ih h
    · exact List.cons_ne_nil _ _
    · exact List.cons_ne_nil _ _

theorem dropLast_dropLast_cons {l : List Nat} (h : 2 ≤ l.length) :
    (n :: l).dropLast.dropLast = n :: l.dropLast.dropLast := by
  have hne : l ≠ [] := List.length_pos_iff.mp (by omega)
  have hinit : l.dropLast ≠ [] := List.length_pos_iff.mp (by rw [List.length_dropLast]; omega)
  rw [List.dropLast_cons_of_ne_nil hne, List.dropLast_cons_of_ne_nil hinit]

theorem taken_bytes (n : Nat) (ios : List StreamIo) :
    StreamIo.taken (.bytes n :: ios) = n :: StreamIo.taken ios := rfl

/-- The one write is that of the rest. -/
theorem callsUntilOk_one (h : callsUntilOk data ios o = some o')
    (hone : (StreamIo.taken ios).length = 1) : o'.sent = o.sent ++ data.drop o.prewriteLen := by
  induction ios generalizing o with
  | nil => cases h
  | cons io ios ih =>
    rcases callsUntilOk_cases h with ⟨rfl, h⟩ | ⟨n, rfl, -, h⟩ | ⟨n, -, -, rfl⟩
    · exact ih h hone
    · rw [taken_bytes, List.length_cons, Nat.succ_inj] at hone
      exact absurd (List.length_eq_zero_iff.mp hone) (callsUntilOk_taken h)
    · rfl

/-- Where there are short writes, as many bytes are handed to the socket as the request has, and
those on top of it that a short write has taken before another one. -/
theorem callsUntilOk_length (h : callsUntilOk data ios o = some o')
    (hshort : 2 ≤ (StreamIo.taken ios).length) :
    o.sent.length + data.length ≤ o'.sent.length ∧
      ∀ n ∈ (StreamIo.taken ios).dropLast.dropLast,
        o.sent.length + data.length + n ≤ o'.sent.length := by
  induction ios generalizing o with
  | nil => cases h
  | cons io ios ih =>
    rcases callsUntilOk_cases h with ⟨rfl, h⟩ | ⟨n, rfl, hn, h⟩ | ⟨n, rfl, rfl, -⟩
    · exact ih h hshort
    · have htaken : (o.sent ++ (data.drop o.prewriteLen).take n).length = o.sent.length + n := by
        rw [List.length_append, List.length_take, Nat.min_eq_left (Nat.le_of_lt hn)]
      rw [List.length_drop] at hn
      rw [taken_bytes]
      by_cases hone : (StreamIo.taken ios).length = 1
      · have hsent := congrArg List.length (callsUntilOk_one h hone)
        rw [List.length_append, htaken, List.length_drop] at hsent
        dsimp only at hsent
        obtain ⟨m, hm⟩ := List.length_eq_one_iff.mp hone
        refine ⟨by omega, fun k hk => ?_⟩
        rw [hm] at hk
        cases hk
      · rw [taken_bytes, List.length_cons] at hshort
        obtain ⟨hle, hmore⟩ := ih h (by omega)
        rw [htaken] at hle hmore
        refine ⟨by omega, fun k hk => ?_⟩
        rw [dropLast_dropLast_cons (by omega)] at hk
        rcases List.mem_cons.mp hk with rfl | hk
        · omega
        · have hkmore := hmore k hk
          omega
    · simp [StreamIo.taken] at hshort

/-- Short writes that take nothing leave the offset at the beginning. -/
theorem callsUntilOk_shortOnce (h : callsUntilOk data ios o = some o') (hone : ShortOnce ios)
    (hpre : o.prewriteLen = 0) : o'.sent = o.sent ++ data := by
  induction ios generalizing o with
  | nil => cases h
  | cons io ios ih =>
    rcases callsUntilOk_cases h with ⟨rfl, h⟩ | ⟨n, rfl, hn, h⟩ | ⟨n, -, -, rfl⟩
    · exact ih h hone hpre
    · by_cases hlast : (StreamIo.taken ios).length = 1
      · rw [callsUntilOk_one h hlast, hpre, List.drop_zero, List.append_assoc,
          List.take_append_drop]
      · have hpos := List.length_pos_iff.mpr (callsUntilOk_taken h)
        unfold ShortOnce at hone
        rw [taken_bytes, dropLast_dropLast_cons (by omega)] at hone
        have hzero : n = 0 := hone n List.mem_cons_self
        have hsent := ih h (fun m hm => hone m (List.mem_cons_of_mem n hm)) hzero
        rw [hsent, hzero, List.take_zero, List.append_nil]
    · rw [hpre, List.drop_zero]

/-- The calls hand over the buffer, no more and no less, exactly where only the last short write
takes something. -/
theorem callsUntilOk_sent_iff (h : callsUntilOk data ios ⟨0, []⟩ = some o') :
    o'.sent = data ↔ ShortOnce ios := by
  constructor
  · intro hsent
    by_cases hshort : 2 ≤ (StreamIo.taken ios).length
    · intro n hn
      have hle := (callsUntilOk_length h hshort).2 n hn
      rw [hsent, List.length_nil] at hle
      omega
    · intro n hn
      have hpos := List.length_pos_of_mem hn
      rw [List.length_dropLast, List.length_dropLast] at hpos
      omega
  · intro hone
    exact callsUntilOk_shortOnce h hone rfl

/-- Two blocked attempts and two short writes. -/
theorem callsUntilOk_sent_short :
    (⟨0, bytes "GET /"⟩ : UpstreamOutput).sent = bytes "GET /" ↔
      ShortOnce [.blocked, .bytes 0, .bytes 3, .blocked, .bytes 2] :=
  callsUntilOk_sent_iff (by decide)

/-- The second short write begins behind the first, and the next write begins behind the second
alone. -/
theorem callsUntilOk_twice :
    ∃ o, callsUntilOk (bytes "GET /") [.bytes 2, .bytes 1, .bytes 4] ⟨0, []⟩ = some o ∧
      o.sent = bytes "GETET /" ∧ o.sent ≠ bytes "GET /" :=
  ⟨⟨0, bytes "GETET /"⟩, by decide, rfl, by decide⟩

end Write

section Read

variable {i : UpstreamInput} {bufLen : Nat} {io : StreamIo} {stream : List UpstreamByte}
  {w t : UpstreamReader} {act : ReaderAct}

theorem UpstreamInput.readSocket_spec (i : UpstreamInput) (drained : List UpstreamByte)
    (bufLen : Nat) (io : StreamIo) :
    (∃ got, (i.readSocket drained bufLen io).1 = some got ∧
      got ++ (i.readSocket drained bufLen io).2.unread = drained ++ i.unread ∧
      (i.readSocket drained bufLen io).2.preread = i.preread ∧ io ≠ .fails) ∨
    ((i.readSocket drained bufLen io).1 = none ∧ io = .fails ∧
      (i.readSocket drained bufLen io).2 = i) := by
  unfold readSocket
  cases io with
  | fails => exact .inr ⟨rfl, rfl, rfl⟩
  | blocked => exact .inl ⟨drained, rfl, rfl, rfl, nofun⟩
  | bytes k =>
    refine .inl ⟨_, rfl, ?_, rfl, nofun⟩
    rw [List.append_assoc, List.take_append_drop]

/-- Without a failure it is the read of the pool. -/
theorem UpstreamInput.phlUpstreamConnectionRead_bytes (bufLen k : Nat) :
    i.phlUpstreamConnectionRead bufLen (.bytes k) =
      (some (i.read bufLen k).1, (i.read bufLen k).2) := by
  unfold phlUpstreamConnectionRead read
  obtain ⟨preread, unread⟩ := i
  cases preread with
  | none => simp [readSocket]
  | some pre =>
    by_cases hlt : bufLen < pre.length
    · simp [hlt]
    · by_cases heq : bufLen = pre.length
      · simp [heq]
      · simp [hlt, heq, readSocket]

/-- A read that does not fail returns the next bytes, and one that fails has drained the preread
buffer. -/
theorem UpstreamInput.phlUpstreamConnectionRead_spec (i : UpstreamInput) (bufLen : Nat)
    (io : StreamIo) :
    (∃ got, (i.phlUpstreamConnectionRead bufLen io).1 = some got ∧
      got ++ (i.phlUpstreamConnectionRead bufLen io).2.all = i.all ∧
      (i.phlUpstreamConnectionRead bufLen io).2.preread ≠ some [] ∧
      (io = .fails → ∀ pre, i.preread = some pre → bufLen ≤ pre.length)) ∨
    ((i.phlUpstreamConnectionRead bufLen io).1 = none ∧ io = .fails ∧
      (i.phlUpstreamConnectionRead bufLen io).2 = ⟨none, i.unread⟩ ∧
      ∀ pre, i.preread = some pre → pre.length < bufLen) := by
  obtain ⟨preread, unread⟩ := i
  unfold phlUpstreamConnectionRead
  cases preread with
  | none =>
    dsimp only
    rcases readSocket_spec ⟨none, unread⟩ [] bufLen io with
      ⟨got, hret, hgot, hpre, hio⟩ | ⟨hret, hio, hinput⟩
    · refine .inl ⟨got, hret, ?_, by rw [hpre]; nofun, fun h => absurd h hio⟩
      unfold all
      rw [hpre]
      exact hgot
    · exact .inr ⟨hret, hio, hinput, nofun⟩
  | some pre =>
    dsimp only
    by_cases hlt : bufLen < pre.length
    · rw [if_pos hlt]
      refine .inl ⟨_, rfl, ?_, fun h => ?_, fun _ pre' h => ?_⟩
      · unfold all
        rw [Option.getD_some, Option.getD_some, ← List.append_assoc, List.take_append_drop]
      · have hlen := congrArg List.length (Option.some.inj h)
        rw [List.length_drop, List.length_nil] at hlen
        omega
      · rw [← Option.some.inj h]
        omega
    · rw [if_neg hlt]
      by_cases heq : bufLen = pre.length
      · rw [if_pos heq]
        refine .inl ⟨pre, rfl, rfl, nofun, fun _ pre' h => ?_⟩
        rw [← Option.some.inj h, heq]
      · rw [if_neg heq]
        rcases readSocket_spec ⟨none, unread⟩ pre (bufLen - pre.length) io with
          ⟨got, hret, hgot, hpre, hio⟩ | ⟨hret, hio, hinput⟩
        · refine .inl ⟨got, hret, ?_, by rw [hpre]; nofun, fun h => absurd h hio⟩
          unfold all
          rw [hpre]
          exact hgot
        · refine .inr ⟨hret, hio, hinput, fun pre' h => ?_⟩
          rw [← Option.some.inj h]
          omega

/-- No byte is there twice, and there is no empty preread buffer. -/
structure NothingTwice (stream : List UpstreamByte) (w : UpstreamReader) : Prop where
  preread : w.input.preread ≠ some []
  length : w.consumed.length + w.last.length + w.input.all.length ≤ stream.length

theorem readerStep_read (h : readerStep w (.read bufLen io) = some t) :
    t.aborted = w.aborted ∧ t.consumed = w.consumed ++ w.last ∧
      t.input = (w.input.phlUpstreamConnectionRead bufLen io).2 ∧
      ((w.input.phlUpstreamConnectionRead bufLen io).1 = some t.last ∧ t.errors = w.errors ∨
        (w.input.phlUpstreamConnectionRead bufLen io).1 = none ∧ t.last = [] ∧
          t.errors = w.errors ++ [(w.consumed ++ w.last, t.input.unread)]) := by
  unfold readerStep at h
  obtain ⟨_, h⟩ := Option.ite_none_left_eq_some.mp h
  dsimp only at h
  cases hret : (w.input.phlUpstreamConnectionRead bufLen io).1 with
  | none =>
    rw [hret] at h
    cases h
    exact ⟨rfl, rfl, rfl, .inr ⟨rfl, rfl, rfl⟩⟩
  | some got =>
    rw [hret] at h
    cases h
    exact ⟨rfl, rfl, rfl, .inl ⟨rfl, rfl⟩⟩

theorem readerStep_returns {got : List UpstreamByte} (hinv : NothingTwice stream w)
    (h : readerStep w (.read bufLen io) = some t)
    (hgot : (w.input.phlUpstreamConnectionRead bufLen io).1 = some got)
    (hall : got ++ (w.input.phlUpstreamConnectionRead bufLen io).2.all = w.input.all)
    (hpre : (w.input.phlUpstreamConnectionRead bufLen io).2.preread ≠ some []) :
    NothingTwice stream t ∧ (InOrder stream t ↔ InOrder stream w) := by
  obtain ⟨haborted, hconsumed, hinput, hret⟩ := readerStep_read h
  obtain ⟨hlast, herrors⟩ : t.last = got ∧ t.errors = w.errors := by
    rcases hret with ⟨hlast, herrors⟩ | ⟨hnone, -, -⟩
    · exact ⟨Option.some.inj (hlast.symm.trans hgot), herrors⟩
    · rw [hgot] at hnone
      cases hnone
  have hbytes : t.consumed ++ t.last ++ t.input.all = w.consumed ++ w.last ++ w.input.all := by
    rw [hconsumed, hlast, hinput, List.append_assoc, hall]
  refine ⟨⟨hinput ▸ hpre, ?_⟩, fun ht => ⟨?_, ?_, ?_⟩, fun hw => ⟨?_, ?_, ?_⟩⟩
  · have hlen := congrArg List.length hbytes
    simp only [List.length_append] at hlen
    have := hinv.length
    omega
  · exact haborted ▸ ht.alive
  · exact hbytes ▸ ht.order
  · exact herrors ▸ ht.errors
  · exact haborted ▸ hw.alive
  · exact hbytes ▸ hw.order
  · exact herrors ▸ hw.errors

theorem all_of_no_preread {i : UpstreamInput} (h : i.preread = none) : i.all = i.unread := by
  unfold UpstreamInput.all
  rw [h, Option.getD_none, List.nil_append]

/-- What a failed read has drained is lost. -/
theorem readerStep_fails (hinv : NothingTwice stream w)
    (h : readerStep w (.read bufLen io) = some t)
    (hnone : (w.input.phlUpstreamConnectionRead bufLen io).1 = none)
    (hleft : (w.input.phlUpstreamConnectionRead bufLen io).2 = ⟨none, w.input.unread⟩) :
    NothingTwice stream t ∧
      (InOrder stream t ↔ InOrder stream w ∧ w.input.preread = none) := by
  obtain ⟨haborted, hconsumed, hinput, hret⟩ := readerStep_read h
  obtain ⟨hlast, herrors⟩ : t.last = [] ∧
      t.errors = w.errors ++ [(w.consumed ++ w.last, t.input.unread)] := by
    rcases hret with ⟨hsome, -⟩ | ⟨-, hlast, herrors⟩
    · rw [hnone] at hsome
      cases hsome
    · exact ⟨hlast, herrors⟩
  rw [hleft] at hinput
  have hbytes : t.consumed ++ t.last ++ t.input.all =
      w.consumed ++ w.last ++ w.input.unread := by
    rw [hconsumed, hlast, List.append_nil, hinput]
    rfl
  have hlen := hinv.length
  have htotal : w.input.all.length = (w.input.preread.getD []).length + w.input.unread.length :=
    List.length_append
  refine ⟨⟨by rw [hinput]; nofun, ?_⟩, fun ht => ?_, fun ⟨hw, hpre⟩ => ?_⟩
  · have hlen' := congrArg List.length hbytes
    simp only [List.length_append] at hlen'
    omega
  · have hpre : w.input.preread = none := by
      have hlen' := congrArg List.length (hbytes.symm.trans ht.order)
      simp only [List.length_append] at hlen'
      cases hpre : w.input.preread with
      | none => rfl
      | some pre =>
        rw [hpre, Option.getD_some] at htotal
        have hzero : pre = [] := List.length_eq_zero_iff.mp (by omega)
        exact absurd (hzero ▸ hpre) hinv.preread
    have hall := all_of_no_preread hpre
    refine ⟨⟨haborted ▸ ht.alive, ?_, fun e he => ht.errors e ?_⟩, hpre⟩
    · rw [hall, ← hbytes]
      exact ht.order
    · rw [herrors]
      exact List.mem_append_left _ he
  · have hall := all_of_no_preread hpre
    refine ⟨haborted ▸ hw.alive, ?_, fun e he => ?_⟩
    · rw [hbytes, ← hall]
      exact hw.order
    · rw [herrors, List.mem_append, List.mem_singleton] at he
      rcases he with he | rfl
      · exact hw.errors e he
      · rw [hinput, ← hall]
        exact hw.order

theorem readsApart_of_apart
    (h : io = .fails → ∀ pre, w.input.preread = some pre → bufLen ≤ pre.length) :
    ReadsApart w (.read bufLen io) := by
  cases io with
  | fails => exact h rfl
  | blocked => trivial
  | bytes k => trivial

theorem readsApart_fails_iff
    (h : ∀ pre, w.input.preread = some pre → pre.length < bufLen) :
    ReadsApart w (.read bufLen .fails) ↔ w.input.preread = none := by
  constructor
  · intro hok
    cases hpre : w.input.preread with
    | none => rfl
    | some pre => exact absurd (hok pre hpre) (Nat.not_le_of_lt (h pre hpre))
  · intro hnone pre hpre
    rw [hnone] at hpre
    cases hpre

theorem UpstreamInput.readNotfinish_some {left : List UpstreamByte} {i' : UpstreamInput}
    (h : i.readNotfinish left = some i') (hpre : i.preread ≠ some []) :
    i'.all = left ++ i.all ∧ i'.preread ≠ some [] ∧ (left = [] ∨ i.preread = none) := by
  unfold readNotfinish at h
  split at h
  next hleft =>
    cases h
    exact ⟨by rw [hleft, List.nil_append], hpre, .inl hleft⟩
  next hleft =>
    obtain ⟨hnone, h⟩ := Option.ite_none_right_eq_some.mp h
    cases h
    refine ⟨?_, fun h => hleft (Option.some.inj h), .inr hnone⟩
    unfold all
    rw [hnone]
    rfl

theorem UpstreamInput.readNotfinish_none {left : List UpstreamByte}
    (h : i.readNotfinish left = none) : left ≠ [] ∧ i.preread ≠ none := by
  unfold readNotfinish at h
  split at h
  next => cases h
  next hleft =>
    refine ⟨hleft, fun hnone => ?_⟩
    rw [if_pos hnone] at h
    cases h

theorem readerStep_notfinish {n : Nat} (hinv : NothingTwice stream w)
    (h : readerStep w (.notfinish n) = some t) :
    NothingTwice stream t ∧
      (InOrder stream t ↔ InOrder stream w ∧ ReadsApart w (.notfinish n)) := by
  unfold readerStep at h
  obtain ⟨hguard, h⟩ := Option.ite_none_left_eq_some.mp h
  have hlast : n ≤ w.last.length := by
    by_contra hlt
    exact hguard (.inr (by omega))
  have hleft : (w.last.drop (w.last.length - n)).length = n := by
    rw [List.length_drop]
    omega
  dsimp only at h
  cases hback : w.input.readNotfinish (w.last.drop (w.last.length - n)) with
  | none =>
    rw [hback] at h
    cases h
    obtain ⟨hne, hpre⟩ := UpstreamInput.readNotfinish_none hback
    refine ⟨⟨hinv.preread, hinv.length⟩, fun ht => Bool.noConfusion ht.alive, ?_⟩
    rintro ⟨-, hzero | hnone⟩
    · exact absurd (List.length_eq_zero_iff.mp (hleft.trans hzero)) hne
    · exact absurd hnone hpre
  | some input =>
    rw [hback] at h
    cases h
    obtain ⟨hall, hne, hapart⟩ := UpstreamInput.readNotfinish_some hback hinv.preread
    have hok : ReadsApart w (.notfinish n) := by
      rcases hapart with hnil | hnone
      · rw [hnil] at hleft
        exact .inl hleft.symm
      · exact .inr hnone
    have hbytes : w.consumed ++ w.last.take (w.last.length - n) ++ [] ++ input.all =
        w.consumed ++ w.last ++ w.input.all := by
      rw [hall, List.append_nil, List.append_assoc, ← List.append_assoc (w.last.take _),
        List.take_append_drop, List.append_assoc]
    refine ⟨⟨hne, ?_⟩, fun ht => ⟨⟨ht.alive, hbytes ▸ ht.order, ht.errors⟩, hok⟩,
      fun ⟨hw, _⟩ => ⟨hw.alive, hbytes.trans hw.order, hw.errors⟩⟩
    have hlen := congrArg List.length hbytes
    simp only [List.length_append] at hlen ⊢
    have := hinv.length
    omega

/-- What a call keeps, and when it keeps the order of the bytes. -/
theorem readerStep_keeps (hinv : NothingTwice stream w) (h : readerStep w act = some t) :
    NothingTwice stream t ∧ (InOrder stream t ↔ InOrder stream w ∧ ReadsApart w act) := by
  cases act with
  | notfinish n => exact readerStep_notfinish hinv h
  | read bufLen io =>
    rcases w.input.phlUpstreamConnectionRead_spec bufLen io with
      ⟨got, hgot, hall, hpre, hapart⟩ | ⟨hnone, rfl, hleft, hpre⟩
    · obtain ⟨hnothing, hiff⟩ := readerStep_returns hinv h hgot hall hpre
      rw [hiff, and_iff_left (readsApart_of_apart hapart)]
      exact ⟨hnothing, Iff.rfl⟩
    · rw [readsApart_fails_iff hpre]
      exact readerStep_fails hinv h hnone hleft

/-- The bytes of the stream are consumed in order over a run, and all of them before an error is
reported, exactly where every call meets the condition. -/
theorem inOrder_iff {acts : List ReaderAct}
    (h : runActs readerStep acts (.start stream) = some w) :
    InOrder stream w ↔ ActsMeet readerStep ReadsApart acts (.start stream) := by
  have hstart : NothingTwice stream (.start stream) :=
    ⟨nofun, by simp [UpstreamReader.start, UpstreamInput.all]⟩
  have hiff := actsMeet_iff_of_step (fun _ _ _ => readerStep_keeps) hstart h
  rw [hiff]
  exact and_iff_right ⟨rfl, rfl, nofun⟩

/-- Two bytes of four are pushed back, and read again with the rest. -/
theorem inOrder_pushed :
    InOrder [(none, 1), (none, 2), (none, 3), (none, 4)]
        ⟨⟨none, [(none, 4)]⟩, [(none, 1)], [(none, 2), (none, 3)], [], false⟩ ↔
      ActsMeet readerStep ReadsApart [.read 4 (.bytes 2), .notfinish 1, .read 2 (.bytes 1)]
        (.start [(none, 1), (none, 2), (none, 3), (none, 4)]) :=
  inOrder_iff rfl

/-- The connection is closed behind a byte that was pushed back, which is not delivered; and what
is left in the buffer is not consumed either where some of it is pushed back. -/
theorem inOrder_lost :
    (∃ w, runActs readerStep [.read 4 (.bytes 2), .notfinish 1, .read 4 .fails]
        (.start [(none, 1), (none, 2)]) = some w ∧ w.consumed = [(none, 1)] ∧
          w.errors = [([(none, 1)], [])] ∧ ¬InOrder [(none, 1), (none, 2)] w) ∧
    ∃ w, runActs readerStep [.read 4 (.bytes 2), .notfinish 2, .read 1 .blocked, .notfinish 1]
        (.start [(none, 1), (none, 2)]) = some w ∧ w.aborted = true ∧
          ¬InOrder [(none, 1), (none, 2)] w := by
  refine ⟨⟨_, rfl, rfl, rfl, fun h => ?_⟩, ⟨_, rfl, rfl, fun h => ?_⟩⟩
  · have horder := h.order
    revert horder
    decide
  · exact Bool.noConfusion h.alive

end Read

end Phorklift
