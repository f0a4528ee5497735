import Phorklift.Connection

/-! The bytes that the socket accepts, against those that the responses append. -/

namespace Phorklift

def ConnectionEvent.sentBytes : ConnectionEvent → Bytes
  | .wrote data writeLen => data.take (writeLen.getD 0)
  | _ => []

def ConnectionEvent.newBytes : ConnectionEvent → Bytes
  | .appended data => data
  | _ => []

namespace Connection

/-- The bytes that `loop_stream_write` has accepted. -/
def sent (c : Connection) : Bytes := c.log.flatMap ConnectionEvent.sentBytes

/-- The bytes that the responses have appended. -/
def appended (c : Connection) : Bytes := c.log.flatMap ConnectionEvent.newBytes

/-- The bytes in the send buffer. -/
def unsent (c : Connection) : Bytes := c.sendBuffer.getD []

/-- The socket gets the appended bytes in order; an open connection keeps the others, and one that
is closed for a complete response has none. -/
structure SendsInOrder (c : Connection) : Prop where
  order : c.sent <+: c.appended
  kept : c.state ≠ .closed → c.sent ++ c.unsent = c.appended
  complete : .completed ∈ c.log → c.state = .closed ∧ c.sent = c.appended

end Connection

/-- No socket error, timeout or closing by the client. -/
def Act.quiet : Act → Bool
  | .close => false
  | .writable writeLen | .defer writeLen | .requestClose writeLen => writeLen.isSome
  | .respond _ writeLen _ => writeLen.isSome
  | _ => true

/-- A write that goes with the close after a complete response takes all of the send buffer. -/
def Handling.closesWhole (s : Handling) : Act → Bool
  | .requestClose writeLen =>
    match s.c.request with
    | some r => r.state ≠ .done || r.version ≠ 0 ||
      decide (s.c.unsent.length ≤ writeLen.getD 0)
    | none => true
  | _ => true

section Functions

open Connection

variable {c : Connection} {bufSize size n : Nat} {data : Bytes}

theorem sent_note (e : ConnectionEvent) : (c.note e).sent = c.sent ++ e.sentBytes := by
  simp [Connection.note, Connection.sent]

theorem appended_note (e : ConnectionEvent) : (c.note e).appended = c.appended ++ e.newBytes := by
  simp [Connection.note, Connection.appended]

/-- Only the log, the state and the bytes of the send buffer matter. -/
theorem Connection.SendsInOrder.congr {c' : Connection} (h : c.SendsInOrder) (hlog : c'.log = c.log)
    (hstate : c'.state = c.state) (hunsent : c'.unsent = c.unsent) : c'.SendsInOrder := by
  have hsent : c'.sent = c.sent := by rw [Connection.sent, hlog, Connection.sent]
  have happended : c'.appended = c.appended := by
    rw [Connection.appended, hlog, Connection.appended]
  refine ⟨?_, ?_, ?_⟩
  · rw [hsent, happended]
    exact h.order
  · rw [hstate, hsent, hunsent, happended]
    exact h.kept
  · rw [hlog, hstate, hsent, happended]
    exact h.complete

theorem Connection.SendsInOrder.not_complete (h : c.SendsInOrder) (hopen : c.state ≠ .closed) :
    .completed ∉ c.log := fun hmem => hopen (h.complete hmem).1

/-- What is written of the send buffer goes on with what was sent. -/
theorem Connection.SendsInOrder.write (h : c.SendsInOrder) (hopen : c.state ≠ .closed)
    (hdata : c.sendBuffer = some data) :
    SendsInOrder { c.note (.wrote data (some n)) with sendBuffer := some (data.drop n) } := by
  have hkept := h.kept hopen
  unfold Connection.unsent at hkept
  rw [hdata, Option.getD_some, ← List.take_append_drop n data, ← List.append_assoc] at hkept
  have hsent : (c.note (.wrote data (some n))).sent = c.sent ++ data.take n := sent_note _
  have happended : (c.note (.wrote data (some n))).appended = c.appended := by
    rw [appended_note]
    exact List.append_nil _
  refine ⟨?_, fun _ => ?_, fun hmem => ?_⟩
  · change (c.note (.wrote data (some n))).sent <+: (c.note (.wrote data (some n))).appended
    rw [hsent, happended, ← hkept]
    exact List.prefix_append _ _
  · change (c.note (.wrote data (some n))).sent ++ data.drop n =
      (c.note (.wrote data (some n))).appended
    rw [hsent, happended, hkept]
  · have hnot := h.not_complete hopen
    simp [Connection.note] at hmem
    exact absurd hmem hnot

theorem close_sends (h : c.SendsInOrder) : (c.phlConnectionClose (some n)).SendsInOrder := by
  unfold Connection.phlConnectionClose
  by_cases hclosed : c.state = .closed
  · rw [if_pos hclosed]
    exact h
  · rw [if_neg hclosed]
    cases hdata : c.sendBuffer with
    | none =>
      refine ⟨h.order, fun hopen => absurd rfl hopen, fun hmem => ?_⟩
      exact absurd hmem (h.not_complete hclosed)
    | some data =>
      have hwrite := SendsInOrder.write (n := n) h hclosed hdata
      refine ⟨hwrite.order, fun hopen => absurd rfl hopen, fun hmem => ?_⟩
      exact absurd hmem (hwrite.not_complete hclosed)

/-- A close whose write takes the whole send buffer leaves nothing unsent. -/
theorem close_sends_all (h : c.SendsInOrder) (hopen : c.state ≠ .closed)
    (hwhole : c.unsent.length ≤ n) :
    (c.phlConnectionClose (some n)).sent = (c.phlConnectionClose (some n)).appended := by
  have hkept := h.kept hopen
  unfold Connection.phlConnectionClose Connection.unsent at *
  rw [if_neg hopen]
  cases hdata : c.sendBuffer with
  | none =>
    rw [hdata, Option.getD_none, List.append_nil] at hkept
    exact hkept
  | some data =>
    rw [hdata, Option.getD_some] at hkept hwhole
    have hwrite := SendsInOrder.write (n := n) h hopen hdata
    have hkept' := hwrite.kept hopen
    unfold Connection.unsent at hkept'
    rw [Option.getD_some, List.drop_eq_nil_of_le hwhole, List.append_nil] at hkept'
    exact hkept'

theorem flush_sends (h : c.SendsInOrder) :
    (c.phlConnectionFlush (some n)).2.SendsInOrder ∧
      ((c.phlConnectionFlush (some n)).1 = .ok → (c.phlConnectionFlush (some n)).2.unsent = []) := by
  unfold Connection.phlConnectionFlush
  by_cases hclosed : c.state = .closed
  · rw [if_pos hclosed]
    exact ⟨h, nofun⟩
  · rw [if_neg hclosed]
    split
    next hdata => exact ⟨h, fun _ => by rw [Connection.unsent, hdata]; rfl⟩
    next hdata => exact ⟨h, fun _ => by rw [Connection.unsent, hdata]; rfl⟩
    next data _ hdata =>
      have hwrite := SendsInOrder.write (n := n) h hclosed hdata
      dsimp only
      split
      next => exact ⟨hwrite.congr rfl rfl rfl, nofun⟩
      next hle => exact ⟨hwrite.congr rfl rfl rfl, fun _ => List.drop_eq_nil_of_le (by omega)⟩

theorem defer_sends (h : c.SendsInOrder) :
    (c.phlConnectionDeferRoutine (some n)).SendsInOrder := by
  have hpopped : SendsInOrder { c with deferred := false } := h.congr rfl rfl rfl
  have hflush := flush_sends (n := n) hpopped
  unfold Connection.phlConnectionDeferRoutine
  split
  next c' hc' =>
    rw [hc'] at hflush
    exact hflush.1.congr rfl rfl (hflush.2 rfl).symm
  next hc' =>
    rw [hc'] at hflush
    exact hflush.1

theorem makeSpace_sends (h : c.SendsInOrder) :
    (c.phlConnectionMakeSpace bufSize size (some n)).2.SendsInOrder := by
  have hdefer : SendsInOrder { c with deferred := true } := h.congr rfl rfl rfl
  refine makeSpace_keeps h hdefer (fun hdata => ?_) (flush_sends (n := n) hdefer).1
  exact h.congr rfl rfl (by rw [Connection.unsent, Connection.unsent, hdata]; rfl)

theorem makeSpace_open {available : Nat} {c' : Connection} {writeLen : Option Nat}
    (h : c.phlConnectionMakeSpace bufSize size writeLen = (.space available, c')) :
    c'.state ≠ .closed := by
  unfold Connection.phlConnectionMakeSpace at h
  split at h
  next => cases h
  next hopen =>
    split at h
    next => cases h
    next =>
      dsimp only at h
      split at h
      next =>
        cases h
        exact hopen
      next =>
        split at h
        next =>
          cases h
          exact hopen
        next =>
          split at h
          next => cases h
          next c'' hne hflush =>
            have hstate : c''.state ≠ .closed := by
              unfold Connection.phlConnectionFlush at hflush
              rw [if_neg hopen] at hflush
              split at hflush
              next =>
                cases hflush
                exact hopen
              next =>
                cases hflush
                exact hopen
              next =>
                split at hflush
                next =>
                  cases hflush
                  exact absurd rfl hne
                next =>
                  dsimp only at hflush
                  split at hflush
                  next =>
                    cases hflush
                    exact hopen
                  next =>
                    cases hflush
                    exact hopen
            split at h
            next =>
              cases h
              exact hstate
            next => cases h

theorem respond_sends (h : c.SendsInOrder) :
    (c.respond bufSize size (some n) data).SendsInOrder := by
  have hspace := @makeSpace_sends c bufSize size n h
  unfold Connection.respond
  split
  next available c' hc' =>
    have hopen := makeSpace_open hc'
    rw [hc'] at hspace
    split
    next =>
      have hkept := hspace.kept hopen
      have hsent : (c'.note (.appended data)).sent = c'.sent := by
        rw [sent_note]
        exact List.append_nil _
      have happended : (c'.note (.appended data)).appended = c'.appended ++ data := appended_note _
      refine ⟨?_, fun _ => ?_, fun hmem => ?_⟩
      · change (c'.note (.appended data)).sent <+: (c'.note (.appended data)).appended
        rw [hsent, happended]
        exact hspace.order.trans (List.prefix_append _ _)
      · change (c'.note (.appended data)).sent ++ (c'.unsent ++ data) =
          (c'.note (.appended data)).appended
        rw [hsent, happended, ← hkept, List.append_assoc]
      · have hnot := hspace.not_complete hopen
        simp [Connection.note] at hmem
        exact absurd hmem hnot
    next => exact hspace
  next hc' =>
    rw [hc'] at hspace
    exact hspace

theorem setState_sends {state : ConnectionState} (h : c.SendsInOrder) :
    (c.phlConnectionSetState state).SendsInOrder := by
  unfold Connection.phlConnectionSetState
  split
  next => exact h
  next hopen =>
    split
    next => exact h
    next =>
      have hswitched : SendsInOrder { c.note (.switched state) with state := state } := by
        have hsent : (c.note (.switched state)).sent = c.sent := by
          rw [sent_note]
          exact List.append_nil _
        have happended : (c.note (.switched state)).appended = c.appended := by
          rw [appended_note]
          exact List.append_nil _
        refine ⟨?_, fun _ => ?_, fun hmem => ?_⟩
        · change (c.note (.switched state)).sent <+: (c.note (.switched state)).appended
          rw [hsent, happended]
          exact h.order
        · change (c.note (.switched state)).sent ++ c.unsent = (c.note (.switched state)).appended
          rw [hsent, happended]
          exact h.kept hopen
        · have hnot := h.not_complete hopen
          simp [Connection.note] at hmem
          exact absurd hmem hnot
      cases state with
      | reading | writing | idle | closed => exact hswitched.congr rfl rfl rfl

theorem http1SetState_sends (h : c.SendsInOrder) : c.phlHttp1SetState.SendsInOrder := by
  unfold phlHttp1SetState
  split
  next => exact setState_sends h
  next =>
    split
    next => exact setState_sends h
    next => exact setState_sends h

theorem requestClose_sends {r : Http1Request} (h : c.SendsInOrder) (hopen : c.state ≠ .closed)
    (hwhole : r.state = .done → r.version = 0 → c.unsent.length ≤ n) :
    (c.phlHttp1RequestClose r (some n)).SendsInOrder := by
  have hnone : SendsInOrder { c with request := none } := h.congr rfl rfl rfl
  have hclose := close_sends (n := n) hnone
  unfold phlHttp1RequestClose
  dsimp only
  split
  next => exact hclose
  next hdone =>
    split
    next hversion =>
      have hall := close_sends_all hnone hopen (hwhole (not_not.mp hdone) hversion)
      have hclosed := @close_state { c with request := none } (some n)
      generalize phlConnectionClose (some n) { c with request := none } = c' at *
      have hsent : (c'.note .completed).sent = c'.sent := by
        rw [sent_note]
        exact List.append_nil _
      have happended : (c'.note .completed).appended = c'.appended := by
        rw [appended_note]
        exact List.append_nil _
      refine ⟨?_, fun h => absurd hclosed h, fun _ => ⟨hclosed, ?_⟩⟩
      · rw [hsent, happended]
        exact hclose.order
      · rw [hsent, happended]
        exact hall
    next => exact setState_sends hnone

/-- What a quiet step keeps. -/
theorem moved_sends {bufSize : Nat} {c' : Connection} {a : Act} (hdetached : c.Detached)
    (h : c.SendsInOrder) (hquiet : a.quiet = true)
    (hwhole : ∀ writeLen r, a = .requestClose writeLen → c.request = some r → r.state = .done →
      r.version = 0 → c.unsent.length ≤ writeLen.getD 0)
    (hmoved : Moved bufSize c a c') : c'.SendsInOrder := by
  cases hmoved with
  | same => exact h
  | request => exact h.congr rfl rfl rfl
  | setState => exact http1SetState_sends h
  | nextRequest => exact (http1SetState_sends h).congr rfl rfl rfl
  | flush writeLen =>
    obtain ⟨n, rfl⟩ := Option.isSome_iff_exists.mp hquiet
    exact (flush_sends h).1
  | defer writeLen =>
    obtain ⟨n, rfl⟩ := Option.isSome_iff_exists.mp hquiet
    exact defer_sends h
  | close => cases hquiet
  | respond size writeLen data =>
    obtain ⟨n, rfl⟩ := Option.isSome_iff_exists.mp hquiet
    exact respond_sends h
  | requestClose writeLen hr =>
    obtain ⟨n, rfl⟩ := Option.isSome_iff_exists.mp hquiet
    have hopen : c.state ≠ .closed := by
      intro hclosed
      rw [hdetached hclosed] at hr
      cases hr
    exact requestClose_sends h hopen (hwhole (some n) _ rfl hr)

end Functions

theorem sends_in_order {bufSize : Nat} {acts : List Act} {s : Handling}
    (h : Handling.accepted.run (fun s a => a.quiet && s.closesWhole a) bufSize acts = some s) :
    s.c.SendsInOrder := by
  have hboth : s.c.Detached ∧ s.c.SendsInOrder := by
    refine Handling.run_invariant (I := fun s => s.c.Detached ∧ s.c.SendsInOrder)
      (fun s a t hs hok hstep => ?_) h ⟨nofun, List.prefix_rfl, fun _ => rfl, nofun⟩
    rw [Bool.and_eq_true] at hok
    have hmoved := step_moved hs.1 hstep
    refine ⟨moved_detached hs.1 hmoved, moved_sends hs.1 hs.2 hok.1 ?_ hmoved⟩
    intro writeLen r ha hr hdone hversion
    have hwhole := hok.2
    unfold Handling.closesWhole at hwhole
    rw [ha, hr] at hwhole
    simpa [hdone, hversion] using hwhole
  exact hboth.2

/-- A response of an HTTP/1.0 request, of which the socket takes two bytes and then the last. -/
def twoWrites : List Act :=
  [.readable, .advance ⟨.responseBody, 0⟩, .respond 4096 (some 0) [1, 2, 3], .advance ⟨.done, 0⟩,
    .handled, .writable (some 2), .writable (some 1), .requestClose (some 0)]

theorem sends_in_order_two_writes :
    ∃ s, Handling.accepted.run (fun s a => a.quiet && s.closesWhole a) 16384 twoWrites = some s ∧
      s.c.SendsInOrder :=
  ⟨_, rfl, @sends_in_order 16384 twoWrites _ rfl⟩

/-- The response of an HTTP/1.0 request is complete when its last bytes are in the send buffer; the
close writes once, and drops what the socket does not take. -/
theorem response_cut_off :
    ∃ s, Handling.accepted.run (fun _ a => a.quiet) 16384
        [.readable, .advance ⟨.responseBody, 0⟩, .respond 4096 (some 0) [1, 2, 3],
          .advance ⟨.done, 0⟩, .requestClose (some 1)] = some s ∧
      .completed ∈ s.c.log ∧ s.c.sent = [1] ∧ s.c.appended = [1, 2, 3] :=
  ⟨_, rfl, by decide, by decide, by decide⟩

end Phorklift
