import Phorklift.Connection
import Mathlib.Data.List.Induction

/-! The timers of an open connection, against the switches and writes that its log tells of. -/

namespace Phorklift

namespace ConnectionEvent

def isWrite : ConnectionEvent → Bool
  | wrote _ _ => true
  | _ => false

/-- The writes and the switches to `writing`. -/
def isSend : ConnectionEvent → Bool
  | wrote _ _ | switched .writing => true
  | _ => false

def switch : ConnectionEvent → Option ConnectionState
  | switched state => some state
  | _ => none

end ConnectionEvent

namespace Connection

/-- The states that the connection has switched to. -/
def switches (c : Connection) : List ConnectionState := c.log.filterMap ConnectionEvent.switch

def lastWrite (c : Connection) : Option ConnectionEvent :=
  (c.log.filter ConnectionEvent.isWrite).getLast?

def lastSend (c : Connection) : Option ConnectionEvent :=
  (c.log.filter ConnectionEvent.isSend).getLast?

/-- Bytes are left of the last write. -/
def Blocked (c : Connection) : Prop :=
  ∃ data n, c.lastWrite = some (.wrote data (some n)) ∧ n < data.length

/-- The timers that an open connection is meant to have. -/
structure TimersOk (c : Connection) : Prop where
  reading : c.state = .reading → c.recvTimer = some .recv
  idle : c.state = .idle → c.recvTimer = some .keepalive
  writing : c.state = .writing → c.recvTimer = none
  blocked : c.Blocked → c.sendTimer = some .send

/-- It has left the state of the accept if it is reading, it has been in no other state since if it
is writing, and it has not switched to `writing` after a write that left bytes. -/
structure TimersKept (c : Connection) : Prop where
  reading : c.state = .reading → c.switches ≠ []
  writing : c.state = .writing → .reading ∉ c.switches ∧ .idle ∉ c.switches
  blocked : c.Blocked → c.lastSend ≠ some (.switched .writing)

def recvGroup : ConnectionState → Option TimerGroup
  | .reading => some .recv
  | .idle => some .keepalive
  | .writing | .closed => none

def sendGroup : Option ConnectionEvent → Option TimerGroup
  | some (.wrote data (some n)) => if n < data.length then some .send else none
  | _ => none

/-- How state and timers follow from the log while the connection is open. -/
structure TimersFromLog (c : Connection) : Prop where
  state : c.state = c.switches.getLast?.getD .reading
  recv : c.recvTimer = (c.switches.filterMap recvGroup).getLast?
  send : c.sendTimer = sendGroup c.lastSend

end Connection

open Connection

section Log

variable {c : Connection} {e : ConnectionEvent}

theorem switches_note : (c.note e).switches = c.switches ++ e.switch.toList := by
  unfold switches note
  cases e <;> simp [ConnectionEvent.switch]

theorem lastSend_note : (c.note e).lastSend = if e.isSend then some e else c.lastSend := by
  unfold lastSend note
  dsimp only
  rw [List.filter_append]
  split
  next h => rw [List.filter_cons_of_pos h, List.filter_nil, List.getLast?_concat]
  next h => rw [List.filter_cons_of_neg h, List.filter_nil, List.append_nil]

/-- What touched the send timer last is a switch to `writing` or the last write. -/
theorem lastSend_cases : c.lastSend = some (.switched .writing) ∨ c.lastSend = c.lastWrite := by
  unfold lastSend lastWrite
  induction c.log using List.reverseRecOn with
  | nil => exact .inr rfl
  | append_singleton l e ih =>
    rw [List.filter_append, List.filter_append]
    cases e with
    | wrote data writeLen => exact .inr (by simp [ConnectionEvent.isSend, ConnectionEvent.isWrite])
    | switched state =>
      cases state with
      | writing => exact .inl (by simp [ConnectionEvent.isSend])
      | reading | idle | closed => simpa [ConnectionEvent.isSend, ConnectionEvent.isWrite] using ih
    | appended | completed => simpa [ConnectionEvent.isSend, ConnectionEvent.isWrite] using ih

theorem getLast?_recvGroup {l : List ConnectionState} {state : ConnectionState} {group : TimerGroup}
    (hlast : l.getLast? = some state) (hgroup : recvGroup state = some group) :
    (l.filterMap recvGroup).getLast? = some group := by
  obtain ⟨init, rfl⟩ := List.getLast?_eq_some_iff.mp hlast
  rw [List.filterMap_append, List.filterMap_cons_some hgroup, List.filterMap_nil,
    List.getLast?_concat]

end Log

section Invariant

variable {c : Connection} {bufSize size : Nat} {data : Bytes} {writeLen : Option Nat}

/-- The invariant says nothing of a closed connection. -/
def TimersKnown (c : Connection) : Prop := c.state ≠ .closed → c.TimersFromLog

/-- Events that are no switch and no write change nothing. -/
theorem Connection.TimersFromLog.congr {c' : Connection} (h : c.TimersFromLog) (hstate : c'.state = c.state)
    (hrecv : c'.recvTimer = c.recvTimer) (hsend : c'.sendTimer = c.sendTimer)
    (hswitches : c'.switches = c.switches) (hlast : c'.lastSend = c.lastSend) :
    c'.TimersFromLog := by
  refine ⟨?_, ?_, ?_⟩
  · rw [hstate, hswitches]
    exact h.state
  · rw [hrecv, hswitches]
    exact h.recv
  · rw [hsend, hlast]
    exact h.send

theorem close_known : TimersKnown (c.phlConnectionClose writeLen) := by
  intro hopen
  exact absurd close_state hopen

theorem setState_known {state : ConnectionState} (h : TimersKnown c) :
    TimersKnown (c.phlConnectionSetState state) := by
  unfold phlConnectionSetState
  split
  next => exact h
  next hopen =>
    have hlog := h hopen
    split
    next => exact h
    next =>
      have hswitches : (c.note (.switched state)).switches = c.switches ++ [state] := switches_note
      have hlast := @lastSend_note c (.switched state)
      have hrecv := hlog.recv
      have hsend := hlog.send
      cases state with
      | reading =>
        refine fun _ => ⟨?_, ?_, ?_⟩
        · change _ = (c.note (.switched .reading)).switches.getLast?.getD .reading
          rw [hswitches, List.getLast?_concat]
          rfl
        · change _ = ((c.note (.switched .reading)).switches.filterMap recvGroup).getLast?
          rw [hswitches, getLast?_recvGroup List.getLast?_concat rfl]
        · change c.sendTimer = sendGroup (c.note (.switched .reading)).lastSend
          rw [hlast]
          exact hsend
      | writing =>
        refine fun _ => ⟨?_, ?_, ?_⟩
        · change _ = (c.note (.switched .writing)).switches.getLast?.getD .reading
          rw [hswitches, List.getLast?_concat]
          rfl
        · change c.recvTimer = ((c.note (.switched .writing)).switches.filterMap recvGroup).getLast?
          rw [hswitches, List.filterMap_append, hrecv]
          simp [recvGroup]
        · change _ = sendGroup (c.note (.switched .writing)).lastSend
          rw [hlast]
          rfl
      | idle =>
        refine fun _ => ⟨?_, ?_, ?_⟩
        · change _ = (c.note (.switched .idle)).switches.getLast?.getD .reading
          rw [hswitches, List.getLast?_concat]
          rfl
        · change _ = ((c.note (.switched .idle)).switches.filterMap recvGroup).getLast?
          rw [hswitches, getLast?_recvGroup List.getLast?_concat rfl]
        · change c.sendTimer = sendGroup (c.note (.switched .idle)).lastSend
          rw [hlast]
          exact hsend
      | closed => exact fun hopen => absurd rfl hopen

theorem http1SetState_known (h : TimersKnown c) : TimersKnown c.phlHttp1SetState := by
  unfold phlHttp1SetState
  split
  next => exact setState_known h
  next =>
    split
    next => exact setState_known h
    next => exact setState_known h

theorem flush_known (h : TimersKnown c) : TimersKnown (c.phlConnectionFlush writeLen).2 := by
  unfold phlConnectionFlush
  split
  next => exact h
  next hopen =>
    have hlog := h hopen
    split
    next => exact h
    next => exact h
    next data _ _ =>
      cases writeLen with
      | none => exact close_known
      | some n =>
        have hswitches : (c.note (.wrote data (some n))).switches = c.switches := by
          rw [switches_note]
          exact List.append_nil _
        have hlast := @lastSend_note c (.wrote data (some n))
        have hgroup : sendGroup (c.note (.wrote data (some n))).lastSend =
            if n < data.length then some .send else none := by
          rw [hlast]
          rfl
        have hstate := hlog.state
        have hrecv := hlog.recv
        rw [← hswitches] at hstate hrecv
        dsimp only
        split
        next hlt => exact fun _ => ⟨hstate, hrecv, (hgroup.trans (if_pos hlt)).symm⟩
        next hle => exact fun _ => ⟨hstate, hrecv, (hgroup.trans (if_neg hle)).symm⟩

theorem TimersKnown.congr {c' : Connection} (h : TimersKnown c) (hstate : c'.state = c.state)
    (hrecv : c'.recvTimer = c.recvTimer) (hsend : c'.sendTimer = c.sendTimer)
    (hswitches : c'.switches = c.switches) (hlast : c'.lastSend = c.lastSend) :
    TimersKnown c' := by
  intro hopen
  rw [hstate] at hopen
  exact (h hopen).congr hstate hrecv hsend hswitches hlast

theorem defer_known (h : TimersKnown c) :
    TimersKnown (c.phlConnectionDeferRoutine writeLen) := by
  have hflush := @flush_known { c with deferred := false } writeLen (h.congr rfl rfl rfl rfl rfl)
  unfold phlConnectionDeferRoutine
  split
  next hc' =>
    rw [hc'] at hflush
    exact hflush.congr rfl rfl rfl rfl rfl
  next hc' =>
    rw [hc'] at hflush
    exact hflush

theorem makeSpace_known (h : TimersKnown c) :
    TimersKnown (c.phlConnectionMakeSpace bufSize size writeLen).2 := by
  have hdefer : TimersKnown { c with deferred := true } := h.congr rfl rfl rfl rfl rfl
  exact makeSpace_keeps h hdefer (fun _ => h.congr rfl rfl rfl rfl rfl) (flush_known hdefer)

theorem respond_known (h : TimersKnown c) :
    TimersKnown (c.respond bufSize size writeLen data) := by
  have hspace := @makeSpace_known c bufSize size writeLen h
  unfold Connection.respond
  split
  next available c' hc' =>
    rw [hc'] at hspace
    split
    next =>
      have hswitches : (c'.note (.appended data)).switches = c'.switches := by
        rw [switches_note]
        exact List.append_nil _
      exact hspace.congr rfl rfl rfl hswitches lastSend_note
    next => exact hspace
  next hc' =>
    rw [hc'] at hspace
    exact hspace

theorem requestClose_known {r : Http1Request} (h : TimersKnown c) :
    TimersKnown (c.phlHttp1RequestClose r writeLen) := by
  have hnone : TimersKnown { c with request := none } := h.congr rfl rfl rfl rfl rfl
  unfold phlHttp1RequestClose
  dsimp only
  split
  next => exact close_known
  next =>
    split
    next => exact fun hopen => absurd (@close_state { c with request := none } writeLen) hopen
    next => exact setState_known hnone

theorem moved_known {c' : Connection} {a : Act} (h : TimersKnown c) (hmoved : Moved bufSize c a c') :
    TimersKnown c' := by
  cases hmoved with
  | same => exact h
  | request => exact h.congr rfl rfl rfl rfl rfl
  | setState => exact http1SetState_known h
  | nextRequest => exact (http1SetState_known h).congr rfl rfl rfl rfl rfl
  | flush => exact flush_known h
  | defer => exact defer_known h
  | close => exact close_known
  | respond => exact respond_known h
  | requestClose => exact requestClose_known h

/-- The log alone tells whether the timers are as they are meant to be. -/
theorem timersOk_iff_of_log (h : c.TimersFromLog) : c.TimersOk ↔ c.TimersKept := by
  have hstate := h.state
  have hlast : ∀ {state : ConnectionState}, c.state = state → state ≠ .reading →
      c.switches.getLast? = some state := by
    intro state heq hne
    rw [heq] at hstate
    cases hlast : c.switches.getLast? with
    | none =>
      rw [hlast] at hstate
      exact absurd hstate hne
    | some last =>
      rw [hlast] at hstate
      rw [hstate]
      rfl
  constructor
  · intro hok
    refine ⟨fun hreading hnil => ?_, fun hwriting => ?_, fun hblocked hswitch => ?_⟩
    · have hrecv := h.recv
      rw [hok.reading hreading, hnil] at hrecv
      cases hrecv
    · have hnone := h.recv.symm.trans (hok.writing hwriting)
      have hnil := List.getLast?_eq_none_iff.mp hnone
      have hall := List.filterMap_eq_nil_iff.mp hnil
      refine ⟨fun hmem => ?_, fun hmem => ?_⟩
      · cases hall _ hmem
      · cases hall _ hmem
    · have hsend := h.send
      rw [hok.blocked hblocked, hswitch] at hsend
      cases hsend
  · intro hkept
    refine ⟨fun hreading => ?_, fun hidle => ?_, fun hwriting => ?_, fun hblocked => ?_⟩
    · have hne := hkept.reading hreading
      rw [List.getLast?_eq_some_getLast hne, hreading, Option.getD_some] at hstate
      rw [h.recv]
      refine getLast?_recvGroup (List.getLast?_eq_some_getLast hne) ?_
      rw [← hstate]
      rfl
    · rw [h.recv]
      exact getLast?_recvGroup (hlast hidle nofun) rfl
    · obtain ⟨hreading, hidle⟩ := hkept.writing hwriting
      have hnil : c.switches.filterMap recvGroup = [] := by
        rw [List.filterMap_eq_nil_iff]
        intro state hmem
        cases state with
        | reading => exact absurd hmem hreading
        | idle => exact absurd hmem hidle
        | writing | closed => rfl
      rw [h.recv, hnil]
      rfl
    · have hnot := hkept.blocked hblocked
      obtain ⟨data, n, hwrite, hlt⟩ := hblocked
      rw [h.send, lastSend_cases.resolve_left hnot, hwrite]
      exact if_pos hlt

end Invariant

/-- After every event handler the timers of an open connection are as they are meant to be exactly
where its log says so; right after the accept they are not. -/
theorem timersOk_iff {bufSize : Nat} {acts : List Act} {s : Handling}
    (h : Handling.accepted.run (fun _ _ => true) bufSize acts = some s)
    (hopen : s.c.state ≠ .closed) :
    s.c.TimersOk ↔ s.c.TimersKept := by
  have hboth : s.c.Detached ∧ TimersKnown s.c := by
    refine Handling.run_invariant (I := fun s => s.c.Detached ∧ TimersKnown s.c)
      (fun s a t hs _ hstep => ?_) h ⟨nofun, fun _ => ⟨rfl, rfl, rfl⟩⟩
    have hmoved := step_moved hs.1 hstep
    exact ⟨moved_detached hs.1 hmoved, moved_known hs.2 hmoved⟩
  exact timersOk_iff_of_log (hboth.2 hopen)

/-- A whole request at once, whose response is sent at once. -/
def oneExchange : List Act :=
  [.readable, .advance ⟨.responseBody, 1⟩, .respond 4096 none [1, 2, 3], .advance ⟨.done, 1⟩,
    .requestClose none, .handled, .defer (some 3)]

theorem timersOk_iff_oneExchange :
    ∃ s, Handling.accepted.run (fun _ _ => true) 16384 oneExchange = some s ∧
      (s.c.TimersOk ↔ s.c.TimersKept) :=
  ⟨_, rfl, @timersOk_iff 16384 oneExchange _ rfl nofun⟩

/-- The accepted connection and one with a part of its first request have no timer, the second
request of a connection is answered under the keepalive timer, and a switch to `writing` drops the
send timer. -/
theorem timers_missing :
    ¬ Handling.accepted.c.TimersOk ∧
    (∃ s, Handling.accepted.run (fun _ _ => true) 16384 [.readable, .handled] = some s ∧
      s.c.state = .reading ∧ s.c.recvTimer = none) ∧
    (∃ s, Handling.accepted.run (fun _ _ => true) 16384
        (oneExchange ++ [.readable, .advance ⟨.responseHeaders1, 1⟩, .handled]) = some s ∧
      s.c.state = .writing ∧ s.c.recvTimer = some .keepalive) ∧
    (∃ s, Handling.accepted.run (fun _ _ => true) 4096
        [.readable, .advance ⟨.responseBody, 1⟩, .respond 4096 none [1, 2, 3],
          .respond 4096 (some 1) [], .handled] = some s ∧
      s.c.Blocked ∧ s.c.sendTimer = none) := by
  refine ⟨fun h => ?_, ⟨_, rfl, rfl, rfl⟩, ⟨_, rfl, rfl, rfl⟩, ?_⟩
  · cases h.reading rfl
  · exact ⟨_, rfl, ⟨[1, 2, 3], 1, rfl, by decide⟩, rfl⟩

end Phorklift
