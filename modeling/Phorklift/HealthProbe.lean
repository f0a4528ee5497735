import Phorklift.Bytes
import Phorklift.HealthCheck
import Phorklift.Transition

/-! The probes of the active health check, from the connect to the outcome. -/

namespace Phorklift

open Transition

/-- The strings of a `healthcheck` table; `none` where one is NULL. -/
structure ProbeConf where
  limits : HealthLimits
  reqStr : Option Bytes
  respStr : Option Bytes

/-- The stream of a probe. -/
structure ProbeStream where
  established : Bool
  /-- how many bytes the socket has taken -/
  written : Nat
  /-- what has come and was not consumed -/
  received : Bytes
  deriving DecidableEq

/-- What a probe has come to, with its stream as it was. -/
structure ProbeResult where
  pass : Bool
  stream : Option ProbeStream
  deriving DecidableEq

/-- `address->healthcheck`, and the probes that are over. -/
structure AddressProbe where
  stream : Option ProbeStream
  healthcheck : HealthState
  results : List ProbeResult
  deriving DecidableEq

inductive ProbeAct
  /-- the timer; `written` is what the first write returns, `none` where no stream can be made -/
  | timer (written : Option Int)
  | established
  /-- `loop_stream_write` returns `written` -/
  | writable (written : Int)
  | read (data : Bytes)
  /-- the connection is refused, closed or timed out -/
  | close

/-- A time that `time(NULL)` returns. -/
abbrev Instant := {now : Nat // now ≠ 0}

/-- The comparison of `phl_upstream_healthcheck_on_read`, `none` where it waits for more. -/
def compareResponse (find : Bytes → Bytes → Bool) (respStr data : Bytes) : Option Bool :=
  match respStr with
  | 42 :: _ => some true
  | 61 :: str =>
    if data.length < str.length then none
    else if str.length < data.length then some false
    else some (data == str)
  | 126 :: str => some (find data str)
  | _ =>
    if data.length < respStr.length then none
    else some (data.take respStr.length == respStr)

namespace AddressProbe

def phlUpstreamHealthcheckDone (conf : ProbeConf) (now : Instant) (pass : Bool)
    (s : AddressProbe) : AddressProbe where
  stream := none
  healthcheck := Phorklift.phlUpstreamHealthcheckDone conf.limits s.healthcheck ⟨pass, now.1, now.2⟩
  results := s.results ++ [⟨pass, s.stream⟩]

/-- `none` where `resp_str` is NULL. -/
def phlUpstreamHealthcheckOnRead (conf : ProbeConf) (find : Bytes → Bytes → Bool) (now : Instant)
    (st : ProbeStream) (s : AddressProbe) : Option AddressProbe :=
  conf.respStr.map fun respStr =>
    let s := { s with stream := some st }
    match compareResponse find respStr st.received with
    | none => s
    | some pass => s.phlUpstreamHealthcheckDone conf now pass

def phlUpstreamHealthcheckOnWritable (conf : ProbeConf) (now : Instant) (written : Int)
    (st : ProbeStream) (s : AddressProbe) : AddressProbe :=
  match conf.reqStr with
  | none => { s with stream := some st }.phlUpstreamHealthcheckDone conf now true
  | some reqStr =>
    let st := { st with written := st.written + written.toNat }
    let s := { s with stream := some st }
    if written = 0 then s
    else if written ≠ reqStr.length then s.phlUpstreamHealthcheckDone conf now false
    else s

def phlUpstreamHealthcheckOnClose (conf : ProbeConf) (now : Instant) (s : AddressProbe) :
    AddressProbe :=
  s.phlUpstreamHealthcheckDone conf now false

/-- The callback of the timer calls that of a writable stream itself. -/
def phlUpstreamHealthcheckAddressHandler (conf : ProbeConf) (now : Instant)
    (written : Option Int) (s : AddressProbe) : AddressProbe :=
  if s.stream.isSome then s
  else match written with
    | none => s.phlUpstreamHealthcheckDone conf now false
    | some written => s.phlUpstreamHealthcheckOnWritable conf now written ⟨false, 0, []⟩

end AddressProbe

/-- What happens to a probe. A connection that is not established takes and brings no bytes. -/
def probeStep (conf : ProbeConf) (find : Bytes → Bytes → Bool) (s : AddressProbe) :
    ProbeAct × Instant → Option AddressProbe
  | (.timer written, now) =>
    if ∀ n ∈ written, n ≤ 0 then some (s.phlUpstreamHealthcheckAddressHandler conf now written)
    else none
  | (.established, _) =>
    s.stream.map fun st => { s with stream := some { st with established := true } }
  | (.writable written, now) =>
    s.stream.bind fun st =>
      if (0 < written → st.established = true) ∧ ∀ reqStr ∈ conf.reqStr, written ≤ reqStr.length then
        some (s.phlUpstreamHealthcheckOnWritable conf now written st)
      else none
  | (.read data, now) =>
    s.stream.bind fun st =>
      if st.established then
        s.phlUpstreamHealthcheckOnRead conf find now { st with received := st.received ++ data }
      else none
  | (.close, now) =>
    if s.stream.isSome then some (s.phlUpstreamHealthcheckOnClose conf now) else none

/-- An address of which nothing has been probed. -/
def AddressProbe.start : AddressProbe := ⟨none, .init, []⟩

/-- The comparison that `response` stands for. -/
def Satisfies (find : Bytes → Bytes → Bool) (respStr data : Bytes) : Prop :=
  respStr = [42] ∨ (∃ str, respStr = 61 :: str ∧ data = str) ∨
    (∃ str, respStr = 126 :: str ∧ find data str = true) ∨
    respStr.head? ≠ some 61 ∧ respStr.head? ≠ some 126 ∧ respStr <+: data

/-- A pass comes of a connection that was established, and of the whole request and an accepted
response where a request is configured. -/
def ProbeResult.Sound (conf : ProbeConf) (find : Bytes → Bytes → Bool) (r : ProbeResult) : Prop :=
  r.pass = true → ∃ st, r.stream = some st ∧ st.established = true ∧
    ∀ reqStr ∈ conf.reqStr, reqStr.length ≤ st.written ∧
      ∃ respStr, conf.respStr = some respStr ∧ Satisfies find respStr st.received

/-- A request is configured when a probe connects; and data that passes comes after the whole
request was taken, and begins with `response` where this is longer than its leading `*`. -/
def ProbeOk (conf : ProbeConf) (find : Bytes → Bytes → Bool) (s : AddressProbe) :
    ProbeAct × Instant → Prop
  | (.timer (some _), _) => s.stream = none → conf.reqStr ≠ none
  | (.read data, _) => ∀ st ∈ s.stream, ∀ reqStr ∈ conf.reqStr, ∀ respStr ∈ conf.respStr,
      compareResponse find respStr (st.received ++ data) = some true →
      reqStr.length ≤ st.written ∧
        (respStr.head? = some 42 → respStr = [42] ∨ respStr <+: st.received ++ data)
  | _ => True

section Probe

variable {conf : ProbeConf} {find : Bytes → Bytes → Bool} {s t : AddressProbe} {now : Instant}
  {respStr data : Bytes} {act : ProbeAct × Instant}

/-- A response that passes is accepted but for a longer `response` with a leading `*`. -/
theorem satisfies_iff (h : compareResponse find respStr data = some true) :
    Satisfies find respStr data ↔
      (respStr.head? = some 42 → respStr = [42] ∨ respStr <+: data) := by
  unfold compareResponse at h
  split at h
  next rest =>
    constructor
    · rintro (hstar | ⟨_, hstr, -⟩ | ⟨_, hstr, -⟩ | ⟨-, -, hprefix⟩) -
      · exact .inl hstar
      · cases hstr
      · cases hstr
      · exact .inr hprefix
    · intro himp
      rcases himp rfl with hstar | hprefix
      · exact .inl hstar
      · exact .inr (.inr (.inr ⟨by simp, by simp, hprefix⟩))
  next str =>
    refine iff_of_true (.inr (.inl ⟨str, rfl, ?_⟩)) (by simp)
    split at h
    next => cases h
    next =>
      split at h
      next => cases h
      next => simpa using h
  next str =>
    refine iff_of_true (.inr (.inr (.inl ⟨str, rfl, ?_⟩))) (by simp)
    simpa using h
  next hstar hequal htilde =>
    split at h
    next => cases h
    next =>
      have htake : data.take respStr.length = respStr := by simpa using h
      have hprefix : respStr <+: data := by
        rw [← htake]
        exact List.take_prefix _ _
      have hhead : ∀ c, (∀ str, respStr = c :: str → False) → respStr.head? ≠ some c := by
        intro c hnot hhead
        cases respStr with
        | nil => cases hhead
        | cons b str =>
          cases hhead
          exact hnot str rfl
      exact iff_of_true (.inr (.inr (.inr ⟨hhead _ hequal, hhead _ htilde, hprefix⟩)))
        fun _ => .inr hprefix

/-- The probes that are over, and one that ends now. -/
theorem done_sound (pass : Bool) :
    (∀ r ∈ (s.phlUpstreamHealthcheckDone conf now pass).results, r.Sound conf find) ↔
      (∀ r ∈ s.results, r.Sound conf find) ∧ (⟨pass, s.stream⟩ : ProbeResult).Sound conf find := by
  simp only [AddressProbe.phlUpstreamHealthcheckDone, List.forall_mem_append,
    List.forall_mem_singleton]

theorem fail_sound (st : Option ProbeStream) : (⟨false, st⟩ : ProbeResult).Sound conf find := by
  intro hpass
  cases hpass

/-- A writable stream ends the probe as passed where no request is configured, and only there. -/
theorem onWritable_sound {written : Int} {st : ProbeStream} :
    (∀ r ∈ (s.phlUpstreamHealthcheckOnWritable conf now written st).results, r.Sound conf find) ↔
      (∀ r ∈ s.results, r.Sound conf find) ∧
        (conf.reqStr = none → st.established = true) := by
  unfold AddressProbe.phlUpstreamHealthcheckOnWritable
  cases hreq : conf.reqStr with
  | none =>
    dsimp only
    rw [done_sound]
    refine and_congr_right fun _ => ?_
    constructor
    · intro hsound _
      obtain ⟨st', hst, hestablished, -⟩ := hsound rfl
      cases hst
      exact hestablished
    · intro hestablished _
      refine ⟨st, rfl, hestablished rfl, ?_⟩
      rw [hreq]
      exact nofun
  | some reqStr =>
    dsimp only
    rw [and_iff_left (fun hnone => by cases hnone)]
    split
    next => exact Iff.rfl
    next =>
      split
      next =>
        rw [done_sound, and_iff_left (fail_sound _)]
      next => exact Iff.rfl

/-- Only a probe with a request goes on behind its first write. -/
theorem onWritable_stream {written : Int} {st : ProbeStream}
    (h : (s.phlUpstreamHealthcheckOnWritable conf now written st).stream ≠ none) :
    conf.reqStr ≠ none := by
  intro hnone
  unfold AddressProbe.phlUpstreamHealthcheckOnWritable at h
  rw [hnone] at h
  exact h rfl

/-- A response that passes is sound where the request was written and it is accepted. -/
theorem read_pass_sound_iff (st : ProbeStream) {reqStr : Bytes}
    (hreqStr : conf.reqStr = some reqStr) (hresp : conf.respStr = some respStr)
    (hestablished : st.established = true)
    (hcompare : compareResponse find respStr st.received = some true) :
    (⟨true, some st⟩ : ProbeResult).Sound conf find ↔
      reqStr.length ≤ st.written ∧
        (respStr.head? = some 42 → respStr = [42] ∨ respStr <+: st.received) := by
  have hiff := satisfies_iff hcompare
  constructor
  · intro hsound
    obtain ⟨st', hst', -, hall⟩ := hsound rfl
    cases hst'
    obtain ⟨hwritten, resp, hresp', hsatisfies⟩ := hall reqStr hreqStr
    rw [hresp] at hresp'
    cases hresp'
    exact ⟨hwritten, hiff.mp hsatisfies⟩
  · rintro ⟨hwritten, hstar⟩ -
    refine ⟨_, rfl, hestablished, fun reqStr' hreqStr' => ?_⟩
    rw [hreqStr] at hreqStr'
    cases hreqStr'
    exact ⟨hwritten, respStr, hresp, hiff.mpr hstar⟩

/-- A probe that starts; one that is open is left alone. -/
theorem timer_keeps (hs : s.stream ≠ none → conf.reqStr ≠ none) (written : Option Int) :
    ((s.phlUpstreamHealthcheckAddressHandler conf now written).stream ≠ none →
        conf.reqStr ≠ none) ∧
      ((∀ r ∈ (s.phlUpstreamHealthcheckAddressHandler conf now written).results,
          r.Sound conf find) ↔
        (∀ r ∈ s.results, r.Sound conf find) ∧ ProbeOk conf find s (.timer written, now)) := by
  unfold AddressProbe.phlUpstreamHealthcheckAddressHandler
  cases hstream : s.stream with
  | some st =>
    have hok : ProbeOk conf find s (.timer written, now) := by
      cases written with
      | none => trivial
      | some n =>
        intro hnone
        rw [hstream] at hnone
        cases hnone
    simp only [Option.isSome_some, if_true]
    exact ⟨hs, (and_iff_left hok).symm⟩
  | none =>
    simp only [Option.isSome_none, Bool.false_eq_true, if_false]
    cases written with
    | none =>
      refine ⟨fun hne => absurd rfl hne, ?_⟩
      have hok : ProbeOk conf find s (.timer none, now) := trivial
      rw [done_sound, and_iff_left hok, and_iff_left (fail_sound _)]
    | some n =>
      refine ⟨onWritable_stream, onWritable_sound.trans (and_congr_right fun _ => ?_)⟩
      simp [ProbeOk, hstream]

theorem probeStep_keeps (hs : s.stream ≠ none → conf.reqStr ≠ none)
    (hstep : probeStep conf find s act = some t) :
    (t.stream ≠ none → conf.reqStr ≠ none) ∧
      ((∀ r ∈ t.results, r.Sound conf find) ↔
        (∀ r ∈ s.results, r.Sound conf find) ∧ ProbeOk conf find s act) := by
  obtain ⟨act, now⟩ := act
  cases act with
  | timer written =>
    obtain ⟨-, rfl⟩ : _ ∧ _ = t := by simpa [probeStep] using hstep
    exact timer_keeps hs written
  | established =>
    obtain ⟨st, hst, rfl⟩ := Option.map_eq_some_iff.mp hstep
    have hok : ProbeOk conf find s (.established, now) := trivial
    refine ⟨fun _ => hs (by rw [hst]; simp), (and_iff_left hok).symm⟩
  | writable written =>
    obtain ⟨st, hst, hstep⟩ := Option.bind_eq_some_iff.mp hstep
    obtain ⟨-, hstep⟩ := Option.ite_none_right_eq_some.mp hstep
    cases hstep
    have hreq : conf.reqStr ≠ none := hs (by rw [hst]; simp)
    have hok : ProbeOk conf find s (.writable written, now) := trivial
    refine ⟨onWritable_stream, ?_⟩
    rw [onWritable_sound, and_iff_left hok, and_iff_left fun hnone => absurd hnone hreq]
  | read data =>
    obtain ⟨st, hst, hstep⟩ := Option.bind_eq_some_iff.mp hstep
    obtain ⟨hestablished, hstep⟩ := Option.ite_none_right_eq_some.mp hstep
    obtain ⟨respStr, hresp, hstep⟩ := Option.map_eq_some_iff.mp hstep
    have hreq : conf.reqStr ≠ none := hs (by rw [hst]; simp)
    obtain ⟨reqStr, hreqStr⟩ := Option.ne_none_iff_exists'.mp hreq
    dsimp only at hstep
    have hok : ProbeOk conf find s (.read data, now) ↔
        (compareResponse find respStr (st.received ++ data) = some true →
          reqStr.length ≤ st.written ∧
            (respStr.head? = some 42 → respStr = [42] ∨ respStr <+: st.received ++ data)) := by
      simp [ProbeOk, hst, hreqStr, hresp]
    rw [hok]
    cases hcompare : compareResponse find respStr (st.received ++ data) with
    | none =>
      rw [hcompare] at hstep
      rw [← hstep]
      exact ⟨fun _ => hreq, (and_iff_left (fun hpass => by cases hpass)).symm⟩
    | some pass =>
      rw [hcompare] at hstep
      dsimp only at hstep
      rw [← hstep, done_sound]
      refine ⟨fun hne => absurd rfl hne, and_congr_right fun _ => ?_⟩
      cases pass with
      | false => exact iff_of_true (fail_sound _) fun hpass => by cases hpass
      | true =>
        rw [read_pass_sound_iff { st with received := st.received ++ data } hreqStr hresp
          hestablished hcompare]
        exact ⟨fun hpass _ => hpass, fun himp => himp rfl⟩
  | close =>
    obtain ⟨-, hstep⟩ := Option.ite_none_right_eq_some.mp hstep
    cases hstep
    have hok : ProbeOk conf find s (.close, now) := trivial
    refine ⟨fun hne => absurd rfl hne, ?_⟩
    unfold AddressProbe.phlUpstreamHealthcheckOnClose
    rw [done_sound, and_iff_left hok, and_iff_left (fail_sound _)]

/-- Every pass of a run is sound exactly where each of its events meets the condition. -/
theorem passes_sound_iff {acts : List (ProbeAct × Instant)}
    (h : runActs (probeStep conf find) acts .start = some t) :
    (∀ r ∈ t.results, r.Sound conf find) ↔
      ActsMeet (probeStep conf find) (ProbeOk conf find) acts .start := by
  have hkeep : ∀ (s : AddressProbe) (act : ProbeAct × Instant) (t : AddressProbe),
      (s.stream ≠ none → conf.reqStr ≠ none) → probeStep conf find s act = some t →
      (t.stream ≠ none → conf.reqStr ≠ none) ∧
        ((∀ r ∈ t.results, r.Sound conf find) ↔
          (∀ r ∈ s.results, r.Sound conf find) ∧ ProbeOk conf find s act) :=
    fun _ _ _ => probeStep_keeps
  rw [actsMeet_iff_of_step hkeep (fun hne => absurd rfl hne) h]
  exact and_iff_right (List.forall_mem_nil _)

end Probe

/-- A probe that writes `PING` and is answered with `OK`. -/
def pingConf : ProbeConf where
  limits := ⟨1, 3, by decide, by decide, by decide⟩
  reqStr := some (bytes "PING")
  respStr := some (bytes "OK")

def noFind (_ _ : Bytes) : Bool := false

def firstInstant : Instant := ⟨1, by decide⟩

/-- Up to the whole of the answer. -/
theorem passes_sound_iff_ping :
    let acts : List (ProbeAct × Instant) := [.timer (some 0), .established, .writable 4,
      .read (bytes "O"), .read (bytes "K")].map fun act => (act, firstInstant)
    let t : AddressProbe :=
      ⟨none, ⟨0, 0, 1⟩, [⟨true, some ⟨true, 4, bytes "OK"⟩⟩]⟩
    runActs (probeStep pingConf noFind) acts .start = some t ∧
    ((∀ r ∈ t.results, r.Sound pingConf noFind) ↔
      ActsMeet (probeStep pingConf noFind) (ProbeOk pingConf noFind) acts .start) := by
  intro acts t
  have hrun : runActs (probeStep pingConf noFind) acts .start = some t := by decide +kernel
  exact ⟨hrun, passes_sound_iff hrun⟩

/-- Without a request the probe passes as soon as the connect has begun, and is refused later; with
one it passes on what the peer says first. -/
theorem passes_unsound :
    (∃ t, runActs (probeStep { pingConf with reqStr := none } noFind)
        [(.timer (some 0), firstInstant)] .start = some t ∧
      t.results = [⟨true, some ⟨false, 0, []⟩⟩] ∧
      ¬∀ r ∈ t.results, r.Sound { pingConf with reqStr := none } noFind) ∧
    ∃ t, runActs (probeStep pingConf noFind)
        [(.timer (some 0), firstInstant), (.established, firstInstant),
          (.read (bytes "OK"), firstInstant)] .start = some t ∧
      t.results = [⟨true, some ⟨true, 0, bytes "OK"⟩⟩] ∧
      ¬∀ r ∈ t.results, r.Sound pingConf noFind := by
  refine ⟨⟨⟨none, ⟨0, 0, 1⟩, [⟨true, some ⟨false, 0, []⟩⟩]⟩, by decide +kernel, rfl, ?_⟩,
    ⟨⟨none, ⟨0, 0, 1⟩, [⟨true, some ⟨true, 0, bytes "OK"⟩⟩]⟩, by decide +kernel, rfl, ?_⟩⟩
  · intro hall
    obtain ⟨st, hst, hestablished, -⟩ := hall _ List.mem_cons_self rfl
    cases hst
    cases hestablished
  · intro hall
    obtain ⟨st, hst, -, hrequest⟩ := hall _ List.mem_cons_self rfl
    cases hst
    have hwritten := (hrequest (bytes "PING") rfl).1
    have hnot : ¬(bytes "PING").length ≤ 0 := by decide
    exact hnot hwritten

end Phorklift
