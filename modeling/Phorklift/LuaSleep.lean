import Phorklift.Transition
import Mathlib.Logic.Function.Basic

/-! `phl.sleep` of the Lua API: the timers, the threads and `phl_lua_api_current`. -/

namespace Phorklift

open Transition

/-- `loop_timer_t` -/
structure LoopTimer where
  expireAt : Int
  /-- it has neither expired nor been deleted -/
  armed : Bool

/-- `L` while it is suspended, with `current_entry`. -/
structure LuaThread where
  entry : Nat
  /-- what `phl_lua_api_sleep_resume` has as its argument, `none` for the other resume handlers -/
  timer : Option Nat

structure SleepRequest where
  father : Option Nat
  closed : Bool
  /-- `phl_request_do_close` has put it on the list of requests to free -/
  freed : Bool
  /-- `none` where `L` is NULL -/
  thread : Option LuaThread

inductive SleepEvent
  /-- a script has called `phl.sleep` -/
  | slept (r timer : Nat) (expireAt : Int)
  /-- the timer has expired and runs the request `r` -/
  | woken (timer r : Nat) (closed : Bool) (now : Int)
  /-- the script goes on after its sleep -/
  | continued (r timer : Nat)
  deriving DecidableEq

structure SleepWorld where
  requests : Nat → SleepRequest
  next : Nat
  timers : Nat → LoopTimer
  nextTimer : Nat
  /-- `phl_lua_api_current` -/
  current : Option Nat
  now : Int
  log : List SleepEvent

/-- What `lua_resume` ends with. -/
inductive ThreadEnd
  | sleep (after : Int)
  /-- another function of the API yields, or its resume handler has returned `PHL_AGAIN` -/
  | yield
  | finish

/-- The calls in the order in which they take effect. -/
inductive SleepAct
  /-- `phl_request_new` -/
  | accept (father : Option Nat)
  /-- `phl_lua_call`, where `phl.sleep` sets its timer and cannot yield -/
  | luaCall (r : Nat) (sleep : Option Int)
  /-- `phl_lua_thread_run` -/
  | threadRun (r entry : Nat) (ended : ThreadEnd)
  /-- `phl_request_close` -/
  | close (r : Nat)
  /-- `phl_request_subr_close` -/
  | subrClose (r : Nat)
  | tick (ms : Nat)
  /-- `phl_lua_api_sleep_timeout` -/
  | expire (timer : Nat)

namespace SleepWorld

def put (w : SleepWorld) (r : Nat) (q : SleepRequest) : SleepWorld :=
  { w with requests := Function.update w.requests r q }

def setThread (w : SleepWorld) (r : Nat) (thread : Option LuaThread) : SleepWorld :=
  w.put r { w.requests r with thread := thread }

def setTimer (w : SleepWorld) (t : Nat) (timer : LoopTimer) : SleepWorld :=
  { w with timers := Function.update w.timers t timer }

def write (w : SleepWorld) (e : SleepEvent) : SleepWorld :=
  { w with log := w.log ++ [e] }

/-- The timer is not set any more. -/
def disarm (w : SleepWorld) (t : Nat) : SleepWorld :=
  w.setTimer t { w.timers t with armed := false }

/-- `phl_lua_api_sleep` up to where it yields; the timer is the one before `nextTimer`. -/
def phlLuaApiSleep (w : SleepWorld) (r : Nat) (after : Int) : SleepWorld :=
  { (w.setTimer w.nextTimer ⟨w.now + after, true⟩).write
      (.slept r w.nextTimer (w.now + after)) with
    nextTimer := w.nextTimer + 1 }

def luaResume (w : SleepWorld) (r entry : Nat) : ThreadEnd → SleepWorld
  | .sleep after => (w.phlLuaApiSleep r after).setThread r (some ⟨entry, some w.nextTimer⟩)
  | .yield => w.setThread r (some ⟨entry, none⟩)
  | .finish => w.setThread r none

/-- A thread of another entry is forgotten with its timer. -/
def phlLuaThreadRun (w : SleepWorld) (r entry : Nat) (ended : ThreadEnd) : SleepWorld :=
  let w := { w with current := some r }
  match (w.requests r).thread with
  | some ⟨e, some t⟩ =>
    if e = entry then ((w.disarm t).write (.continued r t)).luaResume r entry ended
    else w.luaResume r entry ended
  | _ => w.luaResume r entry ended

def phlLuaThreadKill (w : SleepWorld) (r : Nat) : SleepWorld :=
  match (w.requests r).thread with
  | some ⟨_, some t⟩ => (w.disarm t).setThread r none
  | _ => w.setThread r none

def phlRequestDoClose (w : SleepWorld) (r : Nat) : SleepWorld :=
  let w := w.phlLuaThreadKill r
  w.put r { w.requests r with freed := true }

def phlRequestClose (w : SleepWorld) (r : Nat) : SleepWorld :=
  let w := w.put r { w.requests r with closed := true }
  match (w.requests r).father with
  | some _ => w
  | none => w.phlRequestDoClose r

/-- Whether the script of a request is suspended in `phl.sleep` with this timer. -/
def Asleep (w : SleepWorld) (r t : Nat) : Prop :=
  ((w.requests r).thread.bind LuaThread.timer) = some t

instance (w : SleepWorld) (r t : Nat) : Decidable (w.Asleep r t) :=
  inferInstanceAs (Decidable (_ = _))

end SleepWorld

open SleepWorld

def sleepStep (w : SleepWorld) : SleepAct → Option SleepWorld
  | .accept father =>
    some { w.put w.next ⟨father, false, false, none⟩ with next := w.next + 1 }
  | .luaCall r sleep =>
    if r < w.next ∧ (w.requests r).freed = false then
      let w := { w with current := some r }
      some (match sleep with
        | some after => w.phlLuaApiSleep r after
        | none => w)
    else none
  | .threadRun r entry ended =>
    if r < w.next ∧ (w.requests r).closed = false ∧ (w.requests r).freed = false then
      some (w.phlLuaThreadRun r entry ended)
    else none
  | .close r =>
    if r < w.next ∧ (w.requests r).closed = false ∧ (w.requests r).freed = false then
      some (w.phlRequestClose r)
    else none
  | .subrClose r =>
    if (w.requests r).father.isSome ∧ (w.requests r).freed = false then
      some (w.phlRequestDoClose r)
    else none
  | .tick ms => some { w with now := w.now + ms }
  | .expire t =>
    if (w.timers t).armed ∧ (w.timers t).expireAt ≤ w.now then
      w.current.map fun r =>
        (w.disarm t).write
          (.woken t r ((w.requests r).closed || (w.requests r).freed) w.now)
    else none

/-- A timer is one request's; it wakes that request, which is open, when its time has come; and a
script goes on after its sleep when its own timer has woken it. -/
def sleptRight (pre : List SleepEvent) : SleepEvent → Prop
  | .slept _ t _ => ∀ r at_, SleepEvent.slept r t at_ ∉ pre
  | .woken t r closed now =>
    closed = false ∧ ∃ at_, SleepEvent.slept r t at_ ∈ pre ∧ at_ ≤ now
  | .continued r t => ∃ now, SleepEvent.woken t r false now ∈ pre

/-- A timer expires while the request that sleeps on it is open and was the last to enter Lua; and
nothing else runs the script that sleeps. -/
def Unmixed (w : SleepWorld) : SleepAct → Prop
  | .expire t => ∃ r, w.current = some r ∧ w.Asleep r t ∧ (w.requests r).closed = false
  | .threadRun r entry _ =>
    ∀ t, (w.requests r).thread = some ⟨entry, some t⟩ → (w.timers t).armed = false
  | _ => True

section SleepSteps

variable {w w' : SleepWorld} {r t entry : Nat} {q : SleepRequest} {e : SleepEvent} {after : Int}
  {timer : LoopTimer} {thread : Option LuaThread} {ended : ThreadEnd} {act : SleepAct}

namespace SleepWorld

theorem put_same : (w.put r q).requests r = q := by
  rw [put]
  exact Function.update_self _ _ _

theorem put_ne {s : Nat} (hs : s ≠ r) : (w.put r q).requests s = w.requests s := by
  rw [put]
  exact Function.update_of_ne hs _ _

theorem disarm_same : (w.disarm t).timers t = { w.timers t with armed := false } :=
  Function.update_self t _ w.timers

theorem disarm_ne {u : Nat} (hu : u ≠ t) : (w.disarm t).timers u = w.timers u :=
  Function.update_of_ne hu _ w.timers

theorem asleep_put (hq : q.thread = (w.requests r).thread) {s u : Nat} :
    (w.put r q).Asleep s u ↔ w.Asleep s u := by
  by_cases hs : s = r
  · rw [hs, Asleep, put_same, hq, Asleep]
  · rw [Asleep, put_ne hs, Asleep]

theorem asleep_setThread_ne {s u : Nat} (hs : s ≠ r) :
    (w.setThread r thread).Asleep s u ↔ w.Asleep s u := by
  rw [Asleep, setThread, put_ne hs, Asleep]

theorem asleep_setThread_same {u : Nat} :
    (w.setThread r thread).Asleep r u ↔ thread.bind LuaThread.timer = some u := by
  rw [Asleep, setThread, put_same]

end SleepWorld

/-- What holds between the steps. -/
structure SleepInv (w : SleepWorld) : Prop where
  fresh : ∀ r t at_, SleepEvent.slept r t at_ ∈ w.log → t < w.nextTimer
  apart : ∀ r s t, w.Asleep r t → w.Asleep s t → r = s
  asleep : ∀ r t, w.Asleep r t → SleepEvent.slept r t (w.timers t).expireAt ∈ w.log
  pending : ∀ r t, w.Asleep r t →
    (w.timers t).armed = true ∨ ∃ now, SleepEvent.woken t r false now ∈ w.log
  killed : ∀ r, (w.requests r).freed = true → (w.requests r).thread = none
  owned : Each sleptRight w.log

/-- The parts that a step does not touch carry the invariant over. -/
theorem SleepInv.same (h : SleepInv w) (hasleep : ∀ r t, w'.Asleep r t → w.Asleep r t)
    (hkilled : ∀ r, (w'.requests r).freed = true → (w'.requests r).thread = none)
    (htimers : w'.timers = w.timers) (hnext : w'.nextTimer = w.nextTimer)
    (hlog : w'.log = w.log) : SleepInv w' where
  fresh := by
    rw [hlog, hnext]
    exact h.fresh
  apart := fun r s t hr hs => h.apart r s t (hasleep r t hr) (hasleep s t hs)
  asleep := by
    rw [hlog, htimers]
    exact fun r t hr => h.asleep r t (hasleep r t hr)
  pending := by
    rw [hlog, htimers]
    exact fun r t hr => h.pending r t (hasleep r t hr)
  killed := hkilled
  owned := by
    rw [hlog]
    exact h.owned

theorem SleepInv.forget (h : SleepInv w) (hthread : thread.bind LuaThread.timer = none)
    (hfreed : (w.requests r).freed = true → thread = none) : SleepInv (w.setThread r thread) := by
  refine h.same ?_ ?_ rfl rfl rfl
  · intro s u hs
    by_cases hsr : s = r
    · rw [hsr, asleep_setThread_same, hthread] at hs
      cases hs
    · exact (asleep_setThread_ne hsr).mp hs
  · intro s hs
    by_cases hsr : s = r
    · rw [hsr, setThread, put_same] at hs ⊢
      exact hfreed hs
    · rw [setThread, put_ne hsr] at hs ⊢
      exact h.killed s hs

/-- A timer is stopped that nobody sleeps on, or that has already woken who does. -/
theorem SleepInv.disarm (h : SleepInv w)
    (hwoken : ∀ r, w.Asleep r t → ∃ now, SleepEvent.woken t r false now ∈ w.log) :
    SleepInv (w.disarm t) where
  fresh := h.fresh
  apart := h.apart
  asleep := by
    intro s u hs
    by_cases hu : u = t
    · rw [hu] at hs ⊢
      rw [disarm_same]
      exact h.asleep s t hs
    · rw [disarm_ne hu]
      exact h.asleep s u hs
  pending := by
    intro s u hs
    by_cases hu : u = t
    · rw [hu] at hs ⊢
      exact .inr (hwoken s hs)
    · rw [disarm_ne hu]
      exact h.pending s u hs
  killed := h.killed
  owned := h.owned

theorem SleepInv.write (h : SleepInv w) (he : sleptRight w.log e)
    (hfresh : ∀ r t at_, e ≠ .slept r t at_) : SleepInv (w.write e) where
  fresh := by
    intro s u at_ hmem
    rcases List.mem_append.mp hmem with hmem | hmem
    · exact h.fresh s u at_ hmem
    · exact absurd (List.mem_singleton.mp hmem).symm (hfresh s u at_)
  apart := h.apart
  asleep := fun s u hs => List.mem_append_left _ (h.asleep s u hs)
  pending := by
    intro s u hs
    rcases h.pending s u hs with harmed | ⟨now, hmem⟩
    · exact .inl harmed
    · exact .inr ⟨now, List.mem_append_left _ hmem⟩
  killed := h.killed
  owned := each_snoc.mpr ⟨h.owned, he⟩

theorem SleepInv.lt (h : SleepInv w) (hr : w.Asleep r t) : t < w.nextTimer :=
  h.fresh r t _ (h.asleep r t hr)

theorem SleepInv.phlLuaApiSleep (h : SleepInv w) (r : Nat) (after : Int) : SleepInv (w.phlLuaApiSleep r after) := by
  have hold : ∀ u, u ≠ w.nextTimer → (w.phlLuaApiSleep r after).timers u = w.timers u :=
    fun u hu => Function.update_of_ne hu _ w.timers
  constructor
  · intro s u at_ hmem
    rcases List.mem_append.mp hmem with hmem | hmem
    · have hlt := h.fresh s u at_ hmem
      show u < w.nextTimer + 1
      omega
    · cases List.mem_singleton.mp hmem
      exact Nat.lt_succ_self _
  · exact h.apart
  · intro s u hs
    have hlt := h.lt hs
    rw [hold u (by omega)]
    exact List.mem_append_left _ (h.asleep s u hs)
  · intro s u hs
    have hlt := h.lt hs
    rw [hold u (by omega)]
    rcases h.pending s u hs with harmed | ⟨now, hmem⟩
    · exact .inl harmed
    · exact .inr ⟨now, List.mem_append_left _ hmem⟩
  · exact h.killed
  · refine each_snoc.mpr ⟨h.owned, ?_⟩
    intro s at_ hmem
    have hlt := h.fresh s _ at_ hmem
    omega

theorem SleepInv.luaResume (h : SleepInv w) (hfreed : (w.requests r).freed = false) :
    SleepInv (w.luaResume r entry ended) := by
  have hopen : ∀ {th : Option LuaThread}, (w.requests r).freed = true → th = none := by
    intro th hf
    rw [hfreed] at hf
    cases hf
  cases ended with
  | yield => exact h.forget rfl hopen
  | finish => exact h.forget rfl hopen
  | sleep after =>
    have hs := h.phlLuaApiSleep r after
    have hasleep : ∀ s u, (w.luaResume r entry (.sleep after)).Asleep s u →
        s = r ∧ u = w.nextTimer ∨ s ≠ r ∧ w.Asleep s u := by
      intro s u hsu
      by_cases hsr : s = r
      · rw [hsr] at hsu
        exact .inl ⟨hsr, (Option.some.inj (asleep_setThread_same.mp hsu)).symm⟩
      · exact .inr ⟨hsr, (asleep_setThread_ne hsr).mp hsu⟩
    have htimer : (w.phlLuaApiSleep r after).timers w.nextTimer = ⟨w.now + after, true⟩ :=
      Function.update_self _ _ w.timers
    constructor
    · exact hs.fresh
    · intro a b u ha hb
      rcases hasleep a u ha with ⟨ha, hu⟩ | ⟨-, ha⟩
      · rcases hasleep b u hb with ⟨hb, -⟩ | ⟨-, hb⟩
        · rw [ha, hb]
        · have hlt := h.lt hb
          omega
      · rcases hasleep b u hb with ⟨-, hu⟩ | ⟨-, hb⟩
        · have hlt := h.lt ha
          omega
        · exact h.apart a b u ha hb
    · intro a u ha
      rcases hasleep a u ha with ⟨ha, hu⟩ | ⟨-, ha⟩
      · rw [ha, hu]
        show _ ∈ w.log ++ [_]
        apply List.mem_append_right
        show SleepEvent.slept r w.nextTimer
          ((w.phlLuaApiSleep r after).timers w.nextTimer).expireAt ∈ _
        rw [htimer]
        exact List.mem_singleton.mpr rfl
      · exact hs.asleep a u ha
    · intro a u ha
      rcases hasleep a u ha with ⟨-, hu⟩ | ⟨-, ha⟩
      · left
        rw [hu]
        show ((w.phlLuaApiSleep r after).timers w.nextTimer).armed = true
        rw [htimer]
      · exact hs.pending a u ha
    · intro a ha
      by_cases har : a = r
      · rw [har] at ha
        have hsame := congrArg SleepRequest.freed (put_same (w := w.phlLuaApiSleep r after) (r := r)
          (q := { w.requests r with thread := some ⟨entry, some w.nextTimer⟩ }))
        exact absurd (hfreed.symm.trans (hsame.symm.trans ha)) nofun
      · have hsame : (w.luaResume r entry (.sleep after)).requests a = w.requests a := put_ne har
        rw [hsame] at ha ⊢
        exact h.killed a ha
    · exact hs.owned

/-- Only the script's own timer, after it has woken the request, lets it go on. -/
theorem SleepInv.phlLuaThreadRun (h : SleepInv w) (hfreed : (w.requests r).freed = false)
    (hok : Unmixed w (.threadRun r entry ended)) : SleepInv (w.phlLuaThreadRun r entry ended) := by
  have hcurrent : SleepInv { w with current := some r } :=
    h.same (fun _ _ hs => hs) h.killed rfl rfl rfl
  unfold SleepWorld.phlLuaThreadRun
  dsimp only
  split
  next e t hthread =>
    split
    next he =>
      rw [he] at hthread
      have hr : w.Asleep r t := by rw [Asleep, hthread, Option.bind_some]
      have hwoken : ∃ now, SleepEvent.woken t r false now ∈ w.log := by
        rcases h.pending r t hr with harmed | hwoken
        · have hexpired := hok t hthread
          rw [harmed] at hexpired
          cases hexpired
        · exact hwoken
      have hstopped := hcurrent.disarm (t := t) fun s hs => by
        rw [h.apart s r t hs hr]
        exact hwoken
      exact (hstopped.write (e := .continued r t) hwoken nofun).luaResume hfreed
    next => exact hcurrent.luaResume hfreed
  next => exact hcurrent.luaResume hfreed

theorem SleepInv.phlLuaThreadKill (h : SleepInv w) : SleepInv (w.phlLuaThreadKill r) := by
  have hnone : SleepInv (w.setThread r none) := h.forget rfl fun _ => rfl
  unfold SleepWorld.phlLuaThreadKill
  split
  next e t hthread =>
    have hr : w.Asleep r t := by rw [Asleep, hthread, Option.bind_some]
    have hcomm : (w.disarm t).setThread r none = (w.setThread r none).disarm t := rfl
    rw [hcomm]
    refine hnone.disarm ?_
    intro s hs
    by_cases hsr : s = r
    · rw [hsr] at hs
      cases asleep_setThread_same.mp hs
    · exact absurd (h.apart s r t ((asleep_setThread_ne hsr).mp hs) hr) hsr
  next => exact hnone

theorem thread_of_kill : ((w.phlLuaThreadKill r).requests r).thread = none := by
  unfold SleepWorld.phlLuaThreadKill
  split
  · exact congrArg SleepRequest.thread put_same
  · exact congrArg SleepRequest.thread put_same

theorem SleepInv.phlRequestDoClose (h : SleepInv w) : SleepInv (w.phlRequestDoClose r) := by
  refine (h.phlLuaThreadKill (r := r)).same ?_ ?_ rfl rfl rfl
  · intro s u hs
    exact (asleep_put (w := w.phlLuaThreadKill r) (r := r)
      (q := { (w.phlLuaThreadKill r).requests r with freed := true }) rfl).mp hs
  · intro s hs
    by_cases hsr : s = r
    · rw [hsr]
      exact (congrArg SleepRequest.thread put_same).trans thread_of_kill
    · have hsame : (w.phlRequestDoClose r).requests s = (w.phlLuaThreadKill r).requests s :=
        put_ne hsr
      rw [hsame] at hs ⊢
      exact (h.phlLuaThreadKill (r := r)).killed s hs

theorem SleepInv.phlRequestClose (h : SleepInv w) : SleepInv (w.phlRequestClose r) := by
  have hclosed : SleepInv (w.put r { w.requests r with closed := true }) := by
    refine h.same ?_ ?_ rfl rfl rfl
    · intro s u hs
      exact (asleep_put (w := w) (r := r) (q := { w.requests r with closed := true }) rfl).mp hs
    · intro s hs
      by_cases hsr : s = r
      · rw [hsr, put_same] at hs ⊢
        exact h.killed r hs
      · rw [put_ne hsr] at hs ⊢
        exact h.killed s hs
  unfold SleepWorld.phlRequestClose
  dsimp only
  split
  · exact hclosed
  · exact hclosed.phlRequestDoClose

theorem SleepInv.expire (h : SleepInv w) (hr : w.Asleep r t)
    (hclosed : (w.requests r).closed = false) (hdue : (w.timers t).expireAt ≤ w.now) :
    SleepInv ((w.disarm t).write
      (.woken t r ((w.requests r).closed || (w.requests r).freed) w.now)) := by
  have hfreed : (w.requests r).freed = false := by
    rw [← Bool.not_eq_true]
    intro hf
    rw [Asleep, h.killed r hf] at hr
    cases hr
  rw [hclosed, hfreed]
  have hright : sleptRight w.log (.woken t r false w.now) :=
    ⟨rfl, _, h.asleep r t hr, hdue⟩
  have hwritten : SleepInv (w.write (.woken t r false w.now)) := h.write hright nofun
  refine hwritten.disarm ?_
  intro s hs
  rw [h.apart s r t hs hr]
  exact ⟨w.now, List.mem_append_right _ (List.mem_singleton.mpr rfl)⟩

theorem accept_asleep (h : SleepInv w) (father : Option Nat) :
    SleepInv { w.put w.next ⟨father, false, false, none⟩ with next := w.next + 1 } := by
  refine h.same ?_ ?_ rfl rfl rfl
  · intro s u hs
    by_cases hsr : s = w.next
    · rw [hsr, Asleep] at hs
      change ((w.put w.next _).requests w.next).thread.bind _ = _ at hs
      rw [put_same] at hs
      cases hs
    · change ((w.put w.next _).requests s).thread.bind _ = _ at hs
      rw [put_ne hsr] at hs
      exact hs
  · intro s hs
    by_cases hsr : s = w.next
    · rw [hsr]
      exact congrArg SleepRequest.thread put_same
    · change ((w.put w.next _).requests s).freed = true at hs
      change ((w.put w.next _).requests s).thread = none
      rw [put_ne hsr] at hs ⊢
      exact h.killed s hs

theorem sleepStep_keeps (h : SleepInv w) (hok : Unmixed w act)
    (hstep : sleepStep w act = some w') : SleepInv w' := by
  cases act with
  | accept father =>
    cases hstep
    exact accept_asleep h father
  | luaCall r sleep =>
    simp only [sleepStep, Option.ite_none_right_eq_some] at hstep
    obtain ⟨-, hw'⟩ := hstep
    have hcurrent : SleepInv { w with current := some r } :=
      h.same (fun _ _ hs => hs) h.killed rfl rfl rfl
    cases sleep with
    | none =>
      cases hw'
      exact hcurrent
    | some after =>
      cases hw'
      exact hcurrent.phlLuaApiSleep _ _
  | threadRun r entry ended =>
    simp only [sleepStep, Option.ite_none_right_eq_some] at hstep
    obtain ⟨⟨-, -, hfreed⟩, hw'⟩ := hstep
    cases hw'
    exact h.phlLuaThreadRun hfreed hok
  | close r =>
    simp only [sleepStep, Option.ite_none_right_eq_some] at hstep
    obtain ⟨-, hw'⟩ := hstep
    cases hw'
    exact h.phlRequestClose
  | subrClose r =>
    simp only [sleepStep, Option.ite_none_right_eq_some] at hstep
    obtain ⟨-, hw'⟩ := hstep
    cases hw'
    exact h.phlRequestDoClose
  | tick ms =>
    cases hstep
    exact h.same (fun _ _ hs => hs) h.killed rfl rfl rfl
  | expire t =>
    simp only [sleepStep, Option.ite_none_right_eq_some] at hstep
    obtain ⟨⟨-, hdue⟩, hw'⟩ := hstep
    obtain ⟨r, hcurrent, hr, hclosed⟩ := hok
    rw [hcurrent] at hw'
    cases hw'
    exact h.expire hr hclosed hdue

/-- The worker has had no request yet. -/
structure SleepStart (w : SleepWorld) : Prop where
  requests : ∀ r, (w.requests r).thread = none
  log : w.log = []

theorem sleepStart_keeps (h : SleepStart w) : SleepInv w := by
  have hasleep : ∀ r t, ¬w.Asleep r t := by
    intro r t hr
    rw [Asleep, h.requests r] at hr
    cases hr
  constructor
  · simp [h.log]
  · exact fun r s t hr => absurd hr (hasleep r t)
  · exact fun r t hr => absurd hr (hasleep r t)
  · exact fun r t hr => absurd hr (hasleep r t)
  · exact fun r _ => h.requests r
  · rw [h.log]
    exact each_nil

/-- Where the request that sleeps is the one in `phl_lua_api_current` when its timer expires, and
only the timer runs its script, every timer wakes the request that has set it, once it is time. -/
theorem sleep_wakes_owner (h : Reachable SleepStart (ActStep sleepStep Unmixed) w) :
    Each sleptRight w.log :=
  (h.invariant (fun _ => sleepStart_keeps) fun _ _ hs ⟨_, hok, hstep⟩ =>
    sleepStep_keeps hs hok hstep).owned

end SleepSteps

def Unmixed.check (w : SleepWorld) : SleepAct → Bool
  | .expire t =>
    w.current.any fun r => decide (w.Asleep r t) && !(w.requests r).closed
  | .threadRun r entry _ =>
    match (w.requests r).thread with
    | some ⟨e, some t⟩ => e ≠ entry || !(w.timers t).armed
    | _ => true
  | _ => true

theorem unmixed_of_check {w : SleepWorld} {act : SleepAct} (h : Unmixed.check w act = true) :
    Unmixed w act := by
  cases act with
  | expire t =>
    obtain ⟨r, hr, hcheck⟩ := (Option.any_eq_true _ _).mp h
    simp only [Bool.and_eq_true, decide_eq_true_iff, Bool.not_eq_true'] at hcheck
    exact ⟨r, hr, hcheck⟩
  | threadRun r entry ended =>
    intro t hthread
    simp only [Unmixed.check, hthread] at h
    simpa using h
  | accept _ => trivial
  | luaCall _ _ => trivial
  | close _ => trivial
  | subrClose _ => trivial
  | tick _ => trivial

def noScripts : SleepWorld :=
  ⟨fun _ => ⟨none, false, false, none⟩, 0, fun _ => ⟨0, false⟩, 0, none, 0, []⟩

theorem start_noScripts : SleepStart noScripts := ⟨fun _ => rfl, rfl⟩

/-- Two requests sleep, one after the other, and a third is closed meanwhile. -/
theorem sleep_wakes_owner_inTurn : ∃ w, Reachable SleepStart (ActStep sleepStep Unmixed) w ∧
    w.log = [.slept 0 0 100, .woken 0 0 false 100, .continued 0 0, .slept 1 1 150,
      .woken 1 1 false 150, .continued 1 1] ∧ Each sleptRight w.log := by
  let acts : List SleepAct := [.accept none, .accept none, .accept none,
    .threadRun 0 1 (.sleep 100), .close 2, .tick 100, .expire 0, .threadRun 0 1 .finish,
    .threadRun 1 1 (.sleep 50), .tick 50, .expire 1, .threadRun 1 1 .finish]
  have hrun : (runActs sleepStep acts noScripts).map (·.log) =
      some [.slept 0 0 100, .woken 0 0 false 100, .continued 0 0, .slept 1 1 150,
        .woken 1 1 false 150, .continued 1 1] := by
    decide
  obtain ⟨w, hw, hlog⟩ := Option.map_eq_some_iff.mp hrun
  have hok : ActsMeet sleepStep Unmixed acts noScripts :=
    actsMeet_of_check (fun _ _ => unmixed_of_check) (by decide)
  have hreach := (Reachable.start start_noScripts).runActs hok hw
  exact ⟨w, hreach, hlog, sleep_wakes_owner hreach⟩

/-- Two requests sleep at one time: the timer of the first runs the second, whose script goes on
before its own timer has expired. -/
theorem sleep_wakes_other : ∃ w,
    Reachable SleepStart (ActStep sleepStep fun _ _ => True) w ∧
    w.log = [.slept 0 0 100, .slept 1 1 1000, .woken 0 1 false 100, .continued 1 1] ∧
    ¬Each sleptRight w.log := by
  let acts : List SleepAct := [.accept none, .accept none, .threadRun 0 1 (.sleep 100),
    .threadRun 1 1 (.sleep 1000), .tick 100, .expire 0, .threadRun 1 1 .finish]
  have hrun : (runActs sleepStep acts noScripts).map (·.log) =
      some [.slept 0 0 100, .slept 1 1 1000, .woken 0 1 false 100, .continued 1 1] := by
    decide
  obtain ⟨w, hw, hlog⟩ := Option.map_eq_some_iff.mp hrun
  have hreach := (Reachable.start start_noScripts).runActs
    (actsMeet_of_forall acts noScripts fun _ _ => trivial) hw
  refine ⟨w, hreach, hlog, ?_⟩
  rw [hlog]
  intro h
  obtain ⟨-, at_, hmem, -⟩ :=
    h [.slept 0 0 100, .slept 1 1 1000] (.woken 0 1 false 100) [.continued 1 1] rfl
  simp at hmem

end Phorklift
