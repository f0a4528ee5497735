import Phorklift.FileCache
import Phorklift.Transition
import Mathlib.Logic.Function.Basic

/-! `phl.subrequest` of the Lua API, and all that runs the request that has called it. -/

namespace Phorklift

open Transition

/-- What a suspended thread has on its stack: the resume handler with its argument. -/
inductive LuaWait
  | sleep
  | subrequest (subr : Nat)
  deriving DecidableEq

structure LuaRequest where
  /-- `none` for the request of a client -/
  father : Option Nat
  /-- the state is `PHL_REQUEST_STATE_LOCATE_CONF_HOST` -/
  fresh : Bool
  /-- the state is `PHL_REQUEST_STATE_RESPONSE_BODY` -/
  inBody : Bool
  closed : Bool
  freed : Bool
  /-- `none` where `L` is NULL -/
  wait : Option LuaWait
  statusCode : Int
  headers : List Header
  /-- of the connection of a subrequest -/
  sendBuffer : Option Bytes
  /-- whether that connection is to be flushed later -/
  deferred : Bool
  /-- all of the body that was generated -/
  generated : Bytes

inductive SubrEvent
  | ended (subr : Nat) (statusCode : Int) (body : Bytes) (headers : List Header)
  /-- the table that the script gets -/
  | returned (subr : Nat) (statusCode : Int) (body : Bytes) (headers : List Header)
  deriving DecidableEq

def SubrEvent.subr : SubrEvent → Nat
  | .ended s _ _ _ | .returned s _ _ _ => s

/-- The calls that are going on, or still to come in the ones that are. -/
inductive SubrCall
  /-- `phl_request_run` -/
  | run (r : Nat)
  /-- `phl_request_run_post` -/
  | post (r : Nat)
  /-- `phl_request_response_body` -/
  | body (r : Nat)
  /-- `phl_request_subr_close` -/
  | subrClose (r : Nat)
  deriving DecidableEq

structure LuaWorld where
  requests : Nat → LuaRequest
  next : Nat
  /-- `phl_lua_api_current` -/
  current : Option Nat
  calls : List SubrCall
  log : List SubrEvent

/-- What a script does when it is resumed. -/
inductive LuaNext
  | sleep
  | subrequest
  | finish

/-- What the handlers of a request do in a call. -/
inductive SubrChoice
  /-- `PHL_AGAIN` -/
  | again
  /-- the script runs, and leaves the response headers so -/
  | lua (headers : List Header) (next : LuaNext)
  | respond (statusCode : Int) (headers : List Header)
  | piece (data : Bytes) (isLast : Bool)
  /-- `PHL_ERROR` -/
  | fail

inductive SubrAct
  | accept
  /-- `phl_request_run` from the client's connection, an upstream or another source -/
  | wake (r : Nat)
  /-- a sleep runs out -/
  | timer
  /-- `phl_lua_call` -/
  | luaCall (r : Nat)
  /-- `phl_connection_defer_routine` on the connection of a subrequest -/
  | defer (r : Nat)
  /-- the connection of the client is closed -/
  | disconnect (r : Nat)
  | call (choice : SubrChoice)

/-- `phl_request_new`, and a slot that no request has had. -/
def newRequest (father : Option Nat) (fresh : Bool) : LuaRequest where
  father := father
  fresh := fresh
  inBody := false
  closed := false
  freed := false
  wait := none
  statusCode := 0
  headers := []
  sendBuffer := none
  deferred := false
  generated := []

namespace LuaWorld

def put (w : LuaWorld) (r : Nat) (q : LuaRequest) : LuaWorld :=
  { w with requests := Function.update w.requests r q }

/-- `subr_head` -/
def subrs (w : LuaWorld) (r : Nat) : List Nat :=
  (List.range w.next).filter fun s =>
    (w.requests s).father = some r ∧ (w.requests s).freed = false

/-- `phl_request_subr_new`, but for what it sets of the request. -/
def phlRequestSubrNew (w : LuaWorld) (father : Nat) : LuaWorld :=
  { w.put w.next (newRequest (some father) true) with next := w.next + 1 }

/-- The resume handler of the thread, if it has one on its stack. -/
def phlLuaApiResume (w : LuaWorld) (r : Nat) : LuaWorld × List SubrCall :=
  match (w.requests r).wait with
  | some (.subrequest s) =>
    let subr := w.requests s
    ({ w with log := w.log ++ [.returned s subr.statusCode (subr.sendBuffer.getD [])
        (w.requests (w.current.getD r)).headers] }, [.subrClose s])
  | _ => (w, [])

/-- `lua_resume`, up to the next call of the API that yields or the end of the script. -/
def luaResume (w : LuaWorld) (r : Nat) (headers : List Header) : LuaNext → LuaWorld × List SubrCall
  | .sleep => (w.put r { w.requests r with headers := headers, wait := some .sleep }, [.post r])
  | .subrequest =>
    ((w.put r { w.requests r with
        headers := headers
        wait := some (.subrequest w.next) }).phlRequestSubrNew r, [.post r])
  | .finish => (w.put r { w.requests r with headers := headers, wait := none }, [.run r])

def phlLuaThreadRun (w : LuaWorld) (r : Nat) (headers : List Header) (next : LuaNext) :
    LuaWorld × List SubrCall :=
  let handled := phlLuaApiResume { w with current := some r } r
  let resumed := luaResume handled.1 r headers next
  (resumed.1, handled.2 ++ resumed.2)

/-- A subrequest wakes its father up; the other requests close their subrequests. -/
def phlRequestClose (w : LuaWorld) (r : Nat) : LuaWorld × List SubrCall :=
  let q := w.requests r
  match q.father with
  | some father =>
    ({ w.put r { q with closed := true } with
        log := w.log ++ [.ended r q.statusCode q.generated q.headers] }, [.run father])
  | none => (w.put r { q with closed := true, wait := none }, (w.subrs r).map .subrClose)

/-- An error ends a request that has no status code yet; the others answer once more. -/
def phlRequestFail (w : LuaWorld) (r : Nat) : LuaWorld × List SubrCall :=
  let q := w.requests r
  if q.statusCode = 0 then w.phlRequestClose r
  else (w.put r { q with inBody := false }, [.run r])

/-- The rest of `phl_request_run`, with the handlers' part in it. -/
def phlRequestRun (w : LuaWorld) (r : Nat) (choice : SubrChoice) :
    Option (LuaWorld × List SubrCall) :=
  let q := { w.requests r with fresh := false }
  if q.freed ∨ q.closed then some (w, [])
  else
    let w := w.put r q
    if q.inBody then some (w, [.body r])
    else match choice with
    | .lua headers next => some (w.phlLuaThreadRun r headers next)
    | .again => if q.wait = none then some (w, [.post r]) else none
    | .respond statusCode headers =>
      if q.wait = none then
        some (w.put r { q with statusCode := statusCode, headers := headers, inBody := true },
          [.body r])
      else none
    | .fail => if q.wait = none then some (w.phlRequestFail r) else none
    | .piece _ _ => none

/-- `phl_connection_make_space` for a subrequest: the space, or `none` where its father is run. -/
def makeSpace (bufSize : Nat) (w : LuaWorld) (r : Nat) : LuaWorld × Option Nat :=
  let buffer := ((w.requests r).sendBuffer).getD []
  (w.put r { w.requests r with sendBuffer := some buffer, deferred := true },
    if 4096 ≤ bufSize - buffer.length then some (bufSize - buffer.length) else none)

/-- A piece of body goes to the buffer. -/
def generate (w : LuaWorld) (r : Nat) (data : Bytes) : LuaWorld :=
  let q := w.requests r
  w.put r { q with
    sendBuffer := some (q.sendBuffer.getD [] ++ data)
    generated := q.generated ++ data }

/-- One round of `phl_request_response_body`. -/
def phlRequestResponseBody (bufSize : Nat) (w : LuaWorld) (r : Nat) (choice : SubrChoice) :
    Option (LuaWorld × List SubrCall) :=
  let q := w.requests r
  if q.freed ∨ q.closed then some (w, [])
  else
    let finish (w : LuaWorld) (isLast : Bool) :=
      if isLast then w.phlRequestClose r else (w, [.body r])
    match q.father with
    | none =>
      match choice with
      | .again => some (w, [.post r])
      | .piece _ isLast => some (finish w isLast)
      | .fail => some (w.phlRequestFail r)
      | _ => none
    | some father =>
      if bufSize < 4096 then some (w.phlRequestFail r)
      else
        let made := makeSpace bufSize w r
        match made.2 with
        | none => some (made.1, [.run father, .post r])
        | some available =>
          match choice with
          | .again => some (made.1, [.post r])
          | .piece data isLast =>
            if data.length ≤ available then some (finish (made.1.generate r data) isLast) else none
          | .fail => some (made.1.phlRequestFail r)
          | _ => none

/-- The next subrequest that was not run yet. -/
def phlRequestRunPost (w : LuaWorld) (r : Nat) : LuaWorld × List SubrCall :=
  match (w.subrs r).find? fun s => (w.requests s).fresh with
  | none => (w, [])
  | some s => (w, [.run s, .post r])

def phlRequestSubrClose (w : LuaWorld) (r : Nat) : LuaWorld × List SubrCall :=
  (w.put r { w.requests r with
      freed := true, wait := none, sendBuffer := none, deferred := false },
    (w.subrs r).map .subrClose)

end LuaWorld

open LuaWorld

/-- What a call does, and what it calls. -/
def subrCallStep (bufSize : Nat) (w : LuaWorld) (choice : SubrChoice) :
    SubrCall → Option (LuaWorld × List SubrCall)
  | .run r => w.phlRequestRun r choice
  | .post r => some (w.phlRequestRunPost r)
  | .body r => w.phlRequestResponseBody bufSize r choice
  | .subrClose r => some (w.phlRequestSubrClose r)

/-- The events of the loop come one after the other. -/
def subrStep (bufSize : Nat) (w : LuaWorld) : SubrAct → Option LuaWorld
  | .call choice =>
    match w.calls with
    | [] => none
    | c :: rest => (subrCallStep bufSize w choice c).map fun x => { x.1 with calls := x.2 ++ rest }
  | a =>
    if w.calls ≠ [] then none
    else match a with
    | .accept => some { w.put w.next (newRequest none false) with next := w.next + 1 }
    | .wake r => if r < w.next ∧ (w.requests r).freed = false then
        some { w with calls := [.run r] } else none
    | .timer => w.current.map fun r => { w with calls := [.run r] }
    | .luaCall r => if r < w.next then some { w with current := some r } else none
    | .defer r =>
      let q := w.requests r
      match q.father with
      | some father =>
        if q.deferred then
          match q.sendBuffer with
          | none | some [] => some (w.put r { q with sendBuffer := none, deferred := false })
          | some _ => some { w.put r { q with deferred := false } with calls := [.run father] }
        else none
      | none => none
    | .disconnect r =>
      let q := w.requests r
      if q.father = none ∧ q.closed = false ∧ r < w.next then
        let x := w.phlRequestClose r
        some { x.1 with calls := x.2 }
      else none
    | .call _ => none

/-- The table of the headers; a name that comes again replaces what was there. -/
def luaTable (headers : List Header) (name : Bytes) : Option Bytes :=
  (headers.reverse.find? fun h => cstr h.name = name).map fun h => cstr h.value

/-- A subrequest returns once, after its end, with all that it has answered. -/
def returnedAfter (pre : List SubrEvent) : SubrEvent → Prop
  | .returned s statusCode body headers =>
    (∃ hs, .ended s statusCode body hs ∈ pre ∧ luaTable headers = luaTable hs) ∧
      ∀ st b hs, .returned s st b hs ∉ pre
  | .ended _ _ _ _ => True

def LuaWorld.Waits (w : LuaWorld) (r s : Nat) : Prop :=
  (w.requests r).wait = some (.subrequest s)

/-- The father of a request has response headers that make the same table. -/
def LuaWorld.SameTable (w : LuaWorld) (r : Nat) : Prop :=
  ∀ f, (w.requests r).father = some f →
    luaTable (w.requests f).headers = luaTable (w.requests r).headers

/-- What a handler does ends the request: an error without a status code, or the last piece. -/
def Ends (bufSize : Nat) (q : LuaRequest) (choice : SubrChoice) : Prop :=
  ((bufSize < 4096 ∨ choice = .fail) ∧ q.statusCode = 0) ∨
    4096 ≤ bufSize ∧ ∃ data, choice = .piece data true

/-- Nothing but the end of its subrequest runs a request that waits for one, and the response of
the subrequest goes into the buffer in one go. -/
def Undivided (bufSize : Nat) (w : LuaWorld) : SubrAct → Prop
  | .wake r => ∀ s, ¬w.Waits r s
  | .timer => ∀ r s, w.current = some r → ¬w.Waits r s
  | .defer r => (w.requests r).sendBuffer.getD [] = []
  | .call choice => ∀ c rest, w.calls = c :: rest →
    match c with
    | .body r => (4096 ≤ bufSize → 4096 ≤ bufSize - ((w.requests r).sendBuffer.getD []).length) ∧
      (Ends bufSize (w.requests r) choice → w.SameTable r)
    | .run r => choice = .fail ∧ (w.requests r).statusCode = 0 → w.SameTable r
    | _ => True
  | _ => True

structure SubrStart (w : LuaWorld) : Prop where
  requests : ∀ r, w.requests r = newRequest none false
  next : w.next = 0
  current : w.current = none
  calls : w.calls = []
  log : w.log = []

def OnlyPosts (calls : List SubrCall) : Prop := ∀ c ∈ calls, ∃ r, c = .post r

/-- The requests that are to be closed come first, then one that runs, then the ends of other
calls. -/
def Shape : List SubrCall → Prop
  | [] => True
  | .subrClose _ :: rest => Shape rest
  | .run _ :: rest => OnlyPosts rest
  | .body _ :: rest => OnlyPosts rest
  | .post _ :: rest => OnlyPosts rest

structure SubrInv (w : LuaWorld) : Prop where
  fathers : ∀ s f, (w.requests s).father = some f → s < w.next ∧ f < w.next
  current : ∀ r, w.current = some r → r < w.next
  called : ∀ r, .run r ∈ w.calls ∨ .body r ∈ w.calls ∨ .subrClose r ∈ w.calls → r < w.next
  shape : Shape w.calls
  bodies : ∀ r, .body r ∈ w.calls → (w.requests r).wait = none
  awake : ∀ r, (w.requests r).fresh ∨ (w.requests r).inBody ∨ (w.requests r).closed ∨
    (w.requests r).freed → (w.requests r).wait = none
  waits : ∀ f s, w.Waits f s → (w.requests s).father = some f ∧ (w.requests s).freed = false ∧
    .subrClose s ∉ w.calls ∧ ∀ st b hs, .returned s st b hs ∉ w.log
  live : ∀ s f, (w.requests s).father = some f → (w.requests s).freed = false →
    (w.requests s).closed = false → .subrClose s ∈ w.calls ∨ w.Waits f s
  buffer : ∀ s f, (w.requests s).father = some f → (w.requests s).freed = false →
    (w.requests s).sendBuffer.getD [] = (w.requests s).generated
  runs : ∀ r s, .run r ∈ w.calls → w.Waits r s → (∀ s, .subrClose s ∉ w.calls) ∧
    ∃ hs, .ended s (w.requests s).statusCode (w.requests s).generated hs ∈ w.log ∧
      luaTable (w.requests r).headers = luaTable hs
  pending : ∀ s st b hs, .ended s st b hs ∈ w.log →
    (∃ st b hs, .returned s st b hs ∈ w.log) ∨ ∃ f, .run f ∈ w.calls ∧ w.Waits f s
  logged : ∀ e ∈ w.log, e.subr < w.next
  owned : Each returnedAfter w.log

section Shapes

variable {calls rest : List SubrCall} {r s : Nat}

theorem OnlyPosts.shape (h : OnlyPosts calls) : Shape calls := by
  cases calls with
  | nil => trivial
  | cons c rest =>
    obtain ⟨r, rfl⟩ := h c List.mem_cons_self
    exact fun c hc => h c (List.mem_cons_of_mem _ hc)

theorem OnlyPosts.not_run (h : OnlyPosts calls) : .run r ∉ calls := by
  intro hmem
  obtain ⟨_, heq⟩ := h _ hmem
  cases heq

theorem OnlyPosts.not_body (h : OnlyPosts calls) : .body r ∉ calls := by
  intro hmem
  obtain ⟨_, heq⟩ := h _ hmem
  cases heq

theorem OnlyPosts.not_subrClose (h : OnlyPosts calls) : .subrClose s ∉ calls := by
  intro hmem
  obtain ⟨_, heq⟩ := h _ hmem
  cases heq

theorem OnlyPosts.cons (h : OnlyPosts calls) : OnlyPosts (.post r :: calls) := by
  intro c hc
  rcases List.mem_cons.mp hc with hc | hc
  · exact ⟨r, hc⟩
  · exact h c hc

theorem shape_closes {closes : List Nat} (h : Shape calls) :
    Shape (closes.map .subrClose ++ calls) := by
  induction closes with
  | nil => exact h
  | cons s closes ih => exact ih

theorem closes_not_run {closes : List Nat} (hposts : OnlyPosts rest) :
    .run r ∉ closes.map SubrCall.subrClose ++ rest := by
  intro hmem
  rcases List.mem_append.mp hmem with hmem | hmem
  · simp at hmem
  · exact hposts.not_run hmem

theorem closes_not_body {closes : List Nat} (hposts : OnlyPosts rest) :
    .body r ∉ closes.map SubrCall.subrClose ++ rest := by
  intro hmem
  rcases List.mem_append.mp hmem with hmem | hmem
  · simp at hmem
  · exact hposts.not_body hmem

end Shapes

section Steps

variable {bufSize : Nat} {w w' : LuaWorld} {r s : Nat} {q : LuaRequest} {calls rest : List SubrCall}

/-- No call that runs is that of a request that waits. -/
def Calm (w : LuaWorld) : Prop := ∀ r s, .run r ∈ w.calls → ¬w.Waits r s

/-- What the call on top leaves of the shape. -/
theorem SubrInv.shape_tail {c : SubrCall} (h : SubrInv w) (hcalls : w.calls = c :: rest) :
    match c with
    | .subrClose _ => Shape rest
    | _ => OnlyPosts rest := by
  have hshape := h.shape
  rw [hcalls] at hshape
  cases c <;> exact hshape

theorem SubrInv.calm_of_posts (h : OnlyPosts w.calls) : Calm w :=
  fun _ _ hmem => absurd hmem h.not_run

/-- What every step that no waiting request sees leaves alone. -/
structure LuaSteady (w w' : LuaWorld) : Prop where
  next : w'.next = w.next
  log : w'.log = w.log
  father : ∀ r, (w'.requests r).father = (w.requests r).father
  freed : ∀ r, (w'.requests r).freed = (w.requests r).freed
  closed : ∀ r, (w'.requests r).closed = (w.requests r).closed
  waits : ∀ r s, w'.Waits r s ↔ w.Waits r s
  current : ∀ r, w'.current = some r → r < w.next
  awake : ∀ r, (w'.requests r).fresh ∨ (w'.requests r).inBody ∨ (w'.requests r).closed ∨
    (w'.requests r).freed → (w'.requests r).wait = none
  buffer : ∀ s f, (w'.requests s).father = some f → (w'.requests s).freed = false →
    (w'.requests s).sendBuffer.getD [] = (w'.requests s).generated

theorem SubrInv.steady (h : SubrInv w) (hcalm : Calm w) (hw : LuaSteady w w') (hcalm' : Calm w')
    (hshape : Shape w'.calls)
    (hcalled : ∀ r, .run r ∈ w'.calls ∨ .body r ∈ w'.calls ∨ .subrClose r ∈ w'.calls → r < w.next)
    (hbodies : ∀ r, .body r ∈ w'.calls → (w'.requests r).wait = none)
    (hcloses : ∀ s, .subrClose s ∈ w'.calls ↔ .subrClose s ∈ w.calls) : SubrInv w' where
  fathers := by
    intro s f hf
    rw [hw.father] at hf
    rw [hw.next]
    exact h.fathers s f hf
  current := by
    rw [hw.next]
    exact hw.current
  called := by
    rw [hw.next]
    exact hcalled
  shape := hshape
  bodies := hbodies
  awake := hw.awake
  waits := by
    intro f s hf
    rw [hw.father, hw.freed, hcloses, hw.log]
    exact h.waits f s ((hw.waits f s).mp hf)
  live := by
    intro s f hf hfreed hclosed
    rw [hw.father] at hf
    rw [hw.freed] at hfreed
    rw [hw.closed] at hclosed
    rw [hcloses, hw.waits]
    exact h.live s f hf hfreed hclosed
  buffer := hw.buffer
  runs := fun r s hmem hwait => absurd hwait (hcalm' r s hmem)
  pending := by
    intro s st b hs hmem
    rw [hw.log] at hmem ⊢
    rcases h.pending s st b hs hmem with hret | ⟨f, hrun, hwait⟩
    · exact .inl hret
    · exact absurd hwait (hcalm f s hrun)
  logged := by
    rw [hw.log, hw.next]
    exact h.logged
  owned := by
    rw [hw.log]
    exact h.owned

/-- Only one request is written, and what it waits for is no subrequest. -/
theorem SubrInv.steady_set (h : SubrInv w) (hw : ∀ r', r' ≠ r → w'.requests r' = w.requests r')
    (hnext : w'.next = w.next) (hlog : w'.log = w.log)
    (hcurrent : ∀ r, w'.current = some r → r < w.next)
    (hfather : (w'.requests r).father = (w.requests r).father)
    (hfreed : (w'.requests r).freed = (w.requests r).freed)
    (hclosed : (w'.requests r).closed = (w.requests r).closed)
    (hwait : ∀ s, w'.Waits r s ↔ w.Waits r s)
    (hawake : (w'.requests r).fresh ∨ (w'.requests r).inBody ∨ (w'.requests r).closed ∨
      (w'.requests r).freed → (w'.requests r).wait = none)
    (hbuffer : ∀ f, (w.requests r).father = some f → (w.requests r).freed = false →
      (w'.requests r).sendBuffer.getD [] = (w'.requests r).generated) : LuaSteady w w' where
  next := hnext
  log := hlog
  father := by
    intro r'
    by_cases heq : r' = r
    · rw [heq, hfather]
    · rw [hw r' heq]
  freed := by
    intro r'
    by_cases heq : r' = r
    · rw [heq, hfreed]
    · rw [hw r' heq]
  closed := by
    intro r'
    by_cases heq : r' = r
    · rw [heq, hclosed]
    · rw [hw r' heq]
  waits := by
    intro r' s
    by_cases heq : r' = r
    · rw [heq, hwait]
    · unfold Waits
      rw [hw r' heq]
  current := hcurrent
  awake := by
    intro r'
    by_cases heq : r' = r
    · rw [heq]
      exact hawake
    · rw [hw r' heq]
      exact h.awake r'
  buffer := by
    intro s f
    by_cases heq : s = r
    · rw [heq, hfather, hfreed]
      exact hbuffer f
    · rw [hw s heq]
      exact h.buffer s f

theorem SubrInv.same (h : SubrInv w) (hrequests : w'.requests = w.requests)
    (hnext : w'.next = w.next) (hlog : w'.log = w.log)
    (hcurrent : ∀ r, w'.current = some r → r < w.next) : LuaSteady w w' := by
  constructor
  · exact hnext
  · exact hlog
  · exact fun r => by rw [hrequests]
  · exact fun r => by rw [hrequests]
  · exact fun r => by rw [hrequests]
  · exact fun r s => by unfold Waits; rw [hrequests]
  · exact hcurrent
  · rw [hrequests]
    exact h.awake
  · rw [hrequests]
    exact h.buffer

/-- Other calls than closes are replaced. -/
theorem SubrInv.recall (h : SubrInv w) (hcalm : Calm w) (hcalm' : Calm { w with calls := calls })
    (hshape : Shape calls)
    (hcalled : ∀ r, .run r ∈ calls ∨ .body r ∈ calls ∨ .subrClose r ∈ calls → r < w.next)
    (hbodies : ∀ r, .body r ∈ calls → (w.requests r).wait = none)
    (hcloses : ∀ s, .subrClose s ∈ calls ↔ .subrClose s ∈ w.calls) :
    SubrInv { w with calls := calls } :=
  h.steady hcalm (h.same rfl rfl rfl h.current) hcalm' hshape hcalled hbodies hcloses

theorem mem_subrs : s ∈ w.subrs r ↔
    s < w.next ∧ (w.requests s).father = some r ∧ (w.requests s).freed = false := by
  simp [subrs]

theorem OnlyPosts.called (h : OnlyPosts calls) (r n : Nat) :
    .run r ∈ calls ∨ .body r ∈ calls ∨ .subrClose r ∈ calls → r < n := by
  rintro (hmem | hmem | hmem)
  · exact absurd hmem h.not_run
  · exact absurd hmem h.not_body
  · exact absurd hmem h.not_subrClose

theorem put_same : (w.put r q).requests r = q := Function.update_self _ _ _

theorem put_ne (h : s ≠ r) : (w.put r q).requests s = w.requests s := Function.update_of_ne h _ _

/-- A field that is written as it was. -/
theorem put_congr {β : Type} (g : LuaRequest → β) (h : g q = g (w.requests r)) (s : Nat) :
    g ((w.put r q).requests s) = g (w.requests s) := by
  by_cases hs : s = r
  · rw [hs, put_same]
    exact h
  · rw [put_ne hs]

theorem waits_put {f : Nat} (hwait : q.wait = (w.requests r).wait) :
    (w.put r q).Waits f s ↔ w.Waits f s := by
  unfold Waits
  rw [put_congr (·.wait) hwait f]

theorem waits_put_none {f : Nat} (hwait : q.wait = none) :
    (w.put r q).Waits f s ↔ f ≠ r ∧ w.Waits f s := by
  unfold Waits
  by_cases hf : f = r
  · rw [hf, put_same, hwait]
    simp
  · rw [put_ne hf]
    simp [hf]

theorem SubrInv.fathers_put (h : SubrInv w) (hfather : q.father = (w.requests r).father) (s f : Nat)
    (hf : ((w.put r q).requests s).father = some f) : s < w.next ∧ f < w.next :=
  h.fathers s f ((put_congr (·.father) hfather s).symm.trans hf)

theorem SubrInv.awake_put (h : SubrInv w)
    (hawake : q.fresh ∨ q.inBody ∨ q.closed ∨ q.freed → q.wait = none) (s : Nat) :
    ((w.put r q).requests s).fresh ∨ ((w.put r q).requests s).inBody ∨
      ((w.put r q).requests s).closed ∨ ((w.put r q).requests s).freed →
      ((w.put r q).requests s).wait = none := by
  by_cases hs : s = r
  · rw [hs, put_same]
    exact hawake
  · rw [put_ne hs]
    exact h.awake s

theorem SubrInv.buffer_put (h : SubrInv w) (hfather : q.father = (w.requests r).father)
    (hbuffer : q.freed = false → (w.requests r).freed = false ∧
      q.sendBuffer = (w.requests r).sendBuffer ∧ q.generated = (w.requests r).generated)
    (s f : Nat) (hf : ((w.put r q).requests s).father = some f)
    (hfreed : ((w.put r q).requests s).freed = false) :
    ((w.put r q).requests s).sendBuffer.getD [] = ((w.put r q).requests s).generated := by
  by_cases hs : s = r
  · rw [hs, put_same] at hf hfreed ⊢
    obtain ⟨hlive, hsend, hgen⟩ := hbuffer hfreed
    rw [hsend, hgen]
    exact h.buffer r f (hfather.symm.trans hf) hlive
  · rw [put_ne hs] at hf hfreed ⊢
    exact h.buffer s f hf hfreed

/-- The calls that close subrequests come before others. -/
theorem called_closes {closes : List Nat} {n : Nat} (hcloses : ∀ s ∈ closes, s < n)
    (hrest : ∀ s, .run s ∈ rest ∨ .body s ∈ rest ∨ .subrClose s ∈ rest → s < n) (s : Nat)
    (hs : .run s ∈ closes.map .subrClose ++ rest ∨ .body s ∈ closes.map .subrClose ++ rest ∨
      .subrClose s ∈ closes.map .subrClose ++ rest) : s < n := by
  simp only [List.mem_append, List.mem_map, reduceCtorEq, and_false, exists_false, false_or,
    SubrCall.subrClose.injEq, exists_eq_right] at hs
  rcases hs with hs | hs | hs | hs
  · exact hrest s (.inl hs)
  · exact hrest s (.inr (.inl hs))
  · exact hcloses s hs
  · exact hrest s (.inr (.inr hs))

/-- A request that another one waits for is not among the subrequests to be closed of a third. -/
theorem not_closes {f : Nat} (hfather : (w.requests s).father = some f) (hf : f ≠ r)
    (hrest : .subrClose s ∉ rest) : .subrClose s ∉ (w.subrs r).map .subrClose ++ rest := by
  intro hmem
  rcases List.mem_append.mp hmem with hmem | hmem
  · obtain ⟨s', hs', heq⟩ := List.mem_map.mp hmem
    cases heq
    have hr := (mem_subrs.mp hs').2.1
    rw [hfather] at hr
    cases hr
    exact hf rfl
  · exact hrest hmem

theorem sameTable_put (h : w.SameTable r) (hfather : q.father = (w.requests r).father)
    (hheaders : q.headers = (w.requests r).headers) : (w.put r q).SameTable r := by
  intro f hf
  rw [put_congr (·.father) hfather r] at hf
  rw [put_congr (·.headers) hheaders f, put_congr (·.headers) hheaders r]
  exact h f hf

/-- A request that is no longer a client's is closed with its subrequests. -/
theorem SubrInv.closeClient (h : SubrInv w) (hposts : OnlyPosts w.calls)
    (hfather : (w.requests r).father = none) :
    SubrInv { w.put r { w.requests r with closed := true, wait := none } with
      calls := (w.subrs r).map .subrClose ++ w.calls } where
  fathers := h.fathers_put rfl
  current := h.current
  called := called_closes (fun s hs => (mem_subrs.mp hs).1) fun s => hposts.called s w.next
  shape := shape_closes hposts.shape
  bodies := fun s hmem => absurd hmem (closes_not_body hposts)
  awake := h.awake_put fun _ => rfl
  waits := by
    intro f s hwait
    obtain ⟨hf, hold⟩ := (waits_put_none rfl).mp hwait
    obtain ⟨hfather', hfreed, -, hlog⟩ := h.waits f s hold
    have hs : s ≠ r := by
      intro hs
      rw [hs, hfather] at hfather'
      cases hfather'
    simp only [put_ne hs]
    exact ⟨hfather', hfreed, not_closes hfather' hf hposts.not_subrClose, hlog⟩
  live := by
    intro s f hf hfreed hclosed
    have hs : s ≠ r := by
      intro hs
      simp [hs, put_same] at hclosed
    simp only [put_ne hs] at hf hfreed hclosed
    by_cases hfr : f = r
    · left
      rw [hfr] at hf
      have hmem := mem_subrs.mpr ⟨(h.fathers s r hf).1, hf, hfreed⟩
      simp [hmem]
    · rcases h.live s f hf hfreed hclosed with hmem | hwait
      · exact absurd hmem hposts.not_subrClose
      · exact .inr ((waits_put_none rfl).mpr ⟨hfr, hwait⟩)
  buffer := h.buffer_put rfl fun hfreed => ⟨hfreed, rfl, rfl⟩
  runs := fun f s hmem => absurd hmem (closes_not_run hposts)
  pending := by
    intro s st b hs hmem
    rcases h.pending s st b hs hmem with hret | ⟨f, hrun, -⟩
    · exact .inl hret
    · exact absurd hrun hposts.not_run
  logged := h.logged
  owned := h.owned

/-- A subrequest that has ended runs its father. -/
theorem SubrInv.closeSubr {f : Nat} (h : SubrInv w) (hposts : OnlyPosts w.calls)
    (hfather : (w.requests r).father = some f) (hfreed : (w.requests r).freed = false)
    (hclosed : (w.requests r).closed = false) (hawake : (w.requests r).wait = none)
    (hsame : w.SameTable r) :
    SubrInv { w.put r { w.requests r with closed := true } with
      log := w.log ++ [.ended r (w.requests r).statusCode (w.requests r).generated
        (w.requests r).headers]
      calls := .run f :: w.calls } := by
  have hwaits : w.Waits f r :=
    (h.live r f hfather hfreed hclosed).resolve_left hposts.not_subrClose
  have hne : f ≠ r := by
    intro hf
    rw [hf, Waits, hawake] at hwaits
    cases hwaits
  have hkeep : ∀ f' s, (w.put r { w.requests r with closed := true }).Waits f' s ↔ w.Waits f' s :=
    fun _ _ => waits_put rfl
  have hfathers : ∀ x, ((w.put r { w.requests r with closed := true }).requests x).father =
      (w.requests x).father := put_congr (·.father) rfl
  have hfrees : ∀ x, ((w.put r { w.requests r with closed := true }).requests x).freed =
      (w.requests x).freed := put_congr (·.freed) rfl
  constructor
  · exact h.fathers_put rfl
  · exact h.current
  · intro s hmem
    simp only [List.mem_cons, SubrCall.run.injEq, reduceCtorEq, false_or] at hmem
    rcases hmem with (hmem | hmem) | hmem | hmem
    · rw [hmem]
      exact (h.fathers r f hfather).2
    · exact absurd hmem hposts.not_run
    · exact absurd hmem hposts.not_body
    · exact absurd hmem hposts.not_subrClose
  · exact hposts
  · intro s hmem
    rcases List.mem_cons.mp hmem with hmem | hmem
    · cases hmem
    · exact absurd hmem hposts.not_body
  · exact h.awake_put fun _ => hawake
  · intro f' s hwait
    obtain ⟨hfather', hfreed', hclose, hlog⟩ := h.waits f' s ((hkeep f' s).mp hwait)
    refine ⟨?_, ?_, ?_, ?_⟩
    · exact (hfathers s).trans hfather'
    · exact (hfrees s).trans hfreed'
    · simp [hposts.not_subrClose]
    · intro st b hs hmem
      simp only [List.mem_append, List.mem_singleton, reduceCtorEq, or_false] at hmem
      exact hlog st b hs hmem
  · intro s f' hf hfreed' hclosed'
    have hs : s ≠ r := by
      intro hs
      simp [hs, put_same] at hclosed'
    simp only [put_ne hs] at hf hfreed' hclosed'
    rcases h.live s f' hf hfreed' hclosed' with hmem | hwait
    · exact absurd hmem hposts.not_subrClose
    · exact .inr ((hkeep f' s).mpr hwait)
  · exact h.buffer_put rfl fun hfreed => ⟨hfreed, rfl, rfl⟩
  · intro f' s hmem hwait
    have hf : f' = f := by
      rcases List.mem_cons.mp hmem with hmem | hmem
      · cases hmem
        rfl
      · exact absurd hmem hposts.not_run
    have hold := (hkeep f' s).mp hwait
    have hs : s = r := by
      rw [hf, Waits, hwaits] at hold
      cases hold
      rfl
    rw [hf, hs]
    refine ⟨by simp [hposts.not_subrClose], (w.requests r).headers, ?_, ?_⟩
    · simp [put_same]
    · simp only [put_ne hne]
      exact hsame f hfather
  · intro s st b hs hmem
    simp only [List.mem_append, List.mem_singleton] at hmem
    rcases hmem with hmem | hmem
    · rcases h.pending s st b hs hmem with ⟨st', b', hs', hret⟩ | ⟨f', hrun, -⟩
      · exact .inl ⟨st', b', hs', by simp [hret]⟩
      · exact absurd hrun hposts.not_run
    · cases hmem
      exact .inr ⟨f, by simp, (hkeep f r).mpr hwaits⟩
  · intro e hmem
    rcases List.mem_append.mp hmem with hmem | hmem
    · exact h.logged e hmem
    · rw [List.mem_singleton.mp hmem]
      exact (h.fathers r f hfather).1
  · exact each_snoc.mpr ⟨h.owned, trivial⟩

theorem SubrInv.subrClose (h : SubrInv w) (hcalls : w.calls = .subrClose r :: rest) :
    SubrInv { (w.phlRequestSubrClose r).1 with
      calls := (w.phlRequestSubrClose r).2 ++ rest } := by
  have hmem : .subrClose r ∈ w.calls := by simp [hcalls]
  have hcalm : Calm w := fun x s hrun hwait => (h.runs x s hrun hwait).1 r hmem
  have hshape : Shape rest := h.shape_tail hcalls
  have hrest : ∀ c ∈ rest, c ∈ w.calls := by
    intro c hc
    rw [hcalls]
    exact List.mem_cons_of_mem _ hc
  unfold phlRequestSubrClose
  constructor
  · exact h.fathers_put rfl
  · exact h.current
  · apply called_closes
    · exact fun s hs => (mem_subrs.mp hs).1
    · intro s hs
      apply h.called s
      rcases hs with hs | hs | hs
      · exact .inl (hrest _ hs)
      · exact .inr (.inl (hrest _ hs))
      · exact .inr (.inr (hrest _ hs))
  · exact shape_closes hshape
  · intro s hs
    have hold : .body s ∈ w.calls := by
      simp only [List.mem_append, List.mem_map, reduceCtorEq, and_false, exists_false,
        false_or] at hs
      exact hrest _ hs
    by_cases hsr : s = r
    · simp [put_same, hsr]
    · simp only [put_ne hsr]
      exact h.bodies s hold
  · exact h.awake_put fun _ => rfl
  · intro f s hwait
    obtain ⟨hf, hold⟩ := (waits_put_none rfl).mp hwait
    obtain ⟨hfather, hfreed, hclose, hlog⟩ := h.waits f s hold
    have hs : s ≠ r := by
      intro hs
      rw [hs] at hclose
      exact hclose hmem
    simp only [put_ne hs]
    exact ⟨hfather, hfreed, not_closes hfather hf fun hc => hclose (hrest _ hc), hlog⟩
  · intro s f hf hfreed hclosed
    have hs : s ≠ r := by
      intro hs
      simp [hs, put_same] at hfreed
    simp only [put_ne hs] at hf hfreed hclosed
    by_cases hfr : f = r
    · left
      rw [hfr] at hf
      have hsub := mem_subrs.mpr ⟨(h.fathers s r hf).1, hf, hfreed⟩
      simp [hsub]
    · rcases h.live s f hf hfreed hclosed with hold | hwait
      · left
        rw [hcalls] at hold
        rcases List.mem_cons.mp hold with hold | hold
        · cases hold
          exact absurd rfl hs
        · simp [hold]
      · exact .inr ((waits_put_none rfl).mpr ⟨hfr, hwait⟩)
  · exact h.buffer_put rfl fun hfreed => by cases hfreed
  · intro x s hrun hwait
    obtain ⟨-, hold⟩ := (waits_put_none rfl).mp hwait
    have hcall : .run x ∈ w.calls := by
      simp only [List.mem_append, List.mem_map, reduceCtorEq, and_false, exists_false,
        false_or] at hrun
      exact hrest _ hrun
    exact absurd hold (hcalm x s hcall)
  · intro s st b hs hend
    rcases h.pending s st b hs hend with hret | ⟨f, hrun, hwait⟩
    · exact .inl hret
    · exact absurd hwait (hcalm f s hrun)
  · exact h.logged
  · exact h.owned

/-- The resume handler of a subrequest that has ended. -/
theorem SubrInv.handled (h : SubrInv w) (hcalls : w.calls = .run r :: rest) (hwait : w.Waits r s) :
    SubrInv { w.put r { w.requests r with wait := none } with
      current := some r
      log := w.log ++ [.returned s (w.requests s).statusCode ((w.requests s).sendBuffer.getD [])
        (w.requests r).headers]
      calls := .subrClose s :: rest } := by
  have hposts : OnlyPosts rest := h.shape_tail hcalls
  obtain ⟨hnone, hs, hend, htable⟩ := h.runs r s (by simp [hcalls]) hwait
  obtain ⟨hfather, hfreed, hclose, hlog⟩ := h.waits r s hwait
  have hbuffer := h.buffer s r hfather hfreed
  have hothers : ∀ f s', (w.put r { w.requests r with wait := none }).Waits f s' ↔
      f ≠ r ∧ w.Waits f s' := fun _ _ => waits_put_none rfl
  have hfathers : ∀ x, ((w.put r { w.requests r with wait := none }).requests x).father =
      (w.requests x).father := put_congr (·.father) rfl
  have hfrees : ∀ x, ((w.put r { w.requests r with wait := none }).requests x).freed =
      (w.requests x).freed := put_congr (·.freed) rfl
  have hcloseds : ∀ x, ((w.put r { w.requests r with wait := none }).requests x).closed =
      (w.requests x).closed := put_congr (·.closed) rfl
  constructor
  · exact h.fathers_put rfl
  · intro x hx
    cases hx
    exact h.called r (by simp [hcalls])
  · intro x hx
    simp only [List.mem_cons, reduceCtorEq, false_or, SubrCall.subrClose.injEq] at hx
    rcases hx with hx | hx | hx | hx
    · exact absurd hx hposts.not_run
    · exact absurd hx hposts.not_body
    · rw [hx]
      exact (h.fathers s r hfather).1
    · exact absurd hx hposts.not_subrClose
  · exact hposts.shape
  · intro x hx
    simp only [List.mem_cons, reduceCtorEq, false_or] at hx
    exact absurd hx hposts.not_body
  · exact h.awake_put fun _ => rfl
  · intro f s' hf
    obtain ⟨hne, hold⟩ := (hothers f s').mp hf
    obtain ⟨hfather', hfreed', hclose', hlog'⟩ := h.waits f s' hold
    have hs' : s' ≠ s := by
      intro hs'
      rw [hs', hfather] at hfather'
      cases hfather'
      exact hne rfl
    refine ⟨(hfathers s').trans hfather', (hfrees s').trans hfreed', ?_, ?_⟩
    · simp [hs', hposts.not_subrClose]
    · intro st b hs hret
      simp only [List.mem_append, List.mem_singleton] at hret
      rcases hret with hret | hret
      · exact hlog' st b hs hret
      · cases hret
        exact hs' rfl
  · intro s' f hf hfreed' hclosed
    have hf' := (hfathers s').symm.trans hf
    have hfreed'' := (hfrees s').symm.trans hfreed'
    have hclosed' := (hcloseds s').symm.trans hclosed
    rcases h.live s' f hf' hfreed'' hclosed' with hold | hold
    · exact absurd hold (hnone s')
    · by_cases hfr : f = r
      · left
        rw [hfr, Waits, hwait] at hold
        cases hold
        simp
      · exact .inr ((hothers f s').mpr ⟨hfr, hold⟩)
  · exact h.buffer_put rfl fun hfreed => ⟨hfreed, rfl, rfl⟩
  · intro x s' hrun
    simp only [List.mem_cons, reduceCtorEq, false_or] at hrun
    exact absurd hrun hposts.not_run
  · intro s' st b hs' hmem
    simp only [List.mem_append, List.mem_singleton, reduceCtorEq, or_false] at hmem
    rcases h.pending s' st b hs' hmem with ⟨st', b', hs'', hret⟩ | ⟨f, hrun, hold⟩
    · exact .inl ⟨st', b', hs'', by simp [hret]⟩
    · rw [hcalls] at hrun
      rcases List.mem_cons.mp hrun with hrun | hrun
      · cases hrun
        rw [Waits, hwait] at hold
        cases hold
        exact .inl ⟨(w.requests s).statusCode, (w.requests s).sendBuffer.getD [],
          (w.requests r).headers, by simp⟩
      · exact absurd hrun hposts.not_run
  · intro e hmem
    rcases List.mem_append.mp hmem with hmem | hmem
    · exact h.logged e hmem
    · rw [List.mem_singleton.mp hmem]
      exact (h.fathers s r hfather).1
  · refine each_snoc.mpr ⟨h.owned, ?_, hlog⟩
    rw [hbuffer]
    exact ⟨hs, hend, htable⟩

/-- A script that has been resumed and calls no `phl.subrequest`. -/
theorem SubrInv.goesOn (h : SubrInv w) {closes : List Nat} {headers : List Header}
    {wait : Option LuaWait} {c : SubrCall} (hcalls : w.calls = closes.map .subrClose ++ rest)
    (hposts : OnlyPosts rest) (hr : r < w.next) (hwait : ∀ s, ¬w.Waits r s)
    (hawake : (w.requests r).fresh = false ∧ (w.requests r).inBody = false ∧
      (w.requests r).closed = false ∧ (w.requests r).freed = false)
    (hnew : ∀ s, wait ≠ some (.subrequest s)) (hc : c = .post r ∨ c = .run r) :
    SubrInv { w.put r { w.requests r with headers := headers, wait := wait } with
      calls := closes.map .subrClose ++ (c :: rest) } := by
  have hcalm : Calm w := by
    intro x s hrun
    rw [hcalls] at hrun
    exact absurd hrun (closes_not_run hposts)
  have hold := h.called
  rw [hcalls] at hold
  have hwait' : ∀ s, ¬Waits { w.put r { w.requests r with headers := headers, wait := wait } with
      calls := closes.map .subrClose ++ (c :: rest) } r s := by
    intro s hs
    simp only [Waits, put, Function.update_self] at hs
    exact hnew s hs
  apply h.steady hcalm
  · apply h.steady_set (r := r)
    · exact fun r' hne => put_ne hne
    · rfl
    · rfl
    · exact h.current
    · simp [put]
    · simp [put]
    · simp [put]
    · exact fun s => ⟨fun hs => absurd hs (hwait' s), fun hs => absurd hs (hwait s)⟩
    · simp [put, hawake]
    · intro f hf hfreed
      simp only [put, Function.update_self]
      exact h.buffer r f hf hfreed
  · intro x s hrun
    have hx : x = r := by
      rcases List.mem_append.mp hrun with hrun | hrun
      · simp at hrun
      · rcases List.mem_cons.mp hrun with hrun | hrun
        · rcases hc with hc | hc
          · rw [hc] at hrun
            cases hrun
          · rw [hc] at hrun
            cases hrun
            rfl
        · exact absurd hrun hposts.not_run
    rw [hx]
    exact hwait' s
  · apply shape_closes
    rcases hc with hc | hc <;> (rw [hc]; exact hposts)
  · intro x hx
    simp only [List.mem_append, List.mem_cons] at hx hold
    rcases hx with (hx | hx | hx) | (hx | hx | hx) | (hx | hx | hx)
    · exact hold x (.inl (.inl hx))
    · rcases hc with hc | hc
      · rw [hc] at hx
        cases hx
      · rw [hc] at hx
        cases hx
        exact hr
    · exact hold x (.inl (.inr hx))
    · exact hold x (.inr (.inl (.inl hx)))
    · rcases hc with hc | hc <;> (rw [hc] at hx; cases hx)
    · exact hold x (.inr (.inl (.inr hx)))
    · exact hold x (.inr (.inr (.inl hx)))
    · rcases hc with hc | hc <;> (rw [hc] at hx; cases hx)
    · exact hold x (.inr (.inr (.inr hx)))
  · intro x hx
    have hbody : .body x ∈ closes.map SubrCall.subrClose ++ rest := by
      rcases hc with hc | hc <;> simpa [hc] using hx
    exact absurd hbody (closes_not_body hposts)
  · intro s
    rw [hcalls]
    simp only [List.mem_append, List.mem_cons]
    have hne : SubrCall.subrClose s ≠ c := by
      rcases hc with hc | hc <;> simp [hc]
    simp [hne]

/-- The request that `phl.subrequest` makes. -/
theorem luaSubrequest_new {headers : List Header} :
    (w.luaResume r headers .subrequest).1.requests w.next = newRequest (some r) true :=
  put_same

theorem luaSubrequest_other {headers : List Header} {x : Nat} (hx : x ≠ w.next) (hxr : x ≠ r) :
    (w.luaResume r headers .subrequest).1.requests x = w.requests x :=
  (put_ne hx).trans (put_ne hxr)

theorem luaSubrequest_field {headers : List Header} {β : Type} (g : LuaRequest → β)
    (hg : ∀ q headers wait, g { q with headers := headers, wait := wait } = g q) {x : Nat}
    (hx : x ≠ w.next) :
    g ((w.luaResume r headers .subrequest).1.requests x) = g (w.requests x) := by
  have hput : (w.luaResume r headers .subrequest).1.requests x = (w.put r { w.requests r with
      headers := headers
      wait := some (.subrequest w.next) }).requests x := put_ne hx
  rw [hput]
  exact put_congr g (hg _ _ _) x

theorem luaSubrequest_self {headers : List Header} (hr : r < w.next) :
    (w.luaResume r headers .subrequest).1.Waits r w.next := by
  have hne : r ≠ w.next := by omega
  have hput : (w.luaResume r headers .subrequest).1.requests r = { w.requests r with
      headers := headers
      wait := some (.subrequest w.next) } := (put_ne hne).trans put_same
  rw [Waits, hput]

theorem luaSubrequest_waits {headers : List Header} {x : Nat} (hr : r < w.next)
    (hs : (w.luaResume r headers .subrequest).1.Waits x s) :
    x = r ∧ s = w.next ∨ x ≠ r ∧ x ≠ w.next ∧ w.Waits x s := by
  by_cases hx : x = w.next
  · rw [hx, Waits, luaSubrequest_new] at hs
    cases hs
  · by_cases hxr : x = r
    · have hself : (w.luaResume r headers .subrequest).1.Waits r w.next := luaSubrequest_self hr
      rw [hxr, Waits, hself] at hs
      cases hs
      exact .inl ⟨hxr, rfl⟩
    · rw [Waits, luaSubrequest_other hx hxr] at hs
      exact .inr ⟨hxr, hx, hs⟩

/-- A script that has been resumed and calls `phl.subrequest`. -/
theorem SubrInv.subrequest (h : SubrInv w) {closes : List Nat} {headers : List Header}
    (hcalls : w.calls = closes.map .subrClose ++ rest) (hposts : OnlyPosts rest)
    (hr : r < w.next) (hwait : ∀ s, ¬w.Waits r s)
    (hawake : (w.requests r).fresh = false ∧ (w.requests r).inBody = false ∧
      (w.requests r).closed = false ∧ (w.requests r).freed = false) :
    SubrInv { (w.luaResume r headers .subrequest).1 with
      calls := closes.map .subrClose ++ (.post r :: rest) } := by
  have hcalm : ∀ x, .run x ∉ w.calls := by
    intro x
    rw [hcalls]
    exact closes_not_run hposts
  have hcloses : ∀ s, .subrClose s ∈ closes.map SubrCall.subrClose ++ (.post r :: rest) ↔
      .subrClose s ∈ w.calls := by
    intro s
    rw [hcalls]
    simp
  have hfresh : ∀ s, .subrClose s ∈ w.calls → s ≠ w.next := by
    intro s hs
    have hlt := h.called s (.inr (.inr hs))
    omega
  obtain ⟨W, hW⟩ : ∃ W : LuaWorld, W = { (w.luaResume r headers .subrequest).1 with
      calls := closes.map .subrClose ++ (.post r :: rest) } := ⟨_, rfl⟩
  have hnew : W.requests w.next = newRequest (some r) true := by
    rw [hW]
    exact luaSubrequest_new
  have hother : ∀ x, x ≠ w.next → x ≠ r → W.requests x = w.requests x := by
    intro x hx hxr
    rw [hW]
    exact luaSubrequest_other hx hxr
  have hfield : ∀ {β : Type} (g : LuaRequest → β), (∀ q headers wait,
      g { q with headers := headers, wait := wait } = g q) → ∀ x, x ≠ w.next →
        g (W.requests x) = g (w.requests x) := by
    intro β g hg x hx
    rw [hW]
    exact luaSubrequest_field g hg hx
  have hfather := hfield (·.father) fun _ _ _ => rfl
  have hfreed := hfield (·.freed) fun _ _ _ => rfl
  have hclosed := hfield (·.closed) fun _ _ _ => rfl
  have hself : W.Waits r w.next := by
    rw [hW]
    exact luaSubrequest_self hr
  have hwaits : ∀ x s, W.Waits x s → x = r ∧ s = w.next ∨ x ≠ r ∧ x ≠ w.next ∧ w.Waits x s := by
    intro x s hs
    rw [hW] at hs
    exact luaSubrequest_waits hr hs
  have hnext : W.next = w.next + 1 := by rw [hW]; rfl
  have hlog : W.log = w.log := by rw [hW]; rfl
  have hcurrent : W.current = w.current := by rw [hW]; rfl
  have hnewCalls : W.calls = closes.map .subrClose ++ (.post r :: rest) := by rw [hW]
  rw [← hW]
  constructor
  · intro s f hf
    rw [hnext]
    by_cases hs : s = w.next
    · rw [hs, hnew] at hf
      cases hf
      omega
    · have hf' := (hfather s hs).symm.trans hf
      have hlt := h.fathers s f hf'
      omega
  · intro x hx
    rw [hcurrent] at hx
    have hlt := h.current x hx
    omega
  · intro x hx
    rw [hnewCalls] at hx
    have hlt : x < w.next := by
      apply h.called x
      rw [hcalls]
      simpa using hx
    omega
  · rw [hnewCalls]
    exact shape_closes hposts
  · intro x hx
    rw [hnewCalls] at hx
    exact absurd hx (closes_not_body hposts.cons)
  · intro x
    by_cases hx : x = w.next
    · rw [hx, hnew]
      exact fun _ => rfl
    · by_cases hxr : x = r
      · rw [hxr] at hx ⊢
        have hawake' : (W.requests r).fresh = false ∧ (W.requests r).inBody = false ∧
            (W.requests r).closed = false ∧ (W.requests r).freed = false :=
          ⟨(hfield (·.fresh) (fun _ _ _ => rfl) r hx).trans hawake.1,
            (hfield (·.inBody) (fun _ _ _ => rfl) r hx).trans hawake.2.1,
            (hclosed r hx).trans hawake.2.2.1, (hfreed r hx).trans hawake.2.2.2⟩
        simp [hawake']
      · rw [hother x hx hxr]
        exact h.awake x
  · intro f s hs
    rw [hnewCalls, hcloses, hlog]
    rcases hwaits f s hs with ⟨hf, hs⟩ | ⟨hfr, hf, hs⟩
    · rw [hf, hs, hnew]
      refine ⟨rfl, rfl, fun hmem => hfresh _ hmem rfl, fun st b hs hmem => ?_⟩
      have hlt := h.logged _ hmem
      exact absurd hlt (lt_irrefl _)
    · obtain ⟨hfather', hfreed', hrest⟩ := h.waits f s hs
      have hsn : s ≠ w.next := by
        have hlt := h.fathers s f hfather'
        omega
      exact ⟨(hfather s hsn).trans hfather', (hfreed s hsn).trans hfreed', hrest⟩
  · intro s f hf hfree hclose
    rw [hnewCalls, hcloses]
    by_cases hs : s = w.next
    · rw [hs] at hf ⊢
      rw [hnew] at hf
      cases hf
      exact .inr hself
    · rcases h.live s f ((hfather s hs).symm.trans hf) ((hfreed s hs).symm.trans hfree)
        ((hclosed s hs).symm.trans hclose) with hold | hold
      · exact .inl hold
      · right
        have hlt := h.fathers s f ((hfather s hs).symm.trans hf)
        have hfr : f ≠ r := by
          intro hfr
          rw [hfr] at hold
          exact hwait s hold
        rw [Waits, hother f (by omega) hfr]
        exact hold
  · intro s f hf hfree
    by_cases hs : s = w.next
    · rw [hs, hnew]
      rfl
    · have hold := h.buffer s f ((hfather s hs).symm.trans hf) ((hfreed s hs).symm.trans hfree)
      have hsend := hfield (·.sendBuffer) (fun _ _ _ => rfl) s hs
      have hgen := hfield (·.generated) (fun _ _ _ => rfl) s hs
      rw [hsend, hgen]
      exact hold
  · intro x s hrun
    rw [hnewCalls] at hrun
    exact absurd hrun (closes_not_run hposts.cons)
  · intro s st b hs hmem
    rw [hlog] at hmem ⊢
    rcases h.pending s st b hs hmem with hret | ⟨f, hrun, -⟩
    · exact .inl hret
    · exact absurd hrun (hcalm f)
  · intro e hmem
    rw [hlog] at hmem
    have hlt := h.logged e hmem
    omega
  · rw [hlog]
    exact h.owned

/-- A script that has been resumed goes on, in a request that waits for no subrequest. -/
theorem SubrInv.resumed (h : SubrInv w) {closes : List Nat} {headers : List Header} {next : LuaNext}
    (hcalls : w.calls = closes.map .subrClose ++ rest) (hposts : OnlyPosts rest)
    (hr : r < w.next) (hwait : ∀ s, ¬w.Waits r s)
    (hawake : (w.requests r).fresh = false ∧ (w.requests r).inBody = false ∧
      (w.requests r).closed = false ∧ (w.requests r).freed = false) :
    SubrInv { (w.luaResume r headers next).1 with
      calls := closes.map .subrClose ++ ((w.luaResume r headers next).2 ++ rest) } := by
  cases next with
  | sleep => exact h.goesOn hcalls hposts hr hwait hawake (by simp) (.inl rfl)
  | subrequest => exact h.subrequest hcalls hposts hr hwait hawake
  | finish => exact h.goesOn hcalls hposts hr hwait hawake (by simp) (.inr rfl)

/-- The call on top is left. -/
theorem SubrInv.pop {c : SubrCall} (h : SubrInv w) (hcalls : w.calls = c :: rest)
    (hposts : OnlyPosts rest) (hcalm : Calm w) (hc : ∀ s, c ≠ .subrClose s) :
    SubrInv { w with calls := rest } := by
  apply h.recall hcalm
  · exact SubrInv.calm_of_posts hposts
  · exact hposts.shape
  · exact fun r => hposts.called r w.next
  · exact fun r hr => absurd hr hposts.not_body
  · intro s
    rw [hcalls]
    have hne := hc s
    simp [Ne.symm hne]

theorem SubrInv.threadRun (h : SubrInv w) {headers : List Header} {next : LuaNext}
    (hcalls : w.calls = .run r :: rest)
    (hawake : (w.requests r).fresh = false ∧ (w.requests r).inBody = false ∧
      (w.requests r).closed = false ∧ (w.requests r).freed = false) :
    SubrInv { (w.phlLuaThreadRun r headers next).1 with
      calls := (w.phlLuaThreadRun r headers next).2 ++ rest } := by
  have hposts : OnlyPosts rest := h.shape_tail hcalls
  have hr := h.called r (by simp [hcalls])
  have hsimple : (∀ s, ¬w.Waits r s) → SubrInv { (w.phlLuaThreadRun r headers next).1 with
      calls := (w.phlLuaThreadRun r headers next).2 ++ rest } := by
    intro hnot
    have hcalm : Calm w := by
      intro x s hrun
      rw [hcalls] at hrun
      rcases List.mem_cons.mp hrun with hrun | hrun
      · cases hrun
        exact hnot s
      · exact absurd hrun hposts.not_run
    have hpop := h.pop hcalls hposts hcalm nofun
    have hcurrent : SubrInv { w with current := some r, calls := rest } := by
      have hsteady : LuaSteady { w with calls := rest }
          { w with current := some r, calls := rest } := by
        refine hpop.same rfl rfl rfl ?_
        intro x hx
        cases hx
        exact hr
      apply hpop.steady (SubrInv.calm_of_posts hposts) hsteady
      · exact SubrInv.calm_of_posts hposts
      · exact hposts.shape
      · exact fun x => hposts.called x w.next
      · exact fun x hx => absurd hx hposts.not_body
      · exact fun s => Iff.rfl
    have hgoes := @SubrInv.resumed _ r rest hcurrent [] headers next rfl hposts hr hnot hawake
    have hhandled : phlLuaApiResume { w with current := some r } r =
        ({ w with current := some r }, []) := by
      unfold phlLuaApiResume
      split
      next s hs => exact absurd hs (hnot s)
      next => rfl
    unfold phlLuaThreadRun
    rw [hhandled]
    cases next <;> exact hgoes
  cases hwait : (w.requests r).wait with
  | none =>
    apply hsimple
    intro s hs
    rw [Waits, hwait] at hs
    cases hs
  | some wait =>
    cases wait with
    | sleep =>
      apply hsimple
      intro s hs
      rw [Waits, hwait] at hs
      cases hs
    | subrequest s =>
      have hhandled := h.handled hcalls hwait
      have hgoes := @SubrInv.resumed _ r rest hhandled [s] headers next rfl hposts hr
        (by intro s' hs'; simp [Waits, put] at hs') (by simp [put, hawake])
      have hresume : phlLuaApiResume { w with current := some r } r =
          ({ w with
            current := some r
            log := w.log ++ [.returned s (w.requests s).statusCode
              ((w.requests s).sendBuffer.getD []) (w.requests r).headers] }, [.subrClose s]) := by
        unfold phlLuaApiResume
        simp only [hwait, Option.getD_some]
      unfold phlLuaThreadRun
      rw [hresume]
      have hsame : ∀ next, (luaResume { w with
            current := some r
            log := w.log ++ [.returned s (w.requests s).statusCode
              ((w.requests s).sendBuffer.getD []) (w.requests r).headers] } r headers next) =
          luaResume { w.put r { w.requests r with wait := none } with
            current := some r
            log := w.log ++ [.returned s (w.requests s).statusCode
              ((w.requests s).sendBuffer.getD []) (w.requests r).headers] } r headers next := by
        intro next
        cases next <;> simp [luaResume, phlRequestSubrNew, put]
      dsimp only
      rw [hsame]
      cases next <;> exact hgoes

/-- A write that no waiting request sees, in a call that goes on with another one. -/
theorem SubrInv.writes (h : SubrInv w) {c c' : SubrCall} (hcalls : w.calls = c :: rest)
    (hposts : OnlyPosts rest) (hcalm : Calm w) (hc : ∀ s, c ≠ .subrClose s)
    (hsteady : LuaSteady w (w.put r q))
    (hc' : (r < w.next ∧ q.wait = none ∧ (c' = .body r ∨ c' = .run r)) ∨ ∃ x, c' = .post x) :
    SubrInv { w.put r q with calls := c' :: rest } := by
  have hsteady' : LuaSteady w { w.put r q with calls := c' :: rest } :=
    ⟨hsteady.next, hsteady.log, hsteady.father, hsteady.freed, hsteady.closed, hsteady.waits,
      hsteady.current, hsteady.awake, hsteady.buffer⟩
  have hclose : ∀ s, SubrCall.subrClose s ≠ c' := by
    intro s
    rcases hc' with ⟨_, _, hc' | hc'⟩ | ⟨_, hc'⟩ <;> simp [hc']
  have hcall : ∀ x, .run x = c' ∨ .body x = c' → x = r ∧ r < w.next ∧ q.wait = none := by
    intro x hx
    rcases hc' with ⟨hlt, hwait, hc' | hc'⟩ | ⟨_, hc'⟩
    · rw [hc'] at hx
      exact ⟨by simpa using hx, hlt, hwait⟩
    · rw [hc'] at hx
      exact ⟨by simpa using hx, hlt, hwait⟩
    · rw [hc'] at hx
      simp at hx
  have hself : q.wait = none → ((w.put r q).requests r).wait = none := by
    intro hwait
    rw [put_same]
    exact hwait
  apply h.steady hcalm hsteady'
  · intro x s hrun hs
    rcases List.mem_cons.mp hrun with hrun | hrun
    · obtain ⟨hx, -, hwait⟩ := hcall x (.inl hrun)
      rw [hx] at hs
      have hnone := hself hwait
      change ((w.put r q).requests r).wait = _ at hs
      rw [hnone] at hs
      cases hs
    · exact absurd hrun hposts.not_run
  · rcases hc' with ⟨_, _, hc' | hc'⟩ | ⟨_, hc'⟩ <;> (rw [hc']; exact hposts)
  · intro x hx
    simp only [List.mem_cons] at hx
    rcases hx with (hx | hx) | (hx | hx) | (hx | hx)
    · obtain ⟨hxr, hlt, -⟩ := hcall x (.inl hx)
      rw [hxr]
      exact hlt
    · exact absurd hx hposts.not_run
    · obtain ⟨hxr, hlt, -⟩ := hcall x (.inr hx)
      rw [hxr]
      exact hlt
    · exact absurd hx hposts.not_body
    · exact absurd hx (hclose x)
    · exact absurd hx hposts.not_subrClose
  · intro x hx
    rcases List.mem_cons.mp hx with hx | hx
    · obtain ⟨hxr, -, hwait⟩ := hcall x (.inr hx)
      rw [hxr]
      exact hself hwait
    · exact absurd hx hposts.not_body
  · intro s
    have hne := hc s
    have hne' := hclose s
    rw [hcalls]
    simp [Ne.symm hne, hne']

/-- The close of a request that is running. -/
theorem SubrInv.close (h : SubrInv w) (hposts : OnlyPosts w.calls)
    (hfreed : (w.requests r).freed = false) (hclosed : (w.requests r).closed = false)
    (hawake : (w.requests r).wait = none) (hsame : w.SameTable r) :
    SubrInv { (w.phlRequestClose r).1 with calls := (w.phlRequestClose r).2 ++ w.calls } := by
  cases hfather : (w.requests r).father with
  | none =>
    have hclose : w.phlRequestClose r = (w.put r { w.requests r with closed := true, wait := none },
        (w.subrs r).map .subrClose) := by
      simp only [LuaWorld.phlRequestClose, hfather]
    rw [hclose]
    exact h.closeClient hposts hfather
  | some f =>
    have hclose : w.phlRequestClose r = ({ w.put r { w.requests r with closed := true } with
        log := w.log ++ [.ended r (w.requests r).statusCode (w.requests r).generated
          (w.requests r).headers] }, [.run f]) := by
      simp only [LuaWorld.phlRequestClose, hfather]
    rw [hclose]
    exact h.closeSubr hposts hfather hfreed hclosed hawake hsame

theorem steady_put (h : SubrInv w) (hfather : q.father = (w.requests r).father)
    (hfreed : q.freed = (w.requests r).freed) (hclosed : q.closed = (w.requests r).closed)
    (hwait : q.wait = (w.requests r).wait)
    (hawake : q.fresh ∨ q.inBody ∨ q.closed ∨ q.freed → q.wait = none)
    (hbuffer : ∀ f, (w.requests r).father = some f → (w.requests r).freed = false →
      q.sendBuffer.getD [] = q.generated) : LuaSteady w (w.put r q) := by
  apply h.steady_set (r := r)
  · exact fun r' hne => put_ne hne
  · rfl
  · rfl
  · exact h.current
  · rw [put_same, hfather]
  · rw [put_same, hfreed]
  · rw [put_same, hclosed]
  · intro s
    rw [Waits, put_same, hwait, Waits]
  · rw [put_same]
    exact hawake
  · rw [put_same]
    exact hbuffer

theorem SubrInv.written (h : SubrInv w) (hcalm : Calm w) (hsteady : LuaSteady w (w.put r q))
    (hwait : q.wait = (w.requests r).wait) : SubrInv (w.put r q) := by
  apply h.steady hcalm hsteady
  · exact fun x s hrun hs => hcalm x s hrun ((hsteady.waits x s).mp hs)
  · exact h.shape
  · exact h.called
  · intro x hx
    rw [put_congr (·.wait) hwait x]
    exact h.bodies x hx
  · exact fun s => Iff.rfl

/-- A request that runs is fresh no more. -/
theorem SubrInv.unfresh (h : SubrInv w) (hcalls : w.calls = .run r :: rest)
    (hposts : OnlyPosts rest) :
    SubrInv (w.put r { w.requests r with fresh := false }) := by
  by_cases hfresh : (w.requests r).fresh = true
  · have hwait := h.awake r (.inl hfresh)
    have hcalm : Calm w := by
      intro x s hrun hs
      rw [hcalls] at hrun
      rcases List.mem_cons.mp hrun with hrun | hrun
      · cases hrun
        rw [Waits, hwait] at hs
        cases hs
      · exact hposts.not_run hrun
    have hsteady : LuaSteady w (w.put r { w.requests r with fresh := false }) := by
      refine steady_put h rfl rfl rfl rfl ?_ ?_
      · exact fun _ => hwait
      · exact h.buffer r
    exact h.written hcalm hsteady rfl
  · have hsame : w.put r { w.requests r with fresh := false } = w := by
      have hq : { w.requests r with fresh := false } = w.requests r := by
        rw [← Bool.not_eq_true _ |>.mp hfresh]
      rw [hq, put, Function.update_eq_self]
    rw [hsame]
    exact h

/-- A call is replaced, and nothing is written. -/
theorem SubrInv.turn (h : SubrInv w) {c c' : SubrCall} (hcalls : w.calls = c :: rest)
    (hposts : OnlyPosts rest) (hcalm : Calm w) (hc : ∀ s, c ≠ .subrClose s)
    (hc' : (r < w.next ∧ (w.requests r).wait = none ∧ (c' = .body r ∨ c' = .run r)) ∨
      ∃ x, c' = .post x) :
    SubrInv { w with calls := c' :: rest } := by
  have hself : w.put r (w.requests r) = w := by
    rw [put, Function.update_eq_self]
  have hsteady : LuaSteady w (w.put r (w.requests r)) := by
    rw [hself]
    exact h.same rfl rfl rfl h.current
  have hwrites := h.writes hcalls hposts hcalm hc hsteady hc'
  rw [hself] at hwrites
  exact hwrites

/-- The close of the request whose call is on top. -/
theorem SubrInv.closeTop (h : SubrInv w) {c : SubrCall} (hcalls : w.calls = c :: rest)
    (hposts : OnlyPosts rest) (hcalm : Calm w) (hc : ∀ s, c ≠ .subrClose s)
    (hfreed : (w.requests r).freed = false) (hclosed : (w.requests r).closed = false)
    (hwait : (w.requests r).wait = none) (hsame : w.SameTable r) :
    SubrInv { (w.phlRequestClose r).1 with calls := (w.phlRequestClose r).2 ++ rest } := by
  have hpop := h.pop hcalls hposts hcalm hc
  have hclose := hpop.close (r := r) hposts hfreed hclosed hwait hsame
  unfold LuaWorld.phlRequestClose at hclose ⊢
  cases hfather : (w.requests r).father with
  | none =>
    simp only [hfather] at hclose ⊢
    exact hclose
  | some f =>
    simp only [hfather] at hclose ⊢
    exact hclose

theorem SubrInv.failTop (h : SubrInv w) {c : SubrCall} (hcalls : w.calls = c :: rest)
    (hposts : OnlyPosts rest) (hcalm : Calm w) (hc : ∀ s, c ≠ .subrClose s) (hr : r < w.next)
    (hfreed : (w.requests r).freed = false) (hclosed : (w.requests r).closed = false)
    (hwait : (w.requests r).wait = none)
    (hsame : (w.requests r).statusCode = 0 → w.SameTable r) :
    SubrInv { (w.phlRequestFail r).1 with calls := (w.phlRequestFail r).2 ++ rest } := by
  unfold phlRequestFail
  dsimp only
  split
  next hstatus => exact h.closeTop hcalls hposts hcalm hc hfreed hclosed hwait (hsame hstatus)
  next =>
    refine h.writes hcalls hposts hcalm hc ?_ (.inl ⟨hr, hwait, .inr rfl⟩)
    refine steady_put h rfl rfl rfl rfl ?_ ?_
    · exact fun _ => hwait
    · exact h.buffer r

theorem SubrInv.runOpen (h : SubrInv w) (choice : SubrChoice) {x : LuaWorld × List SubrCall}
    (hcalls : w.calls = .run r :: rest)
    (hposts : OnlyPosts rest) (hfresh : (w.requests r).fresh = false)
    (hfreed : (w.requests r).freed = false) (hclosed : (w.requests r).closed = false)
    (hok : choice = .fail ∧ (w.requests r).statusCode = 0 → w.SameTable r)
    (hstep : w.phlRequestRun r choice = some x) :
    SubrInv { x.1 with calls := x.2 ++ rest } := by
  have hr := h.called r (by simp [hcalls])
  have hnot : ∀ s, SubrCall.run r ≠ .subrClose s := nofun
  have hcalm : (w.requests r).wait = none → Calm w := by
    intro hwait y s hrun hs
    rw [hcalls] at hrun
    rcases List.mem_cons.mp hrun with hrun | hrun
    · cases hrun
      rw [Waits, hwait] at hs
      cases hs
    · exact absurd hrun hposts.not_run
  have hq : { w.requests r with fresh := false } = w.requests r := by
    rw [← hfresh]
  have hself : w.put r (w.requests r) = w := by
    rw [put, Function.update_eq_self]
  unfold LuaWorld.phlRequestRun at hstep
  rw [hq] at hstep
  dsimp only at hstep
  rw [hself, if_neg (by simp [hfreed, hclosed])] at hstep
  split at hstep
  next hbody =>
    cases hstep
    have hwait := h.awake r (.inr (.inl hbody))
    exact h.turn hcalls hposts (hcalm hwait) hnot (.inl ⟨hr, hwait, .inl rfl⟩)
  next hbody =>
    cases choice with
    | again =>
      simp only [Option.ite_none_right_eq_some] at hstep
      obtain ⟨hwait, hx⟩ := hstep
      cases hx
      exact h.turn (r := r) hcalls hposts (hcalm hwait) hnot (.inr ⟨r, rfl⟩)
    | lua headers next =>
      cases hstep
      exact h.threadRun hcalls ⟨hfresh, by simpa using hbody, hclosed, hfreed⟩
    | respond statusCode headers =>
      simp only [Option.ite_none_right_eq_some] at hstep
      obtain ⟨hwait, hx⟩ := hstep
      cases hx
      refine h.writes hcalls hposts (hcalm hwait) hnot ?_ (.inl ⟨hr, hwait, .inl rfl⟩)
      refine steady_put h rfl rfl rfl rfl ?_ ?_
      · exact fun _ => hwait
      · exact h.buffer r
    | fail =>
      simp only [Option.ite_none_right_eq_some] at hstep
      obtain ⟨hwait, hx⟩ := hstep
      cases hx
      exact h.failTop hcalls hposts (hcalm hwait) hnot hr hfreed hclosed hwait
        fun hstatus => hok ⟨rfl, hstatus⟩
    | piece data isLast => cases hstep

theorem run_keeps {choice : SubrChoice} {x : LuaWorld × List SubrCall} (h : SubrInv w)
    (hcalls : w.calls = .run r :: rest)
    (hok : choice = .fail ∧ (w.requests r).statusCode = 0 → w.SameTable r)
    (hstep : w.phlRequestRun r choice = some x) :
    SubrInv { x.1 with calls := x.2 ++ rest } := by
  have hposts : OnlyPosts rest := h.shape_tail hcalls
  by_cases hgone : (w.requests r).freed = true ∨ (w.requests r).closed = true
  · have hleft : x = (w, []) := by
      unfold LuaWorld.phlRequestRun at hstep
      dsimp only at hstep
      rw [if_pos hgone] at hstep
      cases hstep
      rfl
    rw [hleft]
    have hwait := h.awake r (.inr (.inr hgone.symm))
    refine h.pop hcalls hposts ?_ nofun
    intro y s hrun hs
    rw [hcalls] at hrun
    rcases List.mem_cons.mp hrun with hrun | hrun
    · cases hrun
      rw [Waits, hwait] at hs
      cases hs
    · exact absurd hrun hposts.not_run
  · have hopen : (w.requests r).freed = false ∧ (w.requests r).closed = false := by
      simpa using hgone
    have hw := h.unfresh hcalls hposts
    have hsame : LuaWorld.phlRequestRun (w.put r { w.requests r with fresh := false }) r choice =
        w.phlRequestRun r choice := by
      obtain ⟨q, hq⟩ : ∃ q, { w.requests r with fresh := false } = q := ⟨_, rfl⟩
      have hq' : { q with fresh := false } = q := by rw [← hq]
      have hopen' : ¬(q.freed = true ∨ q.closed = true) := by
        rw [← hq]
        exact hgone
      have htwice : (w.put r q).put r q = w.put r q := by
        simp only [put, Function.update_idem]
      unfold LuaWorld.phlRequestRun
      rw [hq, put_same, hq']
      dsimp only
      rw [if_neg hopen', if_neg hopen', htwice]
    refine SubrInv.runOpen hw choice hcalls hposts ?_ ?_ ?_ ?_ (hsame.trans hstep)
    · rw [put_same]
    · rw [put_same]
      exact hopen.1
    · rw [put_same]
      exact hopen.2
    · intro ⟨hfail, hstatus⟩
      rw [put_same] at hstatus
      exact sameTable_put (hok ⟨hfail, hstatus⟩) rfl rfl

theorem SubrInv.calm_of_body (h : SubrInv w) (hcalls : w.calls = .body r :: rest) : Calm w := by
  have hposts : OnlyPosts rest := h.shape_tail hcalls
  intro y s hrun
  rw [hcalls] at hrun
  rcases List.mem_cons.mp hrun with hrun | hrun
  · cases hrun
  · exact absurd hrun hposts.not_run

/-- What is left of a round that has written the request as `q`. -/
theorem SubrInv.finishRound (h : SubrInv w) (hcalls : w.calls = .body r :: rest)
    (hsteady : LuaSteady w (w.put r q)) (hqwait : q.wait = (w.requests r).wait)
    (hfreed : q.freed = false) (hclosed : q.closed = false) {isLast : Bool}
    (hsame : isLast = true → w.SameTable r) (hfather : q.father = (w.requests r).father)
    (hheaders : q.headers = (w.requests r).headers) :
    SubrInv { (if isLast = true then (w.put r q).phlRequestClose r
        else (w.put r q, [.body r])).1 with
      calls := (if isLast = true then (w.put r q).phlRequestClose r
        else (w.put r q, [.body r])).2 ++ rest } := by
  have hposts : OnlyPosts rest := h.shape_tail hcalls
  have hr := h.called r (by simp [hcalls])
  have hwait := h.bodies r (by simp [hcalls])
  have hnot : ∀ s, SubrCall.body r ≠ .subrClose s := nofun
  have hcalm := h.calm_of_body hcalls
  cases isLast with
  | false =>
    have hnone := hqwait.trans hwait
    exact h.writes hcalls hposts hcalm hnot hsteady (.inl ⟨hr, hnone, .inl rfl⟩)
  | true =>
    have hw := h.written hcalm hsteady hqwait
    refine SubrInv.closeTop (r := r) hw hcalls hposts ?_ hnot ?_ ?_ ?_ ?_
    · exact fun y s hrun hs => hcalm y s hrun ((hsteady.waits y s).mp hs)
    · rw [put_same]
      exact hfreed
    · rw [put_same]
      exact hclosed
    · rw [put_same]
      exact hqwait.trans hwait
    · exact sameTable_put (hsame rfl) hfather hheaders

theorem body_keeps {choice : SubrChoice} {x : LuaWorld × List SubrCall} (h : SubrInv w)
    (hcalls : w.calls = .body r :: rest)
    (hroom : 4096 ≤ bufSize → 4096 ≤ bufSize - ((w.requests r).sendBuffer.getD []).length)
    (hok : Ends bufSize (w.requests r) choice → w.SameTable r)
    (hstep : w.phlRequestResponseBody bufSize r choice = some x) :
    SubrInv { x.1 with calls := x.2 ++ rest } := by
  have hposts : OnlyPosts rest := h.shape_tail hcalls
  have hr := h.called r (by simp [hcalls])
  have hwait := h.bodies r (by simp [hcalls])
  have hnot : ∀ s, SubrCall.body r ≠ .subrClose s := nofun
  have hcalm := h.calm_of_body hcalls
  unfold LuaWorld.phlRequestResponseBody at hstep
  dsimp only at hstep
  split at hstep
  next =>
    cases hstep
    exact h.pop hcalls hposts hcalm hnot
  next hopen =>
    have hopen' : (w.requests r).freed = false ∧ (w.requests r).closed = false := by
      simpa using hopen
    split at hstep
    next hfather =>
      have hself : w.put r (w.requests r) = w := by
        rw [put, Function.update_eq_self]
      have hsteady : LuaSteady w (w.put r (w.requests r)) := by
        rw [hself]
        exact h.same rfl rfl rfl h.current
      have hsame : w.SameTable r := by
        intro f hf
        rw [hfather] at hf
        cases hf
      have hdone : ∀ isLast, SubrInv { (if isLast = true then w.phlRequestClose r
          else (w, [.body r])).1 with
            calls := (if isLast = true then w.phlRequestClose r
              else (w, [.body r])).2 ++ rest } := by
        intro isLast
        have hround := h.finishRound hcalls hsteady rfl hopen'.1 hopen'.2
          (fun _ : isLast = true => hsame) rfl rfl
        rw [hself] at hround
        exact hround
      have hfail := h.failTop hcalls hposts hcalm hnot hr hopen'.1 hopen'.2 hwait fun _ => hsame
      cases choice with
      | again =>
        cases hstep
        exact h.turn (r := r) hcalls hposts hcalm hnot (.inr ⟨r, rfl⟩)
      | piece data isLast =>
        cases hstep
        exact hdone isLast
      | fail =>
        cases hstep
        exact hfail
      | lua headers next => cases hstep
      | respond statusCode headers => cases hstep
    next f hfather =>
      have hbuffer := h.buffer r f hfather hopen'.1
      by_cases hsize : bufSize < 4096
      · rw [if_pos hsize] at hstep
        cases hstep
        exact h.failTop hcalls hposts hcalm hnot hr hopen'.1 hopen'.2 hwait
          fun hstatus => hok (.inl ⟨.inl hsize, hstatus⟩)
      rw [if_neg hsize] at hstep
      have hsize' : 4096 ≤ bufSize := by omega
      simp only [makeSpace, if_pos (hroom hsize')] at hstep
      have hmade : LuaSteady w (w.put r { w.requests r with
          sendBuffer := some ((w.requests r).sendBuffer.getD [])
          deferred := true }) := by
        refine steady_put h rfl rfl rfl rfl ?_ ?_
        · exact h.awake r
        · exact fun _ _ _ => hbuffer
      cases choice with
      | again =>
        cases hstep
        exact h.writes hcalls hposts hcalm hnot hmade (.inr ⟨r, rfl⟩)
      | piece data isLast =>
        simp only [Option.ite_none_right_eq_some] at hstep
        obtain ⟨-, hx⟩ := hstep
        cases hx
        have hgenerate : (w.put r { w.requests r with
            sendBuffer := some ((w.requests r).sendBuffer.getD [])
            deferred := true }).generate r data = w.put r { w.requests r with
              sendBuffer := some ((w.requests r).sendBuffer.getD [] ++ data)
              deferred := true
              generated := (w.requests r).generated ++ data } := by
          unfold generate
          rw [put_same]
          simp only [put, Function.update_idem, Option.getD_some]
        rw [hgenerate]
        refine h.finishRound (q := { w.requests r with
          sendBuffer := some ((w.requests r).sendBuffer.getD [] ++ data)
          deferred := true
          generated := (w.requests r).generated ++ data }) hcalls
          ?_ rfl hopen'.1 hopen'.2 ?_ rfl rfl
        · refine steady_put h rfl rfl rfl rfl ?_ ?_
          · exact h.awake r
          · intro _ _ _
            simp [hbuffer]
        · intro hlast
          exact hok (.inr ⟨hsize', data, by rw [hlast]⟩)
      | fail =>
        cases hstep
        have hw := h.written hcalm hmade rfl
        refine SubrInv.failTop (r := r) hw hcalls hposts ?_ hnot hr ?_ ?_ ?_ ?_
        · exact fun y s hrun hs => hcalm y s hrun ((hmade.waits y s).mp hs)
        · rw [put_same]
          exact hopen'.1
        · rw [put_same]
          exact hopen'.2
        · rw [put_same]
          exact hwait
        · intro hstatus
          rw [put_same] at hstatus
          exact sameTable_put (hok (.inl ⟨.inr rfl, hstatus⟩)) rfl rfl
      | lua headers next => cases hstep
      | respond statusCode headers => cases hstep

theorem post_keeps (h : SubrInv w) (hcalls : w.calls = .post r :: rest) :
    SubrInv { (w.phlRequestRunPost r).1 with calls := (w.phlRequestRunPost r).2 ++ rest } := by
  have hposts : OnlyPosts rest := h.shape_tail hcalls
  have hcalm : Calm w := by
    intro y s hrun
    rw [hcalls] at hrun
    rcases List.mem_cons.mp hrun with hrun | hrun
    · cases hrun
    · exact absurd hrun hposts.not_run
  unfold phlRequestRunPost
  split
  next => exact h.pop hcalls hposts hcalm nofun
  next s hfind =>
    have hfresh : (w.requests s).fresh = true := by simpa using List.find?_some hfind
    have hlt := (mem_subrs.mp (List.mem_of_find?_eq_some hfind)).1
    have hwait := h.awake s (.inl hfresh)
    apply h.recall hcalm
    · intro y s' hrun hs
      rcases List.mem_cons.mp hrun with hrun | hrun
      · cases hrun
        change (w.requests s).wait = _ at hs
        rw [hwait] at hs
        cases hs
      · exact hposts.cons.not_run hrun
    · exact hposts.cons
    · intro y hy
      simp only [List.cons_append, List.nil_append, List.mem_cons, SubrCall.run.injEq, reduceCtorEq,
        false_or] at hy
      rcases hy with (hy | hy) | hy | hy
      · rw [hy]
        exact hlt
      · exact absurd hy hposts.not_run
      · exact absurd hy hposts.not_body
      · exact absurd hy hposts.not_subrClose
    · intro y hy
      simp only [List.cons_append, List.nil_append, List.mem_cons, reduceCtorEq, false_or] at hy
      exact absurd hy hposts.not_body
    · intro y
      rw [hcalls]
      simp

theorem call_keeps {choice : SubrChoice} {c : SubrCall} {x : LuaWorld × List SubrCall}
    (h : SubrInv w) (hok : Undivided bufSize w (.call choice)) (hcalls : w.calls = c :: rest)
    (hstep : subrCallStep bufSize w choice c = some x) :
    SubrInv { x.1 with calls := x.2 ++ rest } := by
  have hok' := hok c rest hcalls
  cases c with
  | run r => exact run_keeps h hcalls hok' hstep
  | post r =>
    cases hstep
    exact post_keeps h hcalls
  | body r => exact body_keeps h hcalls hok'.1 hok'.2 hstep
  | subrClose r =>
    cases hstep
    exact h.subrClose hcalls

/-- Another source than a subrequest that has ended runs a request. -/
theorem wake_keeps (h : SubrInv w) (hcalls : w.calls = []) (hr : r < w.next)
    (hwait : ∀ s, ¬w.Waits r s) : SubrInv { w with calls := [.run r] } := by
  have hnone : OnlyPosts w.calls := by
    rw [hcalls]
    exact nofun
  apply h.recall (SubrInv.calm_of_posts hnone)
  · intro y s hrun
    cases List.mem_singleton.mp hrun
    exact hwait s
  · exact nofun
  · intro y hy
    simp only [List.mem_singleton, SubrCall.run.injEq, reduceCtorEq, or_false] at hy
    rw [hy]
    exact hr
  · simp
  · simp [hcalls]

theorem accept_keeps (h : SubrInv w) (hcalls : w.calls = []) :
    SubrInv { w.put w.next (newRequest none false) with next := w.next + 1 } := by
  have hold : ∀ s, s ≠ w.next → (w.put w.next (newRequest none false)).requests s = w.requests s :=
    fun s hs => put_ne hs
  have hnone : OnlyPosts w.calls := by
    rw [hcalls]
    exact nofun
  have hwaits : ∀ f s, (w.put w.next (newRequest none false)).Waits f s → f ≠ w.next ∧
      w.Waits f s := by
    intro f s hs
    have hf : f ≠ w.next := by
      intro hf
      rw [hf, Waits, put_same] at hs
      cases hs
    rw [Waits, hold f hf] at hs
    exact ⟨hf, hs⟩
  have hfathers : ∀ s f, ((w.put w.next (newRequest none false)).requests s).father = some f →
      s ≠ w.next ∧ (w.requests s).father = some f := by
    intro s f hf
    have hs : s ≠ w.next := by
      intro hs
      rw [hs, put_same] at hf
      cases hf
    rw [hold s hs] at hf
    exact ⟨hs, hf⟩
  constructor
  · intro s f hf
    obtain ⟨hs, hf⟩ := h.fathers s f (hfathers s f hf).2
    exact ⟨hs.trans (Nat.lt_succ_self _), hf.trans (Nat.lt_succ_self _)⟩
  · intro y hy
    exact (h.current y hy).trans (Nat.lt_succ_self _)
  · exact fun y => hnone.called y _
  · exact h.shape
  · exact fun y hy => absurd hy hnone.not_body
  · intro y
    by_cases hy : y = w.next
    · intro _
      rw [hy]
      exact congrArg LuaRequest.wait put_same
    · dsimp only
      rw [hold y hy]
      exact h.awake y
  · intro f s hs
    obtain ⟨hf, hs⟩ := hwaits f s hs
    obtain ⟨hfather, hrest⟩ := h.waits f s hs
    have hlt := h.fathers s f hfather
    dsimp only
    rw [hold s (by omega)]
    exact ⟨hfather, hrest⟩
  · intro s f hf hfreed hclosed
    obtain ⟨hs, hf⟩ := hfathers s f hf
    dsimp only at hfreed hclosed
    rw [hold s hs] at hfreed hclosed
    have hlt := h.fathers s f hf
    rcases h.live s f hf hfreed hclosed with hmem | hwait
    · exact .inl hmem
    · right
      rw [Waits]
      dsimp only
      rw [hold f (by omega)]
      exact hwait
  · intro s f hf hfreed
    obtain ⟨hs, hf⟩ := hfathers s f hf
    dsimp only at hfreed ⊢
    rw [hold s hs] at hfreed ⊢
    exact h.buffer s f hf hfreed
  · exact fun y s hrun => absurd hrun hnone.not_run
  · intro s st b hs hmem
    rcases h.pending s st b hs hmem with hret | ⟨f, hrun, -⟩
    · exact .inl hret
    · exact absurd hrun hnone.not_run
  · intro e he
    exact (h.logged e he).trans (Nat.lt_succ_self _)
  · exact h.owned

theorem defer_keeps (h : SubrInv w) (hok : Undivided bufSize w (.defer r))
    (hstep : subrStep bufSize w (.defer r) = some w') : SubrInv w' := by
  simp only [subrStep] at hstep
  split at hstep
  next => cases hstep
  next hcalls =>
    have hcalls' : w.calls = [] := by simpa using hcalls
    have hnone : OnlyPosts w.calls := by
      rw [hcalls']
      exact nofun
    split at hstep
    next father hfather =>
      split at hstep
      next =>
        have hempty : SubrInv (w.put r { w.requests r with
            sendBuffer := none
            deferred := false }) := by
          refine h.written (SubrInv.calm_of_posts hnone) ?_ rfl
          refine steady_put h rfl rfl rfl rfl (h.awake r) ?_
          intro f hf hfreed
          rw [← h.buffer r f hf hfreed]
          exact hok.symm
        split at hstep
        next =>
          cases hstep
          exact hempty
        next =>
          cases hstep
          exact hempty
        next data hne hdata =>
          have hdata' : data = [] := by
            have hroom : (w.requests r).sendBuffer.getD [] = [] := hok
            rw [hdata] at hroom
            exact hroom
          exact absurd hdata' hne
      next => cases hstep
    next => cases hstep

theorem subrStep_keeps {act : SubrAct} (h : SubrInv w) (hok : Undivided bufSize w act)
    (hstep : subrStep bufSize w act = some w') : SubrInv w' := by
  have hidle : ∀ {x : Option LuaWorld}, (if w.calls ≠ [] then none else x) = some w' →
      w.calls = [] ∧ x = some w' := by
    intro x hx
    split at hx
    next => cases hx
    next hcalls => exact ⟨by simpa using hcalls, hx⟩
  cases act with
  | call choice =>
    simp only [subrStep] at hstep
    split at hstep
    next => cases hstep
    next c rest hcalls =>
      obtain ⟨x, hx, hw'⟩ := Option.map_eq_some_iff.mp hstep
      rw [← hw']
      exact call_keeps h hok hcalls hx
  | accept =>
    obtain ⟨hcalls, hx⟩ := hidle hstep
    cases hx
    exact accept_keeps h hcalls
  | wake r =>
    obtain ⟨hcalls, hx⟩ := hidle hstep
    simp only [Option.ite_none_right_eq_some] at hx
    obtain ⟨⟨hr, -⟩, hx⟩ := hx
    cases hx
    exact wake_keeps h hcalls hr hok
  | timer =>
    obtain ⟨hcalls, hx⟩ := hidle hstep
    obtain ⟨r, hr, hw'⟩ := Option.map_eq_some_iff.mp hx
    rw [← hw']
    exact wake_keeps h hcalls (h.current r hr) fun s => hok r s hr
  | luaCall r =>
    obtain ⟨hcalls, hx⟩ := hidle hstep
    simp only [Option.ite_none_right_eq_some] at hx
    obtain ⟨hr, hx⟩ := hx
    cases hx
    have hnone : OnlyPosts w.calls := by
      rw [hcalls]
      exact nofun
    have hcalm := SubrInv.calm_of_posts hnone
    refine h.steady hcalm (h.same rfl rfl rfl ?_) hcalm h.shape h.called h.bodies fun s => Iff.rfl
    intro y hy
    cases hy
    exact hr
  | defer r => exact defer_keeps h hok hstep
  | disconnect r =>
    obtain ⟨hcalls, hx⟩ := hidle hstep
    simp only [Option.ite_none_right_eq_some] at hx
    obtain ⟨⟨hfather, -⟩, hx⟩ := hx
    have hnone : OnlyPosts w.calls := by
      rw [hcalls]
      exact nofun
    have hclose := h.closeClient hnone hfather
    have hclosed : w.phlRequestClose r = (w.put r { w.requests r with closed := true, wait := none },
        (w.subrs r).map .subrClose) := by
      simp only [LuaWorld.phlRequestClose, hfather]
    rw [hclosed] at hx
    rw [hcalls, List.append_nil] at hclose
    cases hx
    exact hclose

theorem subrStart_keeps (h : SubrStart w) : SubrInv w where
  fathers := by
    intro s f hf
    rw [h.requests s] at hf
    cases hf
  current := by
    rw [h.current]
    exact nofun
  called := by simp [h.calls]
  shape := by
    rw [h.calls]
    trivial
  bodies := by simp [h.calls]
  awake := by
    intro r _
    rw [h.requests r]
    rfl
  waits := by
    intro f s hwait
    rw [Waits, h.requests f] at hwait
    cases hwait
  live := by
    intro s f hf
    rw [h.requests s] at hf
    cases hf
  buffer := by
    intro s f hf
    rw [h.requests s] at hf
    cases hf
  runs := by simp [h.calls]
  pending := by simp [h.log]
  logged := by simp [h.log]
  owned := by
    rw [h.log]
    exact each_nil

/-- Where a response comes in one go and nothing else runs a request that waits for it,
`phl.subrequest` returns once, after the end, with all of the response. -/
theorem subrequest_returns
    (h : Reachable SubrStart (ActStep (subrStep bufSize) (Undivided bufSize)) w) :
    Each returnedAfter w.log ∧ (w.calls = [] → ∀ s st b hs, .ended s st b hs ∈ w.log →
      ∃ st b hs, .returned s st b hs ∈ w.log) := by
  have hinv : SubrInv w :=
    h.invariant (fun _ => subrStart_keeps) fun _ _ hs ⟨_, hok, hstep⟩ =>
      subrStep_keeps hs hok hstep
  refine ⟨hinv.owned, ?_⟩
  intro hcalls s st b hs hmem
  rcases hinv.pending s st b hs hmem with hret | ⟨f, hrun, -⟩
  · exact hret
  · rw [hcalls] at hrun
    cases hrun

end Steps

def noRequests : LuaWorld := ⟨fun _ => newRequest none false, 0, none, [], []⟩

def serverHeader : Header := ⟨bytes "Server", bytes "phorklift"⟩

theorem start_noRequests : SubrStart noRequests := ⟨fun _ => rfl, rfl, rfl, rfl, rfl⟩

/-- A response of two pieces, with no other event before its end. -/
theorem subrequest_returns_twoPieces : ∃ w,
    Reachable SubrStart (ActStep (subrStep 16384) (Undivided 16384)) w ∧
    w.log = [.ended 1 200 (bytes "ab") [serverHeader],
      .returned 1 200 (bytes "ab") [serverHeader]] ∧
    (Each returnedAfter w.log ∧ (w.calls = [] → ∀ s st b hs, .ended s st b hs ∈ w.log →
      ∃ st b hs, .returned s st b hs ∈ w.log)) := by
  let acts : List SubrAct := [.accept, .wake 0, .call (.lua [serverHeader] .subrequest),
    .call .again, .call (.respond 200 [serverHeader]), .call (.piece (bytes "a") false),
    .call (.piece (bytes "b") true), .call (.lua [] .finish)]
  have hrun : (runActs (subrStep 16384) acts noRequests).map (·.log) =
      some [.ended 1 200 (bytes "ab") [serverHeader],
        .returned 1 200 (bytes "ab") [serverHeader]] := by
    decide
  obtain ⟨w, hw, hlog⟩ := Option.map_eq_some_iff.mp hrun
  have hok : ActsMeet (subrStep 16384) (Undivided 16384) acts noRequests := by
    refine ⟨trivial, fun w1 h1 => ?_⟩
    cases Option.some.inj h1
    refine ⟨?_, fun w2 h2 => ?_⟩
    · intro s hs
      cases hs
    cases Option.some.inj h2
    refine ⟨fun c rest hc => ?_, fun w3 h3 => ?_⟩
    · cases hc
      rintro ⟨hfail, -⟩
      cases hfail
    cases Option.some.inj h3
    refine ⟨fun c rest hc => ?_, fun w4 h4 => ?_⟩
    · cases hc
      trivial
    cases Option.some.inj h4
    refine ⟨fun c rest hc => ?_, fun w5 h5 => ?_⟩
    · cases hc
      rintro ⟨hfail, -⟩
      cases hfail
    cases Option.some.inj h5
    refine ⟨fun c rest hc => ?_, fun w6 h6 => ?_⟩
    · cases hc
      refine ⟨by decide, ?_⟩
      rintro (⟨hfail | hfail, -⟩ | ⟨-, data, hpiece⟩)
      · omega
      · cases hfail
      · cases hpiece
    cases Option.some.inj h6
    refine ⟨fun c rest hc => ?_, fun w7 h7 => ?_⟩
    · cases hc
      refine ⟨by decide, ?_⟩
      intro _ f hf
      cases hf
      rfl
    cases Option.some.inj h7
    refine ⟨fun c rest hc => ?_, fun _ _ => trivial⟩
    cases hc
    rintro ⟨hfail, -⟩
    cases hfail
  have hreach := (Reachable.start start_noRequests).runActs hok hw
  exact ⟨w, hreach, hlog, subrequest_returns hreach⟩

/-- The flush of what a subrequest has answered so far makes it return. -/
theorem flush_returns_early : ∃ w,
    Reachable SubrStart (ActStep (subrStep 16384) fun _ _ => True) w ∧
    w.log = [.returned 1 200 (bytes "a") []] ∧ ¬Each returnedAfter w.log := by
  let acts : List SubrAct := [.accept, .wake 0, .call (.lua [] .subrequest), .call .again,
    .call (.respond 200 []), .call (.piece (bytes "a") false), .call .again, .call .again,
    .call .again, .defer 1, .call (.lua [] .finish)]
  have hrun : (runActs (subrStep 16384) acts noRequests).map (·.log) =
      some [.returned 1 200 (bytes "a") []] := by
    decide
  obtain ⟨w, hw, hlog⟩ := Option.map_eq_some_iff.mp hrun
  have hreach := (Reachable.start start_noRequests).runActs
    (actsMeet_of_forall acts noRequests fun _ _ => trivial) hw
  refine ⟨w, hreach, hlog, ?_⟩
  rw [hlog]
  intro h
  have hreturned := h [] (.returned 1 200 (bytes "a") []) [] rfl
  simp [returnedAfter] at hreturned

end Phorklift
