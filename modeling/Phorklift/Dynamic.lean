import Phorklift.Request

/-! The dynamic sub-configurations: `phl_dynamic.c`. -/

namespace Phorklift

/-- A Path or an upstream with a `phl_dynamic_conf`: one of the configuration file's, the container
of a sub, or an upstream that is part of another configuration. -/
inductive ConfId
  | root (n : Nat)
  | sub (n : Nat)
  | inner (c : ConfId)
  deriving DecidableEq, Repr

/-- The sub whose pool the configuration lies in. -/
def ConfId.owner : ConfId → Option Nat
  | .root _ => none
  | .sub n => some n
  | .inner c => c.owner

abbrev LuaFunction := Nat

/-- The settings of a `phl_dynamic_conf`; the times are in seconds. -/
structure DynamicConf where
  getName : Option LuaFunction
  getConf : LuaFunction
  checkFilter : Option LuaFunction
  checkInterval : Nat
  idleTimeout : Nat
  errorTimeout : Nat
  subMax : Nat
  deriving DecidableEq, Repr

/-- `phl_dynamic_is_enabled` -/
def DynamicConf.enabled (dynamic : DynamicConf) : Bool := dynamic.getName.isSome

abbrev RequestId := Nat

/-- A `phl_dynamic_conf` in some `sub_dict`. -/
structure SubDyn where
  id : Nat
  father : ConfId
  name : Bytes
  conf : DynamicConf
  checkTime : Nat
  /-- when the timer runs out, in milliseconds -/
  timer : Nat
  errorRet : Int
  isJustHolder : Bool
  tag : Nat
  holderWaitHead : List RequestId
  /-- whether `phl_dynamic_delete` is running the requests that waited -/
  deleting : Bool
  deriving DecidableEq, Repr

/-- The `sub_dict` of every father, and the clock. -/
structure Dynamics where
  now : Nat
  subs : List SubDyn
  nextId : Nat
  deriving DecidableEq, Repr

namespace Dynamics

def update (s : Dynamics) (n : Nat) (f : SubDyn → SubDyn) : Dynamics :=
  { s with subs := s.subs.map fun d => if d.id = n then f d else d }

/-- `loop_timer_set_after` -/
def setTimer (s : Dynamics) (n : Nat) (after : Nat) : Dynamics :=
  s.update n fun d => { d with timer := s.now + after }

def find (s : Dynamics) (n : Nat) : Option SubDyn := s.subs.find? fun d => d.id == n

def alive (s : Dynamics) (c : ConfId) : Bool :=
  match c.owner with
  | none => true
  | some n => s.subs.any fun d => d.id == n

/-- `sub_dict` of one father -/
def dict (s : Dynamics) (father : ConfId) : List SubDyn :=
  s.subs.filter fun d => d.father == father

end Dynamics

/-- What a Path says of its upstream. -/
inductive UpstreamConf
  | shared (n : Nat)
  | own
  deriving DecidableEq, Repr

structure DynamicEnv where
  /-- the settings in the configuration file, and those that each `get_conf` comes to -/
  conf : ConfId → DynamicConf
  idleTimeout_pos : ∀ c, 0 < (conf c).idleTimeout
  upstream : ConfId → UpstreamConf
  /-- `wuy_dict_get` among the entries of that name -/
  dictGet : List SubDyn → Option SubDyn
  dictGet_mem : ∀ {entries d}, dictGet entries = some d → d ∈ entries
  vhash64 : Bytes → Nat

/-- The settings at `c`, `none` where they have been freed. -/
def Dynamics.confOf (env : DynamicEnv) (s : Dynamics) : ConfId → Option DynamicConf
  | .root n => some (env.conf (.root n))
  | .sub n => (s.find n).map (·.conf)
  | .inner c => if s.alive c then some (env.conf (.inner c)) else none

/-- The top of the stack of `get_conf`. -/
inductive LuaConf
  | string (s : Bytes)
  | table
  | other
  deriving DecidableEq, Repr

/-- What `get_conf` returns, and whether `wuy_cflua_parse` takes it. -/
structure ConfAnswer where
  status : Option Int
  conf : LuaConf
  parsed : Bool
  deriving DecidableEq, Repr

/-- `phl_lua_thread_run` -/
inductive LuaRun
  | error
  | again
  | done (answer : ConfAnswer)
  deriving DecidableEq, Repr

/-- What the Lua functions answer in one `phl_dynamic_get`. -/
structure LuaAnswers where
  name : Option Bytes
  filter : Bool
  run : LuaRun
  deriving DecidableEq, Repr

/-- The fields of an open request that this is about. -/
structure Client where
  isOpen : Bool
  statusCode : Int
  confPath : Option ConfId
  /-- `upc->address->upstream` of its connection -/
  upstream : Option ConfId
  /-- `current_entry` where `L` is not NULL -/
  entry : Option LuaFunction
  /-- when the timer of the sub that holds its `conf_path` was to run out when it got there -/
  pathUntil : Nat
  upstreamUntil : Nat
  deriving DecidableEq, Repr

inductive DynamicPtr
  | container (n : Nat)
  | error
  | again
  deriving DecidableEq, Repr

/-- The end of `phl_dynamic_delete`: `none` where the container's own upstream still has subs, which
`phl_dynamic_conf_free` asserts against. -/
def phlDynamicDestroy (d : SubDyn) (s : Dynamics) : Option Dynamics :=
  if s.dict (.sub d.id) ≠ [] then some (s.setTimer d.id (60 * 1000))
  else if s.dict (.inner (.sub d.id)) ≠ [] then none
  else some { s with subs := s.subs.filter fun e => e.id != d.id }

/-- A holder first runs the requests that wait for it, which are steps of their own. -/
def phlDynamicDelete (d : SubDyn) (s : Dynamics) : Option Dynamics :=
  if d.isJustHolder then
    some (s.update d.id fun e => { e with
      errorRet := if e.errorRet = 0 then 500 else e.errorRet
      deleting := true })
  else phlDynamicDestroy d s

/-- A round of that loop: the request to run, `none` where no one waits. -/
def phlDynamicPopWaiting (d : SubDyn) (s : Dynamics) : Option (RequestId × Dynamics) :=
  match d.holderWaitHead with
  | [] => none
  | i :: rest => some (i, s.update d.id fun e => { e with holderWaitHead := rest })

def phlDynamicNeedGetConf (d : SubDyn) (filter : Bool) (s : Dynamics) : Bool × Dynamics :=
  let now := s.now / 1000
  if d.conf.checkInterval = 0 then (false, s)
  else if now - d.checkTime < d.conf.checkInterval then (false, s)
  else if d.conf.checkFilter.isSome ∧ filter = false then (false, s)
  else (true, s.update d.id fun e => { e with checkTime := now })

def phlDynamicParseSubDyn (env : DynamicEnv) (father : ConfId) (name : Bytes) (tag : Nat)
    (answer : ConfAnswer) (s : Dynamics) : Option (Nat × Dynamics) :=
  if answer.conf = .other ∨ answer.parsed = false then none
  else
    let conf := env.conf (.sub s.nextId)
    let d : SubDyn := {
      id := s.nextId
      father := father
      name := name
      conf := conf
      checkTime := s.now / 1000
      timer := s.now + conf.idleTimeout * 1000
      errorRet := 0
      isJustHolder := false
      tag := tag
      holderWaitHead := []
      deleting := false }
    some (s.nextId, { s with subs := d :: s.subs, nextId := s.nextId + 1 })

def phlDynamicNewHolder (father : ConfId) (dynamic : DynamicConf) (name : Bytes) (s : Dynamics) :
    SubDyn × Dynamics :=
  let d : SubDyn := {
    id := s.nextId
    father := father
    name := name
    conf := ⟨none, 0, none, 0, 0, dynamic.errorTimeout, 0⟩
    checkTime := 0
    timer := s.now + 60 * 1000
    errorRet := 0
    isJustHolder := true
    tag := 0
    holderWaitHead := []
    deleting := false }
  (d, { s with subs := d :: s.subs, nextId := s.nextId + 1 })

/-- `fail`: a sub that is there is used on. -/
def useStale (d : SubDyn) : DynamicPtr :=
  if d.isJustHolder then .error else .container d.id

/-- The end of `phl_dynamic_get`, where `get_conf` has returned a configuration. -/
def phlDynamicNewConf (env : DynamicEnv) (father : ConfId) (dynamic : DynamicConf) (name : Bytes)
    (d : SubDyn) (answer : ConfAnswer) (s : Dynamics) : Option (DynamicPtr × Dynamics) :=
  let replace (tag : Nat) : Option (DynamicPtr × Dynamics) :=
    match phlDynamicParseSubDyn env father name tag answer s with
    | none => some (useStale d, s)
    | some (n, s) => (phlDynamicDelete d s).map fun s => (.container n, s)
  if dynamic.checkInterval ≠ 0 then
    match answer.conf with
    | .string text =>
      if env.vhash64 text = d.tag then some (.container d.id, s) else replace (env.vhash64 text)
    | _ => some (.error, s)
  else replace 0

/-- `phl_dynamic_get` from `get_conf` on. -/
def phlDynamicGetConf (env : DynamicEnv) (father : ConfId) (dynamic : DynamicConf) (name : Bytes)
    (d : SubDyn) (run : LuaRun) (r : Client) (s : Dynamics) :
    Option (DynamicPtr × Client × Dynamics) :=
  match run with
  | .error => some (.error, { r with entry := none }, s)
  | .again => some (.again, { r with entry := some dynamic.getConf }, s)
  | .done answer =>
    let r := { r with entry := none }
    if answer.status = some 304 then
      some (if d.isJustHolder then .error else .container d.id, r, s)
    else if answer.status = some 404 then
      some (.error, { r with statusCode := 404 },
        (s.update d.id fun e => { e with errorRet := 404 }).setTimer d.id
          (d.conf.errorTimeout * 1000))
    else if answer.status = none ∨ answer.status = some 200 then
      (phlDynamicNewConf env father dynamic name d answer s).map fun x => (x.1, r, x.2)
    else some (useStale d, r, s)

/-- `none` where the father has been freed. -/
def phlDynamicGet (env : DynamicEnv) (father : ConfId) (answers : LuaAnswers) (i : RequestId)
    (r : Client) (s : Dynamics) : Option (DynamicPtr × Client × Dynamics) := do
  let dynamic ← s.confOf env father
  match answers.name with
  | none => some (.error, r, s)
  | some name =>
    if 100 < name.length then some (.error, r, s)
    else match env.dictGet ((s.dict father).filter fun d => d.name == cstr name) with
    | none =>
      if dynamic.subMax ≤ (s.dict father).length then some (.error, r, s)
      else
        let (d, s) := phlDynamicNewHolder father dynamic (cstr name) s
        phlDynamicGetConf env father dynamic (cstr name) d answers.run r s
    | some d =>
      if r.entry = some dynamic.getConf then
        phlDynamicGetConf env father dynamic (cstr name) d answers.run r s
      else if d.errorRet ≠ 0 then some (.error, { r with statusCode := d.errorRet }, s)
      else if d.isJustHolder then
        some (.again, r, s.update d.id fun e => { e with
          holderWaitHead := e.holderWaitHead ++ [i] })
      else
        let s := s.setTimer d.id (d.conf.idleTimeout * 1000)
        let (need, s) := phlDynamicNeedGetConf d answers.filter s
        if need then phlDynamicGetConf env father dynamic (cstr name) d answers.run r s
        else some (.container d.id, r, s)

/-- The loop `while (phl_dynamic_is_enabled(..))` of `phl_request_locate_conf_path` and of
`phl_upstream_get_connection`: where it ends and the last pointer, if it was not a container. -/
def phlDynamicLoop (env : DynamicEnv) (i : RequestId) : List LuaAnswers → ConfId → Client →
    Dynamics → Option (ConfId × DynamicRet × Client × Dynamics)
  | answers, c, r, s => do
    let dynamic ← s.confOf env c
    if dynamic.enabled = false then some (c, .found, r, s)
    else match answers with
    | [] => none
    | a :: answers => do
      let (ptr, r, s) ← phlDynamicGet env c a i r s
      match ptr with
      | .error => some (c, .error, r, s)
      | .again => some (c, .again, r, s)
      | .container n => phlDynamicLoop env i answers (.sub n) r s

end Phorklift
