import Mathlib.Data.List.Nodup
import Phorklift.Dynamic
import Phorklift.Transition

/-! Requests, timers and the sub-configurations they share. -/

namespace Phorklift

open Transition

structure DynamicSystem where
  dynamics : Dynamics
  clients : List Client
  deriving DecidableEq, Repr

/-- What happens next: `locate` and `connect` are `phl_request_locate_conf_path` and
`phl_upstream_get_connection` with what the code outside answers. -/
inductive DynamicAct
  | tick (ms : Nat)
  | request (defaultPath : Nat)
  | locate (i : RequestId) (located : Option Nat) (answers : List LuaAnswers)
  | connect (i : RequestId) (answers : List LuaAnswers) (connected : Bool)
  | release (i : RequestId)
  | redirect (i : RequestId)
  | otherLua (i : RequestId) (entry : Option LuaFunction)
  | close (i : RequestId)
  | timer (n : Nat)
  | wake (n : Nat)
  | deleted (n : Nat)
  deriving DecidableEq, Repr

/-- The timer does not run out before this time, however soon it is set again. -/
def SubDyn.due (now : Nat) (d : SubDyn) : Nat :=
  min d.timer (now + d.conf.idleTimeout * 1000)

/-- The same of the sub that holds `c`. -/
def Dynamics.untilOf (s : Dynamics) (c : ConfId) : Nat :=
  match c.owner with
  | none => 0
  | some n => ((s.find n).map (·.due s.now)).getD 0

def newClient (defaultPath : Nat) : Client where
  isOpen := true
  statusCode := 0
  confPath := some (.root defaultPath)
  upstream := none
  entry := none
  pathUntil := 0
  upstreamUntil := 0

/-- The path from which `phl_request_locate_conf_path` goes into its loop: `isDefault` tells the
default paths of the Hosts. -/
def locateStart (isDefault : ConfId → Bool) (located : Option Nat) (c : ConfId) : Option ConfId :=
  if isDefault c = false then some c else located.map .root

def phlRequestLocateConfPathDynamic (env : DynamicEnv) (isDefault : ConfId → Bool) (i : RequestId)
    (located : Option Nat) (answers : List LuaAnswers) (r : Client) (s : Dynamics) :
    Option (Client × Dynamics) := do
  let c ← r.confPath
  match locateStart isDefault located c with
  | none => some (r, s)
  | some c => do
    let (c, _, r, s) ← phlDynamicLoop env i answers c r s
    some ({ r with confPath := some c, pathUntil := s.untilOf c }, s)

def upstreamStart (env : DynamicEnv) (c : ConfId) : ConfId :=
  match env.upstream c with
  | .shared n => .root n
  | .own => .inner c

def phlUpstreamGetConnectionDynamic (env : DynamicEnv) (i : RequestId) (answers : List LuaAnswers)
    (connected : Bool) (r : Client) (s : Dynamics) : Option (Client × Dynamics) := do
  let c ← r.confPath
  let (u, ret, r, s) ← phlDynamicLoop env i answers (upstreamStart env c) r s
  if ret = .found ∧ connected then
    some ({ r with upstream := some u, upstreamUntil := s.untilOf u }, s)
  else some (r, s)

/-- Takes a request that has been closed off the list it waits in. -/
def Dynamics.unlink (s : Dynamics) (i : RequestId) : Dynamics :=
  { s with subs := s.subs.map fun d => { d with
    holderWaitHead := d.holderWaitHead.filter fun j => j != i } }

def withClient (s : DynamicSystem) (i : RequestId)
    (f : Client → Dynamics → Option (Client × Dynamics)) : Option DynamicSystem := do
  let r ← s.clients[i]?
  if r.isOpen then do
    let (r, d) ← f r s.dynamics
    some ⟨d, s.clients.set i r⟩
  else none

def dynamicStep (env : DynamicEnv) (isDefault : ConfId → Bool) (s : DynamicSystem) :
    DynamicAct → Option DynamicSystem
  | .tick ms => some { s with dynamics.now := s.dynamics.now + ms }
  | .request defaultPath => some { s with clients := s.clients ++ [newClient defaultPath] }
  | .locate i located answers =>
    withClient s i (phlRequestLocateConfPathDynamic env isDefault i located answers)
  | .connect i answers connected => withClient s i fun r d =>
    if r.upstream = none then phlUpstreamGetConnectionDynamic env i answers connected r d else none
  | .release i => withClient s i fun r d => some ({ r with upstream := none }, d)
  | .redirect i => withClient s i fun r d =>
    some ({ r with upstream := none, confPath := none, entry := none }, d.unlink i)
  | .otherLua i entry => withClient s i fun r d => some ({ r with entry := entry }, d)
  | .close i => withClient s i fun r d =>
    some ({ r with isOpen := false, upstream := none, entry := none }, d.unlink i)
  | .timer n =>
    match s.dynamics.find n with
    | none => none
    | some d =>
      if d.timer ≤ s.dynamics.now ∧ d.deleting = false then
        (phlDynamicDelete d s.dynamics).map fun dynamics => { s with dynamics := dynamics }
      else none
  | .wake n =>
    match s.dynamics.find n with
    | none => none
    | some d =>
      if d.deleting then
        (phlDynamicPopWaiting d s.dynamics).map fun x => { s with dynamics := x.2 }
      else none
  | .deleted n =>
    match s.dynamics.find n with
    | none => none
    | some d =>
      if d.deleting ∧ d.holderWaitHead = [] then
        (phlDynamicDestroy d s.dynamics).map fun dynamics => { s with dynamics := dynamics }
      else none

/-- An open request's `conf_path`, or the upstream of its connection, lies in the sub. -/
def Client.Refers (r : Client) (n : Nat) : Prop :=
  r.isOpen = true ∧ (r.confPath.bind ConfId.owner = some n ∨ r.upstream.bind ConfId.owner = some n)

instance (r : Client) (n : Nat) : Decidable (r.Refers n) := by
  unfold Client.Refers
  infer_instance

section Condition

/-- Whether `get_conf` came back with a configuration to put in the place of `d`. -/
def ConfAnswer.changes (env : DynamicEnv) (dynamic : DynamicConf) (d : SubDyn)
    (answer : ConfAnswer) : Bool :=
  (answer.status == none || answer.status == some 200) && answer.parsed &&
    match answer.conf with
    | .string text => dynamic.checkInterval == 0 || env.vhash64 text != d.tag
    | .table => dynamic.checkInterval == 0
    | .other => false

/-- The answer does not take the sub away from those who use it, nor make a container of a
holder. -/
def ConfAnswer.keeps (env : DynamicEnv) (dynamic : DynamicConf) (d : SubDyn)
    (answer : ConfAnswer) : Bool :=
  if d.isJustHolder then
    match answer.conf with
    | .string text => env.vhash64 text != d.tag
    | _ => true
  else answer.status != some 404 && !answer.changes env dynamic d

def LuaRun.keeps (env : DynamicEnv) (dynamic : DynamicConf) (d : SubDyn) : LuaRun → Bool
  | .done answer => answer.keeps env dynamic d
  | _ => true

def getOk (env : DynamicEnv) (father : ConfId) (a : LuaAnswers) (r : Client) (s : Dynamics) : Bool :=
  match s.confOf env father, a.name with
  | some dynamic, some name =>
    match env.dictGet ((s.dict father).filter fun d => d.name == cstr name) with
    | none => a.run.keeps env dynamic (phlDynamicNewHolder father dynamic (cstr name) s).1
    | some d => a.run.keeps env dynamic d &&
      (d.isJustHolder || r.entry != some dynamic.getConf || s.now < d.timer)
  | _, _ => true

def loopOk (env : DynamicEnv) (i : RequestId) : List LuaAnswers → ConfId → Client → Dynamics → Bool
  | [], _, _, _ => true
  | a :: answers, c, r, s => getOk env c a r s &&
    match phlDynamicGet env c a i r s with
    | some (.container n, r, s) => loopOk env i answers (.sub n) r s
    | _ => true

/-- The request is not kept open until the timers of the subs it uses, as they were set when it
got them, run out. -/
def Client.inTime (r : Client) (now : Nat) : Bool :=
  !r.isOpen || ((r.confPath.bind ConfId.owner).isNone || now < r.pathUntil) &&
    ((r.upstream.bind ConfId.owner).isNone || now < r.upstreamUntil)

def actOk (env : DynamicEnv) (isDefault : ConfId → Bool) (s : DynamicSystem) : DynamicAct → Bool
  | .tick ms => s.clients.all fun r => r.inTime (s.dynamics.now + ms)
  | .locate i located answers =>
    match s.clients[i]? with
    | some r => match r.confPath.bind (locateStart isDefault located) with
      | some c => loopOk env i answers c r s.dynamics
      | none => true
    | none => true
  | .connect i answers _ =>
    match s.clients[i]? with
    | some r => match r.confPath with
      | some c => loopOk env i answers (upstreamStart env c) r s.dynamics
      | none => true
    | none => true
  | _ => true

def DynamicInit (s : DynamicSystem) : Prop :=
  s.dynamics.subs = [] ∧ s.clients = []

/-- Steps that all meet a condition. -/
def DynamicStep (env : DynamicEnv) (isDefault : ConfId → Bool)
    (ok : DynamicSystem → DynamicAct → Bool) (s s' : DynamicSystem) : Prop :=
  ∃ a, ok s a = true ∧ dynamicStep env isDefault s a = some s'

end Condition

section Subs

variable {env : DynamicEnv} {s s' s'' : Dynamics}

structure Dynamics.Wf (s : Dynamics) : Prop where
  fresh : ∀ d ∈ s.subs, d.id < s.nextId
  unique : (s.subs.map (·.id)).Nodup
  idle : ∀ d ∈ s.subs, d.isJustHolder = false → 0 < d.conf.idleTimeout
  deleting : ∀ d ∈ s.subs, d.deleting = true → d.isJustHolder = true

/-- Subs whose timer has not run out stay, and their timers are not put back. -/
structure Grows (s s' : Dynamics) : Prop where
  now : s'.now = s.now
  stays : ∀ d ∈ s.subs, d.isJustHolder = false → s.now < d.due s.now →
    ∃ d' ∈ s'.subs, d'.id = d.id ∧ d'.isJustHolder = false ∧ d.due s.now ≤ d'.due s.now

theorem Grows.refl (s : Dynamics) : Grows s s :=
  ⟨rfl, fun d hd hh _ => ⟨d, hd, rfl, hh, Nat.le_refl _⟩⟩

theorem Grows.trans (h : Grows s s') (h' : Grows s' s'') : Grows s s'' := by
  refine ⟨h'.now.trans h.now, fun d hd hh ht => ?_⟩
  obtain ⟨d', hd', hid, hh', hle⟩ := h.stays d hd hh ht
  have ht' : s'.now < d'.due s'.now := by
    rw [h.now]
    omega
  obtain ⟨e, he, hide, hhe, hlee⟩ := h'.stays d' hd' hh' ht'
  rw [h.now] at hlee
  exact ⟨e, he, hide.trans hid, hhe, by omega⟩

theorem Dynamics.Wf.eq_of_id (h : s.Wf) {d e : SubDyn} (hd : d ∈ s.subs) (he : e ∈ s.subs)
    (hid : d.id = e.id) : d = e :=
  List.inj_on_of_nodup_map h.unique hd he hid

theorem find_mem {n : Nat} {d : SubDyn} (h : s.find n = some d) : d ∈ s.subs ∧ d.id = n := by
  have hid := List.find?_some h
  exact ⟨List.mem_of_find?_eq_some h, by simpa using hid⟩

theorem find_of_mem (hw : s.Wf) {d : SubDyn} (hd : d ∈ s.subs) : s.find d.id = some d := by
  cases hf : s.find d.id with
  | none =>
    have hne := List.find?_eq_none.mp hf d hd
    simp at hne
  | some e =>
    obtain ⟨he, hid⟩ := find_mem hf
    rw [hw.eq_of_id he hd hid]

/-- An entry is changed in what neither its users nor its place in the dict depend on. -/
structure Harmless (d : SubDyn) (f : SubDyn → SubDyn) : Prop where
  id : (f d).id = d.id
  conf : (f d).conf = d.conf
  holder : (f d).isJustHolder = d.isJustHolder
  deleting : (f d).deleting = true → d.deleting = true ∨ d.isJustHolder = true

theorem update_wf {n : Nat} {f : SubDyn → SubDyn} (hw : s.Wf)
    (hf : ∀ d ∈ s.subs, d.id = n → Harmless d f) : (s.update n f).Wf := by
  have hsame : ∀ d ∈ s.subs, Harmless d fun d => if d.id = n then f d else d := by
    intro d hd
    by_cases hn : d.id = n
    · obtain ⟨hid, hconf, hholder, hdel⟩ := hf d hd hn
      exact ⟨by simp only [if_pos hn, hid], by simp only [if_pos hn, hconf],
        by simp only [if_pos hn, hholder], by simpa only [if_pos hn] using hdel⟩
    · exact ⟨by simp only [if_neg hn], by simp only [if_neg hn], by simp only [if_neg hn],
        by simpa only [if_neg hn] using .inl⟩
  have hids : (s.update n f).subs.map (·.id) = s.subs.map (·.id) := by
    unfold Dynamics.update
    rw [List.map_map]
    exact List.map_congr_left fun d hd => (hsame d hd).id
  refine ⟨?_, hids ▸ hw.unique, ?_, ?_⟩
  · intro e he
    obtain ⟨d, hd, rfl⟩ := List.mem_map.mp he
    rw [(hsame d hd).id]
    exact hw.fresh d hd
  · intro e he hh
    obtain ⟨d, hd, rfl⟩ := List.mem_map.mp he
    rw [(hsame d hd).holder] at hh
    rw [(hsame d hd).conf]
    exact hw.idle d hd hh
  · intro e he hdel
    obtain ⟨d, hd, rfl⟩ := List.mem_map.mp he
    rw [(hsame d hd).holder]
    rcases (hsame d hd).deleting hdel with hdel | hh
    · exact hw.deleting d hd hdel
    · exact hh

theorem update_grows {n : Nat} {f : SubDyn → SubDyn}
    (hf : ∀ d ∈ s.subs, d.id = n → Harmless d f ∧
      (d.isJustHolder = false → s.now < d.due s.now → d.due s.now ≤ (f d).timer)) :
    Grows s (s.update n f) := by
  refine ⟨rfl, fun d hd hh ht => ?_⟩
  refine ⟨_, List.mem_map_of_mem hd, ?_⟩
  by_cases hn : d.id = n
  · obtain ⟨hsame, htimer⟩ := hf d hd hn
    have htimer' := htimer hh ht
    rw [if_pos hn]
    refine ⟨hsame.id, hsame.holder.trans hh, ?_⟩
    unfold SubDyn.due at htimer' ⊢
    rw [hsame.conf]
    omega
  · rw [if_neg hn]
    exact ⟨rfl, hh, Nat.le_refl _⟩

theorem update_update {n : Nat} {f g : SubDyn → SubDyn} (hf : ∀ d, (f d).id = d.id) :
    (s.update n f).update n g = s.update n fun d => g (f d) := by
  unfold Dynamics.update
  rw [List.map_map]
  refine congrArg (fun subs => ({ s with subs := subs } : Dynamics)) (List.map_congr_left ?_)
  intro d _
  by_cases hn : d.id = n
  · simp [hn, hf]
  · simp [hn]

theorem insert_wf {d : SubDyn} (hw : s.Wf) (hid : d.id = s.nextId) (hdel : d.deleting = false)
    (hidle : d.isJustHolder = false → 0 < d.conf.idleTimeout) :
    Dynamics.Wf { s with subs := d :: s.subs, nextId := s.nextId + 1 } := by
  refine ⟨?_, ?_, ?_, ?_⟩
  · intro e he
    rcases List.mem_cons.mp he with rfl | he
    · dsimp only
      omega
    · have hlt := hw.fresh e he
      dsimp only
      omega
  · refine List.nodup_cons.mpr ⟨?_, hw.unique⟩
    intro hmem
    obtain ⟨e, he, heid⟩ := List.mem_map.mp hmem
    have hlt := hw.fresh e he
    dsimp only at heid
    omega
  · intro e he hh
    rcases List.mem_cons.mp he with rfl | he
    · exact hidle hh
    · exact hw.idle e he hh
  · intro e he hdel'
    rcases List.mem_cons.mp he with rfl | he
    · rw [hdel] at hdel'
      cases hdel'
    · exact hw.deleting e he hdel'

theorem insert_grows {d : SubDyn} {n : Nat} :
    Grows s { s with subs := d :: s.subs, nextId := n } :=
  ⟨rfl, fun e he hh _ => ⟨e, List.mem_cons_of_mem d he, rfl, hh, Nat.le_refl _⟩⟩

/-- What is destroyed is a holder, or its timer has run out. -/
theorem phlDynamicDestroy_grows {d e : SubDyn} (hw : s.Wf) (he : e ∈ s.subs) (hid : e.id = d.id)
    (hno : e.isJustHolder = true ∨ e.timer ≤ s.now) (h : phlDynamicDestroy d s = some s') :
    s'.Wf ∧ Grows s s' := by
  unfold phlDynamicDestroy at h
  split at h
  next =>
    cases h
    have hsame : ∀ b ∈ s.subs, b.id = d.id → b = e := fun b hb hb' =>
      hw.eq_of_id hb he (hb'.trans hid.symm)
    refine ⟨update_wf hw fun b _ _ => ⟨rfl, rfl, rfl, .inl⟩, update_grows fun b hb hb' => ?_⟩
    refine ⟨⟨rfl, rfl, rfl, .inl⟩, fun hh ht => ?_⟩
    rw [hsame b hb hb'] at hh ht
    rcases hno with hno | hno
    · rw [hno] at hh
      cases hh
    · unfold SubDyn.due at ht
      omega
  next =>
    split at h
    next => cases h
    next =>
      cases h
      refine ⟨⟨?_, ?_, ?_, ?_⟩, rfl, fun b hb hh ht => ⟨b, ?_, rfl, hh, Nat.le_refl _⟩⟩
      · intro b hb
        exact hw.fresh b (List.mem_of_mem_filter hb)
      · exact hw.unique.sublist (List.filter_sublist.map _)
      · intro b hb
        exact hw.idle b (List.mem_of_mem_filter hb)
      · intro b hb
        exact hw.deleting b (List.mem_of_mem_filter hb)
      · refine List.mem_filter.mpr ⟨hb, ?_⟩
        rw [bne_iff_ne]
        intro hbd
        rw [hw.eq_of_id hb he (hbd.trans hid.symm)] at hh ht
        rcases hno with hno | hno
        · rw [hno] at hh
          cases hh
        · unfold SubDyn.due at ht
          omega

theorem phlDynamicDelete_grows {d e : SubDyn} (hw : s.Wf) (he : e ∈ s.subs) (hid : e.id = d.id)
    (hholder : e.isJustHolder = d.isJustHolder)
    (hno : e.isJustHolder = true ∨ e.timer ≤ s.now) (h : phlDynamicDelete d s = some s') :
    s'.Wf ∧ Grows s s' := by
  unfold phlDynamicDelete at h
  split at h
  next hh =>
    cases h
    have hharmless : ∀ b ∈ s.subs, b.id = d.id → Harmless b fun b => { b with
        errorRet := if b.errorRet = 0 then 500 else b.errorRet
        deleting := true } := by
      intro b hb hbid
      rw [hw.eq_of_id hb he (hbid.trans hid.symm)]
      exact ⟨rfl, rfl, rfl, fun _ => .inr (hholder.trans hh)⟩
    exact ⟨update_wf hw hharmless,
      update_grows fun b hb hbid => ⟨hharmless b hb hbid, fun _ _ => Nat.min_le_left _ _⟩⟩
  next => exact phlDynamicDestroy_grows hw he hid hno h

theorem phlDynamicPopWaiting_grows {d : SubDyn} {i : RequestId} (hw : s.Wf)
    (h : phlDynamicPopWaiting d s = some (i, s')) : s'.Wf ∧ Grows s s' := by
  unfold phlDynamicPopWaiting at h
  split at h
  next => cases h
  next rest hwait =>
    cases h
    have hharmless : ∀ b ∈ s.subs, b.id = d.id →
        Harmless b fun b => { b with holderWaitHead := rest } :=
      fun b _ _ => ⟨rfl, rfl, rfl, .inl⟩
    exact ⟨update_wf hw hharmless,
      update_grows fun b hb hbid => ⟨hharmless b hb hbid, fun _ _ => Nat.min_le_left _ _⟩⟩

/-- A sub that is no holder and whose timer has not run out. -/
def Dynamics.Live (s : Dynamics) (n : Nat) : Prop :=
  ∃ d ∈ s.subs, d.id = n ∧ d.isJustHolder = false ∧ s.now < d.due s.now

theorem Dynamics.Live.grows {n : Nat} (h : s.Live n) (hg : Grows s s') : s'.Live n := by
  obtain ⟨d, hd, hid, hh, ht⟩ := h
  obtain ⟨d', hd', hid', hh', hle⟩ := hg.stays d hd hh ht
  refine ⟨d', hd', hid'.trans hid, hh', ?_⟩
  rw [hg.now]
  omega

/-- `d` is the entry `e`, as it was a moment ago. -/
structure IsEntry (s : Dynamics) (d e : SubDyn) : Prop where
  mem : e ∈ s.subs
  id : e.id = d.id
  holder : e.isJustHolder = d.isJustHolder
  live : d.isJustHolder = false → s.now < e.due s.now

theorem IsEntry.container {d e : SubDyn} (h : IsEntry s d e) (hh : d.isJustHolder = false) :
    s.Live d.id :=
  ⟨e, h.mem, h.id, h.holder.trans hh, h.live hh⟩

theorem IsEntry.useStale {d e : SubDyn} {n : Nat} (h : IsEntry s d e)
    (hn : useStale d = .container n) : s.Live n := by
  unfold Phorklift.useStale at hn
  split at hn
  next => cases hn
  next hh =>
    cases hn
    exact h.container (by simpa using hh)

/-- `r` and `r'` use the same subs. -/
structure SameUse (r r' : Client) : Prop where
  isOpen : r'.isOpen = r.isOpen
  confPath : r'.confPath = r.confPath
  upstream : r'.upstream = r.upstream
  pathUntil : r'.pathUntil = r.pathUntil
  upstreamUntil : r'.upstreamUntil = r.upstreamUntil

theorem phlDynamicParseSubDyn_grows {father : ConfId} {name : Bytes} {tag n : Nat}
    {answer : ConfAnswer} (hw : s.Wf)
    (h : phlDynamicParseSubDyn env father name tag answer s = some (n, s')) :
    answer.conf ≠ .other ∧ answer.parsed = true ∧ s'.Wf ∧ Grows s s' ∧ s'.Live n ∧
      ∀ e ∈ s.subs, e ∈ s'.subs := by
  unfold phlDynamicParseSubDyn at h
  split at h
  next => cases h
  next hparsed =>
    cases h
    have hidle := env.idleTimeout_pos (.sub s.nextId)
    simp only [not_or, Bool.not_eq_false] at hparsed
    refine ⟨hparsed.1, hparsed.2, insert_wf hw rfl rfl fun _ => hidle, insert_grows, ?_,
      fun e he => List.mem_cons_of_mem _ he⟩
    refine ⟨_, List.mem_cons_self, rfl, rfl, ?_⟩
    unfold SubDyn.due
    dsimp only
    omega

/-- A configuration takes the place of a holder. -/
theorem replace_grows {father : ConfId} {name : Bytes} {tag : Nat} {d e : SubDyn}
    {answer : ConfAnswer} {ptr : DynamicPtr} (hw : s.Wf) (he : IsEntry s d e)
    (hok : answer.conf ≠ .other → answer.parsed = true → d.isJustHolder = true)
    (h : (match phlDynamicParseSubDyn env father name tag answer s with
      | none => some (useStale d, s)
      | some (n, s1) => (phlDynamicDelete d s1).map fun s2 => (.container n, s2)) =
        some (ptr, s')) :
    s'.Wf ∧ Grows s s' ∧ ∀ n, ptr = .container n → s'.Live n := by
  split at h
  next =>
    cases h
    exact ⟨hw, .refl s, fun n hn => he.useStale hn⟩
  next n s1 hparse =>
    obtain ⟨s2, hdelete, hx⟩ := Option.map_eq_some_iff.mp h
    cases hx
    obtain ⟨hconf, hparsed, hw1, hg1, hlive, hmem⟩ := phlDynamicParseSubDyn_grows hw hparse
    have hholder : e.isJustHolder = true := he.holder.trans (hok hconf hparsed)
    obtain ⟨hw2, hg2⟩ :=
      phlDynamicDelete_grows hw1 (hmem e he.mem) he.id he.holder (.inl hholder) hdelete
    refine ⟨hw2, hg1.trans hg2, fun m hm => ?_⟩
    cases hm
    exact hlive.grows hg2

theorem phlDynamicNewConf_grows {father : ConfId} {dynamic : DynamicConf} {name : Bytes}
    {d e : SubDyn} {answer : ConfAnswer} {ptr : DynamicPtr} (hw : s.Wf) (he : IsEntry s d e)
    (hstatus : answer.status = none ∨ answer.status = some 200)
    (hok : answer.keeps env dynamic d = true)
    (h : phlDynamicNewConf env father dynamic name d answer s = some (ptr, s')) :
    s'.Wf ∧ Grows s s' ∧ ∀ n, ptr = .container n → s'.Live n := by
  have hstatus' : (answer.status == none || answer.status == some 200) = true := by
    simpa using hstatus
  have hholder : answer.changes env dynamic d = true → d.isJustHolder = true := by
    intro hchanges
    by_contra hh
    simp [ConfAnswer.keeps, hh, hchanges] at hok
  unfold phlDynamicNewConf at h
  dsimp only at h
  split at h
  next hcheck =>
    split at h
    next text hconf =>
      split at h
      next htag =>
        cases h
        refine ⟨hw, .refl s, fun n hn => ?_⟩
        cases hn
        refine he.container ?_
        by_contra hh
        simp [ConfAnswer.keeps, hh, hconf, htag] at hok
      next htag =>
        refine replace_grows hw he (fun _ hparsed => hholder ?_) h
        unfold ConfAnswer.changes
        rw [hstatus', hparsed, hconf]
        simp [htag]
    next =>
      cases h
      exact ⟨hw, .refl s, nofun⟩
  next hcheck =>
    refine replace_grows hw he (fun hconf hparsed => hholder ?_) h
    unfold ConfAnswer.changes
    rw [hstatus', hparsed]
    cases hc : answer.conf with
    | string text => simp [not_not.mp hcheck]
    | table => simp [not_not.mp hcheck]
    | other => exact absurd hc hconf

theorem phlDynamicGetConf_grows {father : ConfId} {dynamic : DynamicConf} {name : Bytes}
    {d e : SubDyn} {run : LuaRun} {r r' : Client} {ptr : DynamicPtr} (hw : s.Wf)
    (he : IsEntry s d e) (hok : run.keeps env dynamic d = true)
    (h : phlDynamicGetConf env father dynamic name d run r s = some (ptr, r', s')) :
    s'.Wf ∧ Grows s s' ∧ (∀ n, ptr = .container n → s'.Live n) ∧ SameUse r r' := by
  unfold phlDynamicGetConf at h
  split at h
  next =>
    cases h
    exact ⟨hw, .refl s, nofun, rfl, rfl, rfl, rfl, rfl⟩
  next =>
    cases h
    exact ⟨hw, .refl s, nofun, rfl, rfl, rfl, rfl, rfl⟩
  next answer =>
    dsimp only at h
    split at h
    next =>
      cases h
      exact ⟨hw, .refl s, fun n hn => he.useStale hn, rfl, rfl, rfl, rfl, rfl⟩
    next =>
      split at h
      next h404 =>
        -- a sub that is there does not get this answer
        have hholder : d.isJustHolder = true := by
          by_contra hh
          simp [LuaRun.keeps, ConfAnswer.keeps, hh, h404] at hok
        cases h
        have hid : ∀ b : SubDyn, ({ b with errorRet := 404 } : SubDyn).id = b.id := fun _ => rfl
        unfold Dynamics.setTimer
        rw [update_update hid]
        refine ⟨update_wf hw fun _ _ _ => ⟨rfl, rfl, rfl, .inl⟩, update_grows fun b hb hid => ?_, nofun,
          rfl, rfl, rfl, rfl, rfl⟩
        refine ⟨⟨rfl, rfl, rfl, .inl⟩, fun hh => ?_⟩
        rw [hw.eq_of_id hb he.mem (hid.trans he.id.symm), he.holder, hholder] at hh
        cases hh
      next =>
        split at h
        next hstatus =>
          obtain ⟨⟨ptr', s1⟩, hnew, hx⟩ := Option.map_eq_some_iff.mp h
          cases hx
          obtain ⟨hw', hg, hlive⟩ := phlDynamicNewConf_grows hw he hstatus hok hnew
          exact ⟨hw', hg, hlive, rfl, rfl, rfl, rfl, rfl⟩
        next =>
          cases h
          exact ⟨hw, .refl s, fun n hn => he.useStale hn, rfl, rfl, rfl, rfl, rfl⟩

theorem isEntry_update {d e : SubDyn} {f : SubDyn → SubDyn} (he : e ∈ s.subs) (hid : e.id = d.id)
    (hholder : e.isJustHolder = d.isJustHolder) (hf : Harmless e f)
    (ht : d.isJustHolder = false → s.now < (f e).due s.now) :
    IsEntry (s.update d.id f) d (f e) := by
  refine ⟨?_, hf.id.trans hid, hf.holder.trans hholder, ht⟩
  have hmem := List.mem_map_of_mem (f := fun b => if b.id = d.id then f b else b) he
  rwa [if_pos hid] at hmem

theorem phlDynamicNeedGetConf_grows {d e : SubDyn} {filter need : Bool} (hw : s.Wf)
    (he : IsEntry s d e) (h : phlDynamicNeedGetConf d filter s = (need, s')) :
    s'.Wf ∧ Grows s s' ∧ ∃ e', IsEntry s' d e' := by
  unfold phlDynamicNeedGetConf at h
  dsimp only at h
  split at h
  next => cases h; exact ⟨hw, .refl s, e, he⟩
  next =>
    split at h
    next => cases h; exact ⟨hw, .refl s, e, he⟩
    next =>
      split at h
      next => cases h; exact ⟨hw, .refl s, e, he⟩
      next =>
        cases h
        exact ⟨update_wf hw fun _ _ _ => ⟨rfl, rfl, rfl, .inl⟩,
          update_grows fun _ _ _ => ⟨⟨rfl, rfl, rfl, .inl⟩, fun _ _ => Nat.min_le_left _ _⟩,
          _, isEntry_update he.mem he.id he.holder ⟨rfl, rfl, rfl, .inl⟩ he.live⟩

/-- A sub is only handed out with a timer that has not run out, and no other sub that is in use
goes away. -/
theorem phlDynamicGet_grows {father : ConfId} {a : LuaAnswers} {i : RequestId} {r r' : Client}
    {ptr : DynamicPtr} (hw : s.Wf) (hok : getOk env father a r s = true)
    (h : phlDynamicGet env father a i r s = some (ptr, r', s')) :
    s'.Wf ∧ Grows s s' ∧ (∀ n, ptr = .container n → s'.Live n) ∧ SameUse r r' := by
  obtain ⟨dynamic, hconf, h⟩ := Option.bind_eq_some_iff.mp h
  have hstop : some (DynamicPtr.error, r, s) = some (ptr, r', s') →
      s'.Wf ∧ Grows s s' ∧ (∀ n, ptr = .container n → s'.Live n) ∧ SameUse r r' := by
    intro he
    cases he
    exact ⟨hw, .refl s, nofun, rfl, rfl, rfl, rfl, rfl⟩
  unfold getOk at hok
  cases hname : a.name with
  | none =>
    rw [hname] at h
    exact hstop h
  | some name =>
    rw [hname] at h
    simp only [hconf, hname] at hok
    dsimp only at h
    split at h
    next => exact hstop h
    next =>
      cases hget : env.dictGet ((s.dict father).filter fun d => d.name == cstr name) with
      | none =>
        rw [hget] at h hok
        dsimp only at h
        split at h
        next => exact hstop h
        next =>
          have hw1 : (phlDynamicNewHolder father dynamic (cstr name) s).2.Wf :=
            insert_wf hw rfl rfl nofun
          have hentry : IsEntry (phlDynamicNewHolder father dynamic (cstr name) s).2
              (phlDynamicNewHolder father dynamic (cstr name) s).1
              (phlDynamicNewHolder father dynamic (cstr name) s).1 :=
            ⟨List.mem_cons_self, rfl, rfl, nofun⟩
          obtain ⟨hw2, hg, hlive, huse⟩ := phlDynamicGetConf_grows hw1 hentry hok h
          exact ⟨hw2, insert_grows.trans hg, hlive, huse⟩
      | some d =>
        have hd : d ∈ s.subs :=
          List.mem_of_mem_filter (List.mem_of_mem_filter (env.dictGet_mem hget))
        rw [hget] at h hok
        dsimp only at h hok
        rw [Bool.and_eq_true] at hok
        split at h
        next hrunning =>
          have hlive : d.isJustHolder = false → s.now < d.due s.now := by
            intro hh
            have hidle := hw.idle d hd hh
            have htimer : s.now < d.timer := by simpa [hh, hrunning] using hok.2
            unfold SubDyn.due
            omega
          exact phlDynamicGetConf_grows hw ⟨hd, rfl, rfl, hlive⟩ hok.1 h
        next =>
          split at h
          next =>
            cases h
            exact ⟨hw, .refl s, nofun, rfl, rfl, rfl, rfl, rfl⟩
          next =>
            split at h
            next =>
              cases h
              exact ⟨update_wf hw fun _ _ _ => ⟨rfl, rfl, rfl, .inl⟩,
                update_grows fun _ _ _ => ⟨⟨rfl, rfl, rfl, .inl⟩, fun _ _ => Nat.min_le_left _ _⟩,
                nofun, rfl, rfl, rfl, rfl, rfl⟩
            next hh =>
              rw [Bool.not_eq_true] at hh
              have hidle := hw.idle d hd hh
              have hentry : IsEntry (s.setTimer d.id (d.conf.idleTimeout * 1000)) d
                  { d with timer := s.now + d.conf.idleTimeout * 1000 } := by
                refine isEntry_update hd rfl rfl ⟨rfl, rfl, rfl, .inl⟩ fun _ => ?_
                unfold SubDyn.due
                dsimp only
                omega
              have hw1 : (s.setTimer d.id (d.conf.idleTimeout * 1000)).Wf :=
                update_wf hw fun _ _ _ => ⟨rfl, rfl, rfl, .inl⟩
              have hg1 : Grows s (s.setTimer d.id (d.conf.idleTimeout * 1000)) := by
                refine update_grows fun b hb hid => ⟨⟨rfl, rfl, rfl, .inl⟩, fun _ _ => ?_⟩
                rw [hw.eq_of_id hb hd hid]
                exact Nat.min_le_right _ _
              cases hneed : phlDynamicNeedGetConf d a.filter
                (s.setTimer d.id (d.conf.idleTimeout * 1000)) with
              | mk need s2 =>
                rw [hneed] at h
                obtain ⟨hw2, hg2, e, he⟩ := phlDynamicNeedGetConf_grows hw1 hentry hneed
                dsimp only at h
                split at h
                next =>
                  obtain ⟨hw3, hg3, hlive, huse⟩ := phlDynamicGetConf_grows hw2 he hok.1 h
                  exact ⟨hw3, (hg1.trans hg2).trans hg3, hlive, huse⟩
                next =>
                  cases h
                  refine ⟨hw2, hg1.trans hg2, fun n hn => ?_, rfl, rfl, rfl, rfl, rfl⟩
                  cases hn
                  exact he.container hh

theorem SameUse.trans {r r' r'' : Client} (h : SameUse r r') (h' : SameUse r' r'') :
    SameUse r r'' :=
  ⟨h'.isOpen.trans h.isOpen, h'.confPath.trans h.confPath, h'.upstream.trans h.upstream,
    h'.pathUntil.trans h.pathUntil, h'.upstreamUntil.trans h.upstreamUntil⟩

theorem phlDynamicLoop_grows {i : RequestId} {answers : List LuaAnswers} {c c' : ConfId}
    {r r' : Client} {ret : DynamicRet} (hw : s.Wf) (hc : ∀ n, c.owner = some n → s.Live n)
    (hok : loopOk env i answers c r s = true)
    (h : phlDynamicLoop env i answers c r s = some (c', ret, r', s')) :
    s'.Wf ∧ Grows s s' ∧ (∀ n, c'.owner = some n → s'.Live n) ∧ SameUse r r' := by
  induction answers generalizing c r s with
  | nil =>
    obtain ⟨dynamic, -, h⟩ := Option.bind_eq_some_iff.mp h
    split at h
    next => cases h; exact ⟨hw, .refl _, hc, rfl, rfl, rfl, rfl, rfl⟩
    next => cases h
  | cons a answers ih =>
    obtain ⟨dynamic, -, h⟩ := Option.bind_eq_some_iff.mp h
    split at h
    next => cases h; exact ⟨hw, .refl _, hc, rfl, rfl, rfl, rfl, rfl⟩
    next =>
      obtain ⟨⟨ptr, r1, s1⟩, hget, h⟩ := Option.bind_eq_some_iff.mp h
      rw [loopOk, Bool.and_eq_true, hget] at hok
      obtain ⟨hw1, hg1, hlive, huse⟩ := phlDynamicGet_grows hw hok.1 hget
      cases ptr with
      | error => cases h; exact ⟨hw1, hg1, fun n hn => (hc n hn).grows hg1, huse⟩
      | again => cases h; exact ⟨hw1, hg1, fun n hn => (hc n hn).grows hg1, huse⟩
      | container n =>
        have hsub : ∀ m, (ConfId.sub n).owner = some m → s1.Live m := by
          intro m hm
          cases hm
          exact hlive n rfl
        obtain ⟨hw2, hg2, hc2, huse2⟩ := ih hw1 hsub hok.2 h
        exact ⟨hw2, hg1.trans hg2, hc2, huse.trans huse2⟩

end Subs

section Use

variable {env : DynamicEnv} {isDefault : ConfId → Bool} {s s' : DynamicSystem}

/-- `c` is there, and its timer does not run out before `til`. -/
def KeptUntil (s : Dynamics) (c : ConfId) (til : Nat) : Prop :=
  ∀ n, c.owner = some n → s.now < til ∧
    ∃ d ∈ s.subs, d.id = n ∧ d.isJustHolder = false ∧ til ≤ d.due s.now

theorem KeptUntil.live {s : Dynamics} {c : ConfId} {til n : Nat} (h : KeptUntil s c til)
    (hn : c.owner = some n) : s.Live n := by
  obtain ⟨htil, d, hd, hid, hh, hle⟩ := h n hn
  exact ⟨d, hd, hid, hh, by omega⟩

theorem KeptUntil.grows {s s' : Dynamics} {c : ConfId} {til : Nat} (h : KeptUntil s c til)
    (hg : Grows s s') : KeptUntil s' c til := by
  intro n hn
  obtain ⟨htil, d, hd, hid, hh, hle⟩ := h n hn
  obtain ⟨d', hd', hid', hh', hle'⟩ := hg.stays d hd hh (by omega)
  rw [hg.now]
  exact ⟨htil, d', hd', hid'.trans hid, hh', by omega⟩

theorem keptUntil_untilOf {s : Dynamics} {c : ConfId} (hw : s.Wf)
    (hc : ∀ n, c.owner = some n → s.Live n) : KeptUntil s c (s.untilOf c) := by
  intro n hn
  obtain ⟨d, hd, hid, hh, ht⟩ := hc n hn
  have huntil : s.untilOf c = d.due s.now := by
    unfold Dynamics.untilOf
    rw [hn, ← hid]
    dsimp only
    rw [find_of_mem hw hd]
    rfl
  rw [huntil]
  exact ⟨ht, d, hd, hid, hh, Nat.le_refl _⟩

/-- The subs that a request uses are there for as long as it may use them. -/
structure Client.Held (r : Client) (s : Dynamics) : Prop where
  path : r.isOpen = true → ∀ c, r.confPath = some c → KeptUntil s c r.pathUntil
  upstream : r.isOpen = true → ∀ c, r.upstream = some c → KeptUntil s c r.upstreamUntil

theorem Client.Held.grows {r : Client} {s s' : Dynamics} (h : r.Held s) (hg : Grows s s') :
    r.Held s' :=
  ⟨fun ho c hc => (h.path ho c hc).grows hg, fun ho c hc => (h.upstream ho c hc).grows hg⟩

theorem Client.Held.same {r r' : Client} {s : Dynamics} (h : r.Held s) (hs : SameUse r r') :
    r'.Held s := by
  obtain ⟨ho, hc, hu, hpu, huu⟩ := hs
  refine ⟨fun hopen c => ?_, fun hopen c => ?_⟩
  · rw [hc, hpu]
    exact h.path (ho ▸ hopen) c
  · rw [hu, huu]
    exact h.upstream (ho ▸ hopen) c

theorem Client.Held.live {r : Client} {s : Dynamics} {n : Nat} (h : r.Held s)
    (hr : r.Refers n) : s.Live n := by
  obtain ⟨ho, hr | hr⟩ := hr
  · obtain ⟨c, hc, hn⟩ := Option.bind_eq_some_iff.mp hr
    exact (h.path ho c hc).live hn
  · obtain ⟨c, hc, hn⟩ := Option.bind_eq_some_iff.mp hr
    exact (h.upstream ho c hc).live hn

structure DynamicSystem.Safe (s : DynamicSystem) : Prop where
  wf : s.dynamics.Wf
  held : ∀ r ∈ s.clients, r.Held s.dynamics

/-- A step of a request changes nothing for the others. -/
theorem withClient_safe {i : RequestId} {f : Client → Dynamics → Option (Client × Dynamics)}
    (hs : s.Safe) (h : withClient s i f = some s')
    (hf : ∀ r r' d', s.clients[i]? = some r → r ∈ s.clients → r.isOpen = true →
      f r s.dynamics = some (r', d') → d'.Wf ∧ Grows s.dynamics d' ∧ r'.Held d') :
    s'.Safe ∧ (Grows s.dynamics s'.dynamics ∨ s'.dynamics.subs = s.dynamics.subs) := by
  obtain ⟨r, hr, h⟩ := Option.bind_eq_some_iff.mp h
  split at h
  next hopen =>
    obtain ⟨⟨r', d'⟩, hstep, h⟩ := Option.bind_eq_some_iff.mp h
    cases h
    obtain ⟨hw, hg, hheld⟩ := hf r r' d' hr (List.mem_of_getElem? hr) hopen hstep
    refine ⟨⟨hw, fun q hq => ?_⟩, .inl hg⟩
    rcases List.mem_or_eq_of_mem_set hq with hq | rfl
    · exact (hs.held q hq).grows hg
    · exact hheld
  next => cases h

theorem unlink_wf {s : Dynamics} {i : RequestId} (hw : s.Wf) :
    (s.unlink i).Wf ∧ Grows s (s.unlink i) := by
  have hids : (s.unlink i).subs.map (·.id) = s.subs.map (·.id) := by
    unfold Dynamics.unlink
    rw [List.map_map]
    rfl
  refine ⟨⟨?_, hids ▸ hw.unique, ?_, ?_⟩, rfl, fun d hd hh _ => ?_⟩
  · intro e he
    obtain ⟨d, hd, rfl⟩ := List.mem_map.mp he
    exact hw.fresh d hd
  · intro e he hh
    obtain ⟨d, hd, rfl⟩ := List.mem_map.mp he
    exact hw.idle d hd hh
  · intro e he hdel
    obtain ⟨d, hd, rfl⟩ := List.mem_map.mp he
    exact hw.deleting d hd hdel
  · exact ⟨_, List.mem_map_of_mem hd, rfl, hh, Nat.le_refl _⟩

theorem locate_safe {i : RequestId} {located : Option Nat} {answers : List LuaAnswers}
    {r r' : Client} {d d' : Dynamics} (hw : d.Wf) (hr : r.Held d) (hopen : r.isOpen = true)
    (hok : ∀ c, r.confPath.bind (locateStart isDefault located) = some c →
      loopOk env i answers c r d = true)
    (h : phlRequestLocateConfPathDynamic env isDefault i located answers r d = some (r', d')) :
    d'.Wf ∧ Grows d d' ∧ r'.Held d' := by
  obtain ⟨c, hc, h⟩ := Option.bind_eq_some_iff.mp h
  rw [hc, Option.bind_some] at hok
  cases hstart : locateStart isDefault located c with
  | none =>
    rw [hstart] at h
    cases h
    exact ⟨hw, .refl d, hr⟩
  | some c0 =>
    rw [hstart] at h
    have hlive : ∀ n, c0.owner = some n → d.Live n := by
      intro n hn
      unfold locateStart at hstart
      split at hstart
      next =>
        cases hstart
        exact (hr.path hopen c hc).live hn
      next =>
        obtain ⟨m, -, rfl⟩ := Option.map_eq_some_iff.mp hstart
        cases hn
    obtain ⟨⟨c1, ret, r1, d1⟩, hloop, h⟩ := Option.bind_eq_some_iff.mp h
    cases h
    obtain ⟨hw1, hg, hlive1, huse⟩ := phlDynamicLoop_grows hw hlive (hok c0 hstart) hloop
    refine ⟨hw1, hg, fun _ c' hc' => ?_, ((hr.grows hg).same huse).upstream⟩
    cases hc'
    exact keptUntil_untilOf hw1 hlive1

theorem connect_safe {i : RequestId} {answers : List LuaAnswers} {connected : Bool}
    {r r' : Client} {d d' : Dynamics} (hw : d.Wf) (hr : r.Held d) (hopen : r.isOpen = true)
    (hok : ∀ c, r.confPath = some c → loopOk env i answers (upstreamStart env c) r d = true)
    (h : phlUpstreamGetConnectionDynamic env i answers connected r d = some (r', d')) :
    d'.Wf ∧ Grows d d' ∧ r'.Held d' := by
  obtain ⟨c, hc, h⟩ := Option.bind_eq_some_iff.mp h
  have hlive : ∀ n, (upstreamStart env c).owner = some n → d.Live n := by
    intro n hn
    unfold upstreamStart at hn
    split at hn
    next => cases hn
    next => exact (hr.path hopen c hc).live hn
  obtain ⟨⟨u, ret, r1, d1⟩, hloop, h⟩ := Option.bind_eq_some_iff.mp h
  obtain ⟨hw1, hg, hlive1, huse⟩ := phlDynamicLoop_grows hw hlive (hok c hc) hloop
  have hheld := (hr.grows hg).same huse
  dsimp only at h
  split at h
  next =>
    cases h
    refine ⟨hw1, hg, hheld.path, fun _ c' hc' => ?_⟩
    cases hc'
    exact keptUntil_untilOf hw1 hlive1
  next =>
    cases h
    exact ⟨hw1, hg, hheld⟩

theorem keptUntil_tick {s : Dynamics} {c : ConfId} {til ms : Nat} (h : KeptUntil s c til)
    (ht : c.owner.isNone = true ∨ s.now + ms < til) : KeptUntil { s with now := s.now + ms } c til := by
  intro n hn
  obtain ⟨-, d, hd, hid, hh, hle⟩ := h n hn
  rcases ht with ht | ht
  · rw [hn] at ht
    cases ht
  · refine ⟨ht, d, hd, hid, hh, ?_⟩
    unfold SubDyn.due at hle ⊢
    dsimp only
    omega

theorem inTime_held {r : Client} {s : Dynamics} {ms : Nat} (h : r.Held s)
    (ht : r.inTime (s.now + ms) = true) : r.Held { s with now := s.now + ms } := by
  have hin : r.isOpen = true →
      ((r.confPath.bind ConfId.owner).isNone = true ∨ s.now + ms < r.pathUntil) ∧
        ((r.upstream.bind ConfId.owner).isNone = true ∨ s.now + ms < r.upstreamUntil) := by
    intro hopen
    simpa [Client.inTime, hopen] using ht
  refine ⟨fun hopen c hc => keptUntil_tick (h.path hopen c hc) ?_,
    fun hopen c hc => keptUntil_tick (h.upstream hopen c hc) ?_⟩
  · have hpath := (hin hopen).1
    rwa [hc, Option.bind_some] at hpath
  · have hup := (hin hopen).2
    rwa [hc, Option.bind_some] at hup

theorem tick_wf {s : Dynamics} {ms : Nat} (hw : s.Wf) :
    Dynamics.Wf { s with now := s.now + ms } :=
  ⟨hw.fresh, hw.unique, hw.idle, hw.deleting⟩

/-- A step either lets time pass or keeps every sub whose timer has not run out. -/
theorem dynamicStep_safe {a : DynamicAct} (hs : s.Safe) (hok : actOk env isDefault s a = true)
    (h : dynamicStep env isDefault s a = some s') :
    s'.Safe ∧ (Grows s.dynamics s'.dynamics ∨ s'.dynamics.subs = s.dynamics.subs) := by
  cases a with
  | tick ms =>
    cases h
    refine ⟨⟨tick_wf hs.wf, fun r hr => ?_⟩, .inr rfl⟩
    exact inTime_held (hs.held r hr) (List.all_eq_true.mp hok r hr)
  | request defaultPath =>
    cases h
    refine ⟨⟨hs.wf, fun r hr => ?_⟩, .inr rfl⟩
    rcases List.mem_append.mp hr with hr | hr
    · exact hs.held r hr
    · rw [List.mem_singleton] at hr
      subst hr
      refine ⟨fun _ c hc n hn => ?_, nofun⟩
      cases hc
      cases hn
  | locate i located answers =>
    refine withClient_safe hs h fun r r' d' hr hmem hopen hstep => ?_
    refine locate_safe hs.wf (hs.held r hmem) hopen (fun c hc => ?_) hstep
    simpa [actOk, hr, hc] using hok
  | connect i answers connected =>
    unfold dynamicStep at h
    refine withClient_safe hs h fun r r' d' hr hmem hopen hstep => ?_
    split at hstep
    next =>
      refine connect_safe hs.wf (hs.held r hmem) hopen (fun c hc => ?_) hstep
      simpa [actOk, hr, hc] using hok
    next => cases hstep
  | release i =>
    unfold dynamicStep at h
    refine withClient_safe hs h fun r r' d' _ hmem _ hstep => ?_
    cases hstep
    exact ⟨hs.wf, .refl _, (hs.held r hmem).path, nofun⟩
  | redirect i =>
    unfold dynamicStep at h
    refine withClient_safe hs h fun r r' d' _ _ _ hstep => ?_
    cases hstep
    exact ⟨(unlink_wf hs.wf).1, (unlink_wf hs.wf).2, nofun, nofun⟩
  | otherLua i entry =>
    unfold dynamicStep at h
    refine withClient_safe hs h fun r r' d' _ hmem _ hstep => ?_
    cases hstep
    exact ⟨hs.wf, .refl _, (hs.held r hmem).same ⟨rfl, rfl, rfl, rfl, rfl⟩⟩
  | close i =>
    unfold dynamicStep at h
    refine withClient_safe hs h fun r r' d' _ _ _ hstep => ?_
    cases hstep
    exact ⟨(unlink_wf hs.wf).1, (unlink_wf hs.wf).2, nofun, nofun⟩
  | timer n =>
    unfold dynamicStep at h
    dsimp only at h
    split at h
    next => cases h
    next d hfind =>
      split at h
      next hdue =>
        obtain ⟨dynamics, hdelete, hx⟩ := Option.map_eq_some_iff.mp h
        cases hx
        obtain ⟨hw, hg⟩ :=
          phlDynamicDelete_grows hs.wf (find_mem hfind).1 rfl rfl (.inr hdue.1) hdelete
        exact ⟨⟨hw, fun r hr => (hs.held r hr).grows hg⟩, .inl hg⟩
      next => cases h
  | wake n =>
    unfold dynamicStep at h
    dsimp only at h
    split at h
    next => cases h
    next d hfind =>
      split at h
      next =>
        obtain ⟨⟨i, dynamics⟩, hpop, hx⟩ := Option.map_eq_some_iff.mp h
        cases hx
        obtain ⟨hw, hg⟩ := phlDynamicPopWaiting_grows hs.wf hpop
        exact ⟨⟨hw, fun r hr => (hs.held r hr).grows hg⟩, .inl hg⟩
      next => cases h
  | deleted n =>
    unfold dynamicStep at h
    dsimp only at h
    split at h
    next => cases h
    next d hfind =>
      split at h
      next hdel =>
        obtain ⟨dynamics, hdestroy, hx⟩ := Option.map_eq_some_iff.mp h
        cases hx
        have hd := (find_mem hfind).1
        have hholder := hs.wf.deleting d hd hdel.1
        obtain ⟨hw, hg⟩ := phlDynamicDestroy_grows hs.wf hd rfl (.inl hholder) hdestroy
        exact ⟨⟨hw, fun r hr => (hs.held r hr).grows hg⟩, .inl hg⟩
      next => cases h

theorem reachable_safe
    (h : Reachable DynamicInit (DynamicStep env isDefault (actOk env isDefault)) s) :
    s.Safe := by
  refine h.invariant ?_ fun s s' hs ⟨a, hok, hstep⟩ => (dynamicStep_safe hs hok hstep).1
  rintro s ⟨hsubs, hclients⟩
  refine ⟨⟨?_, ?_, ?_, ?_⟩, ?_⟩ <;> simp [hsubs, hclients]

def dynamicRun (env : DynamicEnv) (isDefault : ConfId → Bool)
    (ok : DynamicSystem → DynamicAct → Bool) : List DynamicAct → DynamicSystem →
      Option DynamicSystem
  | [], s => some s
  | a :: acts, s => if ok s a then (dynamicStep env isDefault s a).bind
      (dynamicRun env isDefault ok acts) else none

theorem reachable_dynamicRun {ok : DynamicSystem → DynamicAct → Bool} {acts : List DynamicAct}
    (hs : Reachable DynamicInit (DynamicStep env isDefault ok) s)
    (h : dynamicRun env isDefault ok acts s = some s') :
    Reachable DynamicInit (DynamicStep env isDefault ok) s' := by
  induction acts generalizing s with
  | nil => cases h; exact hs
  | cons a acts ih =>
    unfold dynamicRun at h
    split at h
    next hok =>
      obtain ⟨s1, hstep, h⟩ := Option.bind_eq_some_iff.mp h
      exact ih (hs.next ⟨a, hok, hstep⟩) h
    next => cases h

/-- A Host with a dynamic Path whose subs are checked every second. -/
def dynamicPath : DynamicEnv where
  conf
    | .root 1 => ⟨some 0, 1, none, 1, 3600, 1, 1000⟩
    | _ => ⟨none, 0, none, 1, 3600, 1, 0⟩
  idleTimeout_pos := fun c => by
    split <;> decide
  upstream := fun _ => .own
  dictGet := List.head?
  dictGet_mem := List.mem_of_head?
  vhash64 := List.length

/-- `get_conf` returns a string. -/
def gotConf (text : String) : LuaAnswers :=
  ⟨some (bytes "a"), true, .done ⟨none, .string (bytes text), true⟩⟩

def noSystem : DynamicSystem := ⟨⟨0, [], 0⟩, []⟩

end Use

end Phorklift
