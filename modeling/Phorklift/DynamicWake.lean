import Phorklift.DynamicUse

/-! The deletions of holders, and the requests that they run. -/

namespace Phorklift

open Transition

/-- A `phl_dynamic_delete` that is at the requests that waited for the holder. -/
structure Deletion where
  sub : Nat
  /-- the request that it is running -/
  woken : Option RequestId
  deriving DecidableEq

structure WakeWorld where
  dynamics : Dynamics
  clients : List Client
  /-- the innermost first -/
  deletions : List Deletion
  /-- the requests that have been run so, and for which holder -/
  resumed : List (RequestId × Nat)
  deriving DecidableEq

inductive WakeAct
  | tick (ms : Nat)
  | request (defaultPath : Nat)
  /-- one `phl_dynamic_get` -/
  | get (i : RequestId) (father : ConfId) (answers : LuaAnswers)
  /-- another Lua function takes over -/
  | otherLua (i : RequestId)
  | redirect (i : RequestId)
  | close (i : RequestId)
  | timer (n : Nat)
  /-- a round of the loop in the innermost deletion, or its end -/
  | wake
  /-- the request that is run there returns -/
  | returns

namespace WakeWorld

/-- Either the loop is at an event of the request, or the innermost deletion runs it. -/
def runs (w : WakeWorld) (i : RequestId) : Bool :=
  match w.deletions with
  | [] => true
  | f :: _ => f.woken == some i

end WakeWorld

/-- A dynamic configuration of the file or in a container, with a `get_name`. -/
def Dynamics.asks (env : DynamicEnv) (s : Dynamics) (father : ConfId) : Bool :=
  (s.confOf env father).any DynamicConf.enabled &&
    match father.owner with
    | none => true
    | some n => (s.find n).any fun d => !d.isJustHolder

/-- `phl_dynamic_delete` has been called on a holder. -/
def begun (s : Dynamics) (deletions : List Deletion) : List Deletion :=
  match s.subs.find? fun d => d.deleting && deletions.all fun f => f.sub != d.id with
  | none => deletions
  | some d => ⟨d.id, none⟩ :: deletions

def returned : List Deletion → List Deletion
  | [] => []
  | f :: rest => ⟨f.sub, none⟩ :: rest

namespace WakeWorld

def withClient (w : WakeWorld) (i : RequestId) (f : Client → Option WakeWorld) :
    Option WakeWorld := do
  let r ← w.clients[i]?
  if r.isOpen then f r else none

def get (env : DynamicEnv) (w : WakeWorld) (i : RequestId) (father : ConfId)
    (answers : LuaAnswers) (r : Client) : Option WakeWorld := do
  let (ptr, r, s) ← phlDynamicGet env father answers i r w.dynamics
  let deletions := if ptr = .again then returned w.deletions else w.deletions
  some { w with
    dynamics := s
    clients := w.clients.set i r
    deletions := begun s deletions }

def timer (w : WakeWorld) (d : SubDyn) : Option WakeWorld :=
  (phlDynamicDelete d w.dynamics).map fun s => { w with
    dynamics := s
    deletions := begun s w.deletions }

def wake (w : WakeWorld) (d : SubDyn) (rest : List Deletion) : Option WakeWorld :=
  match phlDynamicPopWaiting d w.dynamics with
  | some (i, s) => some { w with
      dynamics := s
      deletions := ⟨d.id, some i⟩ :: rest
      resumed := (i, d.id) :: w.resumed }
  | none => (phlDynamicDestroy d w.dynamics).map fun s => { w with
      dynamics := s
      deletions := rest }

end WakeWorld

def wakeStep (env : DynamicEnv) (w : WakeWorld) : WakeAct → Option WakeWorld
  | .tick ms => some { w with dynamics.now := w.dynamics.now + ms }
  | .request defaultPath => some { w with clients := w.clients ++ [newClient defaultPath] }
  | .get i father answers => w.withClient i fun r =>
    if w.runs i && w.dynamics.asks env father then w.get env i father answers r else none
  | .otherLua i => w.withClient i fun r =>
    if w.runs i then some { w with clients := w.clients.set i { r with entry := none } } else none
  | .redirect i => w.withClient i fun r => some { w with
      dynamics := w.dynamics.unlink i
      clients := w.clients.set i { r with upstream := none, confPath := none, entry := none } }
  | .close i => w.withClient i fun r => some { w with
      dynamics := w.dynamics.unlink i
      clients := w.clients.set i { r with isOpen := false, upstream := none, entry := none } }
  | .timer n =>
    match w.dynamics.find n with
    | none => none
    | some d =>
      if w.deletions = [] ∧ d.timer ≤ w.dynamics.now ∧ d.deleting = false then w.timer d
      else none
  | .wake =>
    match w.deletions with
    | ⟨n, none⟩ :: rest =>
      match w.dynamics.find n with
      | none => none
      | some d => w.wake d rest
    | _ => none
  | .returns =>
    match w.deletions with
    | ⟨n, some _⟩ :: rest => some { w with deletions := ⟨n, none⟩ :: rest }
    | _ => none

theorem withClient_eq {w w' : WakeWorld} {i : RequestId} {f : Client → Option WakeWorld}
    (h : w.withClient i f = some w') :
    ∃ r, w.clients[i]? = some r ∧ r.isOpen = true ∧ f r = some w' := by
  obtain ⟨r, hr, h⟩ := Option.bind_eq_some_iff.mp h
  obtain ⟨hopen, h⟩ := Option.ite_none_right_eq_some.mp h
  exact ⟨r, hr, hopen, h⟩

section Outcome

variable {env : DynamicEnv} {father : ConfId} {dynamic : DynamicConf} {name : Bytes} {d : SubDyn}
  {run : LuaRun} {answers : LuaAnswers} {i : RequestId} {r r' : Client} {s s' : Dynamics}
  {ptr : DynamicPtr}

/-- The string that comes for the holder has the hash 0, which a bare holder has too. -/
def LuaRun.zero (env : DynamicEnv) (dynamic : DynamicConf) (d : SubDyn) : LuaRun → Bool
  | .done answer => match answer.conf with
    | .string text => dynamic.checkInterval != 0 && d.isJustHolder && env.vhash64 text == d.tag &&
      (answer.status == none || answer.status == some 200)
    | _ => false
  | _ => false

/-- What `phl_dynamic_get` can come to from `get_conf` on. -/
inductive ConfOutcome (env : DynamicEnv) (father : ConfId) (dynamic : DynamicConf) (name : Bytes)
    (d : SubDyn) (run : LuaRun) (r : Client) (s : Dynamics) :
    DynamicPtr → Client → Dynamics → Prop
  | suspended : ConfOutcome env father dynamic name d run r s .again
      { r with entry := some dynamic.getConf } s
  | failed : ConfOutcome env father dynamic name d run r s .error { r with entry := none } s
  | kept (h : d.isJustHolder = true → run.zero env dynamic d = true) :
      ConfOutcome env father dynamic name d run r s (.container d.id) { r with entry := none } s
  | missing : ConfOutcome env father dynamic name d run r s .error
      { r with entry := none, statusCode := 404 }
      ((s.update d.id fun e => { e with errorRet := 404 }).setTimer d.id
        (d.conf.errorTimeout * 1000))
  | replaced {answer : ConfAnswer} {tag n : Nat} {s1 s2 : Dynamics} (hrun : run = .done answer)
      (hchanges : answer.changes env dynamic d = true)
      (hparse : phlDynamicParseSubDyn env father name tag answer s = some (n, s1))
      (hdelete : phlDynamicDelete d s1 = some s2) :
      ConfOutcome env father dynamic name d run r s (.container n) { r with entry := none } s2

theorem useStale_outcome (r : Client) :
    ConfOutcome env father dynamic name d run r s (useStale d) { r with entry := none } s := by
  unfold useStale
  split
  next => exact .failed
  next hholder => exact .kept fun h => absurd h hholder

theorem phlDynamicNewConf_outcome {answer : ConfAnswer}
    (hstatus : answer.status = none ∨ answer.status = some 200)
    (h : phlDynamicNewConf env father dynamic name d answer s = some (ptr, s')) :
    ConfOutcome env father dynamic name d (.done answer) r s ptr { r with entry := none } s' := by
  have hstatus' : (answer.status == none || answer.status == some 200) = true := by
    simpa using hstatus
  have hreplace : ∀ tag n s1, (answer.conf ≠ .other → answer.parsed = true →
      answer.changes env dynamic d = true) →
      phlDynamicParseSubDyn env father name tag answer s = some (n, s1) →
      ((phlDynamicDelete d s1).map fun s2 => (DynamicPtr.container n, s2)) = some (ptr, s') →
      ConfOutcome env father dynamic name d (.done answer) r s ptr { r with entry := none } s' := by
    intro tag n s1 hchanges hparse h
    obtain ⟨s2, hdelete, hx⟩ := Option.map_eq_some_iff.mp h
    cases hx
    have hnone : ¬(answer.conf = .other ∨ answer.parsed = false) := by
      intro hbad
      rw [phlDynamicParseSubDyn, if_pos hbad] at hparse
      cases hparse
    rw [not_or, Bool.not_eq_false] at hnone
    exact .replaced rfl (hchanges hnone.1 hnone.2) hparse hdelete
  unfold phlDynamicNewConf at h
  dsimp only at h
  split at h
  next hinterval =>
    split at h
    next text hconf =>
      split at h
      next hsame =>
        cases h
        refine .kept fun hholder => ?_
        unfold LuaRun.zero
        simp [hconf, hholder, hsame, hstatus, hinterval]
      next hdiffers =>
        split at h
        next =>
          cases h
          exact useStale_outcome r
        next n s1 hparse =>
          refine hreplace _ n s1 (fun _ hparsed => ?_) hparse h
          unfold ConfAnswer.changes
          rw [hstatus', hparsed, hconf]
          simp [hdiffers]
    next =>
      cases h
      exact .failed
  next hinterval =>
    rw [Decidable.not_not] at hinterval
    split at h
    next =>
      cases h
      exact useStale_outcome r
    next n s1 hparse =>
      refine hreplace _ n s1 (fun hconf hparsed => ?_) hparse h
      unfold ConfAnswer.changes
      rw [hstatus', hparsed]
      cases hc : answer.conf with
      | string => simp [hinterval]
      | table => simp [hinterval]
      | other => exact absurd hc hconf

theorem phlDynamicGetConf_outcome
    (h : phlDynamicGetConf env father dynamic name d run r s = some (ptr, r', s')) :
    ConfOutcome env father dynamic name d run r s ptr r' s' := by
  unfold phlDynamicGetConf at h
  split at h
  next =>
    cases h
    exact .failed
  next =>
    cases h
    exact .suspended
  next answer =>
    dsimp only at h
    split at h
    next =>
      cases h
      exact useStale_outcome r
    next =>
      split at h
      next =>
        cases h
        exact .missing
      next =>
        split at h
        next hstatus =>
          obtain ⟨⟨ptr, s'⟩, hnew, hx⟩ := Option.map_eq_some_iff.mp h
          cases hx
          exact phlDynamicNewConf_outcome hstatus hnew
        next =>
          cases h
          exact useStale_outcome r

/-- The entry with which `phl_dynamic_get` comes to `get_conf`. -/
inductive Asked (env : DynamicEnv) (father : ConfId) (dynamic : DynamicConf)
    (answers : LuaAnswers) (name : Bytes) (r : Client) (s : Dynamics) :
    SubDyn → Dynamics → Prop
  | created (hget : env.dictGet ((s.dict father).filter fun d => d.name == name) = none)
      (hmax : (s.dict father).length < dynamic.subMax) :
      Asked env father dynamic answers name r s (phlDynamicNewHolder father dynamic name s).1
        (phlDynamicNewHolder father dynamic name s).2
  | running {d : SubDyn}
      (hget : env.dictGet ((s.dict father).filter fun d => d.name == name) = some d)
      (hentry : r.entry = some dynamic.getConf) :
      Asked env father dynamic answers name r s d s
  | expired {d : SubDyn}
      (hget : env.dictGet ((s.dict father).filter fun d => d.name == name) = some d)
      (hentry : r.entry ≠ some dynamic.getConf) (herror : d.errorRet = 0)
      (hholder : d.isJustHolder = false)
      (hneed : (phlDynamicNeedGetConf d answers.filter
        (s.setTimer d.id (d.conf.idleTimeout * 1000))).1 = true) :
      Asked env father dynamic answers name r s d (phlDynamicNeedGetConf d answers.filter
        (s.setTimer d.id (d.conf.idleTimeout * 1000))).2

/-- What one `phl_dynamic_get` can come to. -/
inductive GetOutcome (env : DynamicEnv) (father : ConfId) (dynamic : DynamicConf)
    (answers : LuaAnswers) (i : RequestId) (r : Client) (s : Dynamics) :
    DynamicPtr → Client → Dynamics → Prop
  | failed {r' : Client} (hentry : r'.entry = r.entry) :
      GetOutcome env father dynamic answers i r s .error r' s
  | parked {d : SubDyn} {name : Bytes}
      (hget : env.dictGet ((s.dict father).filter fun d => d.name == name) = some d)
      (hentry : r.entry ≠ some dynamic.getConf) (herror : d.errorRet = 0)
      (hholder : d.isJustHolder = true) :
      GetOutcome env father dynamic answers i r s .again r
        (s.update d.id fun e => { e with holderWaitHead := e.holderWaitHead ++ [i] })
  | found {d : SubDyn} {name : Bytes} (hname : answers.name = some name)
      (hget : env.dictGet ((s.dict father).filter fun d => d.name == cstr name) = some d)
      (hholder : d.isJustHolder = false) :
      GetOutcome env father dynamic answers i r s (.container d.id) r
        (phlDynamicNeedGetConf d answers.filter
          (s.setTimer d.id (d.conf.idleTimeout * 1000))).2
  | ran {d : SubDyn} {s0 s' : Dynamics} {ptr : DynamicPtr} {r' : Client} {name : Bytes}
      (hname : answers.name = some name) (hlength : name.length ≤ 100)
      (hasked : Asked env father dynamic answers (cstr name) r s d s0)
      (hconf : ConfOutcome env father dynamic (cstr name) d answers.run r s0 ptr r' s') :
      GetOutcome env father dynamic answers i r s ptr r' s'

theorem phlDynamicGet_outcome
    (h : phlDynamicGet env father answers i r s = some (ptr, r', s')) :
    ∃ dynamic, s.confOf env father = some dynamic ∧
      GetOutcome env father dynamic answers i r s ptr r' s' := by
  obtain ⟨dynamic, hdynamic, h⟩ := Option.bind_eq_some_iff.mp h
  refine ⟨dynamic, hdynamic, ?_⟩
  split at h
  next =>
    cases h
    exact .failed rfl
  next name hname =>
    split at h
    next =>
      cases h
      exact .failed rfl
    next hlength =>
      rw [Nat.not_lt] at hlength
      split at h
      next hget =>
        split at h
        next =>
          cases h
          exact .failed rfl
        next hmax =>
          exact .ran hname hlength (.created hget (Nat.not_le.mp hmax))
            (phlDynamicGetConf_outcome h)
      next d hget =>
        split at h
        next hentry =>
          exact .ran hname hlength (.running hget hentry) (phlDynamicGetConf_outcome h)
        next hentry =>
          split at h
          next =>
            cases h
            exact .failed rfl
          next herror =>
            rw [Decidable.not_not] at herror
            split at h
            next hholder =>
              cases h
              exact .parked hget hentry herror hholder
            next hholder =>
              rw [Bool.not_eq_true] at hholder
              dsimp only at h
              split at h
              next hneed =>
                exact .ran hname hlength (.expired hget hentry herror hholder hneed)
                  (phlDynamicGetConf_outcome h)
              next =>
                cases h
                exact .found hname hget hholder

end Outcome

section Quiet

variable {s s' s'' : Dynamics} {d d' d'' e : SubDyn} {n now : Nat} {f : SubDyn → SubDyn}

/-- For how long a holder is kept at most, in milliseconds. -/
def SubDyn.wait (d : SubDyn) : Nat := max (60 * 1000) (d.conf.errorTimeout * 1000)

/-- The entry stays what it is. -/
structure Same (d d' : SubDyn) : Prop where
  id : d'.id = d.id
  father : d'.father = d.father
  name : d'.name = d.name
  conf : d'.conf = d.conf
  holder : d'.isJustHolder = d.isJustHolder
  deleting : d'.deleting = d.deleting
  errorRet : d.errorRet ≠ 0 → d'.errorRet ≠ 0

/-- No one comes to wait for it. -/
structure Quiet (now : Nat) (d d' : SubDyn) : Prop extends Same d d' where
  waits : d'.holderWaitHead.Sublist d.holderWaitHead
  timer : d.isJustHolder = true → d'.timer ≤ max d.timer (now + d.wait)

/-- The same ones wait. -/
structure Touch (now : Nat) (d d' : SubDyn) : Prop extends Quiet now d d' where
  same : d'.holderWaitHead = d.holderWaitHead

theorem Quiet.refl (now : Nat) (d : SubDyn) : Quiet now d d :=
  ⟨⟨rfl, rfl, rfl, rfl, rfl, rfl, fun he => he⟩, .refl _, fun _ => Nat.le_max_left _ _⟩

theorem Quiet.trans (h : Quiet now d d') (h' : Quiet now d' d'') : Quiet now d d'' := by
  refine ⟨⟨h'.id.trans h.id, h'.father.trans h.father, h'.name.trans h.name,
    h'.conf.trans h.conf, h'.holder.trans h.holder, h'.deleting.trans h.deleting,
    fun he => h'.errorRet (h.errorRet he)⟩, h'.waits.trans h.waits, fun hh => ?_⟩
  have hle := h.timer hh
  have hle' := h'.timer (h.holder.trans hh)
  have hwait : d'.wait = d.wait := by
    unfold SubDyn.wait
    rw [h.conf]
  rw [hwait] at hle'
  omega

/-- Every entry stays what it is. -/
def Quietly (s s' : Dynamics) : Prop :=
  ∃ g : SubDyn → SubDyn, s' = { s with subs := s.subs.map g } ∧ ∀ d ∈ s.subs, Quiet s.now d (g d)

def Touched (s s' : Dynamics) : Prop :=
  ∃ g : SubDyn → SubDyn, s' = { s with subs := s.subs.map g } ∧ ∀ d ∈ s.subs, Touch s.now d (g d)

theorem Touched.quietly (h : Touched s s') : Quietly s s' := by
  obtain ⟨g, hs, hg⟩ := h
  exact ⟨g, hs, fun d hd => (hg d hd).toQuiet⟩

theorem Touched.refl (s : Dynamics) : Touched s s := by
  refine ⟨id, ?_, fun d _ => ⟨.refl _ d, rfl⟩⟩
  rw [List.map_id]

theorem Touched.trans (h : Touched s s') (h' : Touched s' s'') : Touched s s'' := by
  obtain ⟨g, rfl, hg⟩ := h
  obtain ⟨g', rfl, hg'⟩ := h'
  refine ⟨g' ∘ g, ?_, fun d hd => ?_⟩
  · simp only [List.map_map]
  · have hd' := hg' (g d) (List.mem_map_of_mem hd)
    exact ⟨(hg d hd).toQuiet.trans hd'.toQuiet, hd'.same.trans (hg d hd).same⟩

theorem quietly_update (hf : ∀ d ∈ s.subs, d.id = n → Quiet s.now d (f d)) :
    Quietly s (s.update n f) := by
  refine ⟨_, rfl, fun d hd => ?_⟩
  by_cases hn : d.id = n
  · rw [if_pos hn]
    exact hf d hd hn
  · rw [if_neg hn]
    exact .refl _ d

theorem touched_update (hf : ∀ d ∈ s.subs, d.id = n → Touch s.now d (f d)) :
    Touched s (s.update n f) := by
  refine ⟨_, rfl, fun d hd => ?_⟩
  by_cases hn : d.id = n
  · rw [if_pos hn]
    exact hf d hd hn
  · rw [if_neg hn]
    exact ⟨.refl _ d, rfl⟩

/-- The timer is set, to no more than a holder's wait where it is one's. -/
theorem touched_setTimer {after : Nat}
    (h : ∀ d ∈ s.subs, d.id = n → d.isJustHolder = true → after ≤ d.wait) :
    Touched s (s.setTimer n after) := by
  refine touched_update fun d hd hn => ⟨⟨⟨rfl, rfl, rfl, rfl, rfl, rfl, id⟩, .refl _, ?_⟩, rfl⟩
  intro hh
  have hle := h d hd hn hh
  show s.now + after ≤ _
  omega

theorem quietly_unlink (i : RequestId) : Quietly s (s.unlink i) := by
  refine ⟨_, rfl, fun d hd => ?_⟩
  exact ⟨⟨rfl, rfl, rfl, rfl, rfl, rfl, id⟩, List.filter_sublist, fun _ => Nat.le_max_left _ _⟩

/-- The one that has waited longest leaves. -/
theorem quietly_pop {i : RequestId} {rest : List RequestId} (hw : s.Wf) (hd : d ∈ s.subs)
    (hwait : d.holderWaitHead = i :: rest) :
    Quietly s (s.update d.id fun e => { e with holderWaitHead := rest }) := by
  refine quietly_update fun b hb hbd => ⟨⟨rfl, rfl, rfl, rfl, rfl, rfl, id⟩, ?_,
    fun _ => Nat.le_max_left _ _⟩
  rw [hw.eq_of_id hb hd hbd, hwait]
  exact List.sublist_cons_self i rest

theorem needGetConf_touched {filter : Bool} : Touched s (phlDynamicNeedGetConf d filter s).2 := by
  unfold phlDynamicNeedGetConf
  dsimp only
  split
  next => exact .refl s
  next =>
    split
    next => exact .refl s
    next =>
      split
      next => exact .refl s
      next =>
        refine touched_update fun b hb _ => ⟨⟨⟨rfl, rfl, rfl, rfl, rfl, rfl, id⟩, .refl _, ?_⟩, rfl⟩
        exact fun _ => Nat.le_max_left _ _

/-- The request waits for the holder. -/
def Dynamics.Waits (s : Dynamics) (i : RequestId) (n : Nat) : Prop :=
  ∃ d ∈ s.subs, d.id = n ∧ i ∈ d.holderWaitHead

theorem Quietly.waits {i : RequestId} (h : Quietly s s') (hw : s'.Waits i n) : s.Waits i n := by
  obtain ⟨g, rfl, hg⟩ := h
  obtain ⟨d', hd', hid, hi⟩ := hw
  obtain ⟨d, hd, rfl⟩ := List.mem_map.mp hd'
  exact ⟨d, hd, (hg d hd).id.symm.trans hid, (hg d hd).waits.subset hi⟩

theorem Touched.waits {i : RequestId} (h : Touched s s') (hw : s.Waits i n) : s'.Waits i n := by
  obtain ⟨g, rfl, hg⟩ := h
  obtain ⟨d, hd, hid, hi⟩ := hw
  refine ⟨g d, List.mem_map_of_mem hd, (hg d hd).id.trans hid, ?_⟩
  rw [(hg d hd).same]
  exact hi

end Quiet

section Base

variable {env : DynamicEnv} {s s' : Dynamics} {fs fs' : List Deletion} {d d' e : SubDyn} {n : Nat}

/-- The subs lie in containers, and a holder is in deletion exactly where `phl_dynamic_delete` is
at it. -/
structure Dynamics.Base (env : DynamicEnv) (s : Dynamics) (fs : List Deletion) : Prop where
  wf : s.Wf
  conf : ∀ d ∈ s.subs, d.isJustHolder = false → d.conf = env.conf (.sub d.id)
  nested : ∀ e ∈ s.subs, ∀ m, e.father.owner = some m →
    m < s.nextId ∧ ∀ d ∈ s.subs, d.id = m → d.isJustHolder = false
  failing : ∀ d ∈ s.subs, d.deleting = true → d.errorRet ≠ 0
  framed : ∀ d ∈ s.subs, d.deleting = true → d.id ∈ fs.map (·.sub)
  frames : ∀ m ∈ fs.map (·.sub), ∃ d ∈ s.subs, d.id = m ∧ d.deleting = true
  nodup : (fs.map (·.sub)).Nodup

/-- What a deletion of a holder begins with. -/
def begins (e : SubDyn) : SubDyn :=
  { e with errorRet := if e.errorRet = 0 then 500 else e.errorRet, deleting := true }

theorem begins_errorRet (e : SubDyn) : (begins e).errorRet ≠ 0 := by
  unfold begins
  dsimp only
  split
  next => decide
  next h => exact h

namespace Dynamics.Base

theorem congr (h : s.Base env fs) (hfs : fs'.map (·.sub) = fs.map (·.sub)) : s.Base env fs' :=
  ⟨h.wf, h.conf, h.nested, h.failing, hfs ▸ h.framed, hfs ▸ h.frames, hfs ▸ h.nodup⟩

theorem returned (h : s.Base env fs) : s.Base env (returned fs) := by
  refine h.congr ?_
  cases fs with
  | nil => rfl
  | cons f rest => rfl

theorem tick (h : s.Base env fs) (ms : Nat) : Dynamics.Base env { s with now := s.now + ms } fs :=
  ⟨tick_wf h.wf, h.conf, h.nested, h.failing, h.framed, h.frames, h.nodup⟩

theorem map (h : s.Base env fs) {g : SubDyn → SubDyn} (hg : ∀ d ∈ s.subs, Same d (g d)) :
    Dynamics.Base env { s with subs := s.subs.map g } fs := by
  have hids : (s.subs.map g).map (·.id) = s.subs.map (·.id) := by
    rw [List.map_map]
    exact List.map_congr_left fun d hd => (hg d hd).id
  refine ⟨⟨?_, ?_, ?_, ?_⟩, ?_, ?_, ?_, ?_, ?_, h.nodup⟩
  · intro d' hd'
    obtain ⟨d, hd, rfl⟩ := List.mem_map.mp hd'
    rw [(hg d hd).id]
    exact h.wf.fresh d hd
  · show ((s.subs.map g).map (·.id)).Nodup
    rw [hids]
    exact h.wf.unique
  · intro d' hd' hh
    obtain ⟨d, hd, rfl⟩ := List.mem_map.mp hd'
    rw [(hg d hd).conf]
    exact h.wf.idle d hd ((hg d hd).holder.symm.trans hh)
  · intro d' hd' hdel
    obtain ⟨d, hd, rfl⟩ := List.mem_map.mp hd'
    rw [(hg d hd).holder]
    exact h.wf.deleting d hd ((hg d hd).deleting.symm.trans hdel)
  · intro d' hd' hh
    obtain ⟨d, hd, rfl⟩ := List.mem_map.mp hd'
    rw [(hg d hd).conf, (hg d hd).id]
    exact h.conf d hd ((hg d hd).holder.symm.trans hh)
  · intro e' he' m hm
    obtain ⟨e, he, rfl⟩ := List.mem_map.mp he'
    rw [(hg e he).father] at hm
    refine ⟨(h.nested e he m hm).1, fun d' hd' hid => ?_⟩
    obtain ⟨d, hd, rfl⟩ := List.mem_map.mp hd'
    rw [(hg d hd).holder]
    exact (h.nested e he m hm).2 d hd ((hg d hd).id.symm.trans hid)
  · intro d' hd' hdel
    obtain ⟨d, hd, rfl⟩ := List.mem_map.mp hd'
    exact (hg d hd).errorRet (h.failing d hd ((hg d hd).deleting.symm.trans hdel))
  · intro d' hd' hdel
    obtain ⟨d, hd, rfl⟩ := List.mem_map.mp hd'
    rw [(hg d hd).id]
    exact h.framed d hd ((hg d hd).deleting.symm.trans hdel)
  · intro m hm
    obtain ⟨d, hd, hid, hdel⟩ := h.frames m hm
    exact ⟨g d, List.mem_map_of_mem hd, (hg d hd).id.trans hid, (hg d hd).deleting.trans hdel⟩

theorem quietly (h : s.Base env fs) (hq : Quietly s s') : s'.Base env fs := by
  obtain ⟨g, rfl, hg⟩ := hq
  exact h.map fun d hd => (hg d hd).toSame

theorem park (h : s.Base env fs) (n : Nat) (i : RequestId) :
    (s.update n fun e => { e with
      holderWaitHead := e.holderWaitHead ++ [i] }).Base env fs := by
  refine h.map fun d _ => ?_
  split
  next => exact ⟨rfl, rfl, rfl, rfl, rfl, rfl, id⟩
  next => exact ⟨rfl, rfl, rfl, rfl, rfl, rfl, id⟩

theorem insert (h : s.Base env fs) (hid : d.id = s.nextId) (hdel : d.deleting = false)
    (hconf : d.isJustHolder = false → d.conf = env.conf (.sub d.id))
    (hnested : ∀ m, d.father.owner = some m →
      m < s.nextId ∧ ∀ e ∈ s.subs, e.id = m → e.isJustHolder = false) :
    Dynamics.Base env { s with subs := d :: s.subs, nextId := s.nextId + 1 } fs := by
  have hidle : d.isJustHolder = false → 0 < d.conf.idleTimeout := by
    intro hh
    rw [hconf hh]
    exact env.idleTimeout_pos _
  refine ⟨insert_wf h.wf hid hdel hidle, ?_, ?_, ?_, ?_, ?_, h.nodup⟩
  · intro e he hh
    rcases List.mem_cons.mp he with rfl | he
    · exact hconf hh
    · exact h.conf e he hh
  · have hall : ∀ e ∈ d :: s.subs, ∀ m, e.father.owner = some m →
        m < s.nextId ∧ ∀ b ∈ s.subs, b.id = m → b.isJustHolder = false := by
      intro e he m hm
      rcases List.mem_cons.mp he with rfl | he
      · exact hnested m hm
      · exact h.nested e he m hm
    intro e he m hm
    obtain ⟨hlt, hholder⟩ := hall e he m hm
    refine ⟨Nat.lt_succ_of_lt hlt, fun b hb hbm => ?_⟩
    rcases List.mem_cons.mp hb with rfl | hb
    · omega
    · exact hholder b hb hbm
  · intro e he hdel'
    rcases List.mem_cons.mp he with rfl | he
    · rw [hdel] at hdel'
      cases hdel'
    · exact h.failing e he hdel'
  · intro e he hdel'
    rcases List.mem_cons.mp he with rfl | he
    · rw [hdel] at hdel'
      cases hdel'
    · exact h.framed e he hdel'
  · intro m hm
    obtain ⟨e, he, hem⟩ := h.frames m hm
    exact ⟨e, List.mem_cons_of_mem d he, hem⟩

/-- An entry goes away, and with it the deletion that was at it. -/
theorem remove (h : s.Base env fs) (hfs : ∀ m, m ∈ fs'.map (·.sub) ↔ m ∈ fs.map (·.sub) ∧ m ≠ n)
    (hnodup : (fs'.map (·.sub)).Nodup) :
    Dynamics.Base env { s with subs := s.subs.filter fun e => e.id != n } fs' := by
  have hmem : ∀ e, e ∈ s.subs.filter (fun e => e.id != n) ↔ e ∈ s.subs ∧ e.id ≠ n := by
    intro e
    rw [List.mem_filter, bne_iff_ne]
  refine ⟨⟨?_, h.wf.unique.sublist (List.filter_sublist.map _), ?_, ?_⟩, ?_, ?_, ?_, ?_, ?_, hnodup⟩
  · exact fun e he => h.wf.fresh e ((hmem e).mp he).1
  · exact fun e he => h.wf.idle e ((hmem e).mp he).1
  · exact fun e he => h.wf.deleting e ((hmem e).mp he).1
  · exact fun e he => h.conf e ((hmem e).mp he).1
  · intro e he m hm
    obtain ⟨hlt, hholder⟩ := h.nested e ((hmem e).mp he).1 m hm
    exact ⟨hlt, fun b hb => hholder b ((hmem b).mp hb).1⟩
  · exact fun e he => h.failing e ((hmem e).mp he).1
  · intro e he hdel
    obtain ⟨he, hne⟩ := (hmem e).mp he
    exact (hfs e.id).mpr ⟨h.framed e he hdel, hne⟩
  · intro m hm
    obtain ⟨hm, hne⟩ := (hfs m).mp hm
    obtain ⟨e, he, rfl, hdel⟩ := h.frames m hm
    exact ⟨e, (hmem e).mpr ⟨he, hne⟩, rfl, hdel⟩

theorem begin (h : s.Base env fs) (he : e ∈ s.subs) (hid : e.id = n)
    (hholder : e.isJustHolder = true) (hdel : e.deleting = false) :
    (s.update n begins).Base env (⟨n, none⟩ :: fs) := by
  have hmem : ∀ b', b' ∈ (s.update n begins).subs →
      ∃ b ∈ s.subs, b' = if b.id = n then begins b else b := by
    intro b' hb'
    obtain ⟨b, hb, rfl⟩ := List.mem_map.mp hb'
    exact ⟨b, hb, rfl⟩
  have hids : ∀ b : SubDyn, (if b.id = n then begins b else b).id = b.id := by
    intro b
    split <;> rfl
  have hfathers : ∀ b : SubDyn, (if b.id = n then begins b else b).father = b.father := by
    intro b
    split <;> rfl
  have hholders : ∀ b : SubDyn,
      (if b.id = n then begins b else b).isJustHolder = b.isJustHolder := by
    intro b
    split <;> rfl
  have hwf : (s.update n begins).Wf := by
    refine update_wf h.wf fun b hb hbn => ⟨rfl, rfl, rfl, fun _ => .inr ?_⟩
    rw [h.wf.eq_of_id hb he (hbn.trans hid.symm)]
    exact hholder
  refine ⟨hwf, ?_, ?_, ?_, ?_, ?_, ?_⟩
  · intro b' hb' hh
    obtain ⟨b, hb, rfl⟩ := hmem b' hb'
    rw [hholders] at hh
    rw [hids, ← h.conf b hb hh]
    split <;> rfl
  · intro b' hb' m hm
    obtain ⟨b, hb, rfl⟩ := hmem b' hb'
    rw [hfathers] at hm
    refine ⟨(h.nested b hb m hm).1, fun c' hc' hcm => ?_⟩
    obtain ⟨c, hc, rfl⟩ := hmem c' hc'
    rw [hids] at hcm
    rw [hholders]
    exact (h.nested b hb m hm).2 c hc hcm
  · intro b' hb' hdel'
    obtain ⟨b, hb, rfl⟩ := hmem b' hb'
    by_cases hbn : b.id = n
    · rw [if_pos hbn]
      exact begins_errorRet b
    · rw [if_neg hbn] at hdel' ⊢
      exact h.failing b hb hdel'
  · intro b' hb' hdel'
    obtain ⟨b, hb, rfl⟩ := hmem b' hb'
    rw [hids, List.map_cons]
    by_cases hbn : b.id = n
    · rw [hbn]
      exact List.mem_cons_self
    · rw [if_neg hbn] at hdel'
      exact List.mem_cons_of_mem _ (h.framed b hb hdel')
  · intro m hm
    rcases List.mem_cons.mp hm with rfl | hm
    · refine ⟨begins e, List.mem_map.mpr ⟨e, he, if_pos hid⟩, hid, rfl⟩
    · obtain ⟨b, hb, hbm, hbdel⟩ := h.frames m hm
      refine ⟨_, List.mem_map_of_mem hb, (hids b).trans hbm, ?_⟩
      by_cases hbn : b.id = n
      · rw [if_pos hbn]
        rfl
      · rw [if_neg hbn]
        exact hbdel
  · refine List.nodup_cons.mpr ⟨fun hmem => ?_, h.nodup⟩
    obtain ⟨b, hb, hbn, hbdel⟩ := h.frames n hmem
    rw [h.wf.eq_of_id hb he (hbn.trans hid.symm), hdel] at hbdel
    cases hbdel

/-- Nothing has begun. -/
theorem begun_eq (h : s.Base env fs) : begun s fs = fs := by
  have hnone : (s.subs.find? fun d => d.deleting && fs.all fun f => f.sub != d.id) = none := by
    refine List.find?_eq_none.mpr fun d hd hfound => ?_
    rw [Bool.and_eq_true, List.all_eq_true] at hfound
    obtain ⟨f, hf, hfd⟩ := List.mem_map.mp (h.framed d hd hfound.1)
    have hne := hfound.2 f hf
    rw [hfd, bne_self_eq_false] at hne
    cases hne
  rw [begun, hnone]

/-- One deletion has begun. -/
theorem begun_cons (h : s.Base env (⟨n, none⟩ :: fs)) : begun s fs = ⟨n, none⟩ :: fs := by
  obtain ⟨d, hd, hid, hdel⟩ := h.frames n List.mem_cons_self
  have hnotin : n ∉ fs.map (·.sub) := (List.nodup_cons.mp h.nodup).1
  cases hfind : s.subs.find? fun d => d.deleting && fs.all fun f => f.sub != d.id with
  | none =>
    have hnot := List.find?_eq_none.mp hfind d hd
    have hall : (fs.all fun f => f.sub != d.id) = true := by
      refine List.all_eq_true.mpr fun f hf => ?_
      rw [bne_iff_ne, hid]
      intro hfn
      exact hnotin (hfn ▸ List.mem_map_of_mem hf)
    rw [hdel, hall] at hnot
    exact absurd rfl hnot
  | some b =>
    have hb := List.mem_of_find?_eq_some hfind
    have hfound := List.find?_some hfind
    rw [Bool.and_eq_true, List.all_eq_true] at hfound
    rcases List.mem_cons.mp (h.framed b hb hfound.1) with hbn | hmem
    · rw [begun, hfind]
      show ⟨b.id, none⟩ :: fs = _
      rw [hbn]
    · obtain ⟨f, hf, hfb⟩ := List.mem_map.mp hmem
      have hne := hfound.2 f hf
      rw [hfb, bne_self_eq_false] at hne
      cases hne

/-- No sub lies in a holder. -/
theorem dict_holder (h : s.Base env fs) (hd : d ∈ s.subs) (hholder : d.isJustHolder = true)
    {c : ConfId} (hc : c.owner = some d.id) : s.dict c = [] := by
  refine List.filter_eq_nil_iff.mpr fun e he hec => ?_
  rw [beq_iff_eq] at hec
  have hnot := (h.nested e he d.id (by rw [hec]; exact hc)).2 d hd rfl
  rw [hholder] at hnot
  cases hnot

end Dynamics.Base

theorem phlDynamicDestroy_cases (h : phlDynamicDestroy d s = some s') :
    s.dict (.sub d.id) ≠ [] ∧ s' = s.setTimer d.id (60 * 1000) ∨
      s.dict (.sub d.id) = [] ∧ s' = { s with subs := s.subs.filter fun e => e.id != d.id } := by
  unfold phlDynamicDestroy at h
  split at h
  next hsubs =>
    cases h
    exact .inl ⟨hsubs, rfl⟩
  next hsubs =>
    rw [Decidable.not_not] at hsubs
    split at h
    next => cases h
    next =>
      cases h
      exact .inr ⟨hsubs, rfl⟩

theorem phlDynamicDelete_cases (h : phlDynamicDelete d s = some s') :
    d.isJustHolder = true ∧ s' = s.update d.id begins ∨
      d.isJustHolder = false ∧ phlDynamicDestroy d s = some s' := by
  unfold phlDynamicDelete at h
  split at h
  next hholder =>
    cases h
    exact .inl ⟨hholder, rfl⟩
  next hholder => exact .inr ⟨Bool.eq_false_iff.mpr hholder, h⟩

/-- The entry `e` is what `d` was a moment ago, but for its times and its error. -/
structure Current (s : Dynamics) (d e : SubDyn) : Prop where
  mem : e ∈ s.subs
  id : e.id = d.id
  father : e.father = d.father
  name : e.name = d.name
  conf : e.conf = d.conf
  holder : e.isJustHolder = d.isJustHolder
  deleting : e.deleting = d.deleting
  waits : e.holderWaitHead = d.holderWaitHead

theorem Current.of_mem (hd : d ∈ s.subs) : Current s d d :=
  ⟨hd, rfl, rfl, rfl, rfl, rfl, rfl, rfl⟩

theorem Current.touched (hd : d ∈ s.subs) (h : Touched s s') : ∃ e, Current s' d e := by
  obtain ⟨g, rfl, hg⟩ := h
  have hgd := hg d hd
  exact ⟨g d, List.mem_map_of_mem hd, hgd.id, hgd.father, hgd.name, hgd.conf, hgd.holder,
    hgd.deleting, hgd.same⟩

/-- The configuration is not in a holder. -/
def Dynamics.Lies (s : Dynamics) (father : ConfId) : Prop :=
  ∀ m, father.owner = some m → m < s.nextId ∧ ∀ e ∈ s.subs, e.id = m → e.isJustHolder = false

theorem Dynamics.Lies.touched {father : ConfId} (h : s.Lies father) (ht : Touched s s') :
    s'.Lies father := by
  obtain ⟨g, rfl, hg⟩ := ht
  refine fun m hm => ⟨(h m hm).1, fun e' he' hid => ?_⟩
  obtain ⟨e, he, rfl⟩ := List.mem_map.mp he'
  rw [(hg e he).holder]
  exact (h m hm).2 e he ((hg e he).id.symm.trans hid)

theorem Dynamics.Lies.insert {father : ConfId} (h : s.Lies father) (hid : d.id = s.nextId) :
    Dynamics.Lies { s with subs := d :: s.subs, nextId := s.nextId + 1 } father := by
  refine fun m hm => ⟨Nat.lt_succ_of_lt (h m hm).1, fun e he hem => ?_⟩
  rcases List.mem_cons.mp he with rfl | he
  · have hlt := (h m hm).1
    omega
  · exact (h m hm).2 e he hem

namespace Dynamics.Base

variable {father : ConfId} {dynamic : DynamicConf} {answers : LuaAnswers} {name : Bytes}
  {r r' : Client} {s0 : Dynamics} {ptr : DynamicPtr} {run : LuaRun}

theorem lies (h : s.Base env fs) (hasks : s.asks env father = true) : s.Lies father := by
  intro m hm
  unfold Dynamics.asks at hasks
  rw [Bool.and_eq_true, hm] at hasks
  obtain ⟨d, hfind, hholder⟩ := (Option.any_eq_true _ _).mp hasks.2
  obtain ⟨hd, hid⟩ := find_mem hfind
  refine ⟨hid ▸ h.wf.fresh d hd, fun e he hem => ?_⟩
  rw [h.wf.eq_of_id he hd (hem.trans hid.symm)]
  simpa using hholder

/-- The settings do not change. -/
theorem confOf_eq (h : s.Base env fs) (hasks : s.asks env father = true)
    (hconf : s.confOf env father = some dynamic) : dynamic = env.conf father := by
  cases father with
  | root n =>
    cases hconf
    rfl
  | sub n =>
    obtain ⟨d, hfind, rfl⟩ := Option.map_eq_some_iff.mp hconf
    obtain ⟨hd, hid⟩ := find_mem hfind
    have hholder := (h.lies hasks n rfl).2 d hd hid
    rw [h.conf d hd hholder, hid]
  | inner c =>
    obtain ⟨_, ⟨⟩⟩ := Option.ite_none_right_eq_some.mp hconf
    rfl

theorem dictGet_mem
    (hget : env.dictGet ((s.dict father).filter fun d => d.name == name) = some d) :
    d ∈ s.subs ∧ d.father = father ∧ d.name = name := by
  obtain ⟨hdict, hname⟩ := List.mem_filter.mp (env.dictGet_mem hget)
  obtain ⟨hd, hfather⟩ := List.mem_filter.mp hdict
  exact ⟨hd, beq_iff_eq.mp hfather, beq_iff_eq.mp hname⟩

/-- A hit on a sub that is no holder. -/
theorem hit_touched (h : s.Base env fs) (hd : d ∈ s.subs) (hholder : d.isJustHolder = false)
    (after : Nat) (filter : Bool) :
    Touched s (phlDynamicNeedGetConf d filter (s.setTimer d.id after)).2 := by
  refine (touched_setTimer fun b hb hbd hbh => ?_).trans needGetConf_touched
  rw [h.wf.eq_of_id hb hd hbd, hholder] at hbh
  cases hbh

/-- A holder is made, or the entry is there and is at most touched. -/
theorem asked_cases (h : s.Base env fs)
    (hasked : Asked env father dynamic answers name r s d s0) :
    env.dictGet ((s.dict father).filter fun d => d.name == name) = none ∧
        d = (phlDynamicNewHolder father dynamic name s).1 ∧
        s0 = (phlDynamicNewHolder father dynamic name s).2 ∨
      env.dictGet ((s.dict father).filter fun d => d.name == name) = some d ∧ Touched s s0 := by
  cases hasked with
  | created hget hmax => exact .inl ⟨hget, rfl, rfl⟩
  | running hget => exact .inr ⟨hget, .refl s⟩
  | expired hget hentry herror hholder hneed =>
    exact .inr ⟨hget, h.hit_touched (dictGet_mem hget).1 hholder _ _⟩

/-- What `get_conf` is asked for is an entry of the father's. -/
theorem asked (h : s.Base env fs) (hlies : s.Lies father)
    (hasked : Asked env father dynamic answers name r s d s0) :
    s0.Base env fs ∧ s0.Lies father ∧ d.father = father ∧ d.name = name ∧ ∃ e, Current s0 d e := by
  rcases h.asked_cases hasked with ⟨-, rfl, rfl⟩ | ⟨hget, htouched⟩
  · refine ⟨h.insert rfl rfl (fun hh => ?_) hlies, hlies.insert rfl, rfl, rfl, _,
      .of_mem List.mem_cons_self⟩
    cases hh
  · obtain ⟨hd, hfather, hname⟩ := dictGet_mem hget
    exact ⟨h.quietly htouched.quietly, hlies.touched htouched, hfather, hname,
      Current.touched hd htouched⟩

theorem parsed (h : s.Base env fs) (hlies : s.Lies father) {tag n : Nat} {answer : ConfAnswer}
    (hparse : phlDynamicParseSubDyn env father name tag answer s = some (n, s')) :
    n = s.nextId ∧ s'.Base env fs ∧ ∃ b : SubDyn, b.id = n ∧ b.father = father ∧ b.name = name ∧
      b.isJustHolder = false ∧ b.deleting = false ∧ b.holderWaitHead = [] ∧
      s' = { s with subs := b :: s.subs, nextId := s.nextId + 1 } := by
  unfold phlDynamicParseSubDyn at hparse
  split at hparse
  next => cases hparse
  next =>
    cases hparse
    exact ⟨rfl, h.insert rfl rfl (fun _ => rfl) hlies, _, rfl, rfl, rfl, rfl, rfl, rfl, rfl⟩

/-- `get_conf` leaves the entries, or puts a new one in the place of this one. -/
theorem conf_cases (h : s.Base env fs) (hcur : Current s d e)
    (hconf : ConfOutcome env father dynamic name d run r s ptr r' s') :
    Touched s s' ∧ (ptr = .container d.id → d.isJustHolder = true → run.zero env dynamic d = true) ∧
        (∀ n, ptr = .container n → n = d.id) ∨
      ∃ answer tag n s1, run = .done answer ∧ answer.changes env dynamic d = true ∧
        phlDynamicParseSubDyn env father name tag answer s = some (n, s1) ∧
        phlDynamicDelete d s1 = some s' ∧ ptr = .container n := by
  cases hconf with
  | suspended => exact .inl ⟨.refl s, nofun, nofun⟩
  | failed => exact .inl ⟨.refl s, nofun, nofun⟩
  | kept hzero =>
    refine .inl ⟨.refl s, fun _ => hzero, fun n hn => ?_⟩
    cases hn
    rfl
  | missing =>
    refine .inl ⟨?_, nofun, nofun⟩
    have herror : Touched s (s.update d.id fun e => { e with errorRet := 404 }) :=
      touched_update fun b _ _ =>
        ⟨⟨⟨rfl, rfl, rfl, rfl, rfl, rfl, fun _ => (by decide : (404 : Int) ≠ 0)⟩, .refl _,
          fun _ => Nat.le_max_left _ _⟩, rfl⟩
    refine herror.trans (touched_setTimer fun b hb hbd _ => ?_)
    have hb' := h.quietly herror.quietly
    obtain ⟨e', hcur'⟩ := Current.touched hcur.mem herror
    have hbe : b = e' := hb'.wf.eq_of_id hb hcur'.mem (hbd.trans (hcur'.id.trans hcur.id).symm)
    unfold SubDyn.wait
    rw [hbe, hcur'.conf, hcur.conf]
    exact Nat.le_max_right _ _
  | replaced hrun hchanges hparse hdelete =>
    exact .inr ⟨_, _, _, _, hrun, hchanges, hparse, hdelete, rfl⟩

theorem delete (h : s.Base env fs) (hcur : Current s d e) (hdel : d.deleting = false)
    (hdelete : phlDynamicDelete d s = some s') :
    d.isJustHolder = true ∧ s' = s.update d.id begins ∧ s'.Base env (⟨d.id, none⟩ :: fs) ∨
      d.isJustHolder = false ∧ s'.Base env fs ∧
        (s.dict (.sub d.id) ≠ [] ∧ Touched s s' ∨ s.dict (.sub d.id) = [] ∧
          s' = { s with subs := s.subs.filter fun b => b.id != d.id }) := by
  rcases phlDynamicDelete_cases hdelete with ⟨hholder, rfl⟩ | ⟨hholder, hdestroy⟩
  · exact .inl ⟨hholder, rfl, h.begin hcur.mem hcur.id (hcur.holder.trans hholder)
      (hcur.deleting.trans hdel)⟩
  · refine .inr ⟨hholder, ?_⟩
    rcases phlDynamicDestroy_cases hdestroy with ⟨hsubs, rfl⟩ | ⟨hsubs, rfl⟩
    · have htouched : Touched s (s.setTimer d.id (60 * 1000)) := by
        refine touched_setTimer fun b hb hbd hbh => ?_
        rw [h.wf.eq_of_id hb hcur.mem (hbd.trans hcur.id.symm), hcur.holder, hholder] at hbh
        cases hbh
      exact ⟨h.quietly htouched.quietly, .inl ⟨hsubs, htouched⟩⟩
    · have hnot : d.id ∉ fs.map (·.sub) := by
        intro hmem
        obtain ⟨b, hb, hbd, hbdel⟩ := h.frames d.id hmem
        rw [h.wf.eq_of_id hb hcur.mem (hbd.trans hcur.id.symm), hcur.deleting, hdel] at hbdel
        cases hbdel
      refine ⟨h.remove (fun m => ⟨fun hm => ⟨hm, ?_⟩, And.left⟩) h.nodup, .inr ⟨hsubs, rfl⟩⟩
      rintro rfl
      exact hnot hm

theorem deleting_of_frame {f : Deletion} {rest : List Deletion} (h : s.Base env fs)
    (hfs : fs = f :: rest) (hd : d ∈ s.subs) (hid : f.sub = d.id) : d.deleting = true := by
  have hmem : d.id ∈ fs.map (·.sub) := by
    rw [hfs, ← hid]
    exact List.mem_cons_self
  obtain ⟨b, hb, hbd, hbdel⟩ := h.frames d.id hmem
  rw [← h.wf.eq_of_id hb hd hbd]
  exact hbdel

/-- A holder in deletion goes away once it has no more requests to run. -/
theorem destroys (h : s.Base env fs) (hd : d ∈ s.subs) (hdel : d.deleting = true) :
    phlDynamicDestroy d s = some { s with subs := s.subs.filter fun b => b.id != d.id } := by
  have hholder := h.wf.deleting d hd hdel
  have hsub : s.dict (.sub d.id) = [] := h.dict_holder hd hholder rfl
  have hinner : s.dict (.inner (.sub d.id)) = [] := h.dict_holder hd hholder rfl
  unfold phlDynamicDestroy
  rw [if_neg (not_not_intro hsub), if_neg (not_not_intro hinner)]

/-- The innermost deletion is over. -/
theorem pop {f : Deletion} (h : s.Base env (f :: fs)) :
    Dynamics.Base env { s with subs := s.subs.filter fun b => b.id != f.sub } fs := by
  obtain ⟨hnot, hnodup⟩ := List.nodup_cons.mp h.nodup
  refine h.remove (fun m => ⟨fun hm => ⟨List.mem_cons_of_mem _ hm, ?_⟩, ?_⟩) hnodup
  · rintro rfl
    exact hnot hm
  · rintro ⟨hm, hne⟩
    exact (List.mem_cons.mp hm).resolve_left hne

end Dynamics.Base

/-- Whether a `get_conf` is left running. -/
theorem ConfOutcome.entry {father : ConfId} {dynamic : DynamicConf} {name : Bytes} {run : LuaRun}
    {r r' : Client} {ptr : DynamicPtr}
    (h : ConfOutcome env father dynamic name d run r s ptr r' s') :
    ptr = .again ∧ r'.entry = some dynamic.getConf ∨ ptr ≠ .again ∧ r'.entry = none := by
  cases h with
  | suspended => exact .inl ⟨rfl, rfl⟩
  | failed => exact .inr ⟨nofun, rfl⟩
  | kept => exact .inr ⟨nofun, rfl⟩
  | missing => exact .inr ⟨nofun, rfl⟩
  | replaced => exact .inr ⟨nofun, rfl⟩

end Base

def noWaiting : WakeWorld := ⟨⟨0, [], 0⟩, [], [], []⟩

/-- `get_conf` waits for something. -/
def awaitConf : LuaAnswers := ⟨some (bytes "a"), true, .again⟩

end Phorklift
