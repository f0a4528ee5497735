import Phorklift.DynamicWake

/-! The entries that a lookup of a name finds. -/

namespace Phorklift

open Transition

/-- Of each father's entries, but for the sub `n`, no two have one name. -/
def Dynamics.UniqueBut (s : Dynamics) (n : Option Nat) : Prop :=
  ∀ d ∈ s.subs, ∀ e ∈ s.subs, some d.id ≠ n → some e.id ≠ n → d.father = e.father →
    d.name = e.name → d.id = e.id

/-- Whether the entry is put to `get_conf`. -/
def SubDyn.put (dynamic : DynamicConf) (answers : LuaAnswers) (r : Client) (s : Dynamics)
    (d : SubDyn) : Bool :=
  r.entry == some dynamic.getConf ||
    d.errorRet == 0 && !d.isJustHolder && (phlDynamicNeedGetConf d answers.filter s).1

def LuaRun.changes (env : DynamicEnv) (dynamic : DynamicConf) (d : SubDyn) : LuaRun → Bool
  | .done answer => answer.changes env dynamic d
  | _ => false

/-- No one waits for the entry, no subs lie in it, and it is not in deletion. -/
def SubDyn.alone (s : Dynamics) (d : SubDyn) : Bool :=
  d.holderWaitHead.isEmpty && (s.dict (.sub d.id)).isEmpty && !d.deleting

/-- What one `phl_dynamic_get` replaces is alone, and the string that comes for a holder does not
have the hash 0. -/
def getAlone (env : DynamicEnv) (father : ConfId) (answers : LuaAnswers) (r : Client)
    (s : Dynamics) : Bool :=
  match s.confOf env father, answers.name with
  | some dynamic, some name =>
    decide (100 < name.length) ||
    match env.dictGet ((s.dict father).filter fun d => d.name == cstr name) with
    | none => decide (dynamic.subMax ≤ (s.dict father).length) ||
      !answers.run.zero env dynamic (phlDynamicNewHolder father dynamic (cstr name) s).1
    | some d => !d.put dynamic answers r s ||
      !answers.run.zero env dynamic d && (!answers.run.changes env dynamic d || d.alone s)
  | _, _ => true

def actAlone (env : DynamicEnv) (w : WakeWorld) : WakeAct → Bool
  | .get i father answers =>
    match w.clients[i]? with
    | some r => getAlone env father answers r w.dynamics
    | none => true
  | _ => true

/-- Nothing has been looked up yet. -/
structure LookupStart (w : WakeWorld) : Prop where
  subs : w.dynamics.subs = []
  deletions : w.deletions = []

section Unique

variable {s s' : Dynamics} {d : SubDyn} {n : Option Nat} {m : Nat}

namespace Dynamics.UniqueBut

theorem mono (h : s.UniqueBut none) : s.UniqueBut n :=
  fun d hd e he _ _ => h d hd e he nofun nofun

theorem map {g : SubDyn → SubDyn} (h : s.UniqueBut n)
    (hg : ∀ d ∈ s.subs, (g d).id = d.id ∧ (g d).father = d.father ∧ (g d).name = d.name) :
    Dynamics.UniqueBut { s with subs := s.subs.map g } n := by
  intro d' hd' e' he' hdn hen hfather hname
  obtain ⟨d, hd, rfl⟩ := List.mem_map.mp hd'
  obtain ⟨e, he, rfl⟩ := List.mem_map.mp he'
  obtain ⟨hid, hf, hn⟩ := hg d hd
  obtain ⟨hid', hf', hn'⟩ := hg e he
  rw [hid] at hdn ⊢
  rw [hid'] at hen ⊢
  rw [hf, hf'] at hfather
  rw [hn, hn'] at hname
  exact h d hd e he hdn hen hfather hname

theorem quietly (h : s.UniqueBut n) (hq : Quietly s s') : s'.UniqueBut n := by
  obtain ⟨g, rfl, hg⟩ := hq
  exact h.map fun d hd => ⟨(hg d hd).id, (hg d hd).father, (hg d hd).name⟩

theorem update {f : SubDyn → SubDyn} (h : s.UniqueBut n)
    (hf : ∀ d, (f d).id = d.id ∧ (f d).father = d.father ∧ (f d).name = d.name) :
    (s.update m f).UniqueBut n := by
  refine h.map fun d _ => ?_
  split
  next => exact hf d
  next => exact ⟨rfl, rfl, rfl⟩

/-- A new entry may have the name of none but the exception. -/
theorem insert {k : Nat} (h : s.UniqueBut n)
    (hnew : ∀ e ∈ s.subs, some e.id ≠ n → e.father = d.father → e.name ≠ d.name) :
    Dynamics.UniqueBut { s with subs := d :: s.subs, nextId := k } n := by
  intro b hb e he hbn hen hfather hname
  rcases List.mem_cons.mp hb with rfl | hb'
  · rcases List.mem_cons.mp he with rfl | he'
    · rfl
    · exact absurd hname.symm (hnew e he' hen hfather.symm)
  · rcases List.mem_cons.mp he with rfl | he'
    · exact absurd hname (hnew b hb' hbn hfather)
    · exact h b hb' e he' hbn hen hfather hname

theorem filter (h : s.UniqueBut n) (p : SubDyn → Bool) :
    Dynamics.UniqueBut { s with subs := s.subs.filter p } n :=
  fun d hd e he => h d (List.mem_of_mem_filter hd) e (List.mem_of_mem_filter he)

theorem remove (h : s.UniqueBut (some m)) :
    Dynamics.UniqueBut { s with subs := s.subs.filter fun b => b.id != m } none := by
  intro d hd e he _ _ hfather hname
  obtain ⟨hd, hdm⟩ := List.mem_filter.mp hd
  obtain ⟨he, hem⟩ := List.mem_filter.mp he
  rw [bne_iff_ne] at hdm hem
  refine h d hd e he (fun hd' => hdm ?_) (fun he' => hem ?_) hfather hname
  · exact Option.some.inj hd'
  · exact Option.some.inj he'

end Dynamics.UniqueBut

end Unique

section Lookup

variable {env : DynamicEnv} {father : ConfId} {dynamic : DynamicConf} {answers : LuaAnswers}
  {name : Bytes} {s s' s0 : Dynamics} {fs : List Deletion} {d e : SubDyn} {i : RequestId}
  {r r' : Client} {ptr : DynamicPtr}

/-- The container that is given out is the only entry of its name, but for a holder that goes away
before anyone looks; and it is what has been parsed, if something has. -/
structure Served (father : ConfId) (answers : LuaAnswers) (ptr : DynamicPtr) (s s' : Dynamics) :
    Prop where
  parsed : ∀ b ∈ s'.subs, s.nextId ≤ b.id → b.isJustHolder = false → ptr = .container b.id
  only : ∀ n, ptr = .container n → ∃ d ∈ s'.subs, d.id = n ∧ d.isJustHolder = false ∧
    d.father = father ∧ answers.name.map cstr = some d.name ∧ ∀ e ∈ s'.subs, e.father = father →
      e.name = d.name → e.id ≠ n → e.deleting = true ∧ e.holderWaitHead = []

structure LookupKeeps (env : DynamicEnv) (father : ConfId) (answers : LuaAnswers)
    (fs : List Deletion) (ptr : DynamicPtr) (s s' : Dynamics) : Prop where
  base : s'.Base env (begun s' fs)
  unique : begun s' fs = fs ∧ s'.UniqueBut none ∨ ∃ n, begun s' fs = ⟨n, none⟩ :: fs ∧
    (∀ d ∈ s'.subs, d.id = n → d.holderWaitHead = []) ∧ s'.UniqueBut (some n)
  served : Served father answers ptr s s'

theorem mem_of_touched (h : Touched s s') (hd : d ∈ s'.subs) :
    ∃ b ∈ s.subs, d.id = b.id ∧ d.isJustHolder = b.isJustHolder ∧ d.father = b.father ∧
      d.name = b.name := by
  obtain ⟨g, rfl, hg⟩ := h
  obtain ⟨b, hb, rfl⟩ := List.mem_map.mp hd
  exact ⟨b, hb, (hg b hb).id, (hg b hb).holder, (hg b hb).father, (hg b hb).name⟩

/-- Nothing is replaced. -/
theorem lookup_touched (hb : s.Base env fs) (hu : s.UniqueBut none) (h : Touched s s')
    (hptr : ∀ n, ptr = .container n → ∃ d ∈ s.subs, d.id = n ∧ d.isJustHolder = false ∧
      d.father = father ∧ answers.name.map cstr = some d.name)
    (hnew : ∀ b ∈ s.subs, s0.nextId ≤ b.id → b.isJustHolder = true) :
    LookupKeeps env father answers fs ptr s0 s' := by
  have hb' := hb.quietly h.quietly
  have hu' := hu.quietly h.quietly
  refine ⟨hb'.begun_eq.symm ▸ hb', .inl ⟨hb'.begun_eq, hu'⟩, fun b hbmem hle hholder => ?_,
    fun n hn => ?_⟩
  · obtain ⟨b0, hb0, hid, hholder0, -⟩ := mem_of_touched h hbmem
    rw [hid] at hle
    rw [hholder0, hnew b0 hb0 hle] at hholder
    cases hholder
  · obtain ⟨d, hd, hid, hholder, hfather, hname⟩ := hptr n hn
    obtain ⟨e, he⟩ := Current.touched hd h
    refine ⟨e, he.mem, he.id.trans hid, he.holder.trans hholder, he.father.trans hfather,
      hname.trans (congrArg some he.name.symm), fun c hc hcf hcn hne => ?_⟩
    have hsame := hu' c hc e he.mem nofun nofun (hcf.trans (he.father.trans hfather).symm) hcn
    exact absurd (hsame.trans (he.id.trans hid)) hne

/-- A new sub takes the place of an entry that is alone. -/
theorem lookup_replaced {answer : ConfAnswer} {tag n : Nat} {s1 : Dynamics} (hb : s.Base env fs)
    (hu : s.UniqueBut none) (hlies : s.Lies father) (hcur : Current s d e)
    (hfather : d.father = father) (hname : answers.name.map cstr = some d.name)
    (hwaits : d.holderWaitHead = []) (hdel : d.deleting = false)
    (hdict : d.isJustHolder = false → s.dict (.sub d.id) = [])
    (hparse : phlDynamicParseSubDyn env father d.name tag answer s = some (n, s1))
    (hdelete : phlDynamicDelete d s1 = some s')
    (hnew : ∀ b ∈ s.subs, s0.nextId ≤ b.id → b.isJustHolder = true) :
    LookupKeeps env father answers fs (.container n) s0 s' := by
  obtain ⟨rfl, hb1, b, hbid, hbfather, hbname, hbholder, -, -, rfl⟩ := hb.parsed hlies hparse
  have hlt : d.id < s.nextId := hcur.id ▸ hb.wf.fresh e hcur.mem
  have hbd : b.id ≠ d.id := by omega
  -- the new entry has the name of the old one only
  have hu1 : Dynamics.UniqueBut { s with subs := b :: s.subs, nextId := s.nextId + 1 }
      (some d.id) := by
    refine hu.mono.insert fun c hc hcd hcf hcn => hcd (congrArg some ?_)
    refine (hu c hc e hcur.mem nofun nofun ?_ ?_).trans hcur.id
    · rw [hcf, hbfather, hcur.father, hfather]
    · rw [hcn, hbname, hcur.name]
  have hcur1 : Current { s with subs := b :: s.subs, nextId := s.nextId + 1 } d e :=
    { hcur with mem := List.mem_cons_of_mem b hcur.mem }
  have hold : ∀ c ∈ b :: s.subs, s0.nextId ≤ c.id → c.isJustHolder = false →
      (.container s.nextId : DynamicPtr) = .container c.id := by
    intro c hc hle hholder
    rcases List.mem_cons.mp hc with rfl | hc
    · rw [hbid]
    · rw [hnew c hc hle] at hholder
      cases hholder
  rcases hb1.delete hcur1 hdel hdelete with ⟨-, hs', hb2⟩ | ⟨hholder, hb2, hgone⟩
  · have hsame : ∀ c' ∈ s'.subs, ∃ c ∈ b :: s.subs, c'.id = c.id ∧ c'.isJustHolder = c.isJustHolder ∧
        c'.holderWaitHead = c.holderWaitHead ∧ (c.id = d.id → c'.deleting = true) := by
      intro c' hc'
      rw [hs'] at hc'
      obtain ⟨c, hc, rfl⟩ := List.mem_map.mp hc'
      refine ⟨c, hc, ?_⟩
      split
      next => exact ⟨rfl, rfl, rfl, fun _ => rfl⟩
      next hne => exact ⟨rfl, rfl, rfl, fun hcd => absurd hcd hne⟩
    have hu2 : s'.UniqueBut (some d.id) := hs' ▸ hu1.update fun _ => ⟨rfl, rfl, rfl⟩
    have hbmem : b ∈ s'.subs := by
      rw [hs']
      exact List.mem_map.mpr ⟨b, List.mem_cons_self, if_neg hbd⟩
    have hnil : ∀ c' ∈ s'.subs, c'.id = d.id → c'.holderWaitHead = [] := by
      intro c' hc' hid
      obtain ⟨c, hc, hcid, -, hcw, -⟩ := hsame c' hc'
      rw [hcw, hb1.wf.eq_of_id hc hcur1.mem (hcid.symm.trans (hid.trans hcur.id.symm)), hcur.waits,
        hwaits]
    refine ⟨hb2.begun_cons.symm ▸ hb2, .inr ⟨d.id, hb2.begun_cons, hnil, hu2⟩, ?_, ?_⟩
    · intro c' hc' hle hh
      obtain ⟨c, hc, hcid, hch, -⟩ := hsame c' hc'
      rw [hcid] at hle ⊢
      exact hold c hc hle (hch.symm.trans hh)
    · rintro m ⟨⟩
      refine ⟨b, hbmem, hbid, hbholder, hbfather, hname.trans (congrArg some hbname.symm), ?_⟩
      intro c' hc' hcf hcn hne
      have hid : c'.id = d.id := by
        by_contra hcd
        have hcb := hu2 c' hc' b hbmem (fun h => hcd (Option.some.inj h))
          (fun h => hbd (Option.some.inj h)) (hcf.trans hbfather.symm) hcn
        exact hne (hcb.trans hbid)
      obtain ⟨c, hc, hcid, -, -, hdeleting⟩ := hsame c' hc'
      exact ⟨hdeleting (hcid.symm.trans hid), hnil c' hc' hid⟩
  · have hnosubs : Dynamics.dict { s with subs := b :: s.subs, nextId := s.nextId + 1 }
        (.sub d.id) = [] := by
      refine List.filter_eq_nil_iff.mpr fun c hc hcd => ?_
      rw [beq_iff_eq] at hcd
      have hnone : ∀ c ∈ s.subs, c.father ≠ .sub d.id := by
        intro c hc hcd
        have hmem : c ∈ s.dict (.sub d.id) := List.mem_filter.mpr ⟨hc, beq_iff_eq.mpr hcd⟩
        rw [hdict hholder] at hmem
        cases hmem
      rcases List.mem_cons.mp hc with rfl | hc
      · refine hnone e hcur.mem ?_
        rw [hcur.father, hfather, ← hbfather, hcd]
      · exact hnone c hc hcd
    rcases hgone with ⟨hsubs, -⟩ | ⟨-, rfl⟩
    · exact absurd hnosubs hsubs
    · have hu2 := hu1.remove
      have hbmem : b ∈ (b :: s.subs).filter fun c => c.id != d.id :=
        List.mem_filter.mpr ⟨List.mem_cons_self, bne_iff_ne.mpr hbd⟩
      refine ⟨hb2.begun_eq.symm ▸ hb2, .inl ⟨hb2.begun_eq, hu2⟩, ?_, ?_⟩
      · exact fun c hc => hold c (List.mem_filter.mp hc).1
      · rintro m ⟨⟩
        refine ⟨b, hbmem, hbid, hbholder, hbfather, hname.trans (congrArg some hbname.symm), ?_⟩
        intro c hc hcf hcn hne
        have hcb := hu2 c hc b hbmem nofun nofun (hcf.trans hbfather.symm) hcn
        exact absurd (hcb.trans hbid) hne

theorem needGetConf_setTimer {filter : Bool} {n after : Nat} :
    (phlDynamicNeedGetConf d filter (s.setTimer n after)).1 =
      (phlDynamicNeedGetConf d filter s).1 := by
  have hnow : (s.setTimer n after).now = s.now := rfl
  unfold phlDynamicNeedGetConf
  dsimp only
  rw [hnow]
  split
  next => rfl
  next =>
    split
    next => rfl
    next => split <;> rfl

/-- The condition on what comes to `get_conf`. -/
structure Replaceable (env : DynamicEnv) (dynamic : DynamicConf) (run : LuaRun) (s : Dynamics)
    (d : SubDyn) : Prop where
  zero : run.zero env dynamic d = false
  alone : run.changes env dynamic d = true → d.holderWaitHead = [] ∧ d.deleting = false ∧
    (d.isJustHolder = false → s.dict (.sub d.id) = [])

theorem asked_alone (hok : getAlone env father answers r s = true)
    (hconf : s.confOf env father = some dynamic) (hname : answers.name = some name)
    (hlength : name.length ≤ 100)
    (hasked : Asked env father dynamic answers (cstr name) r s d s0) :
    Replaceable env dynamic answers.run s d := by
  unfold getAlone at hok
  rw [hconf, hname] at hok
  dsimp only at hok
  rw [decide_eq_false (Nat.not_lt.mpr hlength), Bool.false_or] at hok
  have hthere : env.dictGet ((s.dict father).filter fun d => d.name == cstr name) = some d →
      d.put dynamic answers r s = true → Replaceable env dynamic answers.run s d := by
    intro hget hput
    rw [hget] at hok
    dsimp only at hok
    rw [hput, Bool.not_true, Bool.false_or, Bool.and_eq_true, Bool.not_eq_true'] at hok
    refine ⟨hok.1, fun hchanges => ?_⟩
    have halone := hok.2
    rw [hchanges, Bool.not_true, Bool.false_or, SubDyn.alone, Bool.and_eq_true, Bool.and_eq_true,
      List.isEmpty_iff, List.isEmpty_iff, Bool.not_eq_true'] at halone
    exact ⟨halone.1.1, halone.2, fun _ => halone.1.2⟩
  cases hasked with
  | created hget hmax =>
    rw [hget] at hok
    dsimp only at hok
    rw [decide_eq_false (Nat.not_le.mpr hmax), Bool.false_or, Bool.not_eq_true'] at hok
    exact ⟨hok, fun _ => ⟨rfl, rfl, nofun⟩⟩
  | running hget hentry =>
    refine hthere hget ?_
    rw [SubDyn.put, hentry, beq_self_eq_true, Bool.true_or]
  | expired hget hentry herror hholder hneed =>
    refine hthere hget ?_
    rw [needGetConf_setTimer] at hneed
    rw [SubDyn.put, herror, hholder, hneed]
    simp

/-- One `phl_dynamic_get`, at a moment when no name has two entries. -/
theorem phlDynamicGet_lookup (hall : ∀ entries, entries ≠ [] → env.dictGet entries ≠ none)
    (hb : s.Base env fs) (hu : s.UniqueBut none) (hasks : s.asks env father = true)
    (hok : getAlone env father answers r s = true)
    (h : phlDynamicGet env father answers i r s = some (ptr, r', s')) :
    LookupKeeps env father answers fs ptr s s' := by
  obtain ⟨dynamic, hconf, h⟩ := phlDynamicGet_outcome h
  have hold : ∀ b ∈ s.subs, s.nextId ≤ b.id → b.isJustHolder = true := by
    intro b hbs hle
    have hlt := hb.wf.fresh b hbs
    omega
  cases h with
  | failed => exact lookup_touched hb hu (.refl s) nofun hold
  | @parked d name hget hentry herror hholder =>
    have hb' := hb.park d.id i
    have hu' : (s.update d.id fun e => { e with
        holderWaitHead := e.holderWaitHead ++ [i] }).UniqueBut none :=
      hu.update fun _ => ⟨rfl, rfl, rfl⟩
    refine ⟨hb'.begun_eq.symm ▸ hb', .inl ⟨hb'.begun_eq, hu'⟩, fun b hbmem hle _ => ?_, nofun⟩
    have hlt := hb'.wf.fresh b hbmem
    exact absurd hle (Nat.not_le.mpr hlt)
  | @found d name hname hget hholder =>
    obtain ⟨hd, hfather, hdname⟩ := Dynamics.Base.dictGet_mem hget
    refine lookup_touched hb hu (hb.hit_touched hd hholder _ _) (fun n hn => ?_) hold
    cases hn
    exact ⟨d, hd, rfl, hholder, hfather, by rw [hname, hdname]; rfl⟩
  | @ran d s0 _ _ _ name hname hlength hasked hout =>
    obtain ⟨hb0, hlies0, hfather, hdname, e, hcur⟩ := hb.asked (hb.lies hasks) hasked
    obtain ⟨hzero, halone⟩ := asked_alone hok hconf hname hlength hasked
    have hcstr : answers.name.map cstr = some d.name := by
      rw [hname, hdname]
      rfl
    have hu0 : s0.UniqueBut none ∧ (∀ b ∈ s0.subs, s.nextId ≤ b.id → b.isJustHolder = true) ∧
        (d.isJustHolder = false → s.dict (.sub d.id) = [] → s0.dict (.sub d.id) = []) := by
      rcases hb.asked_cases hasked with ⟨hget, rfl, rfl⟩ | ⟨-, htouched⟩
      · refine ⟨hu.insert fun b hbs _ hbf hbn => ?_, fun b hbs hle => ?_, nofun⟩
        · refine hall _ ?_ hget
          refine List.ne_nil_of_mem (List.mem_filter.mpr ⟨List.mem_filter.mpr ⟨hbs, ?_⟩, ?_⟩)
          · exact beq_iff_eq.mpr hbf
          · exact beq_iff_eq.mpr hbn
        · rcases List.mem_cons.mp hbs with rfl | hbs
          · rfl
          · exact hold b hbs hle
      · refine ⟨hu.quietly htouched.quietly, fun c hc hle => ?_, fun _ hnil => ?_⟩
        · obtain ⟨b, hbs, hid, hholder, -⟩ := mem_of_touched htouched hc
          rw [hid] at hle
          exact hholder.trans (hold b hbs hle)
        · refine List.filter_eq_nil_iff.mpr fun c hc hcd => ?_
          obtain ⟨b, hbs, -, -, hbf, -⟩ := mem_of_touched htouched hc
          have hmem : b ∈ s.dict (.sub d.id) :=
            List.mem_filter.mpr ⟨hbs, beq_iff_eq.mpr (hbf.symm.trans (beq_iff_eq.mp hcd))⟩
          rw [hnil] at hmem
          cases hmem
    rcases hb0.conf_cases hcur hout with ⟨htouched, hkept, hid⟩ |
      ⟨answer, tag, n, s1, hrun, hchanges, hparse, hdelete, rfl⟩
    · refine lookup_touched hb0 hu0.1 htouched (fun n hn => ?_) hu0.2.1
      obtain rfl := hid n hn
      have hholder : d.isJustHolder = false := by
        by_contra hh
        rw [Bool.not_eq_false] at hh
        have hz := hkept hn hh
        rw [hzero] at hz
        cases hz
      exact ⟨e, hcur.mem, hcur.id, hcur.holder.trans hholder, hcur.father.trans hfather,
        hcstr.trans (congrArg some hcur.name.symm)⟩
    · rw [hrun] at halone
      obtain ⟨hwaits, hdel, hdict⟩ := halone hchanges
      rw [← hdname] at hparse
      exact lookup_replaced hb0 hu0.1 hlies0 hcur hfather hcstr hwaits hdel
        (fun hh => hu0.2.2 hh (hdict hh)) hparse hdelete hu0.2.1

end Lookup

/-- No name has two entries, but for the time in which a holder goes away for which no one waits. -/
structure LookupInv (env : DynamicEnv) (w : WakeWorld) : Prop where
  base : w.dynamics.Base env w.deletions
  unique : w.dynamics.UniqueBut none ∨ ∃ n rest, w.deletions = ⟨n, none⟩ :: rest ∧
    (∀ d ∈ w.dynamics.subs, d.id = n → d.holderWaitHead = []) ∧ w.dynamics.UniqueBut (some n)

section Steps

variable {env : DynamicEnv} {w w' : WakeWorld} {s : Dynamics} {i : RequestId}

namespace LookupInv

theorem quietly (h : LookupInv env w) (hq : Quietly w.dynamics s) (clients : List Client) :
    LookupInv env { w with dynamics := s, clients := clients } := by
  refine ⟨h.base.quietly hq, ?_⟩
  rcases h.unique with hu | ⟨n, rest, hfs, hnil, hu⟩
  · exact .inl (hu.quietly hq)
  · refine .inr ⟨n, rest, hfs, fun d' hd' hid => ?_, hu.quietly hq⟩
    obtain ⟨g, rfl, hg⟩ := hq
    obtain ⟨d, hd, rfl⟩ := List.mem_map.mp hd'
    have hsub := (hg d hd).waits
    rw [hnil d hd ((hg d hd).id.symm.trans hid)] at hsub
    exact List.sublist_nil.mp hsub

/-- While a request is run, names are unique. -/
theorem of_runs (h : LookupInv env w) (hruns : w.runs i = true) : w.dynamics.UniqueBut none := by
  rcases h.unique with hu | ⟨n, rest, hfs, -⟩
  · exact hu
  · rw [WakeWorld.runs, hfs] at hruns
    cases hruns

theorem get {father : ConfId} {answers : LuaAnswers} {r : Client}
    (hall : ∀ entries, entries ≠ [] → env.dictGet entries ≠ none) (h : LookupInv env w)
    (hruns : w.runs i = true) (hasks : w.dynamics.asks env father = true)
    (hok : getAlone env father answers r w.dynamics = true)
    (hget : w.get env i father answers r = some w') : LookupInv env w' := by
  obtain ⟨⟨ptr, r', s⟩, hstep, hx⟩ := Option.bind_eq_some_iff.mp hget
  cases hx
  have hbase : w.dynamics.Base env
      (if ptr = .again then returned w.deletions else w.deletions) := by
    split
    next => exact h.base.returned
    next => exact h.base
  have hk := phlDynamicGet_lookup hall hbase (h.of_runs hruns) hasks hok hstep
  refine ⟨hk.base, ?_⟩
  rcases hk.unique with ⟨-, hu⟩ | ⟨n, hbegun, hnil, hu⟩
  · exact .inl hu
  · exact .inr ⟨n, _, hbegun, hnil, hu⟩

theorem timer {d : SubDyn} (h : LookupInv env w) (hfs : w.deletions = [])
    (hd : d ∈ w.dynamics.subs) (hdel : d.deleting = false) (hstep : w.timer d = some w') :
    LookupInv env w' := by
  have hu : w.dynamics.UniqueBut none :=
    h.of_runs (i := 0) (by rw [WakeWorld.runs, hfs])
  obtain ⟨s, hdelete, rfl⟩ := Option.map_eq_some_iff.mp hstep
  rcases h.base.delete (.of_mem hd) hdel hdelete with ⟨-, rfl, hb⟩ | ⟨-, hb, hgone⟩
  · refine ⟨hb.begun_cons.symm ▸ hb, .inl (hu.update fun _ => ⟨rfl, rfl, rfl⟩)⟩
  · refine ⟨hb.begun_eq.symm ▸ hb, .inl ?_⟩
    rcases hgone with ⟨-, htouched⟩ | ⟨-, rfl⟩
    · exact hu.quietly htouched.quietly
    · exact hu.filter _

/-- The innermost deletion goes on. -/
theorem wake {d : SubDyn} {rest : List Deletion} (h : LookupInv env w)
    (hfs : w.deletions = ⟨d.id, none⟩ :: rest) (hd : d ∈ w.dynamics.subs)
    (hstep : w.wake d rest = some w') : LookupInv env w' := by
  have hbase := h.base
  rw [hfs] at hbase
  unfold WakeWorld.wake phlDynamicPopWaiting at hstep
  cases hwait : d.holderWaitHead with
  | nil =>
    rw [hwait] at hstep
    dsimp only at hstep
    rw [hbase.destroys hd (hbase.deleting_of_frame rfl hd rfl)] at hstep
    cases hstep
    refine ⟨hbase.pop, .inl ?_⟩
    rcases h.unique with hu | ⟨n, rest', hfs', -, hu⟩
    · exact hu.filter _
    · rw [hfs] at hfs'
      cases hfs'
      exact hu.remove
  | cons i tail =>
    rw [hwait] at hstep
    cases hstep
    have hq := quietly_pop hbase.wf hd hwait
    refine ⟨(hbase.quietly hq).congr rfl, .inl ?_⟩
    rcases h.unique with hu | ⟨n, rest', hfs', hnil, -⟩
    · exact hu.quietly hq
    · rw [hfs] at hfs'
      cases hfs'
      rw [hnil d hd rfl] at hwait
      cases hwait

end LookupInv

theorem lookup_step {a : WakeAct} (hall : ∀ entries, entries ≠ [] → env.dictGet entries ≠ none)
    (h : LookupInv env w) (hok : actAlone env w a = true) (hstep : wakeStep env w a = some w') :
    LookupInv env w' := by
  cases a with
  | tick ms =>
    cases hstep
    exact ⟨h.base.tick ms, h.unique⟩
  | request defaultPath =>
    cases hstep
    exact ⟨h.base, h.unique⟩
  | get i father answers =>
    obtain ⟨r, hr, -, hget⟩ := withClient_eq hstep
    obtain ⟨hcan, hget⟩ := Option.ite_none_right_eq_some.mp hget
    rw [Bool.and_eq_true] at hcan
    rw [actAlone, hr] at hok
    exact h.get hall hcan.1 hcan.2 hok hget
  | otherLua i =>
    obtain ⟨r, hr, -, hlua⟩ := withClient_eq hstep
    obtain ⟨_, ⟨⟩⟩ := Option.ite_none_right_eq_some.mp hlua
    exact ⟨h.base, h.unique⟩
  | redirect i =>
    obtain ⟨r, hr, -, ⟨⟩⟩ := withClient_eq hstep
    exact h.quietly (quietly_unlink i) _
  | close i =>
    obtain ⟨r, hr, -, ⟨⟩⟩ := withClient_eq hstep
    exact h.quietly (quietly_unlink i) _
  | timer n =>
    unfold wakeStep at hstep
    dsimp only at hstep
    split at hstep
    next => cases hstep
    next d hfind =>
      obtain ⟨⟨hfs, -, hdel⟩, htimer⟩ := Option.ite_none_right_eq_some.mp hstep
      exact h.timer hfs (find_mem hfind).1 hdel htimer
  | wake =>
    unfold wakeStep at hstep
    dsimp only at hstep
    split at hstep
    next n rest hfs =>
      split at hstep
      next => cases hstep
      next d hfind =>
        obtain ⟨hd, rfl⟩ := find_mem hfind
        exact h.wake hfs hd hstep
    next => cases hstep
  | returns =>
    unfold wakeStep at hstep
    dsimp only at hstep
    split at hstep
    next n i rest hfs =>
      cases hstep
      have hbase := h.base
      rw [hfs] at hbase
      refine ⟨hbase.congr rfl, .inl ?_⟩
      rcases h.unique with hu | ⟨n', rest', hfs', -⟩
      · exact hu
      · rw [hfs] at hfs'
        cases hfs'
    next => cases hstep

theorem lookup_inv (hall : ∀ entries, entries ≠ [] → env.dictGet entries ≠ none)
    (h : Reachable LookupStart
      (ActStep (wakeStep env) fun w a => actAlone env w a = true) w) : LookupInv env w := by
  refine h.invariant ?_ fun _ _ hw ⟨_, hok, hstep⟩ => lookup_step hall hw hok hstep
  rintro w ⟨hsubs, hfs⟩
  refine ⟨⟨⟨?_, ?_, ?_, ?_⟩, ?_, ?_, ?_, ?_, ?_, ?_⟩, .inl ?_⟩ <;>
    simp [Dynamics.UniqueBut, hsubs, hfs]

/-- As long as what is replaced is alone, no name has two entries whenever a request is run; and
a container that is given out is the one entry of its name, the new one where one has been
parsed. -/
theorem unique_lookup (hall : ∀ entries, entries ≠ [] → env.dictGet entries ≠ none)
    (h : Reachable LookupStart
      (ActStep (wakeStep env) fun w a => actAlone env w a = true) w) (hruns : w.runs i = true) :
    (∀ d ∈ w.dynamics.subs, ∀ e ∈ w.dynamics.subs, d.father = e.father → d.name = e.name →
      d = e) ∧
    ∀ father answers r ptr r' s', w.clients[i]? = some r →
      w.dynamics.asks env father = true → actAlone env w (.get i father answers) = true →
      phlDynamicGet env father answers i r w.dynamics = some (ptr, r', s') →
      Served father answers ptr w.dynamics s' := by
  have hinv := lookup_inv hall h
  have hu := hinv.of_runs hruns
  refine ⟨fun d hd e he hfather hname => ?_, fun father answers r ptr r' s' hr hasks hok hget => ?_⟩
  · exact hinv.base.wf.eq_of_id hd he (hu d hd e he nofun nofun hfather hname)
  · rw [actAlone, hr] at hok
    exact (phlDynamicGet_lookup hall hinv.base hu hasks hok hget).served

end Steps

section Runs

theorem lookupStart_noWaiting : LookupStart noWaiting := ⟨rfl, rfl⟩

/-- One request alone gets a configuration. -/
theorem unique_lookup_alone : ∃ w, w.runs 0 = true ∧ w.dynamics.subs.map (·.id) = [1] ∧
    (∀ d ∈ w.dynamics.subs, ∀ e ∈ w.dynamics.subs, d.father = e.father → d.name = e.name →
      d = e) ∧
    ∀ father answers r ptr r' s', w.clients[0]? = some r →
      w.dynamics.asks dynamicPath father = true →
      actAlone dynamicPath w (.get 0 father answers) = true →
      phlDynamicGet dynamicPath father answers 0 r w.dynamics = some (ptr, r', s') →
      Served father answers ptr w.dynamics s' := by
  let acts : List WakeAct := [.request 0, .get 0 (.root 1) awaitConf,
    .get 0 (.root 1) (gotConf "x"), .wake]
  have hrun : ((runActs (wakeStep dynamicPath) acts noWaiting).map fun w =>
      (w.runs 0, w.dynamics.subs.map (·.id))) = some (true, [1]) := by
    decide
  obtain ⟨w, hw, hends⟩ := Option.map_eq_some_iff.mp hrun
  obtain ⟨hruns, hids⟩ := Prod.mk.inj hends
  have hmeet : ActsMeet (wakeStep dynamicPath) (fun w a => actAlone dynamicPath w a = true) acts
      noWaiting :=
    actsMeet_of_check (fun _ _ h => h) (by decide)
  have hall : ∀ entries, entries ≠ [] → dynamicPath.dictGet entries ≠ none :=
    fun entries hne hnone => hne (List.head?_eq_none_iff.mp hnone)
  have hreach := (Reachable.start lookupStart_noWaiting).runActs hmeet hw
  exact ⟨w, hruns, hids, unique_lookup hall hreach hruns⟩

/-- The subs are dynamic too. -/
def nestedPath : DynamicEnv where
  conf
    | .root 1 => ⟨some 0, 1, none, 1, 3600, 1, 1000⟩
    | _ => ⟨some 2, 3, none, 1, 3600, 1, 1000⟩
  idleTimeout_pos := fun c => by
    split <;> decide
  upstream := fun _ => .own
  dictGet := List.head?
  dictGet_mem := List.mem_of_head?
  vhash64 := List.length

/-- `get_conf` returns a status code only. -/
def gotStatus (code : Int) : LuaAnswers :=
  ⟨some (bytes "a"), true, .done ⟨some code, .other, false⟩⟩

/-- The names that a dictionary gives the oldest entry of. -/
def oldestPath : DynamicEnv := { dynamicPath with
  dictGet := List.getLast?
  dictGet_mem := List.mem_of_getLast? }

/-- Another request waits for the configuration that the first one gets. -/
def anotherWaits : List WakeAct := [.request 0, .request 0, .get 0 (.root 1) awaitConf,
  .get 1 (.root 1) awaitConf, .get 0 (.root 1) (gotConf "x"), .wake]

/-- The configuration of a sub changes that has subs, and then there is none any more. -/
def replacedWithSubs : List WakeAct := [.request 0, .get 0 (.root 1) (gotConf "x"), .wake,
  .get 0 (.sub 1) (gotConf "y"), .wake, .tick 2000, .get 0 (.root 1) (gotConf "xy"), .tick 2000,
  .get 0 (.root 1) (gotStatus 404), .tick 1000, .timer 4]

/-- A request that is woken up sees the holder beside the new sub, and is answered with an error by
a dictionary that gives the older one; and a sub that is replaced while it holds subs is used again
once the new one is gone. -/
theorem lookup_sees_two :
    (∃ w, Reachable LookupStart (ActStep (wakeStep dynamicPath) fun _ _ => True) w ∧
      w.runs 1 = true ∧ (w.dynamics.dict (.root 1)).map (fun d => (d.id, d.name)) =
        [(1, bytes "a"), (0, bytes "a")]) ∧
    (∃ w r r' s', Reachable LookupStart (ActStep (wakeStep oldestPath) fun _ _ => True) w ∧
      w.resumed = [(1, 0)] ∧ w.runs 1 = true ∧ w.clients[1]? = some r ∧
      phlDynamicGet oldestPath (.root 1) awaitConf 1 r w.dynamics = some (.error, r', s') ∧
      r'.statusCode = 500) ∧
    ∃ w r r' s', Reachable LookupStart (ActStep (wakeStep nestedPath) fun _ _ => True) w ∧
      w.deletions = [] ∧ w.clients[0]? = some r ∧
      phlDynamicGet nestedPath (.root 1) (gotStatus 304) 0 r w.dynamics =
        some (.container 1, r', s') := by
  have hreach : ∀ env acts w, runActs (wakeStep env) acts noWaiting = some w →
      Reachable LookupStart (ActStep (wakeStep env) fun _ _ => True) w := by
    intro env acts w hw
    exact (Reachable.start lookupStart_noWaiting).runActs
      (actsMeet_of_forall acts noWaiting fun _ _ => trivial) hw
  refine ⟨?_, ?_, ?_⟩
  · have hrun : ((runActs (wakeStep dynamicPath) anotherWaits noWaiting).map fun w =>
        (w.runs 1, (w.dynamics.dict (.root 1)).map fun d => (d.id, d.name))) =
          some (true, [(1, bytes "a"), (0, bytes "a")]) := by
      decide
    obtain ⟨w, hw, hends⟩ := Option.map_eq_some_iff.mp hrun
    obtain ⟨hruns, hdict⟩ := Prod.mk.inj hends
    exact ⟨w, hreach _ _ w hw, hruns, hdict⟩
  · have hrun : ((runActs (wakeStep oldestPath) anotherWaits noWaiting).bind fun w =>
        w.clients[1]?.bind fun r =>
          (phlDynamicGet oldestPath (.root 1) awaitConf 1 r w.dynamics).map fun x =>
            (w.resumed, w.runs 1, x.1, x.2.1.statusCode)) =
          some ([(1, 0)], true, .error, 500) := by
      decide
    obtain ⟨w, hw, hget⟩ := Option.bind_eq_some_iff.mp hrun
    obtain ⟨r, hr, hget⟩ := Option.bind_eq_some_iff.mp hget
    obtain ⟨⟨ptr, r', s'⟩, hget, hends⟩ := Option.map_eq_some_iff.mp hget
    simp only [Prod.mk.injEq] at hends
    obtain ⟨hresumed, hruns, rfl, hstatus⟩ := hends
    exact ⟨w, r, r', s', hreach _ _ w hw, hresumed, hruns, hr, hget, hstatus⟩
  · have hrun : ((runActs (wakeStep nestedPath) replacedWithSubs noWaiting).bind fun w =>
        w.clients[0]?.bind fun r =>
          (phlDynamicGet nestedPath (.root 1) (gotStatus 304) 0 r w.dynamics).map fun x =>
            (w.deletions, x.1)) = some ([], .container 1) := by
      decide
    obtain ⟨w, hw, hget⟩ := Option.bind_eq_some_iff.mp hrun
    obtain ⟨r, hr, hget⟩ := Option.bind_eq_some_iff.mp hget
    obtain ⟨⟨ptr, r', s'⟩, hget, hends⟩ := Option.map_eq_some_iff.mp hget
    simp only [Prod.mk.injEq] at hends
    obtain ⟨hdeletions, rfl⟩ := hends
    exact ⟨w, r, r', s', hreach _ _ w hw, hdeletions, hr, hget⟩

end Runs

end Phorklift
