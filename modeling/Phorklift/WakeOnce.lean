import Phorklift.DynamicWake

/-! Every request that waits for a holder is woken up once. -/

namespace Phorklift

open Transition

/-- Each request waits for one holder at most and once, and for none again whose deletion has run
it. -/
structure Dynamics.Parked (s : Dynamics) (resumed : List (RequestId × Nat)) : Prop where
  holder : ∀ d ∈ s.subs, d.holderWaitHead ≠ [] → d.isJustHolder = true
  once : ∀ d ∈ s.subs, d.holderWaitHead.Nodup
  one : ∀ d ∈ s.subs, ∀ e ∈ s.subs, ∀ i, i ∈ d.holderWaitHead → i ∈ e.holderWaitHead → d.id = e.id
  armed : ∀ d ∈ s.subs, d.isJustHolder = true → d.deleting = false → d.timer ≤ s.now + d.wait
  resumed : ∀ i n, (i, n) ∈ resumed →
    n < s.nextId ∧ ∀ d ∈ s.subs, d.id = n → d.deleting = true ∧ i ∉ d.holderWaitHead

section Parked

variable {env : DynamicEnv} {s s' : Dynamics} {resumed : List (RequestId × Nat)}
  {fs : List Deletion} {d e : SubDyn} {i : RequestId} {n : Nat}

namespace Dynamics.Parked

theorem tick (h : s.Parked resumed) (ms : Nat) :
    Dynamics.Parked { s with now := s.now + ms } resumed := by
  refine ⟨h.holder, h.once, h.one, fun d hd hh hdel => ?_, h.resumed⟩
  have hle := h.armed d hd hh hdel
  show d.timer ≤ s.now + ms + d.wait
  omega

theorem quietly (h : s.Parked resumed) (hq : Quietly s s') : s'.Parked resumed := by
  obtain ⟨g, rfl, hg⟩ := hq
  refine ⟨?_, ?_, ?_, ?_, ?_⟩
  · intro d' hd' hne
    obtain ⟨d, hd, rfl⟩ := List.mem_map.mp hd'
    rw [(hg d hd).holder]
    refine h.holder d hd fun hnil => hne ?_
    have hsub := (hg d hd).waits
    rw [hnil] at hsub
    exact List.sublist_nil.mp hsub
  · intro d' hd'
    obtain ⟨d, hd, rfl⟩ := List.mem_map.mp hd'
    exact (h.once d hd).sublist (hg d hd).waits
  · intro d' hd' e' he' i hi hi'
    obtain ⟨d, hd, rfl⟩ := List.mem_map.mp hd'
    obtain ⟨e, he, rfl⟩ := List.mem_map.mp he'
    rw [(hg d hd).id, (hg e he).id]
    exact h.one d hd e he i ((hg d hd).waits.subset hi) ((hg e he).waits.subset hi')
  · intro d' hd' hh hdel
    obtain ⟨d, hd, rfl⟩ := List.mem_map.mp hd'
    have hd0 := hg d hd
    rw [hd0.holder] at hh
    rw [hd0.deleting] at hdel
    have hle := h.armed d hd hh hdel
    have hle' := hd0.timer hh
    have hwait : (g d).wait = d.wait := by
      unfold SubDyn.wait
      rw [hd0.conf]
    show (g d).timer ≤ s.now + (g d).wait
    rw [hwait]
    omega
  · intro i n hin
    obtain ⟨hlt, hgone⟩ := h.resumed i n hin
    refine ⟨hlt, fun d' hd' hid => ?_⟩
    obtain ⟨d, hd, rfl⟩ := List.mem_map.mp hd'
    obtain ⟨hdel, hnot⟩ := hgone d hd ((hg d hd).id.symm.trans hid)
    exact ⟨(hg d hd).deleting.trans hdel, fun hi => hnot ((hg d hd).waits.subset hi)⟩

theorem insert (h : s.Parked resumed) (hid : d.id = s.nextId) (hwaits : d.holderWaitHead = [])
    (harmed : d.isJustHolder = true → d.timer ≤ s.now + d.wait) :
    Dynamics.Parked { s with subs := d :: s.subs, nextId := s.nextId + 1 } resumed := by
  have hempty : ∀ i, i ∉ d.holderWaitHead := by
    intro i hi
    rw [hwaits] at hi
    cases hi
  refine ⟨?_, ?_, ?_, ?_, ?_⟩
  · intro e he hne
    rcases List.mem_cons.mp he with rfl | he
    · exact absurd hwaits hne
    · exact h.holder e he hne
  · intro e he
    rcases List.mem_cons.mp he with rfl | he
    · rw [hwaits]
      exact List.nodup_nil
    · exact h.once e he
  · intro b hb e he i hi hi'
    rcases List.mem_cons.mp hb with rfl | hb
    · exact absurd hi (hempty i)
    · rcases List.mem_cons.mp he with rfl | he
      · exact absurd hi' (hempty i)
      · exact h.one b hb e he i hi hi'
  · intro e he hh hdel
    rcases List.mem_cons.mp he with rfl | he
    · exact harmed hh
    · exact h.armed e he hh hdel
  · intro i n hin
    obtain ⟨hlt, hgone⟩ := h.resumed i n hin
    refine ⟨Nat.lt_succ_of_lt hlt, fun e he hen => ?_⟩
    rcases List.mem_cons.mp he with rfl | he
    · omega
    · exact hgone e he hen

theorem remove (h : s.Parked resumed) (n : Nat) :
    Dynamics.Parked { s with subs := s.subs.filter fun b => b.id != n } resumed := by
  have hmem : ∀ b ∈ s.subs.filter (fun b => b.id != n), b ∈ s.subs :=
    fun b hb => List.mem_of_mem_filter hb
  refine ⟨fun b hb => h.holder b (hmem b hb), fun b hb => h.once b (hmem b hb),
    fun b hb e he => h.one b (hmem b hb) e (hmem e he), fun b hb => h.armed b (hmem b hb), ?_⟩
  intro i m him
  obtain ⟨hlt, hgone⟩ := h.resumed i m him
  exact ⟨hlt, fun b hb => hgone b (hmem b hb)⟩

theorem begin (h : s.Parked resumed) (n : Nat) : (s.update n begins).Parked resumed := by
  have hmem : ∀ b', b' ∈ (s.update n begins).subs → ∃ b ∈ s.subs, b'.id = b.id ∧
      b'.holderWaitHead = b.holderWaitHead ∧ b'.isJustHolder = b.isJustHolder ∧
      (b.deleting = true → b'.deleting = true) ∧ (b'.deleting = false → b' = b) := by
    intro b' hb'
    obtain ⟨b, hb, rfl⟩ := List.mem_map.mp hb'
    refine ⟨b, hb, ?_⟩
    split
    next => exact ⟨rfl, rfl, rfl, fun _ => rfl, nofun⟩
    next => exact ⟨rfl, rfl, rfl, fun hdel => hdel, fun _ => rfl⟩
  refine ⟨?_, ?_, ?_, ?_, ?_⟩
  · intro b' hb' hne
    obtain ⟨b, hb, -, hwaits, hholder, -⟩ := hmem b' hb'
    rw [hwaits] at hne
    exact hholder.trans (h.holder b hb hne)
  · intro b' hb'
    obtain ⟨b, hb, -, hwaits, -⟩ := hmem b' hb'
    rw [hwaits]
    exact h.once b hb
  · intro b' hb' e' he' i hi hi'
    obtain ⟨b, hb, hid, hwaits, -⟩ := hmem b' hb'
    obtain ⟨e, he, hid', hwaits', -⟩ := hmem e' he'
    rw [hwaits] at hi
    rw [hwaits'] at hi'
    rw [hid, hid']
    exact h.one b hb e he i hi hi'
  · intro b' hb' hh hdel
    obtain ⟨b, hb, -, -, -, -, heq⟩ := hmem b' hb'
    have hb'' := heq hdel
    subst hb''
    exact h.armed b' hb hh hdel
  · intro i m him
    obtain ⟨hlt, hgone⟩ := h.resumed i m him
    refine ⟨hlt, fun b' hb' hbm => ?_⟩
    obtain ⟨b, hb, hid, hwaits, -, hdel, -⟩ := hmem b' hb'
    obtain ⟨hbdel, hnot⟩ := hgone b hb (hid.symm.trans hbm)
    rw [hwaits]
    exact ⟨hdel hbdel, hnot⟩

/-- A request that waits nowhere comes to wait for a holder that is not in deletion. -/
theorem park (h : s.Parked resumed) (hw : s.Wf) (hd : d ∈ s.subs) (hholder : d.isJustHolder = true)
    (hdel : d.deleting = false) (hi : ∀ b ∈ s.subs, i ∉ b.holderWaitHead) :
    (s.update d.id fun e => { e with
      holderWaitHead := e.holderWaitHead ++ [i] }).Parked resumed := by
  have hmem : ∀ b', b' ∈ (s.update d.id fun e => { e with
      holderWaitHead := e.holderWaitHead ++ [i] }).subs →
      b' ∈ s.subs ∧ b'.id ≠ d.id ∨ b' = { d with holderWaitHead := d.holderWaitHead ++ [i] } := by
    intro b' hb'
    obtain ⟨b, hb, rfl⟩ := List.mem_map.mp hb'
    by_cases hbd : b.id = d.id
    · rw [if_pos hbd, hw.eq_of_id hb hd hbd]
      exact .inr rfl
    · rw [if_neg hbd]
      exact .inl ⟨hb, hbd⟩
  have hold : ∀ {b j}, b ∈ s.subs → j ∈ d.holderWaitHead ++ [i] → j ∈ b.holderWaitHead →
      d.id = b.id := by
    intro b j hb hj hj'
    rcases List.mem_append.mp hj with hj | hj
    · exact h.one d hd b hb j hj hj'
    · rw [List.mem_singleton] at hj
      subst hj
      exact absurd hj' (hi b hb)
  refine ⟨?_, ?_, ?_, ?_, ?_⟩
  · intro b hb hne
    rcases hmem b hb with ⟨hb, -⟩ | rfl
    · exact h.holder b hb hne
    · exact hholder
  · intro b hb
    rcases hmem b hb with ⟨hb, -⟩ | rfl
    · exact h.once b hb
    · refine List.nodup_append.mpr ⟨h.once d hd, List.nodup_singleton i, ?_⟩
      rintro j hj k hk rfl
      rw [List.mem_singleton] at hk
      subst hk
      exact hi d hd hj
  · intro b hb e he j hj hj'
    rcases hmem b hb with ⟨hb, -⟩ | rfl
    · rcases hmem e he with ⟨he, -⟩ | rfl
      · exact h.one b hb e he j hj hj'
      · exact (hold hb hj' hj).symm
    · rcases hmem e he with ⟨he, -⟩ | rfl
      · exact hold he hj hj'
      · rfl
  · intro b hb hh hbdel
    rcases hmem b hb with ⟨hb, -⟩ | rfl
    · exact h.armed b hb hh hbdel
    · exact h.armed d hd hh hbdel
  · intro j m hjm
    obtain ⟨hlt, hgone⟩ := h.resumed j m hjm
    refine ⟨hlt, fun b hb hbm => ?_⟩
    rcases hmem b hb with ⟨hb, -⟩ | rfl
    · exact hgone b hb hbm
    · have hddel := (hgone d hd hbm).1
      rw [hdel] at hddel
      cases hddel

/-- The one that has waited longest is run. -/
theorem woken {rest : List RequestId} (h : s.Parked resumed) (hw : s.Wf) (hd : d ∈ s.subs)
    (hdel : d.deleting = true) (hwait : d.holderWaitHead = i :: rest) :
    Quietly s (s.update d.id fun e => { e with holderWaitHead := rest }) ∧
      (s.update d.id fun e => { e with holderWaitHead := rest }).Parked
        ((i, d.id) :: resumed) := by
  have hquiet := quietly_pop hw hd hwait
  have hp := h.quietly hquiet
  refine ⟨hquiet, hp.holder, hp.once, hp.one, hp.armed, fun j m hjm => ?_⟩
  rcases List.mem_cons.mp hjm with hjm | hjm
  · obtain ⟨rfl, rfl⟩ := Prod.mk.inj hjm
    refine ⟨hw.fresh d hd, fun b' hb' hbd => ?_⟩
    obtain ⟨b, hb, rfl⟩ := List.mem_map.mp hb'
    have hbd' : b.id = d.id := by
      split at hbd
      next h => exact h
      next h => exact hbd
    rw [if_pos hbd', hw.eq_of_id hb hd hbd']
    have hnodup := h.once d hd
    rw [hwait] at hnodup
    exact ⟨hdel, (List.nodup_cons.mp hnodup).1⟩
  · exact hp.resumed j m hjm

end Dynamics.Parked

/-- What a request's `phl_dynamic_get` does to those who wait. -/
structure GetKeeps (env : DynamicEnv) (father : ConfId) (resumed : List (RequestId × Nat))
    (fs : List Deletion) (i : RequestId) (r r' : Client) (ptr : DynamicPtr) (s s' : Dynamics) :
    Prop where
  base : s'.Base env (begun s' fs)
  begun : begun s' fs = fs ∨ ∃ n, begun s' fs = ⟨n, none⟩ :: fs
  parked : s'.Parked resumed
  stay : ∀ j n, s.Waits j n → s'.Waits j n
  come : ∀ j n, s'.Waits j n →
    s.Waits j n ∨ j = i ∧ ptr = .again ∧ r'.entry ≠ some (env.conf father).getConf
  entry : ptr ≠ .again → r.entry ≠ some (env.conf father).getConf →
    r'.entry ≠ some (env.conf father).getConf

variable {father : ConfId} {dynamic : DynamicConf} {answers : LuaAnswers} {r r' : Client}
  {ptr : DynamicPtr}

theorem getKeeps_touched (hb : s.Base env fs) (hp : s.Parked resumed) (h : Touched s s')
    (hentry : ptr ≠ .again → r.entry ≠ some (env.conf father).getConf →
      r'.entry ≠ some (env.conf father).getConf) :
    GetKeeps env father resumed fs i r r' ptr s s' := by
  have hb' := hb.quietly h.quietly
  refine ⟨?_, .inl hb'.begun_eq, hp.quietly h.quietly, fun j n => h.waits, fun j n hw => ?_, hentry⟩
  · rw [hb'.begun_eq]
    exact hb'
  · exact .inl (h.quietly.waits hw)

theorem waits_begin {j : RequestId} {m : Nat} :
    (s.update n begins).Waits j m ↔ s.Waits j m := by
  have hsame : ∀ d : SubDyn, (if d.id = n then begins d else d).id = d.id ∧
      (if d.id = n then begins d else d).holderWaitHead = d.holderWaitHead := by
    intro d
    split
    next => exact ⟨rfl, rfl⟩
    next => exact ⟨rfl, rfl⟩
  constructor
  · rintro ⟨d', hd', hid, hj⟩
    obtain ⟨d, hd, rfl⟩ := List.mem_map.mp hd'
    exact ⟨d, hd, (hsame d).1.symm.trans hid, (hsame d).2 ▸ hj⟩
  · rintro ⟨d, hd, hid, hj⟩
    refine ⟨_, List.mem_map_of_mem hd, (hsame d).1.trans hid, ?_⟩
    rw [(hsame d).2]
    exact hj

theorem waits_insert {j : RequestId} {m k : Nat} (hwaits : d.holderWaitHead = []) :
    Dynamics.Waits { s with subs := d :: s.subs, nextId := k } j m ↔ s.Waits j m := by
  constructor
  · rintro ⟨e, he, hid, hj⟩
    rcases List.mem_cons.mp he with rfl | he
    · rw [hwaits] at hj
      cases hj
    · exact ⟨e, he, hid, hj⟩
  · rintro ⟨e, he, hid, hj⟩
    exact ⟨e, List.mem_cons_of_mem d he, hid, hj⟩

theorem waits_park {j : RequestId} {m : Nat} :
    ((s.update n fun e => { e with holderWaitHead := e.holderWaitHead ++ [i] }).Waits j m →
      s.Waits j m ∨ j = i) ∧
    (s.Waits j m → (s.update n fun e => { e with
      holderWaitHead := e.holderWaitHead ++ [i] }).Waits j m) := by
  constructor
  · rintro ⟨d', hd', hid, hj⟩
    obtain ⟨d, hd, rfl⟩ := List.mem_map.mp hd'
    by_cases hn : d.id = n
    · rw [if_pos hn] at hid hj
      rcases List.mem_append.mp hj with hj | hj
      · exact .inl ⟨d, hd, hid, hj⟩
      · exact .inr (List.mem_singleton.mp hj)
    · rw [if_neg hn] at hid hj
      exact .inl ⟨d, hd, hid, hj⟩
  · rintro ⟨d, hd, hid, hj⟩
    refine ⟨_, List.mem_map_of_mem hd, ?_⟩
    split
    next => exact ⟨hid, List.mem_append_left _ hj⟩
    next => exact ⟨hid, hj⟩

theorem Dynamics.Parked.nil_of_not_holder (hp : s.Parked resumed) (hd : d ∈ s.subs)
    (hholder : d.isJustHolder = false) : d.holderWaitHead = [] := by
  by_contra hne
  have hh := hp.holder d hd hne
  rw [hholder] at hh
  cases hh

theorem waits_remove {j : RequestId} {m : Nat}
    (hn : ∀ d ∈ s.subs, d.id = n → d.holderWaitHead = []) :
    Dynamics.Waits { s with subs := s.subs.filter fun b => b.id != n } j m ↔ s.Waits j m := by
  constructor
  · rintro ⟨d, hd, hid, hj⟩
    exact ⟨d, List.mem_of_mem_filter hd, hid, hj⟩
  · rintro ⟨d, hd, hid, hj⟩
    refine ⟨d, List.mem_filter.mpr ⟨hd, ?_⟩, hid, hj⟩
    rw [bne_iff_ne]
    intro hdn
    rw [hn d hd hdn] at hj
    cases hj

theorem waits_unlink {j : RequestId} {m : Nat} (h : s.Waits j m) :
    (s.unlink i).Waits j m ∨ i = j := by
  obtain ⟨d, hd, rfl, hj⟩ := h
  by_cases hij : i = j
  · exact .inr hij
  · refine .inl ⟨_, List.mem_map_of_mem hd, rfl, List.mem_filter.mpr ⟨hj, ?_⟩⟩
    rw [bne_iff_ne]
    exact fun hji => hij hji.symm

/-- From `get_conf` on, the entry not being in deletion. -/
theorem getKeeps_conf {name : Bytes} {run : LuaRun} (hb : s.Base env fs) (hp : s.Parked resumed)
    (hlies : s.Lies father) (hcur : Current s d e) (hdel : d.deleting = false)
    (h : ConfOutcome env father dynamic name d run r s ptr r' s') :
    GetKeeps env father resumed fs i r r' ptr s s' := by
  have hentry : ptr ≠ .again → r.entry ≠ some (env.conf father).getConf →
      r'.entry ≠ some (env.conf father).getConf := by
    intro hptr _
    rcases h.entry with ⟨hagain, -⟩ | ⟨-, hnone⟩
    · exact absurd hagain hptr
    · rw [hnone]
      exact nofun
  rcases hb.conf_cases hcur h with ⟨htouched, -⟩ | ⟨answer, tag, n, s1, -, -, hparse, hdelete, -⟩
  · exact getKeeps_touched hb hp htouched hentry
  · obtain ⟨rfl, hb1, b, hbid, -, -, hbholder, -, hbwaits, rfl⟩ := hb.parsed hlies hparse
    have hp1 := hp.insert hbid hbwaits fun hh => absurd hh (by simp [hbholder])
    have hcur1 : Current { s with subs := b :: s.subs, nextId := s.nextId + 1 } d e :=
      { hcur with mem := List.mem_cons_of_mem b hcur.mem }
    have hinsert : ∀ j m, Dynamics.Waits { s with subs := b :: s.subs, nextId := s.nextId + 1 } j m ↔
        s.Waits j m := fun j m => waits_insert hbwaits
    rcases hb1.delete hcur1 hdel hdelete with ⟨-, hs', hb2⟩ | ⟨hholder, hb2, hgone⟩
    · have hwaits : ∀ j m, s'.Waits j m ↔ s.Waits j m := by
        intro j m
        rw [hs', waits_begin]
        exact hinsert j m
      refine ⟨?_, .inr ⟨d.id, hb2.begun_cons⟩, hs' ▸ hp1.begin d.id, fun j m => (hwaits j m).mpr,
        fun j m hw => .inl ((hwaits j m).mp hw), hentry⟩
      rw [hb2.begun_cons]
      exact hb2
    · have hbegun := hb2.begun_eq
      have hkeep : s'.Parked resumed ∧ ∀ j m, Dynamics.Waits
          { s with subs := b :: s.subs, nextId := s.nextId + 1 } j m ↔ s'.Waits j m := by
        rcases hgone with ⟨-, htouched⟩ | ⟨-, rfl⟩
        · exact ⟨hp1.quietly htouched.quietly, fun j m =>
            ⟨htouched.waits, htouched.quietly.waits⟩⟩
        · refine ⟨hp1.remove d.id, fun j m => (waits_remove fun c hc hcd => ?_).symm⟩
          rw [hb1.wf.eq_of_id hc hcur1.mem (hcd.trans hcur1.id.symm)]
          exact hp1.nil_of_not_holder hcur1.mem (hcur1.holder.trans hholder)
      refine ⟨?_, .inl hbegun, hkeep.1, fun j m hw => (hkeep.2 j m).mp ((hinsert j m).mpr hw),
        fun j m hw => .inl ((hinsert j m).mp ((hkeep.2 j m).mpr hw)), hentry⟩
      rw [hbegun]
      exact hb2

theorem GetKeeps.after {s0 : Dynamics} (h : GetKeeps env father resumed fs i r r' ptr s0 s')
    (hwaits : ∀ j n, s0.Waits j n ↔ s.Waits j n) :
    GetKeeps env father resumed fs i r r' ptr s s' :=
  ⟨h.base, h.begun, h.parked, fun j n hw => h.stay j n ((hwaits j n).mpr hw),
    fun j n hw => (h.come j n hw).imp_left (hwaits j n).mp, h.entry⟩

/-- What a request that waits nowhere does, where no deletion runs it in its own `get_conf`. -/
theorem phlDynamicGet_keeps (hb : s.Base env fs) (hp : s.Parked resumed)
    (hasks : s.asks env father = true) (hi : ∀ b ∈ s.subs, i ∉ b.holderWaitHead)
    (hidle : fs ≠ [] → r.entry ≠ some (env.conf father).getConf)
    (h : phlDynamicGet env father answers i r s = some (ptr, r', s')) :
    GetKeeps env father resumed fs i r r' ptr s s' := by
  obtain ⟨dynamic, hconf, h⟩ := phlDynamicGet_outcome h
  have hdynamic := hb.confOf_eq hasks hconf
  cases h with
  | failed hentry =>
    refine getKeeps_touched hb hp (.refl s) fun _ hne => ?_
    rw [hentry]
    exact hne
  | @parked d name hget hentry herror hholder =>
    have hd := (Dynamics.Base.dictGet_mem hget).1
    have hdel : d.deleting = false := by
      by_contra hdel
      exact hb.failing d hd (by simpa using hdel) herror
    have hbase : Dynamics.Base env
        (s.update d.id fun e => { e with holderWaitHead := e.holderWaitHead ++ [i] }) fs :=
      hb.park d.id i
    refine ⟨?_, .inl hbase.begun_eq, hp.park hb.wf hd hholder hdel hi, fun j n => waits_park.2,
      fun j n hw => ?_, fun hptr => absurd rfl hptr⟩
    · rw [hbase.begun_eq]
      exact hbase
    · exact (waits_park.1 hw).imp_right fun hj => ⟨hj, rfl, hdynamic ▸ hentry⟩
  | found hname hget hholder =>
    exact getKeeps_touched hb hp (hb.hit_touched (Dynamics.Base.dictGet_mem hget).1 hholder _ _)
      fun _ hne => hne
  | @ran d s0 _ _ _ name hname hlength hasked hconf =>
    obtain ⟨hb0, hlies0, -, -, e, hcur⟩ := hb.asked (hb.lies hasks) hasked
    rcases hb.asked_cases hasked with ⟨-, rfl, rfl⟩ | ⟨hget, htouched⟩
    · have hp0 := hp.insert (d := (phlDynamicNewHolder father dynamic (cstr name) s).1) rfl rfl
        fun _ => Nat.add_le_add_left (Nat.le_max_left _ _) _
      exact (getKeeps_conf hb0 hp0 hlies0 hcur rfl hconf).after fun j n => waits_insert rfl
    · have hd := (Dynamics.Base.dictGet_mem hget).1
      have hdel : d.deleting = false := by
        by_contra hdel
        rw [Bool.not_eq_false] at hdel
        have hfs : fs ≠ [] := by
          rintro rfl
          cases hb.framed d hd hdel
        cases hasked with
        | created hnone =>
          rw [hget] at hnone
          cases hnone
        | running _ hentry => exact hidle hfs (hdynamic ▸ hentry)
        | expired _ _ _ hholder =>
          rw [hb.wf.deleting d hd hdel] at hholder
          cases hholder
      exact (getKeeps_conf hb0 (hp.quietly htouched.quietly) hlies0 hcur hdel hconf).after
        fun j n => ⟨htouched.quietly.waits, htouched.waits⟩

end Parked

/-- The requests that deletions are running. -/
def wokens (fs : List Deletion) : List RequestId := fs.filterMap (·.woken)

/-- Only `father` is asked, and no request asks while it waits. -/
def AsksOnce (father : ConfId) (w : WakeWorld) : WakeAct → Prop
  | .get i c _ => c = father ∧ ∀ d ∈ w.dynamics.subs, i ∉ d.holderWaitHead
  | _ => True

/-- No request has come yet; some subs may be there already. -/
structure WakeStart (env : DynamicEnv) (w : WakeWorld) : Prop where
  clients : w.clients = []
  deletions : w.deletions = []
  resumed : w.resumed = []
  wf : w.dynamics.Wf
  containers : ∀ d ∈ w.dynamics.subs, d.isJustHolder = false ∧ d.holderWaitHead = [] ∧
    d.conf = env.conf (.sub d.id) ∧ ∀ m, d.father.owner = some m → m < w.dynamics.nextId

structure WakeWorld.Inv (env : DynamicEnv) (father : ConfId) (w : WakeWorld) : Prop where
  base : w.dynamics.Base env w.deletions
  parked : w.dynamics.Parked w.resumed
  /-- Neither those who wait nor those who are woken have a `get_conf` of the father running. -/
  idle : ∀ i r, w.clients[i]? = some r → (∃ n, w.dynamics.Waits i n) ∨ i ∈ wokens w.deletions →
    r.entry ≠ some (env.conf father).getConf
  woken : (wokens w.deletions).Nodup
  free : ∀ i ∈ wokens w.deletions, ∀ n, ¬w.dynamics.Waits i n
  resumed : w.resumed.Nodup

/-- Who waits goes on waiting for the same holder, unless it is closed or redirected, or run by the
holder's deletion. -/
def Stays (w w' : WakeWorld) (a : WakeAct) : Prop :=
  ∀ i n, w.dynamics.Waits i n → w'.dynamics.Waits i n ∨ a = .close i ∨ a = .redirect i ∨
    a = .wake ∧ w'.deletions.head? = some ⟨n, some i⟩ ∧ w'.resumed = (i, n) :: w.resumed

section Steps

variable {env : DynamicEnv} {father : ConfId} {w w' : WakeWorld} {s s' : Dynamics}
  {fs : List Deletion} {clients : List Client} {i j : RequestId} {n : Nat} {r r' : Client}

theorem wokens_begun (h : begun s fs = fs ∨ ∃ n, begun s fs = ⟨n, none⟩ :: fs) :
    wokens (begun s fs) = wokens fs := by
  rcases h with h | ⟨n, h⟩
  · rw [h]
  · rw [h]
    rfl

theorem wokens_returned : (wokens (returned fs)).Sublist (wokens fs) := by
  cases fs with
  | nil => exact .refl _
  | cons f rest =>
    show (wokens rest).Sublist _
    exact (List.sublist_cons_self f rest).filterMap _

/-- A request that returns is run no longer. -/
theorem not_mem_wokens_returned (hwoken : (wokens fs).Nodup)
    (hruns : ∀ f ∈ fs.head?, f.woken = some i) : i ∉ wokens (returned fs) := by
  cases fs with
  | nil => exact List.not_mem_nil
  | cons f rest =>
    have hf := hruns f rfl
    have hcons : wokens (f :: rest) = i :: wokens rest := by
      simp only [wokens, List.filterMap_cons, hf]
    rw [hcons] at hwoken
    exact (List.nodup_cons.mp hwoken).1

/-- One request is set, and no other has come to wait or been woken. -/
theorem idle_set {g : LuaFunction} {busy busy' : RequestId → Prop}
    (h : ∀ j r, clients[j]? = some r → busy j → r.entry ≠ some g)
    (hbusy : ∀ j, j ≠ i → busy' j → busy j) (hi : busy' i → r.entry ≠ some g) :
    ∀ j r', (clients.set i r)[j]? = some r' → busy' j → r'.entry ≠ some g := by
  intro j r' hr' hb
  by_cases hij : i = j
  · subst hij
    rw [List.getElem?_set_self'] at hr'
    obtain ⟨_, -, rfl⟩ := Option.map_eq_some_iff.mp hr'
    exact hi hb
  · rw [List.getElem?_set_ne hij] at hr'
    exact h j r' hr' (hbusy j (fun hji => hij hji.symm) hb)

theorem head_of_runs (h : w.runs i = true) : ∀ f ∈ w.deletions.head?, f.woken = some i := by
  intro f hf
  unfold WakeWorld.runs at h
  cases hd : w.deletions with
  | nil =>
    rw [hd] at hf
    cases hf
  | cons g rest =>
    rw [hd] at hf h
    cases hf
    exact beq_iff_eq.mp h

namespace WakeWorld.Inv

theorem get {answers : LuaAnswers} (h : w.Inv env father) (hr : w.clients[i]? = some r)
    (hruns : w.runs i = true) (hasks : w.dynamics.asks env father = true)
    (hi : ∀ d ∈ w.dynamics.subs, i ∉ d.holderWaitHead)
    (hget : w.get env i father answers r = some w') :
    w'.Inv env father ∧ (∀ j n, w.dynamics.Waits j n → w'.dynamics.Waits j n) ∧
      w'.resumed = w.resumed := by
  obtain ⟨⟨ptr, r', s⟩, hstep, hx⟩ := Option.bind_eq_some_iff.mp hget
  cases hx
  have hnot : ∀ n, ¬w.dynamics.Waits i n := fun n ⟨d, hd, _, hid⟩ => hi d hd hid
  have hrun : w.deletions ≠ [] → i ∈ wokens w.deletions := by
    intro hne
    obtain ⟨f, hf⟩ := Option.isSome_iff_exists.mp (List.isSome_head?.mpr hne)
    exact List.mem_filterMap.mpr ⟨f, List.mem_of_head? hf, head_of_runs hruns f hf⟩
  have hbase : w.dynamics.Base env
      (if ptr = .again then returned w.deletions else w.deletions) := by
    split
    next => exact h.base.returned
    next => exact h.base
  have hsub : (wokens (if ptr = .again then returned w.deletions else w.deletions)).Sublist
      (wokens w.deletions) := by
    split
    next => exact wokens_returned
    next => exact .refl _
  have hgone : ptr = .again →
      i ∉ wokens (if ptr = .again then returned w.deletions else w.deletions) := by
    intro hptr
    rw [if_pos hptr]
    exact not_mem_wokens_returned h.woken (head_of_runs hruns)
  have hidle : (if ptr = .again then returned w.deletions else w.deletions) ≠ [] →
      r.entry ≠ some (env.conf father).getConf := by
    intro hne
    refine h.idle i r hr (.inr (hrun ?_))
    rintro hnil
    rw [hnil] at hne
    exact hne (ite_self _)
  generalize (if ptr = .again then returned w.deletions else w.deletions) = fs
    at hbase hsub hgone hidle ⊢
  have hk := phlDynamicGet_keeps hbase h.parked hasks hi hidle hstep
  have hwokens := wokens_begun hk.begun
  have hfree : ∀ j ∈ wokens fs, ∀ n, ¬s.Waits j n := by
    intro j hj n hw
    rcases hk.come j n hw with hw | ⟨rfl, hptr, -⟩
    · exact h.free j (hsub.subset hj) n hw
    · exact hgone hptr hj
  refine ⟨⟨hk.base, hk.parked, ?_, ?_, ?_, h.resumed⟩, hk.stay, rfl⟩
  · refine idle_set h.idle (fun j hji hbusy => ?_) fun hbusy => ?_
    · rcases hbusy with ⟨n, hw⟩ | hj
      · rcases hk.come j n hw with hw | ⟨rfl, -⟩
        · exact .inl ⟨n, hw⟩
        · exact absurd rfl hji
      · exact .inr (hsub.subset (hwokens ▸ hj))
    · rcases hbusy with ⟨n, hw⟩ | hj
      · rcases hk.come i n hw with hw | ⟨-, -, hentry⟩
        · exact absurd hw (hnot n)
        · exact hentry
      · have hj' : i ∈ wokens fs := hwokens ▸ hj
        exact hk.entry (fun hptr => hgone hptr hj') (h.idle i r hr (.inr (hsub.subset hj')))
  · show (wokens (begun s fs)).Nodup
    rw [hwokens]
    exact h.woken.sublist hsub
  · intro j hj
    exact hfree j (hwokens ▸ hj)

/-- Requests leave the lists, and one of them has no Lua thread any more. -/
theorem leave (h : w.Inv env father) (hq : Quietly w.dynamics s) (hr : r.entry = none) :
    WakeWorld.Inv env father { w with dynamics := s, clients := w.clients.set i r } := by
  refine ⟨h.base.quietly hq, h.parked.quietly hq, ?_, h.woken, ?_, h.resumed⟩
  · refine idle_set h.idle (fun j _ hbusy => ?_) fun _ => ?_
    · exact hbusy.imp_left fun ⟨n, hw⟩ => ⟨n, hq.waits hw⟩
    · rw [hr]
      exact nofun
  · intro j hj n hw
    exact h.free j hj n (hq.waits hw)

theorem request (h : w.Inv env father) (defaultPath : Nat) :
    WakeWorld.Inv env father { w with clients := w.clients ++ [newClient defaultPath] } := by
  refine ⟨h.base, h.parked, fun j r hr hbusy => ?_, h.woken, h.free, h.resumed⟩
  by_cases hj : j < w.clients.length
  · rw [List.getElem?_append_left hj] at hr
    exact h.idle j r hr hbusy
  · rw [List.getElem?_append_right (Nat.not_lt.mp hj)] at hr
    have hmem := List.mem_of_getElem? hr
    rw [List.mem_singleton] at hmem
    subst hmem
    exact nofun

/-- A timer runs out when no deletion is going on. -/
theorem timer {d : SubDyn} (h : w.Inv env father) (hd : d ∈ w.dynamics.subs)
    (hdel : d.deleting = false) (hstep : w.timer d = some w') :
    w'.Inv env father ∧ (∀ j n, w.dynamics.Waits j n → w'.dynamics.Waits j n) ∧
      w'.resumed = w.resumed ∧
      (d.isJustHolder = true → w'.deletions = ⟨d.id, none⟩ :: w.deletions) := by
  obtain ⟨s, hdelete, rfl⟩ := Option.map_eq_some_iff.mp hstep
  have hk : s.Base env (begun s w.deletions) ∧
      (begun s w.deletions = w.deletions ∨ ∃ n, begun s w.deletions = ⟨n, none⟩ :: w.deletions) ∧
      s.Parked w.resumed ∧ (∀ j n, s.Waits j n ↔ w.dynamics.Waits j n) ∧
      (d.isJustHolder = true → begun s w.deletions = ⟨d.id, none⟩ :: w.deletions) := by
    rcases h.base.delete (.of_mem hd) hdel hdelete with ⟨-, rfl, hb⟩ | ⟨hholder, hb, hgone⟩
    · have hbegun := hb.begun_cons
      refine ⟨?_, .inr ⟨d.id, hbegun⟩, h.parked.begin d.id, fun j n => waits_begin,
        fun _ => hbegun⟩
      rw [hbegun]
      exact hb
    · have hbegun := hb.begun_eq
      have hno : d.isJustHolder = true → begun s w.deletions = ⟨d.id, none⟩ :: w.deletions := by
        rw [hholder]
        exact nofun
      rcases hgone with ⟨-, htouched⟩ | ⟨-, rfl⟩
      · exact ⟨hbegun.symm ▸ hb, .inl hbegun, h.parked.quietly htouched.quietly, fun j n =>
          ⟨htouched.quietly.waits, htouched.waits⟩, hno⟩
      · refine ⟨hbegun.symm ▸ hb, .inl hbegun, h.parked.remove d.id, fun j n =>
          waits_remove fun b hb hbd => ?_, hno⟩
        rw [h.base.wf.eq_of_id hb hd hbd]
        exact h.parked.nil_of_not_holder hd hholder
  obtain ⟨hbase, hbegun, hparked, hwaits, hframe⟩ := hk
  have hwokens := wokens_begun hbegun
  refine ⟨⟨hbase, hparked, fun j r hr hbusy => h.idle j r hr ?_, ?_, ?_, h.resumed⟩,
    fun j n => (hwaits j n).mpr, rfl, hframe⟩
  · rcases hbusy with ⟨n, hw⟩ | hj
    · exact .inl ⟨n, (hwaits j n).mp hw⟩
    · exact .inr (hwokens ▸ hj)
  · show (wokens (begun s w.deletions)).Nodup
    rw [hwokens]
    exact h.woken
  · intro j hj n hw
    exact h.free j (hwokens ▸ hj) n ((hwaits j n).mp hw)

theorem returns {f : Deletion} {rest : List Deletion} (h : w.Inv env father)
    (hfs : w.deletions = f :: rest) :
    WakeWorld.Inv env father { w with deletions := ⟨f.sub, none⟩ :: rest } := by
  have hreturned : returned w.deletions = ⟨f.sub, none⟩ :: rest := by
    rw [hfs]
    rfl
  rw [← hreturned]
  refine ⟨h.base.returned, h.parked, fun i r hr hbusy => h.idle i r hr ?_,
    h.woken.sublist wokens_returned, fun i hi => h.free i (wokens_returned.subset hi), h.resumed⟩
  exact hbusy.imp_right fun hi => wokens_returned.subset hi

theorem at_deletion {d : SubDyn} {rest : List Deletion} (h : w.Inv env father)
    (hfs : w.deletions = ⟨d.id, none⟩ :: rest) (hd : d ∈ w.dynamics.subs)
    (hnil : d.holderWaitHead = []) :
    WakeWorld.Inv env father { w with
        dynamics.subs := w.dynamics.subs.filter fun b => b.id != d.id
        deletions := rest } ∧
      ∀ j n, Dynamics.Waits { w.dynamics with
        subs := w.dynamics.subs.filter fun b => b.id != d.id } j n ↔ w.dynamics.Waits j n := by
  have hwaits : ∀ j n, Dynamics.Waits { w.dynamics with
      subs := w.dynamics.subs.filter fun b => b.id != d.id } j n ↔ w.dynamics.Waits j n := by
    refine fun j n => waits_remove fun b hb hbd => ?_
    rw [h.base.wf.eq_of_id hb hd hbd]
    exact hnil
  have hwokens : wokens rest = wokens w.deletions := by
    rw [hfs]
    rfl
  have hbase := h.base
  rw [hfs] at hbase
  refine ⟨⟨hbase.pop, h.parked.remove d.id, fun i r hr hbusy => h.idle i r hr ?_, ?_, ?_,
    h.resumed⟩, hwaits⟩
  · rcases hbusy with ⟨n, hw⟩ | hi
    · exact .inl ⟨n, (hwaits i n).mp hw⟩
    · exact .inr (hwokens ▸ hi)
  · show (wokens rest).Nodup
    rw [hwokens]
    exact h.woken
  · intro i hi n hw
    exact h.free i (hwokens ▸ hi) n ((hwaits i n).mp hw)

/-- The innermost deletion runs the request that has waited longest. -/
theorem resumes {d : SubDyn} {rest : List Deletion} {tail : List RequestId}
    (h : w.Inv env father) (hfs : w.deletions = ⟨d.id, none⟩ :: rest) (hd : d ∈ w.dynamics.subs)
    (hwait : d.holderWaitHead = i :: tail) :
    WakeWorld.Inv env father { w with
        dynamics := w.dynamics.update d.id fun e => { e with holderWaitHead := tail }
        deletions := ⟨d.id, some i⟩ :: rest
        resumed := (i, d.id) :: w.resumed } ∧
      ∀ j n, w.dynamics.Waits j n → (j, n) ≠ (i, d.id) →
        (w.dynamics.update d.id fun e => { e with holderWaitHead := tail }).Waits j n := by
  have hdel : d.deleting = true := h.base.deleting_of_frame hfs hd rfl
  have hi : i ∈ d.holderWaitHead := by
    rw [hwait]
    exact List.mem_cons_self
  have hwi : w.dynamics.Waits i d.id := ⟨d, hd, rfl, hi⟩
  have hwokens : wokens rest = wokens w.deletions := by
    rw [hfs]
    rfl
  obtain ⟨hquiet, hparked⟩ := h.parked.woken h.base.wf hd hdel hwait
  refine ⟨⟨?_, hparked, fun j r hr hbusy => h.idle j r hr ?_, ?_, ?_, ?_⟩, ?_⟩
  · refine (h.base.quietly hquiet).congr ?_
    rw [hfs]
    rfl
  · rcases hbusy with ⟨n, hw⟩ | hj
    · exact .inl ⟨n, hquiet.waits hw⟩
    · rcases List.mem_cons.mp hj with rfl | hj
      · exact .inl ⟨d.id, hwi⟩
      · exact .inr (hwokens ▸ hj)
  · have hrest : (wokens rest).Nodup := by
      rw [hwokens]
      exact h.woken
    refine List.nodup_cons.mpr ⟨fun hmem => ?_, hrest⟩
    exact h.free i (hwokens ▸ hmem) d.id hwi
  · intro j hj n hw
    have hw' := hquiet.waits hw
    rcases List.mem_cons.mp hj with rfl | hj
    · obtain ⟨b, hb, rfl, hjb⟩ := hw'
      obtain ⟨b', hb', hid, hjb'⟩ := hw
      have hbd := h.parked.one b hb d hd j hjb hi
      exact ((hparked.resumed j d.id List.mem_cons_self).2 b' hb' (hid.trans hbd)).2 hjb'
    · exact h.free j (hwokens ▸ hj) n hw'
  · refine List.nodup_cons.mpr ⟨fun hmem => ?_, h.resumed⟩
    exact ((h.parked.resumed i d.id hmem).2 d hd rfl).2 hi
  · rintro j n ⟨b, hb, rfl, hj⟩ hne
    refine ⟨_, List.mem_map_of_mem hb, ?_⟩
    by_cases hbd : b.id = d.id
    · rw [if_pos hbd]
      refine ⟨rfl, ?_⟩
      rw [h.base.wf.eq_of_id hb hd hbd, hwait] at hj
      refine (List.mem_cons.mp hj).resolve_left fun hji => hne ?_
      rw [hji, hbd]
    · rw [if_neg hbd]
      exact ⟨rfl, hj⟩

end WakeWorld.Inv

/-- One step: who waits stays or is woken, and only deletions wake. -/
theorem wakeStep_keeps {a : WakeAct} (h : w.Inv env father) (hok : AsksOnce father w a)
    (hstep : wakeStep env w a = some w') :
    w'.Inv env father ∧ Stays w w' a ∧
      (w'.resumed = w.resumed ∨ ∃ i n, a = .wake ∧ w.dynamics.Waits i n ∧
        w'.deletions.head? = some ⟨n, some i⟩ ∧ w'.resumed = (i, n) :: w.resumed) := by
  cases a with
  | tick ms =>
    cases hstep
    exact ⟨⟨h.base.tick ms, h.parked.tick ms, h.idle, h.woken, h.free, h.resumed⟩,
      fun i n hw => .inl hw, .inl rfl⟩
  | request defaultPath =>
    cases hstep
    exact ⟨h.request defaultPath, fun i n hw => .inl hw, .inl rfl⟩
  | get i c answers =>
    obtain ⟨r, hr, -, hget⟩ := withClient_eq hstep
    obtain ⟨hcan, hget⟩ := Option.ite_none_right_eq_some.mp hget
    rw [Bool.and_eq_true] at hcan
    obtain ⟨rfl, hi⟩ := hok
    obtain ⟨hinv, hstay, hresumed⟩ := h.get hr hcan.1 hcan.2 hi hget
    exact ⟨hinv, fun j n hw => .inl (hstay j n hw), .inl hresumed⟩
  | otherLua i =>
    obtain ⟨r, hr, -, hlua⟩ := withClient_eq hstep
    obtain ⟨_, ⟨⟩⟩ := Option.ite_none_right_eq_some.mp hlua
    exact ⟨h.leave (Touched.refl _).quietly rfl, fun j n hw => .inl hw, .inl rfl⟩
  | redirect i =>
    obtain ⟨r, hr, -, ⟨⟩⟩ := withClient_eq hstep
    refine ⟨h.leave (quietly_unlink i) rfl, fun j n hw => ?_, .inl rfl⟩
    exact (waits_unlink hw).imp_right fun hj => .inr (.inl (congrArg WakeAct.redirect hj))
  | close i =>
    obtain ⟨r, hr, -, ⟨⟩⟩ := withClient_eq hstep
    refine ⟨h.leave (quietly_unlink i) rfl, fun j n hw => ?_, .inl rfl⟩
    exact (waits_unlink hw).imp_right fun hj => .inl (congrArg WakeAct.close hj)
  | timer n =>
    unfold wakeStep at hstep
    dsimp only at hstep
    split at hstep
    next => cases hstep
    next d hfind =>
      obtain ⟨⟨-, -, hdel⟩, htimer⟩ := Option.ite_none_right_eq_some.mp hstep
      obtain ⟨hinv, hstay, hresumed, -⟩ := h.timer (find_mem hfind).1 hdel htimer
      exact ⟨hinv, fun j n hw => .inl (hstay j n hw), .inl hresumed⟩
  | wake =>
    unfold wakeStep at hstep
    dsimp only at hstep
    split at hstep
    next n rest hfs =>
      split at hstep
      next => cases hstep
      next d hfind =>
        obtain ⟨hd, rfl⟩ := find_mem hfind
        unfold WakeWorld.wake phlDynamicPopWaiting at hstep
        cases hwait : d.holderWaitHead with
        | nil =>
          rw [hwait] at hstep
          obtain ⟨hinv, hwaits⟩ := h.at_deletion hfs hd hwait
          have hdestroy := h.base.destroys hd (h.base.deleting_of_frame hfs hd rfl)
          dsimp only at hstep
          rw [hdestroy] at hstep
          cases hstep
          exact ⟨hinv, fun j n hw => .inl ((hwaits j n).mpr hw), .inl rfl⟩
        | cons i tail =>
          rw [hwait] at hstep
          cases hstep
          obtain ⟨hinv, hstay⟩ := h.resumes hfs hd hwait
          have hwi : w.dynamics.Waits i d.id := ⟨d, hd, rfl, hwait ▸ List.mem_cons_self⟩
          refine ⟨hinv, fun j n hw => ?_, .inr ⟨i, d.id, rfl, hwi, rfl, rfl⟩⟩
          by_cases hji : (j, n) = (i, d.id)
          · obtain ⟨rfl, rfl⟩ := Prod.mk.inj hji
            exact .inr (.inr (.inr ⟨rfl, rfl, rfl⟩))
          · exact .inl (hstay j n hw hji)
    next => cases hstep
  | returns =>
    unfold wakeStep at hstep
    dsimp only at hstep
    split at hstep
    next n i rest hfs =>
      cases hstep
      exact ⟨h.returns hfs, fun j n hw => .inl hw, .inl rfl⟩
    next => cases hstep

theorem start_inv (h : WakeStart env w) : w.Inv env father := by
  have hno : ∀ i n, ¬w.dynamics.Waits i n := by
    rintro i n ⟨d, hd, -, hi⟩
    rw [(h.containers d hd).2.1] at hi
    cases hi
  have hdel : ∀ d ∈ w.dynamics.subs, d.deleting = true → False := by
    intro d hd hdel
    have hholder := h.wf.deleting d hd hdel
    rw [(h.containers d hd).1] at hholder
    cases hholder
  have hnodeletion : w.deletions.map (·.sub) = [] := by
    rw [h.deletions]
    rfl
  refine ⟨⟨h.wf, fun d hd _ => (h.containers d hd).2.2.1, ?_, ?_, ?_, ?_, ?_⟩,
    ⟨?_, ?_, ?_, ?_, ?_⟩, ?_, ?_, ?_, ?_⟩
  · exact fun e he m hm => ⟨(h.containers e he).2.2.2 m hm, fun d hd _ => (h.containers d hd).1⟩
  · exact fun d hd hd' => (hdel d hd hd').elim
  · exact fun d hd hd' => (hdel d hd hd').elim
  · rw [hnodeletion]
    exact nofun
  · rw [hnodeletion]
    exact List.nodup_nil
  · exact fun d hd hne => absurd (h.containers d hd).2.1 hne
  · intro d hd
    rw [(h.containers d hd).2.1]
    exact List.nodup_nil
  · exact fun d hd e he i hi _ => absurd ⟨d, hd, rfl, hi⟩ (hno i d.id)
  · intro d hd hholder
    rw [(h.containers d hd).1] at hholder
    cases hholder
  · rw [h.resumed]
    exact nofun
  · rw [h.clients]
    exact nofun
  · rw [wokens, h.deletions]
    exact List.nodup_nil
  · rw [wokens, h.deletions]
    exact nofun
  · rw [h.resumed]
    exact List.nodup_nil

theorem wake_inv (h : Reachable (WakeStart env) (ActStep (wakeStep env) (AsksOnce father)) w) :
    w.Inv env father :=
  h.invariant (fun _ => start_inv) fun _ _ hw ⟨_, hok, hstep⟩ => (wakeStep_keeps hw hok hstep).1

/-- Those who wait wait once and for one holder; its timer is set, or it is in deletion; what is
due is done; and none waits again for a holder that has run it. -/
structure WakesOnce (env : DynamicEnv) (w : WakeWorld) : Prop where
  once : ∀ d ∈ w.dynamics.subs, d.holderWaitHead.Nodup
  one : ∀ i m n, w.dynamics.Waits i m → w.dynamics.Waits i n → m = n
  holder : ∀ d ∈ w.dynamics.subs, d.holderWaitHead ≠ [] → d.isJustHolder = true
  armed : ∀ d ∈ w.dynamics.subs, d.isJustHolder = true → d.deleting = false →
    d.timer ≤ w.dynamics.now + d.wait
  fires : ∀ d ∈ w.dynamics.subs, d.isJustHolder = true → d.deleting = false →
    w.deletions = [] → d.timer ≤ w.dynamics.now →
    ∃ w', wakeStep env w (.timer d.id) = some w' ∧ w'.deletions = [⟨d.id, none⟩]
  deleting : ∀ d ∈ w.dynamics.subs, d.deleting = true → d.id ∈ w.deletions.map (·.sub)
  goesOn : ∀ n rest, w.deletions = ⟨n, none⟩ :: rest → ∃ w', wakeStep env w .wake = some w' ∧
    ((∃ i, w.dynamics.Waits i n ∧ w'.deletions = ⟨n, some i⟩ :: rest) ∨
      (∀ i, ¬w.dynamics.Waits i n) ∧ w'.deletions = rest ∧ ∀ d ∈ w'.dynamics.subs, d.id ≠ n)
  resumed : w.resumed.Nodup
  notAgain : ∀ i n, (i, n) ∈ w.resumed → ¬w.dynamics.Waits i n

namespace WakeWorld.Inv

theorem fires {d : SubDyn} (h : w.Inv env father) (hd : d ∈ w.dynamics.subs)
    (hholder : d.isJustHolder = true) (hdel : d.deleting = false) (hfs : w.deletions = [])
    (hdue : d.timer ≤ w.dynamics.now) :
    ∃ w', wakeStep env w (.timer d.id) = some w' ∧ w'.deletions = [⟨d.id, none⟩] := by
  have hdelete : phlDynamicDelete d w.dynamics = some (w.dynamics.update d.id begins) := by
    unfold phlDynamicDelete
    rw [if_pos hholder]
    rfl
  have htimer : w.timer d = some { w with
      dynamics := w.dynamics.update d.id begins
      deletions := begun (w.dynamics.update d.id begins) w.deletions } := by
    rw [WakeWorld.timer, hdelete]
    rfl
  have hstep : wakeStep env w (.timer d.id) = w.timer d := by
    unfold wakeStep
    dsimp only
    rw [find_of_mem h.base.wf hd]
    dsimp only
    rw [if_pos ⟨hfs, hdue, hdel⟩]
  refine ⟨_, hstep.trans htimer, ?_⟩
  rw [(h.timer hd hdel htimer).2.2.2 hholder, hfs]

theorem goesOn {rest : List Deletion} (h : w.Inv env father)
    (hfs : w.deletions = ⟨n, none⟩ :: rest) : ∃ w', wakeStep env w .wake = some w' ∧
      ((∃ i, w.dynamics.Waits i n ∧ w'.deletions = ⟨n, some i⟩ :: rest) ∨
        (∀ i, ¬w.dynamics.Waits i n) ∧ w'.deletions = rest ∧
          ∀ d ∈ w'.dynamics.subs, d.id ≠ n) := by
  have hn : n ∈ w.deletions.map (·.sub) := by
    rw [hfs]
    exact List.mem_cons_self
  obtain ⟨d, hd, rfl, hdel⟩ := h.base.frames n hn
  have hstep : wakeStep env w .wake = w.wake d rest := by
    unfold wakeStep
    dsimp only
    rw [hfs]
    dsimp only
    rw [find_of_mem h.base.wf hd]
  rw [hstep]
  unfold WakeWorld.wake phlDynamicPopWaiting
  cases hwait : d.holderWaitHead with
  | nil =>
    dsimp only
    rw [h.base.destroys hd hdel]
    refine ⟨_, rfl, .inr ⟨?_, rfl, ?_⟩⟩
    · rintro i ⟨b, hb, hid, hi⟩
      rw [h.base.wf.eq_of_id hb hd hid, hwait] at hi
      cases hi
    · intro b hb
      have hne := (List.mem_filter.mp hb).2
      rwa [bne_iff_ne] at hne
  | cons i tail =>
    refine ⟨_, rfl, .inl ⟨i, ⟨d, hd, rfl, ?_⟩, rfl⟩⟩
    rw [hwait]
    exact List.mem_cons_self

theorem wakesOnce (h : w.Inv env father) : WakesOnce env w where
  once := h.parked.once
  one := by
    rintro i m n ⟨d, hd, rfl, hi⟩ ⟨e, he, rfl, hi'⟩
    exact h.parked.one d hd e he i hi hi'
  holder := h.parked.holder
  armed := h.parked.armed
  fires := fun _ hd hholder hdel hfs hdue => h.fires hd hholder hdel hfs hdue
  deleting := h.base.framed
  goesOn := fun _ _ hfs => h.goesOn hfs
  resumed := h.resumed
  notAgain := by
    rintro i n hin ⟨d, hd, hid, hi⟩
    exact ((h.parked.resumed i n hin).2 d hd hid).2 hi

end WakeWorld.Inv

/-- As long as no request asks while it waits, every one that waits for a holder of `father` stays
there until it is closed, redirected or run by that holder's deletion, and is run so once. -/
theorem waits_until_woken
    (h : Reachable (WakeStart env) (ActStep (wakeStep env) (AsksOnce father)) w) :
    WakesOnce env w ∧ ∀ a w', AsksOnce father w a → wakeStep env w a = some w' →
      Stays w w' a ∧ (w'.resumed = w.resumed ∨ ∃ i n, a = .wake ∧ w.dynamics.Waits i n ∧
        w'.deletions.head? = some ⟨n, some i⟩ ∧ w'.resumed = (i, n) :: w.resumed) := by
  have hinv := wake_inv h
  exact ⟨hinv.wakesOnce, fun a w' hok hstep => (wakeStep_keeps hinv hok hstep).2⟩

end Steps

section Runs

theorem start_noWaiting (env : DynamicEnv) : WakeStart env noWaiting :=
  ⟨rfl, rfl, rfl, ⟨nofun, List.nodup_nil, nofun, nofun⟩, nofun⟩

def checkAsksOnce (father : ConfId) (w : WakeWorld) : WakeAct → Bool
  | .get i c _ => decide (c = father) && w.dynamics.subs.all fun d => decide (i ∉ d.holderWaitHead)
  | _ => true

theorem asksOnce_of_check {father : ConfId} {w : WakeWorld} {a : WakeAct}
    (h : checkAsksOnce father w a = true) : AsksOnce father w a := by
  cases a with
  | get i c answers =>
    simp only [checkAsksOnce, Bool.and_eq_true, decide_eq_true_iff, List.all_eq_true] at h
    exact h
  | _ => trivial

/-- A request waits for the configuration that another one is getting. -/
theorem waits_until_woken_got : ∃ w, w.resumed = [(1, 0)] ∧ WakesOnce dynamicPath w ∧
    ∀ a w', AsksOnce (.root 1) w a → wakeStep dynamicPath w a = some w' →
      Stays w w' a ∧ (w'.resumed = w.resumed ∨ ∃ i n, a = .wake ∧ w.dynamics.Waits i n ∧
        w'.deletions.head? = some ⟨n, some i⟩ ∧ w'.resumed = (i, n) :: w.resumed) := by
  let acts : List WakeAct := [.request 0, .request 0, .get 0 (.root 1) awaitConf,
    .get 1 (.root 1) awaitConf, .get 0 (.root 1) (gotConf "x"), .wake]
  have hrun : ((runActs (wakeStep dynamicPath) acts noWaiting).map (·.resumed)) =
      some [(1, 0)] := by
    decide
  obtain ⟨w, hw, hresumed⟩ := Option.map_eq_some_iff.mp hrun
  have hmeet : ActsMeet (wakeStep dynamicPath) (AsksOnce (.root 1)) acts noWaiting :=
    actsMeet_of_check (fun _ _ => asksOnce_of_check) (by decide)
  have hreach := (Reachable.start (start_noWaiting dynamicPath)).runActs hmeet hw
  exact ⟨w, hresumed, waits_until_woken hreach⟩

/-- More comes from the client of a request that waits. -/
theorem waits_twice : ∃ w,
    Reachable (WakeStart dynamicPath) (ActStep (wakeStep dynamicPath) fun _ _ => True) w ∧
      ∃ d ∈ w.dynamics.subs, d.holderWaitHead = [1, 1] := by
  let acts : List WakeAct := [.request 0, .request 0, .get 0 (.root 1) awaitConf,
    .get 1 (.root 1) awaitConf, .get 1 (.root 1) awaitConf]
  have hrun : ((runActs (wakeStep dynamicPath) acts noWaiting).map fun w =>
      decide (∃ d ∈ w.dynamics.subs, d.holderWaitHead = [1, 1])) = some true := by
    decide
  obtain ⟨w, hw, hwaits⟩ := Option.map_eq_some_iff.mp hrun
  exact ⟨w, (Reachable.start (start_noWaiting dynamicPath)).runActs
    (actsMeet_of_forall acts noWaiting fun _ _ => trivial) hw, of_decide_eq_true hwaits⟩

end Runs

end Phorklift
