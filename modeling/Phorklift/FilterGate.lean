import Mathlib.Data.List.Induction
import Phorklift.RequestFrame

/-! Content handlers run behind the `process_headers` filters of the path that was located. -/

namespace Phorklift

open Transition

variable {W V : Type}

/-- Where a request stands with the `process_headers` filters of its path. -/
inductive Gate
  | unselected
  /-- the first `i` filters have returned `PHL_OK` -/
  | filtering (p : PathId) (i : Nat)
  /-- a filter has returned `PHL_BREAK` -/
  | passed (p : PathId)
  /-- a filter has returned an error or a status code -/
  | refused (p : PathId)
  deriving DecidableEq

/-- The events allowed at a gate, where path `p` has `n p` filters. A filter is called only when
all before it have returned `PHL_OK`, and again only after `PHL_AGAIN`. -/
def gateNext (n : PathId → Nat) : Gate → Event V → Option Gate
  | _, .redirected => some .unselected
  | .unselected, .located p => some (.filtering p 0)
  | _, .located _ => none
  | .filtering p i, .filter .processHeaders j ret =>
    if j = i ∧ i < n p then
      some (if ret = phlOk then .filtering p (i + 1)
        else if ret = phlBreak then .passed p
        else if ret = phlAgain then .filtering p i
        else .refused p)
    else none
  | _, .filter .processHeaders _ _ => none
  | .filtering p i, .content _ q _ => if q = p ∧ i = n p then some (.filtering p i) else none
  | .passed p, .content _ q _ => if q = p then some (.passed p) else none
  | _, .content .. => none
  | g, _ => some g

/-- The gate of a request, `none` once an event was not allowed. -/
def gate (env : Env W V) (trace : List (Event V)) : Option Gate :=
  monitor (gateNext fun p => ((env.path p).filters .processHeaders).length) .unselected trace

/-- The state of an open request agrees with its gate. -/
inductive GateOk (n : PathId → Nat) (g : Gate) (r : Request) : Prop
  | broken : r.isBroken = true → 6 ≤ r.state.index → GateOk n g r
  | locating : r.isBroken = false → r.state.index ≤ 2 → g = .unselected →
      r.filterIndexs .processHeaders = 0 → GateOk n g r
  | filtering (p : PathId) : r.isBroken = false →
      r.state = .receiveBodySync ∨ r.state = .processHeaders → r.confPath = some p →
      g = .filtering p (r.filterIndexs .processHeaders) →
      r.filterIndexs .processHeaders ≤ n p → GateOk n g r
  | served (p : PathId) : r.isBroken = false → 5 ≤ r.state.index → r.confPath = some p →
      g = .passed p ∨ g = .filtering p (n p) → GateOk n g r

theorem GateOk.set {n : PathId → Nat} {g : Gate} {r : Request} (h : GateOk n g r) (req : Req)
    (resp : Resp) : GateOk n g { r with req := req, resp := resp } := by
  cases h with
  | broken hb h6 => exact .broken hb h6
  | locating hb hs hu hx => exact .locating hb hs hu hx
  | filtering p hb hs hp hgp hle => exact .filtering p hb hs hp hgp hle
  | served p hb h5 hp hgp => exact .served p hb h5 hp hgp

def GateInv (env : Env W V) (w : World W V) : Prop :=
  ∃ g, gate env w.trace = some g ∧ (w.r.closed = true ∨
    GateOk (fun p => ((env.path p).filters .processHeaders).length) g w.r)

/-- What a step's return value makes of the request, short of an error. -/
def GateAfter (n : PathId → Nat) (g : Gate) (r : Request) : Option Int → Prop
  | none => GateOk n g r
  | some ret =>
    (ret = phlOk ∨ ret = phlBreak → GateOk n g { r with state := r.state.next }) ∧
    (ret = phlAgain → GateOk n g r)

theorem gate_append {env : Env W V} {u v : List (Event V)} {g : Gate}
    (h : gate env u = some g) (fixed : ∀ e ∈ v, gateNext (fun p =>
      ((env.path p).filters .processHeaders).length) g e = some g) : gate env (u ++ v) = some g :=
  monitor_append_of_fixed h fixed

theorem gate_append_env {env : Env W V} {u : List (Event V)} {g : Gate} (h : gate env u = some g)
    (vs : List V) : gate env (u ++ vs.map .env) = some g := by
  refine gate_append h fun e he => ?_
  obtain ⟨v, -, rfl⟩ := List.mem_map.mp he
  cases g <;> rfl

theorem gate_snoc {env : Env W V} {u : List (Event V)} {g : Gate} {e : Event V}
    (h : gate env u = some g) : gate env (u ++ [e]) =
      gateNext (fun p => ((env.path p).filters .processHeaders).length) g e :=
  monitor_snoc h

/-- Events that no gate looks at. -/
theorem gateNext_of_ofStep {n : PathId → Nat} {r : Request} {p : PathId} {g : Gate} {e : Event V}
    (he : e.ofStep r p) (hl : r.state ≠ .locateConfPath) (hf : r.state ≠ .processHeaders)
    (hc : r.isBroken = false → 5 ≤ r.state.index → g = .passed p ∨ g = .filtering p (n p)) :
    gateNext n g e = some g := by
  cases e with
  | located q => exact absurd he hl
  | filter k i ret =>
    cases k with
    | processHeaders => exact absurd he hf
    | processBody => cases g <;> rfl
    | responseHeaders => cases g <;> rfl
  | content k q ret =>
    obtain ⟨hs, rfl, hb⟩ := he
    rcases hb with rfl | hb
    · exact absurd hs hf
    · have h5 : 5 ≤ r.state.index := by
        cases k with
        | processHeaders => exact absurd hs hf
        | processBody => simp [hs, ContentKind.state, RequestState.index]
        | responseHeaders => simp [hs, ContentKind.state, RequestState.index]
        | responseBody => simp [hs, ContentKind.state, RequestState.index]
      rcases hc hb h5 with rfl | rfl <;> simp [gateNext]
  | redirected => exact absurd he id
  | broken code => exact absurd he id
  | headers code m hs => cases g <;> rfl
  | source data => cases g <;> rfl
  | body data isLast => cases g <;> rfl
  | endStream => cases g <;> rfl
  | closed => cases g <;> rfl
  | env v => cases g <;> rfl

theorem RequestState.index_next_le (s : RequestState) : s.index ≤ s.next.index := by
  cases s <;> simp [index, next]

/-- The filter loop K the gate: what it returns says where the gate is. -/
theorem gate_filterRun (env : Env W V) (p : PathId) (modules : List (Handler W V))
    {w : World W V}
    (hn : w.r.filterIndexs .processHeaders + modules.length =
      ((env.path p).filters .processHeaders).length)
    (hg : gate env w.trace = some (.filtering p (w.r.filterIndexs .processHeaders)))
    (hp : (phlModuleFilterRun env .processHeaders modules w).2.r.confPath ≠ none) :
    ∃ g, gate env (phlModuleFilterRun env .processHeaders modules w).2.trace = some g ∧
      ((phlModuleFilterRun env .processHeaders modules w).1 = phlOk →
        g = .filtering p ((env.path p).filters .processHeaders).length ∧
        (phlModuleFilterRun env .processHeaders modules w).2.r.filterIndexs .processHeaders =
          ((env.path p).filters .processHeaders).length) ∧
      ((phlModuleFilterRun env .processHeaders modules w).1 = phlBreak → g = .passed p) ∧
      ((phlModuleFilterRun env .processHeaders modules w).1 = phlAgain →
        g = .filtering p
          ((phlModuleFilterRun env .processHeaders modules w).2.r.filterIndexs .processHeaders) ∧
        (phlModuleFilterRun env .processHeaders modules w).2.r.filterIndexs .processHeaders ≤
          ((env.path p).filters .processHeaders).length) := by
  induction modules generalizing w with
  | nil =>
    have hlen : w.r.filterIndexs .processHeaders =
      ((env.path p).filters .processHeaders).length := by simpa using hn
    refine ⟨_, hg, fun _ => ⟨by rw [hlen], hlen⟩, fun h => ?_, fun h => ?_⟩
    · exact absurd (show phlOk = phlBreak from h) (by decide)
    · exact absurd (show phlOk = phlAgain from h) (by decide)
  | cons m modules ih =>
    have hlt : w.r.filterIndexs .processHeaders <
      ((env.path p).filters .processHeaders).length := by
      rw [List.length_cons] at hn
      omega
    have hcases := callHandler_cases (P := fun _ => True) (L := False) (K := fun _ => False) env m
      (.filter .processHeaders (w.r.filterIndexs .processHeaders)) (fun _ => trivial)
      (fun _ => trivial) w
    unfold phlModuleFilterRun at hp ⊢
    dsimp only at hp ⊢
    generalize callHandler env m (.filter .processHeaders (w.r.filterIndexs .processHeaders)) w = x
      at hcases hp ⊢
    obtain ⟨ret, w1⟩ := x
    dsimp only at hcases hp ⊢
    rcases hcases with ⟨hk, vs, ht⟩ | ⟨hd, rfl⟩
    · have hidx : w1.r.filterIndexs .processHeaders = w.r.filterIndexs .processHeaders :=
        hk.filterIndexs _ id
      have hg1 : gate env w1.trace = some (if ret = phlOk then
          .filtering p (w.r.filterIndexs .processHeaders + 1)
        else if ret = phlBreak then .passed p
        else if ret = phlAgain then .filtering p (w.r.filterIndexs .processHeaders)
        else .refused p) := by
        rw [ht, gate_snoc (gate_append_env hg vs)]
        simp [gateNext, hlt]
      by_cases hok : ret = phlOk
      · subst hok
        simp only [ne_eq, not_true_eq_false, if_false] at hp ⊢
        refine ih ?_ ?_ hp
        · simp only [Function.update_self]
          rw [List.length_cons] at hn
          omega
        · simpa using hg1
      · simp only [ne_eq, hok, not_false_eq_true, if_true] at hp ⊢
        refine ⟨_, hg1, fun h => absurd h id, fun h => ?_, fun h => ?_⟩
        · simp [h]
        · simp [h, hidx, hlt.le]
    · simp only [ne_eq, show phlBreak ≠ phlOk by decide, not_false_eq_true, if_true] at hp
      exact absurd hd.confPath hp

theorem gate_processHeaders {env : Env W V} {p : PathId} {w w1 : World W V} {ret : Int}
    (hi : w.r.filterIndexs .processHeaders ≤ ((env.path p).filters .processHeaders).length)
    (hg : gate env w.trace = some (.filtering p (w.r.filterIndexs .processHeaders)))
    (h : phlRequestProcessHeaders env p w = some (ret, w1)) (hp : w1.r.confPath ≠ none) :
    ∃ g, gate env w1.trace = some g ∧
      (ret = phlOk ∨ ret = phlBreak →
        g = .passed p ∨ g = .filtering p ((env.path p).filters .processHeaders).length) ∧
      (ret = phlAgain → g = .filtering p (w1.r.filterIndexs .processHeaders) ∧
        w1.r.filterIndexs .processHeaders ≤ ((env.path p).filters .processHeaders).length) := by
  have hrun := gate_filterRun env p
    (((env.path p).filters .processHeaders).drop (w.r.filterIndexs .processHeaders)) (w := w)
    (by rw [List.length_drop]; omega) hg
  have hdef : phlModuleFilterRun env .processHeaders
      (((env.path p).filters .processHeaders).drop (w.r.filterIndexs .processHeaders)) w =
    phlModuleFilter env p .processHeaders w := rfl
  rw [hdef] at hrun
  unfold phlRequestProcessHeaders at h
  dsimp only at h
  generalize phlModuleFilter env p .processHeaders w = x at h hrun
  obtain ⟨ret0, w0⟩ := x
  dsimp only at h hrun
  split at h
  next hne =>
    obtain ⟨rfl, rfl⟩ := Prod.mk.inj (Option.some.inj h)
    obtain ⟨g, hg1, -, hbreak, hagain⟩ := hrun hp
    refine ⟨g, hg1, ?_, hagain⟩
    rintro (hok | hbr)
    · exact absurd hok hne
    · exact .inl (hbreak hbr)
  next hok =>
    simp only [ne_eq, Decidable.not_not] at hok
    obtain ⟨content, -, h⟩ := Option.bind_eq_some_iff.mp h
    split at h
    next =>
      cases h
      obtain ⟨g, hg1, hall, -, -⟩ := hrun hp
      exact ⟨g, hg1, fun _ => .inr (hall hok).1,
        fun ha => absurd (show phlOk = phlAgain from ha) (by decide)⟩
    next f _ =>
      have hcases := callHandler_cases (P := fun _ => True) (L := False) (K := fun _ => False) env f
        (.content .processHeaders p) (fun _ => trivial) (fun _ => trivial) w0
      rw [Option.some.inj h] at hcases
      rcases hcases with ⟨hk, vs, ht⟩ | ⟨hd, -⟩
      · obtain ⟨g, hg1, hall, -, -⟩ := hrun (by rw [← hk.confPath id]; exact hp)
        obtain ⟨rfl, hidx⟩ := hall hok
        refine ⟨_, ?_, fun _ => .inr rfl, fun _ => ⟨?_, ?_⟩⟩
        · rw [ht, gate_snoc (gate_append_env hg1 vs)]
          simp [gateNext]
        · rw [hk.filterIndexs _ id, hidx]
        · exact le_of_eq ((hk.filterIndexs _ id).trans hidx)
      · exact absurd hd.confPath hp

/-- Only a step that returns `PHL_OK` logs the path it located. -/
theorem phlRequestLocateConfPath_cases {env : Env W V} {p : PathId} {w w1 : World W V} {ret : Int}
    (h : phlRequestLocateConfPath env p w = some (ret, w1)) :
    (ret ≠ phlOk ∧ ret ≠ phlBreak ∧ ∃ vs : List V, w1.trace = w.trace ++ vs.map .env) ∨
    (ret = phlOk ∧ ∃ q, w1.r.confPath = some q ∧
      ∃ vs : List V, w1.trace = w.trace ++ vs.map .env ++ [.located q]) := by
  have hget : ∀ (q : PathId) (v : World W V), phlRequestDynamicGet env q v = (ret, w1) →
      v.trace = w.trace →
      (ret ≠ phlOk ∧ ret ≠ phlBreak ∧ ∃ vs : List V, w1.trace = w.trace ++ vs.map .env) ∨
      (ret = phlOk ∧ ∃ q, w1.r.confPath = some q ∧
        ∃ vs : List V, w1.trace = w.trace ++ vs.map .env ++ [.located q]) := by
    intro q v hq ht
    unfold phlRequestDynamicGet at hq
    dsimp only at hq
    split at hq
    next hne =>
      obtain ⟨rfl, rfl⟩ := Prod.mk.inj hq
      refine .inl ⟨?_, ?_, (env.dynamicGet q v.r v.env).emit, by simp [ht]⟩
      · cases hr : (env.dynamicGet q v.r v.env).ret <;> simp_all [DynamicRet.toRet]
      · cases hr : (env.dynamicGet q v.r v.env).ret <;> simp_all [DynamicRet.toRet]
    next =>
      split at hq
      next =>
        obtain ⟨rfl, rfl⟩ := Prod.mk.inj hq
        exact .inl ⟨by decide, by decide, (env.dynamicGet q v.r v.env).emit, by simp [ht]⟩
      next =>
        obtain ⟨rfl, rfl⟩ := Prod.mk.inj hq
        exact .inr ⟨rfl, _, rfl, (env.dynamicGet q v.r v.env).emit, by simp [ht]⟩
  obtain ⟨host, -, h⟩ := Option.bind_eq_some_iff.mp h
  split at h
  next => exact hget p w (Option.some.inj h) rfl
  next =>
    split at h
    next => cases h; exact .inl ⟨by decide, by decide, [], by simp⟩
    next =>
      split at h
      next => cases h; exact .inl ⟨by decide, by decide, [], by simp⟩
      next q _ => exact hget q _ (Option.some.inj h) rfl

/-- A step of a state that the gate does not look at. -/
theorem gate_kept {env : Env W V} {p : PathId} {w w1 : World W V} {L : Prop}
    {K : FilterKind → Prop} {g : Gate} (hk : Kept (Event.ofStep w.r p) L K w w1)
    (hg : gate env w.trace = some g) (hl : w.r.state ≠ .locateConfPath)
    (hf : w.r.state ≠ .processHeaders) (hc : w.r.isBroken = false → 5 ≤ w.r.state.index →
      g = .passed p ∨ g = .filtering p ((env.path p).filters .processHeaders).length) :
    gate env w1.trace = some g := by
  obtain ⟨es, ht, hes⟩ := hk.trace
  rw [ht]
  exact gate_append hg fun e he => gateNext_of_ofStep (hes e he) hl hf hc

/-- One step of an open request keeps to the gate. -/
theorem gate_step {env : Env W V} {p : PathId} {w w1 : World W V} {ret : Option Int} {g : Gate}
    (hg : gate env w.trace = some g)
    (hi : GateOk (fun p => ((env.path p).filters .processHeaders).length) g w.r)
    (hd : w.r.state ≠ .done) (hp : w.r.confPath = some p)
    (h : phlRequestStep env p w = some (ret, w1)) (hp1 : ret ≠ none → w1.r.confPath ≠ none) :
    ∃ g1, gate env w1.trace = some g1 ∧
      GateAfter (fun p => ((env.path p).filters .processHeaders).length) g1 w1.r ret := by
  have hk := phlRequestStep_kept h hp1
  cases hi with
  | broken hb h6 =>
    have hkept : gate env w1.trace = some g := by
      refine gate_kept hk hg ?_ ?_ fun hn => by rw [hb] at hn; cases hn
      · intro hs; simp [hs, RequestState.index] at h6
      · intro hs; simp [hs, RequestState.index] at h6
    refine ⟨g, hkept, ?_⟩
    have hb1 : w1.r.isBroken = true := hk.isBroken.trans hb
    have h61 : 6 ≤ w1.r.state.index := by rw [hk.state]; exact h6
    cases ret with
    | none => exact .broken hb1 h61
    | some n =>
      exact ⟨fun _ => .broken hb1 (h61.trans (RequestState.index_next_le _)),
        fun _ => .broken hb1 h61⟩
  | locating hb h2 hu hx =>
    subst hu
    have hb1 : w1.r.isBroken = false := hk.isBroken.trans hb
    by_cases hl : w.r.state = .locateConfPath
    · simp only [phlRequestStep, hl] at h
      obtain ⟨⟨n, w2⟩, hx2, he⟩ := Option.map_eq_some_iff.mp h
      cases he
      have hx1 : w2.r.filterIndexs .processHeaders = 0 := by
        rw [hk.filterIndexs _ (by simp [hl, FilterKind.state]), hx]
      rcases phlRequestLocateConfPath_cases hx2 with ⟨hno, hnb, vs, ht'⟩ | ⟨rfl, q, hq, vs, ht'⟩
      · refine ⟨.unselected, by rw [ht']; exact gate_append_env hg vs, fun hn => ?_, fun _ => ?_⟩
        · rcases hn with hn | hn
          · exact absurd hn hno
          · exact absurd hn hnb
        · exact .locating hb1 (by rw [hk.state]; exact h2) rfl hx1
      · have hs2 : w2.r.state = .locateConfPath := hk.state.trans hl
        refine ⟨.filtering q 0, ?_, fun _ => ?_,
          fun ha => absurd (show phlOk = phlAgain from ha) (by decide)⟩
        · rw [ht', gate_snoc (gate_append_env hg vs)]
          rfl
        · exact .filtering q hb1 (.inl (by simp [hs2, RequestState.next])) hq
            (by rw [hx1]) (by rw [hx1]; exact Nat.zero_le _)
    · have hf : w.r.state ≠ .processHeaders := by
        intro hs; simp [hs, RequestState.index] at h2
      have hkept := gate_kept hk hg hl hf fun _ h5 => by omega
      have hx1 : w1.r.filterIndexs .processHeaders = 0 := by
        rw [hk.filterIndexs .processHeaders fun e => hf e.symm, hx]
      have hnext : w1.r.state.next.index ≤ 2 := by
        rw [hk.state]
        cases hs : w.r.state <;> simp_all [RequestState.index, RequestState.next]
      refine ⟨.unselected, hkept, ?_⟩
      cases ret with
      | none => exact .locating hb1 (by rw [hk.state]; exact h2) rfl hx1
      | some n =>
        exact ⟨fun _ => .locating hb1 hnext rfl hx1,
          fun _ => .locating hb1 (by rw [hk.state]; exact h2) rfl hx1⟩
  | filtering q hb hs hq hgq hle =>
    have hb1 : w1.r.isBroken = false := hk.isBroken.trans hb
    have hqp : q = p := Option.some.inj (hq.symm.trans hp)
    subst hqp
    have hq1 : w1.r.confPath = some q := by
      rw [hk.confPath (by rcases hs with hs | hs <;> simp [hs]), hq]
    rcases hs with hs | hs
    · have hkept := gate_kept hk hg (by simp [hs]) (by simp [hs]) fun _ h5 => by
        simp [hs, RequestState.index] at h5
      have hx1 : w1.r.filterIndexs .processHeaders = w.r.filterIndexs .processHeaders :=
        hk.filterIndexs _ (by simp [hs, FilterKind.state])
      have hle1 : w1.r.filterIndexs .processHeaders ≤
          ((env.path q).filters .processHeaders).length := by rw [hx1]; exact hle
      have hg1 : g = .filtering q (w1.r.filterIndexs .processHeaders) := by rw [hx1, hgq]
      have hs1 : w1.r.state = .receiveBodySync := hk.state.trans hs
      refine ⟨g, hkept, ?_⟩
      cases ret with
      | none => exact .filtering q hb1 (.inl hs1) hq1 hg1 hle1
      | some n =>
        exact ⟨fun _ => .filtering q hb1 (.inr (by simp [hs1, RequestState.next])) hq1 hg1 hle1,
          fun _ => .filtering q hb1 (.inl hs1) hq1 hg1 hle1⟩
    · simp only [phlRequestStep, hs] at h
      obtain ⟨⟨n, w2⟩, hx, he⟩ := Option.map_eq_some_iff.mp h
      cases he
      obtain ⟨g1, hg1, hpass, hagain⟩ := gate_processHeaders hle (hgq ▸ hg) hx
        (hp1 (by simp))
      refine ⟨g1, hg1, fun hn => ?_, fun ha => ?_⟩
      · have hs2 : w2.r.state = .processHeaders := hk.state.trans hs
        exact .served q hb1 (by simp [hs2, RequestState.next, RequestState.index]) hq1 (hpass hn)
      · exact .filtering q hb1 (.inr (hk.state.trans hs)) hq1 (hagain ha).1 (hagain ha).2
  | served q hb h5 hq hgq =>
    have hb1 : w1.r.isBroken = false := hk.isBroken.trans hb
    have hqp : q = p := Option.some.inj (hq.symm.trans hp)
    subst hqp
    have hkept : gate env w1.trace = some g := by
      refine gate_kept hk hg ?_ ?_ fun _ _ => hgq
      · intro hs; simp [hs, RequestState.index] at h5
      · intro hs; simp [hs, RequestState.index] at h5
    have h51 : 5 ≤ w1.r.state.index := by rw [hk.state]; exact h5
    have hq1 : w1.r.confPath = some q := by
      rw [hk.confPath, hq]
      rintro (hs | hs) <;> simp [hs, RequestState.index] at h5
    refine ⟨g, hkept, ?_⟩
    cases ret with
    | none => exact .served q hb1 h51 hq1 hgq
    | some n =>
      exact ⟨fun _ => .served q hb1 (h51.trans (RequestState.index_next_le _)) hq1 hgq,
        fun _ => .served q hb1 h51 hq1 hgq⟩

theorem gateInv_close {env : Env W V} {w w' : World W V} {g : Gate}
    (hg : gate env w.trace = some g) (h : phlRequestClose env w = some w') :
    gate env w'.trace = some g ∧ w'.r.closed = true := by
  obtain ⟨hk, hc⟩ := phlRequestClose_kept (L := False) (K := fun _ => False)
    (P := fun e : Event V => gateNext (fun p => ((env.path p).filters .processHeaders).length) g e
      = some g)
    (fun _ => by cases g <;> rfl) (by cases g <;> rfl) (by cases g <;> rfl) h
  obtain ⟨es, ht, hes⟩ := hk.trace
  exact ⟨by rw [ht]; exact gate_append hg hes, hc⟩

theorem gateInv_run {env : Env W V} {w w' : World W V} (hi : GateInv env w)
    (h : phlRequestRun env w = some w') : GateInv env w' := by
  obtain ⟨g, hg, hi⟩ := hi
  have hopen : w.r.closed = false →
      GateOk (fun p => ((env.path p).filters .processHeaders).length) g w.r := by
    intro hc
    rcases hi with hi | hi
    · rw [hc] at hi; cases hi
    · exact hi
  cases phlRequestRun_ran h with
  | closed hc => exact ⟨g, hg, .inl hc⟩
  | done hc hs hcl =>
    obtain ⟨hg1, hc1⟩ := gateInv_close hg hcl
    exact ⟨g, hg1, .inl hc1⟩
  | round hc hd hp hstep =>
    obtain ⟨g1, hg1, hafter⟩ := gate_step hg (hopen hc) hd hp hstep (by simp)
    exact ⟨g1, hg1, .inr hafter⟩
  | next hc hd hp hstep hp1 hn =>
    obtain ⟨g1, hg1, hafter⟩ := gate_step hg (hopen hc) hd hp hstep (fun _ => hp1)
    exact ⟨g1, hg1, .inr (hafter.1 hn)⟩
  | again hc hd hp hstep hp1 =>
    obtain ⟨g1, hg1, hafter⟩ := gate_step hg (hopen hc) hd hp hstep (fun _ => hp1)
    exact ⟨g1, hg1, .inr (hafter.2 rfl)⟩
  | close hc hd hp hstep hp1 hz hlt hcl =>
    obtain ⟨g1, hg1, -⟩ := gate_step hg (hopen hc) hd hp hstep (fun _ => hp1)
    obtain ⟨hg2, hc2⟩ := gateInv_close hg1 hcl
    exact ⟨g1, hg2, .inl hc2⟩
  | broken code hc hd hp hstep hp1 hno hnb hna hcl =>
    obtain ⟨g1, hg1, -⟩ := gate_step hg (hopen hc) hd hp hstep (fun _ => hp1)
    refine ⟨g1, ?_, .inr (.broken rfl (le_refl 6))⟩
    rw [World.emit_trace, gate_snoc hg1]
    cases g1 <;> rfl

theorem gateInv_keep {env : Env W V} {w w' : World W V} (hi : GateInv env w)
    (h : Step env w w') : GateInv env w' := by
  obtain ⟨g, hg, hi'⟩ := id hi
  cases h with
  | call hidle => exact hi
  | run hrun hr => exact gateInv_run hi hr
  | receive data hidle => exact hi
  | header name value hidle h2 hstate => exact ⟨g, hg, hi'.imp id fun hok => hok.set _ _⟩
  | headersEnd endStream hidle h2 hstate hopen =>
    have hloc : g = .unselected ∧ w.r.isBroken = false ∧ w.r.filterIndexs .processHeaders = 0 := by
      rcases hi' with hc | hok
      · rw [hopen] at hc; cases hc
      · cases hok with
        | broken hb h6 => simp [hstate, RequestState.index] at h6
        | locating hb hs hu hx => exact ⟨hu, hb, hx⟩
        | filtering p hb hs hp hgp hle => simp [hstate] at hs
        | served p hb h5 hp hgp => simp [hstate, RequestState.index] at h5
    obtain ⟨rfl, hb, hx⟩ := hloc
    obtain ⟨finished, he | he⟩ := phlHttp2HookStreamHeadersEnd_cases endStream w.r
    · exact ⟨.unselected, hg, .inr (.locating (by simp [he, hb])
        (by simp [he, hstate, RequestState.index]) rfl (by simp [he, hx]))⟩
    · exact ⟨.unselected, hg, .inr (.locating (by simp [he, hb])
        (by simp [he, hstate, RequestState.index, RequestState.next]) rfl (by simp [he, hx]))⟩
  | body p buf hidle h2 hp =>
    obtain ⟨req, code, he⟩ := phlHttp2HookStreamBody_cases (env.path p).reqBodyMax w.r buf
    refine ⟨g, hg, ?_⟩
    rw [he]
    exact hi'.imp id fun hok => hok.set _ _
  | elsewhere hidle he => exact hi
  | @close _ connection hidle hcl =>
    obtain ⟨hg1, hc1⟩ :=
      gateInv_close (w := { w with connClosed := w.connClosed || connection }) hg hcl
    exact ⟨g, hg1, .inl hc1⟩

/-- The answers of `process_headers` filters other than `PHL_AGAIN`, each with the filter's
index. -/
def filterAnswers (es : List (Event V)) : List (Nat × Int) :=
  es.filterMap fun
    | .filter .processHeaders i ret => if ret = phlAgain then none else some (i, ret)
    | _ => none

def Event.selects : Event V → Bool
  | .located _ => true
  | .redirected => true
  | _ => false

/-- The first `m` filters, one after the other. -/
def okAnswers (m : Nat) : List (Nat × Int) := (List.range m).map fun i => (i, phlOk)

/-- Since `p` was located last, its filters have given these answers. -/
def SinceLocated (p : PathId) (answers : List (Nat × Int)) (trace : List (Event V)) : Prop :=
  ∃ before since, trace = before ++ .located p :: since ∧ (∀ e ∈ since, e.selects = false) ∧
    filterAnswers since = answers

theorem SinceLocated.snoc {p : PathId} {answers : List (Nat × Int)} {trace : List (Event V)}
    (h : SinceLocated p answers trace) {e : Event V} (he : e.selects = false) :
    SinceLocated p (answers ++ filterAnswers [e]) (trace ++ [e]) := by
  obtain ⟨before, since, rfl, hs, rfl⟩ := h
  refine ⟨before, since ++ [e], by simp, ?_, by simp [filterAnswers, List.filterMap_append]⟩
  intro e' he'
  rcases List.mem_append.mp he' with he' | he'
  · exact hs e' he'
  · rw [List.mem_singleton.mp he']
    exact he

/-- What a gate says about the filters' answers. -/
def Gate.Means (n : PathId → Nat) (trace : List (Event V)) : Gate → Prop
  | .unselected => True
  | .filtering p i => SinceLocated p (okAnswers i) trace
  | .passed p => ∃ m, m < n p ∧ SinceLocated p (okAnswers m ++ [(m, phlBreak)]) trace
  | .refused _ => True

theorem gate_means {env : Env W V} {trace : List (Event V)} {g : Gate}
    (h : gate env trace = some g) :
    g.Means (fun p => ((env.path p).filters .processHeaders).length) trace := by
  induction trace using List.reverseRecOn generalizing g with
  | nil => cases Option.some.inj h; trivial
  | append_singleton trace e ih =>
    unfold gate at h ih
    rw [monitor_append] at h
    obtain ⟨g0, h0, h⟩ := Option.bind_eq_some_iff.mp h
    obtain ⟨g1, h1, h⟩ := Option.bind_eq_some_iff.mp h
    cases Option.some.inj h
    have hmeans := ih h0
    have hkeep : filterAnswers [e] = [] → e.selects = false → g = g0 →
        g.Means (fun p => ((env.path p).filters .processHeaders).length) (trace ++ [e]) := by
      rintro ha hs rfl
      cases g with
      | unselected => trivial
      | filtering p i =>
        have hsnoc := SinceLocated.snoc hmeans hs
        rwa [ha, List.append_nil] at hsnoc
      | passed p =>
        obtain ⟨m, hm, hsince⟩ := hmeans
        have hsnoc := hsince.snoc hs
        rw [ha, List.append_nil] at hsnoc
        exact ⟨m, hm, hsnoc⟩
      | refused p => trivial
    have hplain : gateNext (fun p => ((env.path p).filters .processHeaders).length) g0 e =
        some g0 → g = g0 := fun hh => Option.some.inj (h1.symm.trans hh)
    cases e with
    | located q =>
      cases g0 with
      | unselected =>
        cases Option.some.inj h1
        exact ⟨trace, [], rfl, by simp, rfl⟩
      | filtering p i => cases h1
      | passed p => cases h1
      | refused p => cases h1
    | filter k j ret =>
      cases k with
      | processHeaders =>
        cases g0 with
        | unselected => cases h1
        | passed p => cases h1
        | refused p => cases h1
        | filtering p i =>
          simp only [gateNext] at h1
          split at h1
          next hji =>
            obtain ⟨rfl, hlt⟩ := hji
            have hsnoc := SinceLocated.snoc (e := .filter .processHeaders j ret) hmeans rfl
            cases Option.some.inj h1
            split
            next hok =>
              subst hok
              simpa [Gate.Means, okAnswers, filterAnswers, List.range_succ] using hsnoc
            next =>
              split
              next hbr =>
                subst hbr
                exact ⟨j, hlt, by simpa [filterAnswers] using hsnoc⟩
              next =>
                split
                next hag =>
                  subst hag
                  simpa [Gate.Means, filterAnswers] using hsnoc
                next => trivial
          next => cases h1
      | processBody => exact hkeep rfl rfl (hplain (by cases g0 <;> rfl))
      | responseHeaders => exact hkeep rfl rfl (hplain (by cases g0 <;> rfl))
    | redirected =>
      cases g0 <;> cases Option.some.inj h1 <;> trivial
    | content k q ret =>
      refine hkeep rfl rfl ?_
      cases g0 with
      | unselected => cases h1
      | filtering p i =>
        simp only [gateNext] at h1
        split at h1
        next => exact (Option.some.inj h1).symm
        next => cases h1
      | passed p =>
        simp only [gateNext] at h1
        split at h1
        next => exact (Option.some.inj h1).symm
        next => cases h1
      | refused p => cases h1
    | broken code => exact hkeep rfl rfl (hplain (by cases g0 <;> rfl))
    | headers code m hs => exact hkeep rfl rfl (hplain (by cases g0 <;> rfl))
    | source data => exact hkeep rfl rfl (hplain (by cases g0 <;> rfl))
    | body data isLast => exact hkeep rfl rfl (hplain (by cases g0 <;> rfl))
    | endStream => exact hkeep rfl rfl (hplain (by cases g0 <;> rfl))
    | closed => exact hkeep rfl rfl (hplain (by cases g0 <;> rfl))
    | env v => exact hkeep rfl rfl (hplain (by cases g0 <;> rfl))

/-- All filters of `p`, or the first ones up to one that returned `PHL_BREAK`, let the request
through after `p` was located. -/
def LetThrough (env : Env W V) (p : PathId) (trace : List (Event V)) : Prop :=
  SinceLocated p (okAnswers ((env.path p).filters .processHeaders).length) trace ∨
  ∃ m, m < ((env.path p).filters .processHeaders).length ∧
    SinceLocated p (okAnswers m ++ [(m, phlBreak)]) trace

theorem gate_letThrough {env : Env W V} {pre post : List (Event V)} {k : ContentKind} {p : PathId}
    {ret : Int} {g : Gate} (h : gate env (pre ++ .content k p ret :: post) = some g) :
    LetThrough env p pre := by
  unfold gate at h
  rw [monitor_append] at h
  obtain ⟨g0, h0, h⟩ := Option.bind_eq_some_iff.mp h
  obtain ⟨g1, h1, -⟩ := Option.bind_eq_some_iff.mp h
  have hmeans := gate_means h0
  cases g0 with
  | unselected => cases h1
  | filtering q i =>
    simp only [gateNext] at h1
    split at h1
    next hq =>
      obtain ⟨rfl, rfl⟩ := hq
      exact .inl hmeans
    next => cases h1
  | passed q =>
    simp only [gateNext] at h1
    split at h1
    next hq =>
      subst hq
      exact .inr hmeans
    next => cases h1
  | refused q => cases h1

theorem content_behind_filters {env : Env W V} {w : World W V}
    (h : Reachable (Init env) (Step env) w) :
    (∃ g, gate env w.trace = some g) ∧
      ∀ pre post k p ret, w.trace = pre ++ .content k p ret :: post → LetThrough env p pre := by
  have hinv : GateInv env w := by
    refine h.invariant (I := GateInv env) ?_ fun _ _ hi hs => gateInv_keep hi hs
    rintro s ⟨ht, -, hr⟩
    refine ⟨.unselected, by rw [ht]; rfl, .inr ?_⟩
    rcases hr with ⟨isHttp2, hr⟩ | ⟨father, host, req, named, -, hr⟩
    · rw [hr]
      exact .locating rfl (Nat.zero_le 2) rfl rfl
    · rw [hr]
      exact .locating rfl (Nat.le_succ 1) rfl rfl
  obtain ⟨g, hg, -⟩ := hinv
  refine ⟨⟨g, hg⟩, fun pre post k p ret ht => ?_⟩
  rw [ht] at hg
  exact gate_letThrough hg

/-- Two filters let a request through, the second one with `PHL_BREAK`; the third is not called. -/
def guardedPath : ConfPath Unit Unit where
  reqBodyMax := 0
  reqBodySync := true
  filters := fun
    | .processHeaders => [phlOk, phlBreak, 403].map fun ret r e =>
        ⟨ret, r.req, r.resp, none, e, []⟩
    | _ => []
  bodyFilters := []
  content := some {
    processHeaders := none
    processBody := none
    responseHeaders := fun r e =>
      ⟨phlOk, r.req, { r.resp with statusCode := 204, contentLength := 0 }, none, e, []⟩
    responseBody := none }

theorem content_behind_filters_guardedPath :
    ∃ w, runs (Env.single guardedPath) (fun _ => true) 6
        (streamWorld (Env.single guardedPath) [(bytes ":path", bytes "/")] ()) = some w ∧
      w.trace = [.located 1, .filter .processHeaders 0 phlOk, .filter .processHeaders 1 phlBreak,
        .content .responseHeaders 1 phlOk] ∧
      LetThrough (Env.single guardedPath) 1 [.located 1, .filter .processHeaders 0 phlOk,
        .filter .processHeaders 1 (V := Unit) phlBreak] := by
  have h : (runs (Env.single guardedPath) (fun _ => true) 6
      (streamWorld (Env.single guardedPath) [(bytes ":path", bytes "/")] ())).map (·.trace) =
        some [.located 1, .filter .processHeaders 0 phlOk, .filter .processHeaders 1 phlBreak,
          .content .responseHeaders 1 phlOk] := by decide
  obtain ⟨w, hw, ht⟩ := Option.map_eq_some_iff.mp h
  have hreach := (reachable_stream (init_new _ _) rfl hw).mono fun _ _ hs => hs.1
  exact ⟨w, hw, ht, (content_behind_filters hreach).2 _ [] .responseHeaders 1 phlOk ht⟩

end Phorklift
