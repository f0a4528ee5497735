import Phorklift.Request
import Phorklift.Tally
import Mathlib.Algebra.Group.Pi.Lemmas
import Mathlib.Data.BitVec

/-! The counters of Listens, Hosts and Paths, which all workers add to. -/

namespace Phorklift
namespace Stats

open Tally Transition

/-- `long`, which an atomic addition wraps around. -/
abbrev Long := BitVec 64

/-- The members of `phl_conf_listen_stats`, `phl_conf_host_stats` and `phl_conf_path_stats` that
requests add to. -/
inductive Counter
  | failNoHost (listen : Nat)
  | failNoPath (host : HostId)
  | total (p : PathId)
  | done (p : PathId)
  | reqAccMs (p : PathId)
  | reactAccMs (p : PathId)
  | respAccMs (p : PathId)
  | totalAccMs (p : PathId)
  | status (p : PathId) (code : Int)
  | statusOthers (p : PathId)
  deriving DecidableEq

/-- What `phl_request_stats` reads of a request; `closeTime` is that of `wuy_time_ms`. -/
structure Closed where
  listen : Nat
  confHost : Option HostId
  confPath : Option PathId
  state : RequestState
  createTime : Long
  reqEndTime : Long
  respBeginTime : Long
  closeTime : Long
  statusCode : Int

/-- An atomic addition. -/
abbrev Add := Counter × Long

def Closed.times (r : Closed) (p : PathId) : List Add :=
  [(.done p, 1), (.reqAccMs p, r.reqEndTime - r.createTime),
    (.reactAccMs p, r.respBeginTime - r.reqEndTime), (.respAccMs p, r.closeTime - r.respBeginTime),
    (.totalAccMs p, r.closeTime - r.createTime)]

/-- The additions of `phl_request_stats` in order, with `table` the codes of
`WUY_HTTP_STATUS_CODE_TABLE`. -/
def phlRequestStats (table : List Int) (r : Closed) : List Add :=
  match r.confHost, r.confPath with
  | none, _ => [(.failNoHost r.listen, 1)]
  | some host, none => [(.failNoPath host, 1)]
  | some _, some p =>
    (.total p, 1) :: ((if r.state = .done then r.times p else []) ++
      [(if r.statusCode ∈ table then .status p r.statusCode else .statusOthers p, 1)])

abbrev Counters := Counter → Long

def Add.val (a : Add) : Counters := Pi.single a.1 a.2

/-- A worker starts, closes a request, makes its next addition, or ends, wherever it is. -/
def statsAct (table : List Int) : Tally.World Counters Add Closed → Tally.Act Closed →
    Option (Tally.World Counters Add Closed) :=
  Tally.act Add.val (phlRequestStats table)

/-- The Path that a request is counted for. -/
def Closed.path (r : Closed) : Option PathId := if r.confHost.isSome then r.confPath else none

def Add.isTotal (p : PathId) (a : Add) : Bool := a.1 = .total p

def Add.isStatus (p : PathId) (a : Add) : Bool :=
  match a.1 with
  | .status q _ => q = p
  | .statusOthers q => q = p
  | _ => false

/-- The request is in `total` and its status is not counted. -/
def Halfway (p : PathId) (rest : List Add) : Prop :=
  (∃ a ∈ rest, a.isStatus p = true) ∧ ∀ a ∈ rest, a.isTotal p = false

instance (p : PathId) (rest : List Add) : Decidable (Halfway p rest) :=
  inferInstanceAs (Decidable (_ ∧ _))

section Measures

variable {table : List Int} {p q : PathId} {r : Closed} {rest : List Add} {a : Add}

def counter (c : Counter) : Counters →+ Long := Pi.evalAddMonoidHom _ c

theorem val_apply (a : Add) (c : Counter) : a.val c = if c = a.1 then a.2 else 0 :=
  Pi.single_apply a.1 a.2 c

theorem counter_val (c : Counter) (a : Add) : counter c a.val = if c = a.1 then a.2 else 0 :=
  val_apply a c

/-- What `total` is ahead of the statuses. -/
def ahead (table : List Int) (p : PathId) : Counters →+ Long :=
  counter (.total p) - (table.map fun code => counter (.status p code)).sum -
    counter (.statusOthers p)

/-- What the three parts of the time lack. -/
def lacking (p : PathId) : Counters →+ Long :=
  counter (.totalAccMs p) - counter (.reqAccMs p) - counter (.reactAccMs p) - counter (.respAccMs p)

theorem sum_counter (codes : List Int) (g : Counters) :
    (codes.map fun code => counter (.status p code)).sum g =
      (codes.map fun code => g (.status p code)).sum := by
  induction codes with
  | nil => rfl
  | cons code codes ih =>
    rw [List.map_cons, List.sum_cons, List.map_cons, List.sum_cons, ← ih]
    rfl

theorem ahead_apply (g : Counters) : ahead table p g =
    g (.total p) - (table.map fun code => g (.status p code)).sum - g (.statusOthers p) := by
  rw [← sum_counter]
  rfl

theorem lacking_apply (g : Counters) : lacking p g =
    g (.totalAccMs p) - g (.reqAccMs p) - g (.reactAccMs p) - g (.respAccMs p) := rfl

/-- Each code stands at most once in the table. -/
theorem sum_code (hnodup : table.Nodup) (code : Int) (v : Long) :
    (table.map fun c => if c = code then v else 0).sum = if code ∈ table then v else 0 := by
  induction table with
  | nil => rfl
  | cons c codes ih =>
    obtain ⟨hnot, hrest⟩ := List.nodup_cons.mp hnodup
    rw [List.map_cons, List.sum_cons, ih hrest]
    by_cases hc : c = code
    · subst hc
      simp [hnot]
    · have hne : code ≠ c := fun h => hc h.symm
      simp [hc, hne]

theorem ahead_total (q : PathId) (v : Long) :
    ahead table p (Add.val (.total q, v)) = if p = q then v else 0 := by
  rw [ahead_apply]
  simp [val_apply]

/-- The status of a request, whether the table has it or not. -/
theorem ahead_status (hnodup : table.Nodup) (q : PathId) (code : Int) (v : Long) :
    ahead table p (Add.val (if code ∈ table then .status q code else .statusOthers q, v)) =
      if p = q then -v else 0 := by
  rw [ahead_apply]
  by_cases hmem : code ∈ table
  · have hsum := sum_code hnodup code v
    rw [if_pos hmem] at hsum ⊢
    by_cases h : p = q
    · simpa [val_apply, h] using hsum
    · simp [val_apply, h]
  · rw [if_neg hmem]
    by_cases h : p = q
    · simp [val_apply, h]
    · simp [val_apply, h]

theorem ahead_times {x : Add} (hx : x ∈ (if r.state = .done then r.times q else [])) :
    ahead table p x.val = 0 := by
  split at hx
  next =>
    rw [ahead_apply]
    simp only [Closed.times, List.mem_cons, List.not_mem_nil, or_false] at hx
    rcases hx with rfl | rfl | rfl | rfl | rfl <;> simp [val_apply]
  next => cases hx

theorem plan_cases (table : List Int) (r : Closed) :
    (r.path = none ∧ ∃ c, phlRequestStats table r = [(c, 1)] ∧
      ((∃ l, c = .failNoHost l) ∨ ∃ h, c = .failNoPath h)) ∨
    ∃ q, r.path = some q ∧ phlRequestStats table r =
      (.total q, 1) :: ((if r.state = .done then r.times q else []) ++
        [(if r.statusCode ∈ table then .status q r.statusCode else .statusOthers q, 1)]) := by
  unfold Closed.path phlRequestStats
  cases hhost : r.confHost with
  | none => exact .inl ⟨rfl, _, rfl, .inl ⟨_, rfl⟩⟩
  | some host =>
    cases hpath : r.confPath with
    | none => exact .inl ⟨rfl, _, rfl, .inr ⟨_, rfl⟩⟩
    | some q => exact .inr ⟨q, rfl, rfl⟩

theorem times_plain {x : Add} (hx : x ∈ (if r.state = .done then r.times q else [])) :
    x.isTotal p = false ∧ x.isStatus p = false := by
  split at hx
  next =>
    simp only [Closed.times, List.mem_cons, List.not_mem_nil, or_false] at hx
    rcases hx with rfl | rfl | rfl | rfl | rfl <;> simp [Add.isTotal, Add.isStatus]
  next => cases hx

theorem status_isStatus (q : PathId) (code : Int) (v : Long) :
    Add.isStatus p (if code ∈ table then .status q code else .statusOthers q, v) = decide (q = p) ∧
    Add.isTotal p (if code ∈ table then .status q code else .statusOthers q, v) = false := by
  by_cases hmem : code ∈ table <;> simp [Add.isStatus, Add.isTotal, hmem]

theorem ahead_failed {c : Counter} (hc : (∃ l, c = .failNoHost l) ∨ ∃ h, c = .failNoPath h) :
    ahead table p (weight Add.val [(c, 1)]) = 0 := by
  refine map_weight_zero _ fun a ha => ?_
  rw [List.mem_singleton.mp ha, ahead_apply]
  rcases hc with ⟨l, rfl⟩ | ⟨h, rfl⟩ <;> simp [val_apply]

theorem not_halfway_failed {c : Counter}
    (hc : (∃ l, c = .failNoHost l) ∨ ∃ h, c = .failNoPath h) : ¬Halfway p [(c, 1)] := by
  rcases hc with ⟨l, rfl⟩ | ⟨h, rfl⟩ <;> simp [Halfway, Add.isStatus]

/-- The status makes up for what `total` is ahead. -/
theorem ahead_plan (hnodup : table.Nodup) (r : Closed) :
    ahead table p (weight Add.val (phlRequestStats table r)) = 0 := by
  rcases plan_cases table r with ⟨-, c, hplan, hc⟩ | ⟨q, -, hplan⟩
  · rw [hplan]
    exact ahead_failed hc
  · have hzero : ahead table p (weight Add.val (if r.state = .done then r.times q else [])) = 0 :=
      map_weight_zero _ fun a ha => ahead_times ha
    have hnil : ahead table p (weight Add.val []) = 0 := map_zero _
    rw [hplan, weight_cons, weight_append, weight_cons, map_add, map_add, map_add, hzero, hnil,
      ahead_total, ahead_status hnodup]
    by_cases h : p = q
    · rw [if_pos h, if_pos h, zero_add, add_zero, add_neg_cancel]
    · rw [if_neg h, if_neg h, zero_add, add_zero, add_zero]

theorem not_halfway_plan (r : Closed) : ¬Halfway p (phlRequestStats table r) := by
  rcases plan_cases table r with ⟨-, c, hplan, hc⟩ | ⟨q, -, hplan⟩
  · rw [hplan]
    exact not_halfway_failed hc
  · rw [hplan]
    rintro ⟨⟨a, ha, hstatus⟩, htotal⟩
    have hne : q ≠ p := by
      intro heq
      have hfirst := htotal _ List.mem_cons_self
      simp [Add.isTotal, heq] at hfirst
    rcases List.mem_cons.mp ha with rfl | ha
    · simp [Add.isStatus] at hstatus
    · rcases List.mem_append.mp ha with ha | ha
      · rw [(times_plain ha).2] at hstatus
        cases hstatus
      · rw [List.mem_singleton.mp ha, (status_isStatus q r.statusCode 1).1] at hstatus
        exact hne (of_decide_eq_true hstatus)

/-- What a part of a request's additions leaves out of balance. -/
theorem ahead_part {tasks : List Closed} (hnodup : table.Nodup)
    (h : Tally.Part (phlRequestStats table) tasks rest) :
    ahead table p (weight Add.val rest) = if Halfway p rest then -1 else 0 := by
  have hempty : ahead table p (weight Add.val []) = if Halfway p [] then -1 else 0 := by
    rw [if_neg (by simp [Halfway])]
    exact map_zero _
  rcases h with rfl | ⟨r, -, hpart⟩
  · exact hempty
  rcases plan_cases table r with ⟨-, c, hplan, hc⟩ | ⟨q, -, hplan⟩
  · rw [hplan] at hpart
    rcases List.suffix_cons_iff.mp hpart with rfl | hpart
    · rw [if_neg (not_halfway_failed hc)]
      exact ahead_failed hc
    · rw [List.suffix_nil.mp hpart]
      exact hempty
  · rw [hplan] at hpart
    rcases List.suffix_cons_iff.mp hpart with hwhole | hpart
    · rw [hwhole, ← hplan, if_neg (not_halfway_plan r)]
      exact ahead_plan hnodup r
    · rcases List.suffix_concat_iff.mp hpart with rfl | ⟨mid, rfl, hmid⟩
      · exact hempty
      · have hzero : ahead table p (weight Add.val mid) = 0 :=
          map_weight_zero _ fun a ha => ahead_times (hmid.subset ha)
        have hnil : ahead table p (weight Add.val []) = 0 := map_zero _
        rw [weight_append, map_add, hzero, zero_add, weight_cons, map_add, hnil, add_zero,
          ahead_status hnodup]
        obtain ⟨hstatus, htotal⟩ := @status_isStatus table p q r.statusCode 1
        congr 1
        rw [eq_iff_iff]
        constructor
        · rintro rfl
          refine ⟨⟨_, List.mem_append_right _ List.mem_cons_self, ?_⟩, fun a ha => ?_⟩
          · rw [hstatus, decide_eq_true rfl]
          · rcases List.mem_append.mp ha with ha | ha
            · exact (times_plain (hmid.subset ha)).1
            · rw [List.mem_singleton.mp ha]
              exact htotal
        · rintro ⟨⟨a, ha, hcounts⟩, -⟩
          rcases List.mem_append.mp ha with ha | ha
          · rw [(times_plain (hmid.subset ha)).2] at hcounts
            cases hcounts
          · rw [List.mem_singleton.mp ha, hstatus] at hcounts
            exact (of_decide_eq_true hcounts).symm

/-- The three parts of the time make up the whole. -/
theorem lacking_times (r : Closed) (q : PathId) :
    lacking p (weight Add.val (r.times q)) = 0 := by
  have hnil : lacking p (weight Add.val []) = 0 := map_zero _
  unfold Closed.times
  simp only [weight_cons, map_add, hnil, lacking_apply, val_apply, Counter.totalAccMs.injEq,
    Counter.reqAccMs.injEq, Counter.reactAccMs.injEq, Counter.respAccMs.injEq, reduceCtorEq,
    if_false]
  by_cases h : p = q
  · simp only [h, if_true]
    abel
  · simp only [h, if_false]
    abel

/-- A measure that sees neither `total` nor a status. -/
theorem measure_plan (f : Counters →+ Long) (hfailed : ∀ c : Counter,
      (∃ l, c = .failNoHost l) ∨ (∃ h, c = .failNoPath h) → f (Add.val (c, 1)) = 0)
    (htotal : ∀ q, f (Add.val (.total q, 1)) = 0)
    (hstatus : ∀ q code, f (Add.val (.status q code, 1)) = 0)
    (hothers : ∀ q, f (Add.val (.statusOthers q, 1)) = 0) (r : Closed) :
    f (weight Add.val (phlRequestStats table r)) =
      match r.path with
      | none => 0
      | some q => f (weight Add.val (if r.state = .done then r.times q else [])) := by
  have hnil : f (weight Add.val []) = 0 := map_zero _
  rcases plan_cases table r with ⟨hpath, c, hplan, hc⟩ | ⟨q, hpath, hplan⟩
  · rw [hplan, hpath, weight_cons, map_add, hnil, hfailed c hc, add_zero]
  · have hlast : f (Add.val (if r.statusCode ∈ table then .status q r.statusCode
        else .statusOthers q, 1)) = 0 := by
      split
      next => exact hstatus q r.statusCode
      next => exact hothers q
    rw [hplan, hpath, weight_cons, weight_append, weight_cons, map_add, map_add, map_add, hnil,
      htotal, hlast, zero_add, add_zero, add_zero]

theorem lacking_plan (r : Closed) :
    lacking p (weight Add.val (phlRequestStats table r)) = 0 := by
  rw [measure_plan]
  · split
    next => rfl
    next q _ =>
      split
      next => exact lacking_times r q
      next => exact map_zero _
  · rintro c (⟨l, rfl⟩ | ⟨h, rfl⟩) <;> simp [lacking_apply, val_apply]
  · intro q
    simp [lacking_apply, val_apply]
  · intro q code
    simp [lacking_apply, val_apply]
  · intro q
    simp [lacking_apply, val_apply]

theorem done_times (r : Closed) (q : PathId) :
    counter (.done p) (weight Add.val (r.times q)) = if p = q then 1 else 0 := by
  have hnil : counter (.done p) (weight Add.val []) = 0 := map_zero _
  unfold Closed.times
  simp only [weight_cons, map_add, hnil, counter_val, Counter.done.injEq, reduceCtorEq, if_false,
    add_zero]

theorem done_plan (r : Closed) : counter (.done p) (weight Add.val (phlRequestStats table r)) =
    if r.path = some p ∧ r.state = .done then 1 else 0 := by
  rw [measure_plan]
  · cases hpath : r.path with
    | none => simp
    | some q =>
      dsimp only
      by_cases hdone : r.state = .done
      · rw [if_pos hdone, done_times]
        simp [hdone, eq_comm]
      · rw [if_neg hdone, if_neg (fun h => hdone h.2)]
        exact map_zero _
  · rintro c (⟨l, rfl⟩ | ⟨h, rfl⟩) <;> simp [counter_val]
  · intro q
    simp [counter_val]
  · intro q code
    simp [counter_val]
  · intro q
    simp [counter_val]

theorem total_plan (r : Closed) : counter (.total p) (weight Add.val (phlRequestStats table r)) =
    if r.path = some p then 1 else 0 := by
  have hnil : counter (.total p) (weight Add.val []) = 0 := map_zero _
  rcases plan_cases table r with ⟨hpath, c, hplan, hc⟩ | ⟨q, hpath, hplan⟩
  · rw [hplan, hpath, weight_cons, map_add, hnil, counter_val, add_zero]
    rcases hc with ⟨l, rfl⟩ | ⟨h, rfl⟩ <;> simp
  · have hmid : counter (.total p)
        (weight Add.val (if r.state = .done then r.times q else [])) = 0 := by
      refine map_weight_zero _ fun a ha => ?_
      have hplain := (times_plain (p := p) ha).1
      rw [counter_val, if_neg fun h => ?_]
      exact of_decide_eq_false hplain h.symm
    have hlast : counter (.total p) (Add.val (if r.statusCode ∈ table then .status q r.statusCode
        else .statusOthers q, 1)) = 0 := by
      rw [counter_val, if_neg]
      split <;> nofun
    rw [hplan, hpath, weight_cons, weight_append, weight_cons, map_add, map_add, map_add, hnil,
      hmid, hlast, zero_add, add_zero, counter_val]
    simp [eq_comm]

theorem sum_count {α : Type} (f : α → Long) (x : Long) (holds : α → Prop) [DecidablePred holds]
    (l : List α) (h : ∀ a ∈ l, f a = if holds a then x else 0) :
    (l.map f).sum = (l.countP fun a => decide (holds a) : Nat) * x := by
  induction l with
  | nil => simp
  | cons a l ih =>
    rw [List.map_cons, List.sum_cons, h a List.mem_cons_self,
      ih fun b hb => h b (List.mem_cons_of_mem a hb), List.countP_cons]
    by_cases ha : holds a
    · rw [if_pos ha, if_pos (decide_eq_true ha), Nat.cast_add, Nat.cast_one, add_mul, one_mul,
        add_comm]
    · rw [if_neg ha, if_neg (by simp [ha]), add_zero, zero_add]

end Measures

/-- Whatever the workers do, and wherever they end: `total` of a Path is its statuses together, and
one more for each worker that is between the two or has ended there. Where no worker is or has ended
in `phl_request_stats`, `total` and `done` are the numbers of the requests that were closed and of
those that were complete, and the three parts of their time add up to the whole. -/
theorem stats_accounted (table : List Int) (hnodup : table.Nodup) {acts : List (Tally.Act Closed)}
    {w : Tally.World Counters Add Closed} (h : runActs (statsAct table) acts .start = some w)
    (p : PathId) :
    w.total (.total p) = (table.map fun code => w.total (.status p code)).sum +
        w.total (.statusOthers p) + (w.pending.countP fun rest => decide (Halfway p rest) : Nat) ∧
      (w.AtRest →
        w.total (.total p) = (w.tasks.countP fun r => decide (r.path = some p) : Nat) ∧
        w.total (.done p) =
          (w.tasks.countP fun r => decide (r.path = some p ∧ r.state = .done) : Nat) ∧
        w.total (.totalAccMs p) =
          w.total (.reqAccMs p) + w.total (.reactAccMs p) + w.total (.respAccMs p)) := by
  have hbalanced : Tally.Balanced Add.val (phlRequestStats table) w := balanced_run balanced_start h
  refine ⟨?_, fun hrest => ⟨?_, ?_, ?_⟩⟩
  · have hmeasure := hbalanced.measure (ahead table p)
    have htasks := sum_count (fun r => ahead table p (weight Add.val (phlRequestStats table r))) 0
      (fun _ => True) w.tasks (fun r _ => by rw [ahead_plan hnodup, if_pos trivial])
    have hpending := sum_count (fun rest => ahead table p (weight Add.val rest)) (-1) (Halfway p)
      w.pending (fun rest hr => ahead_part hnodup (hbalanced.parts rest hr))
    rw [htasks, hpending, ahead_apply, mul_zero, mul_neg_one, ← sub_eq_add_neg,
      sub_eq_zero] at hmeasure
    rw [← hmeasure]
    abel
  · have hmeasure := hbalanced.measure_rest hrest (counter (.total p))
    rw [sum_count _ 1 _ _ fun r _ => total_plan r, mul_one] at hmeasure
    exact hmeasure
  · have hmeasure := hbalanced.measure_rest hrest (counter (.done p))
    rw [sum_count _ 1 _ _ fun r _ => done_plan r, mul_one] at hmeasure
    exact hmeasure
  · have hmeasure := hbalanced.measure_rest hrest (lacking p)
    have htasks := sum_count (fun r => lacking p (weight Add.val (phlRequestStats table r))) 0
      (fun _ => True) w.tasks (fun r _ => by rw [lacking_plan, if_pos trivial])
    rw [htasks, mul_zero, lacking_apply, sub_eq_zero, sub_eq_iff_eq_add,
      sub_eq_iff_eq_add] at hmeasure
    rw [hmeasure]
    abel

/-- A request of the Path 3 with the status 200. -/
def closedRequest (closeTime : Long) : Closed where
  listen := 0
  confHost := some 1
  confPath := some 3
  state := .done
  createTime := 100
  reqEndTime := 101
  respBeginTime := 105
  closeTime := closeTime
  statusCode := 200

/-- Two workers close a request each, and the first ends before its status is counted. -/
def endedHalfway : List (Tally.Act Closed) :=
  [.join, .join, .take 0 (closedRequest 107), .add 0, .take 1 (closedRequest 110), .add 1, .add 1,
    .leave 0, .add 0, .add 0, .add 0, .add 0, .add 0]

theorem stats_accounted_halfway : ∃ w, runActs (statsAct [200, 404]) endedHalfway .start = some w ∧
    w.total (.total 3) = ([200, 404].map fun code => w.total (.status 3 code)).sum +
      w.total (.statusOthers 3) + 1 := by
  obtain ⟨w, hw⟩ : ∃ w, runActs (statsAct [200, 404]) endedHalfway .start = some w := ⟨_, rfl⟩
  have hhalves : (runActs (statsAct [200, 404]) endedHalfway .start).map (fun w =>
      w.pending.countP fun rest => decide (Halfway 3 rest)) = some 1 := by
    with_unfolding_all rfl
  rw [hw] at hhalves
  have hone : (w.pending.countP fun rest => decide (Halfway 3 rest)) = 1 := Option.some.inj hhalves
  have haccounted := (stats_accounted [200, 404] (by decide) hw 3).1
  rw [hone] at haccounted
  exact ⟨w, hw, haccounted⟩

end Stats

end Phorklift
