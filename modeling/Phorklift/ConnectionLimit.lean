import Mathlib.Algebra.BigOperators.Group.Finset.Piecewise
import Mathlib.Algebra.Order.BigOperators.Group.Finset
import Mathlib.Order.Bounds.Basic
import Phorklift.Admission

/-! The limit of a Listen's connections, which its workers count together. -/

namespace Phorklift
namespace ConnectionLimit

open Transition Admission

/-- Where a worker stands in `phl_connection_on_accept`. -/
inductive AcceptPc
  /-- outside of it -/
  | ready
  /-- the counter was at the limit -/
  | full
  /-- before `atomic_fetch_add` -/
  | counting
  deriving DecidableEq

/-- The timer group of `recv_timer`, as `phl_connection_set_state` chooses it. -/
inductive Group
  /-- `http1.keepalive_timer_group` -/
  | keepalive
  /-- `http2.idle_timer_group` -/
  | http2Idle
  | busy
  deriving DecidableEq

structure Conn where
  id : Nat
  group : Group
  deriving DecidableEq

/-- A worker with its open connections of the Listen. -/
structure Worker where
  pc : AcceptPc
  conns : List Conn
  /-- `phl_connection_id` -/
  nextId : Nat
  deriving DecidableEq

def Worker.start : Worker := ⟨.ready, [], 1⟩

/-- `lost` are the additions that no connection answers for any more. -/
structure World (ι : Type*) where
  /-- `stats->connections`, shared by the workers -/
  connections : Int
  workers : ι → Worker
  lost : Nat

/-- What happens next, in one worker. -/
inductive Act (ι : Type*)
  /-- `phl_connection_on_accept` is called and loads the counter -/
  | accept (i : ι)
  /-- `phl_connection_free_idle`: what `loop_group_timer_expire_one_ahead` expires in either
  group -/
  | freeIdle (i : ι) (keepalive http2Idle : Option Nat)
  /-- `atomic_fetch_add`, and whether `calloc` succeeds -/
  | add (i : ι) (allocated : Bool)
  /-- `phl_connection_close` out of the event loop -/
  | close (i : ι) (c : Conn)
  /-- `phl_connection_set_state` -/
  | setState (i : ι) (c : Conn) (g : Group)
  /-- the worker dies, and `phl_worker_check` forks one in its place -/
  | die (i : ι)

section Model

variable {ι : Type*} [DecidableEq ι]

def World.start : World ι := ⟨0, fun _ => .start, 0⟩

def World.set (i : ι) (w : Worker) (s : World ι) : World ι :=
  { s with workers := Function.update s.workers i w }

/-- `phl_connection_close`, as far as the Listen's connections go -/
def phlConnectionClose (i : ι) (c : Conn) (s : World ι) : World ι :=
  let w := s.workers i
  { s.set i { w with conns := w.conns.erase c } with connections := s.connections - 1 }

/-- The connection that `phl_connection_free_idle` has closed, by the answers for the two groups. -/
def phlConnectionFreeIdle : Option Nat → Option Nat → Option Conn
  | some c, _ => some ⟨c, .keepalive⟩
  | none, some c => some ⟨c, .http2Idle⟩
  | none, none => none

def act (limit : Int) (s : World ι) : Act ι → Option (World ι)
  | .accept i =>
    let w := s.workers i
    if w.pc ≠ .ready then none
    else if limit ≠ 0 ∧ s.connections ≥ limit then some (s.set i { w with pc := .full })
    else some (s.set i { w with pc := .counting })
  | .freeIdle i keepalive http2Idle =>
    let w := s.workers i
    if w.pc ≠ .full then none
    else match phlConnectionFreeIdle keepalive http2Idle with
    | none => some (s.set i { w with pc := .ready })
    | some c =>
      if c ∈ w.conns then some ((phlConnectionClose i c s).set i
        { w with conns := w.conns.erase c, pc := .counting })
      else none
  | .add i allocated =>
    let w := s.workers i
    if w.pc ≠ .counting then none
    else
      let s := { s with connections := s.connections + 1 }
      if allocated then
        some (s.set i ⟨.ready, w.conns ++ [⟨w.nextId, .busy⟩], w.nextId + 1⟩)
      else some { s.set i { w with pc := .ready } with lost := s.lost + 1 }
  | .close i c =>
    let w := s.workers i
    if w.pc = .ready ∧ c ∈ w.conns then some (phlConnectionClose i c s) else none
  | .setState i c g =>
    let w := s.workers i
    if w.pc = .ready ∧ c ∈ w.conns then
      some (s.set i { w with conns := w.conns.erase c ++ [⟨c.id, g⟩] })
    else none
  | .die i =>
    some { s.set i .start with lost := s.lost + (s.workers i).conns.length }

end Model

section Invariant

variable {ι : Type*} [DecidableEq ι] [Fintype ι] {limit : Int} {s t : World ι} {a : Act ι}

/-- The open connections of the Listen in all workers. -/
def World.opened (s : World ι) : Nat := ∑ i, (s.workers i).conns.length

/-- The workers that have passed the comparison and have not added yet. -/
def World.counting (s : World ι) : Finset ι :=
  Finset.univ.filter fun i => (s.workers i).pc = .counting

theorem World.opened_set (i : ι) (w : Worker) :
    (s.set i w).opened + (s.workers i).conns.length = s.opened + w.conns.length := by
  have hsum := sum_update_add (fun j => (s.workers j).conns.length) i w.conns.length
  have hcomp : (fun j => ((s.set i w).workers j).conns.length) =
      Function.update (fun j => (s.workers j).conns.length) i w.conns.length := by
    funext j
    exact Function.apply_update (fun _ w => w.conns.length) s.workers i w j
  unfold World.opened
  rw [hcomp]
  exact hsum

omit [DecidableEq ι] in
theorem World.mem_counting {i : ι} : i ∈ s.counting ↔ (s.workers i).pc = .counting := by
  simp [World.counting]

theorem World.counting_set_of_eq {i : ι} {w : Worker} (h : w.pc = .counting) :
    (s.set i w).counting = insert i s.counting := by
  ext j
  rw [World.mem_counting, Finset.mem_insert, World.mem_counting]
  by_cases hj : j = i
  · subst hj
    simp [World.set, h]
  · simp [World.set, hj]

theorem World.counting_set_of_ne {i : ι} {w : Worker} (h : w.pc ≠ .counting) :
    (s.set i w).counting = s.counting.erase i := by
  ext j
  rw [World.mem_counting, Finset.mem_erase, World.mem_counting]
  by_cases hj : j = i
  · subst hj
    simp [World.set, h]
  · simp [World.set, hj]

/-- Every addition has its connection, or has been lost. -/
def Counted (s : World ι) : Prop :=
  s.connections = s.opened + s.lost

/-- What an action does to the counter, in the worker `i` that `w` is left of. -/
inductive Passage (limit : Int) (s : World ι) (i : ι) (w : Worker) : Int → Prop
  | pass (h : limit ≠ 0 → s.connections < limit) (hw : w.pc = .counting) : Passage limit s i w 0
  | trade (h : (s.workers i).conns ≠ []) (hw : w.pc = .counting) : Passage limit s i w (-1)
  | add (h : (s.workers i).pc = .counting) (hw : w.pc ≠ .counting) : Passage limit s i w 1
  | sub (h : (s.workers i).pc ≠ .counting) (hw : w.pc ≠ .counting) : Passage limit s i w (-1)
  | leave (hw : w.pc ≠ .counting) : Passage limit s i w 0

omit [Fintype ι] in
theorem length_erase_add_one {c : Conn} {cs : List Conn} (h : c ∈ cs) :
    (cs.erase c).length + 1 = cs.length := by
  have hpos := List.length_pos_of_mem h
  rw [List.length_erase_of_mem h]
  omega

/-- `w` is what the worker `i` becomes, `n` what the counter gains and `l` what is lost. -/
def World.change (i : ι) (w : Worker) (n : Int) (l : Nat) (s : World ι) : World ι :=
  { s.set i w with connections := s.connections + n, lost := s.lost + l }

omit [Fintype ι] in
theorem World.change_zero (i : ι) (w : Worker) (s : World ι) : s.change i w 0 0 = s.set i w := by
  simp [World.change, World.set]

omit [Fintype ι] in
theorem act_passage (h : act limit s a = some t) : ∃ i w n l, t = s.change i w n l ∧
    (w.conns.length : Int) + l = (s.workers i).conns.length + n ∧ Passage limit s i w n := by
  cases a with
  | accept i =>
    simp only [act] at h
    split at h
    next => cases h
    next hready =>
      split at h
      next hfull =>
        cases h
        exact ⟨i, { s.workers i with pc := .full }, 0, 0, (s.change_zero i _).symm, by simp,
          .leave (by simp)⟩
      next hroom =>
        cases h
        refine ⟨i, { s.workers i with pc := .counting }, 0, 0, (s.change_zero i _).symm, by simp,
          .pass (fun hlimit => ?_) rfl⟩
        by_contra hge
        exact hroom ⟨hlimit, not_lt.mp hge⟩
  | freeIdle i keepalive http2Idle =>
    simp only [act] at h
    split at h
    next => cases h
    next hfull =>
      cases hidle : phlConnectionFreeIdle keepalive http2Idle with
      | none =>
        rw [hidle] at h
        cases h
        exact ⟨i, { s.workers i with pc := .ready }, 0, 0, (s.change_zero i _).symm, by simp,
          .leave (by simp)⟩
      | some c =>
        rw [hidle] at h
        simp only at h
        split at h
        next hc =>
          cases h
          have hlen := length_erase_add_one hc
          refine ⟨i, { s.workers i with conns := (s.workers i).conns.erase c, pc := .counting },
            -1, 0, ?_, ?_, .trade (List.ne_nil_of_mem hc) rfl⟩
          · simp [World.change, World.set, phlConnectionClose, Int.sub_eq_add_neg]
          · show (((s.workers i).conns.erase c).length : Int) + (0 : Nat) = _
            omega
        next => cases h
  | add i allocated =>
    simp only [act] at h
    split at h
    next => cases h
    next hcounting =>
      have hw : (s.workers i).pc = .counting := not_not.mp hcounting
      cases allocated with
      | true =>
        cases h
        exact ⟨i, ⟨.ready, (s.workers i).conns ++ [⟨(s.workers i).nextId, .busy⟩],
          (s.workers i).nextId + 1⟩, 1, 0, by simp [World.change, World.set], by simp,
          .add hw (by simp)⟩
      | false =>
        cases h
        exact ⟨i, { s.workers i with pc := .ready }, 1, 1, by simp [World.change, World.set],
          by simp, .add hw (by simp)⟩
  | close i c =>
    simp only [act] at h
    split at h
    next hc =>
      cases h
      have hlen := length_erase_add_one hc.2
      refine ⟨i, { s.workers i with conns := (s.workers i).conns.erase c }, -1, 0,
        by simp [World.change, World.set, phlConnectionClose, Int.sub_eq_add_neg], ?_,
        .sub (by simp [hc.1]) (by simp [hc.1])⟩
      show (((s.workers i).conns.erase c).length : Int) + (0 : Nat) = _
      omega
    next => cases h
  | setState i c g =>
    simp only [act] at h
    split at h
    next hc =>
      cases h
      have hlen := length_erase_add_one hc.2
      refine ⟨i, { s.workers i with conns := (s.workers i).conns.erase c ++ [⟨c.id, g⟩] }, 0, 0,
        (s.change_zero i _).symm, ?_, .leave (by simp [hc.1])⟩
      show (((s.workers i).conns.erase c ++ [_]).length : Int) + (0 : Nat) = _
      rw [List.length_append, List.length_singleton]
      omega
    next => cases h
  | die i =>
    cases h
    exact ⟨i, .start, 0, (s.workers i).conns.length, by simp [World.change, World.set],
      by simp [Worker.start],
      .leave (by simp [Worker.start])⟩

theorem Counted.act (h : Counted s) (hact : act limit s a = some t) : Counted t := by
  obtain ⟨i, w, n, l, rfl, hlen, -⟩ := act_passage hact
  have hset := World.opened_set (s := s) i w
  have hopened : (s.change i w n l).opened = (s.set i w).opened := rfl
  unfold Counted at h ⊢
  rw [hopened]
  show s.connections + n = (s.set i w).opened + ((s.lost + l : Nat) : Int)
  omega

/-- The counter with the workers that are about to add to it. -/
def World.gate (s : World ι) : Gate ι := ⟨s.connections.toNat, s.counting⟩

/-- An action passes, adds to or takes from the counter as a party of a gate does. -/
theorem gate_step (hlimit : 0 < limit) (hs : Counted s) (hact : act limit s a = some t) :
    Gate.Step limit.toNat s.gate t.gate := by
  obtain ⟨i, w, n, l, rfl, -, hpass⟩ := act_passage hact
  have hcounting : (s.change i w n l).counting = (s.set i w).counting := rfl
  have hcount : (s.change i w n l).gate =
      ⟨(s.connections + n).toNat, (s.set i w).counting⟩ := rfl
  have hpos : 0 ≤ s.connections := by
    rw [hs]
    omega
  rw [hcount]
  cases hpass with
  | pass h hw =>
    have hlt : s.gate.count < limit.toNat := by
      have hlt := h (by omega)
      show s.connections.toNat < limit.toNat
      omega
    rw [World.counting_set_of_eq hw, Int.add_zero]
    exact .pass i hlt
  | trade h hw =>
    have hlt : 0 < s.gate.count := by
      have hlen := List.length_pos_of_ne_nil h
      have hle := Finset.single_le_sum (f := fun j => (s.workers j).conns.length)
        (fun _ _ => Nat.zero_le _) (Finset.mem_univ i)
      have hopened : (s.workers i).conns.length ≤ s.opened := hle
      show 0 < s.connections.toNat
      rw [hs]
      omega
    have hsub : (s.connections + -1).toNat = s.connections.toNat - 1 := by omega
    rw [World.counting_set_of_eq hw, hsub]
    exact .trade i hlt
  | add h hw =>
    have hadd : (s.connections + 1).toNat = s.connections.toNat + 1 := by omega
    rw [World.counting_set_of_ne hw, hadd]
    exact .add i (World.mem_counting.mpr h)
  | sub h hw =>
    have hsub : (s.connections + -1).toNat = s.connections.toNat - 1 := by omega
    have hout : i ∉ s.counting := fun hi => h (World.mem_counting.mp hi)
    rw [World.counting_set_of_ne hw, hsub, Finset.erase_eq_of_notMem hout]
    exact .sub
  | leave hw =>
    rw [World.counting_set_of_ne hw, Int.add_zero]
    exact .abandon i

/-- An action after which no more than `k` workers have passed the comparison and not added. -/
def AcceptStep (limit : Int) (k : Nat) (s t : World ι) : Prop :=
  (∃ a, act limit s a = some t) ∧ t.counting.card ≤ k

def Reached (limit : Int) (k : Nat) : World ι → Prop :=
  Reachable (· = World.start) (AcceptStep limit k)

omit [DecidableEq ι] in
theorem counting_start : (World.start : World ι).counting = ∅ := by
  ext i
  simp [World.mem_counting, World.start, Worker.start]

theorem Reached.bounded {k : Nat} (hlimit : 0 < limit) (h : Reached limit k s) :
    Counted s ∧ s.gate.Bounded limit.toNat k := by
  apply Reachable.invariant (I := fun s => Counted s ∧ s.gate.Bounded limit.toNat k) ?_ ?_ h
  · rintro s rfl
    refine ⟨by simp [Counted, World.opened, World.start, Worker.start], ?_⟩
    have hgate : (World.start : World ι).gate = ⟨0, ∅⟩ := by
      rw [World.gate, counting_start]
      rfl
    rw [hgate]
    exact Gate.bounded_start (by omega)
  · rintro s t ⟨hcounted, hbounded⟩ ⟨⟨a, hact⟩, hk⟩
    exact ⟨hcounted.act hact, hbounded.step (gate_step hlimit hcounted hact) hk⟩

theorem Reached.accept {k : Nat} (h : Reached limit k s) (i : ι)
    (hready : (s.workers i).pc = .ready)
    (hlt : s.connections < limit) (hk : (insert i s.counting).card ≤ k) :
    Reached limit k (s.set i { s.workers i with pc := .counting }) := by
  refine h.next ⟨⟨.accept i, ?_⟩, ?_⟩
  · have hroom : ¬(limit ≠ 0 ∧ s.connections ≥ limit) :=
      fun hfull => absurd hlt (not_lt.mpr hfull.2)
    simp [act, hready, hroom]
  · rw [World.counting_set_of_eq rfl]
    exact hk

theorem Reached.add {k : Nat} (h : Reached limit k s) (i : ι)
    (hcounting : (s.workers i).pc = .counting) (hk : s.counting.card ≤ k) :
    ∃ t, Reached limit k t ∧ t.connections = s.connections + 1 ∧ (t.workers i).pc = .ready ∧
      ∀ j, j ≠ i → t.workers j = s.workers j := by
  obtain ⟨w, hw⟩ : ∃ w : Worker, w = ⟨.ready,
    (s.workers i).conns ++ [⟨(s.workers i).nextId, .busy⟩], (s.workers i).nextId + 1⟩ := ⟨_, rfl⟩
  have hpc : w.pc = .ready := by rw [hw]
  refine ⟨({ s with connections := s.connections + 1 } : World ι).set i w,
    h.next ⟨⟨.add i true, ?_⟩, ?_⟩, rfl, ?_, fun j hj => ?_⟩
  · simp [act, hcounting, hw]
  · rw [World.counting_set_of_ne (by simp [hpc])]
    exact Finset.card_erase_le.trans hk
  · simp [World.set, hpc]
  · simp [World.set, hj]

/-- One worker fills the Listen as far as the comparison allows. -/
theorem exists_filled {k : Nat} (hk : 1 ≤ k) (i : ι) (n : Nat) (hn : (n : Int) < limit) :
    ∃ s : World ι, Reached limit k s ∧ s.connections = n ∧ ∀ j, (s.workers j).pc = .ready := by
  induction n with
  | zero => exact ⟨.start, .start rfl, rfl, fun _ => rfl⟩
  | succ n ih =>
    obtain ⟨s, hs, hcount, hready⟩ := ih (by omega)
    have hempty : s.counting = ∅ := by
      ext j
      simp [World.mem_counting, hready]
    have haccept := hs.accept i (hready i) (by omega) (by simpa [hempty] using hk)
    obtain ⟨t, ht, hadd, hpc, hother⟩ := haccept.add i (by simp [World.set])
      (by simpa [World.counting_set_of_eq, hempty] using hk)
    refine ⟨t, ht, ?_, fun j => ?_⟩
    · rw [hadd]
      show s.connections + 1 = _
      omega
    · by_cases hj : j = i
      · rw [hj, hpc]
      · rw [hother j hj]
        simp [World.set, hj, hready]

/-- The workers of `K` all pass the comparison before one of them adds. -/
theorem exists_passed {k : Nat} (hs : Reached limit k s) (hlt : s.connections < limit)
    (hready : ∀ j, (s.workers j).pc = .ready) (K : Finset ι) (hK : K.card ≤ k) :
    ∃ t, Reached limit k t ∧ t.connections = s.connections ∧
      ∀ j, (t.workers j).pc = if j ∈ K then .counting else .ready := by
  induction K using Finset.induction_on with
  | empty => exact ⟨s, hs, rfl, fun j => by simp [hready]⟩
  | insert i K hi ih =>
    have hcard := Finset.card_insert_of_notMem hi
    obtain ⟨t, ht, hcount, hpc⟩ := ih (by omega)
    have hcounting : t.counting = K := by
      ext j
      by_cases hj : j ∈ K <;> simp [World.mem_counting, hpc, hj]
    refine ⟨_, ht.accept i (by simp [hpc, hi]) (by rw [hcount]; exact hlt)
      (by rw [hcounting]; exact hK), hcount, fun j => ?_⟩
    by_cases hj : j = i
    · simp [World.set, hj]
    · simp [World.set, hj, hpc, Finset.mem_insert]

theorem exists_added {k : Nat} (K : Finset ι) (hK : K.card ≤ k) (hs : Reached limit k s)
    (hpc : ∀ j, (s.workers j).pc = if j ∈ K then .counting else .ready) :
    ∃ t : World ι, Reached limit k t ∧ t.connections = s.connections + K.card := by
  induction K using Finset.induction_on generalizing s with
  | empty => exact ⟨s, hs, by simp⟩
  | insert i K hi ih =>
    have hcard := Finset.card_insert_of_notMem hi
    have hcounting : s.counting = insert i K := by
      ext j
      by_cases hj : j ∈ insert i K <;> simp [World.mem_counting, hpc, hj]
    obtain ⟨t, ht, hadd, hready, hother⟩ := hs.add i (by simp [hpc]) (by rw [hcounting]; exact hK)
    obtain ⟨u, hu, hcount⟩ := ih (by omega) ht fun j => by
      by_cases hj : j = i
      · rw [hj, hready, if_neg hi]
      · rw [hother j hj, hpc]
        simp [Finset.mem_insert, hj]
    exact ⟨u, hu, by rw [hcount, hadd, hcard]; push_cast; omega⟩

/-- With `k` workers between the comparison and the addition at a time, the counter gets to
`k - 1` above the limit and no further. -/
theorem connections_isGreatest {k : Nat} (hlimit : 0 < limit) (hk : 1 ≤ k)
    (hcard : k ≤ Fintype.card ι) :
    IsGreatest { n : Int | ∃ s : World ι, Reached limit k s ∧ s.connections = n }
      (limit + k - 1) := by
  constructor
  · obtain ⟨K, -, hK⟩ := Finset.exists_subset_card_eq
      (show k ≤ (Finset.univ : Finset ι).card from hcard)
    have hpos : 0 < K.card := by omega
    obtain ⟨i, -⟩ := Finset.card_pos.mp hpos
    have hfill : ((limit.toNat - 1 : Nat) : Int) < limit := by omega
    obtain ⟨s, hs, hcount, hready⟩ := exists_filled hk i (limit.toNat - 1) hfill
    obtain ⟨t, ht, hpassed, hpc⟩ := exists_passed hs (by omega) hready K hK.le
    obtain ⟨u, hu, hadded⟩ := exists_added K hK.le ht hpc
    exact ⟨u, hu, by rw [hadded, hpassed, hcount, hK]; omega⟩
  · rintro n ⟨s, hs, rfl⟩
    have hbounded := (hs.bounded hlimit).2
    have hle : s.connections.toNat + s.counting.card + 1 ≤ limit.toNat + k := hbounded
    omega

theorem connections_isGreatest_two_workers :
    IsGreatest { n : Int | ∃ s : World (Fin 2), Reached 100 2 s ∧ s.connections = n }
      (100 + (2 : Nat) - 1) :=
  connections_isGreatest (by decide) (by decide) (by decide)

theorem Counted.runActs {acts : List (Act ι)} (hs : Counted s)
    (h : runActs (ConnectionLimit.act limit) acts s = some t) : Counted t := by
  induction acts generalizing s with
  | nil =>
    cases h
    exact hs
  | cons a acts ih =>
    obtain ⟨u, hact, h⟩ := Option.bind_eq_some_iff.mp h
    exact ih (hs.act hact) h

/-- What is lost fills the Listen: no worker gets by the comparison. -/
theorem opened_act_le (hs : Counted s) (hlimit : 0 < limit) (hlost : limit ≤ s.lost)
    (hact : act limit s a = some t) :
    limit ≤ t.lost ∧ t.opened + t.counting.card ≤ s.opened + s.counting.card := by
  obtain ⟨i, w, n, l, rfl, hlen, hpass⟩ := act_passage hact
  have hset := World.opened_set (s := s) i w
  have hfull : limit ≤ s.connections := by
    rw [hs]
    omega
  have hless : limit ≤ ((s.lost + l : Nat) : Int) := by omega
  refine ⟨hless, ?_⟩
  show (s.set i w).opened + (s.set i w).counting.card ≤ s.opened + s.counting.card
  cases hpass with
  | pass h hw =>
    have hlt := h (by omega)
    omega
  | trade h hw =>
    have hcard := Finset.card_insert_le i s.counting
    rw [World.counting_set_of_eq hw]
    omega
  | add h hw =>
    have hcard := Finset.card_erase_add_one (World.mem_counting.mpr h)
    rw [World.counting_set_of_ne hw]
    omega
  | sub h hw =>
    have hcard : (s.counting.erase i).card ≤ s.counting.card := Finset.card_erase_le
    rw [World.counting_set_of_ne hw]
    omega
  | leave hw =>
    have hcard : (s.counting.erase i).card ≤ s.counting.card := Finset.card_erase_le
    rw [World.counting_set_of_ne hw]
    omega

theorem opened_runActs_le {acts : List (Act ι)} (hs : Counted s) (hlimit : 0 < limit)
    (hlost : limit ≤ s.lost) (h : runActs (act limit) acts s = some t) :
    t.opened + t.counting.card ≤ s.opened + s.counting.card := by
  induction acts generalizing s with
  | nil =>
    cases h
    exact le_rfl
  | cons a acts ih =>
    obtain ⟨u, hact, h⟩ := Option.bind_eq_some_iff.mp h
    obtain ⟨hlost, hle⟩ := opened_act_le hs hlimit hlost hact
    exact (ih (hs.act hact) hlost h).trans hle

/-- The counter is the open connections with those that died uncounted; once these reach the limit,
the Listen's connections grow no more in any run. -/
theorem lost_connections_stay {acts more : List (Act ι)} (hlimit : 0 < limit)
    (hrun : runActs (act limit) acts .start = some s) :
    s.connections = s.opened + s.lost ∧
      (limit ≤ s.lost → ∀ t, runActs (act limit) more s = some t →
        t.opened + t.counting.card ≤ s.opened + s.counting.card) := by
  have hs : Counted s :=
    Counted.runActs (by simp [Counted, World.opened, World.start, Worker.start]) hrun
  exact ⟨hs, fun hlost t h => opened_runActs_le hs hlimit hlost h⟩

theorem lost_connections_stay_dead_worker : ∃ s : World (Fin 1),
    runActs (act 1) [.accept 0, .add 0 true, .die 0] .start = some s ∧ (1 : Int) ≤ s.lost ∧
      ∀ more t, runActs (act 1) more s = some t →
        t.opened + t.counting.card ≤ s.opened + s.counting.card := by
  obtain ⟨s, hs⟩ : ∃ s : World (Fin 1),
    runActs (act 1) [.accept 0, .add 0 true, .die 0] .start = some s := ⟨_, rfl⟩
  have hlost : (1 : Int) ≤ s.lost := by
    cases hs
    decide
  exact ⟨s, hs, hlost, fun more t h => (lost_connections_stay (by decide) hs).2 hlost t h⟩

end Invariant

end ConnectionLimit
end Phorklift
