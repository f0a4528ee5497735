import Phorklift.Transition

/-! The master's table of its workers, over forks that fail, deaths, respawns and reloads. -/

namespace Phorklift

open Transition

section Model

/-- What `waitpid` tells of a child. -/
inductive WaitStatus
  | exited
  | signaled
  | other
  deriving DecidableEq

/-- The master and the processes it has started. -/
structure Master where
  /-- `phl_workers`, with its end marker; empty where it is NULL -/
  phlWorkers : List Int
  /-- the workers of the running configuration -/
  live : List Int
  /-- the workers of earlier configurations -/
  old : List Int
  /-- the dead that have not been waited for -/
  dead : List (Int × WaitStatus)
  /-- those that were sent SIGQUIT at a reload -/
  quit : List Int
  deriving DecidableEq

namespace Master

/-- The entries before the first -1, which the loops go over. -/
def listed (m : Master) : List Int := m.phlWorkers.takeWhile (· ≠ -1)

/-- Whom a loop over the table sends a signal. -/
def phlSignalDispatch (m : Master) : List Int := m.listed.filter (· ≠ 0)

/-- `phl_worker_new` in the master, with the result of `fork`. -/
def phlWorkerNew (fork : Int) : Int := if fork < 0 then -1 else fork

/-- The loop that puts a new worker in the place of a dead one. -/
def respawn (pid new : Int) : List Int → List Int
  | [] => []
  | w :: workers =>
    if w = -1 then w :: workers
    else if pid = w then new :: workers
    else w :: respawn pid new workers

/-- One round of `phl_worker_check`, where `waitpid` gives a child. -/
def phlWorkerCheck (pid : Int) (status : WaitStatus) (fork : Int) (m : Master) : Master :=
  let m := { m with dead := m.dead.erase (pid, status) }
  match status with
  | .signaled =>
    if pid ∈ m.listed then
      { m with
        phlWorkers := respawn pid (phlWorkerNew fork) m.phlWorkers
        live := if 0 < fork then fork :: m.live else m.live }
    else m
  | _ => m

/-- `phl_run` with a configuration that is parsed, and a fork for each worker. -/
def phlRun (forks : List Int) (m : Master) : Master :=
  { m with
    phlWorkers := forks.map phlWorkerNew ++ [-1]
    live := forks.filter (0 < ·)
    old := m.old ++ m.live
    quit := m.quit ++ m.phlSignalDispatch }

/-- A fork fails, or gives a process that is none of the master's children. -/
def Forks (m : Master) (fork : Int) : Prop :=
  fork < 0 ∨ 0 < fork ∧ fork ∉ m.live ∧ fork ∉ m.old ∧ fork ∉ m.dead.map (·.1)

instance (m : Master) (fork : Int) : Decidable (m.Forks fork) := by
  unfold Forks
  infer_instance

end Master

inductive MasterAct
  /-- `phl_run` at the start or at a reload -/
  | run (parsed : Bool) (forks : List Int)
  | die (pid : Int) (status : WaitStatus)
  | check (pid : Int) (status : WaitStatus) (fork : Int)

/-- A step of the master or of its workers, with what the kernel may give. -/
def masterStep (m : Master) : MasterAct → Option Master
  | .run parsed forks =>
    if parsed = false then some m
    else if forks ≠ [] ∧ (∀ fork ∈ forks, m.Forks fork) ∧ (forks.filter (0 < ·)).Nodup then
      some (m.phlRun forks)
    else none
  | .die pid status =>
    if pid ∈ m.live ∨ pid ∈ m.old then
      some { m with
        live := m.live.filter (· ≠ pid)
        old := m.old.filter (· ≠ pid)
        dead := (pid, status) :: m.dead }
    else none
  | .check pid status fork =>
    if (pid, status) ∈ m.dead ∧ m.Forks fork then some (m.phlWorkerCheck pid status fork) else none

def MasterStart (m : Master) : Prop := m = ⟨[], [], [], [], []⟩

/-- The loops over the table reach every worker of the running configuration, and have reached those
of earlier ones. -/
structure Reaches (m : Master) : Prop where
  live : ∀ p ∈ m.live, p ∈ m.listed
  old : ∀ p ∈ m.old, p ∈ m.quit

/-- A fork that fails leaves no worker behind it: none of those that are started together comes
after it, and none that lives is listed only behind the dead one. -/
def LeavesNoneBehind (m : Master) : MasterAct → Prop
  | .run true forks => ∀ fork ∈ forks.dropWhile (0 < ·), fork < 0
  | .check pid .signaled fork =>
    fork < 0 → pid ∈ m.listed → ∀ p ∈ m.live, p ∈ m.listed.takeWhile (· ≠ pid)
  | _ => True

/-- What the kernel keeps of the processes. -/
structure Apart (m : Master) : Prop where
  pos : ∀ p ∈ m.live, 0 < p
  old : ∀ p ∈ m.live, p ∉ m.old
  dead : ∀ p ∈ m.live, p ∉ m.dead.map (·.1)

end Model

section Table

variable {pid new p : Int} {workers forks : List Int}

theorem phlWorkerNew_pos (h : 0 < new) : Master.phlWorkerNew new = new := by
  unfold Master.phlWorkerNew
  have hnot : ¬new < 0 := by omega
  exact if_neg hnot

theorem phlWorkerNew_neg (h : new < 0) : Master.phlWorkerNew new = -1 := by
  unfold Master.phlWorkerNew
  exact if_pos h

theorem takeWhile_ne_cons {x w : Int} (h : w ≠ x) :
    (w :: workers).takeWhile (· ≠ x) = w :: workers.takeWhile (· ≠ x) := by
  rw [List.takeWhile_cons]
  exact if_pos (decide_eq_true h)

theorem takeWhile_ne_self {x : Int} : (x :: workers).takeWhile (· ≠ x) = [] := by
  rw [List.takeWhile_cons]
  exact if_neg (by simp)

theorem listed_run (h : ∀ fork ∈ forks, fork ≠ 0) :
    (forks.map Master.phlWorkerNew ++ [-1]).takeWhile (· ≠ -1) = forks.takeWhile (0 < ·) := by
  induction forks with
  | nil => rfl
  | cons fork forks ih =>
    obtain ⟨hne, h⟩ := List.forall_mem_cons.mp h
    rw [List.map_cons, List.cons_append]
    by_cases hpos : 0 < fork
    · have hmark : fork ≠ -1 := by omega
      have hfirst : (fork :: forks).takeWhile (0 < ·) = fork :: forks.takeWhile (0 < ·) := by
        rw [List.takeWhile_cons]
        exact if_pos (decide_eq_true hpos)
      rw [phlWorkerNew_pos hpos, takeWhile_ne_cons hmark, ih h, hfirst]
    · have hneg : fork < 0 := by omega
      have hnone : (fork :: forks).takeWhile (0 < ·) = [] := by
        rw [List.takeWhile_cons]
        exact if_neg (by simpa using hpos)
      rw [phlWorkerNew_neg hneg, takeWhile_ne_self, hnone]

/-- The marker that a failed fork leaves ends the table at the entry of the dead worker. -/
theorem listed_respawn_failed (h : pid ∈ workers.takeWhile (· ≠ -1)) :
    (Master.respawn pid (-1) workers).takeWhile (· ≠ -1) =
      (workers.takeWhile (· ≠ -1)).takeWhile (· ≠ pid) := by
  induction workers with
  | nil => cases h
  | cons w workers ih =>
    unfold Master.respawn
    by_cases hmark : w = -1
    · rw [hmark, takeWhile_ne_self] at h
      cases h
    · rw [takeWhile_ne_cons hmark] at h ⊢
      rw [if_neg hmark]
      by_cases hpid : pid = w
      · rw [if_pos hpid, hpid, takeWhile_ne_self, takeWhile_ne_self]
      · have hrest := (List.mem_cons.mp h).resolve_left hpid
        rw [if_neg hpid, takeWhile_ne_cons hmark, takeWhile_ne_cons (Ne.symm hpid), ih hrest]

theorem listed_respawn (h : pid ∈ workers.takeWhile (· ≠ -1)) (hnew : new ≠ -1) :
    new ∈ (Master.respawn pid new workers).takeWhile (· ≠ -1) ∧
      ∀ p ∈ workers.takeWhile (· ≠ -1), p ≠ pid →
        p ∈ (Master.respawn pid new workers).takeWhile (· ≠ -1) := by
  induction workers with
  | nil => cases h
  | cons w workers ih =>
    unfold Master.respawn
    by_cases hmark : w = -1
    · rw [hmark, takeWhile_ne_self] at h
      cases h
    · rw [takeWhile_ne_cons hmark] at h ⊢
      rw [if_neg hmark]
      by_cases hpid : pid = w
      · rw [if_pos hpid, takeWhile_ne_cons hnew]
        refine ⟨List.mem_cons_self, fun p hp hne => List.mem_cons_of_mem _ ?_⟩
        exact (List.mem_cons.mp hp).resolve_left fun hw => hne (hw.trans hpid.symm)
      · have hrest := (List.mem_cons.mp h).resolve_left hpid
        obtain ⟨hin, hkept⟩ := ih hrest
        rw [if_neg hpid, takeWhile_ne_cons hmark]
        refine ⟨List.mem_cons_of_mem _ hin, fun p hp hne => ?_⟩
        rcases List.mem_cons.mp hp with rfl | hp
        · exact List.mem_cons_self
        · exact List.mem_cons_of_mem _ (hkept p hp hne)

/-- All that were started are before the first fork that failed exactly where none comes after
it. -/
theorem started_listed (h : ∀ fork ∈ forks, fork ≠ 0) (hnodup : (forks.filter (0 < ·)).Nodup) :
    (∀ p ∈ forks.filter (0 < ·), p ∈ forks.takeWhile (0 < ·)) ↔
      ∀ fork ∈ forks.dropWhile (0 < ·), fork < 0 := by
  have hsplit : forks.takeWhile (0 < ·) ++ forks.dropWhile (0 < ·) = forks :=
    List.takeWhile_append_dropWhile
  constructor
  · intro hall fork hfork
    have hmem : fork ∈ forks := (List.dropWhile_suffix _).subset hfork
    by_contra hnot
    have hpos : 0 < fork := by
      have hne := h fork hmem
      omega
    have hfirst := hall fork (List.mem_filter.mpr ⟨hmem, decide_eq_true hpos⟩)
    rw [← hsplit, List.filter_append, List.nodup_append] at hnodup
    have hboth : ∀ {l : List Int}, fork ∈ l → fork ∈ l.filter (0 < ·) :=
      fun hl => List.mem_filter.mpr ⟨hl, decide_eq_true hpos⟩
    exact hnodup.2.2 _ (hboth hfirst) _ (hboth hfork) rfl
  · intro hall p hp
    obtain ⟨hmem, hpos⟩ := List.mem_filter.mp hp
    rw [← hsplit] at hmem
    rcases List.mem_append.mp hmem with hmem | hmem
    · exact hmem
    · have hneg := hall p hmem
      have hlt : 0 < p := of_decide_eq_true hpos
      omega

end Table

section Run

variable {m m' : Master} {a : MasterAct}

theorem Reaches.dispatch (h : Reaches m) (hm : Apart m) : ∀ p ∈ m.live, p ∈ m.phlSignalDispatch := by
  intro p hp
  have hpos := hm.pos p hp
  have hne : p ≠ 0 := by omega
  exact List.mem_filter.mpr ⟨h.live p hp, decide_eq_true hne⟩

theorem phlRun_reaches {forks : List Int} (hm : Apart m) (h : Reaches m)
    (hforks : ∀ fork ∈ forks, m.Forks fork) (hnodup : (forks.filter (0 < ·)).Nodup) :
    Apart (m.phlRun forks) ∧ (Reaches (m.phlRun forks) ↔
      ∀ fork ∈ forks.dropWhile (0 < ·), fork < 0) := by
  have hne : ∀ fork ∈ forks, fork ≠ 0 := by
    intro fork hfork
    rcases hforks fork hfork with hneg | ⟨hpos, -⟩ <;> omega
  have hnew : ∀ p ∈ forks.filter (0 < ·), 0 < p ∧ p ∉ m.live ∧ p ∉ m.old ∧
      p ∉ m.dead.map (·.1) := by
    intro p hp
    obtain ⟨hmem, hpos⟩ := List.mem_filter.mp hp
    have hlt : 0 < p := of_decide_eq_true hpos
    rcases hforks p hmem with hneg | hfresh
    · omega
    · exact hfresh
  constructor
  · refine ⟨fun p hp => (hnew p hp).1, fun p hp hold => ?_, fun p hp => (hnew p hp).2.2.2⟩
    rcases List.mem_append.mp hold with hold | hlive
    · exact (hnew p hp).2.2.1 hold
    · exact (hnew p hp).2.1 hlive
  · rw [← started_listed hne hnodup, ← listed_run hne]
    constructor
    · exact fun hreaches => hreaches.live
    · intro hlive
      refine ⟨hlive, fun p hp => ?_⟩
      rcases List.mem_append.mp hp with hold | hlive
      · exact List.mem_append_left _ (h.old p hold)
      · exact List.mem_append_right _ (h.dispatch hm p hlive)

theorem Apart.reap (hm : Apart m) (x : Int × WaitStatus) :
    Apart { m with dead := m.dead.erase x } := by
  refine ⟨hm.pos, hm.old, fun p hp hdead => hm.dead p hp ?_⟩
  obtain ⟨y, hy, rfl⟩ := List.mem_map.mp hdead
  exact List.mem_map_of_mem (List.mem_of_mem_erase hy)

theorem phlWorkerCheck_reaches {pid fork : Int} {status : WaitStatus} (hm : Apart m)
    (h : Reaches m) (hdead : (pid, status) ∈ m.dead) (hfork : m.Forks fork) :
    Apart (m.phlWorkerCheck pid status fork) ∧ (Reaches (m.phlWorkerCheck pid status fork) ↔
      LeavesNoneBehind m (.check pid status fork)) := by
  have hreaped := hm.reap (pid, status)
  have hsame : Reaches { m with dead := m.dead.erase (pid, status) } := ⟨h.live, h.old⟩
  cases status with
  | exited => exact ⟨hreaped, iff_of_true hsame trivial⟩
  | other => exact ⟨hreaped, iff_of_true hsame trivial⟩
  | signaled =>
    have hlisted : { m with dead := m.dead.erase (pid, .signaled) }.listed = m.listed := rfl
    unfold Master.phlWorkerCheck LeavesNoneBehind
    dsimp only
    rw [hlisted]
    by_cases hin : pid ∈ m.listed
    · rw [if_pos hin]
      rcases hfork with hneg | ⟨hpos, hlive, hold, hfree⟩
      · have hnot : ¬0 < fork := by omega
        have hcut : (Master.respawn pid (-1) m.phlWorkers).takeWhile (· ≠ -1) =
            m.listed.takeWhile (· ≠ pid) := listed_respawn_failed hin
        rw [if_neg hnot, phlWorkerNew_neg hneg, ← hcut]
        refine ⟨⟨hreaped.pos, hreaped.old, hreaped.dead⟩, ?_⟩
        constructor
        · exact fun hreaches _ _ => hreaches.live
        · exact fun hall => ⟨hall hneg hin, h.old⟩
      · have hmark : fork ≠ -1 := by omega
        obtain ⟨hnew, hkept⟩ := listed_respawn hin hmark
        rw [if_pos hpos, phlWorkerNew_pos hpos]
        constructor
        · refine ⟨List.forall_mem_cons.mpr ⟨hpos, hm.pos⟩, List.forall_mem_cons.mpr ⟨hold, hm.old⟩,
            List.forall_mem_cons.mpr ⟨fun hdead' => hfree ?_, hreaped.dead⟩⟩
          obtain ⟨y, hy, hpid⟩ := List.mem_map.mp hdead'
          rw [← hpid]
          exact List.mem_map_of_mem (List.mem_of_mem_erase hy)
        · refine iff_of_true ⟨List.forall_mem_cons.mpr ⟨hnew, fun p hp => ?_⟩, h.old⟩ ?_
          · refine hkept p (h.live p hp) fun hpid => hm.dead p hp ?_
            rw [hpid]
            exact List.mem_map_of_mem hdead
          · intro hneg
            omega
    · rw [if_neg hin]
      exact ⟨hreaped, iff_of_true hsame fun _ hmem => absurd hmem hin⟩

/-- What one step keeps. -/
theorem masterStep_reaches (hm : Apart m) (h : Reaches m) (hstep : masterStep m a = some m') :
    Apart m' ∧ (Reaches m' ↔ LeavesNoneBehind m a) := by
  cases a with
  | run parsed forks =>
    unfold masterStep at hstep
    cases parsed with
    | false =>
      cases Option.some.inj hstep
      exact ⟨hm, iff_of_true h trivial⟩
    | true =>
      dsimp only at hstep
      rw [if_neg (by decide)] at hstep
      split at hstep
      next hgiven =>
        cases Option.some.inj hstep
        exact phlRun_reaches hm h hgiven.2.1 hgiven.2.2
      next => cases hstep
  | die pid status =>
    unfold masterStep at hstep
    dsimp only at hstep
    split at hstep
    next hchild =>
      cases Option.some.inj hstep
      have hlive : ∀ p ∈ m.live.filter (· ≠ pid), p ∈ m.live ∧ p ≠ pid := by
        intro p hp
        obtain ⟨hmem, hne⟩ := List.mem_filter.mp hp
        exact ⟨hmem, of_decide_eq_true hne⟩
      constructor
      · refine ⟨fun p hp => hm.pos p (hlive p hp).1, fun p hp hold => ?_, fun p hp hdead => ?_⟩
        · exact hm.old p (hlive p hp).1 (List.mem_filter.mp hold).1
        · rcases List.mem_cons.mp hdead with hpid | hdead
          · exact (hlive p hp).2 hpid
          · exact hm.dead p (hlive p hp).1 hdead
      · refine iff_of_true ⟨fun p hp => h.live p (hlive p hp).1, fun p hp => ?_⟩ trivial
        exact h.old p (List.mem_filter.mp hp).1
    next => cases hstep
  | check pid status fork =>
    unfold masterStep at hstep
    dsimp only at hstep
    split at hstep
    next hgiven =>
      cases Option.some.inj hstep
      exact phlWorkerCheck_reaches hm h hgiven.1 hgiven.2
    next => cases hstep

end Run

section Examples

def notStarted : Master := ⟨[], [], [], [], []⟩

/-- Two workers, one of which is killed and replaced, and a reload. -/
def respawned : List MasterAct :=
  [.run true [101, 102], .die 101 .signaled, .check 101 .signaled 103, .run true [104, 105]]

end Examples

end Phorklift
