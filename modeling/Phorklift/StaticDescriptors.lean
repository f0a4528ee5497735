import Phorklift.StaticFile
import Phorklift.Transition

/-! The descriptors that the static module opens. -/

namespace Phorklift.Static

open Transition

/-- The descriptors, and the contexts of the requests that have one. -/
structure OpenFiles where
  fds : Descriptors
  ctxs : List (Nat × Nat)

inductive FileAct
  /-- the handler is called for a request, which has no context -/
  | answer (id : Nat) (server : Server) (req : Req) (resp : Resp)
  /-- the contexts of a request are freed, at its end or in a redirect -/
  | free (id : Nat)

/-- `server.fds` is not looked at. -/
def fileAct (s : OpenFiles) : FileAct → Option OpenFiles
  | .answer id server req resp =>
    if id ∈ s.ctxs.map Prod.fst then none
    else
      let answer := Server.answer { server with fds := s.fds } req resp
      some ⟨answer.fds, if answer.ctx ≠ 0 then s.ctxs ++ [(id, answer.ctx)] else s.ctxs⟩
  | .free id =>
    match s.ctxs.find? (·.1 = id) with
    | none => some s
    | some ctx => some ⟨phlStaticCtxFree ctx.2 s.fds, s.ctxs.erase ctx⟩

/-- A directory is asked for that is neither listed nor has an index. -/
def FileAct.forgets : FileAct → Bool
  | .answer _ server req _ =>
    match server.disk.openat server.conf.dir (staticFilename req) with
    | none => false
    | some dir =>
      (server.disk.inode dir).ftype = .directory && !server.conf.listDir && server.conf.index.isNone
  | .free _ => false

def OpenFiles.init : OpenFiles := ⟨⟨0, []⟩, []⟩

/-- Where each descriptor is that the module was given: closed, with a request, or forgotten; none
is in two places. -/
structure Accounted (lost : Nat) (s : OpenFiles) : Prop where
  once : (s.fds.closed ++ s.ctxs.map Prod.snd).Nodup
  given : ∀ fd ∈ s.fds.closed ++ s.ctxs.map Prod.snd, 0 < fd ∧ fd ≤ s.fds.opened
  count : s.fds.opened = s.fds.closed.length + s.ctxs.length + lost

variable {s t : OpenFiles} {lost : Nat}

theorem opened_fds (http : WuyHttp) (req : Req) (filename : Bytes) (file : Inode) (fd : Nat)
    (fds : Descriptors) (resp : Resp) :
    (phlStaticOpened http req filename file fd fds resp).fds = fds ∧
      (phlStaticOpened http req filename file fd fds resp).ctx = fd := by
  unfold phlStaticOpened
  dsimp only
  split
  next => exact ⟨rfl, rfl⟩
  next =>
    split
    next => exact ⟨rfl, rfl⟩
    next =>
      split
      next =>
        split
        next => exact ⟨rfl, rfl⟩
        next =>
          split
          next => exact ⟨rfl, rfl⟩
          next => exact ⟨rfl, rfl⟩
      next => exact ⟨rfl, rfl⟩

/-- Nothing is opened; or one descriptor, which is forgotten, closed or kept; or two, the first of
which is closed and the second kept. -/
theorem answer_fds (server : Server) (id : Nat) (req : Req) (resp : Resp) :
    let answer := server.answer req resp
    let fds := server.fds
    let forgets := (FileAct.answer id server req resp).forgets
    forgets = false ∧ answer.ctx = 0 ∧ answer.fds = fds ∨
    forgets = true ∧ answer.ctx = 0 ∧ answer.fds = fds.open.2 ∨
    forgets = false ∧ answer.ctx = 0 ∧ answer.fds = fds.open.2.close fds.open.1 ∨
    forgets = false ∧ answer.ctx = fds.open.1 ∧ answer.fds = fds.open.2 ∨
    forgets = false ∧ answer.ctx = fds.open.2.open.1 ∧
      answer.fds = fds.open.2.open.2.close fds.open.1 := by
  dsimp only
  unfold Server.answer phlStaticGenerateResponseHeaders FileAct.forgets
  cases hdir : server.disk.openat server.conf.dir (staticFilename req) with
  | none =>
    left
    simp only [hdir, and_self]
  | some dir =>
    simp only [hdir]
    by_cases htype : (server.disk.inode dir).ftype = .directory
    · rw [if_pos htype, decide_eq_true htype, Bool.true_and]
      cases server.conf.listDir with
      | true => exact .inr (.inr (.inl ⟨rfl, rfl, rfl⟩))
      | false =>
        cases server.conf.index with
        | none => exact .inr (.inl ⟨rfl, rfl, rfl⟩)
        | some index =>
          simp only
          cases server.disk.openat dir index with
          | none => exact .inr (.inr (.inl ⟨rfl, rfl, rfl⟩))
          | some file =>
            obtain ⟨hfds, hctx⟩ := opened_fds server.http req (staticFilename req)
              (server.disk.inode file) server.fds.open.2.open.1
              (server.fds.open.2.open.2.close server.fds.open.1)
              { resp with headers := resp.headers ++ [phorkliftServer] }
            exact .inr (.inr (.inr (.inr ⟨rfl, hctx, hfds⟩)))
    · rw [if_neg htype, decide_eq_false htype]
      obtain ⟨hfds, hctx⟩ := opened_fds server.http req (staticFilename req) (server.disk.inode dir)
        server.fds.open.1 server.fds.open.2
        { resp with headers := resp.headers ++ [phorkliftServer] }
      exact .inr (.inr (.inr (.inl ⟨rfl, hctx, hfds⟩)))

/-- The descriptor that was just given is nowhere yet. -/
theorem Accounted.fresh (h : Accounted lost s) {n : Nat} (hn : s.fds.opened < n) :
    n ∉ s.fds.closed ++ s.ctxs.map Prod.snd := by
  intro hmem
  have hle := (h.given n hmem).2
  omega

theorem Accounted.close (h : Accounted lost s) :
    Accounted lost ⟨s.fds.open.2.close s.fds.open.1, s.ctxs⟩ where
  once := by
    have hperm : (s.fds.closed ++ [s.fds.opened + 1] ++ s.ctxs.map Prod.snd).Perm
        ((s.fds.opened + 1) :: (s.fds.closed ++ s.ctxs.map Prod.snd)) := by
      rw [List.append_assoc]
      exact List.perm_middle
    exact hperm.nodup_iff.mpr (List.nodup_cons.mpr ⟨h.fresh (Nat.lt_succ_self _), h.once⟩)
  given fd hmem := by
    have hmem : fd ∈ s.fds.closed ++ [s.fds.opened + 1] ++ s.ctxs.map Prod.snd := hmem
    show 0 < fd ∧ fd ≤ s.fds.opened + 1
    simp only [List.mem_append, List.mem_singleton] at hmem
    rcases hmem with (hclosed | rfl) | hctx
    · have hgiven := h.given fd (List.mem_append_left _ hclosed)
      omega
    · omega
    · have hgiven := h.given fd (List.mem_append_right _ hctx)
      omega
  count := by
    have hcount := h.count
    show s.fds.opened + 1 = (s.fds.closed ++ [s.fds.opened + 1]).length + s.ctxs.length + lost
    rw [List.length_append, List.length_singleton]
    omega

theorem Accounted.keep (h : Accounted lost s) (id : Nat) :
    Accounted lost ⟨s.fds.open.2, s.ctxs ++ [(id, s.fds.open.1)]⟩ where
  once := by
    show (s.fds.closed ++ (s.ctxs ++ [(id, s.fds.opened + 1)]).map Prod.snd).Nodup
    rw [List.map_append, ← List.append_assoc]
    exact (List.perm_append_singleton _ _).nodup_iff.mpr
      (List.nodup_cons.mpr ⟨h.fresh (Nat.lt_succ_self _), h.once⟩)
  given fd hmem := by
    have hmem : fd ∈ s.fds.closed ++ (s.ctxs ++ [(id, s.fds.opened + 1)]).map Prod.snd := hmem
    show 0 < fd ∧ fd ≤ s.fds.opened + 1
    rw [List.map_append, ← List.append_assoc] at hmem
    rcases List.mem_append.mp hmem with hold | hnew
    · have hgiven := h.given fd hold
      omega
    · rw [List.mem_singleton.mp hnew]
      exact ⟨Nat.succ_pos _, Nat.le_refl _⟩
  count := by
    have hcount := h.count
    show s.fds.opened + 1 = s.fds.closed.length + (s.ctxs ++ [(id, s.fds.opened + 1)]).length + lost
    rw [List.length_append, List.length_singleton]
    omega

theorem Accounted.forget (h : Accounted lost s) : Accounted (lost + 1) ⟨s.fds.open.2, s.ctxs⟩ where
  once := h.once
  given fd hmem := by
    have hgiven := h.given fd hmem
    show 0 < fd ∧ fd ≤ s.fds.opened + 1
    omega
  count := by
    have hcount := h.count
    show s.fds.opened + 1 = s.fds.closed.length + s.ctxs.length + (lost + 1)
    omega

theorem Accounted.free (h : Accounted lost s) {ctx : Nat × Nat} (hctx : ctx ∈ s.ctxs) :
    Accounted lost ⟨phlStaticCtxFree ctx.2 s.fds, s.ctxs.erase ctx⟩ := by
  have hpos := (h.given ctx.2 (List.mem_append_right _ (List.mem_map_of_mem hctx))).1
  have hfree : phlStaticCtxFree ctx.2 s.fds = s.fds.close ctx.2 :=
    if_pos (Nat.pos_iff_ne_zero.mp hpos)
  have hperm : (s.fds.closed ++ [ctx.2] ++ (s.ctxs.erase ctx).map Prod.snd).Perm
      (s.fds.closed ++ s.ctxs.map Prod.snd) := by
    rw [List.append_assoc]
    exact List.Perm.append_left _ ((List.perm_cons_erase hctx).map Prod.snd).symm
  rw [hfree]
  refine ⟨hperm.nodup_iff.mpr h.once, fun fd hmem => h.given fd (hperm.mem_iff.mp hmem), ?_⟩
  have hcount := h.count
  have hpositive := List.length_pos_of_mem hctx
  show s.fds.opened = (s.fds.closed ++ [ctx.2]).length + (s.ctxs.erase ctx).length + lost
  rw [List.length_append, List.length_singleton, List.length_erase_of_mem hctx]
  omega

theorem Accounted.act (h : Accounted lost s) {a : FileAct} (hact : fileAct s a = some t) :
    Accounted (lost + if a.forgets then 1 else 0) t := by
  cases a with
  | free id =>
    have hforgets : (FileAct.free id).forgets = false := rfl
    rw [hforgets]
    unfold fileAct at hact
    dsimp only at hact
    cases hfind : s.ctxs.find? (·.1 = id) with
    | none =>
      rw [hfind] at hact
      cases hact
      exact h
    | some ctx =>
      rw [hfind] at hact
      cases hact
      exact h.free (List.mem_of_find?_eq_some hfind)
  | answer id server req resp =>
    unfold fileAct at hact
    dsimp only at hact
    split at hact
    next => cases hact
    next =>
      have hfds := answer_fds { server with fds := s.fds } id req resp
      have hforgets : (FileAct.answer id { server with fds := s.fds } req resp).forgets =
        (FileAct.answer id server req resp).forgets := rfl
      dsimp only at hfds
      rw [hforgets] at hfds
      cases hact
      rcases hfds with ⟨hnot, hctx, hfds⟩ | ⟨hyes, hctx, hfds⟩ | ⟨hnot, hctx, hfds⟩ |
        ⟨hnot, hctx, hfds⟩ | ⟨hnot, hctx, hfds⟩
      · rw [hnot, hfds, if_neg (not_not.mpr hctx)]
        exact h
      · rw [hyes, hfds, if_neg (not_not.mpr hctx)]
        exact h.forget
      · rw [hnot, hfds, if_neg (not_not.mpr hctx)]
        exact h.close
      · rw [hnot, hfds, hctx, if_pos (show s.fds.open.1 ≠ 0 from Nat.succ_ne_zero _)]
        exact h.keep id
      · rw [hnot, hfds, hctx, if_pos (show s.fds.open.2.open.1 ≠ 0 from Nat.succ_ne_zero _)]
        exact h.close.keep id

theorem Accounted.runActs {acts : List FileAct} (h : Accounted lost s)
    (hrun : runActs fileAct acts s = some t) :
    Accounted (lost + acts.countP FileAct.forgets) t := by
  induction acts generalizing s lost with
  | nil =>
    cases hrun
    exact h
  | cons a acts ih =>
    obtain ⟨u, hact, hrun⟩ := Option.bind_eq_some_iff.mp hrun
    have hrest := ih (h.act hact) hrun
    rw [List.countP_cons]
    rwa [Nat.add_assoc, Nat.add_comm (if a.forgets then 1 else 0)] at hrest

/-- In every run each descriptor is closed once, or with one request, or was that of a directory
that is neither listed nor has an index. -/
theorem descriptors_accounted {acts : List FileAct} (hrun : runActs fileAct acts .init = some s) :
    Accounted (acts.countP FileAct.forgets) s := by
  have hinit : Accounted 0 .init := ⟨List.nodup_nil, nofun, rfl⟩
  have hall := hinit.runActs hrun
  rwa [Nat.zero_add] at hall

theorem noContent_lt : ([] : Bytes).length < 2 ^ 63 := by decide

/-- A directory that has nothing. -/
def emptyDirectory : Server where
  http := ⟨fun _ _ => none, fun _ => 0, fun _ => []⟩
  lib := .plain
  stale := fun _ => 0
  conf := ⟨0, none, false⟩
  disk := ⟨fun _ _ => some 0, fun _ => ⟨.directory, 5, [], [], noContent_lt, names_nil⟩⟩
  fds := ⟨0, []⟩

def askedTwice : List FileAct :=
  [.answer 1 emptyDirectory .init .init, .free 1, .answer 2 emptyDirectory .init .init]

theorem descriptors_accounted_forgotten : ∃ s : OpenFiles,
    runActs fileAct askedTwice .init = some s ∧
      Accounted (askedTwice.countP FileAct.forgets) s := by
  obtain ⟨s, hs⟩ : ∃ s, runActs fileAct askedTwice .init = some s := ⟨_, by with_unfolding_all rfl⟩
  exact ⟨s, hs, descriptors_accounted hs⟩

example : askedTwice.countP FileAct.forgets = 2 := by with_unfolding_all rfl

end Phorklift.Static
