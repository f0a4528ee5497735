import Phorklift.LogBuffer
import Phorklift.RefTable

/-! The open log files while configurations come and go. -/

namespace Phorklift.LogFiles

open RefTable Transition

/-- A string, and the pool that its bytes are in; a literal is in none. -/
structure Name where
  text : Bytes
  pool : Option Nat
  deriving DecidableEq

/-- What a `phl_log_file` has from its opening, beside the bytes of its name: where these are, and
its `buf_size`. Its id stands for its descriptor. -/
structure Opening where
  pool : Option Nat
  bufSize : Int

/-- `phl_conf_runtime`: its pool, and `error_log->filename`. -/
abbrev Runtime := Nat × Name

structure LogConfs where
  /-- `phl_log_file_list` -/
  files : Table Bytes Opening
  /-- the error logs of the pools there are, with their files -/
  logs : List (Nat × Nat)
  /-- the files of all access logs, which have no function that frees them -/
  accessLogs : List Nat
  pools : Nat
  destroyed : List Nat
  /-- pools of dynamic sub-configurations -/
  subs : List Nat
  runtime : Option Runtime
  /-- `backup_runtime`, while a configuration is parsed -/
  backup : Option (Option Runtime)

def LogConfs.init : LogConfs := ⟨.empty, [], [], 0, [], [], none, none⟩

/-- The bytes that the pointer goes to are there. -/
def Live (destroyed : List Nat) (pool : Option Nat) : Prop := ∀ p, pool = some p → p ∉ destroyed

instance (destroyed : List Nat) (pool : Option Nat) : Decidable (Live destroyed pool) :=
  match pool with
  | none => isTrue nofun
  | some p => decidable_of_iff (p ∉ destroyed)
      ⟨fun h _ hq => Option.some.inj hq ▸ h, fun h => h p rfl⟩

/-- The loop of `phl_log_file_open`; none where it reads a name that was freed. -/
def searchFile (destroyed : List Nat) (filename : Bytes) :
    List (Entry Bytes Opening) → Option (Option (Entry Bytes Opening))
  | [] => some none
  | file :: files =>
    if ¬Live destroyed file.val.pool then none
    else if file.key = filename then some (some file)
    else searchFile destroyed filename files

/-- `phl_log_file_open`, where `open` gives a descriptor or does not. -/
def phlLogFileOpen (s : LogConfs) (filename : Name) (bufSize : Int) (opens : Bool) :
    Option (Option (Nat × Table Bytes Opening)) :=
  (searchFile s.destroyed filename.text s.files.entries).map fun file =>
    if file.isNone ∧ opens = false then none
    else some (s.files.acquire filename.text ⟨filename.pool, bufSize⟩)

/-- The filename after the post function of the table. -/
def logName (s : LogConfs) (pool : Nat) (log : LogConf) : Name :=
  match log.filename, log.table with
  | some text, _ => ⟨text, some pool⟩
  | none, .errorLog _ => (s.runtime.map (·.2)).getD ⟨bytes "error.log", none⟩
  | none, .accessLog => ⟨bytes "access.log", none⟩

/-- The limits of the commands and the checks of the post function, up to the opening. -/
def logSize (log : LogConf) : Option Int :=
  match log.table with
  | .errorLog levelStr =>
    if 0 ≤ log.bufSize ∧ 80 ≤ log.maxLine ∧ (phlLogParseLevel levelStr).isSome then
      logConfBufSize log
    else none
  | .accessLog =>
    if 4 * 1024 ≤ log.bufSize ∧ log.maxLine ≤ log.bufSize then some log.bufSize else none

/-- The post function in a configuration whose pool this is; the inner `none` is an error. -/
def postLog (s : LogConfs) (pool : Nat) (log : LogConf) (opens : Bool) :
    Option (Option LogConfs) :=
  match logSize log with
  | none => some none
  | some bufSize => (phlLogFileOpen s (logName s pool log) bufSize opens).map fun opened =>
    opened.map fun (file, files) =>
      match log.table with
      | .errorLog _ => { s with files := files, logs := s.logs ++ [(pool, file)] }
      | .accessLog => { s with files := files, accessLogs := s.accessLogs ++ [file] }

/-- `wuy_pool_destroy`, with the calls of `phl_log_conf_free`. -/
def destroyPool (s : LogConfs) (pool : Nat) : LogConfs :=
  { s with
    files := s.files.releaseAll ((s.logs.filter (·.1 = pool)).map Prod.snd)
    logs := s.logs.filter (·.1 ≠ pool)
    destroyed := s.destroyed ++ [pool] }

inductive LogConfAct
  /-- `phl_conf_parse`, up to the `error_log` of the Runtime -/
  | parse (log : LogConf) (opens : Bool)
  /-- a log of a Listen, Host, Path, module or sub-configuration -/
  | openLog (pool : Nat) (log : LogConf) (opens : Bool)
  /-- the configuration is in place of the one before -/
  | done
  /-- the configuration is refused -/
  | fail
  | subPool
  | subFree (pool : Nat)

def LogTable.isError : LogTable → Bool
  | .errorLog _ => true
  | .accessLog => false

/-- None is what the code does not do, and a read of freed memory. -/
def logConfAct (s : LogConfs) : LogConfAct → Option LogConfs
  | .parse log opens =>
    if s.backup.isSome ∨ LogTable.isError log.table = false then none
    else
      let pool := s.pools
      (postLog { s with pools := pool + 1 } pool log opens).map fun posted =>
        match posted with
        | none => { s with pools := pool + 1, destroyed := s.destroyed ++ [pool] }
        | some t => { t with runtime := some (pool, logName s pool log), backup := some s.runtime }
  | .openLog pool log opens =>
    if s.pools ≤ pool ∨ pool ∈ s.destroyed then none
    else (postLog s pool log opens).map fun posted => posted.getD s
  | .done =>
    match s.backup with
    | none => none
    | some none => some { s with backup := none }
    | some (some (pool, _)) => some { destroyPool s pool with backup := none }
  | .fail =>
    match s.backup, s.runtime with
    | some runtime, some (pool, _) =>
      some { destroyPool s pool with runtime := runtime, backup := none }
    | _, _ => none
  | .subPool => some { s with pools := s.pools + 1, subs := s.subs ++ [s.pools] }
  | .subFree pool => if pool ∈ s.subs ∧ pool ∉ s.destroyed then some (destroyPool s pool) else none

/-- Who holds a file: the error logs there are, and each access log ever. -/
def LogConfs.holders (s : LogConfs) : List Nat := s.logs.map Prod.snd ++ s.accessLogs

/-- The filenames of the runtime and of its backup. -/
def LogConfs.names (s : LogConfs) : List Name :=
  (s.runtime.map Prod.snd).toList ++ (s.backup.join.map Prod.snd).toList

/-- The files are counted by their holders, and what is in use was made before. -/
structure Sound (s : LogConfs) : Prop where
  held : Table.Held s.holders s.files
  logs : ∀ l ∈ s.logs, l.1 < s.pools ∧ l.1 ∉ s.destroyed
  destroyed : ∀ p ∈ s.destroyed, p < s.pools
  subs : ∀ p ∈ s.subs, p < s.pools
  runtime : ∀ r, s.runtime = some r → r.1 < s.pools
  backup : ∀ r, s.backup.join = some r → r.1 < s.pools
  files : ∀ e ∈ s.files.entries, ∀ p, e.val.pool = some p → p < s.pools
  names : ∀ name ∈ s.names, ∀ p, name.pool = some p → p < s.pools

/-- No name that will be read has been freed. -/
structure NamesLive (s : LogConfs) : Prop where
  files : ∀ e ∈ s.files.entries, Live s.destroyed e.val.pool
  names : ∀ name ∈ s.names, Live s.destroyed name.pool

/-- The pool that an action destroys with logs in it. -/
def destroys (s : LogConfs) : LogConfAct → Option Nat
  | .done => s.backup.join.map Prod.fst
  | .fail => s.runtime.map Prod.fst
  | .subFree pool => some pool
  | _ => none

/-- The filenames of the runtimes that are left. -/
def namesAfter (s : LogConfs) : LogConfAct → List Name
  | .done => (s.runtime.map Prod.snd).toList
  | .fail => (s.backup.join.map Prod.snd).toList
  | _ => s.names

/-- The files that were named by the pool that goes are held by no other, and the runtime that
stays has its filename elsewhere. -/
def OwnNames (s : LogConfs) (a : LogConfAct) : Prop :=
  ∀ p, destroys s a = some p →
    (∀ e ∈ s.files.entries, e.val.pool = some p →
      e.id ∉ s.accessLogs ∧ ∀ l ∈ s.logs, l.2 = e.id → l.1 = p) ∧
    ∀ name ∈ namesAfter s a, name.pool ≠ some p

variable {s t : LogConfs} {pool : Nat} {log : LogConf} {opens : Bool}

section Open

/-- What is found is what a search through all names would find. -/
theorem searchFile_eq {destroyed : List Nat} {filename : Bytes} {files : List (Entry Bytes Opening)}
    {found : Option (Entry Bytes Opening)} (h : searchFile destroyed filename files = some found) :
    found = files.find? (·.key = filename) := by
  induction files with
  | nil =>
    cases h
    rfl
  | cons file files ih =>
    unfold searchFile at h
    split at h
    next => cases h
    next =>
      split at h
      next hkey =>
        cases h
        simp [hkey]
      next hkey =>
        rw [ih h]
        simp [hkey]

theorem searchFile_live {destroyed : List Nat} (filename : Bytes)
    {files : List (Entry Bytes Opening)} (h : ∀ e ∈ files, Live destroyed e.val.pool) :
    (searchFile destroyed filename files).isSome = true := by
  induction files with
  | nil => rfl
  | cons file files ih =>
    unfold searchFile
    rw [if_neg (not_not.mpr (h file List.mem_cons_self))]
    split
    next => rfl
    next => exact ih fun e he => h e (List.mem_cons_of_mem file he)

/-- A log that is taken holds a file of its name. -/
theorem postLog_some (h : postLog s pool log opens = some (some t)) :
    ∃ bufSize, logSize log = some bufSize ∧
      let opened := s.files.acquire (logName s pool log).text ⟨(logName s pool log).pool, bufSize⟩
      (LogTable.isError log.table = true ∧
          t = { s with files := opened.2, logs := s.logs ++ [(pool, opened.1)] } ∨
        LogTable.isError log.table = false ∧
          t = { s with files := opened.2, accessLogs := s.accessLogs ++ [opened.1] }) := by
  unfold postLog at h
  cases hsize : logSize log with
  | none =>
    rw [hsize] at h
    cases h
  | some bufSize =>
    rw [hsize] at h
    obtain ⟨opened, hopen, hmap⟩ := Option.map_eq_some_iff.mp h
    obtain ⟨⟨file, files⟩, rfl, ht⟩ := Option.map_eq_some_iff.mp hmap
    unfold phlLogFileOpen at hopen
    obtain ⟨found, -, hfound⟩ := Option.map_eq_some_iff.mp hopen
    split at hfound
    next => cases hfound
    next =>
      have hacquire := Option.some.inj hfound
      refine ⟨bufSize, rfl, ?_⟩
      rw [hacquire]
      cases htable : log.table with
      | errorLog levelStr =>
        rw [htable] at ht
        exact .inl ⟨rfl, ht.symm⟩
      | accessLog =>
        rw [htable] at ht
        exact .inr ⟨rfl, ht.symm⟩

/-- The name of a log is in the pool of its configuration, in that of the runtime, or a literal. -/
theorem logName_pool (s : LogConfs) (pool : Nat) (log : LogConf) {p : Nat}
    (hp : (logName s pool log).pool = some p) :
    p = pool ∨ ∃ name ∈ s.names, name.pool = some p := by
  unfold logName at hp
  split at hp
  next => exact .inl (Option.some.inj hp).symm
  next =>
    cases hruntime : s.runtime with
    | none =>
      rw [hruntime] at hp
      cases hp
    | some r =>
      rw [hruntime] at hp
      refine .inr ⟨r.2, ?_, hp⟩
      unfold LogConfs.names
      rw [hruntime]
      exact List.mem_cons_self
  next => cases hp

theorem Sound.postLog (h : Sound s) (hpool : pool < s.pools) (hlive : pool ∉ s.destroyed)
    (hpost : postLog s pool log opens = some (some t)) : Sound t := by
  obtain ⟨bufSize, -, hcases⟩ := postLog_some hpost
  have hacquire := h.held.acquire (logName s pool log).text ⟨(logName s pool log).pool, bufSize⟩
  have hnames : ∀ p, (logName s pool log).pool = some p → p < s.pools := by
    intro p hp
    rcases logName_pool s pool log hp with rfl | ⟨name, hname, hp⟩
    · exact hpool
    · exact h.names name hname p hp
  have hfiles : ∀ e ∈ (s.files.acquire (logName s pool log).text
      ⟨(logName s pool log).pool, bufSize⟩).2.entries, ∀ p, e.val.pool = some p → p < s.pools := by
    intro e he p hp
    rcases Table.mem_acquire he with ⟨f, hf, -, -, hval⟩ | ⟨-, -, hval⟩
    · exact h.files f hf p (by rw [hval]; exact hp)
    · rw [hval] at hp
      exact hnames p hp
  rcases hcases with ⟨-, rfl⟩ | ⟨-, rfl⟩
  · refine ⟨hacquire.perm ?_, ?_, h.destroyed, h.subs, h.runtime, h.backup, hfiles, h.names⟩
    · unfold LogConfs.holders
      rw [List.map_append, List.append_assoc]
      exact List.perm_middle.symm
    · intro l hl
      rcases List.mem_append.mp hl with hold | hnew
      · exact h.logs l hold
      · rw [List.mem_singleton.mp hnew]
        exact ⟨hpool, hlive⟩
  · refine ⟨hacquire.perm ?_, h.logs, h.destroyed, h.subs, h.runtime, h.backup, hfiles, h.names⟩
    unfold LogConfs.holders
    rw [← List.append_assoc]
    exact (List.perm_append_singleton _ _).symm

theorem NamesLive.postLog (h : NamesLive s) (hlive : pool ∉ s.destroyed)
    (hpost : postLog s pool log opens = some (some t)) : NamesLive t := by
  obtain ⟨bufSize, -, hcases⟩ := postLog_some hpost
  have hname : Live s.destroyed (logName s pool log).pool := by
    intro p hp
    rcases logName_pool s pool log hp with rfl | ⟨name, hname, hp⟩
    · exact hlive
    · exact h.names name hname p hp
  have hfiles : ∀ e ∈ (s.files.acquire (logName s pool log).text
      ⟨(logName s pool log).pool, bufSize⟩).2.entries, Live s.destroyed e.val.pool := by
    intro e he
    rcases Table.mem_acquire he with ⟨f, hf, -, -, hval⟩ | ⟨-, -, hval⟩
    · rw [← hval]
      exact h.files f hf
    · rw [hval]
      exact hname
  rcases hcases with ⟨-, rfl⟩ | ⟨-, rfl⟩
  · exact ⟨hfiles, h.names⟩
  · exact ⟨hfiles, h.names⟩

theorem postLog_frame (hpost : postLog s pool log opens = some (some t)) :
    t.pools = s.pools ∧ t.destroyed = s.destroyed ∧ t.subs = s.subs ∧ t.runtime = s.runtime ∧
      t.backup = s.backup := by
  obtain ⟨bufSize, -, ⟨-, rfl⟩ | ⟨-, rfl⟩⟩ := postLog_some hpost
  · exact ⟨rfl, rfl, rfl, rfl, rfl⟩
  · exact ⟨rfl, rfl, rfl, rfl, rfl⟩

end Open

section Destroy

/-- The files that the logs of a pool hold, and those of the other logs. -/
theorem holders_perm (s : LogConfs) (pool : Nat) :
    s.holders.Perm ((s.logs.filter (·.1 = pool)).map Prod.snd ++ (destroyPool s pool).holders) := by
  unfold LogConfs.holders destroyPool
  rw [← List.append_assoc, ← List.map_append]
  refine List.Perm.append_right _ (List.Perm.map _ ?_)
  have hsplit := List.filter_append_perm (fun l : Nat × Nat => decide (l.1 = pool)) s.logs
  have hnot : (s.logs.filter fun l => !decide (l.1 = pool)) = s.logs.filter (·.1 ≠ pool) := by
    apply List.filter_congr
    intro l hl
    rw [← decide_not]
  rw [hnot] at hsplit
  exact hsplit.symm

theorem destroyPool_held (h : Sound s) (pool : Nat) :
    Table.Held (destroyPool s pool).holders (destroyPool s pool).files :=
  (h.held.perm (holders_perm s pool)).releaseAll

theorem mem_destroyPool {e : Entry Bytes Opening} (he : e ∈ (destroyPool s pool).files.entries) :
    ∃ f ∈ s.files.entries, f.id = e.id ∧ f.key = e.key ∧ f.val = e.val :=
  Table.mem_releaseAll he

theorem Sound.destroyPool (h : Sound s) (hpool : pool < s.pools) :
    Sound (destroyPool s pool) where
  held := destroyPool_held h pool
  logs l hl := by
    obtain ⟨hmem, hne⟩ := List.mem_filter.mp hl
    obtain ⟨hlt, hlive⟩ := h.logs l hmem
    refine ⟨hlt, ?_⟩
    show l.1 ∉ s.destroyed ++ [pool]
    rw [List.mem_append, List.mem_singleton]
    exact not_or.mpr ⟨hlive, of_decide_eq_true hne⟩
  destroyed p hp := by
    rcases List.mem_append.mp hp with hold | hnew
    · exact h.destroyed p hold
    · rw [List.mem_singleton.mp hnew]
      exact hpool
  subs := h.subs
  runtime := h.runtime
  backup := h.backup
  files e he p hp := by
    obtain ⟨f, hf, -, -, hval⟩ := mem_destroyPool he
    exact h.files f hf p (by rw [hval]; exact hp)
  names := h.names

/-- The files whose names go with a pool are closed exactly where nobody else holds one of them. -/
theorem files_live_iff (h : Sound s) (hlive : ∀ e ∈ s.files.entries, Live s.destroyed e.val.pool) :
    (∀ e ∈ (destroyPool s pool).files.entries, Live (s.destroyed ++ [pool]) e.val.pool) ↔
      ∀ e ∈ s.files.entries, e.val.pool = some pool →
        e.id ∉ s.accessLogs ∧ ∀ l ∈ s.logs, l.2 = e.id → l.1 = pool := by
  have hheld := destroyPool_held h pool
  have hholders : (destroyPool s pool).holders =
      (s.logs.filter (·.1 ≠ pool)).map Prod.snd ++ s.accessLogs := rfl
  constructor
  · intro hafter e he hpool
    have hgone : e.id ∉ (destroyPool s pool).holders := by
      intro hmem
      obtain ⟨f, hf, hid⟩ := List.mem_map.mp (hheld.holders e.id hmem)
      obtain ⟨g, hg, hgid, -, hgval⟩ := mem_destroyPool hf
      have hsame := h.held.entry_unique hg he (hgid.trans hid)
      subst hsame
      have hdead := hafter f hf pool (by rw [← hgval]; exact hpool)
      exact hdead (List.mem_append_right _ (List.mem_singleton.mpr rfl))
    rw [hholders, List.mem_append, not_or] at hgone
    refine ⟨hgone.2, fun l hl hid => ?_⟩
    by_contra hne
    refine hgone.1 (List.mem_map.mpr ⟨l, List.mem_filter.mpr ⟨hl, ?_⟩, hid⟩)
    exact decide_eq_true hne
  · intro hown e he p hp hmem
    obtain ⟨f, hf, hid, -, hval⟩ := mem_destroyPool he
    rcases List.mem_append.mp hmem with hold | hnew
    · exact hlive f hf p (by rw [hval]; exact hp) hold
    · obtain rfl := List.mem_singleton.mp hnew
      obtain ⟨haccess, hlogs⟩ := hown f hf (by rw [hval]; exact hp)
      have hin := hheld.mem_ids.mp (List.mem_map_of_mem he)
      rw [hholders, List.mem_append, ← hid] at hin
      rcases hin with hlog | hother
      · obtain ⟨l, hl, hlid⟩ := List.mem_map.mp hlog
        obtain ⟨hl, hne⟩ := List.mem_filter.mp hl
        exact absurd (hlogs l hl hlid) (of_decide_eq_true hne)
      · exact haccess hother

end Destroy

section Act

variable {a : LogConfAct}

theorem sound_init : Sound .init :=
  ⟨Table.held_empty, nofun, nofun, nofun, nofun, nofun, nofun, nofun⟩

theorem Sound.morePools (h : Sound s) : Sound { s with pools := s.pools + 1 } where
  held := h.held
  logs l hl := ⟨Nat.lt_succ_of_lt (h.logs l hl).1, (h.logs l hl).2⟩
  destroyed p hp := Nat.lt_succ_of_lt (h.destroyed p hp)
  subs p hp := Nat.lt_succ_of_lt (h.subs p hp)
  runtime r hr := Nat.lt_succ_of_lt (h.runtime r hr)
  backup r hr := Nat.lt_succ_of_lt (h.backup r hr)
  files e he p hp := Nat.lt_succ_of_lt (h.files e he p hp)
  names name hname p hp := Nat.lt_succ_of_lt (h.names name hname p hp)

theorem Sound.new (h : Sound s) : s.pools ∉ s.destroyed :=
  fun hmem => Nat.lt_irrefl _ (h.destroyed _ hmem)

/-- The pool of a Runtime that is refused had no log. -/
theorem Sound.refused (h : Sound s) :
    Sound { s with pools := s.pools + 1, destroyed := s.destroyed ++ [s.pools] } := by
  have hmore := h.morePools
  refine ⟨h.held, ?_, ?_, hmore.subs, hmore.runtime, hmore.backup, hmore.files, hmore.names⟩
  · intro l hl
    obtain ⟨hlt, hlive⟩ := h.logs l hl
    refine ⟨Nat.lt_succ_of_lt hlt, ?_⟩
    show l.1 ∉ s.destroyed ++ [s.pools]
    rw [List.mem_append, List.mem_singleton]
    exact not_or.mpr ⟨hlive, Nat.ne_of_lt hlt⟩
  · intro p hp
    rcases List.mem_append.mp hp with hold | hnew
    · exact hmore.destroyed p hold
    · rw [List.mem_singleton.mp hnew]
      exact Nat.lt_succ_self _

/-- A runtime in place of the one there is, which is kept beside it. -/
theorem Sound.parsed (h : Sound s) (hpool : pool < s.pools) {name : Name}
    (hname : ∀ p, name.pool = some p → p < s.pools) :
    Sound { s with runtime := some (pool, name), backup := some s.runtime } where
  held := h.held
  logs := h.logs
  destroyed := h.destroyed
  subs := h.subs
  runtime r hr := by
    cases hr
    exact hpool
  backup r hr := h.runtime r hr
  files := h.files
  names other hother p hp := by
    rcases List.mem_append.mp hother with hnew | hold
    · rw [List.mem_singleton.mp hnew] at hp
      exact hname p hp
    · exact h.names other (List.mem_append_left _ hold) p hp

theorem Sound.placed (h : Sound s) {runtime : Option Runtime}
    (hruntime : ∀ r, runtime = some r → s.runtime = some r ∨ s.backup.join = some r) :
    Sound { s with runtime := runtime, backup := none } where
  held := h.held
  logs := h.logs
  destroyed := h.destroyed
  subs := h.subs
  runtime r hr := by
    rcases hruntime r hr with hold | hold
    · exact h.runtime r hold
    · exact h.backup r hold
  backup := nofun
  files := h.files
  names name hname p hp := by
    rcases List.mem_append.mp hname with hin | hin
    · obtain ⟨r, hr, rfl⟩ := Option.map_eq_some_iff.mp (Option.mem_toList.mp hin)
      refine h.names r.2 ?_ p hp
      unfold LogConfs.names
      rcases hruntime r hr with hold | hold
      · rw [hold]
        exact List.mem_append_left _ List.mem_cons_self
      · rw [hold]
        exact List.mem_append_right _ List.mem_cons_self
    · cases hin

theorem logName_lt (h : Sound s) (hpool : pool < s.pools) {p : Nat}
    (hp : (logName s pool log).pool = some p) : p < s.pools := by
  rcases logName_pool s pool log hp with rfl | ⟨name, hname, hp⟩
  · exact hpool
  · exact h.names name hname p hp

theorem parse_some (hact : logConfAct s (.parse log opens) = some t) :
    t = { s with pools := s.pools + 1, destroyed := s.destroyed ++ [s.pools] } ∨
      ∃ u, postLog { s with pools := s.pools + 1 } s.pools log opens = some (some u) ∧
        t = { u with
          runtime := some (s.pools, logName s s.pools log), backup := some s.runtime } := by
  unfold logConfAct at hact
  dsimp only at hact
  split at hact
  next => cases hact
  next =>
    obtain ⟨posted, hpost, ht⟩ := Option.map_eq_some_iff.mp hact
    cases posted with
    | none => exact .inl ht.symm
    | some u => exact .inr ⟨u, hpost, ht.symm⟩

theorem openLog_some (hact : logConfAct s (.openLog pool log opens) = some t) :
    pool < s.pools ∧ pool ∉ s.destroyed ∧
      (t = s ∨ postLog s pool log opens = some (some t)) := by
  unfold logConfAct at hact
  dsimp only at hact
  split at hact
  next => cases hact
  next hguard =>
    obtain ⟨hlt, hlive⟩ := not_or.mp hguard
    obtain ⟨posted, hpost, ht⟩ := Option.map_eq_some_iff.mp hact
    refine ⟨Nat.not_le.mp hlt, hlive, ?_⟩
    cases posted with
    | none => exact .inl ht.symm
    | some u =>
      cases ht
      exact .inr hpost

theorem done_some (hact : logConfAct s .done = some t) :
    (s.backup = some none ∧ t = { s with backup := none }) ∨
      ∃ r, s.backup = some (some r) ∧ t = { destroyPool s r.1 with backup := none } := by
  unfold logConfAct at hact
  dsimp only at hact
  split at hact
  next => cases hact
  next hbackup => exact .inl ⟨hbackup, (Option.some.inj hact).symm⟩
  next pool name hbackup => exact .inr ⟨(pool, name), hbackup, (Option.some.inj hact).symm⟩

theorem fail_some (hact : logConfAct s .fail = some t) :
    ∃ runtime r, s.backup = some runtime ∧ s.runtime = some r ∧
      t = { destroyPool s r.1 with runtime := runtime, backup := none } := by
  unfold logConfAct at hact
  dsimp only at hact
  split at hact
  next runtime pool name hbackup hruntime =>
    exact ⟨runtime, (pool, name), hbackup, hruntime, (Option.some.inj hact).symm⟩
  next => cases hact

theorem subFree_some (hact : logConfAct s (.subFree pool) = some t) :
    pool ∈ s.subs ∧ t = destroyPool s pool := by
  unfold logConfAct at hact
  dsimp only at hact
  split at hact
  next hguard => exact ⟨hguard.1, (Option.some.inj hact).symm⟩
  next => cases hact

theorem Sound.act (h : Sound s) (hact : logConfAct s a = some t) : Sound t := by
  cases a with
  | parse log opens =>
    rcases parse_some hact with rfl | ⟨u, hpost, rfl⟩
    · exact h.refused
    · obtain ⟨hpools, -, -, hruntime, -⟩ := postLog_frame hpost
      have hu := h.morePools.postLog (Nat.lt_succ_self _) h.new hpost
      have hpool : s.pools < u.pools := by
        rw [hpools]
        exact Nat.lt_succ_self _
      have hname : ∀ p, (logName s s.pools log).pool = some p → p < u.pools := by
        intro p hp
        rw [hpools]
        exact @logName_lt { s with pools := s.pools + 1 } s.pools log h.morePools
          (Nat.lt_succ_self _) p hp
      have hparsed := hu.parsed hpool hname
      rw [hruntime] at hparsed
      exact hparsed
  | openLog pool log opens =>
    obtain ⟨hpool, hlive, rfl | hpost⟩ := openLog_some hact
    · exact h
    · exact h.postLog hpool hlive hpost
  | done =>
    rcases done_some hact with ⟨hbackup, rfl⟩ | ⟨r, hbackup, rfl⟩
    · exact h.placed (fun r hr => .inl hr)
    · have hr := h.backup r (by rw [hbackup]; rfl)
      exact (h.destroyPool hr).placed (fun r hr => .inl hr)
  | fail =>
    obtain ⟨runtime, r, hbackup, hruntime, rfl⟩ := fail_some hact
    refine (h.destroyPool (h.runtime r hruntime)).placed fun r hr => .inr ?_
    show s.backup.join = some r
    rw [hbackup]
    exact hr
  | subPool =>
    cases hact
    have hmore := h.morePools
    refine ⟨hmore.held, hmore.logs, hmore.destroyed, ?_, hmore.runtime, hmore.backup, hmore.files,
      hmore.names⟩
    intro p hp
    rcases List.mem_append.mp hp with hold | hnew
    · exact hmore.subs p hold
    · rw [List.mem_singleton.mp hnew]
      exact Nat.lt_succ_self _
  | subFree pool =>
    obtain ⟨hsub, rfl⟩ := subFree_some hact
    exact h.destroyPool (h.subs pool hsub)

theorem live_append {destroyed : List Nat} {p : Option Nat} :
    Live (destroyed ++ [pool]) p ↔ Live destroyed p ∧ p ≠ some pool := by
  unfold Live
  constructor
  · intro hlive
    refine ⟨fun q hq hmem => hlive q hq (List.mem_append_left _ hmem), fun hq => ?_⟩
    exact hlive pool hq (List.mem_append_right _ (List.mem_singleton.mpr rfl))
  · rintro ⟨hlive, hne⟩ q hq hmem
    rcases List.mem_append.mp hmem with hold | hnew
    · exact hlive q hq hold
    · rw [List.mem_singleton.mp hnew] at hq
      exact hne hq

/-- What is left live by an action that destroys a pool. -/
theorem destroyed_live_iff (h : Sound s) (hnames : NamesLive s) {names : List Name}
    (hsub : ∀ name ∈ names, name ∈ s.names) (hfiles : t.files = (destroyPool s pool).files)
    (hdestroyed : t.destroyed = s.destroyed ++ [pool]) (hafter : t.names = names) :
    NamesLive t ↔
      (∀ e ∈ s.files.entries, e.val.pool = some pool →
        e.id ∉ s.accessLogs ∧ ∀ l ∈ s.logs, l.2 = e.id → l.1 = pool) ∧
      ∀ name ∈ names, name.pool ≠ some pool := by
  rw [← files_live_iff h hnames.files]
  constructor
  · intro hlive
    refine ⟨?_, fun name hname => ?_⟩
    · rw [← hfiles, ← hdestroyed]
      exact hlive.files
    · have hone := hlive.names name (by rw [hafter]; exact hname)
      rw [hdestroyed] at hone
      exact (live_append.mp hone).2
  · rintro ⟨hlive, hother⟩
    refine ⟨?_, fun name hname => ?_⟩
    · rw [hfiles, hdestroyed]
      exact hlive
    · rw [hafter] at hname
      rw [hdestroyed]
      exact live_append.mpr ⟨hnames.names name (hsub name hname), hother name hname⟩

theorem namesLive_of_subset (h : NamesLive s) (hfiles : t.files = s.files)
    (hdestroyed : t.destroyed = s.destroyed) (hnames : ∀ name ∈ t.names, name ∈ s.names) :
    NamesLive t where
  files e he := by
    rw [hfiles] at he
    rw [hdestroyed]
    exact h.files e he
  names name hname := by
    rw [hdestroyed]
    exact h.names name (hnames name hname)

theorem ownNames_iff (h : destroys s a = some pool) :
    OwnNames s a ↔
      (∀ e ∈ s.files.entries, e.val.pool = some pool →
        e.id ∉ s.accessLogs ∧ ∀ l ∈ s.logs, l.2 = e.id → l.1 = pool) ∧
      ∀ name ∈ namesAfter s a, name.pool ≠ some pool := by
  unfold OwnNames
  rw [h]
  exact ⟨fun hown => hown pool rfl, fun hown p hp => Option.some.inj hp ▸ hown⟩

/-- The names stay live exactly where a pool goes only with names that nobody else will read. -/
theorem act_namesLive_iff (h : Sound s) (hnames : NamesLive s) (hact : logConfAct s a = some t) :
    NamesLive t ↔ OwnNames s a := by
  cases a with
  | parse log opens =>
    refine iff_of_true ?_ nofun
    rcases parse_some hact with rfl | ⟨u, hpost, rfl⟩
    · refine ⟨fun e he => live_append.mpr ⟨hnames.files e he, fun hp => ?_⟩,
        fun name hname => live_append.mpr ⟨hnames.names name hname, fun hp => ?_⟩⟩
      · exact Nat.lt_irrefl _ (h.files e he _ hp)
      · exact Nat.lt_irrefl _ (h.names name hname _ hp)
    · have hmore : NamesLive { s with pools := s.pools + 1 } := ⟨hnames.files, hnames.names⟩
      obtain ⟨-, hdestroyed, -, hruntime, -⟩ := postLog_frame hpost
      have hu := hmore.postLog h.new hpost
      refine ⟨hu.files, fun name hname => ?_⟩
      rcases List.mem_append.mp hname with hnew | hold
      · rw [List.mem_singleton.mp hnew]
        show Live u.destroyed (logName s s.pools log).pool
        rw [hdestroyed]
        intro p hp
        rcases logName_pool s s.pools log hp with rfl | ⟨other, hother, hp⟩
        · exact h.new
        · exact hnames.names other hother p hp
      · refine hu.names name (List.mem_append_left _ ?_)
        rw [hruntime]
        exact hold
  | openLog pool log opens =>
    refine iff_of_true ?_ nofun
    obtain ⟨-, hlive, rfl | hpost⟩ := openLog_some hact
    · exact hnames
    · exact hnames.postLog hlive hpost
  | done =>
    rcases done_some hact with ⟨hbackup, rfl⟩ | ⟨r, hbackup, rfl⟩
    · refine iff_of_true ?_ ?_
      · refine namesLive_of_subset hnames rfl rfl fun name hname => ?_
        rcases List.mem_append.mp hname with hin | hin
        · exact List.mem_append_left _ hin
        · cases hin
      · intro p hp
        unfold destroys at hp
        rw [hbackup] at hp
        cases hp
    · have hdestroys : destroys s .done = some r.1 := by
        unfold destroys
        rw [hbackup]
        rfl
      rw [ownNames_iff hdestroys]
      refine destroyed_live_iff h hnames (fun name hname => ?_) rfl rfl (List.append_nil _)
      exact List.mem_append_left _ hname
  | fail =>
    obtain ⟨runtime, r, hbackup, hruntime, rfl⟩ := fail_some hact
    have hdestroys : destroys s .fail = some r.1 := by
      unfold destroys
      rw [hruntime]
      rfl
    have hafter : namesAfter s .fail = (runtime.map Prod.snd).toList := by
      unfold namesAfter
      rw [hbackup]
      rfl
    rw [ownNames_iff hdestroys, hafter]
    refine destroyed_live_iff h hnames (fun name hname => ?_) rfl rfl (List.append_nil _)
    unfold LogConfs.names
    rw [hbackup]
    exact List.mem_append_right _ hname
  | subPool =>
    cases hact
    exact iff_of_true ⟨hnames.files, hnames.names⟩ nofun
  | subFree pool =>
    obtain ⟨-, rfl⟩ := subFree_some hact
    rw [ownNames_iff (show destroys s (.subFree pool) = some pool from rfl)]
    exact destroyed_live_iff h hnames (fun name hname => hname) rfl rfl rfl

theorem namesLive_init : NamesLive .init := ⟨nofun, nofun⟩

theorem Sound.runActs {acts : List LogConfAct} (h : Sound s)
    (hrun : runActs logConfAct acts s = some t) : Sound t := by
  induction acts generalizing s with
  | nil =>
    cases hrun
    exact h
  | cons a acts ih =>
    obtain ⟨u, hact, hrun⟩ := Option.bind_eq_some_iff.mp hrun
    exact ih (h.act hact) hrun

end Act

section Agreement

/-- What the buffers of the files and their counting have in common. -/
def LogFile.view (file : LogFile) : Bytes × Nat × Int := (file.name, file.refs, file.bufSize)

def entryView (e : Entry Bytes Opening) : Bytes × Nat × Int := (e.key, e.refs, e.val.bufSize)

/-- One more reference. -/
def viewBump (v : Bytes × Nat × Int) : Bytes × Nat × Int := (v.1, v.2.1 + 1, v.2.2)

theorem map_bump {entries : List (Entry Bytes Opening)} (hids : (entries.map Entry.id).Nodup)
    {i : Nat} {e : Entry Bytes Opening} (he : entries[i]? = some e) :
    (entries.map (Table.bump e.id)).map entryView = (entries.map entryView).modify i viewBump := by
  apply List.ext_getElem?
  intro j
  rw [List.getElem?_map, List.getElem?_map, List.getElem?_modify, List.getElem?_map]
  cases hj : entries[j]? with
  | none => rfl
  | some f =>
    by_cases hij : i = j
    · subst hij
      rw [he] at hj
      cases hj
      unfold Table.bump
      simp [entryView, viewBump]
    · have hne : f.id ≠ e.id := by
        intro hid
        have hmap : (entries.map Entry.id)[i]? = (entries.map Entry.id)[j]? := by
          rw [List.getElem?_map, List.getElem?_map, he, hj, Option.map_some, Option.map_some, hid]
        have hlt : i < (entries.map Entry.id).length := by
          rw [List.length_map]
          exact (List.getElem?_eq_some_iff.mp he).1
        exact hij ((List.getElem?_inj hlt hids).mp hmap)
      unfold Table.bump
      simp [hij, hne]

theorem view_modify (files : List LogFile) (i : Nat) :
    (files.modify i fun file => { file with refs := file.refs + 1 }).map LogFile.view =
      (files.map LogFile.view).modify i viewBump := by
  apply List.ext_getElem?
  intro j
  rw [List.getElem?_map, List.getElem?_modify, List.getElem?_modify, List.getElem?_map]
  cases files[j]? with
  | none => rfl
  | some file =>
    by_cases hij : i = j
    · simp [hij, LogFile.view, viewBump]
    · simp [hij]

/-- A file that is opened is the same in the model of the buffers. -/
theorem phlLogFileOpen_agrees (h : Sound s) (hlive : NamesLive s) {files : List LogFile}
    (hview : files.map LogFile.view = s.files.entries.map entryView) (filename : Name)
    (bufSize : Int) (sys : LogSystem) (hopens : sys.canOpen filename.text = opens) :
    (Phorklift.phlLogFileOpen sys files filename.text bufSize).map (·.2.map LogFile.view) =
      (phlLogFileOpen s filename bufSize opens).join.map (·.2.entries.map entryView) := by
  have hsearch := searchFile_live filename.text hlive.files
  obtain ⟨found, hfound⟩ := Option.isSome_iff_exists.mp hsearch
  have hnames : files.findIdx? (·.name = filename.text) =
      s.files.entries.findIdx? (·.key = filename.text) := by
    have hleft : files.findIdx? (·.name = filename.text) =
        (files.map LogFile.view).findIdx? (·.1 = filename.text) := by
      rw [List.findIdx?_map]
      rfl
    rw [hleft, hview, List.findIdx?_map]
    rfl
  unfold Phorklift.phlLogFileOpen phlLogFileOpen
  rw [hnames, hfound, searchFile_eq hfound, hopens]
  have hfind : s.files.entries.find? (·.key = filename.text) =
      (s.files.entries.findIdx? (·.key = filename.text)).bind fun i => s.files.entries[i]? :=
    List.find?_eq_bind_findIdx?_getElem?
  cases hidx : s.files.entries.findIdx? (·.key = filename.text) with
  | none =>
    rw [hidx, Option.bind_none] at hfind
    rw [hfind, Table.acquire_new hfind]
    cases opens with
    | true => simp [hview, LogFile.view, entryView]
    | false => simp
  | some i =>
    rw [hidx, Option.bind_some] at hfind
    have hlt := (List.findIdx?_eq_some_iff_getElem.mp hidx).1
    have he : s.files.entries[i]? = some s.files.entries[i] := List.getElem?_eq_getElem hlt
    rw [he] at hfind
    have hbump := map_bump h.held.nodup_ids he
    have hfiles := view_modify files i
    rw [hfind, Table.acquire_found hfind]
    simp only [Option.map_some, Option.isNone_some, Bool.false_eq_true, false_and, if_false,
      Option.join_some, hfiles, hview, hbump]

theorem logName_text (s : LogConfs) (pool : Nat) (log : LogConf) :
    (logName s pool log).text = match log.table with
      | .errorLog _ =>
        log.filename.getD ((s.runtime.map fun r => r.2.text).getD (bytes "error.log"))
      | .accessLog => log.filename.getD (bytes "access.log") := by
  unfold logName
  cases log.filename with
  | some text => cases log.table <;> rfl
  | none =>
    cases log.table with
    | accessLog => rfl
    | errorLog levelStr => cases s.runtime <;> rfl

theorem postLog_files (bufSize : Int) (hsize : logSize log = some bufSize) :
    (postLog s pool log opens).join.map (·.files.entries.map entryView) =
      (phlLogFileOpen s (logName s pool log) bufSize opens).join.map
        (·.2.entries.map entryView) := by
  unfold postLog
  rw [hsize]
  dsimp only
  cases phlLogFileOpen s (logName s pool log) bufSize opens with
  | none => rfl
  | some opened =>
    cases opened with
    | none => rfl
    | some opened => cases log.table <;> rfl

/-- A log that is configured gets the same files in the model of the buffers. -/
theorem postLog_agrees (h : Sound s) (hlive : NamesLive s) {files : List LogFile}
    (hview : files.map LogFile.view = s.files.entries.map entryView) :
    (log.post ⟨s.runtime.map fun r => r.2.text, fun _ => opens⟩ files).map (·.2.map LogFile.view) =
      (postLog s pool log opens).join.map (·.files.entries.map entryView) := by
  have hopen := fun bufSize => @phlLogFileOpen_agrees s opens h hlive files hview
    (logName s pool log) bufSize ⟨s.runtime.map fun r => r.2.text, fun _ => opens⟩ rfl
  have hnone : logSize log = none →
      (postLog s pool log opens).join.map (·.files.entries.map entryView) = none := by
    intro hsize
    unfold postLog
    rw [hsize]
    rfl
  have hsome : ∀ bufSize, logSize log = some bufSize → _ = _ :=
    fun bufSize hsize => (hopen bufSize).trans (@postLog_files s pool log opens bufSize hsize).symm
  unfold LogConf.post
  cases htable : log.table with
  | errorLog levelStr =>
    rw [logName_text, htable] at hsome
    dsimp only at hsome ⊢
    by_cases hlimits : 0 ≤ log.bufSize ∧ 80 ≤ log.maxLine
    · rw [if_pos hlimits]
      unfold phlLogConfPost
      cases hlevel : phlLogParseLevel levelStr with
      | none =>
        rw [hnone (by unfold logSize; rw [htable]; simp [hlevel])]
        rfl
      | some level =>
        cases hsize : logConfBufSize log with
        | none =>
          rw [hnone (by unfold logSize; rw [htable]; simp [hsize])]
          rfl
        | some bufSize =>
          exact hsome bufSize (by unfold logSize; rw [htable]; simp [hlimits, hlevel, hsize])
    · rw [if_neg hlimits, hnone (by unfold logSize; rw [htable]; simp; omega)]
      rfl
  | accessLog =>
    rw [logName_text, htable] at hsome
    dsimp only at hsome ⊢
    unfold phlConfPathAccessLogPost
    by_cases hlimits : 4 * 1024 ≤ log.bufSize ∧ log.maxLine ≤ log.bufSize
    · rw [if_pos hlimits.1, if_neg (Int.not_lt.mpr hlimits.2)]
      exact hsome log.bufSize (by unfold logSize; rw [htable]; exact if_pos hlimits)
    · rw [hnone (by unfold logSize; rw [htable]; exact if_neg hlimits)]
      by_cases hsize : 4 * 1024 ≤ log.bufSize
      · rw [if_pos hsize, if_pos (by omega)]
        rfl
      · rw [if_neg hsize]
        rfl

end Agreement

/-- The names that `phl_log_file_open` compares, and the one the next configuration inherits, are
all there in every state of a run exactly where no pool goes with a name that is still in use. -/
theorem log_names_live_iff {acts : List LogConfAct}
    (hrun : runActs logConfAct acts .init = some t) :
    ActsKeep logConfAct NamesLive acts .init ↔ ActsMeet logConfAct OwnNames acts .init := by
  apply actsKeep_iff_of_step _ sound_init namesLive_init hrun
  exact fun s a t hs hnames hact => ⟨hs.act hact, act_namesLive_iff hs hnames hact⟩

/-- An error log to a file that is named in the configuration. -/
def namedLog : LogConf := ⟨.errorLog (bytes "error"), some (bytes "a.log"), 16384, 4096, by decide⟩

def reload : List LogConfAct := [.parse namedLog true, .done]

theorem log_names_live_iff_reload :
    ActsKeep logConfAct NamesLive (reload ++ reload) .init ↔
      ActsMeet logConfAct OwnNames (reload ++ reload) .init := by
  obtain ⟨t, ht⟩ : ∃ t, runActs logConfAct (reload ++ reload) .init = some t :=
    ⟨_, by with_unfolding_all rfl⟩
  exact log_names_live_iff ht

/-- The file is named by the first configuration and held by the second one, so that the third one
reads a name that is gone. -/
example : runActs logConfAct (reload ++ reload ++ reload) .init = none := by with_unfolding_all rfl

end Phorklift.LogFiles
