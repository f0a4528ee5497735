import Phorklift.HostRegister
import Phorklift.HostSpelling
import Phorklift.PathLocate
import Phorklift.RequestSteps

/-! A Listen of the configuration file, with its Hosts and Paths, and the Path that a request to it
is located to. -/

namespace Phorklift
namespace Routes

/-- `phl_conf_path`, at the address `id`. A table that `Path` did not make has no pathnames. -/
structure ConfPath where
  id : PathId
  pathnames : Option (List Pathname)
  content : Bool
  dynamic : Bool

/-- `phl_conf_host`, with the addresses of its tables. -/
structure ConfHost where
  name : Option Bytes
  hostnames : Option (List Bytes)
  paths : Option (List ConfPath)
  defaultPath : ConfPath
  ssl : Option Nat
  moduleConfs : List (Option Nat)

/-- `phl_conf_listen` as it is read. -/
structure ConfListen where
  hosts : Option (List ConfHost)
  defaultHost : ConfHost

/-- `phl_conf_listen` for requests, with `host_dict` and what is registered with it. -/
structure Listen extends ConfListen where
  hostTable : Option HostTable

inductive Refusal
  | noPath
  | overwrite (p : Pathname)
  | noHost
  | hostCommand
  | mixed
  | hostname (err : String)
  | mixedSsl
  /-- a NULL array of pathnames is read -/
  | nullPathnames
  /-- `assert(def_host != def_path)` -/
  | assertion

/-- The text that is returned; the program does not come to one where it aborts. -/
def Refusal.text : Refusal → Option String
  | .noPath => some "no Path defined in Host"
  | .overwrite _ => some "Path overwrite"
  | .noHost => some "no Host defined in Listen"
  | .hostCommand => some "Host command can not in bare Path"
  | .mixed => some "can not mix Host and Path"
  | .hostname err => some err
  | .mixedSsl => some "can not mix SSL and plain amount Host() under one Listen()"
  | .nullPathnames => none
  | .assertion => none

def ConfPath.names (p : ConfPath) : List Pathname := p.pathnames.getD []

/-- What lies from `ssl` to `stats`. -/
def ConfHost.commands (h : ConfHost) : Option Nat × List (Option Nat) := (h.ssl, h.moduleConfs)

/-- The Hosts by their places; the place 0 is that of the default Host. -/
def hostList (hosts : List ConfHost) : HostList :=
  hosts.zipIdx.map fun (h, i) => (i + 1, h.hostnames.getD [])

def ConfListen.host (l : ConfListen) : HostId → Option ConfHost
  | 0 => some l.defaultHost
  | i + 1 => (l.hosts.getD [])[i]?

section Code

variable (find2 : Bytes → Bytes → Bool)

/-- `phl_conf_host_check_path_overwrite`. The check of a Path reads those before it. -/
def checkPathOverwrite (h : ConfHost) : Except Refusal Unit :=
  match h.paths with
  | none => .ok ()
  | some paths =>
    let named := paths.takeWhile (·.pathnames.isSome)
    match phlConfHostCheckPathOverwrite find2 (named.map (·.names)) with
    | some (_, p) => .error (.overwrite p)
    | none => if named.length < paths.length then .error .nullPathnames else .ok ()

def phlConfHostPost (h : ConfHost) : Except Refusal ConfHost :=
  if h.paths.isNone ∧ h.hostnames.isSome ∧ h.defaultPath.content = false ∧
      h.defaultPath.dynamic = false then .error .noPath
  else
    let name := match h.name, h.hostnames with
      | some name, _ => some name
      | none, some hostnames => hostnames.head?
      | none, none => some (bytes "_default")
    match checkPathOverwrite find2 h with
    | .error err => .error err
    | .ok () => .ok { h with name := name }

/-- The loop of `phl_conf_listen_fix_bare_paths`, from `any_def_host` and `any_def_path` on. -/
def fixBareLoop (defaultHost : ConfHost) :
    List ConfHost → Bool → Bool → Except Refusal (Bool × Bool)
  | [], anyDefHost, anyDefPath => .ok (anyDefHost, anyDefPath)
  | h :: hosts, anyDefHost, anyDefPath =>
    let defHost := h.hostnames.isSome
    let defPath := h.defaultPath.pathnames.isSome
    if defHost = defPath then .error .assertion
    else if defHost then fixBareLoop defaultHost hosts true anyDefPath
    else if h.commands ≠ defaultHost.commands then .error .hostCommand
    else fixBareLoop defaultHost hosts anyDefHost true

/-- The default Host with the Paths that stand in the Listen. -/
def ConfHost.movePaths (d : ConfHost) (hosts : List ConfHost) : ConfHost :=
  { d with paths := some (hosts.map (·.defaultPath)) }

def phlConfListenFixBarePaths (hosts : List ConfHost) (l : ConfListen) :
    Except Refusal ConfListen :=
  match fixBareLoop l.defaultHost hosts false false with
  | .error err => .error err
  | .ok (anyDefHost, anyDefPath) =>
    if anyDefPath = false then .ok l
    else if anyDefHost then .error .mixed
    else
      match phlConfHostPost find2 (l.defaultHost.movePaths hosts) with
      | .error err => .error err
      | .ok defaultHost => .ok { l with hosts := none, defaultHost := defaultHost }

/-- The end of `phl_conf_listen_post`. -/
def checkSsl (hosts : List ConfHost) (l : ConfListen) : Except Refusal ConfListen :=
  let isSsl := hosts.any (·.ssl.isSome)
  let isPlain := hosts.any (·.ssl.isNone)
  if isSsl = false then .ok l
  else if isPlain then .error .mixedSsl
  else if l.defaultHost.ssl.isSome then .ok l
  else .ok { l with defaultHost.ssl := hosts.head?.bind (·.ssl) }

/-- `phl_conf_listen_post`, after its sockets are open. -/
def phlConfListenPost (l : ConfListen) : Except Refusal Listen :=
  match l.hosts with
  | none => if l.defaultHost.defaultPath.content = false then .error .noHost else .ok ⟨l, none⟩
  | some hosts =>
    match phlConfListenFixBarePaths find2 hosts l with
    | .error err => .error err
    | .ok l =>
      if l.hosts.isNone then .ok ⟨l, none⟩
      else
        match phlConfHostRegister (hostList hosts) with
        | .error err => .error (.hostname err)
        | .ok t =>
          match checkSsl hosts l with
          | .error err => .error err
          | .ok l => .ok ⟨l, some t⟩

/-- `phl_conf_host_locate` -/
def Listen.locateHost (l : Listen) (name : Option Bytes) : Option HostId :=
  match l.hostTable with
  | none => some 0
  | some t => phlConfHostLocate t name

/-- `phl_conf_path_locate`. The Paths of an accepted Host have pathnames. -/
def ConfHost.locatePath (h : ConfHost) (name : Bytes) : Option PathId :=
  match h.paths with
  | none => some h.defaultPath.id
  | some paths => (phlConfPathLocate find2 (paths.map (·.names)) name).bind fun i =>
      paths[i]?.map (·.id)

variable {W V : Type}

/-- What a request to the Listen finds there. -/
def Listen.env (l : Listen) (env : Env W V) : Env W V :=
  { env with
    defaultHost := 0
    defaultPath := fun host => ((l.host host).getD l.defaultHost).defaultPath.id
    confHostLocate := l.locateHost
    confPathLocate := fun host name => (l.host host).bind (·.locatePath find2 name) }

end Code

inductive Target
  | noHost
  | noPath
  | path (p : PathId)
  deriving DecidableEq

def Target.ofPath : Option PathId → Target
  | none => .noPath
  | some p => .path p

/-- The Path of a request by its hostname and its name of a Path. -/
def Listen.locate (find2 : Bytes → Bytes → Bool) (l : Listen) (host : Option Bytes) (name : Bytes) :
    Target :=
  match l.locateHost host with
  | none => .noHost
  | some i => .ofPath ((l.host i).bind (·.locatePath find2 name))

/-- What the steps that locate a request come to: without a Host it fails, without a Path it is
answered with 404, and otherwise the Path is taken. -/
def Located {W V : Type} (env : Env W V) (w : World W V) : Target → Prop
  | .noHost => (phlRequestLocateConfHost env w).1 = phlError
  | .noPath => ∃ q w', phlRequestLocateConfHost env w = (phlOk, w') ∧ w'.r.confPath = some q ∧
      phlRequestLocateConfPath env q w' = some (404, w')
  | .path p => ∃ q w', phlRequestLocateConfHost env w = (phlOk, w') ∧ w'.r.confPath = some q ∧
      phlRequestLocateConfPath env q w' =
        some (phlRequestDynamicGet env p { w' with r.confPath := some p })

section Meaning

variable (find2 : Bytes → Bytes → Bool)

/-- What a pathname says. -/
inductive Matches : Pathname → Bytes → Prop
  | named {p name} : name.head? = some 64 → p.str = name → Matches p name
  | exact {p name} : name.head? ≠ some 64 → p.str = 61 :: name → Matches p name
  | under {p name s} : name.head? ≠ some 64 → p.str = 47 :: s → p.str <+: name → Matches p name
  | pattern {p name s} : name.head? ≠ some 64 → p.str = 126 :: s → find2 name s = true →
      Matches p name

/-- The first Path in order. -/
inductive FirstPath (paths : List ConfPath) (name : Bytes) : Target → Prop
  | found {before p after} : paths = before ++ p :: after → (∃ n ∈ p.names, Matches find2 n name) →
      (∀ q ∈ before, ∀ n ∈ q.names, ¬Matches find2 n name) → FirstPath paths name (.path p.id)
  | missing : (∀ q ∈ paths, ∀ n ∈ q.names, ¬Matches find2 n name) → FirstPath paths name .noPath

/-- A Host without Paths is its default Path. -/
inductive InHost (h : ConfHost) (name : Bytes) : Target → Prop
  | whole : h.paths = none → InHost h name (.path h.defaultPath.id)
  | paths {paths t} : h.paths = some paths → FirstPath find2 paths name t → InHost h name t

/-- The Host of a request, which may have no hostname. -/
inductive SelectsHost (hosts : HostList) : Option Bytes → Option HostId → Prop
  | named {name r} : Selects hosts name r → SelectsHost hosts (some name) r
  | unnamed {r} : (∀ h, r = some h ↔ (h, [42]) ∈ hosts.entries) → SelectsHost hosts none r

/-- What a Listen says of a request: one with content of its own, one with Paths, or one with
Hosts. -/
inductive Says (l : ConfListen) (host : Option Bytes) (name : Bytes) : Target → Prop
  | whole {t} : l.hosts = none → InHost find2 l.defaultHost name t → Says l host name t
  | paths {hosts t} : l.hosts = some hosts → hosts ≠ [] →
      (∀ h ∈ hosts, h.hostnames = none) → FirstPath find2 (hosts.map (·.defaultPath)) name t →
      Says l host name t
  | noHost {hosts} : l.hosts = some hosts → (∀ h ∈ hosts, h.hostnames ≠ none) →
      SelectsHost (hostList hosts) host none → Says l host name .noHost
  | host {hosts i h t} : l.hosts = some hosts → (∀ h ∈ hosts, h.hostnames ≠ none) →
      SelectsHost (hostList hosts) host (some (i + 1)) → hosts[i]? = some h →
      InHost find2 h name t → Says l host name t

/-- The Listens that are accepted, with what is left of them. -/
inductive Accepts (l : ConfListen) : Listen → Prop
  | whole : l.hosts = none → l.defaultHost.defaultPath.content = true → Accepts l ⟨l, none⟩
  | paths {hosts defaultHost} : l.hosts = some hosts → hosts ≠ [] →
      (∀ h ∈ hosts, h.hostnames = none ∧ h.defaultPath.pathnames ≠ none ∧
        h.commands = l.defaultHost.commands) →
      phlConfHostPost find2 (l.defaultHost.movePaths hosts) = .ok defaultHost →
      Accepts l ⟨⟨none, defaultHost⟩, none⟩
  | hosts {hosts t ssl} : l.hosts = some hosts →
      (∀ h ∈ hosts, h.hostnames ≠ none ∧ h.defaultPath.pathnames = none) →
      phlConfHostRegister (hostList hosts) = .ok t →
      (∀ h ∈ hosts, h.ssl = none) ∧ ssl = l.defaultHost.ssl ∨
        hosts ≠ [] ∧ (∀ h ∈ hosts, h.ssl ≠ none) ∧
          ssl = l.defaultHost.ssl.or (hosts.head?.bind (·.ssl)) →
      Accepts l ⟨⟨some hosts, { l.defaultHost with ssl := ssl }⟩, some t⟩

end Meaning

section Posts

variable {find2 : Bytes → Bytes → Bool} {l l' : ConfListen} {h h' : ConfHost}
  {hosts : List ConfHost} {paths : List ConfPath} {d : ConfHost}

/-- The loop goes through where each entry is a Host, or a Path without commands of a Host. -/
theorem fixBareLoop_ok (b c : Bool) (r : Bool × Bool) : fixBareLoop d hosts b c = .ok r ↔
    (∀ h ∈ hosts, (h.hostnames ≠ none ∧ h.defaultPath.pathnames = none) ∨
      (h.hostnames = none ∧ h.defaultPath.pathnames ≠ none ∧ h.commands = d.commands)) ∧
    r = (b || hosts.any (·.hostnames.isSome), c || hosts.any (·.hostnames.isNone)) := by
  induction hosts generalizing b c with
  | nil => simp [fixBareLoop, eq_comm]
  | cons h hosts ih =>
    unfold fixBareLoop
    cases hname : h.hostnames <;> cases hpath : h.defaultPath.pathnames
    · simp [hname, hpath]
    · by_cases hcommands : h.commands = d.commands
      · simp [hname, hpath, hcommands, ih]
      · simp [hname, hpath, hcommands]
    · simp [hname, hpath, ih]
    · simp [hname, hpath]

/-- An accepted Host has a name, and its Paths have pathnames. -/
theorem hostPost_ok (hpost : phlConfHostPost find2 h = .ok h') :
    (∃ name, h' = { h with name := name }) ∧
      ∀ paths, h.paths = some paths → ∀ p ∈ paths, p.pathnames ≠ none := by
  unfold phlConfHostPost at hpost
  split at hpost
  next => cases hpost
  next =>
    cases hcheck : checkPathOverwrite find2 h with
    | error err => simp [hcheck] at hpost
    | ok u =>
      simp only [hcheck] at hpost
      cases hpost
      refine ⟨⟨_, rfl⟩, fun paths hpaths => ?_⟩
      unfold checkPathOverwrite at hcheck
      simp only [hpaths] at hcheck
      split at hcheck
      next => cases hcheck
      next =>
        split at hcheck
        next => cases hcheck
        next hlength =>
          have hall : paths.takeWhile (·.pathnames.isSome) = paths :=
            (List.takeWhile_prefix _).eq_of_length_le (by omega)
          have hnamed := List.takeWhile_eq_self_iff.mp hall
          intro p hp
          exact Option.isSome_iff_ne_none.mp (hnamed p hp)

theorem fixBarePaths_named
    (hnamed : ∀ h ∈ hosts, h.hostnames ≠ none ∧ h.defaultPath.pathnames = none) :
    phlConfListenFixBarePaths find2 hosts l = .ok l := by
  have hloop := (@fixBareLoop_ok hosts l.defaultHost false false _).mpr
    ⟨fun h hh => .inl (hnamed h hh), rfl⟩
  have hpath : (hosts.any fun h => h.hostnames.isNone) = false := by
    rw [List.any_eq_false]
    intro h hh
    simp [(hnamed h hh).1]
  unfold phlConfListenFixBarePaths
  simp only [hloop, hpath, Bool.false_or, if_true]

theorem fixBarePaths_bare (hne : hosts ≠ [])
    (hbare : ∀ h ∈ hosts, h.hostnames = none ∧ h.defaultPath.pathnames ≠ none ∧
      h.commands = l.defaultHost.commands) :
    phlConfListenFixBarePaths find2 hosts l =
      (phlConfHostPost find2 (l.defaultHost.movePaths hosts)).map fun d => ⟨none, d⟩ := by
  have hloop := (@fixBareLoop_ok hosts l.defaultHost false false _).mpr
    ⟨fun h hh => .inr (hbare h hh), rfl⟩
  have hhost : (hosts.any fun h => h.hostnames.isSome) = false := by
    rw [List.any_eq_false]
    intro h hh
    simp [(hbare h hh).1]
  have hpath : (hosts.any fun h => h.hostnames.isNone) = true := by
    obtain ⟨h, hh⟩ := List.exists_mem_of_ne_nil hosts hne
    exact List.any_eq_true.mpr ⟨h, hh, by simp [(hbare h hh).1]⟩
  unfold phlConfListenFixBarePaths
  simp only [hloop, hhost, hpath, Bool.false_or, Bool.true_eq_false, Bool.false_eq_true, if_false]
  cases phlConfHostPost find2 (l.defaultHost.movePaths hosts) with
  | error err => rfl
  | ok d => rfl

/-- Hosts and bare Paths are not mixed. -/
theorem fixBarePaths_forms (h : phlConfListenFixBarePaths find2 hosts l = .ok l') :
    (∀ h ∈ hosts, h.hostnames ≠ none ∧ h.defaultPath.pathnames = none) ∨
      hosts ≠ [] ∧ ∀ h ∈ hosts, h.hostnames = none ∧ h.defaultPath.pathnames ≠ none ∧
        h.commands = l.defaultHost.commands := by
  unfold phlConfListenFixBarePaths at h
  cases hr : fixBareLoop l.defaultHost hosts false false with
  | error err =>
    rw [hr] at h
    cases h
  | ok flags =>
    obtain ⟨hall, hflags⟩ := (fixBareLoop_ok false false flags).mp hr
    rw [hr, hflags] at h
    simp only [Bool.false_or] at h
    by_cases hnamed : ∀ h ∈ hosts, h.hostnames ≠ none
    · left
      intro g hg
      rcases hall g hg with hthis | hbare
      · exact hthis
      · exact absurd hbare.1 (hnamed g hg)
    · right
      obtain ⟨g, hg, hnone⟩ : ∃ h ∈ hosts, h.hostnames = none := by simpa using hnamed
      have hpath : (hosts.any fun h => h.hostnames.isNone) = true :=
        List.any_eq_true.mpr ⟨g, hg, by simp [hnone]⟩
      refine ⟨List.ne_nil_of_mem hg, fun f hf => ?_⟩
      rcases hall f hf with hthis | hbare
      · -- one of each is refused
        have hhost : (hosts.any fun h => h.hostnames.isSome) = true :=
          List.any_eq_true.mpr ⟨f, hf, Option.isSome_iff_ne_none.mpr hthis.1⟩
        rw [hpath, hhost, if_neg (by decide), if_pos rfl] at h
        cases h
      · exact hbare

theorem fixBarePaths_ok : phlConfListenFixBarePaths find2 hosts l = .ok l' ↔
    (∀ h ∈ hosts, h.hostnames ≠ none ∧ h.defaultPath.pathnames = none) ∧ l' = l ∨
    hosts ≠ [] ∧ (∀ h ∈ hosts, h.hostnames = none ∧ h.defaultPath.pathnames ≠ none ∧
        h.commands = l.defaultHost.commands) ∧
      ∃ d, phlConfHostPost find2 (l.defaultHost.movePaths hosts) = .ok d ∧ l' = ⟨none, d⟩ := by
  constructor
  · intro hok
    rcases fixBarePaths_forms hok with hnamed | ⟨hne, hbare⟩
    · rw [fixBarePaths_named hnamed] at hok
      cases hok
      exact .inl ⟨hnamed, rfl⟩
    · rw [fixBarePaths_bare hne hbare] at hok
      cases hd : phlConfHostPost find2 (l.defaultHost.movePaths hosts) with
      | error err =>
        rw [hd] at hok
        cases hok
      | ok d =>
        rw [hd] at hok
        cases hok
        exact .inr ⟨hne, hbare, d, rfl, rfl⟩
  · rintro (⟨hnamed, rfl⟩ | ⟨hne, hbare, d, hd, rfl⟩)
    · exact fixBarePaths_named hnamed
    · rw [fixBarePaths_bare hne hbare, hd]
      rfl

theorem checkSsl_ok : checkSsl hosts l = .ok l' ↔ ∃ ssl,
    ((∀ h ∈ hosts, h.ssl = none) ∧ ssl = l.defaultHost.ssl ∨
      hosts ≠ [] ∧ (∀ h ∈ hosts, h.ssl ≠ none) ∧
        ssl = l.defaultHost.ssl.or (hosts.head?.bind (·.ssl))) ∧
    l' = { l with defaultHost.ssl := ssl } := by
  unfold checkSsl
  dsimp only
  by_cases hplain : ∀ h ∈ hosts, h.ssl = none
  · have hssl : (hosts.any fun h => h.ssl.isSome) = false := by
      simpa [List.any_eq_false] using hplain
    rw [if_pos hssl]
    constructor
    · intro hok
      cases hok
      exact ⟨_, .inl ⟨hplain, rfl⟩, rfl⟩
    · rintro ⟨ssl, ⟨-, rfl⟩ | ⟨hne, hall, -⟩, rfl⟩
      · rfl
      · obtain ⟨h, hh⟩ := List.exists_mem_of_ne_nil hosts hne
        exact absurd (hplain h hh) (hall h hh)
  · have hssl : ¬(hosts.any fun h => h.ssl.isSome) = false := by
      simpa [List.any_eq_false] using hplain
    rw [if_neg hssl]
    by_cases hall : ∀ h ∈ hosts, h.ssl ≠ none
    · have hno : ¬(hosts.any fun h => h.ssl.isNone) = true := by simpa using hall
      have hne : hosts ≠ [] := by
        rintro rfl
        exact hplain nofun
      rw [if_neg hno]
      cases hd : l.defaultHost.ssl with
      | none =>
        constructor
        · intro hok
          cases hok
          exact ⟨_, .inr ⟨hne, hall, rfl⟩, rfl⟩
        · rintro ⟨ssl, ⟨hnone, -⟩ | ⟨-, -, rfl⟩, rfl⟩
          · exact absurd hnone hplain
          · rfl
      | some c =>
        have hkept : { l with defaultHost.ssl := (some c).or (hosts.head?.bind (·.ssl)) } = l := by
          rw [Option.some_or, ← hd]
        constructor
        · intro hok
          cases hok
          exact ⟨_, .inr ⟨hne, hall, rfl⟩, hkept.symm⟩
        · rintro ⟨ssl, ⟨hnone, -⟩ | ⟨-, -, rfl⟩, rfl⟩
          · exact absurd hnone hplain
          · rw [hkept]
            rfl
    · have hsome : (hosts.any fun h => h.ssl.isNone) = true := by simpa using hall
      rw [if_pos hsome]
      refine iff_of_false nofun ?_
      rintro ⟨ssl, ⟨hnone, -⟩ | ⟨-, hssl, -⟩, -⟩
      · exact hplain hnone
      · exact hall hssl

theorem post_accepts {r : Listen} (h : phlConfListenPost find2 l = .ok r) : Accepts find2 l r := by
  unfold phlConfListenPost at h
  cases hhosts : l.hosts with
  | none =>
    simp only [hhosts] at h
    cases hcontent : l.defaultHost.defaultPath.content with
    | false => simp [hcontent] at h
    | true =>
      rw [hcontent, if_neg (by decide)] at h
      cases h
      exact .whole hhosts hcontent
  | some hosts =>
    simp only [hhosts] at h
    cases hfix : phlConfListenFixBarePaths find2 hosts l with
    | error err => simp [hfix] at h
    | ok fixed =>
      simp only [hfix] at h
      rcases fixBarePaths_ok.mp hfix with ⟨hnamed, rfl⟩ | ⟨hne, hbare, d, hd, rfl⟩
      · rw [hhosts, if_neg (by simp)] at h
        cases hreg : phlConfHostRegister (hostList hosts) with
        | error err => simp [hreg] at h
        | ok t =>
          simp only [hreg] at h
          cases hssl : checkSsl hosts fixed with
          | error err => simp [hssl] at h
          | ok posted =>
            simp only [hssl] at h
            obtain ⟨ssl, hform, rfl⟩ := checkSsl_ok.mp hssl
            cases h
            rw [hhosts]
            exact .hosts hhosts hnamed hreg hform
      · cases h
        exact .paths hhosts hne hbare hd

theorem post_of_accepts {r : Listen} (h : Accepts find2 l r) :
    phlConfListenPost find2 l = .ok r := by
  unfold phlConfListenPost
  cases h with
  | whole hhosts hcontent =>
    simp only [hhosts]
    rw [hcontent, if_neg (by decide)]
  | paths hhosts hne hbare hd =>
    simp only [hhosts]
    rw [fixBarePaths_ok.mpr (.inr ⟨hne, hbare, _, hd, rfl⟩)]
    rfl
  | hosts hhosts hnamed hreg hssl =>
    simp only [hhosts]
    rw [fixBarePaths_ok.mpr (.inl ⟨hnamed, rfl⟩)]
    simp only [hhosts, hreg, checkSsl_ok.mpr ⟨_, hssl, rfl⟩]
    rfl

end Posts

section Locates

variable {find2 : Bytes → Bytes → Bool} {l : ConfListen} {r : Listen} {h : ConfHost}
  {hosts : List ConfHost} {paths : List ConfPath} {p : Pathname} {name : Bytes} {t : Target}
  {host : Option Bytes} {i : HostId} {table : HostTable}

theorem nameMatch_iff : phlConfPathNameMatch find2 p name = true ↔ Matches find2 p name := by
  unfold phlConfPathNameMatch
  by_cases hfirst : name.head? = some 64
  · rw [if_pos hfirst, beq_iff_eq]
    constructor
    · exact .named hfirst
    · intro hm
      cases hm with
      | named _ hstr => exact hstr
      | exact hnot => exact absurd hfirst hnot
      | under hnot => exact absurd hfirst hnot
      | pattern hnot => exact absurd hfirst hnot
  · rw [if_neg hfirst]
    constructor
    · intro hmatch
      split at hmatch
      next s hstr => exact .exact hfirst (by rw [hstr, beq_iff_eq.mp hmatch])
      next s hstr => exact .under hfirst hstr (List.isPrefixOf_iff_prefix.mp hmatch)
      next s hstr => exact .pattern hfirst hstr hmatch
      next => cases hmatch
    · intro hm
      cases hm with
      | named hhead => exact absurd hhead hfirst
      | exact _ hstr => simp [hstr]
      | under _ hstr hprefix =>
        rw [hstr] at hprefix ⊢
        exact List.isPrefixOf_iff_prefix.mpr hprefix
      | pattern _ hstr hfind => simp [hstr, hfind]

/-- The index leads back to the first Path that matches. -/
theorem locate_find : ((phlConfPathLocate find2 (paths.map (·.names)) name).bind fun i =>
      paths[i]?.map (·.id)) =
    (paths.find? fun q => q.names.any fun n => phlConfPathNameMatch find2 n name).map (·.id) := by
  unfold phlConfPathLocate
  induction paths with
  | nil => rfl
  | cons q paths ih =>
    rw [List.map_cons, List.findIdx?_cons, List.find?_cons]
    cases hq : q.names.any fun n => phlConfPathNameMatch find2 n name with
    | true => simp
    | false =>
      rw [← ih]
      simp [Option.bind_map, Function.comp_def]

theorem firstPath_iff : FirstPath find2 paths name t ↔
    t = .ofPath ((paths.find? fun q => q.names.any fun n =>
      phlConfPathNameMatch find2 n name).map (·.id)) := by
  have hany : ∀ q : ConfPath, (q.names.any fun n => phlConfPathNameMatch find2 n name) = true ↔
      ∃ n ∈ q.names, Matches find2 n name := by
    intro q
    simp only [List.any_eq_true, nameMatch_iff]
  constructor
  · intro hfirst
    cases hfirst with
    | @found before q after hsplit hfound hbefore =>
      have hfind : (paths.find? fun q => q.names.any fun n =>
          phlConfPathNameMatch find2 n name) = some q := by
        refine List.find?_eq_some_iff_append.mpr ⟨(hany q).mpr hfound, _, _, hsplit, ?_⟩
        intro g hg
        simpa [nameMatch_iff] using hbefore g hg
      rw [hfind]
      rfl
    | missing hnone =>
      have hfind : (paths.find? fun q => q.names.any fun n =>
          phlConfPathNameMatch find2 n name) = none := by
        rw [List.find?_eq_none]
        intro q hq hmatch
        obtain ⟨n, hn, hm⟩ := (hany q).mp hmatch
        exact hnone q hq n hn hm
      rw [hfind]
      rfl
  · rintro rfl
    cases hfind : paths.find? fun q => q.names.any fun n => phlConfPathNameMatch find2 n name with
    | none =>
      refine .missing fun q hq n hn hm => ?_
      exact List.find?_eq_none.mp hfind q hq ((hany q).mpr ⟨n, hn, hm⟩)
    | some q =>
      obtain ⟨hmatch, before, after, hsplit, hbefore⟩ := List.find?_eq_some_iff_append.mp hfind
      refine .found hsplit ((hany q).mp hmatch) fun g hg n hn hm => ?_
      have hfalse := hbefore g hg
      rw [(hany g).mpr ⟨n, hn, hm⟩] at hfalse
      cases hfalse

theorem inHost_iff : InHost find2 h name t ↔ t = .ofPath (h.locatePath find2 name) := by
  unfold ConfHost.locatePath
  constructor
  · intro hin
    cases hin with
    | whole hpaths =>
      rw [hpaths]
      rfl
    | paths hpaths hfirst =>
      simp only [hpaths]
      rw [locate_find]
      exact firstPath_iff.mp hfirst
  · intro ht
    cases hpaths : h.paths with
    | none =>
      simp only [hpaths] at ht
      rw [ht]
      exact .whole hpaths
    | some paths =>
      simp only [hpaths] at ht
      rw [locate_find] at ht
      exact .paths hpaths (firstPath_iff.mpr ht)

theorem selectsHost_iff {hosts : HostList} (hreg : Registered hosts.entries table)
    {x : Option HostId} : SelectsHost hosts host x ↔ x = phlConfHostLocate table host := by
  constructor
  · intro hsel
    cases hsel with
    | named hname => exact hreg.selects_unique hname (hreg.selects _)
    | unnamed hstar =>
      apply Option.ext
      intro g
      rw [hstar, ← hreg.wildcard]
      rfl
  · rintro rfl
    cases host with
    | none => exact .unnamed hreg.wildcard
    | some name => exact .named (hreg.selects name)

/-- The entries of the Hosts are at their places. -/
theorem hostList_entry {n : Bytes} (hmem : (i, n) ∈ (hostList hosts).entries) :
    ∃ k h, i = k + 1 ∧ hosts[k]? = some h := by
  obtain ⟨e, he, hn⟩ := List.mem_flatMap.mp hmem
  obtain ⟨⟨h, k⟩, hk, rfl⟩ := List.mem_map.mp he
  obtain ⟨s, -, hpair⟩ := List.mem_map.mp hn
  cases hpair
  exact ⟨k, h, rfl, List.mem_zipIdx_iff_getElem?.mp hk⟩

theorem located_entry {hosts : HostList} (hreg : Registered hosts.entries table)
    (hlocate : phlConfHostLocate table host = some i) : ∃ n, (i, n) ∈ hosts.entries := by
  cases host with
  | none => exact ⟨[42], (hreg.wildcard i).mp hlocate⟩
  | some name =>
    obtain ⟨k, -, n, hn, -⟩ := hreg.locate_some.mp hlocate
    exact ⟨n, hn⟩

theorem says_whole (hhosts : l.hosts = none) :
    Says find2 l host name t ↔ InHost find2 l.defaultHost name t := by
  constructor
  · intro hsays
    cases hsays with
    | whole _ hin => exact hin
    | paths hsome => simp [hhosts] at hsome
    | noHost hsome => simp [hhosts] at hsome
    | host hsome => simp [hhosts] at hsome
  · exact .whole hhosts

theorem says_paths (hhosts : l.hosts = some hosts) (hne : hosts ≠ [])
    (hbare : ∀ h ∈ hosts, h.hostnames = none) :
    Says find2 l host name t ↔ FirstPath find2 (hosts.map (·.defaultPath)) name t := by
  obtain ⟨g, hg⟩ := List.exists_mem_of_ne_nil hosts hne
  constructor
  · intro hsays
    cases hsays with
    | whole hnone => simp [hhosts] at hnone
    | paths hsome _ _ hfirst =>
      cases hhosts.symm.trans hsome
      exact hfirst
    | noHost hsome hnamed =>
      cases hhosts.symm.trans hsome
      exact absurd (hbare g hg) (hnamed g hg)
    | host hsome hnamed =>
      cases hhosts.symm.trans hsome
      exact absurd (hbare g hg) (hnamed g hg)
  · exact .paths hhosts hne hbare

/-- The Host of the longest match, and the Path in it. -/
theorem says_hosts {d : ConfHost} (hhosts : l.hosts = some hosts)
    (hnames : ∀ h ∈ hosts, h.hostnames ≠ none)
    (hreg : Registered (hostList hosts).entries table) :
    Says find2 l host name t ↔
      t = Listen.locate find2 ⟨⟨some hosts, d⟩, some table⟩ host name := by
  unfold Listen.locate Listen.locateHost
  constructor
  · intro hsays
    cases hsays with
    | whole hnone => simp [hhosts] at hnone
    | paths hsome hne hbare =>
      cases hhosts.symm.trans hsome
      obtain ⟨g, hg⟩ := List.exists_mem_of_ne_nil hosts hne
      exact absurd (hbare g hg) (hnames g hg)
    | noHost hsome _ hsel =>
      cases hhosts.symm.trans hsome
      have hnone := (selectsHost_iff hreg).mp hsel
      simp only [← hnone]
    | @host _ i h _ hsome _ hsel hi hin =>
      cases hhosts.symm.trans hsome
      have hlocated := (selectsHost_iff hreg).mp hsel
      simp only [← hlocated, ConfListen.host, Option.getD_some, hi, Option.bind_some]
      exact inHost_iff.mp hin
  · intro ht
    cases hlocated : phlConfHostLocate table host with
    | none =>
      simp only [hlocated] at ht
      rw [ht]
      exact .noHost hhosts hnames ((selectsHost_iff hreg).mpr hlocated.symm)
    | some i =>
      simp only [hlocated] at ht
      obtain ⟨n, hn⟩ := located_entry hreg hlocated
      obtain ⟨k, h, rfl, hk⟩ := hostList_entry hn
      simp only [ConfListen.host, Option.getD_some, hk, Option.bind_some] at ht
      exact .host hhosts hnames ((selectsHost_iff hreg).mpr hlocated.symm) hk (inHost_iff.mpr ht)

/-- A request gets from an accepted Listen what the Listen says, and the Listen says one thing. -/
theorem says_iff (hr : Accepts find2 l r) :
    Says find2 l host name t ↔ t = r.locate find2 host name := by
  cases hr with
  | whole hhosts =>
    rw [says_whole hhosts, inHost_iff]
    rfl
  | @paths hosts d hhosts hne hbare hd =>
    obtain ⟨⟨n, rfl⟩, -⟩ := hostPost_ok hd
    rw [says_paths hhosts hne fun h hh => (hbare h hh).1, firstPath_iff, ← locate_find]
    rfl
  | @hosts hosts table ssl hhosts hnamed hreg hssl =>
    exact says_hosts hhosts (fun h hh => (hnamed h hh).1) (registered_of_register hreg)

end Locates

/-- The tables inside a Listen, each as its own post has accepted it. -/
structure Posted (find2 : Bytes → Bytes → Bool) (l : ConfListen) : Prop where
  defaultHost : ∃ h, phlConfHostPost find2 h = .ok l.defaultHost
  hosts : ∀ hosts, l.hosts = some hosts → ∀ h ∈ hosts, ∃ h0, phlConfHostPost find2 h0 = .ok h

/-- Every Path that a request to the Listen can be compared with has pathnames. -/
def Listen.Named (r : Listen) : Prop :=
  ∀ i h paths, r.host i = some h → h.paths = some paths → ∀ p ∈ paths, p.pathnames ≠ none

section Runs

variable {find2 : Bytes → Bytes → Bool} {l : ConfListen} {r : Listen} {h h0 : ConfHost}
  {hosts : List ConfHost} {paths : List ConfPath} {name : Bytes}

theorem posted_named (hpost : phlConfHostPost find2 h0 = .ok h) (hpaths : h.paths = some paths) :
    ∀ p ∈ paths, p.pathnames ≠ none := by
  obtain ⟨⟨n, rfl⟩, hnamed⟩ := hostPost_ok hpost
  exact hnamed paths hpaths

theorem accepts_named (hposted : Posted find2 l) (hr : Accepts find2 l r) : r.Named := by
  obtain ⟨h0, hdefault⟩ := hposted.defaultHost
  intro i h paths hi hpaths
  cases hr with
  | whole hhosts =>
    cases i with
    | zero =>
      cases hi
      exact posted_named hdefault hpaths
    | succ i => simp [ConfListen.host, hhosts] at hi
  | paths hhosts hne hbare hd =>
    cases i with
    | zero =>
      cases hi
      exact posted_named hd hpaths
    | succ i => simp [ConfListen.host] at hi
  | @hosts hosts _ _ hhosts =>
    cases i with
    | zero =>
      cases hi
      exact posted_named hdefault hpaths
    | succ i =>
      obtain ⟨g, hg⟩ := hposted.hosts hosts hhosts h (List.mem_of_getElem? hi)
      exact posted_named hg hpaths

/-- The two steps of a new request, from the default Host on. -/
theorem located_locate {W V : Type} (env : Env W V) {w : World W V} (hhost : w.r.confHost = some 0)
    (hname : w.r.namedPath.or w.r.req.uri.path = some name) :
    Located (r.env find2 env) w (r.locate find2 w.r.req.host name) := by
  have hstep : phlRequestLocateConfHost (r.env find2 env) w =
      match r.locateHost w.r.req.host with
      | none => (phlError, { w with r.confHost := none })
      | some i => (phlOk, { w with
          r.confHost := some i, r.confPath := some ((r.env find2 env).defaultPath i) }) := by
    unfold phlRequestLocateConfHost
    rw [if_neg (by simpa [Listen.env] using hhost)]
    rfl
  unfold Listen.locate
  cases hlocated : r.locateHost w.r.req.host with
  | none =>
    show (phlRequestLocateConfHost (r.env find2 env) w).1 = phlError
    rw [hstep, hlocated]
  | some i =>
    rw [hlocated] at hstep
    have hpath : phlRequestLocateConfPath (r.env find2 env) ((r.env find2 env).defaultPath i)
        { w with
          r.confHost := some i, r.confPath := some ((r.env find2 env).defaultPath i) } =
        match (r.host i).bind (·.locatePath find2 name) with
        | none => some (404, { w with
            r.confHost := some i, r.confPath := some ((r.env find2 env).defaultPath i) })
        | some p => some (phlRequestDynamicGet (r.env find2 env) p { w with
            r.confHost := some i, r.confPath := some p }) := by
      unfold phlRequestLocateConfPath
      simp only [Option.bind_eq_bind, Option.bind_some, ne_eq, not_true_eq_false, if_false, hname]
      rfl
    dsimp only
    cases hp : (r.host i).bind (·.locatePath find2 name) with
    | none =>
      rw [hp] at hpath
      exact ⟨_, _, hstep, rfl, hpath⟩
    | some p =>
      rw [hp] at hpath
      exact ⟨_, _, hstep, rfl, hpath⟩

end Runs

def namedPath (id : PathId) (p : Pathname) : ConfPath := ⟨id, some [p], true, false⟩

def barePath (id : PathId) : ConfPath := ⟨id, none, true, false⟩

def emptyHost (id : PathId) : ConfHost :=
  ⟨some (bytes "_default"), none, none, barePath id, none, []⟩

/-- A Host with two Paths, and one for all other names under it. -/
def exampleListen : ConfListen where
  hosts := some [
    { emptyHost 1 with
      name := some (bytes "www.example.com")
      hostnames := some [bytes "www.example.com"]
      paths := some [namedPath 2 exactImg, namedPath 3 prefixImg] },
    { emptyHost 4 with
      name := some (bytes "*.example.com")
      hostnames := some [bytes "*.example.com"] }]
  defaultHost := emptyHost 0

theorem exampleListen_posted : Posted (fun _ _ => false) exampleListen where
  defaultHost := ⟨emptyHost 0, rfl⟩
  hosts := by
    intro hosts hhosts h hh
    cases hhosts
    refine ⟨h, ?_⟩
    rcases List.mem_cons.mp hh with rfl | hh
    · rfl
    · cases List.mem_singleton.mp hh
      rfl

/-- A Host for all names with the Paths that stand in the Listen. -/
def starHost (d : ConfHost) (hosts : List ConfHost) : ConfHost :=
  { d.movePaths hosts with name := none, hostnames := some [[42]] }

section Star

variable {find2 : Bytes → Bytes → Bool} {l : ConfListen} {r : Listen} {d h h' : ConfHost}
  {hosts : List ConfHost}

/-- What a Host is accepted for does not depend on its names, where it has Paths. -/
theorem hostPost_paths {paths : List ConfPath} (hpaths : h.paths = some paths) :
    (∃ g, phlConfHostPost find2 h = .ok g) ↔ checkPathOverwrite find2 h = .ok () := by
  unfold phlConfHostPost
  rw [if_neg (by simp [hpaths])]
  cases hcheck : checkPathOverwrite find2 h with
  | error err => simp
  | ok u => simp

theorem star_accepts (hstar : phlConfHostPost find2 (starHost d hosts) = .ok h)
    (hdefault : d.defaultPath.pathnames = none) :
    Accepts find2 ⟨some [h], d⟩ ⟨⟨some [h], d⟩, some ⟨[], some 1, false, false⟩⟩ := by
  obtain ⟨⟨n, rfl⟩, -⟩ := hostPost_ok hstar
  refine .hosts rfl ?_ rfl ?_
  · intro g hg
    cases List.mem_singleton.mp hg
    exact ⟨nofun, hdefault⟩
  · cases hssl : d.ssl with
    | none =>
      refine .inl ⟨fun g hg => ?_, rfl⟩
      cases List.mem_singleton.mp hg
      exact hssl
    | some c =>
      refine .inr ⟨List.cons_ne_nil _ _, fun g hg => ?_, rfl⟩
      cases List.mem_singleton.mp hg
      rw [show (starHost d hosts).ssl = some c from hssl]
      nofun

end Star

/-- Paths that stand in a Listen, without commands of a Host, are accepted as the Paths of a Host
for all names are, and mean what they mean there. -/
theorem bare_paths_star (find2 : Bytes → Bytes → Bool) (l : ConfListen) (hosts : List ConfHost)
    (hhosts : l.hosts = some hosts) (hne : hosts ≠ [])
    (hbare : ∀ h ∈ hosts, h.hostnames = none ∧ h.defaultPath.pathnames ≠ none)
    (hdefault : l.defaultHost.defaultPath.pathnames = none) :
    ((∃ r, phlConfListenPost find2 l = .ok r) ↔
      (∀ h ∈ hosts, h.commands = l.defaultHost.commands) ∧
      ∃ h s, phlConfHostPost find2 (starHost l.defaultHost hosts) = .ok h ∧
        phlConfListenPost find2 ⟨some [h], l.defaultHost⟩ = .ok s) ∧
    ∀ r h s, phlConfListenPost find2 l = .ok r →
      phlConfHostPost find2 (starHost l.defaultHost hosts) = .ok h →
      phlConfListenPost find2 ⟨some [h], l.defaultHost⟩ = .ok s →
      ∀ host name, r.locate find2 host name = s.locate find2 host name := by
  have hform : ∀ r, phlConfListenPost find2 l = .ok r →
      (∀ h ∈ hosts, h.commands = l.defaultHost.commands) ∧
      ∃ d, phlConfHostPost find2 (l.defaultHost.movePaths hosts) = .ok d ∧
        r = ⟨⟨none, d⟩, none⟩ := by
    intro r hr
    obtain ⟨g, hg⟩ := List.exists_mem_of_ne_nil hosts hne
    cases post_accepts hr with
    | whole hnone => simp [hhosts] at hnone
    | paths hsome _ hall hd =>
      cases hhosts.symm.trans hsome
      exact ⟨fun h hh => (hall h hh).2.2, _, hd, rfl⟩
    | hosts hsome hnamed =>
      cases hhosts.symm.trans hsome
      exact absurd (hbare g hg).1 (hnamed g hg).1
  refine ⟨⟨?_, ?_⟩, fun r h s hr hh hs host name => ?_⟩
  · rintro ⟨r, hr⟩
    obtain ⟨hcommands, d, hd, -⟩ := hform r hr
    have hcheck : checkPathOverwrite find2 (l.defaultHost.movePaths hosts) = .ok () :=
      (hostPost_paths rfl).mp ⟨d, hd⟩
    obtain ⟨h, hh⟩ := (hostPost_paths (h := starHost l.defaultHost hosts) rfl).mpr hcheck
    exact ⟨hcommands, h, _, hh, post_of_accepts (star_accepts hh hdefault)⟩
  · rintro ⟨hcommands, h, s, hh, hs⟩
    have hcheck : checkPathOverwrite find2 (starHost l.defaultHost hosts) = .ok () :=
      (hostPost_paths rfl).mp ⟨h, hh⟩
    obtain ⟨d, hd⟩ := (hostPost_paths (h := l.defaultHost.movePaths hosts) rfl).mpr hcheck
    refine ⟨_, post_of_accepts (.paths hhosts hne (fun g hg => ?_) hd)⟩
    exact ⟨(hbare g hg).1, (hbare g hg).2, hcommands g hg⟩
  · obtain ⟨-, d, hd, rfl⟩ := hform r hr
    have hs' := post_of_accepts (star_accepts hh hdefault)
    rw [hs] at hs'
    cases hs'
    obtain ⟨⟨n, rfl⟩, -⟩ := hostPost_ok hd
    obtain ⟨⟨n', rfl⟩, -⟩ := hostPost_ok hh
    cases host with
    | none => rfl
    | some host => rfl

def exampleBare : ConfListen where
  hosts := some [{ emptyHost 1 with defaultPath := namedPath 2 exactImg },
    { emptyHost 3 with defaultPath := namedPath 4 prefixImg }]
  defaultHost := emptyHost 0

theorem bare_paths_star_img : ∃ h s,
    phlConfHostPost (fun _ _ => false) (starHost (emptyHost 0) (exampleBare.hosts.getD [])) =
      .ok h ∧
    phlConfListenPost (fun _ _ => false) ⟨some [h], emptyHost 0⟩ = .ok s ∧
    s.locate (fun _ _ => false) none (bytes "/img/big.jpg") = .path 4 := by
  have hstar := bare_paths_star (fun _ _ => false) exampleBare _ rfl (by decide) (by
    intro h hh
    rcases List.mem_cons.mp hh with rfl | hh
    · exact ⟨rfl, nofun⟩
    · cases List.mem_singleton.mp hh
      exact ⟨rfl, nofun⟩) rfl
  obtain ⟨-, h, s, hh, hs⟩ := hstar.1.mp ⟨_, rfl⟩
  refine ⟨h, s, hh, hs, ?_⟩
  rw [← hstar.2 _ h s rfl hh hs]
  with_unfolding_all rfl

/-- What `phl_ssl_sni_callback` returns: it goes on, with the Host of the name if there is one, or
ends the handshake; `nullSsl` is where it reads the `ssl` of a Host without one. -/
inductive SniRet
  | ok (host : Option HostId)
  | alertFatal
  | nullSsl
  deriving DecidableEq

def phlSslSniCallback (l : Listen) : Option Bytes → SniRet
  | none => .ok none
  | some name =>
    match l.locateHost (some name) with
    | none => .alertFatal
    | some i => if ((l.host i).bind (·.ssl)).isNone then .nullSsl else .ok (some i)

/-- Whether a new connection begins with a handshake. -/
def Listen.isTls (l : Listen) : Bool := l.defaultHost.ssl.isSome

theorem checkedSsl {l : ConfListen} {hosts : List ConfHost} {ssl : Option Nat}
    (hssl : (∀ h ∈ hosts, h.ssl = none) ∧ ssl = l.defaultHost.ssl ∨
      hosts ≠ [] ∧ (∀ h ∈ hosts, h.ssl ≠ none) ∧
        ssl = l.defaultHost.ssl.or (hosts.head?.bind (·.ssl)))
    (hinherit : l.defaultHost.ssl ≠ none → ∀ h ∈ hosts, h.ssl ≠ none) :
    ∀ h ∈ hosts, h.ssl.isSome = ssl.isSome := by
  intro h hh
  rcases hssl with ⟨hplain, rfl⟩ | ⟨hne, hall, rfl⟩
  · have hnone : l.defaultHost.ssl = none := by
      by_contra hsome
      exact hinherit hsome h hh (hplain h hh)
    rw [hplain h hh, hnone]
  · have hfirst : (hosts.head?.bind (·.ssl)).isSome = true := by
      obtain ⟨g, rest, rfl⟩ := List.exists_cons_of_ne_nil hne
      exact Option.isSome_iff_ne_none.mpr (hall g List.mem_cons_self)
    rw [Option.isSome_or, hfirst, Bool.or_true]
    exact Option.isSome_iff_ne_none.mpr (hall h hh)

/-- An accepted Listen whose Hosts inherit its `ssl` is one of TLS or a plain one as a whole: what a
request is located to has `ssl` if its connection began with a handshake and only then, and no
handshake reads an `ssl` that is not there. -/
theorem listen_tls (find2 : Bytes → Bytes → Bool) (l : ConfListen) (r : Listen)
    (hr : phlConfListenPost find2 l = .ok r)
    (hinherit : l.defaultHost.ssl ≠ none → ∀ hosts, l.hosts = some hosts → ∀ h ∈ hosts,
      h.ssl ≠ none) :
    (∀ host i, r.locateHost host = some i →
      ∃ h, r.host i = some h ∧ h.ssl.isSome = r.isTls) ∧
    (r.isTls = true → ∀ name, phlSslSniCallback r name ≠ .nullSsl) := by
  have hhost : ∀ host i, r.locateHost host = some i →
      ∃ h, r.host i = some h ∧ h.ssl.isSome = r.isTls := by
    intro host i hi
    cases post_accepts hr with
    | whole =>
      cases hi
      exact ⟨_, rfl, rfl⟩
    | paths =>
      cases hi
      exact ⟨_, rfl, rfl⟩
    | @hosts hosts table ssl hhosts hnamed hreg hssl =>
      obtain ⟨n, hn⟩ := located_entry (registered_of_register hreg) hi
      obtain ⟨k, h, rfl, hk⟩ := hostList_entry hn
      refine ⟨h, hk, ?_⟩
      exact checkedSsl hssl (fun hsome => hinherit hsome hosts hhosts) h (List.mem_of_getElem? hk)
  refine ⟨hhost, fun htls name => ?_⟩
  cases name with
  | none =>
    show SniRet.ok none ≠ .nullSsl
    nofun
  | some name =>
    simp only [phlSslSniCallback]
    cases hi : r.locateHost (some name) with
    | none => nofun
    | some i =>
      obtain ⟨h, hh, hssl⟩ := hhost (some name) i hi
      rw [htls, Option.isSome_iff_ne_none] at hssl
      simp [hh, hssl]

def exampleTls : ConfListen where
  hosts := some [
    { emptyHost 1 with hostnames := some [bytes "www.example.com"], ssl := some 7 },
    { emptyHost 2 with hostnames := some [bytes "*"], ssl := some 8 }]
  defaultHost := emptyHost 0

/-- A name that no Host has is one of the Host for all names in the handshake too. -/
theorem listen_tls_example : ∃ r, phlConfListenPost (fun _ _ => false) exampleTls = .ok r ∧
    r.isTls = true ∧ phlSslSniCallback r (some (bytes "other.net")) ≠ .nullSsl := by
  have htls := listen_tls (fun _ _ => false) exampleTls _ rfl (fun hnone => absurd rfl hnone)
  exact ⟨_, rfl, rfl, htls.2 rfl _⟩

end Routes

end Phorklift
