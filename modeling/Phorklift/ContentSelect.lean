import Phorklift.Bytes
import Phorklift.Least

/-! The choice of the content module of a Path. -/

namespace Phorklift

open Least

/-- What is at the place of the first command of a table, which must be an array member: the pointer
of several values, or a single value by its type. -/
inductive ArrayMember
  | values (pointer : Bool)
  | boolean (b : Bool)
  | double (x : ℚ)
  | integer (n : Int)
  | string (s : Option Bytes)
  | function (isSet : Bool)
  | nullTable
  | table (first : ArrayMember)

def ArrayMember.isSet : ArrayMember → Bool
  | .values pointer => pointer
  | .boolean b => b
  | .double x => x ≠ 0
  | .integer n => n ≠ 0
  | .string s => s.isSome
  | .function isSet => isSet
  | .nullTable => false
  | .table first => first.isSet

/-- A module's command for a Path by its type, with what `module_confs` has for it. -/
inductive PathCommand
  | typeEnd
  | simple (conf : Bool)
  | table (conf : Option ArrayMember)

/-- Whether the configuration in `module_confs` is not NULL. -/
def PathCommand.hasConf : PathCommand → Bool
  | .typeEnd => false
  | .simple conf => conf
  | .table conf => conf.isSome

def phlModuleCommandIsSet : PathCommand → Bool
  | .typeEnd => false
  | .simple conf => conf
  | .table none => false
  | .table (some first) => first.isSet

/-- A module, as a Path has it: whether there are handlers, and what `is_enabled` returns for its
configuration. -/
structure PathModule where
  index : Nat
  name : Bytes
  commandPath : PathCommand
  responseHeaders : Bool
  isEnabled : Option Bool

/-- What `is_enabled` says, or else whether the command is set. -/
def PathModule.isSet (m : PathModule) : Bool :=
  m.isEnabled.getD (phlModuleCommandIsSet m.commandPath)

def PathModule.enabled (m : PathModule) : Bool :=
  m.commandPath.hasConf && (m.responseHeaders && m.isSet)

/-- `phl_conf_path`, with the modules in the order of `phl_module_next`, each with the index that
`phl_module_fix` gave it. -/
structure PathConf where
  pathnames : Option (List Bytes)
  dynamic : Bool
  modules : List PathModule
  indexed : ∀ i (h : i < modules.length), (modules.get ⟨i, h⟩).index = i
  contentInheritCounts : Nat → Int

structure ContentChoice where
  content : Option PathModule
  sameLevelMod : Option PathModule

/-- A round of the loop over the modules, with the value of `i` before it. -/
def contentRound (counts : Nat → Int) (i : Nat) (m : PathModule) (s : ContentChoice) :
    ContentChoice :=
  if m.commandPath.hasConf = false then s
  else if m.responseHeaders = false then s
  else if m.isSet = false then s
  else
    match s.content with
    | none => { s with content := some m }
    | some content =>
      let inheritCountNew := counts i
      let inheritCountOld := counts content.index
      if inheritCountNew = inheritCountOld then { s with sameLevelMod := some m }
      else if inheritCountNew < inheritCountOld then ⟨some m, none⟩
      else s

def contentLoop (counts : Nat → Int) : Nat → List PathModule → ContentChoice → ContentChoice
  | _, [], s => s
  | i, m :: ms, s => contentLoop counts (i + 1) ms (contentRound counts i m s)

inductive PathError
  | badPathname (pathname : Bytes)
  | duplicateContent (arg : Bytes)
  | noContent

def PathError.text : PathError → String
  | .badPathname _ => "pathname must start with \x27/\x27, \x27=\x27, \x27~\x27 or \x27@\x27"
  | .duplicateContent _ => "duplicate content set"
  | .noContent => "no content set"

/-- The first pathname that starts with none of `=`, `~`, `/` and `@`. -/
def badPathname (pathnames : Option (List Bytes)) : Option Bytes :=
  (pathnames.getD []).find? fun p => p.head?.getD 0 ∉ ([61, 126, 47, 64] : Bytes)

/-- What is returned, with the argument of the error, and `content`. -/
structure PathPost where
  error : Option PathError
  content : Option PathModule

def phlConfPathPost (conf : PathConf) : PathPost :=
  match badPathname conf.pathnames with
  | some pathname => ⟨some (.badPathname pathname), none⟩
  | none =>
    let choice := contentLoop conf.contentInheritCounts 0 conf.modules ⟨none, none⟩
    match choice.content, choice.sameLevelMod with
    | some content, some same =>
      ⟨some (.duplicateContent ((content.name ++ bytes ", " ++ same.name).take 99)), some content⟩
    | content, _ =>
      if conf.dynamic then ⟨none, content⟩
      else if content.isNone ∧ conf.pathnames.isSome then ⟨some .noContent, content⟩
      else ⟨none, content⟩

namespace PathConf

variable (conf : PathConf)

/-- The content modules that are enabled. -/
def enabled : List PathModule := conf.modules.filter (·.enabled)

def inheritCount (m : PathModule) : Int := conf.contentInheritCounts m.index

/-- Those that attain the minimal inherit count. -/
def minimal : List PathModule :=
  conf.enabled.filter fun m => ∀ b ∈ conf.enabled, conf.inheritCount m ≤ conf.inheritCount b

end PathConf

section Loop

variable {counts : Nat → Int} {m : PathModule} {ms : List PathModule} {s : ContentChoice}
  {i : Nat}

def ContentChoice.ofPair (s : Option PathModule × Option PathModule) : ContentChoice :=
  ⟨s.1, s.2⟩

theorem contentRound_skip (h : m.enabled = false) : contentRound counts i m s = s := by
  unfold PathModule.enabled at h
  unfold contentRound
  cases hconf : m.commandPath.hasConf with
  | false => rfl
  | true =>
    cases hhandler : m.responseHeaders with
    | false => rfl
    | true =>
      cases hset : m.isSet with
      | false => rfl
      | true =>
        rw [hconf, hhandler, hset] at h
        cases h

/-- An enabled module is compared by the count at its own index. -/
theorem contentRound_enabled (h : m.enabled = true) (hi : m.index = i) :
    contentRound counts i m s = .ofPair
      (track (fun m : PathModule => counts m.index) (s.content, s.sameLevelMod) m) := by
  obtain ⟨hconf, hhandler, hset⟩ :
      m.commandPath.hasConf = true ∧ m.responseHeaders = true ∧ m.isSet = true := by
    simpa only [PathModule.enabled, Bool.and_eq_true] using h
  obtain ⟨content, same⟩ := s
  unfold contentRound track
  rw [hconf, hhandler, hset]
  dsimp only
  cases content with
  | none => rfl
  | some content =>
    dsimp only
    rw [← hi]
    rcases lt_trichotomy (counts m.index) (counts content.index) with hlt | heq | hgt
    · have hne := ne_of_lt hlt
      simp only [hne, hlt, if_false, if_true, Bool.true_eq_false]
      rfl
    · simp only [heq, if_false, if_true, Bool.true_eq_false]
      rfl
    · have hne := ne_of_gt hgt
      have hnlt := not_lt_of_gt hgt
      simp only [hne, hnlt, if_false, Bool.true_eq_false]
      rfl

/-- The loop is one pass over the enabled modules. -/
theorem contentLoop_track (hi : ∀ k (h : k < ms.length), (ms.get ⟨k, h⟩).index = i + k) :
    contentLoop counts i ms s = .ofPair ((ms.filter (·.enabled)).foldl
      (track fun m : PathModule => counts m.index) (s.content, s.sameLevelMod)) := by
  induction ms generalizing i s with
  | nil => rfl
  | cons m ms ih =>
    have hhead : m.index = i := hi 0 (Nat.succ_pos _)
    have htail : ∀ k (h : k < ms.length), (ms.get ⟨k, h⟩).index = i + 1 + k := by
      intro k h
      have hk := hi (k + 1) (Nat.succ_lt_succ h)
      rw [Nat.add_right_comm, Nat.add_assoc]
      exact hk
    unfold contentLoop
    rw [ih htail]
    cases henabled : m.enabled with
    | false =>
      rw [contentRound_skip henabled, List.filter_cons_of_neg (by simp [henabled])]
    | true =>
      rw [contentRound_enabled henabled hhead, List.filter_cons_of_pos henabled, List.foldl_cons]
      rfl

end Loop

variable {conf : PathConf}

theorem minimal_eq_least (conf : PathConf) :
    conf.minimal = least conf.inheritCount conf.enabled :=
  List.filter_congr fun _ _ => decide_eq_decide.mpr Iff.rfl

theorem contentLoop_minimal (conf : PathConf) :
    contentLoop conf.contentInheritCounts 0 conf.modules ⟨none, none⟩ =
      ⟨conf.minimal.head?, conf.minimal.tail.getLast?⟩ := by
  have hindexed : ∀ k (h : k < conf.modules.length), (conf.modules.get ⟨k, h⟩).index = 0 + k := by
    intro k h
    rw [Nat.zero_add]
    exact conf.indexed k h
  rw [contentLoop_track hindexed, minimal_eq_least]
  exact congrArg ContentChoice.ofPair (foldl_track conf.enabled)

/-- What `phl_conf_path_post` makes of the modules that attain the minimal inherit count, once the
pathnames are checked. -/
theorem phlConfPathPost_minimal (hpath : badPathname conf.pathnames = none) :
    ((∃ arg, (phlConfPathPost conf).error = some (.duplicateContent arg)) ↔
      2 ≤ conf.minimal.length) ∧
      (phlConfPathPost conf).content = conf.minimal.head? := by
  have hloop := contentLoop_minimal conf
  unfold phlConfPathPost
  rw [hpath]
  dsimp only
  rw [hloop]
  cases conf.minimal with
  | nil =>
    dsimp only [List.head?_nil, List.tail_nil, List.getLast?_nil]
    constructor
    · refine iff_of_false ?_ nofun
      rintro ⟨arg, harg⟩
      split at harg
      · cases harg
      · split at harg <;> cases harg
    · split
      · rfl
      · split <;> rfl
  | cons a rest =>
    cases rest with
    | nil =>
      dsimp only [List.head?_cons, List.tail_cons, List.getLast?_nil]
      constructor
      · refine iff_of_false ?_ (show ¬2 ≤ 1 by decide)
        rintro ⟨arg, harg⟩
        split at harg
        · cases harg
        · split at harg <;> cases harg
      · split
        · rfl
        · split <;> rfl
    | cons b rest =>
      obtain ⟨last, hlast⟩ : ∃ last, (b :: rest).getLast? = some last :=
        ⟨_, List.getLast?_eq_some_getLast (List.cons_ne_nil b rest)⟩
      dsimp only [List.head?_cons, List.tail_cons]
      rw [hlast]
      exact ⟨iff_of_true ⟨_, rfl⟩ (Nat.le_add_left 2 rest.length), rfl⟩

/-- Two modules at the minimal inherit count are reported, and else the one there is taken. -/
theorem content_selected (hpath : badPathname conf.pathnames = none) :
    ((∃ arg, (phlConfPathPost conf).error = some (.duplicateContent arg)) ↔
      2 ≤ conf.minimal.length) ∧
    (¬2 ≤ conf.minimal.length →
      conf.enabled = [] ∧ (phlConfPathPost conf).content = none ∨
        ∃ m, conf.minimal = [m] ∧ (phlConfPathPost conf).content = some m) := by
  obtain ⟨hreport, hcontent⟩ := phlConfPathPost_minimal hpath
  refine ⟨hreport, fun hfew => ?_⟩
  rw [hcontent]
  cases hminimal : conf.minimal with
  | nil =>
    rw [minimal_eq_least] at hminimal
    exact .inl ⟨least_eq_nil.mp hminimal, rfl⟩
  | cons m rest =>
    cases rest with
    | nil => exact .inr ⟨m, rfl, rfl⟩
    | cons b rest =>
      rw [hminimal] at hfew
      exact absurd (Nat.le_add_left 2 rest.length) hfew

/-- Content modules of a Path, with values in their tables. -/
def valuedModule (index : Nat) (name : Bytes) : PathModule :=
  ⟨index, name, .table (some (.values true)), true, none⟩

/-- Two modules that are inherited tie above the one of the Path itself. -/
def threeContents : PathConf where
  pathnames := some [bytes "/"]
  dynamic := false
  modules := [valuedModule 0 (bytes "proxy"), valuedModule 1 (bytes "static"),
    valuedModule 2 (bytes "script")]
  indexed i h := by
    match i, h with
    | 0, _ => rfl
    | 1, _ => rfl
    | 2, _ => rfl
  contentInheritCounts i := if i = 1 then 0 else 1

theorem content_selected_three :
    ¬(∃ arg, (phlConfPathPost threeContents).error = some (.duplicateContent arg)) ∧
      (phlConfPathPost threeContents).content = some (valuedModule 1 (bytes "static")) := by
  have hselected := @content_selected threeContents rfl
  have hminimal : threeContents.minimal = [valuedModule 1 (bytes "static")] := rfl
  have hone : ¬2 ≤ threeContents.minimal.length := by
    rw [hminimal]
    decide
  refine ⟨fun hreport => hone (hselected.1.mp hreport), ?_⟩
  rcases hselected.2 hone with ⟨henabled, -⟩ | ⟨m, hm, hcontent⟩
  · exact absurd henabled (List.cons_ne_nil _ _)
  · rw [hminimal] at hm
    rw [hcontent, (List.cons.inj hm).1]

end Phorklift
