import Phorklift.BalancerTables
import Phorklift.LuaString
import Phorklift.RequestSplit

/-! The entries of an upstream: what `phl_upstream_conf_resolve_init` takes for a hostname with its
port and weight. -/

namespace Phorklift

/-- A `double`. The two zeros are one here, as `==` has it. -/
inductive Double
  | finite (x : ℚ)
  | inf (negative : Bool)
  | nan
  deriving DecidableEq

def Double.ofRat (q : ℚ) : Double :=
  let x := toDouble q
  if x.num.natAbs < 2 ^ 1024 * x.den then .finite x else .inf (decide (x.num < 0))

/-- What follows the digits of a hexadecimal numeral. -/
def hexExponent : Bytes → Option Int
  | [] => some 0
  | p :: s =>
    let digits := if s.take 1 == [45] || s.take 1 == [43] then s.drop 1 else s
    if tolower p = 112 ∧ digits ≠ [] ∧ digits.all isDigit then
      some (if s.take 1 == [45] then -(digitsValue digits : Int) else digitsValue digits)
    else none

def hexNumeral (s : Bytes) : Option ℚ :=
  let isHex := fun c => (hexDigit c).isSome
  let whole := s.takeWhile isHex
  let rest := s.dropWhile isHex
  let pointed := rest.take 1 == [46]
  let fraction := if pointed then (rest.drop 1).takeWhile isHex else []
  let rest := if pointed then (rest.drop 1).dropWhile isHex else rest
  if whole ++ fraction = [] then none
  else (hexExponent rest).map fun e =>
    let e : Int := e - 4 * fraction.length
    let n := ((whole ++ fraction).filterMap hexDigit).foldl (fun n d => n * 16 + d) 0
    mkRat (n * 2 ^ e.toNat : Nat) (2 ^ (-e).toNat)

def strtodNumeral (s : Bytes) : Option ℚ :=
  if lower (s.take 2) = bytes "0x" then hexNumeral (s.drop 2) else decimalNumeral s

/-- The number that a string is as a whole for `strtod`. -/
def strtodSubject (s : Bytes) : Option Double :=
  let negative := s.take 1 == [45]
  let body := if negative || s.take 1 == [43] then s.drop 1 else s
  if lower body = bytes "inf" ∨ lower body = bytes "infinity" then some (.inf negative)
  else if lower body = bytes "nan" then some .nan
  else (strtodNumeral body).map fun q => .ofRat (if negative then -q else q)

/-- `atof` takes the longest number behind the blanks. -/
def atof (s : Bytes) : Double :=
  let s := s.dropWhile isSpace
  ((List.range (s.length + 1)).reverse.findSome? fun n => strtodSubject (s.take n)).getD (.finite 0)

example : atof (bytes " -2.5e1x") = .finite (-25) := by decide +kernel

example : atof (bytes "0x1.8p1e") = .finite 3 := by decide +kernel

example : atof (bytes "1e999") = .inf false := by decide +kernel

/-- `phl_upstream_hostname`, without its addresses. -/
structure ParsedHostname where
  name : Bytes
  needResolved : Bool
  hostLen : Int
  port : Nat
  weight : Double
  deriving DecidableEq

section Parse

variable (loads : Bytes → Bool) (defaultPort : Nat)

/-- `host_len` and the weight, marked by `#`. -/
def upstreamWeight (name : Bytes) : Except String (Int × Double) :=
  match strchr name 35 with
  | some pweight =>
    if atof (pweight.drop 1) = .finite 0 then .error "invalid weight"
    else .ok (toInt (name.length - pweight.length), atof (pweight.drop 1))
  | none => .ok (toInt name.length, .finite 1)

/-- `loads` says whether the name is a static address; else the port is parsed. -/
def upstreamPort (name : Bytes) (hostLen : Int) (weight : Double) :
    Except String ParsedHostname :=
  if loads name then .ok ⟨name, false, hostLen, 0, weight⟩
  else
    match strchr name 58 with
    | some pport =>
      let port := ((strtol (pport.drop 1)).value % 2 ^ 16).toNat
      if port = 0 then .error "invalid port"
      else .ok ⟨name, true, toInt (name.length - pport.length), port, weight⟩
    | none => .ok ⟨name, true, hostLen, defaultPort, weight⟩

/-- A round of the loop over `hostnames_str`, up to the resolution of the name. -/
def upstreamHostname (name : Bytes) : Except String ParsedHostname :=
  if 4096 < toInt name.length then .error "too long hostname"
  else do
    let (hostLen, weight) ← upstreamWeight name
    upstreamPort loads defaultPort name hostLen weight

end Parse

/-- A decimal number in the range of a port. -/
structure PortNumber (p : Bytes) : Prop where
  ne_nil : p ≠ []
  digits : ∀ c ∈ p, isDigit c = true
  pos : 1 ≤ digitsValue p
  le : digitsValue p ≤ 65535

/-- A positive number, with the double that stands for it. -/
def PositiveNumber (w : Bytes) (x : ℚ) : Prop := strtodSubject w = some (.finite x) ∧ 0 < x

/-- `host[:port][#weight]`, as it is written and read. -/
structure HostnameForm where
  host : Bytes
  port : Option Bytes
  weight : Option (Bytes × ℚ)

namespace HostnameForm

def portText (f : HostnameForm) : Bytes := f.port.elim [] fun p => 58 :: p

def weightText (f : HostnameForm) : Bytes := f.weight.elim [] fun w => 35 :: w.1

def text (f : HostnameForm) : Bytes := f.host ++ (f.portText ++ f.weightText)

/-- The parts have no marks in them. -/
structure Valid (f : HostnameForm) : Prop where
  host_ne : f.host ≠ []
  host_le : f.host.length ≤ 4096
  host_colon : 58 ∉ f.host
  host_hash : 35 ∉ f.host
  port : ∀ p ∈ f.port, PortNumber p
  weight : ∀ w ∈ f.weight, PositiveNumber w.1 w.2
  weight_colon : ∀ w ∈ f.weight, 58 ∉ w.1

/-- What is to be stored for it. -/
def hostname (f : HostnameForm) (defaultPort : Nat) : ParsedHostname where
  name := f.text
  needResolved := true
  hostLen := f.host.length
  port := f.port.elim defaultPort digitsValue
  weight := .finite (f.weight.elim 1 Prod.snd)

end HostnameForm

/-- The string is written as a hostname with its port and weight. -/
def IsHostname (s : Bytes) : Prop := ∃ f : HostnameForm, f.Valid ∧ f.text = s

/-- What is accepted has the form and is stored as it is written, and what has the form is
accepted. -/
structure ReadsHostname (loads : Bytes → Bool) (defaultPort : Nat) (s : Bytes) : Prop where
  stored : ∀ h, upstreamHostname loads defaultPort s = .ok h →
    ∃ f : HostnameForm, f.Valid ∧ f.text = s ∧ h = f.hostname defaultPort
  accepted : IsHostname s → ∃ h, upstreamHostname loads defaultPort s = .ok h

/-- What `atof` reads behind the first `#` is 0. -/
def ZeroWeight (s : Bytes) : Prop := ∃ w, strchr s 35 = some w ∧ atof (w.drop 1) = .finite 0

/-- What `atoi` reads behind the first `:` is a multiple of 65536. -/
def ZeroPort (s : Bytes) : Prop :=
  ∃ p, strchr s 58 = some p ∧ (strtol (p.drop 1)).value % 2 ^ 16 = 0

section Strchr

variable {s a b : Bytes} {c : UInt8}

theorem strchr_none (h : c ∉ s) : strchr s c = none := if_neg h

theorem strchr_append (h : c ∉ a) : strchr (a ++ c :: b) c = some (c :: b) := by
  have hmem : c ∈ a ++ c :: b := List.mem_append_right a List.mem_cons_self
  unfold strchr
  rw [if_pos hmem, List.dropWhile_append_of_pos, List.dropWhile_cons_of_neg]
  · simp
  · intro d hd
    have hne : d ≠ c := fun heq => h (heq ▸ hd)
    simpa using hne

end Strchr

theorem atoi_port {p rest : Bytes} (hp : PortNumber p)
    (hrest : ∀ c ∈ rest.head?, isDigit c = false) :
    ((strtol (p ++ rest)).value % 2 ^ 16).toNat = digitsValue p := by
  have hparts : strtolParts (p ++ rest) = ⟨[], [], p⟩ :=
    @strtolParts_numeral rest [] [] p nofun (.inl rfl) hp.ne_nil hp.digits hrest
  have hnumber : (StrtolParts.mk [] [] p).number = digitsValue p := if_neg nofun
  have hpos := hp.pos
  have hle := hp.le
  rw [strtol_value, hparts, hnumber]
  unfold longOf longMin longMax
  omega

/-- A whole number is the longest one. -/
theorem atof_subject {s : Bytes} {x : Double} (hspace : ∀ c ∈ s.head?, isSpace c = false)
    (h : strtodSubject s = some x) : atof s = x := by
  have hdrop : s.dropWhile isSpace = s := by
    cases s with
    | nil => rfl
    | cons c s =>
      have hc := hspace c rfl
      rw [List.dropWhile_cons_of_neg]
      rw [hc]
      exact Bool.false_ne_true
  unfold atof
  dsimp only
  rw [hdrop, List.range_succ, List.reverse_append, List.reverse_singleton, List.singleton_append,
    List.findSome?_cons, List.take_length, h]
  rfl

/-- A blank starts none of the ways to write a number. -/
theorem isSpace_first {c : UInt8} (h : isSpace c = true) :
    isDigit c = false ∧ c ≠ 45 ∧ c ≠ 43 ∧ c ≠ 46 ∧ tolower c = c ∧ c < 48 := by
  have hle : c.toNat ≤ 32 := by
    simp only [isSpace, Bool.or_eq_true, beq_iff_eq, Bool.and_eq_true, decide_eq_true_eq,
      UInt8.le_iff_toNat_le] at h
    have h13 : (13 : UInt8).toNat = 13 := rfl
    rcases h with rfl | h
    · decide
    · omega
  have hne {d : UInt8} (hd : 32 < d.toNat) : c ≠ d := by
    rintro rfl
    omega
  have hlt {d : UInt8} (hd : 32 < d.toNat) : c < d := by
    rw [UInt8.lt_iff_toNat_lt]
    omega
  refine ⟨?_, hne (by decide), hne (by decide), hne (by decide), if_neg fun hupper => ?_,
    hlt (by decide)⟩
  · have hlow : ¬48 ≤ c := UInt8.not_le.mpr (hlt (by decide))
    unfold isDigit
    rw [decide_eq_false hlow]
    rfl
  · exact absurd hupper.1 (UInt8.not_le.mpr (hlt (by decide)))

theorem strtodSubject_blank {c : UInt8} (s : Bytes) (h : isSpace c = true) :
    strtodSubject (c :: s) = none := by
  obtain ⟨hdigit, hminus, hplus, hpoint, hlower, hlt⟩ := isSpace_first h
  have hword {d : UInt8} {w : Bytes} (hd : 48 ≤ d) : lower (c :: s) ≠ d :: w := by
    intro heq
    have hhead : tolower c = d := (List.cons.inj heq).1
    rw [hlower] at hhead
    exact absurd hd (UInt8.not_le.mpr (hhead ▸ hlt))
  have hhex : lower ((c :: s).take 2) ≠ bytes "0x" := by
    intro heq
    have hhead : tolower c = 48 := (List.cons.inj heq).1
    rw [hlower] at hhead
    exact absurd hlt (by rw [hhead]; decide)
  have htake {d : UInt8} (hd : c ≠ d) : ((c :: s).take 1 == [d]) = false := by
    simpa using hd
  have hwhole : (c :: s).takeWhile isDigit = [] := by
    rw [List.takeWhile_cons, hdigit]
    rfl
  have hrest : (c :: s).dropWhile isDigit = c :: s := by
    rw [List.dropWhile_cons, hdigit]
    rfl
  have hnumeral : strtodNumeral (c :: s) = none := by
    unfold strtodNumeral decimalNumeral
    rw [if_neg hhex, hwhole, hrest]
    simp only [htake hpoint, Bool.false_eq_true, if_false, List.append_nil, if_true]
  have hinf : ¬(lower (c :: s) = bytes "inf" ∨ lower (c :: s) = bytes "infinity") := by
    rintro (heq | heq)
    · exact hword (by decide) heq
    · exact hword (by decide) heq
  have hnan : lower (c :: s) ≠ bytes "nan" := hword (by decide)
  unfold strtodSubject
  simp only [htake hminus, htake hplus, Bool.or_self, Bool.false_eq_true, if_false]
  rw [if_neg hinf, if_neg hnan, hnumeral]
  rfl

theorem PositiveNumber.atof {w : Bytes} {x : ℚ} (h : PositiveNumber w x) :
    atof w = .finite x := by
  refine atof_subject (fun c hc => ?_) h.1
  cases w with
  | nil => cases hc
  | cons d w =>
    cases hc
    cases hspace : isSpace c with
    | false => rfl
    | true =>
      have hnone := strtodSubject_blank w hspace
      rw [h.1] at hnone
      cases hnone

namespace HostnameForm

variable {f : HostnameForm} {loads : Bytes → Bool} {defaultPort : Nat}

theorem Valid.hash_free (hf : f.Valid) : 35 ∉ f.host ++ f.portText := by
  intro hmem
  rcases List.mem_append.mp hmem with hhost | hport
  · exact hf.host_hash hhost
  · unfold portText at hport
    cases hp : f.port with
    | none =>
      rw [hp] at hport
      cases hport
    | some p =>
      rw [hp] at hport
      rcases List.mem_cons.mp hport with hcolon | hdigit
      · exact absurd hcolon (by decide)
      · exact absurd ((hf.port p hp).digits 35 hdigit) (by decide)

theorem Valid.strchr_hash (hf : f.Valid) :
    strchr f.text 35 = f.weight.map fun w => 35 :: w.1 := by
  have hfree := hf.hash_free
  unfold text weightText
  rw [← List.append_assoc]
  cases f.weight with
  | none =>
    show strchr (f.host ++ f.portText ++ []) 35 = none
    rw [List.append_nil]
    exact strchr_none hfree
  | some w => exact strchr_append hfree

theorem Valid.strchr_colon (hf : f.Valid) :
    strchr f.text 58 = f.port.map fun p => 58 :: (p ++ f.weightText) := by
  have hweight : 58 ∉ f.weightText := by
    unfold weightText
    cases hw : f.weight with
    | none => exact List.not_mem_nil
    | some w =>
      intro hmem
      rcases List.mem_cons.mp hmem with hhash | hmem
      · exact absurd hhash (by decide)
      · exact hf.weight_colon w hw hmem
  unfold text portText
  cases f.port with
  | none =>
    apply strchr_none
    intro hmem
    rcases List.mem_append.mp hmem with hhost | hmem
    · exact hf.host_colon hhost
    · exact hweight hmem
  | some p => exact strchr_append hf.host_colon

theorem Valid.upstreamWeight (hf : f.Valid) :
    upstreamWeight f.text = .ok (toInt (f.host.length + f.portText.length : Nat),
      .finite (f.weight.elim 1 Prod.snd)) := by
  have hhash := hf.strchr_hash
  unfold Phorklift.upstreamWeight
  cases hw : f.weight with
  | none =>
    have htext : f.text = f.host ++ f.portText := by
      unfold text weightText
      rw [hw]
      exact congrArg _ (List.append_nil _)
    rw [hhash, hw, htext]
    dsimp only [Option.map_none, Option.elim_none]
    rw [List.length_append]
  | some w =>
    obtain ⟨hsubject, hpos⟩ := hf.weight w hw
    have hatof := PositiveNumber.atof ⟨hsubject, hpos⟩
    have hlen : (f.text.length : Int) - (35 :: w.1).length =
        (f.host.length + f.portText.length : Nat) := by
      unfold text weightText
      rw [hw, List.length_append, List.length_append, Option.elim_some]
      omega
    have hne : Double.finite w.2 ≠ .finite 0 := by
      intro heq
      exact absurd (Double.finite.inj heq) (ne_of_gt hpos)
    rw [hhash, hw]
    dsimp only [Option.map_some, Option.elim_some]
    rw [List.drop_one, List.tail_cons, hatof, if_neg hne, hlen]

/-- With at most 4096 bytes a hostname is read as it is written. -/
theorem Valid.upstreamHostname (hf : f.Valid) (hlen : toInt f.text.length ≤ 4096)
    (hloads : loads f.text = false) :
    upstreamHostname loads defaultPort f.text = .ok (f.hostname defaultPort) := by
  have hcolon := hf.strchr_colon
  have hle := hf.host_le
  have hsmall : toInt f.host.length = f.host.length := toInt_of_lt (by omega)
  unfold Phorklift.upstreamHostname
  rw [if_neg (Int.not_lt.mpr hlen), hf.upstreamWeight]
  show upstreamPort loads defaultPort f.text _ _ = _
  unfold upstreamPort hostname
  rw [hloads, if_neg Bool.false_ne_true, hcolon]
  cases hp : f.port with
  | none =>
    dsimp only [Option.map_none, Option.elim_none]
    unfold portText
    rw [hp]
    dsimp only [Option.elim_none]
    rw [List.length_nil, Nat.add_zero, hsmall]
  | some p =>
    have hport := hf.port p hp
    have hrest : ∀ c ∈ f.weightText.head?, isDigit c = false := by
      unfold weightText
      cases f.weight with
      | none => exact nofun
      | some w =>
        intro c hc
        cases hc
        rfl
    have hvalue := atoi_port hport hrest
    have hne : digitsValue p ≠ 0 := Nat.pos_iff_ne_zero.mp hport.pos
    have hhost : (f.text.length : Int) - (58 :: (p ++ f.weightText)).length = f.host.length := by
      unfold text portText
      rw [hp, List.length_append, Option.elim_some, List.cons_append]
      omega
    dsimp only [Option.map_some, Option.elim_some]
    rw [List.drop_one, List.tail_cons, hvalue, if_neg hne, hhost, hsmall]

end HostnameForm

section Accepts

variable {loads : Bytes → Bool} {defaultPort : Nat} {s : Bytes}

theorem upstreamWeight_error_iff : (∃ e, upstreamWeight s = .error e) ↔ ZeroWeight s := by
  unfold upstreamWeight ZeroWeight
  cases strchr s 35 with
  | none => simp
  | some w =>
    dsimp only
    split
    next hzero => exact iff_of_true ⟨_, rfl⟩ ⟨w, rfl, hzero⟩
    next hne =>
      refine iff_of_false nofun fun ⟨v, hv, hzero⟩ => ?_
      cases hv
      exact hne hzero

theorem upstreamPort_error_iff (hloads : loads s = false) (hostLen : Int) (weight : Double) :
    (∃ e, upstreamPort loads defaultPort s hostLen weight = .error e) ↔ ZeroPort s := by
  unfold upstreamPort ZeroPort
  rw [hloads, if_neg Bool.false_ne_true]
  cases strchr s 58 with
  | none => simp
  | some p =>
    have hmod : ((strtol (p.drop 1)).value % 2 ^ 16).toNat = 0 ↔
        (strtol (p.drop 1)).value % 2 ^ 16 = 0 := by
      omega
    dsimp only
    split
    next hzero => simpa using hmod.mp hzero
    next hne =>
      have hne' := mt hmod.mpr hne
      simpa using hne'

/-- What is refused, by the library's reading of the string alone. -/
theorem upstreamHostname_error_iff (hloads : loads s = false) :
    (∃ e, upstreamHostname loads defaultPort s = .error e) ↔
      4096 < toInt s.length ∨ ZeroWeight s ∨ ZeroPort s := by
  unfold upstreamHostname
  split
  next hlong => exact iff_of_true ⟨_, rfl⟩ (.inl hlong)
  next hshort =>
    rw [or_iff_right hshort]
    cases hweight : upstreamWeight s with
    | error e =>
      have hzero := upstreamWeight_error_iff.mp ⟨e, hweight⟩
      exact iff_of_true ⟨e, rfl⟩ (.inl hzero)
    | ok parsed =>
      have hnonzero : ¬ZeroWeight s := by
        intro hzero
        obtain ⟨e, he⟩ := upstreamWeight_error_iff.mpr hzero
        rw [hweight] at he
        cases he
      rw [or_iff_right hnonzero]
      exact upstreamPort_error_iff hloads parsed.1 parsed.2

theorem reads_of_form (hloads : loads s = false) (hform : IsHostname s) :
    ReadsHostname loads defaultPort s ↔ toInt s.length ≤ 4096 := by
  have hwritten := hform
  obtain ⟨f, hf, rfl⟩ := hwritten
  constructor
  · intro hreads
    apply Int.not_lt.mp
    intro hlong
    obtain ⟨h, hh⟩ := hreads.accepted hform
    have herror := @upstreamHostname_error_iff loads defaultPort f.text hloads
    obtain ⟨e, he⟩ := herror.mpr (.inl hlong)
    rw [hh] at he
    cases he
  · intro hle
    have hread := @HostnameForm.Valid.upstreamHostname f loads defaultPort hf hle hloads
    refine ⟨fun h hh => ⟨f, hf, rfl, ?_⟩, fun _ => ⟨_, hread⟩⟩
    rw [hread] at hh
    exact (Except.ok.inj hh).symm

theorem reads_of_not_form (hloads : loads s = false) (hform : ¬IsHostname s) :
    ReadsHostname loads defaultPort s ↔
      4096 < toInt s.length ∨ ZeroWeight s ∨ ZeroPort s := by
  rw [← @upstreamHostname_error_iff loads defaultPort s hloads]
  constructor
  · intro hreads
    cases hcode : upstreamHostname loads defaultPort s with
    | ok h =>
      obtain ⟨f, hf, htext, -⟩ := hreads.stored h hcode
      exact absurd ⟨f, hf, htext⟩ hform
    | error e => exact ⟨e, rfl⟩
  · rintro ⟨e, he⟩
    refine ⟨fun h hh => ?_, fun h => absurd h hform⟩
    rw [he] at hh
    cases hh

end Accepts

/-- `example:8080#2.5` -/
def weightedForm : HostnameForm :=
  ⟨bytes "example", some (bytes "8080"), some (bytes "2.5", 5 / 2)⟩

theorem weightedForm_valid : weightedForm.Valid where
  host_ne := by decide
  host_le := by decide
  host_colon := by decide
  host_hash := by decide
  port p hp := by
    cases hp
    exact ⟨by decide, by decide, by decide, by decide⟩
  weight w hw := by
    cases hw
    exact ⟨by decide +kernel, by decide +kernel⟩
  weight_colon w hw := by
    cases hw
    decide

/-- Without a `#` all that follows the first `:` is to be a port. -/
theorem HostnameForm.Valid.port_written {f : HostnameForm} {p : Bytes} (hf : f.Valid)
    (hhash : strchr f.text 35 = none) (hcolon : strchr f.text 58 = some (58 :: p)) :
    PortNumber p := by
  have hweight := hf.strchr_hash
  have hport := hf.strchr_colon
  rw [hhash] at hweight
  rw [hcolon] at hport
  have hnone : f.weight = none := Option.map_eq_none_iff.mp hweight.symm
  obtain ⟨q, hq, heq⟩ := Option.map_eq_some_iff.mp hport.symm
  have htext : f.weightText = [] := by
    unfold HostnameForm.weightText
    rw [hnone]
    rfl
  rw [htext, List.append_nil] at heq
  obtain rfl := (List.cons.inj heq).2
  exact hf.port q hq

section Tables

/-- A weight for the tables of the balancers, which have no infinite ones. -/
def Double.toRat : Double → ℚ
  | .finite x => x
  | .inf _ => 1
  | .nan => 1

def ParsedHostname.conf (h : ParsedHostname) : HostnameConf :=
  ⟨h.name, h.needResolved, h.hostLen.toNat, h.port, h.weight.toRat⟩

theorem toRat_eq_zero_iff (x : Double) : x.toRat = 0 ↔ x = .finite 0 := by
  cases x with
  | finite x => exact ⟨fun h => congrArg Double.finite h, fun h => Double.finite.inj h⟩
  | inf negative => exact iff_of_false one_ne_zero nofun
  | nan => exact iff_of_false one_ne_zero nofun

variable {loads : Bytes → Bool} {defaultPort : Nat} {name : Bytes}

theorem strchr_length_le {c : UInt8} {p : Bytes} (h : strchr name c = some p) :
    p.length ≤ name.length := by
  unfold strchr at h
  split at h
  next =>
    cases h
    exact (List.dropWhile_sublist _).length_le
  next => cases h

theorem toInt_length_sub {m n : Nat} (hlt : m < 2 ^ 31) (hle : n ≤ m) :
    (toInt ((m : Int) - n)).toNat = m - n := by
  have hint : toInt (m - n : Nat) = (m - n : Nat) := toInt_of_lt (by omega)
  rw [← Int.ofNat_sub hle, hint, Int.toNat_natCast]

theorem upstreamWeight_conf (hlt : name.length < 2 ^ 31) :
    hostnameWeight (fun w => (atof w).toRat) name =
      (upstreamWeight name).map fun parsed => (parsed.1.toNat, parsed.2.toRat) := by
  unfold hostnameWeight upstreamWeight
  cases hmark : strchr name 35 with
  | none =>
    have hlen := @toInt_length_sub name.length 0 hlt (Nat.zero_le _)
    rw [Nat.cast_zero, Int.sub_zero] at hlen
    dsimp only [Except.map, Double.toRat]
    rw [hlen, Nat.sub_zero]
  | some w =>
    have hlen := toInt_length_sub hlt (strchr_length_le hmark)
    dsimp only
    by_cases hzero : atof (w.drop 1) = .finite 0
    · rw [if_pos hzero, if_pos ((toRat_eq_zero_iff _).mpr hzero)]
      rfl
    · rw [if_neg hzero, if_neg (mt (toRat_eq_zero_iff _).mp hzero)]
      show _ = Except.ok (_, _)
      rw [hlen]

theorem upstreamPort_conf (hlt : name.length < 2 ^ 31) (hostLen : Int) (weight : Double) :
    hostnamePort loads defaultPort name hostLen.toNat weight.toRat =
      (upstreamPort loads defaultPort name hostLen weight).map ParsedHostname.conf := by
  unfold hostnamePort upstreamPort
  split
  · rfl
  cases hmark : strchr name 58 with
  | none => rfl
  | some p =>
    have hlen := toInt_length_sub hlt (strchr_length_le hmark)
    dsimp only
    split
    · rfl
    · show _ = Except.ok (ParsedHostname.conf _)
      unfold ParsedHostname.conf
      rw [hlen]

/-- The balancers' tables are made of these hostnames. -/
theorem upstreamHostname_conf (hlt : name.length < 2 ^ 31) :
    phlUpstreamHostnameInit (fun w => (atof w).toRat) loads defaultPort name =
      (upstreamHostname loads defaultPort name).map ParsedHostname.conf := by
  have hlen : 4096 < toInt name.length ↔ 4096 < name.length := by
    rw [toInt_of_lt hlt]
    omega
  by_cases hlong : 4096 < name.length
  · have hcode : upstreamHostname loads defaultPort name = .error "too long hostname" :=
      if_pos (hlen.mpr hlong)
    rw [hcode]
    exact if_pos hlong
  · have hcode : upstreamHostname loads defaultPort name =
        (upstreamWeight name).bind fun parsed =>
          upstreamPort loads defaultPort name parsed.1 parsed.2 :=
      if_neg (mt hlen.mp hlong)
    rw [hcode]
    unfold phlUpstreamHostnameInit
    rw [if_neg hlong, upstreamWeight_conf hlt]
    cases upstreamWeight name with
    | error e => rfl
    | ok parsed => exact upstreamPort_conf hlt parsed.1 parsed.2

end Tables

end Phorklift
