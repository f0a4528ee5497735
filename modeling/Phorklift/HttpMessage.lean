import Phorklift.ByteString
import Mathlib.Algebra.GroupWithZero.Nat
import Mathlib.Data.List.TakeWhile

/-! How a receiver of HTTP/1.1 finds the end of a request. -/

namespace Http

/-- A byte of a token. -/
def isTchar (c : UInt8) : Bool :=
  (48 ≤ c && c ≤ 57) || (65 ≤ c && c ≤ 90) || (97 ≤ c && c ≤ 122) ||
    [33, 35, 36, 37, 38, 39, 42, 43, 45, 46, 94, 95, 96, 124, 126].contains c

def isBlank (c : UInt8) : Bool := c == 32 || c == 9

def toLower (c : UInt8) : UInt8 := if 65 ≤ c ∧ c ≤ 90 then c + 32 else c

structure Field where
  name : List UInt8
  value : List UInt8
  deriving DecidableEq, Repr

/-- A name that is a token, and a value without blanks at its ends and without CR, LF and NUL. -/
def Field.Clean (f : Field) : Prop :=
  f.name ≠ [] ∧ (∀ c ∈ f.name, isTchar c = true) ∧ (∀ c ∈ f.value.head?, isBlank c = false) ∧
    (∀ c ∈ f.value.getLast?, isBlank c = false) ∧ ∀ c ∈ f.value, c ≠ 13 ∧ c ≠ 10 ∧ c ≠ 0

instance (f : Field) : Decidable f.Clean := by
  unfold Field.Clean
  infer_instance

def Field.named (lowered : List UInt8) (f : Field) : Bool :=
  f.name.map toLower == lowered

def trim (s : List UInt8) : List UInt8 :=
  ((s.dropWhile isBlank).reverse.dropWhile isBlank).reverse

/-- The bytes before the first CRLF, and those after it. -/
def takeLine : List UInt8 → Option (List UInt8 × List UInt8)
  | 13 :: 10 :: rest => some ([], rest)
  | c :: rest => (takeLine rest).map fun p => (c :: p.1, p.2)
  | [] => none

def parseField (line : List UInt8) : Option Field :=
  match line.dropWhile (· != 58) with
  | [] => none
  | _ :: value =>
    let f : Field := ⟨line.takeWhile (· != 58), trim value⟩
    if f.Clean then some f else none

/-- Fields up to the empty line; `fuel` bounds the number of lines. -/
def parseFields : Nat → List UInt8 → Option (List Field × List UInt8)
  | 0, _ => none
  | fuel + 1, s => do
    let (line, rest) ← takeLine s
    if line = [] then some ([], rest)
    else do
      let f ← parseField line
      let (fs, rest) ← parseFields fuel rest
      some (f :: fs, rest)

/-- A target without blanks and control bytes. -/
def CleanTarget (t : List UInt8) : Prop :=
  t ≠ [] ∧ ∀ c ∈ t, 32 < c ∧ c ≠ 127

instance (t : List UInt8) : Decidable (CleanTarget t) := by
  unfold CleanTarget
  infer_instance

def CleanMethod (m : List UInt8) : Prop :=
  m ≠ [] ∧ ∀ c ∈ m, isTchar c = true

instance (m : List UInt8) : Decidable (CleanMethod m) := by
  unfold CleanMethod
  infer_instance

/-- `HTTP/1.1` -/
def version : List UInt8 := [72, 84, 84, 80, 47, 49, 46, 49]

def parseRequestLine (line : List UInt8) : Option (List UInt8 × List UInt8) :=
  match line.dropWhile (· != 32) with
  | [] => none
  | _ :: rest =>
    let m := line.takeWhile (· != 32)
    let t := rest.takeWhile (· != 32)
    if rest.dropWhile (· != 32) = 32 :: version ∧ CleanMethod m ∧ CleanTarget t then some (m, t)
    else none

def parseDecimal (s : List UInt8) : Option Nat :=
  if s ≠ [] ∧ ∀ c ∈ s, 48 ≤ c ∧ c ≤ 57 then
    some (s.foldl (fun n c => n * 10 + (c.toNat - 48)) 0)
  else none

def hexValue (c : UInt8) : Option Nat :=
  if 48 ≤ c ∧ c ≤ 57 then some (c.toNat - 48)
  else if 65 ≤ c ∧ c ≤ 70 then some (c.toNat - 55)
  else if 97 ≤ c ∧ c ≤ 102 then some (c.toNat - 87)
  else none

def parseHex (s : List UInt8) : Option Nat :=
  if s = [] then none
  else s.foldlM (fun n c => (hexValue c).map fun d => n * 16 + d) 0

inductive Framing
  | length (n : Nat)
  | chunked
  deriving DecidableEq, Repr

/-- `content-length` -/
def contentLength : List UInt8 :=
  [99, 111, 110, 116, 101, 110, 116, 45, 108, 101, 110, 103, 116, 104]

/-- `transfer-encoding` -/
def transferEncoding : List UInt8 :=
  [116, 114, 97, 110, 115, 102, 101, 114, 45, 101, 110, 99, 111, 100, 105, 110, 103]

/-- `chunked` -/
def chunkedCoding : List UInt8 := [99, 104, 117, 110, 107, 101, 100]

/-- The length of a request body. Both kinds of framing at once, another coding than `chunked`,
and lengths that differ or are no number are errors. -/
def framing (fs : List Field) : Option Framing :=
  let codings := fs.filter (·.named transferEncoding)
  let lengths := (fs.filter (·.named contentLength)).map (·.value)
  match codings, lengths with
  | [], [] => some (.length 0)
  | [], v :: vs => if ∀ v' ∈ vs, v' = v then (parseDecimal v).map .length else none
  | [coding], [] => if coding.value.map toLower = chunkedCoding then some .chunked else none
  | _, _ => none

/-- A chunked body, whose trailer is dropped. -/
def parseChunks : Nat → List UInt8 → Option (List UInt8 × List UInt8)
  | 0, _ => none
  | fuel + 1, s => do
    let (line, rest) ← takeLine s
    let size ← parseHex (line.takeWhile (· != 59))
    if size = 0 then do
      let (_, rest) ← parseFields fuel rest
      some ([], rest)
    else match rest.drop size with
    | 13 :: 10 :: next => do
      let (data, rest') ← parseChunks fuel next
      some (rest.take size ++ data, rest')
    | _ => none

structure Request where
  method : List UInt8
  target : List UInt8
  fields : List Field
  body : List UInt8
  deriving DecidableEq, Repr

/-- A request and the bytes after it. -/
def parse (s : List UInt8) : Option (Request × List UInt8) := do
  let (line, rest) ← takeLine s
  let (m, t) ← parseRequestLine line
  let (fs, rest) ← parseFields (rest.length + 1) rest
  match ← framing fs with
  | .length n => if rest.length < n then none else some (⟨m, t, fs, rest.take n⟩, rest.drop n)
  | .chunked => (parseChunks (rest.length + 1) rest).map fun p => (⟨m, t, fs, p.1⟩, p.2)

/-- A field as it is sent. -/
def Field.line (f : Field) : List UInt8 := f.name ++ [58, 32] ++ f.value

def crlf : List UInt8 := [13, 10]

def head (m t : List UInt8) (fs : List Field) : List UInt8 :=
  m ++ 32 :: t ++ 32 :: version ++ crlf ++ fs.flatMap (fun f => f.line ++ crlf) ++ crlf

theorem head_length (m t : List UInt8) (fs : List Field) : (head m t fs).length =
    m.length + t.length + (fs.map fun f => f.name.length + f.value.length + 4).sum + 14 := by
  have hlines : (fs.flatMap fun f => f.line ++ crlf).length =
      (fs.map fun f => f.name.length + f.value.length + 4).sum := by
    induction fs with
    | nil => rfl
    | cons f fs ih =>
      rw [List.flatMap_cons, List.length_append, ih, List.map_cons, List.sum_cons]
      simp only [Field.line, crlf, List.length_append, List.length_cons, List.length_nil]
      omega
  unfold head
  simp only [List.length_append, List.length_cons, hlines]
  simp only [version, crlf, List.length_cons, List.length_nil]
  omega

section Lines

theorem takeLine_append {line : List UInt8} (h : 13 ∉ line) (rest : List UInt8) :
    takeLine (line ++ crlf ++ rest) = some (line, rest) := by
  induction line with
  | nil => rfl
  | cons c line ih =>
    have hc : c ≠ 13 := fun h0 => h (h0 ▸ List.mem_cons_self)
    have hline : 13 ∉ line := fun h0 => h (List.mem_cons_of_mem c h0)
    rw [List.cons_append, List.cons_append, takeLine.eq_2]
    · rw [ih hline]
      rfl
    · intro rest' hcr
      exact absurd hcr hc

theorem takeLine_append_right {s line rest : List UInt8} (h : takeLine s = some (line, rest))
    (more : List UInt8) : takeLine (s ++ more) = some (line, rest ++ more) := by
  fun_induction takeLine s generalizing line rest with
  | case1 rest' =>
    cases h
    rfl
  | case2 c rest' hcr ih =>
    obtain ⟨⟨l, r⟩, hl, hp⟩ := Option.map_eq_some_iff.mp h
    cases hp
    rw [List.cons_append, takeLine.eq_2]
    · rw [ih hl]
      rfl
    · intro next hc hnext
      cases rest' with
      | nil => cases hl
      | cons d rest' =>
        rw [List.cons_append, List.cons.injEq] at hnext
        exact hcr rest' hc (by rw [hnext.1])
  | case3 => cases h

theorem takeLine_length {s line rest : List UInt8} (h : takeLine s = some (line, rest)) :
    line.length + rest.length + 2 ≤ s.length := by
  fun_induction takeLine s generalizing line rest with
  | case1 rest' =>
    cases h
    simp
  | case2 c rest' hcr ih =>
    obtain ⟨⟨l, r⟩, hl, hp⟩ := Option.map_eq_some_iff.mp h
    cases hp
    have hlen := ih hl
    simp only [List.length_cons]
    omega
  | case3 => cases h

end Lines

section Fields

theorem trim_clean {s : List UInt8} (hh : ∀ c ∈ s.head?, isBlank c = false)
    (hl : ∀ c ∈ s.getLast?, isBlank c = false) : trim (32 :: s) = s := by
  have hdrop : ∀ t : List UInt8, (∀ c ∈ t.head?, isBlank c = false) → t.dropWhile isBlank = t := by
    intro t ht
    cases t with
    | nil => rfl
    | cons c t => exact List.dropWhile_cons_of_neg (by simp [ht c rfl])
  have hrev : ∀ c ∈ s.reverse.head?, isBlank c = false := by
    rw [List.head?_reverse]
    exact hl
  unfold trim
  rw [List.dropWhile_cons_of_pos (by rfl), hdrop s hh, hdrop _ hrev, List.reverse_reverse]

theorem takeWhile_stop {p : UInt8 → Bool} {u v : List UInt8} (hu : ∀ c ∈ u, p c = true)
    (hv : ∀ c ∈ v.head?, p c = false) :
    (u ++ v).takeWhile p = u ∧ (u ++ v).dropWhile p = v := by
  rw [List.takeWhile_append_of_pos hu, List.dropWhile_append_of_pos hu]
  cases v with
  | nil => simp
  | cons c v =>
    have hc : p c = false := hv c rfl
    simp [hc]

theorem isTchar_ne {c : UInt8} (h : isTchar c = true) :
    c ≠ 58 ∧ c ≠ 13 ∧ c ≠ 32 := by
  refine ⟨?_, ?_, ?_⟩ <;> rintro rfl <;> simp [isTchar] at h

theorem parseField_line {f : Field} (h : f.Clean) : parseField f.line = some f := by
  obtain ⟨hne, hname, hh, hl, hval⟩ := h
  have hcolon : ∀ c ∈ f.name, (c != 58) = true :=
    fun c hc => bne_iff_ne.mpr (isTchar_ne (hname c hc)).1
  obtain ⟨htake, hdrop⟩ := takeWhile_stop (v := [58, 32] ++ f.value) hcolon (by simp)
  have hline : f.line = f.name ++ ([58, 32] ++ f.value) := List.append_assoc ..
  unfold parseField
  rw [hline, htake, hdrop]
  simp only [List.cons_append, List.nil_append, trim_clean hh hl]
  exact if_pos ⟨hne, hname, hh, hl, hval⟩

theorem parseField_clean {line : List UInt8} {f : Field} (h : parseField line = some f) :
    f.Clean := by
  unfold parseField at h
  split at h
  next => cases h
  next =>
    dsimp only at h
    split at h
    next hc => cases h; exact hc
    next => cases h

theorem line_ne_nil {f : Field} : f.line ≠ [] := by
  simp [Field.line]

theorem cr_notMem_line {f : Field} (h : f.Clean) : 13 ∉ f.line := by
  obtain ⟨-, hname, -, -, hval⟩ := h
  intro hmem
  rcases List.mem_append.mp hmem with hmem | hmem
  · rcases List.mem_append.mp hmem with hmem | hmem
    · exact (isTchar_ne (hname 13 hmem)).2.1 rfl
    · simp at hmem
  · exact (hval 13 hmem).1 rfl

theorem parseFields_lines {fs : List Field} (h : ∀ f ∈ fs, f.Clean) {fuel : Nat}
    (hfuel : fs.length < fuel) (rest : List UInt8) :
    parseFields fuel (fs.flatMap (fun f => f.line ++ crlf) ++ crlf ++ rest) = some (fs, rest) := by
  induction fs generalizing fuel with
  | nil =>
    cases fuel with
    | zero => simp at hfuel
    | succ fuel => rfl
  | cons f fs ih =>
    cases fuel with
    | zero => simp at hfuel
    | succ fuel =>
      have hf := h f (by simp)
      have hrest := ih (fun g hg => h g (by simp [hg])) (Nat.lt_of_succ_lt_succ hfuel)
      unfold parseFields
      rw [List.flatMap_cons, List.append_assoc, List.append_assoc,
        takeLine_append (cr_notMem_line hf)]
      simp only [bind, Option.bind, if_neg line_ne_nil, parseField_line hf]
      rw [List.append_assoc] at hrest
      rw [hrest]

theorem length_le_lines (fs : List Field) :
    fs.length ≤ (fs.flatMap fun f => f.line ++ crlf).length := by
  induction fs with
  | nil => simp
  | cons f fs ih =>
    simp only [List.flatMap_cons, List.length_append, List.length_cons, crlf] at ih ⊢
    omega

theorem parseFields_clean {fuel : Nat} {s rest : List UInt8} {fs : List Field}
    (h : parseFields fuel s = some (fs, rest)) : ∀ f ∈ fs, f.Clean := by
  induction fuel generalizing s fs with
  | zero => cases h
  | succ fuel ih =>
    obtain ⟨⟨line, s'⟩, -, h⟩ := Option.bind_eq_some_iff.mp h
    dsimp only at h
    split at h
    next => cases h; simp
    next =>
      obtain ⟨f, hf, h⟩ := Option.bind_eq_some_iff.mp h
      obtain ⟨⟨gs, s''⟩, hgs, h⟩ := Option.bind_eq_some_iff.mp h
      cases h
      intro g hg
      rcases List.mem_cons.mp hg with rfl | hg
      · exact parseField_clean hf
      · exact ih hgs g hg

theorem parseFields_length {fuel : Nat} {s rest : List UInt8} {fs : List Field}
    (h : parseFields fuel s = some (fs, rest)) : rest.length < s.length := by
  induction fuel generalizing s fs with
  | zero => cases h
  | succ fuel ih =>
    obtain ⟨⟨line, s'⟩, hl, h⟩ := Option.bind_eq_some_iff.mp h
    have hlen := takeLine_length hl
    dsimp only at h
    split at h
    next =>
      cases h
      omega
    next =>
      obtain ⟨f, -, h⟩ := Option.bind_eq_some_iff.mp h
      obtain ⟨⟨gs, s''⟩, hgs, h⟩ := Option.bind_eq_some_iff.mp h
      cases h
      have hrest := ih hgs
      omega

end Fields

/-- The coding of a chunked body is longer than the body. -/
theorem parseChunks_length {fuel : Nat} {s data rest : List UInt8}
    (h : parseChunks fuel s = some (data, rest)) : data.length + rest.length < s.length := by
  induction fuel generalizing s data with
  | zero => cases h
  | succ fuel ih =>
    obtain ⟨⟨line, s'⟩, hl, h⟩ := Option.bind_eq_some_iff.mp h
    obtain ⟨size, -, h⟩ := Option.bind_eq_some_iff.mp h
    have hlen := takeLine_length hl
    dsimp only at hlen h
    split at h
    next =>
      obtain ⟨⟨fs, s''⟩, hfs, h⟩ := Option.bind_eq_some_iff.mp h
      cases h
      have hrest := parseFields_length hfs
      simp only [List.length_nil]
      omega
    next =>
      split at h
      next next hnext =>
        obtain ⟨⟨data', s''⟩, hd, h⟩ := Option.bind_eq_some_iff.mp h
        cases h
        have hrest := ih hd
        have hdrop := congrArg List.length hnext
        simp only [List.length_drop, List.length_cons] at hdrop
        simp only [List.length_append, List.length_take] at hrest ⊢
        omega
      next => cases h

/-- A length is one or several equal ones, or none for 0. -/
theorem framing_length_iff {fs : List Field} {n : Nat} :
    framing fs = some (.length n) ↔ (∀ f ∈ fs, f.named transferEncoding = false) ∧
      (n = 0 ∧ (∀ f ∈ fs, f.named contentLength = false) ∨
        ∃ v, (∃ f ∈ fs, f.named contentLength = true ∧ f.value = v) ∧
          (∀ f ∈ fs, f.named contentLength = true → f.value = v) ∧ parseDecimal v = some n) := by
  have huncoded : (∀ f ∈ fs, f.named transferEncoding = false) ↔
      fs.filter (·.named transferEncoding) = [] := by
    simp only [List.filter_eq_nil_iff, Bool.not_eq_true]
  have hvalues : ∀ v, v ∈ (fs.filter (·.named contentLength)).map (·.value) ↔
      ∃ f ∈ fs, f.named contentLength = true ∧ f.value = v := by
    intro v
    simp only [List.mem_map, List.mem_filter, and_assoc]
  have hnone : (∀ f ∈ fs, f.named contentLength = false) ↔
      (fs.filter (·.named contentLength)).map (·.value) = [] := by
    simp only [List.map_eq_nil_iff, List.filter_eq_nil_iff, Bool.not_eq_true]
  have hall : ∀ v, (∀ f ∈ fs, f.named contentLength = true → f.value = v) ↔
      ∀ v' ∈ (fs.filter (·.named contentLength)).map (·.value), v' = v := by
    intro v
    constructor
    · intro h v' hv'
      obtain ⟨f, hf, hn, rfl⟩ := (hvalues v').mp hv'
      exact h f hf hn
    · intro h f hf hn
      exact h f.value ((hvalues _).mpr ⟨f, hf, hn, rfl⟩)
  unfold framing
  simp only [huncoded, hnone, hall, ← hvalues]
  generalize fs.filter (·.named transferEncoding) = codings
  generalize (fs.filter (·.named contentLength)).map (·.value) = lengths
  split
  next => simp [eq_comm]
  next v vs =>
    constructor
    · intro h
      split at h
      next hvs =>
        obtain ⟨n', hn, he⟩ := Option.map_eq_some_iff.mp h
        cases he
        refine ⟨rfl, .inr ⟨v, by simp, ?_, hn⟩⟩
        intro v' hv'
        rcases List.mem_cons.mp hv' with rfl | hv'
        · rfl
        · exact hvs v' hv'
      next => cases h
    · rintro ⟨-, ⟨-, h⟩ | ⟨u, -, hu, hn⟩⟩
      · cases h
      · have hv : v = u := hu v (by simp)
        subst hv
        rw [if_pos fun v' hv' => hu v' (by simp [hv']), hn]
        rfl
  next =>
    split <;> simp
  next h1 h2 h3 =>
    constructor
    · intro h
      cases h
    · rintro ⟨rfl, -⟩
      cases lengths with
      | nil => exact absurd rfl (h1 rfl)
      | cons v vs => exact absurd rfl (h2 v vs rfl)

section Parse

variable {m t : List UInt8} {fs : List Field}

theorem parseRequestLine_line (hm : CleanMethod m) (ht : CleanTarget t) :
    parseRequestLine (m ++ 32 :: t ++ 32 :: version) = some (m, t) := by
  have hmethod : ∀ c ∈ m, (c != 32) = true :=
    fun c hc => bne_iff_ne.mpr (isTchar_ne (hm.2 c hc)).2.2
  have htarget : ∀ c ∈ t, (c != 32) = true := by
    intro c hc
    rw [bne_iff_ne]
    rintro rfl
    exact absurd (ht.2 32 hc).1 (by decide)
  obtain ⟨htake, hdrop⟩ := takeWhile_stop (v := 32 :: (t ++ 32 :: version)) hmethod (by simp)
  obtain ⟨htake', hdrop'⟩ := takeWhile_stop (v := 32 :: version) htarget (by simp)
  have hline : m ++ 32 :: t ++ 32 :: version = m ++ 32 :: (t ++ 32 :: version) := by simp
  unfold parseRequestLine
  rw [hline, htake, hdrop]
  simp only [htake', hdrop']
  exact if_pos ⟨trivial, hm, ht⟩

theorem parseRequestLine_clean {line : List UInt8} (h : parseRequestLine line = some (m, t)) :
    CleanMethod m ∧ CleanTarget t := by
  unfold parseRequestLine at h
  split at h
  next => cases h
  next =>
    dsimp only at h
    split at h
    next hc => cases h; exact hc.2
    next => cases h

/-- What a clean request is followed by is read by its framing. -/
theorem parse_head (hm : CleanMethod m) (ht : CleanTarget t) (hfs : ∀ f ∈ fs, f.Clean)
    (rest : List UInt8) : parse (head m t fs ++ rest) = (framing fs).bind fun
      | .length n => if rest.length < n then none
          else some (⟨m, t, fs, rest.take n⟩, rest.drop n)
      | .chunked => (parseChunks (rest.length + 1) rest).map fun p => (⟨m, t, fs, p.1⟩, p.2) := by
  have hcr : 13 ∉ m ++ 32 :: t ++ 32 :: version := by
    have hmcr : 13 ∉ m := fun h => (isTchar_ne (hm.2 13 h)).2.1 rfl
    have htcr : 13 ∉ t := fun h => absurd (ht.2 13 h).1 (by decide)
    simp [hmcr, htcr, version]
  have hsplit : head m t fs ++ rest = (m ++ 32 :: t ++ 32 :: version) ++ crlf ++
      (fs.flatMap (fun f => f.line ++ crlf) ++ crlf ++ rest) := by simp [head]
  have hfuel : fs.length < (fs.flatMap (fun f => f.line ++ crlf) ++ crlf ++ rest).length + 1 := by
    have hcount := length_le_lines fs
    simp only [List.length_append]
    omega
  unfold parse
  rw [hsplit, takeLine_append hcr]
  simp only [bind, Option.bind, parseRequestLine_line hm ht, parseFields_lines hfs hfuel]

theorem parse_clean {s rest : List UInt8} {r : Request} (h : parse s = some (r, rest)) :
    CleanMethod r.method ∧ CleanTarget r.target ∧ ∀ f ∈ r.fields, f.Clean := by
  obtain ⟨⟨line, s'⟩, -, h⟩ := Option.bind_eq_some_iff.mp h
  obtain ⟨⟨m, t⟩, hline, h⟩ := Option.bind_eq_some_iff.mp h
  obtain ⟨⟨fs, s''⟩, hfs, h⟩ := Option.bind_eq_some_iff.mp h
  obtain ⟨hm, ht⟩ := parseRequestLine_clean hline
  have hclean := parseFields_clean hfs
  obtain ⟨frame, -, h⟩ := Option.bind_eq_some_iff.mp h
  cases frame with
  | length n =>
    dsimp only at h
    split at h
    next => cases h
    next => cases h; exact ⟨hm, ht, hclean⟩
  | chunked =>
    obtain ⟨p, -, h⟩ := Option.map_eq_some_iff.mp h
    cases h
    exact ⟨hm, ht, hclean⟩

end Parse

end Http
