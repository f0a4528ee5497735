import Phorklift.WireRequest

/-! The values of `Content-Length` that the two request parsers take. -/

namespace Phorklift

/-- A length that is below the sentinel for no length, as for every number of 63 bits. -/
def IsLength (v : Bytes) : Prop :=
  v ≠ [] ∧ (∀ c ∈ v, isDigit c = true) ∧ digitsValue v < 2 ^ 63

instance (v : Bytes) : Decidable (IsLength v) := by
  unfold IsLength
  infer_instance

/-- A number as `strtol` takes it. -/
def Numeral (v : Bytes) : Prop :=
  ∃ blank sign digits, v = blank ++ (sign ++ digits) ∧ (∀ c ∈ blank, isSpace c = true) ∧
    (sign = [] ∨ sign = [45] ∨ sign = [43]) ∧ digits ≠ [] ∧ ∀ c ∈ digits, isDigit c = true

/-- Lengths are taken as they are, and nothing else is taken. -/
structure ReadsLength (v : Bytes) (accepted : Prop) (contentLength : Nat) : Prop where
  accepts : accepted ↔ IsLength v
  stores : IsLength v → contentLength = digitsValue v

/-- The header as the library finds it. -/
def WireHeader.found (h : WireHeader) : HeaderLine :=
  ⟨h.name.length, h.name.length + 1 + h.pad.length, h.value.length⟩

/-- The answer of the HTTP/1 parser to a header line, which other bytes follow. -/
def http1Answer (h : WireHeader) (rest : Bytes) (r : Req) : Int × Req :=
  phlHttp1RequestHeader h.found (h.line ++ rest) r

section Strtol

/-- The blanks, the sign and the digits that `strtol` reads. -/
structure StrtolParts where
  blank : Bytes
  sign : Bytes
  digits : Bytes

def strtolParts (s : Bytes) : StrtolParts :=
  let blank := s.takeWhile isSpace
  let rest := s.drop blank.length
  let sign := if rest.take 1 == [45] || rest.take 1 == [43] then rest.take 1 else []
  ⟨blank, sign, (rest.drop sign.length).takeWhile isDigit⟩

def StrtolParts.length (p : StrtolParts) : Nat :=
  p.blank.length + p.sign.length + p.digits.length

variable {s v rest blank sign digits : Bytes}

theorem strtolParts_split (s : Bytes) : ∃ more, s = (strtolParts s).blank ++
    ((strtolParts s).sign ++ ((strtolParts s).digits ++ more)) := by
  obtain ⟨blank, hblank⟩ : ∃ blank, s.takeWhile isSpace = blank := ⟨_, rfl⟩
  obtain ⟨more, hmore⟩ := List.takeWhile_prefix (p := isSpace) (l := s)
  rw [hblank] at hmore
  have hdrop : s.drop blank.length = more := by rw [← hmore, List.drop_left]
  unfold strtolParts
  simp only [hblank, hdrop]
  obtain ⟨sign, hsign⟩ : ∃ sign, (if more.take 1 == [45] || more.take 1 == [43] then more.take 1
      else []) = sign := ⟨_, rfl⟩
  have hsplit : sign ++ more.drop sign.length = more := by
    rw [← hsign]
    split
    next =>
      have hone : (more.take 1).length = min 1 more.length := List.length_take
      rw [hone]
      cases more with
      | nil => rfl
      | cons c more => simp
    next => rfl
  obtain ⟨tail, htail⟩ := List.takeWhile_prefix (p := isDigit) (l := more.drop sign.length)
  rw [hsign]
  refine ⟨tail, ?_⟩
  rw [htail, hsplit, hmore]

theorem strtolParts_kinds (s : Bytes) : (∀ c ∈ (strtolParts s).blank, isSpace c = true) ∧
    ((strtolParts s).sign = [] ∨ (strtolParts s).sign = [45] ∨ (strtolParts s).sign = [43]) ∧
    ∀ c ∈ (strtolParts s).digits, isDigit c = true := by
  refine ⟨fun c hc => List.mem_takeWhile_imp hc, ?_, fun c hc => List.mem_takeWhile_imp hc⟩
  unfold strtolParts
  dsimp only
  split
  next h =>
    rw [Bool.or_eq_true, beq_iff_eq, beq_iff_eq] at h
    exact .inr h
  next => exact .inl rfl

/-- The sign is taken with the digits after it. -/
theorem strtolParts_numeral (hblank : ∀ c ∈ blank, isSpace c = true)
    (hsign : sign = [] ∨ sign = [45] ∨ sign = [43]) (hne : digits ≠ [])
    (hdigits : ∀ c ∈ digits, isDigit c = true) (hrest : ∀ c ∈ rest.head?, isDigit c = false) :
    strtolParts (blank ++ (sign ++ (digits ++ rest))) = ⟨blank, sign, digits⟩ := by
  obtain ⟨d, ds, hd⟩ := List.exists_cons_of_ne_nil hne
  obtain ⟨hspace, h45, h43⟩ := isDigit_first (hdigits d (hd ▸ List.mem_cons_self))
  have hfirst : ∀ c ∈ (sign ++ (digits ++ rest)).head?, isSpace c = false := by
    rw [hd]
    intro c hc
    rcases hsign with hs | hs | hs
    · rw [hs] at hc
      cases hc
      exact hspace
    · rw [hs] at hc
      cases hc
      rfl
    · rw [hs] at hc
      cases hc
      rfl
  obtain ⟨htake, -⟩ := Http.takeWhile_stop hblank hfirst
  have htakeDigits := (Http.takeWhile_stop hdigits hrest).1
  have hsigned : (if (sign ++ (digits ++ rest)).take 1 == [45] ||
      (sign ++ (digits ++ rest)).take 1 == [43] then (sign ++ (digits ++ rest)).take 1 else []) =
        sign := by
    rw [hd]
    rcases hsign with hs | hs | hs
    · rw [hs]
      simp [h45, h43]
    · rw [hs]
      rfl
    · rw [hs]
      rfl
  unfold strtolParts
  dsimp only
  rw [htake, List.drop_left, hsigned, List.drop_left, htakeDigits]

/-- Saturation leaves `endp` as it is. -/
theorem saturated_used (value : Int) (used : Nat) :
    (if value < longMin then (⟨longMin, used, true⟩ : Strtol)
      else if longMax < value then ⟨longMax, used, true⟩ else ⟨value, used, false⟩).used = used := by
  split
  next => rfl
  next => split <;> rfl

theorem strtol_used (s : Bytes) : (strtol s).used =
    if (strtolParts s).digits = [] then 0 else (strtolParts s).length := by
  obtain ⟨rest, hrest⟩ : ∃ rest, s.drop (s.takeWhile isSpace).length = rest := ⟨_, rfl⟩
  have hone : (rest.take 1 == [45] || rest.take 1 == [43]) = true → (rest.take 1).length = 1 := by
    intro h
    rw [Bool.or_eq_true, beq_iff_eq, beq_iff_eq] at h
    rcases h with h | h <;> rw [h] <;> rfl
  unfold strtol StrtolParts.length strtolParts
  simp only [hrest, List.isEmpty_iff]
  by_cases hsigned : (rest.take 1 == [45] || rest.take 1 == [43]) = true
  · simp only [if_pos hsigned, hone hsigned]
    split
    next => rfl
    next => exact saturated_used _ _
  · simp only [if_neg hsigned, List.length_nil, List.drop_zero]
    split
    next => rfl
    next => exact saturated_used _ _

/-- `endp` is at the end of a value that is a number, or of an empty one that no number follows. -/
theorem strtol_used_iff (hrest : ∀ c ∈ rest.head?, isDigit c = false) :
    (strtol (v ++ rest)).used = v.length ↔ Numeral v ∨ v = [] ∧ (strtol rest).used = 0 := by
  constructor
  · intro h
    by_cases hnil : v = []
    · right
      rw [hnil] at h
      exact ⟨hnil, h⟩
    · left
      have hpos : 0 < v.length := List.length_pos_iff.mpr hnil
      obtain ⟨hblank, hsign, hall⟩ := strtolParts_kinds (v ++ rest)
      obtain ⟨more, hmore⟩ := strtolParts_split (v ++ rest)
      rw [strtol_used] at h
      generalize strtolParts (v ++ rest) = parts at h hblank hsign hall hmore
      by_cases hdigits : parts.digits = []
      · rw [if_pos hdigits] at h
        omega
      · rw [if_neg hdigits] at h
        have hcut : v ++ rest = parts.blank ++ (parts.sign ++ parts.digits) ++ more := by
          rw [hmore]
          simp
        have hlen : v.length = (parts.blank ++ (parts.sign ++ parts.digits)).length := by
          simp only [List.length_append, ← h, StrtolParts.length]
          omega
        have hv := (List.append_inj hcut hlen).1
        exact ⟨_, _, _, hv, hblank, hsign, hdigits, hall⟩
  · rintro (⟨blank, sign, digits, hv, hblank, hsign, hne, hdigits⟩ | ⟨hnil, hused⟩)
    · have hparts := strtolParts_numeral hblank hsign hne hdigits hrest
      have hassoc : v ++ rest = blank ++ (sign ++ (digits ++ rest)) := by
        rw [hv]
        simp
      rw [strtol_used, hassoc, hparts, if_neg hne, hv]
      simp only [StrtolParts.length, List.length_append]
      omega
    · rw [hnil]
      exact hused

end Strtol

section Agreement

variable {lib : Libwuya} {h : WireHeader} {r : Req} {v rest : Bytes}

theorem parseDecimal_of_isLength (hv : IsLength v) : Http.parseDecimal v = some (digitsValue v) := by
  unfold Http.parseDecimal
  have hdigits : v ≠ [] ∧ ∀ c ∈ v, 48 ≤ c ∧ c ≤ 57 := by
    refine ⟨hv.1, fun c hc => ?_⟩
    have hc' := hv.2.1 c hc
    simpa [isDigit] using hc'
  rw [if_pos hdigits]
  rfl

/-- What the HTTP/1 parser makes of a line. -/
theorem http1Answer_eq (hname : h.name = bytes "Content-Length") (rest : Bytes) (r : Req) :
    http1Answer h rest r =
      (if (strtol (h.value ++ (h.trail ++ crlf ++ rest))).used ≠ h.value.length then 400 else phlOk,
        { r with
          contentLength := toSize (strtol (h.value ++ (h.trail ++ crlf ++ rest))).value }) := by
  have hprefix : (bytes "Content-Length").isPrefixOf (h.line ++ rest) = true := by
    rw [isLengthName_line, hname]
    rfl
  unfold http1Answer phlHttp1RequestHeader WireHeader.found
  rw [if_pos hprefix]
  dsimp only
  rw [value_drop]
  split <;> rfl

theorem http1_reads (hname : h.name = bytes "Content-Length")
    (htrail : ∀ c ∈ h.trail, Http.isBlank c = true) (hv : IsLength h.value) :
    (http1Answer h rest r).1 = phlOk ∧
      (http1Answer h rest r).2.contentLength = digitsValue h.value := by
  have hvalue := strtol_digits (parseDecimal_of_isLength hv) hv.2.2 (trail_stop htrail rest)
  rw [http1Answer_eq hname, hvalue]
  exact ⟨if_neg (by simp), toSize_natCast (Nat.lt_trans hv.2.2 (by decide))⟩

theorem http2_reads (hv : IsLength v) :
    (phlHttp2HookStreamHeader lib r (bytes "content-length") v).2.contentLength = digitsValue v := by
  have hvalue : strtol (v ++ []) = ⟨digitsValue v, v.length, false⟩ :=
    strtol_digits (parseDecimal_of_isLength hv) hv.2.2 nofun
  rw [List.append_nil] at hvalue
  show toSize (strtol v).value = digitsValue v
  rw [hvalue]
  exact toSize_natCast (Nat.lt_trans hv.2.2 (by decide))

theorem http1_accepts_iff (hname : h.name = bytes "Content-Length")
    (htrail : ∀ c ∈ h.trail, Http.isBlank c = true) :
    (http1Answer h rest r).1 = phlOk ↔ Numeral h.value ∨
      h.value = [] ∧ (strtol (h.trail ++ crlf ++ rest)).used = 0 := by
  rw [http1Answer_eq hname, ← strtol_used_iff (trail_stop htrail rest)]
  dsimp only
  constructor
  · intro haccepted
    by_contra hused
    rw [if_pos hused] at haccepted
    cases haccepted
  · intro hused
    exact if_neg fun hne => hne hused

/-- Both parsers read every length, and no other value is refused by both: the HTTP/2 hook accepts
all values. The HTTP/1 parser accepts the numbers that `strtol` takes, and an empty value unless a
number comes next in the buffer. -/
theorem contentLength_agreement_iff (hname : h.name = bytes "Content-Length")
    (htrail : ∀ c ∈ h.trail, Http.isBlank c = true) (q : Req) :
    (ReadsLength h.value ((http1Answer h rest r).1 = phlOk)
          (http1Answer h rest r).2.contentLength ∧
        ReadsLength h.value
          ((phlHttp2HookStreamHeader lib q (bytes "content-length") h.value).1 = true)
          (phlHttp2HookStreamHeader lib q (bytes "content-length") h.value).2.contentLength ↔
      IsLength h.value) ∧
    ((http1Answer h rest r).1 = phlOk ↔ Numeral h.value ∨
      h.value = [] ∧ (strtol (h.trail ++ crlf ++ rest)).used = 0) := by
  have haccepts : (phlHttp2HookStreamHeader lib q (bytes "content-length") h.value).1 = true := rfl
  refine ⟨⟨fun hboth => hboth.2.accepts.mp haccepts, fun hv => ⟨⟨?_, ?_⟩, ?_, ?_⟩⟩,
    http1_accepts_iff hname htrail⟩
  · exact iff_of_true (http1_reads hname htrail hv).1 hv
  · exact fun _ => (http1_reads hname htrail hv).2
  · exact iff_of_true haccepts hv
  · exact fun _ => http2_reads hv

def lengthHeader (v : Bytes) : WireHeader := ⟨bytes "Content-Length", [32], v, []⟩

theorem contentLength_agreement_iff_five :
    (ReadsLength (bytes "5") ((http1Answer (lengthHeader (bytes "5")) crlf .init).1 = phlOk)
          (http1Answer (lengthHeader (bytes "5")) crlf .init).2.contentLength ∧
        ReadsLength (bytes "5")
          ((phlHttp2HookStreamHeader .plain .init (bytes "content-length") (bytes "5")).1 = true)
          (phlHttp2HookStreamHeader .plain .init (bytes "content-length")
            (bytes "5")).2.contentLength ↔
      IsLength (bytes "5")) ∧
    ((http1Answer (lengthHeader (bytes "5")) crlf .init).1 = phlOk ↔ Numeral (bytes "5") ∨
      bytes "5" = [] ∧ (strtol ([] ++ crlf ++ crlf)).used = 0) :=
  contentLength_agreement_iff (h := lengthHeader (bytes "5")) rfl nofun .init

/-- `-1` is taken as no length at all by the HTTP/1 parser, and `5x` as 5 by the HTTP/2 hook. -/
theorem contentLength_accepts_others :
    ¬ReadsLength (bytes "-1")
      ((http1Answer (lengthHeader (bytes "-1")) crlf .init).1 = phlOk)
      (http1Answer (lengthHeader (bytes "-1")) crlf .init).2.contentLength ∧
    (http1Answer (lengthHeader (bytes "-1")) crlf .init).2.contentLength =
      phlContentLengthInit ∧
    ¬ReadsLength (bytes "5x")
      ((phlHttp2HookStreamHeader .plain .init (bytes "content-length") (bytes "5x")).1 = true)
      (phlHttp2HookStreamHeader .plain .init (bytes "content-length")
        (bytes "5x")).2.contentLength := by
  refine ⟨fun hreads => ?_, by decide, fun hreads => ?_⟩
  · have haccepted := hreads.accepts.mp (by decide)
    revert haccepted
    decide
  · have haccepted := hreads.accepts.mp (by decide)
    revert haccepted
    decide

end Agreement

end Phorklift
