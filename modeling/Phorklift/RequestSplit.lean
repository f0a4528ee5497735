import Phorklift.ContentLength
import Phorklift.RequestFrame
import Phorklift.UpstreamSplit

/-! How the end of a request head depends on the reads that it comes in. -/

namespace Phorklift

/-- A parser of lines answers on the line alone as it does on all that follows it. -/
structure SettlesLines {α : Type} (parse : Bytes → Parsed α) : Prop extends Settles parse where
  whole : ∀ data, 0 < (parse data).procLen →
    parse (data.take (parse data).procLen.toNat) = parse data

structure Libwuya.Lawful (lib : Libwuya) : Prop where
  requestLine : SettlesLines lib.httpRequestLine
  header : SettlesLines lib.httpHeader
  headerLine : ∀ data, 0 < (lib.httpHeader data).procLen → (lib.httpHeader data).procLen ≠ 2 →
    (lib.httpHeader data).value.In (data.take (lib.httpHeader data).procLen.toNat)

/-- A `Content-Length` has a value that is not blank, or no number follows it, except for a 0 where
the value is blanks. -/
def LengthTold (h : HeaderLine) (line rest : Bytes) : Prop :=
  (bytes "Content-Length").isPrefixOf line = true →
    (∃ c ∈ line.drop h.valuePos, isSpace c = false) ∨ (strtolParts rest).digits = [] ∨
      (h.valueLen ≠ 0 ∧ digitsValue (strtolParts rest).digits = 0)

section Strtol

variable {v x y : Bytes}

/-- `LONG_MIN` and `LONG_MAX` stand for what is past them. -/
def longOf (n : Int) : Int := max longMin (min longMax n)

theorem saturated_value (n : Int) (used : Nat) :
    (if n < longMin then (⟨longMin, used, true⟩ : Strtol)
      else if longMax < n then ⟨longMax, used, true⟩ else ⟨n, used, false⟩).value = longOf n := by
  unfold longOf longMin longMax
  split
  next =>
    show (-2 ^ 63 : Int) = _
    omega
  next =>
    split
    next =>
      show (2 ^ 63 - 1 : Int) = _
      omega
    next =>
      show n = _
      omega

theorem toSize_longOf (n : Int) : toSize (longOf n) = 0 ↔ n = 0 := by
  unfold toSize longOf longMin longMax
  omega

def StrtolParts.number (p : StrtolParts) : Int :=
  if p.sign = [45] then -(digitsValue p.digits : Int) else digitsValue p.digits

theorem strtolParts_number_zero (p : StrtolParts) :
    p.number = 0 ↔ digitsValue p.digits = 0 := by
  unfold StrtolParts.number
  split <;> omega

theorem strtol_value (s : Bytes) : (strtol s).value = longOf (strtolParts s).number := by
  obtain ⟨rest, hrest⟩ : ∃ rest, s.drop (s.takeWhile isSpace).length = rest := ⟨_, rfl⟩
  unfold strtol StrtolParts.number strtolParts
  simp only [hrest, List.isEmpty_iff, beq_iff_eq]
  by_cases hsigned : (rest.take 1 == [45] || rest.take 1 == [43]) = true
  · have hone : (rest.take 1).length = 1 := by
      rw [Bool.or_eq_true, beq_iff_eq, beq_iff_eq] at hsigned
      rcases hsigned with hs | hs <;> rw [hs] <;> rfl
    simp only [if_pos hsigned, hone]
    split
    next hnone =>
      rw [hnone]
      split <;> rfl
    next => exact saturated_value _ _
  · have hminus : rest.take 1 ≠ [45] := by
      intro hs
      rw [hs] at hsigned
      exact hsigned rfl
    have hempty : ([] : Bytes) ≠ [45] := by decide
    simp only [if_neg hsigned, List.length_nil, List.drop_zero, if_neg hminus, if_neg hempty]
    split
    next hnone =>
      rw [hnone]
      rfl
    next => exact saturated_value _ _

/-- Blanks in front are skipped. -/
theorem strtolParts_blank (hv : ∀ c ∈ v, isSpace c = true) (x : Bytes) :
    strtolParts (v ++ x) = { strtolParts x with blank := v ++ (strtolParts x).blank } := by
  have htake : (v ++ x).takeWhile isSpace = v ++ x.takeWhile isSpace := by
    rw [List.takeWhile_append, if_pos]
    rw [List.takeWhile_eq_self_iff.mpr hv]
  unfold strtolParts
  dsimp only
  rw [htake, List.length_append, ← List.drop_drop, List.drop_left]

/-- What follows a number can only go on with it. -/
theorem strtolParts_digits_append (h : (strtolParts x).digits ≠ []) (y : Bytes) :
    (strtolParts x).digits <+: (strtolParts (x ++ y)).digits := by
  obtain ⟨more, hmore⟩ := strtolParts_split x
  obtain ⟨hblank, hsign, hdigits⟩ := strtolParts_kinds x
  generalize strtolParts x = parts at hmore hblank hsign hdigits h
  have htail := List.takeWhile_append_dropWhile (p := isDigit) (l := more ++ y)
  have hsplit : x ++ y = parts.blank ++ (parts.sign ++
      ((parts.digits ++ (more ++ y).takeWhile isDigit) ++ (more ++ y).dropWhile isDigit)) := by
    rw [List.append_assoc, htail, hmore]
    simp
  rw [hsplit, strtolParts_numeral hblank hsign (List.append_ne_nil_of_left_ne_nil h _)]
  · exact List.prefix_append _ _
  · intro c hc
    rcases List.mem_append.mp hc with hc | hc
    · exact hdigits c hc
    · exact List.mem_takeWhile_imp hc
  · intro c hc
    have hnot := List.head?_dropWhile_not isDigit (more ++ y)
    rw [Option.mem_def.mp hc] at hnot
    exact hnot

theorem digitsValue_zero_of_prefix {u : Bytes} (hu : u <+: v) (hv : digitsValue v = 0) :
    digitsValue u = 0 := by
  have hgrows : ∀ (t : Bytes) (n : Nat),
      n ≤ t.foldl (fun acc c => acc * 10 + (c.toNat - 48)) n := by
    intro t
    induction t with
    | nil => exact fun n => le_refl n
    | cons c t ih =>
      intro n
      have hstep := ih (n * 10 + (c.toNat - 48))
      rw [List.foldl_cons]
      omega
  obtain ⟨t, ht⟩ := hu
  have hmore := hgrows t (digitsValue u)
  have hsame : t.foldl (fun acc c => acc * 10 + (c.toNat - 48)) (digitsValue u) =
      digitsValue v := by
    rw [← ht]
    unfold digitsValue
    rw [List.foldl_append]
  omega

/-- A number begins with a blank, a sign or a digit. -/
theorem strtolParts_first (h : (strtolParts x).digits ≠ []) :
    ∃ c more, x = c :: more ∧ (isSpace c = true ∨ c = 45 ∨ c = 43 ∨ isDigit c = true) := by
  obtain ⟨more, hmore⟩ := strtolParts_split x
  obtain ⟨hblank, hsign, hdigits⟩ := strtolParts_kinds x
  generalize strtolParts x = parts at h hmore hblank hsign hdigits
  cases hb : parts.blank with
  | cons c cs =>
    rw [hb] at hmore hblank
    exact ⟨c, _, hmore, .inl (hblank c List.mem_cons_self)⟩
  | nil =>
    rw [hb] at hmore
    rcases hsign with hs | hs | hs
    · obtain ⟨d, ds, hd⟩ := List.exists_cons_of_ne_nil h
      rw [hs, hd] at hmore
      refine ⟨d, _, hmore, .inr (.inr (.inr (hdigits d ?_)))⟩
      rw [hd]
      exact List.mem_cons_self
    · rw [hs] at hmore
      exact ⟨45, _, hmore, .inr (.inl rfl)⟩
    · rw [hs] at hmore
      exact ⟨43, _, hmore, .inr (.inr (.inl rfl))⟩

end Strtol

section Header

variable {h : HeaderLine} {line x y : Bytes}

theorem LengthTold.of_append (htold : LengthTold h line (x ++ y)) : LengthTold h line x := by
  intro hname
  by_cases hnone : (strtolParts x).digits = []
  · exact .inr (.inl hnone)
  · have hprefix := strtolParts_digits_append hnone y
    rcases htold hname with hgiven | hall | ⟨hlen, hzero⟩
    · exact .inl hgiven
    · rw [hall] at hprefix
      exact absurd (List.prefix_nil.mp hprefix) hnone
    · exact .inr (.inr ⟨hlen, digitsValue_zero_of_prefix hprefix hzero⟩)

/-- A value of blanks. -/
structure BlankValue (h : HeaderLine) (line : Bytes) : Prop where
  isIn : h.In line
  blank : ∀ c ∈ line.drop h.valuePos, isSpace c = true

theorem BlankValue.parts (hb : BlankValue h line) (x : Bytes) :
    strtolParts (line.drop h.valuePos ++ x) =
      { strtolParts x with blank := line.drop h.valuePos ++ (strtolParts x).blank } :=
  strtolParts_blank hb.blank x

/-- Its number is that which follows. -/
theorem BlankValue.value (hb : BlankValue h line) (x : Bytes) :
    (strtol (line.drop h.valuePos ++ x)).value = longOf (strtolParts x).number := by
  rw [strtol_value, hb.parts]
  rfl

theorem BlankValue.used (hb : BlankValue h line) (hnumber : (strtolParts x).digits ≠ []) :
    h.valueLen < (strtol (line.drop h.valuePos ++ x)).used := by
  have hvalue := hb.isIn.value
  have hdigits := List.length_pos_iff.mpr hnumber
  rw [strtol_used, hb.parts, if_neg hnumber]
  unfold StrtolParts.length
  dsimp only
  rw [List.length_append, List.length_drop]
  omega

/-- Alone it is 0. -/
theorem BlankValue.alone (hb : BlankValue h line) :
    (strtol (line.drop h.valuePos)).value = 0 ∧ (strtol (line.drop h.valuePos)).used = 0 := by
  have hvalue := hb.value []
  have hparts := hb.parts []
  rw [List.append_nil] at hvalue hparts
  constructor
  · rw [hvalue]
    decide
  · rw [strtol_used, hparts, if_pos]
    rfl

/-- The value comes to the same whatever else has come. -/
theorem LengthTold.strtol_same (htold : LengthTold h line x) (hin : h.In line)
    (hname : (bytes "Content-Length").isPrefixOf line = true) :
    toSize (strtol (line.drop h.valuePos ++ x)).value =
        toSize (strtol (line.drop h.valuePos)).value ∧
      ((strtol (line.drop h.valuePos ++ x)).used ≠ h.valueLen ↔
        (strtol (line.drop h.valuePos)).used ≠ h.valueLen) := by
  by_cases hgiven : ∃ c ∈ line.drop h.valuePos, isSpace c = false
  · obtain ⟨c, hmem, hc⟩ := hgiven
    have hpos := List.length_pos_of_mem hmem
    rw [List.length_drop] at hpos
    have hlast : (line.drop h.valuePos).getLast? = some 10 := by
      rw [List.getLast?_drop, if_neg (by omega), hin.feed]
    rw [strtol_append hmem hc hlast x]
    exact ⟨rfl, Iff.rfl⟩
  · have hb : BlankValue h line := by
      refine ⟨hin, fun c hmem => ?_⟩
      by_contra hc
      exact hgiven ⟨c, hmem, by simpa using hc⟩
    obtain ⟨hvalue, hused⟩ := hb.alone
    have hzero : digitsValue (strtolParts x).digits = 0 := by
      rcases (htold hname).resolve_left hgiven with hnone | ⟨-, hzero⟩
      · rw [hnone]
        rfl
      · exact hzero
    rw [hb.value, hvalue, hused, (strtolParts_number_zero _).mpr hzero]
    refine ⟨by decide, ?_⟩
    by_cases hnone : (strtolParts x).digits = []
    · have hparts : (strtolParts (line.drop h.valuePos ++ x)).digits = [] := by
        rw [hb.parts]
        exact hnone
      rw [strtol_used, if_pos hparts]
    · have hlen := (((htold hname).resolve_left hgiven).resolve_left hnone).1
      have hmore := hb.used hnone
      exact iff_of_true (by omega) (by omega)

/-- A header line is taken for itself, whatever follows it. -/
theorem phlHttp1RequestHeader_append (hin : h.In line) (htold : LengthTold h line x) (r : Req) :
    phlHttp1RequestHeader h (line ++ x) r = phlHttp1RequestHeader h line r := by
  have hfeed : (10 : UInt8) ∈ line := List.mem_of_getLast? hin.feed
  have hvalue := hin.value
  have hname := hin.name
  unfold phlHttp1RequestHeader
  dsimp only
  rw [isPrefixOf_append (by decide) hfeed, isPrefixOf_append (by decide) hfeed,
    isPrefixOf_append (by decide) hfeed, isPrefixOf_append (by decide) hfeed,
    List.drop_append_of_le_length (by omega), List.take_append_of_le_length hname,
    List.take_append_of_le_length (by rw [List.length_drop]; omega)]
  by_cases hlength : (bytes "Content-Length").isPrefixOf line = true
  · obtain ⟨hsame, hused⟩ := htold.strtol_same hin hlength
    rw [if_pos hlength, if_pos hlength, hsame]
    by_cases hall : (strtol (line.drop h.valuePos)).used ≠ h.valueLen
    · rw [if_pos (hused.mpr hall), if_pos hall]
    · rw [if_neg (fun hne => hall (hused.mp hne)), if_neg hall]
  · rw [if_neg hlength, if_neg hlength]

/-- A `Content-Length` of blanks that tells no length. -/
theorem LengthTold.not_blank (hin : h.In line) (htold : ¬LengthTold h line x) :
    (bytes "Content-Length").isPrefixOf line = true ∧ BlankValue h line ∧
      (strtolParts x).digits ≠ [] ∧
      (h.valueLen = 0 ∨ digitsValue (strtolParts x).digits ≠ 0) := by
  unfold LengthTold at htold
  push Not at htold
  obtain ⟨hname, hblank, hnumber, hzero⟩ := htold
  refine ⟨hname, ⟨hin, fun c hmem => ?_⟩, hnumber, ?_⟩
  · simpa using hblank c hmem
  · by_contra hneither
    push Not at hneither
    exact hzero hneither.1 hneither.2

theorem BlankValue.taken (hb : BlankValue h line)
    (hname : (bytes "Content-Length").isPrefixOf line = true) (r : Req) :
    phlHttp1RequestHeader h line r =
      (if h.valueLen = 0 then phlOk else 400, { r with contentLength := 0 }) := by
  obtain ⟨hvalue, hused⟩ := hb.alone
  unfold phlHttp1RequestHeader
  dsimp only
  rw [if_pos hname, hvalue, hused]
  by_cases hzero : h.valueLen = 0
  · rw [if_neg (by omega), if_pos hzero]
    rfl
  · rw [if_pos (by omega), if_neg hzero]
    rfl

/-- With a number behind it it is refused. -/
theorem BlankValue.refused (hb : BlankValue h line)
    (hname : (bytes "Content-Length").isPrefixOf line = true)
    (hnumber : (strtolParts x).digits ≠ []) (r : Req) :
    phlHttp1RequestHeader h (line ++ x) r =
      (400, { r with contentLength := toSize (longOf (strtolParts x).number) }) := by
  have hwhole : (bytes "Content-Length").isPrefixOf (line ++ x) = true :=
    List.isPrefixOf_iff_prefix.mpr
      ((List.isPrefixOf_iff_prefix.mp hname).trans (List.prefix_append line x))
  have hpos := hb.isIn.value
  have hused := hb.used hnumber
  unfold phlHttp1RequestHeader
  dsimp only
  rw [if_pos hwhole, List.drop_append_of_le_length (by omega), hb.value, if_pos (by omega)]

end Header

/-- So it is for all the lines that the loop comes to. -/
inductive LengthsTold (lib : Libwuya) : Req → Bytes → Prop
  | stop {r data} : (lib.httpHeader data).procLen ≤ 0 ∨ (lib.httpHeader data).procLen = 2 →
      LengthsTold lib r data
  | line {r data} : 0 < (lib.httpHeader data).procLen → (lib.httpHeader data).procLen ≠ 2 →
      LengthTold (lib.httpHeader data).value (data.take (lib.httpHeader data).procLen.toNat)
        (data.drop (lib.httpHeader data).procLen.toNat) →
      ((phlHttp1RequestHeader (lib.httpHeader data).value
          (data.take (lib.httpHeader data).procLen.toNat) r).1 = phlOk →
        LengthsTold lib (phlHttp1RequestHeader (lib.httpHeader data).value
          (data.take (lib.httpHeader data).procLen.toNat) r).2
          (data.drop (lib.httpHeader data).procLen.toNat)) →
      LengthsTold lib r data

theorem Settles.take_ne {α : Type} {parse : Bytes → Parsed α} (h : Settles parse) {data : Bytes}
    (hpos : 0 < (parse data).procLen) : data.take (parse data).procLen.toNat ≠ [] := by
  have hle := (h.drop_lt hpos).1
  apply List.ne_nil_of_length_pos
  rw [List.length_take]
  omega

/-- The loop over header lines, with fuel for all of them. -/
def requestLines (lib : Libwuya) (r : Req) (data : Bytes) : Int × Req × Bytes :=
  phlHttp1RequestHeaderLines lib (data.length + 1) r data

/-- What comes of `xs` and then, where that is not the end, of `ys`. -/
def linesFed (lib : Libwuya) (r : Req) (xs ys : Bytes) : Int × Req × Bytes :=
  let x := requestLines lib r xs
  if x.1 = phlAgain then requestLines lib x.2.1 (x.2.2 ++ ys) else (x.1, x.2.1, x.2.2 ++ ys)

section Lines

variable {lib : Libwuya} {r : Req} {data xs ys : Bytes}

theorem requestLines_fuel (hlib : Settles lib.httpHeader) :
    ∀ (fuel fuel' : Nat) (r : Req) (data : Bytes), data.length < fuel → data.length < fuel' →
      phlHttp1RequestHeaderLines lib fuel r data = phlHttp1RequestHeaderLines lib fuel' r data := by
  intro fuel
  induction fuel with
  | zero => intro fuel' r data hlt; omega
  | succ fuel ih =>
    intro fuel' r data hlt hlt'
    cases fuel' with
    | zero => omega
    | succ fuel' =>
      unfold phlHttp1RequestHeaderLines
      dsimp only
      by_cases hneg : (lib.httpHeader data).procLen < 0
      · rw [if_pos hneg, if_pos hneg]
      · by_cases hzero : (lib.httpHeader data).procLen = 0
        · rw [if_neg hneg, if_neg hneg, if_pos hzero, if_pos hzero]
        · have hpos : 0 < (lib.httpHeader data).procLen := by omega
          have hshort := hlib.drop_lt hpos
          rw [if_neg hneg, if_neg hneg, if_neg hzero, if_neg hzero,
            ih fuel' _ _ (by omega) (by omega)]

theorem requestLines_eq (hlib : Settles lib.httpHeader) (r : Req) (data : Bytes) :
    requestLines lib r data =
      let h := lib.httpHeader data
      if h.procLen < 0 then (phlError, r, data)
      else if h.procLen = 0 then (phlAgain, r, data)
      else if h.procLen = 2 then (phlOk, r, data.drop h.procLen.toNat)
      else
        let line := phlHttp1RequestHeader h.value data r
        if line.1 ≠ phlOk then (line.1, line.2, data.drop h.procLen.toNat)
        else requestLines lib line.2 (data.drop h.procLen.toNat) := by
  dsimp only
  conv => lhs; unfold requestLines phlHttp1RequestHeaderLines
  by_cases hneg : (lib.httpHeader data).procLen < 0
  · simp only [if_pos hneg]
  · by_cases hzero : (lib.httpHeader data).procLen = 0
    · simp only [if_neg hneg, if_pos hzero]
    · have hpos : 0 < (lib.httpHeader data).procLen := by omega
      have hlt := (hlib.drop_lt hpos).2
      simp only [if_neg hneg, if_neg hzero]
      unfold requestLines
      rw [requestLines_fuel hlib data.length _ _ _ hlt (Nat.lt_succ_self _)]

/-- The first of the lines is taken for itself, whatever follows it. -/
theorem requestLines_line (hlib : lib.Lawful) (hpos : 0 < (lib.httpHeader data).procLen)
    (hne : (lib.httpHeader data).procLen ≠ 2) {more : Bytes}
    (htold : LengthTold (lib.httpHeader data).value
      (data.take (lib.httpHeader data).procLen.toNat) more) (r : Req) :
    requestLines lib r (data.take (lib.httpHeader data).procLen.toNat ++ more) =
      let line := phlHttp1RequestHeader (lib.httpHeader data).value
        (data.take (lib.httpHeader data).procLen.toNat) r
      if line.1 ≠ phlOk then (line.1, line.2, more) else requestLines lib line.2 more := by
  have hwhole := hlib.header.whole data hpos
  have hsame := hlib.header.settled (data.take (lib.httpHeader data).procLen.toNat)
    (by rw [hwhole]; omega) more
  rw [hwhole] at hsame
  have hle := (hlib.header.drop_lt hpos).1
  have hlen : (data.take (lib.httpHeader data).procLen.toNat).length =
      (lib.httpHeader data).procLen.toNat := by
    rw [List.length_take]
    omega
  have hdrop : (data.take (lib.httpHeader data).procLen.toNat ++ more).drop
      (lib.httpHeader data).procLen.toNat = more := by
    rw [List.drop_append_of_le_length (by omega), List.drop_of_length_le (by omega),
      List.nil_append]
  rw [requestLines_eq hlib.header.toSettles, hsame]
  dsimp only
  rw [if_neg (by omega), if_neg (by omega), if_neg hne, hdrop,
    phlHttp1RequestHeader_append (hlib.headerLine data hpos hne) htold r]

theorem phlHttp1RequestHeader_ret (h : HeaderLine) (line : Bytes) (r : Req) :
    (phlHttp1RequestHeader h line r).1 ≠ phlAgain := by
  have hbad : (400 : Int) ≠ phlAgain := by decide
  have hok : phlOk ≠ phlAgain := by decide
  have herror : phlError ≠ phlAgain := by decide
  unfold phlHttp1RequestHeader
  dsimp only
  split
  next =>
    split
    next => exact hbad
    next => exact hok
  next =>
    split
    next =>
      split
      next => exact hok
      next => exact herror
    next =>
      split
      next => exact hok
      next => split <;> exact hok

/-- A loop that has come to no line. -/
theorem linesFed_waits (hlib : Settles lib.httpHeader) (hzero : (lib.httpHeader xs).procLen = 0)
    (r : Req) : requestLines lib r xs = (phlAgain, r, xs) := by
  rw [requestLines_eq hlib]
  dsimp only
  rw [if_neg (by omega), if_pos hzero]

/-- The loop stays with what it has said, or goes on as if it had been given all at once. By
induction on the lines of the whole. -/
theorem linesFed_eq (hlib : lib.Lawful) {whole : Bytes} (h : LengthsTold lib r whole) :
    ∀ {xs ys : Bytes}, xs ++ ys = whole →
      linesFed lib r xs ys = requestLines lib r whole ∧
        ((requestLines lib r xs).1 = phlAgain →
          LengthsTold lib (requestLines lib r xs).2.1 ((requestLines lib r xs).2.2 ++ ys)) := by
  induction h with
  | @stop r whole hstop =>
    intro xs ys hwhole
    by_cases hzero : (lib.httpHeader xs).procLen = 0
    · have hwaits := linesFed_waits hlib.header.toSettles hzero r
      unfold linesFed
      rw [hwaits]
      dsimp only
      rw [if_pos rfl, hwhole]
      exact ⟨rfl, fun _ => .stop hstop⟩
    · subst hwhole
      have hsame := hlib.header.settled xs hzero ys
      have hle := hlib.header.le xs
      have hxs := requestLines_eq hlib.header.toSettles r xs
      have hall := requestLines_eq hlib.header.toSettles r (xs ++ ys)
      rw [hsame] at hstop hall
      dsimp only at hxs hall
      unfold linesFed
      by_cases hneg : (lib.httpHeader xs).procLen < 0
      · rw [if_pos hneg] at hxs hall
        rw [hxs, hall]
        exact ⟨rfl, fun hagain => by cases hagain⟩
      · have htwo : (lib.httpHeader xs).procLen = 2 := by omega
        rw [if_neg hneg, if_neg hzero, if_pos htwo] at hxs hall
        rw [List.drop_append_of_le_length (by omega)] at hall
        rw [hxs, hall]
        exact ⟨rfl, fun hagain => by cases hagain⟩
  | @line r whole hpos hne hline hrest ih =>
    intro xs ys hwhole
    by_cases hzero : (lib.httpHeader xs).procLen = 0
    · have hwaits := linesFed_waits hlib.header.toSettles hzero r
      unfold linesFed
      rw [hwaits]
      dsimp only
      rw [if_pos rfl, hwhole]
      exact ⟨rfl, fun _ => .line hpos hne hline hrest⟩
    · subst hwhole
      have hsame := hlib.header.settled xs hzero ys
      rw [hsame] at hpos hne hline hrest ih
      have hle := (hlib.header.drop_lt hpos).1
      rw [List.take_append_of_le_length hle, List.drop_append_of_le_length hle] at hline hrest ih
      have hxs := requestLines_line hlib hpos hne hline.of_append r
      have hall := requestLines_line hlib hpos hne hline r
      rw [List.take_append_drop] at hxs
      rw [← List.append_assoc, List.take_append_drop] at hall
      dsimp only at hxs hall
      unfold linesFed
      by_cases hok : (phlHttp1RequestHeader (lib.httpHeader xs).value
          (xs.take (lib.httpHeader xs).procLen.toNat) r).1 = phlOk
      · rw [if_neg (not_not.mpr hok)] at hxs hall
        rw [hxs, hall]
        exact ih hok rfl
      · rw [if_pos hok] at hxs hall
        have hret := phlHttp1RequestHeader_ret (lib.httpHeader xs).value
          (xs.take (lib.httpHeader xs).procLen.toNat) r
        rw [hxs, hall]
        exact ⟨if_neg hret, fun hagain => absurd hagain hret⟩

/-- Where nothing has come no line is there, if the parser finds one anywhere. -/
theorem httpHeader_nil (hlib : Settles lib.httpHeader) (hpos : 0 < (lib.httpHeader data).procLen) :
    (lib.httpHeader []).procLen = 0 := by
  by_contra hne
  have hsame := hlib.settled [] hne data
  have hle := hlib.le []
  rw [List.nil_append] at hsame
  rw [hsame] at hpos
  rw [List.length_nil] at hle
  omega

/-- A header line sets neither the method nor takes a header away. -/
theorem phlHttp1RequestHeader_keeps (h : HeaderLine) (line : Bytes) (r : Req) :
    (phlHttp1RequestHeader h line r).2.method = r.method ∧
      r.headers.length ≤ (phlHttp1RequestHeader h line r).2.headers.length := by
  obtain ⟨host, hset⟩ := phlRequestSetHost_writes r ((line.drop h.valuePos).take h.valueLen)
  unfold phlHttp1RequestHeader
  dsimp only
  rw [hset]
  split
  next => split <;> exact ⟨rfl, le_refl _⟩
  next =>
    split
    next => split <;> exact ⟨rfl, le_refl _⟩
    next =>
      split
      next => exact ⟨rfl, le_refl _⟩
      next =>
        split
        next => exact ⟨rfl, le_refl _⟩
        next => exact ⟨rfl, by simp⟩

theorem requestLines_keeps (lib : Libwuya) :
    ∀ (fuel : Nat) (r : Req) (data : Bytes),
      (phlHttp1RequestHeaderLines lib fuel r data).2.1.method = r.method ∧
        r.headers.length ≤ (phlHttp1RequestHeaderLines lib fuel r data).2.1.headers.length := by
  intro fuel
  induction fuel with
  | zero => exact fun _ _ => ⟨rfl, le_refl _⟩
  | succ fuel ih =>
    intro r data
    obtain ⟨hmethod, hheaders⟩ := phlHttp1RequestHeader_keeps (lib.httpHeader data).value data r
    unfold phlHttp1RequestHeaderLines
    dsimp only
    split
    next => exact ⟨rfl, le_refl _⟩
    next =>
      split
      next => exact ⟨rfl, le_refl _⟩
      next =>
        split
        next => exact ⟨rfl, le_refl _⟩
        next =>
          split
          next => exact ⟨hmethod, hheaders⟩
          next =>
            obtain ⟨hmethod', hheaders'⟩ := ih (phlHttp1RequestHeader
              (lib.httpHeader data).value data r).2 (data.drop (lib.httpHeader data).procLen.toNat)
            exact ⟨hmethod'.trans hmethod, hheaders.trans hheaders'⟩

theorem requestLines_method (lib : Libwuya) (r : Req) (data : Bytes) :
    (requestLines lib r data).2.1.method = r.method :=
  (requestLines_keeps lib (data.length + 1) r data).1

/-- After a blank `Content-Length` a line that begins with a number is one more header. -/
theorem phlHttp1RequestHeader_number (h : HeaderLine) {c : UInt8} (more : Bytes) (r : Req)
    (hc : isSpace c = true ∨ c = 45 ∨ c = 43 ∨ isDigit c = true) :
    ∃ name value, phlHttp1RequestHeader h (c :: more) r =
      (phlOk, { r with headers := r.headers ++ [⟨name, value⟩] }) := by
  have hnot : ∀ d t, (isSpace d || d == 45 || d == 43 || isDigit d) = false →
      List.isPrefixOf (d :: t) (c :: more) = false := by
    intro d t hd
    by_contra hcd
    simp only [Bool.not_eq_false, List.isPrefixOf_cons_cons, Bool.and_eq_true, beq_iff_eq] at hcd
    rw [hcd.1] at hd
    simp only [Bool.or_eq_false_iff, beq_eq_false_iff_ne] at hd
    rcases hc with hc | hc | hc | hc
    · rw [hd.1.1.1] at hc
      cases hc
    · exact hd.1.1.2 hc
    · exact hd.1.2 hc
    · rw [hd.2] at hc
      cases hc
  have hlength : (bytes "Content-Length").isPrefixOf (c :: more) = false := hnot 67 _ (by decide)
  have hhost : (bytes "Host").isPrefixOf (c :: more) = false := hnot 72 _ (by decide)
  have hconn : (bytes "Connection").isPrefixOf (c :: more) = false := hnot 67 _ (by decide)
  have hcoding : (bytes "Transfer-Encoding").isPrefixOf (c :: more) = false :=
    hnot 84 _ (by decide)
  unfold phlHttp1RequestHeader
  dsimp only
  rw [hlength, hhost, hconn, hcoding]
  exact ⟨_, _, rfl⟩

/-- A loop that comes to a number does not end with a 400 and no header more. -/
theorem requestLines_number (hlib : Settles lib.httpHeader)
    (hnumber : (strtolParts data).digits ≠ []) {r r' : Req} {left : Bytes}
    (hheaders : r'.headers = r.headers) : requestLines lib r data ≠ (400, r', left) := by
  intro hsame
  have herror : phlError ≠ 400 := by decide
  have hagain : phlAgain ≠ 400 := by decide
  have hok : phlOk ≠ 400 := by decide
  obtain ⟨c, more, hc, hfirst⟩ := strtolParts_first hnumber
  rw [requestLines_eq hlib] at hsame
  dsimp only at hsame
  split at hsame
  next => exact herror (congrArg Prod.fst hsame)
  next =>
    split at hsame
    next => exact hagain (congrArg Prod.fst hsame)
    next =>
      split at hsame
      next => exact hok (congrArg Prod.fst hsame)
      next =>
        obtain ⟨name, value, hheader⟩ := phlHttp1RequestHeader_number
          (lib.httpHeader data).value more r hfirst
        rw [← hc] at hheader
        rw [hheader, if_neg (not_not.mpr rfl)] at hsame
        have hmore := (requestLines_keeps lib
          ((data.drop (lib.httpHeader data).procLen.toNat).length + 1)
          { r with headers := r.headers ++ [⟨name, value⟩] }
          (data.drop (lib.httpHeader data).procLen.toNat)).2
        unfold requestLines at hsame
        rw [hsame, hheaders, List.length_append, List.length_singleton] at hmore
        omega

/-- A `Content-Length` of blanks has the number that follows it, or 0 where the number has not
come. -/
theorem linesFed_ne (hlib : lib.Lawful) (hpos : 0 < (lib.httpHeader data).procLen)
    (hne : (lib.httpHeader data).procLen ≠ 2)
    (htold : ¬LengthTold (lib.httpHeader data).value
      (data.take (lib.httpHeader data).procLen.toNat)
      (data.drop (lib.httpHeader data).procLen.toNat)) (r : Req) :
    linesFed lib r (data.take (lib.httpHeader data).procLen.toNat)
        (data.drop (lib.httpHeader data).procLen.toNat) ≠ requestLines lib r data := by
  have hbad : (400 : Int) ≠ phlOk := by decide
  have hstays : (400 : Int) ≠ phlAgain := by decide
  obtain ⟨hname, hblank, hnumber, hlost⟩ :=
    LengthTold.not_blank (hlib.headerLine data hpos hne) htold
  have hnil : LengthTold (lib.httpHeader data).value
      (data.take (lib.httpHeader data).procLen.toNat) [] := fun _ => .inr (.inl rfl)
  have hcut := requestLines_line hlib hpos hne hnil r
  rw [List.append_nil, hblank.taken hname] at hcut
  have hrefused := hblank.refused hname hnumber r
  rw [List.take_append_drop] at hrefused
  have hall := requestLines_eq hlib.header.toSettles r data
  dsimp only at hcut hall
  rw [if_neg (by omega), if_neg (by omega), if_neg hne, hrefused, if_pos hbad] at hall
  unfold linesFed
  by_cases hlen : (lib.httpHeader data).value.valueLen = 0
  · rw [if_pos hlen, if_neg (not_not.mpr rfl), linesFed_waits hlib.header.toSettles
      (httpHeader_nil hlib.header.toSettles hpos)] at hcut
    rw [hcut, hall]
    dsimp only
    rw [if_pos rfl, List.nil_append]
    exact requestLines_number hlib.header.toSettles hnumber rfl
  · rw [if_neg hlen, if_pos hbad] at hcut
    rw [hcut, hall]
    dsimp only
    rw [if_neg hstays]
    intro hsame
    have hlength := congrArg (fun z => z.2.1.contentLength) hsame
    have hzero := (strtolParts_number_zero _).mp ((toSize_longOf _).mp hlength.symm)
    exact hlost.resolve_left hlen hzero

/-- If no cut of the lines makes a difference, their lengths are told. By induction on what is
left of the lines. -/
theorem lengthsTold_of_same (hlib : lib.Lawful) :
    ∀ (n : Nat) (r : Req) (data : Bytes), data.length < n →
      (∀ xs ys, xs ≠ [] → ys ≠ [] → xs ++ ys = data →
        linesFed lib r xs ys = requestLines lib r data) →
      LengthsTold lib r data := by
  intro n
  induction n with
  | zero => intro r data hlt; omega
  | succ n ih =>
    intro r data hlt hsame
    by_cases hstop : (lib.httpHeader data).procLen ≤ 0 ∨ (lib.httpHeader data).procLen = 2
    · exact .stop hstop
    · have hpos : 0 < (lib.httpHeader data).procLen := by omega
      have hne : (lib.httpHeader data).procLen ≠ 2 := by omega
      obtain ⟨hle, hshort⟩ := hlib.header.drop_lt hpos
      have htold : LengthTold (lib.httpHeader data).value
          (data.take (lib.httpHeader data).procLen.toNat)
          (data.drop (lib.httpHeader data).procLen.toNat) := by
        by_contra hnot
        have hrest : data.drop (lib.httpHeader data).procLen.toNat ≠ [] := by
          intro hnil
          rw [hnil] at hnot
          exact hnot fun _ => .inr (.inl rfl)
        have hcut := hsame _ _ (hlib.header.take_ne hpos) hrest (List.take_append_drop _ data)
        exact linesFed_ne hlib hpos hne hnot r hcut
      refine .line hpos hne htold fun hok => ih _ _ (by omega) fun xs ys hnil hys hxs => ?_
      have hall := requestLines_line hlib hpos hne htold r
      rw [← hxs] at htold
      have hcut := requestLines_line hlib hpos hne htold.of_append r
      have hfed := hsame (data.take (lib.httpHeader data).procLen.toNat ++ xs) ys
        (List.append_ne_nil_of_right_ne_nil _ hnil) hys (by
          rw [List.append_assoc, hxs, List.take_append_drop])
      rw [List.take_append_drop] at hall
      dsimp only at hall hcut
      rw [if_neg (not_not.mpr hok)] at hall hcut
      unfold linesFed at hfed
      rw [hcut, hall] at hfed
      exact hfed

end Lines

/-- The lengths of the head that the request goes on with. -/
def HeadTold (lib : Libwuya) (r : Req) (data : Bytes) : Prop :=
  match r.method with
  | some _ => LengthsTold lib r data
  | none =>
    let line := lib.httpRequestLine data
    let uri := phlRequestSetUri lib
      { r with method := some line.value.method, version := line.value.version } line.value.url
    0 < line.procLen → uri.1 = true → LengthsTold lib uri.2 (data.drop line.procLen.toNat)

/-- What `phl_http1_request_headers` makes of `xs` and then, where that is not the end, of `ys`. -/
def headFed (lib : Libwuya) (r : Req) (xs ys : Bytes) : Int × Req × Bytes :=
  let x := phlHttp1RequestHeaders lib r xs
  if x.1 = phlAgain then phlHttp1RequestHeaders lib x.2.1 (x.2.2 ++ ys)
  else (x.1, x.2.1, x.2.2 ++ ys)

section Head

variable {lib : Libwuya} {r : Req} {data xs ys : Bytes}

theorem head_of_method {method : Bytes} (h : r.method = some method) (data : Bytes) :
    phlHttp1RequestHeaders lib r data = requestLines lib r data := by
  unfold phlHttp1RequestHeaders
  rw [h]
  rfl

theorem phlRequestSetUri_method (lib : Libwuya) (r : Req) (url : Bytes) :
    (phlRequestSetUri lib r url).2.method = r.method := by
  obtain ⟨uri, host, hset⟩ := phlRequestSetUri_writes lib r url
  rw [hset]

/-- A head that has begun with its request line. -/
theorem head_of_line (hpos : 0 < (lib.httpRequestLine data).procLen) (h : r.method = none) :
    phlHttp1RequestHeaders lib r data =
      let line := lib.httpRequestLine data
      let uri := phlRequestSetUri lib
        { r with method := some line.value.method, version := line.value.version } line.value.url
      if uri.1 then requestLines lib uri.2 (data.drop line.procLen.toNat)
      else (phlError, uri.2, data) := by
  unfold phlHttp1RequestHeaders
  rw [h]
  dsimp only
  rw [if_neg (by omega), if_neg (by omega)]
  rfl

theorem headFed_of_method (hlib : lib.Lawful) {method : Bytes} (hmethod : r.method = some method)
    (h : LengthsTold lib r (xs ++ ys)) :
    headFed lib r xs ys = requestLines lib r (xs ++ ys) ∧
      ((requestLines lib r xs).1 = phlAgain →
        HeadTold lib (requestLines lib r xs).2.1 ((requestLines lib r xs).2.2 ++ ys)) := by
  obtain ⟨hfed, htold⟩ := linesFed_eq hlib h rfl
  have hkept : (requestLines lib r xs).2.1.method = some method :=
    (requestLines_method lib r xs).trans hmethod
  constructor
  · rw [← hfed]
    unfold headFed linesFed
    rw [head_of_method hmethod]
    dsimp only
    rw [head_of_method hkept]
  · intro hagain
    unfold HeadTold
    rw [hkept]
    exact htold hagain

/-- The parse of a head stays with what it has said, or goes on as if it had been given all at
once. -/
theorem headFed_eq (hlib : lib.Lawful) (h : HeadTold lib r (xs ++ ys)) :
    headFed lib r xs ys = phlHttp1RequestHeaders lib r (xs ++ ys) ∧
      ((phlHttp1RequestHeaders lib r xs).1 = phlAgain →
        HeadTold lib (phlHttp1RequestHeaders lib r xs).2.1
          ((phlHttp1RequestHeaders lib r xs).2.2 ++ ys)) := by
  cases hmethod : r.method with
  | some method =>
    unfold HeadTold at h
    rw [hmethod] at h
    have hfed := headFed_of_method hlib hmethod h
    rw [head_of_method hmethod, head_of_method hmethod]
    exact hfed
  | none =>
    by_cases hzero : (lib.httpRequestLine xs).procLen = 0
    · have hwaits : phlHttp1RequestHeaders lib r xs = (phlAgain, r, xs) := by
        unfold phlHttp1RequestHeaders
        rw [hmethod]
        dsimp only
        rw [if_neg (by omega), if_pos hzero]
      unfold headFed
      rw [hwaits]
      exact ⟨if_pos rfl, fun _ => h⟩
    · have hsame := hlib.requestLine.settled xs hzero ys
      have hle := hlib.requestLine.le xs
      by_cases hneg : (lib.httpRequestLine xs).procLen < 0
      · have hfails : ∀ more, phlHttp1RequestHeaders lib r (xs ++ more) =
            (phlError, r, xs ++ more) := by
          intro more
          unfold phlHttp1RequestHeaders
          rw [hmethod]
          dsimp only
          rw [hlib.requestLine.settled xs hzero more, if_pos hneg]
        have hxs := hfails []
        rw [List.append_nil] at hxs
        unfold headFed
        rw [hxs, hfails ys]
        exact ⟨rfl, fun hagain => by cases hagain⟩
      · have hpos : 0 < (lib.httpRequestLine xs).procLen := by omega
        have hposAll : 0 < (lib.httpRequestLine (xs ++ ys)).procLen := by
          rw [hsame]
          exact hpos
        have hxs := head_of_line hpos hmethod
        have hall := head_of_line hposAll hmethod
        unfold HeadTold at h
        rw [hmethod] at h
        dsimp only at h hxs hall
        rw [hsame, List.drop_append_of_le_length (by omega)] at h hall
        by_cases huri : (phlRequestSetUri lib
            { r with
              method := some (lib.httpRequestLine xs).value.method
              version := (lib.httpRequestLine xs).value.version }
            (lib.httpRequestLine xs).value.url).1 = true
        · obtain ⟨uri, host, hset⟩ := phlRequestSetUri_writes lib
            { r with
              method := some (lib.httpRequestLine xs).value.method
              version := (lib.httpRequestLine xs).value.version }
            (lib.httpRequestLine xs).value.url
          have htold := h hpos huri
          rw [if_pos huri, hset] at hxs hall
          rw [hset] at htold
          have hfed := headFed_of_method hlib rfl htold
          unfold headFed at hfed ⊢
          rw [head_of_method rfl] at hfed
          rw [hxs, hall]
          exact hfed
        · rw [if_neg huri] at hxs hall
          unfold headFed
          rw [hxs, hall]
          exact ⟨rfl, fun hagain => by cases hagain⟩

/-- If no cut makes a difference, the lengths of the head are told. -/
theorem headTold_of_same (hlib : lib.Lawful) (hmethod : r.method = none)
    (hsame : ∀ xs ys, xs ≠ [] → ys ≠ [] → xs ++ ys = data →
      headFed lib r xs ys = phlHttp1RequestHeaders lib r data) : HeadTold lib r data := by
  unfold HeadTold
  rw [hmethod]
  dsimp only
  intro hpos huri
  refine lengthsTold_of_same hlib _ _ _ (Nat.lt_succ_self _) fun xs ys hnil hys hxs => ?_
  have hline : lib.httpRequestLine (data.take (lib.httpRequestLine data).procLen.toNat ++ xs) =
      lib.httpRequestLine data := by
    have hwhole := hlib.requestLine.whole data hpos
    have hsettled := hlib.requestLine.settled
      (data.take (lib.httpRequestLine data).procLen.toNat) (by rw [hwhole]; omega) xs
    rw [hsettled, hwhole]
  have hle := (hlib.requestLine.drop_lt hpos).1
  have hlen : (data.take (lib.httpRequestLine data).procLen.toNat).length =
      (lib.httpRequestLine data).procLen.toNat := by
    rw [List.length_take]
    omega
  have hdrop : (data.take (lib.httpRequestLine data).procLen.toNat ++ xs).drop
      (lib.httpRequestLine data).procLen.toNat = xs := by
    rw [List.drop_append_of_le_length (by omega), List.drop_of_length_le (by omega),
      List.nil_append]
  have hfed := hsame (data.take (lib.httpRequestLine data).procLen.toNat ++ xs) ys
    (List.append_ne_nil_of_right_ne_nil _ hnil) hys (by
      rw [List.append_assoc, hxs, List.take_append_drop])
  have hcut := head_of_line (by rw [hline]; exact hpos) hmethod
  have hall := head_of_line hpos hmethod
  dsimp only at hcut hall
  rw [hline, hdrop] at hcut
  rw [if_pos huri] at hcut hall
  have hkept : (requestLines lib (phlRequestSetUri lib
      { r with
        method := some (lib.httpRequestLine data).value.method
        version := (lib.httpRequestLine data).value.version }
      (lib.httpRequestLine data).value.url).2 xs).2.1.method =
      some (lib.httpRequestLine data).value.method := by
    rw [requestLines_method, phlRequestSetUri_method]
  unfold headFed at hfed
  unfold linesFed
  rw [hcut, hall] at hfed
  dsimp only at hfed ⊢
  rw [head_of_method hkept] at hfed
  exact hfed

end Head

end Phorklift
