import Phorklift.RequestRun
import Mathlib.Data.Nat.Digits.Defs
import Mathlib.Algebra.Order.BigOperators.Group.List

/-! The space that `phl_http1_response_headers` asks for, and what it writes there. -/

namespace Phorklift

section Headers

/-- The conversion of an integer to a `short`. -/
@[irreducible] def toShort (n : Int) : Int := n.bmod (2 ^ 16)

/-- `%d` or `%ld` -/
def decimalInt (n : Int) : Bytes :=
  if n < 0 then 45 :: decimal n.natAbs else decimal n.natAbs

/-- `struct phl_header` -/
structure PhlHeader where
  nameLen : Int
  valueLen : Int
  /-- the memory from `str` on -/
  str : Bytes
  deriving DecidableEq

def phlHeaderValue (h : PhlHeader) : Bytes := h.str.drop (h.nameLen + 1).toNat

/-- `none` where the value is written before `str`, over other memory. -/
def phlHeaderNew (nameStr valueStr : Bytes) : Option PhlHeader :=
  let nameLen := toShort nameStr.length
  if nameLen + 1 < 0 then none
  else
    let named := nameStr ++ [0]
    let valuePos := (nameLen + 1).toNat
    some ⟨nameLen, toShort valueStr.length, named.take valuePos ++ (valueStr ++ 0 ::
      named.drop (valuePos + valueStr.length + 1))⟩

/-- The list that `phl_header_add` makes. -/
def phlHeaderAdds : List Header → Option (List PhlHeader)
  | [] => some []
  | h :: hs => do
    let made ← phlHeaderNew h.name h.value
    let rest ← phlHeaderAdds hs
    some (made :: rest)

/-- `phl_header_estimate_size`, in an `int` -/
def PhlHeader.estimateSize (hs : List PhlHeader) : Int :=
  toInt (hs.map fun h => h.nameLen + h.valueLen + 4).sum

/-- `"HTTP/1.1 %d %s\\r\\n"` -/
def responseStatusLine (lib : Libwuya) (statusCode : Int) : Bytes :=
  bytes "HTTP/1.1 " ++ decimalInt statusCode ++ [32] ++ lib.httpStringStatusCode statusCode ++ crlf

def responseLengthLine (version contentLength : Nat) : Bytes :=
  if version ≠ 0 ∧ contentLength = phlContentLengthInit then
    bytes "Transfer-Encoding: chunked" ++ crlf
  else if contentLength ≠ phlContentLengthInit then
    bytes "Content-Length: " ++ decimalInt ((contentLength : Int).bmod (2 ^ 64)) ++ crlf
  else []

/-- `"%s: %s\\r\\n"` -/
def PhlHeader.line (h : PhlHeader) : Bytes :=
  cstr h.str ++ bytes ": " ++ cstr (phlHeaderValue h) ++ crlf

/-- What `phl_http1_response_headers` returns, and the bytes it has written into the send buffer,
the last NUL among them. -/
def phlHttp1ResponseHeaders (lib : Libwuya) (makeSpace : Int → Int) (version : Nat)
    (statusCode : Int) (contentLength : Nat) (hs : List PhlHeader) : Int × Bytes :=
  let estimateSize := toInt (PhlHeader.estimateSize hs + 100)
  let ret := makeSpace estimateSize
  if ret < 0 then (ret, [])
  else (phlOk, responseStatusLine lib statusCode ++ responseLengthLine version contentLength ++
    hs.flatMap PhlHeader.line ++ crlf ++ [0])

/-- The headers are made, and what is written where there is space is as much as was asked for. -/
def HeadersFit (lib : Libwuya) (version : Nat) (statusCode : Int) (contentLength : Nat)
    (hs : List Header) : Prop :=
  ∃ made, phlHeaderAdds hs = some made ∧ ∀ makeSpace ret written,
    phlHttp1ResponseHeaders lib makeSpace version statusCode contentLength made = (ret, written) →
      ret = phlOk → (written.length : Int) ≤ toInt (PhlHeader.estimateSize made + 100)

end Headers

section Condition

/-- What a `short` leaves out of a length. -/
@[irreducible] def wraps (n : Nat) : Nat := 2 ^ 16 * ((n + 2 ^ 15) / 2 ^ 16)

/-- What the fields of the headers leave out of their lengths, and the `int` of their sum. -/
def lost (hs : List Header) : Int :=
  (hs.map fun h => wraps h.name.length + wraps h.value.length).sum +
    2 ^ 32 * (((hs.map fun h => toShort h.name.length + toShort h.value.length + 4).sum + 100 +
      2 ^ 31) / 2 ^ 32)

/-- What is printed of a name: it ends at its first NUL, which the value has taken the place of
where the length has wrapped. -/
def shownName (h : Header) : Bytes :=
  cstr ((h.name ++ [0]).take (toShort h.name.length + 1).toNat ++ h.value)

/-- What of the names and values is not printed. -/
def hidden (hs : List Header) : Int :=
  (hs.map fun h => (h.name.length : Int) + h.value.length - (shownName h).length -
    (cstr h.value).length).sum

/-- What the status line and the line of the length leave of the constant. -/
def spare (lib : Libwuya) (version : Nat) (statusCode : Int) (contentLength : Nat) : Int :=
  100 - ((responseStatusLine lib statusCode).length +
    (responseLengthLine version contentLength).length + 3)

end Condition

section Lengths

theorem toShort_eq (n : Nat) : toShort n = n - wraps n := by
  unfold toShort wraps
  rw [Int.bmod_def]
  omega

theorem toShort_le (n : Nat) : toShort n ≤ n := by
  unfold toShort
  rw [Int.bmod_def]
  omega

theorem wraps_eq_zero {n : Nat} : wraps n = 0 ↔ n < 2 ^ 15 := by
  unfold wraps
  omega

/-- The `int` of a sum lacks as many times 2^32 as it has gone round. -/
theorem toInt_eq_sub (n : Int) : toInt n = n - 2 ^ 32 * ((n + 2 ^ 31) / 2 ^ 32) := by
  have hint := toInt_eq n
  omega

theorem toInt_toInt_add (m n : Int) : toInt (toInt m + n) = toInt (m + n) := by
  unfold toInt
  exact Int.bmod_add_bmod

theorem cstr_append_nul (s rest : Bytes) : cstr (s ++ 0 :: rest) = cstr s := by
  unfold cstr
  induction s with
  | nil => rfl
  | cons c s ih =>
    rw [List.cons_append, List.takeWhile_cons, List.takeWhile_cons, ih]

theorem phlHeaderNew_eq {nameStr : Bytes} (valueStr : Bytes)
    (h : -1 ≤ toShort nameStr.length) :
    ∃ made, phlHeaderNew nameStr valueStr = some made ∧
      made.nameLen = toShort nameStr.length ∧ made.valueLen = toShort valueStr.length ∧
      cstr made.str = shownName ⟨nameStr, valueStr⟩ ∧
      cstr (phlHeaderValue made) = cstr valueStr := by
  have hle := toShort_le nameStr.length
  have hplace : ¬toShort nameStr.length + 1 < 0 := by
    generalize toShort nameStr.length = short at h
    omega
  have htaken : ((nameStr ++ [0]).take (toShort nameStr.length + 1).toNat).length =
      (toShort nameStr.length + 1).toNat := by
    generalize toShort nameStr.length = short at hle
    rw [List.length_take, List.length_append, List.length_singleton]
    omega
  unfold phlHeaderNew
  dsimp only
  rw [if_neg hplace]
  refine ⟨_, rfl, rfl, rfl, ?_, ?_⟩
  · dsimp only
    rw [← List.append_assoc, cstr_append_nul]
    rfl
  · unfold phlHeaderValue
    dsimp only
    rw [List.drop_left' htaken, cstr_append_nul]

theorem phlHeaderNew_eq_none {nameStr valueStr : Bytes} (h : toShort nameStr.length < -1) :
    phlHeaderNew nameStr valueStr = none := by
  unfold phlHeaderNew
  exact if_pos (by omega)

theorem phlHeaderAdds_eq {hs : List Header} (hplaced : ∀ h ∈ hs, -1 ≤ toShort h.name.length) :
    ∃ made, phlHeaderAdds hs = some made ∧
      (made.map fun h => h.nameLen + h.valueLen + 4).sum =
        (hs.map fun h => toShort h.name.length + toShort h.value.length + 4).sum ∧
      ((made.flatMap PhlHeader.line).length : Int) = phlHeaderEstimateSize hs - hidden hs := by
  induction hs with
  | nil => exact ⟨[], rfl, rfl, rfl⟩
  | cons h hs ih =>
    obtain ⟨one, hone, hname, hvalue, hshown, hprinted⟩ :=
      phlHeaderNew_eq h.value (hplaced h List.mem_cons_self)
    obtain ⟨rest, hrest, hsum, hlength⟩ := ih fun h' hh => hplaced h' (List.mem_cons_of_mem _ hh)
    refine ⟨one :: rest, ?_, ?_, ?_⟩
    · unfold phlHeaderAdds
      rw [hone, hrest]
      rfl
    · rw [List.map_cons, List.sum_cons, List.map_cons, List.sum_cons, hsum, hname, hvalue]
    · have hline : one.line.length =
          (shownName h).length + (cstr h.value).length + 4 := by
        have hname : cstr one.str = shownName h := hshown
        unfold PhlHeader.line
        rw [hname, hprinted]
        simp only [List.length_append]
        have hcolon : (bytes ": ").length = 2 := rfl
        have hcrlf : crlf.length = 2 := rfl
        omega
      unfold phlHeaderEstimateSize hidden at hlength ⊢
      rw [List.flatMap_cons, List.length_append, hline, List.map_cons, List.sum_cons,
        List.map_cons, List.sum_cons]
      omega

theorem phlHeaderAdds_placed {hs : List Header} {made : List PhlHeader}
    (hmade : phlHeaderAdds hs = some made) : ∀ h ∈ hs, -1 ≤ toShort h.name.length := by
  induction hs generalizing made with
  | nil => exact fun h hmem => absurd hmem List.not_mem_nil
  | cons h hs ih =>
    obtain ⟨one, hone, hmade⟩ := Option.bind_eq_some_iff.mp hmade
    obtain ⟨rest, hrest, -⟩ := Option.bind_eq_some_iff.mp hmade
    intro h' hmem
    rcases List.mem_cons.mp hmem with rfl | hmem
    · by_contra hlow
      rw [phlHeaderNew_eq_none (Int.not_le.mp hlow)] at hone
      cases hone
    · exact ih hrest h' hmem

theorem sum_map_sub_eq {α : Type*} (xs : List α) {short : α → Int} {full left : α → Nat}
    (h : ∀ x, short x = full x - left x) :
    (xs.map short).sum = (xs.map full).sum - (xs.map left).sum := by
  induction xs with
  | nil => rfl
  | cons x xs ih =>
    have hx := h x
    simp only [List.map_cons, List.sum_cons]
    omega

theorem sum_toShort (hs : List Header) :
    (hs.map fun h => toShort h.name.length + toShort h.value.length + 4).sum =
      phlHeaderEstimateSize hs -
        (hs.map fun h => wraps h.name.length + wraps h.value.length).sum := by
  refine sum_map_sub_eq hs fun h => ?_
  rw [toShort_eq, toShort_eq]
  generalize wraps h.name.length = nameLost
  generalize wraps h.value.length = valueLost
  omega

/-- The request is what the lengths come to, but for what the fields and the `int` lose. -/
theorem estimate_eq {hs : List Header} {made : List PhlHeader}
    (hsum : (made.map fun h => h.nameLen + h.valueLen + 4).sum =
      (hs.map fun h => toShort h.name.length + toShort h.value.length + 4).sum) :
    toInt (PhlHeader.estimateSize made + 100) = phlHeaderEstimateSize hs + 100 - lost hs := by
  unfold PhlHeader.estimateSize lost
  rw [toInt_toInt_add, toInt_eq_sub, hsum]
  generalize (2 : Int) ^ 32 * (((hs.map fun h =>
    toShort h.name.length + toShort h.value.length + 4).sum + 100 + 2 ^ 31) / 2 ^ 32) = excess
  rw [sum_toShort]
  omega

theorem headersFit_iff {lib : Libwuya} {version contentLength : Nat} {statusCode : Int}
    {hs : List Header} :
    HeadersFit lib version statusCode contentLength hs ↔
      (∀ h ∈ hs, -1 ≤ toShort h.name.length) ∧
        lost hs ≤ hidden hs + spare lib version statusCode contentLength := by
  have hcrlf : crlf.length = 2 := rfl
  constructor
  · rintro ⟨made, hmade, hfits⟩
    have hplaced := phlHeaderAdds_placed hmade
    obtain ⟨made', hmade', hsum, hlines⟩ := phlHeaderAdds_eq hplaced
    obtain rfl := Option.some.inj (hmade.symm.trans hmade')
    have hwritten := hfits (fun _ => 0) _ _ rfl rfl
    rw [estimate_eq hsum] at hwritten
    simp only [List.length_append, List.length_singleton, Nat.cast_add,
      hlines] at hwritten
    unfold spare
    refine ⟨hplaced, ?_⟩
    omega
  · rintro ⟨hplaced, hless⟩
    obtain ⟨made, hmade, hsum, hlines⟩ := phlHeaderAdds_eq hplaced
    refine ⟨made, hmade, ?_⟩
    intro makeSpace ret written heq hret
    unfold phlHttp1ResponseHeaders at heq
    dsimp only at heq
    split at heq
    next hneg =>
      cases heq
      rw [hret] at hneg
      exact absurd hneg (by decide)
    next =>
      cases heq
      rw [estimate_eq hsum]
      simp only [List.length_append, List.length_singleton, Nat.cast_add, hlines]
      unfold spare at hless
      omega

end Lengths

section Short

theorem decimalInt_length_le {n : Int} {k : Nat} (hk : 0 < k) (hlow : -(10 ^ k : Int) < n)
    (hhigh : n < 10 ^ (k + 1)) : (decimalInt n).length ≤ k + 1 := by
  have hdecimal {m e : Nat} (he : 0 < e) (hm : m < 10 ^ e) : (decimal m).length ≤ e := by
    unfold decimal
    rw [List.length_map]
    exact Nat.toDigits_length 10 m e he hm
  unfold decimalInt
  split
  next hneg =>
    have habs : n.natAbs < 10 ^ k := by
      have hcast : ((10 ^ k : Nat) : Int) = 10 ^ k := by norm_cast
      omega
    have hle := hdecimal hk habs
    rw [List.length_cons]
    omega
  next hpos =>
    have habs : n.natAbs < 10 ^ (k + 1) := by
      have hcast : ((10 ^ (k + 1) : Nat) : Int) = 10 ^ (k + 1) := by norm_cast
      omega
    exact hdecimal (Nat.succ_pos k) habs

theorem responseLengthLine_length_le (version contentLength : Nat) :
    (responseLengthLine version contentLength).length ≤ 38 := by
  unfold responseLengthLine
  split
  next => decide
  next =>
    split
    next =>
      have hnumber : (decimalInt ((contentLength : Int).bmod (2 ^ 64))).length ≤ 19 + 1 :=
        decimalInt_length_le (by decide)
          (by rw [Int.bmod_def]; omega) (by rw [Int.bmod_def]; omega)
      have hname : (bytes "Content-Length: ").length = 16 := rfl
      have hcrlf : crlf.length = 2 := rfl
      simp only [List.length_append]
      omega
    next => exact Nat.zero_le _

theorem spare_nonneg {lib : Libwuya} {statusCode : Int} (version contentLength : Nat)
    (hreason : (lib.httpStringStatusCode statusCode).length ≤ 40)
    (hcode : -999999 ≤ statusCode ∧ statusCode ≤ 9999999) :
    0 ≤ spare lib version statusCode contentLength := by
  have hline := responseLengthLine_length_le version contentLength
  have hnumber : (decimalInt statusCode).length ≤ 6 + 1 :=
    decimalInt_length_le (by decide) (by omega) (by omega)
  have hhttp : (bytes "HTTP/1.1 ").length = 9 := rfl
  have hcrlf : crlf.length = 2 := rfl
  unfold spare responseStatusLine
  simp only [List.length_append, List.length_singleton]
  omega

theorem spare_lt (lib : Libwuya) (version : Nat) (statusCode : Int) (contentLength : Nat) :
    spare lib version statusCode contentLength < 100 := by
  unfold spare
  omega

theorem shownName_of_short {h : Header} (hname : h.name.length < 2 ^ 15) :
    shownName h = cstr h.name := by
  have hwraps := wraps_eq_zero.mpr hname
  unfold shownName
  rw [toShort_eq, hwraps, Nat.cast_zero, Int.sub_zero, ← Nat.cast_succ, Int.toNat_natCast,
    List.take_of_length_le (by rw [List.length_append, List.length_singleton]),
    List.append_assoc]
  exact cstr_append_nul h.name h.value

theorem hidden_nonneg {hs : List Header} (hnames : ∀ h ∈ hs, h.name.length < 2 ^ 15) :
    0 ≤ hidden hs := by
  unfold hidden
  refine List.sum_nonneg fun n hn => ?_
  obtain ⟨h, hmem, rfl⟩ := List.mem_map.mp hn
  have hname : (cstr h.name).length ≤ h.name.length := (List.takeWhile_sublist _).length_le
  have hvalue : (cstr h.value).length ≤ h.value.length := (List.takeWhile_sublist _).length_le
  rw [shownName_of_short (hnames h hmem)]
  omega

theorem hidden_eq_zero {hs : List Header} (hnames : ∀ h ∈ hs, h.name.length < 2 ^ 15)
    (hfree : ∀ h ∈ hs, 0 ∉ h.name ∧ 0 ∉ h.value) : hidden hs = 0 := by
  unfold hidden
  refine List.sum_eq_zero fun n hn => ?_
  obtain ⟨h, hmem, rfl⟩ := List.mem_map.mp hn
  rw [shownName_of_short (hnames h hmem), cstr_of_nul_free (hfree h hmem).1,
    cstr_of_nul_free (hfree h hmem).2]
  omega

/-- Where no length wraps, the sum still can. -/
theorem lost_of_short {hs : List Header}
    (hshort : ∀ h ∈ hs, h.name.length < 2 ^ 15 ∧ h.value.length < 2 ^ 15) :
    lost hs = 2 ^ 32 * ((phlHeaderEstimateSize hs + 100 + 2 ^ 31) / 2 ^ 32) := by
  have hzero : (hs.map fun h => wraps h.name.length + wraps h.value.length).sum = 0 := by
    refine List.sum_eq_zero fun n hn => ?_
    obtain ⟨h, hmem, rfl⟩ := List.mem_map.mp hn
    have hname := wraps_eq_zero.mpr (hshort h hmem).1
    have hvalue := wraps_eq_zero.mpr (hshort h hmem).2
    rw [hname, hvalue]
    rfl
  unfold lost
  rw [sum_toShort, hzero, Nat.cast_zero, Int.sub_zero, Int.zero_add]

theorem wraps_le (n : Nat) : wraps n ≤ 2 * n := by
  unfold wraps
  omega

theorem le_wraps {n : Nat} (h : 2 ^ 15 ≤ n) : 2 ^ 16 ≤ wraps n := by
  unfold wraps
  omega

theorem sum_wraps_le (hs : List Header) :
    (hs.map fun h => wraps h.name.length + wraps h.value.length).sum ≤
      2 * phlHeaderEstimateSize hs := by
  unfold phlHeaderEstimateSize
  induction hs with
  | nil => exact Nat.le_refl 0
  | cons h hs ih =>
    have hname := wraps_le h.name.length
    have hvalue := wraps_le h.value.length
    rw [List.map_cons, List.sum_cons, List.map_cons, List.sum_cons]
    generalize wraps h.name.length = nameLost at *
    generalize wraps h.value.length = valueLost at *
    omega

/-- A length that wraps loses more than the constant can make up for, also where the sum goes round
the other way. -/
theorem lt_lost_of_long {hs : List Header} {h : Header} (hmem : h ∈ hs)
    (hlong : 2 ^ 15 ≤ h.value.length) : 100 < lost hs := by
  have hone := le_wraps hlong
  have hle := List.single_le_sum (l := hs.map fun h => wraps h.name.length + wraps h.value.length)
    (fun n _ => Nat.zero_le n) _ (List.mem_map_of_mem hmem)
  have hsum := sum_wraps_le hs
  unfold lost
  rw [sum_toShort]
  generalize (hs.map fun h => wraps h.name.length + wraps h.value.length).sum = total at *
  generalize wraps h.value.length = valueLost at *
  generalize wraps h.name.length = nameLost at *
  omega

theorem fits_of_short {lib : Libwuya} {version contentLength : Nat} {statusCode : Int}
    {hs : List Header} (hshort : ∀ h ∈ hs, h.name.length < 2 ^ 15 ∧ h.value.length < 2 ^ 15)
    (hsum : phlHeaderEstimateSize hs + 100 < 2 ^ 31)
    (hreason : (lib.httpStringStatusCode statusCode).length ≤ 40)
    (hcode : -999999 ≤ statusCode ∧ statusCode ≤ 9999999) :
    HeadersFit lib version statusCode contentLength hs := by
  have hspare := spare_nonneg version contentLength hreason hcode
  have hhidden := hidden_nonneg fun h hmem => (hshort h hmem).1
  have hlost := lost_of_short hshort
  have hround : ((phlHeaderEstimateSize hs : Int) + 100 + 2 ^ 31) / 2 ^ 32 = 0 := by omega
  rw [hround, Int.mul_zero] at hlost
  rw [headersFit_iff, hlost]
  refine ⟨fun h hmem => ?_, by omega⟩
  have hwraps := wraps_eq_zero.mpr (hshort h hmem).1
  rw [toShort_eq, hwraps]
  omega

theorem short_of_fits {lib : Libwuya} {version contentLength : Nat} {statusCode : Int}
    {hs : List Header}
    (hfree : ∀ h ∈ hs, h.name.length < 2 ^ 15 ∧ 0 ∉ h.name ∧ 0 ∉ h.value)
    (hfits : HeadersFit lib version statusCode contentLength hs) :
    (∀ h ∈ hs, h.value.length < 2 ^ 15) ∧ phlHeaderEstimateSize hs + 100 < 2 ^ 31 := by
  have hspare := spare_lt lib version statusCode contentLength
  have hhidden := hidden_eq_zero (fun h hmem => (hfree h hmem).1) fun h hmem => (hfree h hmem).2
  obtain ⟨-, hless⟩ := headersFit_iff.mp hfits
  have hvalues : ∀ h ∈ hs, h.value.length < 2 ^ 15 := by
    intro h hmem
    by_contra hlong
    have hlost := lt_lost_of_long hmem (Nat.not_lt.mp hlong)
    omega
  have hlost := lost_of_short fun h hmem => ⟨(hfree h hmem).1, hvalues h hmem⟩
  refine ⟨hvalues, ?_⟩
  omega

/-- The headers fit in the space asked for where what NULs keep from being printed and what the
status line leaves of the constant make up for what the 16-bit lengths lose. So all do whose lengths
are short, and of those without NULs no others. -/
theorem headers_fit_iff (lib : Libwuya) (version : Nat) (statusCode : Int) (contentLength : Nat)
    (hs : List Header) :
    (HeadersFit lib version statusCode contentLength hs ↔
      (∀ h ∈ hs, -1 ≤ toShort h.name.length) ∧
        lost hs ≤ hidden hs + spare lib version statusCode contentLength) ∧
    ((∀ h ∈ hs, h.name.length < 2 ^ 15 ∧ h.value.length < 2 ^ 15) →
      phlHeaderEstimateSize hs + 100 < 2 ^ 31 → (lib.httpStringStatusCode statusCode).length ≤ 40 →
      -999999 ≤ statusCode ∧ statusCode ≤ 9999999 →
        HeadersFit lib version statusCode contentLength hs) ∧
    ((∀ h ∈ hs, h.name.length < 2 ^ 15 ∧ 0 ∉ h.name ∧ 0 ∉ h.value) →
      HeadersFit lib version statusCode contentLength hs →
        (∀ h ∈ hs, h.value.length < 2 ^ 15) ∧ phlHeaderEstimateSize hs + 100 < 2 ^ 31) :=
  ⟨headersFit_iff, fits_of_short, short_of_fits⟩

theorem headers_fit_server : HeadersFit .plain 1 200 5 [⟨bytes "Server", bytes "phork"⟩] :=
  (headers_fit_iff .plain 1 200 5 [⟨bytes "Server", bytes "phork"⟩]).2.1 (by decide) (by decide)
    (by decide) (by decide)

/-- A value of 32768 bytes has the length -32768. -/
theorem headers_not_fit_long :
    ¬HeadersFit .plain 1 200 5 [⟨bytes "X", List.replicate (2 ^ 15) 97⟩] := by
  intro hfits
  have hshort := (short_of_fits (fun h hmem => ?_) hfits).1 _ List.mem_cons_self
  · rw [List.length_replicate] at hshort
    exact absurd hshort (by decide)
  · obtain rfl := List.mem_singleton.mp hmem
    refine ⟨by decide, by decide, fun h0 => ?_⟩
    exact absurd (List.eq_of_mem_replicate h0) (by decide)

end Short

end Phorklift
