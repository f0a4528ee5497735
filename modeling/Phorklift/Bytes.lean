import Phorklift.ByteString
import Mathlib.Data.List.TakeWhile
import Mathlib.Tactic.IntervalCases

/-! Byte strings and the C library calls the server makes on them. -/

namespace Phorklift

abbrev Bytes := List UInt8

def bytes (s : String) : Bytes :=
  s.toList.map fun c => UInt8.ofNat c.toNat

def crlf : Bytes := [13, 10]

/-- `tolower` in the C locale. -/
def tolower (c : UInt8) : UInt8 :=
  if 65 ≤ c ∧ c ≤ 90 then c + 32 else c

def lower (s : Bytes) : Bytes := s.map tolower

/-- Only letters are changed. -/
theorem tolower_eq_iff {c d : UInt8} (hd : d < 65) : tolower c = d ↔ c = d := by
  have hdlt : d.toNat < 65 := UInt8.lt_iff_toNat_lt.mp hd
  unfold tolower
  split
  next hupper =>
    have hlow : 65 ≤ c.toNat := UInt8.le_iff_toNat_le.mp hupper.1
    have hhigh : c.toNat ≤ 90 := UInt8.le_iff_toNat_le.mp hupper.2
    constructor
    · rintro rfl
      have hsum : (c.toNat + 32) % 2 ^ 8 < 65 := hdlt
      omega
    · rintro rfl
      omega
  next => exact Iff.rfl

theorem lower_eq_iff {s t : Bytes} (ht : ∀ c ∈ t, c < 65) : lower s = t ↔ s = t := by
  unfold lower
  induction s generalizing t with
  | nil => rfl
  | cons c s ih =>
    cases t with
    | nil => exact iff_of_false (List.cons_ne_nil _ _) (List.cons_ne_nil _ _)
    | cons d t =>
      obtain ⟨hd, ht⟩ := List.forall_mem_cons.mp ht
      rw [List.map_cons, List.cons.injEq, List.cons.injEq, tolower_eq_iff hd, ih ht]

/-- `strcasecmp(a, b) == 0` for strings without NUL bytes. -/
def strcasecmp (a b : Bytes) : Bool := lower a == lower b

/-- The C string at the start of a buffer: the bytes before the first NUL. -/
def cstr (s : Bytes) : Bytes := s.takeWhile (· ≠ 0)

/-- `strncasecmp(a, b, n) == 0` -/
def strncasecmp (a b : Bytes) (n : Nat) : Bool :=
  lower ((cstr a).take n) == lower ((cstr b).take n)

theorem cstr_of_nul_free {s : Bytes} (h : (0 : UInt8) ∉ s) : cstr s = s := by
  refine List.takeWhile_eq_self_iff.mpr fun c hc => ?_
  have hne : c ≠ 0 := fun h0 => h (h0 ▸ hc)
  simpa using hne

def isSpace (c : UInt8) : Bool := c == 32 || (9 ≤ c && c ≤ 13)

def isDigit (c : UInt8) : Bool := 48 ≤ c && c ≤ 57

def digitsValue (s : Bytes) : Nat :=
  s.foldl (fun acc c => acc * 10 + (c.toNat - 48)) 0

structure Strtol where
  value : Int
  /-- `endp - str` -/
  used : Nat
  /-- whether `errno` was set to `ERANGE` -/
  range : Bool

def longMax : Int := 2 ^ 63 - 1

def longMin : Int := -2 ^ 63

/-- `strtol(s, &endp, 10)` -/
def strtol (s : Bytes) : Strtol :=
  let blank := s.takeWhile isSpace
  let rest := s.drop blank.length
  let sign : Bytes := rest.take 1
  let signed := sign == [45] || sign == [43]
  let body := if signed then rest.drop 1 else rest
  let digits := body.takeWhile isDigit
  if digits.isEmpty then ⟨0, 0, false⟩
  else
    let magnitude : Int := digitsValue digits
    let value := if sign == [45] then -magnitude else magnitude
    let used := blank.length + (if signed then 1 else 0) + digits.length
    if value < longMin then ⟨longMin, used, true⟩
    else if longMax < value then ⟨longMax, used, true⟩
    else ⟨value, used, false⟩

/-- `%d` or `%ld` of a number that is not negative. -/
def decimal (n : Nat) : Bytes :=
  (Nat.toDigits 10 n).map fun c => UInt8.ofNat c.toNat

/-- The conversion of an integer to a 64-bit unsigned one. -/
def toSize (n : Int) : Nat := (n % 2 ^ 64).toNat

theorem toSize_natCast {n : Nat} (h : n < 2 ^ 64) : toSize n = n := by
  unfold toSize
  omega

/-- The conversion of an integer to a 32-bit signed one. -/
def toInt (n : Int) : Int := n.bmod (2 ^ 32)

theorem toInt_eq (n : Int) :
    toInt n = if n % 2 ^ 32 < 2 ^ 31 then n % 2 ^ 32 else n % 2 ^ 32 - 2 ^ 32 := by
  unfold toInt
  rw [Int.bmod_def]
  omega

theorem toInt_of_lt {n : Nat} (h : n < 2 ^ 31) : toInt n = n := by
  have hint := toInt_eq n
  omega

theorem toInt_le (n : Nat) : toInt n ≤ n := by
  have hint := toInt_eq n
  omega

theorem digit_toNat {d : Nat} (hd : d < 10) :
    (UInt8.ofNat (Nat.digitChar d).toNat).toNat = 48 + d := by
  interval_cases d <;> rfl

theorem isDigit_digitChar {d : Nat} (hd : d < 10) :
    isDigit (UInt8.ofNat (Nat.digitChar d).toNat) = true := by
  interval_cases d <;> rfl

theorem decimal_of_lt {n : Nat} (h : n < 10) :
    decimal n = [UInt8.ofNat (Nat.digitChar n).toNat] := by
  unfold decimal
  rw [Nat.toDigits_of_lt_base h]
  rfl

theorem decimal_of_le {n : Nat} (h : 10 ≤ n) :
    decimal n = decimal (n / 10) ++ [UInt8.ofNat (Nat.digitChar (n % 10)).toNat] := by
  unfold decimal
  rw [Nat.toDigits_of_base_le (by decide) h, List.map_append]
  rfl

theorem decimal_ne_nil (n : Nat) : decimal n ≠ [] := by
  unfold decimal
  simp [Nat.toDigits_ne_nil]

theorem isDigit_of_mem_decimal {n : Nat} {c : UInt8} (h : c ∈ decimal n) : isDigit c = true := by
  induction n using Nat.strongRecOn with
  | ind n ih =>
    rcases Nat.lt_or_ge n 10 with hn | hn
    · rw [decimal_of_lt hn, List.mem_singleton] at h
      rw [h]
      exact isDigit_digitChar hn
    · rw [decimal_of_le hn] at h
      rcases List.mem_append.mp h with h | h
      · exact ih (n / 10) (by omega) h
      · rw [List.mem_singleton] at h
        rw [h]
        exact isDigit_digitChar (Nat.mod_lt n (by decide))

theorem isDigit_first {c : UInt8} (h : isDigit c = true) :
    isSpace c = false ∧ c ≠ 45 ∧ c ≠ 43 := by
  simp only [isDigit, Bool.and_eq_true, decide_eq_true_eq, UInt8.le_iff_toNat_le] at h
  have h48 : (48 : UInt8).toNat = 48 := rfl
  refine ⟨?_, ?_, ?_⟩
  · have h32 : c ≠ 32 := by
      rintro rfl
      exact absurd h.1 (by decide)
    have h13 : ¬c ≤ 13 := by
      rw [UInt8.le_iff_toNat_le]
      have h13 : (13 : UInt8).toNat = 13 := rfl
      omega
    simp [isSpace, h32, h13]
  · rintro rfl
    exact absurd h.1 (by decide)
  · rintro rfl
    exact absurd h.1 (by decide)

theorem digitsValue_decimal (n : Nat) : digitsValue (decimal n) = n := by
  induction n using Nat.strongRecOn with
  | ind n ih =>
    rcases Nat.lt_or_ge n 10 with hn | hn
    · rw [decimal_of_lt hn]
      simp only [digitsValue, List.foldl_cons, List.foldl_nil, digit_toNat hn]
      omega
    · have hdiv := ih (n / 10) (by omega)
      have hmod : n % 10 < 10 := Nat.mod_lt n (by decide)
      unfold digitsValue at hdiv ⊢
      rw [decimal_of_le hn, List.foldl_append, hdiv]
      simp only [List.foldl_cons, List.foldl_nil, digit_toNat hmod]
      omega

end Phorklift
