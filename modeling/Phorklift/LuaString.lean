import Phorklift.HeaderReserve
import Mathlib.Data.Rat.Defs

/-! What `tonumber` and the functions of `string` in Lua 5.1 do with byte strings. A number is the
rational that the double holds; there is no bound on it, and no `inf` or `nan`. -/

namespace Phorklift

def roundHalfEven (n d : Nat) : Nat :=
  if 2 * (n % d) < d ∨ 2 * (n % d) = d ∧ n / d % 2 = 0 then n / d else n / d + 1

/-- The exponent of the last one of the 53 bits of `n / d`. -/
def lastBit (n d : Nat) : Int :=
  let e : Int := (n.log2 : Int) - d.log2
  let e := if n * 2 ^ (-e).toNat < d * 2 ^ e.toNat then e - 1 else e
  max (e - 52) (-1074)

/-- The double next to a rational. -/
def toDouble (q : ℚ) : ℚ :=
  let n := q.num.natAbs
  let e := lastBit n q.den
  let m := roundHalfEven (n * 2 ^ (-e).toNat) (q.den * 2 ^ e.toNat)
  let x := mkRat (m * 2 ^ e.toNat : Nat) (2 ^ (-e).toNat)
  if q.num < 0 then -x else x

def hexDigit (c : UInt8) : Option Nat :=
  if isDigit c then some (c.toNat - 48)
  else if 97 ≤ tolower c ∧ tolower c ≤ 102 then some ((tolower c).toNat - 87)
  else none

/-- What follows the digits of a decimal numeral. -/
def numeralExponent : Bytes → Option Int
  | [] => some 0
  | e :: s =>
    let digits := if s.take 1 == [45] || s.take 1 == [43] then s.drop 1 else s
    if tolower e = 101 ∧ digits ≠ [] ∧ digits.all isDigit then
      some (if s.take 1 == [45] then -(digitsValue digits : Int) else digitsValue digits)
    else none

def decimalNumeral (s : Bytes) : Option ℚ :=
  let whole := s.takeWhile isDigit
  let rest := s.dropWhile isDigit
  let pointed := rest.take 1 == [46]
  let fraction := if pointed then (rest.drop 1).takeWhile isDigit else []
  let rest := if pointed then (rest.drop 1).dropWhile isDigit else rest
  if whole ++ fraction = [] then none
  else (numeralExponent rest).map fun e =>
    let e : Int := e - fraction.length
    mkRat (digitsValue (whole ++ fraction) * 10 ^ e.toNat : Nat) (10 ^ (-e).toNat)

def numeral (s : Bytes) : Option ℚ :=
  if lower (s.take 2) = bytes "0x" then
    if s.drop 2 = [] then none
    else ((s.drop 2).mapM hexDigit).map fun digits =>
      ((digits.foldl (fun n d => n * 16 + d) 0 : Nat) : ℚ)
  else decimalNumeral s

/-- `tonumber(s)` -/
def tonumber (s : Bytes) : Option ℚ :=
  let s := ((s.dropWhile isSpace).reverse.dropWhile isSpace).reverse
  let signed := s.take 1 == [45] || s.take 1 == [43]
  (numeral (if signed then s.drop 1 else s)).map fun q =>
    toDouble (if s.take 1 == [45] then -q else q)

/-- The integer that a function of `string` takes a number for. -/
def luaInteger (q : ℚ) : Int := q.num.tdiv q.den

/-- `string.sub(s, i, j)` -/
def stringSub (s : Bytes) (i j : Int) : Bytes :=
  let place := fun n : Int => if n < 0 then max (n + s.length + 1) 0 else n
  let first := max (place i) 1
  let last := min (place j) s.length
  (s.drop (first - 1).toNat).take (last - first + 1).toNat

def findFrom (pattern : Bytes) : Bytes → Nat → Option Nat
  | [], n => if pattern = [] then some n else none
  | c :: s, n => if pattern.isPrefixOf (c :: s) then some n else findFrom pattern s (n + 1)

/-- `string.find(s, pattern, init, true)` -/
def stringFind (s pattern : Bytes) (init : Nat) : Option Nat :=
  if s.length + 1 < init then none else findFrom pattern (s.drop (init - 1)) init

/-- How often the body of `for i = 1, limit do` runs. -/
def loopCount (limit : ℚ) : Nat := limit.floor.toNat

example : tonumber (bytes " -12.5e1\n") = some (-125) := by decide +kernel

example : tonumber (bytes "9007199254740993") = some 9007199254740992 := by decide +kernel

example : tonumber (bytes "0x1F") = some 31 := by decide +kernel

section Numerals

theorem roundHalfEven_one (n : Nat) : roundHalfEven n 1 = n := by
  unfold roundHalfEven
  rw [Nat.mod_one, Nat.div_one]
  exact if_pos (.inl Nat.one_pos)

/-- The last bit of a natural number of at most 53 bits is no fraction too coarse for it. -/
theorem lastBit_nonpos {n : Nat} (h : n < 2 ^ 53) : lastBit n 1 ≤ 0 := by
  have hlog : n.log2 ≤ 52 := by
    by_cases h0 : n = 0
    · rw [h0]
      decide
    · have hlt := (Nat.log2_lt h0).mpr h
      omega
  have hone : Nat.log2 1 = 0 := by decide
  unfold lastBit
  rw [hone]
  dsimp only
  split <;> omega

theorem toDouble_natCast {n : Nat} (h : n < 2 ^ 53) : toDouble n = n := by
  have hbit := lastBit_nonpos h
  have hzero : (lastBit n 1).toNat = 0 := by omega
  have hpow : 2 ^ (-lastBit n 1).toNat ≠ 0 := Nat.ne_of_gt (Nat.two_pow_pos _)
  unfold toDouble
  simp only [Rat.num_natCast, Int.natAbs_natCast, Rat.den_natCast, hzero]
  rw [if_neg (by omega), Nat.pow_zero, Nat.mul_one, Nat.mul_one, roundHalfEven_one]
  have hone := @Rat.mkRat_mul_right n 1 _ hpow
  rw [Nat.one_mul] at hone
  rw [Int.natCast_mul, hone]
  exact Rat.mkRat_self n

theorem toDouble_neg (q : ℚ) : toDouble (-q) = -toDouble q := by
  rcases Int.lt_trichotomy q.num 0 with hneg | hzero | hpos
  · unfold toDouble
    simp only [Rat.neg_num, Rat.neg_den, Int.natAbs_neg]
    rw [if_neg (by omega), if_pos hneg, neg_neg]
  · rw [Rat.num_eq_zero.mp hzero]
    rfl
  · unfold toDouble
    simp only [Rat.neg_num, Rat.neg_den, Int.natAbs_neg]
    rw [if_pos (by omega), if_neg (by omega)]

theorem toDouble_intCast {n : Int} (h : n.natAbs < 2 ^ 53) : toDouble n = n := by
  have habs := toDouble_natCast h
  rcases Int.natAbs_eq n with hn | hn
  · generalize n.natAbs = k at hn habs
    subst hn
    exact habs
  · generalize n.natAbs = k at hn habs
    subst hn
    rw [Int.cast_neg, toDouble_neg]
    exact congrArg Neg.neg habs

theorem isDigit_range {c : UInt8} (h : isDigit c = true) : 48 ≤ c.toNat ∧ c.toNat ≤ 57 := by
  simp only [isDigit, Bool.and_eq_true, decide_eq_true_eq, UInt8.le_iff_toNat_le] at h
  exact h

theorem decimalNumeral_digits {s : Bytes} (hs : ∀ c ∈ s, isDigit c = true) (hne : s ≠ []) :
    decimalNumeral s = some ((digitsValue s : Nat) : ℚ) := by
  have htake : s.takeWhile isDigit = s := List.takeWhile_eq_self_iff.mpr hs
  have hdrop : s.dropWhile isDigit = [] := List.dropWhile_eq_nil_iff.mpr hs
  have hpoint : (([] : Bytes).take 1 == [46]) = false := rfl
  unfold decimalNumeral
  simp only [htake, hdrop, hpoint, Bool.false_eq_true, if_false, List.append_nil]
  rw [if_neg hne]
  have hone := Rat.mkRat_self (digitsValue s)
  simpa [numeralExponent] using hone

theorem numeral_digits {s : Bytes} (hs : ∀ c ∈ s, isDigit c = true) (hne : s ≠ []) :
    numeral s = some ((digitsValue s : Nat) : ℚ) := by
  have hlower : lower (s.take 2) = s.take 2 := by
    have hsame : ∀ c ∈ s.take 2, tolower c = id c := by
      intro c hc
      have hrange := isDigit_range (hs c (List.mem_of_mem_take hc))
      have hupper : ¬ (65 ≤ c ∧ c ≤ 90) := by
        rintro ⟨hle, -⟩
        have hle' : 65 ≤ c.toNat := UInt8.le_iff_toNat_le.mp hle
        omega
      exact if_neg hupper
    unfold lower
    rw [List.map_congr_left hsame, List.map_id]
  have hhex : ¬ lower (s.take 2) = bytes "0x" := by
    rw [hlower]
    intro heq
    have hx : (120 : UInt8) ∈ s.take 2 := by
      rw [heq]
      decide
    have hdigit := hs 120 (List.mem_of_mem_take hx)
    exact absurd hdigit (by decide)
  unfold numeral
  rw [if_neg hhex]
  exact decimalNumeral_digits hs hne

/-- Blanks are taken off both ends, and these bytes have none there. -/
theorem trim_digits {s : Bytes} (hs : ∀ c ∈ s, isDigit c = true) (t : Bytes)
    (ht : ∀ c ∈ t, isSpace c = false) :
    (((t ++ s).dropWhile isSpace).reverse.dropWhile isSpace).reverse = t ++ s := by
  have hall : ∀ c ∈ t ++ s, isSpace c = false := by
    intro c hc
    rcases List.mem_append.mp hc with hc | hc
    · exact ht c hc
    · exact (isDigit_first (hs c hc)).1
  have hdrop : ∀ u : Bytes, (∀ c ∈ u, isSpace c = false) → u.dropWhile isSpace = u := by
    intro u hu
    cases u with
    | nil => rfl
    | cons c u =>
      rw [List.dropWhile_cons_of_neg]
      rw [hu c List.mem_cons_self]
      exact Bool.false_ne_true
  rw [hdrop _ hall, hdrop, List.reverse_reverse]
  intro c hc
  exact hall c (List.mem_reverse.mp hc)

theorem tonumber_digits {s : Bytes} (hs : ∀ c ∈ s, isDigit c = true) (hne : s ≠ []) :
    tonumber s = some (toDouble (digitsValue s)) := by
  have htrim := trim_digits hs [] nofun
  rw [List.nil_append] at htrim
  obtain ⟨c, u, rfl⟩ := List.exists_cons_of_ne_nil hne
  obtain ⟨-, h45, h43⟩ := isDigit_first (hs c List.mem_cons_self)
  have hminus : ((c :: u).take 1 == [45]) = false := by simp [h45]
  have hplus : ((c :: u).take 1 == [43]) = false := by simp [h43]
  unfold tonumber
  simp only [htrim, hminus, hplus, Bool.or_self, Bool.false_eq_true, if_false,
    numeral_digits hs hne, Option.map_some]

theorem tonumber_decimalInt (n : Int) : tonumber (decimalInt n) = some (toDouble n) := by
  have hdigits : ∀ c ∈ decimal n.natAbs, isDigit c = true := fun c hc => isDigit_of_mem_decimal hc
  unfold decimalInt
  split
  next hneg =>
    have htrim := trim_digits hdigits [45] (by decide)
    have hvalue : (-(n.natAbs : ℚ)) = (n : ℚ) := by
      have hcast : (-(n.natAbs : Int)) = n := by omega
      rw [← Int.cast_natCast, ← Int.cast_neg, hcast]
    have hminus : ((45 :: decimal n.natAbs).take 1 == ([45] : Bytes)) = true := rfl
    unfold tonumber
    rw [List.cons_append, List.nil_append] at htrim
    simp only [htrim, hminus, Bool.true_or, if_true, List.drop_one, List.tail_cons,
      numeral_digits hdigits (decimal_ne_nil _), Option.map_some, digitsValue_decimal, hvalue]
  next hpos =>
    rw [tonumber_digits hdigits (decimal_ne_nil _), digitsValue_decimal]
    have hcast : ((n.natAbs : Nat) : ℚ) = (n : ℚ) := by
      have hcast : (n.natAbs : Int) = n := by omega
      rw [← Int.cast_natCast, hcast]
    rw [hcast]

theorem tonumber_nil : tonumber [] = none := rfl

/-- One byte is a numeral where it is a digit. -/
theorem tonumber_singleton (c : UInt8) :
    tonumber [c] = if isDigit c then some ((c.toNat - 48 : Nat) : ℚ) else none := by
  split
  next hdigit =>
    have hall : ∀ d ∈ [c], isDigit d = true := by
      intro d hd
      rw [List.mem_singleton.mp hd]
      exact hdigit
    have hrange := isDigit_range hdigit
    have hvalue : digitsValue [c] = c.toNat - 48 := by simp [digitsValue]
    rw [tonumber_digits hall (List.cons_ne_nil c []), hvalue, toDouble_natCast]
    omega
  next hdigit =>
    have hempty : numeral [] = none := rfl
    by_cases hspace : isSpace c = true
    · have htrim : [c].dropWhile isSpace = [] := by
        rw [List.dropWhile_cons_of_pos hspace]
        rfl
      unfold tonumber
      rw [htrim]
      rfl
    have hnil : ∀ d ∈ ([] : Bytes), isDigit d = true := List.forall_mem_nil _
    have htrim := trim_digits hnil [c] (by simpa using hspace)
    rw [List.append_nil] at htrim
    have hother : numeral [c] = none := by
      have hhex : ¬ lower ([c].take 2) = bytes "0x" := by
        intro heq
        have hlen := congrArg List.length heq
        exact absurd hlen (by simp [lower, bytes])
      unfold numeral decimalNumeral
      rw [if_neg hhex, List.takeWhile_cons_of_neg hdigit, List.dropWhile_cons_of_neg hdigit]
      simp
    have hbody : ∀ signed : Bool, numeral (if signed then [c].drop 1 else [c]) = none := by
      intro signed
      cases signed with
      | true => exact hempty
      | false => exact hother
    unfold tonumber
    simp only [htrim, hbody, Option.map_none]

end Numerals

section Strings

variable {s text rest : Bytes}

theorem stringSub_first (s : Bytes) : stringSub s 1 1 = s.take 1 := by
  cases s with
  | nil => rfl
  | cons c s =>
    have hlast : min (1 : Int) ((c :: s).length : Int) = 1 := by
      rw [List.length_cons]
      omega
    unfold stringSub
    dsimp only
    rw [if_neg (by omega), hlast]
    rfl

theorem stringSub_from {n : Nat} (hn : 1 ≤ n) (s : Bytes) : stringSub s n (-1) = s.drop (n - 1) := by
  have hfirst : max (n : Int) 1 = n := by omega
  have hlast : min (max (-1 + (s.length : Int) + 1) 0) (s.length : Int) = s.length := by omega
  have hpos : ¬ (n : Int) < 0 := by omega
  have hneg : (-1 : Int) < 0 := by omega
  unfold stringSub
  dsimp only
  rw [if_neg hpos, if_pos hneg, hfirst, hlast]
  have hdrop : ((n : Int) - 1).toNat = n - 1 := by omega
  rw [hdrop, List.take_of_length_le]
  rw [List.length_drop]
  omega

theorem stringSub_nat {i : Nat} (hi : 1 ≤ i) (j : Nat) (s : Bytes) :
    stringSub s i j = (s.take j).drop (i - 1) := by
  have hfirst : max (i : Int) 1 = i := by omega
  have hi0 : ¬ (i : Int) < 0 := by omega
  have hj0 : ¬ (j : Int) < 0 := by omega
  unfold stringSub
  dsimp only
  rw [if_neg hi0, if_neg hj0, hfirst]
  have hdrop : ((i : Int) - 1).toNat = i - 1 := by omega
  rw [hdrop, List.drop_take, List.take_eq_take_iff, List.length_drop]
  omega

theorem stringSub_length_le (s : Bytes) (i j : Int) : (stringSub s i j).length ≤ s.length := by
  unfold stringSub
  dsimp only
  rw [List.length_take, List.length_drop]
  omega

theorem findFrom_crlf (htext : 13 ∉ text) (rest : Bytes) (n : Nat) :
    findFrom crlf (text ++ crlf ++ rest) n = some (n + text.length) := by
  induction text generalizing n with
  | nil => rfl
  | cons c text ih =>
    have hc : c ≠ 13 := fun h => htext (h ▸ List.mem_cons_self)
    have hrest := ih (fun h => htext (List.mem_cons_of_mem c h)) (n + 1)
    have hno : ¬ crlf.isPrefixOf (c :: (text ++ crlf ++ rest)) = true := by
      simp [crlf, List.isPrefixOf, Ne.symm hc]
    rw [List.cons_append, List.cons_append, findFrom, if_neg hno, hrest, List.length_cons]
    congr 1
    omega

theorem findFrom_splits {n k : Nat} (h : findFrom crlf s n = some k) :
    ∃ text rest, s = text ++ crlf ++ rest ∧ k = n + text.length := by
  induction s generalizing n with
  | nil => cases h
  | cons c s ih =>
    unfold findFrom at h
    split at h
    next hprefix =>
      obtain ⟨rest, hrest⟩ := List.isPrefixOf_iff_prefix.mp hprefix
      have hk : n = k := Option.some.inj h
      refine ⟨[], rest, hrest.symm, ?_⟩
      rw [← hk]
      rfl
    next =>
      obtain ⟨text, rest, rfl, hk⟩ := ih h
      refine ⟨c :: text, rest, rfl, ?_⟩
      rw [hk, List.length_cons]
      omega

/-- The end of a line whose first byte is not looked at. -/
theorem stringFind_crlf (c : UInt8) (htext : 13 ∉ text) (rest : Bytes) :
    stringFind (c :: (text ++ crlf ++ rest)) crlf 2 = some (text.length + 2) := by
  have hfind := findFrom_crlf htext rest 2
  unfold stringFind
  rw [if_neg]
  · rw [Nat.add_comm]
    exact hfind
  · rw [List.length_cons]
    omega

theorem stringFind_splits {tail : Nat} (h : stringFind s crlf 2 = some tail) :
    ∃ c text rest, s = c :: (text ++ crlf ++ rest) ∧ tail = text.length + 2 := by
  unfold stringFind at h
  split at h
  next => cases h
  next hlen =>
    obtain ⟨text, rest, hsplit, htail⟩ := findFrom_splits h
    cases s with
    | nil => exact absurd (Nat.lt_succ_self 1) hlen
    | cons c s =>
      refine ⟨c, text, rest, congrArg (c :: ·) hsplit, ?_⟩
      rw [htail, Nat.add_comm]

end Strings

end Phorklift
