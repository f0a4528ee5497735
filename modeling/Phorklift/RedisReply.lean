import Phorklift.LuaString

/-! The replies of a Redis server and what the `redis` package of Lua makes of their bytes. -/

namespace Phorklift

/-- A reply as the protocol has them, errors apart. -/
inductive RedisReply
  | simple (s : Bytes)
  | integer (n : Int)
  | bulk (s : Bytes)
  | nullBulk
  | array (replies : List RedisReply)

/-- What `parse_line` returns for one; `null` is the table `_M.Null`. -/
inductive LuaValue
  | string (s : Bytes)
  | number (q : ℚ)
  | null
  | array (values : List LuaValue)

namespace RedisReply

mutual

def encode : RedisReply → Bytes
  | simple s => 43 :: (s ++ crlf)
  | integer n => 58 :: (decimalInt n ++ crlf)
  | bulk s => 36 :: (decimal s.length ++ crlf ++ (s ++ crlf))
  | nullBulk => 36 :: (decimalInt (-1) ++ crlf)
  | array replies => 42 :: (decimal replies.length ++ crlf ++ encodeAll replies)

def encodeAll : List RedisReply → Bytes
  | [] => []
  | v :: vs => v.encode ++ encodeAll vs

end

mutual

/-- The value that a reply is. -/
def value : RedisReply → LuaValue
  | simple s => .string s
  | integer n => .number n
  | bulk s => .string s
  | nullBulk => .null
  | array replies => .array (values replies)

def values : List RedisReply → List LuaValue
  | [] => []
  | v :: vs => v.value :: values vs

end

mutual

/-- A simple string is part of a line. -/
def WellFormed : RedisReply → Prop
  | simple s => 13 ∉ s ∧ 10 ∉ s
  | array replies => AllWellFormed replies
  | _ => True

def AllWellFormed : List RedisReply → Prop
  | [] => True
  | v :: vs => v.WellFormed ∧ AllWellFormed vs

end

end RedisReply

/-- The second value that `parse_line` returns after nil. -/
inductive LineError
  | message (s : Bytes)
  | position (q : ℚ)

/-- What a call of `parse_line` comes to; `raised` is an error of Lua. -/
inductive LineResult
  | value (v : LuaValue) (nextLine : ℚ)
  | failed (e : LineError)
  | raised

/-- The loop over the elements of an array. -/
def parseArray (parse : Bytes → LineResult) :
    Nat → List LuaValue → ℚ → Bytes → LineResult
  | 0, array, total, _ => .value (.array array) total
  | n + 1, array, total, resp =>
    match parse resp with
    | .value v nextLine =>
      parseArray parse n (array ++ [v]) (total + nextLine)
        (stringSub resp (luaInteger nextLine) (-1))
    | .failed e => .failed e
    | .raised => .raised

/-- `parse_line`; the fuel is for its calls of itself, each on less than `resp`. -/
def parseLineFuel : Nat → Bytes → LineResult
  | 0, _ => .failed (.message (bytes "not complete line"))
  | fuel + 1, resp =>
    match stringFind resp crlf 2 with
    | none => .failed (.message (bytes "not complete line"))
    | some tail =>
      let nextLine := tail + 2
      let tail := tail - 1
      let first := stringSub resp 1 1
      if first = bytes "+" then .value (.string (stringSub resp 2 tail)) (nextLine : ℚ)
      else if first = bytes "-" then .failed (.message (stringSub resp 2 tail))
      else if first = bytes ":" then
        match tonumber (stringSub resp 2 tail) with
        | some q => .value (.number q) (nextLine : ℚ)
        | none => .failed (.position (nextLine : ℚ))
      else if first = bytes "$" then
        match tonumber (stringSub resp 2 tail) with
        | none => .raised
        | some len =>
          if len = -1 then .value .null (nextLine : ℚ)
          else
            let ret := stringSub resp nextLine (luaInteger ((nextLine : ℚ) + len - 1))
            if (ret.length : ℚ) < len then
              .failed (.message (bytes "TODO: not complete bulk string"))
            else .value (.string ret) ((nextLine : ℚ) + len + 2)
      else if first = bytes "*" then
        let resp := stringSub resp nextLine (-1)
        -- `tail` is still that of the line before
        match tonumber (stringSub resp 2 tail) with
        | none => .raised
        | some limit => parseArray (parseLineFuel fuel) (loopCount limit) [] (nextLine : ℚ) resp
      else .failed (.message (bytes "invalid type: " ++ first))

/-- `parse_line(resp)` -/
def parseLine (resp : Bytes) : LineResult := parseLineFuel (resp.length + 1) resp

section Line

variable {c : UInt8} {text rest resp : Bytes} {fuel tail : Nat} {v : LuaValue} {nextLine : ℚ}

theorem stringSub_line (c : UInt8) (text rest : Bytes) :
    stringSub (c :: (text ++ crlf ++ rest)) 2 (text.length + 1 : Nat) = text := by
  have hsub : stringSub (c :: (text ++ crlf ++ rest)) 2 (text.length + 1 : Nat) =
      ((c :: (text ++ crlf ++ rest)).take (text.length + 1)).drop 1 :=
    stringSub_nat (i := 2) (by decide) (text.length + 1) _
  rw [hsub, List.take_succ_cons, List.append_assoc, List.take_left]
  rfl

theorem drop_line (c : UInt8) (text rest : Bytes) :
    (c :: (text ++ crlf ++ rest)).drop (text.length + 3) = rest := by
  have hlen : (c :: (text ++ crlf)).length = text.length + 3 := by simp [crlf]
  rw [← hlen]
  exact List.drop_left

theorem stringSub_next (c : UInt8) (text rest : Bytes) :
    stringSub (c :: (text ++ crlf ++ rest)) (text.length + 4 : Nat) (-1) = rest := by
  rw [stringSub_from (by omega)]
  exact drop_line c text rest

theorem luaInteger_natCast (n : Nat) : luaInteger n = n := by
  unfold luaInteger
  rw [Rat.num_natCast, Rat.den_natCast, Int.natCast_one, Int.tdiv_one]

/-- A call of `parse_line` on a line with the type `c`, that makes the calls of itself with
`parse`. -/
def lineResult (parse : Bytes → LineResult) (c : UInt8) (text rest : Bytes) : LineResult :=
  let nextLine := text.length + 4
  if c = 43 then .value (.string text) (nextLine : ℚ)
  else if c = 45 then .failed (.message text)
  else if c = 58 then
    match tonumber text with
    | some q => .value (.number q) (nextLine : ℚ)
    | none => .failed (.position (nextLine : ℚ))
  else if c = 36 then
    match tonumber text with
    | none => .raised
    | some len =>
      if len = -1 then .value .null (nextLine : ℚ)
      else
        let ret := stringSub (c :: (text ++ crlf ++ rest)) nextLine
          (luaInteger ((nextLine : ℚ) + len - 1))
        if (ret.length : ℚ) < len then
          .failed (.message (bytes "TODO: not complete bulk string"))
        else .value (.string ret) ((nextLine : ℚ) + len + 2)
  else if c = 42 then
    match tonumber (stringSub rest 2 (text.length + 1)) with
    | none => .raised
    | some limit => parseArray parse (loopCount limit) [] (nextLine : ℚ) rest
  else .failed (.message (bytes "invalid type: " ++ [c]))

theorem parseLineFuel_line
    (h : stringFind (c :: (text ++ crlf ++ rest)) crlf 2 = some (text.length + 2)) :
    parseLineFuel (fuel + 1) (c :: (text ++ crlf ++ rest)) =
      lineResult (parseLineFuel fuel) c text rest := by
  have hnext : ((text.length + 2 + 2 : Nat) : Int) = (text.length + 4 : Nat) := rfl
  have htail : ((text.length + 2 - 1 : Nat) : Int) = (text.length + 1 : Nat) := rfl
  have hplace : ((text.length + 1 : Nat) : Int) = text.length + 1 := Nat.cast_succ _
  have hfirst : stringSub (c :: (text ++ crlf ++ rest)) 1 1 = [c] := stringSub_first _
  have hbyte : ∀ d : UInt8, ([c] = [d]) = (c = d) := by
    intro d
    simp
  have h43 : bytes "+" = [43] := rfl
  have h45 : bytes "-" = [45] := rfl
  have h58 : bytes ":" = [58] := rfl
  have h36 : bytes "$" = [36] := rfl
  have h42 : bytes "*" = [42] := rfl
  unfold parseLineFuel lineResult
  rw [h]
  simp only [hfirst, h43, h45, h58, h36, h42, hbyte, htail, stringSub_line, hnext, stringSub_next]
  rw [hplace]

theorem parseLineFuel_none (h : stringFind resp crlf 2 = none) :
    parseLineFuel (fuel + 1) resp = .failed (.message (bytes "not complete line")) := by
  unfold parseLineFuel
  rw [h]

/-- What is read is a line. -/
theorem parseLineFuel_eq (h : parseLineFuel fuel resp = .value v nextLine) :
    ∃ n c text rest, fuel = n + 1 ∧ resp = c :: (text ++ crlf ++ rest) ∧
      stringFind resp crlf 2 = some (text.length + 2) ∧
      lineResult (parseLineFuel n) c text rest = .value v nextLine := by
  cases fuel with
  | zero => cases h
  | succ n =>
    cases hfind : stringFind resp crlf 2 with
    | none =>
      rw [parseLineFuel_none hfind] at h
      cases h
    | some tail =>
      obtain ⟨c, text, rest, rfl, rfl⟩ := stringFind_splits hfind
      rw [parseLineFuel_line hfind] at h
      exact ⟨n, c, text, rest, rfl, rfl, rfl, h⟩

theorem parseArray_congr {parse parse' : Bytes → LineResult} {m n : Nat} {array : List LuaValue}
    {total : ℚ} (h : ∀ t : Bytes, t.length ≤ m → parse t = parse' t) (hresp : resp.length ≤ m) :
    parseArray parse n array total resp = parseArray parse' n array total resp := by
  induction n generalizing array total resp with
  | zero => rfl
  | succ n ih =>
    unfold parseArray
    rw [h resp hresp]
    split
    next v next _ =>
      have hle := stringSub_length_le resp (luaInteger next) (-1)
      exact ih (Nat.le_trans hle hresp)
    next => rfl
    next => rfl

/-- The fuel does not run out: more of it changes nothing. -/
theorem parseLineFuel_enough (h : resp.length < fuel) : parseLineFuel fuel resp = parseLine resp := by
  have hany : ∀ f g (t : Bytes), t.length < f → t.length < g →
      parseLineFuel f t = parseLineFuel g t := by
    intro f
    induction f with
    | zero =>
      intro g t hf _
      omega
    | succ f ih =>
      intro g t hf hg
      obtain ⟨g, rfl⟩ := Nat.exists_eq_succ_of_ne_zero (Nat.ne_of_gt (Nat.zero_lt_of_lt hg))
      cases hfind : stringFind t crlf 2 with
      | none =>
        rw [parseLineFuel_none hfind, Nat.succ_eq_add_one, parseLineFuel_none hfind]
      | some tail =>
        obtain ⟨c, text, rest, rfl, rfl⟩ := stringFind_splits hfind
        have hlen : rest.length + 3 ≤ (c :: (text ++ crlf ++ rest)).length := by
          simp only [List.length_cons, List.length_append, crlf]
          omega
        have hloop : ∀ n array (total : ℚ), parseArray (parseLineFuel f) n array total rest =
            parseArray (parseLineFuel g) n array total rest := by
          intro n array total
          exact parseArray_congr (fun u hu => ih g u (by omega) (by omega)) (Nat.le_refl _)
        rw [parseLineFuel_line hfind, Nat.succ_eq_add_one, parseLineFuel_line hfind]
        unfold lineResult
        simp only [hloop]
  exact hany fuel (resp.length + 1) resp h (Nat.lt_succ_self _)

end Line

/-- `parse_line` returns the value of the reply and the position after it. -/
def DecodesReply (v : RedisReply) (s : Bytes) : Prop :=
  parseLine (v.encode ++ s) = .value v.value (v.encode.length + 1 : Nat)

/-- The replies that it decodes: a number that no double holds is rounded, and of an array it takes
the second byte of what follows the first line for the number of elements. -/
def Decodable : RedisReply → Bytes → Prop
  | .simple _, _ => True
  | .integer n, _ => toDouble n = n
  | .bulk data, _ => toDouble (data.length : Nat) = (data.length : Nat)
  | .nullBulk, _ => True
  | .array [], s => s[1]? = some 48
  | .array (_ :: _), _ => False

section Scalars

variable {fuel : Nat}

theorem mem_decimalInt {c : UInt8} {n : Int} (h : c ∈ decimalInt n) : isDigit c = true ∨ c = 45 := by
  unfold decimalInt at h
  split at h
  next =>
    rcases List.mem_cons.mp h with h45 | hdigit
    · exact .inr h45
    · exact .inl (isDigit_of_mem_decimal hdigit)
  next => exact .inl (isDigit_of_mem_decimal h)

theorem cr_notMem_decimalInt (n : Int) : 13 ∉ decimalInt n := by
  intro hmem
  rcases mem_decimalInt hmem with hdigit | h45
  · exact absurd hdigit (by decide)
  · exact absurd h45 (by decide)

theorem decimalInt_natCast (n : Nat) : decimalInt n = decimal n := by
  unfold decimalInt
  rw [if_neg (by omega), Int.natAbs_natCast]

theorem cr_notMem_decimal (n : Nat) : 13 ∉ decimal n := by
  have hint := cr_notMem_decimalInt n
  rwa [decimalInt_natCast] at hint

theorem parseLineFuel_text {text : Bytes} (c : UInt8) (htext : 13 ∉ text) (rest : Bytes) :
    parseLineFuel (fuel + 1) (c :: (text ++ crlf ++ rest)) =
      lineResult (parseLineFuel fuel) c text rest :=
  parseLineFuel_line (stringFind_crlf c htext rest)

theorem parseLineFuel_simple {data : Bytes} (h : 13 ∉ data) (s : Bytes) :
    parseLineFuel (fuel + 1) ((RedisReply.simple data).encode ++ s) =
      .value (.string data) ((RedisReply.simple data).encode.length + 1 : Nat) := by
  have hlen : (43 :: (data ++ crlf)).length + 1 = data.length + 4 := by simp [crlf]
  unfold RedisReply.encode
  rw [hlen, List.cons_append, parseLineFuel_text 43 h s]
  rfl

theorem parseLineFuel_integer (n : Int) (s : Bytes) :
    parseLineFuel (fuel + 1) ((RedisReply.integer n).encode ++ s) =
      .value (.number (toDouble n)) ((RedisReply.integer n).encode.length + 1 : Nat) := by
  have hlen : (58 :: (decimalInt n ++ crlf)).length + 1 = (decimalInt n).length + 4 := by
    simp [crlf]
  unfold RedisReply.encode
  rw [hlen, List.cons_append, parseLineFuel_text 58 (cr_notMem_decimalInt n) s]
  unfold lineResult
  rw [tonumber_decimalInt]
  rfl

theorem parseLineFuel_null (s : Bytes) :
    parseLineFuel (fuel + 1) (RedisReply.nullBulk.encode ++ s) =
      .value .null (RedisReply.nullBulk.encode.length + 1 : Nat) := by
  have hlen : (36 :: (decimalInt (-1) ++ crlf)).length + 1 = (decimalInt (-1)).length + 4 := by
    simp [crlf]
  have hone : toDouble ((-1 : Int) : ℚ) = -1 := by
    rw [toDouble_intCast (by decide)]
    rfl
  unfold RedisReply.encode
  rw [hlen, List.cons_append, parseLineFuel_text 36 (cr_notMem_decimalInt (-1)) s]
  unfold lineResult
  simp only [tonumber_decimalInt, hone]
  rfl

/-- The last byte of a bulk string by its announced length. -/
theorem bulk_end (text data : Nat) :
    ((text + 4 : Nat) : ℚ) + (data : Nat) - 1 = (text + 3 + data : Nat) := by
  push_cast
  ring

/-- The length that is read is the double next to the one that is announced. -/
theorem parseLineFuel_bulk (data s : Bytes) :
    ∃ ret : Bytes, parseLineFuel (fuel + 1) ((RedisReply.bulk data).encode ++ s) =
        (if toDouble (data.length : Nat) = -1 then
          .value .null ((decimal data.length).length + 4 : Nat)
        else if (ret.length : ℚ) < toDouble (data.length : Nat) then
          .failed (.message (bytes "TODO: not complete bulk string"))
        else .value (.string ret)
          (((decimal data.length).length + 4 : Nat) + toDouble (data.length : Nat) + 2)) ∧
      (toDouble (data.length : Nat) = (data.length : Nat) → ret = data) := by
  have hnumber : tonumber (decimal data.length) = some (toDouble (data.length : Nat)) := by
    have hint := tonumber_decimalInt data.length
    rwa [decimalInt_natCast, Int.cast_natCast] at hint
  unfold RedisReply.encode
  rw [List.cons_append, List.append_assoc, parseLineFuel_text 36 (cr_notMem_decimal _)]
  unfold lineResult
  simp only [hnumber]
  refine ⟨_, rfl, fun hexact => ?_⟩
  rw [hexact]
  have hhead : (36 :: (decimal data.length ++ crlf)).length = (decimal data.length).length + 3 := by
    simp [crlf]
  have hsplit : 36 :: (decimal data.length ++ crlf ++ (data ++ crlf ++ s)) =
      36 :: (decimal data.length ++ crlf) ++ (data ++ (crlf ++ s)) := by simp
  rw [bulk_end, luaInteger_natCast, stringSub_nat (by omega), hsplit, ← hhead, List.drop_take]
  have hstart : (decimal data.length).length + 4 - 1 =
      (36 :: (decimal data.length ++ crlf)).length := by omega
  rw [hstart, List.drop_left, Nat.add_sub_cancel_left, List.take_left]

theorem bulk_length (data : Bytes) :
    (RedisReply.bulk data).encode.length = (decimal data.length).length + data.length + 5 := by
  unfold RedisReply.encode
  simp only [List.length_cons, List.length_append, crlf]
  simp only [List.length_nil]
  omega

theorem bulk_decodes_iff (data s : Bytes) :
    DecodesReply (.bulk data) s ↔ toDouble (data.length : Nat) = (data.length : Nat) := by
  obtain ⟨ret, hparse, hret⟩ :=
    @parseLineFuel_bulk ((RedisReply.bulk data).encode ++ s).length data s
  unfold DecodesReply parseLine
  rw [hparse]
  constructor
  · intro h
    split at h
    next => cases h
    next =>
      split at h
      next => cases h
      next =>
        have hnext := (LineResult.value.inj h).2
        rw [bulk_length] at hnext
        push_cast at hnext
        linarith
  · intro hexact
    have hneg : ¬ ((data.length : Nat) : ℚ) = -1 := by
      intro hminus
      have hpos : (0 : ℚ) ≤ (data.length : Nat) := Nat.cast_nonneg _
      rw [hminus] at hpos
      exact absurd hpos (by norm_num)
    rw [hret hexact, hexact, if_neg hneg, if_neg (lt_irrefl _), bulk_length]
    unfold RedisReply.value
    congr 1
    push_cast
    ring

/-- Simple strings, numbers and null. -/
theorem scalar_decodes_iff {v : RedisReply} {s : Bytes} (hv : v.WellFormed)
    (hscalar : ∀ replies, v ≠ .array replies) : DecodesReply v s ↔ Decodable v s := by
  cases v with
  | simple data =>
    have hcr : 13 ∉ data := hv.1
    exact iff_of_true (parseLineFuel_simple hcr s) trivial
  | integer n =>
    have hparse := @parseLineFuel_integer ((RedisReply.integer n).encode ++ s).length n s
    unfold DecodesReply parseLine
    rw [hparse]
    constructor
    · intro h
      exact LuaValue.number.inj (LineResult.value.inj h).1
    · intro h
      have hexact : toDouble n = n := h
      rw [hexact]
      rfl
  | bulk data => exact bulk_decodes_iff data s
  | nullBulk => exact iff_of_true (parseLineFuel_null s) trivial
  | array replies => exact absurd rfl (hscalar replies)

end Scalars

section Arrays

variable {fuel : Nat}

theorem array_line (replies : List RedisReply) (s : Bytes) :
    parseLineFuel (fuel + 1) ((RedisReply.array replies).encode ++ s) =
      lineResult (parseLineFuel fuel) 42 (decimal replies.length)
        (RedisReply.encodeAll replies ++ s) := by
  unfold RedisReply.encode
  rw [List.cons_append, List.append_assoc]
  exact parseLineFuel_text 42 (cr_notMem_decimal _) _

/-- An array with elements comes of a loop, and the loop of an array makes as many as it runs. -/
theorem parseArray_values {parse : Bytes → LineResult} {n : Nat} {array : List LuaValue}
    {total next : ℚ} {resp : Bytes} {v : LuaValue}
    (h : parseArray parse n array total resp = .value v next) :
    ∃ more : List LuaValue, v = .array (array ++ more) ∧ more.length = n := by
  induction n generalizing array total resp with
  | zero =>
    obtain ⟨rfl, -⟩ := LineResult.value.inj h
    exact ⟨[], by rw [List.append_nil], rfl⟩
  | succ n ih =>
    unfold parseArray at h
    split at h
    next w _ _ =>
      obtain ⟨more, hv, hlen⟩ := ih h
      refine ⟨w :: more, ?_, by rw [List.length_cons, hlen]⟩
      rw [hv, List.append_assoc]
      rfl
    next => cases h
    next => cases h

theorem lineResult_array (parse : Bytes → LineResult) (text rest : Bytes) :
    lineResult parse 42 text rest =
      match tonumber (stringSub rest 2 (text.length + 1 : Nat)) with
      | none => .raised
      | some limit => parseArray parse (loopCount limit) [] (text.length + 4 : Nat) rest := by
  have hplace : ((text.length + 1 : Nat) : Int) = text.length + 1 := Nat.cast_succ _
  unfold lineResult
  rw [if_neg (by decide), if_neg (by decide), if_neg (by decide), if_neg (by decide), if_pos rfl,
    hplace]

theorem empty_decodes_iff (s : Bytes) : DecodesReply (.array []) s ↔ s[1]? = some 48 := by
  have hcount : stringSub s 2 (([48] : Bytes).length + 1 : Nat) = (s.take 2).drop 1 :=
    stringSub_nat (i := 2) (by decide) 2 s
  have hzero : decimal ([] : List RedisReply).length = [48] := rfl
  unfold DecodesReply parseLine
  rw [array_line, hzero, lineResult_array]
  generalize parseLineFuel ((RedisReply.array []).encode ++ s).length = parse
  have hend : (RedisReply.array []).encode.length + 1 = 5 := rfl
  have hvalue : (RedisReply.array []).value = .array [] := rfl
  have hrest : RedisReply.encodeAll [] ++ s = s := rfl
  rw [hend, hvalue, hrest, hcount]
  have hshort : ∀ t : Bytes, t.length ≤ 1 → (t.take 2).drop 1 = [] := by
    intro t ht
    apply List.drop_eq_nil_of_le
    rw [List.length_take]
    omega
  rcases s with _ | ⟨c, _ | ⟨d, rest⟩⟩
  · rw [hshort [] (Nat.zero_le 1), tonumber_nil]
    exact iff_of_false (fun h => LineResult.noConfusion h) (by simp)
  · rw [hshort [c] (Nat.le_refl 1), tonumber_nil]
    exact iff_of_false (fun h => LineResult.noConfusion h) (by simp)
  · have hbyte : ((c :: d :: rest).take 2).drop 1 = [d] := rfl
    have hget : (c :: d :: rest)[1]? = some d := rfl
    rw [hbyte, hget, tonumber_singleton, Option.some.injEq]
    split
    next hnone =>
      refine iff_of_false nofun ?_
      rintro rfl
      exact absurd hnone (by decide)
    next limit hlimit =>
      split at hlimit
      next hdigit =>
        obtain rfl := Option.some.inj hlimit
        have hrange := isDigit_range hdigit
        have hloop : loopCount ((d.toNat - 48 : Nat) : ℚ) = d.toNat - 48 := by
          unfold loopCount
          rw [← Int.cast_natCast, Rat.floor_intCast, Int.toNat_natCast]
        constructor
        · intro h
          obtain ⟨more, hmore, hlen⟩ := parseArray_values h
          have hnil : more = [] := (LuaValue.array.inj hmore).symm
          rw [hnil, hloop, List.length_nil] at hlen
          apply UInt8.toNat_inj.mp
          show d.toNat = 48
          omega
        · rintro rfl
          rfl
      next => cases hlimit

end Arrays

/-- No line of the bytes that begins with `$` has a length that is negative or broken. -/
def RegularLengths (t : Bytes) : Prop :=
  ∀ o tail q, (t.drop o).head? = some 36 → stringFind (t.drop o) crlf 2 = some tail →
    tonumber (stringSub (t.drop o) 2 (tail - 1 : Nat)) = some q → q = -1 ∨ ∃ n : Nat, q = n

/-- What a call returns for the line with the type `c` where the lengths are regular. -/
inductive LineRead (parse : Bytes → LineResult) (text rest : Bytes) : UInt8 → LuaValue → ℚ → Prop
  | simple : LineRead parse text rest 43 (.string text) (text.length + 4 : Nat)
  | integer (q : ℚ) : LineRead parse text rest 58 (.number q) (text.length + 4 : Nat)
  | null : LineRead parse text rest 36 .null (text.length + 4 : Nat)
  | bulk (data : Bytes) :
      LineRead parse text rest 36 (.string data) (text.length + data.length + 6 : Nat)
  | array {count : Nat} {vs : List LuaValue} {nextLine : ℚ} :
      parseArray parse count [] (text.length + 4 : Nat) rest = .value (.array vs) nextLine →
      LineRead parse text rest 42 (.array vs) nextLine

section Regular

variable {t resp text rest : Bytes} {fuel : Nat} {v : LuaValue} {nextLine : ℚ}

theorem RegularLengths.drop (h : RegularLengths t) (k : Nat) : RegularLengths (t.drop k) := by
  intro o tail q hhead hfind hnumber
  rw [List.drop_drop] at hhead hfind hnumber
  exact h (k + o) tail q hhead hfind hnumber

theorem parseLineFuel_reads (hreg : RegularLengths resp)
    (h : parseLineFuel fuel resp = .value v nextLine) :
    ∃ n c text rest, fuel = n + 1 ∧ resp = c :: (text ++ crlf ++ rest) ∧
      stringFind resp crlf 2 = some (text.length + 2) ∧
      LineRead (parseLineFuel n) text rest c v nextLine := by
  obtain ⟨n, c, text, rest, hfuel, rfl, hfind, hline⟩ := parseLineFuel_eq h
  refine ⟨n, c, text, rest, hfuel, rfl, hfind, ?_⟩
  unfold lineResult at hline
  dsimp only at hline
  split at hline
  next h43 =>
    subst h43
    obtain ⟨rfl, rfl⟩ := LineResult.value.inj hline
    exact .simple
  split at hline
  next => cases hline
  split at hline
  next h58 =>
    subst h58
    split at hline
    next q _ =>
      obtain ⟨rfl, rfl⟩ := LineResult.value.inj hline
      exact .integer q
    next => cases hline
  split at hline
  next h36 =>
    subst h36
    split at hline
    next => cases hline
    next len hlen =>
      have hkind := hreg 0 (text.length + 2) len rfl hfind (by
        rw [List.drop_zero]
        exact (congrArg tonumber (stringSub_line 36 text rest)).trans hlen)
      split at hline
      next =>
        obtain ⟨rfl, rfl⟩ := LineResult.value.inj hline
        exact .null
      next hne =>
        obtain ⟨m, rfl⟩ := hkind.resolve_left hne
        have hmost : (stringSub (36 :: (text ++ crlf ++ rest)) (text.length + 4 : Nat)
            (text.length + 3 + m : Nat)).length ≤ m := by
          rw [stringSub_nat (by omega), List.length_drop, List.length_take]
          omega
        rw [bulk_end, luaInteger_natCast] at hline
        generalize stringSub (36 :: (text ++ crlf ++ rest)) (text.length + 4 : Nat)
          (text.length + 3 + m : Nat) = ret at hline hmost
        split at hline
        next => cases hline
        next hall =>
          obtain ⟨rfl, rfl⟩ := LineResult.value.inj hline
          have hleast : m ≤ ret.length := by
            have hle := le_of_not_gt hall
            exact_mod_cast hle
          have hnext : ((text.length + 4 : Nat) : ℚ) + (m : Nat) + 2 =
              (text.length + ret.length + 6 : Nat) := by
            rw [Nat.le_antisymm hmost hleast]
            push_cast
            ring
          rw [hnext]
          exact .bulk ret
  split at hline
  next h42 =>
    subst h42
    split at hline
    next => cases hline
    next =>
      obtain ⟨vs, rfl, -⟩ := parseArray_values hline
      exact .array hline
  next => cases hline

/-- The elements are read from lines of the bytes, one after another. -/
theorem parseArray_position {parse : Bytes → LineResult} {n : Nat} {array : List LuaValue}
    {total : ℚ} (hparse : ∀ {t v nextLine}, RegularLengths t → parse t = .value v nextLine →
      ∃ k : Nat, nextLine = k ∧ 4 ≤ k)
    (hreg : RegularLengths resp) (h : parseArray parse n array total resp = .value v nextLine) :
    ∃ k : Nat, nextLine = total + k := by
  induction n generalizing array total resp with
  | zero =>
    obtain ⟨-, rfl⟩ := LineResult.value.inj h
    exact ⟨0, by rw [Nat.cast_zero, add_zero]⟩
  | succ n ih =>
    unfold parseArray at h
    split at h
    next w next hw =>
      obtain ⟨k, rfl, hk⟩ := hparse hreg hw
      have hdrop : stringSub resp (luaInteger (k : Nat)) (-1) = resp.drop (k - 1) := by
        rw [luaInteger_natCast, stringSub_from (by omega)]
      rw [hdrop] at h
      obtain ⟨m, rfl⟩ := ih (hreg.drop _) h
      exact ⟨k + m, by push_cast; ring⟩
    next => cases h
    next => cases h

/-- A call that returns a value has read a line at least. -/
theorem parseLineFuel_position (hreg : RegularLengths resp)
    (h : parseLineFuel fuel resp = .value v nextLine) : ∃ k : Nat, nextLine = k ∧ 4 ≤ k := by
  induction fuel generalizing resp v nextLine with
  | zero => cases h
  | succ n ih =>
    obtain ⟨m, c, text, rest, hfuel, rfl, -, hline⟩ := parseLineFuel_reads hreg h
    cases hfuel
    cases hline with
    | simple => exact ⟨_, rfl, by omega⟩
    | integer q => exact ⟨_, rfl, by omega⟩
    | null => exact ⟨_, rfl, by omega⟩
    | bulk data => exact ⟨_, rfl, by omega⟩
    | array harray =>
      have hrest : RegularLengths rest := by
        have hdrop := hreg.drop (text.length + 3)
        rwa [drop_line] at hdrop
      obtain ⟨k, rfl⟩ := parseArray_position ih hrest harray
      exact ⟨text.length + 4 + k, by push_cast; ring, by omega⟩

end Regular

namespace RedisReply

theorem induction {P : RedisReply → Prop} {Q : List RedisReply → Prop}
    (hsimple : ∀ data, P (simple data)) (hinteger : ∀ n, P (integer n))
    (hbulk : ∀ data, P (bulk data)) (hnull : P nullBulk)
    (harray : ∀ replies, Q replies → P (array replies)) (hnil : Q [])
    (hcons : ∀ v vs, P v → Q vs → Q (v :: vs)) (v : RedisReply) : P v :=
  @RedisReply.rec P Q hsimple hinteger hbulk hnull harray hnil hcons v

/-- A call from the byte `o` on that returns the value ends after the reply, and further than one
byte after it where it does not begin with the reply. -/
def EndsAfter (v : RedisReply) : Prop :=
  ∀ fuel s o k, RegularLengths (v.encode ++ s) →
    parseLineFuel fuel ((v.encode ++ s).drop o) = .value v.value (k : Nat) →
    v.encode.length + 1 ≤ o + k ∧ (0 < o → v.encode.length + 1 < o + k)

/-- So does the loop, with one byte more for each element. -/
def AllEndAfter (vs : List RedisReply) : Prop :=
  ∀ fuel s o n array total k, RegularLengths (encodeAll vs ++ s) →
    parseArray (parseLineFuel fuel) n array total ((encodeAll vs ++ s).drop o) =
      .value (.array (array ++ values vs)) (total + (k : Nat)) →
    (encodeAll vs).length + vs.length ≤ o + k ∧
      (0 < o → (encodeAll vs).length + vs.length < o + k)

end RedisReply

section Ends

open RedisReply

variable {fuel o k : Nat} {s : Bytes} {v : RedisReply}

/-- Where a call begins inside of a line, the type that it finds is a byte of the line. -/
theorem drop_mem {c : UInt8} {a b : Bytes} {d : UInt8} {rest : Bytes}
    (h : (c :: (a ++ b)).drop o = d :: rest) (hpos : 0 < o) (hlt : o ≤ a.length) : d ∈ a := by
  obtain ⟨n, rfl⟩ := Nat.exists_eq_succ_of_ne_zero (Nat.ne_of_gt hpos)
  rw [Nat.succ_eq_add_one, List.drop_succ_cons, List.drop_append_of_le_length (by omega)] at h
  have hlen : 0 < (a.drop n).length := by
    rw [List.length_drop]
    omega
  obtain ⟨e, t, het⟩ := List.exists_cons_of_ne_nil (List.ne_nil_of_length_pos hlen)
  rw [het, List.cons_append] at h
  have hmem : e ∈ a.drop n := by
    rw [het]
    exact List.mem_cons_self
  rw [← (List.cons.inj h).1]
  exact List.mem_of_mem_drop hmem

/-- A type is no byte of a number or of the end of a line. -/
theorem type_notMem {c : UInt8} (hc : c = 43 ∨ c = 58 ∨ c = 36 ∨ c = 42) (n : Int) :
    c ∉ decimalInt n ++ crlf := by
  intro hmem
  rcases List.mem_append.mp hmem with hnumber | hcrlf
  · rcases mem_decimalInt hnumber with hdigit | h45
    · rcases hc with rfl | rfl | rfl | rfl <;> exact absurd hdigit (by decide)
    · rcases hc with rfl | rfl | rfl | rfl <;> exact absurd h45 (by decide)
  · rcases hc with rfl | rfl | rfl | rfl <;> exact absurd hcrlf (by decide)

/-- A call from the byte `o` on begins with the line or after it. -/
theorem line_start {n : Int} {c c₀ : UInt8} {text rest more : Bytes}
    (h : (c₀ :: (decimalInt n ++ crlf ++ more)).drop o = c :: (text ++ crlf ++ rest))
    (hfind : stringFind (c :: (text ++ crlf ++ rest)) crlf 2 = some (text.length + 2))
    (hc : c = 43 ∨ c = 58 ∨ c = 36 ∨ c = 42) :
    (o = 0 ∧ c = c₀ ∧ text = decimalInt n ∧ rest = more) ∨ (decimalInt n).length + 3 ≤ o := by
  rcases Nat.eq_zero_or_pos o with hzero | hpos
  · rw [hzero, List.drop_zero] at h
    obtain ⟨rfl, hrest⟩ := List.cons.inj h
    have hfind' := stringFind_crlf c₀ (cr_notMem_decimalInt n) more
    rw [hrest, hfind] at hfind'
    have hlen : text.length = (decimalInt n).length := by
      have hsame := Option.some.inj hfind'
      omega
    rw [List.append_assoc, List.append_assoc] at hrest
    obtain ⟨htext, hmore⟩ := List.append_inj hrest.symm hlen
    exact .inl ⟨hzero, rfl, htext, List.append_cancel_left hmore⟩
  · refine .inr (Nat.le_of_not_lt fun hlt => ?_)
    have hlen : (decimalInt n ++ crlf).length = (decimalInt n).length + 2 := by simp [crlf]
    exact type_notMem hc n (drop_mem h hpos (by omega))

theorem cast_inj {j k : Nat} (h : (j : ℚ) = k) : j = k := by exact_mod_cast h

theorem simple_endsAfter (data : Bytes) : EndsAfter (.simple data) := by
  intro fuel s o k hreg h
  obtain ⟨n, c, text, rest, -, hdrop, hfind, hline⟩ := parseLineFuel_reads (hreg.drop o) h
  have hlen : (encode (.simple data)).length = data.length + 3 := by
    unfold encode
    simp [crlf]
  generalize hv : (RedisReply.simple data).value = v at hline
  generalize hk : ((k : Nat) : ℚ) = next at hline
  cases hline with
  | simple =>
    obtain rfl := LuaValue.string.inj hv
    have hnext := cast_inj hk
    omega
  | bulk d =>
    obtain rfl := LuaValue.string.inj hv
    have hnext := cast_inj hk
    omega
  | integer q => cases hv
  | null => cases hv
  | array harray => cases hv

theorem integer_endsAfter (m : Int) : EndsAfter (.integer m) := by
  intro fuel s o k hreg h
  obtain ⟨n, c, text, rest, -, hdrop, hfind, hline⟩ := parseLineFuel_reads (hreg.drop o) h
  have hlen : (encode (.integer m)).length = (decimalInt m).length + 3 := by
    unfold encode
    simp [crlf]
  have hbytes : encode (.integer m) ++ s = 58 :: (decimalInt m ++ crlf ++ s) := rfl
  rw [hdrop] at hfind
  rw [hbytes] at hdrop
  generalize hv : (RedisReply.integer m).value = v at hline
  generalize hk : ((k : Nat) : ℚ) = next at hline
  cases hline with
  | integer q =>
    have hnext := cast_inj hk
    rcases line_start hdrop hfind (by decide) with ⟨rfl, -, rfl, -⟩ | hafter <;> omega
  | simple => cases hv
  | bulk d => cases hv
  | null => cases hv
  | array harray => cases hv

theorem null_endsAfter : EndsAfter .nullBulk := by
  intro fuel s o k hreg h
  obtain ⟨n, c, text, rest, -, hdrop, hfind, hline⟩ := parseLineFuel_reads (hreg.drop o) h
  have hlen : (encode .nullBulk).length = (decimalInt (-1)).length + 3 := by
    unfold encode
    simp [crlf]
  have hbytes : encode .nullBulk ++ s = 36 :: (decimalInt (-1) ++ crlf ++ s) := rfl
  rw [hdrop] at hfind
  rw [hbytes] at hdrop
  generalize hv : RedisReply.nullBulk.value = v at hline
  generalize hk : ((k : Nat) : ℚ) = next at hline
  cases hline with
  | null =>
    have hnext := cast_inj hk
    rcases line_start hdrop hfind (by decide) with ⟨rfl, -, rfl, -⟩ | hafter <;> omega
  | simple => cases hv
  | bulk d => cases hv
  | integer q => cases hv
  | array harray => cases hv

theorem bulk_endsAfter (data : Bytes) : EndsAfter (.bulk data) := by
  intro fuel s o k hreg h
  obtain ⟨n, c, text, rest, -, hdrop, hfind, hline⟩ := parseLineFuel_reads (hreg.drop o) h
  have hlen := bulk_length data
  rw [← decimalInt_natCast] at hlen
  have hbytes : encode (.bulk data) ++ s =
      36 :: (decimalInt data.length ++ crlf ++ (data ++ crlf ++ s)) := by
    rw [decimalInt_natCast]
    unfold encode
    simp only [List.cons_append, List.append_assoc]
  rw [hdrop] at hfind
  rw [hbytes] at hdrop
  generalize hv : (RedisReply.bulk data).value = v at hline
  generalize hk : ((k : Nat) : ℚ) = next at hline
  cases hline with
  | simple =>
    obtain rfl := LuaValue.string.inj hv
    have hnext := cast_inj hk
    rcases line_start hdrop hfind (by decide) with ⟨-, h36, -⟩ | hafter
    · exact absurd h36 (by decide)
    · omega
  | bulk d =>
    obtain rfl := LuaValue.string.inj hv
    have hnext := cast_inj hk
    rcases line_start hdrop hfind (by decide) with ⟨rfl, -, rfl, -⟩ | hafter <;> omega
  | integer q => cases hv
  | null => cases hv
  | array harray => cases hv

theorem array_length (replies : List RedisReply) : (encode (.array replies)).length =
    (decimalInt replies.length).length + 3 + (encodeAll replies).length := by
  rw [decimalInt_natCast]
  unfold encode
  simp only [List.length_cons, List.length_append, crlf]
  simp only [List.length_nil]
  omega

/-- The position after an array has one byte more for each of its elements. -/
theorem array_ends {replies : List RedisReply} (hall : AllEndAfter replies)
    (hreg : RegularLengths (encode (.array replies) ++ s))
    (h : parseLineFuel fuel ((encode (.array replies) ++ s).drop o) =
      .value (RedisReply.array replies).value (k : Nat)) :
    (encode (.array replies)).length + replies.length + 1 ≤ o + k ∧
      (0 < o → (encode (.array replies)).length + replies.length + 1 < o + k) := by
  obtain ⟨n, c, text, rest, -, hdrop, hfind, hline⟩ := parseLineFuel_reads (hreg.drop o) h
  have hlen := array_length replies
  have hbytes : encode (.array replies) ++ s =
      42 :: (decimalInt replies.length ++ crlf ++ (encodeAll replies ++ s)) := by
    rw [decimalInt_natCast]
    unfold encode
    simp only [List.cons_append, List.append_assoc]
  rw [hdrop] at hfind
  rw [hbytes] at hdrop hreg
  have hreg' : RegularLengths (encodeAll replies ++ s) := by
    have hrest := hreg.drop ((decimalInt replies.length).length + 3)
    rwa [drop_line] at hrest
  generalize hv : (RedisReply.array replies).value = v at hline
  generalize hk : ((k : Nat) : ℚ) = next at hline
  cases hline with
  | array harray =>
    obtain rfl := LuaValue.array.inj hv
    have hstart := line_start hdrop hfind (by decide)
    have hbegin : (decimalInt replies.length).length ≤ o + text.length := by
      rcases hstart with ⟨-, -, htext, -⟩ | hafter
      · rw [htext]
        omega
      · omega
    -- the elements are read from `rest` on, which is a part of those of the array
    have hrest : rest = (encodeAll replies ++ s).drop
        (o + text.length - (decimalInt replies.length).length) := by
      have hline := congrArg (List.drop (text.length + 3)) hdrop
      rw [drop_line, List.drop_drop] at hline
      have hsplit : o + (text.length + 3) = (decimalInt replies.length).length + 3 +
          (o + text.length - (decimalInt replies.length).length) := by omega
      rw [← hline, hsplit, ← List.drop_drop, drop_line]
    have hrestReg : RegularLengths rest := by
      rw [hrest]
      exact hreg'.drop _
    obtain ⟨m, hm⟩ := parseArray_position (fun hr hp => parseLineFuel_position hr hp) hrestReg harray
    have hnext : k = text.length + 4 + m := by
      rw [hm] at hk
      exact_mod_cast hk
    rw [hrest, hm] at harray
    have hends := hall n s _ _ [] _ m hreg' harray
    rcases hstart with ⟨rfl, -, htext, -⟩ | hafter
    · rw [htext] at hends hnext
      omega
    · omega
  | simple => cases hv
  | bulk d => cases hv
  | integer q => cases hv
  | null => cases hv

theorem array_endsAfter (replies : List RedisReply) (hall : AllEndAfter replies) :
    EndsAfter (.array replies) := by
  intro fuel s o k hreg h
  have hends := array_ends hall hreg h
  omega

theorem nil_allEndAfter : AllEndAfter [] := by
  intro fuel s o n array total k _ _
  have hlen : (encodeAll []).length + ([] : List RedisReply).length = 0 := rfl
  omega

theorem cons_allEndAfter (v : RedisReply) (vs : List RedisReply) (hv : EndsAfter v)
    (hvs : AllEndAfter vs) : AllEndAfter (v :: vs) := by
  intro fuel s o n array total k hreg h
  have hbytes : encodeAll (v :: vs) ++ s = v.encode ++ (encodeAll vs ++ s) := by
    rw [← List.append_assoc]
    rfl
  have hlen : (encodeAll (v :: vs)).length = v.encode.length + (encodeAll vs).length :=
    List.length_append
  rw [hbytes] at hreg h
  cases n with
  | zero =>
    have hnone := LuaValue.array.inj (LineResult.value.inj h).1
    have hnil := (List.append_cancel_left ((List.append_nil array).trans hnone)).symm
    exact absurd hnil (List.cons_ne_nil v.value (values vs))
  | succ n =>
    unfold parseArray at h
    split at h
    next w next hw =>
      obtain ⟨j, rfl, hj⟩ := parseLineFuel_position (hreg.drop o) hw
      have hvalue : w = v.value := by
        obtain ⟨more, hmore, -⟩ := parseArray_values h
        have hsame := LuaValue.array.inj hmore
        rw [List.append_assoc] at hsame
        exact (List.cons.inj (List.append_cancel_left hsame)).1.symm
      subst hvalue
      have hend := hv fuel _ o j hreg hw
      -- the next element is read from where this one is said to end
      have hdrop : stringSub ((v.encode ++ (encodeAll vs ++ s)).drop o) (luaInteger (j : Nat)) (-1) =
          (encodeAll vs ++ s).drop (o + j - 1 - v.encode.length) := by
        have hsplit : o + (j - 1) = v.encode.length + (o + j - 1 - v.encode.length) := by omega
        rw [luaInteger_natCast, stringSub_from (by omega), List.drop_drop, hsplit, ← List.drop_drop,
          List.drop_left]
      have hrest : RegularLengths (encodeAll vs ++ s) := by
        have hafter := hreg.drop v.encode.length
        rwa [List.drop_left] at hafter
      rw [hdrop] at h
      obtain ⟨m, hm⟩ := parseArray_position (fun hr hp => parseLineFuel_position hr hp)
        (hrest.drop _) h
      have hk : k = j + m := by
        have hsum : (k : ℚ) = j + m := by linarith
        exact_mod_cast hsum
      have hvalues : array ++ values (v :: vs) = array ++ [v.value] ++ values vs := by
        rw [List.append_assoc]
        rfl
      rw [hm, hvalues] at h
      have hends := hvs fuel s _ n _ _ m hrest h
      rw [hlen, List.length_cons]
      omega
    next => cases h
    next => cases h

/-- Replies are read to their ends and further. -/
theorem reply_endsAfter (v : RedisReply) : EndsAfter v :=
  RedisReply.induction simple_endsAfter integer_endsAfter bulk_endsAfter null_endsAfter
    array_endsAfter nil_allEndAfter cons_allEndAfter v

theorem replies_endAfter (vs : List RedisReply) : AllEndAfter vs := by
  induction vs with
  | nil => exact nil_allEndAfter
  | cons v vs ih => exact cons_allEndAfter v vs (reply_endsAfter v) ih

end Ends

/-- A reply is decoded where it is a scalar that a double does not round, or the empty array before
a suffix whose second byte is `0`. An array with elements is not, unless a negative length in the
bytes takes back what the positions of its elements have too much. -/
theorem decodes_reply_iff {v : RedisReply} {s : Bytes} (hv : v.WellFormed)
    (hreg : ∀ w ws, v = .array (w :: ws) → RegularLengths (v.encode ++ s)) :
    DecodesReply v s ↔ Decodable v s := by
  by_cases hscalar : ∀ replies, v ≠ .array replies
  · exact scalar_decodes_iff hv hscalar
  simp only [ne_eq, not_forall, Classical.not_not] at hscalar
  obtain ⟨replies, rfl⟩ := hscalar
  cases replies with
  | nil => exact empty_decodes_iff s
  | cons w ws =>
    refine iff_of_false (fun h => ?_) id
    have hends := (array_ends (o := 0) (replies_endAfter (w :: ws)) (hreg w ws rfl) h).1
    rw [List.length_cons] at hends
    omega

theorem regularLengths_of_notMem {t : Bytes} (h : 36 ∉ t) : RegularLengths t := by
  intro o tail q hhead _ _
  exact absurd (List.mem_of_mem_drop (List.mem_of_mem_head? hhead)) h

/-- The length -11 makes up for the three elements of the inner array and the three of the outer
one. -/
example :
    let v : RedisReply :=
      .array [.integer 3, .array [.integer 3, .integer 3, .integer 3], .simple []]
    DecodesReply v (bytes "$-11" ++ crlf) := by
  with_unfolding_all rfl

/-- `*1\r\n:1\r\n` -/
def oneInteger : RedisReply := .array [.integer 1]

theorem decodes_reply_iff_one :
    DecodesReply oneInteger [] ↔ Decodable oneInteger [] := by
  have hreg : RegularLengths (oneInteger.encode ++ []) := by
    apply regularLengths_of_notMem
    decide
  exact decodes_reply_iff ⟨trivial, trivial⟩ fun _ _ _ => hreg

/-- The array is returned with the position 10, and it ends before 9. -/
theorem oneInteger_position :
    oneInteger.WellFormed ∧ parseLine (oneInteger.encode ++ []) = .value oneInteger.value 10 ∧
      oneInteger.encode.length + 1 = 9 ∧ ¬ DecodesReply oneInteger [] := by
  have hparse : parseLine (oneInteger.encode ++ []) = .value oneInteger.value 10 := by
    with_unfolding_all rfl
  refine ⟨⟨trivial, trivial⟩, hparse, rfl, fun h => ?_⟩
  have hsame := (LineResult.value.inj (hparse.symm.trans h)).2
  exact absurd hsame (by decide)

end Phorklift
