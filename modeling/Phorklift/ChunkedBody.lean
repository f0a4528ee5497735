import Phorklift.HttpMessage
import Mathlib.Data.Nat.Digits.Defs
import Mathlib.Tactic.IntervalCases

/-! Chunked bodies whose sizes may be followed by blanks. -/

namespace Http

/-- The size on a chunk's first line: hexadecimal digits, blanks, then nothing or an extension. -/
def chunkSize (line : List UInt8) : Option Nat :=
  let digits := line.takeWhile fun c => (hexValue c).isSome
  match (line.drop digits.length).dropWhile isBlank with
  | [] | 59 :: _ => parseHex digits
  | _ => none

/-- The data of a chunked body, without its trailer, and the bytes after it. -/
def decodeChunks : Nat → List UInt8 → Option (List UInt8 × List UInt8)
  | 0, _ => none
  | fuel + 1, s => do
    let (line, rest) ← takeLine s
    let size ← chunkSize line
    if size = 0 then do
      let (_, rest) ← parseFields fuel rest
      some ([], rest)
    else match rest.drop size with
    | 13 :: 10 :: next => do
      let (data, rest') ← decodeChunks fuel next
      some (rest.take size ++ data, rest')
    | _ => none

def dechunk (s : List UInt8) : Option (List UInt8 × List UInt8) := decodeChunks (s.length + 1) s

/-- `%x` -/
def hexadecimal (n : Nat) : List UInt8 :=
  (Nat.toDigits 16 n).map fun c => UInt8.ofNat c.toNat

section Hexadecimal

theorem hexValue_digitChar {d : Nat} (hd : d < 16) :
    hexValue (UInt8.ofNat (Nat.digitChar d).toNat) = some d := by
  interval_cases d <;> rfl

theorem hexadecimal_of_lt {n : Nat} (h : n < 16) :
    hexadecimal n = [UInt8.ofNat (Nat.digitChar n).toNat] := by
  unfold hexadecimal
  rw [Nat.toDigits_of_lt_base h]
  rfl

theorem hexadecimal_of_le {n : Nat} (h : 16 ≤ n) : hexadecimal n =
    hexadecimal (n / 16) ++ [UInt8.ofNat (Nat.digitChar (n % 16)).toNat] := by
  unfold hexadecimal
  rw [Nat.toDigits_of_base_le (by decide) h, List.map_append]
  rfl

theorem hexadecimal_ne_nil (n : Nat) : hexadecimal n ≠ [] := by
  unfold hexadecimal
  simp [Nat.toDigits_ne_nil]

theorem hexValue_of_mem_hexadecimal {n : Nat} {c : UInt8} (h : c ∈ hexadecimal n) :
    (hexValue c).isSome = true := by
  induction n using Nat.strongRecOn with
  | ind n ih =>
    rcases Nat.lt_or_ge n 16 with hn | hn
    · rw [hexadecimal_of_lt hn, List.mem_singleton] at h
      rw [h, hexValue_digitChar hn]
      rfl
    · rw [hexadecimal_of_le hn] at h
      rcases List.mem_append.mp h with h | h
      · exact ih (n / 16) (by omega) h
      · rw [List.mem_singleton] at h
        rw [h, hexValue_digitChar (Nat.mod_lt n (by decide))]
        rfl

theorem parseHex_hexadecimal (n : Nat) : parseHex (hexadecimal n) = some n := by
  have hfold : (hexadecimal n).foldlM (fun n c => (hexValue c).map fun d => n * 16 + d) 0 =
      some n := by
    induction n using Nat.strongRecOn with
    | ind n ih =>
      rcases Nat.lt_or_ge n 16 with hn | hn
      · rw [hexadecimal_of_lt hn]
        simp [hexValue_digitChar hn]
      · have hdiv := ih (n / 16) (by omega)
        have hmod : n % 16 < 16 := Nat.mod_lt n (by decide)
        have hsplit : n / 16 * 16 + n % 16 = n := by omega
        rw [hexadecimal_of_le hn, List.foldlM_append, hdiv]
        simp [hexValue_digitChar hmod, hsplit]
  unfold parseHex
  rw [if_neg (hexadecimal_ne_nil n)]
  exact hfold

/-- Eight digits are enough below `2 ^ 32`. -/
theorem hexadecimal_length {n k : Nat} (hk : 0 < k) (h : n < 16 ^ k) :
    (hexadecimal n).length ≤ k := by
  induction k generalizing n with
  | zero => omega
  | succ k ih =>
    rcases Nat.lt_or_ge n 16 with hn | hn
    · rw [hexadecimal_of_lt hn]
      simp
    · have hpos : 0 < k := by
        rcases Nat.eq_zero_or_pos k with rfl | hpos
        · omega
        · exact hpos
      have hdiv : n / 16 < 16 ^ k := by
        rw [Nat.pow_succ] at h
        omega
      have hlen := ih hpos hdiv
      rw [hexadecimal_of_le hn, List.length_append, List.length_singleton]
      omega

end Hexadecimal

/-- The size is read through the blanks after it. -/
theorem chunkSize_hexadecimal (n : Nat) {blanks : List UInt8} (h : ∀ c ∈ blanks, c = 32) :
    chunkSize (hexadecimal n ++ blanks) = some n := by
  have hstop : ∀ c ∈ blanks.head?, (hexValue c).isSome = false := by
    intro c hc
    rw [h c (List.mem_of_mem_head? hc)]
    rfl
  obtain ⟨htake, -⟩ := takeWhile_stop (p := fun c => (hexValue c).isSome)
    (fun c hc => hexValue_of_mem_hexadecimal hc) hstop
  have hblank : blanks.dropWhile isBlank = [] := by
    refine List.dropWhile_eq_nil_iff.mpr fun c hc => ?_
    rw [h c hc]
    rfl
  unfold chunkSize
  dsimp only
  rw [htake, List.drop_left, hblank]
  exact parseHex_hexadecimal n

section Chunks

variable {line data rest next : List UInt8} {fuel size : Nat}

theorem decodeChunks_chunk (hline : 13 ∉ line) (hsize : chunkSize line = some data.length)
    (hdata : data ≠ []) : decodeChunks (fuel + 1) (line ++ crlf ++ (data ++ crlf ++ next)) =
      (decodeChunks fuel next).map fun p => (data ++ p.1, p.2) := by
  have hpos : data.length ≠ 0 := fun h0 => hdata (List.length_eq_zero_iff.mp h0)
  have hdrop : (data ++ crlf ++ next).drop data.length = 13 :: 10 :: next := by
    rw [List.append_assoc, List.drop_left]
    rfl
  have htake : (data ++ crlf ++ next).take data.length = data := by
    rw [List.append_assoc, List.take_left]
  rw [decodeChunks, takeLine_append hline]
  simp only [bind, Option.bind, hsize, if_neg hpos, hdrop, htake]
  cases decodeChunks fuel next <;> rfl

theorem decodeChunks_last (hline : 13 ∉ line) (hsize : chunkSize line = some 0) :
    decodeChunks (fuel + 2) (line ++ crlf ++ (crlf ++ rest)) = some ([], rest) := by
  have hfields : parseFields (fuel + 1) (crlf ++ rest) = some ([], rest) := by
    have hempty : takeLine (crlf ++ rest) = some ([], rest) := by
      have h : takeLine ([] ++ crlf ++ rest) = some ([], rest) := takeLine_append (by simp) rest
      simpa using h
    rw [parseFields, hempty]
    rfl
  rw [decodeChunks, takeLine_append hline]
  simp only [bind, Option.bind, hsize, if_pos, hfields]

end Chunks

/-- How a sender writes the size of a chunk. -/
def SizeLine (line : Nat → List UInt8) : Prop := ∀ n, 13 ∉ line n ∧ chunkSize (line n) = some n

def chunk (line : Nat → List UInt8) (data : List UInt8) : List UInt8 :=
  line data.length ++ crlf ++ (data ++ crlf)

/-- The end of a chunked body: an empty chunk, after the last one that is not empty. -/
def lastChunk (line : Nat → List UInt8) (data : List UInt8) : List UInt8 :=
  chunk line data ++ if data = [] then [] else 48 :: crlf ++ crlf

section Encode

variable {line : Nat → List UInt8} {pieces : List (List UInt8)} {last rest : List UInt8}
  {fuel : Nat}

theorem length_le_chunks (line : Nat → List UInt8) (pieces : List (List UInt8)) :
    pieces.length ≤ (pieces.flatMap (chunk line)).length := by
  induction pieces with
  | nil => simp
  | cons data pieces ih =>
    rw [List.flatMap_cons, List.length_append, List.length_cons]
    simp only [chunk, crlf, List.length_append, List.length_cons, List.length_nil]
    omega

/-- The end of a body has at least an empty line and one before it. -/
theorem four_le_lastChunk (line : Nat → List UInt8) (last : List UInt8) :
    4 ≤ (lastChunk line last).length := by
  simp only [lastChunk, chunk, crlf, List.length_append, List.length_cons, List.length_nil]
  omega

theorem decodeChunks_empty (hline : SizeLine line) :
    decodeChunks (fuel + 2) (chunk line [] ++ rest) = some ([], rest) := by
  have h : decodeChunks (fuel + 2) (line 0 ++ crlf ++ (crlf ++ rest)) = some ([], rest) :=
    decodeChunks_last (hline 0).1 (hline 0).2
  simpa [chunk] using h

theorem decodeChunks_pieces (hline : SizeLine line) (hne : ∀ data ∈ pieces, data ≠ []) :
    decodeChunks (fuel + pieces.length) (pieces.flatMap (chunk line) ++ rest) =
      (decodeChunks fuel rest).map fun p => (pieces.flatten ++ p.1, p.2) := by
  induction pieces with
  | nil => simp
  | cons data pieces ih =>
    have hdata := hne data List.mem_cons_self
    have hrest := ih fun d hd => hne d (List.mem_cons_of_mem data hd)
    have hsplit : (data :: pieces).flatMap (chunk line) ++ rest = line data.length ++ crlf ++
        (data ++ crlf ++ (pieces.flatMap (chunk line) ++ rest)) := by simp [chunk]
    have hfuel : fuel + (data :: pieces).length = fuel + pieces.length + 1 := by
      rw [List.length_cons]
      omega
    rw [hsplit, hfuel, decodeChunks_chunk (hline data.length).1 (hline data.length).2 hdata, hrest,
      Option.map_map]
    congr 1
    funext p
    simp

theorem decodeChunks_lastChunk (hline : SizeLine line) (fuel : Nat) (last rest : List UInt8) :
    decodeChunks (fuel + 3) (lastChunk line last ++ rest) = some (last, rest) := by
  unfold lastChunk
  by_cases hlast : last = []
  · rw [if_pos hlast, List.append_nil, hlast]
    exact decodeChunks_empty hline
  · have hzero : chunkSize [48] = some 0 := rfl
    have hsplit : chunk line last ++ (48 :: crlf ++ crlf) ++ rest = line last.length ++ crlf ++
        (last ++ crlf ++ ([48] ++ crlf ++ (crlf ++ rest))) := by simp [chunk]
    rw [if_neg hlast, hsplit, decodeChunks_chunk (hline last.length).1 (hline last.length).2 hlast,
      decodeChunks_last (by simp) hzero]
    simp

/-- A body ends where the first empty piece is. -/
theorem dechunk_iff (hline : SizeLine line) :
    dechunk (pieces.flatMap (chunk line) ++ lastChunk line last) =
      some (pieces.flatten ++ last, []) ↔ ∀ data ∈ pieces, data ≠ [] := by
  have hlast := four_le_lastChunk line last
  constructor
  · intro h data hdata hempty
    rw [hempty] at hdata
    obtain ⟨before, after, hsplit, hbefore⟩ := List.eq_append_cons_of_mem hdata
    have hne : ∀ data ∈ before, data ≠ [] := fun d hd h0 => hbefore (h0 ▸ hd)
    have hcount := length_le_chunks line before
    have hbytes : pieces.flatMap (chunk line) ++ lastChunk line last =
        before.flatMap (chunk line) ++
          (chunk line [] ++ (after.flatMap (chunk line) ++ lastChunk line last)) := by
      rw [hsplit]
      simp
    have hfuel : ∃ fuel, (pieces.flatMap (chunk line) ++ lastChunk line last).length + 1 =
        fuel + 2 + before.length := by
      refine ⟨(pieces.flatMap (chunk line) ++ lastChunk line last).length - before.length - 1, ?_⟩
      rw [hbytes]
      simp only [List.length_append]
      omega
    obtain ⟨fuel, hfuel⟩ := hfuel
    unfold dechunk at h
    rw [hfuel, hbytes, decodeChunks_pieces hline hne, decodeChunks_empty hline] at h
    have hrest := congrArg List.length (Prod.mk.inj (Option.some.inj h)).2
    simp only [List.length_append, List.length_nil] at hrest
    omega
  · intro hne
    have hcount := length_le_chunks line pieces
    have hfuel : ∃ fuel, (pieces.flatMap (chunk line) ++ lastChunk line last).length + 1 =
        fuel + 3 + pieces.length := by
      refine ⟨(pieces.flatMap (chunk line) ++ lastChunk line last).length - pieces.length - 2, ?_⟩
      simp only [List.length_append]
      omega
    obtain ⟨fuel, hfuel⟩ := hfuel
    have hend := decodeChunks_lastChunk hline fuel last []
    rw [List.append_nil] at hend
    unfold dechunk
    rw [hfuel, decodeChunks_pieces hline hne, hend]
    rfl

end Encode

end Http
