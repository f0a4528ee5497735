import Mathlib.Data.List.Basic

/-! A buffer that holds a string which ends with a NUL, used through indices that are checked. -/

namespace StringBuffer

/-- How the use of a buffer fails: with an index outside of it, or in a loop that does not end in
its number of turns. -/
inductive Fault
  | outside (i : Int)
  | unfinished
  deriving DecidableEq

/-- `buf[i]` -/
def read (buf : List UInt8) (i : Int) : Except Fault UInt8 :=
  if 0 ≤ i ∧ i < buf.length then .ok (buf.getD i.toNat 0) else .error (.outside i)

/-- `buf[i] = c` -/
def write (buf : List UInt8) (i : Int) (c : UInt8) : Except Fault (List UInt8) :=
  if 0 ≤ i ∧ i < buf.length then .ok (buf.set i.toNat c) else .error (.outside i)

/-- The bytes up to the NUL, of what is at `i`. -/
def stringAt : List UInt8 → Int → Except Fault (List UInt8)
  | [], i => .error (.outside i)
  | c :: rest, i => if c = 0 then .ok [] else (stringAt rest (i + 1)).map (c :: ·)

/-- The string that begins at `buf + i`. -/
def string (buf : List UInt8) (i : Int) : Except Fault (List UInt8) :=
  if 0 ≤ i then stringAt (buf.drop i.toNat) i else .error (.outside i)

def find (c : UInt8) : List UInt8 → Nat → Except Fault (Option Nat)
  | [], i => .error (.outside i)
  | b :: rest, i => if b = c then .ok (some i) else if b = 0 then .ok none else find c rest (i + 1)

/-- `strchr(buf + i, c)` -/
def strchr (buf : List UInt8) (c : UInt8) (i : Nat) : Except Fault (Option Nat) :=
  find c (buf.drop i) i

/-- `strrchr(buf, c)` -/
def strrchr (buf : List UInt8) (c : UInt8) : Except Fault (Option Nat) :=
  (string buf 0).map fun s => (s.reverse.findIdx? (· == c)).map (s.length - 1 - ·)

variable {s rest : List UInt8} {c : UInt8} {i : Nat}

@[simp] theorem ok_bind {α β : Type} (a : α) (f : α → Except Fault β) : (Except.ok a >>= f) = f a :=
  rfl

@[simp] theorem error_bind {α β : Type} (e : Fault) (f : α → Except Fault β) :
    (Except.error e >>= f) = .error e :=
  rfl

theorem write_inside {buf : List UInt8} (h : i < buf.length) (c : UInt8) :
    write buf i c = .ok (buf.set i c) := by
  unfold write
  rw [if_pos (by omega), Int.toNat_natCast]

theorem read_inside {buf : List UInt8} (h : i < buf.length) :
    read buf i = .ok (buf.getD i 0) := by
  unfold read
  rw [if_pos (by omega), Int.toNat_natCast]

theorem write_outside {buf : List UInt8} {i : Int} (h : i < 0 ∨ buf.length ≤ i) (c : UInt8) :
    write buf i c = .error (.outside i) := by
  unfold write
  rw [if_neg (by omega)]

theorem read_outside {buf : List UInt8} {i : Int} (h : i < 0 ∨ buf.length ≤ i) :
    read buf i = .error (.outside i) := by
  unfold read
  rw [if_neg (by omega)]

theorem stringAt_append (h : 0 ∉ s) (i : Int) : stringAt (s ++ 0 :: rest) i = .ok s := by
  induction s generalizing i with
  | nil => rfl
  | cons b s ih =>
    rw [List.mem_cons, not_or] at h
    have hb : ¬b = 0 := fun heq => h.1 heq.symm
    rw [List.cons_append]
    unfold stringAt
    rw [if_neg hb, ih h.2]
    rfl

/-- The string from an index in it on. -/
theorem string_append (h : 0 ∉ s) (hi : i ≤ s.length) :
    string (s ++ 0 :: rest) i = .ok (s.drop i) := by
  have hdrop : 0 ∉ s.drop i := fun hmem => h (List.mem_of_mem_drop hmem)
  unfold string
  rw [if_pos (by omega), Int.toNat_natCast, List.drop_append_of_le_length hi, stringAt_append hdrop]

theorem find_append (h : 0 ∉ s) (hc : c ≠ 0) (i : Nat) :
    find c (s ++ 0 :: rest) i = .ok ((s.findIdx? (· == c)).map (i + ·)) := by
  induction s generalizing i with
  | nil =>
    have hne : ¬(0 : UInt8) = c := fun heq => hc heq.symm
    rw [List.nil_append]
    unfold find
    rw [if_neg hne, if_pos rfl]
    rfl
  | cons b s ih =>
    rw [List.mem_cons, not_or] at h
    have hb : ¬b = 0 := fun heq => h.1 heq.symm
    rw [List.cons_append, List.findIdx?_cons]
    unfold find
    by_cases hbc : b = c
    · rw [if_pos hbc, if_pos (beq_iff_eq.mpr hbc)]
      rfl
    · rw [if_neg hbc, if_neg hb, if_neg (mt beq_iff_eq.mp hbc), ih h.2, Option.map_map]
      congr 2
      funext j
      show i + 1 + j = i + (j + 1)
      omega

theorem strchr_append (h : 0 ∉ s) (hc : c ≠ 0) (hi : i ≤ s.length) :
    strchr (s ++ 0 :: rest) c i = .ok (((s.drop i).findIdx? (· == c)).map (i + ·)) := by
  have hdrop : 0 ∉ s.drop i := fun hmem => h (List.mem_of_mem_drop hmem)
  unfold strchr
  rw [List.drop_append_of_le_length hi, find_append hdrop hc]

theorem strrchr_append (h : 0 ∉ s) : strrchr (s ++ 0 :: rest) c =
    .ok ((s.reverse.findIdx? (· == c)).map (s.length - 1 - ·)) := by
  have hstring : string (s ++ 0 :: rest) (0 : Nat) = .ok (s.drop 0) :=
    string_append h (Nat.zero_le _)
  unfold strrchr
  rw [Int.natCast_zero, List.drop_zero] at hstring
  rw [hstring]
  rfl

end StringBuffer
