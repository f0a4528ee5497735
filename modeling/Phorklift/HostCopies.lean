import Phorklift.HostLocate
import Phorklift.RequestSteps
import Phorklift.StringBuffer

/-! The copies of a hostname in which `phl_conf_host_locate` looks for wildcards. -/

namespace Phorklift

open StringBuffer (Fault)

/-- The loop over the dots of `pre_name`, where `p` is the position behind the last one. -/
def preNameLoop (dict : List (Bytes × HostId)) : Nat → Bytes → Nat → Except Fault (Option HostId)
  | 0, _, _ => .error .unfinished
  | fuel + 1, preName, p => do
    match ← StringBuffer.strchr preName 46 p with
    | none => .ok none
    | some p =>
      let preName ← StringBuffer.write preName (p - 1) 42
      let key ← StringBuffer.string preName (p - 1)
      match dict.lookup key with
      | some host => .ok (some host)
      | none => preNameLoop dict fuel preName (p + 1)

/-- The loop over the dots of `sub_name`. -/
def subNameLoop (dict : List (Bytes × HostId)) : Nat → Bytes → Except Fault (Option HostId)
  | 0, _ => .error .unfinished
  | fuel + 1, subName => do
    match ← StringBuffer.strrchr subName 46 with
    | none => .ok none
    | some p =>
      let subName ← StringBuffer.write subName (p + 1) 42
      let subName ← StringBuffer.write subName (p + 2) 0
      let key ← StringBuffer.string subName 0
      match dict.lookup key with
      | some host => .ok (some host)
      | none => do
        let subName ← StringBuffer.write subName p 0
        subNameLoop dict fuel subName

/-- What `strcpy` makes of the copy. -/
def strcpyName (name : Bytes) : Bytes := name ++ [0]

def preNameLocate (t : HostTable) (name : Bytes) : Except Fault (Option HostId) := do
  let first ← StringBuffer.read (strcpyName name) 0
  preNameLoop t.hostDict (name.length + 1) (strcpyName name) (if first = 46 then 1 else 0)

def subNameLocate (t : HostTable) (name : Bytes) : Except Fault (Option HostId) := do
  let nameLen := toInt name.length
  let last ← StringBuffer.read (strcpyName name) (nameLen - 1)
  let subName ←
    if last = 46 then StringBuffer.write (strcpyName name) (nameLen - 1) 0
    else .ok (strcpyName name)
  subNameLoop t.hostDict (name.length + 1) subName

/-- `phl_conf_host_locate` with every index into its copies checked, and no more turns of a loop
than the name has bytes and one. -/
def phlConfHostLocateChecked (t : HostTable) (name : Bytes) : Except Fault (Option HostId) :=
  let name := cstr name
  match t.hostDict.lookup name with
  | some host => .ok (some host)
  | none => do
    match ← (if t.anyPrefixHostname then preNameLocate t name else .ok none) with
    | some host => .ok (some host)
    | none =>
      match ← (if t.anySubfixHostname then subNameLocate t name else .ok none) with
      | some host => .ok (some host)
      | none => .ok t.hostWildcard

/-- No index is outside of the copies, which are as long as the hostname with its NUL, and the loops
end. -/
def LocatesInside (t : HostTable) (name : Bytes) : Prop :=
  ∃ r, phlConfHostLocateChecked t name = .ok r

/-- A hostname with a tail wildcard is listed. -/
def HasTail (hosts : HostList) : Prop :=
  ∃ e ∈ hosts.entries, e.2 ≠ [42] ∧ isTail (hostSearchName e.2) = true

/-- `name_len - 1` is in the name, and the dot at its end is not missed there. -/
structure EndRead (name : Bytes) : Prop where
  pos : 0 < toInt name.length
  dot : name.getLast? = some 46 → name[(toInt name.length - 1).toNat]? = some 46

/-- The name without what is cut off at `name_len - 1`. -/
def cutName (name : Bytes) : Bytes :=
  if name[(toInt name.length - 1).toNat]? = some 46 then
    name.take (toInt name.length - 1).toNat
  else name

section Loops

variable {dict : List (Bytes × HostId)} {buf s rest : Bytes} {p fuel : Nat}

theorem nul_notMem_set (h : 0 ∉ buf) (i : Nat) : 0 ∉ buf.set i 42 := by
  intro hmem
  rcases List.mem_or_eq_of_mem_set hmem with hold | hstar
  · exact h hold
  · exact absurd hstar (by decide)

/-- The walk over `pre_name` is in the copy, and it is that over the name. -/
theorem preNameLoop_eq (hfuel : buf.length < p + fuel) (hnul : 0 ∉ buf) (hp : p ≤ buf.length)
    (hfirst : p = 0 → buf.head? ≠ some 46) :
    preNameLoop dict fuel (buf ++ [0]) p = .ok (locatePrefix dict fuel buf p) := by
  induction fuel generalizing buf p with
  | zero => omega
  | succ fuel ih =>
    have hchr : StringBuffer.strchr (buf ++ [0]) 46 p = .ok (strchrDot buf p) :=
      StringBuffer.strchr_append hnul (by decide) hp
    unfold preNameLoop locatePrefix
    rw [hchr, StringBuffer.ok_bind]
    cases hd : strchrDot buf p with
    | none => rfl
    | some d =>
      obtain ⟨hpd, hdot, -⟩ := strchrDot_eq_some hd
      have hdlt := (List.getElem?_eq_some_iff.mp hdot).1
      have hpos : 0 < d := by
        by_contra h0
        have hd0 : d = 0 := by omega
        rw [hd0, ← List.head?_eq_getElem?] at hdot
        exact hfirst (by omega) hdot
      have hindex : (d : Int) - 1 = (d - 1 : Nat) := by omega
      have hwrite : StringBuffer.write (buf ++ [0]) (d - 1 : Nat) 42 =
          .ok (buf.set (d - 1) 42 ++ [0]) := by
        rw [StringBuffer.write_inside (by rw [List.length_append]; omega),
          List.set_append_left _ _ (by omega)]
      have hset := nul_notMem_set hnul (d - 1)
      have hstring : StringBuffer.string (buf.set (d - 1) 42 ++ [0]) (d - 1 : Nat) =
          .ok ((buf.set (d - 1) 42).drop (d - 1)) :=
        StringBuffer.string_append hset (by rw [List.length_set]; omega)
      dsimp only
      rw [hindex, hwrite, StringBuffer.ok_bind, hstring, StringBuffer.ok_bind]
      cases dict.lookup ((buf.set (d - 1) 42).drop (d - 1)) with
      | some host => rfl
      | none =>
        dsimp only
        apply ih
        · rw [List.length_set]
          omega
        · exact hset
        · rw [List.length_set]
          omega
        · intro h0
          omega

theorem set_split {b : Bytes} {i : Nat} (h : i < b.length) (c : UInt8) :
    b.set i c = b.take i ++ c :: b.drop (i + 1) := by
  rw [List.set_eq_take_append_cons_drop, if_pos h]

/-- A turn of the walk over `sub_name` leaves the dot cut off, with bytes behind the NUL. -/
theorem subNameTurn {d : Nat} (hd : d < s.length) (hroom : d + 2 < (s ++ 0 :: rest).length) :
    ∃ rest', StringBuffer.write (s ++ 0 :: rest) (d + 1 : Nat) 42 =
        .ok (s.take (d + 1) ++ 42 :: rest') ∧
      ∃ rest'', StringBuffer.write (s.take (d + 1) ++ 42 :: rest') (d + 2 : Nat) 0 =
          .ok (s.take (d + 1) ++ [42] ++ 0 :: rest'') ∧
        StringBuffer.write (s.take (d + 1) ++ [42] ++ 0 :: rest'') d 0 =
          .ok (s.take d ++ 0 :: 42 :: 0 :: rest'') := by
  have htake : (s ++ 0 :: rest).take (d + 1) = s.take (d + 1) :=
    List.take_append_of_le_length hd
  have hlen : (s.take (d + 1)).length = d + 1 := by
    rw [List.length_take]
    omega
  refine ⟨(s ++ 0 :: rest).drop (d + 2), ?_, ((s ++ 0 :: rest).drop (d + 2)).drop 1, ?_, ?_⟩
  · rw [StringBuffer.write_inside (by omega), set_split (by omega), htake]
  · have hrest : ((s ++ 0 :: rest).drop (d + 2)).set 0 0 =
        0 :: ((s ++ 0 :: rest).drop (d + 2)).drop 1 := by
      rw [set_split (by rw [List.length_drop]; omega)]
      rfl
    rw [StringBuffer.write_inside, List.set_append_right _ _ (by omega), hlen]
    · have hsub : d + 2 - (d + 1) = 1 := by omega
      rw [hsub, List.set_cons_succ, hrest, List.append_assoc]
      rfl
    · rw [List.length_append, hlen, List.length_cons, List.length_drop]
      omega
  · have hcut : (s.take (d + 1)).take d = s.take d := by
      rw [List.take_take, Nat.min_eq_left (by omega)]
    have hdrop : (s.take (d + 1)).drop (d + 1) = [] := List.drop_eq_nil_of_le hlen.le
    rw [StringBuffer.write_inside (by rw [List.append_assoc, List.length_append]; omega),
      List.append_assoc, set_split (by rw [List.length_append]; omega),
      List.take_append_of_le_length (by omega), hcut, List.drop_append_of_le_length hlen.ge, hdrop]
    rfl

/-- The walk over `sub_name` is in the copy where the name ends before a dot at the end of it. -/
theorem subNameLoop_eq (hfuel : s.length < fuel) (hnul : 0 ∉ s)
    (hroom : rest ≠ [] ∨ s.getLast? ≠ some 46) :
    subNameLoop dict fuel (s ++ 0 :: rest) = .ok (locateSubfix dict fuel s) := by
  induction fuel generalizing s rest with
  | zero => omega
  | succ fuel ih =>
    have hchr : StringBuffer.strrchr (s ++ 0 :: rest) 46 = .ok (strrchrDot s) :=
      StringBuffer.strrchr_append hnul
    unfold subNameLoop locateSubfix
    rw [hchr, StringBuffer.ok_bind]
    cases hd : strrchrDot s with
    | none => rfl
    | some d =>
      obtain ⟨hdot, -⟩ := strrchrDot_eq_some hd
      have hdlt := (List.getElem?_eq_some_iff.mp hdot).1
      have hinside : d + 2 < (s ++ 0 :: rest).length := by
        rw [List.length_append, List.length_cons]
        rcases hroom with hrest | hlast
        · have hpos := List.length_pos_iff.mpr hrest
          omega
        · have hne : d ≠ s.length - 1 := by
            rintro rfl
            rw [← List.getLast?_eq_getElem?] at hdot
            exact hlast hdot
          omega
      obtain ⟨rest₁, hstar, rest₂, hend, hcut⟩ := subNameTurn hdlt hinside
      have hkey : 0 ∉ s.take (d + 1) ++ [42] := by
        intro hmem
        rcases List.mem_append.mp hmem with hold | hnew
        · exact hnul (List.mem_of_mem_take hold)
        · exact absurd (List.mem_singleton.mp hnew) (by decide)
      have hstring : StringBuffer.string (s.take (d + 1) ++ [42] ++ 0 :: rest₂) (0 : Nat) =
          .ok (s.take (d + 1) ++ [42]) :=
        StringBuffer.string_append hkey (Nat.zero_le _)
      dsimp only
      rw [← Int.natCast_one, ← Int.natCast_add, hstar, StringBuffer.ok_bind]
      have htwo : (d : Int) + 2 = (d + 2 : Nat) := rfl
      rw [htwo, hend, StringBuffer.ok_bind, ← Int.natCast_zero, hstring, StringBuffer.ok_bind]
      cases dict.lookup (s.take (d + 1) ++ [42]) with
      | some host => rfl
      | none =>
        dsimp only
        rw [hcut, StringBuffer.ok_bind]
        apply ih
        · rw [List.length_take]
          omega
        · exact fun hmem => hnul (List.mem_of_mem_take hmem)
        · exact .inl (List.cons_ne_nil _ _)

end Loops

section Copies

variable {t : HostTable} {name : Bytes}

theorem read_strcpyName {i : Nat} (h : i < name.length) :
    StringBuffer.read (strcpyName name) i = .ok name[i] := by
  have hcopy : (strcpyName name).length = name.length + 1 := List.length_append
  have hget : (strcpyName name)[i]? = some name[i] := by
    unfold strcpyName
    rw [List.getElem?_append_left h, List.getElem?_eq_getElem h]
  rw [StringBuffer.read_inside (by omega), List.getD_eq_getElem?_getD, hget]
  rfl

theorem preNameLocate_eq (hnul : 0 ∉ name) : preNameLocate t name =
    .ok (locatePrefix t.hostDict (name.length + 1) name
      (if name.head? = some 46 then 1 else 0)) := by
  have hloop : preNameLoop t.hostDict (name.length + 1) (name ++ [0])
      (if name.head? = some 46 then 1 else 0) =
      .ok (locatePrefix t.hostDict (name.length + 1) name
        (if name.head? = some 46 then 1 else 0)) := by
    by_cases hdot : name.head? = some 46
    · obtain ⟨rest, rfl⟩ := List.head?_eq_some_iff.mp hdot
      rw [if_pos hdot]
      apply preNameLoop_eq
      · omega
      · exact hnul
      · rw [List.length_cons]
        omega
      · intro h0
        omega
    · rw [if_neg hdot]
      apply preNameLoop_eq
      · omega
      · exact hnul
      · exact Nat.zero_le _
      · exact fun _ => hdot
  cases name with
  | nil => exact hloop
  | cons c rest =>
    have hfirst : StringBuffer.read (strcpyName (c :: rest)) (0 : Nat) = .ok c :=
      read_strcpyName (Nat.succ_pos _)
    have hif : (if c = 46 then 1 else 0) = if (c :: rest).head? = some 46 then 1 else 0 :=
      if_congr Option.some_inj.symm rfl rfl
    unfold preNameLocate
    rw [← Int.natCast_zero, hfirst, StringBuffer.ok_bind, hif]
    exact hloop

/-- What is read at `name_len - 1`, where it is in the name. -/
theorem EndRead.index (hpos : 0 < toInt name.length) :
    ∃ i, i < name.length ∧ toInt name.length - 1 = (i : Int) := by
  have hle := toInt_le name.length
  exact ⟨(toInt name.length - 1).toNat, by omega, by omega⟩

theorem subNameLocate_eq (hend : EndRead name) (hnul : 0 ∉ name) : subNameLocate t name =
    .ok (locateSubfix t.hostDict (name.length + 1) (cutName name)) := by
  obtain ⟨i, hi, hindex⟩ := EndRead.index hend.pos
  have hdot := hend.dot
  unfold subNameLocate cutName
  dsimp only
  rw [hindex, Int.toNat_natCast, List.getElem?_eq_getElem hi, Option.some.injEq] at *
  rw [read_strcpyName hi, StringBuffer.ok_bind]
  by_cases hcut : name[i] = 46
  · have hsome : some name[i] = some 46 := congrArg some hcut
    have hwrite : StringBuffer.write (strcpyName name) i 0 =
        .ok (name.take i ++ 0 :: (name.drop (i + 1) ++ [0])) := by
      unfold strcpyName
      rw [StringBuffer.write_inside (by rw [List.length_append]; omega),
        List.set_append_left _ _ hi, set_split hi, List.append_assoc]
      rfl
    rw [if_pos hcut, if_pos hsome, hwrite, StringBuffer.ok_bind]
    apply subNameLoop_eq
    · rw [List.length_take]
      omega
    · exact fun hmem => hnul (List.mem_of_mem_take hmem)
    · exact .inl (List.append_ne_nil_of_right_ne_nil _ (List.cons_ne_nil _ _))
  · have hother : ¬some name[i] = some 46 := fun heq => hcut (Option.some.inj heq)
    rw [if_neg hcut, if_neg hother, StringBuffer.ok_bind]
    apply subNameLoop_eq
    · omega
    · exact hnul
    · exact .inr fun hlast => hcut (hdot hlast)

theorem strrchrDot_last (hlast : name.getLast? = some 46) :
    strrchrDot name = some (name.length - 1) := by
  rw [List.getLast?_eq_getElem?] at hlast
  cases hd : strrchrDot name with
  | none => exact absurd hlast (strrchrDot_eq_none.mp hd _)
  | some d =>
    obtain ⟨hdot, hafter⟩ := strrchrDot_eq_some hd
    have hdlt := (List.getElem?_eq_some_iff.mp hdot).1
    have hnot : ¬d < name.length - 1 := fun hlt => hafter _ hlt hlast
    have heq : d = name.length - 1 := by omega
    rw [heq]

/-- Where the read is not in the name, or misses the dot at the end of it, an index is outside. -/
theorem subNameLocate_outside (hend : ¬EndRead name) (hnul : 0 ∉ name) :
    ∃ i, subNameLocate t name = .error (.outside i) := by
  unfold subNameLocate
  dsimp only
  by_cases hpos : 0 < toInt name.length
  · obtain ⟨i, hi, hindex⟩ := EndRead.index hpos
    obtain ⟨hlast, hmissed⟩ : name.getLast? = some 46 ∧ name[i] ≠ 46 := by
      by_contra hnot
      refine hend ⟨hpos, fun hlast => ?_⟩
      rw [hindex, Int.toNat_natCast, List.getElem?_eq_getElem hi]
      by_contra hne
      exact hnot ⟨hlast, fun heq => hne (congrArg some heq)⟩
    have hd := strrchrDot_last hlast
    have hchr : StringBuffer.strrchr (strcpyName name) 46 = .ok (some (name.length - 1)) :=
      (StringBuffer.strrchr_append hnul).trans (congrArg _ hd)
    have hcopy : (strcpyName name).length = name.length + 1 := List.length_append
    have hstar : ((name.length - 1 : Nat) : Int) + 1 = name.length := by omega
    have hpast : ((name.length - 1 : Nat) : Int) + 2 = (name.length + 1 : Nat) := by omega
    refine ⟨(name.length + 1 : Nat), ?_⟩
    rw [hindex, read_strcpyName hi, StringBuffer.ok_bind, if_neg hmissed, StringBuffer.ok_bind]
    unfold subNameLoop
    rw [hchr, StringBuffer.ok_bind]
    dsimp only
    rw [hstar, hpast, StringBuffer.write_inside (by omega), StringBuffer.ok_bind,
      StringBuffer.write_outside (by rw [List.length_set]; omega)]
    rfl
  · refine ⟨toInt name.length - 1, ?_⟩
    rw [StringBuffer.read_outside (.inl (by omega))]
    rfl

/-- Below `2 ^ 31` bytes only the empty hostname is read outside. -/
theorem endRead_iff (hlt : name.length < 2 ^ 31) : EndRead name ↔ name ≠ [] := by
  have hlen : toInt name.length = name.length := toInt_of_lt hlt
  rw [← List.length_pos_iff]
  constructor
  · intro h
    have hpos := h.pos
    omega
  · intro hpos
    refine ⟨by omega, fun hlast => ?_⟩
    have hindex : (toInt name.length - 1).toNat = name.length - 1 := by omega
    rw [hindex, ← List.getLast?_eq_getElem?]
    exact hlast

theorem cutName_eq (hne : name ≠ []) (hlt : name.length < 2 ^ 31) :
    cutName name = if name.getLast? = some 46 then name.dropLast else name := by
  have hlen : toInt name.length = name.length := toInt_of_lt hlt
  have hpos := List.length_pos_iff.mpr hne
  have hindex : (toInt name.length - 1).toNat = name.length - 1 := by omega
  unfold cutName
  rw [hindex, ← List.getLast?_eq_getElem?, List.dropLast_eq_take]

theorem nul_notMem_cstr (s : Bytes) : 0 ∉ cstr s := by
  intro hmem
  unfold cstr at hmem
  have hne := List.mem_takeWhile_imp hmem
  simp at hne

/-- What the walk over `pre_name` finds. -/
def preNameFound (t : HostTable) (name : Bytes) : Option HostId :=
  if t.anyPrefixHostname then
    locatePrefix t.hostDict (name.length + 1) name (if name.head? = some 46 then 1 else 0)
  else none

theorem preNameFound_eq (t : HostTable) (name : Bytes) :
    (if t.anyPrefixHostname then preNameLocate t (cstr name) else .ok none) =
      .ok (preNameFound t (cstr name)) := by
  unfold preNameFound
  cases t.anyPrefixHostname with
  | false => rfl
  | true => exact preNameLocate_eq (nul_notMem_cstr name)

/-- Only the walk over `sub_name` can fail. -/
theorem locateChecked_split (t : HostTable) (name : Bytes) : phlConfHostLocateChecked t name =
    match (t.hostDict.lookup (cstr name)).or (preNameFound t (cstr name)) with
    | some host => .ok (some host)
    | none =>
      if t.anySubfixHostname then (subNameLocate t (cstr name)).map (·.or t.hostWildcard)
      else .ok t.hostWildcard := by
  unfold phlConfHostLocateChecked
  dsimp only
  rw [preNameFound_eq, StringBuffer.ok_bind]
  cases t.hostDict.lookup (cstr name) with
  | some host => rfl
  | none =>
    cases preNameFound t (cstr name) with
    | some host => rfl
    | none =>
      cases t.anySubfixHostname with
      | false => rfl
      | true =>
        cases subNameLocate t (cstr name) with
        | error fault => rfl
        | ok found =>
          cases found with
          | none => rfl
          | some host => rfl

/-- What is located with checked indices is what is located. -/
theorem locateChecked_eq (t : HostTable) (hne : cstr name ≠ [])
    (hlt : (cstr name).length < 2 ^ 31) :
    phlConfHostLocateChecked t name = .ok (phlConfHostLocate t (some (cstr name))) := by
  have hend := (endRead_iff hlt).mpr hne
  have hsub := subNameLocate_eq (t := t) hend (nul_notMem_cstr name)
  have hlocate : phlConfHostLocate t (some (cstr name)) =
      (((t.hostDict.lookup (cstr name)).or (preNameFound t (cstr name))).or
        (if t.anySubfixHostname then
          locateSubfix t.hostDict ((cstr name).length + 1) (cutName (cstr name))
          else none)).or t.hostWildcard := by
    rw [cutName_eq hne hlt]
    rfl
  rw [locateChecked_split, hlocate, hsub]
  cases (t.hostDict.lookup (cstr name)).or (preNameFound t (cstr name)) with
  | some host => rfl
  | none =>
    cases t.anySubfixHostname with
    | false => rfl
    | true => rfl

/-- The loops end. -/
theorem locateChecked_ends (t : HostTable) (name : Bytes) :
    phlConfHostLocateChecked t name ≠ .error .unfinished := by
  rw [locateChecked_split]
  cases (t.hostDict.lookup (cstr name)).or (preNameFound t (cstr name)) with
  | some host => exact fun h => by cases h
  | none =>
    cases t.anySubfixHostname with
    | false => exact fun h => by cases h
    | true =>
      by_cases hend : EndRead (cstr name)
      · rw [subNameLocate_eq hend (nul_notMem_cstr name)]
        exact fun h => by cases h
      · obtain ⟨i, hsub⟩ := subNameLocate_outside (t := t) hend (nul_notMem_cstr name)
        rw [hsub]
        exact fun h => by cases h

end Copies

section Locate

variable {hosts : HostList} {t : HostTable}

/-- All indices are in the copies exactly if the read at `name_len - 1` is, or is not reached. -/
theorem host_copies_iff (h : phlConfHostRegister hosts = .ok t) (name : Bytes) :
    LocatesInside t name ↔ (∃ g, Listed hosts (cstr name) g) ∨
      (∃ s g, MatchesLeading hosts (cstr name) s g) ∨ ¬HasTail hosts ∨ EndRead (cstr name) := by
  have hreg := registered_of_register h
  have hbyPrefix : (preNameFound t (cstr name) = none →
      ∀ s g, ¬MatchesLeading hosts (cstr name) s g) ∧
      ∀ g, preNameFound t (cstr name) = some g → ∃ s, MatchesLeading hosts (cstr name) s g ∧
        ∀ s' g', MatchesLeading hosts (cstr name) s' g' → s'.length ≤ s.length :=
    hreg.byPrefix (cstr name)
  have htail : t.anySubfixHostname = true ↔ HasTail hosts := hreg.tail
  unfold LocatesInside
  rw [locateChecked_split]
  cases hexact : t.hostDict.lookup (cstr name) with
  | some g => exact iff_of_true ⟨_, rfl⟩ (.inl ⟨g, hreg.listed.mp hexact⟩)
  | none =>
    have hnot := hreg.not_listed.mp hexact
    cases hfound : preNameFound t (cstr name) with
    | some g =>
      obtain ⟨s, hs, -⟩ := hbyPrefix.2 g hfound
      exact iff_of_true ⟨_, rfl⟩ (.inr (.inl ⟨s, g, hs⟩))
    | none =>
      have hnone := hbyPrefix.1 hfound
      dsimp only [Option.none_or]
      by_cases hflag : t.anySubfixHostname = true
      · rw [if_pos hflag]
        by_cases hend : EndRead (cstr name)
        · rw [subNameLocate_eq hend (nul_notMem_cstr name)]
          exact iff_of_true ⟨_, rfl⟩ (.inr (.inr (.inr hend)))
        · obtain ⟨i, hsub⟩ := subNameLocate_outside (t := t) hend (nul_notMem_cstr name)
          rw [hsub]
          refine iff_of_false ?_ ?_
          · rintro ⟨r, hr⟩
            cases hr
          · rintro (⟨g, hg⟩ | ⟨s, g, hs⟩ | hno | hin)
            · exact hnot g hg
            · exact hnone s g hs
            · exact hno (htail.mp hflag)
            · exact hend hin
      · have hno : ¬HasTail hosts := fun hhas => hflag (htail.mpr hhas)
        rw [if_neg hflag]
        exact iff_of_true ⟨_, rfl⟩ (.inr (.inr (.inl hno)))

/-- `www.example.` is found at `www.example.*`, with the dot at its end cut off. -/
theorem host_copies_dotted : ∃ t, phlConfHostRegister exampleHosts = .ok t ∧
    LocatesInside t (bytes "www.example.") := by
  cases h : phlConfHostRegister exampleHosts with
  | error err => cases h
  | ok t =>
    have hend : EndRead (cstr (bytes "www.example.")) :=
      (endRead_iff (by decide)).mpr (by decide)
    exact ⟨t, rfl, (host_copies_iff h _).mpr (.inr (.inr (.inr hend)))⟩

/-- The hostname of an empty Host header is read before its begin. -/
theorem host_copies_empty : (phlRequestSetHost .init []).2.host = some [] ∧
    ∃ t, phlConfHostRegister [(0, [bytes "www.example.*"])] = .ok t ∧
      phlConfHostLocateChecked t [] = .error (.outside (-1)) ∧ ¬LocatesInside t [] := by
  refine ⟨rfl, ⟨[(bytes "www.example.*", 0)], none, false, true⟩, rfl, rfl, ?_⟩
  rintro ⟨r, hr⟩
  cases hr

end Locate

end Phorklift
