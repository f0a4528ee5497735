import Phorklift.Request

/-! Which Host a hostname is located to. -/

namespace Phorklift

/-- The Hosts of a Listen, with their hostnames. -/
abbrev HostList := List (HostId × List Bytes)

structure HostTable where
  hostDict : List (Bytes × HostId)
  hostWildcard : Option HostId
  anyPrefixHostname : Bool
  anySubfixHostname : Bool

/-- The name in lower case and without the tail dot. -/
def hostSearchName (name : Bytes) : Bytes :=
  let name := lower name
  if name.getLast? = some 46 then name.dropLast else name

/-- A name in lower case is its key, with the tail dot or without it. -/
theorem lower_eq_key (name : Bytes) :
    lower name = hostSearchName name ∨ lower name = hostSearchName name ++ [46] := by
  unfold hostSearchName
  dsimp only
  split
  next hdot => exact .inr (List.dropLast_append_getLast? 46 hdot).symm
  next => exact .inl rfl

/-- The check of the wildcard in a name that is not `*`. -/
def checkHostWildcard (t : HostTable) (name : Bytes) : Except String HostTable :=
  match name.idxOf? 42 with
  | none => .ok t
  | some wild =>
    if wild = 0 then
      if name[1]? ≠ some 46 then .error "leading wildcast `*` must be followed by `.`"
      else if 42 ∈ name.drop 1 then .error "at most 1 wildcast in hostname"
      else .ok { t with anyPrefixHostname := true }
    else if wild = name.length - 1 then
      if name[name.length - 2]? ≠ some 46 then
        .error "the front of tail wildcast `*` must be `.`"
      else .ok { t with anySubfixHostname := true }
    else .error "wildcast `*` is not allowed in middle of hostname"

def phlConfHostAddName (t : HostTable) (host : HostId) (name : Bytes) : Except String HostTable :=
  if name = [] then .error "invalid empty host name"
  else if name = [42] then
    if t.hostWildcard ≠ none then .error "duplicate wildcard host"
    else .ok { t with hostWildcard := some host }
  else
    let name := hostSearchName name
    match checkHostWildcard t name with
    | .error err => .error err
    | .ok t =>
      if (t.hostDict.lookup name).isSome then .error "duplicate hostname"
      else .ok { t with hostDict := (name, host) :: t.hostDict }

/-- The hostnames in the order of the two loops. -/
def HostList.entries (hosts : HostList) : List (HostId × Bytes) :=
  hosts.flatMap fun host => host.2.map (host.1, ·)

def phlConfHostRegister (hosts : HostList) : Except String HostTable :=
  hosts.entries.foldlM (fun t e => phlConfHostAddName t e.1 e.2) ⟨[], none, false, false⟩

/-- `strchr(s + p, '.')` -/
def strchrDot (s : Bytes) (p : Nat) : Option Nat :=
  ((s.drop p).findIdx? (· == 46)).map (p + ·)

/-- `strrchr(s, '.')` -/
def strrchrDot (s : Bytes) : Option Nat :=
  (s.reverse.findIdx? (· == 46)).map (s.length - 1 - ·)

/-- The walk over the dots of `pre_name` from the left; `fuel` bounds their number. -/
def locatePrefix (dict : List (Bytes × HostId)) : Nat → Bytes → Nat → Option HostId
  | 0, _, _ => none
  | fuel + 1, preName, p =>
    match strchrDot preName p with
    | none => none
    | some p =>
      let preName := preName.set (p - 1) 42
      match dict.lookup (preName.drop (p - 1)) with
      | some host => some host
      | none => locatePrefix dict fuel preName (p + 1)

/-- The walk over the dots of `sub_name` from the right. -/
def locateSubfix (dict : List (Bytes × HostId)) : Nat → Bytes → Option HostId
  | 0, _ => none
  | fuel + 1, subName =>
    match strrchrDot subName with
    | none => none
    | some p =>
      match dict.lookup (subName.take (p + 1) ++ [42]) with
      | some host => some host
      | none => locateSubfix dict fuel (subName.take p)

/-- `none` is a request without a host. -/
def phlConfHostLocate (t : HostTable) (name : Option Bytes) : Option HostId :=
  match name with
  | none => t.hostWildcard
  | some name =>
    let byPrefix := if t.anyPrefixHostname then
      locatePrefix t.hostDict (name.length + 1) name (if name.head? = some 46 then 1 else 0)
      else none
    let bySubfix := if t.anySubfixHostname then
      locateSubfix t.hostDict (name.length + 1)
        (if name.getLast? = some 46 then name.dropLast else name)
      else none
    (((t.hostDict.lookup name).or byPrefix).or bySubfix).or t.hostWildcard

/-- A Host has the hostname `s`, which is not `*`, and is found by `n`. -/
def Listed (hosts : HostList) (n : Bytes) (host : HostId) : Prop :=
  ∃ s, (host, s) ∈ hosts.entries ∧ s ≠ [42] ∧ hostSearchName s = n

/-- The hostname `*.S` is listed, where `name` is `X.S` with some `X`. -/
def MatchesLeading (hosts : HostList) (name s : Bytes) (host : HostId) : Prop :=
  (∃ x, x ≠ [] ∧ name = x ++ 46 :: s) ∧ Listed hosts (42 :: 46 :: s) host

/-- The hostname `P.*` is listed, where `name` is `P.X` with some `X`. -/
def MatchesTail (hosts : HostList) (name p : Bytes) (host : HostId) : Prop :=
  (∃ x, x ≠ [] ∧ name = p ++ 46 :: x) ∧ Listed hosts (p ++ [46, 42]) host

/-- The rule of longest match. -/
inductive Selects (hosts : HostList) (name : Bytes) : Option HostId → Prop
  | exact {host} : Listed hosts name host → Selects hosts name (some host)
  | leading {s host} : (∀ h, ¬Listed hosts name h) → MatchesLeading hosts name s host →
      (∀ s' h, MatchesLeading hosts name s' h → s'.length ≤ s.length) →
      Selects hosts name (some host)
  | tail {p host} : (∀ h, ¬Listed hosts name h) → (∀ s h, ¬MatchesLeading hosts name s h) →
      MatchesTail hosts name p host →
      (∀ p' h, MatchesTail hosts name p' h → p'.length ≤ p.length) → Selects hosts name (some host)
  | wildcard {r} : (∀ h, ¬Listed hosts name h) → (∀ s h, ¬MatchesLeading hosts name s h) →
      (∀ p h, ¬MatchesTail hosts name p h) →
      (∀ h, r = some h ↔ (h, [42]) ∈ hosts.entries) → Selects hosts name r

section Walks

variable {dict : List (Bytes × HostId)} {s name : Bytes} {p d : Nat} {host : HostId}

theorem strchrDot_eq_none : strchrDot s p = none ↔ ∀ d : Nat, p ≤ d → s[d]? ≠ some 46 := by
  unfold strchrDot
  rw [Option.map_eq_none_iff, List.findIdx?_eq_none_iff]
  constructor
  · intro h d hd hdot
    have hmem : (46 : UInt8) ∈ s.drop p := by
      rw [List.mem_iff_getElem?]
      refine ⟨d - p, ?_⟩
      rw [List.getElem?_drop, Nat.add_sub_cancel' hd, hdot]
    have hfalse := h 46 hmem
    cases hfalse
  · intro h c hc
    obtain ⟨i, hi⟩ := List.mem_iff_getElem?.mp hc
    rw [List.getElem?_drop] at hi
    have hne := h (p + i) (Nat.le_add_right p i)
    rw [hi] at hne
    simpa using hne

theorem strchrDot_eq_some (h : strchrDot s p = some d) :
    p ≤ d ∧ s[d]? = some 46 ∧ ∀ i, p ≤ i → i < d → s[i]? ≠ some 46 := by
  unfold strchrDot at h
  obtain ⟨i, hi, rfl⟩ := Option.map_eq_some_iff.mp h
  obtain ⟨hlt, hdot, hbefore⟩ := List.findIdx?_eq_some_iff_getElem.mp hi
  refine ⟨Nat.le_add_right p i, ?_, fun j hj hji hdotj => ?_⟩
  · rw [← List.getElem?_drop, List.getElem?_eq_getElem hlt, beq_iff_eq.mp hdot]
  · rw [← Nat.add_sub_cancel' hj, ← List.getElem?_drop] at hdotj
    obtain ⟨hjlt, hjdot⟩ := List.getElem?_eq_some_iff.mp hdotj
    refine hbefore (j - p) (by omega) ?_
    rw [hjdot]
    rfl

theorem strrchrDot_eq_none : strrchrDot s = none ↔ ∀ d : Nat, s[d]? ≠ some 46 := by
  unfold strrchrDot
  rw [Option.map_eq_none_iff, List.findIdx?_eq_none_iff]
  constructor
  · intro h d hdot
    have hfalse := h 46 (List.mem_reverse.mpr (List.mem_of_getElem? hdot))
    cases hfalse
  · intro h c hc
    obtain ⟨i, hi⟩ := List.mem_iff_getElem?.mp (List.mem_reverse.mp hc)
    have hne := h i
    rw [hi] at hne
    simpa using hne

theorem strrchrDot_eq_some (h : strrchrDot s = some d) :
    s[d]? = some 46 ∧ ∀ i, d < i → s[i]? ≠ some 46 := by
  unfold strrchrDot at h
  obtain ⟨i, hi, rfl⟩ := Option.map_eq_some_iff.mp h
  obtain ⟨hlt, hdot, hbefore⟩ := List.findIdx?_eq_some_iff_getElem.mp hi
  rw [List.length_reverse] at hlt
  refine ⟨?_, fun j hj hdotj => ?_⟩
  · rw [List.getElem_reverse, beq_iff_eq] at hdot
    rw [List.getElem?_eq_getElem (by omega), hdot]
  · obtain ⟨hjlt, hjdot⟩ := List.getElem?_eq_some_iff.mp hdotj
    refine hbefore (s.length - 1 - j) (by omega) ?_
    rw [List.getElem_reverse, beq_iff_eq]
    have hback : s.length - 1 - (s.length - 1 - j) = j := by omega
    simp only [hback]
    exact hjdot

/-- The buffer keeps what is right of the walk, so each look-up is of `*` and the rest of the name
from a dot on. -/
theorem locatePrefix_eq {fuel : Nat} {buf : Bytes} (hfuel : name.length < p + fuel)
    (hbuf : buf.drop p = name.drop p) (hlen : buf.length = name.length)
    (hfirst : p = 0 → name.head? ≠ some 46) :
    (locatePrefix dict fuel buf p = none →
      ∀ d, p ≤ d → name[d]? = some 46 → dict.lookup (42 :: name.drop d) = none) ∧
    ∀ h, locatePrefix dict fuel buf p = some h →
      ∃ d, p ≤ d ∧ 0 < d ∧ name[d]? = some 46 ∧ dict.lookup (42 :: name.drop d) = some h ∧
        ∀ i, p ≤ i → i < d → name[i]? = some 46 → dict.lookup (42 :: name.drop i) = none := by
  have hget : ∀ {buf : Bytes} {p i : Nat}, buf.drop p = name.drop p → p ≤ i →
      buf[i]? = name[i]? := by
    intro buf p i hdrop hi
    rw [← Nat.add_sub_cancel' hi, ← List.getElem?_drop, ← List.getElem?_drop, hdrop]
  induction fuel generalizing buf p with
  | zero =>
    refine ⟨fun _ d hd hdot => ?_, nofun⟩
    have hlt := (List.getElem?_eq_some_iff.mp hdot).1
    omega
  | succ fuel ih =>
    unfold locatePrefix
    split
    next hnone =>
      refine ⟨fun _ d hd hdot => ?_, nofun⟩
      rw [← hget hbuf hd] at hdot
      exact absurd hdot (strchrDot_eq_none.mp hnone d hd)
    next d hd =>
      obtain ⟨hpd, hdot, hbefore⟩ := strchrDot_eq_some hd
      have hdlt := (List.getElem?_eq_some_iff.mp hdot).1
      have hnamedot : name[d]? = some 46 := (hget hbuf hpd).symm.trans hdot
      have hpos : 0 < d := by
        by_contra h0
        have hd0 : d = 0 := by omega
        subst hd0
        rw [← List.head?_eq_getElem?] at hnamedot
        exact hfirst (by omega) hnamedot
      have hrest : buf.drop d = name.drop d := by
        rw [← Nat.add_sub_cancel' hpd, ← List.drop_drop, ← List.drop_drop, hbuf]
      have hstar : (buf.set (d - 1) 42).drop (d - 1) = 42 :: name.drop d := by
        rw [List.drop_set, if_neg (by omega), Nat.sub_self, ← hrest]
        have hcons := List.drop_eq_getElem_cons (l := buf) (i := d - 1) (by omega)
        rw [hcons, List.set_cons_zero, Nat.sub_add_cancel hpos]
      have hskip : ∀ i, p ≤ i → i < d → name[i]? = some 46 →
          dict.lookup (42 :: name.drop i) = none := by
        intro i hi hid hidot
        rw [← hget hbuf hi] at hidot
        exact absurd hidot (hbefore i hi hid)
      dsimp only
      rw [hstar]
      split
      next h hlook =>
        refine ⟨nofun, fun h' hh => ?_⟩
        cases hh
        exact ⟨d, hpd, hpos, hnamedot, hlook, hskip⟩
      next hlook =>
        have hdrop : (buf.set (d - 1) 42).drop (d + 1) = name.drop (d + 1) := by
          rw [List.drop_set_of_lt (by omega), ← List.drop_drop, hrest, List.drop_drop]
        obtain ⟨hnone, hsome⟩ := ih (by omega) hdrop (by rw [List.length_set, hlen]) (by omega)
        have hupto : ∀ i, p ≤ i → i < d + 1 → name[i]? = some 46 →
            dict.lookup (42 :: name.drop i) = none := by
          intro i hi hid hidot
          by_cases heq : i = d
          · rw [heq]
            exact hlook
          · exact hskip i hi (by omega) hidot
        refine ⟨fun hn i hi hidot => ?_, fun h hh => ?_⟩
        · by_cases hle : i < d + 1
          · exact hupto i hi hle hidot
          · exact hnone hn i (by omega) hidot
        · obtain ⟨e, hde, hepos, hedot, helook, hebefore⟩ := hsome h hh
          refine ⟨e, by omega, hepos, hedot, helook, fun i hi hie hidot => ?_⟩
          by_cases hle : i < d + 1
          · exact hupto i hi hle hidot
          · exact hebefore i (by omega) hie hidot

/-- The buffer is a front of the name that keeps all dots left of its end. -/
theorem locateSubfix_eq {fuel : Nat} (hfuel : s.length < fuel) :
    (locateSubfix dict fuel s = none →
      ∀ d : Nat, s[d]? = some 46 → dict.lookup (s.take (d + 1) ++ [42]) = none) ∧
    ∀ h, locateSubfix dict fuel s = some h →
      ∃ d : Nat, s[d]? = some 46 ∧ dict.lookup (s.take (d + 1) ++ [42]) = some h ∧
        ∀ i, d < i → s[i]? = some 46 → dict.lookup (s.take (i + 1) ++ [42]) = none := by
  induction fuel generalizing s with
  | zero => omega
  | succ fuel ih =>
    unfold locateSubfix
    split
    next hnone =>
      refine ⟨fun _ d hdot => ?_, nofun⟩
      exact absurd hdot (strrchrDot_eq_none.mp hnone d)
    next d hd =>
      obtain ⟨hdot, hafter⟩ := strrchrDot_eq_some hd
      have hdlt := (List.getElem?_eq_some_iff.mp hdot).1
      split
      next h hlook =>
        refine ⟨nofun, fun h' hh => ?_⟩
        cases hh
        exact ⟨d, hdot, hlook, fun i hi hidot => absurd hidot (hafter i hi)⟩
      next hlook =>
        have hleft : ∀ {i : Nat}, i < d → (s.take d)[i]? = s[i]? ∧
            (s.take d).take (i + 1) = s.take (i + 1) := by
          intro i hi
          refine ⟨List.getElem?_take_of_lt hi, ?_⟩
          rw [List.take_take, Nat.min_eq_left (by omega)]
        have hout : ∀ {i : Nat}, (s.take d)[i]? = some 46 → i < d := by
          intro i hidot
          have hlt := (List.getElem?_eq_some_iff.mp hidot).1
          rw [List.length_take] at hlt
          omega
        obtain ⟨hnone, hsome⟩ := ih (s := s.take d) (by rw [List.length_take]; omega)
        have hfrom : ∀ i, d ≤ i → s[i]? = some 46 →
            dict.lookup (s.take (i + 1) ++ [42]) = none := by
          intro i hi hidot
          by_cases heq : i = d
          · rw [heq]
            exact hlook
          · exact absurd hidot (hafter i (by omega))
        refine ⟨fun hn i hidot => ?_, fun h hh => ?_⟩
        · by_cases hlt : i < d
          · have hl := hnone hn i ((hleft hlt).1.trans hidot)
            rwa [(hleft hlt).2] at hl
          · exact hfrom i (by omega) hidot
        · obtain ⟨e, hedot, helook, heafter⟩ := hsome h hh
          have helt := hout hedot
          rw [(hleft helt).1] at hedot
          rw [(hleft helt).2] at helook
          refine ⟨e, hedot, helook, fun i hi hidot => ?_⟩
          by_cases hlt : i < d
          · have hl := heafter i hi ((hleft hlt).1.trans hidot)
            rwa [(hleft hlt).2] at hl
          · exact hfrom i (by omega) hidot

end Walks

section Register

variable {t t' : HostTable} {host : HostId} {name n : Bytes} {hosts : HostList}
  {es : List (HostId × Bytes)}

/-- A wildcard leads and is followed by a dot, or it ends the name after a dot; no other one is
in the name. -/
def WildcardOk (n : Bytes) : Prop :=
  42 ∉ n ∨ (∃ s, n = 42 :: 46 :: s ∧ 42 ∉ s) ∨ ∃ p, n = p ++ [46, 42] ∧ 42 ∉ p

def isLeading (n : Bytes) : Bool := n.head? == some 42

def isTail (n : Bytes) : Bool := n.head? != some 42 && n.contains 42

theorem exists_split_of_idxOf? {i : Nat} (h : n.idxOf? 42 = some i) :
    ∃ u v, n = u ++ 42 :: v ∧ u.length = i ∧ 42 ∉ u := by
  obtain ⟨hlt, hat, hbefore⟩ := List.findIdx?_eq_some_iff_getElem.mp h
  refine ⟨n.take i, n.drop (i + 1), ?_, ?_, ?_⟩
  · have hcons := List.drop_eq_getElem_cons hlt
    rw [beq_iff_eq.mp hat] at hcons
    rw [← hcons, List.take_append_drop]
  · rw [List.length_take]
    omega
  · intro hmem
    obtain ⟨j, hj, hj42⟩ := List.mem_take_iff_getElem.mp hmem
    refine hbefore j (by omega) ?_
    rw [hj42]
    rfl

theorem wildcardOk_split {u v : Bytes} (hu : 42 ∉ u) : WildcardOk (u ++ 42 :: v) ↔
    (u = [] ∧ ∃ s, v = 46 :: s ∧ 42 ∉ s) ∨ v = [] ∧ ∃ p, u = p ++ [46] := by
  constructor
  · rintro (hnone | ⟨s, hs, h42⟩ | ⟨p, hp, h42⟩)
    · simp at hnone
    · cases u with
      | nil =>
        cases hs
        exact .inl ⟨rfl, s, rfl, h42⟩
      | cons c u =>
        obtain ⟨rfl, -⟩ := List.cons.inj hs
        simp at hu
    · have hback : p ++ [46, 42] = (p ++ [46]) ++ 42 :: [] := by simp
      rw [hback] at hp
      rcases List.append_eq_append_iff.mp hp with ⟨w, hpw, hv⟩ | ⟨w, huw, hv⟩
      · cases w with
        | nil =>
          cases hv
          exact .inr ⟨rfl, p, by simpa using hpw.symm⟩
        | cons c w =>
          cases hv
          have hmem : (42 : UInt8) ∈ p ++ [46] := by
            rw [hpw]
            simp
          simp [h42] at hmem
      · cases w with
        | nil =>
          cases hv
          exact .inr ⟨rfl, p, by simpa using huw⟩
        | cons c w => simp at hv
  · rintro (⟨rfl, s, rfl, h42⟩ | ⟨rfl, p, rfl⟩)
    · exact .inr (.inl ⟨s, rfl, h42⟩)
    · refine .inr (.inr ⟨p, by simp, fun hp => hu ?_⟩)
      exact List.mem_append_left _ hp

theorem checkHostWildcard_ok : checkHostWildcard t n = .ok t' ↔ WildcardOk n ∧ t' = { t with
    anyPrefixHostname := t.anyPrefixHostname || isLeading n
    anySubfixHostname := t.anySubfixHostname || isTail n } := by
  unfold checkHostWildcard
  split
  next hnone =>
    have hnot : 42 ∉ n := by
      intro hmem
      have hfalse := List.findIdx?_eq_none_iff.mp hnone 42 hmem
      cases hfalse
    have hlead : isLeading n = false := by
      unfold isLeading
      cases n with
      | nil => rfl
      | cons c n =>
        have hc : c ≠ 42 := fun h0 => hnot (h0 ▸ List.mem_cons_self)
        simp [hc]
    have htail : isTail n = false := by simp [isTail, hnot]
    simp only [hlead, htail, Bool.or_false, Except.ok.injEq]
    constructor
    · intro h
      exact ⟨.inl hnot, h.symm⟩
    · intro h
      exact h.2.symm
  next i hi =>
    obtain ⟨u, v, rfl, rfl, hu⟩ := exists_split_of_idxOf? hi
    rw [wildcardOk_split hu]
    split
    next hzero =>
      have hnil := List.eq_nil_of_length_eq_zero hzero
      subst hnil
      have hlead : isLeading (42 :: v) = true := rfl
      have htail : isTail (42 :: v) = false := rfl
      simp only [List.nil_append, hlead, htail, Bool.or_true, Bool.or_false]
      cases v with
      | nil => simp
      | cons c v =>
        by_cases hc : c = 46
        · subst hc
          by_cases h42 : 42 ∈ v
          · simp [h42]
          · simp [h42, eq_comm (a := t')]
        · simp [hc]
    next hpos =>
      have hne : u ≠ [] := fun h0 => hpos (by rw [h0]; rfl)
      obtain ⟨p, c, rfl⟩ : ∃ p c, u = p ++ [c] :=
        ⟨u.dropLast, u.getLast hne, (List.dropLast_concat_getLast hne).symm⟩
      have hhead : (p ++ [c] ++ 42 :: v).head? ≠ some 42 := by
        cases p with
        | nil =>
          intro h0
          cases h0
          simp at hu
        | cons d p =>
          intro h0
          cases h0
          simp at hu
      have hlead : isLeading (p ++ [c] ++ 42 :: v) = false := by
        unfold isLeading
        exact beq_eq_false_iff_ne.mpr hhead
      have htail : isTail (p ++ [c] ++ 42 :: v) = true := by
        unfold isTail
        rw [bne_iff_ne.mpr hhead]
        simp
      simp only [hlead, htail, Bool.or_true, Bool.or_false]
      cases v with
      | nil =>
        by_cases hc : c = 46
        · subst hc
          simp [eq_comm (a := t')]
        · simp [hc]
      | cons d v => simp

theorem phlConfHostAddName_ok : phlConfHostAddName t host name = .ok t' ↔
    (name = [42] ∧ t.hostWildcard = none ∧ t' = { t with hostWildcard := some host }) ∨
    (name ≠ [] ∧ name ≠ [42] ∧ WildcardOk (hostSearchName name) ∧
      t.hostDict.lookup (hostSearchName name) = none ∧ t' = {
        hostDict := (hostSearchName name, host) :: t.hostDict
        hostWildcard := t.hostWildcard
        anyPrefixHostname := t.anyPrefixHostname || isLeading (hostSearchName name)
        anySubfixHostname := t.anySubfixHostname || isTail (hostSearchName name) }) := by
  unfold phlConfHostAddName
  split
  next hnil => simp [hnil]
  next hne =>
    split
    next hstar =>
      subst hstar
      cases hw : t.hostWildcard with
      | none => simp [eq_comm (a := t')]
      | some h => simp
    next hstar =>
      dsimp only
      cases hcheck : checkHostWildcard t (hostSearchName name) with
      | error err =>
        have hbad : ¬WildcardOk (hostSearchName name) := by
          intro hok
          have hboth := (@checkHostWildcard_ok t _ (hostSearchName name)).mpr ⟨hok, rfl⟩
          rw [hcheck] at hboth
          cases hboth
        simp [hbad, hstar]
      | ok t1 =>
        obtain ⟨hok, rfl⟩ := checkHostWildcard_ok.mp hcheck
        dsimp only
        cases hlook : t.hostDict.lookup (hostSearchName name) with
        | none => simp [hok, hne, hstar, eq_comm (a := t')]
        | some h => simp [hstar]

/-- What tells two hostnames apart: `*` is a name of its own. -/
def hostKey (s : Bytes) : Option Bytes := if s = [42] then none else some (hostSearchName s)

theorem hostKey_eq_none {s : Bytes} : hostKey s = none ↔ s = [42] := by
  unfold hostKey
  split
  next hstar => exact iff_of_true rfl hstar
  next hstar => exact iff_of_false (Option.some_ne_none _) hstar

theorem hostKey_eq_some {s n : Bytes} :
    hostKey s = some n ↔ s ≠ [42] ∧ hostSearchName s = n := by
  unfold hostKey
  split
  next hstar => exact iff_of_false (Option.some_ne_none _).symm fun h => h.1 hstar
  next hstar => rw [Option.some.injEq, and_iff_right hstar]

/-- The table of the hostnames `es`. -/
structure Registered (es : List (HostId × Bytes)) (t : HostTable) : Prop where
  dict : ∀ n h, t.hostDict.lookup n = some h ↔
    ∃ s, (h, s) ∈ es ∧ s ≠ [42] ∧ hostSearchName s = n
  wildcard : ∀ h, t.hostWildcard = some h ↔ (h, [42]) ∈ es
  leading : t.anyPrefixHostname = true ↔
    ∃ e ∈ es, e.2 ≠ [42] ∧ isLeading (hostSearchName e.2) = true
  tail : t.anySubfixHostname = true ↔ ∃ e ∈ es, e.2 ≠ [42] ∧ isTail (hostSearchName e.2) = true
  valid : ∀ e ∈ es, e.2 ≠ [] ∧ (e.2 ≠ [42] → WildcardOk (hostSearchName e.2))
  nodup : (es.map fun e => hostKey e.2).Nodup

theorem registered_nil : Registered [] ⟨[], none, false, false⟩ where
  dict := by simp
  wildcard := by simp
  leading := by simp
  tail := by simp
  valid := nofun
  nodup := List.nodup_nil

theorem Registered.key_mem (h : Registered es t) {n : Bytes} :
    some n ∈ es.map (fun e => hostKey e.2) ↔ t.hostDict.lookup n ≠ none := by
  rw [Option.ne_none_iff_exists', List.mem_map]
  constructor
  · rintro ⟨e, he, hkey⟩
    exact ⟨e.1, (h.dict n e.1).mpr ⟨e.2, he, hostKey_eq_some.mp hkey⟩⟩
  · rintro ⟨host, hlook⟩
    obtain ⟨s, hs, hkey⟩ := (h.dict n host).mp hlook
    exact ⟨(host, s), hs, hostKey_eq_some.mpr hkey⟩

theorem Registered.star_mem (h : Registered es t) :
    none ∈ es.map (fun e => hostKey e.2) ↔ t.hostWildcard ≠ none := by
  rw [Option.ne_none_iff_exists', List.mem_map]
  constructor
  · rintro ⟨e, he, hkey⟩
    have hstar := hostKey_eq_none.mp hkey
    exact ⟨e.1, (h.wildcard e.1).mpr (hstar ▸ he)⟩
  · rintro ⟨host, hw⟩
    exact ⟨(host, [42]), (h.wildcard host).mp hw, rfl⟩

theorem Registered.add (h : Registered es t)
    (hadd : phlConfHostAddName t host name = .ok t') : Registered (es ++ [(host, name)]) t' := by
  rcases phlConfHostAddName_ok.mp hadd with ⟨rfl, hnone, rfl⟩ | ⟨hne, hstar, hok, hnone, rfl⟩
  · have hfree : none ∉ es.map fun e => hostKey e.2 := fun hmem => h.star_mem.mp hmem hnone
    have hwild : ∀ g, (g, [42]) ∉ es := by
      intro g hg
      have hsome := (h.wildcard g).mpr hg
      rw [hnone] at hsome
      cases hsome
    refine ⟨fun n g => ?_, fun g => ?_, ?_, ?_, ?_, ?_⟩
    · rw [h.dict n g]
      simp only [List.mem_append, List.mem_singleton, Prod.mk.injEq]
      constructor
      · rintro ⟨s, hs, hs42, hn⟩
        exact ⟨s, .inl hs, hs42, hn⟩
      · rintro ⟨s, hs | ⟨-, rfl⟩, hs42, hn⟩
        · exact ⟨s, hs, hs42, hn⟩
        · exact absurd rfl hs42
    · simp [hwild g, eq_comm]
    · simp [h.leading, or_and_right, exists_or]
    · simp [h.tail, or_and_right, exists_or]
    · intro e he
      rcases List.mem_append.mp he with he | he
      · exact h.valid e he
      · cases List.mem_singleton.mp he
        exact ⟨by simp, fun h0 => absurd rfl h0⟩
    · rw [List.map_append, List.nodup_append]
      refine ⟨h.nodup, by simp, ?_⟩
      intro a ha b hb hab
      rw [List.map_singleton, List.mem_singleton] at hb
      rw [hab, hb] at ha
      exact hfree ha
  · have hfree : some (hostSearchName name) ∉ es.map fun e => hostKey e.2 := by
      intro hmem
      exact h.key_mem.mp hmem hnone
    refine ⟨fun n g => ?_, fun g => ?_, ?_, ?_, ?_, ?_⟩
    · simp only [List.mem_append, List.mem_singleton, Prod.mk.injEq]
      by_cases hn : n = hostSearchName name
      · subst hn
        rw [List.lookup_cons_self]
        constructor
        · intro hg
          cases hg
          exact ⟨name, .inr ⟨rfl, rfl⟩, hstar, rfl⟩
        · rintro ⟨s, hs | ⟨rfl, rfl⟩, hs42, hsn⟩
          · have hlook := (h.dict _ g).mpr ⟨s, hs, hs42, hsn⟩
            rw [hnone] at hlook
            cases hlook
          · rfl
      · have hbeq : (n == hostSearchName name) = false := beq_eq_false_iff_ne.mpr hn
        rw [List.lookup_cons, hbeq]
        dsimp only
        rw [h.dict n g]
        constructor
        · rintro ⟨s, hs, hs42, hsn⟩
          exact ⟨s, .inl hs, hs42, hsn⟩
        · rintro ⟨s, hs | ⟨rfl, rfl⟩, hs42, hsn⟩
          · exact ⟨s, hs, hs42, hsn⟩
          · exact absurd hsn.symm hn
    · simp only [h.wildcard g, List.mem_append, List.mem_singleton, Prod.mk.injEq]
      constructor
      · exact .inl
      · rintro (hg | ⟨-, hg⟩)
        · exact hg
        · exact absurd hg.symm hstar
    · simp [h.leading, or_and_right, exists_or, hstar]
    · simp [h.tail, or_and_right, exists_or, hstar]
    · intro e he
      rcases List.mem_append.mp he with he | he
      · exact h.valid e he
      · cases List.mem_singleton.mp he
        exact ⟨hne, fun _ => hok⟩
    · rw [List.map_append, List.nodup_append]
      refine ⟨h.nodup, by simp, ?_⟩
      intro a ha b hb hab
      rw [List.map_singleton, List.mem_singleton, hostKey, if_neg hstar] at hb
      rw [hab, hb] at ha
      exact hfree ha

theorem Registered.fold {rest : List (HostId × Bytes)} (h : Registered es t)
    (hfold : rest.foldlM (fun t e => phlConfHostAddName t e.1 e.2) t = .ok t') :
    Registered (es ++ rest) t' := by
  induction rest generalizing es t with
  | nil =>
    cases hfold
    rwa [List.append_nil]
  | cons e rest ih =>
    rw [List.foldlM_cons] at hfold
    cases hadd : phlConfHostAddName t e.1 e.2 with
    | error err =>
      rw [hadd] at hfold
      cases hfold
    | ok t1 =>
      rw [hadd] at hfold
      have hrest := ih (h.add hadd) hfold
      rwa [List.append_assoc, List.singleton_append] at hrest

/-- Hostnames that are well formed and differ are accepted. -/
theorem Registered.fold_exists {rest : List (HostId × Bytes)} (h : Registered es t)
    (hvalid : ∀ e ∈ rest, e.2 ≠ [] ∧ (e.2 ≠ [42] → WildcardOk (hostSearchName e.2)))
    (hnodup : ((es ++ rest).map fun e => hostKey e.2).Nodup) :
    ∃ t', rest.foldlM (fun t e => phlConfHostAddName t e.1 e.2) t = .ok t' := by
  induction rest generalizing es t with
  | nil => exact ⟨t, rfl⟩
  | cons e rest ih =>
    have hnew : hostKey e.2 ∉ es.map fun e => hostKey e.2 := by
      rw [List.map_append, List.nodup_append] at hnodup
      intro hmem
      exact hnodup.2.2 _ hmem _ List.mem_cons_self rfl
    obtain ⟨hne, hok⟩ := hvalid e List.mem_cons_self
    have hadd : ∃ t1, phlConfHostAddName t e.1 e.2 = .ok t1 := by
      by_cases hstar : e.2 = [42]
      · have hnone : t.hostWildcard = none := by
          by_contra hsome
          rw [hostKey, if_pos hstar] at hnew
          exact hnew (h.star_mem.mpr hsome)
        exact ⟨_, phlConfHostAddName_ok.mpr (.inl ⟨hstar, hnone, rfl⟩)⟩
      · have hnone : t.hostDict.lookup (hostSearchName e.2) = none := by
          by_contra hsome
          rw [hostKey, if_neg hstar] at hnew
          exact hnew (h.key_mem.mpr hsome)
        exact ⟨_, phlConfHostAddName_ok.mpr (.inr ⟨hne, hstar, hok hstar, hnone, rfl⟩)⟩
    obtain ⟨t1, hadd⟩ := hadd
    rw [List.foldlM_cons, hadd]
    refine ih (h.add hadd) (fun e' he' => hvalid e' (List.mem_cons_of_mem _ he')) ?_
    rwa [List.append_assoc, List.singleton_append]

theorem registered_of_register (h : phlConfHostRegister hosts = .ok t) :
    Registered hosts.entries t := by
  have hfold := registered_nil.fold h
  rwa [List.nil_append] at hfold

/-- The order of the hostnames does not decide whether they are accepted. -/
theorem register_perm {hosts' : HostList} (h : phlConfHostRegister hosts = .ok t)
    (hperm : hosts'.entries.Perm hosts.entries) : ∃ t', phlConfHostRegister hosts' = .ok t' := by
  have hreg := registered_of_register h
  refine registered_nil.fold_exists (fun e he => hreg.valid e (hperm.mem_iff.mp he)) ?_
  rw [List.nil_append]
  exact (hperm.map _).nodup_iff.mpr hreg.nodup

end Register

section Select

variable {hosts hosts' : HostList} {t t' : HostTable} {name : Bytes} {host : HostId}
  {r r' : Option HostId}

theorem Registered.listed (h : Registered hosts.entries t) {n : Bytes} :
    t.hostDict.lookup n = some host ↔ Listed hosts n host :=
  h.dict n host

theorem Registered.not_listed (h : Registered hosts.entries t) {n : Bytes} :
    t.hostDict.lookup n = none ↔ ∀ g, ¬Listed hosts n g := by
  rw [Option.eq_none_iff_forall_ne_some]
  exact forall_congr' fun g => not_congr h.listed

theorem exists_split_of_dot {s : Bytes} {d : Nat} (h : s[d]? = some 46) :
    s = s.take d ++ 46 :: s.drop (d + 1) := by
  obtain ⟨hlt, hdot⟩ := List.getElem?_eq_some_iff.mp h
  have hcons := List.drop_eq_getElem_cons hlt
  rw [hdot] at hcons
  rw [← hcons, List.take_append_drop]

theorem getElem?_split (x s : Bytes) : (x ++ 46 :: s)[x.length]? = some 46 := by
  rw [List.getElem?_append_right (Nat.le_refl _), Nat.sub_self]
  rfl

/-- The walk from the left finds the longest `*.S`. -/
theorem Registered.byPrefix (h : Registered hosts.entries t) (name : Bytes) :
    let found := if t.anyPrefixHostname then
      locatePrefix t.hostDict (name.length + 1) name (if name.head? = some 46 then 1 else 0)
      else none
    (found = none → ∀ s g, ¬MatchesLeading hosts name s g) ∧
    ∀ g, found = some g → ∃ s, MatchesLeading hosts name s g ∧
      ∀ s' g', MatchesLeading hosts name s' g' → s'.length ≤ s.length := by
  dsimp only
  have hfirst : (if name.head? = some 46 then 1 else 0) = 0 → name.head? ≠ some 46 := by
    split <;> simp_all
  have hstart : (if name.head? = some 46 then 1 else 0) ≤ 1 := by
    split <;> omega
  obtain ⟨hnone, hsome⟩ := @locatePrefix_eq t.hostDict name _ (name.length + 1) name (by omega) rfl
    rfl hfirst
  generalize (if name.head? = some 46 then 1 else 0) = p at hfirst hstart hnone hsome
  -- the look-up at the dot behind `x`
  have hat : ∀ {x s : Bytes}, name = x ++ 46 :: s →
      name[x.length]? = some 46 ∧ name.drop x.length = 46 :: s := by
    rintro x s rfl
    exact ⟨getElem?_split x s, List.drop_left⟩
  split
  next hflag =>
    refine ⟨fun hn s g hmatch => ?_, fun g hg => ?_⟩
    · obtain ⟨⟨x, hx, hname⟩, hlisted⟩ := hmatch
      have hpos := List.length_pos_iff.mpr hx
      have hlook := hnone hn x.length (by omega) (hat hname).1
      rw [(hat hname).2] at hlook
      exact h.not_listed.mp hlook g hlisted
    · obtain ⟨d, hpd, hpos, hdot, hlook, hbefore⟩ := hsome g hg
      have hsplit := exists_split_of_dot hdot
      have hdlt := (List.getElem?_eq_some_iff.mp hdot).1
      have hdrop : name.drop d = 46 :: name.drop (d + 1) := by
        have hlen : (name.take d).length = d := by
          rw [List.length_take]
          omega
        have hd := (hat hsplit).2
        rwa [hlen] at hd
      rw [hdrop] at hlook
      refine ⟨name.drop (d + 1), ⟨⟨name.take d, ?_, hsplit⟩, h.listed.mp hlook⟩, ?_⟩
      · rw [← List.length_pos_iff, List.length_take]
        omega
      · rintro s' g' ⟨⟨x', hx', hname'⟩, hlisted'⟩
        by_contra hlonger
        have hpos' := List.length_pos_iff.mpr hx'
        have hlen := congrArg List.length hname'
        rw [List.length_append, List.length_cons] at hlen
        rw [List.length_drop] at hlonger
        have hlook' := hbefore x'.length (by omega) (by omega) (hat hname').1
        rw [(hat hname').2] at hlook'
        exact h.not_listed.mp hlook' g' hlisted'
  next hflag =>
    refine ⟨fun _ s g hmatch => hflag ?_, nofun⟩
    obtain ⟨-, n, hn, hstar, hsearch⟩ := hmatch
    refine h.leading.mpr ⟨(g, n), hn, hstar, ?_⟩
    rw [hsearch]
    rfl

/-- Without a tail dot the name keeps the dots that something follows. -/
theorem stripped_dot {d : Nat} :
    (if name.getLast? = some 46 then name.dropLast else name)[d]? = some 46 ↔
      name[d]? = some 46 ∧ d + 1 < name.length := by
  split
  next hlast =>
    rw [List.getElem?_dropLast]
    split
    next hlt => simp [show d + 1 < name.length by omega]
    next hge => simp [show ¬d + 1 < name.length by omega]
  next hlast =>
    constructor
    · intro hdot
      refine ⟨hdot, ?_⟩
      have hlt := (List.getElem?_eq_some_iff.mp hdot).1
      by_contra hge
      have hd : d = name.length - 1 := by omega
      rw [hd, ← List.getLast?_eq_getElem?] at hdot
      exact hlast hdot
    · exact fun hdot => hdot.1

theorem stripped_take {d : Nat} (h : d + 1 < name.length) :
    (if name.getLast? = some 46 then name.dropLast else name).take (d + 1) =
      name.take (d + 1) := by
  split
  next =>
    rw [List.dropLast_eq_take, List.take_take, Nat.min_eq_left (by omega)]
  next => rfl

theorem WildcardOk.isTail {p : Bytes} (h : WildcardOk (p ++ [46, 42])) :
    isTail (p ++ [46, 42]) = true := by
  have hp : 42 ∉ p := by
    rcases h with hnone | ⟨s, hs, h42⟩ | ⟨p', hp', h42⟩
    · simp at hnone
    · cases p with
      | nil => cases hs
      | cons c p =>
        obtain ⟨rfl, htail⟩ := List.cons.inj hs
        cases p with
        | nil =>
          cases htail
          simp at h42
        | cons d p =>
          obtain ⟨rfl, rfl⟩ := List.cons.inj htail
          simp at h42
    · rw [List.append_cancel_right hp']
      exact h42
  have hhead : (p ++ [46, 42]).head? ≠ some 42 := by
    cases p with
    | nil => decide
    | cons c p =>
      intro h0
      cases h0
      exact hp List.mem_cons_self
  unfold Phorklift.isTail
  rw [bne_iff_ne.mpr hhead]
  simp

/-- The walk from the right finds the longest `P.*`. -/
theorem Registered.bySubfix (h : Registered hosts.entries t) (name : Bytes) :
    let found := if t.anySubfixHostname then
      locateSubfix t.hostDict (name.length + 1)
        (if name.getLast? = some 46 then name.dropLast else name)
      else none
    (found = none → ∀ p g, ¬MatchesTail hosts name p g) ∧
    ∀ g, found = some g → ∃ p, MatchesTail hosts name p g ∧
      ∀ p' g', MatchesTail hosts name p' g' → p'.length ≤ p.length := by
  dsimp only
  have hfuel : (if name.getLast? = some 46 then name.dropLast else name).length <
      name.length + 1 := by
    split
    next =>
      rw [List.length_dropLast]
      omega
    next => omega
  obtain ⟨hnone, hsome⟩ := @locateSubfix_eq t.hostDict _ (name.length + 1) hfuel
  -- the look-up at the dot behind `p`
  have hat : ∀ {p x : Bytes}, x ≠ [] → name = p ++ 46 :: x →
      (if name.getLast? = some 46 then name.dropLast else name)[p.length]? = some 46 ∧
      (if name.getLast? = some 46 then name.dropLast else name).take (p.length + 1) ++ [42] =
        p ++ [46, 42] := by
    rintro p x hx rfl
    have hpos := List.length_pos_iff.mpr hx
    have hroom : p.length + 1 < (p ++ 46 :: x).length := by
      rw [List.length_append, List.length_cons]
      omega
    refine ⟨stripped_dot.mpr ⟨getElem?_split p x, hroom⟩, ?_⟩
    have hcut : p ++ 46 :: x = p ++ [46] ++ x := by simp
    have htake : (p ++ 46 :: x).take (p.length + 1) = p ++ [46] := by
      rw [hcut]
      exact List.take_left' (by simp)
    rw [stripped_take hroom, htake]
    simp
  split
  next hflag =>
    refine ⟨fun hn p g hmatch => ?_, fun g hg => ?_⟩
    · obtain ⟨⟨x, hx, hname⟩, hlisted⟩ := hmatch
      have hlook := hnone hn p.length (hat hx hname).1
      rw [(hat hx hname).2] at hlook
      exact h.not_listed.mp hlook g hlisted
    · obtain ⟨d, hdot, hlook, hafter⟩ := hsome g hg
      obtain ⟨hnamedot, hroom⟩ := stripped_dot.mp hdot
      have hsplit := exists_split_of_dot hnamedot
      have hrest : name.drop (d + 1) ≠ [] := by
        rw [← List.length_pos_iff, List.length_drop]
        omega
      have hlen : (name.take d).length = d := by
        rw [List.length_take]
        omega
      have hd := (hat hrest hsplit).2
      rw [hlen] at hd
      rw [hd] at hlook
      refine ⟨name.take d, ⟨⟨name.drop (d + 1), hrest, hsplit⟩, h.listed.mp hlook⟩, ?_⟩
      rintro p' g' ⟨⟨x', hx', hname'⟩, hlisted'⟩
      by_contra hlonger
      have hlook' := hafter p'.length (by omega) (hat hx' hname').1
      rw [(hat hx' hname').2] at hlook'
      exact h.not_listed.mp hlook' g' hlisted'
  next hflag =>
    refine ⟨fun _ p g hmatch => hflag ?_, nofun⟩
    obtain ⟨-, n, hn, hstar, hsearch⟩ := hmatch
    have hok := (h.valid (g, n) hn).2 hstar
    refine h.tail.mpr ⟨(g, n), hn, hstar, ?_⟩
    rw [hsearch] at hok ⊢
    exact hok.isTail

theorem Registered.selects (h : Registered hosts.entries t) (name : Bytes) :
    Selects hosts name (phlConfHostLocate t (some name)) := by
  obtain ⟨hnoPrefix, hprefix⟩ := h.byPrefix name
  obtain ⟨hnoSubfix, hsubfix⟩ := h.bySubfix name
  unfold phlConfHostLocate
  dsimp only at *
  generalize (if t.anyPrefixHostname = true then _ else none : Option HostId) = byPrefix at *
  generalize (if t.anySubfixHostname = true then _ else none : Option HostId) = bySubfix at *
  cases hexact : t.hostDict.lookup name with
  | some g => exact .exact (h.listed.mp hexact)
  | none =>
    have hnot := h.not_listed.mp hexact
    cases byPrefix with
    | some g =>
      obtain ⟨s, hmatch, hlongest⟩ := hprefix g rfl
      exact .leading hnot hmatch hlongest
    | none =>
      cases bySubfix with
      | some g =>
        obtain ⟨p, hmatch, hlongest⟩ := hsubfix g rfl
        exact .tail hnot (hnoPrefix rfl) hmatch hlongest
      | none => exact .wildcard hnot (hnoPrefix rfl) (hnoSubfix rfl) h.wildcard

theorem Registered.listed_unique (h : Registered hosts.entries t) {n : Bytes} {g g' : HostId}
    (hg : Listed hosts n g) (hg' : Listed hosts n g') : g = g' := by
  rw [← h.listed] at hg hg'
  rw [hg] at hg'
  exact Option.some.inj hg'

theorem matchesLeading_eq {s s' : Bytes} {g g' : HostId} (h : MatchesLeading hosts name s g)
    (h' : MatchesLeading hosts name s' g') (hlen : s.length = s'.length) : s = s' := by
  obtain ⟨⟨x, -, hx⟩, -⟩ := h
  obtain ⟨⟨x', -, hx'⟩, -⟩ := h'
  have hboth : x ++ 46 :: s = x' ++ 46 :: s' := hx.symm.trans hx'
  have hsuffix := (List.append_inj' hboth (by simp [hlen])).2
  exact (List.cons.inj hsuffix).2

theorem matchesTail_eq {p p' : Bytes} {g g' : HostId} (h : MatchesTail hosts name p g)
    (h' : MatchesTail hosts name p' g') (hlen : p.length = p'.length) : p = p' := by
  obtain ⟨⟨x, -, hx⟩, -⟩ := h
  obtain ⟨⟨x', -, hx'⟩, -⟩ := h'
  have hboth : p ++ 46 :: x = p' ++ 46 :: x' := hx.symm.trans hx'
  exact (List.append_inj hboth hlen).1

/-- The rule of longest match leaves no choice. -/
theorem Registered.selects_unique (h : Registered hosts.entries t) (hr : Selects hosts name r)
    (hr' : Selects hosts name r') : r = r' := by
  cases hr with
  | exact hl =>
    cases hr' with
    | exact hl' => rw [h.listed_unique hl hl']
    | leading hnot => exact absurd hl (hnot _)
    | tail hnot => exact absurd hl (hnot _)
    | wildcard hnot => exact absurd hl (hnot _)
  | leading hnot hmatch hlongest =>
    cases hr' with
    | exact hl' => exact absurd hl' (hnot _)
    | leading _ hmatch' hlongest' =>
      have hlen := Nat.le_antisymm (hlongest' _ _ hmatch) (hlongest _ _ hmatch')
      cases matchesLeading_eq hmatch hmatch' hlen
      rw [h.listed_unique hmatch.2 hmatch'.2]
    | tail _ hnone => exact absurd hmatch (hnone _ _)
    | wildcard _ hnone => exact absurd hmatch (hnone _ _)
  | tail hnot hnone hmatch hlongest =>
    cases hr' with
    | exact hl' => exact absurd hl' (hnot _)
    | leading _ hmatch' => exact absurd hmatch' (hnone _ _)
    | tail _ _ hmatch' hlongest' =>
      have hlen := Nat.le_antisymm (hlongest' _ _ hmatch) (hlongest _ _ hmatch')
      cases matchesTail_eq hmatch hmatch' hlen
      rw [h.listed_unique hmatch.2 hmatch'.2]
    | wildcard _ _ hnone' => exact absurd hmatch (hnone' _ _)
  | wildcard hnot hnone hnone' hwild =>
    cases hr' with
    | exact hl' => exact absurd hl' (hnot _)
    | leading _ hmatch' => exact absurd hmatch' (hnone _ _)
    | tail _ _ hmatch' => exact absurd hmatch' (hnone' _ _)
    | wildcard _ _ _ hwild' =>
      apply Option.ext
      intro g
      rw [hwild, hwild']

theorem listed_perm (hperm : hosts'.entries.Perm hosts.entries) {n : Bytes} :
    Listed hosts' n host ↔ Listed hosts n host := by
  unfold Listed
  simp only [hperm.mem_iff]

theorem selects_perm (hperm : hosts'.entries.Perm hosts.entries) (h : Selects hosts name r) :
    Selects hosts' name r := by
  have hlist : ∀ n g, Listed hosts' n g = Listed hosts n g := fun n g =>
    propext (listed_perm hperm)
  have hlead : ∀ s g, MatchesLeading hosts' name s g = MatchesLeading hosts name s g := by
    intro s g
    unfold MatchesLeading
    rw [hlist]
  have htail : ∀ p g, MatchesTail hosts' name p g = MatchesTail hosts name p g := by
    intro p g
    unfold MatchesTail
    rw [hlist]
  cases h with
  | exact hl => exact .exact (by rwa [hlist])
  | leading hnot hmatch hlongest =>
    exact .leading (by simpa only [hlist] using hnot) (by rwa [hlead])
      (by simpa only [hlead] using hlongest)
  | tail hnot hnone hmatch hlongest =>
    exact .tail (by simpa only [hlist] using hnot) (by simpa only [hlead] using hnone)
      (by rwa [htail]) (by simpa only [htail] using hlongest)
  | wildcard hnot hnone hnone' hwild =>
    exact .wildcard (by simpa only [hlist] using hnot) (by simpa only [hlead] using hnone)
      (by simpa only [htail] using hnone') fun g => by rw [hwild, hperm.mem_iff]

/-- A hostname is located by the rule of longest match, whatever the order of the Hosts and of
their hostnames. -/
theorem host_selection (h : phlConfHostRegister hosts = .ok t) :
    (∀ name r, name ≠ [] →
      (phlConfHostLocate t (some name) = r ↔ Selects hosts name r)) ∧
    ∀ hosts' : HostList, hosts'.entries.Perm hosts.entries →
      ∃ t', phlConfHostRegister hosts' = .ok t' ∧
        ∀ name, name ≠ [] → phlConfHostLocate t' (some name) = phlConfHostLocate t (some name) := by
  have hreg := registered_of_register h
  refine ⟨fun name r _ => ⟨?_, fun hr => ?_⟩, fun hosts' hperm => ?_⟩
  · rintro rfl
    exact hreg.selects name
  · exact hreg.selects_unique (hreg.selects name) hr
  · obtain ⟨t', h'⟩ := register_perm h hperm
    have hreg' := registered_of_register h'
    refine ⟨t', h', fun name _ => ?_⟩
    exact hreg.selects_unique (selects_perm hperm.symm (hreg'.selects name)) (hreg.selects name)

def exampleHosts : HostList :=
  [(0, [bytes "www.example.com"]), (1, [bytes "img.example.com", bytes "static.example.com"]),
    (2, [bytes "*.example.com"]), (3, [bytes "*.step2.example.com"]), (4, [bytes "www.example.*"]),
    (5, [bytes "*"])]

/-- The longer of two leading wildcards, though it is listed later. -/
theorem host_selection_example : ∃ t, phlConfHostRegister exampleHosts = .ok t ∧
    Selects exampleHosts (bytes "hello.step2.example.com") (some 3) := by
  have hrun : (phlConfHostRegister exampleHosts).map (fun t =>
      phlConfHostLocate t (some (bytes "hello.step2.example.com"))) = .ok (some 3) := by rfl
  cases h : phlConfHostRegister exampleHosts with
  | error err =>
    rw [h] at hrun
    cases hrun
  | ok t =>
    rw [h] at hrun
    have hlocate := Except.ok.inj hrun
    exact ⟨t, rfl, ((host_selection h).1 _ _ (by decide)).mp hlocate⟩

end Select

end Phorklift
