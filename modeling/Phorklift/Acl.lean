import Mathlib.Data.List.Find
import Mathlib.Data.List.Forall2
import Phorklift.Cidr
import Phorklift.Request

/-! The access control list: what its configuration compiles to and how it decides. -/

namespace Phorklift

structure AclRule where
  start : BitVec 32
  stop : BitVec 32
  isDeny : Bool
  deriving DecidableEq

/-- `wuy_cflua_post_arg` and the text returned. -/
structure AclError where
  arg : Bytes
  text : Bytes
  deriving DecidableEq

/-- `UINT32_MAX << n`; a shift by the width has no defined value, `wide` is what it gives. -/
def shiftMax (wide : BitVec 32) (n : Nat) : BitVec 32 :=
  if n < 32 then BitVec.allOnes 32 <<< n else wide

/-- The mask in what follows the slash, -1 where there is no slash. -/
def aclMask (str suffix : Bytes) : Except AclError Int :=
  match suffix with
  | [] => .ok (-1)
  | _ :: p =>
    let n := strtol p
    if n.range ∨ n.used ≠ p.length then .error ⟨str, bytes "invalid mask"⟩
    else if toInt n.value < 0 ∨ 32 < toInt n.value then .error ⟨str, bytes "invalid mask"⟩
    else .ok (toInt n.value)

/-- The string of a rule from its address on. `pton` is `ntohl` of what `inet_pton` finds. -/
def aclRule (pton : Bytes → Option (BitVec 32)) (wide : BitVec 32) (isDeny : Bool) (str : Bytes) :
    Except AclError AclRule := do
  let quad := str.takeWhile (· != 47)
  let mask ← aclMask quad (str.dropWhile (· != 47))
  match pton quad with
  | none => .error ⟨quad, bytes "invalid IP"⟩
  | some ip =>
    .ok ⟨ip, if mask = -1 then ip else ip &&& shiftMax wide (32 - mask.toNat), isDeny⟩

/-- One round of `phl_acl_conf_post`. -/
def phlAclConfPostRule (pton : Bytes → Option (BitVec 32)) (wide : BitVec 32) (str : Bytes) :
    Except AclError AclRule :=
  if str.head? = some 33 then aclRule pton wide true str.tail else aclRule pton wide false str

/-- `phl_acl_conf_post`, on the strings of the list. -/
def phlAclConfPost (pton : Bytes → Option (BitVec 32)) (wide : BitVec 32) (strs : List Bytes) :
    Except AclError (List AclRule) :=
  strs.mapM (phlAclConfPostRule pton wide)

/-- The loop of `phl_acl_process_headers`, which ends at the default of the whole list. -/
def aclRun (addr : BitVec 32) (default : Int) : List AclRule → Int
  | [] => default
  | rule :: rules =>
    if rule.start ≤ addr ∧ addr ≤ rule.stop then (if rule.isDeny then 403 else phlOk)
    else aclRun addr default rules

/-- `strs` is NULL where the list has no member. -/
def phlAclProcessHeaders (rules : List AclRule) (addr : BitVec 32) : Int :=
  match rules.getLast? with
  | none => phlOk
  | some last => aclRun addr (if last.isDeny then phlOk else 403) rules

/-- An entry of the list, as its author means it. -/
structure AclEntry where
  isDeny : Bool
  addr : BitVec 32
  mask : Option Nat
  mask_le : ∀ m ∈ mask, m ≤ 32
  deriving DecidableEq

def AclEntry.host (isDeny : Bool) (addr : BitVec 32) : AclEntry :=
  ⟨isDeny, addr, none, by simp⟩

def AclEntry.net (isDeny : Bool) (addr : BitVec 32) (m : Nat) (hm : m ≤ 32) : AclEntry :=
  ⟨isDeny, addr, some m, by simpa using hm⟩

def AclEntry.bang (isDeny : Bool) : Bytes :=
  if isDeny then [33] else []

/-- `[!]a.b.c.d` or `[!]a.b.c.d/m`. -/
inductive AclEntry.Reads (pton : Bytes → Option (BitVec 32)) : Bytes → AclEntry → Prop
  | host (isDeny : Bool) {quad : Bytes} {addr : BitVec 32} :
      (isDeny = false → quad.head? ≠ some 33) → 47 ∉ quad → pton quad = some addr →
      Reads pton (bang isDeny ++ quad) (host isDeny addr)
  | net (isDeny : Bool) {quad text : Bytes} {addr : BitVec 32} {m : Nat} (hm : m ≤ 32) :
      (isDeny = false → quad.head? ≠ some 33) → 47 ∉ quad → pton quad = some addr →
      (strtol text).range = false → (strtol text).used = text.length →
      toInt (strtol text).value = m →
      Reads pton (bang isDeny ++ (quad ++ 47 :: text)) (net isDeny addr m hm)

/-- Whether the client is the address of the entry or in its block. -/
def AclEntry.contains (addr : BitVec 32) (e : AclEntry) : Bool :=
  match e.mask with
  | none => addr == e.addr
  | some m => decide (addr ∈ Cidr.block m e.addr)

/-- The first entry that contains the client denies it, or none does and the last one allows. -/
def AclRefuses (entries : List AclEntry) (addr : BitVec 32) : Prop :=
  (∃ e, entries.find? (·.contains addr) = some e ∧ e.isDeny = true) ∨
  entries.find? (·.contains addr) = none ∧ ∃ last, entries.getLast? = some last ∧
    last.isDeny = false

/-- The client is the very address of the entry, and no bit of that address is past the mask. -/
def AclEntry.names (wide addr : BitVec 32) (e : AclEntry) : Bool :=
  addr == e.addr && match e.mask with
    | none => true
    | some 0 => e.addr &&& wide == e.addr
    | some m => decide (Cidr.Aligned m e.addr)

/-- If any entry contains the client then the first one that names it is of the same kind as the
first one that contains it, or none names it and the last entry is of the other kind. -/
def AclAgrees (wide : BitVec 32) (entries : List AclEntry) (addr : BitVec 32) : Prop :=
  ∀ e, entries.find? (·.contains addr) = some e →
    (∃ e', entries.find? (·.names wide addr) = some e' ∧ e'.isDeny = e.isDeny) ∨
    entries.find? (·.names wide addr) = none ∧ ∃ last, entries.getLast? = some last ∧
      last.isDeny ≠ e.isDeny

/-- What an entry compiles to. -/
def AclEntry.rule (wide : BitVec 32) (e : AclEntry) : AclRule :=
  ⟨e.addr, match e.mask with
    | none => e.addr
    | some m => e.addr &&& shiftMax wide (32 - m), e.isDeny⟩

section Reading

variable {pton : Bytes → Option (BitVec 32)} {wide : BitVec 32}

theorem cut_append {quad suffix : Bytes} (hq : 47 ∉ quad) (hs : suffix.head?.all (· == 47)) :
    (quad ++ suffix).takeWhile (· != 47) = quad ∧ (quad ++ suffix).dropWhile (· != 47) = suffix := by
  have hall : ∀ c ∈ quad, (c != 47) = true := by
    intro c hc
    rw [bne_iff_ne]
    rintro rfl
    exact hq hc
  rw [List.takeWhile_append_of_pos hall, List.dropWhile_append_of_pos hall]
  cases suffix with
  | nil => simp
  | cons c suffix =>
    have hc : c = 47 := by simpa using hs
    simp [hc]

/-- `aclRule` reads an address and what may follow it. -/
theorem aclRule_eq_ok {isDeny : Bool} {str : Bytes} {rule : AclRule} :
    aclRule pton wide isDeny str = .ok rule ↔ ∃ quad suffix addr mask,
      str = quad ++ suffix ∧ 47 ∉ quad ∧ suffix.head?.all (· == 47) ∧ pton quad = some addr ∧
      aclMask quad suffix = .ok mask ∧ rule = ⟨addr,
        if mask = -1 then addr else addr &&& shiftMax wide (32 - mask.toNat), isDeny⟩ := by
  constructor
  · intro h
    unfold aclRule at h
    dsimp only at h
    cases hm : aclMask (str.takeWhile (· != 47)) (str.dropWhile (· != 47)) with
    | error e => rw [hm] at h; cases h
    | ok mask =>
      rw [hm] at h
      cases hp : pton (str.takeWhile (· != 47)) with
      | none =>
        simp only [hp, bind, Except.bind] at h
        cases h
      | some addr =>
        simp only [hp, bind, Except.bind, Except.ok.injEq] at h
        refine ⟨_, _, addr, mask, (List.takeWhile_append_dropWhile).symm, ?_, ?_, hp, hm, h.symm⟩
        · intro hmem
          simpa using List.mem_takeWhile_imp hmem
        · have hhead := List.head?_dropWhile_not (· != 47) str
          cases hd : (str.dropWhile (· != 47)).head? with
          | none => rfl
          | some c => simpa [hd] using hhead
  · rintro ⟨quad, suffix, addr, mask, rfl, hq, hs, hp, hm, rfl⟩
    obtain ⟨htake, hdrop⟩ := cut_append hq hs
    unfold aclRule
    dsimp only
    rw [htake, hdrop, hm, hp]
    rfl

theorem aclMask_nil {quad : Bytes} {mask : Int} : aclMask quad [] = .ok mask ↔ mask = -1 := by
  unfold aclMask
  rw [Except.ok.injEq]
  exact eq_comm

theorem aclMask_slash {quad text : Bytes} {c : UInt8} {mask : Int} :
    aclMask quad (c :: text) = .ok mask ↔ (strtol text).range = false ∧
      (strtol text).used = text.length ∧ toInt (strtol text).value = mask ∧ 0 ≤ mask ∧
      mask ≤ 32 := by
  unfold aclMask
  dsimp only
  split
  next h =>
    constructor
    · intro hm; cases hm
    · rintro ⟨hr, hu, -⟩
      simp [hr, hu] at h
  next h =>
    simp only [not_or, Bool.not_eq_true, ne_eq, not_not] at h
    split
    next h32 =>
      constructor
      · intro hm; cases hm
      · rintro ⟨-, -, rfl, h0, h1⟩
        omega
    next h32 =>
      simp only [Except.ok.injEq]
      constructor
      · rintro rfl
        exact ⟨h.1, h.2, rfl, by omega, by omega⟩
      · rintro ⟨-, -, rfl, -⟩
        rfl

/-- A rule is accepted as one of the two forms of an entry, and compiles to that entry's rule. -/
theorem phlAclConfPostRule_eq_ok {str : Bytes} {rule : AclRule} :
    phlAclConfPostRule pton wide str = .ok rule ↔
      ∃ e, AclEntry.Reads pton str e ∧ rule = e.rule wide := by
  constructor
  · intro h
    have hread : ∃ isDeny rest, str = AclEntry.bang isDeny ++ rest ∧
        (isDeny = false → rest.head? ≠ some 33) ∧ aclRule pton wide isDeny rest = .ok rule := by
      unfold phlAclConfPostRule at h
      split at h
      next hb =>
        refine ⟨true, str.tail, ?_, by simp, h⟩
        cases str with
        | nil => cases hb
        | cons c rest => simpa [AclEntry.bang] using hb
      next hb => exact ⟨false, str, rfl, fun _ => hb, h⟩
    obtain ⟨isDeny, rest, rfl, hbang, hrule⟩ := hread
    obtain ⟨quad, suffix, addr, mask, rfl, hq, hs, hp, hm, rfl⟩ := aclRule_eq_ok.mp hrule
    have hquad : isDeny = false → quad.head? ≠ some 33 := by
      intro hd hh
      refine hbang hd ?_
      cases quad with
      | nil => cases hh
      | cons c quad => exact hh
    cases suffix with
    | nil =>
      rw [aclMask_nil.mp hm, List.append_nil]
      exact ⟨.host isDeny addr, .host isDeny hquad hq hp, rfl⟩
    | cons c text =>
      obtain ⟨hr, hu, hv, h0, h32⟩ := aclMask_slash.mp hm
      obtain rfl : c = 47 := by simpa using hs
      have hmask : mask.toNat ≤ 32 := by omega
      refine ⟨.net isDeny addr mask.toNat hmask, .net isDeny hmask hquad hq hp hr hu ?_, ?_⟩
      · omega
      · rw [if_neg (show mask ≠ -1 by omega)]
        rfl
  · rintro ⟨e, he, rfl⟩
    have hrule : ∀ {isDeny : Bool} {rest : Bytes}, (isDeny = false → rest.head? ≠ some 33) →
        phlAclConfPostRule pton wide (AclEntry.bang isDeny ++ rest) =
          aclRule pton wide isDeny rest := by
      intro isDeny rest hbang
      cases isDeny with
      | true => rfl
      | false => exact if_neg (hbang rfl)
    cases he with
    | @host isDeny quad addr hbang hq hp =>
      rw [hrule hbang]
      refine aclRule_eq_ok.mpr ⟨quad, [], addr, -1, by simp, hq, rfl, hp, aclMask_nil.mpr rfl, rfl⟩
    | @net isDeny quad text addr m hm hbang hq hp hr hu hv =>
      have hhead : isDeny = false → (quad ++ 47 :: text).head? ≠ some 33 := by
        intro hd
        cases quad with
        | nil => simp
        | cons c quad => exact hbang hd
      rw [hrule hhead]
      refine aclRule_eq_ok.mpr ⟨quad, 47 :: text, addr, m, rfl, hq, rfl, hp,
        aclMask_slash.mpr ⟨hr, hu, hv, by omega, by omega⟩, ?_⟩
      rw [if_neg (show (m : Int) ≠ -1 by omega)]
      rfl

theorem phlAclConfPost_ok {strs : List Bytes} {rules : List AclRule}
    (h : phlAclConfPost pton wide strs = .ok rules) :
    ∃ entries, List.Forall₂ (AclEntry.Reads pton) strs entries ∧
      rules = entries.map (AclEntry.rule wide) := by
  unfold phlAclConfPost at h
  induction strs generalizing rules with
  | nil =>
    cases h
    exact ⟨[], .nil, rfl⟩
  | cons str strs ih =>
    rw [List.mapM_cons] at h
    cases hr : phlAclConfPostRule pton wide str with
    | error e => rw [hr] at h; cases h
    | ok rule =>
      cases hs : strs.mapM (phlAclConfPostRule pton wide) with
      | error e => rw [hr, hs] at h; cases h
      | ok rest =>
        rw [hr, hs] at h
        cases h
        obtain ⟨e, he, rfl⟩ := phlAclConfPostRule_eq_ok.mp hr
        obtain ⟨entries, hall, rfl⟩ := ih hs
        exact ⟨e :: entries, .cons he hall, rfl⟩

end Reading

section Decision

variable {wide addr : BitVec 32} {entries : List AclEntry}

/-- The address interval of a rule comes down to the address of its entry, if that has no bit past
the mask, and is empty otherwise. -/
theorem rule_matches {e : AclEntry} :
    (e.rule wide).start ≤ addr ∧ addr ≤ (e.rule wide).stop ↔ e.names wide addr = true := by
  obtain ⟨isDeny, a, mask, hm⟩ := e
  unfold AclEntry.names
  rw [Bool.and_eq_true, beq_iff_eq]
  cases mask with
  | none =>
    have hsame : a ≤ addr ∧ addr ≤ a ↔ addr = a := by
      constructor
      · exact fun h => BitVec.le_antisymm h.2 h.1
      · rintro rfl
        exact ⟨BitVec.le_refl _, BitVec.le_refl _⟩
    simpa [AclEntry.rule] using hsame
  | some m =>
    have hinterval : (AclEntry.rule wide ⟨isDeny, a, some m, hm⟩).start ≤ addr ∧
        addr ≤ (AclEntry.rule wide ⟨isDeny, a, some m, hm⟩).stop ↔
          addr = a ∧ a &&& shiftMax wide (32 - m) = a := Cidr.mem_interval_and
    rw [hinterval]
    cases m with
    | zero => simp [shiftMax]
    | succ m =>
      have hle : m + 1 ≤ 32 := hm _ rfl
      have hshift : shiftMax wide (32 - (m + 1)) = BitVec.allOnes 32 <<< (32 - (m + 1)) :=
        if_pos (by omega)
      rw [hshift, Cidr.and_mask_eq_self hle]
      simp

theorem contains_of_names {e : AclEntry} (h : e.names wide addr = true) :
    e.contains addr = true := by
  unfold AclEntry.names at h
  rw [Bool.and_eq_true, beq_iff_eq] at h
  unfold AclEntry.contains
  rw [h.1]
  cases e.mask with
  | none => simp
  | some m => exact decide_eq_true (Cidr.mem_block_self m e.addr)

/-- The first rule that names the client denies it, or none does and the last one allows. -/
theorem processHeaders_refuses :
    phlAclProcessHeaders (entries.map (AclEntry.rule wide)) addr = 403 ↔
      (∃ e, entries.find? (·.names wide addr) = some e ∧ e.isDeny = true) ∨
      entries.find? (·.names wide addr) = none ∧ ∃ last, entries.getLast? = some last ∧
        last.isDeny = false := by
  have hrun : ∀ (default : Int) (es : List AclEntry),
      aclRun addr default (es.map (AclEntry.rule wide)) = 403 ↔
        (∃ e, es.find? (·.names wide addr) = some e ∧ e.isDeny = true) ∨
        es.find? (·.names wide addr) = none ∧ default = 403 := by
    intro default es
    induction es with
    | nil => simp [aclRun]
    | cons e es ih =>
      rw [List.map_cons, aclRun, List.find?_cons]
      by_cases hname : e.names wide addr = true
      · rw [if_pos (rule_matches.mpr hname), hname]
        cases hd : e.isDeny <;> simp [AclEntry.rule, hd]
      · rw [if_neg (mt rule_matches.mp hname), ih]
        simp only [Bool.not_eq_true] at hname
        rw [hname]
  unfold phlAclProcessHeaders
  rw [List.getLast?_map]
  cases hl : entries.getLast? with
  | none =>
    rw [List.getLast?_eq_none_iff] at hl
    subst hl
    simp
  | some last =>
    rw [Option.map_some]
    refine (hrun _ entries).trans ?_
    cases hd : last.isDeny <;> simp [AclEntry.rule, hd]

end Decision

/-- Entries without a mask, or with one of 32 bits, name every client that they contain. -/
theorem aclAgrees_of_hosts {wide addr : BitVec 32} {entries : List AclEntry}
    (h : ∀ e ∈ entries, e.mask = none ∨ e.mask = some 32) : AclAgrees wide entries addr := by
  have hsame : ∀ e ∈ entries, e.contains addr = e.names wide addr := by
    intro e he
    unfold AclEntry.contains AclEntry.names
    rcases h e he with hm | hm
    · rw [hm]
      simp
    · rw [hm]
      have haligned : Cidr.Aligned 32 e.addr := Cidr.aligned_full e.addr
      by_cases ha : addr = e.addr
      · simp [ha, Cidr.mem_block_self, haligned]
      · simp [ha, Cidr.mem_block_full]
  intro e he
  rw [List.find?_congr hsame] at he
  exact .inl ⟨e, he, rfl⟩

/-- The list decides as its entries say exactly where the first entry that contains the client and
the first one that names it come to the same. -/
theorem acl_decides_iff {pton : Bytes → Option (BitVec 32)} {wide : BitVec 32}
    {strs : List Bytes} {rules : List AclRule} (h : phlAclConfPost pton wide strs = .ok rules) :
    ∃ entries, List.Forall₂ (AclEntry.Reads pton) strs entries ∧ ∀ addr,
      ((phlAclProcessHeaders rules addr = 403 ↔ AclRefuses entries addr) ↔
        AclAgrees wide entries addr) := by
  obtain ⟨entries, hreads, rfl⟩ := phlAclConfPost_ok h
  refine ⟨entries, hreads, fun addr => ?_⟩
  rw [processHeaders_refuses]
  unfold AclRefuses AclAgrees
  cases hc : entries.find? (·.contains addr) with
  | none =>
    have hn : entries.find? (·.names wide addr) = none := by
      rw [List.find?_eq_none] at hc ⊢
      exact fun e he hname => hc e he (contains_of_names hname)
    simp [hn]
  | some e =>
    cases hn : entries.find? (·.names wide addr) with
    | some e' => cases hd : e.isDeny <;> cases hd' : e'.isDeny <;> simp [hd, hd']
    | none =>
      cases hl : entries.getLast? with
      | none =>
        rw [List.getLast?_eq_none_iff] at hl
        subst hl
        cases hc
      | some last => cases hd : e.isDeny <;> cases hd' : last.isDeny <;> simp [hd, hd']

/-- A part of a dotted quad. -/
def octet (s : Bytes) : Option Nat :=
  if s ≠ [] ∧ s.all isDigit ∧ (s.head? ≠ some 48 ∨ s.length = 1) ∧ digitsValue s ≤ 255 then
    some (digitsValue s)
  else none

/-- `ntohl` of what `inet_pton` makes of a dotted quad. -/
def dottedQuad (s : Bytes) : Option (BitVec 32) :=
  match (s.splitOn 46).mapM octet with
  | some [a, b, c, d] => some (BitVec.ofNat 32 (((a * 256 + b) * 256 + c) * 256 + d))
  | _ => none

theorem acl_decides_iff_hosts : ∃ entries,
    List.Forall₂ (AclEntry.Reads dottedQuad) [bytes "!127.0.0.1/32", bytes "127.0.0.2"] entries ∧
    ∀ addr, ((phlAclProcessHeaders [⟨0x7f000001, 0x7f000001, true⟩, ⟨0x7f000002, 0x7f000002, false⟩]
      addr = 403 ↔ AclRefuses entries addr) ↔ AclAgrees 0 entries addr) :=
  @acl_decides_iff dottedQuad 0 [bytes "!127.0.0.1/32", bytes "127.0.0.2"] _ rfl

/-- With `10.0.0.0/8` as the only rule, `10.1.2.3` is refused by the default. -/
theorem acl_refuses_allowed_block : ∃ rules entries,
    phlAclConfPost dottedQuad 0 [bytes "10.0.0.0/8"] = .ok rules ∧
    List.Forall₂ (AclEntry.Reads dottedQuad) [bytes "10.0.0.0/8"] entries ∧
    ¬(phlAclProcessHeaders rules 0x0a010203 = 403 ↔ AclRefuses entries 0x0a010203) := by
  have hread : AclEntry.Reads dottedQuad (bytes "10.0.0.0/8") (.net false 0x0a000000 8 (by decide)) :=
    @AclEntry.Reads.net dottedQuad false (bytes "10.0.0.0") (bytes "8") _ _ _ (by decide)
      (by decide) rfl rfl rfl rfl
  refine ⟨[⟨0x0a000000, 0x0a000000, false⟩], [.net false 0x0a000000 8 (by decide)], rfl,
    .cons hread .nil, fun h => ?_⟩
  have hrefused : AclRefuses [.net false 0x0a000000 8 (by decide)] 0x0a010203 := h.mp (by decide)
  rcases hrefused with ⟨e, he, hd⟩ | ⟨hnone, -⟩
  · have hfirst : e = .net false 0x0a000000 8 (by decide) := by
      have hfind : List.find? (·.contains 0x0a010203) [AclEntry.net false 0x0a000000 8 (by decide)] =
          some (.net false 0x0a000000 8 (by decide)) := by decide
      exact Option.some.inj (he.symm.trans hfind)
    rw [hfirst] at hd
    cases hd
  · exact absurd hnone (by decide)

end Phorklift
