import Phorklift.HostLocate
import Phorklift.RequestSteps

/-! The spellings of one hostname, in requests and in TLS handshakes. -/

namespace Phorklift

/-- A hostname as a C string. -/
structure Hostname where
  name : Bytes
  nonempty : name ≠ []
  noNul : (0 : UInt8) ∉ name

/-- The Host of a request whose Host header or `:authority` is `hostStr`. -/
def requestHost (t : HostTable) (hostStr : Bytes) : Option HostId :=
  phlConfHostLocate t (phlRequestSetHost .init hostStr).2.host

/-- `c->ssl_sni_conf_host` after the callback, for the server name that the client has sent. -/
def phlSslSniCallback (t : HostTable) (servername : Bytes) : Option HostId :=
  phlConfHostLocate t (some (cstr servername))

/-- The hostname, by the key that it is registered under, that the rule of longest match takes for
`name` as it is spelled. -/
inductive Decides (hosts : HostList) (name : Bytes) : Option Bytes → Prop
  | exact {host} : Listed hosts name host → Decides hosts name (some name)
  | leading {s host} : (∀ h, ¬Listed hosts name h) → MatchesLeading hosts name s host →
      (∀ s' h, MatchesLeading hosts name s' h → s'.length ≤ s.length) →
      Decides hosts name (some (42 :: 46 :: s))
  | tail {p host} : (∀ h, ¬Listed hosts name h) → (∀ s h, ¬MatchesLeading hosts name s h) →
      MatchesTail hosts name p host →
      (∀ p' h, MatchesTail hosts name p' h → p'.length ≤ p.length) →
      Decides hosts name (some (p ++ [46, 42]))
  | wildcard {host} : (∀ h, ¬Listed hosts name h) → (∀ s h, ¬MatchesLeading hosts name s h) →
      (∀ p h, ¬MatchesTail hosts name p h) → (host, [42]) ∈ hosts.entries →
      Decides hosts name none

/-- The Host has a hostname with this key. -/
def Owns (hosts : HostList) (host : HostId) (key : Option Bytes) : Prop :=
  ∃ s, (host, s) ∈ hosts.entries ∧ hostKey s = key

/-- The hostnames that decide for two spellings are of one Host, or none decides for either. -/
def OneOwner (hosts : HostList) (a b : Bytes) : Prop :=
  (∀ k, Decides hosts a k → ∃ k' host, Decides hosts b k' ∧ Owns hosts host k ∧
    Owns hosts host k') ∧
  ∀ k', Decides hosts b k' → ∃ k, Decides hosts a k

section Spelling

variable {hosts : HostList} {t : HostTable} {name a b : Bytes} {host : HostId} {k : Option Bytes}

theorem owns_of_listed {n : Bytes} (h : Listed hosts n host) : Owns hosts host (some n) := by
  obtain ⟨s, hs, hkey⟩ := h
  exact ⟨s, hs, hostKey_eq_some.mpr hkey⟩

theorem listed_of_owns {n : Bytes} (h : Owns hosts host (some n)) : Listed hosts n host := by
  obtain ⟨s, hs, hkey⟩ := h
  exact ⟨s, hs, hostKey_eq_some.mp hkey⟩

theorem star_of_owns (h : Owns hosts host none) : (host, [42]) ∈ hosts.entries := by
  obtain ⟨s, hs, hkey⟩ := h
  exact hostKey_eq_none.mp hkey ▸ hs

/-- What is selected is the owner of the hostname that decides. -/
theorem Selects.decides (h : Selects hosts name (some host)) :
    ∃ k, Decides hosts name k ∧ Owns hosts host k := by
  generalize hr : some host = r at h
  cases h with
  | exact hl =>
    cases hr
    exact ⟨_, .exact hl, owns_of_listed hl⟩
  | leading hnot hmatch hlongest =>
    cases hr
    exact ⟨_, .leading hnot hmatch hlongest, owns_of_listed hmatch.2⟩
  | tail hnot hnone hmatch hlongest =>
    cases hr
    exact ⟨_, .tail hnot hnone hmatch hlongest, owns_of_listed hmatch.2⟩
  | wildcard hnot hnone hnone' hwild =>
    have hstar := (hwild host).mp hr.symm
    exact ⟨none, .wildcard hnot hnone hnone' hstar, [42], hstar, rfl⟩

theorem Decides.selects (h : Registered hosts.entries t) (hk : Decides hosts name k)
    (hown : Owns hosts host k) : Selects hosts name (some host) := by
  cases hk with
  | exact => exact .exact (listed_of_owns hown)
  | leading hnot hmatch hlongest =>
    exact .leading hnot ⟨hmatch.1, listed_of_owns hown⟩ hlongest
  | tail hnot hnone hmatch hlongest =>
    exact .tail hnot hnone ⟨hmatch.1, listed_of_owns hown⟩ hlongest
  | wildcard hnot hnone hnone' =>
    refine .wildcard hnot hnone hnone' fun g => ?_
    rw [← h.wildcard, (h.wildcard host).mpr (star_of_owns hown)]

theorem Decides.owned (hk : Decides hosts name k) : ∃ host, Owns hosts host k := by
  cases hk with
  | exact hl => exact ⟨_, owns_of_listed hl⟩
  | leading _ hmatch => exact ⟨_, owns_of_listed hmatch.2⟩
  | tail _ _ hmatch => exact ⟨_, owns_of_listed hmatch.2⟩
  | wildcard _ _ _ hstar => exact ⟨_, [42], hstar, rfl⟩

theorem Registered.locate_some (h : Registered hosts.entries t) :
    phlConfHostLocate t (some name) = some host ↔ ∃ k, Decides hosts name k ∧ Owns hosts host k := by
  have hsel := h.selects name
  constructor
  · intro hlocate
    rw [hlocate] at hsel
    exact hsel.decides
  · rintro ⟨k, hk, hown⟩
    exact h.selects_unique hsel (hk.selects h hown)

theorem Registered.locate_eq (h : Registered hosts.entries t) :
    phlConfHostLocate t (some b) = phlConfHostLocate t (some a) ↔ OneOwner hosts a b := by
  constructor
  · intro heq
    refine ⟨fun k hk => ?_, fun k' hk' => ?_⟩
    · obtain ⟨host, hown⟩ := hk.owned
      have hlocate := h.locate_some.mpr ⟨k, hk, hown⟩
      rw [← heq] at hlocate
      obtain ⟨k', hk', hown'⟩ := h.locate_some.mp hlocate
      exact ⟨k', host, hk', hown, hown'⟩
    · obtain ⟨host, hown⟩ := hk'.owned
      have hlocate := h.locate_some.mpr ⟨k', hk', hown⟩
      rw [heq] at hlocate
      obtain ⟨k, hk, -⟩ := h.locate_some.mp hlocate
      exact ⟨k, hk⟩
  · rintro ⟨hforth, hback⟩
    have hsome : ∀ k, Decides hosts a k →
        phlConfHostLocate t (some b) = phlConfHostLocate t (some a) := by
      intro k hk
      obtain ⟨k', host, hk', hown, hown'⟩ := hforth k hk
      rw [h.locate_some.mpr ⟨k, hk, hown⟩, h.locate_some.mpr ⟨k', hk', hown'⟩]
    cases ha : phlConfHostLocate t (some a) with
    | some host =>
      obtain ⟨k, hk, -⟩ := h.locate_some.mp ha
      exact (hsome k hk).trans ha
    | none =>
      cases hb : phlConfHostLocate t (some b) with
      | none => rfl
      | some host =>
        obtain ⟨k', hk', -⟩ := h.locate_some.mp hb
        obtain ⟨k, hk⟩ := hback k' hk'
        exact (hb.symm.trans (hsome k hk)).trans ha

theorem requestHost_eq (t : HostTable) (h : Hostname) :
    requestHost t h.name = phlConfHostLocate t (some (lower h.name)) := by
  unfold requestHost phlRequestSetHost
  dsimp only [Req.init]
  rw [cstr_of_nul_free h.noNul]

theorem phlSslSniCallback_eq (t : HostTable) (h : Hostname) :
    phlSslSniCallback t h.name = phlConfHostLocate t (some h.name) := by
  unfold phlSslSniCallback
  rw [cstr_of_nul_free h.noNul]

/-- Every spelling of a hostname is located to the Host of the hostname, in requests and in
handshakes, exactly if neither the tail dot nor the letter case changes whose hostname decides. -/
theorem host_spellings_iff (h : phlConfHostRegister hosts = .ok t) {named spelled : Hostname}
    (hkey : hostSearchName spelled.name = hostSearchName named.name) :
    (requestHost t spelled.name = requestHost t named.name ∧
        phlSslSniCallback t spelled.name = requestHost t named.name) ↔
      (lower spelled.name = lower named.name ∨
        OneOwner hosts (hostSearchName named.name) (hostSearchName named.name ++ [46])) ∧
      OneOwner hosts (lower spelled.name) spelled.name := by
  have hreg := registered_of_register h
  rw [requestHost_eq, requestHost_eq, phlSslSniCallback_eq]
  have hdot : phlConfHostLocate t (some (lower spelled.name)) =
      phlConfHostLocate t (some (lower named.name)) ↔
        lower spelled.name = lower named.name ∨
          OneOwner hosts (hostSearchName named.name) (hostSearchName named.name ++ [46]) := by
    rw [← hreg.locate_eq]
    have hspelled := lower_eq_key spelled.name
    rw [hkey] at hspelled
    constructor
    · intro heq
      rcases lower_eq_key named.name with hnamed | hnamed <;> rcases hspelled with hs | hs
      · exact .inl (hs.trans hnamed.symm)
      · rw [hs, hnamed] at heq
        exact .inr heq
      · rw [hs, hnamed] at heq
        exact .inr heq.symm
      · exact .inl (hs.trans hnamed.symm)
    · rintro (heq | heq)
      · rw [heq]
      · rcases lower_eq_key named.name with hnamed | hnamed <;> rcases hspelled with hs | hs
        · rw [hs, hnamed]
        · rw [hs, hnamed, heq]
        · rw [hs, hnamed, heq]
        · rw [hs, hnamed]
  rw [← hdot, ← hreg.locate_eq]
  constructor
  · rintro ⟨hreq, hsni⟩
    exact ⟨hreq, hsni.trans hreq.symm⟩
  · rintro ⟨hreq, hsni⟩
    exact ⟨hreq, hsni.trans hreq⟩

end Spelling

def dotted : Hostname := ⟨bytes "www.example.org.", by decide, by decide⟩

def undotted : Hostname := ⟨bytes "www.example.org", by decide, by decide⟩

/-- `www.example.*` is found with the dot and without it. -/
theorem host_spellings_iff_tail : ∃ t, phlConfHostRegister exampleHosts = .ok t ∧
    OneOwner exampleHosts (bytes "www.example.org") (bytes "www.example.org.") := by
  have hrun : (phlConfHostRegister exampleHosts).map (fun t =>
      (requestHost t dotted.name, requestHost t undotted.name, phlSslSniCallback t dotted.name)) =
      .ok (some 4, some 4, some 4) := by rfl
  cases h : phlConfHostRegister exampleHosts with
  | error err =>
    rw [h] at hrun
    cases hrun
  | ok t =>
    rw [h] at hrun
    obtain ⟨hdotted, hrest⟩ := Prod.mk.inj (Except.ok.inj hrun)
    obtain ⟨hundotted, hsni⟩ := Prod.mk.inj hrest
    refine ⟨t, rfl, ?_⟩
    have hkey : hostSearchName dotted.name = hostSearchName undotted.name := by decide
    have hboth := ((host_spellings_iff h hkey).mp
      ⟨hdotted.trans hundotted.symm, hsni.trans hundotted.symm⟩).1
    exact hboth.resolve_left (by decide)

/-- The Host of `www.example.com` is not found for `www.example.com.` in a request, nor for
`WWW.example.com` in a handshake. -/
theorem host_spellings_missed : ∃ t, phlConfHostRegister exampleHosts = .ok t ∧
    hostSearchName (bytes "www.example.com.") = bytes "www.example.com" ∧
    hostSearchName (bytes "WWW.example.com") = bytes "www.example.com" ∧
    requestHost t (bytes "www.example.com") = some 0 ∧
    requestHost t (bytes "www.example.com.") = some 4 ∧
    phlSslSniCallback t (bytes "WWW.example.com") = some 2 := by
  have hrun : (phlConfHostRegister exampleHosts).map (fun t =>
      (requestHost t (bytes "www.example.com"), requestHost t (bytes "www.example.com."),
        phlSslSniCallback t (bytes "WWW.example.com"))) = .ok (some 0, some 4, some 2) := by rfl
  cases h : phlConfHostRegister exampleHosts with
  | error err =>
    rw [h] at hrun
    cases hrun
  | ok t =>
    rw [h] at hrun
    obtain ⟨hexact, hrest⟩ := Prod.mk.inj (Except.ok.inj hrun)
    obtain ⟨hdot, hsni⟩ := Prod.mk.inj hrest
    exact ⟨t, rfl, by decide, by decide, hexact, hdot, hsni⟩

end Phorklift
