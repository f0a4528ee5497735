import Phorklift.Bytes
import Phorklift.Transition
import Mathlib.Data.List.Count
import Mathlib.Data.List.Nodup

/-! The listening sockets of the configurations that the master process loads. -/

namespace Phorklift

open Transition

/-- An address of a Listen, with its entries in `fds` and `reuse_magics`. -/
structure ListenAddress where
  address : Bytes
  fd : Nat
  reuseMagic : Nat
  deriving DecidableEq, Repr

/-- A Listen of a configuration file: its addresses and whether a new socket can listen on each,
whether its commands are parsed, and whether the checks after its sockets succeed. -/
structure NewListen where
  addresses : List (Bytes × Bool)
  parses : Bool
  checks : Bool

/-- A descriptor stands for its socket, numbered as opened. -/
structure Sockets where
  /-- the addresses of `phl_conf_listens`, in the order of the two loops; none where it is NULL -/
  listens : List ListenAddress
  /-- the address of each socket -/
  opened : List Bytes
  deriving DecidableEq

structure ListenWorld extends Sockets where
  /-- `phl_conf_reload_count` -/
  reloadCount : Nat
  /-- the arguments of `close` -/
  closes : List Nat
  deriving DecidableEq

/-- The descriptor of the first entry with the address, and the entries with that one's magic
set. -/
def phlConfListenReuseFd (reloadCount : Nat) (address : Bytes) :
    List ListenAddress → Option (Nat × List ListenAddress)
  | [] => none
  | e :: es =>
    if e.address = address then some (e.fd, { e with reuseMagic := reloadCount } :: es)
    else (phlConfListenReuseFd reloadCount address es).map fun x => (x.1, e :: x.2)

/-- The loop over the addresses in `phl_conf_listen_post`: what it has filled in, and whether it
came to its end. The magics are in memory that is zeroed. -/
def listenOnAddresses (reloadCount : Nat) :
    List (Bytes × Bool) → Sockets → Sockets × List ListenAddress × Bool
  | [], s => (s, [], true)
  | (address, canListen) :: rest, s =>
    match phlConfListenReuseFd reloadCount address s.listens with
    | some (fd, listens) =>
      let after := listenOnAddresses reloadCount rest { s with listens := listens }
      (after.1, ⟨address, fd, reloadCount⟩ :: after.2.1, after.2.2)
    | none =>
      if canListen then
        let after := listenOnAddresses reloadCount rest { s with opened := s.opened ++ [address] }
        (after.1, ⟨address, s.opened.length, 0⟩ :: after.2.1, after.2.2)
      else (s, [], false)

/-- The Listens one after the other, up to the first error: the entries of those whose post
callback succeeded, and whether all did. -/
def parseListens (reloadCount : Nat) :
    List NewListen → Sockets → Sockets × List ListenAddress × Bool
  | [], s => (s, [], true)
  | l :: ls, s =>
    if l.parses = false then (s, [], false)
    else
      let posted := listenOnAddresses reloadCount l.addresses s
      if posted.2.2 && l.checks then
        let after := parseListens reloadCount ls posted.1
        (after.1, posted.2.1 ++ after.2.1, after.2.2)
      else (posted.1, [], false)

/-- `phl_conf_listen_free` of the Listens with these entries. -/
def phlConfListenFree (entries : List ListenAddress) (w : ListenWorld) : ListenWorld :=
  { w with closes := w.closes ++
      (entries.filter fun e => e.reuseMagic < w.reloadCount).map ListenAddress.fd }

/-- `phl_conf_parse`; `none` is a file that is refused before its Listens. -/
def phlConfParse (file : Option (List NewListen)) (w : ListenWorld) : ListenWorld :=
  let w := { w with reloadCount := w.reloadCount + 1 }
  match file with
  | none => w
  | some ls =>
    let parsed := parseListens w.reloadCount ls w.toSockets
    let w := { w with toSockets := parsed.1 }
    if parsed.2.2 ∧ ls ≠ [] then { phlConfListenFree w.listens w with listens := parsed.2.1 }
    else phlConfListenFree parsed.2.1 w

/-- The configuration file is loaded, first or again. -/
def ReloadStep (ok : ListenWorld → Option (List NewListen) → Prop) (w w' : ListenWorld) : Prop :=
  ∃ file, ok w file ∧ w' = phlConfParse file w

def ReloadStart (w : ListenWorld) : Prop := w = ⟨⟨[], []⟩, 0, []⟩

/-- The sockets of the running configuration are open, and all others were closed once. -/
structure SocketsOwned (w : ListenWorld) : Prop where
  listens : ∀ e ∈ w.listens, w.opened[e.fd]? = some e.address
  kept : ∀ e ∈ w.listens, e.fd ∉ w.closes
  closed : ∀ fd < w.opened.length, fd ∉ w.listens.map ListenAddress.fd → w.closes.count fd = 1

/-- The addresses of a Listen that get a descriptor, up to the first that does not, where `running`
are those of the running configuration. -/
def takenAddresses (running : List Bytes) (addresses : List (Bytes × Bool)) : List (Bytes × Bool) :=
  addresses.takeWhile fun x => decide (x.1 ∈ running) || x.2

/-- All of the Listen is taken. -/
def NewListen.Taken (running : List Bytes) (l : NewListen) : Prop :=
  l.parses = true ∧ takenAddresses running l.addresses = l.addresses ∧ l.checks = true

/-- A configuration that is taken gives no running address twice. -/
def ReusesOnce (running : List Bytes) (ls : List NewListen) : Prop :=
  (∀ l ∈ ls, l.Taken running) → ∀ address ∈ running,
    (ls.flatMap fun l => l.addresses.map Prod.fst).count address ≤ 1

/-- The Listen at which a configuration fails has opened no socket by then. -/
def FailsUnopened (running : List Bytes) (ls : List NewListen) : Prop :=
  ∀ before l after, ls = before ++ l :: after → (∀ b ∈ before, b.Taken running) →
    ¬l.Taken running → l.parses = true → ∀ x ∈ takenAddresses running l.addresses, x.1 ∈ running

def ReloadsCleanly (w : ListenWorld) (file : Option (List NewListen)) : Prop :=
  ∀ ls, file = some ls → ReusesOnce (w.listens.map ListenAddress.address) ls ∧
    FailsUnopened (w.listens.map ListenAddress.address) ls

def ListenAddress.key (e : ListenAddress) : Bytes × Nat := (e.address, e.fd)

section Reuse

variable {n fd : Nat} {address : Bytes} {es es' : List ListenAddress}

theorem reuseFd_eq_none : phlConfListenReuseFd n address es = none ↔
    address ∉ es.map ListenAddress.address := by
  induction es with
  | nil => simp [phlConfListenReuseFd]
  | cons e es ih =>
    unfold phlConfListenReuseFd
    rw [List.map_cons, List.mem_cons, not_or]
    split
    next heq => exact iff_of_false nofun fun hand => hand.1 heq.symm
    next hne =>
      rw [Option.map_eq_none_iff, ih]
      exact ⟨fun hnot => ⟨fun heq => hne heq.symm, hnot⟩, And.right⟩

theorem reuseFd_eq_some (h : phlConfListenReuseFd n address es = some (fd, es')) :
    ∃ pre e post, es = pre ++ e :: post ∧ e.address = address ∧ e.fd = fd ∧
      es' = pre ++ { e with reuseMagic := n } :: post := by
  induction es generalizing es' with
  | nil => cases h
  | cons e es ih =>
    unfold phlConfListenReuseFd at h
    split at h
    next heq =>
      cases h
      exact ⟨[], e, es, rfl, heq, rfl, rfl⟩
    next =>
      obtain ⟨x, hx, he⟩ := Option.map_eq_some_iff.mp h
      cases he
      obtain ⟨pre, e', post, rfl, haddress, hfd, hes⟩ := ih hx
      exact ⟨e :: pre, e', post, rfl, haddress, hfd, by rw [hes]; rfl⟩

end Reuse

section Listening

variable {n : Nat} {s s' s'' : Sockets} {es es' : List ListenAddress}

/-- What filling in the entries `es` does to the running configuration and to the sockets. -/
structure Listened (n : Nat) (s s' : Sockets) (es : List ListenAddress) : Prop where
  same : s'.listens.map ListenAddress.key = s.listens.map ListenAddress.key
  magics : ∀ e' ∈ s'.listens, (∃ e ∈ s.listens, e.key = e'.key ∧ e'.reuseMagic = e.reuseMagic) ∨
    e'.reuseMagic = n ∧ e'.fd ∈ es.map ListenAddress.fd
  stamped : ∀ p ∈ es, p.reuseMagic = n → ∀ e' ∈ s'.listens, e'.fd = p.fd → e'.reuseMagic = n
  opened : ∃ added, s'.opened = s.opened ++ added
  entries : ∀ p ∈ es, p.reuseMagic = n ∧ p.key ∈ s.listens.map ListenAddress.key ∨
    p.reuseMagic = 0 ∧ s.opened.length ≤ p.fd ∧ s'.opened[p.fd]? = some p.address ∧
      p.address ∉ s.listens.map ListenAddress.address
  fresh : ∀ fd, s.opened.length ≤ fd → fd < s'.opened.length →
    (es.filter fun p => p.reuseMagic ≠ n).countP (fun p => p.fd = fd) = 1

theorem address_of_key : s.listens.map ListenAddress.address =
    (s.listens.map ListenAddress.key).map Prod.fst := by
  rw [List.map_map]
  rfl

theorem fd_of_key : s.listens.map ListenAddress.fd =
    (s.listens.map ListenAddress.key).map Prod.snd := by
  rw [List.map_map]
  rfl

theorem Listened.addresses (h : Listened n s s' es) :
    s'.listens.map ListenAddress.address = s.listens.map ListenAddress.address := by
  rw [address_of_key, address_of_key, h.same]

theorem Listened.fds (h : Listened n s s' es) :
    s'.listens.map ListenAddress.fd = s.listens.map ListenAddress.fd := by
  rw [fd_of_key, fd_of_key, h.same]

theorem listened_nil (n : Nat) (s : Sockets) : Listened n s s [] where
  same := rfl
  magics e' he' := .inl ⟨e', he', rfl, rfl⟩
  stamped := nofun
  opened := ⟨[], by rw [List.append_nil]⟩
  entries := nofun
  fresh fd hle hlt := by omega

theorem Listened.fd_lt (h : Listened n s s' es) {p : ListenAddress} (hp : p ∈ es)
    (hfresh : p.reuseMagic ≠ n) : s.opened.length ≤ p.fd ∧ p.fd < s'.opened.length := by
  rcases h.entries p hp with hreused | ⟨-, hle, hget, -⟩
  · exact absurd hreused.1 hfresh
  · obtain ⟨hlt, -⟩ := List.getElem?_eq_some_iff.mp hget
    exact ⟨hle, hlt⟩

theorem Listened.countP_outside (h : Listened n s s' es) {fd : Nat}
    (hout : fd < s.opened.length ∨ s'.opened.length ≤ fd) :
    (es.filter fun p => p.reuseMagic ≠ n).countP (fun p => p.fd = fd) = 0 := by
  rw [List.countP_eq_zero]
  intro p hp heq
  rw [List.mem_filter, decide_eq_true_iff] at hp
  have hbounds := h.fd_lt hp.1 hp.2
  have hfd := of_decide_eq_true heq
  omega

theorem Listened.append (h : Listened n s s' es) (h' : Listened n s' s'' es') :
    Listened n s s'' (es ++ es') where
  same := h'.same.trans h.same
  magics := by
    intro e'' he''
    rcases h'.magics e'' he'' with ⟨e', he', hkey', hmagic'⟩ | ⟨hn, hfd⟩
    · rcases h.magics e' he' with ⟨e, he, hkey, hmagic⟩ | ⟨hn, hfd⟩
      · exact .inl ⟨e, he, hkey.trans hkey', hmagic'.trans hmagic⟩
      · have hfd' : e'.fd = e''.fd := (Prod.mk.inj hkey').2
        refine .inr ⟨hmagic'.trans hn, ?_⟩
        rw [List.map_append, List.mem_append, ← hfd']
        exact .inl hfd
    · refine .inr ⟨hn, ?_⟩
      rw [List.map_append, List.mem_append]
      exact .inr hfd
  stamped := by
    intro p hp hn e'' he'' hfd
    rcases List.mem_append.mp hp with hp | hp
    · rcases h'.magics e'' he'' with ⟨e', he', hkey, hmagic⟩ | ⟨hn', -⟩
      · have hfd' : e'.fd = e''.fd := (Prod.mk.inj hkey).2
        exact hmagic.trans (h.stamped p hp hn e' he' (hfd'.trans hfd))
      · exact hn'
    · exact h'.stamped p hp hn e'' he'' hfd
  opened := by
    obtain ⟨added, hadded⟩ := h.opened
    obtain ⟨added', hadded'⟩ := h'.opened
    exact ⟨added ++ added', by rw [hadded', hadded, List.append_assoc]⟩
  entries := by
    obtain ⟨added, hadded⟩ := h.opened
    obtain ⟨added', hadded'⟩ := h'.opened
    intro p hp
    rcases List.mem_append.mp hp with hp | hp
    · rcases h.entries p hp with hreused | ⟨hzero, hle, hget, hnot⟩
      · exact .inl hreused
      · obtain ⟨hlt, -⟩ := List.getElem?_eq_some_iff.mp hget
        refine .inr ⟨hzero, hle, ?_, hnot⟩
        rw [hadded', List.getElem?_append_left hlt, hget]
    · rcases h'.entries p hp with ⟨hn, hkey⟩ | ⟨hzero, hle, hget, hnot⟩
      · exact .inl ⟨hn, h.same ▸ hkey⟩
      · rw [hadded, List.length_append] at hle
        exact .inr ⟨hzero, by omega, hget, h.addresses ▸ hnot⟩
  fresh := by
    intro fd hle hlt
    rw [List.filter_append, List.countP_append]
    by_cases hfirst : fd < s'.opened.length
    · rw [h.fresh fd hle hfirst, h'.countP_outside (.inl hfirst)]
    · rw [h'.fresh fd (by omega) hlt, h.countP_outside (.inr (by omega))]

theorem listened_reuse {address : Bytes} {fd : Nat} {listens : List ListenAddress}
    (hnodup : (s.listens.map ListenAddress.fd).Nodup)
    (h : phlConfListenReuseFd n address s.listens = some (fd, listens)) :
    Listened n s { s with listens := listens } [⟨address, fd, n⟩] := by
  obtain ⟨pre, e, post, hsplit, rfl, rfl, rfl⟩ := reuseFd_eq_some h
  have hmem : e ∈ s.listens := by
    rw [hsplit]
    simp
  constructor
  · rw [hsplit]
    simp [ListenAddress.key]
  · intro e' he'
    rcases List.mem_append.mp he' with hpre | hrest
    · exact .inl ⟨e', by rw [hsplit]; simp [hpre], rfl, rfl⟩
    · rcases List.mem_cons.mp hrest with rfl | hpost
      · exact .inr ⟨rfl, by simp⟩
      · exact .inl ⟨e', by rw [hsplit]; simp [hpost], rfl, rfl⟩
  · intro p hp _ e' he' hfd
    rw [List.mem_singleton] at hp
    subst hp
    have hparts : ∀ x, x ∈ pre ∨ x ∈ post → x.fd ≠ e.fd := by
      intro x hx heq
      rw [hsplit, List.map_append, List.map_cons, List.nodup_middle, List.nodup_cons,
        ← List.map_append] at hnodup
      refine hnodup.1 (List.mem_map.mpr ⟨x, List.mem_append.mpr hx, heq⟩)
    rcases List.mem_append.mp he' with hpre | hrest
    · exact absurd hfd (hparts e' (.inl hpre))
    · rcases List.mem_cons.mp hrest with rfl | hpost
      · rfl
      · exact absurd hfd (hparts e' (.inr hpost))
  · exact ⟨[], by rw [List.append_nil]⟩
  · intro p hp
    rw [List.mem_singleton] at hp
    subst hp
    exact .inl ⟨rfl, List.mem_map.mpr ⟨e, hmem, rfl⟩⟩
  · intro fd hle hlt
    exact absurd hlt (Nat.not_lt.mpr hle)

theorem listened_open {address : Bytes} (hn : n ≠ 0)
    (h : address ∉ s.listens.map ListenAddress.address) :
    Listened n s { s with opened := s.opened ++ [address] } [⟨address, s.opened.length, 0⟩] := by
  constructor
  · rfl
  · exact fun e' he' => .inl ⟨e', he', rfl, rfl⟩
  · intro p hp hpn
    rw [List.mem_singleton] at hp
    rw [hp] at hpn
    exact absurd hpn.symm hn
  · exact ⟨[address], rfl⟩
  · intro p hp
    rw [List.mem_singleton] at hp
    subst hp
    exact .inr ⟨rfl, le_rfl, by simp, h⟩
  · intro fd hle hlt
    have hlast : s.opened.length = fd := by
      rw [List.length_append, List.length_singleton] at hlt
      omega
    simp [hn.symm, hlast]

theorem listenOnAddresses_listened (hn : n ≠ 0) (addresses : List (Bytes × Bool))
    (hnodup : (s.listens.map ListenAddress.fd).Nodup) :
    Listened n s (listenOnAddresses n addresses s).1 (listenOnAddresses n addresses s).2.1 ∧
      (listenOnAddresses n addresses s).2.1.map ListenAddress.address =
        (takenAddresses (s.listens.map ListenAddress.address) addresses).map Prod.fst ∧
      ((listenOnAddresses n addresses s).2.2 = true ↔
        takenAddresses (s.listens.map ListenAddress.address) addresses = addresses) := by
  induction addresses generalizing s with
  | nil => exact ⟨listened_nil n s, rfl, iff_of_true rfl rfl⟩
  | cons x addresses ih =>
    obtain ⟨address, canListen⟩ := x
    unfold listenOnAddresses takenAddresses
    split
    next fd listens hreuse =>
      have hmem : address ∈ s.listens.map ListenAddress.address := by
        by_contra hnot
        rw [reuseFd_eq_none.mpr hnot] at hreuse
        cases hreuse
      have hfirst := listened_reuse hnodup hreuse
      obtain ⟨hrest, haddresses, hall⟩ := ih (s := { s with listens := listens })
        (hfirst.fds ▸ hnodup)
      rw [hfirst.addresses] at haddresses hall
      refine ⟨hfirst.append hrest, ?_, ?_⟩
      · rw [List.takeWhile_cons_of_pos (by simp only [hmem, decide_true, Bool.true_or])]
        exact congrArg (address :: ·) haddresses
      · rw [List.takeWhile_cons_of_pos (by simp only [hmem, decide_true, Bool.true_or])]
        rw [List.cons.injEq, and_iff_right rfl]
        exact hall
    next hreuse =>
      have hnot := reuseFd_eq_none.mp hreuse
      split
      next hcan =>
        have hfirst := listened_open hn hnot
        obtain ⟨hrest, haddresses, hall⟩ := ih (s := { s with opened := s.opened ++ [address] })
          hnodup
        refine ⟨hfirst.append hrest, ?_, ?_⟩
        · rw [List.takeWhile_cons_of_pos (by simp [hcan])]
          exact congrArg (address :: ·) haddresses
        · rw [List.takeWhile_cons_of_pos (by simp [hcan]), List.cons.injEq, and_iff_right rfl]
          exact hall
      next hcannot =>
        rw [List.takeWhile_cons_of_neg (by simp [hnot, hcannot])]
        exact ⟨listened_nil n s, rfl, iff_of_false nofun nofun⟩

/-- The entries that the Listens fill in are those of the Listens that are taken, and those of the
one that fails. -/
theorem parseListens_listened (hn : n ≠ 0) (ls : List NewListen)
    (hnodup : (s.listens.map ListenAddress.fd).Nodup) :
    ∃ lost, Listened n s (parseListens n ls s).1 ((parseListens n ls s).2.1 ++ lost) ∧
      ((parseListens n ls s).2.2 = true → lost = [] ∧
        (∀ l ∈ ls, l.Taken (s.listens.map ListenAddress.address)) ∧
        (parseListens n ls s).2.1.map ListenAddress.address =
          ls.flatMap fun l => l.addresses.map Prod.fst) ∧
      ((parseListens n ls s).2.2 = false → ∃ before l after, ls = before ++ l :: after ∧
        (∀ b ∈ before, b.Taken (s.listens.map ListenAddress.address)) ∧
        ¬l.Taken (s.listens.map ListenAddress.address) ∧
        (l.parses = false → lost = []) ∧
        (l.parses = true → lost.map ListenAddress.address =
          (takenAddresses (s.listens.map ListenAddress.address) l.addresses).map Prod.fst)) := by
  induction ls generalizing s with
  | nil => exact ⟨[], listened_nil n s, fun _ => ⟨rfl, nofun, rfl⟩, nofun⟩
  | cons l ls ih =>
    unfold parseListens
    split
    next hparses =>
      refine ⟨[], listened_nil n s, nofun, fun _ => ⟨[], l, ls, rfl, nofun, ?_, fun _ => rfl, ?_⟩⟩
      · intro htaken
        rw [htaken.1] at hparses
        cases hparses
      · intro htrue
        rw [htrue] at hparses
        cases hparses
    next hparses =>
      rw [Bool.not_eq_false] at hparses
      obtain ⟨hfirst, haddresses, hall⟩ := listenOnAddresses_listened hn l.addresses hnodup
      dsimp only
      split
      next hposted =>
        rw [Bool.and_eq_true] at hposted
        have htaken : l.Taken (s.listens.map ListenAddress.address) :=
          ⟨hparses, hall.mp hposted.1, hposted.2⟩
        rw [htaken.2.1] at haddresses
        obtain ⟨lost, hrest, hok, hfails⟩ := ih (hfirst.fds ▸ hnodup)
        rw [hfirst.addresses] at hok hfails
        refine ⟨lost, ?_, ?_, ?_⟩
        · rw [List.append_assoc]
          exact hfirst.append hrest
        · intro hdone
          obtain ⟨hlost, hls, hmap⟩ := hok hdone
          refine ⟨hlost, ?_, ?_⟩
          · intro m hm
            rcases List.mem_cons.mp hm with rfl | hm
            · exact htaken
            · exact hls m hm
          · rw [List.map_append, haddresses, hmap, List.flatMap_cons]
        · intro hfailed
          obtain ⟨before, m, after, hsplit, hbefore, hrest⟩ := hfails hfailed
          refine ⟨l :: before, m, after, by rw [hsplit]; rfl, ?_, hrest⟩
          intro b hb
          rcases List.mem_cons.mp hb with rfl | hb
          · exact htaken
          · exact hbefore b hb
      next hposted =>
        refine ⟨_, hfirst, nofun, fun _ => ⟨[], l, ls, rfl, nofun, ?_, ?_, fun _ => haddresses⟩⟩
        · intro htaken
          apply hposted
          rw [hall.mpr htaken.2.1, htaken.2.2]
          rfl
        · intro hfalse
          rw [hfalse] at hparses
          cases hparses

end Listening

section Ownership

variable {w : ListenWorld} {s' : Sockets} {es : List ListenAddress} {n fd : Nat}

theorem count_fd (es : List ListenAddress) (fd : Nat) :
    (es.map ListenAddress.fd).count fd = es.countP fun p => p.fd = fd := by
  rw [List.count, List.countP_map]
  apply List.countP_congr
  intro p _
  simp

structure ListenInv (w : ListenWorld) : Prop extends SocketsOwned w where
  nodup : (w.listens.map ListenAddress.fd).Nodup
  magics : ∀ e ∈ w.listens, e.reuseMagic ≤ w.reloadCount
  closes : ∀ fd ∈ w.closes, fd < w.opened.length

theorem ListenInv.fd_lt (hinv : ListenInv w) (hfd : fd ∈ w.listens.map ListenAddress.fd) :
    fd < w.opened.length := by
  obtain ⟨e, he, rfl⟩ := List.mem_map.mp hfd
  obtain ⟨hlt, -⟩ := List.getElem?_eq_some_iff.mp (hinv.listens e he)
  exact hlt

/-- An entry is one that was reused, or the one of a new socket. -/
theorem Listened.cases (hinv : ListenInv w) (h : Listened n w.toSockets s' es) {p : ListenAddress}
    (hp : p ∈ es) : (p.reuseMagic = n ∧ p.fd ∈ w.listens.map ListenAddress.fd ∧
        p.address ∈ w.listens.map ListenAddress.address ∧ w.opened[p.fd]? = some p.address) ∨
      (p.reuseMagic = 0 ∧ w.opened.length ≤ p.fd ∧ s'.opened[p.fd]? = some p.address ∧
        p.address ∉ w.listens.map ListenAddress.address) := by
  rcases h.entries p hp with ⟨hn, hkey⟩ | hfresh
  · obtain ⟨e, he, hkey⟩ := List.mem_map.mp hkey
    obtain ⟨haddress, hfd⟩ := Prod.mk.inj hkey
    refine .inl ⟨hn, List.mem_map.mpr ⟨e, he, hfd⟩, List.mem_map.mpr ⟨e, he, haddress⟩, ?_⟩
    have hget := hinv.listens e he
    rwa [hfd, haddress] at hget
  · exact .inr hfresh

theorem Listened.opened_get (h : Listened n w.toSockets s' es) {address : Bytes}
    (hget : w.opened[fd]? = some address) : s'.opened[fd]? = some address := by
  obtain ⟨added, hadded⟩ := h.opened
  obtain ⟨hlt, -⟩ := List.getElem?_eq_some_iff.mp hget
  rw [hadded, List.getElem?_append_left hlt, hget]

theorem Listened.opened_le (h : Listened n w.toSockets s' es) :
    w.opened.length ≤ s'.opened.length := by
  obtain ⟨added, hadded⟩ := h.opened
  rw [hadded, List.length_append]
  omega

/-- Of the old entries those are closed that the new ones do not use. -/
theorem Listened.mem_stale (hinv : ListenInv w) (h : Listened (w.reloadCount + 1) w.toSockets s' es) :
    fd ∈ (s'.listens.filter fun e => e.reuseMagic < w.reloadCount + 1).map ListenAddress.fd ↔
      fd ∈ w.listens.map ListenAddress.fd ∧ fd ∉ es.map ListenAddress.fd := by
  rw [List.mem_map]
  constructor
  · rintro ⟨e', he', rfl⟩
    rw [List.mem_filter, decide_eq_true_iff] at he'
    obtain ⟨he', hlt⟩ := he'
    have hold : e'.fd ∈ w.listens.map ListenAddress.fd := by
      have hfds := h.fds
      exact hfds ▸ List.mem_map.mpr ⟨e', he', rfl⟩
    refine ⟨hold, fun hin => ?_⟩
    obtain ⟨p, hp, hfd⟩ := List.mem_map.mp hin
    rcases h.cases hinv hp with ⟨hn, -⟩ | ⟨-, hle, -⟩
    · have hstamped := h.stamped p hp hn e' he' hfd.symm
      omega
    · have hbound := hinv.fd_lt hold
      omega
  · rintro ⟨hold, hnot⟩
    have hfds := h.fds
    obtain ⟨e', he', rfl⟩ := List.mem_map.mp (hfds.symm ▸ hold)
    refine ⟨e', ?_, rfl⟩
    rw [List.mem_filter, decide_eq_true_iff]
    refine ⟨he', ?_⟩
    rcases h.magics e' he' with ⟨e, he, -, hmagic⟩ | ⟨-, hin⟩
    · have hle := hinv.magics e he
      omega
    · exact absurd hin hnot

theorem Listened.nodup (hn : n ≠ 0) (hinv : ListenInv w) (h : Listened n w.toSockets s' es)
    (honce : ∀ address ∈ w.listens.map ListenAddress.address,
      (es.map ListenAddress.address).count address ≤ 1) : (es.map ListenAddress.fd).Nodup := by
  rw [List.nodup_iff_count_le_one]
  intro fd
  rw [count_fd]
  by_cases hlt : fd < w.opened.length
  · by_cases hnone : ∀ p ∈ es, p.fd ≠ fd
    · have hzero : (es.countP fun p => p.fd = fd) = 0 := by
        rw [List.countP_eq_zero]
        exact fun p hp heq => hnone p hp (of_decide_eq_true heq)
      omega
    · push Not at hnone
      obtain ⟨p, hp, hfd⟩ := hnone
      have hreused : ∀ q ∈ es, q.fd = fd → q.address ∈ w.listens.map ListenAddress.address ∧
          w.opened[fd]? = some q.address := by
        intro q hq hqfd
        rcases h.cases hinv hq with ⟨-, -, haddress, hget⟩ | ⟨-, hle, -⟩
        · exact ⟨haddress, hqfd ▸ hget⟩
        · omega
      obtain ⟨hrunning, hget⟩ := hreused p hp hfd
      refine le_trans ?_ (honce p.address hrunning)
      rw [List.count, List.countP_map]
      apply List.countP_mono_left
      intro q hq hqfd
      have hsame := (hreused q hq (of_decide_eq_true hqfd)).2
      rw [hget] at hsame
      simp [Option.some.inj hsame]
  · have hfresh : (es.countP fun p => p.fd = fd) =
        (es.filter fun p => p.reuseMagic ≠ n).countP fun p => p.fd = fd := by
      rw [List.countP_filter]
      apply List.countP_congr
      intro q hq
      rcases h.cases hinv hq with ⟨-, hold, -⟩ | ⟨hzero, -⟩
      · have hbound := hinv.fd_lt hold
        have hne : q.fd ≠ fd := by omega
        simp [hne]
      · simp [hzero, hn.symm]
    rw [hfresh]
    by_cases hlt' : fd < s'.opened.length
    · exact (h.fresh fd (by omega) hlt').le
    · rw [h.countP_outside (.inr (by omega))]
      omega

/-- The new configuration takes over. -/
theorem Listened.takeOver (hinv : ListenInv w)
    (h : Listened (w.reloadCount + 1) w.toSockets s' es)
    (honce : ∀ address ∈ w.listens.map ListenAddress.address,
      (es.map ListenAddress.address).count address ≤ 1) :
    ListenInv { phlConfListenFree s'.listens ⟨s', w.reloadCount + 1, w.closes⟩ with
      listens := es } := by
  have hstale : ∀ fd, fd ∈ (s'.listens.filter fun e => e.reuseMagic < w.reloadCount + 1).map
      ListenAddress.fd ↔ fd ∈ w.listens.map ListenAddress.fd ∧ fd ∉ es.map ListenAddress.fd :=
    fun _ => h.mem_stale hinv
  have hsub : List.Sublist ((s'.listens.filter fun e => e.reuseMagic < w.reloadCount + 1).map
      ListenAddress.fd) (s'.listens.map ListenAddress.fd) :=
    (List.filter_sublist).map _
  have hnodup := hsub.nodup (h.fds ▸ hinv.nodup)
  constructor
  · constructor
    · intro p hp
      rcases h.cases hinv hp with ⟨-, -, -, hget⟩ | ⟨-, -, hget, -⟩
      · exact h.opened_get hget
      · exact hget
    · intro p hp hclosed
      have hin : p.fd ∈ es.map ListenAddress.fd := List.mem_map.mpr ⟨p, hp, rfl⟩
      rcases List.mem_append.mp hclosed with hclosed | hclosed
      · rcases h.cases hinv hp with ⟨-, hold, -⟩ | ⟨-, hle, -⟩
        · obtain ⟨e, he, hfd⟩ := List.mem_map.mp hold
          exact hinv.kept e he (hfd ▸ hclosed)
        · have hbound := hinv.closes _ hclosed
          omega
      · exact ((hstale p.fd).mp hclosed).2 hin
    · intro fd hlt hnot
      show List.count fd (w.closes ++ _) = 1
      rw [List.count_append]
      by_cases hfirst : fd < w.opened.length
      · by_cases hold : fd ∈ w.listens.map ListenAddress.fd
        · have hzero : w.closes.count fd = 0 := by
            rw [List.count_eq_zero]
            obtain ⟨e, he, hfd⟩ := List.mem_map.mp hold
            exact hfd ▸ hinv.kept e he
          rw [hzero, List.count_eq_one_of_mem hnodup ((hstale fd).mpr ⟨hold, hnot⟩)]
        · rw [hinv.closed fd hfirst hold,
            List.count_eq_zero.mpr fun hin => hold ((hstale fd).mp hin).1]
      · have hone := h.fresh fd (by omega) hlt
        have hpos : 0 < (es.filter fun p => p.reuseMagic ≠ w.reloadCount + 1).countP
            (fun p => p.fd = fd) := by omega
        obtain ⟨p, hp, hfd⟩ := List.countP_pos_iff.mp hpos
        exact absurd (List.mem_map.mpr ⟨p, List.mem_of_mem_filter hp, of_decide_eq_true hfd⟩) hnot
  · exact h.nodup (by omega) hinv honce
  · intro p hp
    show p.reuseMagic ≤ w.reloadCount + 1
    rcases h.cases hinv hp with ⟨hn, -⟩ | ⟨hzero, -⟩ <;> omega
  · intro fd hclosed
    show fd < s'.opened.length
    have hle := h.opened_le
    rcases List.mem_append.mp hclosed with hclosed | hclosed
    · have hbound := hinv.closes fd hclosed
      omega
    · have hbound := hinv.fd_lt ((hstale fd).mp hclosed).1
      omega

/-- The new configuration is given up: `posted` are the entries of its Listens that are freed, and
the one that has failed has opened nothing. -/
theorem Listened.giveUp {posted lost : List ListenAddress} (hinv : ListenInv w)
    (h : Listened (w.reloadCount + 1) w.toSockets s' (posted ++ lost))
    (hlost : ∀ p ∈ lost, p.address ∈ w.listens.map ListenAddress.address) :
    ListenInv (phlConfListenFree posted ⟨s', w.reloadCount + 1, w.closes⟩) := by
  have hnew : ∀ p ∈ posted, p.reuseMagic < w.reloadCount + 1 →
      w.opened.length ≤ p.fd ∧ p.fd < s'.opened.length := by
    intro p hp hlt
    exact h.fd_lt (List.mem_append_left _ hp) (by omega)
  have hmem : ∀ fd, fd ∈ (posted.filter fun e => e.reuseMagic < w.reloadCount + 1).map
      ListenAddress.fd → w.opened.length ≤ fd ∧ fd < s'.opened.length := by
    intro fd hfd
    obtain ⟨p, hp, rfl⟩ := List.mem_map.mp hfd
    rw [List.mem_filter, decide_eq_true_iff] at hp
    exact hnew p hp.1 hp.2
  have hkeys : ∀ e' ∈ s'.listens, ∃ e ∈ w.listens, e.address = e'.address ∧ e.fd = e'.fd := by
    intro e' he'
    have hkey : e'.key ∈ w.listens.map ListenAddress.key :=
      h.same ▸ List.mem_map.mpr ⟨e', he', rfl⟩
    obtain ⟨e, he, hkey⟩ := List.mem_map.mp hkey
    exact ⟨e, he, (Prod.mk.inj hkey).1, (Prod.mk.inj hkey).2⟩
  constructor
  · constructor
    · intro e' he'
      obtain ⟨e, he, haddress, hfd⟩ := hkeys e' he'
      have hget := hinv.listens e he
      rw [haddress, hfd] at hget
      exact h.opened_get hget
    · intro e' he' hclosed
      obtain ⟨e, he, -, hfd⟩ := hkeys e' he'
      rcases List.mem_append.mp hclosed with hclosed | hclosed
      · exact hinv.kept e he (hfd ▸ hclosed)
      · have hbound := hmem _ hclosed
        have hold := hinv.fd_lt (List.mem_map.mpr ⟨e, he, rfl⟩)
        omega
    · intro fd hlt hnot
      show List.count fd (w.closes ++ _) = 1
      have hnot' : fd ∉ w.listens.map ListenAddress.fd := h.fds ▸ hnot
      rw [List.count_append]
      by_cases hfirst : fd < w.opened.length
      · rw [hinv.closed fd hfirst hnot', List.count_eq_zero.mpr fun hin => ?_]
        have hbound := (hmem fd hin).1
        omega
      · have hzero : w.closes.count fd = 0 := by
          rw [List.count_eq_zero]
          exact fun hin => hfirst (hinv.closes fd hin)
        have hone := h.fresh fd (by omega) hlt
        rw [List.filter_append, List.countP_append] at hone
        have hnone : (lost.filter fun p => p.reuseMagic ≠ w.reloadCount + 1) = [] := by
          rw [List.filter_eq_nil_iff]
          intro p hp hfresh
          rcases h.cases hinv (List.mem_append_right _ hp) with ⟨hn, -⟩ | ⟨-, -, -, hnone⟩
          · exact of_decide_eq_true hfresh hn
          · exact hnone (hlost p hp)
        have hsame : (posted.filter fun e => e.reuseMagic < w.reloadCount + 1) =
            posted.filter fun p => p.reuseMagic ≠ w.reloadCount + 1 := by
          apply List.filter_congr
          intro p hp
          rcases h.cases hinv (List.mem_append_left _ hp) with ⟨hn, -⟩ | ⟨hz, -⟩
          · simp [hn]
          · simp [hz]
        rw [hnone, List.countP_nil, Nat.add_zero] at hone
        rw [hzero, hsame, count_fd, hone]
  · exact h.fds ▸ hinv.nodup
  · intro e' he'
    show e'.reuseMagic ≤ w.reloadCount + 1
    rcases h.magics e' he' with ⟨e, he, -, hmagic⟩ | ⟨hn, -⟩
    · have hle := hinv.magics e he
      omega
    · omega
  · intro fd hclosed
    show fd < s'.opened.length
    have hle := h.opened_le
    rcases List.mem_append.mp hclosed with hclosed | hclosed
    · have hbound := hinv.closes fd hclosed
      omega
    · exact (hmem fd hclosed).2

theorem phlConfParse_keeps {file : Option (List NewListen)} (hinv : ListenInv w)
    (hok : ReloadsCleanly w file) : ListenInv (phlConfParse file w) := by
  cases file with
  | none =>
    exact ⟨⟨hinv.listens, hinv.kept, hinv.closed⟩, hinv.nodup,
      fun e he => Nat.le_succ_of_le (hinv.magics e he), hinv.closes⟩
  | some ls =>
    obtain ⟨honce, hunopened⟩ := hok ls rfl
    obtain ⟨lost, hlistened, hdone, hfails⟩ :=
      parseListens_listened (n := w.reloadCount + 1) (s := w.toSockets) (by omega) ls hinv.nodup
    unfold phlConfParse
    dsimp only
    split
    next hand =>
      obtain ⟨rfl, htaken, haddresses⟩ := hdone hand.1
      rw [List.append_nil] at hlistened
      refine hlistened.takeOver hinv ?_
      rw [haddresses]
      exact honce htaken
    next hand =>
      refine hlistened.giveUp hinv ?_
      intro p hp
      cases hsucceeds : (parseListens (w.reloadCount + 1) ls w.toSockets).2.2 with
      | true =>
        obtain ⟨rfl, -⟩ := hdone hsucceeds
        cases hp
      | false =>
        obtain ⟨before, l, after, hsplit, hbefore, hnot, hunparsed, hparsed⟩ := hfails hsucceeds
        cases hparses : l.parses with
        | false =>
          rw [hunparsed hparses] at hp
          cases hp
        | true =>
          have haddress : p.address ∈ lost.map ListenAddress.address :=
            List.mem_map.mpr ⟨p, hp, rfl⟩
          rw [hparsed hparses] at haddress
          obtain ⟨x, hx, hxp⟩ := List.mem_map.mp haddress
          exact hxp ▸ hunopened before l after hsplit hbefore hnot hparses x hx

end Ownership

/-- Over reloads that take no running address twice, and none of which fails at a Listen that has
opened a socket, every socket is used by the running configuration or has been closed once. -/
theorem sockets_owned {w : ListenWorld} (h : Reachable ReloadStart (ReloadStep ReloadsCleanly) w) :
    SocketsOwned w := by
  have hinv : ListenInv w := by
    refine h.invariant ?_ ?_
    · rintro _ rfl
      exact ⟨⟨nofun, nofun, fun fd hlt => absurd hlt (Nat.not_lt_zero fd)⟩, List.nodup_nil, nofun,
        nofun⟩
    · rintro s t hs ⟨file, hok, rfl⟩
      exact phlConfParse_keeps hs hok
  exact hinv.toSocketsOwned

/-- One Listen on the addresses, each of which can be listened on. -/
def listenFile (addresses : List Bytes) : Option (List NewListen) :=
  some [⟨addresses.map (·, true), true, true⟩]

theorem listenFile_clean {w : ListenWorld} {addresses : List Bytes} (h : addresses.Nodup) :
    ReloadsCleanly w (listenFile addresses) := by
  rintro ls hls
  cases hls
  constructor
  · intro _ address _
    simpa [Function.comp_def] using List.nodup_iff_count_le_one.mp h address
  · intro before l after hsplit _ hnot _
    exfalso
    apply hnot
    have hmem : l ∈ [(⟨addresses.map (·, true), true, true⟩ : NewListen)] := by
      rw [hsplit]
      simp
    rw [List.mem_singleton.mp hmem]
    refine ⟨rfl, ?_, rfl⟩
    unfold takenAddresses
    rw [List.takeWhile_eq_self_iff]
    intro x hx
    obtain ⟨address, -, rfl⟩ := List.mem_map.mp hx
    simp

/-- Port 81 is given up. -/
theorem sockets_owned_dropped :
    SocketsOwned (phlConfParse (listenFile [bytes "80"])
      (phlConfParse (listenFile [bytes "80", bytes "81"]) ⟨⟨[], []⟩, 0, []⟩)) :=
  sockets_owned (.next (.next (.start rfl) ⟨_, listenFile_clean (by decide), rfl⟩)
    ⟨_, listenFile_clean (by decide), rfl⟩)

/-- An address given twice is closed under the running configuration at the next reload, and a
Listen that fails after its first socket leaves it open. -/
theorem sockets_lost :
    (∃ w, Reachable ReloadStart (ReloadStep fun _ _ => True) w ∧
      w.listens = [⟨bytes "80", 0, 3⟩] ∧ w.closes = [0] ∧ ¬SocketsOwned w) ∧
    ∃ w, Reachable ReloadStart (ReloadStep fun _ _ => True) w ∧
      w.listens.map ListenAddress.fd = [0] ∧ w.opened = [bytes "80", bytes "81"] ∧
      w.closes = [] ∧ ¬SocketsOwned w := by
  constructor
  · refine ⟨_, .next (.next (.next (.start rfl) ⟨listenFile [bytes "80"], trivial, rfl⟩)
      ⟨listenFile [bytes "80", bytes "80"], trivial, rfl⟩)
      ⟨listenFile [bytes "80"], trivial, rfl⟩, by decide, by decide, fun h => ?_⟩
    exact h.kept ⟨bytes "80", 0, 3⟩ (by decide) (by decide)
  · refine ⟨_, .next (.next (.start rfl) ⟨listenFile [bytes "80"], trivial, rfl⟩)
      ⟨some [⟨[(bytes "81", true), (bytes "82", false)], true, true⟩], trivial, rfl⟩,
      by decide, by decide, by decide, fun h => ?_⟩
    have hclosed := h.closed 1 (by decide) (by decide)
    revert hclosed
    decide

end Phorklift
