/-
  `permissions.rs`: the two gates of `--allow-net`.

  A raw socket is judged on the joined text `host:port` (`allowsNet`), the HTTP client on the two halves
  (`allowsNetTarget`).  The first splits the text again — brackets, several colons, zone ids — the second never joins.
  Both match an entry on the same two texts, `host` and `host:<decimal port>`.
-/
import Oam.Lib.Ipv6
import Oam.Permissions.FsKey

namespace Oam.Permissions

open List Text Decimal

/-! ## The program -/

def isDigits (s : Str) : Bool := !s.isEmpty && s.all Char.isDigit

/-- The host half of `host[:port]`. A text with several colons and no bracket has no port. -/
def hostOf (hostport : Str) : Str :=
  if hostport.head? = some '[' then
    match splitOnce ']' hostport with
    | none => hostport
    | some (before, rest) =>
      let isPort (p : Str) : Bool := isDigits p && (parseUnsigned 65536 p).isSome
      let bracketed := rest.isEmpty || (rest.dropPrefix? [':']).any isPort
      if bracketed then before ++ [']'] else hostport
  else
    match rsplitOnce ':' hostport with
    | some (head, _) => if head.contains ':' then hostport else head
    | none => hostport

/-- A port as an entry spells it: its decimal digits exactly. -/
def canonicalPort (text : Str) : Option UInt16 :=
  if isDigits text && (text == ['0'] || text.head? != some '0') then
    (parseUnsigned 65536 text).map UInt16.ofNat
  else none

/-- A zone id in the grammar `[0-9a-zA-Z-.:]+` (`PinAddr::from_str`). -/
def zoneOk (zone : Str) : Bool :=
  !zone.isEmpty && zone.all fun c => c.isAlphanum || c == '-' || c == '.' || c == ':'

/-- An IPv6 address with a zone id: the address, then the whole zone after `%`, `:` included. -/
def parseZoned (text : Str) : Option (Ipv6.Ipv6Addr × Str) := do
  let (address, zone) ← splitOnce '%' text
  let ip ← Ipv6.parse address
  if zoneOk zone then some (ip, zone) else none

/-- The entry's zone ends in `:` and decimal digits: always read as a port. -/
def isPortScopedZone (entryZone : Str) : Bool :=
  (rsplitOnce ':' entryZone).any fun p => isDigits p.2

/-- Whether the entry `item` admits the zone-id address `ip%zone` on `port`, matched by its parts. -/
def zonedEntryAdmits (item : Str) (ip : Ipv6.Ipv6Addr) (zone : Str) (port : UInt16) : Bool :=
  match parseZoned item with
  | none => false
  | some (entryIp, entryZone) =>
    if entryIp ≠ ip then false
    else
      match rsplitOnce ':' entryZone with
      | some (head, tail) =>
        if isPortScopedZone entryZone then head == zone && canonicalPort tail == some port
        else entryZone == zone
      | none => entryZone == zone

namespace PermValue

/-- The HTTP client's gate: `host` and `port` judged as given. The empty host is never granted. -/
def allowsNetTarget (self : PermValue) (host : Str) (port : UInt16) : Bool :=
  match self with
  | .all => true
  | .none => false
  | .list items =>
    if host.isEmpty then false
    else if host.contains '%' then
      match parseZoned host with
      | some (ip, zone) => items.any fun item => zonedEntryAdmits item ip zone port
      | .none => false
    else
      items.any fun item =>
        item == host || ((item.dropPrefix? host).bind fun rest => rest.dropPrefix? [':']).any fun p =>
            canonicalPort p == some port

/-- The raw socket's gate, on the joined text. A target with a `%` and a port goes to the other gate. -/
def allowsNet (self : PermValue) (target : Str) : Bool :=
  match self with
  | .all => true
  | .none => false
  | .list items =>
    if target.contains '%' then
      match (rsplitOnce ':' target).bind fun p => (canonicalPort p.2).map fun port => (p.1, port) with
      | some (host, port) => self.allowsNetTarget host port
      | .none =>
        match parseZoned target with
        | .none => false
        | some (ip, zone) =>
          items.any fun item =>
            (parseZoned item).any fun e => e.1 == ip && e.2 == zone && !isPortScopedZone e.2
    else
      items.any fun item =>
        item == target || (hostOf item == item && hostOf target == item)

end PermValue

/-! ## The hosts a connection can have -/

/-- A name or an IPv4 address: no `:` and no `%`, not bracketed. -/
def IsPlainHost (host : Str) : Prop := ':' ∉ host ∧ '%' ∉ host ∧ host.head? ≠ some '['

/-- `[` body `]`. -/
def IsBracketedHost (host : Str) : Prop :=
  ∃ body : Str, host = '[' :: (body ++ [']']) ∧ ']' ∉ body ∧ '%' ∉ body

/-- `host:port`, as the connect ops build it. -/
def joinPort (host : Str) (port : UInt16) : Str := host ++ ':' :: decimal port.toNat

/-! ## Ports -/

open PermValue

theorem isDigits_iff {s : Str} : isDigits s ↔ s ≠ [] ∧ ∀ c ∈ s, c.isDigit := by
  simp [isDigits, all_eq_true]

theorem isDigits_decimal (n : Nat) : isDigits (decimal n) :=
  isDigits_iff.mpr ⟨decimal_ne_nil n, fun _ hc => isDigit_of_mem_decimal hc⟩

variable {host : Str}

variable {port : UInt16}

/-- **One spelling per port.** -/
theorem canonicalPort_eq_some {text : Str} : canonicalPort text = some port ↔ text = decimal port.toNat := by
  constructor
  · intro h
    unfold canonicalPort at h
    split at h
    · rename_i hcond
      simp only [Bool.and_eq_true, Bool.or_eq_true, beq_iff_eq, bne_iff_ne] at hcond
      obtain ⟨hdig, hlead⟩ := hcond
      obtain ⟨hne, hall⟩ := isDigits_iff.mp hdig
      rw [parseUnsigned_of_digits hne hall] at h
      split at h
      · rename_i hlt
        injection h with h
        rw [← h, UInt16.toNat_ofNat_of_lt' hlt]
        exact (decimal_value_of_isCanonical ⟨hne, hall, hlead⟩).symm
      · nomatch h
    · nomatch h
  · rintro rfl
    obtain ⟨-, -, hlead⟩ := isCanonical_decimal port.toNat
    have hcond : (isDigits (decimal port.toNat) &&
        (decimal port.toNat == ['0'] || (decimal port.toNat).head? != some '0')) := by
      simpa [isDigits_decimal] using hlead
    rw [canonicalPort, if_pos hcond, parseUnsigned_decimal port.toNat_lt]
    simp

theorem colon_not_mem_decimal (n : Nat) : ':' ∉ decimal n := not_mem_decimal (by decide) n

/-! ## Finding the host again -/

theorem hostOf_plain (h : IsPlainHost host) : hostOf host = host := by
  obtain ⟨hcolon, -, hbr⟩ := h
  rw [hostOf, if_neg hbr, rsplitOnce_eq_none.mpr hcolon]

theorem hostOf_joinPort_plain (hne : host ≠ []) (h : IsPlainHost host)
    (port : UInt16) : hostOf (joinPort host port) = host := by
  obtain ⟨hcolon, -, hbr⟩ := h
  have hbr' : (joinPort host port).head? ≠ some '[' := by
    cases host with
    | nil => exact absurd rfl hne
    | cons c cs => exact hbr
  rw [hostOf, if_neg hbr', joinPort, rsplitOnce_append (colon_not_mem_decimal _)]
  simp [hcolon]

theorem splitOnce_bracket {body : Str} (hb : ']' ∉ body) (rest : Str) :
    splitOnce ']' ('[' :: (body ++ [']']) ++ rest) = some ('[' :: body, rest) := by
  have h : ']' ∉ '[' :: body := by simp [hb]
  simpa using splitOnce_append (v := rest) h

theorem hostOf_bracketed (h : IsBracketedHost host) : hostOf host = host := by
  obtain ⟨_, rfl, hb, -⟩ := h
  have hcut := splitOnce_bracket hb []
  rw [append_nil] at hcut
  rw [hostOf, if_pos (by simp), hcut]
  simp

theorem hostOf_joinPort_bracketed (h : IsBracketedHost host) (port : UInt16) : hostOf (joinPort host port) = host := by
  obtain ⟨_, rfl, hb, -⟩ := h
  have hport : (parseUnsigned 65536 (decimal port.toNat)).isSome := by
    rw [parseUnsigned_decimal port.toNat_lt]; rfl
  have hstrip : (':' :: decimal port.toNat).dropPrefix? [':'] = some (decimal port.toNat) :=
    dropPrefix?_append (p := [':'])
  rw [hostOf, if_pos (by simp [joinPort]), joinPort, splitOnce_bracket hb]
  simp [hstrip, isDigits_decimal, hport]

/-! ## The gates agree -/

theorem not_zoned (h : IsPlainHost host ∨ IsBracketedHost host) : '%' ∉ host := by
  rcases h with h | ⟨_, rfl, -, hb⟩
  · exact h.2.1
  · simp [hb]

/-- **One grant, one meaning.** The raw socket's gate on `host:port` and the client's on the two halves agree, and a
    list admits only the host, or the host with that port. -/
theorem allowsNet_eq_allowsNetTarget (perm : PermValue) (host : Str) (port : UInt16)
    (hne : host ≠ []) (hkind : IsPlainHost host ∨ IsBracketedHost host ∨ '%' ∈ host) :
    perm.allowsNet (joinPort host port) = perm.allowsNetTarget host port ∧
    (IsPlainHost host ∨ IsBracketedHost host → ∀ items, perm = .list items →
      (perm.allowsNet (joinPort host port) = true ∨ perm.allowsNetTarget host port = true) →
      host ∈ items ∨ joinPort host port ∈ items) := by
  have hlisted : IsPlainHost host ∨ IsBracketedHost host → ∀ items,
      ((list items).allowsNet (joinPort host port) = true ↔
        ∃ item ∈ items, item = host ∨ item = joinPort host port) ∧
      ((list items).allowsNetTarget host port = true ↔
        ∃ item ∈ items, item = host ∨ item = joinPort host port) := by
    intro hk items
    have hzone := not_zoned hk
    have hzone' : '%' ∉ joinPort host port := by
      rw [joinPort, mem_append, mem_cons, not_or, not_or]
      exact ⟨hzone, by decide, not_mem_decimal (by decide) _⟩
    have hself := hk.elim hostOf_plain hostOf_bracketed
    have hjoin := hk.elim (hostOf_joinPort_plain hne · port) (hostOf_joinPort_bracketed · port)
    constructor
    · simp only [allowsNet, contains_eq_mem, hzone', decide_false, Bool.false_eq_true,
        if_false, List.any_eq_true, Bool.or_eq_true, Bool.and_eq_true, beq_iff_eq, hjoin]
      refine exists_congr fun item => and_congr_right fun _ => ?_
      constructor
      · rintro (h | ⟨-, h⟩)
        · exact .inr h
        · exact .inl h.symm
      · rintro (rfl | h)
        · exact .inr ⟨hself, rfl⟩
        · exact .inl h
    · simp only [allowsNetTarget, List.isEmpty_iff, hne, if_false, contains_eq_mem,
        hzone, decide_false, Bool.false_eq_true, List.any_eq_true, Bool.or_eq_true, beq_iff_eq, Option.any_eq_true,
        Option.bind_eq_some_iff, dropPrefix?_eq_some, canonicalPort_eq_some]
      refine exists_congr fun item => and_congr_right fun _ => ?_
      constructor
      · rintro (h | ⟨p, ⟨_, rfl, rfl⟩, rfl⟩)
        · exact .inl h
        · exact .inr rfl
      · rintro (h | rfl)
        · exact .inl h
        · exact .inr ⟨decimal port.toNat, ⟨_, rfl, rfl⟩, rfl⟩
  refine ⟨?_, ?_⟩
  · cases perm with
    | all | none => rfl
    | list items =>
      rcases hkind with hk | hk | hk
      · obtain ⟨h1, h2⟩ := hlisted (.inl hk) items
        exact Bool.eq_iff_iff.mpr (h1.trans h2.symm)
      · obtain ⟨h1, h2⟩ := hlisted (.inr hk) items
        exact Bool.eq_iff_iff.mpr (h1.trans h2.symm)
      · have hzone : '%' ∈ joinPort host port := mem_append_left _ hk
        have hcut : (rsplitOnce ':' (joinPort host port)).bind (fun p =>
            (canonicalPort p.2).map fun port => (p.1, port)) = some (host, port) := by
          rw [joinPort, rsplitOnce_append (colon_not_mem_decimal _)]
          simp [canonicalPort_eq_some.mpr rfl]
        rw [allowsNet]
        simp only [contains_eq_mem, hzone, decide_true, if_true, hcut]
  · rintro hk items rfl htrue
    obtain ⟨h1, h2⟩ := hlisted hk items
    obtain ⟨_, hmem, rfl | rfl⟩ := htrue.elim h1.mp h2.mp
    · exact .inl hmem
    · exact .inr hmem

/-- Both gates refuse port 54321 under a grant of port 5432, and a bracketed host is found again. -/
theorem allowsNet_eq_allowsNetTarget_loopback :
    (list ["[::1]:5432".toList, "db".toList]).allowsNet "[::1]:54321".toList = false :=
  (allowsNet_eq_allowsNetTarget (.list ["[::1]:5432".toList, "db".toList]) "[::1]".toList 54321
    (by decide) (.inr (.inl ⟨"::1".toList, by decide, by decide, by decide⟩))).1.trans (by decide)

end Oam.Permissions
