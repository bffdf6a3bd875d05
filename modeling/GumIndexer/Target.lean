import GumIndexer.Base.Text
import Mathlib.Data.Nat.Bitwise

/-!
# GumIndexer.Target

Webhook targets.  A URL is vetted when a watch is registered (`validate`), and
the addresses its name resolves to when an event is delivered (`resolve`).
Both go by `isPublic`.

`isPublic` refuses a list of blocks (`reservedV4`, `reservedV6`); there are
special-purpose blocks that it does not refuse, `224.0.0.0/4` and `2001:db8::/32`
among them.  `Public` asks of these blocks what the check is there for: that the
address is outside of them, and if it stands for an IPv4 address, that one, too.
`isPublic` looks through one of the four ways in which an IPv6 address can do so.
The others -- IPv4-compatible addresses, NAT64 and 6to4 -- lead back into the
blocks (`nat64_target_accepted`), and no other address does
(`targets_public_iff`).
-/

namespace GumIndexer.Target

open Base

/-! ## Addresses -/

abbrev Ipv4Addr := BitVec 32

abbrev Ipv6Addr := BitVec 128

inductive IpAddr
  | v4 (ip : Ipv4Addr)
  | v6 (ip : Ipv6Addr)
deriving DecidableEq, Repr

/-- `Ipv4Addr::octets`. -/
def octet (ip : Ipv4Addr) (i : Nat) : Nat := ip.toNat / 2 ^ (24 - 8 * i) % 2 ^ 8

/-- `Ipv6Addr::segments`. -/
def segment (ip : Ipv6Addr) (i : Nat) : Nat := ip.toNat / 2 ^ (112 - 16 * i) % 2 ^ 16

/-- `Ipv4Addr::is_private`. -/
def isPrivate (ip : Ipv4Addr) : Bool :=
  octet ip 0 = 10 ∨ (octet ip 0 = 172 ∧ 16 ≤ octet ip 1 ∧ octet ip 1 ≤ 31) ∨
    (octet ip 0 = 192 ∧ octet ip 1 = 168)

/-- `Ipv4Addr::is_link_local`. -/
def isLinkLocal (ip : Ipv4Addr) : Bool := octet ip 0 = 169 ∧ octet ip 1 = 254

/-- `Ipv4Addr::is_documentation`. -/
def isDocumentation (ip : Ipv4Addr) : Bool :=
  (octet ip 0 = 192 ∧ octet ip 1 = 0 ∧ octet ip 2 = 2) ∨
    (octet ip 0 = 198 ∧ octet ip 1 = 51 ∧ octet ip 2 = 100) ∨
    (octet ip 0 = 203 ∧ octet ip 1 = 0 ∧ octet ip 2 = 113)

/-- The first branch of `is_public`. -/
def isPublicV4 (ip : Ipv4Addr) : Bool :=
  !(isPrivate ip || octet ip 0 = 127 || isLinkLocal ip || ip = BitVec.allOnes 32 || ip = 0 ||
    isDocumentation ip || octet ip 0 = 0 || (octet ip 0 = 100 ∧ 64 ≤ octet ip 1 ∧ octet ip 1 < 128) ||
    (octet ip 0 = 198 ∧ (octet ip 1 = 18 ∨ octet ip 1 = 19)) || 240 ≤ octet ip 0)

/-- `Ipv6Addr::to_ipv4_mapped`. -/
def toIpv4Mapped (ip : Ipv6Addr) : Option Ipv4Addr :=
  if segment ip 0 = 0 ∧ segment ip 1 = 0 ∧ segment ip 2 = 0 ∧ segment ip 3 = 0 ∧ segment ip 4 = 0 ∧
      segment ip 5 = 0xffff then
    some (BitVec.ofNat 32 (segment ip 6 * 2 ^ 16 + segment ip 7))
  else none

/-- `is_public`. -/
def isPublic : IpAddr → Bool
  | .v4 ip => isPublicV4 ip
  | .v6 ip =>
      match toIpv4Mapped ip with
      | some mapped => isPublicV4 mapped
      | none =>
          let first := segment ip 0
          !(ip = 1 || ip = 0 || first &&& 0xfe00 = 0xfc00 || first &&& 0xffc0 = 0xfe80 ||
            first &&& 0xff00 = 0xff00)

/-! ## Reserved blocks -/

/-- The addresses whose bits above the lowest `free` ones are `fixed`. -/
structure Block where
  free : Nat
  fixed : Nat

def Block.Contains (b : Block) (n : Nat) : Prop := n / 2 ^ b.free = b.fixed

/-- The blocks of IPv4 that `is_public` refuses. -/
def reservedV4 : List Block :=
  [⟨24, 0⟩, -- 0.0.0.0/8, this network
    ⟨24, 10⟩, -- 10.0.0.0/8, private use
    ⟨22, 100 * 4 + 1⟩, -- 100.64.0.0/10, shared address space
    ⟨24, 127⟩, -- 127.0.0.0/8, loopback
    ⟨16, 169 * 256 + 254⟩, -- 169.254.0.0/16, link local
    ⟨20, 172 * 16 + 1⟩, -- 172.16.0.0/12, private use
    ⟨8, (192 * 256 + 0) * 256 + 2⟩, -- 192.0.2.0/24, documentation
    ⟨16, 192 * 256 + 168⟩, -- 192.168.0.0/16, private use
    ⟨17, 198 * 128 + 9⟩, -- 198.18.0.0/15, benchmarking
    ⟨8, (198 * 256 + 51) * 256 + 100⟩, -- 198.51.100.0/24, documentation
    ⟨8, (203 * 256 + 0) * 256 + 113⟩, -- 203.0.113.0/24, documentation
    ⟨28, 15⟩] -- 240.0.0.0/4, reserved, with the broadcast address

/-- The blocks of IPv6 that `is_public` refuses. -/
def reservedV6 : List Block :=
  [⟨0, 0⟩, -- ::/128, unspecified
    ⟨0, 1⟩, -- ::1/128, loopback
    ⟨121, 0x7e⟩, -- fc00::/7, unique local
    ⟨118, 0x3fa⟩, -- fe80::/10, link local
    ⟨120, 0xff⟩] -- ff00::/8, multicast

def PublicV4 (ip : Ipv4Addr) : Prop := ∀ b ∈ reservedV4, ¬ b.Contains ip.toNat

/-- The IPv4 address in the lowest bits. -/
def low32 (ip : Ipv6Addr) : Ipv4Addr := BitVec.ofNat 32 ip.toNat

/-- The IPv4 address of an IPv4-mapped one, `::ffff:0:0/96`. -/
def mapped (ip : Ipv6Addr) : List Ipv4Addr := if ip.toNat / 2 ^ 32 = 0xffff then [low32 ip] else []

/-- The IPv4 addresses of an IPv4-compatible one, `::/96`, of NAT64,
`64:ff9b::/96`, and of 6to4, `2002::/16`. -/
def tunnelled (ip : Ipv6Addr) : List Ipv4Addr :=
  (if ip.toNat / 2 ^ 32 = 0 then [low32 ip] else []) ++
    (if ip.toNat / 2 ^ 32 = 0x64ff9b * 2 ^ 64 then [low32 ip] else []) ++
    (if ip.toNat / 2 ^ 112 = 0x2002 then [BitVec.ofNat 32 (ip.toNat / 2 ^ 80)] else [])

/-- **Addresses outside of the refused blocks**, themselves and as IPv4 addresses. -/
def Public : IpAddr → Prop
  | .v4 ip => PublicV4 ip
  | .v6 ip => (∀ b ∈ reservedV6, ¬ b.Contains ip.toNat) ∧ ∀ v4 ∈ mapped ip ++ tunnelled ip, PublicV4 v4

/-- An address other than `::` and `::1` that stands for a reserved IPv4
address and is not IPv4-mapped. -/
def Leaks : IpAddr → Prop
  | .v4 _ => False
  | .v6 ip => ip ≠ 0 ∧ ip ≠ 1 ∧ ∃ v4 ∈ tunnelled ip, ¬ PublicV4 v4

section Octets

variable (ip : Ipv4Addr)

theorem div_24 : ip.toNat / 2 ^ 24 = octet ip 0 := by
  have hlt := ip.isLt
  simp only [octet]
  omega

theorem div_16 : ip.toNat / 2 ^ 16 = octet ip 0 * 256 + octet ip 1 := by
  have hlt := ip.isLt
  simp only [octet]
  omega

theorem div_8 : ip.toNat / 2 ^ 8 = (octet ip 0 * 256 + octet ip 1) * 256 + octet ip 2 := by
  have hlt := ip.isLt
  simp only [octet]
  omega

theorem octet_lt (i : Nat) : octet ip i < 256 := Nat.mod_lt _ (by decide)

end Octets

/-- **The checks on octets are the reserved blocks.** -/
theorem isPublicV4_iff (ip : Ipv4Addr) : isPublicV4 ip = true ↔ PublicV4 ip := by
  have h24 := div_24 ip
  have h16 := div_16 ip
  have h8 := div_8 ip
  have h0 := octet_lt ip 0
  have h1 := octet_lt ip 1
  have h2 := octet_lt ip 2
  have hones : ip = BitVec.allOnes 32 → 240 ≤ octet ip 0 := by
    rintro rfl
    decide
  have hzero : ip = 0 → octet ip 0 = 0 := by
    rintro rfl
    decide
  have hpub : PublicV4 ip ↔ ¬ octet ip 0 = 0 ∧ ¬ octet ip 0 = 10 ∧
      ¬ (octet ip 0 = 100 ∧ 64 ≤ octet ip 1 ∧ octet ip 1 < 128) ∧ ¬ octet ip 0 = 127 ∧
      ¬ (octet ip 0 = 169 ∧ octet ip 1 = 254) ∧
      ¬ (octet ip 0 = 172 ∧ 16 ≤ octet ip 1 ∧ octet ip 1 ≤ 31) ∧
      ¬ (octet ip 0 = 192 ∧ octet ip 1 = 0 ∧ octet ip 2 = 2) ∧
      ¬ (octet ip 0 = 192 ∧ octet ip 1 = 168) ∧
      ¬ (octet ip 0 = 198 ∧ (octet ip 1 = 18 ∨ octet ip 1 = 19)) ∧
      ¬ (octet ip 0 = 198 ∧ octet ip 1 = 51 ∧ octet ip 2 = 100) ∧
      ¬ (octet ip 0 = 203 ∧ octet ip 1 = 0 ∧ octet ip 2 = 113) ∧ ¬ 240 ≤ octet ip 0 := by
    simp only [PublicV4, reservedV4, Block.Contains, List.forall_mem_cons, List.not_mem_nil,
      false_imp_iff, implies_true, and_true]
    refine and_congr (by omega) (and_congr (by omega) (and_congr (by omega) (and_congr (by omega)
      (and_congr (by omega) (and_congr (by omega) (and_congr (by omega) (and_congr (by omega)
      (and_congr (by omega) (and_congr (by omega) (and_congr (by omega) (by omega)))))))))))
  rw [hpub]
  simp only [isPublicV4, isPrivate, isLinkLocal, isDocumentation, Bool.not_eq_true',
    Bool.or_eq_false_iff, decide_eq_false_iff_not, not_or]
  constructor
  · rintro ⟨⟨⟨⟨⟨⟨⟨⟨⟨⟨p10, p172, p192⟩, loopback⟩, linkLocal⟩, -⟩, -⟩, d192, d198, d203⟩, this⟩, shared⟩,
      bench⟩, high⟩
    exact ⟨this, p10, shared, loopback, linkLocal, p172, d192, p192, bench, d198, d203, high⟩
  · rintro ⟨this, p10, shared, loopback, linkLocal, p172, d192, p192, bench, d198, d203, high⟩
    exact ⟨⟨⟨⟨⟨⟨⟨⟨⟨⟨p10, p172, p192⟩, loopback⟩, linkLocal⟩, fun h => high (hones h)⟩,
      fun h => this (hzero h)⟩, d192, d198, d203⟩, this⟩, shared⟩, bench⟩, high⟩

/-! ## IPv6 -/

/-- Masking the upper bits. -/
theorem and_mask {x : Nat} (j k : Nat) (h : x < 2 ^ (j + k)) :
    x &&& (2 ^ k - 1) * 2 ^ j = x / 2 ^ j * 2 ^ j := by
  have hmod : (x &&& (2 ^ k - 1) * 2 ^ j) % 2 ^ j = 0 := by
    rw [Nat.and_mod_two_pow, Nat.mul_mod_left, Nat.and_zero]
  have hdiv : (x &&& (2 ^ k - 1) * 2 ^ j) / 2 ^ j = x / 2 ^ j := by
    have hlt : x / 2 ^ j < 2 ^ k := by
      rw [Nat.div_lt_iff_lt_mul (Nat.two_pow_pos j), ← Nat.pow_add, Nat.add_comm]
      exact h
    rw [Nat.and_div_two_pow, Nat.mul_div_cancel _ (Nat.two_pow_pos j),
      Nat.and_two_pow_sub_one_eq_mod, Nat.mod_eq_of_lt hlt]
  rw [← hdiv, Nat.div_mul_cancel (Nat.dvd_of_mod_eq_zero hmod)]

/-- The first segment has the first 16 bits. -/
theorem segment_zero (ip : Ipv6Addr) : segment ip 0 = ip.toNat / 2 ^ 112 := by
  have hlt := ip.isLt
  unfold segment
  omega

/-- A mapped address has 80 zero bits and 16 ones in front. -/
theorem toIpv4Mapped_eq (ip : Ipv6Addr) :
    toIpv4Mapped ip = if ip.toNat / 2 ^ 32 = 0xffff then some (low32 ip) else none := by
  have hlt := ip.isLt
  have hseg : (segment ip 0 = 0 ∧ segment ip 1 = 0 ∧ segment ip 2 = 0 ∧ segment ip 3 = 0 ∧
      segment ip 4 = 0 ∧ segment ip 5 = 0xffff) ↔ ip.toNat / 2 ^ 32 = 0xffff := by
    simp only [segment]
    omega
  have hlow : BitVec.ofNat 32 (segment ip 6 * 2 ^ 16 + segment ip 7) = low32 ip := by
    apply BitVec.eq_of_toNat_eq
    simp only [low32, BitVec.toNat_ofNat, segment]
    omega
  unfold toIpv4Mapped
  rw [hlow]
  exact if_congr hseg rfl rfl

section V6

variable {ip : Ipv6Addr}

/-- The checks of the first segment are the remaining reserved blocks. -/
theorem isPublic_v6_iff (hmapped : ip.toNat / 2 ^ 32 ≠ 0xffff) :
    isPublic (.v6 ip) = true ↔ ∀ b ∈ reservedV6, ¬ b.Contains ip.toNat := by
  have hlt := ip.isLt
  have hseg : ip.toNat / 2 ^ 112 < 2 ^ 16 := by omega
  have hzero : ip = 0 ↔ ip.toNat = 0 := by
    rw [← BitVec.toNat_inj]
    rfl
  have hone : ip = 1 ↔ ip.toNat = 1 := by
    rw [← BitVec.toNat_inj]
    rfl
  have hlocal : ip.toNat / 2 ^ 112 &&& 0xfe00 = ip.toNat / 2 ^ 112 / 2 ^ 9 * 2 ^ 9 := and_mask 9 7 hseg
  have hlink : ip.toNat / 2 ^ 112 &&& 0xffc0 = ip.toNat / 2 ^ 112 / 2 ^ 6 * 2 ^ 6 := and_mask 6 10 hseg
  have hmulti : ip.toNat / 2 ^ 112 &&& 0xff00 = ip.toNat / 2 ^ 112 / 2 ^ 8 * 2 ^ 8 := and_mask 8 8 hseg
  simp only [isPublic, toIpv4Mapped_eq, if_neg hmapped, Bool.not_eq_true', Bool.or_eq_false_iff,
    decide_eq_false_iff_not, reservedV6, Block.Contains, List.forall_mem_cons, List.not_mem_nil,
    false_imp_iff, implies_true, and_true, hzero, hone, segment_zero, hlocal, hlink, hmulti]
  omega

/-- A mapped address is judged as what it maps. -/
theorem isPublic_mapped (hmapped : ip.toNat / 2 ^ 32 = 0xffff) :
    isPublic (.v6 ip) = true ↔ PublicV4 (low32 ip) := by
  simp only [isPublic, toIpv4Mapped_eq, if_pos hmapped]
  exact isPublicV4_iff _

/-- A mapped address tunnels nothing else. -/
theorem tunnelled_of_mapped (hmapped : ip.toNat / 2 ^ 32 = 0xffff) : tunnelled ip = [] := by
  unfold tunnelled
  rw [if_neg (by omega), if_neg (by omega), if_neg (by omega)]
  rfl

end V6

/-- **`is_public` errs on the addresses that leak, and on no other.** -/
theorem public_iff (ip : IpAddr) : Public ip ↔ isPublic ip = true ∧ ¬ Leaks ip := by
  cases ip with
  | v4 ip => simp only [Public, isPublic, isPublicV4_iff, Leaks, not_false_eq_true, and_true]
  | v6 ip =>
      by_cases hmapped : ip.toNat / 2 ^ 32 = 0xffff
      · have hreserved : ∀ b ∈ reservedV6, ¬ b.Contains ip.toNat := by
          simp only [reservedV6, Block.Contains, List.forall_mem_cons, List.not_mem_nil,
            false_imp_iff, implies_true, and_true]
          omega
        simp only [Public, Leaks, isPublic_mapped hmapped, tunnelled_of_mapped hmapped, mapped,
          if_pos hmapped, List.append_nil, List.forall_mem_singleton, List.not_mem_nil, false_and,
          exists_false, and_false, not_false_eq_true, and_true]
        exact and_iff_right hreserved
      · simp only [Public, isPublic_v6_iff hmapped, mapped, if_neg hmapped, List.nil_append]
        refine and_congr_right fun hreserved => ?_
        have hzero : ip ≠ 0 := by
          rintro rfl
          exact hreserved ⟨0, 0⟩ (by simp [reservedV6]) rfl
        have hone : ip ≠ 1 := by
          rintro rfl
          exact hreserved ⟨0, 1⟩ (by simp [reservedV6]) rfl
        simp only [Leaks, ne_eq, hzero, hone, not_false_eq_true, true_and, not_exists, not_and, not_not]

/-- Leaking addresses pass the check. -/
theorem isPublic_of_leaks {ip : IpAddr} (h : Leaks ip) : isPublic ip = true := by
  cases ip with
  | v4 ip => exact h.elim
  | v6 ip =>
      obtain ⟨hzero, hone, v4, hv4, -⟩ := h
      have hform : ip.toNat / 2 ^ 32 = 0 ∨ ip.toNat / 2 ^ 32 = 0x64ff9b * 2 ^ 64 ∨
          ip.toNat / 2 ^ 112 = 0x2002 := by
        by_contra hnot
        push Not at hnot
        rw [tunnelled, if_neg hnot.1, if_neg hnot.2.1, if_neg hnot.2.2] at hv4
        cases hv4
      have hzero' : ip.toNat ≠ 0 := fun h => hzero (BitVec.eq_of_toNat_eq h)
      have hone' : ip.toNat ≠ 1 := fun h => hone (BitVec.eq_of_toNat_eq h)
      rw [isPublic_v6_iff (by omega)]
      simp only [reservedV6, Block.Contains, List.forall_mem_cons, List.not_mem_nil, false_imp_iff,
        implies_true, and_true]
      omega

/-! ## Targets -/

inductive Host
  | domain (name : Str)
  | ipv4 (ip : Ipv4Addr)
  | ipv6 (ip : Ipv6Addr)
deriving DecidableEq, Repr

/-- What `validate` looks at in a parsed URL. -/
structure Url where
  scheme : Str
  username : Str
  password : Option Str
  host : Option Host
deriving DecidableEq, Repr

structure TargetPolicy where
  allowInsecure : Bool := false
  hostAllowlist : List Str := []

/-- `str::eq_ignore_ascii_case`. -/
def eqIgnoreAsciiCase (a b : Str) : Bool := a.map Char.toLower = b.map Char.toLower

/-- `TargetPolicy::is_allowlisted`. -/
def TargetPolicy.isAllowlisted (policy : TargetPolicy) (host : Str) : Bool :=
  policy.hostAllowlist.any fun h => eqIgnoreAsciiCase h host

/-- Names of the local network. -/
def isLocalName (d : Str) : Bool :=
  eqIgnoreAsciiCase d "localhost".toList || ".localhost".toList.isSuffixOf d ||
    ".internal".toList.isSuffixOf d || ".local".toList.isSuffixOf d

/-- The host is a name on the allowlist. -/
def Host.isAllowlisted (policy : TargetPolicy) : Host → Bool
  | .domain d => policy.isAllowlisted d
  | _ => false

/-- The last check of `validate`. -/
def Host.isRefused : Host → Bool
  | .ipv4 ip => !isPublic (.v4 ip)
  | .ipv6 ip => !isPublic (.v6 ip)
  | .domain d => isLocalName d

/-- `validate`, for a text that is `length` bytes long and was parsed by
`Url::parse`. -/
def validate (parsed : Except String Url) (length : Nat) (policy : TargetPolicy) : Except String Url := do
  let url ← parsed.mapError fun e => "not a valid URL: " ++ e
  if length > 2048 then throw "URL is longer than 2048 characters"
  if url.username ≠ [] ∨ url.password.isSome then throw "credentials in the URL are not allowed"
  let some host := url.host | throw "URL has no host"
  let allowlisted := host.isAllowlisted policy
  if url.scheme = "https".toList then pure ()
  else if url.scheme = "http".toList then
    if policy.allowInsecure || allowlisted then pure () else throw "webhook_endpoint must use https"
  else throw ("unsupported scheme " ++ String.ofList url.scheme)
  if policy.allowInsecure || allowlisted then return url
  if host.isRefused then throw "webhook_endpoint must be a public address"
  return url

/-- `PublicOnlyResolver::resolve`, for what `lookup_host` returned. -/
def resolve (policy : TargetPolicy) (name : Str) (resolved : List IpAddr) : Except String (List IpAddr) :=
  let allowlisted := policy.isAllowlisted name
  let kept := resolved.filter fun a => allowlisted || isPublic a
  if kept = [] then .error (String.ofList name ++ " does not resolve to a public address")
  else .ok kept

/-- The addresses a delivery may connect to: the host itself, or what the
client's resolver lets through.  `Dispatcher::new` installs the public-only one
unless insecure targets are allowed. -/
def connects (policy : TargetPolicy) (host : Host) (resolved : List IpAddr) : List IpAddr :=
  match host with
  | .ipv4 ip => [.v4 ip]
  | .ipv6 ip => [.v6 ip]
  | .domain d =>
      if policy.allowInsecure then resolved
      else match resolve policy d resolved with
      | .ok addrs => addrs
      | .error _ => []

/-- The addresses a host stands for. -/
def Host.addresses (host : Host) (resolved : List IpAddr) : List IpAddr :=
  match host with
  | .ipv4 ip => [.v4 ip]
  | .ipv6 ip => [.v6 ip]
  | .domain _ => resolved

/-- Of the addresses of a domain that is not allowlisted, the public ones are
connected to. -/
theorem connects_domain {policy : TargetPolicy} (secure : policy.allowInsecure = false) {d : Str}
    (hlist : policy.isAllowlisted d = false) (resolved : List IpAddr) :
    connects policy (.domain d) resolved = resolved.filter isPublic := by
  simp only [connects, secure, Bool.false_eq_true, if_false, resolve, hlist, Bool.false_or]
  by_cases hnone : resolved.filter isPublic = []
  · rw [if_pos hnone, hnone]
  · rw [if_neg hnone]

/-- What `validate` accepts: a URL with a host that is excepted or was not
refused. -/
theorem validate_ok {parsed : Except String Url} {length : Nat} {policy : TargetPolicy} {url : Url}
    (hok : validate parsed length policy = .ok url) :
    ∃ host, url.host = some host ∧
      ((policy.allowInsecure || host.isAllowlisted policy) = true ∨ host.isRefused = false) := by
  cases parsed with
  | error e => cases hok
  | ok u =>
      cases hu : u.host with
      | none =>
          simp only [validate, Except.mapError, hu, bind, Except.bind, throw, throwThe,
            MonadExceptOf.throw] at hok
          split at hok
          · cases hok
          · split at hok <;> cases hok
      | some host =>
          simp only [validate, Except.mapError, hu, bind, Except.bind, pure, Except.pure, throw,
            throwThe, MonadExceptOf.throw] at hok
          -- both schemes end in the same check
          have hlast : (if (policy.allowInsecure || host.isAllowlisted policy) = true then Except.ok u
              else if host.isRefused = true then
                Except.error "webhook_endpoint must be a public address" else Except.ok u) = Except.ok url →
              ∃ host, url.host = some host ∧
                ((policy.allowInsecure || host.isAllowlisted policy) = true ∨ host.isRefused = false) := by
            intro h
            split at h
            · next hexcepted =>
                cases h
                exact ⟨host, hu, .inl hexcepted⟩
            · split at h
              · cases h
              · next hrefused =>
                  cases h
                  exact ⟨host, hu, .inr (by simpa using hrefused)⟩
          split at hok
          · cases hok
          split at hok
          · cases hok
          split at hok
          · exact hlast hok
          split at hok
          · split at hok
            · next hexcepted => exact hlast (by rw [if_pos hexcepted]; exact hok)
            · cases hok
          · cases hok

/-- **No webhook reaches the private network**, if no address of the host
leaks: neither the literal address nor an answer to its name. -/
theorem targets_public_iff (parsed : Except String Url) (length : Nat) (policy : TargetPolicy)
    (secure : policy.allowInsecure = false) (url : Url) (hok : validate parsed length policy = .ok url)
    (host : Host) (hhost : url.host = some host) (hlist : host.isAllowlisted policy = false)
    (resolved : List IpAddr) :
    (∀ ip ∈ connects policy host resolved, Public ip) ↔
      ∀ ip ∈ host.addresses resolved, ¬ Leaks ip := by
  have hrefused : host.isRefused = false := by
    obtain ⟨host', hhost', hcases⟩ := validate_ok hok
    obtain rfl : host = host' := Option.some.inj (hhost.symm.trans hhost')
    exact hcases.resolve_left (by simp [secure, hlist])
  have hone : ∀ ip, isPublic ip = true → (Public ip ↔ ¬ Leaks ip) := fun ip hip => by
    rw [public_iff, and_iff_right hip]
  cases host with
  | ipv4 ip =>
      simp only [connects, Host.addresses, List.forall_mem_singleton]
      exact hone _ (by simpa [Host.isRefused] using hrefused)
  | ipv6 ip =>
      simp only [connects, Host.addresses, List.forall_mem_singleton]
      exact hone _ (by simpa [Host.isRefused] using hrefused)
  | domain d =>
      rw [connects_domain secure hlist]
      simp only [Host.addresses, List.mem_filter, and_imp]
      constructor
      · intro h ip hip hleaks
        have hpublic := isPublic_of_leaks hleaks
        exact (hone ip hpublic).mp (h ip hip hpublic) hleaks
      · intro h ip hip hpublic
        exact (hone ip hpublic).mpr (h ip hip)

/-- `https://host/hook`. -/
def hookAt (host : Host) : Url where
  scheme := "https".toList
  username := []
  password := none
  host := some host

/-- A short URL with a host that is not refused is valid. -/
theorem validate_hookAt {length : Nat} {policy : TargetPolicy} {host : Host} (hlength : length ≤ 2048)
    (hrefused : host.isRefused = false) :
    validate (.ok (hookAt host)) length policy = .ok (hookAt host) := by
  have hcredentials : ¬ ((hookAt host).username ≠ [] ∨ (hookAt host).password.isSome = true) := by
    simp [hookAt]
  have hhost : (hookAt host).host = some host := rfl
  have hscheme : (hookAt host).scheme = "https".toList := rfl
  simp only [validate, Except.mapError, bind, Except.bind, if_neg (Nat.not_lt.mpr hlength),
    if_neg hcredentials, hhost, if_pos hscheme, hrefused, pure, Except.pure, Bool.false_eq_true, if_false]
  split <;> rfl

/-- A name that resolves to a public and a private address is only connected to
the first. -/
theorem targets_public_merchant :
    connects {} (.domain "merchant.example".toList) [.v4 0x08080808#32, .v4 0x0a000001#32] =
        [.v4 0x08080808#32] ∧
      ∀ ip ∈ connects {} (.domain "merchant.example".toList)
        [.v4 0x08080808#32, .v4 0x0a000001#32], Public ip := by
  have hnone : ∀ ip ∈ [IpAddr.v4 0x08080808#32, .v4 0x0a000001#32], ¬ Leaks ip := by
    simp only [List.forall_mem_cons, List.not_mem_nil, false_imp_iff, implies_true, and_true]
    exact ⟨id, id⟩
  refine ⟨by decide +kernel, ?_⟩
  exact (targets_public_iff (.ok (hookAt (.domain "merchant.example".toList))) 30 {} rfl
    (hookAt (.domain "merchant.example".toList)) (validate_hookAt (by decide) (by decide +kernel)) _
    rfl rfl _).mpr hnone

/-- `64:ff9b::a00:1`, which stands for 10.0.0.1. -/
def nat64 : Ipv6Addr := 0x0064ff9b_00000000_00000000_0a000001#128

theorem tunnelled_nat64 : tunnelled nat64 = [0x0a000001#32] := by
  have hcompatible : ¬ nat64.toNat / 2 ^ 32 = 0 := by decide +kernel
  have hnat64 : nat64.toNat / 2 ^ 32 = 0x64ff9b * 2 ^ 64 := by decide +kernel
  have h6to4 : ¬ nat64.toNat / 2 ^ 112 = 0x2002 := by decide +kernel
  have hlow : low32 nat64 = 0x0a000001#32 := by decide +kernel
  rw [tunnelled, if_neg hcompatible, if_pos hnat64, if_neg h6to4, hlow]
  rfl

/-- `https://[64:ff9b::a00:1]/hook` is accepted, and a delivery connects to
10.0.0.1 through NAT64. -/
theorem nat64_target_accepted :
    validate (.ok (hookAt (.ipv6 nat64))) 29 {} = .ok (hookAt (.ipv6 nat64)) ∧
      .v6 nat64 ∈ connects {} (.ipv6 nat64) [] ∧ ¬ Public (.v6 nat64) := by
  have hrefused : Host.isRefused (.ipv6 nat64) = false := by decide +kernel
  have hprivate : ¬ PublicV4 0x0a000001#32 := by
    rw [← isPublicV4_iff]
    decide +kernel
  refine ⟨?_, List.mem_singleton_self _, fun h => ?_⟩
  · exact validate_hookAt (by decide) hrefused
  · exact hprivate (h.2 _ (List.mem_append_right _ (by rw [tunnelled_nat64]; exact List.mem_singleton_self _)))

end GumIndexer.Target
