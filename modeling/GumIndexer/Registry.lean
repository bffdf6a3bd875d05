import GumIndexer.Numeric
import Mathlib.Data.List.Nodup

/-!
# GumIndexer.Registry

The configured tokens of a chain, resolved once at startup.

A cache key names a token by its position, a log names it by its emitter and a
watch by its contract.  `ChainSpec` carries what `Config::validate` establishes
about the three, so that each of them determines the token.
-/

namespace GumIndexer

structure TokenSpec where
  /-- Position in the chain's token list; part of the cache key. -/
  idx : UInt8
  symbol : String
  address : Address
  decimals : UInt8
  /-- Emitter of the `Transfer` logs of this token. -/
  logAddress : Address
  /-- Divisor from log amounts to base units, when the logs use more decimals. -/
  logScale : Option U256
deriving DecidableEq, Repr

/-- `TokenSpec::base_units`: a log amount in base units, rounded down. -/
def TokenSpec.baseUnits (t : TokenSpec) (logAmount : U256) : U256 :=
  match t.logScale with
  | some scale => logAmount / scale
  | none => logAmount

structure ChainSpec where
  name : String
  chainId : Nat
  confirmations : Nat
  maxLogRange : Nat
  tokens : List TokenSpec
  idx_nodup : (tokens.map TokenSpec.idx).Nodup
  address_nodup : (tokens.map TokenSpec.address).Nodup
  logAddress_nodup : (tokens.map TokenSpec.logAddress).Nodup

namespace ChainSpec

/-- `ChainSpec::token_by_address`. -/
def tokenByAddress (chain : ChainSpec) (address : Address) : Option TokenSpec :=
  chain.tokens.find? (fun t => t.address = address)

/-- `ChainSpec::token_by_log_address`. -/
def tokenByLogAddress (chain : ChainSpec) (emitter : Address) : Option TokenSpec :=
  chain.tokens.find? (fun t => t.logAddress = emitter)

/-- `ChainSpec::log_addresses`. -/
def logAddresses (chain : ChainSpec) : List Address := chain.tokens.map TokenSpec.logAddress

variable {chain : ChainSpec} {a : Address} {t t' : TokenSpec}

theorem tokenByAddress_eq_some_iff :
    chain.tokenByAddress a = some t ↔ t ∈ chain.tokens ∧ t.address = a := by
  constructor
  · intro h
    exact ⟨List.mem_of_find?_eq_some h, by simpa using List.find?_some h⟩
  · rintro ⟨ht, rfl⟩
    cases hf : chain.tokenByAddress t.address with
    | none => simpa using List.find?_eq_none.mp hf t ht
    | some t' =>
        have hm := List.mem_of_find?_eq_some hf
        have ha : t'.address = t.address := by simpa using List.find?_some hf
        rw [List.inj_on_of_nodup_map chain.address_nodup hm ht ha]

theorem tokenByLogAddress_eq_some_iff :
    chain.tokenByLogAddress a = some t ↔ t ∈ chain.tokens ∧ t.logAddress = a := by
  constructor
  · intro h
    exact ⟨List.mem_of_find?_eq_some h, by simpa using List.find?_some h⟩
  · rintro ⟨ht, rfl⟩
    cases hf : chain.tokenByLogAddress t.logAddress with
    | none => simpa using List.find?_eq_none.mp hf t ht
    | some t' =>
        have hm := List.mem_of_find?_eq_some hf
        have ha : t'.logAddress = t.logAddress := by simpa using List.find?_some hf
        rw [List.inj_on_of_nodup_map chain.logAddress_nodup hm ht ha]

/-- The position determines the token. -/
theorem eq_of_idx_eq (ht : t ∈ chain.tokens) (ht' : t' ∈ chain.tokens) (h : t.idx = t'.idx) :
    t = t' :=
  List.inj_on_of_nodup_map chain.idx_nodup ht ht' h

end ChainSpec

/-! ## A chain with one token -/

def usdc : TokenSpec where
  idx := 0
  symbol := "USDC"
  address := 0x833589fCD6eDb6E08f4c7C32D4f71b54bdA02913#160
  decimals := 6
  logAddress := 0x833589fCD6eDb6E08f4c7C32D4f71b54bdA02913#160
  logScale := none

/-- The chain `testkit::logs::base_chain`, cut to one of its tokens. -/
def baseChain : ChainSpec where
  name := "base"
  chainId := 8453
  confirmations := 3
  maxLogRange := 2000
  tokens := [usdc]
  idx_nodup := List.nodup_singleton _
  address_nodup := List.nodup_singleton _
  logAddress_nodup := List.nodup_singleton _

end GumIndexer
