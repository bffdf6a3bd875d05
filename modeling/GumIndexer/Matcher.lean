import GumIndexer.Cache
import GumIndexer.Registry

/-!
# GumIndexer.Matcher

The hot path: is a raw log an ERC-20 `Transfer` to a watched address, and for
which watch?

The answer has two halves.  What the log says, a `Payment` of a configured
token, does not depend on any watch; whom it is for is one lookup in the cache.
`matchLog_toOption` takes `matchLog` apart accordingly, and everything that is
proved about sweeps is stated in terms of payments.
-/

namespace GumIndexer

/-- `keccak256("Transfer(address,address,uint256)")`. -/
def TRANSFER_TOPIC : B256 :=
  0xddf252ad1be2c89b69c2b068fc378daa952ba7f163c4a11628f55a4df523b3ef#256

/-- A log as an RPC node returns it. -/
structure Log where
  address : Address
  topics : List B256
  data : List UInt8
  blockNumber : Option Nat
  blockHash : Option B256
  transactionHash : Option B256
  logIndex : Option Nat
  removed : Bool
deriving DecidableEq, Repr

structure MatchedTransfer where
  watch : WatchRef
  tokenIdx : UInt8
  src : Address
  dst : Address
  amount : U256
  blockNumber : Nat
  blockHash : B256
  txHash : B256
  logIndex : Nat
  removed : Bool
deriving DecidableEq, Repr

/-- Why a log is not a transfer to a watch. -/
inductive Skip
  | foreign
  | malformed
  | incomplete
  | zeroValue
  | unwatched
  | beforeStart
deriving DecidableEq, Repr

/-- `Address::from_word`: the low 20 bytes. -/
def addressFromWord (w : B256) : Address := w.setWidth 160

/-- `U256::from_be_slice`. -/
def fromBeSlice (bytes : List UInt8) : U256 :=
  BitVec.ofNat 256 (bytes.foldl (fun n b => n * 256 + b.toNat) 0)

/-- `match_log`. -/
def matchLog (chain : ChainSpec) (cache : WatchCache) (log : Log) : Except Skip MatchedTransfer :=
  if log.topics.head? ≠ some TRANSFER_TOPIC then .error .foreign
  else match chain.tokenByLogAddress log.address with
  | none => .error .foreign
  | some token =>
      match log.topics with
      | [_, src, dst] =>
          if log.data.length ≠ 32 then .error .malformed
          else match cache.get ⟨token.idx, addressFromWord dst⟩ with
          | none => .error .unwatched
          | some watch =>
              match log.blockNumber, log.blockHash, log.transactionHash, log.logIndex with
              | some blockNumber, some blockHash, some txHash, some logIndex =>
                  if blockNumber < watch.startBlock then .error .beforeStart
                  else
                    let amount := token.baseUnits (fromBeSlice log.data)
                    if amount = 0 then .error .zeroValue
                    else .ok
                      { watch, tokenIdx := token.idx, src := addressFromWord src
                        dst := addressFromWord dst, amount, blockNumber, blockHash, txHash
                        logIndex, removed := log.removed }
              | _, _, _, _ => .error .incomplete
      | _ => .error .malformed

/-! ## What a log says, whoever it is for -/

/-- A `Transfer` of a configured token worth at least one base unit. -/
structure Payment where
  token : TokenSpec
  src : Address
  dst : Address
  amount : U256
  blockNumber : Nat
  blockHash : B256
  txHash : B256
  logIndex : Nat
deriving DecidableEq, Repr

/-- The payment of a log: the part of `matchLog` that does not look at the
cache. -/
def payment? (chain : ChainSpec) (log : Log) : Option Payment :=
  if log.topics.head? ≠ some TRANSFER_TOPIC then none
  else match chain.tokenByLogAddress log.address with
  | none => none
  | some token =>
      match log.topics with
      | [_, src, dst] =>
          if log.data.length ≠ 32 then none
          else match log.blockNumber, log.blockHash, log.transactionHash, log.logIndex with
          | some blockNumber, some blockHash, some txHash, some logIndex =>
              let amount := token.baseUnits (fromBeSlice log.data)
              if amount = 0 then none
              else some
                { token, src := addressFromWord src, dst := addressFromWord dst, amount, blockNumber
                  blockHash, txHash, logIndex }
          | _, _, _, _ => none
      | _ => none

namespace Payment

/-- The target a payment goes to. -/
def key (p : Payment) : WatchKey := ⟨p.token.idx, p.dst⟩

/-- The payment as a transfer to `watch`. -/
def toWatch (p : Payment) (watch : WatchRef) (removed : Bool) : MatchedTransfer where
  watch := watch
  tokenIdx := p.token.idx
  src := p.src
  dst := p.dst
  amount := p.amount
  blockNumber := p.blockNumber
  blockHash := p.blockHash
  txHash := p.txHash
  logIndex := p.logIndex
  removed := removed

/-- The watch a payment belongs to, if the cache has one that has started. -/
def match? (cache : WatchCache) (removed : Bool) (p : Payment) : Option MatchedTransfer :=
  match cache.get p.key with
  | some watch => if watch.startBlock ≤ p.blockNumber then some (p.toWatch watch removed) else none
  | none => none

theorem match?_eq_some_iff {cache : WatchCache} {removed : Bool} {p : Payment} {m : MatchedTransfer} :
    p.match? cache removed = some m ↔
      ∃ watch, cache.get p.key = some watch ∧ watch.startBlock ≤ p.blockNumber ∧
        m = p.toWatch watch removed := by
  unfold match?
  cases cache.get p.key with
  | none => simp
  | some watch =>
      by_cases hs : watch.startBlock ≤ p.blockNumber
      · simp [hs, eq_comm]
      · simp [hs]

end Payment

/-- **Matching** is reading the payment and looking its target up. -/
theorem matchLog_toOption (chain : ChainSpec) (cache : WatchCache) (log : Log) :
    (matchLog chain cache log).toOption =
      (payment? chain log).bind (Payment.match? cache log.removed) := by
  unfold matchLog payment?
  by_cases htopic : log.topics.head? ≠ some TRANSFER_TOPIC
  · rw [if_pos htopic, if_pos htopic]
    rfl
  · rw [if_neg htopic, if_neg htopic]
    cases chain.tokenByLogAddress log.address with
    | none => rfl
    | some token =>
        simp only
        split
        · next src dst _ =>
            by_cases hlen : log.data.length ≠ 32
            · rw [if_pos hlen, if_pos hlen]
              rfl
            · rw [if_neg hlen, if_neg hlen]
              -- the cache lookup comes before the block metadata in one and after it in the other
              cases log.blockNumber <;> cases log.blockHash <;> cases log.transactionHash <;>
                cases log.logIndex <;> cases hget : cache.get ⟨token.idx, addressFromWord dst⟩ <;>
                try rfl
              · simp only
                split <;> simp [Payment.match?, Payment.key, hget, Except.toOption]
              · rename_i blockNumber _ _ _ watch
                by_cases hz : token.baseUnits (fromBeSlice log.data) = 0
                · by_cases hs : blockNumber < watch.startBlock <;> simp [hz, hs, Except.toOption]
                · by_cases hs : blockNumber < watch.startBlock
                  · have hlt : ¬ watch.startBlock ≤ blockNumber := Nat.not_le_of_lt hs
                    simp only [if_neg hz, if_pos hs, Option.bind_some, Payment.match?, Payment.key,
                      hget, if_neg hlt]
                    rfl
                  · have hle : watch.startBlock ≤ blockNumber := Nat.le_of_not_lt hs
                    simp only [if_neg hz, if_neg hs, Option.bind_some, Payment.match?, Payment.key,
                      hget, if_pos hle]
                    rfl
        · rfl

/-- What a log must look like to be a payment. -/
theorem payment?_eq_some_iff {chain : ChainSpec} {log : Log} {p : Payment} :
    payment? chain log = some p ↔
      ∃ src dst, log.topics = [TRANSFER_TOPIC, src, dst] ∧ log.data.length = 32 ∧
        chain.tokenByLogAddress log.address = some p.token ∧ p.src = addressFromWord src ∧
        p.dst = addressFromWord dst ∧ log.blockNumber = some p.blockNumber ∧
        log.blockHash = some p.blockHash ∧ log.transactionHash = some p.txHash ∧
        log.logIndex = some p.logIndex ∧ p.amount = p.token.baseUnits (fromBeSlice log.data) ∧
        p.amount ≠ 0 := by
  constructor
  · intro h
    unfold payment? at h
    split at h
    · contradiction
    · next htopic =>
        split at h
        · contradiction
        · next token htoken =>
            split at h
            · next sig src dst htopics =>
                obtain rfl : sig = TRANSFER_TOPIC := by simpa [htopics] using htopic
                split at h
                · contradiction
                · next hlen =>
                    split at h
                    · next hnumber hhash htx hindex =>
                        simp only at h
                        split at h
                        · contradiction
                        · next hamount =>
                            cases h
                            exact ⟨src, dst, htopics, of_not_not hlen, htoken, rfl, rfl, hnumber,
                              hhash, htx, hindex, rfl, hamount⟩
                    · contradiction
            · contradiction
  · rintro ⟨src, dst, htopics, hlen, htoken, hsrc, hdst, hnumber, hhash, htx, hindex, hamount, hpos⟩
    have hne : p.token.baseUnits (fromBeSlice log.data) ≠ 0 := hamount ▸ hpos
    unfold payment?
    simp only [htopics, List.head?_cons, ne_eq, not_true_eq_false, if_false, htoken, hlen, hnumber,
      hhash, htx, hindex, hne]
    rw [← hsrc, ← hdst, ← hamount]

theorem payment?_spec {chain : ChainSpec} {log : Log} {p : Payment}
    (h : payment? chain log = some p) :
    ∃ src dst, log.topics = [TRANSFER_TOPIC, src, dst] ∧ p.dst = addressFromWord dst ∧
      chain.tokenByLogAddress log.address = some p.token ∧ log.blockNumber = some p.blockNumber ∧
      log.blockHash = some p.blockHash ∧ log.logIndex = some p.logIndex ∧ p.amount ≠ 0 := by
  obtain ⟨src, dst, htopics, -, htoken, -, hdst, hnumber, hhash, -, hindex, -, hpos⟩ :=
    payment?_eq_some_iff.mp h
  exact ⟨src, dst, htopics, hdst, htoken, hnumber, hhash, hindex, hpos⟩

/-! ## Synthetic logs -/

/-- `testkit::logs::transfer_log`: a USDC transfer on Base, in a block whose
hash is its number. -/
def transferLog (src dst : Address) (amount blockNumber logIndex : Nat) : Log where
  address := usdc.logAddress
  topics := [TRANSFER_TOPIC, src.setWidth 256, dst.setWidth 256]
  data := (List.range 32).map fun i => UInt8.ofNat (amount / 256 ^ (31 - i))
  blockNumber := some blockNumber
  blockHash := some (BitVec.ofNat 256 blockNumber)
  transactionHash := some (BitVec.ofNat 256 (2 ^ 64 * blockNumber + logIndex))
  logIndex := some logIndex
  removed := false

example : (payment? baseChain (transferLog 7 9 2500000 100 3)).map
    (fun p => (p.dst, p.amount, p.blockNumber, p.logIndex)) = some (9, 2500000, 100, 3) := by
  decide +kernel

end GumIndexer
