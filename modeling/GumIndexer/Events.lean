import GumIndexer.Numeric

/-!
# GumIndexer.Events

Webhook event types and payloads.
-/

namespace GumIndexer

inductive WatchStatus
  | active
  | completed
  | cancelled
  | expired
deriving DecidableEq, Repr

/-- `pending`: seen at head.  `confirmed`: canonical at confirmation depth and
counted.  `orphaned`: was pending, not canonical at depth.  `ignored`:
canonical, but the watch was no longer active. -/
inductive TransferStatus
  | pending
  | confirmed
  | orphaned
  | ignored
deriving DecidableEq, Repr

inductive EventType
  | paymentPending
  | paymentConfirmed
  | paymentOrphaned
  | thresholdReached
  | watchExpired
deriving DecidableEq, Repr

structure WatchView where
  id : Uuid
  chain : String
  chainId : Nat
  token : String
  tokenAddress : Address
  paymentAddress : Address
  balanceThreshold : U256
  /-- Confirmed total at the time the event was created. -/
  confirmedAmount : U256
  status : WatchStatus
deriving DecidableEq, Repr

structure TransferView where
  txHash : B256
  logIndex : Nat
  blockNumber : Nat
  blockHash : B256
  src : Address
  amount : U256
  status : TransferStatus
deriving DecidableEq, Repr

structure EventPayload where
  id : Uuid
  eventType : EventType
  /-- Monotonic per watch. -/
  sequence : Nat
  watch : WatchView
  transfer : Option TransferView
deriving DecidableEq, Repr

end GumIndexer
