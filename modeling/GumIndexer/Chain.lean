import GumIndexer.Matcher

/-!
# GumIndexer.Chain

The canonical chain, as `eth_getLogs` serves it.

What the indexer sees of a chain is its event logs.  `Canon` holds the logs of
the blocks that stay, with what every node guarantees about them, and
`Canon.getLogs` is the answer of an honest node to a filter.  Blocks above the
confirmation depth may still be replaced: a log heard of there need not be in
`Canon`.
-/

namespace GumIndexer

/-- An `eth_getLogs` filter; an empty list of emitters or recipients admits
all. -/
structure Filter where
  address : List Address
  eventSignature : B256
  topic2 : List B256 := []
  fromBlock : Nat
  toBlock : Nat
deriving DecidableEq, Repr

/-- The filter admits the log. -/
def Filter.Admits (f : Filter) (l : Log) : Prop :=
  (f.address = [] ∨ l.address ∈ f.address) ∧ l.topics[0]? = some f.eventSignature ∧
    (f.topic2 = [] ∨ ∃ t ∈ l.topics[2]?, t ∈ f.topic2) ∧
    ∃ n ∈ l.blockNumber, f.fromBlock ≤ n ∧ n ≤ f.toBlock

instance (f : Filter) (l : Log) : Decidable (f.Admits l) :=
  -- not by a search through all words
  have : Decidable (∃ t ∈ l.topics[2]?, t ∈ f.topic2) :=
    decidable_of_iff (l.topics[2]?.any fun t => t ∈ f.topic2) (by simp [Option.any_eq_true])
  inferInstanceAs (Decidable (_ ∧ _))

/-- `Address::into_word`. -/
def intoWord (a : Address) : B256 := a.setWidth 256

/-- Reading back an encoded address. -/
theorem addressFromWord_intoWord (a : Address) : addressFromWord (intoWord a) = a := by
  unfold addressFromWord intoWord
  exact BitVec.setWidth_setWidth_of_le a (by decide)

/-- The recipient of a log is an address in ABI encoding. -/
def Log.Encoded (l : Log) : Prop := ∀ t ∈ l.topics[2]?, t = intoWord (addressFromWord t)

theorem encoded_transferLog (src dst : Address) (amount blockNumber logIndex : Nat) :
    (transferLog src dst amount blockNumber logIndex).Encoded := by
  intro t ht
  obtain rfl : intoWord dst = t := Option.some.inj ht
  rw [addressFromWord_intoWord]

/-- The canonical logs of a chain. -/
structure Canon where
  logs : List Log
  /-- None of them was retracted. -/
  kept : ∀ l ∈ logs, l.removed = false
  /-- A log is identified by its block and its index. -/
  once : (logs.map fun l => (l.blockHash, l.logIndex)).Nodup
  encoded : ∀ l ∈ logs, l.Encoded

namespace Canon

/-- An honest answer to a filter. -/
def getLogs (canon : Canon) (f : Filter) : List Log := canon.logs.filter fun l => f.Admits l

/-- The log is part of the chain, at this height. -/
def Has (canon : Canon) (blockHash : B256) (logIndex blockNumber : Nat) : Prop :=
  ∃ l ∈ canon.logs, l.blockHash = some blockHash ∧ l.logIndex = some logIndex ∧
    l.blockNumber = some blockNumber

instance (canon : Canon) (blockHash : B256) (logIndex blockNumber : Nat) :
    Decidable (canon.Has blockHash logIndex blockNumber) :=
  inferInstanceAs (Decidable (∃ l ∈ _, _))

/-- An answer has no log twice. -/
theorem once_getLogs (canon : Canon) (f : Filter) :
    ((canon.getLogs f).map fun l => (l.blockHash, l.logIndex)).Nodup :=
  canon.once.sublist (List.Sublist.map _ List.filter_sublist)

end Canon

/-- A chain with one payment: 40 base units to address 9 in block 103. -/
def lonePayment : Canon where
  logs := [transferLog 7 9 40 103 0]
  kept l hl := by rw [List.mem_singleton.mp hl]; rfl
  once := List.nodup_singleton _
  encoded l hl := by rw [List.mem_singleton.mp hl]; exact encoded_transferLog _ _ _ _ _

/-- The filter of a sweep over `[fromBlock, toBlock]`. -/
def sweepFilter (chain : ChainSpec) (fromBlock toBlock : Nat) : Filter where
  address := chain.logAddresses
  eventSignature := TRANSFER_TOPIC
  fromBlock := fromBlock
  toBlock := toBlock

/-- A sweep asks for every payment of its range. -/
theorem sweepFilter_admits {chain : ChainSpec} {l : Log} {p : Payment} {lo hi : Nat}
    (h : payment? chain l = some p) (hlo : lo ≤ p.blockNumber) (hhi : p.blockNumber ≤ hi) :
    (sweepFilter chain lo hi).Admits l := by
  obtain ⟨src, dst, htopics, -, htoken, hnumber, -⟩ := payment?_spec h
  obtain ⟨hmem, haddress⟩ := ChainSpec.tokenByLogAddress_eq_some_iff.mp htoken
  refine ⟨.inr ?_, by rw [htopics]; rfl, .inl rfl, p.blockNumber, hnumber, hlo, hhi⟩
  rw [← haddress]
  exact List.mem_map_of_mem hmem

end GumIndexer
