import GumIndexer.Config
import GumIndexer.Matches

/-!
# GumIndexer.Routing

From a configuration to a matched transfer: the log of a configured emitter
reaches the watch that waits for it, in base units of its token.

A cache entry does not name its token or its recipient other than through its
key, and the key holds a position.  `slimEntry_spec` reads the key of an entry
back into the row it was made from; with `ChainSpec.new` behind the positions
this is enough to say, of every log, whom it goes to and with what amount.
-/

namespace GumIndexer

open Base

/-! ## The amount word -/

/-- The number 32 bytes of data stand for. -/
def wordValue (bytes : List UInt8) : Nat := bytes.foldl (fun n b => n * 256 + b.toNat) 0

theorem foldl_bytes_lt (bytes : List UInt8) (n : Nat) :
    bytes.foldl (fun n b => n * 256 + b.toNat) n < (n + 1) * 256 ^ bytes.length := by
  induction bytes generalizing n with
  | nil => simp
  | cons b bytes ih =>
      have hb : b.toNat < 256 := b.toNat_lt
      calc (b :: bytes).foldl (fun n b => n * 256 + b.toNat) n
          < (n * 256 + b.toNat + 1) * 256 ^ bytes.length := ih _
        _ ≤ ((n + 1) * 256) * 256 ^ bytes.length :=
            Nat.mul_le_mul_right _ (by omega)
        _ = (n + 1) * 256 ^ (b :: bytes).length := by
            rw [List.length_cons, Nat.pow_succ, Nat.mul_assoc, Nat.mul_comm 256]

/-- A word fits. -/
theorem toNat_fromBeSlice {bytes : List UInt8} (h : bytes.length = 32) :
    (fromBeSlice bytes).toNat = wordValue bytes := by
  have hlt := foldl_bytes_lt bytes 0
  rw [h] at hlt
  unfold fromBeSlice
  rw [BitVec.toNat_ofNat]
  exact Nat.mod_eq_of_lt (Nat.lt_of_lt_of_le hlt (by decide))

/-! ## Entries of rows -/

/-- The row `w` gives this entry: to a load, which reads the row through
`slim_entry`, or to a registration, which has it as a `WatchRow`. -/
def Watch.Gives (w : Watch) (chain : ChainSpec) (key : WatchKey) (ref : WatchRef) : Prop :=
  slimEntry chain w = some (key, ref) ∨
    ∃ row, WatchRow.fromRow w = .ok row ∧ row.cacheEntry chain = some (key, ref)

/-- Every entry comes from a row of the table. -/
def WatchCache.FromRows (cache : WatchCache) (chain : ChainSpec)
    (watches : Table Watch Watch.id) : Prop :=
  ∀ key ref, cache.get key = some ref → ∃ w, watches.get? w.id = some w ∧ w.Gives chain key ref

section Entries

variable {chain : ChainSpec} {w : Watch} {key : WatchKey} {ref : WatchRef}

/-- The two ways agree. -/
theorem Watch.Gives.entry (h : w.Gives chain key ref) : slimEntry chain w = some (key, ref) := by
  rcases h with h | ⟨row, hrow, hentry⟩
  · exact h
  · rcases WatchRow.fromRow_cases w with ⟨-, hof⟩ | ⟨-, v, herr⟩
    · rw [hof] at hrow
      cases hrow
      exact hentry
    · rw [herr] at hrow
      cases hrow

/-- What the key of an entry says about its row. -/
theorem slimEntry_spec (h : slimEntry chain w = some (key, ref)) :
    ∃ token ∈ chain.tokens, token.address = w.tokenAddress ∧ key = ⟨token.idx, w.paymentAddress⟩ ∧
      ref = ⟨w.id, w.seq, w.startBlock⟩ := by
  obtain ⟨token, htoken, heq⟩ := Option.map_eq_some_iff.mp h
  obtain ⟨hmem, haddress⟩ := ChainSpec.tokenByAddress_eq_some_iff.mp htoken
  obtain ⟨hkey, href⟩ := Prod.mk.inj heq
  exact ⟨token, hmem, haddress, hkey.symm, href.symm⟩

end Entries

/-! ## The tokens of a registry -/

section Tokens

variable {upper : String → String} {name : String} {c : ChainConfig} (valid : c.Valid)

theorem getElem?_new (i : Nat) : (ChainSpec.new upper name c valid).tokens[i]? =
    c.tokens[i]?.map (tokenSpec upper · i) := by
  simp [ChainSpec.new]

/-- A resolved token is the configured one at its position. -/
theorem mem_tokens_new {token : TokenSpec} :
    token ∈ (ChainSpec.new upper name c valid).tokens ↔
      ∃ (i : Nat) (t : TokenConfig), c.tokens[i]? = some t ∧ token = tokenSpec upper t i := by
  rw [List.mem_iff_getElem?]
  refine exists_congr fun i => ?_
  rw [getElem?_new, Option.map_eq_some_iff]
  simp only [@eq_comm _ token]

end Tokens

/-- The resolved tokens are the configured ones, and resolving them lost
nothing: the position fits its byte, the decimals do not go below zero and the
divisor is the power of ten that is meant. -/
def ChainSpec.Resolves (chain : ChainSpec) (c : ChainConfig) : Prop :=
  chain.tokens.length = c.tokens.length ∧
    ∀ (i : Nat) t, c.tokens[i]? = some t → ∃ token, chain.tokens[i]? = some token ∧
      token.idx.toNat = i ∧ token.address = t.address ∧ token.logAddress = t.logAddress ∧
      t.decimals ≤ t.logDecimals ∧
      ∀ scale, token.logScale = some scale → scale.toNat = 10 ^ t.excess ∧ scale ≠ 0

/-- The log goes where it should: `m` is for the watch `w` on the token `t`. -/
structure Routed (c : ChainConfig) (log : Log) (m : MatchedTransfer) (w : Watch)
    (t : TokenConfig) : Prop where
  recipient : ∃ src dst, log.topics = [TRANSFER_TOPIC, src, dst] ∧
    w.paymentAddress = addressFromWord dst
  token : t ∈ c.tokens ∧ w.tokenAddress = t.address
  emitter : ∀ t' ∈ c.tokens, t'.logAddress = log.address ↔ t' = t
  block : log.blockNumber = some m.blockNumber
  started : w.startBlock ≤ m.blockNumber
  word : log.data.length = 32
  amount : m.amount.toNat = wordValue log.data / 10 ^ t.excess
  worth : 1 ≤ m.amount.toNat

/-- A complete and well-formed `Transfer` log of the token at position `i`,
worth at least one base unit, to an address that is cached for that token under
`ref`, in a block from which `ref` counts. -/
structure Deliverable (c : ChainConfig) (cache : WatchCache) (log : Log) (ref : WatchRef)
    (i : Nat) (t : TokenConfig) (dst : B256) (blockNumber : Nat) : Prop where
  topics : ∃ src, log.topics = [TRANSFER_TOPIC, src, dst]
  word : log.data.length = 32
  block : log.blockNumber = some blockNumber
  complete : log.blockHash.isSome ∧ log.transactionHash.isSome ∧ log.logIndex.isSome
  token : c.tokens[i]? = some t
  emitter : t.logAddress = log.address
  worth : 1 ≤ wordValue log.data / 10 ^ t.excess
  cached : cache.get ⟨UInt8.ofNat i, addressFromWord dst⟩ = some ref
  started : ref.startBlock ≤ blockNumber

section Routing

variable {upper : String → String} {name : String} {c : ChainConfig} (valid : c.Valid)
  {cache : WatchCache} {watches : Table Watch Watch.id} {log : Log}

theorem resolves_new : (ChainSpec.new upper name c valid).Resolves c := by
  refine ⟨by simp [ChainSpec.new], fun i t ht => ⟨tokenSpec upper t i, ?_, ?_, rfl, rfl, ?_, ?_⟩⟩
  · rw [getElem?_new, ht]
    rfl
  · have hlt : i < c.tokens.length := (List.getElem?_eq_some_iff.mp ht).1
    have hle := valid.length_le
    exact tokenSpec_idx upper t (by omega)
  · exact (valid.scaled t (List.mem_of_getElem? ht)).1
  · intro scale hscale
    have hpow := tokenSpec_logScale upper i (valid.scaled t (List.mem_of_getElem? ht)) hscale
    refine ⟨hpow, fun hzero => ?_⟩
    rw [hzero] at hpow
    exact absurd hpow.symm (Nat.pow_pos (by decide)).ne'

theorem matchLog_eq_ok_iff {chain : ChainSpec} {m : MatchedTransfer} :
    matchLog chain cache log = .ok m ↔
      ∃ p, payment? chain log = some p ∧ p.match? cache log.removed = some m := by
  rw [← Option.bind_eq_some_iff, ← matchLog_toOption]
  cases matchLog chain cache log <;> simp [Except.toOption]

/-- A matched log is routed right. -/
theorem routed_of_match (rows : cache.FromRows (ChainSpec.new upper name c valid) watches)
    {m : MatchedTransfer} (h : matchLog (ChainSpec.new upper name c valid) cache log = .ok m) :
    ∃ w t, watches.get? m.watch.id = some w ∧ Routed c log m w t := by
  obtain ⟨p, hp, hmatch⟩ := matchLog_eq_ok_iff.mp h
  obtain ⟨src, dst, htopics, hlen, htoken, -, hdst, hnumber, -, -, -, hamount, hpos⟩ :=
    payment?_eq_some_iff.mp hp
  obtain ⟨ref, hget, hstarted, rfl⟩ := Payment.match?_eq_some_iff.mp hmatch
  obtain ⟨hmem, hemitter⟩ := ChainSpec.tokenByLogAddress_eq_some_iff.mp htoken
  obtain ⟨w, hw, hgives⟩ := rows _ _ hget
  obtain ⟨token, hmem', haddress, hkey, rfl⟩ := slimEntry_spec hgives.entry
  obtain ⟨hidx, hpayee⟩ := WatchKey.mk.inj hkey
  -- the position in the key is that of the emitter's token
  obtain rfl := ChainSpec.eq_of_idx_eq hmem hmem' hidx
  obtain ⟨i, t, ht, hspec⟩ := (mem_tokens_new valid).mp hmem
  have htmem := List.mem_of_getElem? ht
  rw [hspec] at haddress hemitter hamount
  refine ⟨w, t, hw, ⟨src, dst, htopics, hpayee.symm.trans hdst⟩, ⟨htmem, haddress.symm⟩, ?_,
    hnumber, hstarted, hlen, ?_, ?_⟩
  · intro t' ht'
    refine ⟨fun heq => ?_, fun heq => heq ▸ hemitter⟩
    exact List.inj_on_of_nodup_map valid.logAddress_nodup ht' htmem (heq.trans hemitter.symm)
  · show p.amount.toNat = _
    rw [hamount, tokenSpec_baseUnits upper i (valid.scaled t htmem), toNat_fromBeSlice hlen]
  · exact Nat.pos_of_ne_zero fun hzero => hpos (BitVec.eq_of_toNat_eq hzero)

/-- A log that should be matched is. -/
theorem match_of_deliverable {ref : WatchRef} {i : Nat} {t : TokenConfig} {dst : B256}
    {blockNumber : Nat} (h : Deliverable c cache log ref i t dst blockNumber) :
    ∃ m, matchLog (ChainSpec.new upper name c valid) cache log = .ok m ∧ m.watch = ref := by
  obtain ⟨src, htopics⟩ := h.topics
  obtain ⟨blockHash, hhash⟩ := Option.isSome_iff_exists.mp h.complete.1
  obtain ⟨txHash, htx⟩ := Option.isSome_iff_exists.mp h.complete.2.1
  obtain ⟨logIndex, hindex⟩ := Option.isSome_iff_exists.mp h.complete.2.2
  have hmem : tokenSpec upper t i ∈ (ChainSpec.new upper name c valid).tokens :=
    (mem_tokens_new valid).mpr ⟨i, t, h.token, rfl⟩
  have htoken : (ChainSpec.new upper name c valid).tokenByLogAddress log.address =
      some (tokenSpec upper t i) :=
    ChainSpec.tokenByLogAddress_eq_some_iff.mpr ⟨hmem, h.emitter⟩
  have hunits := tokenSpec_baseUnits upper i (valid.scaled t (List.mem_of_getElem? h.token))
    (fromBeSlice log.data)
  have hpos : (tokenSpec upper t i).baseUnits (fromBeSlice log.data) ≠ 0 := by
    intro hzero
    rw [hzero, toNat_fromBeSlice h.word] at hunits
    exact absurd hunits (Nat.ne_of_lt h.worth)
  let p : Payment :=
    ⟨tokenSpec upper t i, addressFromWord src, addressFromWord dst,
      (tokenSpec upper t i).baseUnits (fromBeSlice log.data), blockNumber, blockHash, txHash,
      logIndex⟩
  have hp : payment? (ChainSpec.new upper name c valid) log = some p :=
    payment?_eq_some_iff.mpr ⟨src, dst, htopics, h.word, htoken, rfl, rfl, h.block, hhash, htx,
      hindex, rfl, hpos⟩
  exact ⟨p.toWatch ref log.removed, matchLog_eq_ok_iff.mpr ⟨p, hp,
    Payment.match?_eq_some_iff.mpr ⟨ref, h.cached, h.started, rfl⟩⟩, rfl⟩

end Routing

theorem mem_fromConfig {upper : String → String} {cfg : Config}
    {valid : cfg.validate upper = .ok ()} {chain : ChainSpec}
    (h : chain ∈ Registry.fromConfig upper cfg valid) :
    ∃ (c : ChainConfig) (ok : c.Valid), (chain.name, c) ∈ cfg.enabledChains ∧
      chain = ChainSpec.new upper chain.name c ok := by
  obtain ⟨nc, -, rfl⟩ := List.mem_map.mp h
  exact ⟨nc.1.2, Config.validate_ok valid nc.1 nc.2, nc.2, rfl⟩

/-- **Routing.**  A chain of an accepted configuration resolves its tokens
without loss; over any cache of entries that come from watch rows, a log that
is matched is for the watch of its recipient on the one token of its emitter,
in base units of that token; and every log that can be delivered is matched. -/
theorem log_routed {upper : String → String} {cfg : Config} (valid : cfg.validate upper = .ok ())
    {chain : ChainSpec} (hchain : chain ∈ Registry.fromConfig upper cfg valid) :
    ∃ c, (chain.name, c) ∈ cfg.enabledChains ∧ chain.Resolves c ∧
      ∀ (watches : Table Watch Watch.id) (cache : WatchCache), cache.FromRows chain watches →
        ∀ log : Log,
          (∀ m, matchLog chain cache log = .ok m →
            ∃ w t, watches.get? m.watch.id = some w ∧ Routed c log m w t) ∧
          (∀ ref i t dst blockNumber, Deliverable c cache log ref i t dst blockNumber →
            ∃ m, matchLog chain cache log = .ok m ∧ m.watch = ref) := by
  obtain ⟨c, ok, hmem, heq⟩ := mem_fromConfig hchain
  refine ⟨c, hmem, ?_, fun watches cache rows log => ⟨fun m h => ?_, ?_⟩⟩
  · rw [heq]
    exact resolves_new ok
  · rw [heq] at rows h
    exact routed_of_match ok rows h
  · intro ref i t dst blockNumber h
    rw [heq]
    exact match_of_deliverable ok h

/-! ## The Arc chain of the default configuration

Its USDC is logged by the system emitter, with 18 decimals. -/

def arcUsdc : TokenConfig where
  symbol := "USDC"
  address := 0x3600000000000000000000000000000000000000#160
  decimals := 6
  transferLogAddress := some 0xfffffffffffffffffffffffffffffffffffffffe#160
  transferLogDecimals := some 18

def arcConfig : Config where
  databaseUrl := "gum"
  chains :=
    [("arc",
      { chainId := 5042, httpUrl := "arc", wsUrl := "arc", ingestMode := .auto
        largeScaleMode := .poll, pollIntervalMs := 2000, confirmations := 2, maxLogRange := 1000
        tokens := [arcUsdc] })]

theorem arcConfig_valid : arcConfig.validate String.toUpper = .ok () := rfl

def arcChain : ChainSpec :=
  ChainSpec.new String.toUpper "arc" _ (Config.validate_ok arcConfig_valid
    (arcConfig.enabledChains.head (by decide)) (List.head_mem _))

/-- A watch of the payee 9 on Arc, from block 101 on. -/
def arcWatch : Watch where
  id := 1
  seq := 1
  chainId := 5042
  tokenAddress := arcUsdc.address
  paymentAddress := 9
  threshold := 2
  webhookUrl := "hook"
  startBlock := 101
  createdAt := 0
  expiresAt := none
  backfillTo := none

def arcCache : WatchCache := (WatchCache.new.insert ⟨0, 9⟩ ⟨1, 1, 101⟩).1

/-- Two and a half base units, in 18 decimals. -/
def arcLog : Log :=
  { transferLog 7 9 2500000000000 103 0 with address := arcUsdc.logAddress }

theorem arcCache_fromRows :
    arcCache.FromRows arcChain (Table.empty.upsert arcWatch) := by
  intro key ref hget
  rw [arcCache, WatchCache.get_insert] at hget
  split at hget
  · rename_i hkey
    obtain rfl := Option.some.inj hget
    subst hkey
    exact ⟨arcWatch, by decide +kernel, .inl (by decide +kernel)⟩
  · cases hget

theorem log_routed_arc :
    ∃ c, Deliverable c arcCache arcLog ⟨1, 1, 101⟩ 0 arcUsdc 9 103 ∧
      ∃ m w t, matchLog arcChain arcCache arcLog = .ok m ∧ w.id = 1 ∧ Routed c arcLog m w t := by
  have hchain : arcChain ∈ Registry.fromConfig String.toUpper arcConfig arcConfig_valid :=
    List.mem_map.mpr ⟨⟨arcConfig.enabledChains.head (by decide), List.head_mem _⟩, by simp, rfl⟩
  obtain ⟨c, hmem, -, hlog⟩ := log_routed arcConfig_valid hchain
  obtain ⟨hsound, hcomplete⟩ := hlog _ arcCache arcCache_fromRows arcLog
  have hc : c.tokens = [arcUsdc] := by
    obtain ⟨-, rfl⟩ := Prod.mk.inj (List.mem_singleton.mp hmem)
    rfl
  have hdeliver : Deliverable c arcCache arcLog ⟨1, 1, 101⟩ 0 arcUsdc 9 103 :=
    ⟨⟨7, by decide +kernel⟩, by decide +kernel, rfl, by decide +kernel, by rw [hc]; rfl, rfl,
      by decide +kernel, by decide +kernel, by decide⟩
  obtain ⟨m, hm, hwatch⟩ := hcomplete _ _ _ _ _ hdeliver
  obtain ⟨w, t, hw, hrouted⟩ := hsound m hm
  rw [hwatch] at hw
  exact ⟨c, hdeliver, m, w, t, hm, Table.key_of_get? hw, hrouted⟩

end GumIndexer
