import GumIndexer.Base.Run
import GumIndexer.Registry

/-!
# GumIndexer.Config

`Config::validate`, and the registry that is built from a configuration it
accepts.

The hot path names a token by a one-byte position, finds it by the emitter of
a log and divides by a power of ten.  Nothing on that path checks anything:
what makes it right is what `validate` refused at startup.  `ChainConfig.Valid`
is that much of it, `Config.validate_ok` says that an accepted configuration
has it, and `ChainSpec.new` cannot be called without it.
-/

namespace GumIndexer

open Base

inductive IngestMode
  | auto
  | wsTargeted
  | wsFirehose
  | poll
deriving DecidableEq, Repr

structure TokenConfig where
  symbol : String
  address : Address
  decimals : UInt8
  /-- Where the `Transfer` logs of this token come from, when that is not the
  token contract. -/
  transferLogAddress : Option Address
  /-- Decimals of the amounts in those logs. -/
  transferLogDecimals : Option UInt8
deriving DecidableEq, Repr

namespace TokenConfig

/-- `TokenConfig::log_address`. -/
def logAddress (t : TokenConfig) : Address := t.transferLogAddress.getD t.address

/-- `TokenConfig::log_decimals`. -/
def logDecimals (t : TokenConfig) : UInt8 := t.transferLogDecimals.getD t.decimals

/-- How many decimals the logs have over the token. -/
def excess (t : TokenConfig) : Nat := t.logDecimals.toNat - t.decimals.toNat

/-- The second check `validate` makes of a token. -/
def Scaled (t : TokenConfig) : Prop := t.decimals ≤ t.logDecimals ∧ t.excess ≤ 60

end TokenConfig

structure ChainConfig where
  enabled : Bool := true
  chainId : Nat
  httpUrl : String
  wsUrl : String
  ingestMode : IngestMode
  largeScaleMode : IngestMode
  wsBucketSize : Nat := 500
  pollIntervalMs : Nat
  confirmations : Nat
  maxLogRange : Nat
  tokens : List TokenConfig
deriving DecidableEq, Repr

structure Config where
  databaseUrl : String
  /-- The chains by name, in the order of their names. -/
  chains : List (String × ChainConfig)
deriving DecidableEq, Repr

/-! ## Validation

`upper` stands for `str::to_uppercase`; nothing depends on what it does. -/

section Validate

variable (upper : String → String)

/-- The sets the loop over a chain's tokens fills. -/
structure SeenTokens where
  syms : List String := []
  addrs : List Address := []
  logAddrs : List Address := []

/-- One turn of the loop over the tokens of the chain `name`. -/
def checkToken (name : String) (seen : SeenTokens) (t : TokenConfig) :
    Except String SeenTokens :=
  let symbol := t.symbol
  let logDecimals := t.logDecimals
  let decimals := t.decimals
  if upper symbol ∈ seen.syms ∨ t.address ∈ seen.addrs ∨ t.logAddress ∈ seen.logAddrs then
    .error s!"chain {name}: duplicate token {symbol}"
  else if logDecimals < decimals ∨ 60 < logDecimals - decimals then
    .error s!"chain {name}: token {symbol}: transfer_log_decimals ({logDecimals}) must be >= decimals ({decimals}) and within 60 of it"
  else
    .ok ⟨upper symbol :: seen.syms, t.address :: seen.addrs, t.logAddress :: seen.logAddrs⟩

/-- One turn of the loop over the enabled chains; `seenIds` is the map from
chain ids to the names that took them. -/
def checkChain (seenIds : List (Nat × String)) : String × ChainConfig →
    Except String (List (Nat × String))
  | (name, c) =>
      let chainId := c.chainId
      match seenIds.lookup chainId with
      | some other => .error s!"chains {other} and {name} share chain_id {chainId}"
      | none =>
          if c.httpUrl.isEmpty then
            .error s!"chain {name}: http_url is empty (set GUM_CHAINS__{upper name}__HTTP_URL or disable the chain)"
          else if c.ingestMode ≠ .poll ∧ c.wsUrl.isEmpty then
            .error s!"chain {name}: ingest_mode needs ws_url (or set ingest_mode = \"poll\")"
          else if c.largeScaleMode ≠ .wsFirehose ∧ c.largeScaleMode ≠ .poll then
            .error s!"chain {name}: large_scale_mode must be ws_firehose or poll"
          else if c.tokens.isEmpty then
            .error s!"chain {name}: no tokens configured"
          else if 255 < c.tokens.length then
            .error s!"chain {name}: too many tokens"
          else if c.maxLogRange = 0 ∨ c.wsBucketSize = 0 ∨ c.pollIntervalMs = 0 then
            .error s!"chain {name}: max_log_range, ws_bucket_size and poll_interval_ms must be > 0"
          else do
            let _ ← c.tokens.foldlM (checkToken upper name) {}
            return (chainId, name) :: seenIds

/-- `Config::enabled_chains`. -/
def Config.enabledChains (cfg : Config) : List (String × ChainConfig) :=
  cfg.chains.filter (·.2.enabled)

/-- `Config::validate`. -/
def Config.validate (cfg : Config) : Except String Unit :=
  if cfg.databaseUrl.isEmpty then .error "DATABASE_URL is not set"
  else if cfg.enabledChains.isEmpty then .error "no chain is enabled"
  else do
    let _ ← cfg.enabledChains.foldlM (checkChain upper) []
    return ()

end Validate

/-! ## What an accepted configuration has -/

/-- What the rest of the program relies on in a chain's configuration. -/
structure ChainConfig.Valid (c : ChainConfig) : Prop where
  length_le : c.tokens.length ≤ 255
  address_nodup : (c.tokens.map TokenConfig.address).Nodup
  logAddress_nodup : (c.tokens.map TokenConfig.logAddress).Nodup
  scaled : ∀ t ∈ c.tokens, t.Scaled
  maxLogRange_pos : 0 < c.maxLogRange
  wsBucketSize_pos : 0 < c.wsBucketSize

section Accepted

variable {upper : String → String} {name : String} {c : ChainConfig} {t : TokenConfig}

/-- What a token that passes has been checked for. -/
theorem checkToken_ok {seen seen' : SeenTokens} (h : checkToken upper name seen t = .ok seen') :
    t.address ∉ seen.addrs ∧ t.logAddress ∉ seen.logAddrs ∧ t.Scaled ∧
      seen'.addrs = t.address :: seen.addrs ∧ seen'.logAddrs = t.logAddress :: seen.logAddrs := by
  unfold checkToken at h
  simp only at h
  split at h
  · cases h
  · rename_i hdup
    split at h
    · cases h
    · rename_i hdec
      cases h
      have hle : t.decimals ≤ t.logDecimals := UInt8.not_lt.mp fun hlt => hdec (Or.inl hlt)
      have hsub : (t.logDecimals - t.decimals).toNat = t.excess :=
        UInt8.toNat_sub_of_le _ _ hle
      have hexcess : t.excess ≤ 60 := by
        rw [← hsub]
        exact UInt8.not_lt.mp fun hlt => hdec (Or.inr hlt)
      exact ⟨fun hm => hdup (Or.inr (Or.inl hm)), fun hm => hdup (Or.inr (Or.inr hm)),
        ⟨hle, hexcess⟩, rfl, rfl⟩

/-- What the token loop knows of the tokens `done` behind it. -/
structure SeenTokens.Holds (seen : SeenTokens) (done : List TokenConfig) : Prop where
  addrs : seen.addrs = (done.map TokenConfig.address).reverse
  logAddrs : seen.logAddrs = (done.map TokenConfig.logAddress).reverse
  address_nodup : (done.map TokenConfig.address).Nodup
  logAddress_nodup : (done.map TokenConfig.logAddress).Nodup
  scaled : ∀ t ∈ done, t.Scaled

/-- The two lists hold the tokens that were checked so far. -/
theorem SeenTokens.Holds.check {seen seen' : SeenTokens} {done : List TokenConfig}
    (holds : seen.Holds done) (h : checkToken upper name seen t = .ok seen') :
    seen'.Holds (done ++ [t]) := by
  obtain ⟨haddr, hlog, hscaled, haddrs, hlogs⟩ := checkToken_ok h
  rw [holds.addrs, List.mem_reverse] at haddr
  rw [holds.logAddrs, List.mem_reverse] at hlog
  refine ⟨by simp [haddrs, holds.addrs], by simp [hlogs, holds.logAddrs], ?_, ?_, ?_⟩
  · rw [List.map_append]
    exact List.nodup_append_comm.mp (List.nodup_cons.mpr ⟨haddr, holds.address_nodup⟩)
  · rw [List.map_append]
    exact List.nodup_append_comm.mp (List.nodup_cons.mpr ⟨hlog, holds.logAddress_nodup⟩)
  · intro u hu
    rcases List.mem_append.mp hu with hu | hu
    · exact holds.scaled u hu
    · rw [List.mem_singleton.mp hu]
      exact hscaled

/-- After the loop they hold all tokens of the chain. -/
theorem checkTokens_ok {tokens : List TokenConfig} {seen : SeenTokens}
    (h : tokens.foldlM (checkToken upper name) {} = .ok seen) : seen.Holds tokens := by
  -- the tokens behind the loop are those of the list that are not ahead of it
  have hloop := foldlM_ok
    (fun rest (seen : SeenTokens) => ∃ done, tokens = done ++ rest ∧ seen.Holds done)
    (fun u rest seen seen' ⟨done, heq, holds⟩ hu => ⟨done ++ [u], by simp [heq], holds.check hu⟩)
    ⟨[], rfl, rfl, rfl, List.nodup_nil, List.nodup_nil, by simp⟩ h
  obtain ⟨done, heq, holds⟩ := hloop
  rw [List.append_nil] at heq
  exact heq ▸ holds

/-- A chain that passes is valid on its own. -/
theorem checkChain_ok {seenIds seenIds' : List (Nat × String)}
    (h : checkChain upper seenIds (name, c) = .ok seenIds') : c.Valid := by
  unfold checkChain at h
  simp only at h
  split at h
  · cases h
  · iterate 6
      split at h
      · cases h
    rename_i hlength hzero
    obtain ⟨hrange, hbucket, -⟩ := not_or.mp hzero |>.imp id not_or.mp
    cases htokens : c.tokens.foldlM (checkToken upper name) {} with
    | error e => rw [htokens] at h; cases h
    | ok seen =>
        have holds := checkTokens_ok htokens
        exact ⟨Nat.le_of_not_lt hlength, holds.address_nodup, holds.logAddress_nodup, holds.scaled,
          Nat.pos_of_ne_zero hrange, Nat.pos_of_ne_zero hbucket⟩

/-- **Every enabled chain of an accepted configuration is valid.** -/
theorem Config.validate_ok {cfg : Config} (h : cfg.validate upper = .ok ()) :
    ∀ nc ∈ cfg.enabledChains, nc.2.Valid := by
  unfold Config.validate at h
  split at h
  · cases h
  · split at h
    · cases h
    · cases hchains : cfg.enabledChains.foldlM (checkChain upper) [] with
      | error e => rw [hchains] at h; cases h
      | ok seenIds =>
          have hloop := foldlM_ok
            (fun rest (_ : List (Nat × String)) =>
              ∀ nc ∈ cfg.enabledChains, nc ∉ rest → nc.2.Valid)
            (fun nc rest _ _ hrest hnc nc' hmem hnot => by
              by_cases heq : nc' = nc
              · rw [heq]
                exact checkChain_ok hnc
              · exact hrest nc' hmem (by simp [heq, hnot]))
            (fun nc hmem hnot => absurd hmem hnot) hchains
          exact fun nc hmem => hloop nc hmem List.not_mem_nil

/-- Its id is of none of the chains before it. -/
theorem checkChain_seen {seenIds seenIds' : List (Nat × String)}
    (h : checkChain upper seenIds (name, c) = .ok seenIds') :
    seenIds' = (c.chainId, name) :: seenIds ∧ c.chainId ∉ seenIds.map Prod.fst := by
  unfold checkChain at h
  simp only at h
  split at h
  · cases h
  · rename_i hfresh
    iterate 6
      split at h
      · cases h
    cases htokens : c.tokens.foldlM (checkToken upper name) {} with
    | error e => rw [htokens] at h; cases h
    | ok seen =>
        rw [htokens] at h
        cases h
        refine ⟨rfl, fun hmem => ?_⟩
        obtain ⟨idName, hin, heq⟩ := List.mem_map.mp hmem
        simpa [heq] using List.lookup_eq_none_iff.mp hfresh idName hin

/-- The enabled chains of an accepted configuration have different ids. -/
theorem Config.chainId_nodup {cfg : Config} (h : cfg.validate upper = .ok ()) :
    (cfg.enabledChains.map (·.2.chainId)).Nodup := by
  unfold Config.validate at h
  split at h
  · cases h
  · split at h
    · cases h
    · cases hchains : cfg.enabledChains.foldlM (checkChain upper) [] with
      | error e => rw [hchains] at h; cases h
      | ok seenIds =>
          -- the ids seen are those of the chains behind the loop
          have hloop := foldlM_ok
            (fun rest (seenIds : List (Nat × String)) => ∃ done, cfg.enabledChains = done ++ rest ∧
              seenIds.map Prod.fst = (done.map (·.2.chainId)).reverse ∧
                (done.map (·.2.chainId)).Nodup)
            (fun nc rest seenIds seenIds' ⟨done, heq, hseen, hnodup⟩ hnc => by
              obtain ⟨rfl, hfresh⟩ := checkChain_seen hnc
              refine ⟨done ++ [nc], by simp [heq], by simp [hseen], ?_⟩
              rw [hseen, List.mem_reverse] at hfresh
              rw [List.map_append, List.map_singleton, List.nodup_append_comm]
              exact List.nodup_cons.mpr ⟨hfresh, hnodup⟩)
            ⟨[], rfl, rfl, List.nodup_nil⟩ hchains
          obtain ⟨done, heq, -, hnodup⟩ := hloop
          rw [List.append_nil] at heq
          exact heq ▸ hnodup

end Accepted

/-! ## The registry -/

section Registry

variable (upper : String → String)

/-- The token at position `i` of the list, as `ChainSpec::new` resolves it.
`i as u8` and the power of ten wrap. -/
def tokenSpec (t : TokenConfig) (i : Nat) : TokenSpec where
  idx := UInt8.ofNat i
  symbol := upper t.symbol
  address := t.address
  decimals := t.decimals
  logAddress := t.logAddress
  logScale :=
    if t.decimals < t.logDecimals then some (10#256 ^ (t.logDecimals - t.decimals).toNat) else none

@[simp] theorem tokenSpec_address (t : TokenConfig) (i : Nat) :
    (tokenSpec upper t i).address = t.address := rfl

@[simp] theorem tokenSpec_logAddress (t : TokenConfig) (i : Nat) :
    (tokenSpec upper t i).logAddress = t.logAddress := rfl

/-- Positions below 256 survive the cast. -/
theorem tokenSpec_idx (t : TokenConfig) {i : Nat} (h : i < 256) :
    (tokenSpec upper t i).idx.toNat = i := by
  unfold tokenSpec
  rw [UInt8.toNat_ofNat']
  exact Nat.mod_eq_of_lt h

/-- The power of ten does not wrap if it fits into 256 bits. -/
theorem toNat_ten_pow {n : Nat} (h : 10 ^ n < 2 ^ 256) : (10#256 ^ n).toNat = 10 ^ n := by
  induction n with
  | zero => rfl
  | succ n ih =>
      have hlt : 10 ^ n < 2 ^ 256 :=
        Nat.lt_of_le_of_lt (Nat.pow_le_pow_right (by decide) (Nat.le_succ n)) h
      rw [BitVec.pow_succ, BitVec.toNat_mul, ih hlt]
      exact Nat.mod_eq_of_lt h

/-- The power of ten is the one that is meant. -/
theorem tokenSpec_logScale {t : TokenConfig} (i : Nat) {scale : U256} (scaled : t.Scaled)
    (h : (tokenSpec upper t i).logScale = some scale) : scale.toNat = 10 ^ t.excess := by
  unfold tokenSpec at h
  simp only [Option.ite_none_right_eq_some, Option.some.injEq] at h
  have hsub : (t.logDecimals - t.decimals).toNat = t.excess :=
    UInt8.toNat_sub_of_le _ _ scaled.1
  have hfits : 10 ^ t.excess < 2 ^ 256 :=
    Nat.lt_of_le_of_lt (Nat.pow_le_pow_right (by decide) scaled.2) (by decide)
  rw [← h.2, hsub, toNat_ten_pow hfits]

/-- **Base units**: the log amount over ten to the excess, rounded down. -/
theorem tokenSpec_baseUnits {t : TokenConfig} (i : Nat) (scaled : t.Scaled) (amount : U256) :
    ((tokenSpec upper t i).baseUnits amount).toNat = amount.toNat / 10 ^ t.excess := by
  unfold TokenSpec.baseUnits
  split
  · rename_i scale hscale
    rw [BitVec.toNat_udiv, tokenSpec_logScale upper i scaled hscale]
  · rename_i hnone
    -- no scale: the logs have no more decimals than the token
    have hge : ¬ t.decimals < t.logDecimals := by
      intro hlt
      simp [tokenSpec, hlt] at hnone
    have hzero : t.excess = 0 := Nat.sub_eq_zero_of_le (UInt8.not_lt.mp hge)
    rw [hzero, Nat.pow_zero, Nat.div_one]

/-- A column of the tokens that does not depend on the index is that of the
configuration. -/
theorem map_mapIdx_tokenSpec {α : Type} (tokens : List TokenConfig) (f : TokenSpec → α)
    (g : TokenConfig → α) (h : ∀ t i, f (tokenSpec upper t i) = g t) :
    (tokens.mapIdx fun i t => tokenSpec upper t i).map f = tokens.map g := by
  apply List.ext_getElem? fun i => ?_
  simp only [List.getElem?_map, List.getElem?_mapIdx, Option.map_map]
  congr 1
  funext t
  exact h t i

/-- The indices differ as long as there are at most 255 tokens. -/
theorem idx_nodup_mapIdx {tokens : List TokenConfig} (h : tokens.length ≤ 255) :
    ((tokens.mapIdx fun i t => tokenSpec upper t i).map TokenSpec.idx).Nodup := by
  rw [List.nodup_iff_injective_get]
  intro i j hij
  have hi : i.val < tokens.length := by simpa using i.isLt
  have hj : j.val < tokens.length := by simpa using j.isLt
  have hidx : ∀ k (hk : k < tokens.length), (tokenSpec upper tokens[k] k).idx.toNat = k :=
    fun k hk => tokenSpec_idx upper _ (by omega)
  apply Fin.ext
  simp only [List.get_eq_getElem, List.getElem_map, List.getElem_mapIdx] at hij
  rw [← hidx i hi, ← hidx j hj, hij]

/-- `ChainSpec::new`. -/
def ChainSpec.new (name : String) (cfg : ChainConfig) (valid : cfg.Valid) : ChainSpec where
  name := name
  chainId := cfg.chainId
  confirmations := cfg.confirmations
  maxLogRange := cfg.maxLogRange
  tokens := cfg.tokens.mapIdx fun i t => tokenSpec upper t i
  idx_nodup := idx_nodup_mapIdx upper valid.length_le
  address_nodup := by
    rw [map_mapIdx_tokenSpec upper _ _ TokenConfig.address fun _ _ => rfl]
    exact valid.address_nodup
  logAddress_nodup := by
    rw [map_mapIdx_tokenSpec upper _ _ TokenConfig.logAddress fun _ _ => rfl]
    exact valid.logAddress_nodup

/-- `Registry::from_config`. -/
def Registry.fromConfig (cfg : Config) (valid : cfg.validate upper = .ok ()) : List ChainSpec :=
  cfg.enabledChains.attach.map fun nc =>
    ChainSpec.new upper nc.1.1 nc.1.2 (Config.validate_ok valid nc.1 nc.2)

end Registry

end GumIndexer
