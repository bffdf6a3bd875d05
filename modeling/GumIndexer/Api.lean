import GumIndexer.Attribution
import GumIndexer.Lookback
import GumIndexer.Overflow
import GumIndexer.Registration
import GumIndexer.Target

/-!
# GumIndexer.Api

The handlers of `/v1/watches`, and what a client can rely on.

A registration is checked field by field before it reaches the store
(`Api.newWatch`), and the store answers as in `GumIndexer.Registration`.  What
the checks let through is what the rest of the system takes for granted: every
watch there ever is, is of a token of an enabled chain, so that it has an entry
for the cache (`watches_vetted`).  A client that repeats its registration is
told of the watch it made for as long as that watch is active
(`repost_existing_iff`), and finds it under its id for ever
(`posted_watch_found`).

The other two handlers make two statements, with no transaction around them,
and anything may happen in between.  `cancel_watch` reads the row first and
answers with it when the update finds nothing to do; so it may answer with an
active watch, and does so exactly if somebody else retired it in between
(`delete_watch`).  `get_watch` reads the transfers last, so what it lists may
be ahead of the total and is never behind it, as long as the rows of the watch
add up to its total (`listed_transfers`).
-/

namespace GumIndexer

open Base

/-! ## Errors -/

structure ApiError where
  status : Nat
  code : String
  message : String
deriving DecidableEq, Repr

namespace ApiError

/-- `ApiError::invalid`. -/
def invalid (message : String) : ApiError := ⟨422, "invalid_request", message⟩

/-- `From<StoreError>`. -/
def ofStore (_ : StoreError) : ApiError :=
  ⟨503, "storage_unavailable", "storage is temporarily unavailable; retry"⟩

end ApiError

/-! ## Texts -/

/-- `str::parse::<u64>`, of any text: an optional plus sign and decimal digits. -/
def parseChainId : Str → Option Nat
  | '+' :: s => (digits? s).filter (· < 2 ^ 64)
  | s => (digits? s).filter (· < 2 ^ 64)

/-- What comes from other crates. -/
structure Parsers where
  /-- `Address::from_str`. -/
  address : Str → Option Address
  /-- `U256::from_str_radix(_, 10)`. -/
  u256 : Str → Option U256
  /-- `Url::parse`. -/
  url : Str → Except String Target.Url
  /-- The text of the URL it gives. -/
  urlText : Str → String
  /-- `{:?}` of a string. -/
  quoted : Str → String

/-- A `serde_json::Value`, as far as `parse_threshold` goes into it. -/
inductive JsonValue
  | string (s : Str)
  | number (n : UInt64)
  | other
deriving DecidableEq, Repr

structure CreateWatchRequest where
  paymentAddress : Str
  chain : Str
  token : Str
  balanceThreshold : JsonValue
  webhookEndpoint : Str
  expiresAt : Option Nat
  paymentsSince : Option Nat
deriving DecidableEq, Repr

/-- `Registry::chain`. -/
def Registry.chain (chains : List ChainSpec) (nameOrId : Str) : Option ChainSpec :=
  let s := trim nameOrId
  let id := parseChainId s
  chains.find? fun c => Target.eqIgnoreAsciiCase c.name.toList s || some c.chainId = id

/-- `Registry::chain_by_id`. -/
def Registry.chainById (chains : List ChainSpec) (chainId : Nat) : Option ChainSpec :=
  chains.find? fun c => c.chainId = chainId

/-- `ChainSpec::token`. -/
def ChainSpec.token (chain : ChainSpec) (parsers : Parsers) (symbolOrAddress : Str) :
    Option TokenSpec :=
  let s := trim symbolOrAddress
  match parsers.address s with
  | some addr => chain.tokenByAddress addr
  | none => chain.tokens.find? fun t => Target.eqIgnoreAsciiCase t.symbol.toList s

/-- `parse_threshold`. -/
def parseThreshold (parsers : Parsers) (v : JsonValue) : Except ApiError U256 := do
  let text ← match v with
    | .string s => pure (trim s)
    | .number n => pure (Nat.toDigits 10 n.toNat)
    | .other =>
        throw (.invalid "balance_threshold must be a base-unit integer (string or number)")
  match parsers.u256 text with
  | none =>
      throw (.invalid
        "balance_threshold must be a non-negative base-unit integer that fits uint256")
  | some value =>
      if value = 0 then throw (.invalid "balance_threshold must be greater than zero")
      else return value

/-! ## Registering -/

/-- The part of `ApiState` that stays.  Times are in milliseconds; the bound on
`maxBackfill` is some 36 million years, below which `lookback_blocks` does not
overflow. -/
structure Api where
  registry : List ChainSpec
  /-- What `Config::validate` sees to. -/
  chainId_nodup : (registry.map ChainSpec.chainId).Nodup
  parsers : Parsers
  policy : Target.TargetPolicy
  defaultTtl : Option Nat
  maxBackfill : Nat
  maxBackfill_lt : maxBackfill < 2 ^ 60
  /-- `expected_block_time_ms` of a chain. -/
  expectedBlockTimeMs : Nat → Nat

/-- What a registration asks the runtime of a chain. -/
structure RuntimeView where
  hydrated : Bool
  headEstimate : Nat
deriving DecidableEq, Repr

/-- What a handler has done besides. -/
inductive ApiEffect
  | addWatch (chainId : Nat) (key : WatchKey) (watch : WatchRef)
  | removeWatch (chainId : Nat) (key : WatchKey) (id : Uuid)
  | requestSweep (chainId : Nat)
  | announceAdded (chainId : Nat) (id : Uuid)
  | announceRemoved (chainId : Nat) (id : Uuid)
deriving DecidableEq, Repr

structure WatchResponse where
  id : Uuid
  chain : String
  chainId : Nat
  token : String
  tokenAddress : Address
  paymentAddress : Address
  balanceThreshold : U256
  confirmedAmount : U256
  status : WatchStatus
  webhookEndpoint : String
  startBlock : Nat
  createdAt : Nat
  expiresAt : Option Nat
  completedAt : Option Nat
  transfers : Option (List TransferView)
deriving DecidableEq, Repr

/-- `watch_response`. -/
def watchResponse (chain : ChainSpec) (w : WatchRow) (transfers : Option (List TransferView)) :
    WatchResponse :=
  let view := w.view chain
  { id := w.id, chain := view.chain, chainId := view.chainId, token := view.token
    tokenAddress := w.tokenAddress, paymentAddress := w.paymentAddress
    balanceThreshold := w.threshold, confirmedAmount := w.confirmedAmount, status := w.status
    webhookEndpoint := w.webhookUrl, startBlock := w.startBlock, createdAt := w.createdAt
    expiresAt := w.expiresAt, completedAt := w.completedAt, transfers }

/-- A handler's answer, the database after it, and what else it did. -/
structure ApiReply (α : Type) where
  result : Except ApiError α
  db : Db
  effects : List ApiEffect := []

namespace Api

variable (api : Api)

def unsupportedChain (chain : Str) : ApiError :=
  let quoted := api.parsers.quoted chain
  let known := ", ".intercalate (api.registry.map ChainSpec.name)
  .invalid s!"unsupported chain {quoted}; supported: {known}"

def unsupportedToken (chain : ChainSpec) (token : Str) : ApiError :=
  let quoted := api.parsers.quoted token
  let name := chain.name
  let known := ", ".intercalate (chain.tokens.map TokenSpec.symbol)
  .invalid s!"token {quoted} is not supported on {name}; supported: {known}"

def notReady (chain : ChainSpec) : ApiError :=
  let name := chain.name
  ⟨503, "chain_not_ready", s!"{name} is still starting; retry"⟩

def conflict (w : WatchRow) : ApiError :=
  let id := w.id
  ⟨409, "watch_conflict",
    s!"an active watch ({id}) already exists for this address and token with different parameters"⟩

/-- `target::validate` of an endpoint. -/
def validated (endpoint : Str) : Except String Target.Url :=
  Target.validate (api.parsers.url endpoint) (String.ofList endpoint).utf8ByteSize api.policy

/-- The text that is stored for an endpoint. -/
def webhookUrl (endpoint : Str) : Except ApiError String :=
  match api.validated endpoint with
  | .error m => .error (.invalid s!"webhook_endpoint: {m}")
  | .ok _ => .ok (api.parsers.urlText endpoint)

/-- The instant a watch is to expire at; a `ttl` that `chrono` cannot hold is
dropped. -/
def expiry (now : Nat) : Option Nat → Except ApiError (Option Nat)
  | some t => if t ≤ now then .error (.invalid "expires_at is in the past") else .ok (some t)
  | none => .ok ((api.defaultTtl.filter (· < 2 ^ 63)).map (now + ·))

def lookback (chain : ChainSpec) (now : Nat) : Option Nat → Nat
  | some since =>
      (lookbackBlocks (min (now - since) api.maxBackfill)
        (api.expectedBlockTimeMs chain.chainId)).get (by
          rw [lookbackBlocks_eq (Nat.lt_of_le_of_lt (Nat.min_le_right _ _) api.maxBackfill_lt)]
          rfl)
  | none => 0

/-- `create_watch`, up to its call of the store. -/
def newWatch (rts : Nat → Option RuntimeView) (now : Nat) (req : CreateWatchRequest) :
    Except ApiError (ChainSpec × NewWatch) :=
  match Registry.chain api.registry req.chain with
  | none => .error (api.unsupportedChain req.chain)
  | some chain =>
  match chain.token api.parsers req.token with
  | none => .error (api.unsupportedToken chain req.token)
  | some token =>
  match api.parsers.address (trim req.paymentAddress) with
  | none => .error (.invalid "payment_address is not a valid EVM address")
  | some paymentAddress =>
  if paymentAddress = 0 then .error (.invalid "payment_address must not be the zero address")
  else do
    let threshold ← parseThreshold api.parsers req.balanceThreshold
    let webhookUrl ← api.webhookUrl req.webhookEndpoint
    let expiresAt ← api.expiry now req.expiresAt
    match (rts chain.chainId).filter RuntimeView.hydrated with
    | none => throw (notReady chain)
    | some rt =>
        return (chain, {
          chainId := chain.chainId
          tokenAddress := token.address
          paymentAddress, threshold, webhookUrl, expiresAt
          headEstimate := rt.headEstimate
          lookbackBlocks := api.lookback chain now req.paymentsSince })

/-- What `create_watch` does about a new watch. -/
def added (chain : ChainSpec) (w : WatchRow) : List ApiEffect :=
  (match w.cacheEntry chain with
    | some (key, entry) => [.addWatch chain.chainId key entry]
    | none => []) ++
  (match w.backfillTo with
    | some _ => [.requestSweep chain.chainId]
    | none => []) ++
  [.announceAdded chain.chainId w.id]

/-- `create_watch`, with the id that the store draws. -/
def createWatch (rts : Nat → Option RuntimeView) (now : Nat) (id : Uuid) (req : CreateWatchRequest)
    (db : Db) : ApiReply (Nat × WatchResponse) :=
  match api.newWatch rts now req with
  | .error e => ⟨.error e, db, []⟩
  | .ok (chain, new) =>
      match GumIndexer.createWatch db id new with
      | .error e => ⟨.error (.ofStore e), db, []⟩
      | .ok (.created w, db') => ⟨.ok (201, watchResponse chain w none), db', added chain w⟩
      | .ok (.existing w, db') => ⟨.ok (200, watchResponse chain w none), db', []⟩
      | .ok (.conflict w, db') => ⟨.error (conflict w), db', []⟩

/-! ## Reading and cancelling -/

/-- `load`. -/
def load (db : Db) (id : Uuid) : Except ApiError (ChainSpec × WatchRow) :=
  match db.watches.get? id with
  | none => .error ⟨404, "not_found", "no such watch"⟩
  | some row =>
      match WatchRow.fromRow row with
      | .error e => .error (.ofStore e)
      | .ok watch =>
          match Registry.chainById api.registry watch.chainId with
          | none => .error ⟨404, "not_found", "watch belongs to a chain that is no longer enabled"⟩
          | some chain => .ok (chain, watch)

end Api

/-- `TransferRow::from_row`, and its `view`. -/
def Transfer.view (t : Transfer) : Except StoreError TransferView := do
  let amount ← numericColumn t.amount
  return {
    txHash := t.txHash
    logIndex := t.logIndex
    blockNumber := t.blockNumber
    blockHash := t.blockHash
    src := t.fromAddress
    amount
    status := t.status }

/-- The rows that `transfers_for_watch` selects. -/
def listedRows (db : Db) (id : Uuid) (limit : Nat) : List Transfer :=
  ((db.transfers.rows.filter (·.watchId = id)).insertionSort fun a b =>
      a.blockNumber < b.blockNumber ∨
        a.blockNumber = b.blockNumber ∧ a.logIndex ≤ b.logIndex).take limit

/-- `transfers_for_watch`. -/
def transfersForWatch (db : Db) (id : Uuid) (limit : Nat) : Except StoreError (List TransferView) :=
  (listedRows db id limit).mapM Transfer.view

namespace Api

variable (api : Api)

/-- `get_watch`: the watch as it is in `db`, its transfers as they are in
`db'`. -/
def getWatch (db db' : Db) (id : Uuid) : Except ApiError WatchResponse := do
  let (chain, watch) ← api.load db id
  let transfers ← (transfersForWatch db' id 500).mapError .ofStore
  return watchResponse chain watch (some transfers)

/-- What `cancel_watch` does about a watch that it cancelled. -/
def removed (rts : Nat → Option RuntimeView) (chain : ChainSpec) (w : WatchRow) : List ApiEffect :=
  (match rts chain.chainId, w.cacheEntry chain with
    | some _, some (key, _) => [.removeWatch chain.chainId key w.id]
    | _, _ => []) ++
  [.announceRemoved chain.chainId w.id]

/-- `cancel_watch`: loads the watch from `db` and updates it in `db'`. -/
def cancelWatch (rts : Nat → Option RuntimeView) (db db' : Db) (id : Uuid) :
    ApiReply WatchResponse :=
  match api.load db id with
  | .error e => ⟨.error e, db', []⟩
  | .ok (chain, existing) =>
      match GumIndexer.cancelWatch db' id with
      | (.error e, db'') => ⟨.error (.ofStore e), db'', []⟩
      | (.ok (some cancelled), db'') =>
          ⟨.ok (watchResponse chain cancelled none), db'', removed rts chain cancelled⟩
      | (.ok none, db'') => ⟨.ok (watchResponse chain existing none), db'', []⟩

end Api

/-! ## What is let through -/

/-- A watch as the checks of a registration let it through. -/
structure Api.Vets (api : Api) (w : Watch) : Prop where
  target : ∃ chain ∈ api.registry, ∃ token ∈ chain.tokens,
    w.chainId = chain.chainId ∧ w.tokenAddress = token.address
  paymentAddress : w.paymentAddress ≠ 0
  threshold : 0 < w.threshold
  webhookUrl : ∃ endpoint url, api.validated endpoint = .ok url ∧
    w.webhookUrl = api.parsers.urlText endpoint

variable {api : Api} {rts : Nat → Option RuntimeView} {now : Nat} {id : Uuid}
  {req : CreateWatchRequest} {chain : ChainSpec} {new : NewWatch} {db db' : Db}

theorem Registry.mem_of_chain {chains : List ChainSpec} {s : Str}
    (h : Registry.chain chains s = some chain) : chain ∈ chains :=
  List.mem_of_find?_eq_some h

/-- A configured chain is found by its id, since no other has it. -/
theorem Registry.chainById_eq_some {chains : List ChainSpec}
    (nodup : (chains.map ChainSpec.chainId).Nodup) (h : chain ∈ chains) :
    Registry.chainById chains chain.chainId = some chain := by
  cases hf : Registry.chainById chains chain.chainId with
  | none => simpa using List.find?_eq_none.mp hf chain h
  | some other =>
      have hid : other.chainId = chain.chainId := by simpa using List.find?_some hf
      rw [List.inj_on_of_nodup_map nodup (List.mem_of_find?_eq_some hf) h hid]

theorem ChainSpec.mem_of_token {parsers : Parsers} {s : Str} {token : TokenSpec}
    (h : chain.token parsers s = some token) : token ∈ chain.tokens := by
  unfold ChainSpec.token at h
  simp only at h
  split at h
  · exact (ChainSpec.tokenByAddress_eq_some_iff.mp h).1
  · exact List.mem_of_find?_eq_some h

/-- A threshold that is accepted is not zero. -/
theorem parseThreshold_ne_zero {parsers : Parsers} {v : JsonValue} {threshold : U256}
    (h : parseThreshold parsers v = .ok threshold) : threshold ≠ 0 := by
  have hvalue : ∀ text : Str, (match parsers.u256 text with
      | none => throw (ApiError.invalid
          "balance_threshold must be a non-negative base-unit integer that fits uint256")
      | some value =>
          if value = 0 then throw (ApiError.invalid "balance_threshold must be greater than zero")
          else return value : Except ApiError U256) = .ok threshold → threshold ≠ 0 := by
    intro text h
    split at h
    · cases h
    · split at h
      · cases h
      · next hne =>
          cases h
          exact hne
  cases v with
  | string s => exact hvalue _ h
  | number n => exact hvalue _ h
  | other => cases h

/-- What an accepted request was checked for, and what it becomes. -/
structure Api.Accepts (api : Api) (rts : Nat → Option RuntimeView) (now : Nat)
    (req : CreateWatchRequest) (chain : ChainSpec) (new : NewWatch) : Prop where
  named : Registry.chain api.registry req.chain = some chain
  token : ∃ token, chain.token api.parsers req.token = some token ∧
    new.tokenAddress = token.address
  chainId : new.chainId = chain.chainId
  address : api.parsers.address (trim req.paymentAddress) = some new.paymentAddress
  nonzero : new.paymentAddress ≠ 0
  threshold : parseThreshold api.parsers req.balanceThreshold = .ok new.threshold
  webhookUrl : api.webhookUrl req.webhookEndpoint = .ok new.webhookUrl
  expiresAt : api.expiry now req.expiresAt = .ok new.expiresAt
  ready : ∃ rt, rts chain.chainId = some rt ∧ rt.hydrated = true ∧ new.headEstimate = rt.headEstimate
  lookback : new.lookbackBlocks = api.lookback chain now req.paymentsSince

/-- **What makes a request acceptable**, and the watch it asks for. -/
theorem Api.newWatch_eq_ok_iff :
    api.newWatch rts now req = .ok (chain, new) ↔ api.Accepts rts now req chain new := by
  constructor
  · intro h
    unfold Api.newWatch at h
    -- one check after the other, in the order of the handler
    split at h
    · cases h
    rename_i chain' hchain
    split at h
    · cases h
    rename_i token htoken
    split at h
    · cases h
    rename_i payment haddress
    split at h
    · cases h
    rename_i hnonzero
    cases hthreshold : parseThreshold api.parsers req.balanceThreshold with
    | error e => rw [hthreshold] at h; cases h
    | ok threshold =>
    cases hurl : api.webhookUrl req.webhookEndpoint with
    | error e => rw [hthreshold, hurl] at h; cases h
    | ok url =>
    cases hexpiry : api.expiry now req.expiresAt with
    | error e => rw [hthreshold, hurl, hexpiry] at h; cases h
    | ok expiresAt =>
    cases hrt : (rts chain'.chainId).filter RuntimeView.hydrated with
    | none => rw [hthreshold, hurl, hexpiry] at h; simp only [bind, Except.bind, hrt] at h; cases h
    | some rt =>
    rw [hthreshold, hurl, hexpiry] at h
    simp only [bind, Except.bind, hrt] at h
    cases h
    obtain ⟨hrt, hydrated⟩ := Option.filter_eq_some_iff.mp hrt
    exact ⟨hchain, ⟨token, htoken, rfl⟩, rfl, haddress, hnonzero, hthreshold, hurl, hexpiry,
      ⟨rt, hrt, hydrated, rfl⟩, rfl⟩
  · rintro ⟨hchain, ⟨token, htoken, haddr⟩, hid, haddress, hnonzero, hthreshold, hurl, hexpiry,
      ⟨rt, hrt, hydrated, hhead⟩, hlookback⟩
    have hready : (rts chain.chainId).filter RuntimeView.hydrated = some rt :=
      Option.filter_eq_some_iff.mpr ⟨hrt, hydrated⟩
    unfold Api.newWatch
    simp only [hchain, htoken, haddress, if_neg hnonzero, hthreshold, hurl, hexpiry, hready, bind,
      Except.bind]
    rw [← haddr, ← hid, ← hhead, ← hlookback]
    rfl

theorem Api.Accepts.mem (h : api.Accepts rts now req chain new) : chain ∈ api.registry :=
  Registry.mem_of_chain h.named

/-- The row of an accepted request was vetted. -/
theorem Api.Accepts.vets (h : api.Accepts rts now req chain new) (id : Uuid) (seq cursor began : Nat) :
    api.Vets (new.row id seq cursor began) where
  target := by
    obtain ⟨token, htoken, haddress⟩ := h.token
    exact ⟨chain, h.mem, token, ChainSpec.mem_of_token htoken, h.chainId, haddress⟩
  paymentAddress := h.nonzero
  threshold := by
    refine Nat.pos_of_ne_zero fun hzero => parseThreshold_ne_zero h.threshold ?_
    exact BitVec.eq_of_toNat_eq hzero
  webhookUrl := by
    have hurl := h.webhookUrl
    unfold Api.webhookUrl at hurl
    split at hurl
    · cases hurl
    · next url hok => exact ⟨req.webhookEndpoint, url, hok, (Except.ok.inj hurl).symm⟩

/-! ## Requests in a run

The update of `cancel_watch` is an operation of the store. -/

inductive Request
  | post (rts : Nat → Option RuntimeView) (now : Nat) (id : Uuid) (req : CreateWatchRequest)
  | store (op : Op)

/-- The database after a request. -/
def Api.serve (api : Api) (db : Db) : Request → Db
  | .post rts now id req => (api.createWatch rts now id req db).db
  | .store op => exec db op

/-- The operation of the store that a request comes down to. -/
def Request.op? (api : Api) : Request → Option Op
  | .post rts now id req =>
      match api.newWatch rts now req with
      | .ok (_, new) => some (.createWatch id new)
      | .error _ => none
  | .store op => some op

/-- Watches are registered by the handler, and by nobody else. -/
def Request.Through : Request → Prop
  | .post _ _ _ _ => True
  | .store op => ∀ id new, ¬ op.Creates id new

/-- A request comes down to an operation of the store, or to none. -/
theorem Api.serve_eq (db : Db) (r : Request) : api.serve db r = run exec db (r.op? api).toList := by
  cases r with
  | store op => rfl
  | post rts now id req =>
      simp only [Api.serve, Api.createWatch, Request.op?]
      cases api.newWatch rts now req with
      | error e => rfl
      | ok accepted =>
          obtain ⟨chain, new⟩ := accepted
          simp only [Option.toList_some, run_cons, run_nil, exec]
          cases GumIndexer.createWatch db id new with
          | error e => rfl
          | ok out =>
              obtain ⟨out, db'⟩ := out
              cases out <;> rfl

/-- **The service is a run of the store.** -/
theorem Api.run_serve (db : Db) (rs : List Request) :
    run api.serve db rs = run exec db (rs.filterMap (Request.op? api)) := by
  induction rs generalizing db with
  | nil => rfl
  | cons r rs ih =>
      rw [run_cons, ih, Api.serve_eq, List.filterMap_cons]
      cases r.op? api <;> rfl

/-! ## A merchant on Base -/

/-- The text of the address 9. -/
def payeeText : Str := "0x0000000000000000000000000000000000000009".toList

def hookText : Str := "https://merchant.example/hook".toList

/-- The parsers do with the texts of the order what the crates do with them. -/
def merchantApi : Api where
  registry := [baseChain]
  chainId_nodup := List.nodup_singleton _
  parsers :=
    { address := fun s => if s = payeeText then some 9 else none
      u256 := fun s => (digits? s).map (BitVec.ofNat 256)
      url := fun s => if s = hookText then .ok (Target.hookAt (.domain "merchant.example".toList))
        else .error "relative URL without a base"
      urlText := String.ofList
      quoted := String.ofList }
  policy := {}
  defaultTtl := none
  maxBackfill := 0
  maxBackfill_lt := by decide
  expectedBlockTimeMs := fun _ => 2000

/-- A hundred units of USDC to address 9. -/
def merchantOrder : CreateWatchRequest where
  paymentAddress := payeeText
  chain := "Base".toList
  token := "usdc".toList
  balanceThreshold := .number 100
  webhookEndpoint := hookText
  expiresAt := none
  paymentsSince := none

def atHead100 : Nat → Option RuntimeView := fun _ => some ⟨true, 100⟩

def beforeOrder : List Request := [.store (.ensureCursor baseChain.chainId 100)]

def placeOrder : Request := .post atHead100 0 1 merchantOrder

/-- A sweep that finds one payment to address 9. -/
def payment (amount : Nat) : Request :=
  .store (.applySweep baseChain .new 100 101 [transferLog 7 9 amount 101 0])

def orderReply : WatchResponse where
  id := 1
  chain := "base"
  chainId := baseChain.chainId
  token := "USDC"
  tokenAddress := usdc.address
  paymentAddress := 9
  balanceThreshold := 100
  confirmedAmount := 0
  status := .active
  webhookEndpoint := "https://merchant.example/hook"
  startBlock := 101
  createdAt := 0
  expiresAt := none
  completedAt := none
  transfers := none

theorem order_created : (merchantApi.createWatch atHead100 0 1 merchantOrder
    (run merchantApi.serve Db.empty beforeOrder)).result = .ok (201, orderReply) := rfl

/-! ## Rows that stay -/

/-- A request that registers is one of the handler, and was accepted. -/
theorem Request.Through.accepts {r : Request} {op : Op} (through : r.Through)
    (h : r.op? api = some op) (creates : op.Creates id new) :
    ∃ rts now req chain, api.Accepts rts now req chain new := by
  cases r with
  | store op' =>
      cases h
      exact absurd creates (through id new)
  | post rts now id' req =>
      simp only [Request.op?] at h
      split at h
      · next chain new' hnew =>
          cases h
          obtain ⟨-, rfl⟩ := creates
          exact ⟨rts, now, req, chain, Api.newWatch_eq_ok_iff.mp hnew⟩
      · cases h

/-- No step changes the URL of a watch. -/
theorem Step.webhookUrl {a : Act} {w w' : Watch} (h : Step db a db')
    (hw : db.watches.get? id = some w) (hw' : db'.watches.get? id = some w') :
    w'.webhookUrl = w.webhookUrl := by
  rcases h.watch_update hw' with hold | rfl | ⟨u, hu, hupdate⟩
  · rw [hw] at hold
    cases hold
    rfl
  · cases h with
    | register _ _ _ _ insert =>
        obtain rfl := Table.key_of_get? hw'
        rw [Table.get?_of_insertNew insert] at hw
        contradiction
  · rw [hw] at hu
    cases hu
    cases hupdate <;> rfl

/-- The row under an id keeps its columns, its URL among them. -/
theorem kept_run {w : Watch} (hw : db.watches.get? id = some w) (ops : List Op) :
    ∃ w', (run exec db ops).watches.get? id = some w' ∧ w.Later w' ∧ w'.webhookUrl = w.webhookUrl := by
  refine invariant_run (fun d : Db => ∃ w', d.watches.get? id = some w' ∧ w.Later w' ∧
    w'.webhookUrl = w.webhookUrl) (fun d op inv => ?_) ⟨w, hw, .refl w, rfl⟩ ops
  refine exec_invariant (fun d : Db => ∃ w', d.watches.get? id = some w' ∧ w.Later w' ∧
    w'.webhookUrl = w.webhookUrl) (fun d a d' hstep => ?_) inv op
  rintro ⟨u, hu, hlater, hurl⟩
  obtain ⟨u', hu', hlater'⟩ := hstep.later hu
  exact ⟨u', hu', hlater.trans hlater', (hstep.webhookUrl hu hu').trans hurl⟩

/-- A watch that was vetted stays so. -/
theorem Api.Vets.of_later {w w' : Watch} (h : api.Vets w) (hlater : w.Later w')
    (hurl : w'.webhookUrl = w.webhookUrl) : api.Vets w' where
  target := by
    rw [hlater.same.chainId, hlater.same.tokenAddress]
    exact h.target
  paymentAddress := by
    rw [hlater.same.paymentAddress]
    exact h.paymentAddress
  threshold := by
    rw [hlater.same.threshold]
    exact h.threshold
  webhookUrl := by
    rw [hurl]
    exact h.webhookUrl

/-- **One request** keeps all watches vetted. -/
theorem Api.vets_serve {r : Request} (through : r.Through)
    (inv : ∀ w ∈ db.watches.rows, api.Vets w) : ∀ w ∈ (api.serve db r).watches.rows, api.Vets w := by
  intro w hw
  rw [Api.serve_eq] at hw
  have hget := Table.get?_of_mem hw
  cases hold : db.watches.get? w.id with
  | some u =>
      obtain ⟨w', hw', hlater, hurl⟩ := kept_run hold (r.op? api).toList
      rw [hget] at hw'
      obtain rfl := Option.some.inj hw'
      exact (inv u (Table.mem_of_get? hold)).of_later hlater hurl
  | none =>
      cases hop : r.op? api with
      | none =>
          rw [hop] at hget
          rw [Option.toList_none, run_nil, hold] at hget
          contradiction
      | some op =>
          rw [hop] at hget
          obtain ⟨new, seq, cur, -, hrow, hreg⟩ := exec_new_watch hold hget
          obtain ⟨rts, now, req, chain, accepts⟩ := through.accepts hop hreg.creates
          rw [hrow]
          exact accepts.vets w.id seq cur db.now

/-- **Every watch was vetted.**  However requests and operations of the store
interleave, as long as watches are registered by the handler every watch there
is has a configured token of an enabled chain, a payment address, a threshold
and a URL that `target::validate` accepts.  So its chain is found, and it has an
entry for the cache under its token. -/
theorem watches_vetted (api : Api) (rs : List Request) (through : ∀ r ∈ rs, r.Through) :
    ∀ w ∈ (run api.serve Db.empty rs).watches.rows, api.Vets w ∧
      ∃ chain token, Registry.chainById api.registry w.chainId = some chain ∧
        token ∈ chain.tokens ∧ ((WatchRow.ofWatch w).view chain).token = token.symbol ∧
        slimEntry chain w = some (⟨token.idx, w.paymentAddress⟩, ⟨w.id, w.seq, w.startBlock⟩) := by
  intro w hw
  have inv : ∀ w ∈ (run api.serve Db.empty rs).watches.rows, api.Vets w :=
    invariant_along (fun db : Db => ∀ w ∈ db.watches.rows, api.Vets w)
      (fun db r _ inv hr => Api.vets_serve hr inv) (by simp [Db.empty])
      (along_iff_forall.mpr fun pre r post heq => through r (by simp [heq]))
  obtain ⟨chain, hchain, token, htoken, hid, haddress⟩ := (inv w hw).target
  have hfound : chain.tokenByAddress w.tokenAddress = some token :=
    ChainSpec.tokenByAddress_eq_some_iff.mpr ⟨htoken, haddress.symm⟩
  refine ⟨inv w hw, chain, token, ?_, htoken, ?_, ?_⟩
  · rw [hid]
    exact Registry.chainById_eq_some api.chainId_nodup hchain
  · simp only [WatchRow.view, WatchRow.ofWatch, hfound, Option.map_some, Option.getD_some]
  · rw [slimEntry, hfound, Option.map_some]

theorem watches_vetted_order :
    ∃ w ∈ (run merchantApi.serve Db.empty (beforeOrder ++ [placeOrder])).watches.rows,
      merchantApi.Vets w := by
  have hone : (run merchantApi.serve Db.empty (beforeOrder ++ [placeOrder])).watches.rows.length = 1 :=
    rfl
  obtain ⟨w, hw⟩ := List.exists_mem_of_length_pos (hone ▸ Nat.one_pos)
  refine ⟨w, hw, (watches_vetted merchantApi _ (fun r hr => ?_) w hw).1⟩
  rcases List.mem_append.mp hr with hr | hr
  · rw [List.mem_singleton.mp hr]
    exact fun _ _ creates => creates
  · rw [List.mem_singleton.mp hr]
    trivial

/-! ## Registering, and what follows -/

/-- A registration that was answered `201 Created`. -/
structure Api.Posted (api : Api) (rts : Nat → Option RuntimeView) (now : Nat) (id : Uuid)
    (req : CreateWatchRequest) (db : Db) (r : WatchResponse) (chain : ChainSpec) (new : NewWatch)
    (k : Nat) : Prop where
  accepts : api.Accepts rts now req chain new
  cursor : db.CursorAt new.chainId k
  row : (api.createWatch rts now id req db).db.watches.get? id =
    some (new.row id (db.watchesSeq + 1) k db.now)
  response : r = watchResponse chain (.ofWatch (new.row id (db.watchesSeq + 1) k db.now)) none

/-- A registration that creates a watch is answered `201`, and the watch is
cached and announced. -/
theorem Api.createWatch_created {w : WatchRow} (hnew : api.newWatch rts now req = .ok (chain, new))
    (hc : GumIndexer.createWatch db id new = .ok (.created w, db')) :
    api.createWatch rts now id req db =
      ⟨.ok (201, watchResponse chain w none), db', Api.added chain w⟩ := by
  simp only [Api.createWatch, hnew, hc]

/-- A `201` tells that the request was accepted and the row inserted. -/
theorem Api.posted_of_created {r : WatchResponse}
    (h : (api.createWatch rts now id req db).result = .ok (201, r)) :
    ∃ chain new k, api.Posted rts now id req db r chain new k := by
  cases hnew : api.newWatch rts now req with
  | error e => simp only [Api.createWatch, hnew] at h; cases h
  | ok accepted =>
      obtain ⟨chain, new⟩ := accepted
      cases hc : GumIndexer.createWatch db id new with
      | error e => simp only [Api.createWatch, hnew, hc] at h; cases h
      | ok out =>
          obtain ⟨out, db'⟩ := out
          obtain ⟨⟨c, k⟩, row, hcur, rfl, -, ⟨watches, -, hi, rfl, rfl⟩ | ⟨found, -, hout, -⟩⟩ :=
            commitWatch_cases hc
          · obtain rfl : c = new.chainId := Table.key_of_get? hcur
            have hreply := Api.createWatch_created hnew hc
            refine ⟨chain, new, k, newWatch_eq_ok_iff.mp hnew, hcur, ?_, ?_⟩
            · rw [hreply]
              exact (Table.get?_insertNew hi id).trans (if_pos rfl)
            · rw [hreply] at h
              cases h
              rfl
          · exfalso
            simp only [Api.createWatch, hnew, hc] at h
            split at hout <;> subst hout <;> cases h

/-- A row can be read back if its amount is a `uint256`. -/
theorem Transfer.view_eq (t : Transfer) :
    t.view = if t.amount < 2 ^ 256 then
        .ok ⟨t.txHash, t.logIndex, t.blockNumber, t.blockHash, t.fromAddress,
          BitVec.ofNat 256 t.amount, t.status⟩
      else .error (.corrupt ⟨t.amount, 0⟩) := by
  rw [Transfer.view, numericColumn_eq]
  split <;> rfl

/-- The rows are listed if all of them can be read. -/
theorem transfersForWatch_ok_iff {limit : Nat} {ts : List TransferView} :
    transfersForWatch db id limit = .ok ts ↔
      (∀ t ∈ listedRows db id limit, t.amount < 2 ^ 256) ∧
        ts = (listedRows db id limit).map fun t => ⟨t.txHash, t.logIndex, t.blockNumber, t.blockHash,
          t.fromAddress, BitVec.ofNat 256 t.amount, t.status⟩ :=
  mapM_eq_ok_iff Transfer.view_eq

/-- What is listed for a watch is of that watch. -/
theorem mem_of_mem_listedRows {limit : Nat} {t : Transfer} (h : t ∈ listedRows db id limit) :
    t ∈ db.transfers.rows ∧ t.watchId = id := by
  have hmem := (List.mem_insertionSort _).mp (List.mem_of_mem_take h)
  simpa using hmem

/-- Transfers on record can be listed. -/
theorem Db.Readable.listed (readable : db.Readable) (id : Uuid) (limit : Nat) :
    ∃ ts, transfersForWatch db id limit = .ok ts := by
  refine ⟨_, transfersForWatch_ok_iff.mpr ⟨fun t ht => ?_, rfl⟩⟩
  exact readable t.key t (Table.get?_of_mem (mem_of_mem_listedRows ht).1)

/-- A watch of a configured chain loads. -/
theorem Api.load_of_fits {w : Watch} (hw : db.watches.get? id = some w) (fits : w.Fits)
    (hchain : Registry.chainById api.registry w.chainId = some chain) :
    api.load db id = .ok (chain, .ofWatch w) := by
  have hid : Registry.chainById api.registry (WatchRow.ofWatch w).chainId = some chain := hchain
  simp only [Api.load, hw, WatchRow.fromRow_of_fits fits, hid]

/-- What is loaded is the row. -/
theorem Api.load_ok {w : WatchRow} (h : api.load db id = .ok (chain, w)) :
    ∃ row, db.watches.get? id = some row ∧ w = .ofWatch row ∧
      Registry.chainById api.registry row.chainId = some chain := by
  unfold Api.load at h
  split at h
  · cases h
  rename_i row hrow
  rcases WatchRow.fromRow_cases row with ⟨-, hread⟩ | ⟨-, v, hread⟩
  · rw [hread] at h
    simp only at h
    split at h
    · cases h
    · next chain' hchain =>
        cases h
        exact ⟨row, hrow, rfl, hchain⟩
  · rw [hread] at h
    cases h

theorem Api.getWatch_of_load {w : WatchRow} {ts : List TransferView}
    (hload : api.load db id = .ok (chain, w)) (hts : transfersForWatch db' id 500 = .ok ts) :
    api.getWatch db db' id = .ok (watchResponse chain w (some ts)) := by
  simp only [Api.getWatch, hload, hts, bind, Except.bind, Except.mapError]
  rfl

/-- An answer is made of the two reads. -/
theorem Api.getWatch_ok {r : WatchResponse} (h : api.getWatch db db' id = .ok r) :
    ∃ chain w ts, api.load db id = .ok (chain, w) ∧ transfersForWatch db' id 500 = .ok ts ∧
      r = watchResponse chain w (some ts) := by
  unfold Api.getWatch at h
  cases hload : api.load db id with
  | error e => rw [hload] at h; cases h
  | ok loaded =>
      obtain ⟨chain, w⟩ := loaded
      cases hts : transfersForWatch db' id 500 with
      | error e => rw [hload, hts] at h; cases h
      | ok ts =>
          rw [hload, hts] at h
          cases h
          exact ⟨chain, w, ts, rfl, rfl, rfl⟩

/-- Whatever the requests, the watches are sound. -/
theorem Api.sound_run (api : Api) (rs : List Request) : Sound (run api.serve Db.empty rs) := by
  rw [Api.run_serve]
  exact GumIndexer.sound_run _

section Posted

variable {before : List Request} {r : WatchResponse} {k : Nat}

/-- The row of a registration stays. -/
theorem Api.Posted.kept (h : api.Posted rts now id req (run api.serve Db.empty before) r chain new k)
    (after : List Request) :
    ∃ w, (run api.serve Db.empty (before ++ .post rts now id req :: after)).watches.get? id = some w ∧
      (new.row id ((run api.serve Db.empty before).watchesSeq + 1) k
        (run api.serve Db.empty before).now).Later w ∧
      w.webhookUrl = new.webhookUrl := by
  rw [run_append, run_cons, Api.run_serve _ after]
  exact kept_run h.row _

theorem Api.Posted.chainById (h : api.Posted rts now id req db r chain new k) :
    Registry.chainById api.registry new.chainId = some chain := by
  rw [h.accepts.chainId]
  exact Registry.chainById_eq_some api.chainId_nodup h.accepts.mem

end Posted

/-- **A registered watch is found.**  After a `201 Created`, whatever else
happens and goes on happening between the two reads, `GET` of its id answers
with the watch as it was registered, up to its total, its status, the time of
its retirement and the transfers. -/
theorem posted_watch_found (api : Api) (before : List Request) (rts : Nat → Option RuntimeView)
    (now : Nat) (id : Uuid) (req : CreateWatchRequest) (r : WatchResponse)
    (posted : (api.createWatch rts now id req (run api.serve Db.empty before)).result = .ok (201, r))
    (after between : List Request) :
    ∃ r', api.getWatch (run api.serve Db.empty (before ++ .post rts now id req :: after))
        (run api.serve Db.empty (before ++ .post rts now id req :: after ++ between)) r.id = .ok r' ∧
      r' = { r with
        confirmedAmount := r'.confirmedAmount, status := r'.status, completedAt := r'.completedAt
        transfers := r'.transfers } := by
  obtain ⟨chain, new, k, hposted⟩ := Api.posted_of_created posted
  obtain ⟨w, hw, hlater, hurl⟩ := hposted.kept after
  have hid : r.id = id := by rw [hposted.response]; rfl
  have hload := Api.load_of_fits hw ((api.sound_run _).fits id w hw) (by
    rw [hlater.same.chainId]
    exact hposted.chainById)
  have hreadable : (run api.serve Db.empty
      (before ++ .post rts now id req :: after ++ between)).Readable := by
    rw [Api.run_serve]
    exact readable_run _
  obtain ⟨ts, hts⟩ := hreadable.listed id 500
  rw [hid]
  refine ⟨_, Api.getWatch_of_load hload hts, ?_⟩
  -- the columns of the response are those that no statement changes
  have hsame := hlater.same
  rw [hposted.response]
  simp only [watchResponse, WatchRow.view, WatchRow.ofWatch, hsame.id, hsame.tokenAddress,
    hsame.paymentAddress, hsame.threshold, hsame.startBlock, hsame.createdAt, hsame.expiresAt, hurl]
  rfl

/-- After a payment of 40. -/
theorem posted_watch_found_paid :
    ∃ r, merchantApi.getWatch (run merchantApi.serve Db.empty (beforeOrder ++ [placeOrder, payment 40]))
        (run merchantApi.serve Db.empty (beforeOrder ++ [placeOrder, payment 40])) 1 = .ok r ∧
      r.token = "USDC" ∧ r.confirmedAmount = 40 := by
  obtain ⟨r, hget, hsame⟩ := posted_watch_found merchantApi beforeOrder atHead100 0 1 merchantOrder
    orderReply order_created [payment 40] []
  rw [List.append_nil] at hget
  have hpaid : (merchantApi.getWatch
      (run merchantApi.serve Db.empty (beforeOrder ++ [placeOrder, payment 40]))
      (run merchantApi.serve Db.empty (beforeOrder ++ [placeOrder, payment 40])) 1).toOption.map
        WatchResponse.confirmedAmount = some 40 := by decide +kernel
  refine ⟨r, hget, by rw [hsame]; rfl, ?_⟩
  exact Option.some.inj ((congrArg (fun e => e.toOption.map WatchResponse.confirmedAmount) hget).symm.trans
    hpaid)

/-! ## Registering again -/

/-- A cursor that is there stays there, wherever it moves. -/
theorem cursorAt_run {c k : Nat} (h : db.CursorAt c k) (ops : List Op) :
    ∃ k', (run exec db ops).CursorAt c k' :=
  invariant_run (fun d : Db => ∃ k', d.CursorAt c k')
    (fun _ op ⟨_, hat⟩ => (exec_cursorAt op hat).imp fun _ h => h.1) ⟨k, h⟩ ops

/-- The active watch of a target is the one that is found there. -/
theorem Sound.activeIn_eq_some {w : Watch} (inv : Sound db) (hw : db.watches.get? w.id = some w)
    (active : w.status = .active) (hchain : w.chainId = new.chainId)
    (htoken : w.tokenAddress = new.tokenAddress) (hpayment : w.paymentAddress = new.paymentAddress) :
    new.activeIn db = some w := by
  cases hf : new.activeIn db with
  | none => exact absurd active (activeIn_eq_none_iff.mp hf w hw hchain htoken hpayment)
  | some u =>
      have hu := Table.get?_of_mem (List.mem_of_find?_eq_some hf)
      have hmatch := List.find?_some hf
      simp only [decide_eq_true_eq] at hmatch
      rw [inv.active_unique hu hw hmatch.2.2.2 active ⟨hmatch.1.trans hchain.symm,
        hmatch.2.1.trans htoken.symm, hmatch.2.2.1.trans hpayment.symm⟩]

/-- A registration on the target of an active watch, with its parameters. -/
theorem createWatch_existing {w : Watch} {k : Nat} (inv : Sound db) (hat : db.CursorAt new.chainId k)
    (positive : new.threshold ≠ 0) (hfound : new.activeIn db = some w)
    (hthreshold : w.threshold = new.threshold.toNat) (hurl : w.webhookUrl = new.webhookUrl)
    (id : Uuid) :
    createWatch db id new =
      .ok (.existing (.ofWatch w), { db with watchesSeq := db.watchesSeq + 1 }) := by
  have hcur : db.cursors.get? new.chainId = some ⟨new.chainId, k⟩ := hat
  have hz : (new.row id (db.watchesSeq + 1) k db.now).threshold ≠ 0 := fun hz =>
    positive (NewWatch.row_threshold_eq_zero_iff.mp hz)
  have hsome : Db.activeOn { db with watchesSeq := db.watchesSeq + 1 } new.chainId
      new.tokenAddress new.paymentAddress = some w := hfound
  have hfits : WatchRow.fromRow w = .ok (.ofWatch w) :=
    WatchRow.fromRow_of_fits (inv.fits w.id w (Table.get?_of_mem (List.mem_of_find?_eq_some hfound)))
  have hsame : (WatchRow.ofWatch w).threshold = new.threshold ∧
      (WatchRow.ofWatch w).webhookUrl = new.webhookUrl := by
    refine ⟨?_, hurl⟩
    rw [WatchRow.ofWatch, hthreshold, BitVec.ofNat_toNat, BitVec.setWidth_eq]
  simp only [createWatch, commitWatch, hcur, if_neg hz, hsome, hfits, bind, Except.bind, if_pos hsame]
  rfl

/-- `200` is answered exactly if the store finds the same watch active. -/
theorem Api.createWatch_existing_iff (hnew : api.newWatch rts now req = .ok (chain, new))
    {r : WatchResponse} : (api.createWatch rts now id req db).result = .ok (200, r) ↔
      ∃ w db', GumIndexer.createWatch db id new = .ok (.existing w, db') ∧
        r = watchResponse chain w none := by
  simp only [Api.createWatch, hnew]
  cases GumIndexer.createWatch db id new with
  | error e => simp
  | ok out =>
      obtain ⟨out, db'⟩ := out
      cases out <;> simp [eq_comm]

/-- The same request, accepted again. -/
theorem Api.Accepts.again {rts' : Nat → Option RuntimeView} {now' : Nat}
    (h : api.Accepts rts now req chain new) (ready : ∃ rt, rts' chain.chainId = some rt ∧ rt.hydrated)
    (timely : ∀ t ∈ req.expiresAt, now' < t) :
    ∃ new', api.Accepts rts' now' req chain new' ∧ new'.chainId = new.chainId ∧
      new'.tokenAddress = new.tokenAddress ∧ new'.paymentAddress = new.paymentAddress ∧
      new'.threshold = new.threshold ∧ new'.webhookUrl = new.webhookUrl := by
  obtain ⟨rt, hrt, hydrated⟩ := ready
  have hexpiry : ∃ expiresAt, api.expiry now' req.expiresAt = .ok expiresAt := by
    cases hexp : req.expiresAt with
    | none => exact ⟨_, rfl⟩
    | some t => exact ⟨_, if_neg (Nat.not_le_of_lt (timely t hexp))⟩
  obtain ⟨expiresAt, hexpiry⟩ := hexpiry
  exact ⟨{ new with expiresAt, headEstimate := rt.headEstimate
                    lookbackBlocks := api.lookback chain now' req.paymentsSince },
    ⟨h.named, h.token, h.chainId, h.address, h.nonzero, h.threshold, h.webhookUrl, hexpiry,
      ⟨rt, hrt, hydrated, rfl⟩, rfl⟩, rfl, rfl, rfl, rfl, rfl⟩

/-- **Registering again.**  After a `201 Created`, whatever happens next, the
same request is answered `200 OK` with the same watch exactly as long as that
watch is active, provided that the chain is ready and that the request is not
refused for its `expires_at`. -/
theorem repost_existing_iff (api : Api) (before : List Request) (rts rts' : Nat → Option RuntimeView)
    (now now' : Nat) (id id' : Uuid) (req : CreateWatchRequest) (r : WatchResponse)
    (posted : (api.createWatch rts now id req (run api.serve Db.empty before)).result = .ok (201, r))
    (after : List Request) (ready : ∃ rt, rts' r.chainId = some rt ∧ rt.hydrated)
    (timely : ∀ t ∈ req.expiresAt, now' < t) :
    (∃ r', (api.createWatch rts' now' id' req
        (run api.serve Db.empty (before ++ .post rts now id req :: after))).result = .ok (200, r') ∧
      r'.id = r.id) ↔
    ∃ w, (run api.serve Db.empty (before ++ .post rts now id req :: after)).watches.get? r.id =
      some w ∧ w.status = .active := by
  obtain ⟨chain, new, k, hposted⟩ := Api.posted_of_created posted
  obtain ⟨w, hw, hlater, hurl⟩ := hposted.kept after
  have hid : r.id = id := by rw [hposted.response]; rfl
  have hchainId : r.chainId = chain.chainId := by rw [hposted.response]; rfl
  rw [hchainId] at ready
  obtain ⟨new', accepts, hchain, htoken, hpayment, hthreshold, hurl'⟩ :=
    hposted.accepts.again ready timely
  have hcursor : ∃ k', (run api.serve Db.empty
      (before ++ .post rts now id req :: after)).CursorAt new'.chainId k' := by
    rw [run_append, Api.run_serve _ (.post rts now id req :: after), hchain]
    exact cursorAt_run hposted.cursor _
  obtain ⟨k', hat⟩ := hcursor
  have inv := api.sound_run (before ++ .post rts now id req :: after)
  rw [hid]
  generalize run api.serve Db.empty (before ++ .post rts now id req :: after) = db at *
  have hnew := Api.newWatch_eq_ok_iff.mpr accepts
  constructor
  · rintro ⟨r', hr', hrid⟩
    obtain ⟨row, db', hc, rfl⟩ := (Api.createWatch_existing_iff hnew).mp hr'
    obtain ⟨found, hfound, rfl, -⟩ := commitWatch_tells hc
    have hmatch := List.find?_some hfound
    simp only [decide_eq_true_eq] at hmatch
    have hget := Table.get?_of_mem (List.mem_of_find?_eq_some hfound)
    have hfid : found.id = id := hrid
    rw [hfid] at hget
    exact ⟨found, hget, hmatch.2.2.2⟩
  · rintro ⟨u, hu, active⟩
    rw [hw] at hu
    obtain rfl := Option.some.inj hu
    obtain rfl := Table.key_of_get? hw
    have hsame := hlater.same
    have hfound : new'.activeIn db = some w :=
      inv.activeIn_eq_some hw active (hsame.chainId.trans hchain.symm)
        (hsame.tokenAddress.trans htoken.symm) (hsame.paymentAddress.trans hpayment.symm)
    have hc := createWatch_existing inv hat (parseThreshold_ne_zero accepts.threshold) hfound
      (by rw [hsame.threshold, hthreshold]; rfl) (hurl.trans hurl'.symm) id'
    exact ⟨_, (Api.createWatch_existing_iff hnew).mpr ⟨_, _, hc, rfl⟩, rfl⟩

/-- The order is placed twice. -/
theorem repost_existing_order :
    ∃ r, (merchantApi.createWatch atHead100 5 2 merchantOrder
        (run merchantApi.serve Db.empty (beforeOrder ++ [placeOrder]))).result = .ok (200, r) ∧
      r.id = 1 := by
  have hactive : ((run merchantApi.serve Db.empty (beforeOrder ++ [placeOrder])).watches.get? 1).map
      Watch.status = some .active := by decide +kernel
  obtain ⟨w, hw, active⟩ := Option.map_eq_some_iff.mp hactive
  exact (repost_existing_iff merchantApi beforeOrder atHead100 atHead100 0 5 1 2 merchantOrder
    orderReply order_created [] ⟨⟨true, 100⟩, rfl, rfl⟩ nofun).mpr ⟨w, hw, active⟩

/-! ## Cancelling -/

/-- What the update of `cancel_watch` does. -/
theorem cancelWatch_cases (db : Db) (id : Uuid) :
    (∃ w, db.watches.get? id = some w ∧ w.status = .active ∧
        cancelWatch db id = ((WatchRow.fromRow (w.withStatus .cancelled db.now)).map some,
          db.putWatch (w.withStatus .cancelled db.now))) ∨
      (∀ w, db.watches.get? id = some w → w.status ≠ .active) ∧ cancelWatch db id = (.ok none, db) := by
  unfold cancelWatch
  cases hw : db.watches.get? id with
  | none => exact .inr ⟨nofun, rfl⟩
  | some w =>
      by_cases active : w.status = .active
      · exact .inl ⟨w, rfl, active, if_pos active⟩
      · refine .inr ⟨fun u hu => ?_, if_neg active⟩
        rw [← Option.some.inj hu]
        exact active

/-- A retired watch stays retired. -/
theorem Api.retired_serve {w : Watch} (hw : db.watches.get? id = some w) (retired : w.status ≠ .active)
    (after : List Request) {w' : Watch} (hw' : (run api.serve db after).watches.get? id = some w') :
    w'.status ≠ .active := by
  rw [Api.run_serve] at hw'
  obtain ⟨u, hu, hlater, -⟩ := kept_run hw (after.filterMap (Request.op? api))
  rw [hw'] at hu
  obtain rfl := Option.some.inj hu
  exact fun active => retired (hlater.active active)

/-- **Cancelling.**  A `DELETE` loads the watch in one statement and cancels it
in another.  When it answers, the watch is not active any more, and never will
be; but the answer itself says that it is, exactly if the watch was active
when it was loaded and was retired by somebody else in between. -/
theorem delete_watch (api : Api) (before between : List Request) (rts : Nat → Option RuntimeView)
    (id : Uuid) (r : WatchResponse)
    (deleted : (api.cancelWatch rts (run api.serve Db.empty before)
      (run api.serve Db.empty (before ++ between)) id).result = .ok r) :
    (∀ after w, (run api.serve (api.cancelWatch rts (run api.serve Db.empty before)
      (run api.serve Db.empty (before ++ between)) id).db after).watches.get? id = some w →
        w.status ≠ .active) ∧
    (r.status = .active ↔
      (∃ w, (run api.serve Db.empty before).watches.get? id = some w ∧ w.status = .active) ∧
      ∃ w, (run api.serve Db.empty (before ++ between)).watches.get? id = some w ∧
        w.status ≠ .active) := by
  have hkept : ∀ row, (run api.serve Db.empty before).watches.get? id = some row →
      ∃ row', (run api.serve Db.empty (before ++ between)).watches.get? id = some row' := by
    intro row hrow
    rw [run_append, Api.run_serve _ between]
    exact (kept_run hrow _).imp fun _ h => h.1
  have inv := api.sound_run (before ++ between)
  generalize run api.serve Db.empty before = loaded at *
  generalize run api.serve Db.empty (before ++ between) = db at *
  cases hload : api.load loaded id with
  | error e => simp only [Api.cancelWatch, hload] at deleted; cases deleted
  | ok found =>
      obtain ⟨chain, existing⟩ := found
      obtain ⟨row, hrow, rfl, -⟩ := Api.load_ok hload
      rcases cancelWatch_cases db id with ⟨w, hw, active, hcancel⟩ | ⟨hnone, hcancel⟩
      · -- the update found it active
        have hread := WatchRow.fromRow_of_fits (w := w.withStatus .cancelled db.now)
          (inv.fits id w hw)
        rw [hread, Except.map] at hcancel
        simp only [Api.cancelWatch, hload, hcancel] at deleted ⊢
        cases deleted
        obtain rfl := Table.key_of_get? hw
        have hput : (db.putWatch (w.withStatus .cancelled db.now)).watches.get? w.id =
            some (w.withStatus .cancelled db.now) :=
          Table.get?_replace_self (a := w.withStatus .cancelled db.now) hw
        refine ⟨fun after w' => Api.retired_serve hput (by simp [Watch.withStatus]) after,
          iff_of_false (by simp [watchResponse, WatchRow.ofWatch, Watch.withStatus]) ?_⟩
        rintro ⟨-, w', hw', retired⟩
        rw [hw] at hw'
        exact retired (Option.some.inj hw' ▸ active)
      · -- it found nothing to do
        obtain ⟨row', hrow'⟩ := hkept row hrow
        simp only [Api.cancelWatch, hload, hcancel] at deleted ⊢
        cases deleted
        refine ⟨fun after w' => Api.retired_serve hrow' (hnone row' hrow') after, ?_⟩
        constructor
        · exact fun active => ⟨⟨row, hrow, active⟩, row', hrow', hnone row' hrow'⟩
        · rintro ⟨⟨w, hw, active⟩, -⟩
          rw [hrow] at hw
          exact Option.some.inj hw ▸ active

/-- A payment completes the watch between the two statements. -/
theorem delete_watch_completed :
    (merchantApi.cancelWatch atHead100 (run merchantApi.serve Db.empty (beforeOrder ++ [placeOrder]))
        (run merchantApi.serve Db.empty (beforeOrder ++ [placeOrder] ++ [payment 100])) 1).result =
        .ok orderReply ∧
      ∃ w, (run merchantApi.serve Db.empty
        (beforeOrder ++ [placeOrder] ++ [payment 100])).watches.get? 1 = some w ∧
          w.status ≠ .active := by
  have hdeleted : (merchantApi.cancelWatch atHead100
      (run merchantApi.serve Db.empty (beforeOrder ++ [placeOrder]))
      (run merchantApi.serve Db.empty (beforeOrder ++ [placeOrder] ++ [payment 100])) 1).result =
        .ok orderReply := rfl
  exact ⟨hdeleted, ((delete_watch merchantApi _ _ atHead100 1 orderReply hdeleted).2.mp rfl).2⟩

/-! ## Listing transfers -/

/-- What the confirmed ones of the listed transfers add up to. -/
def WatchResponse.listed (r : WatchResponse) : Nat :=
  (((r.transfers.getD []).filter (·.status = .confirmed)).map (·.amount.toNat)).sum

/-- The confirmed ones of the listed rows add up to the ledger of the watch, as
long as none is cut off. -/
theorem listed_le_ledger (db : Db) (id : Uuid) (limit : Nat) :
    (((listedRows db id limit).filter (·.status = .confirmed)).map Transfer.amount).sum ≤ db.ledger id ∧
      ((db.transfers.rows.filter (·.watchId = id)).length ≤ limit →
        (((listedRows db id limit).filter (·.status = .confirmed)).map Transfer.amount).sum =
          db.ledger id) := by
  have hledger : db.ledger id =
      (((db.transfers.rows.filter (·.watchId = id)).filter (·.status = .confirmed)).map
        Transfer.amount).sum := by
    rw [Db.ledger, Table.sumOf]
    induction db.transfers.rows with
    | nil => rfl
    | cons t rows ih =>
        rw [List.map_cons, List.sum_cons, ih, ledgerAmount]
        by_cases hid : t.watchId = id <;> by_cases hs : t.status = .confirmed <;> simp [hid, hs]
  set sorted := (db.transfers.rows.filter (·.watchId = id)).insertionSort fun a b =>
    a.blockNumber < b.blockNumber ∨ a.blockNumber = b.blockNumber ∧ a.logIndex ≤ b.logIndex
  have hperm : sorted.Perm (db.transfers.rows.filter (·.watchId = id)) := List.perm_insertionSort _ _
  have hsum : ((sorted.filter (·.status = .confirmed)).map Transfer.amount).sum = db.ledger id := by
    rw [hledger]
    exact ((hperm.filter _).map _).sum_eq
  constructor
  · rw [← hsum]
    exact (((List.take_sublist limit sorted).filter _).map _).sum_le_sum fun _ _ => Nat.zero_le _
  · intro hall
    rw [← hsum, listedRows, List.take_of_length_le (hperm.length_eq.trans_le hall)]

/-- What the listed transfers add up to, in terms of the rows. -/
theorem WatchResponse.listed_eq {w : WatchRow} {ts : List TransferView} {limit : Nat}
    (h : transfersForWatch db id limit = .ok ts) :
    (watchResponse chain w (some ts)).listed =
      (((listedRows db id limit).filter (·.status = .confirmed)).map Transfer.amount).sum := by
  obtain ⟨hread, rfl⟩ := transfersForWatch_ok_iff.mp h
  simp only [WatchResponse.listed, watchResponse, Option.getD_some, List.filter_map, List.map_map]
  congr 1
  refine List.map_congr_left fun t ht => ?_
  exact Nat.mod_eq_of_lt (hread t (List.mem_of_mem_filter ht))

/-- **What a `GET` lists.**  If the confirmed rows of the watch add up to its
total when the transfers are read, the confirmed transfers in the answer add up
to its total and what was counted toward the watch between the two reads, unless
the watch has more transfers than are listed; then they add up to no more than
that. -/
theorem listed_transfers (api : Api) (before between : List Request) (id : Uuid) (r : WatchResponse)
    (got : api.getWatch (run api.serve Db.empty before)
      (run api.serve Db.empty (before ++ between)) id = .ok r)
    (ledger : ∀ w, (run api.serve Db.empty (before ++ between)).watches.get? id = some w →
      (run api.serve Db.empty (before ++ between)).ledger id = w.confirmedAmount) :
    r.listed ≤ r.confirmedAmount.toNat + creditTotal (collect creditsOf exec
        (run api.serve Db.empty before) (between.filterMap (Request.op? api))) id ∧
      (((run api.serve Db.empty (before ++ between)).transfers.rows.filter
          (·.watchId = id)).length ≤ 500 →
        r.listed = r.confirmedAmount.toNat + creditTotal (collect creditsOf exec
          (run api.serve Db.empty before) (between.filterMap (Request.op? api))) id) := by
  obtain ⟨chain, row, ts, hload, hts, rfl⟩ := Api.getWatch_ok got
  obtain ⟨w, hw, rfl, -⟩ := Api.load_ok hload
  -- the total that was read, and the one there is when the transfers are read
  have htotal : (watchResponse chain (.ofWatch w) (some ts)).confirmedAmount.toNat =
      creditTotal (run api.serve Db.empty before).credits id := by
    have hfits := (api.sound_run before).fits id w hw
    rw [Api.run_serve] at hw ⊢
    rw [← (accounts_run _).totals id w hw]
    exact Nat.mod_eq_of_lt hfits.2
  have hsplit : run api.serve Db.empty (before ++ between) =
      run exec (run api.serve Db.empty before) (between.filterMap (Request.op? api)) := by
    rw [run_append, Api.run_serve _ between]
  obtain ⟨w', hw', -⟩ := kept_run hw (between.filterMap (Request.op? api))
  rw [← hsplit] at hw'
  have hledger : (run api.serve Db.empty (before ++ between)).ledger id =
      (watchResponse chain (.ofWatch w) (some ts)).confirmedAmount.toNat + creditTotal (collect
        creditsOf exec (run api.serve Db.empty before) (between.filterMap (Request.op? api))) id := by
    rw [htotal, ← creditTotal_append, ← credits_run, ← hsplit, ledger w' hw']
    rw [Api.run_serve] at hw' ⊢
    exact (accounts_run _).totals id w' hw'
  rw [WatchResponse.listed_eq hts, ← hledger]
  exact listed_le_ledger _ id 500

/-- A payment of 40 is counted between the two reads. -/
theorem listed_transfers_ahead :
    ∃ r, merchantApi.getWatch (run merchantApi.serve Db.empty (beforeOrder ++ [placeOrder]))
        (run merchantApi.serve Db.empty (beforeOrder ++ [placeOrder] ++ [payment 40])) 1 = .ok r ∧
      r.confirmedAmount = 0 ∧ r.listed = 40 := by
  have htotal : (merchantApi.getWatch (run merchantApi.serve Db.empty (beforeOrder ++ [placeOrder]))
      (run merchantApi.serve Db.empty (beforeOrder ++ [placeOrder] ++ [payment 40])) 1).toOption.map
        WatchResponse.confirmedAmount = some 0 := by decide +kernel
  cases hget : merchantApi.getWatch (run merchantApi.serve Db.empty (beforeOrder ++ [placeOrder]))
      (run merchantApi.serve Db.empty (beforeOrder ++ [placeOrder] ++ [payment 40])) 1 with
  | error e => rw [hget] at htotal; cases htotal
  | ok r =>
      rw [hget] at htotal
      have hzero : r.confirmedAmount = 0 := Option.some.inj htotal
      refine ⟨r, rfl, hzero, ?_⟩
      have hledger : ∀ w ∈ (run merchantApi.serve Db.empty
          (beforeOrder ++ [placeOrder] ++ [payment 40])).watches.get? 1,
          (run merchantApi.serve Db.empty (beforeOrder ++ [placeOrder] ++ [payment 40])).ledger 1 =
            w.confirmedAmount := by decide +kernel
      rw [(listed_transfers merchantApi (beforeOrder ++ [placeOrder]) [payment 40] 1 r hget hledger).2
        (by decide +kernel), hzero]
      decide +kernel

end GumIndexer
