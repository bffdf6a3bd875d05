import GumIndexer.Backfill
import GumIndexer.Interleaving

/-!
# GumIndexer.Settlement

The life of a transfer.

The row of a log is written by the head path, by sweeps and by backfills, each
of which also queues the log's events.  `Fate` lists what one step can do to
the two of them together, and `Life` what they look like at any time: a row is
pending until it is confirmed, ignored or orphaned, and its events tell the
same story (`Step.fated`, `Lives.step`).

Rows are settled at or below the cursor only (`Server.settled_run`): a sweep
settles rows up to the block it moves the cursor to, and a backfill confirms
transfers in blocks the cursor had passed when the watch was registered.

All this holds as long as no row changes between the SELECT of a sweep and its
commit (`transfer_life_cycle`).  A backfill that confirms a pending row in
between has the row orphaned by the sweep (`confirmed_then_orphaned`).
-/

namespace GumIndexer

open Base

/-- The events of a log, oldest first. -/
def Db.eventsFor (db : Db) (log : LogId) : List OutboxRow :=
  db.outbox.rows.filter fun e => e.log? = some log

variable {db db' : Db} {chain : ChainSpec} {a : Act} {log : LogId}

/-- The events of a log are those that name it. -/
theorem mem_eventsFor {e : OutboxRow} :
    e ∈ db.eventsFor log ↔ e ∈ db.outbox.rows ∧ e.log? = some log := by
  simp [Db.eventsFor]

/-! ## One step -/

/-- What a step does to the row of a log, and the events it queues for it. -/
inductive Fate : Option Transfer → List OutboxRow → Option Transfer → Prop
  | idle {row : Option Transfer} : Fate row [] row
  | announce {t : Transfer} {e : OutboxRow} (pending : t.status = .pending)
      (type : e.eventType = .paymentPending) (owner : e.watchId = t.watchId) : Fate none [e] (some t)
  | insert {t : Transfer} {e : OutboxRow} (confirmed : t.status = .confirmed)
      (type : e.eventType = .paymentConfirmed) : Fate none [e] (some t)
  | confirm {t : Transfer} {e : OutboxRow} (pending : t.status = .pending)
      (type : e.eventType = .paymentConfirmed) :
      Fate (some t) [e] (some (t.withStatus .confirmed))
  | ignore {t : Transfer} (pending : t.status = .pending) :
      Fate (some t) [] (some (t.withStatus .ignored))
  /-- The watch is retired, and nobody is told. -/
  | discard {t : Transfer} (pending : t.status = .pending) :
      Fate (some t) [] (some (t.withStatus .orphaned))
  | orphan {t : Transfer} {e : OutboxRow} (pending : t.status = .pending)
      (type : e.eventType = .paymentOrphaned) (owner : e.watchId = t.watchId) :
      Fate (some t) [e] (some (t.withStatus .orphaned))

/-- The step is a fate of the log, and its events come after those of the
same watch. -/
def Fated (db : Db) (log : LogId) (db' : Db) : Prop :=
  ∃ es, db'.eventsFor log = db.eventsFor log ++ es ∧
    Fate (db.transfers.get? log) es (db'.transfers.get? log) ∧
    ∀ e ∈ es, ∀ e' ∈ db.outbox.rows, e'.watchId = e.watchId → e'.seq < e.seq

/-- A log may be left alone. -/
theorem Fated.idle (transfers : db'.transfers.get? log = db.transfers.get? log)
    (events : db'.eventsFor log = db.eventsFor log) : Fated db log db' :=
  ⟨[], by rw [events, List.append_nil], by rw [transfers]; exact .idle, by simp⟩

/-- A step that queues nothing for the log. -/
theorem Fated.silent (h : Fate (db.transfers.get? log) [] (db'.transfers.get? log))
    (events : db'.eventsFor log = db.eventsFor log) : Fated db log db' :=
  ⟨[], by rw [events, List.append_nil], h, by simp⟩

section Post

variable {w w' : Watch} {type : EventType} {view : Option TransferView}
  {transfers : Table Transfer Transfer.key}

theorem log?_eventRow (db : Db) (chain : ChainSpec) (watch : WatchRow) (type : EventType)
    (view : Option TransferView) : (eventRow db chain watch type view).log? =
      view.map fun v => ⟨chain.chainId, v.blockHash, v.logIndex⟩ := rfl

/-- A post adds one event to the log its view names, and none to any other. -/
theorem Post.eventsFor (h : Post chain db w w' type view transfers db') (log : LogId) :
    db'.eventsFor log = db.eventsFor log ++
      if view.map (fun v => (⟨chain.chainId, v.blockHash, v.logIndex⟩ : LogId)) = some log then
        [eventRow db chain (.ofWatch w') type view] else [] := by
  rw [Db.eventsFor, h.outbox_rows, List.filter_append, List.filter_singleton, log?_eventRow]
  by_cases hlog : view.map (fun v => (⟨chain.chainId, v.blockHash, v.logIndex⟩ : LogId)) = some log
  · simp [hlog, Db.eventsFor]
  · simp [hlog, Db.eventsFor]

/-- The number of a new event is above those of its watch. -/
theorem Post.seq_lt (h : Post chain db w w' type view transfers db') (inv : EventLogs db)
    {e : OutboxRow} (he : e ∈ db.outbox.rows)
    (howner : e.watchId = (eventRow db chain (.ofWatch w') type view).watchId) :
    e.seq < (eventRow db chain (.ofWatch w') type view).seq := by
  change e.watchId = w'.id at howner
  change e.seq < w'.nextEventSeq
  have log := inv.log w.id w h.found
  have hseq : e.seq ∈ List.range' 1 w.nextEventSeq := by
    rw [← log.seqs]
    refine List.mem_map_of_mem (List.mem_filter.mpr ⟨he, ?_⟩)
    rw [decide_eq_true_eq, howner, h.sameId]
  have hbumped := h.bumped
  rw [List.mem_range'_1] at hseq
  omega

/-- An event that is about the log. -/
theorem Post.fated (h : Post chain db w w' type view transfers db') (inv : EventLogs db)
    (hview : view.map (fun v => (⟨chain.chainId, v.blockHash, v.logIndex⟩ : LogId)) = some log)
    (hfate : Fate (db.transfers.get? log) [eventRow db chain (.ofWatch w') type view]
      (transfers.get? log)) : Fated db log db' := by
  refine ⟨_, by rw [h.eventsFor, if_pos hview], by rw [h.transfers]; exact hfate, ?_⟩
  intro e he e' he' howner
  rw [List.mem_singleton.mp he] at howner ⊢
  exact h.seq_lt inv he' howner

/-- An event that is not about the log. -/
theorem Post.fated_idle (h : Post chain db w w' type view transfers db')
    (hview : view.map (fun v => (⟨chain.chainId, v.blockHash, v.logIndex⟩ : LogId)) ≠ some log)
    (htransfers : transfers.get? log = db.transfers.get? log) : Fated db log db' :=
  .idle (by rw [h.transfers, htransfers]) (by rw [h.eventsFor, if_neg hview, List.append_nil])

end Post

/-- A match is counted: its row is inserted as confirmed, or confirmed. -/
theorem Counts.fated {w : Watch} {m : MatchedTransfer} (h : Counts chain db w m db')
    (inv : EventLogs db) (log : LogId) : Fated db log db' := by
  obtain ⟨transfers, hc, post⟩ := h.step
  by_cases hlog : m.logId chain.chainId = log
  · subst hlog
    refine post.fated inv rfl ?_
    cases hc with
    | fresh insert =>
        have hnone : db.transfers.get? (m.logId chain.chainId) = none :=
          Table.get?_of_insertNew insert
        rw [hnone, Table.get?_insertNew insert, MatchedTransfer.key_row, if_pos rfl]
        exact .insert rfl rfl
    | @pending t found pending =>
        have hkey : t.key = m.logId chain.chainId := Table.key_of_get? found
        rw [Table.get?_replace, Transfer.key_withStatus, if_pos hkey]
        rw [MatchedTransfer.key_row] at found
        rw [found]
        exact .confirm pending rfl
  · refine post.fated_idle (fun heq => hlog (Option.some.inj heq)) ?_
    exact hc.get?_of_ne (Ne.symm hlog)

/-- Settling a row decides its own log, and leaves the others alone. -/
theorem fate_settle {t : Transfer} {s : TransferStatus} (found : db.transfers.get? t.key = some t)
    (h : Fate (some t) [] (some (t.withStatus s))) :
    Fate (db.transfers.get? log) [] ((db.transfers.replace (t.withStatus s)).get? log) := by
  rw [Table.get?_replace, Transfer.key_withStatus]
  by_cases hlog : t.key = log
  · subst hlog
    rw [if_pos rfl, found]
    exact h
  · rw [if_neg hlog]
    exact .idle

/-- **Every step is a fate of every log.** -/
theorem Step.fated (h : Step db a db') (inv : EventLogs db) (log : LogId) : Fated db log db' := by
  cases h with
  | register _ _ _ _ _ => exact .idle rfl rfl
  | cancel _ _ => exact .idle rfl rfl
  | expire _ post => exact post.fated_idle (by simp) rfl
  | @announce _ chain w m transfers watch active insert post =>
      have hrow := Table.get?_insertNew insert log
      rw [MatchedTransfer.key_row] at hrow
      by_cases hlog : m.logId chain.chainId = log
      · subst hlog
        have hnone : db.transfers.get? (m.logId chain.chainId) = none :=
          Table.get?_of_insertNew insert
        refine post.fated inv rfl ?_
        rw [hnone, hrow, if_pos rfl]
        exact .announce rfl rfl rfl
      · refine post.fated_idle (fun heq => hlog (Option.some.inj heq)) ?_
        rw [hrow, if_neg hlog]
  | count counts _ => exact counts.fated inv log
  | complete counts _ post =>
      obtain ⟨es, hevents, hfate, hlt⟩ := counts.fated inv log
      refine ⟨es, ?_, ?_, hlt⟩
      · rw [post.eventsFor, if_neg (by simp), List.append_nil, hevents]
      · rw [post.transfers]
        exact hfate
  | ignore found pending => exact .silent (fate_settle found (.ignore pending)) rfl
  | orphanRetired found pending _ => exact .silent (fate_settle found (.discard pending)) rfl
  | @orphan _ chain t w found pending home amount watch _ _ post =>
      have hkey : t.key = ⟨chain.chainId, t.blockHash, t.logIndex⟩ := by rw [← home]; rfl
      have hrow := Table.get?_replace db.transfers (t.withStatus .orphaned) log
      rw [Transfer.key_withStatus] at hrow
      by_cases hlog : t.key = log
      · subst hlog
        refine post.fated inv (congrArg some hkey.symm) ?_
        rw [hrow, if_pos rfl, found]
        exact .orphan pending rfl watch.symm
      · refine post.fated_idle (fun heq => hlog (hkey.trans (Option.some.inj heq))) ?_
        rw [hrow, if_neg hlog]
  | clearBackfill _ => exact .idle rfl rfl
  | moveCursor _ transfers outbox _ =>
      exact .idle (by rw [transfers]) (by rw [Db.eventsFor, outbox, Db.eventsFor])
  | other _ transfers outbox _ _ =>
      exact .idle (by rw [transfers]) (by rw [Db.eventsFor, outbox, Db.eventsFor])

/-! ## The whole life -/

/-- The row of a log and its events, at any time. -/
inductive Life : Option Transfer → List OutboxRow → Prop
  | unknown : Life none []
  | pending {t : Transfer} {e : OutboxRow} (status : t.status = .pending)
      (type : e.eventType = .paymentPending) (owner : e.watchId = t.watchId) : Life (some t) [e]
  /-- Counted without having been announced. -/
  | counted {t : Transfer} {e : OutboxRow} (status : t.status = .confirmed)
      (type : e.eventType = .paymentConfirmed) : Life (some t) [e]
  | confirmed {t : Transfer} {e e' : OutboxRow} (status : t.status = .confirmed)
      (type : e.eventType = .paymentPending) (type' : e'.eventType = .paymentConfirmed) :
      Life (some t) [e, e']
  /-- Ignored, or orphaned after the watch was retired. -/
  | dropped {t : Transfer} {e : OutboxRow} (status : t.status = .ignored ∨ t.status = .orphaned)
      (type : e.eventType = .paymentPending) : Life (some t) [e]
  | orphaned {t : Transfer} {e e' : OutboxRow} (status : t.status = .orphaned)
      (type : e.eventType = .paymentPending) (type' : e'.eventType = .paymentOrphaned)
      (owner : e.watchId = e'.watchId) (order : e.seq < e'.seq) : Life (some t) [e, e']

/-- A pending row has been announced, and nothing else. -/
theorem Life.of_pending {t : Transfer} {es : List OutboxRow} (h : Life (some t) es)
    (hp : t.status = .pending) :
    ∃ e, es = [e] ∧ e.eventType = .paymentPending ∧ e.watchId = t.watchId := by
  cases h with
  | pending _ type owner => exact ⟨_, rfl, type, owner⟩
  | counted status _ => rw [hp] at status; contradiction
  | confirmed status _ _ => rw [hp] at status; contradiction
  | dropped status _ => rw [hp] at status; simp at status
  | orphaned status _ _ _ _ => rw [hp] at status; contradiction

/-- **One step of a life.** -/
theorem Life.step {row row' : Option Transfer} {es new : List OutboxRow} (h : Life row es)
    (fate : Fate row new row')
    (later : ∀ e ∈ new, ∀ e' ∈ es, e'.watchId = e.watchId → e'.seq < e.seq) :
    Life row' (es ++ new) := by
  cases fate with
  | idle => rw [List.append_nil]; exact h
  | announce pending type owner => cases h; exact .pending pending type owner
  | insert confirmed type => cases h; exact .counted confirmed type
  | confirm pending type =>
      obtain ⟨e, rfl, htype, -⟩ := h.of_pending pending
      exact .confirmed rfl htype type
  | ignore pending =>
      obtain ⟨e, rfl, htype, -⟩ := h.of_pending pending
      exact .dropped (.inl rfl) htype
  | discard pending =>
      obtain ⟨e, rfl, htype, -⟩ := h.of_pending pending
      exact .dropped (.inr rfl) htype
  | orphan pending type owner =>
      obtain ⟨e, rfl, htype, howner⟩ := h.of_pending pending
      have heq := howner.trans owner.symm
      exact .orphaned rfl htype type heq (later _ (by simp) e (by simp) heq)

/-- **There are five histories a log can have.** -/
theorem Life.types {row : Option Transfer} {es : List OutboxRow} (h : Life row es) :
    es.map OutboxRow.eventType ∈ [[], [.paymentPending], [.paymentConfirmed],
      [.paymentPending, .paymentConfirmed], [.paymentPending, .paymentOrphaned]] := by
  cases h with
  | unknown => simp
  | pending _ type _ => simp [type]
  | counted _ type => simp [type]
  | confirmed _ type type' => simp [type, type']
  | dropped _ type => simp [type]
  | orphaned _ type type' _ _ => simp [type, type']

/-- An orphan was announced before. -/
theorem Life.announced {row : Option Transfer} {es : List OutboxRow} {e : OutboxRow}
    (h : Life row es) (he : e ∈ es) (ho : e.eventType = .paymentOrphaned) :
    ∃ e' ∈ es, e'.eventType = .paymentPending ∧ e'.watchId = e.watchId ∧ e'.seq < e.seq := by
  have hne : ∀ {e₀ : OutboxRow} {t : EventType}, e₀.eventType = t → t ≠ .paymentOrphaned →
      e ≠ e₀ := by
    rintro e₀ t htype ht rfl
    exact ht (htype.symm.trans ho)
  cases h with
  | unknown => cases he
  | pending _ type _ => exact absurd (List.mem_singleton.mp he) (hne type (by decide))
  | counted _ type => exact absurd (List.mem_singleton.mp he) (hne type (by decide))
  | confirmed _ type type' =>
      rcases List.mem_cons.mp he with heq | he
      · exact absurd heq (hne type (by decide))
      · exact absurd (List.mem_singleton.mp he) (hne type' (by decide))
  | dropped _ type => exact absurd (List.mem_singleton.mp he) (hne type (by decide))
  | @orphaned _ e₀ e₁ _ type type' owner order =>
      rcases List.mem_cons.mp he with heq | he
      · exact absurd heq (hne type (by decide))
      · obtain rfl := List.mem_singleton.mp he
        exact ⟨e₀, List.mem_cons_self, type, owner, order⟩

/-- Every log has its life, and every event that reports an orphan its log. -/
structure Lives (db : Db) : Prop where
  logs : EventLogs db
  life : ∀ log, Life (db.transfers.get? log) (db.eventsFor log)
  about : ∀ e ∈ db.outbox.rows, e.eventType = .paymentOrphaned → ∃ log, e.log? = some log

/-- In an empty database no log has a history. -/
theorem Lives.empty : Lives Db.empty where
  logs := .empty
  life log := .unknown
  about e he := by simp [Db.empty] at he

/-- A post of an orphaned payment names its log. -/
theorem Post.about {w w' : Watch} {type : EventType} {view : Option TransferView}
    {transfers : Table Transfer Transfer.key} (h : Post chain db w w' type view transfers db')
    (hview : type = .paymentOrphaned → ∃ v, view = some v)
    (inv : ∀ e ∈ db.outbox.rows, e.eventType = .paymentOrphaned → ∃ log, e.log? = some log) :
    ∀ e ∈ db'.outbox.rows, e.eventType = .paymentOrphaned → ∃ log, e.log? = some log := by
  intro e he ho
  rcases h.new_event he with he | rfl
  · exact inv e he ho
  · obtain ⟨v, rfl⟩ := hview ho
    exact ⟨_, rfl⟩

/-- So does every event of an orphaned payment. -/
theorem Step.about (h : Step db a db')
    (inv : ∀ e ∈ db.outbox.rows, e.eventType = .paymentOrphaned → ∃ log, e.log? = some log) :
    ∀ e ∈ db'.outbox.rows, e.eventType = .paymentOrphaned → ∃ log, e.log? = some log := by
  cases h with
  | expire _ post => exact post.about (by simp) inv
  | announce _ _ _ post => exact post.about (by simp) inv
  | count counts _ =>
      obtain ⟨transfers, -, post⟩ := counts.step
      exact post.about (by simp) inv
  | complete counts _ post =>
      obtain ⟨transfers, -, post₁⟩ := counts.step
      exact post.about (by simp) (post₁.about (by simp) inv)
  | orphan _ _ _ _ _ _ post => exact post.about (fun _ => ⟨_, rfl⟩) inv
  | moveCursor _ _ outbox _ => rw [outbox]; exact inv
  | other _ _ outbox _ _ => rw [outbox]; exact inv
  | _ => exact inv

/-- **Every step continues the lives of all logs.** -/
theorem Lives.step (h : Step db a db') (inv : Lives db) : Lives db' where
  logs := inv.logs.step h
  life log := by
    obtain ⟨new, hevents, hfate, hlater⟩ := h.fated inv.logs log
    rw [hevents]
    exact (inv.life log).step hfate fun e he e' he' => hlater e he e' (mem_eventsFor.mp he').1
  about := h.about inv.about

/-- The row is as it was, or was pending and is settled now. -/
def Settles (t t' : Transfer) : Prop :=
  t' = t ∨ t.status = .pending ∧ ∃ s, s ≠ .pending ∧ t' = t.withStatus s

/-- A row that is settled stays as it is. -/
theorem Settles.trans {t t' t'' : Transfer} (h : Settles t t') (h' : Settles t' t'') :
    Settles t t'' := by
  rcases h with rfl | ⟨hp, s, hs, rfl⟩
  · exact h'
  · rcases h' with rfl | ⟨hp', -⟩
    · exact .inr ⟨hp, s, hs, rfl⟩
    · exact absurd hp' hs

/-- The upsert settles a row that it finds pending. -/
theorem Confirms.settles {ts ts' : Table Transfer Transfer.key} {row t : Transfer}
    (h : Confirms ts row ts') (ht : ts.get? log = some t) :
    ∃ t', ts'.get? log = some t' ∧ Settles t t' := by
  by_cases hlog : log = row.key
  · subst hlog
    exact ⟨_, h.get?_self ht, .inr ⟨h.countable t ht, .confirmed, by decide, rfl⟩⟩
  · exact ⟨t, (h.get?_of_ne hlog).trans ht, .inl rfl⟩

/-- An update of a pending row settles it. -/
theorem Settles.replace {ts : Table Transfer Transfer.key} {t u : Transfer} {s : TransferStatus}
    (found : ts.get? u.key = some u) (pending : u.status = .pending) (hs : s ≠ .pending)
    (ht : ts.get? log = some t) : ∃ t', (ts.replace (u.withStatus s)).get? log = some t' ∧ Settles t t' := by
  rw [Table.get?_replace, Transfer.key_withStatus, ht]
  by_cases hlog : u.key = log
  · subst hlog
    obtain rfl := Option.some.inj (found.symm.trans ht)
    rw [if_pos rfl]
    exact ⟨_, rfl, .inr ⟨pending, s, hs, rfl⟩⟩
  · rw [if_neg hlog]
    exact ⟨t, rfl, .inl rfl⟩

/-- **No step reopens a row that is settled.** -/
theorem Step.settles {t : Transfer} (h : Step db a db') (ht : db.transfers.get? log = some t) :
    ∃ t', db'.transfers.get? log = some t' ∧ Settles t t' := by
  cases h with
  | expire _ post => exact ⟨t, by rw [post.transfers]; exact ht, .inl rfl⟩
  | @announce _ chain w m transfers _ _ insert post =>
      refine ⟨t, ?_, .inl rfl⟩
      rw [post.transfers, Table.get?_insertNew insert, if_neg, ht]
      rintro rfl
      rw [Table.get?_of_insertNew insert] at ht
      contradiction
  | count counts _ =>
      obtain ⟨transfers, hc, post⟩ := counts.step
      rw [post.transfers]
      exact hc.settles ht
  | complete counts _ post =>
      obtain ⟨transfers, hc, post'⟩ := counts.step
      rw [post.transfers, post'.transfers]
      exact hc.settles ht
  | ignore found pending => exact Settles.replace found pending (by decide) ht
  | orphanRetired found pending _ => exact Settles.replace found pending (by decide) ht
  | orphan found pending _ _ _ _ post =>
      rw [post.transfers]
      exact Settles.replace found pending (by decide) ht
  | moveCursor _ transfers _ _ => exact ⟨t, by rw [transfers]; exact ht, .inl rfl⟩
  | other _ transfers _ _ _ => exact ⟨t, by rw [transfers]; exact ht, .inl rfl⟩
  | _ => exact ⟨t, ht, .inl rfl⟩

/-- **A row is settled once**, in every trace. -/
theorem settles_trace {acts : List Act} {t : Transfer} (htr : Trace Step db acts db')
    (ht : db.transfers.get? log = some t) : ∃ t', db'.transfers.get? log = some t' ∧ Settles t t' := by
  refine htr.invariant (fun d => ∃ t', d.transfers.get? log = some t' ∧ Settles t t')
    (fun d a d' hstep hd => ?_) ⟨t, ht, .inl rfl⟩
  obtain ⟨t', ht', hsettles⟩ := hd
  obtain ⟨t'', ht'', hsettles'⟩ := hstep.settles ht'
  exact ⟨t'', ht'', hsettles.trans hsettles'⟩

/-! ## The cursor bound -/

/-- What the callers and the provider promise: a sweep covers at least one
block, `eth_getLogs` returns logs of the range it was asked for, and the hash
of a block determines its number. -/
def Op.Ranged (height : Nat → B256 → Nat) : Op → Prop
  | .recordPending chain m => m.blockNumber = height chain.chainId m.blockHash
  | .applySweep chain _ expectedCursor toBlock logs => expectedCursor < toBlock ∧
      ∀ l ∈ logs, ∀ n ∈ l.blockNumber, (expectedCursor < n ∧ n ≤ toBlock) ∧
        ∀ h ∈ l.blockHash, n = height chain.chainId h
  | .applyBackfill chain _ _ logs =>
      ∀ l ∈ logs, ∀ n ∈ l.blockNumber, ∀ h ∈ l.blockHash, n = height chain.chainId h
  | _ => True

-- the instance for all of `BitVec 256` would be found first
instance (height : B256 → Nat) (hash : Option B256) (n : Nat) : Decidable (∀ h ∈ hash, n = height h) :=
  Option.decidableForallMem hash

instance (height : Nat → B256 → Nat) (op : Op) : Decidable (op.Ranged height) :=
  match op with
  | .recordPending _ _ => inferInstanceAs (Decidable (_ = _))
  | .applySweep chain _ expectedCursor toBlock logs =>
      inferInstanceAs (Decidable (expectedCursor < toBlock ∧
        ∀ l ∈ logs, ∀ n ∈ l.blockNumber, (expectedCursor < n ∧ n ≤ toBlock) ∧
          ∀ h ∈ l.blockHash, n = (height chain.chainId) h))
  | .applyBackfill chain _ _ logs =>
      inferInstanceAs (Decidable (∀ l ∈ logs, ∀ n ∈ l.blockNumber, ∀ h ∈ l.blockHash,
        n = height chain.chainId h))
  | .ensureCursor _ _ | .createWatch _ _ | .commitWatch _ _ _ | .cancelWatch _ | .expireWatches _ _ _
  | .fastForwardCursor _ _ | .tick _ | .draw _ => isTrue trivial

/-- Every backfill scans a batch that `pending_backfills` returned earlier. -/
def Planned (ops : List Op) : Prop :=
  ∀ pre chain cache batch logs post, ops = pre ++ .applyBackfill chain cache batch logs :: post →
    ∃ earlier limit, earlier <+: pre ∧
      batch = pendingBackfills (run exec Db.empty earlier) chain.chainId limit

/-- A sweep in range goes forward. -/
theorem Op.Ranged.forward {height : Nat → B256 → Nat} {op : Op} (h : op.Ranged height) :
    op.Forward := by
  cases op with
  | applySweep _ _ _ _ _ => exact h.1
  | _ => trivial

/-- A part of a planned run is planned. -/
theorem Planned.of_append {ops later : List Op} (h : Planned (ops ++ later)) : Planned ops := by
  intro pre chain cache batch logs post heq
  exact h pre chain cache batch logs (post ++ later) (by rw [heq]; simp)

/-- Without backfills there is nothing to plan. -/
theorem planned_of_no_backfill {ops : List Op}
    (h : ∀ chain cache batch logs, Op.applyBackfill chain cache batch logs ∉ ops) : Planned ops := by
  intro pre chain cache batch logs post heq
  exact absurd (by rw [heq]; simp) (h chain cache batch logs)

/-- A batch that an earlier state listed may be scanned next. -/
theorem Planned.concat {ops earlier : List Op} (h : Planned ops) (hbefore : earlier <+: ops)
    (chain : ChainSpec) (cache : WatchCache) (limit : Nat) (logs : List Log) :
    Planned (ops ++ [.applyBackfill chain cache
      (pendingBackfills (run exec Db.empty earlier) chain.chainId limit) logs]) := by
  intro pre chain' cache' batch logs' post heq
  rcases List.eq_nil_or_concat post with rfl | ⟨post, op, rfl⟩
  · obtain ⟨rfl, hop⟩ := List.append_inj' heq rfl
    obtain ⟨rfl, -, rfl, -⟩ := Op.applyBackfill.inj (List.singleton_inj.mp hop)
    exact ⟨earlier, limit, hbefore, rfl⟩
  · rw [List.concat_eq_append, ← List.cons_append, ← List.append_assoc] at heq
    exact h pre chain' cache' batch logs' post (List.append_inj' heq rfl).1

/-- A match is about one of the logs. -/
theorem log_of_mem_matchedOf {cache : WatchCache} {logs : List Log} {m : MatchedTransfer}
    (h : m ∈ matchedOf chain cache logs) :
    ∃ l ∈ logs, l.blockNumber = some m.blockNumber ∧ l.blockHash = some m.blockHash ∧
      l.logIndex = some m.logIndex := by
  obtain ⟨p, hp, ref, -, -, rfl⟩ := mem_matchedOf.mp h
  obtain ⟨l, hl, -, hpay⟩ := mem_paymentsOf.mp hp
  obtain ⟨-, -, -, -, -, hnumber, hhash, hindex, -⟩ := payment?_spec hpay
  exact ⟨l, hl, hnumber, hhash, hindex⟩

/-- The match a step writes a row for is in the block its hash names. -/
def Act.At (height : Nat → B256 → Nat) : Act → Prop
  | .announce chainId m => m.blockNumber = height chainId m.blockHash
  | .count chainId m => m.blockNumber = height chainId m.blockHash
  | _ => True

/-- The steps of an operation in range put every log at its height. -/
theorem Op.Ranged.act {height : Nat → B256 → Nat} {op : Op} (h : op.Ranged height)
    (hallow : op.Allows db a) : a.At height := by
  cases a with
  | announce chainId m =>
      cases op <;> try contradiction
      obtain ⟨rfl, rfl⟩ := hallow
      exact h
  | count chainId m =>
      cases op <;> try contradiction
      · obtain ⟨rfl, hm⟩ := hallow
        obtain ⟨l, hl, hn, hh, -⟩ := log_of_mem_matchedOf (mem_sweepMatches.mp hm)
        exact (h.2 l hl _ hn).2 _ hh
      · obtain ⟨rfl, hm⟩ := hallow
        obtain ⟨l, hl, hn, hh, -⟩ := log_of_mem_matchedOf (mem_backfillMatches.mp hm).1
        exact h l hl _ hn _ hh
  | _ => trivial

/-- Every row is in the block its hash names. -/
def Db.Heights (height : Nat → B256 → Nat) (db : Db) : Prop :=
  ∀ log t, db.transfers.get? log = some t → t.blockNumber = height t.chainId t.blockHash

/-- Such a step keeps the rows at their heights. -/
theorem Db.Heights.step {height : Nat → B256 → Nat} (h : Step db a db') (hact : a.At height)
    (inv : db.Heights height) : db'.Heights height := by
  intro log t ht
  rcases h.writes ht with hold | hw
  · exact inv log t hold
  · cases hw with
    | announce _ _ _ => exact hact
    | insert _ _ => exact hact
    | @confirm _ _ u found _ => exact inv _ u found
    | @ignore u found _ => exact inv _ u found
    | @orphan u found _ => exact inv _ u found

/-- And so does the operation. -/
theorem Db.Heights.exec {height : Nat → B256 → Nat} {op : Op} (h : op.Ranged height)
    (inv : db.Heights height) : (exec db op).Heights height := by
  obtain ⟨acts, htr, -, hallow⟩ := exec_trace db op
  exact htr.invariant_mem (Db.Heights height)
    (fun _ a _ ha hstep hd => hd.step hstep (h.act (hallow a ha))) inv

/-- What the step settles is in a block that satisfies `P`. -/
def Act.Within (P : Nat → Nat → Prop) : Act → Prop
  | .count chainId m => P chainId m.blockNumber
  | .ignore t => P t.chainId t.blockNumber
  | .orphan t => P t.chainId t.blockNumber
  | _ => True

/-- A row that is settled after a trace was so before it, or is one of those
the trace settles. -/
theorem settled_trace {height : Nat → B256 → Nat} {acts : List Act} {P : Nat → Nat → Prop}
    {t : Transfer} (htr : Trace Step db acts db') (inv : db.Heights height)
    (hacts : ∀ a ∈ acts, a.At height ∧ a.Within P) (ht : db'.transfers.get? log = some t)
    (hs : t.status ≠ .pending) : db.transfers.get? log = some t ∨ P t.chainId t.blockNumber := by
  refine (htr.invariant_mem (fun d => d.Heights height ∧ ∀ log t, d.transfers.get? log = some t →
    t.status ≠ .pending → db.transfers.get? log = some t ∨ P t.chainId t.blockNumber)
    (fun d a d' ha hstep hd => ⟨hd.1.step hstep (hacts a ha).1, fun log t ht hs => ?_⟩)
    ⟨inv, fun _ _ ht _ => .inl ht⟩).2 log t ht hs
  rcases hstep.writes ht with hold | hw
  · exact hd.2 log t hold hs
  · obtain ⟨hheight, hin⟩ := hacts a ha
    right
    cases hw with
    | announce _ _ _ => exact absurd rfl hs
    | insert _ _ => exact hin
    | @confirm chainId m u found _ =>
        -- the pending row is in the block of the match that confirms it
        have hkey : u.key = m.logId chainId := Table.key_of_get? found
        have hchain : u.chainId = chainId := congrArg LogId.chainId hkey
        have hhash : u.blockHash = m.blockHash := congrArg LogId.blockHash hkey
        change P u.chainId u.blockNumber
        rw [hd.1 _ u found, hchain, hhash, ← hheight]
        exact hin
    | ignore _ _ => exact hin
    | orphan _ _ => exact hin

/-- What the counting and the resolving of a sweep to `toBlock` write is at or
below that block. -/
theorem sweep_acts_within {height : Nat → B256 → Nat} {P : Nat → Nat → Prop}
    {cache cache' : WatchCache} {expectedCursor toBlock : Nat} {logs : List Log}
    {canonical : List (B256 × Nat)} {cs : List MatchedTransfer} {ts : List Transfer}
    (h : Op.Ranged height (.applySweep chain cache expectedCursor toBlock logs))
    (matched : ∀ m ∈ cs, m ∈ sweepMatches chain cache' logs)
    (leftover : ∀ t ∈ ts, Leftover chain.chainId t ∧ t.blockNumber ≤ toBlock)
    (hP : ∀ n ≤ toBlock, P chain.chainId n) :
    ∀ a ∈ cs.map (.count chain.chainId) ++ ts.map (resolveAct canonical),
      a.At height ∧ a.Within P := by
  intro a ha
  rcases List.mem_append.mp ha with ha | ha
  · obtain ⟨m, hm, rfl⟩ := List.mem_map.mp ha
    obtain ⟨l, hl, hn, hh, -⟩ := log_of_mem_matchedOf (mem_sweepMatches.mp (matched m hm))
    obtain ⟨hrange, hheight⟩ := h.2 l hl _ hn
    exact ⟨hheight _ hh, hP _ hrange.2⟩
  · obtain ⟨t, ht, rfl⟩ := List.mem_map.mp ha
    obtain ⟨hleft, hle⟩ := leftover t ht
    have hin : P t.chainId t.blockNumber := by rw [hleft.1]; exact hP _ hle
    rcases resolveAct_cases canonical t with heq | heq <;> rw [heq] <;> exact ⟨trivial, hin⟩

/-- A sweep settles rows up to the block it moves the cursor to. -/
theorem settled_sweep {height : Nat → B256 → Nat} {cache : WatchCache}
    {expectedCursor toBlock : Nat} {logs : List Log} {t : Transfer} (inv : db.Heights height)
    (h : Op.Ranged height (.applySweep chain cache expectedCursor toBlock logs))
    (ht : (exec db (.applySweep chain cache expectedCursor toBlock logs)).transfers.get? log = some t)
    (hs : t.status ≠ .pending) : db.transfers.get? log = some t ∨
      (exec db (.applySweep chain cache expectedCursor toBlock logs)).Passed t.chainId
        t.blockNumber := by
  rcases applySweep_cases db chain cache expectedCursor toBlock logs with
    ⟨tx, db', hcur, htx, hflush, he⟩ | ⟨actual, -, he⟩ | he | ⟨e, -, he⟩
  · obtain ⟨mid, cs, hcs, -, htr, htr'⟩ := sweepTx_trace htx
    obtain ⟨stats, rfl⟩ := flushStats_frame hflush
    simp only [exec, he, committed] at ht ⊢
    have hafter : (setCursor { tx.db with stats } chain.chainId toBlock).CursorAt chain.chainId
        toBlock :=
      Db.cursorAt_setCursor ((congrArg (Table.get? · chain.chainId) (sweepTx_cursors htx)).trans hcur)
        toBlock
    refine settled_trace (htr.append htr') inv (sweep_acts_within h (fun m hm => hcs.mem hm)
      (fun u hu => ?_) fun n hn => ⟨toBlock, hafter, hn⟩) ht hs
    obtain ⟨-, hchain, hp, hle⟩ := mem_leftovers.mp hu
    exact ⟨⟨hchain, hp⟩, hle⟩
  all_goals
    simp only [exec, he, committed] at ht
    exact .inl ht

/-- So does the commit of a sweep that read before. -/
theorem settled_finish {height : Nat → B256 → Nat} {o : OpenSweep} {t : Transfer}
    (inv : db.Heights height) (h : o.op.Ranged height) (hat : db.CursorAt o.chain.chainId o.cursor)
    (undisturbed : ∀ t ∈ o.selected, db.transfers.get? t.key = some t)
    (hfinish : o.finish db = some db') (ht : db'.transfers.get? log = some t)
    (hs : t.status ≠ .pending) :
    db.transfers.get? log = some t ∨ db'.Passed t.chainId t.blockNumber := by
  have hafter : db'.CursorAt o.chain.chainId o.toBlock := by
    rw [Db.CursorAt, OpenSweep.finish_cursors hfinish]
    exact Db.cursorAt_setCursor hat o.toBlock
  refine settled_trace (OpenSweep.finish_trace undisturbed hfinish) inv (fun a ha => ?_) ht hs
  rcases List.mem_append.mp ha with ha | ha
  · exact sweep_acts_within h o.matched (fun t ht => ⟨o.leftover t ht, o.reached t ht⟩)
      (fun n hn => ⟨o.toBlock, hafter, hn⟩) a ha
  · rw [List.mem_singleton.mp ha]
    exact ⟨trivial, trivial⟩

/-- A backfill confirms rows up to the upper ends of its batch; other
operations settle nothing. -/
theorem settled_other {height : Nat → B256 → Nat} {op : Op} {P : Nat → Nat → Prop} {t : Transfer}
    (inv : db.Heights height) (h : op.Ranged height)
    (hsweep : ∀ chain cache expectedCursor toBlock logs,
      op ≠ .applySweep chain cache expectedCursor toBlock logs)
    (hbatch : ∀ chain cache batch logs, op = .applyBackfill chain cache batch logs →
      ∀ b ∈ batch, ∀ n ≤ b.backfillTo, P chain.chainId n)
    (ht : (exec db op).transfers.get? log = some t) (hs : t.status ≠ .pending) :
    db.transfers.get? log = some t ∨ P t.chainId t.blockNumber := by
  obtain ⟨acts, htr, -, hallow⟩ := exec_trace db op
  refine settled_trace htr inv (fun a ha => ⟨h.act (hallow a ha), ?_⟩) ht hs
  have hall := hallow a ha
  cases a with
  | count chainId m =>
      cases op <;> try contradiction
      · exact absurd rfl (hsweep _ _ _ _ _)
      · obtain ⟨rfl, hm⟩ := hall
        obtain ⟨-, e, he, hle⟩ := mem_backfillMatches.mp hm
        rcases scope_upTo_cases he with hnone | ⟨b, hb, -, rfl⟩
        · contradiction
        · exact hbatch _ _ _ _ rfl b hb _ hle
  | ignore u =>
      cases op <;> try contradiction
      exact absurd rfl (hsweep _ _ _ _ _)
  | orphan u =>
      cases op <;> try contradiction
      exact absurd rfl (hsweep _ _ _ _ _)
  | _ => trivial

/-! ## Pending backfills -/

/-- Every pending backfill ends at or below the cursor. -/
def Db.Reached (db : Db) : Prop :=
  ∀ w b, db.watches.get? w.id = some w → w.backfillTo = some b → db.Passed w.chainId b

/-- A watch that a step of the server adds is one whose registration read the
cursor. -/
theorem Server.step_new_watch {s : Server} {i : ServerStep} {w : Watch} (undisturbed : i.Undisturbed s)
    (hnone : s.db.watches.get? w.id = none) (hw : (s.step i).db.watches.get? w.id = some w) :
    ∃ (new : NewWatch) (seq cur : Nat), s.db.CursorAt new.chainId cur ∧
      w = new.row w.id seq cur s.db.now := by
  have hyields := s.step_yields i
  have htrace := step_trace undisturbed
  generalize (s.step i).db = db at hyields htrace hw
  have hstill : (∀ w, ¬ i.Allows s (.register w)) → False := fun hno => by
    obtain ⟨acts, htr, hallow⟩ := htrace
    rw [Trace.no_new_watch htr (fun a ha u heq => hno u (heq ▸ hallow a ha)) hnone] at hw
    contradiction
  cases hyields with
  | idle => rw [hnone] at hw; contradiction
  | runs _ =>
      obtain ⟨new, seq, cur, hcur, hrow, -⟩ := exec_new_watch hnone hw
      exact ⟨new, seq, cur, hcur, hrow⟩
  | sweeps _ _ => exact absurd (fun _ => id) hstill
  | forwards _ => exact absurd (fun _ => id) hstill

/-- A step of the server leaves the pending backfills at or below the cursor. -/
theorem Server.reached_step {s : Server} {i : ServerStep} (holds : s.Holds)
    (forward : ∀ op ∈ i.op?, op.Forward) (opens : s.Opens Op.Forward) (undisturbed : i.Undisturbed s)
    (inv : s.db.Reached) : (s.step i).db.Reached := by
  intro w b hw hb
  refine passed_step holds forward opens ?_
  cases hold : s.db.watches.get? w.id with
  | none =>
      obtain ⟨new, seq, cur, hcur, hrow⟩ := step_new_watch undisturbed hold hw
      have hto : (if startBlock cur new.headEstimate new.lookbackBlocks ≤ cur then some cur else none) =
          some b := by
        rw [hrow] at hb
        exact hb
      split at hto
      · rw [hrow]
        exact ⟨cur, hcur, Nat.le_of_eq (Option.some.inj hto).symm⟩
      · contradiction
  | some u =>
      have hid : u.id = w.id := Table.key_of_get? hold
      obtain ⟨acts, htr, -⟩ := step_trace undisturbed
      obtain ⟨w', hw', hlater⟩ := htr.invariant (Db.Retains · u) (fun _ _ _ => Db.Retains.step)
        (Db.Retains.of_get? (by rw [hid]; exact hold))
      rw [hid, hw] at hw'
      obtain rfl := Option.some.inj hw'
      rw [hlater.same.chainId]
      exact inv u b (by rw [hid]; exact hold) (hlater.backfillTo b hb)

/-- So they are in every undisturbed run. -/
theorem Server.reached_run {steps : List ServerStep} (forward : ∀ i ∈ steps, ∀ op ∈ i.op?, op.Forward)
    (undisturbed : Along Server.step (fun s i => i.Undisturbed s) {} steps) :
    (run Server.step {} steps).db.Reached := by
  have inv := invariant_along (fun s : Server => s.Holds ∧ s.Opens Op.Forward ∧ s.db.Reached)
    (fun s i hi hs hok => ⟨hs.1.step i, hs.2.1.step (fun _ _ _ _ _ _ h => h) (forward i hi),
      reached_step hs.1 (forward i hi) hs.2.1 hok hs.2.2⟩)
    ⟨holds_run [], opens_empty _, fun w b hw => by simp [Db.empty] at hw⟩ undisturbed
  exact inv.2.2

/-- The same for runs of operations. -/
theorem backfillTo_passed (ops : List Op) (h : ∀ op ∈ ops, op.Forward) {w : Watch} {b : Nat}
    (hw : (run exec Db.empty ops).watches.get? w.id = some w) (hb : w.backfillTo = some b) :
    (run exec Db.empty ops).Passed w.chainId b := by
  have hreached := Server.reached_run (mem_op? h) (undisturbed_op ops)
  rw [run_op] at hreached
  exact hreached w b hw hb

/-! ## Settled rows -/

/-- Every backfill scans a batch that `pending_backfills` returned earlier. -/
def Server.Planned (steps : List ServerStep) : Prop :=
  ∀ pre chain cache batch logs post,
    steps = pre ++ .op (.applyBackfill chain cache batch logs) :: post →
      ∃ earlier limit, earlier <+: pre ∧
        batch = pendingBackfills (run Server.step {} earlier).db chain.chainId limit

/-- A part of a planned run of the server is planned. -/
theorem Server.Planned.of_append {steps later : List ServerStep} (h : Planned (steps ++ later)) :
    Planned steps := by
  intro pre chain cache batch logs post heq
  exact h pre chain cache batch logs (post ++ later) (by rw [heq]; simp)

/-- Without backfills there is nothing to plan there either. -/
theorem Server.planned_of_no_backfill {steps : List ServerStep}
    (h : ∀ chain cache batch logs, ServerStep.op (.applyBackfill chain cache batch logs) ∉ steps) :
    Planned steps := by
  intro pre chain cache batch logs post heq
  exact absurd (by rw [heq]; simp) (h chain cache batch logs)

/-- A planned run of operations is a planned run of the server. -/
theorem Planned.server {ops : List Op} (h : Planned ops) : Server.Planned (ops.map .op) := by
  intro pre chain cache batch logs post heq
  obtain ⟨before, rest, rfl, rfl, hrest⟩ := List.map_eq_append_iff.mp heq
  obtain ⟨op, after, rfl, hop, -⟩ := List.map_eq_cons_iff.mp hrest
  obtain rfl := ServerStep.op.inj hop
  obtain ⟨earlier, limit, ⟨between, rfl⟩, hbatch⟩ := h before chain cache batch logs after rfl
  exact ⟨earlier.map .op, limit, ⟨between.map .op, by rw [List.map_append]⟩, by rw [run_op]; exact hbatch⟩

/-- Rows are in the blocks their hashes name, and settled ones at or below the
cursor. -/
structure Db.Settled (height : Nat → B256 → Nat) (db : Db) : Prop where
  heights : db.Heights height
  passed : ∀ log t, db.transfers.get? log = some t → t.status ≠ .pending →
    db.Passed t.chainId t.blockNumber

/-- **Every undisturbed step keeps the settled rows at or below the cursor.** -/
theorem Db.Settled.step {height : Nat → B256 → Nat} {s : Server} {i : ServerStep}
    (inv : s.db.Settled height) (holds : s.Holds) (ranged : ∀ op ∈ i.op?, op.Ranged height)
    (opens : s.Opens (Op.Ranged height)) (undisturbed : i.Undisturbed s)
    (hbatch : ∀ chain cache batch logs, i = .op (.applyBackfill chain cache batch logs) →
      ∀ b ∈ batch, s.db.Passed chain.chainId b.backfillTo) : (s.step i).db.Settled height := by
  have hmoved : ∀ {c b : Nat}, s.db.Passed c b → (s.step i).db.Passed c b :=
    Server.passed_step holds (fun op hop => (ranged op hop).forward)
      fun c o ho => (opens c o ho).forward
  have hyields := s.step_yields i
  generalize (s.step i).db = db at hyields hmoved ⊢
  cases hyields with
  | idle => exact inv
  | @runs op _ =>
      have hop : op.Ranged height := ranged op rfl
      refine ⟨inv.heights.exec hop, fun log t ht hs => ?_⟩
      have hold := fun h => hmoved (inv.passed log t h hs)
      by_cases hsweep : ∃ chain cache expectedCursor toBlock logs,
          op = .applySweep chain cache expectedCursor toBlock logs
      · obtain ⟨chain, cache, expectedCursor, toBlock, logs, rfl⟩ := hsweep
        exact (settled_sweep inv.heights hop ht hs).elim hold id
      · push Not at hsweep
        refine (settled_other inv.heights hop hsweep (fun chain cache batch logs heq b hb n hn => ?_)
          ht hs).elim hold id
        obtain ⟨k, hk, hle⟩ := hmoved (hbatch chain cache batch logs (congrArg _ heq) b hb)
        exact ⟨k, hk, hn.trans hle⟩
  | @sweeps c o _ tx finish =>
      simp only [ServerStep.Undisturbed, tx] at undisturbed
      have hat : s.db.CursorAt o.chain.chainId o.cursor := by
        rw [(holds c _ tx).1]
        exact (holds c _ tx).2
      have htr := OpenSweep.finish_trace undisturbed finish
      refine ⟨htr.invariant_mem (Db.Heights height) (fun _ a _ ha hstep hd => hd.step hstep ?_) inv.heights,
        fun log t ht hs => (settled_finish inv.heights (opens c o tx) hat undisturbed finish ht hs).elim
          (fun h => hmoved (inv.passed log t h hs)) id⟩
      rcases List.mem_append.mp ha with ha | ha
      · exact (sweep_acts_within (P := fun _ _ => True) (opens c o tx) o.matched
          (fun t ht => ⟨o.leftover t ht, o.reached t ht⟩) (fun _ _ => trivial) a ha).1
      · rw [List.mem_singleton.mp ha]
        trivial
  | forwards _ => exact ⟨inv.heights, fun log t ht hs => hmoved (inv.passed log t ht hs)⟩

/-- **Settled rows are at or below the cursor**, in every run. -/
theorem Server.settled_run {height : Nat → B256 → Nat} (steps : List ServerStep)
    (undisturbed : Along Server.step (fun s i => i.Undisturbed s) {} steps)
    (planned : Planned steps) (ranged : ∀ i ∈ steps, ∀ op ∈ i.op?, op.Ranged height) :
    (run Server.step {} steps).db.Settled height := by
  induction steps using List.reverseRecOn with
  | nil => exact ⟨fun log t ht => by simp [Db.empty] at ht, fun log t ht => by simp [Db.empty] at ht⟩
  | append_singleton steps i ih =>
      rw [along_append] at undisturbed
      have hsteps : ∀ j ∈ steps, ∀ op ∈ j.op?, op.Ranged height := fun j hj =>
        ranged j (List.mem_append_left _ hj)
      have hforward : ∀ j ∈ steps, ∀ op ∈ j.op?, op.Forward := fun j hj op hop =>
        (hsteps j hj op hop).forward
      rw [run_append, run_cons, run_nil]
      refine (ih undisturbed.1 planned.of_append hsteps).step (holds_run steps) (ranged i (by simp))
        (opens_run (fun _ _ _ _ _ _ h => h) hsteps) undisturbed.2.1
        fun chain cache batch logs heq b hb => ?_
      -- the batch was read when the cursor had passed its upper ends
      obtain ⟨earlier, limit, ⟨rest, rfl⟩, rfl⟩ := planned steps chain cache batch logs [] (by rw [heq])
      obtain ⟨w, hw, hchain, hto, -⟩ := mem_pendingBackfills hb
      have hreached := reached_run (fun j hj => hforward j (List.mem_append_left _ hj))
        ((along_append _ _ _).mp undisturbed.1).1 w _ hw hto
      rw [← hchain]
      exact passed_run hforward hreached

/-- In a run of whole operations nothing has to be asked about transactions. -/
theorem settled_run {height : Nat → B256 → Nat} (ops : List Op) (planned : Planned ops)
    (ranged : ∀ op ∈ ops, op.Ranged height) : (run exec Db.empty ops).Settled height := by
  have inv := Server.settled_run (ops.map .op) (undisturbed_op ops) planned.server (mem_op? ranged)
  rwa [run_op] at inv

/-- **The life of a transfer.**  Over a run in which no sweep settles a row that
has changed since it was read: the events of a log are one of five lists; an
orphan is reported to the watch it was announced to, with a larger number; a row
keeps its status for good once it is settled; and if the providers return logs
of the range they were asked for and the backfills scan batches they read,
settled rows are at or below the cursor. -/
theorem transfer_life_cycle (steps : List ServerStep)
    (undisturbed : Along Server.step (fun s i => i.Undisturbed s) {} steps) :
    (∀ log, ((run Server.step {} steps).db.eventsFor log).map OutboxRow.eventType ∈
        [[], [.paymentPending], [.paymentConfirmed], [.paymentPending, .paymentConfirmed],
          [.paymentPending, .paymentOrphaned]]) ∧
      (∀ e ∈ (run Server.step {} steps).db.outbox.rows, e.eventType = .paymentOrphaned →
        ∃ e' ∈ (run Server.step {} steps).db.outbox.rows, e'.eventType = .paymentPending ∧
          e'.log? = e.log? ∧ e'.watchId = e.watchId ∧ e'.seq < e.seq) ∧
      (∀ earlier, earlier <+: steps → ∀ t ∈ (run Server.step {} earlier).db.transfers.rows,
        ∃ t' ∈ (run Server.step {} steps).db.transfers.rows,
          t' = t ∨ t.status = .pending ∧ ∃ s, s ≠ .pending ∧ t' = t.withStatus s) ∧
      ∀ height, Server.Planned steps → (∀ i ∈ steps, ∀ op ∈ i.op?, op.Ranged height) →
        ∀ t ∈ (run Server.step {} steps).db.transfers.rows, t.status ≠ .pending →
          ∃ cursor, (run Server.step {} steps).db.CursorAt t.chainId cursor ∧
            t.blockNumber ≤ cursor := by
  have inv := Server.run_invariant Lives (fun _ _ _ => Lives.step) .empty undisturbed
  refine ⟨fun log => ?_, fun e he ho => ?_, fun earlier hearlier t ht => ?_,
    fun height planned ranged t ht hs => ?_⟩
  · exact (inv.life log).types
  · obtain ⟨log, hlog⟩ := inv.about e he ho
    obtain ⟨e', he', htype, howner, hlt⟩ :=
      (inv.life log).announced (mem_eventsFor.mpr ⟨he, hlog⟩) ho
    obtain ⟨hrow, hlog'⟩ := mem_eventsFor.mp he'
    exact ⟨e', hrow, htype, hlog'.trans hlog.symm, howner, hlt⟩
  · obtain ⟨later, rfl⟩ := hearlier
    rw [along_append] at undisturbed
    rw [run_append]
    obtain ⟨acts, htr⟩ := Server.run_trace undisturbed.2
    obtain ⟨t', ht', hsettles⟩ := settles_trace htr (Table.get?_of_mem ht)
    exact ⟨t', Table.mem_of_get? ht', hsettles⟩
  · exact (Server.settled_run steps undisturbed planned ranged).passed t.key t (Table.get?_of_mem ht) hs

/-! ## A backfill between the halves of a sweep -/

/-- A watch with ten blocks of lookback is registered once the cursor is at
`cursor`, and hears of a payment in block 103. -/
def heardFrom (cursor : Nat) : List ServerStep :=
  [.op (.ensureCursor baseChain.chainId cursor),
    .op (.createWatch 1 { watchOrder with headEstimate := 105, lookbackBlocks := 10 }),
    .op (.recordPending baseChain (heardOf 103))]

/-- The sweep of that block reads, a payment in block 107 is announced, and the
sweep commits. -/
def sweptMeanwhile : List ServerStep :=
  heardFrom 100 ++ [.select baseChain .new 100 106 [transferLog 7 9 40 103 0],
    .op (.recordPending baseChain { heardOf 107 with blockNumber := 107 }), .commit baseChain.chainId]

/-- The payment of block 103 is settled for good, and the cursor has passed it. -/
theorem transfer_life_cycle_swept :
    ∃ t ∈ (run Server.step {} sweptMeanwhile).db.transfers.rows, t.status = .confirmed ∧
      t.blockNumber = 103 ∧ ∃ cursor, (run Server.step {} sweptMeanwhile).db.CursorAt t.chainId cursor ∧
        t.blockNumber ≤ cursor := by
  have hrow : ((run Server.step {} sweptMeanwhile).db.transfers.get? ⟨baseChain.chainId, 103, 0⟩).map
      (fun t => (t.status, t.blockNumber)) = some (.confirmed, 103) := by decide +kernel
  obtain ⟨t, ht, heq⟩ := Option.map_eq_some_iff.mp hrow
  obtain ⟨hstatus, hblock⟩ := Prod.mk.inj heq
  have hmem := Table.mem_of_get? ht
  have hplanned : Server.Planned sweptMeanwhile :=
    Server.planned_of_no_backfill (by simp [sweptMeanwhile, heardFrom])
  have hranged : ∀ i ∈ sweptMeanwhile, ∀ op ∈ i.op?, op.Ranged fun _ hash => hash.toNat := by
    decide +kernel
  exact ⟨t, hmem, hstatus, hblock, (transfer_life_cycle sweptMeanwhile (by decide +kernel)).2.2.2 _
    hplanned hranged t hmem (by rw [hstatus]; decide)⟩

/-- The cursor had passed block 103 when the watch was registered.  The next
sweep reads the pending row, the backfill of the watch confirms it, and the sweep
commits. -/
def overtakenSweep (batch : List PendingBackfill) : List ServerStep :=
  heardFrom 105 ++ [.select baseChain .new 105 106 [],
    .op (.applyBackfill baseChain .new batch [transferLog 7 9 40 103 0]), .commit baseChain.chainId]

theorem overtakenSweep_planned : Server.Planned (overtakenSweep
    (pendingBackfills (run Server.step {} (heardFrom 105)).db baseChain.chainId 10)) := by
  intro pre chain cache batch logs post heq
  generalize hbatch : pendingBackfills (run Server.step {} (heardFrom 105)).db baseChain.chainId 10 = b
    at heq
  obtain ⟨rfl, rfl, rfl⟩ : chain = baseChain ∧ batch = b ∧
      pre = heardFrom 105 ++ [.select baseChain .new 105 106 []] := by
    rcases pre with _ | ⟨_, _ | ⟨_, _ | ⟨_, _ | ⟨_, _ | ⟨_, _ | ⟨_, pre⟩⟩⟩⟩⟩⟩ <;>
      simp [overtakenSweep, heardFrom] at heq
    obtain ⟨rfl, rfl, rfl, rfl, ⟨rfl, -, rfl, -⟩, -⟩ := heq
    exact ⟨rfl, rfl, rfl⟩
  exact ⟨heardFrom 105, 10, List.prefix_append _ _, hbatch.symm⟩

/-- **A settled row is settled once more**: the payment was pending, was
confirmed by the backfill, and is orphaned by the sweep. -/
theorem confirmed_then_orphaned :
    ∃ (steps : List ServerStep) (height : Nat → B256 → Nat), Server.Planned steps ∧
      (∀ i ∈ steps, ∀ op ∈ i.op?, op.Ranged height) ∧
      ∃ (earlier : List ServerStep) (log : LogId), earlier <+: steps ∧
        ((run Server.step {} earlier).db.transfers.get? log).map Transfer.status = some .confirmed ∧
        ((run Server.step {} steps).db.transfers.get? log).map Transfer.status = some .orphaned ∧
        ((run Server.step {} steps).db.eventsFor log).map OutboxRow.eventType =
          [.paymentPending, .paymentConfirmed, .paymentOrphaned] := by
  exact ⟨_, fun _ hash => hash.toNat, overtakenSweep_planned, by decide +kernel,
    _, ⟨baseChain.chainId, 103, 0⟩, List.dropLast_prefix _, by decide +kernel, by decide +kernel,
    by decide +kernel⟩

end GumIndexer
